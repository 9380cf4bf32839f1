import Crawlrs.Core.Blocks
import Crawlrs.Core.LTS
import Crawlrs.L4Runtime.Publish

/-!
# The pods' publishers

Publish calls of all pods, overlapping as they like: a call locks its batch
(`lease`), ships it and commits or rolls back (`finish`). No page commits while
the backlog is drained, so every batch is a block of 256 rows of that backlog
(`Backlog`), whatever the interleaving.

* `ship_ok`, `ship_error`: a batch is published exactly when the calling pod
  owns every row of it.
* `inductive_backlog`: whole blocks leave, each through a pod that owns it.
* `Backlog.settled`: where no call makes progress any more, the rows in front of
  the first block no pod can ship are settled.
-/
namespace Crawlrs

variable {β : Type} {D : Deployment β}

namespace Deployment

variable (D)

/-- The publish calls of a pod. -/
def publisher (k : Pod D) : Publisher β := ⟨D.frontier k, D.wire, D.bloom, D.parse, D.runId⟩

/-- What a publish call does with the rows it has locked; 0 is an error, which rolls back.
mirrors crates/crawlrs-runtime/src/outbox.rs:113-169, crates/crawlrs-metadata/src/store.rs:482-535 -/
def ship (k : Pod D) (order : HashOrder) (nowMs : Int) (rows : List OutboxRow) (C : Cluster β) :
    Nat × Cluster β :=
  match OutboxRow.readAll D.parse rows with
  | .error _ => (0, C)
  | .ok entries =>
    match (D.publisher k).ship order nowMs entries C with
    | (.error _, C) => (0, C)
    | (.ok (), C) => (rows.length, { C with ledger := { C.ledger with
        outbox := C.ledger.outbox.markPublished (rows.map OutboxRow.id) } })

/-- A call that overlaps with no other.
mirrors crates/crawlrs-metadata/src/store.rs:452-541 -/
def publishOneBatch (k : Pod D) (order : HashOrder) (nowMs : Int) (C : Cluster β) :
    Nat × Cluster β :=
  match C.ledger.outbox.leaseBatch [] batchSize with
  | [] => (0, C)
  | rows => D.ship k order nowMs rows C

/-- The row reads back as an entry of the pod's. -/
def Ships (k : Pod D) (r : OutboxRow) : Prop := ∃ e, r.read D.parse = .ok e ∧ D.Owns k e

/-- Some pod can ship the whole batch. -/
def OnePod (rows : List OutboxRow) : Prop := ∃ k, ∀ r ∈ rows, D.Ships k r

/-- What the row reads back as is settled. -/
def RowSettled (R : Redis β) (r : OutboxRow) : Prop :=
  ∃ e, r.read D.parse = .ok e ∧ D.IsSettled R e

variable {D}

theorem RowSettled.mono {R R' : Redis β} (hg : R.Grows D.bloom R') {r : OutboxRow}
    (h : D.RowSettled R r) : D.RowSettled R' r := by
  obtain ⟨e, he, hs⟩ := h
  exact ⟨e, he, RedisFrontier.Settled.mono hg hs⟩

theorem ships_iff (k : Pod D) (r : OutboxRow) : (D.publisher k).Ships r ↔ D.Ships k r :=
  exists_congr fun e => and_congr_right fun _ => accepts_iff k e

theorem ship_error {k : Pod D} {rows : List OutboxRow} (h : ¬ ∀ r ∈ rows, D.Ships k r)
    (order : HashOrder) (nowMs : Int) (C : Cluster β) : D.ship k order nowMs rows C = (0, C) := by
  have h : ¬ ∀ r ∈ rows, (D.publisher k).Ships r := by simpa only [ships_iff] using h
  unfold ship
  rcases Publisher.readShip_error h order nowMs C with ⟨e, he⟩ | ⟨entries, e, he, hs⟩
  · have he : OutboxRow.readAll D.parse rows = .error e := he
    rw [he]
  · have he : OutboxRow.readAll D.parse rows = .ok entries := he
    rw [he]
    dsimp only
    rw [hs]

theorem ship_ok {k : Pod D} {rows : List OutboxRow} (h : ∀ r ∈ rows, D.Ships k r)
    (order : HashOrder) (nowMs : Int) (C : Cluster β) :
    (D.ship k order nowMs rows C).1 = rows.length ∧
      (D.ship k order nowMs rows C).2.ledger.outbox =
        C.ledger.outbox.markPublished (rows.map OutboxRow.id) ∧
      C.redis.Grows D.bloom (D.ship k order nowMs rows C).2.redis ∧
      ∀ r ∈ rows, D.RowSettled (D.ship k order nowMs rows C).2.redis r := by
  have h : ∀ r ∈ rows, (D.publisher k).Ships r := by simpa only [ships_iff] using h
  obtain ⟨entries, C', he, hs, hout, hgrows, hset⟩ := Publisher.readShip_ok h order nowMs C
  have he : OutboxRow.readAll D.parse rows = .ok entries := he
  have hship : D.ship k order nowMs rows C = (rows.length, { C' with ledger := { C'.ledger with
      outbox := C'.ledger.outbox.markPublished (rows.map OutboxRow.id) } }) := by
    unfold ship
    rw [he]
    dsimp only
    rw [hs]
  rw [hship]
  exact ⟨rfl, by dsimp only; rw [hout], hgrows, hset⟩

end Deployment

/-! ## Overlapping calls -/

/-- The cluster and the batches that calls under way have locked. -/
structure Drain (D : Deployment β) where
  cluster : Cluster β
  inFlight : List (Pod D × List OutboxRow)

namespace Drain

inductive Label (D : Deployment β)
  | lease (k : Pod D)
  | finish (k : Pod D) (order : HashOrder) (nowMs : Int)
  | other

/-- The ids of all locked rows. -/
def locked (d : Drain D) : List Nat := d.inFlight.flatMap fun call => call.2.map OutboxRow.id

/-- `other` is what the pods do besides: it may submit, but commits no page. -/
inductive Step : Drain D → Label D → Drain D → Prop
  | lease {d : Drain D} (k : Pod D) :
      d.cluster.ledger.outbox.leaseBatch d.locked batchSize ≠ [] →
      Step d (.lease k) { d with inFlight := d.inFlight ++
        [(k, d.cluster.ledger.outbox.leaseBatch d.locked batchSize)] }
  | finish {d : Drain D} {pre post : List (Pod D × List OutboxRow)} {k : Pod D}
      {rows : List OutboxRow} (order : HashOrder) (nowMs : Int) :
      d.inFlight = pre ++ (k, rows) :: post →
      Step d (.finish k order nowMs) ⟨(D.ship k order nowMs rows d.cluster).2, pre ++ post⟩
  | other {d : Drain D} {C : Cluster β} : d.cluster.redis.Grows D.bloom C.redis →
      C.ledger.outbox = d.cluster.ledger.outbox → Step d .other { d with cluster := C }

/-- Every run of the publishers over the backlog of `C`. -/
def drains (D : Deployment β) (C : Cluster β) : LTS (Drain D) (Label D) where
  init d := d = ⟨C, []⟩
  step := Step

/-- No call is under way, and none that any pod could make publishes a row. -/
def Quiescent (d : Drain D) : Prop :=
  d.inFlight = [] ∧ ∀ k order nowMs, (D.publishOneBatch k order nowMs d.cluster).1 = 0

/-- A call that overlaps with no other is a lease and a finish. -/
theorem reachable_publish {C C' : Cluster β} (h : (drains D C).Reachable ⟨C', []⟩) (k : Pod D)
    (order : HashOrder) (nowMs : Int) :
    (drains D C).Reachable ⟨(D.publishOneBatch k order nowMs C').2, []⟩ := by
  unfold Deployment.publishOneBatch
  split
  · exact h
  · rename_i hne
    let rows := C'.ledger.outbox.leaseBatch [] batchSize
    have hlease : (drains D C).Reachable ⟨C', [(k, rows)]⟩ := h.step (.lease k hne)
    have hstep : Step ⟨C', [(k, rows)]⟩ (.finish k order nowMs)
        ⟨(D.ship k order nowMs rows C').2, [] ++ []⟩ :=
      .finish order nowMs (List.nil_append _).symm
    exact hlease.step hstep

end Drain

/-- The `i`-th batch of a backlog. -/
abbrev batch (U : List OutboxRow) (i : Nat) : List OutboxRow := block batchSize U i

/-- Where a drain of the backlog `U` stands: the batches of `left` are unpublished and those of
`busy` locked; the others have left through a pod that owns them. -/
structure Backlog (U : List OutboxRow) (d : Drain D) (left busy : List Nat) : Prop where
  sorted : left.Pairwise (· < ·)
  lt : ∀ i ∈ left, batchSize * i < U.length
  unpublished : d.cluster.ledger.outbox.unpublished = left.flatMap (batch U)
  inFlight : d.inFlight.map Prod.snd = busy.map (batch U)
  busy_left : ∀ i ∈ busy, i ∈ left
  busy_nodup : busy.Nodup
  onePod : ∀ i, batchSize * i < U.length → i ∉ left → D.OnePod (batch U i)
  settled : ∀ i, batchSize * i < U.length → i ∉ left →
    ∀ r ∈ batch U i, D.RowSettled d.cluster.redis r

namespace Backlog

variable {U : List OutboxRow} {d : Drain D} {left busy : List Nat}

theorem init (C : Cluster β) :
    Backlog (D := D) C.ledger.outbox.unpublished ⟨C, []⟩
      (List.range ((C.ledger.outbox.unpublished.length + batchSize - 1) / batchSize)) [] where
  sorted := List.pairwise_lt_range
  lt i hi := by
    rw [List.mem_range] at hi
    unfold batchSize at hi ⊢
    omega
  unpublished := by
    rw [flatMap_range_block, List.take_of_length_le]
    unfold batchSize
    omega
  inFlight := rfl
  busy_left := by simp
  busy_nodup := .nil
  onePod i hi hn := by
    exact absurd (List.mem_range.2 (by unfold batchSize at hi ⊢; omega)) hn
  settled i hi hn := by
    exact absurd (List.mem_range.2 (by unfold batchSize at hi ⊢; omega)) hn

theorem batch_of_id (hU : (U.map OutboxRow.id).Pairwise (· < ·)) {i j : Nat} {r : OutboxRow}
    (hr : r ∈ batch U i) (h : r.id ∈ (batch U j).map OutboxRow.id) : i = j := by
  have hids : (U.map OutboxRow.id).Nodup := hU.imp Nat.ne_of_lt
  obtain ⟨r', hr', hid⟩ := List.mem_map.1 h
  have he : r' = r := List.inj_on_of_nodup_map hids (block_subset hr') (block_subset hr) hid
  exact block_disjoint (by decide) (.of_map _ hids) hr (he ▸ hr')

theorem mem_locked (h : Backlog U d left busy) (hU : (U.map OutboxRow.id).Pairwise (· < ·))
    {i : Nat} {r : OutboxRow} (hr : r ∈ batch U i) : r.id ∈ d.locked ↔ i ∈ busy := by
  have hlocked : d.locked = busy.flatMap fun j => (batch U j).map OutboxRow.id := by
    calc d.locked = (d.inFlight.map Prod.snd).flatMap (List.map OutboxRow.id) := by
          rw [Drain.locked, List.flatMap_map]
      _ = busy.flatMap fun j => (batch U j).map OutboxRow.id := by
          rw [h.inFlight, List.flatMap_map]
  rw [hlocked, List.mem_flatMap]
  constructor
  · rintro ⟨j, hj, hm⟩
    exact batch_of_id hU hr hm ▸ hj
  · intro hi
    exact ⟨i, hi, List.mem_map_of_mem hr⟩

/-- What a call finds unlocked: the batches not under way, and so one whole batch first. -/
theorem leaseBatch_eq (h : Backlog U d left busy) (hU : (U.map OutboxRow.id).Pairwise (· < ·)) :
    d.cluster.ledger.outbox.leaseBatch d.locked batchSize =
      match left.filter fun i => !busy.contains i with
      | [] => []
      | i :: _ => batch U i := by
  have hfree : (left.flatMap (batch U)).filter (fun r => !d.locked.contains r.id) =
      (left.filter fun i => !busy.contains i).flatMap (batch U) := by
    refine filter_flatMap fun i _ r hr => ?_
    simp only [List.contains_eq_mem, mem_locked h hU hr]
  rw [OutboxTable.leaseBatch, h.unpublished, hfree]
  split
  · rename_i hnil
    rw [hnil]
    rfl
  · rename_i i is hcons
    have hsub : ∀ j ∈ i :: is, j ∈ left := by
      intro j hj
      rw [← hcons] at hj
      exact (List.mem_filter.1 hj).1
    rw [hcons]
    exact take_flatMap_block (hcons ▸ h.sorted.sublist List.filter_sublist)
      fun j hj => h.lt j (hsub j hj)

theorem lease (h : Backlog U d left busy) (hU : (U.map OutboxRow.id).Pairwise (· < ·)) (k : Pod D)
    (hne : d.cluster.ledger.outbox.leaseBatch d.locked batchSize ≠ []) :
    ∃ i, Backlog U { d with inFlight := d.inFlight ++
      [(k, d.cluster.ledger.outbox.leaseBatch d.locked batchSize)] } left (busy ++ [i]) := by
  have hl := leaseBatch_eq h hU
  split at hl
  · exact absurd hl hne
  · rename_i i is hcons
    have hi : i ∈ left.filter fun i => !busy.contains i := by
      rw [hcons]
      exact List.mem_cons_self
    obtain ⟨hil, hib⟩ := List.mem_filter.1 hi
    have hib : i ∉ busy := by simpa using hib
    refine ⟨i, ?_⟩
    exact { h with
      inFlight := by simp [h.inFlight, hl]
      busy_left := by
        intro j hj
        rcases List.mem_append.1 hj with hj | hj
        · exact h.busy_left j hj
        · rwa [List.mem_singleton.1 hj]
      busy_nodup := by
        rw [List.nodup_append]
        refine ⟨h.busy_nodup, by simp, ?_⟩
        intro a ha b hb
        rw [List.mem_singleton.1 hb]
        exact fun he => hib (he ▸ ha) }

/-- A call ends: with an error its batch is free again, otherwise it has left. -/
theorem finish (h : Backlog U d left busy) (hU : (U.map OutboxRow.id).Pairwise (· < ·))
    {pre post : List (Pod D × List OutboxRow)} {k : Pod D} {rows : List OutboxRow}
    (order : HashOrder) (nowMs : Int) (hd : d.inFlight = pre ++ (k, rows) :: post) :
    ∃ left' busy', Backlog U ⟨(D.ship k order nowMs rows d.cluster).2, pre ++ post⟩ left' busy' := by
  have hmap := h.inFlight.symm
  rw [hd, List.map_append, List.map_cons, List.map_eq_append_iff] at hmap
  obtain ⟨busy1, busy', rfl, hpre, hpost⟩ := hmap
  rw [List.map_eq_cons_iff] at hpost
  obtain ⟨j, busy2, rfl, hj, hpost⟩ := hpost
  have hj : batch U j = rows := hj
  subst hj
  have hnodup : (busy1 ++ busy2).Nodup := h.busy_nodup.sublist (by simp)
  have hfree : (pre ++ post).map Prod.snd = (busy1 ++ busy2).map (batch U) := by
    rw [List.map_append, List.map_append, hpre, hpost]
  have hleft : ∀ i ∈ busy1 ++ busy2, i ∈ left :=
    fun i hi => h.busy_left i (by simp only [List.mem_append, List.mem_cons] at hi ⊢; tauto)
  by_cases hall : ∀ r ∈ batch U j, D.Ships k r
  · obtain ⟨-, hout, hgrows, hset⟩ := Deployment.ship_ok hall order nowMs d.cluster
    have hgone : ∀ i, i ∉ left.filter (· ≠ j) → i ∉ left ∨ i = j := by
      intro i hi
      by_cases hij : i = j
      · exact Or.inr hij
      · exact Or.inl fun hl => hi (List.mem_filter.2 ⟨hl, by simpa using hij⟩)
    refine ⟨left.filter (· ≠ j), busy1 ++ busy2, ?_⟩
    exact {
      sorted := h.sorted.sublist List.filter_sublist
      lt := fun i hi => h.lt i (List.mem_filter.1 hi).1
      unpublished := by
        dsimp only
        rw [hout, OutboxTable.unpublished_markPublished, h.unpublished]
        refine filter_flatMap fun i _ r hr => ?_
        have hij : r.id ∈ (batch U j).map OutboxRow.id ↔ i = j :=
          ⟨batch_of_id hU hr, fun he => he ▸ List.mem_map_of_mem hr⟩
        simp only [List.contains_eq_mem, hij, decide_not, ne_eq]
      inFlight := hfree
      busy_left := fun i hi => List.mem_filter.2 ⟨hleft i hi, by
        have hne : j ∉ busy1 ++ busy2 := fun hj =>
          (List.nodup_cons.1 (List.nodup_middle.1 h.busy_nodup)).1 hj
        have hij : i ≠ j := fun he => hne (he ▸ hi)
        simpa using hij⟩
      busy_nodup := hnodup
      onePod := fun i hlt hi => by
        rcases hgone i hi with hi | rfl
        · exact h.onePod i hlt hi
        · exact ⟨k, hall⟩
      settled := fun i hlt hi r hr => by
        rcases hgone i hi with hi | rfl
        · exact (h.settled i hlt hi r hr).mono hgrows
        · exact hset r hr }
  · rw [Deployment.ship_error hall order nowMs]
    exact ⟨left, busy1 ++ busy2, { h with
      inFlight := hfree
      busy_left := hleft
      busy_nodup := hnodup }⟩

/-- The others may settle more, and touch no row of the backlog. -/
theorem other (h : Backlog U d left busy) {C : Cluster β}
    (hg : d.cluster.redis.Grows D.bloom C.redis)
    (ho : C.ledger.outbox = d.cluster.ledger.outbox) :
    Backlog U { d with cluster := C } left busy :=
  { h with
    unpublished := by
      dsimp only
      rw [ho, h.unpublished]
    settled := fun i hlt hi r hr => (h.settled i hlt hi r hr).mono hg }

end Backlog

/-- Every run of the publishers takes whole batches out of the backlog. -/
theorem inductive_backlog (C : Cluster β) :
    (Drain.drains D C).Inductive fun d =>
      ∃ left busy, Backlog C.ledger.outbox.unpublished d left busy where
  init d h0 := by
    have h0 : d = ⟨C, []⟩ := h0
    subst h0
    exact ⟨_, _, .init C⟩
  step d l d' ih hst := by
    obtain ⟨left, busy, h⟩ := ih
    have hU := C.ledger.outbox.unpublished_ids
    cases hst with
    | lease k hne =>
      obtain ⟨i, hi⟩ := h.lease hU k hne
      exact ⟨left, busy ++ [i], hi⟩
    | finish order nowMs hd => exact h.finish hU order nowMs hd
    | other hg ho => exact ⟨left, busy, h.other hg ho⟩

/-- The batch a lone call takes. -/
theorem Backlog.publishOneBatch_ok {U : List OutboxRow} {d : Drain D} {left : List Nat} {i : Nat}
    (h : Backlog U d (i :: left) []) (hU : (U.map OutboxRow.id).Pairwise (· < ·)) {k : Pod D}
    (hk : ∀ r ∈ batch U i, D.Ships k r) (hd : d.inFlight = []) (order : HashOrder) (nowMs : Int) :
    0 < (D.publishOneBatch k order nowMs d.cluster).1 := by
  have hl := h.leaseBatch_eq hU
  have hlocked : d.locked = [] := by simp [Drain.locked, hd]
  have hfree : (i :: left).filter (fun i => !([] : List Nat).contains i) = i :: left := by simp
  rw [hlocked, hfree] at hl
  dsimp only at hl
  have hlt := h.lt i List.mem_cons_self
  have hpos : 0 < (batch U i).length := by
    simp only [block, List.length_take, List.length_drop]
    unfold batchSize at hlt ⊢
    omega
  unfold Deployment.publishOneBatch
  rw [hl]
  split
  · rename_i hnil
    rw [hnil] at hpos
    exact absurd hpos (by simp)
  · rw [(Deployment.ship_ok hk order nowMs d.cluster).1]
    exact hpos

/-- Where no call makes progress, every row before the first batch that no pod can ship is
settled. -/
theorem Backlog.settled_before {U : List OutboxRow} {d : Drain D} {left busy : List Nat}
    (h : Backlog U d left busy) (hU : (U.map OutboxRow.id).Pairwise (· < ·)) (hq : d.Quiescent)
    {p : Nat} {r : OutboxRow} (hr : U[p]? = some r)
    (hone : ∀ i, batchSize * i ≤ p → D.OnePod (batch U i)) : D.RowSettled d.cluster.redis r := by
  obtain ⟨hfl, hstuck⟩ := hq
  have hbusy : busy = [] := by
    have := h.inFlight
    simpa [hfl] using this.symm
  subst hbusy
  have hp : p < U.length := (List.getElem?_eq_some_iff.1 hr).1
  have hmul : batchSize * (p / batchSize) ≤ p := Nat.mul_div_le p batchSize
  have hmem : r ∈ batch U (p / batchSize) := (mem_block (by decide)).2 ⟨p, rfl, hr⟩
  refine h.settled (p / batchSize) (by omega) ?_ r hmem
  intro hin
  cases left with
  | nil => cases hin
  | cons i left =>
    -- The first batch left is at or before the row's own, so some pod could still ship it.
    have hle : i ≤ p / batchSize := by
      rcases List.mem_cons.1 hin with he | he
      · exact Nat.le_of_eq he.symm
      · exact Nat.le_of_lt ((List.pairwise_cons.1 h.sorted).1 _ he)
    obtain ⟨k, hk⟩ := hone i ((Nat.mul_le_mul_left _ hle).trans hmul)
    have hprog := h.publishOneBatch_ok hU hk hfl ⟨id, fun _ => .refl _⟩ 0
    rw [hstuck] at hprog
    exact absurd hprog (by simp)

end Crawlrs

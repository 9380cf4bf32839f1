import Crawlrs.Core.Loop
import Crawlrs.L4Runtime.Outbox
import Crawlrs.L5Fakes.Metadata

/-!
# The in-memory store beside the Postgres one

`InMemoryMetadataStore` "mirrors the `PostgresMetadataStore` semantics", for tests of
the runtime. Both are given the same calls, those of the outbox among them, and their
replies are compared: what `get` reads, the retry counts, the batches the publish calls
ship, and the row counts of the history and the outbox.

The two name their rows differently. Postgres draws ids from a sequence, which skips
one where the unique constraint drops a row, and reads URLs back from text; the double
counts its rows and keeps the entries. `Alike` pairs the rows of the two tables, and with
them the ids that publish calls under way have locked.

* `Alike.mark`, `Alike.publish`, `Alike.shipped`: a call keeps the stores alike.
* `stores_reply_alike`: the replies of every sequence of calls, publish calls overlapping.

The texts of errors, which differ, and the ids of a batch are not compared. Depths are an
`INT` and are clamped at 0 where they are read.
-/
namespace Crawlrs

/-- `UrlRow::into_metadata`.
mirrors crates/crawlrs-metadata/src/store.rs:579-607 -/
def UrlRow.intoMetadata (parse : ParseUrl) (url : CanonicalUrl) (row : UrlRow) : UrlMetadata where
  url := url
  status := row.status.lifecycle
  retryCount := UInt32.ofNat row.retryCount
  blobPath := row.blobPath
  contentHash := row.contentHash
  depth := if row.depth.toNat < 2 ^ 31 then row.depth else 0
  lastRunId := row.lastRunId
  discoveredFrom := row.discoveredFrom.bind fun raw => (parse raw).toOption

/-- mirrors crates/crawlrs-metadata/src/store.rs:163-178 -/
def Ledger.get (parse : ParseUrl) (l : Ledger) (url : CanonicalUrl) : Option UrlMetadata :=
  (l.rows url.asStr).map (·.intoMetadata parse url)

/-- mirrors crates/crawlrs-fakes/src/metadata_store.rs:99-101 -/
def Fakes.LedgerState.get (s : LedgerState) (url : CanonicalUrl) : Option UrlMetadata :=
  s.rows url.asStr

/-! ## Calls and replies -/

inductive MetadataCall
  | mark (c : Ledger.Call)
  | get (url : CanonicalUrl)
  /-- `publish`, up to its call of `ship` -/
  | publish (max : Nat)
  /-- `ship` of the `i`-th publish call under way has returned -/
  | shipped (i : Nat) (result : Except Error Unit)
  /-- how many history rows tell of a success, and how many outbox rows there are -/
  | counts

inductive MetadataReply
  | marked (ok : Bool)
  | retryCount (n : Option UInt32)
  | found (m : Option UrlMetadata)
  | ship (entries : List UrlEntry)
  | published (r : Except Error Nat)
  | counted (succeeded outbox : Nat)
deriving DecidableEq

/-- An answer but for the text of an error. -/
def MetadataReply.ofAnswer : (c : Ledger.Call) → c.Answer → MetadataReply
  | .markAttempting .., r => .marked r.toOption.isSome
  | .markSucceeded _, r => .marked r.toOption.isSome
  | .markFailed .., r => .retryCount r.toOption
  | .markPermanentlyFailed .., r => .marked r.toOption.isSome
  | .markDiscoveredSkipped .., r => .marked r.toOption.isSome

/-- What `publish` returns after `ship`. -/
def MetadataReply.afterShip (n : Nat) : Except Error Unit → MetadataReply
  | .ok () => .published (.ok n)
  | .error e => .published (.error e)

/-- The tables, with the rows that transactions under way have locked. -/
structure PostgresStore where
  ledger : Ledger := .empty
  locked : List (List Nat) := []

def HistoryRow.isSucceeded (r : HistoryRow) : Bool :=
  match r.event with
  | .succeeded _ => true
  | _ => false

/-- mirrors crates/crawlrs-metadata/src/store.rs:163-334,448-535 -/
def PostgresStore.exec (parse : ParseUrl) (p : PostgresStore) :
    MetadataCall → PostgresStore × MetadataReply
  | .mark c => ({ p with ledger := (p.ledger.exec c).2 }, .ofAnswer c (p.ledger.exec c).1)
  | .get url => (p, .found (p.ledger.get parse url))
  | .publish max =>
    if 2 ^ 63 ≤ max then (p, .published (.error OutboxTable.negativeLimit))
    else
      match p.ledger.outbox.leaseBatch p.locked.flatten max with
      | [] => (p, .published (.ok 0))
      | rows =>
        match OutboxRow.readAll parse rows with
        | .error e => (p, .published (.error e))
        | .ok entries => ({ p with locked := p.locked ++ [rows.map OutboxRow.id] }, .ship entries)
  | .shipped i result =>
    match p.locked[i]? with
    | none => (p, .published (.ok 0))
    | some ids =>
      let outbox := match result with
        | .ok () => p.ledger.outbox.markPublished ids
        | .error _ => p.ledger.outbox
      (⟨{ p.ledger with outbox }, p.locked.eraseIdx i⟩, .afterShip ids.length result)
  | .counts => (p, .counted (p.ledger.history.countP HistoryRow.isSucceeded) p.ledger.outbox.rows.length)

namespace Fakes

/-- The state behind the lock, with the ids of the publish calls under way. -/
structure MemoryStore where
  ledger : LedgerState := {}
  openCalls : List (List Nat) := []

/-- mirrors crates/crawlrs-fakes/src/metadata_store.rs:69-250 -/
def MemoryStore.exec (m : MemoryStore) : MetadataCall → MemoryStore × MetadataReply
  | .mark c => ({ m with ledger := (m.ledger.exec c).2 }, .ofAnswer c (m.ledger.exec c).1)
  | .get url => (m, .found (m.ledger.get url))
  | .publish max =>
    match m.ledger.outbox.leaseBatch max with
    | (outbox, []) => ({ m with ledger := { m.ledger with outbox } }, .published (.ok 0))
    | (outbox, entries) =>
      (⟨{ m.ledger with outbox }, m.openCalls ++ [ids entries]⟩,
        .ship (entries.map OutboxEntry.entry))
  | .shipped i result =>
    match m.openCalls[i]? with
    | none => (m, .published (.ok 0))
    | some ids =>
      let outbox := match result with
        | .ok () => m.ledger.outbox.finalizeLease ids
        | .error _ => m.ledger.outbox.releaseLease ids
      (⟨{ m.ledger with outbox }, m.openCalls.eraseIdx i⟩, .afterShip ids.length result)
  | .counts => (m, .counted m.ledger.succeededHistoryCount m.ledger.outbox.rows.length)

end Fakes

/-! ## Calls that are compared -/

/-- The URL is read back from its text. -/
def Reads (parse : ParseUrl) (url : CanonicalUrl) : Prop := parse url.asStr = .ok url

/-- URLs that are read back, depths that fit an `INT`, a retry count that fits one with the failure,
and a `max` that fits a `BIGINT`, as which Postgres reads it. -/
def Aligned (parse : ParseUrl) (p : PostgresStore) : MetadataCall → Prop
  | .mark (.markAttempting url _ depth) => Reads parse url ∧ depth.toNat < 2 ^ 31
  | .mark (.markSucceeded record) => ∀ child ∈ record.outbound,
      Reads parse child.url ∧ ∀ u ∈ child.discoveredFrom, Reads parse u
  | .mark (.markFailed url _) => ∀ row ∈ p.ledger.rows url.asStr, row.retryCount + 1 < 2 ^ 31
  | .mark (.markDiscoveredSkipped url _ depth discoveredFrom _) =>
      Reads parse url ∧ depth.toNat < 2 ^ 31 ∧ ∀ u ∈ discoveredFrom, Reads parse u
  | .get url => Reads parse url
  | .publish max => max < 2 ^ 63
  | _ => True

def AlignedRun (parse : ParseUrl) : PostgresStore → List MetadataCall → Prop
  | _, [] => True
  | p, c :: cs => Aligned parse p c ∧ AlignedRun parse (p.exec parse c).1 cs

/-! ## Pairs of ids -/

section Pairs

variable {J B : List (Nat × Nat)} {q : Nat × Nat}

/-- Among pairs without repetition on either side, a selection has the one side of a pair exactly
if it has the other. -/
theorem mem_fst_iff_mem_snd (h1 : (J.map Prod.fst).Nodup) (h2 : (J.map Prod.snd).Nodup)
    (hB : ∀ x ∈ B, x ∈ J) (hq : q ∈ J) : q.1 ∈ B.map Prod.fst ↔ q.2 ∈ B.map Prod.snd := by
  constructor
  · intro h
    obtain ⟨x, hx, he⟩ := List.mem_map.1 h
    obtain rfl := List.inj_on_of_nodup_map h1 (hB x hx) hq he
    exact List.mem_map_of_mem hx
  · intro h
    obtain ⟨x, hx, he⟩ := List.mem_map.1 h
    obtain rfl := List.inj_on_of_nodup_map h2 (hB x hx) hq he
    exact List.mem_map_of_mem hx

end Pairs

/-! ## Stores that are alike -/

open Fakes (InMemoryOutboxRow OutboxState MemoryStore)

structure RowAlike (parse : ParseUrl) (u : String) (row : UrlRow) (m : UrlMetadata) : Prop where
  url : parse u = .ok m.url
  status : m.status = row.status.lifecycle
  retryCount : m.retryCount = UInt32.ofNat row.retryCount
  blobPath : m.blobPath = row.blobPath
  contentHash : m.contentHash = row.contentHash
  depth : m.depth = row.depth
  small : row.depth.toNat < 2 ^ 31
  lastRunId : m.lastRunId = row.lastRunId
  discoveredFrom : row.discoveredFrom = m.discoveredFrom.map CanonicalUrl.asStr
  reads : ∀ d ∈ m.discoveredFrom, Reads parse d

/-- A row of Postgres with its double. -/
abbrev RowPair := OutboxRow × InMemoryOutboxRow

def RowPair.ids (z : RowPair) : Nat × Nat := (z.1.id, z.2.id)

structure RowPair.Same (parse : ParseUrl) (z : RowPair) : Prop where
  read : z.1.read parse = .ok z.2.entry
  published : z.1.published = z.2.published

/-- The tables row by row, and the publish calls under way by the pairs they have locked. -/
structure OutboxAlike (parse : ParseUrl) (t : OutboxTable) (s : OutboxState)
    (Z : List RowPair) (K : List (List (Nat × Nat))) : Prop where
  postgres : t.rows = Z.map Prod.fst
  memory : s.rows = Z.map Prod.snd
  same : ∀ z ∈ Z, z.Same parse
  nodup : (Z.map fun z => z.2.id).Nodup
  le_next : ∀ z ∈ Z, z.2.id ≤ s.nextId
  dedupe : ∀ u a c, (u, a, c) ∈ s.dedupe ↔ t.conflicts u a c = true
  locked : ∀ b ∈ K, ∀ q ∈ b, q ∈ Z.map RowPair.ids
  disjoint : (K.flatten.map Prod.snd).Nodup
  leased : ∀ i, i ∈ s.leased ↔ i ∈ K.flatten.map Prod.snd

namespace OutboxAlike

variable {parse : ParseUrl} {t : OutboxTable} {s : OutboxState} {Z : List RowPair}
  {K : List (List (Nat × Nat))}

theorem nodup_fst (h : OutboxAlike parse t s Z K) : ((Z.map RowPair.ids).map Prod.fst).Nodup := by
  have hids : (Z.map RowPair.ids).map Prod.fst = t.rows.map OutboxRow.id := by
    rw [h.postgres, List.map_map, List.map_map]
    rfl
  rw [hids]
  exact t.sorted.imp fun hlt => Nat.ne_of_lt hlt

theorem nodup_snd (h : OutboxAlike parse t s Z K) : ((Z.map RowPair.ids).map Prod.snd).Nodup := by
  rw [List.map_map]
  exact h.nodup

theorem mem_iff (h : OutboxAlike parse t s Z K) {b : List (Nat × Nat)}
    (hb : ∀ q ∈ b, q ∈ Z.map RowPair.ids) {z : RowPair} (hz : z ∈ Z) :
    z.1.id ∈ b.map Prod.fst ↔ z.2.id ∈ b.map Prod.snd :=
  mem_fst_iff_mem_snd h.nodup_fst h.nodup_snd hb (q := z.ids) (List.mem_map_of_mem hz)

theorem locked_flatten (h : OutboxAlike parse t s Z K) : ∀ q ∈ K.flatten, q ∈ Z.map RowPair.ids := by
  intro q hq
  obtain ⟨b, hb, hqb⟩ := List.mem_flatten.1 hq
  exact h.locked b hb q hqb

/-! ### Commits -/

/-- A row is read back as the link it was written for. -/
theorem read_row {child : UrlEntry} (hurl : Reads parse child.url)
    (hfrom : ∀ u ∈ child.discoveredFrom, Reads parse u) (id : Nat) (parent attempt : String) :
    OutboxRow.read parse ⟨id, child.url.asStr, child.depth, child.discoveredFrom.map CanonicalUrl.asStr,
      parent, attempt, false⟩ = .ok child := by
  obtain ⟨url, depth, discoveredFrom⟩ := child
  have hurl : parse url.asStr = .ok url := hurl
  simp only [OutboxRow.read, hurl]
  cases discoveredFrom with
  | none => rfl
  | some u =>
    have hu : parse u.asStr = .ok u := hfrom u rfl
    simp only [Option.map_some, Option.mapM_some, hu]
    rfl

theorem conflicts_push (t : OutboxTable) (row : Nat → OutboxRow) (hid : ∀ n, (row n).id = n)
    (u a c : String) : (t.push row hid).conflicts u a c = true ↔
      t.conflicts u a c = true ∨
        ((row (t.seq + 1)).parentUrl = u ∧ (row (t.seq + 1)).parentAttemptId = a ∧
          (row (t.seq + 1)).url = c) := by
  simp [OutboxTable.conflicts, OutboxTable.push, and_assoc]

/-- One link of a page. -/
theorem insert (h : OutboxAlike parse t s Z K) (parent : CanonicalUrl) (attempt : String)
    {child : UrlEntry} (hurl : Reads parse child.url)
    (hfrom : ∀ u ∈ child.discoveredFrom, Reads parse u) :
    ∃ Z', OutboxAlike parse (t.insert parent.asStr attempt child)
      (s.recordOutbound parent attempt child) Z' K := by
  unfold OutboxTable.insert OutboxState.recordOutbound
  by_cases hc : t.conflicts parent.asStr attempt child.url.asStr = true
  · have hm : (parent.asStr, attempt, child.url.asStr) ∈ s.dedupe := (h.dedupe _ _ _).2 hc
    rw [if_pos hc, if_pos hm]
    exact ⟨Z, h.postgres, h.memory, h.same, h.nodup, h.le_next, h.dedupe, h.locked, h.disjoint,
      h.leased⟩
  · have hm : (parent.asStr, attempt, child.url.asStr) ∉ s.dedupe := fun hm =>
      hc ((h.dedupe _ _ _).1 hm)
    rw [if_neg hc, if_neg hm]
    refine ⟨Z ++ [(⟨t.seq + 1, child.url.asStr, child.depth,
      child.discoveredFrom.map CanonicalUrl.asStr, parent.asStr, attempt, false⟩,
      ⟨s.nextId + 1, child, false⟩)], ?_, ?_, ?_, ?_, ?_, ?_, ?_, h.disjoint, h.leased⟩
    · simp [OutboxTable.push, h.postgres]
    · simp [h.memory]
    · intro z hz
      rcases List.mem_append.1 hz with hz | hz
      · exact h.same z hz
      · rw [List.mem_singleton.1 hz]
        exact ⟨read_row hurl hfrom _ _ _, rfl⟩
    · rw [List.map_append, List.nodup_append]
      refine ⟨h.nodup, by simp, ?_⟩
      intro i hi j hj
      obtain ⟨z, hz, rfl⟩ := List.mem_map.1 hi
      have hj : j = s.nextId + 1 := by simpa using hj
      have hle := h.le_next z hz
      omega
    · intro z hz
      rcases List.mem_append.1 hz with hz | hz
      · exact Nat.le_succ_of_le (h.le_next z hz)
      · rw [List.mem_singleton.1 hz]
    · intro u a c
      rw [conflicts_push, ← h.dedupe, Finset.mem_insert, Prod.mk.injEq, Prod.mk.injEq]
      constructor
      · rintro (⟨rfl, rfl, rfl⟩ | hin)
        · exact .inr ⟨rfl, rfl, rfl⟩
        · exact .inl hin
      · rintro (hin | ⟨rfl, rfl, rfl⟩)
        · exact .inr hin
        · exact .inl ⟨rfl, rfl, rfl⟩
    · intro b hb q hq
      rw [List.map_append]
      exact List.mem_append_left _ (h.locked b hb q hq)

/-- The links of a page. -/
theorem commit (h : OutboxAlike parse t s Z K) (parent : CanonicalUrl) (attempt : String)
    {children : List UrlEntry} (hreads : ∀ child ∈ children,
      Reads parse child.url ∧ ∀ u ∈ child.discoveredFrom, Reads parse u) :
    ∃ Z', OutboxAlike parse (children.foldl (.insert parent.asStr attempt) t)
      (children.foldl (fun o child => o.recordOutbound parent attempt child) s) Z' K := by
  induction children generalizing t s Z with
  | nil => exact ⟨Z, h⟩
  | cons child children ih =>
    obtain ⟨hurl, hfrom⟩ := hreads child List.mem_cons_self
    obtain ⟨Z', h'⟩ := h.insert parent attempt hurl hfrom
    exact ih h' fun c hc => hreads c (List.mem_cons_of_mem _ hc)

/-! ### Publish calls -/

/-- The rows a publish call locks, in both stores. -/
def batch (Z : List RowPair) (K : List (List (Nat × Nat))) (max : Nat) : List RowPair :=
  (Z.filter fun z => !z.1.published && !(K.flatten.map Prod.fst).contains z.1.id).take max

theorem leaseBatch_postgres (h : OutboxAlike parse t s Z K) (max : Nat) :
    t.leaseBatch (K.map (List.map Prod.fst)).flatten max = (batch Z K max).map Prod.fst := by
  rw [OutboxTable.leaseBatch, OutboxTable.unpublished, h.postgres, batch, ← List.map_flatten,
    List.filter_filter, List.filter_map, List.map_take]
  congr 2
  refine List.filter_congr fun z _ => ?_
  simp [Bool.and_comm]

theorem leaseBatch_memory (h : OutboxAlike parse t s Z K) (max : Nat) :
    (s.leaseBatch max).2 = (batch Z K max).map fun z => ⟨z.2.id, z.2.entry⟩ := by
  rw [OutboxState.leaseBatch_eq, h.memory, batch, List.filter_map, List.map_map, List.map_take]
  congr 2
  refine List.filter_congr fun z hz => ?_
  have hlocked : z.2.id ∈ s.leased ↔ z.1.id ∈ K.flatten.map Prod.fst := by
    rw [h.leased, h.mem_iff h.locked_flatten hz]
  simp only [Function.comp_apply, OutboxState.IsFree, (h.same z hz).published.symm, hlocked]
  cases z.1.published <;> simp

theorem readAll_batch {B : List RowPair} (hB : ∀ z ∈ B, z.Same parse) :
    OutboxRow.readAll parse (B.map Prod.fst) = .ok (B.map fun z => z.2.entry) := by
  induction B with
  | nil => rfl
  | cons z B ih =>
    have hz := (hB z List.mem_cons_self).read
    have hrest := ih fun x hx => hB x (List.mem_cons_of_mem _ hx)
    simp only [List.map_cons, OutboxRow.readAll, hz, hrest]

theorem mem_batch {max : Nat} {z : RowPair} (hz : z ∈ batch Z K max) :
    z ∈ Z ∧ z.1.id ∉ K.flatten.map Prod.fst := by
  obtain ⟨hmem, hfree⟩ := List.mem_filter.1 (List.mem_of_mem_take hz)
  simp only [Bool.and_eq_true, Bool.not_eq_true', List.contains_eq_mem, decide_eq_false_iff_not]
    at hfree
  exact ⟨hmem, hfree.2⟩

theorem leaseBatch_leased (s : OutboxState) (max : Nat) :
    (s.leaseBatch max).1 = { s with leased := s.leased ∪ (Fakes.ids (s.leaseBatch max).2).toFinset } :=
  rfl

/-- A publish call locks its batch. -/
theorem lock (h : OutboxAlike parse t s Z K) (max : Nat) :
    OutboxAlike parse t (s.leaseBatch max).1 Z (K ++ [(batch Z K max).map RowPair.ids]) := by
  have hids : Fakes.ids (s.leaseBatch max).2 = (batch Z K max).map fun z => z.2.id := by
    rw [leaseBatch_memory h, Fakes.ids, List.map_map]
    rfl
  have hflat : (K ++ [(batch Z K max).map RowPair.ids]).flatten.map Prod.snd =
      K.flatten.map Prod.snd ++ (batch Z K max).map fun z => z.2.id := by
    simp [RowPair.ids, Function.comp_def]
  refine ⟨h.postgres, h.memory, h.same, h.nodup, h.le_next, h.dedupe, ?_, ?_, ?_⟩
  · intro b hb q hq
    rcases List.mem_append.1 hb with hb | hb
    · exact h.locked b hb q hq
    · rw [List.mem_singleton.1 hb] at hq
      obtain ⟨z, hz, rfl⟩ := List.mem_map.1 hq
      exact List.mem_map_of_mem (mem_batch hz).1
  · rw [hflat, List.nodup_append]
    refine ⟨h.disjoint, ?_, ?_⟩
    · exact h.nodup.sublist (((List.take_sublist _ _).trans List.filter_sublist).map _)
    · rintro i hi j hj rfl
      obtain ⟨z, hz, rfl⟩ := List.mem_map.1 hj
      obtain ⟨hmem, hfree⟩ := mem_batch hz
      exact hfree ((h.mem_iff h.locked_flatten hmem).2 hi)
  · intro i
    rw [leaseBatch_leased, hflat, Finset.mem_union, List.mem_append, h.leased, hids, List.mem_toFinset]

/-- A publish call that finds nothing locks nothing. -/
theorem lock_nil (h : OutboxAlike parse t s Z K) {max : Nat} (hB : batch Z K max = []) :
    (s.leaseBatch max).1 = s := by
  have hnil : (s.leaseBatch max).2 = [] := by rw [leaseBatch_memory h, hB]; rfl
  rw [leaseBatch_leased, hnil]
  simp [Fakes.ids]

/-- What a pair of rows is once its batch has been shipped. -/
def ship (b : List (Nat × Nat)) (z : RowPair) : RowPair :=
  (z.1.publish (b.map Prod.fst),
    if z.2.id ∈ b.map Prod.snd then { z.2 with published := true } else z.2)

theorem ship_ids (b : List (Nat × Nat)) (z : RowPair) : (ship b z).ids = z.ids := by
  unfold ship RowPair.ids
  split <;> rfl

theorem ship_snd_id (b : List (Nat × Nat)) (z : RowPair) : (ship b z).2.id = z.2.id :=
  congrArg Prod.snd (ship_ids b z)

/-- Without the pairs of the call that ends, what is leased are those of the others. -/
theorem leased_eraseIdx (h : OutboxAlike parse t s Z K) {i : Nat} {b : List (Nat × Nat)}
    (hb : K[i]? = some b) : ((K.eraseIdx i).flatten.map Prod.snd).Nodup ∧
      ∀ j, j ∈ s.leased \ (b.map Prod.snd).toFinset ↔ j ∈ (K.eraseIdx i).flatten.map Prod.snd := by
  obtain ⟨pre, post, rfl, hrest⟩ := Fakes.split_of_getElem? hb
  have hnd := h.disjoint
  have hperm : ((pre ++ b :: post).flatten.map Prod.snd).Perm
      (b.map Prod.snd ++ (pre ++ post).flatten.map Prod.snd) := by
    simp only [List.flatten_append, List.flatten_cons, List.map_append]
    exact List.perm_append_comm_assoc _ _ _
  rw [hperm.nodup_iff, List.nodup_append] at hnd
  rw [hrest]
  refine ⟨hnd.2.1, fun j => ?_⟩
  rw [Finset.mem_sdiff, h.leased, hperm.mem_iff, List.mem_append, List.mem_toFinset]
  constructor
  · rintro ⟨hj | hj, hnot⟩
    · exact absurd hj hnot
    · exact hj
  · intro hj
    exact ⟨.inr hj, fun hjb => hnd.2.2 j hjb j hj rfl⟩

theorem locked_eraseIdx (h : OutboxAlike parse t s Z K) (i : Nat) :
    ∀ b ∈ K.eraseIdx i, ∀ q ∈ b, q ∈ Z.map RowPair.ids :=
  fun b hb => h.locked b (List.mem_of_mem_eraseIdx hb)

/-- A publish call whose `ship` failed rolls back. -/
theorem rollback (h : OutboxAlike parse t s Z K) {i : Nat} {b : List (Nat × Nat)}
    (hb : K[i]? = some b) :
    OutboxAlike parse t (s.releaseLease (b.map Prod.snd)) Z (K.eraseIdx i) := by
  obtain ⟨hnd, hleased⟩ := h.leased_eraseIdx hb
  exact ⟨h.postgres, h.memory, h.same, h.nodup, h.le_next, h.dedupe, h.locked_eraseIdx i, hnd, hleased⟩

/-- A publish call whose `ship` returned marks its batch. -/
theorem markPublished (h : OutboxAlike parse t s Z K) {i : Nat} {b : List (Nat × Nat)}
    (hb : K[i]? = some b) :
    OutboxAlike parse (t.markPublished (b.map Prod.fst)) (s.finalizeLease (b.map Prod.snd))
      (Z.map (ship b)) (K.eraseIdx i) := by
  obtain ⟨hnd, hleased⟩ := h.leased_eraseIdx hb
  have hlocked := h.locked b (List.mem_of_getElem? hb)
  have hids : (Z.map (ship b)).map RowPair.ids = Z.map RowPair.ids := by
    rw [List.map_map]
    exact List.map_congr_left fun z _ => ship_ids b z
  refine ⟨?_, ?_, ?_, ?_, ?_, ?_, ?_, hnd, hleased⟩
  · simp only [OutboxTable.markPublished, h.postgres, List.map_map]
    rfl
  · simp only [OutboxState.finalizeLease, h.memory, List.map_map]
    rfl
  · intro z' hz'
    obtain ⟨z, hz, rfl⟩ := List.mem_map.1 hz'
    obtain ⟨hread, hpub⟩ := h.same z hz
    have hiff := h.mem_iff hlocked hz
    by_cases hin : z.2.id ∈ b.map Prod.snd
    · refine ⟨?_, ?_⟩
      · simpa [ship, hin, OutboxRow.read, OutboxRow.publish] using hread
      · simp only [ship, if_pos hin, OutboxRow.publish]
        simp [List.contains_eq_mem, hiff.2 hin]
    · refine ⟨?_, ?_⟩
      · simpa [ship, hin, OutboxRow.read, OutboxRow.publish] using hread
      · have hout : z.1.id ∉ b.map Prod.fst := fun hz => hin (hiff.1 hz)
        simp only [ship, if_neg hin, OutboxRow.publish]
        simp [List.contains_eq_mem, hout, hpub]
  · have hsnd : (Z.map (ship b)).map (fun z => z.2.id) = Z.map fun z => z.2.id := by
      rw [List.map_map]
      exact List.map_congr_left fun z _ => ship_snd_id b z
    rw [hsnd]
    exact h.nodup
  · intro z' hz'
    obtain ⟨z, hz, rfl⟩ := List.mem_map.1 hz'
    rw [ship_snd_id]
    exact h.le_next z hz
  · intro u a c
    rw [OutboxTable.conflicts_markPublished]
    exact h.dedupe u a c
  · rw [hids]
    exact h.locked_eraseIdx i

end OutboxAlike

/-! ## The ledgers -/

/-- The double remembers the attempts whose success is in the history, and counts these. -/
structure HistoryAlike (history : List HistoryRow) (attempts : Finset (String × String)) (n : Nat) :
    Prop where
  attempts : ∀ u a, (u, a) ∈ attempts ↔ ∃ r ∈ history, r.url = u ∧ r.attemptId = some a
  count : history.countP HistoryRow.isSucceeded = n

namespace HistoryAlike

variable {l : Ledger} {attempts : Finset (String × String)} {n : Nat}

/-- An event without an attempt id. -/
theorem event (h : HistoryAlike l.history attempts n) {r : HistoryRow} (hid : r.attemptId = none)
    (hevent : r.isSucceeded = false) : HistoryAlike (l.insertHistory r).history attempts n := by
  have hins : (l.insertHistory r).history = l.history ++ [r] := by
    simp [Ledger.insertHistory, hid]
  rw [hins]
  refine ⟨fun u a => ?_, ?_⟩
  · rw [h.attempts]
    simp [or_and_right, exists_or, hid]
  · rw [List.countP_append, h.count]
    simp [hevent]

theorem success (h : HistoryAlike l.history attempts n) (url runId blobPath attempt : String) :
    HistoryAlike (l.insertHistory ⟨url, runId, .succeeded blobPath, some attempt⟩).history
      (insert (url, attempt) attempts) (n + if (url, attempt) ∉ attempts then 1 else 0) := by
  have hany : (l.history.any fun r => r.url == url && r.attemptId == some attempt) = true ↔
      (url, attempt) ∈ attempts := by
    rw [h.attempts]
    simp
  by_cases hin : (url, attempt) ∈ attempts
  · have hins : (l.insertHistory ⟨url, runId, .succeeded blobPath, some attempt⟩).history =
        l.history := by
      rw [Ledger.insertHistory, if_pos ⟨by simp, hany.2 hin⟩]
    rw [hins, Finset.insert_eq_of_mem hin]
    simpa [hin] using h
  · have hins : (l.insertHistory ⟨url, runId, .succeeded blobPath, some attempt⟩).history =
        l.history ++ [⟨url, runId, .succeeded blobPath, some attempt⟩] := by
      rw [Ledger.insertHistory, if_neg fun hc => hin (hany.1 hc.2)]
    rw [hins]
    refine ⟨fun u a => ?_, ?_⟩
    · rw [Finset.mem_insert, h.attempts]
      simp only [Prod.mk.injEq, List.mem_append, List.mem_singleton, or_and_right, exists_or,
        exists_eq_left, Option.some.injEq]
      constructor
      · rintro (⟨rfl, rfl⟩ | hr)
        · exact .inr ⟨rfl, rfl⟩
        · exact .inl hr
      · rintro (hr | ⟨rfl, rfl⟩)
        · exact .inr hr
        · exact .inl ⟨rfl, rfl⟩
    · rw [List.countP_append, h.count, if_pos hin]
      rfl

end HistoryAlike

structure Alike (parse : ParseUrl) (p : PostgresStore) (m : MemoryStore) : Prop where
  rows : ∀ u, Option.Rel (RowAlike parse u) (p.ledger.rows u) (m.ledger.rows u)
  history : HistoryAlike p.ledger.history m.ledger.succeededAttempts m.ledger.succeededHistoryCount
  outbox : ∃ Z K, OutboxAlike parse p.ledger.outbox m.ledger.outbox Z K ∧
    p.locked = K.map (List.map Prod.fst) ∧ m.openCalls = K.map (List.map Prod.snd)

theorem alike_empty (parse : ParseUrl) : Alike parse {} {} where
  rows _ := .none
  history := ⟨by simp [Ledger.empty], rfl⟩
  outbox := ⟨[], [], ⟨rfl, rfl, by simp, by simp, by simp, by simp [Ledger.empty,
    OutboxTable.conflicts, OutboxTable.empty], by simp, by simp, by simp⟩, rfl, rfl⟩

namespace Alike

variable {parse : ParseUrl} {p : PostgresStore} {m : MemoryStore}

/-- One row is set in both. -/
theorem update {rows : String → Option UrlRow} {rows' : String → Option UrlMetadata}
    (h : ∀ u, Option.Rel (RowAlike parse u) (rows u) (rows' u)) {url : String} {row : UrlRow}
    {row' : UrlMetadata} (hrow : RowAlike parse url row row') (u : String) :
    Option.Rel (RowAlike parse u) (Function.update rows url (some row) u)
      (Function.update rows' url (some row') u) := by
  by_cases hu : u = url
  · subst hu
    simpa using Option.Rel.some hrow
  · simpa [hu] using h u

/-- The rows of a URL: none in either, or two that are alike. -/
theorem row_cases (h : Alike parse p m) (u : String) :
    (p.ledger.rows u = none ∧ m.ledger.rows u = none) ∨
      ∃ row row', p.ledger.rows u = some row ∧ m.ledger.rows u = some row' ∧ RowAlike parse u row row' := by
  have hu := h.rows u
  generalize p.ledger.rows u = r at hu
  generalize m.ledger.rows u = r' at hu
  cases hu with
  | some hrow => exact .inr ⟨_, _, rfl, rfl, hrow⟩
  | none => exact .inl ⟨rfl, rfl⟩

/-- What `get` reads. -/
theorem get_eq (h : Alike parse p m) {url : CanonicalUrl} (hurl : Reads parse url) :
    p.ledger.get parse url = m.ledger.get url := by
  simp only [Ledger.get, Fakes.LedgerState.get]
  rcases h.row_cases url.asStr with ⟨h1, h2⟩ | ⟨row, row', h1, h2, hrow⟩
  · rw [h1, h2, Option.map_none]
  · have heq : row'.url = url := by
      have hu := hrow.url
      rw [hurl] at hu
      exact (Except.ok.inj hu).symm
    have hfrom : row.discoveredFrom.bind (fun raw => (parse raw).toOption) = row'.discoveredFrom := by
      rw [hrow.discoveredFrom]
      cases hd : row'.discoveredFrom with
      | none => rfl
      | some d =>
        have hread : parse d.asStr = .ok d := hrow.reads d (by simp [hd])
        simp [hread, Except.toOption]
    rw [h1, h2, Option.map_some, UrlRow.intoMetadata, hfrom, ← hrow.status, ← hrow.retryCount,
      ← hrow.blobPath, ← hrow.contentHash, if_pos hrow.small, ← hrow.depth, ← hrow.lastRunId, ← heq]

/-- A transition that sets one row and appends one event. -/
theorem transition (h : Alike parse p m) {url : String} {row : UrlRow} {row' : UrlMetadata}
    (hrow : RowAlike parse url row row') {r : HistoryRow} (hid : r.attemptId = none)
    (hevent : r.isSucceeded = false) {dlq : List (String × String)} :
    Alike parse { p with ledger := (p.ledger.setRow url row).insertHistory r }
      { m with ledger := { m.ledger.setRow url row' with dlq } } where
  rows u := by
    rw [Ledger.insertHistory_rows]
    exact update h.rows hrow u
  history := HistoryAlike.event (l := p.ledger.setRow url row) h.history hid hevent
  outbox := by
    rw [Ledger.insertHistory_outbox]
    exact h.outbox

theorem markAttempting (h : Alike parse p m) {url : CanonicalUrl} {depth : UInt32}
    (hurl : Reads parse url) (hdepth : depth.toNat < 2 ^ 31) (runId : String) :
    Alike parse { p with ledger := (p.ledger.markAttempting url runId depth).2 }
      { m with ledger := (m.ledger.markAttempting url runId depth).2 } := by
  simp only [Ledger.markAttempting, Fakes.LedgerState.markAttempting]
  rcases h.row_cases url.asStr with ⟨h1, h2⟩ | ⟨row, row', h1, h2, hrow⟩
  · rw [h1, h2]
    have hnew : RowAlike parse url.asStr ⟨.inProgress, 0, none, none, depth, runId, none⟩
        ⟨url, .inProgress, 0, none, none, depth, runId, none⟩ :=
      ⟨hurl, rfl, rfl, rfl, rfl, rfl, hdepth, rfl, rfl, by simp⟩
    exact h.transition hnew rfl rfl
  · have hnew : RowAlike parse url.asStr
        { row with status := .inProgress, lastRunId := runId, depth := depth }
        { row' with status := .inProgress, lastRunId := runId, depth := depth } :=
      { hrow with status := rfl, depth := rfl, small := hdepth, lastRunId := rfl }
    rw [h1, h2]
    exact h.transition hnew rfl rfl

theorem markSucceeded (h : Alike parse p m) {record : SuccessRecord}
    (hreads : ∀ child ∈ record.outbound,
      Reads parse child.url ∧ ∀ u ∈ child.discoveredFrom, Reads parse u) :
    (p.ledger.markSucceeded record).1.toOption = (m.ledger.markSucceeded record).1.toOption ∧
      Alike parse { p with ledger := (p.ledger.markSucceeded record).2 }
        { m with ledger := (m.ledger.markSucceeded record).2 } := by
  simp only [Ledger.markSucceeded, Fakes.LedgerState.markSucceeded]
  rcases h.row_cases record.url.asStr with ⟨h1, h2⟩ | ⟨row, row', h1, h2, hrow⟩
  · rw [h1, h2]
    exact ⟨rfl, h⟩
  · have hnew : RowAlike parse record.url.asStr
        { row with
          status := .succeeded
          retryCount := 0
          blobPath := some record.blobPath
          contentHash := some record.contentHash }
        { row' with
          status := .succeeded
          retryCount := 0
          blobPath := some record.blobPath
          contentHash := some record.contentHash } :=
      { hrow with status := rfl, retryCount := rfl, blobPath := rfl, contentHash := rfl }
    rw [h1, h2]
    refine ⟨rfl, ?_, ?_, ?_⟩
    · intro u
      simp only [Ledger.insertHistory_rows]
      exact update h.rows hnew u
    · exact HistoryAlike.success (l := p.ledger.setRow record.url.asStr _) h.history
        record.url.asStr row.lastRunId record.blobPath record.attemptId
    · obtain ⟨Z, K, hout, hlocked, hopen⟩ := h.outbox
      obtain ⟨Z', hout'⟩ := hout.commit record.url record.attemptId hreads
      simp only [Ledger.insertHistory_outbox]
      exact ⟨Z', K, hout', hlocked, hopen⟩

theorem markFailed (h : Alike parse p m) {url : CanonicalUrl}
    (hfits : ∀ row ∈ p.ledger.rows url.asStr, row.retryCount + 1 < 2 ^ 31) (kind : FailureKind) :
    (p.ledger.markFailed url kind).1.toOption = (m.ledger.markFailed url kind).1.toOption ∧
      Alike parse { p with ledger := (p.ledger.markFailed url kind).2 }
        { m with ledger := (m.ledger.markFailed url kind).2 } := by
  simp only [Ledger.markFailed, Fakes.LedgerState.markFailed]
  rcases h.row_cases url.asStr with ⟨h1, h2⟩ | ⟨row, row', h1, h2, hrow⟩
  · rw [h1, h2]
    exact ⟨rfl, h⟩
  · have hlt := hfits row (by simp [h1])
    have hcount : row'.retryCount + 1 = UInt32.ofNat (row.retryCount + 1) := by
      rw [hrow.retryCount, UInt32.ofNat_add]
      rfl
    have hnew : RowAlike parse url.asStr
        { row with status := .failedTransient, retryCount := row.retryCount + 1 }
        { row' with status := .failedTransient, retryCount := row'.retryCount + 1 } :=
      { hrow with status := rfl, retryCount := hcount }
    rw [h1, h2]
    simp only [if_pos hlt]
    exact ⟨congrArg some hcount.symm, h.transition hnew rfl rfl⟩

theorem markPermanentlyFailed (h : Alike parse p m) (url : CanonicalUrl) (reason : String) :
    (p.ledger.markPermanentlyFailed url reason).1.toOption =
        (m.ledger.markPermanentlyFailed url reason).1.toOption ∧
      Alike parse { p with ledger := (p.ledger.markPermanentlyFailed url reason).2 }
        { m with ledger := (m.ledger.markPermanentlyFailed url reason).2 } := by
  simp only [Ledger.markPermanentlyFailed, Fakes.LedgerState.markPermanentlyFailed]
  rcases h.row_cases url.asStr with ⟨h1, h2⟩ | ⟨row, row', h1, h2, hrow⟩
  · rw [h1, h2]
    exact ⟨rfl, h⟩
  · have hnew : RowAlike parse url.asStr { row with status := .permanentlyFailed }
        { row' with status := .permanentlyFailed } := { hrow with status := rfl }
    rw [h1, h2]
    refine ⟨rfl, ?_⟩
    dsimp only
    exact h.transition hnew rfl rfl

theorem markDiscoveredSkipped (h : Alike parse p m) {url : CanonicalUrl} {depth : UInt32}
    {discoveredFrom : Option CanonicalUrl} (hurl : Reads parse url) (hdepth : depth.toNat < 2 ^ 31)
    (hfrom : ∀ u ∈ discoveredFrom, Reads parse u) (runId : String) (reason : SkipReason) :
    (p.ledger.markDiscoveredSkipped url runId depth discoveredFrom reason).1.toOption =
        (m.ledger.markDiscoveredSkipped url runId depth discoveredFrom reason).1.toOption ∧
      Alike parse
        { p with ledger := (p.ledger.markDiscoveredSkipped url runId depth discoveredFrom reason).2 }
        { m with ledger := (m.ledger.markDiscoveredSkipped url runId depth discoveredFrom reason).2 } := by
  simp only [Ledger.markDiscoveredSkipped, Fakes.LedgerState.markDiscoveredSkipped]
  rcases h.row_cases url.asStr with ⟨h1, h2⟩ | ⟨row, row', h1, h2, hrow⟩
  · rw [h1, h2]
    exact ⟨rfl, update h.rows ⟨hurl, rfl, rfl, rfl, rfl, rfl, hdepth, rfl, rfl, hfrom⟩, h.history,
      h.outbox⟩
  · rw [h1, h2]
    exact ⟨rfl, h⟩

/-- A transition is answered alike and keeps the stores alike. -/
theorem mark (h : Alike parse p m) {c : Ledger.Call} (ha : Aligned parse p (.mark c)) :
    MetadataReply.ofAnswer c (p.ledger.exec c).1 = MetadataReply.ofAnswer c (m.ledger.exec c).1 ∧
      Alike parse { p with ledger := (p.ledger.exec c).2 }
        { m with ledger := (m.ledger.exec c).2 } := by
  cases c with
  | markAttempting url runId depth => exact ⟨rfl, h.markAttempting ha.1 ha.2 runId⟩
  | markSucceeded record =>
    obtain ⟨h1, h2⟩ := h.markSucceeded ha
    exact ⟨congrArg (fun r : Option Unit => MetadataReply.marked r.isSome) h1, h2⟩
  | markFailed url kind =>
    obtain ⟨h1, h2⟩ := h.markFailed ha kind
    exact ⟨congrArg MetadataReply.retryCount h1, h2⟩
  | markPermanentlyFailed url reason =>
    obtain ⟨h1, h2⟩ := h.markPermanentlyFailed url reason
    exact ⟨congrArg (fun r : Option Unit => MetadataReply.marked r.isSome) h1, h2⟩
  | markDiscoveredSkipped url runId depth discoveredFrom reason =>
    obtain ⟨h1, h2⟩ := h.markDiscoveredSkipped ha.1 ha.2.1 ha.2.2 runId reason
    exact ⟨congrArg (fun r : Option Unit => MetadataReply.marked r.isSome) h1, h2⟩

/-- A publish call ships the same batch and leaves the stores alike. -/
theorem publish (h : Alike parse p m) {max : Nat} (hmax : max < 2 ^ 63) :
    (p.exec parse (.publish max)).2 = (m.exec (.publish max)).2 ∧
      Alike parse (p.exec parse (.publish max)).1 (m.exec (.publish max)).1 := by
  obtain ⟨Z, K, hout, hlocked, hopen⟩ := h.outbox
  have hpg := hout.leaseBatch_postgres max
  have hmem := hout.leaseBatch_memory max
  have hlock := hout.lock max
  have hread := OutboxAlike.readAll_batch fun z (hz : z ∈ OutboxAlike.batch Z K max) =>
    hout.same z (OutboxAlike.mem_batch hz).1
  rw [← hlocked] at hpg
  rcases hlease : m.ledger.outbox.leaseBatch max with ⟨outbox, entries⟩
  rw [hlease] at hmem hlock
  dsimp only at hmem hlock
  simp only [PostgresStore.exec, MemoryStore.exec, if_neg (Nat.not_le.2 hmax), hpg, hlease, hmem]
  cases hB : OutboxAlike.batch Z K max with
  | nil =>
    have hsame := hout.lock_nil hB
    rw [hlease] at hsame
    dsimp only at hsame
    subst hsame
    exact ⟨rfl, h⟩
  | cons z B =>
    rw [hB] at hread hlock
    rw [List.map_cons] at hread
    simp only [List.map_cons, hread]
    refine ⟨by simp, h.rows, h.history, Z, _, hlock, ?_, ?_⟩
    · simp [hlocked, RowPair.ids]
    · simp [hopen, RowPair.ids, Fakes.ids]

/-- The end of a publish call. -/
theorem shipped (h : Alike parse p m) (i : Nat) (result : Except Error Unit) :
    (p.exec parse (.shipped i result)).2 = (m.exec (.shipped i result)).2 ∧
      Alike parse (p.exec parse (.shipped i result)).1 (m.exec (.shipped i result)).1 := by
  obtain ⟨Z, K, hout, hlocked, hopen⟩ := h.outbox
  simp only [PostgresStore.exec, MemoryStore.exec, hlocked, hopen, List.getElem?_map]
  cases hb : K[i]? with
  | none => exact ⟨rfl, h⟩
  | some b =>
    simp only [Option.map_some, List.length_map]
    refine ⟨trivial, h.rows, h.history, ?_⟩
    cases result with
    | ok u => exact ⟨_, _, hout.markPublished hb, by simp [List.eraseIdx_map], by simp [List.eraseIdx_map]⟩
    | error e => exact ⟨_, _, hout.rollback hb, by simp [List.eraseIdx_map], by simp [List.eraseIdx_map]⟩

/-- **One call.** -/
theorem step (h : Alike parse p m) {c : MetadataCall} (ha : Aligned parse p c) :
    (p.exec parse c).2 = (m.exec c).2 ∧ Alike parse (p.exec parse c).1 (m.exec c).1 := by
  cases c with
  | mark c => exact h.mark ha
  | get url => exact ⟨congrArg MetadataReply.found (h.get_eq ha), h⟩
  | publish max => exact h.publish ha
  | shipped i result => exact h.shipped i result
  | counts =>
    obtain ⟨Z, K, hout, -, -⟩ := h.outbox
    refine ⟨?_, h⟩
    simp only [PostgresStore.exec, MemoryStore.exec, h.history.count, hout.postgres, hout.memory,
      List.length_map]

end Alike

/-- **The double.** In every sequence of aligned calls the two stores give the same replies. -/
theorem stores_reply_alike (parse : ParseUrl) (calls : List MetadataCall)
    (h : AlignedRun parse {} calls) :
    Loop.trace (PostgresStore.exec parse) {} calls = Loop.trace MemoryStore.exec {} calls := by
  have hrun : ∀ (p : PostgresStore) (m : MemoryStore), Alike parse p m → AlignedRun parse p calls →
      Loop.trace (PostgresStore.exec parse) p calls = Loop.trace MemoryStore.exec m calls := by
    clear h
    induction calls with
    | nil => intro p m _ _; rfl
    | cons c calls ih =>
      intro p m hpm hrun
      obtain ⟨hreply, hnext⟩ := hpm.step hrun.1
      rw [Loop.trace_cons, Loop.trace_cons, hreply, ih _ _ hnext hrun.2]
  exact hrun {} {} (alike_empty parse) h

/-- `CanonicalUrl::parse` on the texts of two pages. -/
def twoPages : ParseUrl := fun text =>
  if text = UrlEntry.seedA.url.asStr then .ok UrlEntry.seedA.url
  else if text = UrlEntry.seedB.url.asStr then .ok UrlEntry.seedB.url
  else .error "relative URL without a base"

/-- A page with a link is stored, its link shipped, and the page read. -/
def visitCalls : List MetadataCall :=
  [.mark (.markAttempting UrlEntry.seedA.url "run-1" 0),
    .mark (.markSucceeded ⟨UrlEntry.seedA.url, "7:1", "blob", 9, [UrlEntry.seedB]⟩),
    .publish 256, .publish 256, .shipped 0 (.ok ()), .get UrlEntry.seedA.url, .counts]

theorem stores_reply_alike_visit : Loop.trace (PostgresStore.exec twoPages) {} visitCalls =
    Loop.trace MemoryStore.exec {} visitCalls := by
  have hmax : 256 < 2 ^ 63 := by decide
  refine stores_reply_alike twoPages visitCalls ⟨⟨rfl, by decide⟩, fun child hc => ?_, hmax, hmax, trivial,
    rfl, trivial, trivial⟩
  rw [List.mem_singleton.1 hc]
  exact ⟨rfl, fun u hu => by cases hu⟩

end Crawlrs

import Crawlrs.L4Store.Filing
import Mathlib.Algebra.Order.Group.Multiset

/-!
# Acknowledged records under failing puts

A write answers `Ok` once its record is in the buffer. The buffer leaves the map
before its upload and is gone when the put fails: `flush_one` owns the file, and a
flush returns at the first error with the files it has not come to. So a failed
put loses records whose writers were told `Ok`.

It loses nothing where no put of a flush fails, and the put of a rotating write
fails only for a file with that write's record alone (the write then answers the
error): `acked_kept`.
-/
namespace Crawlrs

variable {F ρ : Type}

namespace Format

variable (K : Format F ρ)

/-- In an open file. -/
def Buffered (S : StoreState F) (x : ρ) : Prop := ∃ y ∈ S.active.entries, x ∈ K.contents y.2

/-- In memory: in an open file, or in one that a call has still to upload. -/
def Held (S : StoreState F) (x : ρ) : Prop :=
  K.Buffered S x ∨ ∃ c ∈ S.calls, ∃ y ∈ K.placesOf c, x ∈ K.contents y.1.2

/-- In an object that was put. -/
def Stored (S : StoreState F) (x : ρ) : Prop := ∃ y ∈ S.puts, x ∈ K.contents y.2

/-- Records whose writes answered `Ok` are in memory or in an object, and what was buffered once
(before a flush, say) is so from then on. -/
structure AckedKept (L : LTS (StoreState F) (Label F)) : Prop where
  acked : ∀ S, L.Reachable S → ∀ y ∈ S.returned,
    K.Held S (K.row y.record) ∨ K.Stored S (K.row y.record)
  buffered : ∀ S tr S', L.Reachable S → L.Steps S tr S' → ∀ x, K.Buffered S x →
    K.Held S' x ∨ K.Stored S' x

/-- The put that fails is not one of a flush, and its file holds the writer's own record only. -/
def FailsAlone (S : StoreState F) : Label F → Prop
  | .resume i false => ∀ c, S.calls[i]? = some c → match c with
    | .write _ record _ file => K.contents file = [K.row record]
    | .flush files => files = []
  | _ => True

/-! ## Accounting for every record -/

/-- The records of writes that have not returned. -/
def pending (P : List (Place F ρ)) : Multiset ρ := (P.flatMap Prod.snd : List ρ)

/-- The records of all files. -/
def held (P : List (Place F ρ)) : Multiset ρ := (P.flatMap fun x => K.contents x.1.2 : List ρ)

structure Accounted (a : Filing F ρ) : Prop where
  own : ∀ x ∈ a.places, x.2 <:+ K.contents x.1.2
  total : ((a.returned.map fun y => K.row y.record : List ρ) : Multiset ρ) + pending a.places =
    K.held a.places

variable {K}

@[simp] theorem pending_cons (x : Place F ρ) (P : List (Place F ρ)) :
    pending (x :: P) = (x.2 : Multiset ρ) + pending P := by
  simp [pending]

@[simp] theorem held_cons (x : Place F ρ) (P : List (Place F ρ)) :
    K.held (x :: P) = (K.contents x.1.2 : Multiset ρ) + K.held P := by
  simp [held]

theorem pending_perm {P P' : List (Place F ρ)} (h : P.Perm P') : pending P = pending P' :=
  Multiset.coe_eq_coe.2 (h.flatMap_right _)

theorem held_perm {P P' : List (Place F ρ)} (h : P.Perm P') : K.held P = K.held P' :=
  Multiset.coe_eq_coe.2 (h.flatMap_right _)

theorem pending_le_held {P : List (Place F ρ)} (h : ∀ x ∈ P, x.2 <:+ K.contents x.1.2) :
    pending P ≤ K.held P := by
  induction P with
  | nil => exact le_refl _
  | cons x P ih =>
    have hx : (x.2 : Multiset ρ) ≤ K.contents x.1.2 :=
      Multiset.coe_le.2 (h x List.mem_cons_self).sublist.subperm
    rw [pending_cons, held_cons]
    exact add_le_add hx (ih fun y hy => h y (List.mem_cons_of_mem _ hy))

/-- Files that hold nothing but records of writes under way. -/
theorem held_of_lost {L P : List (Place F ρ)} (h : ∀ x ∈ L, K.contents x.1.2 = x.2) :
    ∃ m, pending (L ++ P) = m + pending P ∧ K.held (L ++ P) = m + K.held P := by
  refine ⟨pending L, by simp [pending], ?_⟩
  have hL : (L.flatMap fun x => K.contents x.1.2) = L.flatMap Prod.snd := List.flatMap_congr h
  simp [held, pending, hL]

theorem Accounted.move {fresh : List (ShardKey × UInt64) → ShardKey × UInt64 → Prop}
    {a b : Filing F ρ} (h : K.Accounted a)
    (hm : K.Move fresh (fun L => ∀ x ∈ L, K.contents x.1.2 = x.2) a b) : K.Accounted b := by
  obtain ⟨hown, htot⟩ := h
  cases hm with
  | perm hp =>
    refine ⟨fun x hx => hown x (hp.mem_iff.2 hx), ?_⟩
    rw [← pending_perm hp, ← held_perm hp]
    exact htot
  | openFile s ms t _ =>
    refine ⟨?_, ?_⟩
    · intro x hx
      rcases List.mem_cons.1 hx with rfl | hx
      · exact List.nil_suffix
      · exact hown x hx
    · simpa [K.contents_openFile] using htot
  | push s f r =>
    refine ⟨?_, ?_⟩
    · intro x hx
      rcases List.mem_cons.1 hx with rfl | hx
      · exact ⟨K.contents f, (K.contents_append f r).symm⟩
      · exact hown x (List.mem_cons_of_mem _ hx)
    · simp only [pending_cons, held_cons, K.contents_append, ← Multiset.coe_add, Multiset.coe_nil,
        zero_add] at htot ⊢
      rw [add_left_comm, htot]
      ac_rfl
  | ret x n r =>
    refine ⟨?_, ?_⟩
    · intro y hy
      rcases List.mem_cons.1 hy with rfl | hy
      · exact List.nil_suffix
      · exact hown y (List.mem_cons_of_mem _ hy)
    · simp only [pending_cons, held_cons, List.map_append, List.map_cons, List.map_nil,
        ← Multiset.coe_add, Multiset.coe_nil, zero_add, add_assoc] at htot ⊢
      exact htot
  | lose hl =>
    rename_i P L R O
    refine ⟨fun x hx => hown x (List.mem_append_right _ hx), ?_⟩
    obtain ⟨m, hp, hh⟩ := held_of_lost (P := P) hl
    simp only [hp, hh] at htot
    rw [add_left_comm] at htot
    exact add_left_cancel htot

theorem inductive_accounted : (K.runs.restrict K.FailsAlone).Inductive fun S =>
    K.Planned S ∧ K.Accounted (K.filing S) := by
  refine K.inductive_of_moves (fun _ _ => True) (fun L => ∀ x ∈ L, K.contents x.1.2 = x.2)
    (fun _ _ _ _ _ => trivial) ?_ ⟨by simp, by simp [pending, held]⟩ fun a b h hm => h.move hm
  intro S i c hok hc
  have hok := hok c hc
  cases c with
  | write n r p f =>
    intro x hx
    cases List.mem_singleton.1 hx
    exact hok
  | flush files =>
    have hok : files = [] := hok
    subst hok
    intro x hx
    cases hx

/-! ## Every run -/

theorem Accounted.kept {S : StoreState F} (h : K.Accounted (K.filing S)) {x : ρ}
    (hx : x ∈ S.returned.map fun y => K.row y.record) : K.Held S x ∨ K.Stored S x := by
  have hmem : x ∈ K.held (K.filing S).places := by
    rw [← h.total]
    exact Multiset.mem_add.2 (Or.inl hx)
  obtain ⟨y, hy, hx⟩ := List.mem_flatMap.1 hmem
  rcases List.mem_append.1 hy with hy | hy
  · obtain ⟨z, hz, rfl⟩ := List.mem_map.1 hy
    exact Or.inl (Or.inl ⟨z, hz, hx⟩)
  · rcases List.mem_append.1 hy with hy | hy
    · obtain ⟨c, hc, hy⟩ := List.mem_flatMap.1 hy
      exact Or.inl (Or.inr ⟨c, hc, y, hy, hx⟩)
    · obtain ⟨z, hz, rfl⟩ := List.mem_map.1 hy
      exact Or.inr ⟨z, hz, hx⟩

/-- A buffered record is one whose write returned. -/
theorem Accounted.returned_of_buffered {S : StoreState F} (h : K.Accounted (K.filing S)) {x : ρ}
    (hx : K.Buffered S x) : x ∈ S.returned.map fun y => K.row y.record := by
  obtain ⟨y, hy, hx⟩ := hx
  have hplace : (y, []) ∈ (K.filing S).places :=
    List.mem_append_left _ (List.mem_map_of_mem hy)
  obtain ⟨l₁, l₂, hl⟩ := List.append_of_mem hplace
  have hperm : (K.filing S).places.Perm ((y, []) :: (l₁ ++ l₂)) := hl ▸ List.perm_middle
  have hrest : pending (l₁ ++ l₂) ≤ K.held (l₁ ++ l₂) :=
    pending_le_held fun z hz => h.own z (hperm.mem_iff.2 (List.mem_cons_of_mem _ hz))
  have htot := h.total
  rw [pending_perm hperm, held_perm hperm, pending_cons, held_cons, Multiset.coe_nil, zero_add] at htot
  -- What the other files hold covers what is pending in them, so the open file is within the total.
  have hle : (K.contents y.2 : Multiset ρ) ≤
      ((S.returned.map fun y => K.row y.record : List ρ) : Multiset ρ) := by
    refine le_of_add_le_add_right (a := pending (l₁ ++ l₂)) ?_
    calc (K.contents y.2 : Multiset ρ) + pending (l₁ ++ l₂)
        ≤ (K.contents y.2 : Multiset ρ) + K.held (l₁ ++ l₂) := add_le_add_right hrest _
      _ = _ := htot.symm
  exact Multiset.mem_of_le hle hx

theorem returned_mono {S S' : StoreState F} {l : Label F} (h : K.Step S l S') {y : Returned}
    (hy : y ∈ S.returned) : y ∈ S'.returned := by
  cases h with
  | write record t =>
    simp only [Format.write]
    split
    · exact hy
    · exact List.mem_append_left _ hy
  | flush hp => exact hy
  | resume hr =>
    rename_i i ok
    unfold Format.resume at hr
    split at hr
    · cases hr
    · cases hr
      cases ok with
      | true => exact List.mem_append_left _ hy
      | false => exact hy
    · cases hr; exact hy
    · cases hr
      cases ok <;> exact hy

theorem acked_kept_of_failsAlone : K.AckedKept (K.runs.restrict K.FailsAlone) where
  acked S hS y hy :=
    (inductive_accounted.reachable S hS).2.kept (List.mem_map_of_mem hy)
  buffered S tr S' hS hst x hx := by
    have hret := (inductive_accounted.reachable S hS).2.returned_of_buffered hx
    obtain ⟨y, hy, rfl⟩ := List.mem_map.1 hret
    have hmono : ∀ S l S', y ∈ S.returned → (K.runs.restrict K.FailsAlone).step S l S' →
        y ∈ S'.returned := fun _ _ _ h hs => returned_mono hs.2 h
    have hy' : y ∈ S'.returned := hst.stable hmono hy
    exact (inductive_accounted.reachable S' (hS.steps hst)).2.kept (List.mem_map_of_mem hy')

/-- A record whose file is not due is acknowledged; then a flush whose put fails loses it. -/
theorem not_ackedKept_of_buffered (record : StoreRecord) (t : Reading) {file : F}
    (hfile : K.append (K.openFile t.wallMs t.openedAt) record = file)
    (hdue : K.rotation.shouldRotate (K.rows file) (K.rawBytes file) (t.now - K.openedAt file) = false) :
    ¬ K.AckedKept K.runs := by
  intro hkept
  have hwrite : K.write .empty record t = ⟨.singleton record.shard file, [], [],
      [⟨0, record, K.path record.shard (K.windowStartMs file)⟩], [(record.shard, t.wallMs)], 1⟩ := by
    have hnew : K.fileFor .empty record.shard t = K.openFile t.wallMs t.openedAt := rfl
    simp only [Format.write, hnew, hfile, hdue]
    rfl
  have h1 : K.runs.Reachable (K.write .empty record t) := .step (.init rfl) (.write .empty record t)
  rw [hwrite] at h1
  have h2 := LTS.Reachable.step h1 (.flush _ (.refl _))
  have hresume : resume (flush ⟨.singleton record.shard file, [], [],
      [⟨0, record, K.path record.shard (K.windowStartMs file)⟩], [(record.shard, t.wallMs)], 1⟩
      [⟨record.shard, file⟩]) 0 false = some ⟨∅, [], [],
      [⟨0, record, K.path record.shard (K.windowStartMs file)⟩], [(record.shard, t.wallMs)], 1⟩ := rfl
  have h3 := LTS.Reachable.step h2 (.resume hresume)
  rcases hkept.acked _ h3 _ List.mem_cons_self with (⟨y, hy, -⟩ | ⟨c, hc, -⟩) | ⟨y, hy, -⟩
  · cases hy
  · cases hc
  · cases hy

end Format

/-- Both stores keep what they acknowledged in every run where a put fails only for a write alone in
its file. -/
theorem acked_kept (paths : PathBuilder) (rotation : RotationPolicy) (runId : String) :
    (ParquetStore.format paths rotation).AckedKept ((ParquetStore.format paths rotation).runs.restrict
      (ParquetStore.format paths rotation).FailsAlone) ∧
    (WarcStore.format paths rotation runId).AckedKept
      ((WarcStore.format paths rotation runId).runs.restrict
        (WarcStore.format paths rotation runId).FailsAlone) :=
  ⟨Format.acked_kept_of_failsAlone, Format.acked_kept_of_failsAlone⟩

/-! ### A page on shard 0 -/

def PathBuilder.sample : PathBuilder := ⟨"s3://crawl", "run-1", "w0", .plain⟩

def StoreRecord.sample : StoreRecord where
  doc := ⟨UrlEntry.seedA.url, 200, none, none, []⟩
  resp := ⟨UrlEntry.seedA.url, 200, [], []⟩
  runId := "run-1"
  shard := 0
  depth := 0
  contentHash := Crawlrs.contentHash []

/-- Under the default rotation a first record is buffered: the put of the flush after it fails, and
the record is gone. -/
theorem not_ackedKept :
    ¬ (ParquetStore.format .sample {}).AckedKept (ParquetStore.format .sample {}).runs ∧
    ¬ (WarcStore.format .sample {} "run-1").AckedKept (WarcStore.format .sample {} "run-1").runs :=
  ⟨Format.not_ackedKept_of_buffered .sample ⟨1700000000000, 0, 0⟩ rfl (by decide),
    Format.not_ackedKept_of_buffered .sample ⟨1700000000000, 0, 0⟩ rfl (by decide)⟩

end Crawlrs

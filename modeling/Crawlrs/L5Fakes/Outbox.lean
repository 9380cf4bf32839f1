import Crawlrs.Core.LTS
import Crawlrs.L1Data.Types
import Mathlib.Data.Finset.SDiff
import Mathlib.Data.Finset.Union
import Mathlib.Data.List.Pairwise

/-!
# The in-memory outbox (`crawlrs-fakes/src/outbox.rs`, `metadata_store.rs`)

Rows, the dedupe set and the lease set of the test double, and its four
functions, each run under the store's one lock. A `publish` call is two of them
with the ship call between: it leases a batch, and finalizes or releases it.

`Protocol` is the outbox with its publish calls under way. Beside the state it
keeps the batches whose ship call returned `Ok` and the key every row was
inserted under, which the rows do not carry.

* `leaseBatch_eq`: a batch is the first `max` rows that are neither published
  nor leased.
* `inductive_valid`: who holds which lease, in every reachable state.
* `Steps.grows`: no row goes away and no published row comes back.

`next_id` counts the rows of a `Vec`, so it stays far below 2^64 and is a `Nat`.
-/
namespace Crawlrs

namespace Fakes

/-- `(parent_url, parent_attempt_id, child_url)`. -/
abbrev OutboxKey := String × String × String

/-- mirrors crates/crawlrs-fakes/src/outbox.rs:43-48 -/
structure InMemoryOutboxRow where
  id : Nat
  entry : UrlEntry
  published : Bool
deriving DecidableEq, Repr

/-- mirrors crates/crawlrs-core/src/traits/outbox.rs:101-105 -/
structure OutboxEntry where
  id : Nat
  entry : UrlEntry
deriving DecidableEq, Repr

/-- mirrors crates/crawlrs-fakes/src/outbox.rs:31-41 -/
structure OutboxState where
  rows : List InMemoryOutboxRow := []
  nextId : Nat := 0
  dedupe : Finset OutboxKey := ∅
  leased : Finset Nat := ∅

def ids (entries : List OutboxEntry) : List Nat := entries.map OutboxEntry.id

namespace OutboxState

/-- mirrors crates/crawlrs-fakes/src/outbox.rs:54-74 -/
def recordOutbound (s : OutboxState) (parentUrl : CanonicalUrl) (parentAttemptId : String)
    (child : UrlEntry) : OutboxState :=
  let key : OutboxKey := (parentUrl.asStr, parentAttemptId, child.url.asStr)
  if key ∈ s.dedupe then s
  else
    { s with
      dedupe := insert key s.dedupe
      nextId := s.nextId + 1
      rows := s.rows ++ [⟨s.nextId + 1, child, false⟩] }

/-- The scan of `lease_batch`: `leased` is the lease set, the batch so far comes last. -/
def leaseLoop (leased : Finset Nat) (max : Nat) :
    List InMemoryOutboxRow → List OutboxEntry → List OutboxEntry
  | [], batch => batch
  | row :: rows, batch =>
    if max ≤ batch.length then batch
    else if row.published ∨ row.id ∈ leased then leaseLoop leased max rows batch
    else leaseLoop leased max rows (batch ++ [⟨row.id, row.entry⟩])

/-- mirrors crates/crawlrs-fakes/src/outbox.rs:81-98 -/
def leaseBatch (s : OutboxState) (max : Nat) : OutboxState × List OutboxEntry :=
  let batch := leaseLoop s.leased max s.rows []
  ({ s with leased := s.leased ∪ (ids batch).toFinset }, batch)

/-- mirrors crates/crawlrs-fakes/src/outbox.rs:102-111 -/
def finalizeLease (s : OutboxState) (ids : List Nat) : OutboxState :=
  { s with
    rows := s.rows.map fun row => if row.id ∈ ids then { row with published := true } else row
    leased := s.leased \ ids.toFinset }

/-- mirrors crates/crawlrs-fakes/src/outbox.rs:116-120 -/
def releaseLease (s : OutboxState) (ids : List Nat) : OutboxState :=
  { s with leased := s.leased \ ids.toFinset }

/-- Neither published nor leased. -/
def IsFree (leased : Finset Nat) (row : InMemoryOutboxRow) : Prop :=
  row.published = false ∧ row.id ∉ leased

instance (leased : Finset Nat) : DecidablePred (IsFree leased) :=
  fun _ => inferInstanceAs (Decidable (_ ∧ _))

theorem leaseLoop_eq (leased : Finset Nat) (max : Nat) (rows : List InMemoryOutboxRow) :
    ∀ batch, leaseLoop leased max rows batch = batch ++
      ((rows.filter (IsFree leased)).map fun row => ⟨row.id, row.entry⟩).take (max - batch.length) := by
  induction rows with
  | nil => intro batch; simp [leaseLoop]
  | cons row rows ih =>
    intro batch
    unfold leaseLoop
    by_cases hmax : max ≤ batch.length
    · simp [hmax, Nat.sub_eq_zero_of_le hmax]
    · rw [if_neg hmax]
      by_cases hfree : IsFree leased row
      · have hskip : ¬ (row.published ∨ row.id ∈ leased) := by
          simpa [IsFree] using hfree
        obtain ⟨n, hn⟩ := Nat.exists_eq_add_of_lt (Nat.lt_of_not_le hmax)
        have h1 : max - batch.length = n + 1 := by omega
        have h2 : max - (batch.length + 1) = n := by omega
        rw [if_neg hskip, ih]
        simp [hfree, h1, h2]
      · have hskip : row.published ∨ row.id ∈ leased := by
          rw [IsFree, not_and_or] at hfree
          simpa using hfree
        rw [if_pos hskip, ih]
        simp [hfree]

/-- The first `max` free rows. -/
theorem leaseBatch_eq (s : OutboxState) (max : Nat) : (s.leaseBatch max).2 =
    ((s.rows.filter (IsFree s.leased)).map fun row => ⟨row.id, row.entry⟩).take max := by
  simp [leaseBatch, leaseLoop_eq]

theorem mem_leaseBatch {s : OutboxState} {max : Nat} {e : OutboxEntry}
    (h : e ∈ (s.leaseBatch max).2) :
    ∃ row ∈ s.rows, IsFree s.leased row ∧ e = ⟨row.id, row.entry⟩ := by
  rw [leaseBatch_eq] at h
  obtain ⟨row, hrow, rfl⟩ := List.mem_map.1 (List.mem_of_mem_take h)
  obtain ⟨hmem, hfree⟩ := List.mem_filter.1 hrow
  exact ⟨row, hmem, by simpa using hfree, rfl⟩

/-- A free row is in every batch that is large enough. -/
theorem mem_leaseBatch_of_free {s : OutboxState} {max : Nat} (hmax : s.rows.length ≤ max)
    {row : InMemoryOutboxRow} (hrow : row ∈ s.rows) (hfree : IsFree s.leased row) :
    (⟨row.id, row.entry⟩ : OutboxEntry) ∈ (s.leaseBatch max).2 := by
  rw [leaseBatch_eq, List.take_of_length_le]
  · exact List.mem_map.2 ⟨row, List.mem_filter.2 ⟨hrow, by simpa using hfree⟩, rfl⟩
  · rw [List.length_map]
    exact (List.length_filter_le _ _).trans hmax

end OutboxState

/-- What is left of a list without its `i`-th entry. -/
theorem split_of_getElem? {α : Type} {l : List α} {i : Nat} {a : α} (h : l[i]? = some a) :
    ∃ pre post, l = pre ++ a :: post ∧ l.eraseIdx i = pre ++ post := by
  obtain ⟨hi, rfl⟩ := List.getElem?_eq_some_iff.1 h
  refine ⟨l.take i, l.drop (i + 1), ?_, List.eraseIdx_eq_take_drop_succ l i⟩
  rw [List.getElem_cons_drop, List.take_append_drop]

/-! ## Publish calls under way -/

structure Protocol where
  outbox : OutboxState := {}
  openCalls : List (List OutboxEntry) := []
  shipped : List (List OutboxEntry) := []
  keys : List OutboxKey := []

namespace Protocol

inductive Label
  | recordOutbound (parentUrl : CanonicalUrl) (parentAttemptId : String) (child : UrlEntry)
  | leaseBatch (max : Nat)
  /-- `ship` of the `i`-th open call returned `Ok` -/
  | finalizeLease (i : Nat)
  /-- `ship` of the `i`-th open call returned `Err` -/
  | releaseLease (i : Nat)
deriving DecidableEq, Repr

/-- A call that finds nothing to lease returns at once.
mirrors crates/crawlrs-fakes/src/metadata_store.rs:222-250 -/
def step (s : Protocol) : Label → Option Protocol
  | .recordOutbound parentUrl parentAttemptId child =>
    let outbox := s.outbox.recordOutbound parentUrl parentAttemptId child
    some { s with
      outbox
      keys := if s.outbox.rows.length < outbox.rows.length then
          s.keys ++ [(parentUrl.asStr, parentAttemptId, child.url.asStr)]
        else s.keys }
  | .leaseBatch max =>
    match s.outbox.leaseBatch max with
    | (outbox, []) => some { s with outbox }
    | (outbox, batch) => some { s with outbox, openCalls := s.openCalls ++ [batch] }
  | .finalizeLease i => do
    let batch ← s.openCalls[i]?
    return { s with
      outbox := s.outbox.finalizeLease (ids batch)
      openCalls := s.openCalls.eraseIdx i
      shipped := s.shipped ++ [batch] }
  | .releaseLease i => do
    let batch ← s.openCalls[i]?
    return { s with
      outbox := s.outbox.releaseLease (ids batch)
      openCalls := s.openCalls.eraseIdx i }

end Protocol

/-- Workers that append rows and publish calls that overlap, in any order. -/
def protocol : LTS Protocol Protocol.Label := LTS.ofFn (· = {}) Protocol.step

namespace Protocol

/-! ### What a step does -/

section Inversion

variable {s s' : Protocol}

theorem recordOutbound_inv {parentUrl : CanonicalUrl} {parentAttemptId : String} {child : UrlEntry}
    (h : s.step (.recordOutbound parentUrl parentAttemptId child) = some s') :
    s' = s ∨ (parentUrl.asStr, parentAttemptId, child.url.asStr) ∉ s.outbox.dedupe ∧
      s' = { s with
        outbox := { s.outbox with
          dedupe := insert (parentUrl.asStr, parentAttemptId, child.url.asStr) s.outbox.dedupe
          nextId := s.outbox.nextId + 1
          rows := s.outbox.rows ++ [⟨s.outbox.nextId + 1, child, false⟩] }
        keys := s.keys ++ [(parentUrl.asStr, parentAttemptId, child.url.asStr)] } := by
  simp only [step, Option.some.injEq] at h
  subst h
  by_cases hk : (parentUrl.asStr, parentAttemptId, child.url.asStr) ∈ s.outbox.dedupe
  · left
    simp [OutboxState.recordOutbound, hk]
  · right
    refine ⟨hk, ?_⟩
    simp [OutboxState.recordOutbound, hk]

theorem leaseBatch_inv {max : Nat} (h : s.step (.leaseBatch max) = some s') :
    s' = { s with
      outbox := (s.outbox.leaseBatch max).1
      openCalls := if (s.outbox.leaseBatch max).2 = [] then s.openCalls
        else s.openCalls ++ [(s.outbox.leaseBatch max).2] } := by
  simp only [step] at h
  split at h
  · rename_i outbox heq
    cases h
    simp [heq]
  · rename_i outbox batch hne heq
    cases h
    have hne : batch ≠ [] := hne
    simp [heq, hne]

theorem finalizeLease_inv {i : Nat} (h : s.step (.finalizeLease i) = some s') :
    ∃ batch, s.openCalls[i]? = some batch ∧ s' = { s with
      outbox := s.outbox.finalizeLease (ids batch)
      openCalls := s.openCalls.eraseIdx i
      shipped := s.shipped ++ [batch] } := by
  simp only [step, Option.bind_eq_bind, Option.bind_eq_some_iff, Option.pure_def,
    Option.some.injEq] at h
  obtain ⟨batch, hb, rfl⟩ := h
  exact ⟨batch, hb, rfl⟩

theorem releaseLease_inv {i : Nat} (h : s.step (.releaseLease i) = some s') :
    ∃ batch, s.openCalls[i]? = some batch ∧ s' = { s with
      outbox := s.outbox.releaseLease (ids batch)
      openCalls := s.openCalls.eraseIdx i } := by
  simp only [step, Option.bind_eq_bind, Option.bind_eq_some_iff, Option.pure_def,
    Option.some.injEq] at h
  obtain ⟨batch, hb, rfl⟩ := h
  exact ⟨batch, hb, rfl⟩

end Inversion

/-! ### The invariant -/

/-- Who holds which lease, and where the rows come from. -/
structure Valid (s : Protocol) : Prop where
  sorted : (s.outbox.rows.map InMemoryOutboxRow.id).Pairwise (· < ·)
  le_nextId : ∀ row ∈ s.outbox.rows, row.id ≤ s.outbox.nextId
  leased_iff : ∀ id, id ∈ s.outbox.leased ↔ ∃ batch ∈ s.openCalls, id ∈ ids batch
  disjoint : s.openCalls.Pairwise fun a b => (ids a).Disjoint (ids b)
  held : ∀ batch ∈ s.openCalls, ∀ e ∈ batch, (⟨e.id, e.entry, false⟩ : InMemoryOutboxRow) ∈ s.outbox.rows
  shipped : ∀ row ∈ s.outbox.rows, row.published = true →
    ∃ batch ∈ s.shipped, (⟨row.id, row.entry⟩ : OutboxEntry) ∈ batch
  dedupe_iff : ∀ key, key ∈ s.outbox.dedupe ↔ key ∈ s.keys
  keys_nodup : s.keys.Nodup
  keyed : List.Forall₂ (fun key row => key.2.2 = row.entry.url.asStr) s.keys s.outbox.rows

namespace Valid

variable {s s' : Protocol}

theorem init : Valid {} where
  sorted := .nil
  le_nextId := by simp
  leased_iff := by simp
  disjoint := .nil
  held := by simp
  shipped := by simp
  dedupe_iff := by simp
  keys_nodup := .nil
  keyed := .nil

/-- An id names one row. -/
theorem row_eq (h : Valid s) {r r' : InMemoryOutboxRow} (hr : r ∈ s.outbox.rows)
    (hr' : r' ∈ s.outbox.rows) (hid : r.id = r'.id) : r = r' :=
  List.inj_on_of_nodup_map (h.sorted.imp Nat.ne_of_lt) hr hr' hid

/-- What is under lease is not published. -/
theorem not_leased (h : Valid s) {row : InMemoryOutboxRow} (hrow : row ∈ s.outbox.rows)
    (hp : row.published = true) : row.id ∉ s.outbox.leased := by
  intro hl
  obtain ⟨batch, hb, hid⟩ := (h.leased_iff _).1 hl
  obtain ⟨e, he, hid⟩ := List.mem_map.1 hid
  have heq := h.row_eq hrow (h.held batch hb e he) hid.symm
  rw [heq] at hp
  cases hp

theorem recordOutbound (h : Valid s) {parentUrl : CanonicalUrl} {parentAttemptId : String}
    {child : UrlEntry} (hst : s.step (.recordOutbound parentUrl parentAttemptId child) = some s') :
    Valid s' := by
  rcases recordOutbound_inv hst with rfl | ⟨hnew, rfl⟩
  · exact h
  · exact {
      sorted := by
        simp only [List.map_append, List.map_cons, List.map_nil]
        refine List.pairwise_append.2 ⟨h.sorted, by simp, ?_⟩
        intro a ha b hb
        obtain ⟨row, hrow, rfl⟩ := List.mem_map.1 ha
        rw [List.mem_singleton.1 hb]
        exact Nat.lt_succ_of_le (h.le_nextId row hrow)
      le_nextId := by
        intro row hrow
        rcases List.mem_append.1 hrow with hrow | hrow
        · exact Nat.le_succ_of_le (h.le_nextId row hrow)
        · rw [List.mem_singleton.1 hrow]
      leased_iff := h.leased_iff
      disjoint := h.disjoint
      held := fun batch hb e he => List.mem_append_left _ (h.held batch hb e he)
      shipped := by
        intro row hrow hp
        rcases List.mem_append.1 hrow with hrow | hrow
        · exact h.shipped row hrow hp
        · rw [List.mem_singleton.1 hrow] at hp
          cases hp
      dedupe_iff := by
        intro key
        simp [h.dedupe_iff key, or_comm]
      keys_nodup := by
        rw [h.dedupe_iff] at hnew
        exact List.nodup_append.2 ⟨h.keys_nodup, by simp, by
          intro a ha b hb he
          rw [List.mem_singleton.1 hb] at he
          exact hnew (he ▸ ha)⟩
      keyed := List.rel_append h.keyed (.cons rfl .nil) }

theorem leaseBatch (h : Valid s) {max : Nat} (hst : s.step (.leaseBatch max) = some s') :
    Valid s' := by
  have hs' := leaseBatch_inv hst
  by_cases hnil : (s.outbox.leaseBatch max).2 = []
  · have hsame : (s.outbox.leaseBatch max).1 = s.outbox := by
      have hleased : (s.outbox.leaseBatch max).1 = { s.outbox with
        leased := s.outbox.leased ∪ (ids (s.outbox.leaseBatch max).2).toFinset } := rfl
      rw [hleased, hnil]
      simp [ids]
    rw [if_pos hnil, hsame] at hs'
    rwa [hs']
  · rw [if_neg hnil] at hs'
    subst hs'
    -- a row of the new batch was free, so no open call has it
    have hfree : ∀ id ∈ ids (s.outbox.leaseBatch max).2, id ∉ s.outbox.leased := by
      intro id hid
      obtain ⟨e, he, rfl⟩ := List.mem_map.1 hid
      obtain ⟨row, -, hfree, rfl⟩ := OutboxState.mem_leaseBatch he
      exact hfree.2
    exact { h with
      leased_iff := by
        intro id
        simp only [OutboxState.leaseBatch, Finset.mem_union, List.mem_toFinset, h.leased_iff id,
          List.mem_append, List.mem_singleton]
        constructor
        · rintro (⟨batch, hb, hid⟩ | hid)
          · exact ⟨batch, .inl hb, hid⟩
          · exact ⟨_, .inr rfl, hid⟩
        · rintro ⟨batch, hb | rfl, hid⟩
          · exact .inl ⟨batch, hb, hid⟩
          · exact .inr hid
      disjoint := by
        refine List.pairwise_append.2 ⟨h.disjoint, by simp, ?_⟩
        intro a ha b hb id hida hidb
        rw [List.mem_singleton.1 hb] at hidb
        exact hfree id hidb ((h.leased_iff id).2 ⟨a, ha, hida⟩)
      held := by
        intro batch hb e he
        rcases List.mem_append.1 hb with hb | hb
        · exact h.held batch hb e he
        · rw [List.mem_singleton.1 hb] at he
          obtain ⟨row, hrow, hfree, rfl⟩ := OutboxState.mem_leaseBatch he
          have heq : (⟨row.id, row.entry, false⟩ : InMemoryOutboxRow) = row := by
            rw [← hfree.1]
          exact heq ▸ hrow }

/-- A call that ends gives back exactly its own leases. -/
theorem leased_iff_erase (h : Valid s) {i : Nat} {batch : List OutboxEntry}
    (hb : s.openCalls[i]? = some batch) (id : Nat) :
    id ∈ s.outbox.leased \ (ids batch).toFinset ↔
      ∃ other ∈ s.openCalls.eraseIdx i, id ∈ ids other := by
  obtain ⟨pre, post, hopen, herase⟩ := split_of_getElem? hb
  have hdis := h.disjoint
  rw [hopen] at hdis
  rw [Finset.mem_sdiff, h.leased_iff id, herase, hopen, List.mem_toFinset]
  obtain ⟨-, hpost, hpre⟩ := List.pairwise_append.1 hdis
  constructor
  · rintro ⟨⟨other, hother, hid⟩, hnot⟩
    rcases List.mem_append.1 hother with hm | hm
    · exact ⟨other, List.mem_append_left _ hm, hid⟩
    · rcases List.mem_cons.1 hm with rfl | hm
      · exact absurd hid hnot
      · exact ⟨other, List.mem_append_right _ hm, hid⟩
  · rintro ⟨other, hother, hid⟩
    refine ⟨⟨other, ?_, hid⟩, fun hid' => ?_⟩
    · simp only [List.mem_append, List.mem_cons] at hother ⊢
      tauto
    · rcases List.mem_append.1 hother with hm | hm
      · exact hpre other hm batch List.mem_cons_self hid hid'
      · exact (List.pairwise_cons.1 hpost).1 other hm hid' hid

/-- The other open calls keep their rows when a batch is published. -/
theorem not_mem_ids_erase (h : Valid s) {i : Nat} {batch other : List OutboxEntry}
    (hb : s.openCalls[i]? = some batch) (hother : other ∈ s.openCalls.eraseIdx i) {id : Nat}
    (hid : id ∈ ids other) : id ∉ ids batch := by
  have hm := (h.leased_iff_erase hb id).2 ⟨other, hother, hid⟩
  simpa using (Finset.mem_sdiff.1 hm).2

theorem releaseLease (h : Valid s) {i : Nat} (hst : s.step (.releaseLease i) = some s') :
    Valid s' := by
  obtain ⟨batch, hb, rfl⟩ := releaseLease_inv hst
  exact { h with
    leased_iff := h.leased_iff_erase hb
    disjoint := h.disjoint.sublist (List.eraseIdx_sublist _ _)
    held := fun other hother => h.held other (List.mem_of_mem_eraseIdx hother) }

theorem finalizeLease (h : Valid s) {i : Nat} (hst : s.step (.finalizeLease i) = some s') :
    Valid s' := by
  obtain ⟨batch, hb, rfl⟩ := finalizeLease_inv hst
  have hid : ∀ row : InMemoryOutboxRow,
      (if row.id ∈ ids batch then { row with published := true } else row).id = row.id := by
    intro row
    split <;> rfl
  have hentry : ∀ row : InMemoryOutboxRow,
      (if row.id ∈ ids batch then { row with published := true } else row).entry = row.entry := by
    intro row
    split <;> rfl
  exact {
    sorted := by
      simp only [OutboxState.finalizeLease, List.map_map, Function.comp_def, hid]
      exact h.sorted
    le_nextId := by
      intro row hrow
      obtain ⟨r, hr, rfl⟩ := List.mem_map.1 hrow
      rw [hid]
      exact h.le_nextId r hr
    leased_iff := h.leased_iff_erase hb
    disjoint := h.disjoint.sublist (List.eraseIdx_sublist _ _)
    held := by
      intro other hother e he
      have hrow := h.held other (List.mem_of_mem_eraseIdx hother) e he
      have hnot : e.id ∉ ids batch :=
        h.not_mem_ids_erase hb hother (List.mem_map_of_mem he)
      exact List.mem_map.2 ⟨_, hrow, by simp [hnot]⟩
    shipped := by
      intro row hrow hp
      obtain ⟨r, hr, rfl⟩ := List.mem_map.1 hrow
      rw [hid, hentry]
      by_cases hm : r.id ∈ ids batch
      · refine ⟨batch, by simp, ?_⟩
        obtain ⟨e, he, heid⟩ := List.mem_map.1 hm
        have heq := h.row_eq (h.held batch (List.mem_of_getElem? hb) e he) hr heid
        rw [← heq]
        exact he
      · rw [if_neg hm] at hp
        obtain ⟨old, hold, he⟩ := h.shipped r hr hp
        exact ⟨old, List.mem_append_left _ hold, he⟩
    dedupe_iff := h.dedupe_iff
    keys_nodup := h.keys_nodup
    keyed := by
      refine List.forall₂_map_right_iff.2 (h.keyed.imp fun key row hk => ?_)
      rw [hentry]
      exact hk }

end Valid

theorem inductive_valid : protocol.Inductive Valid where
  init s h0 := by
    have h0 : s = {} := h0
    exact h0 ▸ Valid.init
  step s l s' h hst := by
    cases l with
    | recordOutbound => exact h.recordOutbound hst
    | leaseBatch => exact h.leaseBatch hst
    | finalizeLease => exact h.finalizeLease hst
    | releaseLease => exact h.releaseLease hst

/-! ### Whole runs -/

/-- Every row is still there, and published if it was. -/
def RowsKept (s s' : Protocol) : Prop :=
  ∀ row ∈ s.outbox.rows, ∃ row' ∈ s'.outbox.rows, row'.id = row.id ∧ row'.entry = row.entry ∧
    (row.published = true → row'.published = true)

theorem rowsKept_step {s s' : Protocol} {l : Label} (hst : s.step l = some s') : RowsKept s s' := by
  have hsame : s'.outbox.rows = s.outbox.rows → RowsKept s s' :=
    fun h row hrow => ⟨row, h ▸ hrow, rfl, rfl, id⟩
  cases l with
  | recordOutbound =>
    rcases recordOutbound_inv hst with rfl | ⟨-, rfl⟩
    · exact hsame rfl
    · exact fun row hrow => ⟨row, List.mem_append_left _ hrow, rfl, rfl, id⟩
  | leaseBatch =>
    rw [leaseBatch_inv hst] at hsame ⊢
    exact hsame rfl
  | finalizeLease =>
    obtain ⟨batch, -, rfl⟩ := finalizeLease_inv hst
    intro row hrow
    refine ⟨_, List.mem_map_of_mem hrow, ?_⟩
    split <;> simp
  | releaseLease =>
    obtain ⟨batch, -, rfl⟩ := releaseLease_inv hst
    exact hsame rfl

theorem rowsKept_steps {s s' : Protocol} {tr : List Label} (h : protocol.Steps s tr s') :
    RowsKept s s' := by
  induction h with
  | nil s => exact fun row hrow => ⟨row, hrow, rfl, rfl, id⟩
  | cons hst _ ih =>
    intro row hrow
    obtain ⟨row1, hrow1, hid1, he1, hp1⟩ := rowsKept_step hst row hrow
    obtain ⟨row2, hrow2, hid2, he2, hp2⟩ := ih row1 hrow1
    exact ⟨row2, hrow2, hid2.trans hid1, he2.trans he1, fun hp => hp2 (hp1 hp)⟩

end Protocol

/-- **The lease protocol of the outbox**, in every reachable state. -/
theorem outbox_lease_protocol (s : Protocol) (hs : protocol.Reachable s) :
    (s.openCalls.Pairwise fun a b => (ids a).Disjoint (ids b)) ∧
    (∀ id, id ∈ s.outbox.leased ↔ ∃ batch ∈ s.openCalls, id ∈ ids batch) ∧
    (∀ row ∈ s.outbox.rows, row.published = true →
      ∃ batch ∈ s.shipped, (⟨row.id, row.entry⟩ : OutboxEntry) ∈ batch) ∧
    (∀ tr s', protocol.Steps s tr s' → Protocol.RowsKept s s' ∧
      ∀ row ∈ s.outbox.rows, row.published = true →
        row.id ∉ s'.outbox.leased ∧ ∀ max, row.id ∉ ids (s'.outbox.leaseBatch max).2) ∧
    (∀ row ∈ s.outbox.rows, row.published = false → row.id ∉ s.outbox.leased →
      ∀ max, s.outbox.rows.length ≤ max →
        (⟨row.id, row.entry⟩ : OutboxEntry) ∈ (s.outbox.leaseBatch max).2) ∧
    (s.outbox.rows.map InMemoryOutboxRow.id).Pairwise (· < ·) ∧
    (s.keys.Nodup ∧
      List.Forall₂ (fun key row => key.2.2 = row.entry.url.asStr) s.keys s.outbox.rows) := by
  have h := Protocol.inductive_valid.reachable s hs
  refine ⟨h.disjoint, h.leased_iff, h.shipped, fun tr s' hrun => ?_, ?_, h.sorted, h.keys_nodup,
    h.keyed⟩
  · have hkept := Protocol.rowsKept_steps hrun
    have h' := Protocol.inductive_valid.reachable s' (hs.steps hrun)
    refine ⟨hkept, fun row hrow hp => ?_⟩
    obtain ⟨row', hrow', hid, -, hp'⟩ := hkept row hrow
    rw [← hid]
    refine ⟨h'.not_leased hrow' (hp' hp), fun max hm => ?_⟩
    obtain ⟨e, he, heid⟩ := List.mem_map.1 hm
    obtain ⟨free, hfree, ⟨hunp, -⟩, rfl⟩ := OutboxState.mem_leaseBatch he
    have heq := h'.row_eq hfree hrow' heid
    rw [heq, hp' hp] at hunp
    cases hunp
  · intro row hrow hp hl max hmax
    exact OutboxState.mem_leaseBatch_of_free hmax hrow ⟨hp, hl⟩

/-- Two links of `https://a.test/`: the first is shipped while a second call holds the other, and
a third call finds nothing. -/
def Protocol.sample : Protocol := LTS.replay Protocol.step {}
  [.recordOutbound UrlEntry.seedA.url "a1" .seedA', .leaseBatch 1,
    .recordOutbound UrlEntry.seedA.url "a1" .seedB, .leaseBatch 5, .finalizeLease 0, .leaseBatch 5]

theorem outbox_lease_protocol_overlapping :
    Protocol.sample.openCalls = [[⟨2, .seedB⟩]] ∧
      ∃ batch ∈ Protocol.sample.shipped, (⟨1, .seedA'⟩ : OutboxEntry) ∈ batch := by
  have hs : protocol.Reachable Protocol.sample :=
    LTS.Reachable.steps (.init rfl) (LTS.steps_replay (by decide +kernel))
  exact ⟨by decide +kernel,
    (outbox_lease_protocol _ hs).2.2.1 ⟨1, .seedA', true⟩ (by decide +kernel) rfl⟩

end Fakes

end Crawlrs

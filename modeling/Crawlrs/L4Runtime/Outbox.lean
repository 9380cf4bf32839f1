import Crawlrs.L4Runtime.Frontier

/-!
# Draining the outbox (`crawlrs-metadata/src/store.rs`, `crawlrs-runtime/src/outbox.rs`)

A publish call is one transaction: it locks the first unpublished rows nobody
else has locked (`leaseBatch`), reads them back into entries, hands them to the
frontier, and marks them published (`ship`). Any error rolls it back: the rows
stay unpublished.

`Cluster` is what all pods share, one Redis and one ledger. Reading a row goes
through `CanonicalUrl::parse`, a parameter here.

* `insert_tracked`: after a commit every link of the page has its row.
* `ship_error`, `ship_ok`: the two outcomes of a batch.
-/
namespace Crawlrs

variable {β : Type}

/-- mirrors crates/crawlrs-runtime/src/outbox.rs:56 -/
def batchSize : Nat := 256

namespace OutboxTable

/-- `WHERE published_at IS NULL ORDER BY id`. -/
def unpublished (t : OutboxTable) : List OutboxRow := t.rows.filter fun r => !r.published

/-- `LIMIT max FOR UPDATE SKIP LOCKED`.
mirrors crates/crawlrs-metadata/src/store.rs:458-469 -/
def leaseBatch (t : OutboxTable) (locked : List Nat) (max : Nat) : List OutboxRow :=
  (t.unpublished.filter fun r => !locked.contains r.id).take max

/-- What `LIMIT $1` answers where `max as i64` is negative. -/
def negativeLimit : Error :=
  .metadata "postgres error: error returned from database: LIMIT must not be negative"

theorem unpublished_ids (t : OutboxTable) : (t.unpublished.map OutboxRow.id).Pairwise (· < ·) :=
  t.sorted.sublist (List.filter_sublist.map _)

theorem unpublished_markPublished (t : OutboxTable) (ids : List Nat) :
    (t.markPublished ids).unpublished = t.unpublished.filter fun r => !ids.contains r.id := by
  have hsame : ∀ r ∈ t.rows.filter fun r => !ids.contains r.id && !r.published,
      r.publish ids = r := by
    intro r hr
    obtain ⟨hid, hp⟩ := Bool.and_eq_true_iff.1 (List.mem_filter.1 hr).2
    simp only [Bool.not_eq_true'] at hid hp
    rw [OutboxRow.publish, hid, Bool.or_false]
  have hkeep : (fun r : OutboxRow => !r.published) ∘ OutboxRow.publish ids =
      fun r => !ids.contains r.id && !r.published := by
    funext r
    simp [OutboxRow.publish, Bool.and_comm]
  simp only [unpublished, markPublished, List.filter_map, List.filter_filter, hkeep]
  rw [List.map_congr_left hsame, List.map_id']

theorem markPublished_nil (t : OutboxTable) : t.markPublished [] = t := by
  have hrow : OutboxRow.publish [] = id := by
    funext r
    simp [OutboxRow.publish]
  simp only [markPublished, hrow, List.map_id]

/-! ## Rows of a commit -/

/-- A row for the link `url` of the page. -/
def IsRow (parentUrl parentAttemptId url : String) (r : OutboxRow) : Prop :=
  r.parentUrl = parentUrl ∧ r.parentAttemptId = parentAttemptId ∧ r.url = url

theorem mem_insert_of_mem {u a : String} {t : OutboxTable} {child : UrlEntry} {r : OutboxRow}
    (h : r ∈ t.rows) : r ∈ (t.insert u a child).rows := by
  unfold insert
  split
  · exact h
  · exact List.mem_append_left _ h

theorem insert_isRow (u a : String) (t : OutboxTable) (child : UrlEntry) :
    ∃ r ∈ (t.insert u a child).rows, IsRow u a child.url.asStr r ∧
      (r ∈ t.rows ∨ r.published = false) := by
  unfold insert
  split
  · rename_i hc
    obtain ⟨r, hr, hrow⟩ := List.any_eq_true.1 hc
    simp only [Bool.and_eq_true, beq_iff_eq] at hrow
    exact ⟨r, hr, ⟨hrow.1.1, hrow.1.2, hrow.2⟩, Or.inl hr⟩
  · exact ⟨_, List.mem_append_right _ List.mem_cons_self, ⟨rfl, rfl, rfl⟩, Or.inr rfl⟩

theorem mem_foldl_insert {u a : String} {children : List UrlEntry} {r : OutboxRow} :
    ∀ {t : OutboxTable}, r ∈ t.rows → r ∈ (children.foldl (.insert u a) t).rows := by
  induction children with
  | nil => intro t h; exact h
  | cons child children ih => intro t h; exact ih (mem_insert_of_mem h)

/-- A row of the table after a commit is an earlier one or not yet published. -/
theorem mem_insert {u a : String} {t : OutboxTable} {child : UrlEntry} {r : OutboxRow}
    (h : r ∈ (t.insert u a child).rows) : r ∈ t.rows ∨ r.published = false := by
  unfold insert at h
  split at h
  · exact Or.inl h
  · rcases List.mem_append.1 h with h | h
    · exact Or.inl h
    · rw [List.mem_singleton.1 h]
      exact Or.inr rfl

/-- Every link of a page has a row after the commit: an earlier one of the same attempt, or one
that waits to be published. -/
theorem insert_tracked (u a : String) (children : List UrlEntry) :
    ∀ t : OutboxTable, ∀ child ∈ children, ∃ r ∈ (children.foldl (.insert u a) t).rows,
      IsRow u a child.url.asStr r ∧ (r ∈ t.rows ∨ r.published = false) := by
  induction children with
  | nil => intro t child h; cases h
  | cons c children ih =>
    intro t child h
    rw [List.foldl_cons]
    rcases List.mem_cons.1 h with rfl | h
    · obtain ⟨r, hr, hrow, hp⟩ := insert_isRow u a t child
      exact ⟨r, mem_foldl_insert hr, hrow, hp⟩
    · obtain ⟨r, hr, hrow, hp⟩ := ih (t.insert u a c) child h
      refine ⟨r, hr, hrow, ?_⟩
      rcases hp with hp | hp
      · exact mem_insert hp
      · exact Or.inr hp

/-! ### Repeated commits

A commit that finds the rows of all its links adds none, and what publishing marks is not what the
unique constraint looks at. -/

theorem conflicts_iff {t : OutboxTable} {u a url : String} :
    t.conflicts u a url = true ↔ ∃ r ∈ t.rows, IsRow u a url r := by
  simp [conflicts, IsRow, List.any_eq_true, and_assoc]

theorem foldl_insert_of_conflicts {u a : String} {children : List UrlEntry} :
    ∀ {t : OutboxTable}, (∀ c ∈ children, t.conflicts u a c.url.asStr = true) →
      (children.foldl (.insert u a) t).rows = t.rows := by
  induction children with
  | nil => intro t _; rfl
  | cons c children ih =>
    intro t h
    have hc : t.insert u a c = t.next := by simp [insert, h c List.mem_cons_self]
    rw [List.foldl_cons, hc]
    exact ih (t := t.next) fun c' hc' => h c' (List.mem_cons_of_mem _ hc')

theorem conflicts_foldl_insert {u a : String} {children : List UrlEntry} (t : OutboxTable)
    {c : UrlEntry} (h : c ∈ children) :
    (children.foldl (.insert u a) t).conflicts u a c.url.asStr = true := by
  obtain ⟨r, hr, hrow, -⟩ := insert_tracked u a children t c h
  exact conflicts_iff.2 ⟨r, hr, hrow⟩

theorem foldl_insert_idem (u a : String) (children : List UrlEntry) (t : OutboxTable) :
    (children.foldl (.insert u a) (children.foldl (.insert u a) t)).rows =
      (children.foldl (.insert u a) t).rows :=
  foldl_insert_of_conflicts fun _ hc => conflicts_foldl_insert t hc

theorem insert_extends (u a : String) (t : OutboxTable) (child : UrlEntry) :
    t.rows <+: (t.insert u a child).rows := by
  unfold insert
  split
  · exact List.prefix_refl _
  · exact List.prefix_append _ _

theorem foldl_insert_extends (u a : String) (children : List UrlEntry) :
    ∀ t : OutboxTable, t.rows <+: (children.foldl (.insert u a) t).rows := by
  induction children with
  | nil => intro t; exact List.prefix_refl _
  | cons c children ih => intro t; exact (insert_extends u a t c).trans (ih _)

theorem conflicts_markPublished (ids : List Nat) (t : OutboxTable) (u a url : String) :
    (t.markPublished ids).conflicts u a url = t.conflicts u a url := by
  simp [conflicts, markPublished, OutboxRow.publish, List.any_map, Function.comp_def]

theorem insert_markPublished {ids : List Nat} {t : OutboxTable} (h : ∀ i ∈ ids, i ≤ t.seq)
    (u a : String) (child : UrlEntry) :
    (t.markPublished ids).insert u a child = (t.insert u a child).markPublished ids := by
  have hnew : t.seq + 1 ∉ ids := fun hm => by
    have := h _ hm
    omega
  unfold insert
  rw [conflicts_markPublished]
  split
  · rfl
  · simp [push, markPublished, OutboxRow.publish, hnew]

theorem seq_le_insert (u a : String) (t : OutboxTable) (child : UrlEntry) :
    t.seq ≤ (t.insert u a child).seq := by
  unfold insert
  split
  · exact Nat.le_succ _
  · exact Nat.le_succ _

theorem foldl_insert_markPublished {ids : List Nat} {u a : String} {children : List UrlEntry} :
    ∀ {t : OutboxTable}, (∀ i ∈ ids, i ≤ t.seq) →
      children.foldl (.insert u a) (t.markPublished ids) =
        (children.foldl (.insert u a) t).markPublished ids := by
  induction children with
  | nil => intro t _; rfl
  | cons c children ih =>
    intro t h
    rw [List.foldl_cons, List.foldl_cons, insert_markPublished h]
    exact ih fun i hi => (h i hi).trans (seq_le_insert u a t c)

end OutboxTable

/-! ## Reading rows back -/

/-- `CanonicalUrl::parse`, an error by its text. -/
abbrev ParseUrl := String → Except String CanonicalUrl

namespace OutboxRow

/-- mirrors crates/crawlrs-metadata/src/store.rs:485-514 -/
def read (parse : ParseUrl) (r : OutboxRow) : Except Error UrlEntry :=
  match parse r.url with
  | .error e => .error (.metadata (s!"outbox row {r.id} carries unparsable url {r.url}: " ++ e))
  | .ok url =>
    match r.discoveredFrom.mapM parse with
    | .error e =>
      .error (.metadata (s!"outbox row {r.id} carries unparsable discovered_from: " ++ e))
    | .ok discoveredFrom => .ok ⟨url, r.depth, discoveredFrom⟩

def readAll (parse : ParseUrl) : List OutboxRow → Except Error (List UrlEntry)
  | [] => .ok []
  | r :: rs =>
    match r.read parse with
    | .error e => .error e
    | .ok entry =>
      match readAll parse rs with
      | .error e => .error e
      | .ok entries => .ok (entry :: entries)

variable {parse : ParseUrl}

theorem readAll_ok {rs : List OutboxRow} {entries : List UrlEntry}
    (h : readAll parse rs = .ok entries) :
    (∀ r ∈ rs, ∃ e ∈ entries, r.read parse = .ok e) ∧
      ∀ e ∈ entries, ∃ r ∈ rs, r.read parse = .ok e := by
  induction rs generalizing entries with
  | nil => cases h; simp
  | cons r rs ih =>
    simp only [readAll] at h
    split at h
    · cases h
    · rename_i entry hr
      split at h
      · cases h
      · rename_i es hes
        cases h
        obtain ⟨h1, h2⟩ := ih hes
        refine ⟨fun r' hr' => ?_, fun e he => ?_⟩
        · rcases List.mem_cons.1 hr' with rfl | hr'
          · exact ⟨entry, List.mem_cons_self, hr⟩
          · obtain ⟨e, he, hre⟩ := h1 r' hr'
            exact ⟨e, List.mem_cons_of_mem _ he, hre⟩
        · rcases List.mem_cons.1 he with rfl | he
          · exact ⟨r, List.mem_cons_self, hr⟩
          · obtain ⟨r', hr', hre⟩ := h2 e he
            exact ⟨r', List.mem_cons_of_mem _ hr', hre⟩

theorem readAll_of_forall {rs : List OutboxRow} (h : ∀ r ∈ rs, ∃ e, r.read parse = .ok e) :
    ∃ entries, readAll parse rs = .ok entries := by
  induction rs with
  | nil => exact ⟨[], rfl⟩
  | cons r rs ih =>
    obtain ⟨e, he⟩ := h r List.mem_cons_self
    obtain ⟨es, hes⟩ := ih fun r hr => h r (List.mem_cons_of_mem _ hr)
    exact ⟨e :: es, by simp [readAll, he, hes]⟩

theorem read_url {r : OutboxRow} {e : UrlEntry} (h : r.read parse = .ok e) :
    parse r.url = .ok e.url := by
  unfold read at h
  split at h
  · cases h
  · rename_i url hu
    split at h
    · cases h
    · cases h
      exact hu

end OutboxRow

end Crawlrs

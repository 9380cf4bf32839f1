import Crawlrs.L4Runtime.Failure
import Mathlib.Logic.Function.Basic

/-!
# The metadata ledger (`crawlrs-metadata/src/store.rs`, `migrations/0001_init.sql`)

The three tables and the five mark-transitions over them, each one transaction:
it commits whole or, answering an error, changes nothing. `id`s of `url_metadata`
are the URLs themselves here (the column is unique), and the timestamps and the
`host` column, which no transition reads, are left out.

* `exec_other`: a transition touches the row of its own URL only.
* `exec_row`: a row, once there, stays; only a transition of that URL other
  than a discovery skip changes it.
-/
namespace Crawlrs

/-- mirrors crates/crawlrs-core/src/types.rs:352-365 -/
inductive SkipReason
  | blocklist
  | robots
  | depth
  | maxUrls
deriving DecidableEq, Repr

/-- The status column, which joins `UrlStatus::Skipped` with its reason.
mirrors crates/crawlrs-core/src/types.rs:323-345, crates/crawlrs-metadata/src/store.rs:26-43 -/
inductive UrlStatus
  | pending
  | inProgress
  | succeeded
  | failedTransient
  | permanentlyFailed
  | skipped (reason : SkipReason)
deriving DecidableEq, Repr

/-- mirrors crates/crawlrs-metadata/migrations/0001_init.sql (`url_metadata`) -/
structure UrlRow where
  status : UrlStatus
  retryCount : Nat
  blobPath : Option String
  contentHash : Option UInt64
  depth : UInt32
  lastRunId : String
  discoveredFrom : Option String
deriving DecidableEq, Repr

/-- The `event` column with its JSON `detail`. -/
inductive Event
  | attempted
  | succeeded (blobPath : String)
  | failed (kind : FailureKind)
  | permanentlyFailed (reason : String)
deriving DecidableEq, Repr

/-- mirrors crates/crawlrs-metadata/migrations/0001_init.sql (`url_history`) -/
structure HistoryRow where
  url : String
  runId : String
  event : Event
  attemptId : Option String
deriving DecidableEq, Repr

/-- mirrors crates/crawlrs-metadata/migrations/0001_init.sql (`frontier_outbox`) -/
structure OutboxRow where
  id : Nat
  url : String
  depth : UInt32
  discoveredFrom : Option String
  parentUrl : String
  parentAttemptId : String
  published : Bool
deriving DecidableEq, Repr

/-- What `UPDATE ... WHERE id = ANY(ids)` makes of a row. -/
def OutboxRow.publish (ids : List Nat) (r : OutboxRow) : OutboxRow :=
  { r with published := r.published || ids.contains r.id }

/-- The table in the order of its primary key, and the sequence the key is drawn from. -/
structure OutboxTable where
  rows : List OutboxRow
  seq : Nat
  sorted : (rows.map OutboxRow.id).Pairwise (· < ·)
  le_seq : ∀ r ∈ rows, r.id ≤ seq

namespace OutboxTable

def empty : OutboxTable := ⟨[], 0, .nil, by simp⟩

/-- `nextval`, which a conflict does not give back. -/
def next (t : OutboxTable) : OutboxTable :=
  ⟨t.rows, t.seq + 1, t.sorted, fun r hr => Nat.le_succ_of_le (t.le_seq r hr)⟩

/-- A row with the next id. -/
def push (t : OutboxTable) (row : Nat → OutboxRow) (hid : ∀ n, (row n).id = n) : OutboxTable where
  rows := t.rows ++ [row (t.seq + 1)]
  seq := t.seq + 1
  sorted := by
    rw [List.map_append, List.pairwise_append]
    refine ⟨t.sorted, by simp, ?_⟩
    simp only [List.mem_map, List.map_cons, List.map_nil, List.mem_singleton, hid]
    rintro _ ⟨r, hr, rfl⟩ _ rfl
    exact Nat.lt_succ_of_le (t.le_seq r hr)
  le_seq := by
    intro r hr
    rcases List.mem_append.1 hr with hr | hr
    · exact Nat.le_succ_of_le (t.le_seq r hr)
    · rw [List.mem_singleton.1 hr, hid]

/-- The unique constraint of the table. -/
def conflicts (t : OutboxTable) (parentUrl parentAttemptId url : String) : Bool :=
  t.rows.any fun r => r.parentUrl == parentUrl && r.parentAttemptId == parentAttemptId &&
    r.url == url

/-- `ON CONFLICT (parent_url_id, parent_attempt_id, url) DO NOTHING`.
mirrors crates/crawlrs-metadata/src/store.rs:419-443 -/
def insert (parentUrl parentAttemptId : String) (t : OutboxTable) (child : UrlEntry) :
    OutboxTable :=
  if t.conflicts parentUrl parentAttemptId child.url.asStr then t.next
  else t.push (fun id => ⟨id, child.url.asStr, child.depth,
    child.discoveredFrom.map CanonicalUrl.asStr, parentUrl, parentAttemptId, false⟩) fun _ => rfl

/-- `SET published_at = NOW() WHERE id = ANY(ids)`. -/
def markPublished (ids : List Nat) (t : OutboxTable) : OutboxTable where
  rows := t.rows.map (.publish ids)
  seq := t.seq
  sorted := by simpa [List.map_map, Function.comp_def, OutboxRow.publish] using t.sorted
  le_seq := by
    intro r hr
    obtain ⟨r', hr', rfl⟩ := List.mem_map.1 hr
    exact t.le_seq r' hr'

end OutboxTable

structure Ledger where
  rows : String → Option UrlRow
  history : List HistoryRow
  outbox : OutboxTable

/-- mirrors crates/crawlrs-core/src/traits/metadata.rs:21-38 -/
structure SuccessRecord where
  url : CanonicalUrl
  attemptId : String
  blobPath : String
  contentHash : UInt64
  outbound : List UrlEntry
deriving DecidableEq, Repr

namespace Ledger

def empty : Ledger := ⟨fun _ => none, [], .empty⟩

/-- `ON CONFLICT (url_id, attempt_id) DO NOTHING`, where nulls are distinct.
mirrors crates/crawlrs-metadata/src/store.rs:391-417 -/
def insertHistory (l : Ledger) (r : HistoryRow) : Ledger :=
  if r.attemptId ≠ none ∧ l.history.any fun h => h.url == r.url && h.attemptId == r.attemptId then l
  else { l with history := l.history ++ [r] }

def setRow (l : Ledger) (url : String) (row : UrlRow) : Ledger :=
  { l with rows := Function.update l.rows url (some row) }

/-- `PostgresMetadataError::Missing`. -/
def missing (url : CanonicalUrl) : Error :=
  .metadata ("metadata: row not found for url " ++ url.asStr)

/-- `retry_count` is an `INT`. -/
def outOfRange : Error :=
  .metadata "postgres error: error returned from database: integer out of range"

/-- mirrors crates/crawlrs-metadata/src/store.rs:181-193, 362-389 -/
def markAttempting (l : Ledger) (url : CanonicalUrl) (runId : String) (depth : UInt32) :
    Except Error Unit × Ledger :=
  let row : UrlRow := match l.rows url.asStr with
    | some row => { row with status := .inProgress, lastRunId := runId, depth := depth }
    | none => ⟨.inProgress, 0, none, none, depth, runId, none⟩
  (.ok (), (l.setRow url.asStr row).insertHistory ⟨url.asStr, runId, .attempted, none⟩)

/-- mirrors crates/crawlrs-metadata/src/store.rs:196-231, 337-360 -/
def markSucceeded (l : Ledger) (record : SuccessRecord) : Except Error Unit × Ledger :=
  let url := record.url.asStr
  match l.rows url with
  | none => (.error (missing record.url), l)
  | some row =>
    let row' : UrlRow := { row with
      status := .succeeded
      retryCount := 0
      blobPath := some record.blobPath
      contentHash := some record.contentHash }
    let l := (l.setRow url row').insertHistory
      ⟨url, row.lastRunId, .succeeded record.blobPath, some record.attemptId⟩
    (.ok (), { l with outbox := record.outbound.foldl (.insert url record.attemptId) l.outbox })

/-- mirrors crates/crawlrs-metadata/src/store.rs:234-262 -/
def markFailed (l : Ledger) (url : CanonicalUrl) (kind : FailureKind) :
    Except Error UInt32 × Ledger :=
  match l.rows url.asStr with
  | none => (.error (missing url), l)
  | some row =>
    if row.retryCount + 1 < 2 ^ 31 then
      let row' : UrlRow := { row with
        status := .failedTransient
        retryCount := row.retryCount + 1 }
      (.ok (UInt32.ofNat (row.retryCount + 1)), (l.setRow url.asStr row').insertHistory
        ⟨url.asStr, row.lastRunId, .failed kind, none⟩)
    else (.error outOfRange, l)

/-- mirrors crates/crawlrs-metadata/src/store.rs:265-300 -/
def markPermanentlyFailed (l : Ledger) (url : CanonicalUrl) (reason : String) :
    Except Error Unit × Ledger :=
  match l.rows url.asStr with
  | none => (.error (missing url), l)
  | some row =>
    let row' : UrlRow := { row with status := .permanentlyFailed }
    (.ok (), (l.setRow url.asStr row').insertHistory
      ⟨url.asStr, row.lastRunId, .permanentlyFailed reason, none⟩)

/-- `ON CONFLICT (url) DO NOTHING`.
mirrors crates/crawlrs-metadata/src/store.rs:303-334 -/
def markDiscoveredSkipped (l : Ledger) (url : CanonicalUrl) (runId : String) (depth : UInt32)
    (discoveredFrom : Option CanonicalUrl) (reason : SkipReason) : Except Error Unit × Ledger :=
  match l.rows url.asStr with
  | some _ => (.ok (), l)
  | none => (.ok (), l.setRow url.asStr
      ⟨.skipped reason, 0, none, none, depth, runId, discoveredFrom.map CanonicalUrl.asStr⟩)

/-! ## The calls of a client -/

/-- mirrors crates/crawlrs-core/src/traits/metadata.rs:51-143 -/
inductive Call
  | markAttempting (url : CanonicalUrl) (runId : String) (depth : UInt32)
  | markSucceeded (record : SuccessRecord)
  | markFailed (url : CanonicalUrl) (kind : FailureKind)
  | markPermanentlyFailed (url : CanonicalUrl) (reason : String)
  | markDiscoveredSkipped (url : CanonicalUrl) (runId : String) (depth : UInt32)
      (discoveredFrom : Option CanonicalUrl) (reason : SkipReason)

namespace Call

abbrev Answer : Call → Type
  | .markFailed _ _ => Except Error UInt32
  | .markAttempting .. | .markSucceeded _ | .markPermanentlyFailed .. | .markDiscoveredSkipped .. =>
    Except Error Unit

def url : Call → CanonicalUrl
  | .markAttempting url _ _ => url
  | .markSucceeded record => record.url
  | .markFailed url _ => url
  | .markPermanentlyFailed url _ => url
  | .markDiscoveredSkipped url _ _ _ _ => url

def isSkip : Call → Bool
  | .markDiscoveredSkipped .. => true
  | _ => false

end Call

def exec (l : Ledger) : (c : Call) → c.Answer × Ledger
  | .markAttempting url runId depth => l.markAttempting url runId depth
  | .markSucceeded record => l.markSucceeded record
  | .markFailed url kind => l.markFailed url kind
  | .markPermanentlyFailed url reason => l.markPermanentlyFailed url reason
  | .markDiscoveredSkipped url runId depth discoveredFrom reason =>
    l.markDiscoveredSkipped url runId depth discoveredFrom reason

/-! ## Rows -/

@[simp] theorem insertHistory_rows (l : Ledger) (r : HistoryRow) :
    (l.insertHistory r).rows = l.rows := by
  unfold insertHistory
  split <;> rfl

@[simp] theorem setRow_rows (l : Ledger) (u : String) (row : UrlRow) :
    (l.setRow u row).rows = Function.update l.rows u (some row) := rfl

theorem exec_other (l : Ledger) (c : Call) {u : String} (h : u ≠ c.url.asStr) :
    (l.exec c).2.rows u = l.rows u := by
  cases c with
  | markAttempting url runId depth =>
    simp only [Call.url] at h
    simp [exec, markAttempting, h]
  | markSucceeded record =>
    simp only [Call.url] at h
    simp only [exec, markSucceeded]
    split
    · rfl
    · simp [h]
  | markFailed url kind =>
    simp only [Call.url] at h
    simp only [exec, markFailed]
    split
    · rfl
    · split
      · simp [h]
      · rfl
  | markPermanentlyFailed url reason =>
    simp only [Call.url] at h
    simp only [exec, markPermanentlyFailed]
    split
    · rfl
    · simp [h]
  | markDiscoveredSkipped url runId depth discoveredFrom reason =>
    simp only [Call.url] at h
    simp only [exec, markDiscoveredSkipped]
    split
    · rfl
    · simp [h]

theorem markDiscoveredSkipped_some {l : Ledger} {url : CanonicalUrl} {row : UrlRow}
    (h : l.rows url.asStr = some row) (runId : String) (depth : UInt32)
    (discoveredFrom : Option CanonicalUrl) (reason : SkipReason) :
    (l.markDiscoveredSkipped url runId depth discoveredFrom reason).2 = l := by
  simp [markDiscoveredSkipped, h]

/-- A row is changed by nothing but a transition of its URL. -/
theorem exec_row {l : Ledger} {c : Call} {u : String} {row : UrlRow}
    (h : c.url.asStr = u → c.isSkip) (hr : l.rows u = some row) : (l.exec c).2.rows u = some row := by
  by_cases hu : u = c.url.asStr
  · subst hu
    cases c with
    | markDiscoveredSkipped url runId depth discoveredFrom reason =>
      have hl : (l.exec (.markDiscoveredSkipped url runId depth discoveredFrom reason)).2 = l :=
        markDiscoveredSkipped_some hr runId depth discoveredFrom reason
      rw [hl]
      exact hr
    | _ => exact absurd (h rfl) (by simp [Call.isSkip])
  · rw [exec_other l c hu, hr]

/-- A row is `Succeeded` as it was, or by the commit that carries its path and hash. -/
theorem exec_succeeded {l : Ledger} {c : Call} {u : String} {row : UrlRow}
    (h : (l.exec c).2.rows u = some row) (hs : row.status = .succeeded) :
    l.rows u = some row ∨ ∃ record, c = .markSucceeded record ∧ record.url.asStr = u ∧
      row.blobPath = some record.blobPath ∧ row.contentHash = some record.contentHash := by
  by_cases hu : u = c.url.asStr
  · subst hu
    cases c with
    | markAttempting url runId depth =>
      simp only [exec, markAttempting, insertHistory_rows, setRow_rows, Call.url,
        Function.update_self, Option.some.injEq] at h
      subst h
      split at hs <;> simp at hs
    | markSucceeded record =>
      simp only [exec, markSucceeded, Call.url] at h ⊢
      split at h
      · exact Or.inl h
      · simp only [insertHistory_rows, setRow_rows, Function.update_self, Option.some.injEq] at h
        subst h
        exact Or.inr ⟨record, rfl, rfl, rfl, rfl⟩
    | markFailed url kind =>
      simp only [exec, markFailed, Call.url] at h ⊢
      split at h
      · exact Or.inl h
      · split at h
        · simp only [insertHistory_rows, setRow_rows, Function.update_self, Option.some.injEq] at h
          subst h
          simp at hs
        · exact Or.inl h
    | markPermanentlyFailed url reason =>
      simp only [exec, markPermanentlyFailed, Call.url] at h ⊢
      split at h
      · exact Or.inl h
      · simp only [insertHistory_rows, setRow_rows, Function.update_self, Option.some.injEq] at h
        subst h
        simp at hs
    | markDiscoveredSkipped url runId depth discoveredFrom reason =>
      simp only [exec, markDiscoveredSkipped, Call.url] at h ⊢
      split at h
      · exact Or.inl h
      · simp only [setRow_rows, Function.update_self, Option.some.injEq] at h
        subst h
        simp at hs
  · exact Or.inl (by rw [← exec_other l c hu, h])

/-! ### The outbox -/

@[simp] theorem insertHistory_outbox (l : Ledger) (r : HistoryRow) :
    (l.insertHistory r).outbox = l.outbox := by
  unfold insertHistory
  split <;> rfl

@[simp] theorem setRow_outbox (l : Ledger) (u : String) (row : UrlRow) :
    (l.setRow u row).outbox = l.outbox := rfl

theorem markAttempting_outbox (l : Ledger) (url : CanonicalUrl) (runId : String)
    (depth : UInt32) : (l.markAttempting url runId depth).2.outbox = l.outbox := by
  simp [markAttempting]

theorem markDiscoveredSkipped_outbox (l : Ledger) (url : CanonicalUrl) (runId : String)
    (depth : UInt32) (discoveredFrom : Option CanonicalUrl) (reason : SkipReason) :
    (l.markDiscoveredSkipped url runId depth discoveredFrom reason).2.outbox = l.outbox := by
  unfold markDiscoveredSkipped
  split <;> rfl

/-- The commit of a page whose row is there. -/
theorem markSucceeded_outbox {l : Ledger} {record : SuccessRecord} {row : UrlRow}
    (h : l.rows record.url.asStr = some row) : (l.markSucceeded record).2.outbox =
      record.outbound.foldl (.insert record.url.asStr record.attemptId) l.outbox := by
  simp [markSucceeded, h]

/-- A ledger call that commits no links leaves the outbox as it is. -/
theorem exec_outbox_of_no_links {c : Call} (l : Ledger)
    (h : ∀ record, c = .markSucceeded record → record.outbound = []) :
    (l.exec c).2.outbox = l.outbox := by
  cases c with
  | markAttempting url runId depth => exact l.markAttempting_outbox url runId depth
  | markSucceeded record =>
    simp only [exec, markSucceeded]
    split
    · rfl
    · simp [h record rfl]
  | markFailed url kind =>
    simp only [exec, markFailed]
    split
    · rfl
    · split
      · simp
      · rfl
  | markPermanentlyFailed url reason =>
    simp only [exec, markPermanentlyFailed]
    split
    · rfl
    · simp
  | markDiscoveredSkipped url runId depth discoveredFrom reason =>
    exact l.markDiscoveredSkipped_outbox url runId depth discoveredFrom reason

end Ledger

/-! ## Statuses -/

/-- The row of `u` is there and its status meets `P`. -/
def HasStatus (u : String) (P : UrlStatus → Prop) (l : Ledger) : Prop :=
  ∃ row, l.rows u = some row ∧ P row.status

section Status

variable {u : String} {l : Ledger} {P : UrlStatus → Prop}

theorem hasStatus_markPermanentlyFailed {url : CanonicalUrl} (hu : url.asStr = u) (reason : String)
    (hl : HasStatus u P l) :
    HasStatus u (· = .permanentlyFailed) (l.markPermanentlyFailed url reason).2 := by
  obtain ⟨row, hr, -⟩ := hl
  subst hu
  simp [HasStatus, Ledger.markPermanentlyFailed, hr]

theorem hasStatus_markSucceeded {record : SuccessRecord} (hu : record.url.asStr = u)
    (hl : HasStatus u P l) : HasStatus u (· = .succeeded) (l.markSucceeded record).2 := by
  obtain ⟨row, hr, -⟩ := hl
  subst hu
  simp [HasStatus, Ledger.markSucceeded, hr]

theorem hasStatus_markFailed {url : CanonicalUrl} (hu : url.asStr = u) (kind : FailureKind)
    (hl : HasStatus u P l) : HasStatus u (fun _ => True) (l.markFailed url kind).2 := by
  obtain ⟨row, hr, -⟩ := hl
  subst hu
  simp only [HasStatus, Ledger.markFailed, hr, and_true]
  split <;> simp [hr]

theorem hasStatus_markAttempting {url : CanonicalUrl} (hu : url.asStr = u) (runId : String)
    (depth : UInt32) : HasStatus u (· = .inProgress) (l.markAttempting url runId depth).2 := by
  subst hu
  simp only [HasStatus, Ledger.markAttempting, Ledger.insertHistory_rows, Ledger.setRow_rows,
    Function.update_self, Option.some.injEq, exists_eq_left']
  split <;> rfl

theorem hasStatus_markDiscoveredSkipped {url : CanonicalUrl} (hu : url.asStr = u) (runId : String)
    (depth : UInt32) (discoveredFrom : Option CanonicalUrl) (reason : SkipReason) :
    HasStatus u (fun _ => True)
      (l.markDiscoveredSkipped url runId depth discoveredFrom reason).2 := by
  subst hu
  simp only [HasStatus, Ledger.markDiscoveredSkipped, and_true]
  split
  · rename_i row hr; exact ⟨row, hr⟩
  · simp

end Status

end Crawlrs

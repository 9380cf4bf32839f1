import Crawlrs.L4Runtime.Durable
import Crawlrs.L5Fakes.Outbox

/-!
# The two metadata stores (`crawlrs-metadata/src/store.rs`, `crawlrs-fakes/src/metadata_store.rs`)

The in-memory store mirrors the transitions of the Postgres one under a single
lock. Its rows have the `UrlStatus` of the Rust API, where the reason of a skip is
separate; it counts the successes of distinct attempts instead of keeping a history,
and its `retry_count` is a `u32`. The timestamps, which no transition reads, are
left out, as in the ledger.

A `MetadataStore` is either of them seen by a caller: its transitions, and the
status `get` reads. `Lawful` is what both do to that status: a transition that is
answered `Ok` sets it, whatever it was before.
-/
namespace Crawlrs

/-- `UrlStatus` of the Rust API.
mirrors crates/crawlrs-core/src/types.rs:321-345 -/
inductive LifecycleStatus
  | pending
  | inProgress
  | succeeded
  | failedTransient
  | permanentlyFailed
  | skipped
deriving DecidableEq, Repr

/-- What `parse_status` makes of the column.
mirrors crates/crawlrs-metadata/src/store.rs:546-562 -/
def UrlStatus.lifecycle : UrlStatus → LifecycleStatus
  | .pending => .pending
  | .inProgress => .inProgress
  | .succeeded => .succeeded
  | .failedTransient => .failedTransient
  | .permanentlyFailed => .permanentlyFailed
  | .skipped _ => .skipped

/-- mirrors crates/crawlrs-core/src/types.rs:374-397 -/
structure UrlMetadata where
  url : CanonicalUrl
  status : LifecycleStatus
  retryCount : UInt32
  blobPath : Option String
  contentHash : Option UInt64
  depth : UInt32
  lastRunId : String
  discoveredFrom : Option CanonicalUrl
deriving DecidableEq, Repr

namespace Fakes

/-- mirrors crates/crawlrs-fakes/src/metadata_store.rs:36-43 -/
structure LedgerState where
  rows : String → Option UrlMetadata := fun _ => none
  dlq : List (String × String) := []
  succeededAttempts : Finset (String × String) := ∅
  succeededHistoryCount : Nat := 0
  outbox : OutboxState := {}

namespace LedgerState

def setRow (s : LedgerState) (url : String) (row : UrlMetadata) : LedgerState :=
  { s with rows := Function.update s.rows url (some row) }

def missing (method : String) (url : CanonicalUrl) : Error :=
  .metadata (method ++ ": missing row for " ++ url.asStr)

/-- mirrors crates/crawlrs-fakes/src/metadata_store.rs:103-128 -/
def markAttempting (s : LedgerState) (url : CanonicalUrl) (runId : String) (depth : UInt32) :
    Except Error Unit × LedgerState :=
  let row : UrlMetadata := match s.rows url.asStr with
    | some m => { m with status := .inProgress, lastRunId := runId, depth := depth }
    | none => ⟨url, .inProgress, 0, none, none, depth, runId, none⟩
  (.ok (), s.setRow url.asStr row)

/-- mirrors crates/crawlrs-fakes/src/metadata_store.rs:130-162 -/
def markSucceeded (s : LedgerState) (record : SuccessRecord) : Except Error Unit × LedgerState :=
  match s.rows record.url.asStr with
  | none => (.error (missing "mark_succeeded" record.url), s)
  | some row =>
    let s := s.setRow record.url.asStr { row with
      status := .succeeded
      retryCount := 0
      blobPath := some record.blobPath
      contentHash := some record.contentHash }
    let key := (record.url.asStr, record.attemptId)
    let fresh := key ∉ s.succeededAttempts
    (.ok (), { s with
      succeededAttempts := insert key s.succeededAttempts
      succeededHistoryCount := s.succeededHistoryCount + if fresh then 1 else 0
      outbox := record.outbound.foldl (fun o child =>
        o.recordOutbound record.url record.attemptId child) s.outbox })

/-- mirrors crates/crawlrs-fakes/src/metadata_store.rs:164-174 -/
def markFailed (s : LedgerState) (url : CanonicalUrl) (_kind : FailureKind) :
    Except Error UInt32 × LedgerState :=
  match s.rows url.asStr with
  | none => (.error (missing "mark_failed" url), s)
  | some row =>
    -- a release build wraps
    let retryCount := row.retryCount + 1
    (.ok retryCount, s.setRow url.asStr { row with
      status := .failedTransient, retryCount := retryCount })

/-- mirrors crates/crawlrs-fakes/src/metadata_store.rs:176-187 -/
def markPermanentlyFailed (s : LedgerState) (url : CanonicalUrl) (reason : String) :
    Except Error Unit × LedgerState :=
  match s.rows url.asStr with
  | none => (.error (missing "mark_permanently_failed" url), s)
  | some row =>
    let s := s.setRow url.asStr { row with status := .permanentlyFailed }
    (.ok (), { s with dlq := s.dlq ++ [(url.asStr, reason)] })

/-- mirrors crates/crawlrs-fakes/src/metadata_store.rs:189-217 -/
def markDiscoveredSkipped (s : LedgerState) (url : CanonicalUrl) (runId : String) (depth : UInt32)
    (discoveredFrom : Option CanonicalUrl) (_reason : SkipReason) :
    Except Error Unit × LedgerState :=
  match s.rows url.asStr with
  | some _ => (.ok (), s)
  | none => (.ok (), s.setRow url.asStr
      ⟨url, .skipped, 0, none, none, depth, runId, discoveredFrom⟩)

def exec (s : LedgerState) : (c : Ledger.Call) → c.Answer × LedgerState
  | .markAttempting url runId depth => s.markAttempting url runId depth
  | .markSucceeded record => s.markSucceeded record
  | .markFailed url kind => s.markFailed url kind
  | .markPermanentlyFailed url reason => s.markPermanentlyFailed url reason
  | .markDiscoveredSkipped url runId depth discoveredFrom reason =>
    s.markDiscoveredSkipped url runId depth discoveredFrom reason

@[simp] theorem setRow_rows (s : LedgerState) (url : String) (row : UrlMetadata) :
    (s.setRow url row).rows = Function.update s.rows url (some row) := rfl

end LedgerState

end Fakes

/-! ## A store as its callers see it -/

/-- The transitions, and the status `get` reads. -/
structure MetadataStore (S : Type) where
  exec : S → (c : Ledger.Call) → c.Answer × S
  status : S → String → Option LifecycleStatus

/-- mirrors crates/crawlrs-metadata/src/store.rs:163-334 -/
def Ledger.metadataStore : MetadataStore Ledger where
  exec := Ledger.exec
  status l u := (l.rows u).map fun row => row.status.lifecycle

/-- mirrors crates/crawlrs-fakes/src/metadata_store.rs:98-218 -/
def Fakes.LedgerState.metadataStore : MetadataStore Fakes.LedgerState where
  exec := Fakes.LedgerState.exec
  status s u := (s.rows u).map UrlMetadata.status

/-- The status a call sets. -/
def Ledger.Call.target : Ledger.Call → LifecycleStatus
  | .markAttempting .. => .inProgress
  | .markSucceeded _ => .succeeded
  | .markFailed .. => .failedTransient
  | .markPermanentlyFailed .. => .permanentlyFailed
  | .markDiscoveredSkipped .. => .skipped

namespace MetadataStore

variable {S : Type}

/-- What a call does to the status of a URL. -/
structure Lawful (K : MetadataStore S) : Prop where
  moved : ∀ s c, c.isSkip = false → c.failed (K.exec s c).1 = false →
    K.status (K.exec s c).2 c.url.asStr = some c.target
  refused : ∀ s c, c.failed (K.exec s c).1 = true → (K.exec s c).2 = s
  kept : ∀ s c u st, (c.url.asStr = u → c.isSkip) → K.status s u = some st →
    K.status (K.exec s c).2 u = some st

end MetadataStore

theorem Ledger.metadataStore_lawful : Ledger.metadataStore.Lawful where
  moved l c hc hr := by
    simp only [metadataStore] at hr ⊢
    cases c with
    | markAttempting url runId depth =>
      simp only [exec, markAttempting, insertHistory_rows, setRow_rows, Call.url,
        Function.update_self, Option.map_some]
      split <;> rfl
    | markSucceeded record =>
      simp only [exec, markSucceeded] at hr ⊢
      split
      · rename_i h; simp [h, Call.failed, isError] at hr
      · simp [Call.url, Call.target, UrlStatus.lifecycle]
    | markFailed url kind =>
      simp only [exec, markFailed] at hr ⊢
      split
      · rename_i h; simp [h, Call.failed, isError] at hr
      · rename_i row h
        by_cases hlt : row.retryCount + 1 < 2 ^ 31
        · rw [if_pos hlt]
          simp [Call.url, Call.target, UrlStatus.lifecycle]
        · simp only [h, if_neg hlt] at hr
          cases hr
    | markPermanentlyFailed url reason =>
      simp only [exec, markPermanentlyFailed] at hr ⊢
      split
      · rename_i h; simp [h, Call.failed, isError] at hr
      · simp [Call.url, Call.target, UrlStatus.lifecycle]
    | markDiscoveredSkipped url runId depth discoveredFrom reason => cases hc
  refused l c hr := by
    simp only [metadataStore] at hr ⊢
    cases c with
    | markAttempting url runId depth => cases hr
    | markSucceeded record =>
      simp only [exec, markSucceeded] at hr ⊢
      split
      · rfl
      · rename_i h; simp [h, Call.failed, isError] at hr
    | markFailed url kind =>
      simp only [exec, markFailed] at hr ⊢
      split
      · rfl
      · rename_i row h
        by_cases hlt : row.retryCount + 1 < 2 ^ 31
        · simp only [h, if_pos hlt] at hr
          cases hr
        · rw [if_neg hlt]
    | markPermanentlyFailed url reason =>
      simp only [exec, markPermanentlyFailed] at hr ⊢
      split
      · rfl
      · rename_i h; simp [h, Call.failed, isError] at hr
    | markDiscoveredSkipped url runId depth discoveredFrom reason =>
      simp only [exec, markDiscoveredSkipped] at hr
      split at hr <;> cases hr
  kept l c u st hc hst := by
    simp only [metadataStore] at hst ⊢
    obtain ⟨row, hr, hrow⟩ := Option.map_eq_some_iff.1 hst
    rw [exec_row hc hr, Option.map_some, hrow]

namespace Fakes.LedgerState

theorem exec_other (s : LedgerState) (c : Ledger.Call) {u : String} (h : u ≠ c.url.asStr) :
    (s.exec c).2.rows u = s.rows u := by
  cases c with
  | markAttempting url runId depth => exact Function.update_of_ne h _ _
  | markSucceeded record =>
    simp only [exec, markSucceeded]
    split
    · rfl
    · exact Function.update_of_ne h _ _
  | markFailed url kind =>
    simp only [exec, markFailed]
    split
    · rfl
    · exact Function.update_of_ne h _ _
  | markPermanentlyFailed url reason =>
    simp only [exec, markPermanentlyFailed]
    split
    · rfl
    · exact Function.update_of_ne h _ _
  | markDiscoveredSkipped url runId depth discoveredFrom reason =>
    simp only [exec, markDiscoveredSkipped]
    split
    · rfl
    · exact Function.update_of_ne h _ _

theorem metadataStore_lawful : metadataStore.Lawful where
  moved s c hc hr := by
    simp only [metadataStore] at hr ⊢
    cases c with
    | markAttempting url runId depth =>
      simp only [exec, markAttempting, setRow_rows, Ledger.Call.url, Function.update_self,
        Option.map_some]
      split <;> rfl
    | markSucceeded record =>
      simp only [exec, markSucceeded] at hr ⊢
      split
      · rename_i h; simp [h, Ledger.Call.failed, isError] at hr
      · simp [Ledger.Call.url, Ledger.Call.target]
    | markFailed url kind =>
      simp only [exec, markFailed] at hr ⊢
      split
      · rename_i h; simp [h, Ledger.Call.failed, isError] at hr
      · simp [Ledger.Call.url, Ledger.Call.target]
    | markPermanentlyFailed url reason =>
      simp only [exec, markPermanentlyFailed] at hr ⊢
      split
      · rename_i h; simp [h, Ledger.Call.failed, isError] at hr
      · simp [Ledger.Call.url, Ledger.Call.target]
    | markDiscoveredSkipped url runId depth discoveredFrom reason => cases hc
  refused s c hr := by
    simp only [metadataStore] at hr ⊢
    cases c with
    | markAttempting url runId depth => cases hr
    | markSucceeded record =>
      simp only [exec, markSucceeded] at hr ⊢
      split
      · rfl
      · rename_i h; simp [h, Ledger.Call.failed, isError] at hr
    | markFailed url kind =>
      simp only [exec, markFailed] at hr ⊢
      split
      · rfl
      · rename_i h; simp [h, Ledger.Call.failed, isError] at hr
    | markPermanentlyFailed url reason =>
      simp only [exec, markPermanentlyFailed] at hr ⊢
      split
      · rfl
      · rename_i h; simp [h, Ledger.Call.failed, isError] at hr
    | markDiscoveredSkipped url runId depth discoveredFrom reason =>
      simp only [exec, markDiscoveredSkipped] at hr
      split at hr <;> cases hr
  kept s c u st hc hst := by
    simp only [metadataStore] at hst ⊢
    by_cases hu : u = c.url.asStr
    · subst hu
      obtain ⟨row, hr, hrow⟩ := Option.map_eq_some_iff.1 hst
      cases c with
      | markDiscoveredSkipped url runId depth discoveredFrom reason =>
        have hr' : s.rows url.asStr = some row := hr
        simp only [exec, markDiscoveredSkipped, hr']
        exact hst
      | _ => exact absurd (hc rfl) (by simp [Ledger.Call.isSkip])
    · rw [exec_other s c hu, hst]

end Fakes.LedgerState

end Crawlrs

import Crawlrs.L1Data.Tokens
import Crawlrs.L4Runtime.Ledger

/-!
# The ledger and its history

`url_history` gets an event for every transition of `url_metadata`, in the same
transaction, "so the ledger and the history can never disagree". The event of a
success is inserted unless the table has one with the same URL and attempt id, and
the attempt id is one of the URL, not of the delivery: the second success of a URL,
in any run, moves the row and leaves the history at what came before.

* `agrees_exec_iff`: which calls keep the two in agreement.
* `history_agrees_iff`: a run of calls does exactly when all its calls do.
* `not_agrees_crawledTwice`: two runs over one page.
-/
namespace Crawlrs

namespace Event

/-- The status an event names. -/
def status : Event → UrlStatus
  | .attempted => .inProgress
  | .succeeded _ => .succeeded
  | .failed _ => .failedTransient
  | .permanentlyFailed _ => .permanentlyFailed

/-- The path in the detail of a success. -/
def blobPath : Event → Option String
  | .succeeded path => some path
  | _ => none

end Event

/-- The row has the status of the event and, if it is a success, its path. -/
structure UrlRow.Shows (row : UrlRow) (ev : Event) : Prop where
  status : row.status = ev.status
  blobPath : row.status = .succeeded → row.blobPath = ev.blobPath

namespace Ledger

/-- The most recent event of a URL. -/
def latest (l : Ledger) (u : String) : Option Event :=
  ((l.history.filter (·.url = u)).getLast?).map HistoryRow.event

/-- The row of `u` shows its latest event; before the first there is none but that of a skip. -/
def AgreesAt (l : Ledger) (u : String) : Prop :=
  match l.latest u with
  | none => ∀ row, l.rows u = some row → ∃ reason, row.status = .skipped reason
  | some ev => ∃ row, l.rows u = some row ∧ row.Shows ev

def Agrees (l : Ledger) : Prop := ∀ u, l.AgreesAt u

/-- The history has a row of the URL with the attempt id. -/
def Dated (l : Ledger) (u attemptId : String) : Prop :=
  ∃ h ∈ l.history, h.url = u ∧ h.attemptId = some attemptId

/-- A success that finds a row is new to the history, or the latest event is this very success. -/
def EventKept (l : Ledger) : Call → Prop
  | .markSucceeded record => l.rows record.url.asStr = none ∨
      ¬ l.Dated record.url.asStr record.attemptId ∨
      l.latest record.url.asStr = some (.succeeded record.blobPath)
  | _ => True

/-! ## Latest events -/

theorem latest_insertHistory_other {l : Ledger} {r : HistoryRow} {u : String} (h : u ≠ r.url) :
    (l.insertHistory r).latest u = l.latest u := by
  have hne : ¬ r.url = u := fun he => h he.symm
  unfold insertHistory
  split
  · rfl
  · simp [latest, hne]

theorem latest_insertHistory_new {l : Ledger} {r : HistoryRow}
    (h : r.attemptId = none ∨ ∀ a, r.attemptId = some a → ¬ l.Dated r.url a) :
    (l.insertHistory r).latest r.url = some r.event := by
  have hno : ¬ (r.attemptId ≠ none ∧
      l.history.any fun h => h.url == r.url && h.attemptId == r.attemptId) := by
    intro ⟨hsome, hany⟩
    rcases h with h | h
    · exact hsome h
    · obtain ⟨a, ha⟩ := Option.ne_none_iff_exists'.1 hsome
      obtain ⟨x, hx, hxr⟩ := List.any_eq_true.1 hany
      simp only [Bool.and_eq_true, beq_iff_eq] at hxr
      exact h a ha ⟨x, hx, hxr.1, hxr.2.trans ha⟩
  rw [insertHistory, if_neg hno]
  simp [latest]

theorem insertHistory_dated {l : Ledger} {r : HistoryRow} {a : String} (ha : r.attemptId = some a)
    (h : l.Dated r.url a) : l.insertHistory r = l := by
  obtain ⟨x, hx, hu, hxa⟩ := h
  rw [insertHistory, if_pos]
  refine ⟨by simp [ha], List.any_eq_true.2 ⟨x, hx, ?_⟩⟩
  simp [hu, hxa, ha]

@[simp] theorem latest_setRow (l : Ledger) (u v : String) (row : UrlRow) :
    (l.setRow u row).latest v = l.latest v := rfl

@[simp] theorem dated_setRow (l : Ledger) (u v a : String) (row : UrlRow) :
    (l.setRow u row).Dated v a ↔ l.Dated v a := Iff.rfl

/-- A call leaves the events of other URLs alone. -/
theorem latest_exec_other (l : Ledger) (c : Call) {u : String} (h : u ≠ c.url.asStr) :
    (l.exec c).2.latest u = l.latest u := by
  cases c with
  | markAttempting url runId depth =>
    exact latest_insertHistory_other (l := l.setRow _ _) (r := ⟨_, _, .attempted, none⟩) h
  | markSucceeded record =>
    simp only [exec, markSucceeded]
    split
    · rfl
    · exact latest_insertHistory_other (l := l.setRow _ _) (r := ⟨_, _, .succeeded _, some _⟩) h
  | markFailed url kind =>
    simp only [exec, markFailed]
    split
    · rfl
    · split
      · exact latest_insertHistory_other (l := l.setRow _ _) (r := ⟨_, _, .failed _, none⟩) h
      · rfl
  | markPermanentlyFailed url reason =>
    simp only [exec, markPermanentlyFailed]
    split
    · rfl
    · exact latest_insertHistory_other (l := l.setRow _ _)
        (r := ⟨_, _, .permanentlyFailed _, none⟩) h
  | markDiscoveredSkipped url runId depth discoveredFrom reason =>
    simp only [exec, markDiscoveredSkipped]
    split
    · rfl
    · rfl

/-! ## One call -/

/-- A row that is set together with an event that is inserted. -/
theorem agreesAt_of_new {l : Ledger} {r : HistoryRow} {row : UrlRow}
    (h : r.attemptId = none ∨ ∀ a, r.attemptId = some a → ¬ l.Dated r.url a)
    (hrow : row.Shows r.event) : ((l.setRow r.url row).insertHistory r).AgreesAt r.url := by
  unfold AgreesAt
  rw [latest_insertHistory_new (l := l.setRow r.url row) h]
  exact ⟨row, by simp, hrow⟩

theorem agreesAt_congr {l l' : Ledger} {u : String} (hr : l'.rows u = l.rows u)
    (hl : l'.latest u = l.latest u) : l'.AgreesAt u ↔ l.AgreesAt u := by
  unfold AgreesAt
  rw [hl, hr]

/-- The success of a page whose row is there. -/
theorem agreesAt_markSucceeded_iff {l : Ledger} {record : SuccessRecord} {row : UrlRow}
    (hrow : l.rows record.url.asStr = some row) :
    (l.markSucceeded record).2.AgreesAt record.url.asStr ↔
      ¬ l.Dated record.url.asStr record.attemptId ∨
        l.latest record.url.asStr = some (.succeeded record.blobPath) := by
  let row' : UrlRow := { row with
    status := .succeeded
    retryCount := 0
    blobPath := some record.blobPath
    contentHash := some record.contentHash }
  let r : HistoryRow :=
    ⟨record.url.asStr, row.lastRunId, .succeeded record.blobPath, some record.attemptId⟩
  have hsame : (l.markSucceeded record).2.AgreesAt record.url.asStr ↔
      ((l.setRow record.url.asStr row').insertHistory r).AgreesAt record.url.asStr := by
    simp only [markSucceeded, hrow]
    exact agreesAt_congr rfl rfl
  rw [hsame]
  by_cases hd : l.Dated record.url.asStr record.attemptId
  · -- the event is dropped: the row must show what is there
    have hdrop : (l.setRow record.url.asStr row').insertHistory r = l.setRow record.url.asStr row' :=
      insertHistory_dated (a := record.attemptId) rfl hd
    rw [hdrop]
    unfold AgreesAt
    cases hev : l.latest record.url.asStr with
    | none => simp [hev, hd, row']
    | some ev =>
      simp only [latest_setRow, hev, setRow_rows, Function.update_self, Option.some.injEq,
        exists_eq_left', hd, not_true_eq_false, false_or]
      constructor
      · intro hshow
        have hpath := hshow.blobPath rfl
        cases ev with
        | succeeded path => rw [show path = record.blobPath from (Option.some.inj hpath).symm]
        | _ => cases hpath
      · intro hev
        subst hev
        exact ⟨rfl, fun _ => rfl⟩
  · have hnew : r.attemptId = none ∨ ∀ a, r.attemptId = some a → ¬ l.Dated r.url a := by
      right
      intro a ha
      cases ha
      exact hd
    exact ⟨fun _ => .inl hd, fun _ => agreesAt_of_new hnew ⟨rfl, fun _ => rfl⟩⟩

/-- **One call** keeps an agreement exactly when its event is kept. -/
theorem agrees_exec_iff {l : Ledger} (hl : l.Agrees) (c : Call) :
    (l.exec c).2.Agrees ↔ l.EventKept c := by
  have hother : ∀ u, u ≠ c.url.asStr → (l.exec c).2.AgreesAt u := fun u hu =>
    (agreesAt_congr (exec_other l c hu) (latest_exec_other l c hu)).2 (hl u)
  have hiff : (l.exec c).2.Agrees ↔ (l.exec c).2.AgreesAt c.url.asStr := by
    refine ⟨fun h => h _, fun h u => ?_⟩
    by_cases hu : u = c.url.asStr
    · rw [hu]
      exact h
    · exact hother u hu
  rw [hiff]
  have hkeep : l.AgreesAt c.url.asStr := hl _
  cases c with
  | markAttempting url runId depth =>
    refine ⟨fun _ => trivial, fun _ => ?_⟩
    refine agreesAt_of_new (r := ⟨url.asStr, runId, .attempted, none⟩) (.inl rfl) ⟨?_, fun h => ?_⟩
    · split <;> rfl
    · split at h <;> cases h
  | markSucceeded record =>
    cases hrow : l.rows record.url.asStr with
    | none =>
      have hsame : (l.exec (.markSucceeded record)).2 = l := by
        simp [exec, markSucceeded, hrow]
      rw [hsame]
      exact ⟨fun _ => .inl hrow, fun _ => hkeep⟩
    | some row =>
      have h := agreesAt_markSucceeded_iff hrow
      simp only [EventKept, hrow, reduceCtorEq, false_or]
      exact h
  | markFailed url kind =>
    refine ⟨fun _ => trivial, fun _ => ?_⟩
    simp only [exec, markFailed]
    split
    · exact hkeep
    · split
      · exact agreesAt_of_new (r := ⟨url.asStr, _, .failed kind, none⟩) (.inl rfl)
          ⟨rfl, fun h => by cases h⟩
      · exact hkeep
  | markPermanentlyFailed url reason =>
    refine ⟨fun _ => trivial, fun _ => ?_⟩
    simp only [exec, markPermanentlyFailed]
    split
    · exact hkeep
    · exact agreesAt_of_new (r := ⟨url.asStr, _, .permanentlyFailed reason, none⟩) (.inl rfl)
        ⟨rfl, fun h => by cases h⟩
  | markDiscoveredSkipped url runId depth discoveredFrom reason =>
    refine ⟨fun _ => trivial, fun _ => ?_⟩
    simp only [exec, markDiscoveredSkipped]
    split
    · exact hkeep
    · -- no row, so no event: what is written is the row of a skip
      rename_i hnone
      have hnoev : l.latest url.asStr = none := by
        by_contra hev
        obtain ⟨ev, hev⟩ := Option.ne_none_iff_exists'.1 hev
        simp only [Call.url] at hkeep
        unfold AgreesAt at hkeep
        rw [hev] at hkeep
        obtain ⟨row, hrow, -⟩ := hkeep
        rw [hnone] at hrow
        cases hrow
      unfold AgreesAt
      simp only [Call.url, latest_setRow, hnoev, setRow_rows, Function.update_self,
        Option.some.injEq]
      intro row hrow
      exact ⟨reason, by rw [← hrow]⟩

/-! ## Runs -/

/-- The ledger after some calls. -/
def run (calls : List Call) : Ledger := calls.foldl (fun l c => (l.exec c).2) .empty

theorem run_append_one (calls : List Call) (c : Call) :
    run (calls ++ [c]) = ((run calls).exec c).2 := by
  simp [run]

theorem agrees_empty : Ledger.empty.Agrees := by
  intro u row hrow
  cases hrow

/-- **Agreement over runs.** Row and latest event agree after every call of a run, for every URL,
exactly when every success that finds its row is new to the history or the latest event already. -/
theorem history_agrees_iff (calls : List Call) :
    (∀ pre post, calls = pre ++ post → (run pre).Agrees) ↔
      ∀ pre c post, calls = pre ++ c :: post → (run pre).EventKept c := by
  constructor
  · intro h pre c post hcalls
    have hbefore := h pre (c :: post) hcalls
    have hafter := h (pre ++ [c]) post (by simp [hcalls])
    rw [run_append_one] at hafter
    exact (agrees_exec_iff hbefore c).1 hafter
  · intro h pre
    induction pre using List.reverseRecOn with
    | nil => intro post _; exact agrees_empty
    | append_singleton pre c ih =>
      intro post hcalls
      have hbefore := ih (c :: post) (by simpa using hcalls)
      rw [run_append_one]
      exact (agrees_exec_iff hbefore c).2 (h pre c post (by simpa using hcalls))

/-- `https://a.test/`, filed at `path` by any delivery of it. -/
def filedAt (path : String) : SuccessRecord :=
  ⟨UrlEntry.seedA.url, encodeAttempt 0 Wire.idA "a.test", path, 0, []⟩

/-- The page crawled by two runs. -/
def crawledTwice : List Call :=
  [.markAttempting UrlEntry.seedA.url "run-1" 0, .markSucceeded (filedAt "pages/run-1/0.parquet"),
    .markAttempting UrlEntry.seedA.url "run-2" 0, .markSucceeded (filedAt "pages/run-2/0.parquet")]

/-- The row says `Succeeded` with the second run's path, the latest event `attempted`. -/
theorem not_agrees_crawledTwice : ¬ (run crawledTwice).Agrees := by
  intro h
  have hat := h UrlEntry.seedA.url.asStr
  have hev : (run crawledTwice).latest UrlEntry.seedA.url.asStr = some .attempted := by
    decide +kernel
  have hrow : ((run crawledTwice).rows UrlEntry.seedA.url.asStr).map UrlRow.status =
      some .succeeded := by
    decide +kernel
  unfold AgreesAt at hat
  rw [hev] at hat
  obtain ⟨row, hr, hshow⟩ := hat
  rw [hr] at hrow
  have hs : row.status = .inProgress := hshow.status
  simp [hs] at hrow

end Ledger

end Crawlrs

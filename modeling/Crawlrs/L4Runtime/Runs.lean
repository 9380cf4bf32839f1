import Crawlrs.L4Runtime.Durable

/-!
# One run after another over one outbox

Every run starts with an empty frontier and the ledger and the outbox of the runs
before it. In durable mode the links of a page reach the run's frontier through
outbox rows, so what a commit has to leave is, for every link, a row that waits for
the run's publisher or that the run has published.

A row is inserted unless the page has one for the link with the same attempt id.
"Two redeliveries of the same URL carry different AttemptIds", says the type; the
frontier makes the id of the shard, the URL and the host, so it is the same one in
every run, and the row an earlier run published stands in for the new one.

* `dispatched_step_iff`: what a commit needs.
* `runs_dispatch_iff`: over any sequence of runs, the links of the current run are
  all waiting or published exactly when every commit had that.
* `not_dispatched_again`: two runs over one page.
-/
namespace Crawlrs

namespace OutboxTable

/-- A row of a commit that was not there before is the first with its key. -/
theorem mem_foldl_insert_new {u a : String} {children : List UrlEntry} {r : OutboxRow} :
    ∀ {t : OutboxTable}, r ∈ (children.foldl (.insert u a) t).rows →
      r ∈ t.rows ∨ (IsRow u a r.url r ∧ t.conflicts u a r.url = false) := by
  induction children with
  | nil => intro t h; exact .inl h
  | cons child children ih =>
    intro t h
    rcases ih h with h | ⟨hrow, hfree⟩
    · unfold insert at h
      split at h
      · exact .inl h
      · rename_i hc
        rcases List.mem_append.1 h with h | h
        · exact .inl h
        · rw [List.mem_singleton.1 h]
          exact .inr ⟨⟨rfl, rfl, rfl⟩, by simpa using hc⟩
    · refine .inr ⟨hrow, ?_⟩
      cases hold : t.conflicts u a r.url with
      | false => rfl
      | true =>
        obtain ⟨x, hx, hxrow⟩ := conflicts_iff.1 hold
        rw [conflicts_iff.2 ⟨x, mem_insert_of_mem hx, hxrow⟩] at hfree
        cases hfree

end OutboxTable

def Ledger.Call.links : Ledger.Call → List UrlEntry
  | .markSucceeded record => record.outbound
  | _ => []

/-- A ledger in the course of its runs. `shipped` are the rows published so far with the run that
published them, `links` the links committed by the current run. -/
structure Crawls where
  ledger : Ledger
  runId : String
  earlier : List String
  shipped : List (Nat × String)
  links : List UrlEntry

namespace Crawls

/-- What happens: the next run begins; a delivery commits its page; another ledger call is made; a
publisher's transaction commits the batch it leased. -/
inductive Label
  | nextRun (runId : String)
  | commit (p : UrlPipeline) (doc : ParsedDocument) (resp : FetchResponse) (blobPath : String)
  | call (c : Ledger.Call)
  | publish (locked : List Nat) (max : Nat)

/-- A delivery's commit is `mark_succeeded` of its row, in durable mode and under the current run's
id; a rolled-back transaction is no step. -/
def step (S : Crawls) : Label → Option Crawls
  | .nextRun runId =>
    if runId ∈ S.runId :: S.earlier then none
    else some { S with runId := runId, earlier := S.runId :: S.earlier, links := [] }
  | .commit p doc resp blobPath =>
    if p.deps.linkDispatch = .durableOutbox ∧ p.deps.runId = S.runId ∧
        (S.ledger.rows p.url.asStr).isSome then
      let record := p.successRecord resp blobPath (p.kept doc)
      some { S with ledger := (S.ledger.markSucceeded record).2, links := S.links ++ p.kept doc }
    else none
  | .call c => if c.links = [] then some { S with ledger := (S.ledger.exec c).2 } else none
  | .publish locked max =>
    let ids := (S.ledger.outbox.leaseBatch locked max).map OutboxRow.id
    some { S with
      ledger := { S.ledger with outbox := S.ledger.outbox.markPublished ids }
      shipped := S.shipped ++ ids.map fun id => (id, S.runId) }

def start (ledger : Ledger) (runId : String) : Crawls := ⟨ledger, runId, [], [], []⟩

/-- Runs over a ledger that may have been used before. -/
def runs : LTS Crawls Label := .ofFn (fun S => ∃ l runId, S = start l runId) step

/-- A row for the link that waits to be published or was published by the current run. -/
def Waiting (S : Crawls) (url : String) : Prop :=
  ∃ r ∈ S.ledger.outbox.rows, r.url = url ∧ (r.published = false ∨ (r.id, S.runId) ∈ S.shipped)

/-- The links the current run committed are all waiting, or in its frontier. -/
def Dispatched (S : Crawls) : Prop := ∀ e ∈ S.links, S.Waiting e.url.asStr

/-- A link whose key is in the table already has a row that still counts. -/
def Carries (S : Crawls) : Label → Prop
  | .commit p doc _ _ => ∀ e ∈ p.kept doc,
      S.ledger.outbox.conflicts p.url.asStr p.attemptId e.url.asStr = true → S.Waiting e.url.asStr
  | _ => True

/-! ## One step -/

variable {S S' : Crawls} {l : Label}

/-- The rows that were there stay, and what was published stays so. -/
theorem Waiting.mono {url : String} (h : S.Waiting url) (hrun : S'.runId = S.runId)
    (hrows : S.ledger.outbox.rows <+: S'.ledger.outbox.rows) (hship : S'.shipped = S.shipped) :
    S'.Waiting url := by
  obtain ⟨r, hr, hu, hopen⟩ := h
  exact ⟨r, hrows.subset hr, hu, by rwa [hrun, hship]⟩

theorem Waiting.publish {url : String} (h : S.Waiting url) (ids : List Nat) :
    Waiting { S with
      ledger := { S.ledger with outbox := S.ledger.outbox.markPublished ids }
      shipped := S.shipped ++ ids.map fun id => (id, S.runId) } url := by
  obtain ⟨r, hr, hu, hopen⟩ := h
  refine ⟨r.publish ids, List.mem_map_of_mem hr, hu, ?_⟩
  rcases hopen with hopen | hopen
  · by_cases hid : r.id ∈ ids
    · exact .inr (List.mem_append_right _ (List.mem_map_of_mem hid))
    · left
      simp [OutboxRow.publish, hopen, hid]
  · exact .inr (List.mem_append_left _ hopen)

/-- What the commit of a page leaves for a link. -/
theorem waiting_commit_iff {p : UrlPipeline} {children : List UrlEntry} {e : UrlEntry}
    (he : e ∈ children)
    (hrows : S'.ledger.outbox = children.foldl (.insert p.url.asStr p.attemptId) S.ledger.outbox)
    (hrun : S'.runId = S.runId) (hship : S'.shipped = S.shipped) :
    S'.Waiting e.url.asStr ↔
      (S.ledger.outbox.conflicts p.url.asStr p.attemptId e.url.asStr = true →
        S.Waiting e.url.asStr) := by
  constructor
  · rintro ⟨r, hr, hu, hopen⟩ hconf
    rw [hrows] at hr
    rcases OutboxTable.mem_foldl_insert_new hr with hr | ⟨-, hfree⟩
    · exact ⟨r, hr, hu, by rwa [hrun, hship] at hopen⟩
    · rw [hu, hconf] at hfree
      cases hfree
  · intro h
    by_cases hconf : S.ledger.outbox.conflicts p.url.asStr p.attemptId e.url.asStr = true
    · refine (h hconf).mono hrun ?_ hship
      rw [hrows]
      exact OutboxTable.foldl_insert_extends _ _ _ _
    · obtain ⟨r, hr, hrow, hnew⟩ := OutboxTable.insert_tracked p.url.asStr p.attemptId children
        S.ledger.outbox e he
      refine ⟨r, by rw [hrows]; exact hr, hrow.2.2, .inl ?_⟩
      rcases hnew with hold | hnew
      · exact absurd (OutboxTable.conflicts_iff.2 ⟨r, hold, hrow⟩) hconf
      · exact hnew

/-- **One step** keeps the links of the run dispatched exactly when it carries its own. -/
theorem dispatched_step_iff (h : S.Dispatched) (hst : step S l = some S') :
    S'.Dispatched ↔ S.Carries l := by
  cases l with
  | nextRun runId =>
    simp only [step] at hst
    split at hst
    · cases hst
    · cases hst
      exact ⟨fun _ => trivial, fun _ e he => by cases he⟩
  | commit p doc resp blobPath =>
    simp only [step] at hst
    split at hst
    · rename_i hok
      obtain ⟨hdur, -, hrow⟩ := hok
      obtain ⟨row, hrow⟩ := Option.isSome_iff_exists.1 hrow
      cases hst
      have hrow : S.ledger.rows (p.successRecord resp blobPath (p.kept doc)).url.asStr = some row := hrow
      have hout := Ledger.markSucceeded_outbox hrow
      have hkept : (p.successRecord resp blobPath (p.kept doc)).outbound = p.kept doc := by
        simp [UrlPipeline.successRecord, hdur]
      rw [hkept] at hout
      have hiff (e : UrlEntry) (he : e ∈ p.kept doc) :
          Waiting { S with
            ledger := (S.ledger.markSucceeded (p.successRecord resp blobPath (p.kept doc))).2
            links := S.links ++ p.kept doc } e.url.asStr ↔
          (S.ledger.outbox.conflicts p.url.asStr p.attemptId e.url.asStr = true →
            S.Waiting e.url.asStr) := waiting_commit_iff he hout rfl rfl
      constructor
      · intro hall e he
        exact (hiff e he).1 (hall e (List.mem_append_right _ he))
      · intro hcar e he
        rcases List.mem_append.1 he with he | he
        · refine (h e he).mono rfl ?_ rfl
          dsimp only
          rw [hout]
          exact OutboxTable.foldl_insert_extends _ _ _ _
        · exact (hiff e he).2 (hcar e he)
    · cases hst
  | call c =>
    simp only [step] at hst
    split at hst
    · rename_i hlinks
      cases hst
      refine ⟨fun _ => trivial, fun _ e he => (h e he).mono rfl ?_ rfl⟩
      have hout : (S.ledger.exec c).2.outbox = S.ledger.outbox := by
        refine S.ledger.exec_outbox_of_no_links fun record hc => ?_
        rw [hc] at hlinks
        exact hlinks
      dsimp only
      rw [hout]
    · cases hst
  | publish locked max =>
    cases hst
    exact ⟨fun _ => trivial, fun _ e he => (h e he).publish _⟩

/-! ## Sequences of runs -/

/-- **Every run dispatches its own links.** Along any sequence of runs, the links that the current
run has committed are waiting or published by it, in every state, exactly when every commit finds,
for each of its links whose key is in the table already, a row that is. -/
theorem runs_dispatch_iff (ledger : Ledger) (runId : String) (tr : List Label) :
    (∀ pre post S, tr = pre ++ post → runs.Steps (start ledger runId) pre S → S.Dispatched) ↔
      ∀ pre l post S S', tr = pre ++ l :: post → runs.Steps (start ledger runId) pre S →
        step S l = some S' → S.Carries l := by
  constructor
  · intro h pre l post S S' htr hpre hst
    have hnext : runs.Steps (start ledger runId) (pre ++ [l]) S' :=
      hpre.append (.cons hst (.nil _))
    have hbefore := h pre (l :: post) S htr hpre
    have hafter := h (pre ++ [l]) post S' (by simp [htr]) hnext
    exact (dispatched_step_iff hbefore hst).1 hafter
  · intro h pre
    induction pre using List.reverseRecOn with
    | nil =>
      intro post S _ hst e he
      cases hst
      cases he
    | append_singleton pre l ih =>
      intro post S' htr hsteps
      obtain ⟨S, hpre, hst⟩ := hsteps.of_append_singleton
      have hbefore := ih (l :: post) S (by simpa using htr) hpre
      exact (dispatched_step_iff hbefore hst).2 (h pre l post S S' (by simpa using htr) hpre hst)

/-! ### The same page in two runs -/

/-- `https://a.test/` in durable mode, as a run delivers it. -/
def delivery (runId : String) : UrlPipeline :=
  { UrlPipeline.sampleDurable with deps := { UrlPipeline.sampleDurable.deps with runId := runId } }

/-- The page, with its one link, attempted and committed. -/
def crawlPage (runId : String) : List Label :=
  [.call (.markAttempting UrlEntry.seedA.url runId 0),
    .commit (delivery runId) .sampleLink ⟨UrlEntry.seedA.url, 200, [], []⟩ "blobs/1"]

/-- The first run publishes the link; the second one crawls the page again. -/
def crawledAgain : List Label :=
  crawlPage "run-1" ++ [.publish [] 256, .nextRun "run-2"] ++ crawlPage "run-2"

/-- The second run's link has no row but the one the first run published. -/
theorem not_dispatched_again : ∃ S, runs.Steps (start .empty "run-1") crawledAgain S ∧
    S.runId = "run-2" ∧ S.links ≠ [] ∧ ¬ S.Dispatched := by
  have hrun : (LTS.runFn step (start .empty "run-1") crawledAgain).isSome := by decide +kernel
  refine ⟨_, LTS.steps_replay hrun, by decide +kernel, by decide +kernel, ?_⟩
  unfold Dispatched Waiting
  decide +kernel

end Crawls

end Crawlrs

import Crawlrs.L4Runtime.NoSilentDrop
import Crawlrs.L4Runtime.Outbox

/-!
# Links of a page in durable mode, under failing collaborators

One delivery after another over a ledger everybody writes and publishers drain.
Every collaborator may answer an error, and a ledger call that does may or may
not have been committed.

In `DurableOutbox` mode the links ride on `mark_succeeded`. `finalize` acks after
a failed store write and after a failed `mark_succeeded` too (to avoid a hot
loop), so those two are the ways a page loses its links: `links_recorded`. A
failed `mark_attempting` counts through `mark_succeeded`, which then finds no row.
-/
namespace Crawlrs

open Prog (Log Safe Only safe_bind safe_perform safe_of_only)

/-! ## A ledger that may fail -/

def isError {α : Type} : Except Error α → Bool
  | .error _ => true
  | .ok _ => false

/-- The call answered an error. -/
def Ledger.Call.failed : (c : Ledger.Call) → c.Answer → Bool
  | .markAttempting .., r => isError r
  | .markSucceeded _, r => isError r
  | .markFailed .., r => isError r
  | .markPermanentlyFailed .., r => isError r
  | .markDiscoveredSkipped .., r => isError r

/-- Others make ledger calls for any URL and publish rows. A call answers what the ledger says,
or an error with the transaction rolled back or, the connection lost on the way back, committed. -/
def faultyWorld : World Ledger Call Call.Answer where
  env l l' := (∃ c, l' = (l.exec c).2) ∨ ∃ ids, l' = { l with outbox := l.outbox.markPublished ids }
  act l c r l' := match c, r with
    | .ledger c, r => l.exec c = (r, l') ∨ (c.failed r ∧ (l' = l ∨ l' = (l.exec c).2))
    | _, _ => l' = l

/-- Deliveries, of any URLs, by any workers. -/
abbrev faultyDeliveries :
    LTS (Session Ledger UrlPipeline Call Call.Answer) (Session.Label UrlPipeline Call Call.Answer) :=
  Session.sessions faultyWorld UrlPipeline.run

/-! ## What a run's log tells -/

/-- The document an answer carries: the parser's or an adapter's. -/
def documentOf : (c : Call) → c.Answer → Option ParsedDocument
  | .parse _, .ok doc => some doc
  | .adapterExtract .., .ok doc => doc
  | _, _ => none

/-- The run fetched and parsed its page, as `doc`. -/
def Extracted (log : Log Call Call.Answer) (doc : ParsedDocument) : Prop :=
  ∃ e ∈ log, documentOf e.1 e.2 = some doc

def refusedWrite : (c : Call) → c.Answer → Bool
  | .storeWrite _, r => isError r
  | _, _ => false

def failedCommit : (c : Call) → c.Answer → Bool
  | .ledger (.markSucceeded _), r => isError r
  | _, _ => false

def acked : (c : Call) → c.Answer → Bool
  | .ack _, r => !isError r
  | _, _ => false

/-- `store.write` answered an error. -/
def StoreRefused (log : Log Call Call.Answer) : Prop := ∃ e ∈ log, refusedWrite e.1 e.2

/-- `mark_succeeded` answered an error. -/
def CommitFailed (log : Log Call Call.Answer) : Prop := ∃ e ∈ log, failedCommit e.1 e.2

def Acked (log : Log Call Call.Answer) : Prop := ∃ e ∈ log, acked e.1 e.2

/-- The kept list of `compute_outbound`. -/
def UrlPipeline.kept (p : UrlPipeline) (doc : ParsedDocument) : List UrlEntry :=
  (computeOutbound p.entry doc p.deps.crawlScope.depthCap).kept

/-- Every kept link of the page has its row. -/
def LinksRecorded (p : UrlPipeline) (doc : ParsedDocument) (l : Ledger) : Prop :=
  ∀ child ∈ p.kept doc, ∃ r ∈ l.outbox.rows,
    OutboxTable.IsRow p.url.asStr p.attemptId child.url.asStr r

/-- A page that was fetched and parsed in durable mode has its links in the outbox, or comes back. -/
def NoLinkLost : Prop :=
  ∀ (S : Session Ledger UrlPipeline Call Call.Answer) (p : UrlPipeline) (start : Ledger)
    (log : Log Call Call.Answer) (doc : ParsedDocument), faultyDeliveries.Reachable S →
    S.running = some ⟨p, start, log, .pure ()⟩ → p.deps.linkDispatch = .durableOutbox →
    Extracted log doc → LinksRecorded p doc S.state ∨ ¬ Acked log

/-! ## Rows of the outbox stay -/

theorem Ledger.exec_outbox {l : Ledger} {r : OutboxRow} (h : r ∈ l.outbox.rows) (c : Ledger.Call) :
    r ∈ (l.exec c).2.outbox.rows := by
  cases c with
  | markAttempting url runId depth =>
    rw [exec, markAttempting_outbox]
    exact h
  | markSucceeded record =>
    simp only [exec, markSucceeded]
    split
    · exact h
    · simpa using OutboxTable.mem_foldl_insert h
  | markFailed url kind =>
    simp only [exec, markFailed]
    split
    · exact h
    · split
      · simpa using h
      · exact h
  | markPermanentlyFailed url reason =>
    simp only [exec, markPermanentlyFailed]
    split
    · exact h
    · simpa using h
  | markDiscoveredSkipped url runId depth discoveredFrom reason =>
    rw [exec, markDiscoveredSkipped_outbox]
    exact h

section Rows

variable {p : UrlPipeline} {doc : ParsedDocument}

theorem LinksRecorded.exec {l : Ledger} (h : LinksRecorded p doc l) (c : Ledger.Call) :
    LinksRecorded p doc (l.exec c).2 := by
  intro child hc
  obtain ⟨r, hr, hrow⟩ := h child hc
  exact ⟨r, l.exec_outbox hr c, hrow⟩

theorem stable_linksRecorded (p : UrlPipeline) (doc : ParsedDocument) :
    faultyWorld.Stable (LinksRecorded p doc) := by
  rintro l l' h (⟨c, rfl⟩ | ⟨ids, rfl⟩)
  · exact h.exec c
  · intro child hc
    obtain ⟨r, hr, hrow⟩ := h child hc
    exact ⟨r.publish ids, List.mem_map_of_mem hr, hrow⟩

theorem LinksRecorded.act {l l' : Ledger} {c : Call} {r : c.Answer} (h : LinksRecorded p doc l)
    (ha : faultyWorld.act l c r l') : LinksRecorded p doc l' := by
  cases c with
  | ledger c =>
    have ha : l.exec c = (r, l') ∨ (c.failed r ∧ (l' = l ∨ l' = (l.exec c).2)) := ha
    rcases ha with ha | ⟨-, rfl | rfl⟩
    · have hl := h.exec c
      rw [ha] at hl
      exact hl
    · exact h
    · exact h.exec c
  | _ =>
    have ha : l' = l := ha
    exact ha ▸ h

/-- A commit that answered `Ok` put every link of the page in the outbox. -/
theorem linksRecorded_markSucceeded {l l' : Ledger} {resp : FetchResponse} {blobPath : String}
    (hd : p.deps.linkDispatch = .durableOutbox)
    (ha : faultyWorld.act l (.ledger (.markSucceeded (p.successRecord resp blobPath (p.kept doc))))
      (.ok ()) l') : LinksRecorded p doc l' := by
  have ha : l.exec (.markSucceeded (p.successRecord resp blobPath (p.kept doc))) = (.ok (), l') := by
    rcases ha with ha | ⟨hf, -⟩
    · exact ha
    · cases hf
  simp only [Ledger.exec, Ledger.markSucceeded] at ha
  split at ha
  · simp at ha
  · obtain ⟨-, rfl⟩ := Prod.mk.injEq .. ▸ ha
    intro child hc
    obtain ⟨r, hr, hrow, -⟩ := OutboxTable.insert_tracked p.url.asStr p.attemptId (p.kept doc)
      l.outbox child hc
    refine ⟨r, ?_, hrow⟩
    simpa [UrlPipeline.successRecord, hd] using hr

end Rows

/-! ## The phases -/

/-- Every call but the two that yield a document. -/
def NoExtraction : Call → Prop
  | .parse _ => False
  | .adapterExtract .. => False
  | _ => True

theorem Call.Plain.noExtraction {c : Call} (h : c.Plain) : NoExtraction c := by
  cases c <;> trivial

theorem extracted_cons {c : Call} {r : c.Answer} {log : Log Call Call.Answer} {doc : ParsedDocument} :
    Extracted (⟨c, r⟩ :: log) doc ↔ documentOf c r = some doc ∨ Extracted log doc := by
  simp [Extracted]

theorem NoExtraction.documentOf {c : Call} (hc : NoExtraction c) (r : c.Answer) :
    documentOf c r = none := by
  cases c with
  | parse resp => exact hc.elim
  | adapterExtract a resp => exact hc.elim
  | _ => rfl

theorem NoExtraction.extracted {c : Call} (hc : NoExtraction c) {r : c.Answer}
    {log : Log Call Call.Answer} {doc : ParsedDocument} (h : Extracted (⟨c, r⟩ :: log) doc) :
    Extracted log doc := by
  rw [extracted_cons, hc.documentOf r] at h
  simpa using h

/-- No document yet. -/
def NoDocument (log : Log Call Call.Answer) : Prop := ∀ doc, ¬ Extracted log doc

/-- `doc` is the page, and in durable mode its links are in or one of the two failures shows. -/
structure Settled (p : UrlPipeline) (doc : ParsedDocument) (log : Log Call Call.Answer)
    (l : Ledger) : Prop where
  page : ∀ doc', Extracted log doc' → doc' = doc
  links : p.deps.linkDispatch = .durableOutbox →
    LinksRecorded p doc l ∨ StoreRefused log ∨ CommitFailed log

/-- What a run leaves. -/
def LinksKept (p : UrlPipeline) (log : Log Call Call.Answer) (l : Ledger) : Prop :=
  ∀ doc, p.deps.linkDispatch = .durableOutbox → Extracted log doc →
    LinksRecorded p doc l ∨ StoreRefused log ∨ CommitFailed log

theorem stable_links (p : UrlPipeline) (doc : ParsedDocument) (log : Log Call Call.Answer) :
    faultyWorld.Stable fun l => LinksRecorded p doc l ∨ StoreRefused log ∨ CommitFailed log :=
  fun l l' h he => h.imp_left fun h => stable_linksRecorded p doc l l' h he

section Phases

variable {p : UrlPipeline} {log : Log Call Call.Answer} {l : Ledger} {α : Type}

theorem safe_noDocument {q : Pipe α} (hq : Only Call.Plain q) (h : NoDocument log) :
    Safe faultyWorld (fun _ _ _ => True) (fun _ log _ => NoDocument log) q log l :=
  safe_of_only (P := fun log _ => NoDocument log) (fun _ _ _ h _ => h) (fun _ _ _ _ _ => trivial)
    (fun _ _ _ _ _ hc h _ doc hd => h doc (hc.noExtraction.extracted hd)) hq h

theorem safe_settled {q : Pipe α} {doc : ParsedDocument} (hq : Only Call.Plain q)
    (h : Settled p doc log l) :
    Safe faultyWorld (fun _ _ _ => True) (fun _ => Settled p doc) q log l := by
  refine safe_of_only ?_ (fun _ _ _ _ _ => trivial) ?_ hq h
  · intro log l l' h he
    exact ⟨h.page, fun hd => stable_links p doc log l l' (h.links hd) he⟩
  · intro log l c r l' hc h ha
    refine ⟨fun doc' hd => h.page doc' (hc.noExtraction.extracted hd), fun hd => ?_⟩
    rcases h.links hd with hl | hl | hl
    · exact Or.inl (hl.act ha)
    · obtain ⟨e, he, hf⟩ := hl
      exact Or.inr (Or.inl ⟨e, List.mem_cons_of_mem _ he, hf⟩)
    · obtain ⟨e, he, hf⟩ := hl
      exact Or.inr (Or.inr ⟨e, List.mem_cons_of_mem _ he, hf⟩)

/-- What a page's extraction leaves: no document, or the one it returns. -/
def OnlyDocument (doc : Option ParsedDocument) (log : Log Call Call.Answer) : Prop :=
  ∀ doc', Extracted log doc' → doc = some doc'

theorem OnlyDocument.cons {doc : Option ParsedDocument} (h : OnlyDocument doc log) {c : Call}
    (hc : NoExtraction c) (r : c.Answer) : OnlyDocument doc (⟨c, r⟩ :: log) :=
  fun doc' hd => h doc' (hc.extracted hd)

/-- One of the two extracting calls. -/
theorem onlyDocument_cons {c : Call} (r : c.Answer) (h : NoDocument log) :
    OnlyDocument (documentOf c r) (⟨c, r⟩ :: log) := by
  intro doc hd
  rcases extracted_cons.1 hd with hd | hd
  · exact hd
  · exact absurd hd (h doc)

theorem noDocument_cons {c : Call} {r : c.Answer} (h : NoDocument log) (hr : documentOf c r = none) :
    NoDocument (⟨c, r⟩ :: log) := by
  intro doc hd
  rcases extracted_cons.1 hd with hd | hd
  · simp [hr] at hd
  · exact h doc hd

theorem safe_failParse_log (reason : String) (h : NoDocument log) :
    Safe faultyWorld (fun _ _ _ => True) (fun doc log _ => OnlyDocument doc log)
      (do p.failParse reason; pure (none : Option ParsedDocument)) log l :=
  safe_bind ((safe_noDocument (plain_failParse p reason) h).mono
    fun _ _ _ h doc hd => absurd hd (h doc))

/-- A call that is made whatever the ledger holds. -/
theorem safe_await {c : Call} {post : c.Answer → Log Call Call.Answer → Ledger → Prop}
    (h : ∀ r l', post r (⟨c, r⟩ :: log) l') :
    Safe faultyWorld (fun _ _ _ => True) post (await c) log l :=
  safe_perform (P := fun _ => True) (fun _ _ _ _ => trivial) trivial (fun _ _ => trivial)
    fun _ r l' _ _ => h r l'

theorem safe_parseGeneric_log (resp : FetchResponse) (h : NoDocument log) :
    Safe faultyWorld (fun _ _ _ => True) (fun doc log _ => OnlyDocument doc log)
      (p.parseGeneric resp) log l := by
  refine safe_bind (safe_await fun r l' => ?_)
  cases r with
  | ok doc => exact onlyDocument_cons (c := .parse resp) (.ok doc) h
  | error e => exact safe_failParse_log _ (noDocument_cons h rfl)

theorem safe_extract_log (resp : FetchResponse) (h : NoDocument log) :
    Safe faultyWorld (fun _ _ _ => True) (fun doc log _ => OnlyDocument doc log)
      (p.extract resp) log l := by
  unfold UrlPipeline.extract
  split
  · exact safe_parseGeneric_log resp h
  · rename_i adapter _
    refine safe_bind (safe_await fun r l' => ?_)
    match r with
    | .ok (some doc) => exact onlyDocument_cons (c := .adapterExtract adapter resp) (.ok (some doc)) h
    | .ok none => exact safe_parseGeneric_log resp (noDocument_cons h rfl)
    | .error e => exact safe_failParse_log _ (noDocument_cons h rfl)

theorem safe_finalize_links (resp : FetchResponse) (doc : ParsedDocument)
    (h : OnlyDocument (some doc) log) :
    Safe faultyWorld (fun _ _ _ => True) (fun _ => Settled p doc)
      (p.finalize resp doc (computeOutbound p.entry doc p.deps.crawlScope.depthCap)) log l := by
  have hpage : ∀ {log : Log Call Call.Answer}, OnlyDocument (some doc) log →
      ∀ doc', Extracted log doc' → doc' = doc :=
    fun h doc' hd => (Option.some.inj (h doc' hd)).symm
  refine safe_bind (safe_await fun r l' => ?_)
  cases r with
  | error e =>
    refine safe_settled (plain_ack p) ⟨hpage (h.cons (c := .storeWrite _) trivial _), ?_⟩
    exact fun _ => Or.inr (Or.inl ⟨_, List.mem_cons_self, rfl⟩)
  | ok blobPath =>
    -- The links ride on this commit; whatever comes after it keeps their rows.
    refine safe_bind (safe_perform (P := fun _ => True) (fun _ _ _ _ => trivial) trivial
      (fun _ _ => trivial) ?_)
    intro l₁ r l₂ _ ha
    refine safe_settled (plain_afterCommit p _) ⟨hpage ((h.cons (c := .storeWrite _) trivial _).cons
      (c := .ledger _) trivial _), fun hd => ?_⟩
    cases r with
    | error e => exact Or.inr (Or.inr ⟨_, List.mem_cons_self, rfl⟩)
    | ok _ => exact Or.inl (linksRecorded_markSucceeded hd ha)

theorem safe_run_links (p : UrlPipeline) (start : Ledger) :
    Safe faultyWorld (fun _ _ _ => True) (fun _ log l => LinksKept p log l) p.run [] start := by
  have hnone : ∀ {log : Log Call Call.Answer} {l : Ledger}, NoDocument log → LinksKept p log l :=
    fun h doc _ hd => absurd hd (h doc)
  have h0 : NoDocument [] := fun doc hd => by simp [Extracted] at hd
  refine safe_bind ((safe_noDocument (plain_politenessAllows p) h0).mono fun allowed log l h => ?_)
  cases allowed with
  | false => exact hnone h
  | true =>
    refine safe_bind ((safe_noDocument (plain_markAttempting p) h).mono fun _ _ _ h => ?_)
    refine safe_bind ((safe_noDocument (plain_fetch p) h).mono fun resp _ _ h => ?_)
    cases resp with
    | none => exact hnone h
    | some resp =>
      refine safe_bind ((safe_extract_log resp h).mono fun doc _ _ h => ?_)
      cases doc with
      | none => exact hnone fun doc hd => by simpa using h doc hd
      | some doc =>
        refine (safe_finalize_links resp doc h).mono fun _ _ _ h doc' hd hx => ?_
        rw [h.page doc' hx]
        exact h.links hd

end Phases

/-! ## The end of every run -/

/-- In durable mode a page that was fetched and parsed has all its kept links in the outbox when the
run ends, unless the store refused the page or the commit answered an error. -/
theorem links_recorded (S : Session Ledger UrlPipeline Call Call.Answer)
    (hS : faultyDeliveries.Reachable S) (p : UrlPipeline) (start : Ledger)
    (log : Log Call Call.Answer) (doc : ParsedDocument)
    (hr : S.running = some ⟨p, start, log, .pure ()⟩)
    (hd : p.deps.linkDispatch = .durableOutbox) (hdoc : Extracted log doc) :
    LinksRecorded p doc S.state ∨ StoreRefused log ∨ CommitFailed log := by
  have hpost : ∀ (p : UrlPipeline) (start : Ledger) (u : Unit) (log : Log Call Call.Answer),
      faultyWorld.Stable (LinksKept p log) :=
    fun p _ _ log l l' h he doc hd hx => stable_links p doc log l l' (h doc hd hx) he
  exact Session.returned hpost safe_run_links hS hr doc hd hdoc

/-! ### A page with one link -/

def UrlPipeline.sampleDurable : UrlPipeline :=
  ⟨{ WorkerDeps.sample with linkDispatch := .durableOutbox }, .seedA, UrlPipeline.sampleA.attemptId⟩

def ParsedDocument.sampleLink : ParsedDocument :=
  ⟨UrlEntry.seedA.url, 200, none, none, [UrlEntry.seedA'.url]⟩

/-- `answering`, with a link on the page. -/
def linking (stored : Except Error String) (l : Ledger) : (c : Call) → c.Answer × Ledger
  | .parse _ => (.ok .sampleLink, l)
  | c => answering .allow stored l c

theorem linking_act (stored : Except Error String) (l : Ledger) (c : Call) :
    faultyWorld.act l c (linking stored l c).1 (linking stored l c).2 := by
  cases c with
  | ledger c => exact Or.inl rfl
  | _ => rfl

/-- The whole delivery from an empty ledger: its log, and the ledger it leaves. -/
def delivered (stored : Except Error String) : Log Call Call.Answer × Ledger :=
  Prog.trace (linking stored) UrlPipeline.sampleDurable.run [] .empty

theorem reachable_delivered (stored : Except Error String) : faultyDeliveries.Reachable
    ⟨(delivered stored).2, some ⟨.sampleDurable, .empty, (delivered stored).1, .pure ()⟩⟩ :=
  Session.reachable_trace (linking_act stored) (Session.reachable_start _ _)

/-- With the page stored and committed, the link has its row. -/
theorem links_recorded_stored :
    ¬ StoreRefused (delivered (.ok "blobs/1")).1 ∧ ¬ CommitFailed (delivered (.ok "blobs/1")).1 ∧
      LinksRecorded .sampleDurable .sampleLink (delivered (.ok "blobs/1")).2 := by
  have hs : ¬ StoreRefused (delivered (.ok "blobs/1")).1 := by unfold StoreRefused; decide +kernel
  have hc : ¬ CommitFailed (delivered (.ok "blobs/1")).1 := by unfold CommitFailed; decide +kernel
  have hx : Extracted (delivered (.ok "blobs/1")).1 .sampleLink := by
    unfold Extracted
    decide +kernel
  refine ⟨hs, hc, ?_⟩
  rcases links_recorded _ (reachable_delivered _) _ _ _ _ rfl rfl hx with h | h | h
  · exact h
  · exact absurd h hs
  · exact absurd h hc

/-- The store refuses the page: it is acked, and its link has no row. -/
theorem not_noLinkLost : ¬ NoLinkLost := by
  intro h
  have hx : Extracted (delivered (.error (.store "put failed"))).1 .sampleLink := by
    unfold Extracted
    decide +kernel
  rcases h _ _ _ _ _ (reachable_delivered (.error (.store "put failed"))) rfl rfl hx with h | h
  · obtain ⟨r, hr, -⟩ := h ⟨UrlEntry.seedA'.url, 1, some UrlEntry.seedA.url⟩ (by decide +kernel)
    have hnil : (delivered (.error (.store "put failed"))).2.outbox.rows = [] := by decide +kernel
    rw [hnil] at hr
    cases hr
  · exact h (by unfold Acked; decide +kernel)

end Crawlrs

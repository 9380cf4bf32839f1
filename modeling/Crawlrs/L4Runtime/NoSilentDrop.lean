import Crawlrs.L4Runtime.Pipeline

/-!
# What the ledger holds when a URL is acked

Deliveries of one URL, one after another and each possibly cut off, over a
ledger that other workers write for other URLs (and may write discovery skips
for this one). Ledger calls are answered by the ledger; every other collaborator
answers as it likes.

An ack ends the URL for the run, so the row has to tell how it ended. It does,
but for three cases. Two are the documented design: a failed store write acks
with the row in progress, and a skip leaves an earlier row as it was. The third,
an ack after a circuit-open verdict, writes no row.
-/
namespace Crawlrs

open Prog (Log Safe safe_bind safe_perform safe_each)

def UrlStatus.isTerminal : UrlStatus → Bool
  | .succeeded => true
  | .permanentlyFailed => true
  | .skipped _ => true
  | _ => false

/-- One delivery of the URL with text `u`. -/
structure Delivery (u : String) where
  pipeline : UrlPipeline
  url_eq : pipeline.url.asStr = u

/-- The ledger as the deliveries of `u` see it. The rest of the deployment makes ledger calls
too, for other URLs, or records `u` as a discovery skip; publishing leaves the rows alone. -/
def ledgerWorld (u : String) : World Ledger Call Call.Answer where
  env l l' := l'.rows = l.rows ∨
    ∃ c : Ledger.Call, (c.url.asStr = u → c.isSkip) ∧ l' = (l.exec c).2
  act l c r l' := match c, r with
    | .ledger c, r => l.exec c = (r, l')
    | _, _ => l' = l

/-- Successive deliveries of `u`, from any ledger. -/
abbrev deliveries (u : String) :
    LTS (Session Ledger (Delivery u) Call Call.Answer) (Session.Label (Delivery u) Call Call.Answer) :=
  Session.sessions (ledgerWorld u) fun d => d.pipeline.run

/-! ## The last call before an ack -/

def storeFailed : Log Call Call.Answer → Bool
  | ⟨.storeWrite _, .error _⟩ :: _ => true
  | _ => false

def circuitOpen : Log Call Call.Answer → Bool
  | ⟨.check _, .ok (.disallow .circuit)⟩ :: _ => true
  | _ => false

def skipRecorded : Log Call Call.Answer → Bool
  | ⟨.ledger (.markDiscoveredSkipped ..), _⟩ :: _ => true
  | _ => false

/-- Every ack finds a terminal row. -/
def NoSilentDrop : Prop :=
  ∀ (u : String) (S : Session Ledger (Delivery u) Call Call.Answer) (d : Delivery u)
    (start : Ledger) (log : Log Call Call.Answer) (a : String)
    (k : Except Error Unit → Pipe Unit), (deliveries u).Reachable S →
    S.running = some ⟨d, start, log, .call (.ack a) k⟩ →
    HasStatus u (fun st => st.isTerminal) S.state

/-- What an ack finds, circuit-open verdicts aside: a terminal row; a row in progress, right after
the store refused the record; or, right after recording a skip, the row the delivery started from. -/
def AckJustified (u : String) (start : Ledger) (log : Log Call Call.Answer) (l : Ledger) : Prop :=
  HasStatus u (fun st => st.isTerminal) l ∨
  (storeFailed log ∧ HasStatus u (· = .inProgress) l) ∨
  (skipRecorded log ∧ ∃ row, start.rows u = some row ∧ l.rows u = some row)

/-! ## What the others leave alone -/

section Stable

variable {u : String}

theorem stable_hasStatus (P : UrlStatus → Prop) : (ledgerWorld u).Stable (HasStatus u P) := by
  rintro l l' ⟨row, hr, hP⟩ henv
  rcases henv with he | ⟨c, hc, rfl⟩
  · exact ⟨row, by rw [he, hr], hP⟩
  · exact ⟨row, Ledger.exec_row hc hr, hP⟩

/-- The row of `u` is the one of `start`, or a discovery skip where `start` had none. -/
def Untouched (u : String) (start l : Ledger) : Prop :=
  match start.rows u with
  | some row => l.rows u = some row
  | none => ∀ row, l.rows u = some row → ∃ reason, row.status = .skipped reason

theorem untouched_refl (start : Ledger) : Untouched u start start := by
  unfold Untouched
  split
  · rename_i row h; exact h
  · rename_i h; simp [h]

theorem Untouched.exec {start l : Ledger} (h : Untouched u start l) {c : Ledger.Call}
    (hc : c.url.asStr = u → c.isSkip) : Untouched u start (l.exec c).2 := by
  unfold Untouched at h ⊢
  split
  · rename_i row hs
    rw [hs] at h
    exact Ledger.exec_row hc h
  · rename_i hs
    rw [hs] at h
    intro row hr
    cases hl : l.rows u with
    | some row' =>
      rw [Ledger.exec_row hc hl] at hr
      cases hr
      exact h _ hl
    | none =>
      by_cases hu : u = c.url.asStr
      · cases c with
        | markDiscoveredSkipped url runId depth discoveredFrom reason =>
          simp only [Ledger.Call.url] at hu
          subst hu
          simp only [Ledger.exec, Ledger.markDiscoveredSkipped, hl, Ledger.setRow_rows,
            Function.update_self, Option.some.injEq] at hr
          subst hr
          exact ⟨reason, rfl⟩
        | _ => exact absurd (hc hu.symm) (by simp [Ledger.Call.isSkip])
      · rw [Ledger.exec_other l c hu, hl] at hr
        cases hr

theorem stable_untouched (start : Ledger) : (ledgerWorld u).Stable (Untouched u start) := by
  intro l l' h henv
  rcases henv with he | ⟨c, hc, rfl⟩
  · unfold Untouched at h ⊢
    rwa [he]
  · exact h.exec hc

end Stable

/-! ## The phases

`AckOk` is asked of every call; a phase is `Safe` for it with the row's status
before and after. -/

/-- The condition on a call: an ack is justified. -/
def AckOk (u : String) (start : Ledger) (log : Log Call Call.Answer) (l : Ledger) (c : Call) :
    Prop := c.isAck → ¬ circuitOpen log → AckJustified u start log l

/-- Calls that neither ack nor move the row of `u`. -/
def Quiet (u : String) : Call → Prop
  | .ledger c => c.url.asStr = u → c.isSkip
  | .ack _ => False
  | _ => True

section Phases

variable {u : String} {start : Ledger} {log : Log Call Call.Answer} {l : Ledger}
  {P : UrlStatus → Prop}

theorem Quiet.act {c : Call} (hc : Quiet u c) {r : c.Answer} {l l' : Ledger}
    (h : (ledgerWorld u).act l c r l') (hl : HasStatus u P l) : HasStatus u P l' := by
  cases c with
  | ledger m =>
    obtain ⟨row, hr, hP⟩ := hl
    have h : l.exec m = (r, l') := h
    have hrow := Ledger.exec_row hc hr
    rw [h] at hrow
    exact ⟨row, hrow, hP⟩
  | _ =>
    have h : l' = l := h
    exact h ▸ hl

/-- A quiet call keeps the status. -/
theorem safe_quiet {c : Call} (hc : Quiet u c) (hl : HasStatus u P l) :
    Safe (ledgerWorld u) (AckOk u start)
      (fun r log' l' => log' = ⟨c, r⟩ :: log ∧ HasStatus u P l') (await c) log l := by
  refine safe_perform (stable_hasStatus P) hl ?_ fun _ r _ h1 ha => ⟨rfl, hc.act ha h1⟩
  intro _ _ hack
  cases c with
  | ack a => exact hc.elim
  | _ => exact absurd hack (by simp [Call.isAck])

theorem safe_ack (p : UrlPipeline) {Q : Ledger → Prop} (hQ : (ledgerWorld u).Stable Q) (hl : Q l)
    (h : ¬ circuitOpen log → ∀ l, Q l → AckJustified u start log l) :
    Safe (ledgerWorld u) (AckOk u start) (fun _ _ _ => True) p.ack log l := by
  refine safe_bind (safe_perform hQ hl (fun l h1 _ hco => h hco l h1) ?_)
  intro _ _ _ _ _
  trivial

/-- An ack where the row is terminal. -/
theorem safe_ack_terminal (p : UrlPipeline) (hl : HasStatus u (fun st => st.isTerminal) l) :
    Safe (ledgerWorld u) (AckOk u start) (fun _ _ _ => True) p.ack log l :=
  safe_ack p (stable_hasStatus _) hl fun _ _ h => Or.inl h

theorem safe_recordDiscoveredSkip (p : UrlPipeline) (url : CanonicalUrl) (depth : UInt32)
    (discoveredFrom : Option CanonicalUrl) (reason : SkipReason) (hl : HasStatus u P l) :
    Safe (ledgerWorld u) (AckOk u start) (fun _ _ l' => HasStatus u P l')
      (p.recordDiscoveredSkip url depth discoveredFrom reason) log l :=
  safe_bind ((safe_quiet (c := .ledger _) (fun _ => rfl) hl).mono fun _ _ _ h => h.2)

theorem safe_applyWakePlan (plan : Except Error NextWake) (hl : HasStatus u P l) :
    Safe (ledgerWorld u) (AckOk u start) (fun _ _ l' => HasStatus u P l')
      (UrlPipeline.applyWakePlan plan) log l := by
  cases plan with
  | error e => exact hl
  | ok next =>
    refine safe_bind ((safe_quiet (c := .now) trivial hl).mono ?_)
    rintro now log' l' ⟨-, hl'⟩
    split
    · exact hl'
    · exact safe_bind ((safe_quiet (c := .advanceWake _ _) trivial hl').mono fun _ _ _ h => h.2)

/-- A ledger call, from what is known of the ledger where it is made. -/
theorem safe_ledger {c : Ledger.Call} {Q T : Ledger → Prop} (hQ : (ledgerWorld u).Stable Q)
    (hl : Q l) (h : ∀ l, Q l → T (l.exec c).2) :
    Safe (ledgerWorld u) (AckOk u start) (fun r log' l' => log' = ⟨.ledger c, r⟩ :: log ∧ T l')
      (await (.ledger c)) log l := by
  refine safe_perform hQ hl (fun _ _ hack => by simp [Call.isAck] at hack) ?_
  intro l r l' h1 ha
  have ha : l.exec c = (r, l') := ha
  have h2 := h l h1
  rw [ha] at h2
  exact ⟨rfl, h2⟩

/-- Marking the URL permanently failed, then acking: the end of both failure paths. -/
theorem safe_giveUp (d : Delivery u) (reason : String) (hl : HasStatus u P l) :
    Safe (ledgerWorld u) (AckOk u start) (fun _ _ _ => True)
      (do let _ ← await (.ledger (.markPermanentlyFailed d.pipeline.url reason)); d.pipeline.ack)
      log l := by
  refine safe_bind ((safe_ledger (c := .markPermanentlyFailed d.pipeline.url reason)
    (stable_hasStatus P) hl fun l h => hasStatus_markPermanentlyFailed d.url_eq reason h).mono ?_)
  rintro _ _ l' ⟨-, row, hr, hst⟩
  exact safe_ack_terminal _ ⟨row, hr, by simp [hst, UrlStatus.isTerminal]⟩

theorem safe_handleFailure (d : Delivery u) (kind : FailureKind) (reason : String)
    (hl : HasStatus u P l) :
    Safe (ledgerWorld u) (AckOk u start) (fun _ _ _ => True)
      (d.pipeline.handleFailure kind reason) log l := by
  refine safe_bind ((safe_ledger (c := .markFailed d.pipeline.url kind) (stable_hasStatus P) hl
    fun l h => hasStatus_markFailed d.url_eq kind h).mono ?_)
  rintro r log' l' ⟨-, hl'⟩
  cases r with
  | error e => trivial
  | ok newCount =>
    dsimp only
    split
    · exact safe_giveUp d _ hl'
    · trivial

theorem safe_retryAfter (p : UrlPipeline) (headers : List (String × String))
    (hl : HasStatus u P l) :
    Safe (ledgerWorld u) (AckOk u start) (fun _ _ l' => HasStatus u P l') (p.retryAfter headers) log
      l := by
  unfold UrlPipeline.retryAfter
  split
  · exact hl
  · exact hl
  · exact safe_bind ((safe_quiet (c := .now) trivial hl).mono fun _ _ _ h => h.2)

/-- Recording a failure with the politeness layer, then handling it. -/
theorem safe_fail (d : Delivery u) (kind : FailureKind) (hint : Option Nat) (reason : String)
    (hl : HasStatus u P l) :
    Safe (ledgerWorld u) (AckOk u start)
      (fun resp _ l' => resp.isSome → HasStatus u P l')
      (do
        let plan ← await (.recordFailure d.pipeline.url kind hint)
        UrlPipeline.applyWakePlan plan
        d.pipeline.handleFailure kind reason
        pure (none : Option FetchResponse)) log l := by
  refine safe_bind ((safe_quiet (c := .recordFailure _ _ _) trivial hl).mono ?_)
  rintro plan log' l' ⟨-, hl'⟩
  refine safe_bind ((safe_applyWakePlan plan hl').mono fun _ _ _ hl => ?_)
  refine safe_bind ((safe_handleFailure d kind reason hl).mono fun _ _ _ _ => ?_)
  exact fun h => by simp at h

/-- A response comes back with the status as it was; every failure is dealt with inside. -/
theorem safe_fetch (d : Delivery u) (hl : HasStatus u P l) :
    Safe (ledgerWorld u) (AckOk u start) (fun resp _ l' => resp.isSome → HasStatus u P l')
      d.pipeline.fetch log l := by
  refine safe_bind ((safe_quiet (c := .fetch _) trivial hl).mono ?_)
  rintro r log' l' ⟨-, hl'⟩
  cases r with
  | error e => exact safe_fail d _ none _ hl'
  | ok resp =>
    dsimp only
    split
    · exact safe_bind ((safe_retryAfter _ _ hl').mono fun hint _ _ hl => safe_fail d _ hint _ hl)
    · refine safe_bind ((safe_quiet (c := .recordFetch _) trivial hl').mono ?_)
      rintro plan log'' l'' ⟨-, hl''⟩
      exact safe_bind ((safe_applyWakePlan plan hl'').mono fun _ _ _ hl _ => hl)

theorem safe_failParse (d : Delivery u) (reason : String) (hl : HasStatus u P l) :
    Safe (ledgerWorld u) (AckOk u start) (fun doc _ l' => doc.isSome → HasStatus u P l')
      (do d.pipeline.failParse reason; pure (none : Option ParsedDocument)) log l :=
  safe_bind ((safe_giveUp d _ hl).mono fun _ _ _ _ h => by simp at h)

theorem safe_parseGeneric (d : Delivery u) (resp : FetchResponse) (hl : HasStatus u P l) :
    Safe (ledgerWorld u) (AckOk u start) (fun doc _ l' => doc.isSome → HasStatus u P l')
      (d.pipeline.parseGeneric resp) log l := by
  refine safe_bind ((safe_quiet (c := .parse _) trivial hl).mono ?_)
  rintro r log' l' ⟨-, hl'⟩
  cases r with
  | ok doc => exact fun _ => hl'
  | error e => exact safe_failParse d _ hl'

theorem safe_extract (d : Delivery u) (resp : FetchResponse) (hl : HasStatus u P l) :
    Safe (ledgerWorld u) (AckOk u start) (fun doc _ l' => doc.isSome → HasStatus u P l')
      (d.pipeline.extract resp) log l := by
  unfold UrlPipeline.extract
  split
  · exact safe_parseGeneric d resp hl
  · refine safe_bind ((safe_quiet (c := .adapterExtract _ _) trivial hl).mono ?_)
    rintro r log' l' ⟨-, hl'⟩
    match r with
    | .ok (some doc) => exact fun _ => hl'
    | .ok none => exact safe_parseGeneric d resp hl'
    | .error e => exact safe_failParse d _ hl'

theorem safe_dispatch (p : UrlPipeline) (outbound : List UrlEntry) (hl : HasStatus u P l) :
    Safe (ledgerWorld u) (AckOk u start) (fun _ _ l' => HasStatus u P l') (p.dispatch outbound) log
      l := by
  unfold UrlPipeline.dispatch
  split
  · refine safe_bind ((safe_quiet (c := .submitBatch _) trivial hl).mono ?_)
    rintro r log' l' ⟨-, hl'⟩
    cases r with
    | error e => exact hl'
    | ok outcome =>
      exact safe_each (P := fun _ l => HasStatus u P l)
        (fun _ _ _ h => safe_recordDiscoveredSkip p _ _ _ _ h) hl'
  · exact hl

theorem safe_finalize (d : Delivery u) (resp : FetchResponse) (doc : ParsedDocument)
    (partition : OutboundPartition) (hl : HasStatus u (· = .inProgress) l) :
    Safe (ledgerWorld u) (AckOk u start) (fun _ _ _ => True)
      (d.pipeline.finalize resp doc partition) log l := by
  refine safe_bind ((safe_quiet (c := .storeWrite _) trivial hl).mono ?_)
  rintro r log' l' ⟨rfl, hl'⟩
  cases r with
  | error e => exact safe_ack _ (stable_hasStatus _) hl' fun _ _ h => Or.inr (Or.inl ⟨rfl, h⟩)
  | ok blobPath =>
    -- From here on the row is `Succeeded`, and nothing that follows touches it.
    refine safe_bind ((safe_ledger
      (c := .markSucceeded (d.pipeline.successRecord resp blobPath partition.kept))
      (stable_hasStatus _) hl' fun l h => hasStatus_markSucceeded d.url_eq h).mono fun _ _ _ hl => ?_)
    refine safe_bind ((safe_each (P := fun _ l => HasStatus u (· = .succeeded) l)
      (fun _ _ _ h => safe_recordDiscoveredSkip _ _ _ _ _ h) hl.2).mono fun _ _ _ hl => ?_)
    refine safe_bind ((safe_dispatch _ _ hl).mono ?_)
    rintro _ _ l' ⟨row, hr, hst⟩
    exact safe_ack_terminal _ ⟨row, hr, by simp [hst, UrlStatus.isTerminal]⟩

/-- A row left as the delivery found it justifies the ack that follows a recorded skip. -/
theorem ackJustified_of_untouched (hlog : skipRecorded log) (h : Untouched u start l)
    (hl : HasStatus u (fun _ => True) l) : AckJustified u start log l := by
  obtain ⟨row, hr, -⟩ := hl
  unfold Untouched at h
  split at h
  · rename_i row' hs
    exact Or.inr (Or.inr ⟨hlog, row', hs, h⟩)
  · obtain ⟨reason, hst⟩ := h row hr
    exact Or.inl ⟨row, hr, by simp [hst, UrlStatus.isTerminal]⟩

/-- Recording the skip of the delivered URL itself, then acking. -/
theorem safe_skip (d : Delivery u) (reason : SkipReason) (hl : Untouched u start l) :
    Safe (ledgerWorld u) (AckOk u start) (fun _ _ _ => True)
      (do
        d.pipeline.recordDiscoveredSkip d.pipeline.url d.pipeline.entry.depth
          d.pipeline.entry.discoveredFrom reason
        d.pipeline.ack
        pure false) log l := by
  refine safe_bind (safe_bind ((safe_ledger (c := .markDiscoveredSkipped d.pipeline.url
    d.pipeline.deps.runId d.pipeline.entry.depth d.pipeline.entry.discoveredFrom reason)
    (T := fun l => Untouched u start l ∧ HasStatus u (fun _ => True) l) (stable_untouched start) hl
    fun l h => ⟨h.exec fun _ => rfl, hasStatus_markDiscoveredSkipped d.url_eq _ _ _ _⟩).mono ?_))
  rintro r log' l' ⟨rfl, h⟩
  exact safe_bind ((safe_ack _ ((stable_untouched start).and (stable_hasStatus _)) h
    fun _ l h => ackJustified_of_untouched rfl h.1 h.2).mono fun _ _ _ _ => trivial)

theorem safe_politenessAllows (d : Delivery u) :
    Safe (ledgerWorld u) (AckOk u start) (fun _ _ _ => True) d.pipeline.politenessAllows [] start := by
  unfold UrlPipeline.politenessAllows
  split
  · exact safe_skip d .blocklist (untouched_refl start)
  · refine safe_bind (safe_perform (stable_untouched start) (untouched_refl start)
      (fun _ _ hack => by simp [Call.isAck] at hack) ?_)
    intro l r l' h ha
    have ha : l' = l := ha
    subst ha
    cases r with
    | error e => trivial
    | ok verdict =>
      cases verdict with
      | allow => trivial
      | disallow reason =>
        cases reason with
        | robots => exact safe_skip d .robots h
        | circuit =>
          -- The verdict is the last call before the ack.
          exact safe_bind ((safe_ack _ (stable_untouched start) h fun hco => absurd rfl hco).mono
            fun _ _ _ _ => trivial)

theorem safe_run (d : Delivery u) :
    Safe (ledgerWorld u) (AckOk u start) (fun _ _ _ => True) d.pipeline.run [] start := by
  refine safe_bind ((safe_politenessAllows d).mono fun allowed log l _ => ?_)
  cases allowed with
  | false => trivial
  | true =>
    refine safe_bind (safe_bind ((safe_ledger (c := .markAttempting d.pipeline.url
      d.pipeline.deps.runId d.pipeline.entry.depth) (Q := fun _ => True) (fun _ _ _ _ => trivial)
      trivial fun l _ => hasStatus_markAttempting d.url_eq _ _).mono ?_))
    rintro r log' l' ⟨-, hl⟩
    refine safe_bind ((safe_fetch d hl).mono fun resp _ _ hl => ?_)
    cases resp with
    | none => trivial
    | some resp =>
      refine safe_bind ((safe_extract d resp (hl rfl)).mono fun doc _ _ hl => ?_)
      cases doc with
      | none => trivial
      | some doc => exact safe_finalize d resp doc _ (hl rfl)

end Phases

/-! ## Every ack of every run -/

theorem ack_justified (u : String) (S : Session Ledger (Delivery u) Call Call.Answer)
    (hS : (deliveries u).Reachable S) (d : Delivery u) (start : Ledger)
    (log : Log Call Call.Answer) (a : String) (k : Except Error Unit → Pipe Unit)
    (hr : S.running = some ⟨d, start, log, .call (.ack a) k⟩) (hco : ¬ circuitOpen log) :
    AckJustified u start log S.state := by
  have hsafe : ∀ (d : Delivery u) (start : Ledger),
      Safe (ledgerWorld u) (AckOk u start) (fun _ _ _ => True) d.pipeline.run [] start :=
    fun d _ => safe_run d
  exact Session.safe hsafe hS hr rfl hco

/-! ### A delivery of a fresh URL, by its answers -/

def UrlPipeline.sampleA : UrlPipeline :=
  ⟨.sample, .seedA, "s0|50e31edfccebf8eb88f3065e49155e2c|a.test"⟩

def Delivery.sampleA : Delivery "https://a.test/" := ⟨.sampleA, rfl⟩

/-- A page that fetches and parses, under a politeness layer that answers `verdict` and a store
that answers `stored`. -/
def answering (verdict : PoliteDecision) (stored : Except Error String) (l : Ledger) :
    (c : Call) → c.Answer × Ledger
  | .ledger c => l.exec c
  | .check _ => (.ok verdict, l)
  | .recordFetch _ => (.ok ⟨"a.test", 0⟩, l)
  | .recordFailure .. => (.ok ⟨"a.test", 0⟩, l)
  | .fetch request => (.ok ⟨request.url, 200, [], []⟩, l)
  | .adapterExtract .. => (.ok none, l)
  | .parse resp => (.ok ⟨resp.url, resp.status, none, none, []⟩, l)
  | .storeWrite _ => (stored, l)
  | .ack _ => (.ok (), l)
  | .advanceWake .. => (.ok (), l)
  | .submitBatch _ => (.ok {}, l)
  | .now => (0, l)

theorem answering_act (u : String) (verdict : PoliteDecision) (stored : Except Error String)
    (l : Ledger) (c : Call) : (ledgerWorld u).act l c (answering verdict stored l c).1
      (answering verdict stored l c).2 := by
  cases c <;> rfl

/-- The first ack of a delivery that starts from `l`: its log, and the ledger it finds. -/
def firstAck (verdict : PoliteDecision) (stored : Except Error String) (l : Ledger) :
    Option (Call × Log Call Call.Answer × Ledger) :=
  Prog.drive (answering verdict stored) Call.isAck UrlPipeline.sampleA.run [] l

theorem reachable_firstAck (verdict : PoliteDecision) (stored : Except Error String) (start : Ledger)
    {c : Call} {log : Log Call Call.Answer} {l : Ledger}
    (h : firstAck verdict stored start = some (c, log, l)) :
    ∃ k, (deliveries "https://a.test/").Reachable
      ⟨l, some ⟨.sampleA, start, log, .call c k⟩⟩ :=
  Session.reachable_drive (answering_act _ verdict stored) (Session.reachable_start _ _) h

/-- The page is stored, and acked with its row terminal. -/
theorem ack_justified_stored :
    ∃ log l, firstAck .allow (.ok "blobs/1") .empty =
        some (.ack UrlPipeline.sampleA.attemptId, log, l) ∧
      ¬ circuitOpen log ∧ AckJustified "https://a.test/" .empty log l := by
  refine ⟨_, _, rfl, by decide, ?_⟩
  obtain ⟨k, hk⟩ := reachable_firstAck .allow (.ok "blobs/1") .empty rfl
  exact ack_justified _ _ hk _ _ _ _ k rfl (by decide)

/-- The store refuses the first record: the URL is acked with its row in progress. -/
theorem not_noSilentDrop : ¬ NoSilentDrop := by
  intro h
  obtain ⟨k, hk⟩ := reachable_firstAck .allow (.error (.store "put failed")) .empty rfl
  obtain ⟨row, hr, hst⟩ := h _ _ _ _ _ _ k hk rfl
  cases hr
  exact absurd hst (by decide)

/-- A ledger in which one attempt at the URL has failed. -/
def Ledger.failedOnce : Ledger :=
  ((Ledger.empty.markAttempting UrlEntry.seedA.url "run-1" 0).2.markFailed UrlEntry.seedA.url
    .timeout).2

-- A robots verdict on the retry is a skip of a URL that has a row: the row stays as it was.
example : (firstAck (.disallow .robots) (.ok "blobs/1") .failedOnce).map
    (fun r => (skipRecorded r.2.1, (r.2.2.rows "https://a.test/").map UrlRow.status)) =
      some (true, some .failedTransient) := by decide +kernel

end Crawlrs

import Crawlrs.L4Runtime.Durable
import Crawlrs.L4Store.Overwrite

/-!
# One process: workers, publisher and shutdown (`crawler.rs`, `worker.rs`, `outbox.rs`)

`Crawler::run` spawns a worker per slot and, in `DurableOutbox` mode, the outbox
publisher, and returns when all of them have. They share the ledger, the store and
the shutdown flag; nothing else orders them.

A worker is
* `idle`: at `while !*shutdown.borrow()`,
* `claiming`: in `Frontier::claim`, or asleep after it found nothing,
* `running`: inside `UrlPipeline::run`, at the next call of the program,
* `storing`: inside `Store::write`, with the ticket of its write,
* `stopped`.

The publisher is at its own check of the flag, about to lease a batch, shipping
one, asleep, or done; `last` marks the one batch after the loop.

Which URLs are claimed, what the other collaborators answer and which ledger calls
fail is up to the environment. Heartbeat and frontier ticks touch none of this
state, and a worker's supervisor only matters to a panic, which nothing here
raises; they are left out.
-/
namespace Crawlrs

variable {F ρ : Type}

inductive Worker
  | idle
  | claiming
  | running (p : UrlPipeline) (prog : Pipe Unit)
  | storing (p : UrlPipeline) (record : StoreRecord) (ticket : Nat)
      (k : Except Error String → Pipe Unit)
  | stopped

def Worker.isStopped : Worker → Bool
  | .stopped => true
  | _ => false

inductive PublisherTask
  | checking
  | publishing (last : Bool)
  | shipping (last : Bool) (ids : List Nat)
  | sleeping
  | done
deriving DecidableEq

/-- `objects` are the ones of earlier processes: this one's are in the store. -/
structure Crawler (F : Type) where
  ledger : Ledger
  store : StoreState F
  workers : List Worker
  publisher : PublisherTask
  shutdown : Bool
  objects : String → Option F

namespace Crawler

/-- What the environment decides. `fault` of a ledger call: answered by the ledger (`none`), or an
error with the transaction committed or not. -/
inductive Label
  | signal
  | poll (i : Nat)
  | claimed (i : Nat) (entry : UrlEntry) (attemptId : String)
  | waited (i : Nat)
  | answer (i : Nat) (oracle : (c : Call) → c.Answer) (fault : Option Bool)
  | startWrite (i : Nat) (t : Reading)
  | finishWrite (i : Nat)
  | returned (i : Nat)
  | put (j : Nat) (ok : Bool)
  | check
  | lease
  | shipped (ok : Bool)
  | rejected (url : CanonicalUrl) (runId : String) (depth : UInt32)
      (discoveredFrom : Option CanonicalUrl)
  | wake

/-- The worker that takes the step. -/
def Label.worker : Label → Option Nat
  | .poll i => some i
  | .claimed i _ _ => some i
  | .waited i => some i
  | .answer i _ _ => some i
  | .startWrite i _ => some i
  | .finishWrite i => some i
  | .returned i => some i
  | _ => none

def setWorker (C : Crawler F) (i : Nat) (w : Worker) : Crawler F :=
  { C with workers := C.workers.set i w }

/-- How a write that no longer waits for its put ended. -/
def writeResult (S : StoreState F) (ticket : Nat) : Option (Except Error String) :=
  match S.returned.find? fun y => y.ticket == ticket with
  | some y => some (.ok y.path)
  | none =>
    if S.calls.any fun c => match c with
      | .write n _ _ _ => n == ticket
      | .flush _ => false
    then none
    else some (.error (.store "put failed"))

variable (deps : WorkerDeps) (K : Format F ρ)

/-- A call of worker `i` other than a store write.
mirrors crates/crawlrs-runtime/src/worker.rs:298-321 -/
def answered (C : Crawler F) (i : Nat) (p : UrlPipeline) (oracle : (c : Call) → c.Answer)
    (fault : Option Bool) : (c : Call) → (c.Answer → Pipe Unit) → Option (Crawler F)
  | .storeWrite _, _ => none
  | .ledger c, k =>
    match fault with
    | none =>
      some { C.setWorker i (.running p (k (C.ledger.exec c).1)) with ledger := (C.ledger.exec c).2 }
    | some committed =>
      if c.failed (oracle (.ledger c)) then
        some { C.setWorker i (.running p (k (oracle (.ledger c)))) with
          ledger := if committed then (C.ledger.exec c).2 else C.ledger }
      else none
  | c, k => some (C.setWorker i (.running p (k (oracle c))))

/-- The loop of a worker.
mirrors crates/crawlrs-runtime/src/worker.rs:150-201 -/
def workerStep (C : Crawler F) (i : Nat) (w : Worker) : Label → Option (Crawler F)
  | .poll _ => match w with
    | .idle => some (C.setWorker i (if C.shutdown then .stopped else .claiming))
    | _ => none
  | .claimed _ entry attemptId => match w with
    | .claiming => some (C.setWorker i (.running ⟨deps, entry, attemptId⟩
        (UrlPipeline.run ⟨deps, entry, attemptId⟩)))
    | _ => none
  -- The claim found nothing; a signal during the sleep breaks the loop, as the check would.
  | .waited _ => match w with
    | .claiming => some (C.setWorker i .idle)
    | _ => none
  | .answer _ oracle fault => match w with
    | .running p (.call c k) => C.answered i p oracle fault c k
    | _ => none
  | .startWrite _ t => match w with
    | .running p (.call (.storeWrite record) k) =>
      some { C.setWorker i (.storing p record C.store.tickets k) with
        store := K.write C.store record t }
    | _ => none
  | .finishWrite _ => match w with
    | .storing p _ ticket k =>
      (writeResult C.store ticket).map fun r => C.setWorker i (.running p (k r))
    | _ => none
  | .returned _ => match w with
    | .running _ (.pure _) => some (C.setWorker i .idle)
    | _ => none
  | _ => none

/-- The publisher task.
mirrors crates/crawlrs-runtime/src/outbox.rs:70-168 -/
def publisherStep (C : Crawler F) : Label → Option (Crawler F)
  | .check => match C.publisher with
    | .checking => some { C with publisher := .publishing C.shutdown }
    | _ => none
  | .lease => match C.publisher with
    | .publishing last =>
      let batch := C.ledger.outbox.leaseBatch [] batchSize
      some { C with publisher := .shipping last (batch.map OutboxRow.id) }
    | _ => none
  | .shipped ok => match C.publisher with
    | .shipping last ids =>
      let published := if ok then ids else []
      let ledger := { C.ledger with outbox := C.ledger.outbox.markPublished published }
      let next := if last then .done
        else if batchSize ≤ published.length then .checking else .sleeping
      some { C with ledger := ledger, publisher := next }
    | _ => none
  | .rejected url runId depth discoveredFrom => match C.publisher with
    | .shipping _ _ => some { C with
        ledger := (C.ledger.exec (.markDiscoveredSkipped url runId depth discoveredFrom .maxUrls)).2 }
    | _ => none
  -- The timer fires, or the signal breaks the loop.
  | .wake => match C.publisher with
    | .sleeping => some { C with publisher := if C.shutdown then .publishing true else .checking }
    | _ => none
  | _ => none

def step (C : Crawler F) (l : Label) : Option (Crawler F) :=
  match l.worker with
  | some i => (C.workers[i]?).bind fun w => C.workerStep deps K i w l
  | none => match l with
    | .signal => some { C with shutdown := true }
    | .put j ok => (Format.resume C.store j ok).map fun S => { C with store := S }
    | _ => C.publisherStep l

/-- A process that starts: an empty store, every worker at its loop, and the publisher at its own
where the mode has one.
mirrors crates/crawlrs-runtime/src/crawler.rs:184-246 -/
def Starts (C : Crawler F) : Prop :=
  C.store = .empty ∧ (∀ w ∈ C.workers, w = .idle) ∧ C.shutdown = false ∧
    C.publisher = match deps.linkDispatch with
      | .durableOutbox => .checking
      | .direct => .done

/-- All runs of a process. -/
def runs : LTS (Crawler F) Label := .ofFn (Starts deps) (step deps K)

/-- `Crawler::run` returned after the signal, and the command exits: neither flushes the store. -/
def Exited (C : Crawler F) : Prop :=
  C.shutdown = true ∧ (∀ w ∈ C.workers, w.isStopped) ∧ C.publisher = .done

instance (C : Crawler F) : Decidable (Exited C) := inferInstanceAs (Decidable (_ ∧ _ ∧ _))

/-! ## A step, by who takes it -/

variable {deps K} {C C' : Crawler F} {l : Label}

/-- An answered call of a worker is not a store write; if it changes the ledger, it is the ledger
call that does so. -/
theorem answered_cases {i : Nat} {p : UrlPipeline} {oracle : (c : Call) → c.Answer}
    {fault : Option Bool} {c : Call} {k : c.Answer → Pipe Unit}
    (h : C.answered i p oracle fault c k = some C') :
    ∃ r l', C' = { C.setWorker i (.running p (k r)) with ledger := l' } ∧
      (∀ record, c ≠ .storeWrite record) ∧
      (l' = C.ledger ∨ ∃ m, c = .ledger m ∧ l' = (C.ledger.exec m).2) := by
  cases c with
  | storeWrite record => cases h
  | ledger m =>
    cases fault with
    | none =>
      cases h
      exact ⟨_, _, rfl, fun _ => by simp, Or.inr ⟨m, rfl, rfl⟩⟩
    | some committed =>
      simp only [answered] at h
      split at h
      · cases h
        refine ⟨_, _, rfl, fun _ => by simp, ?_⟩
        cases committed
        · exact Or.inl rfl
        · exact Or.inr ⟨m, rfl, rfl⟩
      · cases h
  | _ =>
    cases h
    exact ⟨_, _, rfl, fun _ => by simp, Or.inl rfl⟩

/-- A worker's step leaves the publisher, the flag and the earlier objects alone. It moves that
worker, and touches the ledger in a call of its program or the store where it starts a write. -/
inductive WorkerMoves (deps : WorkerDeps) (K : Format F ρ) (C : Crawler F) (i : Nat) :
    Label → Worker → Crawler F → Prop
  | stop : C.shutdown = true → WorkerMoves deps K C i (.poll i) .idle (C.setWorker i .stopped)
  | claim : WorkerMoves deps K C i (.poll i) .idle (C.setWorker i .claiming)
  | begin (entry : UrlEntry) (attemptId : String) :
      WorkerMoves deps K C i (.claimed i entry attemptId) .claiming
        (C.setWorker i (.running ⟨deps, entry, attemptId⟩
          (UrlPipeline.run ⟨deps, entry, attemptId⟩)))
  | wait : WorkerMoves deps K C i (.waited i) .claiming (C.setWorker i .idle)
  | call {p : UrlPipeline} {oracle : (c : Call) → c.Answer} {fault : Option Bool} {c : Call}
      {k : c.Answer → Pipe Unit} (r : c.Answer) (l' : Ledger) :
      (∀ record, c ≠ .storeWrite record) →
      (l' = C.ledger ∨ ∃ m, c = .ledger m ∧ l' = (C.ledger.exec m).2) →
      WorkerMoves deps K C i (.answer i oracle fault) (.running p (.call c k))
        { C.setWorker i (.running p (k r)) with ledger := l' }
  | startWrite {p : UrlPipeline} {record : StoreRecord} {k : Except Error String → Pipe Unit}
      (t : Reading) :
      WorkerMoves deps K C i (.startWrite i t) (.running p (.call (.storeWrite record) k))
        { C.setWorker i (.storing p record C.store.tickets k) with
          store := K.write C.store record t }
  | finishWrite {p : UrlPipeline} {record : StoreRecord} {ticket : Nat}
      {k : Except Error String → Pipe Unit} {r : Except Error String} :
      writeResult C.store ticket = some r →
      WorkerMoves deps K C i (.finishWrite i) (.storing p record ticket k)
        (C.setWorker i (.running p (k r)))
  | finish {p : UrlPipeline} {a : Unit} :
      WorkerMoves deps K C i (.returned i) (.running p (.pure a)) (C.setWorker i .idle)

theorem workerMoves_of_step {i : Nat} {w : Worker} (hi : l.worker = some i)
    (h : C.workerStep deps K i w l = some C') : WorkerMoves deps K C i l w C' := by
  cases l with
  | poll j =>
    cases hi
    cases w with
    | idle =>
      cases h
      cases hs : C.shutdown
      · exact .claim
      · exact .stop hs
    | _ => cases h
  | claimed j entry attemptId =>
    cases hi
    cases w with
    | claiming => cases h; exact .begin entry attemptId
    | _ => cases h
  | waited j =>
    cases hi
    cases w with
    | claiming => cases h; exact .wait
    | _ => cases h
  | answer j oracle fault =>
    cases hi
    cases w with
    | running p prog =>
      cases prog with
      | pure a => cases h
      | call c k =>
        obtain ⟨r, l', rfl, hc, hl⟩ := answered_cases h
        exact .call r l' hc hl
    | _ => cases h
  | startWrite j t =>
    cases hi
    cases w with
    | running p prog =>
      cases prog with
      | pure a => cases h
      | call c k =>
        cases c with
        | storeWrite record => cases h; exact .startWrite t
        | _ => cases h
    | _ => cases h
  | finishWrite j =>
    cases hi
    cases w with
    | storing p record ticket k =>
      obtain ⟨r, hr, rfl⟩ := Option.map_eq_some_iff.1 h
      exact .finishWrite hr
    | _ => cases h
  | returned j =>
    cases hi
    cases w with
    | running p prog =>
      cases prog with
      | pure a => cases h; exact .finish
      | call c k => cases h
    | _ => cases h
  | _ => cases h

/-- The publisher's steps leave the workers and the store alone. -/
inductive PublisherMoves (C : Crawler F) : Label → Crawler F → Prop
  | check : C.publisher = .checking →
      PublisherMoves C .check { C with publisher := .publishing C.shutdown }
  | lease {last : Bool} {ids : List Nat} : C.publisher = .publishing last →
      ids = (C.ledger.outbox.leaseBatch [] batchSize).map OutboxRow.id →
      PublisherMoves C .lease { C with publisher := .shipping last ids }
  | shipped {last ok : Bool} {ids : List Nat} (next : PublisherTask) :
      C.publisher = .shipping last ids → (last = true → next = .done) →
      (last = false → next = .checking ∨ next = .sleeping) →
      PublisherMoves C (.shipped ok) { C with
        ledger := { C.ledger with
          outbox := C.ledger.outbox.markPublished (if ok then ids else []) }
        publisher := next }
  | rejected (url : CanonicalUrl) (runId : String) (depth : UInt32)
      (discoveredFrom : Option CanonicalUrl) :
      PublisherMoves C (.rejected url runId depth discoveredFrom) { C with
        ledger := (C.ledger.exec (.markDiscoveredSkipped url runId depth discoveredFrom .maxUrls)).2 }
  | wake (last : Bool) : C.publisher = .sleeping →
      PublisherMoves C .wake { C with publisher := if last then .publishing true else .checking }

theorem publisherMoves_of_step (h : C.publisherStep l = some C') : PublisherMoves C l C' := by
  cases l with
  | check =>
    simp only [publisherStep] at h
    split at h
    · rename_i hp; cases h; exact .check hp
    · cases h
  | lease =>
    simp only [publisherStep] at h
    split at h
    · rename_i last hp; cases h; exact .lease hp rfl
    · cases h
  | shipped ok =>
    simp only [publisherStep] at h
    split at h
    · rename_i last ids hp
      cases h
      refine .shipped _ hp (fun hl => by simp [hl]) fun hl => ?_
      simp only [hl, Bool.false_eq_true, if_false]
      exact ite_eq_or_eq _ _ _
    · cases h
  | rejected url runId depth discoveredFrom =>
    simp only [publisherStep] at h
    split at h
    · cases h; exact .rejected url runId depth discoveredFrom
    · cases h
  | wake =>
    simp only [publisherStep] at h
    split at h
    · rename_i hp; cases h; exact .wake C.shutdown hp
    · cases h
  | _ => cases h

/-- What a step can be: a worker's, the publisher's, a put, or the signal. -/
theorem step_cases (h : step deps K C l = some C') :
    (∃ i w, l.worker = some i ∧ C.workers[i]? = some w ∧ WorkerMoves deps K C i l w C') ∨
    PublisherMoves C l C' ∨
    (∃ j ok S, l = .put j ok ∧ Format.resume C.store j ok = some S ∧ C' = { C with store := S }) ∨
    (l = .signal ∧ C' = { C with shutdown := true }) := by
  unfold step at h
  split at h
  · rename_i i hi
    obtain ⟨w, hw, hst⟩ := Option.bind_eq_some_iff.1 h
    exact Or.inl ⟨i, w, hi, hw, workerMoves_of_step hi hst⟩
  · split at h
    · cases h
      exact Or.inr (Or.inr (Or.inr ⟨rfl, rfl⟩))
    · rename_i j ok _
      obtain ⟨S, hS, rfl⟩ := Option.map_eq_some_iff.1 h
      exact Or.inr (Or.inr (Or.inl ⟨j, ok, S, rfl, hS, rfl⟩))
    · exact Or.inr (Or.inl (publisherMoves_of_step h))

/-! ### One worker, one page -/

/-- A politeness layer that allows everything, a fetcher and a parser that find a page with one
link. -/
def sampleOracle (c : Call) : c.Answer := (linking (.ok "") .empty c).1

def sampleDeps : WorkerDeps := { WorkerDeps.sample with linkDispatch := .durableOutbox }

def sampleFormat : Format ParquetStore.ActiveFile ParquetStore.OwnedRow :=
  ParquetStore.format .sample {}

def sampleStart : Crawler ParquetStore.ActiveFile :=
  ⟨.empty, .empty, [.idle], .checking, false, fun _ => none⟩

theorem sampleStart_starts : Starts sampleDeps sampleStart :=
  ⟨rfl, by simp [sampleStart], rfl, rfl⟩

/-- Claim, politeness, `mark_attempting`, fetch, wake plan, parse. -/
def sampleFetch : List Label :=
  [.poll 0, .claimed 0 .seedA UrlPipeline.sampleA.attemptId] ++
    List.replicate 6 (.answer 0 sampleOracle none)

/-- The write of the page, which stays buffered, its commit and the ack; then the loop's check. -/
def sampleCommit : List Label :=
  [.startWrite 0 ⟨1700000000000, 0, 0⟩, .finishWrite 0] ++
    List.replicate 2 (.answer 0 sampleOracle none) ++ [.returned 0, .poll 0]

/-- The publisher's last batch. -/
def samplePublish : List Label := [.check, .lease, .shipped true]

/-- The page is committed before the signal: the last batch takes its link, and its file is still
open when everything has stopped. -/
def sampleExit : List Label := sampleFetch ++ sampleCommit.take 5 ++ [.signal, .poll 0] ++ samplePublish

end Crawler

end Crawlrs

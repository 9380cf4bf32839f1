import Crawlrs.L4Runtime.Crawler

/-!
# The ledger and the objects at the exit

A page is committed with the path its file will be put at; the file may still be
open. The documented shutdown is "worker drain, store flush, exit", but neither
`Crawler::run` nor the command flushes the store: a file that is open when the
workers have stopped goes with the process, and the ledger keeps pointing at it.

The ledger and the objects agree at the exit of every run that leaves no file open
(the last write of every shard was one that rotated) and opens every file at a path
of its own: `agree_at_exit`.
-/
namespace Crawlrs

open Prog (Log Safe Only safe_bind safe_perform safe_of_only)

variable {F ρ : Type} {deps : WorkerDeps} {K : Format F ρ}

namespace Crawler

/-- The record of a row: one that a pipeline of its URL wrote, with the hash of the row. -/
def RecordOf (u : String) (row : UrlRow) (record : StoreRecord) : Prop :=
  row.contentHash = some record.contentHash ∧
    ∃ (p : UrlPipeline) (resp : FetchResponse) (doc : ParsedDocument),
      p.url.asStr = u ∧ record = p.storeRecord resp doc

/-- The object at a path: this process's, else an earlier one's. -/
def objectAt (K : Format F ρ) (C : Crawler F) (path : String) : Option F :=
  (K.objectAt C.store path).or (C.objects path)

/-- Every row with status `Succeeded` has its record in the object at its path. -/
def Agree (K : Format F ρ) (C : Crawler F) : Prop :=
  ∀ u row, C.ledger.rows u = some row → row.status = .succeeded →
    ∃ path f record, row.blobPath = some path ∧ objectAt K C path = some f ∧
      K.row record ∈ K.contents f ∧ RecordOf u row record

def putsSucceed (_ : Crawler F) : Label → Bool
  | .put _ ok => ok
  | _ => true

/-- A graceful exit keeps the agreement. -/
def AgreeAtExit (deps : WorkerDeps) (K : Format F ρ) : Prop :=
  ∀ (C₀ C : Crawler F) (tr : List Label), Starts deps C₀ → Agree K C₀ →
    ((runs deps K).restrict fun C l => C.putsSucceed l).Steps C₀ tr C → Exited C → Agree K C

/-- A write that opens a file does so at a path with no object, earlier or to come. -/
def opensFresh (K : Format F ρ) (C : Crawler F) : Label → Bool
  | .startWrite i t => match C.workers[i]? with
    | some (.running _ (.call (.storeWrite record) _)) => decide (record.shard ∈ C.store.active) ||
        (decide ((record.shard, t.wallMs) ∉ C.store.opened) &&
          (C.objects (K.path record.shard t.wallMs)).isNone)
    | _ => true
  | _ => true

def allStopped (ws : List Worker) : Bool := ws.all Worker.isStopped

/-- The last worker stops where no file is open. -/
def closesLast (C : Crawler F) : Label → Bool
  | .poll i => !C.shutdown || !allStopped (C.workers.set i .stopped) || C.store.active.entries.isEmpty
  | _ => true

/-- The steps of a run that leaves no file open and opens each at a path of its own. -/
def tidy (K : Format F ρ) (C : Crawler F) (l : Label) : Bool :=
  C.putsSucceed l && C.opensFresh K l && C.closesLast l

/-! ## What a pipeline commits -/

/-- A pipeline as the writes that returned see it. -/
def storeWorld : World (List Returned) Call Call.Answer where
  env R R' := ∀ y ∈ R, y ∈ R'
  act R c r R' := (∀ y ∈ R, y ∈ R') ∧ match c, r with
    | .storeWrite record, .ok path => ∃ y ∈ R', y.record = record ∧ y.path = path
    | _, _ => True

/-- A commit carries the path a write of the URL's page returned. -/
def CommitsWritten (p : UrlPipeline) (R : List Returned) : Call → Prop
  | .ledger (.markSucceeded record) => record.url = p.url ∧ ∃ y ∈ R, y.path = record.blobPath ∧
      y.record.contentHash = record.contentHash ∧ ∃ resp doc, y.record = p.storeRecord resp doc
  | _ => True

section Pipeline

variable {p : UrlPipeline} {log : Log Call Call.Answer} {R : List Returned} {α : Type}

theorem safe_plain {q : Pipe α} (hq : Only Call.Plain q) :
    Safe storeWorld (fun _ R c => CommitsWritten p R c) (fun _ _ _ => True) q log R := by
  refine safe_of_only (P := fun _ _ => True) (fun _ _ _ _ _ => trivial) ?_
    (fun _ _ _ _ _ _ _ _ => trivial) hq trivial
  intro log R c hc _
  cases c with
  | ledger m => cases m <;> first | exact hc.elim | trivial
  | _ => trivial

/-- A call that is no commit. -/
theorem safe_other {c : Call} {post : c.Answer → Log Call Call.Answer → List Returned → Prop}
    (hc : ∀ R, CommitsWritten p R c) (h : ∀ r R', post r (⟨c, r⟩ :: log) R') :
    Safe storeWorld (fun _ R c => CommitsWritten p R c) post (await c) log R :=
  safe_perform (P := fun _ => True) (fun _ _ _ _ => trivial) trivial (fun R _ => hc R)
    fun _ r R' _ _ => h r R'

theorem safe_parseGeneric_commits (resp : FetchResponse) :
    Safe storeWorld (fun _ R c => CommitsWritten p R c) (fun _ _ _ => True) (p.parseGeneric resp)
      log R := by
  refine safe_bind (safe_other (fun _ => trivial) fun r R' => ?_)
  cases r with
  | ok doc => trivial
  | error e => exact safe_bind ((safe_plain (plain_failParse p _)).mono fun _ _ _ _ => trivial)

theorem safe_extract_commits (resp : FetchResponse) :
    Safe storeWorld (fun _ R c => CommitsWritten p R c) (fun _ _ _ => True) (p.extract resp) log R := by
  unfold UrlPipeline.extract
  split
  · exact safe_parseGeneric_commits resp
  · refine safe_bind (safe_other (fun _ => trivial) fun r R' => ?_)
    match r with
    | .ok (some doc) => trivial
    | .ok none => exact safe_parseGeneric_commits resp
    | .error e => exact safe_bind ((safe_plain (plain_failParse p _)).mono fun _ _ _ _ => trivial)

theorem safe_finalize_commits (resp : FetchResponse) (doc : ParsedDocument)
    (partition : OutboundPartition) :
    Safe storeWorld (fun _ R c => CommitsWritten p R c) (fun _ _ _ => True)
      (p.finalize resp doc partition) log R := by
  refine safe_bind (safe_perform (P := fun _ => True) (fun _ _ _ _ => trivial) trivial
    (fun _ _ => trivial) ?_)
  intro R₁ r R₂ _ ha
  cases r with
  | error e => exact safe_plain (plain_ack p)
  | ok blobPath =>
    obtain ⟨-, y, hy, hrec, hpath⟩ := ha
    refine safe_bind (safe_perform (P := fun R => y ∈ R) (fun _ _ h he => he y h) hy ?_ ?_)
    · intro R hyR
      exact ⟨rfl, y, hyR, hpath, by rw [hrec]; rfl, resp, doc, hrec⟩
    · intro _ r _ _ _
      exact safe_plain (plain_afterCommit p partition)

theorem safe_run_commits (p : UrlPipeline) (R : List Returned) :
    Safe storeWorld (fun _ R c => CommitsWritten p R c) (fun _ _ _ => True) p.run [] R := by
  refine safe_bind ((safe_plain (plain_politenessAllows p)).mono fun allowed _ _ _ => ?_)
  cases allowed with
  | false => trivial
  | true =>
    refine safe_bind ((safe_plain (plain_markAttempting p)).mono fun _ _ _ _ => ?_)
    refine safe_bind ((safe_plain (plain_fetch p)).mono fun resp _ _ _ => ?_)
    cases resp with
    | none => trivial
    | some resp =>
      refine safe_bind ((safe_extract_commits resp).mono fun doc _ _ _ => ?_)
      cases doc with
      | none => trivial
      | some doc => exact safe_finalize_commits resp doc _

end Pipeline

/-! ## Writes by their tickets -/

/-- The ticket of a write under way, with its record. -/
def callTicket : StoreCall F → Option (Nat × StoreRecord)
  | .write n record _ _ => some (n, record)
  | .flush _ => none

/-- All writes, under way and returned. -/
def ticketed (S : StoreState F) : List (Nat × StoreRecord) :=
  S.calls.filterMap callTicket ++ S.returned.map fun y => (y.ticket, y.record)

theorem ticketed_write (S : StoreState F) (record : StoreRecord) (t : Reading) :
    (ticketed (K.write S record t)).Perm ((S.tickets, record) :: ticketed S) ∧
      (K.write S record t).tickets = S.tickets + 1 := by
  simp only [Format.write]
  split
  · refine ⟨?_, rfl⟩
    simp only [ticketed, List.filterMap_append, List.filterMap_cons, callTicket, List.filterMap_nil,
      List.append_assoc, List.singleton_append]
    exact List.perm_middle
  · refine ⟨?_, rfl⟩
    simp only [ticketed, List.map_append, List.map_cons, List.map_nil, ← List.append_assoc]
    exact List.perm_append_singleton _ _

theorem callTickets_perm {S : StoreState F} {j : Nat} {c : StoreCall F} (h : S.calls[j]? = some c) :
    ((callTicket c).toList ++ (S.calls.eraseIdx j).filterMap callTicket).Perm
      (S.calls.filterMap callTicket) := by
  obtain ⟨hj, rfl⟩ := List.getElem?_eq_some_iff.1 h
  have hcalls := (List.getElem_cons_eraseIdx_perm hj).filterMap callTicket
  cases hc : callTicket S.calls[j] <;> simpa [List.filterMap_cons, hc] using hcalls

/-- A put that succeeds returns its write; the tickets stay. -/
theorem ticketed_put {S S' : StoreState F} {j : Nat} (h : Format.resume S j true = some S') :
    (ticketed S').Perm (ticketed S) ∧ S'.tickets = S.tickets := by
  unfold Format.resume at h
  split at h
  · cases h
  · rename_i n record planned file hc
    cases h
    refine ⟨?_, rfl⟩
    simp only [ticketed, if_true, List.map_append, List.map_cons, List.map_nil]
    refine .trans ?_ ((callTickets_perm hc).append_right _)
    rw [← List.append_assoc]
    exact List.perm_append_singleton _ _
  · rename_i hc
    cases h
    exact ⟨(callTickets_perm hc).append_right _, rfl⟩
  · rename_i x rest hc
    cases h
    refine ⟨?_, rfl⟩
    obtain ⟨hj, -⟩ := List.getElem?_eq_some_iff.1 hc
    have hset := (List.set_perm_cons_eraseIdx hj (StoreCall.flush rest)).filterMap callTicket
    exact (hset.trans (callTickets_perm hc)).append_right _

structure Tickets (S : StoreState F) : Prop where
  nodup : ((ticketed S).map Prod.fst).Nodup
  lt : ∀ x ∈ ticketed S, x.1 < S.tickets

theorem Tickets.write {S : StoreState F} (h : Tickets S) (record : StoreRecord) (t : Reading) :
    Tickets (K.write S record t) := by
  obtain ⟨hperm, hnext⟩ := ticketed_write (K := K) S record t
  refine ⟨(hperm.map _).nodup_iff.2 ?_, fun x hx => ?_⟩
  · rw [List.map_cons, List.nodup_cons]
    refine ⟨fun hm => ?_, h.nodup⟩
    obtain ⟨x, hx, he⟩ := List.mem_map.1 hm
    exact absurd (h.lt x hx) (by simp [he])
  · rw [hnext]
    rcases List.mem_cons.1 (hperm.mem_iff.1 hx) with rfl | hx
    · exact Nat.lt_succ_self _
    · exact Nat.lt_succ_of_lt (h.lt x hx)

theorem Tickets.put {S S' : StoreState F} {j : Nat} (h : Tickets S)
    (hr : Format.resume S j true = some S') : Tickets S' := by
  obtain ⟨hperm, hnext⟩ := ticketed_put hr
  exact ⟨(hperm.map _).nodup_iff.2 h.nodup, fun x hx => hnext ▸ h.lt x (hperm.mem_iff.1 hx)⟩

/-- A write that has ended is not under way. -/
theorem Tickets.ended {S : StoreState F} (h : Tickets S) {n : Nat} {r : Except Error String}
    (hr : writeResult S n = some r) {record : StoreRecord} {planned : String} {file : F} :
    StoreCall.write n record planned file ∉ S.calls := by
  intro hmem
  have hcall : (n, record) ∈ S.calls.filterMap callTicket :=
    List.mem_filterMap.2 ⟨_, hmem, rfl⟩
  unfold writeResult at hr
  split at hr
  · rename_i y hy
    have hn : y.ticket = n := by simpa using List.find?_some hy
    have hret : y.ticket ∈ (S.returned.map fun y => (y.ticket, y.record)).map Prod.fst :=
      List.mem_map_of_mem (List.mem_map_of_mem (List.mem_of_find?_eq_some hy))
    have hnd := h.nodup
    rw [ticketed, List.map_append, List.nodup_append] at hnd
    exact hnd.2.2 n (List.mem_map_of_mem hcall) y.ticket hret hn.symm
  · split at hr
    · cases hr
    · rename_i hany
      exact hany (List.any_eq_true.2 ⟨_, hmem, by simp⟩)

/-! ## The invariant of a run -/

/-- What a worker has still to do commits only what was written. -/
def WorkerSafe (R : List Returned) : Worker → Prop
  | .running p prog => ∃ log,
      Safe storeWorld (fun _ R c => CommitsWritten p R c) (fun _ _ _ => True) prog log R
  | .storing p record _ k => ∃ log, Safe storeWorld (fun _ R c => CommitsWritten p R c)
      (fun _ _ _ => True) (.call (.storeWrite record) k) log R
  | _ => True

/-- A worker inside a write holds the ticket of that write. -/
def WorkerHolds (S : StoreState F) : Worker → Prop
  | .storing _ record n _ => n < S.tickets ∧ ∀ x ∈ ticketed S, x.1 = n → x.2 = record
  | _ => True

def ticketOf : Worker → Option Nat
  | .storing _ _ n _ => some n
  | _ => none

/-- The row is an earlier one with its object, or commits a write that returned. -/
def Justified (K : Format F ρ) (C : Crawler F) (u : String) (row : UrlRow) : Prop :=
  (∃ path f record, row.blobPath = some path ∧ C.objects path = some f ∧
    K.row record ∈ K.contents f ∧ RecordOf u row record) ∨
  ∃ y ∈ C.store.returned, row.blobPath = some y.path ∧ RecordOf u row y.record

structure Inv (K : Format F ρ) (C : Crawler F) : Prop where
  store : (K.runs.restrict Format.Orderly).Reachable C.store
  fresh : ∀ k ∈ C.store.opened, C.objects (K.path k.1 k.2) = none
  tickets : Tickets C.store
  /-- A call under way in the store is a write, and some worker waits for it. -/
  waited : ∀ c ∈ C.store.calls, ∃ (n : Nat) (record : StoreRecord) (planned : String) (file : F),
    c = .write n record planned file ∧
      ∃ (j : Nat) (w : Worker), C.workers[j]? = some w ∧ ticketOf w = some n
  holds : ∀ w ∈ C.workers, WorkerHolds C.store w
  safe : ∀ w ∈ C.workers, WorkerSafe C.store.returned w
  rows : ∀ u row, C.ledger.rows u = some row → row.status = .succeeded → Justified K C u row
  closed : allStopped C.workers = true → C.store.active = ∅

theorem WorkerSafe.mono {R R' : List Returned} (hR : ∀ y ∈ R, y ∈ R') {w : Worker}
    (h : WorkerSafe R w) : WorkerSafe R' w := by
  cases w with
  | running p prog =>
    obtain ⟨log, hs⟩ := h
    exact ⟨log, hs.env (fun _ _ _ _ _ _ => trivial) hR⟩
  | storing p record n k =>
    obtain ⟨log, hs⟩ := h
    exact ⟨log, hs.env (fun _ _ _ _ _ _ => trivial) hR⟩
  | _ => trivial

theorem Justified.mono {C C' : Crawler F} (ho : C'.objects = C.objects)
    (hR : ∀ y ∈ C.store.returned, y ∈ C'.store.returned) {u : String} {row : UrlRow}
    (h : Justified K C u row) : Justified K C' u row := by
  rcases h with ⟨path, f, record, hp, hf, hrest⟩ | ⟨y, hy, hrest⟩
  · exact Or.inl ⟨path, f, record, hp, by rw [ho, hf], hrest⟩
  · exact Or.inr ⟨y, hR y hy, hrest⟩

/-- While a worker is not stopped, not all are. -/
theorem not_allStopped_set {ws : List Worker} {i : Nat} (hi : i < ws.length) {w : Worker}
    (hw : w.isStopped = false) : allStopped (ws.set i w) = false := by
  rw [allStopped, List.all_eq_false]
  exact ⟨w, List.mem_set hi w, by simp [hw]⟩

section Inv

variable {C C' : Crawler F} {l : Label}

/-- A worker moves on without touching the store. -/
theorem Inv.setWorker {i : Nat} {w w' : Worker} {l' : Ledger} (h : Inv K C)
    (hw : C.workers[i]? = some w) (hended : ∀ n, ticketOf w = some n → ∀ record planned file,
      StoreCall.write n record planned file ∉ C.store.calls)
    (hholds : WorkerHolds C.store w') (hsafe : WorkerSafe C.store.returned w')
    (hclosed : w'.isStopped = true → allStopped (C.workers.set i w') = true → C.store.active = ∅)
    (hrows : ∀ u row, l'.rows u = some row → row.status = .succeeded → Justified K C u row) :
    Inv K { C.setWorker i w' with ledger := l' } where
  store := h.store
  fresh := h.fresh
  tickets := h.tickets
  waited c hc := by
    obtain ⟨n, record, planned, file, rfl, j, v, hv, hn⟩ := h.waited c hc
    have hji : i ≠ j := by
      rintro rfl
      rw [hw] at hv
      cases hv
      exact hended n hn _ _ _ hc
    exact ⟨n, record, planned, file, rfl, j, v, by simpa [Crawler.setWorker, hji] using hv, hn⟩
  holds v hv := by
    rcases List.mem_or_eq_of_mem_set hv with hv | rfl
    · exact h.holds v hv
    · exact hholds
  safe v hv := by
    rcases List.mem_or_eq_of_mem_set hv with hv | rfl
    · exact h.safe v hv
    · exact hsafe
  rows := hrows
  closed hall := by
    cases hs : w'.isStopped with
    | true => exact hclosed hs hall
    | false =>
      have hi : i < C.workers.length := (List.getElem?_eq_some_iff.1 hw).1
      exact absurd hall (by simp [Crawler.setWorker, not_allStopped_set hi hs])

/-- The ledger after a call of a worker. -/
theorem Inv.rows_call (h : Inv K C) {p : UrlPipeline} {c : Call} {l' : Ledger}
    (hc : CommitsWritten p C.store.returned c)
    (hl : l' = C.ledger ∨ ∃ m, c = .ledger m ∧ l' = (C.ledger.exec m).2) :
    ∀ u row, l'.rows u = some row → row.status = .succeeded → Justified K C u row := by
  intro u row hrow hs
  rcases hl with rfl | ⟨m, rfl, rfl⟩
  · exact h.rows u row hrow hs
  · rcases Ledger.exec_succeeded hrow hs with hold | ⟨record, rfl, rfl, hpath, hhash⟩
    · exact h.rows u row hold hs
    · obtain ⟨hurl, y, hy, hyp, hyh, resp, doc, hrec⟩ := hc
      exact Or.inr ⟨y, hy, by rw [hpath, hyp], by rw [hhash, hyh], p, resp, doc, by rw [hurl], hrec⟩

theorem write_opened (S : StoreState F) (record : StoreRecord) (t : Reading) :
    (K.write S record t).opened =
      if record.shard ∈ S.active then S.opened else (record.shard, t.wallMs) :: S.opened := by
  simp only [Format.write]
  split <;> rfl

theorem mem_write_calls {S : StoreState F} {record : StoreRecord} {t : Reading} {c : StoreCall F}
    (h : c ∈ (K.write S record t).calls) :
    c ∈ S.calls ∨ ∃ planned file, c = .write S.tickets record planned file := by
  simp only [Format.write] at h
  split at h
  · rcases List.mem_append.1 h with h | h
    · exact Or.inl h
    · exact Or.inr ⟨_, _, List.mem_singleton.1 h⟩
  · exact Or.inl h

/-- A write gives its worker a ticket that no other has. -/
theorem WorkerHolds.write {S : StoreState F} {record : StoreRecord} {t : Reading} {w : Worker}
    (h : WorkerHolds S w) : WorkerHolds (K.write S record t) w := by
  obtain ⟨hperm, hnext⟩ := ticketed_write (K := K) S record t
  cases w with
  | storing p record' n k =>
    refine ⟨by rw [hnext]; exact Nat.lt_succ_of_lt h.1, fun x hx hn => ?_⟩
    rcases List.mem_cons.1 (hperm.mem_iff.1 hx) with rfl | hx
    · exact absurd h.1 (by simp [← hn])
    · exact h.2 x hx hn
  | _ => trivial

theorem Tickets.holds {S : StoreState F} (h : Tickets S) (p : UrlPipeline) (record : StoreRecord)
    (k : Except Error String → Pipe Unit) (t : Reading) :
    WorkerHolds (K.write S record t) (.storing p record S.tickets k) := by
  obtain ⟨hperm, hnext⟩ := ticketed_write (K := K) S record t
  refine ⟨by rw [hnext]; exact Nat.lt_succ_self _, fun x hx hn => ?_⟩
  rcases List.mem_cons.1 (hperm.mem_iff.1 hx) with rfl | hx
  · rfl
  · exact absurd (h.lt x hx) (by simp [hn])

/-- A worker enters a write. -/
theorem Inv.startWrite {i : Nat} {p : UrlPipeline} {record : StoreRecord}
    {k : Except Error String → Pipe Unit} {t : Reading} (h : Inv K C)
    (hw : C.workers[i]? = some (.running p (.call (.storeWrite record) k)))
    (hfresh : record.shard ∉ C.store.active → (record.shard, t.wallMs) ∉ C.store.opened ∧
      C.objects (K.path record.shard t.wallMs) = none) :
    Inv K { C.setWorker i (.storing p record C.store.tickets k) with
      store := K.write C.store record t } := by
  have hmono : ∀ y ∈ C.store.returned, y ∈ (K.write C.store record t).returned :=
    fun y hy => Format.returned_mono (.write C.store record t) hy
  have hi : i < C.workers.length := (List.getElem?_eq_some_iff.1 hw).1
  refine ⟨?_, ?_, h.tickets.write record t, ?_, ?_, ?_, ?_, ?_⟩
  · have hok : Format.Orderly C.store (.write record t) := ⟨trivial, fun hm => (hfresh hm).1⟩
    exact .step h.store ⟨hok, .write C.store record t⟩
  · intro x hx
    simp only [write_opened] at hx
    split at hx
    · exact h.fresh x hx
    · rename_i hact
      rcases List.mem_cons.1 hx with rfl | hx
      · exact (hfresh hact).2
      · exact h.fresh x hx
  · intro c hc
    rcases mem_write_calls hc with hc | ⟨planned, file, rfl⟩
    · obtain ⟨n, record', planned, file, rfl, j, v, hv, hn⟩ := h.waited c hc
      have hji : i ≠ j := by
        rintro rfl
        rw [hw] at hv
        cases hv
        cases hn
      exact ⟨n, record', planned, file, rfl, j, v, by simpa [Crawler.setWorker, hji] using hv, hn⟩
    · exact ⟨_, record, planned, file, rfl, i, .storing p record C.store.tickets k,
        by simp [Crawler.setWorker, hi], rfl⟩
  · intro v hv
    rcases List.mem_or_eq_of_mem_set hv with hv | rfl
    · exact (h.holds v hv).write
    · exact h.tickets.holds p record k t
  · intro v hv
    rcases List.mem_or_eq_of_mem_set hv with hv | rfl
    · exact (h.safe v hv).mono hmono
    · obtain ⟨log, hsafe⟩ := h.safe _ (List.mem_of_getElem? hw)
      exact ⟨log, hsafe.env (fun _ _ _ _ _ _ => trivial) hmono⟩
  · intro u row hrow hs
    refine (h.rows u row hrow hs).mono ?_ hmono
    rfl
  · intro hall
    exact absurd hall (by simp [Crawler.setWorker, not_allStopped_set hi (w := .storing p record _ k) rfl])

theorem storeWorld_act_other {R : List Returned} {c : Call} (hc : ∀ record, c ≠ .storeWrite record)
    (r : c.Answer) : storeWorld.act R c r R := by
  refine ⟨fun _ h => h, ?_⟩
  cases c with
  | storeWrite record => exact absurd rfl (hc record)
  | _ => trivial

/-- A write that ended well returned its own record. -/
theorem storeWorld_act_ended {S : StoreState F} {p : UrlPipeline} {record : StoreRecord} {n : Nat}
    {k : Except Error String → Pipe Unit} {r : Except Error String}
    (h : WorkerHolds S (.storing p record n k)) (hr : writeResult S n = some r) :
    storeWorld.act S.returned (.storeWrite record) r S.returned := by
  refine ⟨fun _ h => h, ?_⟩
  unfold writeResult at hr
  split at hr
  · rename_i y hy
    cases hr
    have hmem : y ∈ S.returned := List.mem_of_find?_eq_some hy
    have hn : y.ticket = n := by simpa using List.find?_some hy
    exact ⟨y, hmem, h.2 (y.ticket, y.record)
      (List.mem_append_right _ (List.mem_map_of_mem hmem)) hn, rfl⟩
  · split at hr
    · cases hr
    · cases hr
      trivial

theorem Inv.worker {i : Nat} {w : Worker} (h : Inv K C) (hw : C.workers[i]? = some w)
    (hfresh : C.opensFresh K l = true) (hclose : C.closesLast l = true)
    (hm : WorkerMoves deps K C i l w C') : Inv K C' := by
  have hmem : w ∈ C.workers := List.mem_of_getElem? hw
  cases hm with
  | stop hsig =>
    refine h.setWorker hw (fun n hn => by cases hn) trivial trivial (fun _ hall => ?_) h.rows
    exact AList.ext (by simpa [closesLast, hsig, hall] using hclose)
  | call r l' hc hl =>
    obtain ⟨log, hsafe⟩ := h.safe _ hmem
    obtain ⟨hok, hk⟩ := hsafe _ .refl
    refine h.setWorker hw (fun n hn => by cases hn) trivial ?_ (fun hs => by cases hs)
      (h.rows_call hok hl)
    exact ⟨_, hk r _ (storeWorld_act_other hc r)⟩
  | startWrite t =>
    refine h.startWrite hw fun hact => ?_
    simpa [opensFresh, hw, hact] using hfresh
  | finishWrite hr =>
    obtain ⟨log, hsafe⟩ := h.safe _ hmem
    obtain ⟨-, hk⟩ := hsafe _ .refl
    refine h.setWorker hw (fun n hn => ?_) trivial ?_ (fun hs => by cases hs) h.rows
    · cases hn
      exact fun _ _ _ => h.tickets.ended hr
    · exact ⟨_, hk _ _ (storeWorld_act_ended (h.holds _ hmem) hr)⟩
  | begin entry attemptId =>
    exact h.setWorker hw (fun n hn => by cases hn) trivial ⟨[], safe_run_commits _ _⟩
      (fun hs => by cases hs) h.rows
  | _ =>
    exact h.setWorker hw (fun n hn => by cases hn) trivial trivial (fun hs => by cases hs) h.rows

/-- Ledger, publisher and flag change; what the new rows stand for is shown apart. -/
theorem Inv.congr (h : Inv K C) (hstore : C'.store = C.store) (hworkers : C'.workers = C.workers)
    (hobjects : C'.objects = C.objects) (hrows : ∀ u row, C'.ledger.rows u = some row →
      row.status = .succeeded → C.ledger.rows u = some row) : Inv K C' where
  store := hstore ▸ h.store
  fresh := by rw [hstore, hobjects]; exact h.fresh
  tickets := hstore ▸ h.tickets
  waited := by rw [hstore, hworkers]; exact h.waited
  holds := by rw [hstore, hworkers]; exact h.holds
  safe := by rw [hstore, hworkers]; exact h.safe
  rows u row hrow hs := by
    refine (h.rows u row (hrows u row hrow hs) hs).mono hobjects ?_
    rw [hstore]
    exact fun _ hy => hy
  closed := by rw [hstore, hworkers]; exact h.closed

theorem Inv.publisher (h : Inv K C) (hm : PublisherMoves C l C') : Inv K C' := by
  cases hm with
  | rejected url runId depth discoveredFrom =>
    refine h.congr rfl rfl rfl fun u row hrow hs => ?_
    rcases Ledger.exec_succeeded hrow hs with hold | ⟨record, hc, -⟩
    · exact hold
    · cases hc
  | _ => exact h.congr rfl rfl rfl fun _ _ hrow _ => hrow

/-- A put of a run without flushes is the one a write waits for. -/
theorem Inv.resume_write (h : Inv K C) {j : Nat} {S : StoreState F}
    (hS : Format.resume C.store j true = some S) : ∃ n record planned file,
      S = { C.store with
        calls := C.store.calls.eraseIdx j
        puts := ⟨record.shard, file⟩ :: C.store.puts
        returned := C.store.returned ++ [⟨n, record, planned⟩] } := by
  unfold Format.resume at hS
  split at hS
  · cases hS
  · cases hS
    exact ⟨_, _, _, _, rfl⟩
  all_goals
    rename_i hc
    obtain ⟨n, record, planned, file, he, -⟩ := h.waited _ (List.mem_of_getElem? hc)
    cases he

theorem WorkerHolds.put {S S' : StoreState F} {j : Nat} {w : Worker} (h : WorkerHolds S w)
    (hr : Format.resume S j true = some S') : WorkerHolds S' w := by
  obtain ⟨hperm, hnext⟩ := ticketed_put hr
  cases w with
  | storing p record n k =>
    exact ⟨by rw [hnext]; exact h.1, fun x hx hn => h.2 x (hperm.mem_iff.1 hx) hn⟩
  | _ => trivial

theorem Inv.put (h : Inv K C) {j : Nat} {S : StoreState F}
    (hS : Format.resume C.store j true = some S) : Inv K { C with store := S } := by
  have hmono : ∀ y ∈ C.store.returned, y ∈ S.returned :=
    fun y hy => Format.returned_mono (K := K) (.resume hS) hy
  have hok : Format.Orderly C.store (.resume j true) := ⟨rfl, trivial⟩
  have htickets := h.tickets.put hS
  have hholds : ∀ w ∈ C.workers, WorkerHolds S w := fun w hw => (h.holds w hw).put hS
  have hstore : (K.runs.restrict Format.Orderly).Reachable S := .step h.store ⟨hok, .resume hS⟩
  obtain ⟨n, record, planned, file, rfl⟩ := h.resume_write hS
  refine ⟨hstore, h.fresh, htickets, ?_, hholds, fun w hw => (h.safe w hw).mono hmono, ?_, h.closed⟩
  · exact fun c hc => h.waited c (List.mem_of_mem_eraseIdx hc)
  · intro u row hrow hs
    refine (h.rows u row hrow hs).mono ?_ hmono
    rfl

theorem Inv.step (h : Inv K C) (ht : C.tidy K l = true) (hst : step deps K C l = some C') :
    Inv K C' := by
  simp only [tidy, Bool.and_eq_true] at ht
  obtain ⟨⟨hputs, hfresh⟩, hclose⟩ := ht
  rcases step_cases hst with ⟨i, w, -, hw, hm⟩ | hm | ⟨j, ok, S, rfl, hS, rfl⟩ | ⟨rfl, rfl⟩
  · exact h.worker hw hfresh hclose hm
  · exact h.publisher hm
  · have hok : ok = true := hputs
    subst hok
    exact h.put hS
  · exact h.congr rfl rfl rfl fun _ _ hrow _ => hrow

theorem Inv.start (h0 : Starts deps C) (ha : Agree K C) : Inv K C := by
  obtain ⟨hstore, hidle, -, -⟩ := h0
  refine ⟨?_, ?_, ⟨?_, ?_⟩, ?_, ?_, ?_, ?_, ?_⟩
  · exact .init hstore
  · simp [hstore, StoreState.empty]
  · simp [hstore, StoreState.empty, ticketed]
  · simp [hstore, StoreState.empty, ticketed]
  · simp [hstore, StoreState.empty]
  · intro w hw
    rw [hidle w hw]
    trivial
  · intro w hw
    rw [hidle w hw]
    trivial
  · intro u row hrow hs
    obtain ⟨path, f, record, hp, hf, hrest⟩ := ha u row hrow hs
    have hf : C.objects path = some f := by
      simpa [objectAt, Format.objectAt, hstore, StoreState.empty] using hf
    exact Or.inl ⟨path, f, record, hp, hf, hrest⟩
  · intro _
    rw [hstore]
    rfl

/-! ## At the exit -/

/-- With every worker stopped, no call is under way and nothing is buffered. -/
theorem Inv.drained (h : Inv K C) (hexit : Exited C) : Format.Drained C.store := by
  refine ⟨h.closed (List.all_eq_true.2 hexit.2.1), List.eq_nil_iff_forall_not_mem.2 fun c hc => ?_⟩
  obtain ⟨n, record, planned, file, rfl, j, w, hw, hn⟩ := h.waited c hc
  have hstopped := hexit.2.1 w (List.mem_of_getElem? hw)
  cases w with
  | storing p record n k => cases hstopped
  | _ => cases hn

/-- A put of this process is at a path that had no object. -/
theorem Inv.objectAt_earlier (h : Inv K C) {path : String} {f : F} (hf : C.objects path = some f) :
    K.objectAt C.store path = none := by
  have hfiled := (Format.inductive_filed.reachable C.store h.store).2
  rw [Format.objectAt, Option.map_eq_none_iff, List.find?_eq_none]
  intro x hx hpath
  have hplace : (x, []) ∈ (K.filing C.store).places := by
    simp [Format.filing, Format.settled, hx]
  have hnone := h.fresh _ (hfiled.opened _ hplace)
  have hxp : K.path x.1 (K.windowStartMs x.2) = path := by simpa [Format.pathOf] using hpath
  simp only [hxp, hf] at hnone
  cases hnone

theorem Inv.agree (h : Inv K C) (hexit : Exited C) : Agree K C := by
  intro u row hrow hs
  rcases h.rows u row hrow hs with ⟨path, f, record, hp, hf, hrest⟩ | ⟨y, hy, hp, hrec⟩
  · exact ⟨path, f, record, hp, by rw [objectAt, h.objectAt_earlier hf, Option.none_or, hf], hrest⟩
  · have hfiled := (Format.inductive_filed.reachable C.store h.store).2
    obtain ⟨f, hf, hrows⟩ := hfiled.complete (h.drained hexit) hy
    refine ⟨y.path, f, y.record, hp, by rw [objectAt, hf, Option.some_or], ?_, hrec⟩
    rw [hrows, Format.rowsAt]
    exact List.mem_map_of_mem (List.mem_filter.2 ⟨hy, by simp⟩)

end Inv

end Crawler

open Crawler

/-- In every run that opens each file at a path of its own, and whose last worker stops where no
file is open, every row with status `Succeeded` has its record in the object at its path when the
process exits. -/
theorem agree_at_exit (deps : WorkerDeps) (K : Format F ρ) (C₀ C : Crawler F) (tr : List Label)
    (h0 : Starts deps C₀) (ha : Agree K C₀)
    (hst : ((runs deps K).restrict fun C l => C.tidy K l = true).Steps C₀ tr C) (hexit : Exited C) :
    Agree K C := by
  have hstep : ∀ C l C', Inv K C → ((runs deps K).restrict fun C l => C.tidy K l = true).step C l C' →
      Inv K C' := fun _ _ _ h hs => h.step hs.1 hs.2
  have hinv := hst.stable hstep (Inv.start h0 ha)
  exact hinv.agree hexit

/-- Files of one row: the page's file is uploaded before its commit. -/
def rotatingRun : List Label :=
  sampleFetch ++ [.startWrite 0 ⟨1700000000000, 0, 0⟩, .put 0 true, .finishWrite 0] ++
    List.replicate 2 (.answer 0 sampleOracle none) ++ [.returned 0, .signal, .poll 0] ++ samplePublish

def rotatingFormat : Format ParquetStore.ActiveFile ParquetStore.OwnedRow :=
  ParquetStore.format .sample { maxRows := 1 }

theorem agree_at_exit_rotating :
    ((LTS.replay (step sampleDeps rotatingFormat) sampleStart rotatingRun).ledger.rows
      UrlPipeline.sampleA.url.asStr).map UrlRow.status = some .succeeded ∧
    Agree rotatingFormat (LTS.replay (step sampleDeps rotatingFormat) sampleStart rotatingRun) :=
  ⟨by decide +kernel, agree_at_exit sampleDeps rotatingFormat sampleStart _ rotatingRun
    sampleStart_starts (fun _ _ hrow => by cases hrow)
    (LTS.restrict_steps_replay (by decide +kernel)) (by decide +kernel)⟩

theorem not_agreeAtExit : ¬ AgreeAtExit sampleDeps sampleFormat := by
  intro h
  have hagree := h sampleStart _ sampleExit sampleStart_starts (fun _ _ hrow => by cases hrow)
    (LTS.restrict_steps_replay (by decide +kernel)) (by decide +kernel)
  have hrow : ((LTS.replay (step sampleDeps sampleFormat) sampleStart sampleExit).ledger.rows
      UrlPipeline.sampleA.url.asStr).map UrlRow.status = some .succeeded := by decide +kernel
  obtain ⟨row, hrow, hs⟩ := Option.map_eq_some_iff.1 hrow
  obtain ⟨path, f, record, -, hf, -⟩ := hagree _ row hrow hs
  have hputs : (LTS.replay (step sampleDeps sampleFormat) sampleStart sampleExit).store.puts = [] := by
    decide +kernel
  have hobjects : (LTS.replay (step sampleDeps sampleFormat) sampleStart sampleExit).objects =
    fun _ => none := rfl
  simp [objectAt, Format.objectAt, hputs, hobjects] at hf

end Crawlrs

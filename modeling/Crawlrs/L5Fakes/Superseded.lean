import Crawlrs.L5Fakes.Metadata

/-!
# Two deliveries of one URL at a time

A lease that expires while its worker is busy gives the URL to a second worker, and
the two pipelines run over the same row. Nothing but the history of a success
carries an attempt id: every other transition is unconditional, by its
documentation ("otherwise updates `status -> InProgress`", "last-write-wins on every
mutable field"), so a success does not end the row's life.

An `Overlap` is the two runs interleaved at their calls over either store, each
answered as the environment likes, with a journal of the transitions of the row that
were committed.

* `inductive_inv`: the row shows the last entry of the journal, and no delivery has
  an entry after its own success.
* `finished_status`: after a success, the row is what the other delivery made of it.
* `not_staysFinished`: a fetch that fails after the other delivery's ack.
-/
namespace Crawlrs

open Prog (Only After only_perform after_bind after_perform_bind after_of_only)

variable {S : Type} {u : String}

/-! ## No transition after the commit -/

def Call.IsCommit : Call → Prop
  | .ledger (.markSucceeded _) => True
  | _ => False

/-- Not a transition of a row. -/
def Call.Keeps : Call → Prop
  | .ledger c => c.isSkip
  | _ => True

theorem Call.not_isCommit_of_in {ks : List CallKind} (h : .succeeded ∉ ks) (c : Call)
    (hc : c.In ks) : ¬ c.IsCommit := by
  intro hcommit
  cases c with
  | ledger c =>
    cases c with
    | markSucceeded record => exact h hc
    | _ => exact hcommit
  | _ => exact hcommit

theorem Call.keeps_of_in {ks : List CallKind}
    (h : ∀ k ∈ ks, k ∉ [.attempting, .succeeded, .failed, .permanentlyFailed]) (c : Call)
    (hc : c.In ks) : c.Keeps := by
  have hk := h _ hc
  cases c with
  | ledger c =>
    cases c with
    | markDiscoveredSkipped url runId depth discoveredFrom reason => rfl
    | _ => simp [Call.kind] at hk
  | _ => trivial

section Phases

variable (p : UrlPipeline)

theorem commitLast_finalize (resp : FetchResponse) (doc : ParsedDocument)
    (partition : OutboundPartition) :
    After Call.IsCommit Call.Keeps (p.finalize resp doc partition) := by
  refine after_bind (only_perform id) fun r => ?_
  cases r with
  | error e => exact after_of_only ((kinds_ack p).mono (Call.keeps_of_in (by decide)))
  | ok blobPath =>
    exact after_perform_bind fun _ => (kinds_afterCommit p partition).mono
      (Call.keeps_of_in (by decide))

/-- A delivery makes no transition after `mark_succeeded`. -/
theorem commitLast_run : After Call.IsCommit Call.Keeps p.run := by
  refine after_bind ((kinds_politenessAllows p).mono (Call.not_isCommit_of_in (by decide)))
    fun allowed => ?_
  cases allowed with
  | false => trivial
  | true =>
    refine after_bind ((kinds_markAttempting p).mono (Call.not_isCommit_of_in (by decide)))
      fun _ => ?_
    refine after_bind ((kinds_fetch p).mono (Call.not_isCommit_of_in (by decide))) fun r => ?_
    cases r with
    | none => trivial
    | some resp =>
      refine after_bind ((kinds_extract p resp).mono (Call.not_isCommit_of_in (by decide)))
        fun r => ?_
      cases r with
      | none => trivial
      | some doc => exact commitLast_finalize p _ _ _

end Phases

/-! ## The two runs -/

/-- `journal` lists the transitions of the row as they were committed, `acked` the deliveries whose
ack was answered `Ok`. -/
structure Overlap (S : Type) where
  store : S
  progs : Bool → Pipe Unit
  journal : List (Bool × Ledger.Call)
  acked : List Bool

namespace Overlap

/-- What the environment decides. `fault` of a ledger call: answered by the store (`none`), or an
error with the transaction committed or not. -/
inductive Label
  | answer (i : Bool) (oracle : (c : Call) → c.Answer) (fault : Option Bool)
  | other (c : Ledger.Call)

/-- The answered call moved the row of `u`. -/
def Moved (u : String) (c : Ledger.Call) (r : c.Answer) : Prop :=
  c.url.asStr = u ∧ c.isSkip = false ∧ c.failed r = false

instance (u : String) (c : Ledger.Call) (r : c.Answer) : Decidable (Moved u c r) :=
  inferInstanceAs (Decidable (_ ∧ _))

def resume (T : Overlap S) (i : Bool) (p : Pipe Unit) : Overlap S :=
  { T with progs := Function.update T.progs i p }

variable (K : MetadataStore S) (u : String)

/-- The store takes the call of delivery `i`. -/
def commit (T : Overlap S) (i : Bool) (c : Ledger.Call) : Overlap S :=
  { T with
    store := (K.exec T.store c).2
    journal := if Moved u c (K.exec T.store c).1 then T.journal ++ [(i, c)] else T.journal }

def answered (T : Overlap S) (i : Bool) (oracle : (c : Call) → c.Answer) (fault : Option Bool) :
    (c : Call) → (c.Answer → Pipe Unit) → Option (Overlap S)
  | .ledger c, k =>
    match fault with
    | none => some ((T.commit K u i c).resume i (k (K.exec T.store c).1))
    | some committed =>
      if c.failed (oracle (.ledger c)) then
        some ((if committed then T.commit K u i c else T).resume i (k (oracle (.ledger c))))
      else none
  | c, k => some { T.resume i (k (oracle c)) with
      acked := if Crawlrs.acked c (oracle c) then T.acked ++ [i] else T.acked }

/-- The others make no transition of `u`: its two deliveries are these. -/
def step (T : Overlap S) : Label → Option (Overlap S)
  | .answer i oracle fault => match T.progs i with
    | .pure _ => none
    | .call c k => T.answered K u i oracle fault c k
  | .other c =>
    if c.url.asStr = u → c.isSkip then some { T with store := (K.exec T.store c).2 } else none

variable {u}

def start (d : Bool → Delivery u) (s : S) : Overlap S := ⟨s, fun i => (d i).pipeline.run, [], []⟩

def runs (d : Bool → Delivery u) : LTS (Overlap S) Label :=
  .ofFn (fun T => ∃ s, T = start d s) (step K u)

/-- What a step can be: a call that is only answered, one that the store takes, or the others'. -/
inductive Moves (u : String) (T : Overlap S) : Overlap S → Prop
  | quiet {i : Bool} {c : Call} {k : c.Answer → Pipe Unit} (hp : T.progs i = .call c k) (r : c.Answer)
      (acked : List Bool) : Moves u T { T.resume i (k r) with acked := acked }
  | commit {i : Bool} {c : Ledger.Call} {k : c.Answer → Pipe Unit}
      (hp : T.progs i = .call (.ledger c) k) (r : c.Answer) :
      Moves u T ((T.commit K u i c).resume i (k r))
  | other (c : Ledger.Call) (hc : c.url.asStr = u → c.isSkip) :
      Moves u T { T with store := (K.exec T.store c).2 }

variable {K} {T T' : Overlap S} {l : Label}

theorem moves_of_step (h : step K u T l = some T') : Moves K u T T' := by
  cases l with
  | answer i oracle fault =>
    simp only [step] at h
    split at h
    · cases h
    · rename_i c k hp
      cases c with
      | ledger c =>
        simp only [answered] at h
        split at h
        · cases h
          exact .commit hp _
        · split at h
          · rename_i committed _
            cases h
            cases committed with
            | true => exact .commit hp _
            | false => exact .quiet hp _ T.acked
          · cases h
      | _ => cases h; exact .quiet hp _ _
  | other c =>
    simp only [step] at h
    split at h
    · rename_i hc
      cases h
      exact .other c hc
    · cases h

/-! ## The journal decides -/

def isSuccess : Ledger.Call → Bool
  | .markSucceeded _ => true
  | _ => false

structure Inv (K : MetadataStore S) (u : String) (T : Overlap S) : Prop where
  shows : ∀ e ∈ T.journal.getLast?, K.status T.store u = some e.2.target
  commitLast : ∀ i, After Call.IsCommit Call.Keeps (T.progs i)
  final : ∀ e ∈ T.journal, isSuccess e.2 → Only Call.Keeps (T.progs e.1)
  once : T.journal.Pairwise fun a b => isSuccess a.2 → a.1 ≠ b.1

theorem inv_start (d : Bool → Delivery u) (s : S) : Inv K u (start d s) where
  shows := by simp [start]
  commitLast i := commitLast_run (d i).pipeline
  final := by simp [start]
  once := .nil

/-- What is left of a program after one of its calls. -/
theorem only_resume {P : Call → Prop} {i j : Bool} {c : Call} {k : c.Answer → Pipe Unit}
    (hp : T.progs i = .call c k) (r : c.Answer) (h : Only P (T.progs j)) :
    Only P ((T.resume i (k r)).progs j) := by
  by_cases hj : j = i
  · subst hj
    rw [hp] at h
    simpa [resume] using h.2 r
  · simpa [resume, hj] using h

theorem after_resume {P Q : Call → Prop} {i : Bool} {c : Call} {k : c.Answer → Pipe Unit}
    (hp : T.progs i = .call c k) (r : c.Answer) (h : ∀ j, After P Q (T.progs j)) (j : Bool) :
    After P Q ((T.resume i (k r)).progs j) := by
  by_cases hj : j = i
  · subst hj
    have hi := h j
    rw [hp] at hi
    simpa [resume] using (hi r).2
  · simpa [resume, hj] using h j

theorem shows_kept (hK : K.Lawful) {c : Ledger.Call} (hc : c.url.asStr = u → c.isSkip)
    (h : ∀ e ∈ T.journal.getLast?, K.status T.store u = some e.2.target) :
    ∀ e ∈ T.journal.getLast?, K.status (K.exec T.store c).2 u = some e.2.target :=
  fun e he => hK.kept _ _ _ _ hc (h e he)

theorem inv_moves (hK : K.Lawful) (h : Inv K u T) (hm : Moves K u T T') : Inv K u T' := by
  cases hm with
  | quiet hp r acked =>
    exact ⟨h.shows, after_resume hp r h.commitLast, fun e he hs => only_resume hp r (h.final e he hs),
      h.once⟩
  | @commit i c k hp r =>
    by_cases hmoved : Moved u c (K.exec T.store c).1
    · obtain ⟨hu, hskip, hok⟩ := hmoved
      have hj : ((T.commit K u i c).resume i (k r)).journal = T.journal ++ [(i, c)] :=
        if_pos ⟨hu, hskip, hok⟩
      -- the call is a transition, so delivery `i` has not committed its success yet
      have hopen : ∀ e ∈ T.journal, isSuccess e.2 → e.1 ≠ i := by
        intro e he hs hei
        have honly := h.final e he hs
        rw [hei, hp] at honly
        have hkeeps : c.isSkip = true := honly.1
        rw [hskip] at hkeeps
        cases hkeeps
      refine ⟨?_, after_resume (T := T.commit K u i c) hp r h.commitLast, ?_, ?_⟩
      · intro e he
        rw [hj, List.getLast?_append_of_ne_nil _ (by simp)] at he
        cases he
        rw [← hu]
        exact hK.moved _ _ hskip hok
      · intro e he hs
        rw [hj] at he
        rcases List.mem_append.1 he with he | he
        · exact only_resume (T := T.commit K u i c) hp r (h.final e he hs)
        · have hei : e = (i, c) := List.mem_singleton.1 he
          subst hei
          have hlast := h.commitLast i
          rw [hp] at hlast
          have hcommit : (Call.ledger c).IsCommit := by
            cases c with
            | markSucceeded record => trivial
            | _ => cases hs
          simpa [resume] using (hlast r).1 hcommit
      · rw [hj, List.pairwise_append]
        refine ⟨h.once, by simp, fun a ha b hb hs => ?_⟩
        rw [List.mem_singleton.1 hb]
        exact hopen a ha hs
    · have hj : ((T.commit K u i c).resume i (k r)).journal = T.journal := if_neg hmoved
      have hshows : ∀ e ∈ T.journal.getLast?, K.status (K.exec T.store c).2 u = some e.2.target := by
        by_cases hfail : c.failed (K.exec T.store c).1 = true
        · rw [hK.refused _ _ hfail]
          exact h.shows
        · refine shows_kept hK (fun hu => ?_) h.shows
          by_contra hskip
          exact hmoved ⟨hu, by simpa using hskip, by simpa using hfail⟩
      refine ⟨?_, after_resume (T := T.commit K u i c) hp r h.commitLast, ?_, ?_⟩
      · rw [hj]
        exact hshows
      · rw [hj]
        exact fun e he hs => only_resume (T := T.commit K u i c) hp r (h.final e he hs)
      · rw [hj]
        exact h.once
  | other c hc => exact ⟨shows_kept hK hc h.shows, h.commitLast, h.final, h.once⟩

theorem inductive_inv (hK : K.Lawful) (d : Bool → Delivery u) :
    (runs K d).Inductive (Inv K u) where
  init T h0 := by
    obtain ⟨s, rfl⟩ := h0
    exact inv_start d s
  step T l T' h hst := inv_moves hK h (moves_of_step hst)

/-- Both pipelines have returned. -/
def Ended (T : Overlap S) : Prop := ∀ i, T.progs i = .pure ()

/-- The status of the row after a success that `after` followed. -/
def settledBy (after : List (Bool × Ledger.Call)) : LifecycleStatus :=
  match after.getLast? with
  | none => .succeeded
  | some e => e.2.target

/-- What follows a delivery's success in the journal is the other's, and its last entry decides. -/
def Decided (K : MetadataStore S) (u : String) (T : Overlap S) : Prop :=
  ∀ before i record after, T.journal = before ++ (i, .markSucceeded record) :: after →
    (∀ e ∈ after, e.1 = !i) ∧ K.status T.store u = some (settledBy after)

theorem Inv.decided (h : Inv K u T) : Decided K u T := by
  intro before i record after hj
  have hones : ∀ e ∈ after, i ≠ e.1 := by
    intro e he
    have honce := h.once
    rw [hj, List.pairwise_append, List.pairwise_cons] at honce
    exact honce.2.1.1 e he rfl
  refine ⟨fun e he => ?_, ?_⟩
  · have hne := hones e he
    cases i with
    | false => simpa using hne.symm
    | true => simpa using hne.symm
  · have hlast := h.shows
    rw [hj, List.getLast?_append_of_ne_nil _ (by simp)] at hlast
    unfold settledBy
    cases hafter : after.getLast? with
    | none =>
      rw [List.getLast?_eq_none_iff.1 hafter] at hlast
      exact hlast _ rfl
    | some e =>
      refine hlast e ?_
      rw [List.getLast?_cons, hafter]
      rfl

/-- **The other delivery decides.** Two deliveries of a URL interleaved at their calls over either
store, in every state they reach: after a delivery's success the row is `Succeeded` while the other
commits no transition, and has the status of the other's last one when it does. -/
theorem finished_status (d : Bool → Delivery u) :
    (∀ T, (runs Ledger.metadataStore d).Reachable T → Decided Ledger.metadataStore u T) ∧
    (∀ T, (runs Fakes.LedgerState.metadataStore d).Reachable T →
      Decided Fakes.LedgerState.metadataStore u T) :=
  ⟨fun T hT => ((inductive_inv Ledger.metadataStore_lawful d).reachable T hT).decided,
    fun T hT => ((inductive_inv Fakes.LedgerState.metadataStore_lawful d).reachable T hT).decided⟩

/-! ### A late failure -/

/-- A page that fetches, parses and is stored. -/
def pageFound (c : Call) : c.Answer := (answering .allow (.ok "blobs/1") .empty c).1

/-- A host that times out. -/
def timedOut : (c : Call) → c.Answer
  | .fetch _ => .error (.transport .timeout "deadline elapsed")
  | c => pageFound c

/-- Both deliveries mark their attempt; the first one finishes and acks; then the fetch of the
second one fails. -/
def lateFailure : List Label :=
  List.replicate 2 (.answer false pageFound none) ++ List.replicate 2 (.answer true timedOut none) ++
    List.replicate 7 (.answer false pageFound none) ++ List.replicate 4 (.answer true timedOut none)

def sampleRun (K : MetadataStore S) (s : S) : Overlap S :=
  LTS.replay (step K "https://a.test/") (start (fun _ => .sampleA) s) lateFailure

theorem reachable_sampleRun (K : MetadataStore S) (s : S)
    (h : (LTS.runFn (step K "https://a.test/") (start (fun _ => .sampleA) s) lateFailure).isSome) :
    (runs K (fun _ => Delivery.sampleA)).Reachable (sampleRun K s) := by
  have h0 : (runs K (fun _ => Delivery.sampleA)).init (start (fun _ => .sampleA) s) := ⟨s, rfl⟩
  exact (LTS.Reachable.init h0).steps (LTS.steps_replay h)

theorem finished_status_late :
    Decided Ledger.metadataStore "https://a.test/" (sampleRun Ledger.metadataStore .empty) ∧
    Decided Fakes.LedgerState.metadataStore "https://a.test/"
      (sampleRun Fakes.LedgerState.metadataStore {}) :=
  ⟨(finished_status fun _ => .sampleA).1 _ (reachable_sampleRun _ _ (by decide +kernel)),
    (finished_status fun _ => .sampleA).2 _ (reachable_sampleRun _ _ (by decide +kernel))⟩

/-- Two deliveries of a URL in one run: once one has committed its success and acked, the row does
not end as anything unfinished. -/
def StaysFinished (K : MetadataStore S) : Prop :=
  ∀ (u : String) (d : Bool → Delivery u) (T : Overlap S),
    (d true).pipeline.deps.runId = (d false).pipeline.deps.runId → (runs K d).Reachable T → T.Ended →
    ∀ e ∈ T.journal, isSuccess e.2 → e.1 ∈ T.acked →
      ∀ st, K.status T.store u = some st →
        st ≠ .inProgress ∧ st ≠ .failedTransient ∧ st ≠ .permanentlyFailed

theorem not_staysFinished_of_run {K : MetadataStore S} {s : S}
    (hrun : (LTS.runFn (step K "https://a.test/") (start (fun _ => .sampleA) s) lateFailure).isSome)
    (hend : (sampleRun K s).Ended)
    (hacked : ∃ e ∈ (sampleRun K s).journal, isSuccess e.2 ∧ e.1 ∈ (sampleRun K s).acked)
    (hst : K.status (sampleRun K s).store "https://a.test/" = some .failedTransient) :
    ¬ StaysFinished K := by
  intro h
  obtain ⟨e, he, hs, ha⟩ := hacked
  have hbad := h _ _ _ rfl (reachable_sampleRun K s hrun) hend e he hs ha _ hst
  exact hbad.2.1 rfl

/-- The row ends as `FailedTransient`, in both stores. -/
theorem not_staysFinished :
    ¬ StaysFinished Ledger.metadataStore ∧ ¬ StaysFinished Fakes.LedgerState.metadataStore := by
  constructor
  · refine not_staysFinished_of_run (s := Ledger.empty) (by decide +kernel) ?_ (by decide +kernel)
      (by decide +kernel)
    intro i
    cases i <;> rfl
  · refine not_staysFinished_of_run (s := {}) (by decide +kernel) ?_ (by decide +kernel)
      (by decide +kernel)
    intro i
    cases i <;> rfl

end Overlap

end Crawlrs

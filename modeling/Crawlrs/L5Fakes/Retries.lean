import Crawlrs.L5Fakes.Metadata

/-!
# Deliveries and the count of their failures

Deliveries of one URL on a store that answers: each passes politeness and ends in
a failed fetch or with the page stored. The failures are counted in the ledger,
which `mark_attempting` keeps and `mark_succeeded` resets, so the count survives
the redeliveries in between.

`RetryStore` is a metadata store with its `retry_count`, and `Counting` what both
stores do to it. `Ended` is what one delivery leaves, by `safe_run`.
-/
namespace Crawlrs

open Prog (Log Safe Only Runs safe_bind safe_perform safe_of_only)

/-! ## Stores that count -/

/-- A store with the `retry_count` column; `returns` tells which calls come back. -/
structure RetryStore (S : Type) extends MetadataStore S where
  retryCount : S → String → Option Nat
  returns : S → Ledger.Call → Prop

def Ledger.retryStore : RetryStore Ledger where
  toMetadataStore := Ledger.metadataStore
  retryCount l u := (l.rows u).map UrlRow.retryCount
  returns _ _ := True

/-- The `u32` of the in-memory store is counted up with `+=`, which panics where it overflows. -/
def Fakes.LedgerState.retryStore : RetryStore Fakes.LedgerState where
  toMetadataStore := Fakes.LedgerState.metadataStore
  retryCount s u := (s.rows u).map fun row => row.retryCount.toNat
  returns s
    | .markFailed url _ => ∀ row, s.rows url.asStr = some row → row.retryCount.toNat + 1 < 2 ^ 32
    | _ => True

namespace RetryStore

variable {S : Type}

/-- The count of a row, or what a new row starts with. -/
def failures (K : RetryStore S) (s : S) (u : String) : Nat := (K.retryCount s u).getD 0

/-- What the calls do to the count of their URL, and to that of another. -/
structure Counting (K : RetryStore S) : Prop where
  lawful : K.Lawful
  attempted : ∀ s url runId depth, K.failures (K.exec s (.markAttempting url runId depth)).2 url.asStr
    = K.failures s url.asStr
  succeeded : ∀ s record, isError (K.exec s (.markSucceeded record)).1 = false →
    K.retryCount (K.exec s (.markSucceeded record)).2 record.url.asStr = some 0
  failed : ∀ s url kind n, K.returns s (.markFailed url kind) →
    (K.exec s (.markFailed url kind)).1 = .ok n → n.toNat = K.failures s url.asStr + 1 ∧
      K.retryCount (K.exec s (.markFailed url kind)).2 url.asStr =
        some (K.failures s url.asStr + 1)
  buried : ∀ s url reason, K.retryCount (K.exec s (.markPermanentlyFailed url reason)).2 url.asStr
    = K.retryCount s url.asStr
  started : ∀ s c u, (c.url.asStr = u → c.isSkip) → K.failures (K.exec s c).2 u = K.failures s u
  kept : ∀ s c u n, (c.url.asStr = u → c.isSkip) → K.retryCount s u = some n →
    K.retryCount (K.exec s c).2 u = some n

end RetryStore

namespace Ledger

theorem retryStore_kept (l : Ledger) (c : Call) (u : String) (n : Nat)
    (hc : c.url.asStr = u → c.isSkip) (h : retryStore.retryCount l u = some n) :
    retryStore.retryCount (l.exec c).2 u = some n := by
  obtain ⟨row, hr, hn⟩ := Option.map_eq_some_iff.1 h
  show ((l.exec c).2.rows u).map UrlRow.retryCount = some n
  rw [exec_row hc hr, Option.map_some, hn]

theorem retryStore_started (l : Ledger) (c : Call) (u : String) (hc : c.url.asStr = u → c.isSkip) :
    retryStore.failures (l.exec c).2 u = retryStore.failures l u := by
  unfold RetryStore.failures
  cases hl : retryStore.retryCount l u with
  | some n => rw [retryStore_kept l c u n hc hl]
  | none =>
    by_cases hu : u = c.url.asStr
    · cases c with
      | markDiscoveredSkipped url runId depth discoveredFrom reason =>
        subst hu
        have hr : l.rows url.asStr = none := Option.map_eq_none_iff.1 hl
        simp [retryStore, exec, markDiscoveredSkipped, Call.url, hr]
      | _ => exact absurd (hc hu.symm) (by simp [Call.isSkip])
    · have hr : (l.exec c).2.rows u = l.rows u := exec_other l c hu
      show (((l.exec c).2.rows u).map UrlRow.retryCount).getD 0 = _
      rw [hr]
      exact congrArg (Option.getD · 0) hl

theorem retryStore_counting : retryStore.Counting where
  lawful := metadataStore_lawful
  attempted l url runId depth := by
    show ((((l.markAttempting url runId depth).2).rows url.asStr).map UrlRow.retryCount).getD 0 =
      ((l.rows url.asStr).map UrlRow.retryCount).getD 0
    simp only [markAttempting, insertHistory_rows, setRow_rows, Function.update_self]
    cases l.rows url.asStr <;> rfl
  succeeded l record h := by
    simp only [retryStore, metadataStore, exec, markSucceeded] at h ⊢
    split
    · rename_i hr; simp [hr, isError] at h
    · simp
  failed l url kind n _ h := by
    simp only [RetryStore.failures, retryStore, metadataStore, exec, markFailed] at h ⊢
    cases hr : l.rows url.asStr with
    | none => simp [hr] at h
    | some row =>
      by_cases hlt : row.retryCount + 1 < 2 ^ 31
      · simp only [hr, if_pos hlt, Except.ok.injEq] at h
        simp only [if_pos hlt]
        rw [← h]
        refine ⟨?_, by simp⟩
        rw [UInt32.toNat_ofNat', Nat.mod_eq_of_lt (by omega)]
        rfl
      · simp only [hr, if_neg hlt, reduceCtorEq] at h
  buried l url reason := by
    simp only [retryStore, metadataStore, exec, markPermanentlyFailed]
    cases hr : l.rows url.asStr with
    | none => simp [hr]
    | some row => simp
  started := retryStore_started
  kept := retryStore_kept

end Ledger

namespace Fakes.LedgerState

theorem retryStore_kept (s : LedgerState) (c : Ledger.Call) (u : String) (n : Nat)
    (hc : c.url.asStr = u → c.isSkip) (h : retryStore.retryCount s u = some n) :
    retryStore.retryCount (s.exec c).2 u = some n := by
  by_cases hu : u = c.url.asStr
  · subst hu
    cases c with
    | markDiscoveredSkipped url runId depth discoveredFrom reason =>
      obtain ⟨row, hr, -⟩ := Option.map_eq_some_iff.1 h
      have hr' : s.rows url.asStr = some row := hr
      simp only [exec, markDiscoveredSkipped, hr']
      exact h
    | _ => exact absurd (hc rfl) (by simp [Ledger.Call.isSkip])
  · show ((s.exec c).2.rows u).map _ = some n
    rw [exec_other s c hu]
    exact h

theorem retryStore_started (s : LedgerState) (c : Ledger.Call) (u : String)
    (hc : c.url.asStr = u → c.isSkip) :
    retryStore.failures (s.exec c).2 u = retryStore.failures s u := by
  unfold RetryStore.failures
  cases hl : retryStore.retryCount s u with
  | some n => rw [retryStore_kept s c u n hc hl]
  | none =>
    by_cases hu : u = c.url.asStr
    · cases c with
      | markDiscoveredSkipped url runId depth discoveredFrom reason =>
        subst hu
        have hr : s.rows url.asStr = none := Option.map_eq_none_iff.1 hl
        simp [retryStore, exec, markDiscoveredSkipped, Ledger.Call.url, hr]
      | _ => exact absurd (hc hu.symm) (by simp [Ledger.Call.isSkip])
    · have hr : (s.exec c).2.rows u = s.rows u := exec_other s c hu
      show (((s.exec c).2.rows u).map _).getD 0 = _
      rw [hr]
      exact congrArg (Option.getD · 0) hl

theorem retryStore_counting : retryStore.Counting where
  lawful := metadataStore_lawful
  attempted s url runId depth := by
    show ((((s.markAttempting url runId depth).2).rows url.asStr).map _).getD 0 =
      ((s.rows url.asStr).map _).getD 0
    simp only [markAttempting, setRow_rows, Function.update_self]
    cases s.rows url.asStr <;> rfl
  succeeded s record h := by
    simp only [retryStore, metadataStore, exec, markSucceeded] at h ⊢
    split
    · rename_i hr; simp [hr, isError] at h
    · simp
  failed s url kind n hret h := by
    simp only [RetryStore.failures, retryStore, metadataStore, exec, markFailed] at h hret ⊢
    cases hr : s.rows url.asStr with
    | none => simp [hr] at h
    | some row =>
      have hn : row.retryCount + 1 = n := by simpa [hr] using h
      have hlt := hret row hr
      have hadd : (row.retryCount + 1).toNat = row.retryCount.toNat + 1 := by
        rw [UInt32.toNat_add]
        exact Nat.mod_eq_of_lt hlt
      rw [← hn]
      exact ⟨hadd, by simp [hadd]⟩
  buried s url reason := by
    simp only [retryStore, metadataStore, exec, markPermanentlyFailed]
    cases hr : s.rows url.asStr with
    | none => simp [hr]
    | some row => simp
  started := retryStore_started
  kept := retryStore_kept

end Fakes.LedgerState

/-! ## Deliveries that get their answers -/

/-- The answer of a delivery that passes politeness and, once it has the page, ends in success:
ledger, store and frontier calls succeed, and so does reading the page. -/
def Granted : (c : Call) → c.Answer → Prop
  | .ledger c, r => c.failed r = false
  | .check _, r => r = .ok .allow
  | .adapterExtract .., r => isError r = false
  | .parse _, r => isError r = false
  | .storeWrite _, r => isError r = false
  | .ack _, r => isError r = false
  | .advanceWake .., r => isError r = false
  | .submitBatch _, r => isError r = false
  | _, _ => True

instance : (c : Call) → (r : c.Answer) → Decidable (Granted c r)
  | .ledger c, r => inferInstanceAs (Decidable (c.failed r = false))
  | .check _, .ok .allow => .isTrue rfl
  | .check _, .ok (.disallow _) => .isFalse nofun
  | .check _, .error _ => .isFalse nofun
  | .adapterExtract .., r => inferInstanceAs (Decidable (isError r = false))
  | .parse _, r => inferInstanceAs (Decidable (isError r = false))
  | .storeWrite _, r => inferInstanceAs (Decidable (isError r = false))
  | .ack _, r => inferInstanceAs (Decidable (isError r = false))
  | .advanceWake .., r => inferInstanceAs (Decidable (isError r = false))
  | .submitBatch _, r => inferInstanceAs (Decidable (isError r = false))
  | .recordFetch _, _ => .isTrue trivial
  | .recordFailure .., _ => .isTrue trivial
  | .fetch _, _ => .isTrue trivial
  | .now, _ => .isTrue trivial

/-- Deliveries of `u` over a store. Meanwhile the rest of the deployment makes calls for other URLs,
or records `u` as a discovery skip. -/
def RetryStore.world {S : Type} (K : RetryStore S) (u : String) : World S Call Call.Answer where
  env s s' := (K.status s' u = K.status s u ∧ K.retryCount s' u = K.retryCount s u) ∨
    ∃ c : Ledger.Call, (c.url.asStr = u → c.isSkip) ∧ s' = (K.exec s c).2
  act s c r s' := Granted c r ∧ match c, r with
    | .ledger c, r => K.returns s c ∧ K.exec s c = (r, s')
    | _, _ => s' = s

/-- The fetch answered an error, or a status that is a failure. -/
def failedFetch : (c : Call) → c.Answer → Bool
  | .fetch _, .error _ => true
  | .fetch _, .ok resp => (classifyStatus resp.status).isSome
  | _, _ => false

def Call.isFetch : Call → Bool
  | .fetch _ => true
  | _ => false

def Call.acked? : Call → Option String
  | .ack a => some a
  | _ => none

theorem Call.eq_ack_of_acked {c : Call} {a : String} (h : c.acked? = some a) : c = .ack a := by
  cases c with
  | ack b =>
    have hb : b = a := Option.some.inj h
    rw [hb]
  | _ => simp [Call.acked?] at h

/-- What a log says about the delivery: its fetches, its acks, and whether a fetch failed. -/
structure Tally where
  fetches : Nat
  acks : List String
  failed : Bool
deriving DecidableEq

def tally (log : Log Call Call.Answer) : Tally where
  fetches := log.countP fun e => e.1.isFetch
  acks := log.filterMap fun e => e.1.acked?
  failed := log.any fun e => failedFetch e.1 e.2

/-- Neither a fetch nor an ack, and no ledger call but a discovery skip. -/
def Call.Quiet (c : Call) : Prop := c.In [.skipped, .check, .recordFetch, .recordFailure,
  .adapterExtract, .parse, .storeWrite, .advanceWake, .submitBatch, .now]

namespace Budget

variable {S : Type} {K : RetryStore S} {u : String}

theorem tally_quiet {c : Call} (hc : c.Quiet) (r : c.Answer) (log : Log Call Call.Answer) :
    tally (⟨c, r⟩ :: log) = tally log := by
  cases c with
  | fetch request => simp [Call.Quiet, Call.In, Call.kind] at hc
  | ack a => simp [Call.Quiet, Call.In, Call.kind] at hc
  | _ => rfl

theorem tally_ledger (c : Ledger.Call) (r : c.Answer) (log : Log Call Call.Answer) :
    tally (⟨.ledger c, r⟩ :: log) = tally log := by
  simp [tally, Call.isFetch, Call.acked?, failedFetch]

theorem tally_fetch (request : FetchRequest) (r : Except Error FetchResponse)
    (log : Log Call Call.Answer) : tally (⟨.fetch request, r⟩ :: log) =
      ⟨(tally log).fetches + 1, (tally log).acks,
        failedFetch (.fetch request) r || (tally log).failed⟩ := by
  simp [tally, Call.isFetch, Call.acked?]

theorem tally_ack (a : String) (r : Except Error Unit) (log : Log Call Call.Answer) :
    tally (⟨.ack a, r⟩ :: log) =
      ⟨(tally log).fetches, a :: (tally log).acks, (tally log).failed⟩ := by
  simp [tally, Call.isFetch, Call.acked?, failedFetch]

/-- A quiet call does to the store what others do too, or nothing. -/
theorem Stable.quiet {Q : S → Prop} (hQ : (K.world u).Stable Q) {c : Call} (hc : c.Quiet)
    {r : c.Answer} {s s' : S} (hact : (K.world u).act s c r s') (hs : Q s) : Q s' := by
  cases c with
  | ledger c =>
    cases c with
    | markDiscoveredSkipped url runId depth discoveredFrom reason =>
      have hexec := hact.2.2
      refine hQ s s' hs (Or.inr ⟨.markDiscoveredSkipped url runId depth discoveredFrom reason,
        fun _ => rfl, ?_⟩)
      rw [hexec]
    | _ => simp [Call.Quiet, Call.In, Call.kind] at hc
  | _ =>
    have hss : s' = s := hact.2
    rw [hss]
    exact hs

theorem safe_quiet {α : Type} {Q : S → Prop} {T : Tally} (hQ : (K.world u).Stable Q)
    {q : Pipe α} (hq : Only Call.Quiet q) {log : Log Call Call.Answer} {s : S} (hs : Q s)
    (hlog : tally log = T) :
    Safe (K.world u) (fun _ _ _ => True) (fun _ log s => tally log = T ∧ Q s) q log s := by
  refine safe_of_only (P := fun log s => tally log = T ∧ Q s)
    (fun log s s' h he => ⟨h.1, hQ s s' h.2 he⟩) (fun _ _ _ _ _ => trivial) ?_ hq ⟨hlog, hs⟩
  intro log s c r s' hc h hact
  exact ⟨by rw [tally_quiet hc, h.1], Stable.quiet hQ hc hact h.2⟩

theorem quiet_of_in {ks : List CallKind} (h : ks ⊆ [.skipped, .check, .recordFetch, .recordFailure,
    .adapterExtract, .parse, .storeWrite, .advanceWake, .submitBatch, .now]) (c : Call)
    (hc : c.In ks) : c.Quiet := h hc

/-- A ledger call of `u`; `P` is what is known where it is made. -/
theorem safe_ledger {c : Ledger.Call} {P : S → Prop}
    {post : (Call.ledger c).Answer → Log Call Call.Answer → S → Prop} (hP : (K.world u).Stable P)
    {log : Log Call Call.Answer} {s : S} (hs : P s)
    (h : ∀ s₁, P s₁ → K.returns s₁ c → c.failed (K.exec s₁ c).1 = false →
      post (K.exec s₁ c).1 (⟨.ledger c, (K.exec s₁ c).1⟩ :: log) (K.exec s₁ c).2) :
    Safe (K.world u) (fun _ _ _ => True) post (await (.ledger c)) log s := by
  refine safe_perform hP hs (fun _ _ => trivial) fun s₁ r s₂ h1 hact => ?_
  obtain ⟨hg, hret, hexec⟩ := hact
  have hr : r = (K.exec s₁ c).1 := by rw [hexec]
  have hs2 : s₂ = (K.exec s₁ c).2 := by rw [hexec]
  subst hr hs2
  exact h s₁ h1 hret hg

/-- The row shows the count and the status. -/
def Shows (K : RetryStore S) (u : String) (n : Nat) (st : LifecycleStatus) (s : S) : Prop :=
  K.retryCount s u = some n ∧ K.status s u = some st

theorem stable_failures (hK : K.Counting) (n : Nat) :
    (K.world u).Stable fun s => K.failures s u = n := by
  intro s s' hn henv
  rcases henv with ⟨-, hcount⟩ | ⟨c, hc, rfl⟩
  · simpa only [RetryStore.failures, hcount] using hn
  · rw [hK.started s c u hc, hn]

theorem stable_shows (hK : K.Counting) (n : Nat) (st : LifecycleStatus) :
    (K.world u).Stable (Shows K u n st) := by
  intro s s' hs henv
  rcases henv with ⟨hst, hcount⟩ | ⟨c, hc, rfl⟩
  · exact ⟨hcount.trans hs.1, hst.trans hs.2⟩
  · exact ⟨hK.kept s c u n hc hs.1, hK.lawful.kept s c u st hc hs.2⟩

/-- What a delivery that finds `n` failures leaves. -/
inductive Ended (K : RetryStore S) (u : String) (p : UrlPipeline) (n : Nat) (T : Tally) (s : S) : Prop
  | succeeded : T = ⟨1, [p.attemptId], false⟩ → Shows K u 0 .succeeded s → Ended K u p n T s
  | exhausted : T = ⟨1, [p.attemptId], true⟩ → p.deps.maxRetries.toNat ≤ n + 1 →
      Shows K u (n + 1) .permanentlyFailed s → Ended K u p n T s
  | spared : T = ⟨1, [], true⟩ → n + 1 < p.deps.maxRetries.toNat →
      Shows K u (n + 1) .failedTransient s → Ended K u p n T s

theorem stable_ended (hK : K.Counting) (p : UrlPipeline) (n : Nat) (T : Tally) :
    (K.world u).Stable (Ended K u p n T) := by
  intro s s' hs henv
  cases hs with
  | succeeded hT h => exact .succeeded hT (stable_shows hK _ _ s s' h henv)
  | exhausted hT hm h => exact .exhausted hT hm (stable_shows hK _ _ s s' h henv)
  | spared hT hm h => exact .spared hT hm (stable_shows hK _ _ s s' h henv)

/-! ## The phases of a delivery -/

variable {p : UrlPipeline} {n : Nat} {log : Log Call Call.Answer} {s : S}

theorem safe_ack {Q : S → Prop} {T : Tally} (hQ : (K.world u).Stable Q) (hs : Q s)
    (hlog : tally log = T) : Safe (K.world u) (fun _ _ _ => True)
      (fun _ log s => tally log = ⟨T.fetches, p.attemptId :: T.acks, T.failed⟩ ∧ Q s) p.ack log s := by
  unfold UrlPipeline.ack
  refine safe_bind (safe_perform hQ hs (fun _ _ => trivial) fun s₁ r s₂ h1 hact => ?_)
  have hss : s₂ = s₁ := hact.2
  rw [hss]
  exact ⟨by rw [tally_ack, hlog], h1⟩

theorem safe_politenessAllows (hK : K.Counting) (hb : p.blocked = false) (hs : K.failures s u = n)
    (hlog : tally log = ⟨0, [], false⟩) : Safe (K.world u) (fun _ _ _ => True)
      (fun a log s => a = true ∧ tally log = ⟨0, [], false⟩ ∧ K.failures s u = n)
      p.politenessAllows log s := by
  unfold UrlPipeline.politenessAllows
  rw [if_neg (by simp [hb])]
  refine safe_bind (safe_perform (stable_failures hK n) hs (fun _ _ => trivial) ?_)
  intro s₁ r s₂ h1 hact
  have hr : r = .ok .allow := hact.1
  have hss : s₂ = s₁ := hact.2
  rw [hr, hss]
  refine ⟨rfl, ?_, h1⟩
  rw [tally_quiet (c := .check p.url) (by simp [Call.Quiet, Call.In, Call.kind]), hlog]

theorem safe_markAttempting (hK : K.Counting) (hu : p.url.asStr = u) (hs : K.failures s u = n)
    {T : Tally} (hlog : tally log = T) : Safe (K.world u) (fun _ _ _ => True)
      (fun _ log s => tally log = T ∧ K.failures s u = n) p.markAttempting log s := by
  subst hu
  unfold UrlPipeline.markAttempting
  refine safe_bind (safe_ledger (stable_failures hK n) hs fun s₁ h1 _ _ => ?_)
  exact ⟨by rw [tally_ledger, hlog], by rw [hK.attempted, h1]⟩

/-- The failure is counted, and the budget decides on the rest. -/
theorem safe_handleFailure (hK : K.Counting) (hu : p.url.asStr = u) (kind : FailureKind)
    (reason : String) (hs : K.failures s u = n) (hlog : tally log = ⟨1, [], true⟩) :
    Safe (K.world u) (fun _ _ _ => True) (fun _ log s => Ended K u p n (tally log) s)
      (p.handleFailure kind reason) log s := by
  subst hu
  unfold UrlPipeline.handleFailure
  refine safe_bind (safe_ledger (stable_failures hK n) hs fun s₁ h1 hret hok => ?_)
  have hmoved := hK.lawful.moved s₁ (.markFailed p.url kind) rfl hok
  cases hans : (K.exec s₁ (.markFailed p.url kind)).1 with
  | error e => simp [hans, Ledger.Call.failed, isError] at hok
  | ok count =>
    obtain ⟨hcount, hshow⟩ := hK.failed s₁ p.url kind count hret hans
    rw [h1] at hcount hshow
    have hshows : Shows K p.url.asStr (n + 1) .failedTransient
        (K.exec s₁ (.markFailed p.url kind)).2 := ⟨hshow, hmoved⟩
    have htally := tally_ledger (.markFailed p.url kind) (.ok count) log
    rw [hlog] at htally
    dsimp only
    split
    · rename_i hm
      have hm : p.deps.maxRetries.toNat ≤ n + 1 := by
        rw [← hcount]
        exact UInt32.le_iff_toNat_le.1 hm
      refine safe_bind (safe_ledger (stable_shows hK _ _) hshows fun s₂ h2 _ hok2 => ?_)
      have hburied : Shows K p.url.asStr (n + 1) .permanentlyFailed
          (K.exec s₂ (.markPermanentlyFailed p.url _)).2 :=
        ⟨(hK.buried s₂ p.url _).trans h2.1, hK.lawful.moved s₂ (.markPermanentlyFailed p.url _) rfl hok2⟩
      refine (safe_ack (T := ⟨1, [], true⟩) (stable_shows hK _ _) hburied ?_).mono ?_
      · rw [tally_ledger]
        exact htally
      · intro _ log' s' h
        exact .exhausted h.1 hm h.2
    · rename_i hm
      have hm : n + 1 < p.deps.maxRetries.toNat := by
        rw [← hcount]
        exact UInt32.lt_iff_toNat_lt.1 (UInt32.not_le.1 hm)
      exact Ended.spared htally hm hshows

/-- A failed fetch: the wake plan, then `handle_failure`. -/
theorem safe_failed (hK : K.Counting) (hu : p.url.asStr = u) (kind : FailureKind)
    (hint : Option Nat) (reason : String) (hs : K.failures s u = n)
    (hlog : tally log = ⟨1, [], true⟩) : Safe (K.world u) (fun _ _ _ => True)
      (fun (r : Option FetchResponse) log s => r = none ∧ Ended K u p n (tally log) s) (do
        let plan ← await (.recordFailure p.url kind hint)
        UrlPipeline.applyWakePlan plan
        p.handleFailure kind reason
        pure none) log s := by
  refine safe_bind ((safe_quiet (stable_failures hK n) (Prog.only_perform (quiet_of_in
    (List.Subset.refl _) _ (by simp [Call.In, Call.kind]))) hs hlog).mono ?_)
  intro plan log s h
  refine safe_bind ((safe_quiet (stable_failures hK n) ((kinds_applyWakePlan plan).mono
    (quiet_of_in (by decide))) h.2 h.1).mono ?_)
  intro _ log s h
  refine safe_bind ((safe_handleFailure hK hu kind reason h.2 h.1).mono ?_)
  exact fun _ _ _ h => ⟨rfl, h⟩

theorem safe_fetch (hK : K.Counting) (hu : p.url.asStr = u) (hs : K.failures s u = n)
    (hlog : tally log = ⟨0, [], false⟩) : Safe (K.world u) (fun _ _ _ => True)
      (fun r log s => (r = none ∧ Ended K u p n (tally log) s) ∨
        ((∃ resp, r = some resp) ∧ tally log = ⟨1, [], false⟩ ∧ K.failures s u = n))
      p.fetch log s := by
  unfold UrlPipeline.fetch
  refine safe_bind (safe_perform (stable_failures hK n) hs (fun _ _ => trivial) ?_)
  intro s₁ r s₂ h1 hact
  have hss : s₂ = s₁ := hact.2
  rw [hss]
  have htally := tally_fetch { url := p.url } r log
  rw [hlog] at htally
  cases r with
  | error e =>
    exact (safe_failed hK hu _ none _ h1 htally).mono fun _ _ _ h => Or.inl h
  | ok resp =>
    dsimp only
    cases hk : classifyStatus resp.status with
    | some kind =>
      have htally : tally (⟨.fetch { url := p.url }, .ok resp⟩ :: log) = ⟨1, [], true⟩ := by
        rw [htally]
        simp [failedFetch, hk]
      refine safe_bind ((safe_quiet (stable_failures hK n) ((kinds_retryAfter p resp.headers).mono
        (quiet_of_in (by decide))) h1 htally).mono ?_)
      intro hint log s h
      exact (safe_failed hK hu kind hint _ h.2 h.1).mono fun _ _ _ h => Or.inl h
    | none =>
      have htally : tally (⟨.fetch { url := p.url }, .ok resp⟩ :: log) = ⟨1, [], false⟩ := by
        rw [htally]
        simp [failedFetch, hk]
      refine safe_bind ((safe_quiet (stable_failures hK n) (Prog.only_perform (quiet_of_in
        (List.Subset.refl _) _ (by simp [Call.In, Call.kind]))) h1 htally).mono ?_)
      intro plan log s h
      refine safe_bind ((safe_quiet (stable_failures hK n) ((kinds_applyWakePlan plan).mono
        (quiet_of_in (by decide))) h.2 h.1).mono ?_)
      exact fun _ _ _ h => Or.inr ⟨⟨resp, rfl⟩, h.1, h.2⟩

/-- One call that a quiet phase makes, with what its answer is like. -/
theorem safe_granted {Q : S → Prop} {T : Tally} (hQ : (K.world u).Stable Q) {c : Call}
    (hc : c.Quiet) (hs : Q s) (hlog : tally log = T) : Safe (K.world u) (fun _ _ _ => True)
      (fun r log s => Granted c r ∧ tally log = T ∧ Q s) (await c) log s := by
  refine safe_perform hQ hs (fun _ _ => trivial) fun s₁ r s₂ h1 hact => ?_
  exact ⟨hact.1, by rw [tally_quiet hc, hlog], Stable.quiet hQ hc hact h1⟩

theorem safe_parseGeneric {Q : S → Prop} {T : Tally} (hQ : (K.world u).Stable Q)
    (resp : FetchResponse) (hs : Q s) (hlog : tally log = T) :
    Safe (K.world u) (fun _ _ _ => True)
      (fun r log s => (∃ doc, r = some doc) ∧ tally log = T ∧ Q s) (p.parseGeneric resp) log s := by
  unfold UrlPipeline.parseGeneric
  refine safe_bind ((safe_granted (c := .parse resp) hQ (by simp [Call.Quiet, Call.In, Call.kind])
    hs hlog).mono ?_)
  intro r log s h
  cases r with
  | ok doc => exact ⟨⟨doc, rfl⟩, h.2⟩
  | error e => exact absurd h.1 (by simp [Granted, isError])

theorem safe_extract {Q : S → Prop} {T : Tally} (hQ : (K.world u).Stable Q)
    (resp : FetchResponse) (hs : Q s) (hlog : tally log = T) :
    Safe (K.world u) (fun _ _ _ => True)
      (fun r log s => (∃ doc, r = some doc) ∧ tally log = T ∧ Q s) (p.extract resp) log s := by
  unfold UrlPipeline.extract
  split
  · exact safe_parseGeneric hQ resp hs hlog
  · rename_i adapter _
    refine safe_bind ((safe_granted (c := .adapterExtract adapter resp) hQ
      (by simp [Call.Quiet, Call.In, Call.kind]) hs hlog).mono ?_)
    intro r log s h
    cases r with
    | error e => exact absurd h.1 (by simp [Granted, isError])
    | ok doc =>
      cases doc with
      | none => exact safe_parseGeneric hQ resp h.2.2 h.2.1
      | some doc => exact ⟨⟨doc, rfl⟩, h.2⟩

/-- The page is stored and committed, the count reset. -/
theorem safe_finalize (hK : K.Counting) (hu : p.url.asStr = u) (resp : FetchResponse)
    (doc : ParsedDocument) (partition : OutboundPartition) (hs : K.failures s u = n)
    (hlog : tally log = ⟨1, [], false⟩) : Safe (K.world u) (fun _ _ _ => True)
      (fun _ log s => Ended K u p n (tally log) s) (p.finalize resp doc partition) log s := by
  subst hu
  unfold UrlPipeline.finalize
  refine safe_bind ((safe_granted (c := .storeWrite (p.storeRecord resp doc)) (stable_failures hK n)
    (by simp [Call.Quiet, Call.In, Call.kind]) hs hlog).mono ?_)
  intro r log s h
  cases r with
  | error e => exact absurd h.1 (by simp [Granted, isError])
  | ok blobPath =>
    refine safe_bind (safe_ledger (stable_failures hK n) h.2.2 fun s₁ _ _ hok => ?_)
    have hshows : Shows K p.url.asStr 0 .succeeded
        (K.exec s₁ (.markSucceeded (p.successRecord resp blobPath partition.kept))).2 :=
      ⟨hK.succeeded s₁ _ hok, hK.lawful.moved s₁ (.markSucceeded _) rfl hok⟩
    refine safe_bind ((safe_quiet (T := ⟨1, [], false⟩) (stable_shows hK _ _)
      (Prog.only_each (fun _ => (kinds_recordDiscoveredSkip p _ _ _ _).mono
        (quiet_of_in (by decide))) _) hshows (by rw [tally_ledger, h.2.1])).mono ?_)
    intro _ log s h
    refine safe_bind ((safe_quiet (stable_shows hK _ _) ((kinds_dispatch p _).mono
      (quiet_of_in (by decide))) h.2 h.1).mono ?_)
    intro _ log s h
    refine (safe_ack (stable_shows hK _ _) h.2 h.1).mono ?_
    exact fun _ _ _ h => .succeeded h.1 h.2

/-- One delivery, from a ledger that has counted `n` failures. -/
theorem safe_run (hK : K.Counting) (hu : p.url.asStr = u) (hb : p.blocked = false)
    (hs : K.failures s u = n) : Safe (K.world u) (fun _ _ _ => True)
      (fun _ log s => Ended K u p n (tally log) s) p.run [] s := by
  unfold UrlPipeline.run
  refine safe_bind ((safe_politenessAllows hK hb hs rfl).mono ?_)
  rintro _ log s ⟨rfl, hlog, hs⟩
  rw [if_pos rfl]
  refine safe_bind ((safe_markAttempting hK hu hs hlog).mono ?_)
  intro _ log s h
  refine safe_bind ((safe_fetch hK hu h.2 h.1).mono ?_)
  rintro r log s (⟨rfl, hend⟩ | ⟨⟨resp, rfl⟩, hlog, hs⟩)
  · exact hend
  · refine safe_bind ((safe_extract (stable_failures hK n) resp hs hlog).mono ?_)
    rintro r log s ⟨⟨doc, rfl⟩, hlog, hs⟩
    exact safe_finalize hK hu resp doc _ hs hlog

end Budget

end Crawlrs

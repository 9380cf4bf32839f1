import Crawlrs.Core.LTS
import Crawlrs.L4Politeness.Tracker

/-!
# Failures of one host at the same time

Any number of `record_failure` calls for one host, each two round-trips: `HINCRBY` of
the count, then one write of the window computed from the count it returned, at the
caller's own reading of the clock. The server executes the round-trips one at a time, in
any order.

The increments commute. The writes do not: the hash keeps the window written last.
`order` and `windows` read counts and windows off the order of the round-trips, and
`Traced` ties them to the state of the race.
-/
namespace Crawlrs

/-- The arguments of one call. -/
structure FailureCall where
  kind : FailureKind
  serverHint : Option Duration
deriving DecidableEq

/-- How far a call is. `failed`: `HINCRBY` was refused. -/
inductive CallPhase
  | start
  | counted (newFailures : UInt32)
  | failed
  | done (untilMs : UInt64)
deriving DecidableEq

/-- A round-trip of the `i`-th call; a write comes after a reading of the clock. -/
inductive RoundTrip
  | hincr (i : Nat)
  | hset (i : Nat) (now : Int)
deriving DecidableEq

structure Race where
  redis : HostState
  phase : Nat → CallPhase

namespace Race

def start (r : HostState) : Race := ⟨r, fun _ => .start⟩

/-- mirrors crates/crawlrs-politeness/src/backoff_tracker.rs:151-185, split at the two queries -/
def step (P : BackoffPolicy) (calls : List FailureCall) (s : Race) : RoundTrip → Option Race
  | .hincr i =>
    match calls[i]?, s.phase i with
    | some _, .start =>
      match s.redis.hincr with
      | (.ok newFailures, redis) => some ⟨redis, Function.update s.phase i (.counted newFailures)⟩
      | (.error _, redis) => some ⟨redis, Function.update s.phase i .failed⟩
    | _, _ => none
  | .hset i now =>
    match calls[i]?, s.phase i with
    | some call, .counted newFailures =>
      let untilMs := untilScore now (P.computeBackoff newFailures call.kind call.serverHint)
      some ⟨s.redis.hset untilMs call.kind, Function.update s.phase i (.done untilMs)⟩
    | _, _ => none

end Race

/-- Every interleaving of the calls, from the hash `r`. -/
def race (P : BackoffPolicy) (calls : List FailureCall) (r : HostState) : LTS Race RoundTrip :=
  LTS.ofFn (fun s => s = .start r) (Race.step P calls)

/-- A call that nobody interrupts is `record_failure`. -/
theorem recordFailure_eq_steps {T : RedisBackoffTracker} {url : CanonicalUrl} {host : Host}
    (hurl : url.host = some host) (hown : T.policy.shardKey url ∈ T.ownedShards)
    (call : FailureCall) (now : Int) {s : Tracked} {next : NextWake} {s' : Tracked}
    (h : T.recordFailure url call.kind call.serverHint now s = (.ok next, s')) :
    ∃ s1, LTS.runFn (Race.step T.backoff [call]) (.start s.redis) [.hincr 0, .hset 0 now] = some s1 ∧
      s1.redis = s'.redis ∧ s1.phase 0 = .done next.untilMs := by
  simp only [RedisBackoffTracker.recordFailure, hurl,
    RedisBackoffTracker.assertOwned_of_owns hown] at h
  rcases hinc : s.redis.hincr with ⟨reply, redis⟩
  cases reply with
  | error e => simp [hinc] at h
  | ok newFailures =>
    simp only [hinc, Prod.mk.injEq, Except.ok.injEq] at h
    obtain ⟨rfl, rfl⟩ := h
    generalize hu : untilScore now (T.backoff.computeBackoff newFailures call.kind call.serverHint) = u
    refine ⟨⟨redis.hset u call.kind,
      Function.update (Function.update (fun _ => .start) 0 (.counted newFailures)) 0 (.done u)⟩, ?_,
      rfl, by simp⟩
    simp [LTS.runFn, Race.step, Race.start, hinc, hu]

/-! ## Counts and windows of a run -/

/-- The calls in the order of their `HINCRBY`. -/
def order : List RoundTrip → List Nat
  | [] => []
  | .hincr i :: tr => i :: order tr
  | .hset _ _ :: tr => order tr

/-- The end of the window a call writes: its count is the initial one plus its place in the
order, as a `u32`. -/
def windowOf (P : BackoffPolicy) (calls : List FailureCall) (count : Nat) (ord : List Nat) (i : Nat)
    (now : Int) : Option UInt64 :=
  calls[i]?.map fun call =>
    untilScore now (P.computeBackoff (UInt32.ofNat (count + ord.idxOf i + 1)) call.kind call.serverHint)

/-- The windows in the order in which they are written, after the increments `ord`. -/
def windows (P : BackoffPolicy) (calls : List FailureCall) (count : Nat) :
    List Nat → List RoundTrip → List UInt64
  | _, [] => []
  | ord, .hincr i :: tr => windows P calls count (ord ++ [i]) tr
  | ord, .hset i now :: tr =>
    (windowOf P calls count ord i now).toList ++ windows P calls count ord tr

theorem order_append (tr tr' : List RoundTrip) : order (tr ++ tr') = order tr ++ order tr' := by
  induction tr with
  | nil => rfl
  | cons l tr ih =>
    cases l with
    | hincr i => simp only [List.cons_append, order, ih]
    | hset i now => simp only [List.cons_append, order, ih]

theorem windows_append (P : BackoffPolicy) (calls : List FailureCall) (count : Nat)
    (tr tr' : List RoundTrip) : ∀ ord, windows P calls count ord (tr ++ tr') =
      windows P calls count ord tr ++ windows P calls count (ord ++ order tr) tr' := by
  induction tr with
  | nil => intro ord; simp [windows, order]
  | cons l tr ih =>
    intro ord
    cases l with
    | hincr i => simp only [List.cons_append, windows, order, ih, List.append_assoc, List.nil_append]
    | hset i now => simp only [List.cons_append, windows, order, ih, List.append_assoc]

theorem HostState.hincr_ok {r r' : HostState} {n : UInt32} (h : r.hincr = (.ok n, r')) :
    n = UInt32.ofNat (r.consecutiveFailures.getD 0 + 1) ∧
      r' = { r with consecutiveFailures := some (r.consecutiveFailures.getD 0 + 1) } := by
  unfold HostState.hincr at h
  dsimp only at h
  split at h
  · simp at h
  · simp only [Prod.mk.injEq, Except.ok.injEq] at h
    exact ⟨h.1.symm, h.2.symm⟩

namespace Race

variable {P : BackoffPolicy} {calls : List FailureCall} {r : HostState} {s s' : Race}

/-- What an increment does. -/
theorem hincr_inv {i : Nat} (h : s.step P calls (.hincr i) = some s') :
    i < calls.length ∧ s.phase i = .start ∧
      ((∃ n redis, s.redis.hincr = (.ok n, redis) ∧
          s' = ⟨redis, Function.update s.phase i (.counted n)⟩) ∨
        ∃ redis, s' = ⟨redis, Function.update s.phase i .failed⟩) := by
  simp only [step] at h
  split at h
  · rename_i call hcall hphase
    refine ⟨(List.getElem?_eq_some_iff.1 hcall).1, hphase, ?_⟩
    split at h
    · rename_i n redis hinc
      cases h
      exact Or.inl ⟨n, redis, hinc, rfl⟩
    · rename_i redis hinc
      cases h
      exact Or.inr ⟨redis, rfl⟩
  · cases h

/-- What a write does. -/
theorem hset_inv {i : Nat} {now : Int} (h : s.step P calls (.hset i now) = some s') :
    ∃ call n, calls[i]? = some call ∧ s.phase i = .counted n ∧
      s' = ⟨s.redis.hset (untilScore now (P.computeBackoff n call.kind call.serverHint)) call.kind,
        Function.update s.phase i
          (.done (untilScore now (P.computeBackoff n call.kind call.serverHint)))⟩ := by
  simp only [step] at h
  split at h
  · rename_i call n hcall hphase
    cases h
    exact ⟨call, n, hcall, hphase, rfl⟩
  · cases h

/-- A call that failed stays so. -/
theorem step_failed {l : RoundTrip} (h : s.step P calls l = some s') {i : Nat}
    (hi : s.phase i = .failed) : s'.phase i = .failed := by
  cases l with
  | hincr j =>
    obtain ⟨-, hj, hcases⟩ := hincr_inv h
    have hne : i ≠ j := by
      rintro rfl
      rw [hi] at hj
      cases hj
    rcases hcases with ⟨n, redis, -, rfl⟩ | ⟨redis, rfl⟩
    · simpa [hne] using hi
    · simpa [hne] using hi
  | hset j now =>
    obtain ⟨call, n, -, hj, rfl⟩ := hset_inv h
    have hne : i ≠ j := by
      rintro rfl
      rw [hi] at hj
      cases hj
    simpa [hne] using hi

end Race

/-- The windows written, where a call that had none moves on. -/
theorem exists_done_update {f : Nat → CallPhase} {i : Nat} (hi : ∀ u, f i ≠ .done u) (p : CallPhase)
    (u : UInt64) :
    (∃ j, Function.update f i p j = .done u) ↔ (∃ j, f j = .done u) ∨ p = .done u := by
  constructor
  · rintro ⟨j, hj⟩
    by_cases hji : j = i
    · subst hji
      rw [Function.update_self] at hj
      exact Or.inr hj
    · rw [Function.update_of_ne hji] at hj
      exact Or.inl ⟨j, hj⟩
  · rintro (⟨j, hj⟩ | hp)
    · have hji : j ≠ i := fun he => hi u (he ▸ hj)
      refine ⟨j, ?_⟩
      rw [Function.update_of_ne hji, hj]
    · refine ⟨i, ?_⟩
      rw [Function.update_self, hp]

/-- The state of a race in which no call has failed, read off its round-trips. -/
structure Traced (P : BackoffPolicy) (calls : List FailureCall) (r : HostState)
    (tr : List RoundTrip) (s : Race) : Prop where
  nodup : (order tr).Nodup
  known : ∀ i ∈ order tr, i < calls.length
  started : ∀ i, i ∈ order tr ↔ s.phase i ≠ .start
  count : s.redis.consecutiveFailures.getD 0 = r.consecutiveFailures.getD 0 + (order tr).length
  counted : ∀ i n, s.phase i = .counted n →
    n = UInt32.ofNat (r.consecutiveFailures.getD 0 + (order tr).idxOf i + 1)
  window : s.redis.backoffUntilMs =
    ((windows P calls (r.consecutiveFailures.getD 0) [] tr).getLast?).or r.backoffUntilMs
  done : ∀ u, (∃ i, s.phase i = .done u) ↔
    u ∈ windows P calls (r.consecutiveFailures.getD 0) [] tr

namespace Traced

variable {P : BackoffPolicy} {calls : List FailureCall} {r : HostState} {tr : List RoundTrip}
  {s s' : Race}

theorem start (P : BackoffPolicy) (calls : List FailureCall) (r : HostState) :
    Traced P calls r [] (.start r) := by
  refine ⟨List.nodup_nil, ?_, ?_, rfl, ?_, rfl, ?_⟩
  · intro i hi
    cases hi
  · intro i
    simp [order, Race.start]
  · intro i n h
    cases h
  · intro u
    simp [windows, Race.start]

/-- A call gets the number it increments to. -/
theorem counted_hincr (h : Traced P calls r tr s) {i : Nat} {n : UInt32} (hnew : i ∉ order tr)
    (hn : n = UInt32.ofNat (r.consecutiveFailures.getD 0 + (order tr).length + 1)) (j : Nat)
    (m : UInt32)
    (hj : Function.update s.phase i (.counted n) j = .counted m) :
    m = UInt32.ofNat (r.consecutiveFailures.getD 0 + (order tr ++ [i]).idxOf j + 1) := by
  by_cases hji : j = i
  · subst hji
    simp only [Function.update_self, CallPhase.counted.injEq] at hj
    rw [← hj, hn, List.idxOf_append_of_notMem hnew, List.idxOf_cons_self]
    rfl
  · rw [Function.update_of_ne hji] at hj
    have hmem : j ∈ order tr := by
      rw [h.started j, hj]
      simp
    rw [List.idxOf_append_of_mem hmem]
    exact h.counted j m hj

theorem hincr (h : Traced P calls r tr s) {i : Nat} {n : UInt32} {redis : HostState}
    (hi : i < calls.length) (hstart : s.phase i = .start) (hinc : s.redis.hincr = (.ok n, redis)) :
    Traced P calls r (tr ++ [.hincr i]) ⟨redis, Function.update s.phase i (.counted n)⟩ := by
  obtain ⟨hn, rfl⟩ := HostState.hincr_ok hinc
  have hord : order (tr ++ [.hincr i]) = order tr ++ [i] := order_append tr _
  have hwin : windows P calls (r.consecutiveFailures.getD 0) [] (tr ++ [.hincr i]) =
      windows P calls (r.consecutiveFailures.getD 0) [] tr := by
    rw [windows_append]
    exact List.append_nil _
  have hnew : i ∉ order tr := by
    rw [h.started i, hstart]
    simp
  have hcount := h.count
  refine ⟨?_, ?_, ?_, ?_, ?_, ?_, ?_⟩
  · rw [hord]
    exact List.nodup_append_comm.1 (List.nodup_cons.2 ⟨hnew, h.nodup⟩)
  · rw [hord]
    intro j hj
    rcases List.mem_append.1 hj with hj | hj
    · exact h.known j hj
    · rw [List.mem_singleton.1 hj]
      exact hi
  · intro j
    rw [hord, List.mem_append, List.mem_singleton, h.started j]
    by_cases hji : j = i
    · subst hji
      simp
    · simp [hji]
  · rw [hord, List.length_append, List.length_singleton, Option.getD_some, hcount, Nat.add_assoc]
  · rw [hord]
    exact h.counted_hincr hnew (by rw [hn, hcount])
  · rw [hwin]
    exact h.window
  · intro u
    rw [hwin, ← h.done u, exists_done_update (by simp [hstart])]
    simp

theorem hset (h : Traced P calls r tr s) {i : Nat} {now : Int} {call : FailureCall} {n : UInt32}
    (hcall : calls[i]? = some call) (hphase : s.phase i = .counted n) {u : UInt64}
    (hu : untilScore now (P.computeBackoff n call.kind call.serverHint) = u) :
    Traced P calls r (tr ++ [.hset i now])
      ⟨s.redis.hset u call.kind, Function.update s.phase i (.done u)⟩ := by
  have hord : order (tr ++ [.hset i now]) = order tr := by
    rw [order_append]
    exact List.append_nil _
  have hwin : windows P calls (r.consecutiveFailures.getD 0) [] (tr ++ [.hset i now]) =
      windows P calls (r.consecutiveFailures.getD 0) [] tr ++ [u] := by
    rw [windows_append]
    congr 1
    simp [windows, windowOf, hcall, ← h.counted i n hphase, hu]
  refine ⟨hord ▸ h.nodup, hord ▸ h.known, ?_, hord ▸ h.count, ?_, ?_, ?_⟩
  · intro j
    rw [hord, h.started j]
    by_cases hji : j = i
    · subst hji
      simp [hphase]
    · simp [hji]
  · intro j m hj
    rw [hord]
    have hji : j ≠ i := by
      rintro rfl
      simp at hj
    exact h.counted j m (by simpa [hji] using hj)
  · rw [hwin, List.getLast?_append]
    rfl
  · intro w
    rw [hwin, List.mem_append, List.mem_singleton, ← h.done w]
    rw [exists_done_update (by simp [hphase]), CallPhase.done.injEq, eq_comm]

/-- One round-trip of a race in which no call fails. -/
theorem step (h : Traced P calls r tr s) {l : RoundTrip} (hst : s.step P calls l = some s')
    (hok : ∀ i, s'.phase i ≠ .failed) : Traced P calls r (tr ++ [l]) s' := by
  cases l with
  | hincr i =>
    obtain ⟨hi, hstart, ⟨n, redis, hinc, rfl⟩ | ⟨redis, rfl⟩⟩ := Race.hincr_inv hst
    · exact h.hincr hi hstart hinc
    · exact absurd (Function.update_self ..) (hok i)
  | hset i now =>
    obtain ⟨call, n, hcall, hphase, rfl⟩ := Race.hset_inv hst
    exact h.hset hcall hphase rfl

/-- The whole race, by induction on its last round-trip. -/
theorem of_steps : ∀ {tr : List RoundTrip} {s : Race},
    (race P calls r).Steps (.start r) tr s → (∀ i, s.phase i ≠ .failed) → Traced P calls r tr s := by
  intro tr
  induction tr using List.reverseRecOn with
  | nil =>
    intro s hrun _
    cases hrun
    exact start P calls r
  | append_singleton tr l ih =>
    intro s hrun hok
    obtain ⟨s1, hrun1, hst⟩ := hrun.of_append_singleton
    have hok1 : ∀ i, s1.phase i ≠ .failed := fun i hi => hok i (Race.step_failed hst hi)
    exact (ih hrun1 hok1).step hst hok

/-- Every call has been counted once. -/
theorem order_length (h : Traced P calls r tr s)
    (hall : ∀ i < calls.length, s.phase i ≠ .start) : (order tr).length = calls.length := by
  have hperm : (order tr).Perm (List.range calls.length) := by
    rw [List.perm_ext_iff_of_nodup h.nodup List.nodup_range]
    intro i
    rw [List.mem_range]
    exact ⟨h.known i, fun hi => (h.started i).2 (hall i hi)⟩
  rw [hperm.length_eq, List.length_range]

end Traced

/-! ## After all calls -/

/-- The hash holds a window that ends no earlier than any a call has returned. -/
def Race.Kept (s : Race) : Prop :=
  ∀ i u, s.phase i = .done u → ∃ stored, s.redis.backoffUntilMs = some stored ∧ u ≤ stored

/-- The window written last ends no earlier than any other. -/
def LastIsLatest (ws : List UInt64) : Prop := ∀ last, ws.getLast? = some last → ∀ w ∈ ws, w ≤ last

instance (ws : List UInt64) : Decidable (LastIsLatest ws) :=
  match h : ws.getLast? with
  | none => isTrue (by intro last hl; simp [h] at hl)
  | some l => decidable_of_iff (ws.all fun w => w ≤ l) (by simp [LastIsLatest, h])

theorem kept_iff {P : BackoffPolicy} {calls : List FailureCall} {r : HostState}
    {tr : List RoundTrip} {s : Race} (h : Traced P calls r tr s) :
    s.Kept ↔ LastIsLatest (windows P calls (r.consecutiveFailures.getD 0) [] tr) := by
  unfold Race.Kept LastIsLatest
  constructor
  · intro hk last hlast w hw
    obtain ⟨i, hi⟩ := (h.done w).2 hw
    obtain ⟨stored, hst, hle⟩ := hk i w hi
    rw [h.window, hlast] at hst
    cases hst
    exact hle
  · intro hl i u hi
    have hu := (h.done u).1 ⟨i, hi⟩
    obtain ⟨last, hlast⟩ : ∃ last,
        (windows P calls (r.consecutiveFailures.getD 0) [] tr).getLast? = some last :=
      Option.ne_none_iff_exists'.1 (by simpa using List.ne_nil_of_mem hu)
    exact ⟨last, by rw [h.window, hlast]; rfl, hl last hlast u hu⟩

/-- There are no calls past the list. -/
theorem phase_of_ge {P : BackoffPolicy} {calls : List FailureCall} {r : HostState}
    {tr : List RoundTrip} {s : Race} (hrun : (race P calls r).Steps (.start r) tr s) {i : Nat}
    (hi : calls.length ≤ i) : s.phase i = .start := by
  refine hrun.stable (P := fun s => s.phase i = .start) ?_ rfl
  intro s l s' hs hst
  cases l with
  | hincr j =>
    obtain ⟨hj, -, hcases⟩ := Race.hincr_inv hst
    have hne : i ≠ j := by omega
    rcases hcases with ⟨n, redis, -, rfl⟩ | ⟨redis, rfl⟩
    · simpa [hne] using hs
    · simpa [hne] using hs
  | hset j now =>
    obtain ⟨call, n, hcall, -, rfl⟩ := Race.hset_inv hst
    have hj := (List.getElem?_eq_some_iff.1 hcall).1
    have hne : i ≠ j := by omega
    simpa [hne] using hs

/-- Past the threshold the window alone decides. -/
theorem isOpen_of_lt {T : RedisBackoffTracker} {host : Host} (hown : T.Owns host) {s : Tracked}
    {n : Nat} (hn : s.redis.consecutiveFailures.getD 0 = n) (hlt : n < 2 ^ 32)
    (hthr : T.backoff.failureThreshold.toNat ≤ n) (nowMs : UInt64) :
    (T.isOpen host nowMs s).1 = .ok (s.redis.backoffUntilMs.any (nowMs < ·)) := by
  obtain ⟨f, hf, hfn⟩ : ∃ f, s.redis.failures = .ok f ∧ (f.getD 0).toNat = n := by
    cases hc : s.redis.consecutiveFailures with
    | none =>
      rw [hc] at hn
      exact ⟨none, by simp [HostState.failures, hc], hn⟩
    | some m =>
      rw [hc, Option.getD_some] at hn
      subst hn
      refine ⟨some (UInt32.ofNat m), ?_, ?_⟩
      · simp only [HostState.failures, hc]
        rw [if_pos hlt]
      · rw [Option.getD_some, UInt32.toNat_ofNat', Nat.mod_eq_of_lt hlt]
  have hge : ¬ f.getD 0 < T.backoff.failureThreshold := by
    rw [UInt32.lt_iff_toNat_lt]
    omega
  unfold RedisBackoffTracker.isOpen
  rw [RedisBackoffTracker.assertOwned_of_owns hown]
  simp only [hf, RedisBackoffTracker.opens, hge, if_false]

/-- A count past `u32` is not read. -/
theorem isOpen_of_ge {T : RedisBackoffTracker} {host : Host} (hown : T.Owns host) {s : Tracked}
    (hge : 2 ^ 32 ≤ s.redis.consecutiveFailures.getD 0) (nowMs : UInt64) :
    (T.isOpen host nowMs s).1 = .error .redis := by
  have hf : s.redis.failures = .error .redis := by
    cases hc : s.redis.consecutiveFailures with
    | none => simp [hc] at hge
    | some m =>
      have hm : ¬ m < 2 ^ 32 := by simpa [hc] using hge
      simp only [HostState.failures, hc, if_neg hm]
  unfold RedisBackoffTracker.isOpen
  rw [RedisBackoffTracker.assertOwned_of_owns hown]
  simp only [hf]

/-- The breaker is open until the longest window a call has returned has ended. -/
def Race.StaysOpen (T : RedisBackoffTracker) (host : Host) (s : Race) : Prop :=
  ∀ cached i u, s.phase i = .done u → ∀ nowMs < u,
    (T.isOpen host nowMs ⟨s.redis, cached⟩).1 = .ok true

section Open

variable {T : RedisBackoffTracker} {host : Host} {calls : List FailureCall} {r : HostState}
  {tr : List RoundTrip} {s : Race}

/-- While the count is read, the breaker stays open as long as the window is kept. -/
theorem staysOpen_of_lt (h : Traced T.backoff calls r tr s) (hown : T.Owns host)
    (hlt : s.redis.consecutiveFailures.getD 0 < 2 ^ 32)
    (hthr : T.backoff.failureThreshold.toNat ≤ s.redis.consecutiveFailures.getD 0) :
    s.StaysOpen T host ↔ s.Kept := by
  have hopen : ∀ cached nowMs, (T.isOpen host nowMs ⟨s.redis, cached⟩).1 =
      .ok (s.redis.backoffUntilMs.any (nowMs < ·)) := fun cached nowMs =>
    isOpen_of_lt (s := ⟨s.redis, cached⟩) hown rfl hlt hthr nowMs
  constructor
  · intro ho i u hi
    have hu := (h.done u).1 ⟨i, hi⟩
    obtain ⟨stored, hst⟩ : ∃ stored, s.redis.backoffUntilMs = some stored := by
      obtain ⟨last, hlast⟩ : ∃ last,
          (windows T.backoff calls (r.consecutiveFailures.getD 0) [] tr).getLast? = some last :=
        Option.ne_none_iff_exists'.1 (by simpa using List.ne_nil_of_mem hu)
      exact ⟨last, by rw [h.window, hlast]; rfl⟩
    refine ⟨stored, hst, ?_⟩
    by_contra hnot
    -- asked at the end of the stored window, which is too early
    have hans := ho false i u hi stored (UInt64.not_le.1 hnot)
    rw [hopen, hst] at hans
    simp at hans
  · intro hk cached i u hi nowMs hnow
    obtain ⟨stored, hst, hle⟩ := hk i u hi
    rw [hopen, hst]
    simp [UInt64.lt_of_lt_of_le hnow hle]

/-- A count past `u32` leaves nothing open but windows that have ended from the start. -/
theorem staysOpen_of_ge (h : Traced T.backoff calls r tr s) (hown : T.Owns host)
    (hge : 2 ^ 32 ≤ s.redis.consecutiveFailures.getD 0) :
    s.StaysOpen T host ↔
      ∀ w ∈ windows T.backoff calls (r.consecutiveFailures.getD 0) [] tr, w = 0 := by
  constructor
  · intro ho w hw
    obtain ⟨i, hi⟩ := (h.done w).2 hw
    by_contra hne
    have hans := ho false i w hi 0 (UInt64.pos_iff_ne_zero.2 hne)
    rw [isOpen_of_ge (s := ⟨s.redis, false⟩) hown hge] at hans
    cases hans
  · intro hz cached i u hi nowMs hnow
    rw [hz u ((h.done u).1 ⟨i, hi⟩)] at hnow
    exact absurd hnow (UInt64.not_lt_zero)

end Open

/-- Two answers of 429 without a hint. -/
def twoRefusals : List FailureCall := [⟨.tooManyRequests, none⟩, ⟨.tooManyRequests, none⟩]

/-- One call after the other. -/
def inTurn : List RoundTrip := [.hincr 0, .hset 0 0, .hincr 1, .hset 1 0]

/-- The second call overtakes the first. -/
def overtaken : List RoundTrip := [.hincr 0, .hincr 1, .hset 1 0, .hset 0 0]

def afterRefusals (tr : List RoundTrip) : Race :=
  LTS.replay (Race.step .default twoRefusals) (.start .absent) tr

theorem afterRefusals_inTurn (i : Nat) (hi : i < 2) : ∃ u, (afterRefusals inTurn).phase i = .done u := by
  rcases Nat.lt_or_ge i 1 with h | h
  · obtain rfl : i = 0 := by omega
    exact ⟨30000, by decide +kernel⟩
  · obtain rfl : i = 1 := by omega
    exact ⟨60000, by decide +kernel⟩

end Crawlrs

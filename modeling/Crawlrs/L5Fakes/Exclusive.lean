import Crawlrs.L5Fakes.Moves

/-!
# The in-memory frontier keeps its hosts exclusive

A claim takes its host out of `ready` and parks it in `wake` until the lease
expires. Nothing but `advance_wake` of the host, or a tick at the expiry or later,
brings it back: `submit` and the reclaim of a tick write `wake` only where it has
no entry, and a promotion reads it.

Every call of a frontier is a run of moves on each of its shards (`after_moved`).
-/
namespace Crawlrs

namespace Fakes

/-! ## Runs of a frontier -/

/-- The calls that change a frontier, with the clock they read. -/
inductive FrontierOp
  | submit (e : UrlEntry) (now : Nat)
  | submitBatch (es : List UrlEntry) (now : Nat)
  | claim (now : Nat)
  | advanceWake (host : Host) (untilMs : UInt64)
  | ack (attempt : String)
  | tick (order : IterOrder) (now : Nat)

/-- No `advance_wake` of the host, and no tick at `expiry` or later. -/
def FrontierOp.Spares (h : Host) (expiry : Nat) : FrontierOp → Prop
  | .advanceWake h' _ => h' ≠ h
  | .tick _ now => now < expiry
  | _ => True

/-- Only a tick promotes, and only `advance_wake` sets a wake-time unasked. -/
def FrontierOp.Makes (op : FrontierOp) : Move → Prop
  | .promote _ now => ∃ order, op = .tick order now
  | .advance h _ => ∃ untilMs, op = .advanceWake h untilMs
  | _ => True

theorem FrontierOp.Makes.spares {op : FrontierOp} {h : Host} {expiry : Nat} (hop : op.Spares h expiry)
    {m : Move} (hm : op.Makes m) : m.Spares h expiry := by
  cases m with
  | promote x now =>
    obtain ⟨order, rfl⟩ := hm
    exact hop
  | advance x t =>
    obtain ⟨untilMs, rfl⟩ := hm
    exact hop
  | _ => trivial

theorem FrontierOp.makes_of_harmless (op : FrontierOp) {m : Move} (hm : ∀ h x, m.Spares h x) :
    op.Makes m := by
  cases m with
  | promote x now => exact absurd (hm x 0) (Nat.not_lt_zero now)
  | advance x t => exact absurd rfl (hm x 0)
  | _ => trivial

namespace InMemoryFrontier

variable (M : InMemoryFrontier) (W : Wire)

def after (st : FrontierState) : FrontierOp → FrontierState
  | .submit e now => (M.submit W now e st).2
  | .submitBatch es now => (M.submitBatch W now es st).2
  | .claim now => (M.claim now st).2
  | .advanceWake host untilMs => M.advanceWake host untilMs st
  | .ack attempt => (M.ack attempt st).2
  | .tick order now => (M.tick order now st).2

/-- Every run of a frontier, from no URL on. The clock may even go back. -/
def runs : LTS FrontierState FrontierOp := LTS.ofFn (· = {}) fun st op => some (M.after W st op)

/-- The hosts of a shard. -/
def Home (k : ShardKey) (h : Host) : Prop := M.policy.shardKeyFromHost h = k

/-- Every shard got where it is by moves that spare what the call spares. -/
def Moved (Q : Move → Prop) (st st' : FrontierState) : Prop :=
  ∀ k, ∃ ms, (ShardState.moves (M.Home k)).Steps (st.shards k) ms (st'.shards k) ∧ ∀ m ∈ ms, Q m

variable {M W} {Q : Move → Prop} {st st' st'' : FrontierState}

theorem Moved.refl (st : FrontierState) : M.Moved Q st st := fun k => ⟨[], .nil _, by simp⟩

theorem Moved.trans (h : M.Moved Q st st') (h' : M.Moved Q st' st'') : M.Moved Q st st'' := by
  intro k
  obtain ⟨ms, hst, hQ⟩ := h k
  obtain ⟨ms', hst', hQ'⟩ := h' k
  refine ⟨ms ++ ms', hst.append hst', fun m hm => ?_⟩
  rcases List.mem_append.1 hm with hm | hm
  · exact hQ m hm
  · exact hQ' m hm

theorem moved_setShard {k : ShardKey} {s : ShardState} {ms : List Move}
    (hst : (ShardState.moves (M.Home k)).Steps (st.shards k) ms s) (hQ : ∀ m ∈ ms, Q m) :
    M.Moved Q st (setShard st k s) := by
  intro j
  by_cases hj : j = k
  · subst hj
    exact ⟨ms, by simpa [setShard] using hst, hQ⟩
  · refine ⟨[], ?_, by simp⟩
    simp only [setShard, Function.update_of_ne hj]
    exact .nil _

theorem check_ok {e : UrlEntry} {k : ShardKey} {h : Host} (hc : M.check e = .ok (k, h)) :
    e.url.host = some h ∧ M.Home k h := by
  unfold check at hc
  simp only at hc
  split at hc
  · cases hc
  · split at hc
    · cases hc
    · rename_i host hhost
      cases hc
      refine ⟨hhost, ?_⟩
      simp [Home, HostHashShardPolicy.shardKey, hhost]

/-- A new URL, in its own shard. -/
theorem enqueue_moves {k : ShardKey} {s : ShardState} {e : UrlEntry} {h : Host} {u : UrlId}
    (hc : M.check e = .ok (k, h)) (hu : u ∉ s.seen) (counts : Host → Nat) (now : Nat) :
    (ShardState.moves (M.Home k)).Steps s [.enqueue e u h now]
      ({ s with hostCount := counts }.enqueue e u h now) :=
  .cons (.enqueue counts hu (check_ok hc).1 (check_ok hc).2) (.nil _)

theorem submitEntry_moves {k : ShardKey} {e : UrlEntry} {h : Host} (hc : M.check e = .ok (k, h))
    (cap : Option UInt64) (now : Nat) (s : ShardState) (u : UrlId) :
    ∃ ms, (ShardState.moves (M.Home k)).Steps s ms (s.submitEntry cap now e u h).1 ∧
      ∀ m ∈ ms, ∀ h x, m.Spares h x := by
  unfold ShardState.submitEntry
  split
  · exact ⟨[], .nil s, by simp⟩
  · split
    · exact ⟨[], .nil s, by simp⟩
    · rename_i hu
      refine ⟨[.enqueue e u h now], ?_, ?_⟩
      · dsimp only
        split
        · exact enqueue_moves hc hu _ now
        · exact enqueue_moves hc hu s.hostCount now
      · intro m hm
        rw [List.mem_singleton.1 hm]
        exact fun _ _ => trivial

theorem submitLoop_moved (now : Nat) (es : List UrlEntry) (hQ : ∀ m : Move, (∀ h x, m.Spares h x) → Q m) :
    ∀ (st : FrontierState) (outcome : SubmitBatchOutcome),
      M.Moved Q st (M.submitLoop W now es st outcome).2 := by
  induction es with
  | nil => exact fun st _ => .refl st
  | cons e es ih =>
    intro st outcome
    rw [submitLoop]
    split
    · exact .refl st
    · rename_i k h hc
      obtain ⟨ms, hst, hsp⟩ := submitEntry_moves hc (M.crawlScope.maxUrlsFor h) now (st.shards k)
        (W.idOf e)
      have hone := moved_setShard hst fun m hm => hQ m (hsp m hm)
      dsimp only
      split
      · exact hone.trans (ih _ _)
      · exact hone.trans (ih _ _)
      · exact hone.trans (ih _ _)

theorem sweep_moved (now : Nat) (ks : List ShardKey) (hQ : ∀ m : Move, (∀ h x, m.Spares h x) → Q m) :
    ∀ (st : FrontierState) (soonest : Option Nat), M.Moved Q st (M.sweep now ks st soonest).2 := by
  induction ks with
  | nil => exact fun st _ => .refl st
  | cons k ks ih =>
    intro st soonest
    obtain ⟨ms, hst, hsp⟩ := @ShardState.pop_moves (M.Home k) (st.shards k) now
      M.leaseTimeoutMs
    have hone := moved_setShard hst fun m hm => hQ m (hsp m hm)
    cases hf : ((st.shards k).popOneReady now M.leaseTimeoutMs).2 with
    | found u e h =>
      unfold sweep
      simp only [hf]
      exact hone
    | missing u =>
      unfold sweep
      simp only [hf]
      exact hone
    | nothing =>
      rw [sweep_nothing (Prod.ext rfl hf)]
      exact hone.trans (ih _ _)

/-- What a call does, shard by shard. -/
theorem after_moved (op : FrontierOp) : M.Moved op.Makes st (M.after W st op) := by
  have hQ : ∀ m : Move, (∀ h x, m.Spares h x) → op.Makes m := fun m => op.makes_of_harmless
  cases op with
  | submit e now =>
    simp only [after, submit]
    split
    · exact .refl st
    · rename_i k host hc
      simp only [ShardState.submit]
      split
      · exact moved_setShard (.nil _) (by simp)
      · rename_i hu
        refine moved_setShard (enqueue_moves hc hu (st.shards k).hostCount now) fun m hm => ?_
        rw [List.mem_singleton.1 hm]
        trivial
  | submitBatch es now => exact submitLoop_moved now es hQ st {}
  | claim now =>
    simp only [after, claim]
    split
    · exact .refl st
    · exact sweep_moved now _ hQ { st with claimCursor := st.claimCursor + 1 } none
  | advanceWake host untilMs =>
    intro k
    simp only [after, advanceWake]
    split
    · refine ⟨[.advance host untilMs.toNat], .cons .advance (.nil _), fun m hm => ?_⟩
      rw [List.mem_singleton.1 hm]
      exact ⟨untilMs, rfl⟩
    · exact ⟨[], .nil _, by simp⟩
  | ack attempt =>
    simp only [after, ack]
    split
    · exact .refl st
    · rename_i k u _
      split
      · refine moved_setShard (.cons (.ack (u := u)) (.nil _)) fun m hm => ?_
        rw [List.mem_singleton.1 hm]
        trivial
      · exact .refl st
  | tick order now =>
    intro k
    simp only [after, tick]
    split
    · obtain ⟨ms, hst, hmk⟩ := @ShardState.tick_moves (M.Home k) order now (st.shards k)
      refine ⟨ms, hst, fun m hm => ?_⟩
      rcases hmk m hm with hsp | ⟨y, rfl⟩
      · exact hQ m hsp
      · exact ⟨order, rfl⟩
    · exact ⟨[], .nil _, by simp⟩

/-! ## Exclusion -/

theorem placed_inductive (M : InMemoryFrontier) (W : Wire) :
    (M.runs W).Inductive fun st => ∀ k, ShardState.Placed (M.Home k) (st.shards k) where
  init st h0 := by
    have h0 : st = {} := h0
    rw [h0]
    exact fun k => ShardState.placed_empty _
  step st op st' hp hst := by
    have hst : M.after W st op = st' := Option.some.inj hst
    rw [← hst]
    intro k
    obtain ⟨ms, hms, -⟩ := (after_moved op : M.Moved op.Makes st (M.after W st op)) k
    exact hms.stable (P := ShardState.Placed (M.Home k))
      (fun _ _ _ h hs => ShardState.placed_step h hs) (hp k)

/-- A parked host stays so in every run that spares it. -/
theorem parked_steps {h : Host} {x : Nat} {k : ShardKey} {ops : List FrontierOp}
    (hrun : (M.runs W).Steps st ops st') (hops : ∀ op ∈ ops, op.Spares h x)
    (hp : ShardState.Parked h x (st.shards k)) : ShardState.Parked h x (st'.shards k) := by
  refine hrun.preserves (P := fun st => ShardState.Parked h x (st.shards k))
    (Q := fun op => op.Spares h x) (fun st op st' hp hop hst => ?_) hops hp
  have hst : M.after W st op = st' := Option.some.inj hst
  rw [← hst]
  obtain ⟨ms, hms, hmk⟩ := (after_moved op : M.Moved op.Makes st (M.after W st op)) k
  exact hms.preserves (P := ShardState.Parked h x) (Q := Move.Spares h x)
    (fun _ _ _ h hm hs => ShardState.parked_step h hm hs)
    (fun m hm => (hmk m hm).spares hop) hp

/-- The host of a claimed URL was ready on its shard, and is parked there. -/
theorem sweep_claimed (now : Nat) (ks : List ShardKey) :
    ∀ (st : FrontierState) (soonest : Option Nat) {u : UrlId} {e : UrlEntry} {a : String},
      (∀ k, ShardState.Placed (M.Home k) (st.shards k)) →
      (M.sweep now ks st soonest).1 = some (.claimed u e a) →
      ∃ k h, e.url.host = some h ∧ h ∈ (st.shards k).ready ∧
        ShardState.Parked h (min (now + M.leaseTimeoutMs) maxMs)
          ((M.sweep now ks st soonest).2.shards k) := by
  induction ks with
  | nil =>
    intro st soonest u e a _ hcl
    rw [sweep] at hcl
    split at hcl <;> cases hcl
  | cons k ks ih =>
    intro st soonest u e a hp hcl
    cases hf : ((st.shards k).popOneReady now M.leaseTimeoutMs).2 with
    | found v e' h =>
      unfold sweep at hcl ⊢
      simp only [hf] at hcl ⊢
      cases hcl
      obtain ⟨hr, he, hpk⟩ := ShardState.pop_found (hp k) hf
      refine ⟨k, h, he, hr, ?_⟩
      simpa [setShard] using hpk
    | missing v =>
      unfold sweep at hcl
      simp only [hf] at hcl
      cases hcl
    | nothing =>
      rw [sweep_nothing (Prod.ext rfl hf)] at hcl ⊢
      obtain ⟨ms, hms, -⟩ := @ShardState.pop_moves (M.Home k) (st.shards k) now
        M.leaseTimeoutMs
      have hp' : ∀ j, ShardState.Placed (M.Home j)
          ((setShard st k ((st.shards k).popOneReady now M.leaseTimeoutMs).1).shards j) := by
        intro j
        by_cases hj : j = k
        · subst hj
          simp only [setShard, Function.update_self]
          exact hms.stable (P := ShardState.Placed (M.Home j))
            (fun _ _ _ h hs => ShardState.placed_step h hs) (hp j)
        · simpa [setShard, hj] using hp j
      obtain ⟨j, h, he, hr, hpk⟩ := ih _ _ hp' hcl
      refine ⟨j, h, he, ?_, hpk⟩
      by_cases hj : j = k
      · -- the shard that was swept has no ready host left
        subst hj
        simp only [setShard, Function.update_self, ShardState.pop_nothing hf] at hr
        cases hr
      · simpa [setShard, hj] using hr

theorem claim_claimed {now : Nat} {u : UrlId} {e : UrlEntry} {a : String}
    (hp : ∀ k, ShardState.Placed (M.Home k) (st.shards k))
    (hcl : (M.claim now st).1 = some (.claimed u e a)) :
    ∃ k h, e.url.host = some h ∧ h ∈ (st.shards k).ready ∧
      ShardState.Parked h (min (now + M.leaseTimeoutMs) maxMs) ((M.claim now st).2.shards k) := by
  unfold claim at hcl ⊢
  split at hcl
  · cases hcl
  · rename_i hne
    rw [if_neg hne]
    exact sweep_claimed now _ { st with claimCursor := st.claimCursor + 1 } none hp hcl

end InMemoryFrontier

open InMemoryFrontier in
/-- **Hosts are exclusive.** Whatever the order of the calls, no host is ready twice; and from the
claim of a URL until `advance_wake` of its host or a tick at the lease's expiry (`now_ms` plus the
timeout, as `u64` adds them), the host is not ready and none of its URLs is claimed. -/
theorem hosts_exclusive (M : InMemoryFrontier) (W : Wire) (st : FrontierState)
    (hst : (M.runs W).Reachable st) :
    (∀ k, (st.shards k).ready.Nodup) ∧
      ∀ (t : Nat) (u : UrlId) (e : UrlEntry) (a : String) (h : Host),
        (M.claim t st).1 = some (.claimed u e a) → e.url.host = some h →
        ∀ (ops : List FrontierOp) (st' : FrontierState), (M.runs W).Steps (M.claim t st).2 ops st' →
          (∀ op ∈ ops, op.Spares h (min (t + M.leaseTimeoutMs) maxMs)) →
          (∀ k, h ∉ (st'.shards k).ready) ∧
            ∀ (t' : Nat) (u' : UrlId) (e' : UrlEntry) (a' : String),
              (M.claim t' st').1 = some (.claimed u' e' a') → e'.url.host ≠ some h := by
  have hp := (placed_inductive M W).reachable st hst
  refine ⟨fun k => (hp k).ready_nodup, ?_⟩
  intro t u e a h hcl he ops st' hrun hops
  obtain ⟨k, x, hx, hr, hpk⟩ := claim_claimed hp hcl
  rw [he] at hx
  cases hx
  have hclaim : (M.runs W).Reachable (M.claim t st).2 := by
    have hstep : (M.runs W).step st (.claim t) (M.claim t st).2 := rfl
    exact .step hst hstep
  have hp' := (placed_inductive M W).reachable st' (hclaim.steps hrun)
  have hpk' := parked_steps hrun hops hpk
  -- on its own shard the host is parked, and it is on no other
  have hunready : ∀ j, h ∉ (st'.shards j).ready := by
    intro j hj
    have hjk : M.policy.shardKeyFromHost h = j := (hp' j).ready_home h hj
    have hk : M.policy.shardKeyFromHost h = k := (hp k).ready_home h hr
    rw [← hjk, hk] at hj
    exact hpk'.unready hj
  refine ⟨hunready, fun t' u' e' a' hcl' he' => ?_⟩
  obtain ⟨j, y, hy, hyr, -⟩ := claim_claimed hp' hcl'
  rw [he'] at hy
  cases hy
  exact hunready j hyr

/-- A frontier of one shard with a lease of ten milliseconds. -/
def tenMs : InMemoryFrontier := ⟨⟨1, HostHashShardPolicy.one_shard⟩, [0], ⟨none, none, fun _ => none⟩, 10⟩

def readyA : FrontierState :=
  LTS.replay (fun st op => some (tenMs.after .sample st op)) {} [.submit .seedA 0, .tick .asIs 0]

/-- A second URL of the host waits while the first is leased, over ticks before the expiry. -/
theorem hosts_exclusive_waiting :
    (tenMs.claim 9 (LTS.replay (fun st op => some (tenMs.after .sample st op))
      (tenMs.claim 0 readyA).2 [.submit .seedA' 1, .tick .asIs 9])).1 ≠
        some (.claimed Wire.idA' .seedA' (encodeAttempt 0 Wire.idA')) := by
  have hready : (tenMs.runs .sample).Reachable readyA :=
    LTS.Reachable.steps (.init rfl) (LTS.steps_replay rfl)
  intro hcl
  refine ((hosts_exclusive tenMs .sample readyA hready).2 0 Wire.idA .seedA
    (encodeAttempt 0 Wire.idA) "a.test" (by decide +kernel) rfl _ _ (LTS.steps_replay rfl) ?_).2 9
    _ _ _ hcl rfl
  intro op hop
  simp only [List.mem_cons, List.not_mem_nil, or_false] at hop
  rcases hop with rfl | rfl
  · trivial
  · show 9 < min (0 + 10) maxMs
    decide

end Fakes

end Crawlrs

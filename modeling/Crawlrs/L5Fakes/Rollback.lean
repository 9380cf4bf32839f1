import Crawlrs.L4Runtime.PartialBatch
import Crawlrs.L5Fakes.Frontier

/-!
# What a failed batch leaves behind, in both frontiers

The outbox counts on `submit_batch` being all or nothing. Neither frontier undoes
what it has done when an error comes up. The Redis frontier checks every entry
before its first script call, so only a failing call can find the effects of
earlier ones. The in-memory frontier checks an entry when its turn comes, so
an entry it turns down finds the entries before it submitted.

`batch_rollback_iff` says for each exactly which errors leave nothing behind.
-/
namespace Crawlrs

namespace Fakes

namespace ShardState

/-- There is nothing to do for the URL: its host is at its cap, or it was seen. -/
def Closed (cap : Option UInt64) (s : ShardState) (u : UrlId) (h : Host) : Prop :=
  cap.any (fun c => c.toNat ≤ s.hostCount h) ∨ u ∈ s.seen

instance (cap : Option UInt64) (s : ShardState) (u : UrlId) (h : Host) :
    Decidable (Closed cap s u h) := inferInstanceAs (Decidable (_ ∨ _))

variable {cap : Option UInt64} {now : Nat} {s : ShardState} {e : UrlEntry} {u : UrlId} {h : Host}

theorem enqueue_seen (s : ShardState) (e : UrlEntry) (u : UrlId) (h : Host) (now : Nat) :
    (s.enqueue e u h now).seen = insert u s.seen := by
  unfold enqueue wakeOrInsert
  split
  · rfl
  · rfl

theorem submitEntry_closed (hc : Closed cap s u h) : (submitEntry cap now s e u h).1 = s := by
  unfold submitEntry
  split
  · rfl
  · rename_i hroom
    rw [if_pos (hc.resolve_left hroom)]

theorem submitEntry_open (now : Nat) (e : UrlEntry) (hc : ¬ Closed cap s u h) :
    u ∉ s.seen ∧ u ∈ (submitEntry cap now s e u h).1.seen := by
  obtain ⟨hroom, hnew⟩ := not_or.1 hc
  refine ⟨hnew, ?_⟩
  rw [submitEntry, if_neg hroom, if_neg hnew]
  simp [enqueue_seen]

theorem submitEntry_seen {v : UrlId} (hv : v ∈ s.seen) :
    v ∈ (submitEntry cap now s e u h).1.seen := by
  unfold submitEntry
  split
  · exact hv
  · split
    · exact hv
    · simp only [enqueue_seen]
      split
      · exact Finset.mem_insert_of_mem hv
      · exact Finset.mem_insert_of_mem hv

end ShardState

namespace InMemoryFrontier

variable (M : InMemoryFrontier) (W : Wire)

/-- `check` succeeds. -/
def Accepts (e : UrlEntry) : Prop := M.policy.shardKey e.url ∈ M.ownedShards ∧ e.url.host.isSome

instance (e : UrlEntry) : Decidable (M.Accepts e) := inferInstanceAs (Decidable (_ ∧ _))

def hostOf (e : UrlEntry) : Host := e.url.host.getD ""

/-- The loop body on the shard of the entry. -/
def entryBody (now : Nat) (s : ShardState) (e : UrlEntry) : ShardState × Shard.Verdict :=
  s.submitEntry (M.crawlScope.maxUrlsFor (hostOf e)) now e (W.idOf e) (hostOf e)

def shardOfEntry (e : UrlEntry) : ShardKey := M.policy.shardKey e.url

/-- One entry, on the shard of its host. -/
def submitOne (now : Nat) :
    (ShardKey → ShardState) → UrlEntry → (ShardKey → ShardState) × Shard.Verdict :=
  Loop.keyed M.shardOfEntry (M.entryBody W now)

variable {M W}

theorem check_of_accepts {e : UrlEntry} (h : M.Accepts e) :
    M.check e = .ok (M.shardOfEntry e, hostOf e) := by
  obtain ⟨host, hh⟩ := Option.isSome_iff_exists.1 h.2
  simp [check, h.1, hh, shardOfEntry, hostOf]

theorem check_error {e : UrlEntry} (h : ¬ M.Accepts e) : ∃ err, M.check e = .error err := by
  unfold check
  by_cases ho : M.policy.shardKey e.url ∈ M.ownedShards
  · have hn : e.url.host = none := by
      simpa [Accepts, ho] using h
    simp [ho, hn]
  · simp [ho]

/-- The outcome with one more entry. -/
def tally (outcome : SubmitBatchOutcome) (e : UrlEntry) : Shard.Verdict → SubmitBatchOutcome
  | .rejected => { outcome with rejectedUrls := outcome.rejectedUrls ++ [e] }
  | .duplicate => outcome
  | .queued => { outcome with queued := outcome.queued + 1 }

/-- An entry that is not turned down. -/
theorem submitLoop_cons (now : Nat) {e : UrlEntry} (he : M.Accepts e) (es : List UrlEntry)
    (st : FrontierState) (outcome : SubmitBatchOutcome) :
    M.submitLoop W now (e :: es) st outcome =
      M.submitLoop W now es { st with shards := (M.submitOne W now st.shards e).1 }
        (tally outcome e (M.submitOne W now st.shards e).2) := by
  have hverdict : (M.submitOne W now st.shards e).2 = ((st.shards (M.shardOfEntry e)).submitEntry
      (M.crawlScope.maxUrlsFor (hostOf e)) now e (W.idOf e) (hostOf e)).2 := rfl
  simp only [submitLoop, check_of_accepts he]
  split
  · rename_i hv
    rw [hverdict, hv]
    rfl
  · rename_i hv
    rw [hverdict, hv]
    rfl
  · rename_i hv
    rw [hverdict, hv]
    rfl

/-- The loop is past the entries it does not turn down. -/
theorem submitLoop_append (now : Nat) {pre : List UrlEntry} (rest : List UrlEntry)
    (hpre : ∀ e ∈ pre, M.Accepts e) : ∀ (st : FrontierState) (outcome : SubmitBatchOutcome),
      ∃ outcome', M.submitLoop W now (pre ++ rest) st outcome =
        M.submitLoop W now rest
          { st with shards := Loop.after (M.submitOne W now) st.shards pre } outcome' := by
  induction pre with
  | nil => intro st outcome; exact ⟨outcome, rfl⟩
  | cons e pre ih =>
    intro st outcome
    rw [List.cons_append, submitLoop_cons now (hpre e List.mem_cons_self)]
    exact ih (fun e' he' => hpre e' (List.mem_cons_of_mem _ he')) _ _

/-- The loop over entries none of which is turned down. -/
theorem submitLoop_eq (now : Nat) {es : List UrlEntry} (hes : ∀ e ∈ es, M.Accepts e) :
    ∀ (st : FrontierState) (outcome : SubmitBatchOutcome), M.submitLoop W now es st outcome =
      (.ok ⟨outcome.queued + (Loop.trace (M.submitOne W now) st.shards es).countP (·.2 = .queued),
          outcome.rejectedUrls ++
            ((Loop.trace (M.submitOne W now) st.shards es).filter (·.2 = .rejected)).map Prod.fst⟩,
        { st with shards := Loop.after (M.submitOne W now) st.shards es }) := by
  induction es with
  | nil => intro st outcome; simp [submitLoop]
  | cons e es ih =>
    intro st outcome
    rw [submitLoop_cons now (hes e List.mem_cons_self),
      ih (fun e' he' => hes e' (List.mem_cons_of_mem _ he')), Loop.trace_cons, Loop.after_cons]
    cases (M.submitOne W now st.shards e).2 with
    | rejected => simp [tally]
    | duplicate => simp [tally]
    | queued => simp [tally, Nat.add_assoc, Nat.add_comm]

/-- Which entries have no effect, where none is turned down. -/
theorem after_submitOne_iff (now : Nat) (S : ShardKey → ShardState) (es : List UrlEntry) :
    Loop.after (M.submitOne W now) S es = S ↔ ∀ e ∈ es, (S (M.shardOfEntry e)).Closed
      (M.crawlScope.maxUrlsFor (hostOf e)) (W.idOf e) (hostOf e) := by
  refine Loop.after_eq_self_iff
    (fun S e => (S (M.shardOfEntry e)).Closed (M.crawlScope.maxUrlsFor (hostOf e)) (W.idOf e) (hostOf e))
    (fun (S : ShardKey → ShardState) (g : ShardKey × UrlId) => g.2 ∈ (S g.1).seen) ?_ ?_ ?_
  · intro S e g hg
    simp only [submitOne, Loop.keyed]
    by_cases hk : g.1 = M.shardOfEntry e
    · rw [hk, Function.update_self]
      exact ShardState.submitEntry_seen (hk ▸ hg)
    · rw [Function.update_of_ne hk]
      exact hg
  · intro S e hc
    simp only [submitOne, Loop.keyed, entryBody, ShardState.submitEntry_closed hc,
      Function.update_eq_self]
  · intro S e hc
    obtain ⟨hnew, hin⟩ := ShardState.submitEntry_open now e hc
    refine ⟨(M.shardOfEntry e, W.idOf e), hnew, ?_⟩
    simp only [submitOne, Loop.keyed, Function.update_self]
    exact hin

/-! ## Which errors leave nothing behind -/

variable (M W)

/-- An error comes with the state as it was. -/
def AllOrNothing (now : Nat) (es : List UrlEntry) (st : FrontierState) : Prop :=
  ∀ err, (M.submitBatch W now es st).1 = .error err → (M.submitBatch W now es st).2 = st

/-- The entries before the first one that is turned down have nothing to do: each is of a host at
its cap or was seen before the call. -/
def FailsFirst (es : List UrlEntry) (S : ShardKey → ShardState) : Prop :=
  ∀ pre e post, es = pre ++ e :: post → ¬ M.Accepts e → (∀ e' ∈ pre, M.Accepts e') →
    ∀ e' ∈ pre, (S (M.shardOfEntry e')).Closed (M.crawlScope.maxUrlsFor (hostOf e')) (W.idOf e')
      (hostOf e')

variable {M W}

theorem submitBatch_fail (now : Nat) {pre : List UrlEntry} {e : UrlEntry} (post : List UrlEntry)
    (he : ¬ M.Accepts e) (hpre : ∀ e' ∈ pre, M.Accepts e') (st : FrontierState) :
    ∃ err, M.submitBatch W now (pre ++ e :: post) st = (.error err,
      { st with shards := Loop.after (M.submitOne W now) st.shards pre }) := by
  obtain ⟨outcome, hloop⟩ := submitLoop_append (W := W) now (e :: post) hpre st {}
  obtain ⟨err, herr⟩ := check_error he
  refine ⟨err, hloop.trans ?_⟩
  simp only [submitLoop, herr]

theorem submitBatch_ok (now : Nat) {es : List UrlEntry} (hes : ∀ e ∈ es, M.Accepts e)
    (st : FrontierState) : ∃ outcome st', M.submitBatch W now es st = (.ok outcome, st') := by
  obtain ⟨outcome, hloop⟩ := submitLoop_append (W := W) now [] hes st {}
  rw [List.append_nil] at hloop
  exact ⟨outcome, _, hloop.trans rfl⟩

/-- The first entry of a list that is turned down, if one is. -/
theorem first_refused (M : InMemoryFrontier) (es : List UrlEntry) :
    (∀ e ∈ es, M.Accepts e) ∨ ∃ pre e post, es = pre ++ e :: post ∧ ¬ M.Accepts e ∧
      ∀ e' ∈ pre, M.Accepts e' := by
  induction es with
  | nil => exact .inl (by simp)
  | cons e es ih =>
    by_cases he : M.Accepts e
    · rcases ih with hall | ⟨pre, e', post, rfl, he', hpre⟩
      · exact .inl (by simpa [he] using hall)
      · exact .inr ⟨e :: pre, e', post, rfl, he', by simpa [he] using hpre⟩
    · exact .inr ⟨[], e, es, rfl, he, by simp⟩

theorem mem_rollback_iff (now : Nat) (es : List UrlEntry) (st : FrontierState) :
    M.AllOrNothing W now es st ↔ M.FailsFirst W es st.shards := by
  constructor
  · intro h pre e post hes he hpre
    subst hes
    obtain ⟨err, hrun⟩ := submitBatch_fail (W := W) now post he hpre st
    have hsame := h err (by rw [hrun])
    rw [hrun] at hsame
    exact (after_submitOne_iff now st.shards pre).1 (congrArg FrontierState.shards hsame)
  · intro h err herr
    rcases first_refused M es with hall | ⟨pre, e, post, rfl, he, hpre⟩
    · obtain ⟨outcome, st', hrun⟩ := submitBatch_ok (W := W) now hall st
      rw [hrun] at herr
      cases herr
    · obtain ⟨err', hrun⟩ := submitBatch_fail (W := W) now post he hpre st
      rw [hrun, (after_submitOne_iff now st.shards pre).2 (h pre e post rfl he hpre)]

end InMemoryFrontier

/-- **A failed batch** leaves a frontier as it was exactly where nothing was admitted before the
failure: by an earlier script call in Redis, by an earlier entry in memory. -/
theorem batch_rollback_iff {β : Type} (F : RedisFrontier) (M : InMemoryFrontier) (W : Wire)
    (B : Sketch UrlId β) (fails : ShardKey → Option String) (order : HashOrder) (now : Nat)
    (es : List UrlEntry) (R : Redis β) (st : FrontierState) :
    (F.AllOrNothing W B fails order now es R ↔ F.FailsFirst W B fails order es R.shards) ∧
      (M.AllOrNothing W now es st ↔ M.FailsFirst W es st.shards) :=
  ⟨RedisFrontier.rollback_iff fails order now es R, InMemoryFrontier.mem_rollback_iff now es st⟩

/-! ## Half a batch -/

/-- Two shards, the hosts uncapped. -/
def twoShards (owned : List ShardKey) : RedisFrontier :=
  ⟨⟨2, HostHashShardPolicy.two_shards⟩, owned, ⟨none, none, fun _ => none⟩⟩

def inMemory (owned : List ShardKey) : InMemoryFrontier :=
  ⟨⟨2, HostHashShardPolicy.two_shards⟩, owned, ⟨none, none, fun _ => none⟩, 60000⟩

/-- `a.test` is on shard 0 and `b.test` on shard 1. The call for shard 1 fails after the one for
shard 0 has queued its URL; and in memory the entry of a shard that is not owned comes second. -/
theorem half_a_batch :
    (¬ (twoShards [0, 1]).AllOrNothing .sample .exact
      (fun k => if k = 1 then some "redis error" else none) .asIs 0 [.seedA, .seedB] Redis.fresh) ∧
    ¬ (inMemory [0]).AllOrNothing .sample 0 [.seedA, .seedB] {} := by
  constructor
  · rw [RedisFrontier.rollback_iff]
    intro h
    have hclosed := h (by decide +kernel) [0] 1 [] (by decide +kernel) rfl (by simp) .seedA
      List.mem_cons_self (by decide +kernel)
    exact absurd hclosed (by decide +kernel)
  · rw [InMemoryFrontier.mem_rollback_iff]
    intro h
    have hclosed := h [.seedA] .seedB [] rfl (by decide +kernel) (by decide +kernel) .seedA
      List.mem_cons_self
    exact absurd hclosed (by decide +kernel)

end Fakes

end Crawlrs

import Crawlrs.L4Runtime.Sequential

/-!
# A batch whose script calls can fail

`submit_batch` issues one script call per shard and returns at the first that
fails. The calls before it have run. Nothing undoes them, so an error leaves the
frontier as it was only where they had no effect. The call that fails is one that
changed nothing; answers lost after a script has run are the subject of `Fleet`.

* `submitBatchOr_none`: without failures it is `submitBatch`.
* `rollback_iff`: which errors leave nothing behind.
-/
namespace Crawlrs

variable {β : Type}

namespace RedisFrontier

variable (F : RedisFrontier) (W : Wire) (B : Sketch UrlId β)

/-- The script calls up to the first that fails, which changes nothing itself; `fails` has the text
of the error. -/
def submitShardsOr (fails : ShardKey → Option String) (now : Int) (routed : List Routed) :
    List ShardKey → Redis β → SubmitBatchOutcome → Except Error SubmitBatchOutcome × Redis β
  | [], R, total => (.ok total, R)
  | k :: ks, R, total =>
    match fails k with
    | some text => (.error (.frontier text), R)
    | none =>
      let (R, total) := F.submitShard W B now (routed.filter (·.shard = k)) k R total
      submitShardsOr fails now routed ks R total

/-- mirrors crates/crawlrs-frontier/src/frontier.rs:280-370 -/
def submitBatchOr (fails : ShardKey → Option String) (order : HashOrder) (now : Int)
    (entries : List UrlEntry) (R : Redis β) : Except Error SubmitBatchOutcome × Redis β :=
  if entries = [] then (.ok {}, R)
  else
    match F.resolve W entries with
    | .error e => (.error (.frontier e.display), R)
    | .ok routed =>
      F.submitShardsOr W B fails now routed (order.iter (routed.map Routed.shard).dedup) R {}

variable {F W B}

theorem submitShardsOr_none (now : Int) (routed : List Routed) (ks : List ShardKey) :
    ∀ (R : Redis β) (total : SubmitBatchOutcome),
      F.submitShardsOr W B (fun _ => none) now routed ks R total =
        (.ok (F.submitShards W B now routed ks R total).2,
          (F.submitShards W B now routed ks R total).1) := by
  induction ks with
  | nil => intro R total; rfl
  | cons k ks ih => intro R total; exact ih _ _

theorem submitBatchOr_none (order : HashOrder) (now : Int) (es : List UrlEntry) (R : Redis β) :
    F.submitBatchOr W B (fun _ => none) order now es R = F.submitBatch W B order now es R := by
  unfold submitBatchOr submitBatch
  split
  · rfl
  · cases F.resolve W es with
    | error e => rfl
    | ok routed => exact submitShardsOr_none now _ _ R {}

/-- The calls before the first failing one have run. -/
theorem submitShardsOr_fail (now : Int) (routed : List Routed) {fails : ShardKey → Option String}
    {pre : List ShardKey} {k : ShardKey} (post : List ShardKey) {text : String}
    (hk : fails k = some text) (hpre : ∀ j ∈ pre, fails j = none) : ∀ (R : Redis β) (total : SubmitBatchOutcome),
      F.submitShardsOr W B fails now routed (pre ++ k :: post) R total =
        (.error (.frontier text), (F.submitShards W B now routed pre R total).1) := by
  induction pre with
  | nil => intro R total; simp [submitShardsOr, submitShards, hk]
  | cons j pre ih =>
    intro R total
    have hj := hpre j List.mem_cons_self
    simp only [List.cons_append, submitShardsOr, hj]
    exact ih (fun i hi => hpre i (List.mem_cons_of_mem _ hi)) _ _

theorem submitShardsOr_ok (now : Int) (routed : List Routed) {fails : ShardKey → Option String}
    {ks : List ShardKey} (hks : ∀ j ∈ ks, fails j = none) : ∀ (R : Redis β)
      (total : SubmitBatchOutcome), ∃ outcome R',
        F.submitShardsOr W B fails now routed ks R total = (.ok outcome, R') := by
  induction ks with
  | nil => intro R total; exact ⟨_, _, rfl⟩
  | cons j ks ih =>
    intro R total
    simp only [submitShardsOr, hks j List.mem_cons_self]
    exact ih (fun i hi => hks i (List.mem_cons_of_mem _ hi)) _ _

/-- The first shard of a list whose call fails, if one does. -/
theorem first_failing (fails : ShardKey → Option String) (ks : List ShardKey) :
    (∀ j ∈ ks, fails j = none) ∨ ∃ pre k post text, ks = pre ++ k :: post ∧ fails k = some text ∧
      ∀ j ∈ pre, fails j = none := by
  induction ks with
  | nil => exact .inl (by simp)
  | cons k ks ih =>
    cases hk : fails k with
    | some text => exact .inr ⟨[], k, ks, text, rfl, hk, by simp⟩
    | none =>
      rcases ih with hall | ⟨pre, k', post, text, rfl, hk', hpre⟩
      · exact .inl (by simpa [hk] using hall)
      · exact .inr ⟨k :: pre, k', post, text, rfl, hk', by simpa [hk] using hpre⟩

theorem takeWhile_first {fails : ShardKey → Option String} {pre : List ShardKey} {k : ShardKey}
    (hk : (fails k).isSome) (hpre : ∀ j ∈ pre, fails j = none) (post : List ShardKey) :
    (pre ++ k :: post).takeWhile (fun j => (fails j).isNone) = pre := by
  have hno : ¬ (fails k).isNone := by
    simpa [Option.isSome_iff_ne_none] using hk
  rw [List.takeWhile_append_of_pos (by simpa using hpre), List.takeWhile_cons, if_neg hno,
    List.append_nil]

/-! ## Which errors leave nothing behind -/

section Rollback

variable (F W B)

/-- An error comes with the keyspaces as they were. -/
def AllOrNothing (fails : ShardKey → Option String) (order : HashOrder) (now : Int)
    (es : List UrlEntry) (R : Redis β) : Prop :=
  ∀ err, (F.submitBatchOr W B fails order now es R).1 = .error err →
    (F.submitBatchOr W B fails order now es R).2.shards = R.shards

/-- The shards of a batch in the order of their script calls. -/
def callOrder (order : HashOrder) (es : List UrlEntry) : List ShardKey :=
  order.iter (es.map F.shardOfEntry).dedup

/-- If every entry is the frontier's, the shards called before the first failing one have nothing to
do: each of their entries is of a full host or in the filter before the call. -/
def FailsFirst (fails : ShardKey → Option String) (order : HashOrder) (es : List UrlEntry)
    (S : ShardKey → Shard β) : Prop :=
  (∀ e ∈ es, F.Accepts e) → ∀ pre k post, F.callOrder order es = pre ++ k :: post →
    (fails k).isSome → (∀ j ∈ pre, fails j = none) →
      ∀ e ∈ es, F.shardOfEntry e ∈ pre → (S (F.shardOfEntry e)).Closed B (F.itemOf W e)

variable {F W B}

/-- Script calls leave their shards alone exactly where these admit none of the entries. -/
theorem submitShards_eq_self_iff (now : Int) (es : List UrlEntry) {pre : List ShardKey}
    (hnd : pre.Nodup) (R : Redis β) :
    (F.submitShards W B now (es.map (F.route W)) pre R {}).1.shards = R.shards ↔
      ∀ e ∈ es, F.shardOfEntry e ∈ pre → (R.shards (F.shardOfEntry e)).Closed B (F.itemOf W e) := by
  have hstate := (submitShards_eq (F := F) (W := W) (B := B) now es hnd R {}).1
  constructor
  · intro h e he hj
    have hj' := congrFun h (F.shardOfEntry e)
    rw [hstate, if_pos hj] at hj'
    exact (Shard.after_body_eq_self_iff B now _ _ _).1 hj' e
      (List.mem_filter.2 ⟨he, decide_eq_true rfl⟩)
  · intro h
    funext j
    rw [hstate]
    split
    · rename_i hj
      refine (Shard.after_body_eq_self_iff B now _ _ _).2 fun e he => ?_
      obtain ⟨hmem, hej⟩ := List.mem_filter.1 he
      have hej : F.shardOfEntry e = j := of_decide_eq_true hej
      rw [← hej]
      exact h e hmem (hej ▸ hj)
    · rfl

theorem rollback_iff (fails : ShardKey → Option String) (order : HashOrder) (now : Int)
    (es : List UrlEntry) (R : Redis β) :
    F.AllOrNothing W B fails order now es R ↔ F.FailsFirst W B fails order es R.shards := by
  by_cases hacc : ∀ e ∈ es, F.Accepts e
  · by_cases hne : es = []
    · subst hne
      refine ⟨fun _ _ pre k post _ _ _ e he => ?_, fun _ err herr => ?_⟩
      · cases he
      · simp [submitBatchOr] at herr
    · have hkeys : order.iter ((es.map (F.route W)).map Routed.shard).dedup =
          F.callOrder order es := by rw [keys_eq]; rfl
      have hnd : (F.callOrder order es).Nodup :=
        (order.perm _).nodup_iff.2 (List.nodup_dedup _)
      have hbatch : F.submitBatchOr W B fails order now es R =
          F.submitShardsOr W B fails now (es.map (F.route W)) (F.callOrder order es) R {} := by
        simp only [submitBatchOr, if_neg hne, resolve_of_accepts hacc, hkeys]
      rcases first_failing fails (F.callOrder order es) with hok | ⟨pre, k, post, text, hsplit, hk, hpre⟩
      · obtain ⟨outcome, R', hrun⟩ := submitShardsOr_ok (F := F) (W := W) (B := B) now
          (es.map (F.route W)) hok R {}
        refine ⟨fun _ _ pre k post hsplit hk _ => ?_, fun _ err herr => ?_⟩
        · rw [hok k (by rw [hsplit]; simp)] at hk
          cases hk
        · rw [hbatch, hrun] at herr
          cases herr
      · have hrun := submitShardsOr_fail (F := F) (W := W) (B := B) now
          (es.map (F.route W)) post hk hpre R {}
        rw [← hsplit, ← hbatch] at hrun
        have hndpre : pre.Nodup := (List.nodup_append.1 (hsplit ▸ hnd)).1
        have hsame := submitShards_eq_self_iff (F := F) (W := W) (B := B) now es hndpre R
        constructor
        · intro h _ pre' k' post' hsplit' hk' hpre'
          -- the first failing shard is one place of the list
          have hpp : pre' = pre := by
            rw [← takeWhile_first hk' hpre' post', ← hsplit', hsplit, takeWhile_first (by simp [hk]) hpre]
          subst hpp
          have h := h _ (by rw [hrun])
          rw [hrun] at h
          exact hsame.1 h
        · intro h err herr
          rw [hrun]
          exact hsame.2 (h hacc pre k post hsplit (by simp [hk]) hpre)
  · have hbad : ∃ e ∈ es, ¬ F.Accepts e := by simpa using hacc
    obtain ⟨e, he⟩ := resolve_error (W := W) hbad
    have hne : es ≠ [] := by
      rintro rfl
      simp at hacc
    refine ⟨fun _ h => absurd h hacc, fun _ err herr => ?_⟩
    simp [submitBatchOr, hne, he]

end Rollback

end RedisFrontier

end Crawlrs

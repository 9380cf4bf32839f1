import Crawlrs.L1Data.Routing
import Crawlrs.L2Redis.Effects
import Crawlrs.L4Runtime.Pipeline

/-!
# The sharded frontier client (`crawlrs-frontier/src/frontier.rs`)

One `RedisFrontier` serves the shards it owns; the keyspaces of all shards are
one shared `Redis`. `submitBatch` resolves every entry first and gives up on the
first that is not its own, then runs `submit_batch.lua` once per shard, in the
order the hash map yields.

* `submitBatch_error`: an entry the frontier does not accept fails the batch,
  and no script has run.
* `submitBatch_settled`: otherwise every entry is settled in its shard: the
  filter has it, or the script rejected it by quota.
-/
namespace Crawlrs

variable {β : Type}

/-- All shards of a run. `rejected` is a record of what `submit_batch.lua` has rejected by quota,
which the keyspace itself does not keep. -/
structure Redis (β : Type) where
  shards : ShardKey → Shard β
  rejected : List (ShardKey × UrlId)

/-- No script has run. -/
def Redis.fresh : Redis (List UrlId) := ⟨fun _ => .fresh [], []⟩

/-- Nothing the filters or the record hold is forgotten. -/
structure Redis.Grows (B : Sketch UrlId β) (R R' : Redis β) : Prop where
  seen : ∀ k u, B.has (R.shards k).seen u → B.has (R'.shards k).seen u
  rejected : R.rejected ⊆ R'.rejected

namespace Redis.Grows

variable {B : Sketch UrlId β} {R R' R'' : Redis β}

theorem refl (R : Redis β) : Redis.Grows B R R := ⟨fun _ _ h => h, List.Subset.refl _⟩

theorem trans (h : Redis.Grows B R R') (h' : Redis.Grows B R' R'') : Redis.Grows B R R'' :=
  ⟨fun k u hu => h'.seen k u (h.seen k u hu), List.Subset.trans h.rejected h'.rejected⟩

end Redis.Grows

/-- mirrors crates/crawlrs-frontier/src/frontier.rs:52-77, the variants without a backend error -/
inductive RedisFrontierError
  | shardNotOwned (got : ShardKey) (owned : List ShardKey)
  | noHost (url : String)
  | malformedAttempt (raw : String)
deriving DecidableEq, Repr

def RedisFrontierError.display : RedisFrontierError → String
  | .shardNotOwned got owned =>
    s!"shard {got} is not owned by this frontier instance (owns {owned})"
  | .noHost url => "url has no host: " ++ url
  | .malformedAttempt raw => "malformed AttemptId: " ++ raw

/-- The order in which a hash map yields its keys. -/
structure HashOrder where
  iter : List ShardKey → List ShardKey
  perm : ∀ ks, (iter ks).Perm ks

theorem HashOrder.perm_id (ks : List ShardKey) : (id ks).Perm ks := .refl _

/-- The keys as they came. -/
def HashOrder.asIs : HashOrder := ⟨id, perm_id⟩

/-- mirrors crates/crawlrs-frontier/src/frontier.rs:88-104 -/
structure RedisFrontier where
  policy : HostHashShardPolicy
  ownedShards : List ShardKey
  crawlScope : CrawlScope

/-- Every host may have `n` URLs. -/
def CrawlScope.flat (n : UInt64) : CrawlScope := ⟨none, some n, fun _ => none⟩

/-- A process under the flat scope, with the one shard there is. -/
def RedisFrontier.flat (n : UInt64) : RedisFrontier := ⟨⟨1, HostHashShardPolicy.one_shard⟩, [0], .flat n⟩

/-- An entry with what `shard_of` found. -/
structure Routed where
  entry : UrlEntry
  shard : ShardKey
  host : Host
  urlId : UrlId
deriving DecidableEq

namespace RedisFrontier

variable (F : RedisFrontier) (W : Wire) (B : Sketch UrlId β)

/-- mirrors crates/crawlrs-frontier/src/frontier.rs:242-256 -/
def shardOf (e : UrlEntry) : Except RedisFrontierError Routed :=
  let shard := F.policy.shardKey e.url
  if shard ∉ F.ownedShards then .error (.shardNotOwned shard F.ownedShards)
  else
    match e.url.host with
    | none => .error (.noHost e.url.asStr)
    | some host => .ok ⟨e, shard, host, W.idOf e⟩

/-- The first loop of `submit_batch`. -/
def resolve : List UrlEntry → Except RedisFrontierError (List Routed)
  | [] => .ok []
  | e :: es =>
    match F.shardOf W e with
    | .error err => .error err
    | .ok r =>
      match resolve es with
      | .error err => .error err
      | .ok rs => .ok (r :: rs)

/-- A cap that does not fit `i64` is no cap.
mirrors crates/crawlrs-frontier/src/frontier.rs:318-322 -/
def maxUrls (host : Host) : Int :=
  match F.crawlScope.maxUrlsFor host with
  | some cap => if cap.toNat < 2 ^ 63 then cap.toNat else -1
  | none => -1

def submitItem (r : Routed) : Shard.SubmitItem :=
  ⟨r.urlId, r.host, W.encode r.entry, F.maxUrls r.host⟩

/-- One script call and the bookkeeping after it.
mirrors crates/crawlrs-frontier/src/frontier.rs:314-360 -/
def submitShard (now : Int) (items : List Routed) (k : ShardKey) (R : Redis β)
    (total : SubmitBatchOutcome) : Redis β × SubmitBatchOutcome :=
  let (s, queued, rejectedIds) :=
    Shard.submitBatch B now (items.map (F.submitItem W)) (R.shards k) (0, [])
  let rejected := rejectedIds.filterMap fun id => (items.find? (·.urlId = id)).map Routed.entry
  (⟨Function.update R.shards k s, R.rejected ++ rejectedIds.map (k, ·)⟩,
    ⟨total.queued + queued, total.rejectedUrls ++ rejected⟩)

def submitShards (now : Int) (routed : List Routed) :
    List ShardKey → Redis β → SubmitBatchOutcome → Redis β × SubmitBatchOutcome
  | [], R, total => (R, total)
  | k :: ks, R, total =>
    let (R, total) := F.submitShard W B now (routed.filter (·.shard = k)) k R total
    submitShards now routed ks R total

/-- mirrors crates/crawlrs-frontier/src/frontier.rs:280-370 -/
def submitBatch (order : HashOrder) (now : Int) (entries : List UrlEntry) (R : Redis β) :
    Except Error SubmitBatchOutcome × Redis β :=
  if entries = [] then (.ok {}, R)
  else
    match F.resolve W entries with
    | .error e => (.error (.frontier e.display), R)
    | .ok routed =>
      let keys := (routed.map Routed.shard).dedup
      let (R, total) := F.submitShards W B now routed (order.iter keys) R {}
      (.ok total, R)

def onShard (k : ShardKey) (f : Shard β → Shard β) (R : Redis β) : Redis β :=
  { R with shards := Function.update R.shards k (f (R.shards k)) }

/-- `until_ms as i64` wraps.
mirrors crates/crawlrs-frontier/src/frontier.rs:502-524 -/
def advanceWake (host : Host) (untilMs : UInt64) (R : Redis β) : Except Error Unit × Redis β :=
  let shard := F.policy.shardKeyFromHost host
  if shard ∈ F.ownedShards then
    (.ok (), onShard shard (·.advanceWake host untilMs.toInt64.toInt) R)
  else (.ok (), R)

/-- mirrors crates/crawlrs-frontier/src/frontier.rs:527-544 -/
def ack (attempt : String) (R : Redis β) : Except Error Unit × Redis β :=
  match decodeAttempt attempt with
  | .error raw => (.error (.frontier (RedisFrontierError.malformedAttempt raw).display), R)
  | .ok (shard, u, host) =>
    if shard ∈ F.ownedShards then
      (.ok (), onShard shard (fun s => (s.ackZrem ⟨u, host⟩).ackHdel u) R)
    else (.ok (), R)

/-! ## Which entries a frontier takes -/

/-- `shard_of` succeeds. -/
def Accepts (e : UrlEntry) : Prop := F.policy.shardKey e.url ∈ F.ownedShards ∧ e.url.host.isSome

instance (e : UrlEntry) : Decidable (F.Accepts e) :=
  inferInstanceAs (Decidable (_ ∧ _))

variable {F W B}

theorem shardOf_of_accepts {e : UrlEntry} (h : F.Accepts e) :
    ∃ r, F.shardOf W e = .ok r ∧ r.shard = F.policy.shardKey e.url ∧ r.urlId = W.idOf e := by
  obtain ⟨host, hh⟩ := Option.isSome_iff_exists.1 h.2
  simp [shardOf, h.1, hh]

theorem shardOf_error {e : UrlEntry} (h : ¬ F.Accepts e) : ∃ err, F.shardOf W e = .error err := by
  unfold shardOf
  by_cases ho : F.policy.shardKey e.url ∈ F.ownedShards
  · have hn : e.url.host = none := by
      simpa [Accepts, ho] using h
    simp [ho, hn]
  · simp [ho]

theorem resolve_error {es : List UrlEntry} (h : ∃ e ∈ es, ¬ F.Accepts e) :
    ∃ err, F.resolve W es = .error err := by
  induction es with
  | nil => simp at h
  | cons e es ih =>
    by_cases he : F.Accepts e
    · obtain ⟨r, hr, -⟩ := shardOf_of_accepts (W := W) he
      obtain ⟨err, herr⟩ := ih (by simpa [he] using h)
      exact ⟨err, by simp [resolve, hr, herr]⟩
    · obtain ⟨err, herr⟩ := shardOf_error (W := W) he
      exact ⟨err, by simp [resolve, herr]⟩

theorem resolve_ok {es : List UrlEntry} (h : ∀ e ∈ es, F.Accepts e) :
    ∃ rs, F.resolve W es = .ok rs ∧ ∀ e ∈ es, ∃ r ∈ rs,
      r.shard = F.policy.shardKey e.url ∧ r.urlId = W.idOf e := by
  induction es with
  | nil => exact ⟨[], rfl, by simp⟩
  | cons e es ih =>
    obtain ⟨r, hr, hk, hu⟩ := shardOf_of_accepts (W := W) (h e List.mem_cons_self)
    obtain ⟨rs, hrs, hall⟩ := ih fun e he => h e (List.mem_cons_of_mem _ he)
    refine ⟨r :: rs, by simp [resolve, hr, hrs], ?_⟩
    intro e' he'
    rcases List.mem_cons.1 he' with rfl | he'
    · exact ⟨r, List.mem_cons_self, hk, hu⟩
    · obtain ⟨r', hr', h'⟩ := hall e' he'
      exact ⟨r', List.mem_cons_of_mem _ hr', h'⟩

end RedisFrontier

/-! ## What a batch leaves behind -/

namespace Shard

variable (B : Sketch UrlId β)

theorem submitItem_seen (now : Int) (s : Shard β) (it : SubmitItem) {u : UrlId}
    (h : B.has s.seen u) : B.has (submitItem B now s it).1.seen u := by
  rw [submitItem_eq]
  split
  · exact h
  · split
    · exact h
    · exact B.has_insert _ _ _ h

theorem submitItem_settles (now : Int) (s : Shard β) (it : SubmitItem) :
    (submitItem B now s it).2 = .rejected ∨ B.has (submitItem B now s it).1.seen it.urlId := by
  rw [submitItem_eq]
  split
  · exact Or.inl rfl
  · split
    · rename_i hs; exact Or.inr hs
    · exact Or.inr (B.has_insert_self _ _)

theorem submitBatch_seen (now : Int) (its : List SubmitItem) :
    ∀ (s : Shard β) (acc : Nat × List UrlId) (u : UrlId), B.has s.seen u →
      B.has (submitBatch B now its s acc).1.seen u := by
  induction its with
  | nil => intro s acc u h; exact h
  | cons it its ih =>
    intro s acc u h
    have h1 := submitItem_seen B now s it h
    rw [submitBatch]
    split <;> rename_i heq <;> rw [heq] at h1 <;> exact ih _ _ u h1

theorem submitBatch_rejected (now : Int) (its : List SubmitItem) :
    ∀ (s : Shard β) (acc : Nat × List UrlId), acc.2 ⊆ (submitBatch B now its s acc).2.2 := by
  induction its with
  | nil => intro s acc; exact List.Subset.refl _
  | cons it its ih =>
    intro s acc u hu
    rw [submitBatch]
    split
    · exact ih _ _ hu
    · exact ih _ _ hu
    · exact ih _ _ (List.mem_append_left _ hu)

/-- Every entry of a batch is in the filter afterwards, or among the rejected ids. -/
theorem submitBatch_settles (now : Int) (its : List SubmitItem) :
    ∀ (s : Shard β) (acc : Nat × List UrlId), ∀ it ∈ its,
      B.has (submitBatch B now its s acc).1.seen it.urlId ∨
        it.urlId ∈ (submitBatch B now its s acc).2.2 := by
  induction its with
  | nil => intro s acc it h; cases h
  | cons it its ih =>
    intro s acc it' h
    have h1 := submitItem_settles B now s it
    rw [submitBatch]
    rcases List.mem_cons.1 h with rfl | h
    · split <;> rename_i heq <;> rw [heq] at h1
      · exact Or.inl (submitBatch_seen B now its _ _ _ (by simpa using h1))
      · exact Or.inl (submitBatch_seen B now its _ _ _ (by simpa using h1))
      · exact Or.inr (submitBatch_rejected B now its _ _ (by simp))
    · split
      · exact ih _ _ it' h
      · exact ih _ _ it' h
      · exact ih _ _ it' h

end Shard

namespace RedisFrontier

variable {F : RedisFrontier} {W : Wire} {B : Sketch UrlId β}

/-- The filter of the shard has the id, or the script has rejected it by quota. -/
def Settled (B : Sketch UrlId β) (R : Redis β) (k : ShardKey) (u : UrlId) : Prop :=
  B.has (R.shards k).seen u ∨ (k, u) ∈ R.rejected

theorem Settled.mono {R R' : Redis β} (hg : R.Grows B R') {k : ShardKey} {u : UrlId}
    (h : Settled B R k u) : Settled B R' k u := by
  rcases h with h | h
  · exact Or.inl (hg.seen k u h)
  · exact Or.inr (hg.rejected h)

/-- One script call over all its items. -/
theorem submitShard_spec (now : Int) (items : List Routed) (k : ShardKey) (R : Redis β)
    (total : SubmitBatchOutcome) :
    R.Grows B (F.submitShard W B now items k R total).1 ∧
      ∀ r ∈ items, Settled B (F.submitShard W B now items k R total).1 k r.urlId := by
  have hmono := Shard.submitBatch_seen B now (items.map (F.submitItem W)) (R.shards k) (0, [])
  have hset := Shard.submitBatch_settles B now (items.map (F.submitItem W)) (R.shards k) (0, [])
  refine ⟨⟨fun k' u hu => ?_, fun x hx => List.mem_append_left _ hx⟩, fun r hr => ?_⟩
  · by_cases hk : k' = k
    · subst hk
      simpa [submitShard] using hmono u hu
    · simpa [submitShard, hk] using hu
  · rcases hset _ (List.mem_map_of_mem hr) with h | h
    · exact Or.inl (by simpa [submitShard, submitItem] using h)
    · exact Or.inr (List.mem_append_right _ (List.mem_map_of_mem h))

theorem submitShards_grows (now : Int) (routed : List Routed) (ks : List ShardKey) :
    ∀ (R : Redis β) (total : SubmitBatchOutcome),
      R.Grows B (F.submitShards W B now routed ks R total).1 := by
  induction ks with
  | nil => intro R total; exact .refl R
  | cons k ks ih => intro R total; exact (submitShard_spec now _ k R total).1.trans (ih _ _)

theorem submitShards_settled (now : Int) (routed : List Routed) {r : Routed} (hr : r ∈ routed)
    (ks : List ShardKey) (hk : r.shard ∈ ks) : ∀ (R : Redis β) (total : SubmitBatchOutcome),
      Settled B (F.submitShards W B now routed ks R total).1 r.shard r.urlId := by
  induction ks with
  | nil => simp at hk
  | cons k ks ih =>
    intro R total
    by_cases hrk : r.shard = k
    · have hset := (submitShard_spec (F := F) (W := W) (B := B) now
        (routed.filter (·.shard = k)) k R total).2 r (by simp [hr, hrk])
      rw [hrk]
      exact hset.mono (submitShards_grows now routed ks _ _)
    · exact ih (by simpa [hrk] using hk) _ _

/-- No script runs when one entry is not the frontier's. -/
theorem submitBatch_error (order : HashOrder) (now : Int) {es : List UrlEntry} (R : Redis β)
    (h : ∃ e ∈ es, ¬ F.Accepts e) : ∃ err, F.submitBatch W B order now es R = (.error err, R) := by
  have hne : es ≠ [] := by
    rintro rfl
    simp at h
  obtain ⟨err, herr⟩ := resolve_error (W := W) h
  exact ⟨.frontier err.display, by simp [submitBatch, hne, herr]⟩

theorem submitBatch_ok (order : HashOrder) (now : Int) {es : List UrlEntry} (R : Redis β)
    (h : ∀ e ∈ es, F.Accepts e) : ∃ outcome, (F.submitBatch W B order now es R).1 = .ok outcome := by
  by_cases hne : es = []
  · exact ⟨{}, by simp [submitBatch, hne]⟩
  · obtain ⟨rs, hrs, -⟩ := resolve_ok (W := W) h
    exact ⟨_, by simp only [submitBatch, hne, if_false, hrs]; rfl⟩

theorem submitBatch_settled (order : HashOrder) (now : Int) {es : List UrlEntry} (R : Redis β)
    (h : ∀ e ∈ es, F.Accepts e) : ∀ e ∈ es,
      Settled B (F.submitBatch W B order now es R).2 (F.policy.shardKey e.url) (W.idOf e) := by
  intro e he
  obtain ⟨rs, hrs, hall⟩ := resolve_ok (W := W) h
  obtain ⟨r, hr, hk, hu⟩ := hall e he
  have hmem : r.shard ∈ order.iter (rs.map Routed.shard).dedup := by
    rw [(order.perm _).mem_iff, List.mem_dedup]
    exact List.mem_map_of_mem hr
  have hset := submitShards_settled (F := F) (W := W) (B := B) now rs hr _ hmem R {}
  rw [hk, hu] at hset
  simpa [submitBatch, List.ne_nil_of_mem he, hrs] using hset

theorem submitBatch_grows (order : HashOrder) (now : Int) (es : List UrlEntry) (R : Redis β) :
    R.Grows B (F.submitBatch W B order now es R).2 := by
  unfold submitBatch
  split
  · exact .refl R
  · split
    · exact .refl R
    · exact submitShards_grows now _ _ R {}

/-! ## Calls that submit nothing -/

/-- The filters and the record are left as they are. -/
structure SameSeen (R R' : Redis β) : Prop where
  seen : ∀ k, (R'.shards k).seen = (R.shards k).seen
  rejected : R'.rejected = R.rejected

theorem sameSeen_onShard (k : ShardKey) {f : Shard β → Shard β} (hf : ∀ s, (f s).seen = s.seen)
    (R : Redis β) : SameSeen R (onShard k f R) := by
  refine ⟨fun k' => ?_, rfl⟩
  by_cases hk : k' = k
  · subst hk; simp [onShard, hf]
  · simp [onShard, hk]

theorem sameSeen_advanceWake (host : Host) (untilMs : UInt64) (R : Redis β) :
    SameSeen R (F.advanceWake host untilMs R).2 := by
  simp only [advanceWake]
  split
  · exact sameSeen_onShard _ (f := (·.advanceWake host untilMs.toInt64.toInt)) (fun _ => rfl) R
  · exact ⟨fun _ => rfl, rfl⟩

theorem sameSeen_ack (attempt : String) (R : Redis β) : SameSeen R (F.ack attempt R).2 := by
  unfold ack
  split
  · exact ⟨fun _ => rfl, rfl⟩
  · rename_i shard u host _
    split
    · exact sameSeen_onShard shard (f := fun s => (s.ackZrem ⟨u, host⟩).ackHdel u) (fun _ => rfl) R
    · exact ⟨fun _ => rfl, rfl⟩

theorem SameSeen.settled {R R' : Redis β} (h : SameSeen R R') (k : ShardKey) (u : UrlId) :
    Settled B R' k u ↔ Settled B R k u := by
  simp [Settled, h.seen, h.rejected]

theorem SameSeen.trans {R R' R'' : Redis β} (h : SameSeen R R') (h' : SameSeen R' R'') :
    SameSeen R R'' :=
  ⟨fun k => (h'.seen k).trans (h.seen k), h'.rejected.trans h.rejected⟩

end RedisFrontier

end Crawlrs

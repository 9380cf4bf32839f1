import Crawlrs.L2Redis.Batch
import Crawlrs.L4Runtime.Frontier

/-!
# A batch as a fold over its entries

`submit_batch` regroups its entries by shard and runs one script per shard, in
the order of a hash map. The shards share nothing, so keyspaces and counts are
those of taking the entries one at a time in the order of the input (`fold`), as
long as the counters are numbers a double can tell from the caps.

What the scripts reject comes back as ids, and an id is looked up as the first
entry of the shard that has it. Where a URL occurs more than once in a batch, with
another depth or another page it was found on, that is not the entry rejected.

* `submitBatch_spec`: keyspaces, count and reported entries, shard by shard.
* `batch_is_fold`: when the reply is the fold's.
-/
namespace Crawlrs

variable {β : Type}

namespace RedisFrontier

variable (F : RedisFrontier) (W : Wire) (B : Sketch UrlId β)

/-! ## The fold -/

/-- An entry with its shard, host and id. -/
def route (e : UrlEntry) : Routed := ⟨e, F.policy.shardKey e.url, e.url.host.getD "", W.idOf e⟩

/-- The entry as the script gets it. -/
def itemOf (e : UrlEntry) : Shard.SubmitItem := F.submitItem W (F.route W e)

def shardOfEntry (e : UrlEntry) : ShardKey := F.policy.shardKey e.url

/-- One entry, on the shard of its host. -/
def admitOne (now : Int) : (ShardKey → Shard β) → UrlEntry → (ShardKey → Shard β) × Shard.Verdict :=
  Loop.keyed F.shardOfEntry fun s e => Shard.admitItem B now s (F.itemOf W e)

/-- What the entries lead to, one at a time. -/
structure Folded (β : Type) where
  shards : ShardKey → Shard β
  queued : Nat
  rejected : List UrlEntry

def fold (now : Int) (es : List UrlEntry) (S : ShardKey → Shard β) : Folded β where
  shards := Loop.after (F.admitOne W B now) S es
  queued := (Loop.trace (F.admitOne W B now) S es).countP (·.2 = .queued)
  rejected := ((Loop.trace (F.admitOne W B now) S es).filter (·.2 = .rejected)).map Prod.fst

/-- The entries of one shard. -/
def onShardEntries (k : ShardKey) (es : List UrlEntry) : List UrlEntry :=
  es.filter (F.shardOfEntry · = k)

/-- The batch leaves every shard as the fold does, counts what it queues, and reports, shard by
shard, what it rejects. -/
structure IsFold (order : HashOrder) (now : Int) (es : List UrlEntry) (R : Redis β) : Prop where
  shards : (F.submitBatch W B order now es R).2.shards = (F.fold W B now es R.shards).shards
  reply : ∃ total, (F.submitBatch W B order now es R).1 = .ok total ∧
    total.queued = (F.fold W B now es R.shards).queued ∧
    ∀ k, F.onShardEntries k total.rejectedUrls =
      F.onShardEntries k (F.fold W B now es R.shards).rejected

/-! ## What the scripts do -/

/-- The loop of a script over entries. -/
def luaBody (now : Int) : Shard β → UrlEntry → Shard β × Shard.Verdict :=
  Shard.body B now (F.itemOf W)

/-- The entry an id is taken for. -/
def firstWith (es : List UrlEntry) (e : UrlEntry) : UrlEntry :=
  (es.find? fun e' => W.idOf e' = W.idOf e).getD e

/-- What is reported for a shard. -/
def reported (now : Int) (s : Shard β) (es : List UrlEntry) : List UrlEntry :=
  ((Loop.trace (F.luaBody W B now) s es).filter (·.2 = .rejected)).map fun p => firstWith W es p.1

variable {F W B}

theorem resolve_of_accepts {es : List UrlEntry} (h : ∀ e ∈ es, F.Accepts e) :
    F.resolve W es = .ok (es.map (F.route W)) := by
  induction es with
  | nil => rfl
  | cons e es ih =>
    obtain ⟨ho, hh⟩ := h e List.mem_cons_self
    obtain ⟨host, hhost⟩ := Option.isSome_iff_exists.1 hh
    have he : F.shardOf W e = .ok (F.route W e) := by
      simp [shardOf, ho, hhost, route]
    simp [resolve, he, ih fun e' he' => h e' (List.mem_cons_of_mem _ he')]

/-- A rejected id is looked up among the entries of its shard. -/
theorem find_route (es : List UrlEntry) {e : UrlEntry} (h : e ∈ es) :
    ((es.map (F.route W)).find? (·.urlId = W.idOf e)).map Routed.entry =
      some (firstWith W es e) := by
  have hfind : ((es.map (F.route W)).find? (·.urlId = W.idOf e)).map Routed.entry =
      es.find? fun e' => W.idOf e' = W.idOf e := by
    rw [List.find?_map, Option.map_map]
    exact Option.map_id'
  have hsome : (es.find? fun e' => W.idOf e' = W.idOf e).isSome := by
    rw [List.find?_isSome]
    exact ⟨e, h, by simp⟩
  obtain ⟨e', he'⟩ := Option.isSome_iff_exists.1 hsome
  rw [hfind, firstWith, he']
  rfl

/-- One script call over entries. -/
theorem submitShard_eq (now : Int) (es : List UrlEntry) (k : ShardKey) (R : Redis β)
    (total : SubmitBatchOutcome) :
    (F.submitShard W B now (es.map (F.route W)) k R total).1.shards =
        Function.update R.shards k (Loop.after (F.luaBody W B now) (R.shards k) es) ∧
      (F.submitShard W B now (es.map (F.route W)) k R total).2 =
        ⟨total.queued + (Loop.trace (F.luaBody W B now) (R.shards k) es).countP (·.2 = .queued),
          total.rejectedUrls ++ F.reported W B now (R.shards k) es⟩ := by
  have hmap : (es.map (F.route W)).map (F.submitItem W) = es.map (F.itemOf W) := by
    rw [List.map_map]
    rfl
  simp only [submitShard, hmap, Shard.submitBatch_eq, Nat.zero_add, List.nil_append]
  refine ⟨rfl, congrArg _ (congrArg _ ?_)⟩
  rw [List.filterMap_map]
  have hmem : ∀ p ∈ (Loop.trace (F.luaBody W B now) (R.shards k) es).filter (·.2 = .rejected),
      ((es.map (F.route W)).find? (·.urlId = W.idOf p.1)).map Routed.entry =
        some (firstWith W es p.1) := by
    intro p hp
    have hp1 : p.1 ∈ es := by
      rw [← Loop.trace_fst (F.luaBody W B now) (R.shards k) es]
      exact List.mem_map_of_mem (List.mem_filter.1 hp).1
    exact find_route es hp1
  exact (List.filterMap_congr hmem).trans (congrFun List.filterMap_eq_map _)

theorem filter_route (es : List UrlEntry) (k : ShardKey) :
    (es.map (F.route W)).filter (·.shard = k) = (F.onShardEntries k es).map (F.route W) := by
  rw [List.filter_map]
  rfl

/-- The scripts of some shards, one after the other. -/
theorem submitShards_eq (now : Int) (es : List UrlEntry) {ks : List ShardKey} (hnd : ks.Nodup) :
    ∀ (R : Redis β) (total : SubmitBatchOutcome),
      (∀ k, (F.submitShards W B now (es.map (F.route W)) ks R total).1.shards k =
        if k ∈ ks then Loop.after (F.luaBody W B now) (R.shards k) (F.onShardEntries k es)
        else R.shards k) ∧
      (F.submitShards W B now (es.map (F.route W)) ks R total).2 =
        ⟨total.queued + (ks.map fun k => (Loop.trace (F.luaBody W B now) (R.shards k)
            (F.onShardEntries k es)).countP (·.2 = .queued)).sum,
          total.rejectedUrls ++
            ks.flatMap fun k => F.reported W B now (R.shards k) (F.onShardEntries k es)⟩ := by
  induction ks with
  | nil => intro R total; exact ⟨fun k => by simp [submitShards], by simp [submitShards]⟩
  | cons k ks ih =>
    intro R total
    obtain ⟨hk, hnd⟩ := List.nodup_cons.1 hnd
    obtain ⟨h1, h2⟩ := submitShard_eq (F := F) (W := W) (B := B) now (F.onShardEntries k es) k R total
    obtain ⟨h3, h4⟩ := ih hnd (F.submitShard W B now ((F.onShardEntries k es).map (F.route W)) k R total).1
      (F.submitShard W B now ((F.onShardEntries k es).map (F.route W)) k R total).2
    have hother : ∀ j ∈ ks, (F.submitShard W B now ((F.onShardEntries k es).map (F.route W)) k R
        total).1.shards j = R.shards j := by
      intro j hj
      have hne : j ≠ k := fun he => hk (he ▸ hj)
      rw [h1, Function.update_of_ne hne]
    simp only [submitShards, filter_route]
    refine ⟨fun j => (h3 j).trans ?_, h4.trans ?_⟩
    · by_cases hj : j = k
      · subst hj
        simp [hk, h1]
      · by_cases hjs : j ∈ ks
        · simp [hjs, hother j hjs]
        · simp [hj, hjs, h1]
    · rw [h2]
      have hq : (ks.map fun j => (Loop.trace (F.luaBody W B now) ((F.submitShard W B now
          ((F.onShardEntries k es).map (F.route W)) k R total).1.shards j)
          (F.onShardEntries j es)).countP (·.2 = .queued)) =
          ks.map fun j => (Loop.trace (F.luaBody W B now) (R.shards j)
            (F.onShardEntries j es)).countP (·.2 = .queued) :=
        List.map_congr_left fun j hj => by rw [hother j hj]
      have hr : (ks.flatMap fun j => F.reported W B now ((F.submitShard W B now
          ((F.onShardEntries k es).map (F.route W)) k R total).1.shards j) (F.onShardEntries j es)) =
          ks.flatMap fun j => F.reported W B now (R.shards j) (F.onShardEntries j es) :=
        List.flatMap_congr fun j hj => by rw [hother j hj]
      rw [hq, hr]
      simp [Nat.add_assoc]

/-- The shards a batch touches. -/
theorem keys_eq (es : List UrlEntry) :
    (es.map (F.route W)).map Routed.shard = es.map F.shardOfEntry := by
  rw [List.map_map]
  rfl

/-- **A batch, shard by shard.** -/
theorem submitBatch_spec (order : HashOrder) (now : Int) {es : List UrlEntry}
    (hes : ∀ e ∈ es, F.Accepts e) (R : Redis β) : ∃ ks : List ShardKey,
      ks = order.iter (es.map F.shardOfEntry).dedup ∧ ks.Nodup ∧
      (∀ e ∈ es, F.shardOfEntry e ∈ ks) ∧
      (∀ k, (F.submitBatch W B order now es R).2.shards k =
        Loop.after (F.luaBody W B now) (R.shards k) (F.onShardEntries k es)) ∧
      (F.submitBatch W B order now es R).1 = .ok
        ⟨(ks.map fun k => (Loop.trace (F.luaBody W B now) (R.shards k)
            (F.onShardEntries k es)).countP (·.2 = .queued)).sum,
          ks.flatMap fun k => F.reported W B now (R.shards k) (F.onShardEntries k es)⟩ := by
  by_cases hne : es = []
  · subst hne
    have hnil : order.iter [] = [] := (order.perm []).eq_nil
    exact ⟨[], by simp [hnil], .nil, by simp, fun k => by simp [submitBatch, onShardEntries],
      by simp [submitBatch]⟩
  · have hperm := order.perm ((es.map (F.route W)).map Routed.shard).dedup
    have hnd := hperm.nodup_iff.2 (List.nodup_dedup _)
    have hmem : ∀ k, k ∈ order.iter ((es.map (F.route W)).map Routed.shard).dedup ↔
        ∃ e ∈ es, F.shardOfEntry e = k := by
      intro k
      rw [hperm.mem_iff, List.mem_dedup, keys_eq, List.mem_map]
    obtain ⟨h1, h2⟩ := submitShards_eq (F := F) (W := W) (B := B) now es hnd R {}
    have hbatch : F.submitBatch W B order now es R =
        (.ok (F.submitShards W B now (es.map (F.route W))
          (order.iter ((es.map (F.route W)).map Routed.shard).dedup) R {}).2,
        (F.submitShards W B now (es.map (F.route W))
          (order.iter ((es.map (F.route W)).map Routed.shard).dedup) R {}).1) := by
      simp only [submitBatch, if_neg hne, resolve_of_accepts hes]
    refine ⟨_, by rw [keys_eq], hnd, fun e he => (hmem _).2 ⟨e, he, rfl⟩, fun k => ?_, ?_⟩
    · rw [hbatch, h1]
      split
      · rfl
      · -- no entry is on the shard
        rename_i hk
        have hnil : F.onShardEntries k es = [] := by
          rw [onShardEntries, List.filter_eq_nil_iff]
          intro e he hek
          exact hk ((hmem k).2 ⟨e, he, of_decide_eq_true hek⟩)
        rw [hnil]
        rfl
    · rw [hbatch, h2]
      simp

/-! ## When the reply is the fold's -/

section Fold

variable {order : HashOrder} {now : Int} {es : List UrlEntry} {R : Redis β}

/-- The step of the fold on one shard. -/
def admitBody (F : RedisFrontier) (W : Wire) (B : Sketch UrlId β) (now : Int) (s : Shard β)
    (e : UrlEntry) : Shard β × Shard.Verdict := Shard.admitItem B now s (F.itemOf W e)

theorem fold_shards (k : ShardKey) : (F.fold W B now es R.shards).shards k =
    Loop.after (F.admitBody W B now) (R.shards k) (F.onShardEntries k es) :=
  Loop.after_keyed (F.admitBody W B now) F.shardOfEntry R.shards es k

theorem fold_queued {ks : List ShardKey} (hnd : ks.Nodup) (hks : ∀ e ∈ es, F.shardOfEntry e ∈ ks) :
    (F.fold W B now es R.shards).queued = (ks.map fun k => (Loop.trace (F.admitBody W B now)
      (R.shards k) (F.onShardEntries k es)).countP (·.2 = .queued)).sum :=
  Loop.countP_trace_keyed F.shardOfEntry (F.admitBody W B now) (fun v => decide (v = .queued)) R.shards
    hnd hks

theorem fold_rejected (k : ShardKey) :
    F.onShardEntries k (F.fold W B now es R.shards).rejected =
      ((Loop.trace (F.admitBody W B now) (R.shards k) (F.onShardEntries k es)).filter
        (·.2 = .rejected)).map Prod.fst :=
  Loop.filter_trace_keyed F.shardOfEntry (F.admitBody W B now) (fun v => decide (v = .rejected))
    R.shards es k

theorem firstWith_mem {e : UrlEntry} (h : e ∈ es) : firstWith W es e ∈ es := by
  unfold firstWith
  cases hf : es.find? fun e' => W.idOf e' = W.idOf e with
  | none => exact h
  | some e' => exact List.mem_of_find?_eq_some hf

/-- What is reported for a shard is on the shard. -/
theorem onShard_reported (now : Int) (es : List UrlEntry) (k j : ShardKey) (s : Shard β) :
    F.onShardEntries k (F.reported W B now s (F.onShardEntries j es)) =
      if j = k then F.reported W B now s (F.onShardEntries j es) else [] := by
  have hall : ∀ e ∈ F.reported W B now s (F.onShardEntries j es), F.shardOfEntry e = j := by
    intro e he
    obtain ⟨p, hp, rfl⟩ := List.mem_map.1 he
    have hp1 : p.1 ∈ F.onShardEntries j es := by
      rw [← Loop.trace_fst (F.luaBody W B now) s (F.onShardEntries j es)]
      exact List.mem_map_of_mem (List.mem_filter.1 hp).1
    exact of_decide_eq_true (List.mem_filter.1 (firstWith_mem (W := W) hp1)).2
  split
  · rename_i hjk
    subst hjk
    exact List.filter_eq_self.2 fun e he => decide_eq_true (hall e he)
  · rename_i hjk
    refine List.filter_eq_nil_iff.2 fun e he hk => hjk ?_
    rw [← hall e he]
    exact of_decide_eq_true hk

theorem onShard_flatMap {ks : List ShardKey} (hnd : ks.Nodup)
    (hks : ∀ e ∈ es, F.shardOfEntry e ∈ ks) (k : ShardKey) :
    F.onShardEntries k
        (ks.flatMap fun j => F.reported W B now (R.shards j) (F.onShardEntries j es)) =
      F.reported W B now (R.shards k) (F.onShardEntries k es) := by
  have hflat : F.onShardEntries k
      (ks.flatMap fun j => F.reported W B now (R.shards j) (F.onShardEntries j es)) =
      ks.flatMap fun j =>
        if j = k then F.reported W B now (R.shards k) (F.onShardEntries k es) else [] := by
    rw [onShardEntries, List.filter_flatMap]
    refine List.flatMap_congr fun j _ => ?_
    have h := onShard_reported (F := F) (W := W) (B := B) now es k j (R.shards j)
    rw [onShardEntries] at h
    rw [h]
    split
    · rename_i hjk
      rw [hjk]
    · rfl
  rw [hflat]
  by_cases hk : k ∈ ks
  · obtain ⟨xs, ys, rfl⟩ := List.append_of_mem hk
    have hxs : ∀ j ∈ xs, j ≠ k := by
      intro j hj he
      subst he
      exact (List.nodup_append.1 hnd).2.2 j hj j List.mem_cons_self rfl
    have hys : ∀ j ∈ ys, j ≠ k := by
      intro j hj he
      subst he
      exact (List.nodup_cons.1 (List.nodup_append.1 hnd).2.1).1 hj
    have hnil (zs : List ShardKey) (hzs : ∀ j ∈ zs, j ≠ k) : (zs.flatMap fun j =>
        if j = k then F.reported W B now (R.shards k) (F.onShardEntries k es) else []) = [] :=
      List.flatMap_eq_nil_iff.2 fun j hj => if_neg (hzs j hj)
    rw [List.flatMap_append, List.flatMap_cons, hnil xs hxs, hnil ys hys]
    simp
  · have hes : F.onShardEntries k es = [] :=
      List.filter_eq_nil_iff.2 fun e he hek => hk (of_decide_eq_true hek ▸ hks e he)
    rw [hes]
    refine List.flatMap_eq_nil_iff.2 fun j _ => ?_
    split
    · rfl
    · rfl

/-- On one shard: no counter is blurred, and an entry at its cap is the first with its id. -/
def FaithfulOn (F : RedisFrontier) (W : Wire) (B : Sketch UrlId β) (now : Int) (s : Shard β)
    (es : List UrlEntry) : Prop :=
  ∀ pre e post, es = pre ++ e :: post →
    ¬ (Loop.after (F.admitBody W B now) s pre).Blurred (F.itemOf W e) ∧
      ((Loop.after (F.admitBody W B now) s pre).AtCap (F.itemOf W e) →
        es.find? (fun e' => W.idOf e' = W.idOf e) = some e)

theorem cap_itemOf (e : UrlEntry) : (F.itemOf W e).maxUrls = F.maxUrls (F.itemOf W e).host := rfl

theorem trace_of_sharp {s : Shard β} (h : ∀ pre e post, es = pre ++ e :: post →
    ¬ (Loop.after (F.admitBody W B now) s pre).Blurred (F.itemOf W e)) :
    Loop.after (F.luaBody W B now) s es = Loop.after (F.admitBody W B now) s es ∧
      Loop.trace (F.luaBody W B now) s es = Loop.trace (F.admitBody W B now) s es :=
  Loop.trace_congr fun pre e post hes => Shard.submitItem_of_sharp (h pre e post hes)

/-- A rejected entry of the fold was at its cap. -/
theorem rejected_mem_iff {s : Shard β} {e : UrlEntry} :
    (e, Shard.Verdict.rejected) ∈ Loop.trace (F.admitBody W B now) s es ↔
      ∃ pre post, es = pre ++ e :: post ∧
        (Loop.after (F.admitBody W B now) s pre).AtCap (F.itemOf W e) := by
  rw [Loop.mem_trace]
  exact exists_congr fun pre => exists_congr fun post =>
    and_congr_right fun _ => Shard.admitItem_rejected_iff B now

theorem firstWith_eq_iff {e : UrlEntry} (h : e ∈ es) :
    firstWith W es e = e ↔ es.find? (fun e' => W.idOf e' = W.idOf e) = some e := by
  have hsome : (es.find? fun e' => W.idOf e' = W.idOf e).isSome := by
    rw [List.find?_isSome]
    exact ⟨e, h, by simp⟩
  obtain ⟨e', he'⟩ := Option.isSome_iff_exists.1 hsome
  simp [firstWith, he']

/-- The script of one shard does what the fold does there. -/
theorem faithfulOn_iff (s : Shard β) :
    (Loop.after (F.luaBody W B now) s es = Loop.after (F.admitBody W B now) s es ∧
      F.reported W B now s es = ((Loop.trace (F.admitBody W B now) s es).filter
        (·.2 = .rejected)).map Prod.fst) ↔ F.FaithfulOn W B now s es := by
  constructor
  · intro ⟨hafter, hrep⟩
    have hlen := congrArg List.length hrep
    rw [reported, List.length_map, List.length_map, ← List.countP_eq_length_filter,
      ← List.countP_eq_length_filter] at hlen
    have hsharp := (Shard.sharp_of_same F.maxUrls (f := F.itemOf W) cap_itemOf hafter).2
      (Nat.le_of_eq hlen)
    rw [reported, (trace_of_sharp hsharp).2] at hrep
    intro pre e post hes
    refine ⟨hsharp pre e post hes, fun hcap => ?_⟩
    have hmem := rejected_mem_iff.2 ⟨pre, post, hes, hcap⟩
    have hfirst := List.map_inj_left.1 hrep (e, .rejected) (List.mem_filter.2 ⟨hmem, by simp⟩)
    exact (firstWith_eq_iff (by simp [hes])).1 hfirst
  · intro h
    obtain ⟨hafter, htrace⟩ := trace_of_sharp fun pre e post hes => (h pre e post hes).1
    refine ⟨hafter, ?_⟩
    rw [reported, htrace]
    refine List.map_congr_left fun p hp => ?_
    obtain ⟨hmem, hv⟩ := List.mem_filter.1 hp
    have hrej : (p.1, Shard.Verdict.rejected) ∈ Loop.trace (F.admitBody W B now) s es := by
      rw [← of_decide_eq_true hv]
      exact hmem
    obtain ⟨pre, post, hes, hcap⟩ := rejected_mem_iff.1 hrej
    exact (firstWith_eq_iff (by simp [hes])).2 ((h pre p.1 post hes).2 hcap)

theorem isFold_iff_onShards (hes : ∀ e ∈ es, F.Accepts e) :
    F.IsFold W B order now es R ↔
      ∀ k, F.FaithfulOn W B now (R.shards k) (F.onShardEntries k es) := by
  obtain ⟨ks, -, hnd, hks, hshards, hreply⟩ := submitBatch_spec (W := W) (B := B) order now hes R
  constructor
  · intro ⟨h1, total, htotal, _, h3⟩ k
    rw [hreply] at htotal
    cases htotal
    rw [← faithfulOn_iff, ← hshards, h1, fold_shards, ← fold_rejected, ← h3,
      onShard_flatMap hnd hks]
    exact ⟨rfl, rfl⟩
  · intro h
    refine ⟨funext fun k => ?_, _, hreply, ?_, fun k => ?_⟩
    · rw [hshards, fold_shards]
      exact ((faithfulOn_iff _).2 (h k)).1
    · rw [fold_queued hnd hks]
      refine congrArg List.sum (List.map_congr_left fun k _ => ?_)
      rw [(trace_of_sharp fun pre e post hes => (h k pre e post hes).1).2]
    · rw [onShard_flatMap hnd hks, fold_rejected]
      exact ((faithfulOn_iff _).2 (h k)).2

/-- The entries that are the same to the keyspace: one shard, one id. -/
def SameKey (F : RedisFrontier) (W : Wire) (e e' : UrlEntry) : Prop :=
  F.shardOfEntry e' = F.shardOfEntry e ∧ W.idOf e' = W.idOf e

instance (e e' : UrlEntry) : Decidable (SameKey F W e e') := inferInstanceAs (Decidable (_ ∧ _))

/-- When the fold reaches an entry, the counter of its host is not blurred; and where the host is at
its cap, the first entry of the batch with the id is this one or equal to it. -/
def Faithful (F : RedisFrontier) (W : Wire) (B : Sketch UrlId β) (now : Int) (es : List UrlEntry)
    (S : ShardKey → Shard β) : Prop :=
  ∀ pre e post, es = pre ++ e :: post →
    ¬ ((F.fold W B now pre S).shards (F.shardOfEntry e)).Blurred (F.itemOf W e) ∧
      (((F.fold W B now pre S).shards (F.shardOfEntry e)).AtCap (F.itemOf W e) →
        es.find? (SameKey F W e) = some e)

theorem faithful_iff : F.Faithful W B now es R.shards ↔
    ∀ k, F.FaithfulOn W B now (R.shards k) (F.onShardEntries k es) := by
  have hfind (e : UrlEntry) : es.find? (SameKey F W e) =
      (F.onShardEntries (F.shardOfEntry e) es).find? fun e' => W.idOf e' = W.idOf e := by
    rw [onShardEntries, List.find?_filter]
    congr 1
    funext e'
    rw [Bool.eq_iff_iff, decide_eq_true_iff]
    simp [SameKey]
  constructor
  · intro h k pre e post hes
    obtain ⟨xs, ys, rfl, rfl, hys⟩ := List.filter_eq_append_iff.1 hes
    obtain ⟨zs, post', rfl, hzs, hk, rfl⟩ := List.filter_eq_cons_iff.1 hys
    have hk : F.shardOfEntry e = k := of_decide_eq_true hk
    have hzs : F.onShardEntries k zs = [] := List.filter_eq_nil_iff.2 hzs
    have hpre : F.onShardEntries k (xs ++ zs) = F.onShardEntries k xs := by
      rw [onShardEntries, List.filter_append]
      exact (congrArg _ hzs).trans (List.append_nil _)
    have he := h (xs ++ zs) e post' (by simp)
    rw [hfind, fold_shards, hk, hpre] at he
    exact he
  · intro h pre e post hes
    have hsplit : F.onShardEntries (F.shardOfEntry e) es =
        F.onShardEntries (F.shardOfEntry e) pre ++ e :: F.onShardEntries (F.shardOfEntry e) post := by
      simp [hes, onShardEntries]
    rw [hfind, fold_shards]
    exact h (F.shardOfEntry e) _ e _ hsplit

theorem isFold_iff (hes : ∀ e ∈ es, F.Accepts e) :
    F.IsFold W B order now es R ↔ F.Faithful W B now es R.shards :=
  (isFold_iff_onShards hes).trans faithful_iff.symm

/-- **A batch is the fold of its entries** exactly where the fold meets no blurred counter and every
entry at its cap is the first of its id; the step of the fold is `submit.lua` where no cap applies. -/
theorem batch_is_fold (F : RedisFrontier) (W : Wire) (B : Sketch UrlId β) (order : HashOrder)
    (now : Int) (es : List UrlEntry) (R : Redis β) (hes : ∀ e ∈ es, F.Accepts e) :
    (∀ (s : Shard β) (e : UrlEntry), F.maxUrls (F.itemOf W e).host < 0 →
      (Shard.admitItem B now s (F.itemOf W e)).1 = (s.submit B (W.idOf e) (e.url.host.getD "")
          (W.encode e) now).1 ∧
        (Shard.admitItem B now s (F.itemOf W e)).2 = match (s.submit B (W.idOf e)
            (e.url.host.getD "") (W.encode e) now).2 with
          | .queued => .queued
          | .skippedDuplicate => .duplicate) ∧
    (F.IsFold W B order now es R ↔ F.Faithful W B now es R.shards) :=
  ⟨fun s _ h => Shard.admitItem_uncapped B now s h, isFold_iff hes⟩

/-- The same page, found a second time one link deeper. -/
def deeperA : UrlEntry := { UrlEntry.seedA with depth := 1 }

/-- With one URL left, the second page of three is rejected and so is the third, which is the second
again; both are reported as the second. -/
theorem rejected_as_first : (∀ e ∈ [UrlEntry.seedA', .seedA, deeperA], (flat 1).Accepts e) ∧
    ((flat 1).fold .sample .exact 0 [.seedA', .seedA, deeperA] Redis.fresh.shards).rejected =
      [.seedA, deeperA] ∧
    ((flat 1).submitBatch .sample .exact .asIs 0 [.seedA', .seedA, deeperA] Redis.fresh).1 =
      .ok ⟨1, [.seedA, .seedA]⟩ ∧
    ¬ (flat 1).IsFold .sample .exact .asIs 0 [.seedA', .seedA, deeperA] Redis.fresh := by
  have hacc : ∀ e ∈ [UrlEntry.seedA', .seedA, deeperA], (flat 1).Accepts e := by decide +kernel
  refine ⟨hacc, by decide +kernel, by decide +kernel, fun hfold => ?_⟩
  have hcap := ((isFold_iff hacc).1 hfold [.seedA', .seedA] deeperA [] rfl).2 (by decide +kernel)
  exact absurd hcap (by decide +kernel)

/-- Two pages of one host, each its own first: the batch is the fold. -/
theorem batch_is_fold_two :
    (flat 1).IsFold .sample .exact .asIs 0 [.seedA', .seedA] Redis.fresh := by
  refine (batch_is_fold (flat 1) .sample .exact .asIs 0 [.seedA', .seedA] Redis.fresh
    (by decide +kernel)).2.2 ?_
  intro pre e post hes
  match pre, hes with
  | [], hes => cases hes; exact ⟨by decide +kernel, fun _ => by decide +kernel⟩
  | [_], hes => cases hes; exact ⟨by decide +kernel, fun _ => by decide +kernel⟩
  | _ :: _ :: pre, hes => simp at hes

end Fold

end RedisFrontier

end Crawlrs

import Crawlrs.L4Runtime.Cluster

/-!
# What a batch admits where no cap applies

The filter and the payloads of a shard are a map behind a sketch
(`Shard.known`). Without `max_urls` a batch stores its entries there shard by
shard (`submitBatch_known`) and rejects none, so a batch that is submitted again
leaves both as they are.

`Pinned` is a URL that waits for its delivery: whatever the scripts do, it comes
back under its host and with its entry.
-/
namespace Crawlrs

variable {β : Type}

/-- No host has a `max_urls`. -/
def CrawlScope.Uncapped (S : CrawlScope) : Prop := ∀ h, S.maxUrlsFor h = none

/-! ## One script call -/

namespace Shard

variable (B : Sketch UrlId β)

/-- What the shard has admitted: the filter and the payloads. -/
def known (s : Shard β) : β × (UrlId → Option Bytes) := (s.seen, s.urls)

theorem submitItem_known (now : Int) (s : Shard β) {it : SubmitItem} (h : it.maxUrls = -1) :
    (submitItem B now s it).1.known = B.put s.known (it.urlId, it.payload) ∧
      (submitItem B now s it).2 ≠ .rejected := by
  have hneg : ¬ 0 ≤ f64 it.maxUrls := by
    rw [h, f64_exact (by decide)]
    decide
  rw [submitItem_eq, if_neg fun hc => hneg hc.1]
  by_cases hs : B.has s.seen it.urlId = true
  · simp [hs, Sketch.put, known]
  · simp [hs, Sketch.put, known, accept]

theorem submitBatch_known (now : Int) {its : List SubmitItem} (h : ∀ it ∈ its, it.maxUrls = -1) :
    ∀ (s : Shard β) (acc : Nat × List UrlId),
      (submitBatch B now its s acc).1.known =
        B.putAll s.known (its.map fun it => (it.urlId, it.payload)) ∧
      (submitBatch B now its s acc).2.2 = acc.2 := by
  induction its with
  | nil => intro s acc; exact ⟨rfl, rfl⟩
  | cons it its ih =>
    intro s acc
    obtain ⟨hk, hv⟩ := submitItem_known B now s (h it List.mem_cons_self)
    have ih := ih fun it' h' => h it' (List.mem_cons_of_mem _ h')
    obtain ⟨queued, rejected⟩ := acc
    rw [submitBatch, List.map_cons, Sketch.putAll, List.foldl_cons, ← hk, ← Sketch.putAll]
    split <;> rename_i s' heq <;> rw [heq]
    · exact ih _ _
    · exact ih _ _
    · rw [heq] at hv
      exact absurd rfl hv

end Shard

/-! ## One batch over all shards -/

namespace RedisFrontier

variable {F : RedisFrontier} {W : Wire} {B : Sketch UrlId β}

theorem maxUrls_of_uncapped (h : F.crawlScope.Uncapped) (host : Host) : F.maxUrls host = -1 := by
  simp [maxUrls, h host]

theorem shardOf_inv {e : UrlEntry} {r : Routed} (h : F.shardOf W e = .ok r) :
    r.entry = e ∧ r.shard = F.policy.shardKey e.url ∧ r.urlId = W.idOf e := by
  simp only [shardOf] at h
  split at h
  · cases h
  · split at h
    · cases h
    · cases h
      exact ⟨rfl, rfl, rfl⟩

theorem resolve_inv {es : List UrlEntry} {rs : List Routed} (h : F.resolve W es = .ok rs) :
    rs.map Routed.entry = es ∧
      ∀ r ∈ rs, r.shard = F.policy.shardKey r.entry.url ∧ r.urlId = W.idOf r.entry := by
  induction es generalizing rs with
  | nil => cases h; simp
  | cons e es ih =>
    simp only [resolve] at h
    split at h
    · cases h
    · rename_i r hr
      split at h
      · cases h
      · rename_i rs' hrs
        cases h
        obtain ⟨rfl, hk, hu⟩ := shardOf_inv hr
        obtain ⟨hmap, hall⟩ := ih hrs
        refine ⟨by rw [List.map_cons, hmap], fun r' hr' => ?_⟩
        rcases List.mem_cons.1 hr' with rfl | hr'
        · exact ⟨hk, hu⟩
        · exact hall r' hr'

theorem submitShard_known (hcap : F.crawlScope.Uncapped) (now : Int) (items : List Routed)
    (k : ShardKey) (R : Redis β) (total : SubmitBatchOutcome) :
    (∀ k', ((F.submitShard W B now items k R total).1.shards k').known =
      if k' = k then B.putAll (R.shards k).known (items.map fun r => (r.urlId, W.encode r.entry))
      else (R.shards k').known) ∧
    (F.submitShard W B now items k R total).2.rejectedUrls = total.rejectedUrls := by
  have hitems : ∀ it ∈ items.map (F.submitItem W), it.maxUrls = -1 := by
    intro it hit
    obtain ⟨r, -, rfl⟩ := List.mem_map.1 hit
    exact maxUrls_of_uncapped hcap r.host
  obtain ⟨hk, hrej⟩ := Shard.submitBatch_known B now hitems (R.shards k) (0, [])
  rw [List.map_map] at hk
  refine ⟨fun k' => ?_, ?_⟩
  · by_cases hkk : k' = k
    · subst hkk
      rw [if_pos rfl]
      simp only [submitShard, Function.update_self]
      exact hk
    · rw [if_neg hkk]
      simp [submitShard, hkk]
  · have hrej : (Shard.submitBatch B now (items.map (F.submitItem W)) (R.shards k) (0, [])).2.2 = [] :=
      hrej
    simp [submitShard, hrej]

theorem submitShards_known (hcap : F.crawlScope.Uncapped) (now : Int) (routed : List Routed)
    {ks : List ShardKey} (hnd : ks.Nodup) : ∀ (R : Redis β) (total : SubmitBatchOutcome),
      (∀ k, ((F.submitShards W B now routed ks R total).1.shards k).known =
        if k ∈ ks then B.putAll (R.shards k).known
          ((routed.filter (·.shard = k)).map fun r => (r.urlId, W.encode r.entry))
        else (R.shards k).known) ∧
      (F.submitShards W B now routed ks R total).2.rejectedUrls = total.rejectedUrls := by
  induction ks with
  | nil => intro R total; exact ⟨fun k => by simp [submitShards], rfl⟩
  | cons k ks ih =>
    intro R total
    obtain ⟨hk, hnd⟩ := List.nodup_cons.1 hnd
    obtain ⟨h1, hr1⟩ := submitShard_known (W := W) (B := B) hcap now (routed.filter (·.shard = k)) k R
      total
    obtain ⟨h2, hr2⟩ := ih hnd (F.submitShard W B now (routed.filter (·.shard = k)) k R total).1
      (F.submitShard W B now (routed.filter (·.shard = k)) k R total).2
    refine ⟨fun k' => (h2 k').trans ?_, hr2.trans hr1⟩
    by_cases hkk : k' = k
    · subst hkk
      rw [if_neg hk, h1, if_pos rfl, if_pos List.mem_cons_self]
    · rw [h1, if_neg hkk]
      simp [hkk]

/-- The entries of a shard with their ids and payloads, in the order of the batch. -/
def itemsOn (P : HostHashShardPolicy) (W : Wire) (k : ShardKey) (es : List UrlEntry) :
    List (UrlId × Bytes) :=
  (es.filter fun e => P.shardKey e.url = k).map fun e => (W.idOf e, W.encode e)

theorem itemsOn_append (P : HostHashShardPolicy) (W : Wire) (k : ShardKey) (es es' : List UrlEntry) :
    itemsOn P W k (es ++ es') = itemsOn P W k es ++ itemsOn P W k es' := by
  simp [itemsOn]

theorem itemsOn_routed {P : HostHashShardPolicy} {rs : List Routed} (k : ShardKey)
    (h : ∀ r ∈ rs, r.shard = P.shardKey r.entry.url ∧ r.urlId = W.idOf r.entry) :
    (rs.filter (·.shard = k)).map (fun r => (r.urlId, W.encode r.entry)) =
      itemsOn P W k (rs.map Routed.entry) := by
  induction rs with
  | nil => rfl
  | cons r rs ih =>
    obtain ⟨hk, hu⟩ := h r List.mem_cons_self
    have ih := ih fun r' hr' => h r' (List.mem_cons_of_mem _ hr')
    unfold itemsOn at ih ⊢
    by_cases hkk : P.shardKey r.entry.url = k
    · simp [hk, hkk, hu, ih]
    · simp [hk, hkk, ih]

/-- **A batch that goes through.** Every shard has stored its entries, and none was rejected. -/
theorem submitBatch_known (hcap : F.crawlScope.Uncapped) {order : HashOrder} {now : Int}
    {es : List UrlEntry} {R R' : Redis β} {outcome : SubmitBatchOutcome}
    (h : F.submitBatch W B order now es R = (.ok outcome, R')) :
    (∀ k, (R'.shards k).known = B.putAll (R.shards k).known (itemsOn F.policy W k es)) ∧
      outcome.rejectedUrls = [] := by
  unfold submitBatch at h
  split at h
  · rename_i hnil
    cases h
    exact ⟨fun k => by rw [hnil]; rfl, rfl⟩
  · split at h
    · cases h
    · rename_i rs hrs
      obtain ⟨hmap, hall⟩ := resolve_inv hrs
      have hnd : (order.iter (rs.map Routed.shard).dedup).Nodup :=
        (order.perm _).nodup_iff.2 (List.nodup_dedup _)
      obtain ⟨hk, hrej⟩ := submitShards_known (W := W) (B := B) hcap now rs hnd R {}
      cases h
      refine ⟨fun k => ?_, hrej⟩
      rw [hk, itemsOn_routed k hall, hmap]
      split
      · rfl
      · -- a shard without entries is in no script call
        rename_i hmem
        have hnone : itemsOn F.policy W k es = [] := by
          rw [← hmap, ← itemsOn_routed k hall, List.map_eq_nil_iff, List.filter_eq_nil_iff]
          intro r hr hc
          apply hmem
          rw [(order.perm _).mem_iff, List.mem_dedup]
          exact List.mem_map.2 ⟨r, hr, of_decide_eq_true hc⟩
        rw [hnone]
        rfl

/-- An error comes before the first script. -/
theorem submitBatch_error_same {order : HashOrder} {now : Int} {es : List UrlEntry} {R R' : Redis β}
    {e : Error} (h : F.submitBatch W B order now es R = (.error e, R')) : R' = R := by
  unfold submitBatch at h
  split at h
  · cases h
  · split at h
    · cases h; rfl
    · cases h

/-- What every effect but the loss of a payload keeps in a shard, a batch keeps. -/
theorem submitBatch_stable {Q : Shard β → Prop}
    (hQ : ∀ s e s', Q s → (∀ u, e ≠ .hdel u) → Eff.Step B s e s' → Q s') (order : HashOrder)
    (now : Int) (es : List UrlEntry) {R : Redis β} {k : ShardKey} (hs : Q (R.shards k)) :
    Q ((F.submitBatch W B order now es R).2.shards k) := by
  have hscript (items : List Shard.SubmitItem) (s : Shard β) (h : Q s) :
      Q (Shard.submitBatch B now items s (0, [])).1 := by
    refine (Shard.submitBatch_steps B now items s (0, [])).preserves (P := Q)
      (Q := fun e => ∀ u, e ≠ .hdel u) hQ (fun e he u hu => ?_) h
    obtain ⟨it, -, rfl⟩ := Shard.mem_batchEffs B he
    cases hu
  have hshards (routed : List Routed) (ks : List ShardKey) : ∀ (R : Redis β)
      (total : SubmitBatchOutcome), Q (R.shards k) →
        Q ((F.submitShards W B now routed ks R total).1.shards k) := by
    induction ks with
    | nil => intro R total h; exact h
    | cons k' ks ih =>
      intro R total h
      refine ih _ _ ?_
      by_cases hk : k = k'
      · subst hk
        simp only [Function.update_self]
        exact hscript _ _ h
      · simpa [submitShard, hk] using h
  unfold submitBatch
  split
  · exact hs
  · split
    · exact hs
    · exact hshards _ _ _ _ hs

end RedisFrontier

/-! ## A URL that waits for its delivery -/

namespace Shard

variable {B : Sketch UrlId β} {s s' : Shard β}

theorem claim_known (s : Shard β) (now leaseMs : Int) :
    (s.claim now leaseMs).1.known = s.known := by
  have hc := claim_cases s now leaseMs
  generalize s.claim now leaseMs = res at hc ⊢
  cases hc with
  | claimed => rfl
  | hint => rfl
  | empty => rfl

theorem promote_known (s : Shard β) (now : Int) (limit : Nat) :
    (s.promote now limit).1.known = s.known := by
  have hfold (hosts : List Host) : ∀ s : Shard β, (hosts.foldl promoteOne s).known = s.known := by
    induction hosts with
    | nil => intro s; rfl
    | cons h hosts ih => intro s; exact ih (s.promoteOne h)
  exact hfold _ s

theorem reclaim_known (s : Shard β) (now : Int) (limit : Nat) :
    (s.reclaim now limit).1.known = s.known := by
  have hfold (ls : List Lease) : ∀ s : Shard β, (ls.foldl (reclaimOne now) s).known = s.known := by
    induction ls with
    | nil => intro s; rfl
    | cons l ls ih =>
      intro s
      rw [List.foldl_cons, ih, reclaimOne_eq]
      rfl
  exact hfold _ s

/-- The filter has the URL, its payload is the entry, and it is queued and leased under its host
only. -/
structure Pinned (B : Sketch UrlId β) (W : Wire) (u : UrlId) (e : UrlEntry) (h : Host)
    (s : Shard β) : Prop where
  seen : B.has s.seen u = true
  payload : s.urls u = some (W.encode e)
  queued : ∀ x, u ∈ s.hostQueue x → x = h
  leased : ∀ x, (s.inflight.score? ⟨u, x⟩).isSome → x = h

namespace Pinned

variable {W : Wire} {u : UrlId} {e : UrlEntry} {h : Host}

theorem step (hp : Pinned B W u e h s) {f : Eff} (hf : f ≠ .hdel u) (hst : Eff.Step B s f s') :
    Pinned B W u e h s' := by
  cases hst with
  | @accept v x payload now counted hnew =>
    have hne : u ≠ v := by
      rintro rfl
      rw [hp.seen] at hnew
      cases hnew
    refine ⟨B.has_insert _ _ _ hp.seen, by simp [accept, hne, hp.payload], fun y hy => ?_, hp.leased⟩
    by_cases hx : y = x
    · subst hx
      exact hp.queued y (by simpa [accept, hne] using hy)
    · exact hp.queued y (by simpa [accept, hx] using hy)
  | stale hr hq => exact ⟨hp.seen, hp.payload, hp.queued, hp.leased⟩
  | @lease v x rest q expiry hr hq =>
    have hmem : ∀ w ∈ q, w ∈ s.hostQueue x := by
      intro w hw
      rw [hq]
      exact List.mem_cons_of_mem _ hw
    refine ⟨hp.seen, hp.payload, fun y hy => ?_, fun y hy => ?_⟩
    · by_cases hx : y = x
      · subst hx
        exact hp.queued y (hmem u (by simpa [take] using hy))
      · exact hp.queued y (by simpa [take, hx] using hy)
    · simp only [take, ZSet.score?_zadd, Lease.mk.injEq] at hy
      split at hy
      · rename_i hl
        obtain ⟨rfl, rfl⟩ := hl
        exact hp.queued y (by rw [hq]; exact List.mem_cons_self)
      · exact hp.leased y hy
  | promote hw h0 h1 => exact ⟨hp.seen, hp.payload, hp.queued, hp.leased⟩
  | @reclaim l now t hl h0 h1 =>
    refine ⟨hp.seen, hp.payload, fun y hy => ?_, fun y hy => ?_⟩
    · by_cases hx : y = l.host
      · subst hx
        simp only [requeue, Function.update_self, List.mem_append, List.mem_singleton] at hy
        rcases hy with hy | rfl
        · exact hp.queued _ hy
        · exact hp.leased _ (by rw [hl]; rfl)
      · exact hp.queued y (by simpa [requeue, hx] using hy)
    · simp only [requeue, ZSet.score?_zrem] at hy
      split at hy
      · cases hy
      · exact hp.leased y hy
  | advance => exact ⟨hp.seen, hp.payload, hp.queued, hp.leased⟩
  | @zrem l =>
    refine ⟨hp.seen, hp.payload, hp.queued, fun y hy => ?_⟩
    simp only [ackZrem, ZSet.score?_zrem] at hy
    split at hy
    · cases hy
    · exact hp.leased y hy
  | @hdel v =>
    have hne : u ≠ v := fun he => hf (by rw [he])
    exact ⟨hp.seen, by simp [ackHdel, hne, hp.payload], hp.queued, hp.leased⟩

theorem steps (hp : Pinned B W u e h s) {effs : List Eff} (hf : ∀ f ∈ effs, f ≠ .hdel u)
    (hst : (effects B).Steps s effs s') : Pinned B W u e h s' :=
  hst.preserves (Q := fun f => f ≠ .hdel u) (fun _ _ _ hp hf hst => hp.step hf hst) hf hp

theorem claim (hp : Pinned B W u e h s) (now leaseMs : Int) :
    Pinned B W u e h (s.claim now leaseMs).1 := by
  obtain ⟨effs, hst, heffs⟩ := claim_steps B s now leaseMs
  refine hp.steps (fun f hf he => ?_) hst
  rcases heffs f hf with ⟨x, rfl⟩ | ⟨v, x, p, -, rfl⟩
  · cases he
  · cases he

theorem promote (hp : Pinned B W u e h s) (now : Int) (limit : Nat) :
    Pinned B W u e h (s.promote now limit).1 := by
  refine hp.steps (fun f hf he => ?_) (promote_steps B s now limit)
  obtain ⟨x, -, rfl⟩ := List.mem_map.1 hf
  cases he

theorem reclaim (hp : Pinned B W u e h s) (now : Int) (limit : Nat) :
    Pinned B W u e h (s.reclaim now limit).1 := by
  refine hp.steps (fun f hf he => ?_) (reclaim_steps B s now limit)
  obtain ⟨x, -, rfl⟩ := List.mem_map.1 hf
  cases he

/-- Every delivery of the URL carries the same entry and the same attempt id. -/
theorem delivered (hp : Pinned B W u e h s) {now leaseMs : Int} {e' : UrlEntry} {h' : Host}
    (hcl : parseClaimValue W (s.claim now leaseMs).2 = .ok (.claimed u e' h')) :
    e' = e ∧ h' = h := by
  obtain ⟨bs, hreply, hdec⟩ := parse_claimed_inv hcl
  obtain ⟨pre, rest, q, hr, hq, hpay, -⟩ := claim_claimed hreply
  have hbs : bs = W.encode e := by
    rw [hp.payload] at hpay
    exact Option.some.inj hpay
  rw [hbs, W.decode_encode] at hdec
  exact ⟨(Option.some.inj hdec).symm, hp.queued h' (by rw [hq]; exact List.mem_cons_self)⟩

end Pinned

end Shard

end Crawlrs

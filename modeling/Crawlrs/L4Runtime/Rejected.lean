import Crawlrs.L4Runtime.Publish
import Crawlrs.L4Runtime.Sequential

/-!
# What `rejected_urls` says about a URL

The scripts look at the counter before the filter, so that a URL turned down for
its quota is not marked and can come back in a later run. The price, which the
script's comments accept, is that a URL of a full host is rejected whether or not
the filter has it: pages of the host go on finding URLs that wait in its queue.

* `rejected_only_at_cap`: a URL is reported only for a host that is full when the
  scripts reach it, is not marked by that, and gets a `Skipped` row only if the
  ledger has none for it.
* `queued_url_rejected`: the row can be that of a queued URL.
-/
namespace Crawlrs

variable {β : Type}

/-! ## Rows for what was rejected -/

namespace Ledger

/-- A row it changes was not there, and is that of a rejected URL. -/
theorem skipRejected_rows (runId : String) {rejected : List UrlEntry} {u : String} : ∀ {l : Ledger},
    (l.skipRejected runId rejected).rows u ≠ l.rows u → l.rows u = none ∧
      ∃ e ∈ rejected, e.url.asStr = u := by
  induction rejected with
  | nil => intro l h; exact absurd rfl h
  | cons e rejected ih =>
    intro l h
    rw [skipRejected_cons] at h
    by_cases hu : u = e.url.asStr
    · refine ⟨?_, e, List.mem_cons_self, hu.symm⟩
      by_contra hrow
      obtain ⟨row, hrow⟩ := Option.ne_none_iff_exists'.1 hrow
      rw [markDiscoveredSkipped_some (hu ▸ hrow)] at h
      have := ih h
      rw [hrow] at this
      cases this.1
    · have hsame : (l.markDiscoveredSkipped e.url runId e.depth e.discoveredFrom .maxUrls).2.rows u =
          l.rows u :=
        exec_other l (.markDiscoveredSkipped e.url runId e.depth e.discoveredFrom .maxUrls) hu
      rw [← hsame] at h ⊢
      obtain ⟨hnone, e', he', hu'⟩ := ih h
      exact ⟨hnone, e', List.mem_cons_of_mem _ he', hu'⟩

end Ledger

theorem Publisher.ship_ledger {P : Publisher β} {order : HashOrder} {now : Int} {es : List UrlEntry}
    {C : Cluster β} {total : SubmitBatchOutcome}
    (h : (P.frontier.submitBatch P.wire P.bloom order now es C.redis).1 = .ok total) :
    (P.ship order now es C).2.ledger = C.ledger.skipRejected P.runId total.rejectedUrls := by
  unfold Publisher.ship
  cases hs : P.frontier.submitBatch P.wire P.bloom order now es C.redis with
  | mk r R =>
    rw [hs] at h
    cases h
    rfl

theorem Visit.dispatchDirect_ledger {D : Deployment β} (v : Visit D) {es : List UrlEntry}
    {C : Cluster β} {total : SubmitBatchOutcome}
    (h : ((D.frontier v.pod).submitBatch D.wire D.bloom v.order v.nowMs es C.redis).1 = .ok total) :
    (Prog.interp v.serve (v.pipeline.dispatchDirect es) C).2.ledger =
      C.ledger.skipRejected v.pipeline.deps.runId total.rejectedUrls := by
  have hserve : (v.serve C (.submitBatch es)).1 = .ok total := h
  simp only [UrlPipeline.dispatchDirect, Prog.interp_bind, await, Prog.interp_perform, hserve]
  -- the skips one by one, from the cluster after the batch
  have heach : ∀ (rejected : List UrlEntry) (C' : Cluster β),
      (Prog.interp v.serve (Prog.each (fun e => v.pipeline.recordDiscoveredSkip e.url e.depth
        e.discoveredFrom .maxUrls) rejected) C').2.ledger =
        C'.ledger.skipRejected v.pipeline.deps.runId rejected := by
    intro rejected
    induction rejected with
    | nil => intro C'; rfl
    | cons e rejected ih =>
      intro C'
      simp only [Prog.each, Prog.interp_bind, ih]
      rfl
  exact heach total.rejectedUrls _

/-! ## Why a URL is rejected -/

namespace RedisFrontier

variable (F : RedisFrontier) (W : Wire) (B : Sketch UrlId β)

/-- The keyspace of the entry's shard when the scripts reach it, behind the entries of `pre`. -/
def reached (now : Int) (R : Redis β) (pre : List UrlEntry) (e : UrlEntry) : Shard β :=
  Loop.after (F.luaBody W B now) (R.shards (F.shardOfEntry e))
    (F.onShardEntries (F.shardOfEntry e) pre)

/-- The host of the entry is full when the scripts reach it. -/
def FullAt (now : Int) (R : Redis β) (pre : List UrlEntry) (e : UrlEntry) : Prop :=
  Shard.Full F.maxUrls (e.url.host.getD "") (F.reached W B now R pre e)

/-- An entry of the batch, or an earlier one with its id, whose host was full. -/
def Refused (now : Int) (R : Redis β) (es : List UrlEntry) (e : UrlEntry) : Prop :=
  e ∈ es ∧ ∃ pre e' post, es = pre ++ e' :: post ∧ SameKey F W e e' ∧ F.FullAt W B now R pre e'

/-- The ids a batch queues on a shard. -/
def queuedIds (now : Int) (R : Redis β) (es : List UrlEntry) (k : ShardKey) : List UrlId :=
  ((Loop.trace (F.luaBody W B now) (R.shards k) (F.onShardEntries k es)).filter
    (·.2 = .queued)).map (W.idOf ·.1)

variable {F W B}

theorem luaBody_rejected_iff {now : Int} {s : Shard β} {e : UrlEntry} :
    (F.luaBody W B now s e).2 = .rejected ↔ Shard.Full F.maxUrls (e.url.host.getD "") s := by
  show (Shard.submitItem B now s (F.itemOf W e)).2 = .rejected ↔ _
  rw [Shard.submitItem_eq]
  split
  · rename_i hfull
    exact ⟨fun _ => hfull, fun _ => rfl⟩
  · rename_i hroom
    have hno : ¬ Shard.Full F.maxUrls (e.url.host.getD "") s := hroom
    split
    · simp [hno]
    · simp [hno]

theorem luaBody_seen {now : Int} {s : Shard β} {e : UrlEntry} : (F.luaBody W B now s e).1.seen =
    if (F.luaBody W B now s e).2 = .queued then B.insert s.seen (W.idOf e) else s.seen := by
  have hb : F.luaBody W B now s e = Shard.submitItem B now s (F.itemOf W e) := rfl
  rw [hb, Shard.submitItem_eq]
  split
  · rfl
  · split
    · rfl
    · rfl

/-- The filter behind a loop: what was queued, inserted in order. -/
theorem after_luaBody_seen (now : Int) (es : List UrlEntry) : ∀ s : Shard β,
    (Loop.after (F.luaBody W B now) s es).seen =
      (((Loop.trace (F.luaBody W B now) s es).filter (·.2 = .queued)).map (W.idOf ·.1)).foldl B.insert
        s.seen := by
  induction es with
  | nil => intro s; rfl
  | cons e es ih =>
    intro s
    rw [Loop.after_cons, ih, Loop.trace_cons, luaBody_seen]
    by_cases hq : (F.luaBody W B now s e).2 = .queued
    · simp [hq]
    · simp [hq]

/-- What is reported for a shard stands for an entry the script found full. -/
theorem mem_reported {now : Int} {s : Shard β} {es : List UrlEntry} {e : UrlEntry}
    (h : e ∈ F.reported W B now s es) : e ∈ es ∧ ∃ pre e' post, es = pre ++ e' :: post ∧
      W.idOf e' = W.idOf e ∧
      Shard.Full F.maxUrls (e'.url.host.getD "") (Loop.after (F.luaBody W B now) s pre) := by
  obtain ⟨p, hp, rfl⟩ := List.mem_map.1 h
  obtain ⟨hmem, hv⟩ := List.mem_filter.1 hp
  have hrej : (p.1, Shard.Verdict.rejected) ∈ Loop.trace (F.luaBody W B now) s es := by
    rw [← of_decide_eq_true hv]
    exact hmem
  obtain ⟨pre, post, hes, hbody⟩ := Loop.mem_trace.1 hrej
  have hp1 : p.1 ∈ es := by simp [hes]
  refine ⟨firstWith_mem hp1, pre, p.1, post, hes, ?_, luaBody_rejected_iff.1 hbody⟩
  unfold firstWith
  cases hf : es.find? fun e' => W.idOf e' = W.idOf p.1 with
  | none => rfl
  | some e' => simpa [eq_comm] using List.find?_some hf

theorem refused_of_reported {order : HashOrder} {now : Int} {es : List UrlEntry} {R : Redis β}
    (hes : ∀ e ∈ es, F.Accepts e) {total : SubmitBatchOutcome}
    (h : (F.submitBatch W B order now es R).1 = .ok total) :
    ∀ e ∈ total.rejectedUrls, F.Refused W B now R es e := by
  obtain ⟨ks, -, hnd, hks, -, hreply⟩ := submitBatch_spec (W := W) (B := B) order now hes R
  rw [hreply] at h
  cases h
  intro e he
  obtain ⟨k, -, hk⟩ := List.mem_flatMap.1 he
  obtain ⟨hmem, pre, e', post, hsplit, hid, hfull⟩ := mem_reported hk
  obtain ⟨hees, hek⟩ := List.mem_filter.1 hmem
  have hek : F.shardOfEntry e = k := of_decide_eq_true hek
  -- the split of the shard's entries is one of the batch
  obtain ⟨xs, ys, rfl, rfl, hys⟩ := List.filter_eq_append_iff.1 hsplit
  obtain ⟨zs, post', rfl, hzs, hk', rfl⟩ := List.filter_eq_cons_iff.1 hys
  have hk' : F.shardOfEntry e' = k := of_decide_eq_true hk'
  have hpre : F.onShardEntries k (xs ++ zs) = F.onShardEntries k xs := by
    have hzs : zs.filter (F.shardOfEntry · = k) = [] := List.filter_eq_nil_iff.2 hzs
    rw [onShardEntries, onShardEntries, List.filter_append, hzs, List.append_nil]
  refine ⟨hees, xs ++ zs, e', post', by simp, ⟨hk'.trans hek.symm, hid⟩, ?_⟩
  rw [FullAt, reached, hk', hpre]
  exact hfull

theorem accepts_of_ok {order : HashOrder} {now : Int} {es : List UrlEntry} {R : Redis β}
    {total : SubmitBatchOutcome} (h : (F.submitBatch W B order now es R).1 = .ok total) :
    ∀ e ∈ es, F.Accepts e := by
  by_contra hacc
  have hbad : ∃ e ∈ es, ¬ F.Accepts e := by simpa using hacc
  obtain ⟨err, herr⟩ := submitBatch_error (W := W) (B := B) order now R hbad
  rw [herr] at h
  cases h

/-- **Rejected means full.** A reported URL stands for an entry whose host was full when the scripts
reached it, and an entry is rejected exactly there, in the filter or not; the filters get what was
queued and nothing else. The publisher and the worker add a ledger row for a reported URL only
where there is none. -/
theorem rejected_only_at_cap (F : RedisFrontier) (W : Wire) (B : Sketch UrlId β) (order : HashOrder)
    (now : Int) (es : List UrlEntry) (R R' : Redis β) (total : SubmitBatchOutcome)
    (h : F.submitBatch W B order now es R = (.ok total, R')) :
    (∀ e ∈ total.rejectedUrls, F.Refused W B now R es e) ∧
    (∀ k, (R'.shards k).seen = (F.queuedIds W B now R es k).foldl B.insert (R.shards k).seen) ∧
    (∀ pre e post, es = pre ++ e :: post →
      ((F.luaBody W B now (F.reached W B now R pre e) e).2 = .rejected ↔
        F.FullAt W B now R pre e)) ∧
    (∀ (P : Publisher β) (C : Cluster β), P.frontier = F → P.wire = W → P.bloom = B → C.redis = R →
      ∀ u, (P.ship order now es C).2.ledger.rows u ≠ C.ledger.rows u →
        C.ledger.rows u = none ∧ ∃ e, F.Refused W B now R es e ∧ e.url.asStr = u) ∧
    ∀ (D : Deployment β) (v : Visit D) (C : Cluster β), D.frontier v.pod = F → D.wire = W →
      D.bloom = B → v.order = order → v.nowMs = now → C.redis = R →
      ∀ u, (Prog.interp v.serve (v.pipeline.dispatchDirect es) C).2.ledger.rows u ≠ C.ledger.rows u →
        C.ledger.rows u = none ∧ ∃ e, F.Refused W B now R es e ∧ e.url.asStr = u := by
  have hok : (F.submitBatch W B order now es R).1 = .ok total := by rw [h]
  have hacc := accepts_of_ok hok
  have hrefused := refused_of_reported hacc hok
  refine ⟨hrefused, fun k => ?_, fun pre e post _ => luaBody_rejected_iff, ?_, ?_⟩
  · obtain ⟨ks, -, -, -, hshards, -⟩ := submitBatch_spec (W := W) (B := B) order now hacc R
    have hk := hshards k
    rw [h] at hk
    rw [hk, after_luaBody_seen]
    rfl
  · intro P C hF hW hB hR u hu
    subst hF hW hB hR
    rw [Publisher.ship_ledger hok] at hu
    obtain ⟨hnone, e, he, heu⟩ := Ledger.skipRejected_rows P.runId hu
    exact ⟨hnone, e, hrefused e he, heu⟩
  · intro D v C hF hW hB ho hn hR u hu
    subst hF hW hB ho hn hR
    rw [Visit.dispatchDirect_ledger v hok] at hu
    obtain ⟨hnone, e, he, heu⟩ := Ledger.skipRejected_rows v.pipeline.deps.runId hu
    exact ⟨hnone, e, hrefused e he, heu⟩

/-- One URL of `a.test` is in its queue, and the host may have one. -/
def oneQueued : Redis (List UrlId) :=
  ((flat 1).submitBatch .sample .exact .asIs 0 [.seedA] Redis.fresh).2

/-- The publisher of a run with that cap; its rows read back as what they were. -/
def flatPublisher : Publisher (List UrlId) :=
  ⟨flat 1, .sample, .exact, fun _ => .ok UrlEntry.seedA.url, "run-1"⟩

/-- Found again, the queued URL is rejected, and the ledger has it as skipped. -/
theorem queued_url_rejected :
    Sketch.exact.has (oneQueued.shards 0).seen Wire.idA = true ∧
    Wire.idA ∈ (oneQueued.shards 0).hostQueue "a.test" ∧
    ((flat 1).submitBatch .sample .exact .asIs 0 [.seedA] oneQueued).1 = .ok ⟨0, [.seedA]⟩ ∧
    ((flatPublisher.ship .asIs 0 [.seedA] ⟨oneQueued, .empty⟩).2.ledger.rows "https://a.test/").map
      UrlRow.status = some (.skipped .maxUrls) := by
  refine ⟨by decide +kernel, by decide +kernel, by decide +kernel, by decide +kernel⟩

/-- That batch, and why its entry is reported. -/
theorem rejected_only_at_cap_queued :
    (flat 1).Refused .sample .exact 0 oneQueued [.seedA] .seedA := by
  have hrun : (flat 1).submitBatch .sample .exact .asIs 0 [.seedA] oneQueued =
      (.ok ⟨0, [.seedA]⟩, ((flat 1).submitBatch .sample .exact .asIs 0 [.seedA] oneQueued).2) :=
    Prod.ext (by decide +kernel) rfl
  exact (rejected_only_at_cap (flat 1) .sample .exact .asIs 0 [.seedA] oneQueued _ _ hrun).1 .seedA
    List.mem_cons_self

end RedisFrontier

end Crawlrs

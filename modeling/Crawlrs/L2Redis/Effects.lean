import Crawlrs.Core.LTS
import Crawlrs.L2Redis.Shard

/-!
# Scripts as sequences of effects

A script touches the keyspace in a few elementary ways: accept a URL, drop a
stale `ready` entry, lease a URL, move one host to `ready`, put one expired URL
back, set a wake-time, remove a lease, remove a payload. `Eff` names them,
`Eff.Step` says when each can happen and what it does, and every script is a
run of effects (`submit_steps`, `submitBatch_steps`, `claim_steps`,
`promote_steps`, `reclaim_steps`). An invariant is proved once per effect and
holds for every script.
-/
namespace Crawlrs

variable {β : Type}

/-- A URL the filter reports as new enters the keyspace. -/
def Shard.accept (B : Sketch UrlId β) (s : Shard β) (u : UrlId) (h : Host) (payload : Bytes)
    (now : Int) (counted : Bool) : Shard β :=
  { s with
    seen := B.insert s.seen u
    urls := Function.update s.urls u (some payload)
    hostQueue := Function.update s.hostQueue h (s.hostQueue h ++ [u])
    hostCount := if counted then Function.update s.hostCount h (s.hostCount h + 1) else s.hostCount
    wake := s.wake.zaddNX h (f64 now) }

/-- The lease `claim.lua` takes once it has found a host with a queued URL. -/
def Shard.take (s : Shard β) (u : UrlId) (h : Host) (rest : List Host) (q : List UrlId)
    (expiry : Int) : Shard β :=
  { s with
    ready := rest
    hostQueue := Function.update s.hostQueue h q
    wake := s.wake.zadd h expiry
    inflight := s.inflight.zadd ⟨u, h⟩ expiry }

/-- An expired lease goes back to its queue. -/
def Shard.requeue (s : Shard β) (l : Lease) (now : Int) : Shard β :=
  { s with
    inflight := s.inflight.zrem l
    hostQueue := Function.update s.hostQueue l.host (s.hostQueue l.host ++ [l.urlId])
    wake := s.wake.zaddNX l.host (f64 now) }

inductive Eff
  | accept (u : UrlId) (h : Host) (payload : Bytes) (now : Int) (counted : Bool)
  | stale (h : Host)
  | lease (u : UrlId) (h : Host) (expiry : Int)
  | promote (h : Host) (now : Int)
  | reclaim (l : Lease) (now : Int)
  | advance (h : Host) (untilMs : Int)
  | zrem (l : Lease)
  | hdel (u : UrlId)
deriving DecidableEq, Repr

inductive Eff.Step (B : Sketch UrlId β) : Shard β → Eff → Shard β → Prop
  | accept {s : Shard β} {u : UrlId} {h : Host} {payload : Bytes} {now : Int} {counted : Bool} :
      B.has s.seen u = false →
      Step B s (.accept u h payload now counted) (s.accept B u h payload now counted)
  | stale {s : Shard β} {h : Host} {rest : List Host} :
      s.ready = h :: rest → s.hostQueue h = [] → Step B s (.stale h) { s with ready := rest }
  | lease {s : Shard β} {u : UrlId} {h : Host} {rest : List Host} {q : List UrlId} {expiry : Int} :
      s.ready = h :: rest → s.hostQueue h = u :: q →
      Step B s (.lease u h expiry) (s.take u h rest q expiry)
  | promote {s : Shard β} {h : Host} {now t : Int} :
      s.wake.score? h = some t → 0 ≤ t → t ≤ f64 now → Step B s (.promote h now) (s.promoteOne h)
  | reclaim {s : Shard β} {l : Lease} {now t : Int} :
      s.inflight.score? l = some t → 0 ≤ t → t ≤ f64 now →
      Step B s (.reclaim l now) (s.requeue l now)
  | advance {s : Shard β} {h : Host} {untilMs : Int} :
      Step B s (.advance h untilMs) (s.advanceWake h untilMs)
  | zrem {s : Shard β} {l : Lease} : Step B s (.zrem l) (s.ackZrem l)
  | hdel {s : Shard β} {u : UrlId} : Step B s (.hdel u) (s.ackHdel u)

/-- The effects on one shard. -/
def effects (B : Sketch UrlId β) : LTS (Shard β) Eff where
  init s := ∃ seen, s = .fresh seen
  step := Eff.Step B

namespace Shard

variable (B : Sketch UrlId β)

/-! ## Submitting -/

theorem submit_eq (s : Shard β) (u : UrlId) (h : Host) (payload : Bytes) (now : Int) :
    s.submit B u h payload now =
      if B.has s.seen u then (s, .skippedDuplicate)
      else (s.accept B u h payload now false, .queued) := by
  unfold submit Sketch.bfAdd
  split
  · rename_i seen hb
    split at hb
    · cases hb; rename_i hs; simp [hs]
    · cases hb
  · rename_i seen hb
    split at hb
    · cases hb
    · rename_i hs
      cases hb
      simp [hs, enqueue, accept]

theorem submitItem_eq (s : Shard β) (now : Int) (it : SubmitItem) :
    submitItem B now s it =
      if 0 ≤ f64 it.maxUrls ∧ f64 it.maxUrls ≤ f64 (s.hostCount it.host) then (s, .rejected)
      else if B.has s.seen it.urlId then (s, .duplicate)
      else (s.accept B it.urlId it.host it.payload now (decide (0 ≤ f64 it.maxUrls)), .queued) := by
  unfold submitItem Sketch.bfAdd
  simp only
  split
  · rfl
  · by_cases hs : B.has s.seen it.urlId = true
    · simp [hs]
    · by_cases hc : 0 ≤ f64 it.maxUrls
      · simp [hs, hc, enqueue, accept, incr]
      · simp [hs, hc, enqueue, accept]

/-- The keyspace after a batch does not depend on the accumulated reply. -/
theorem submitBatch_fst (now : Int) (its : List SubmitItem) :
    ∀ (s : Shard β) (acc : Nat × List UrlId),
      (submitBatch B now its s acc).1 = its.foldl (fun s it => (submitItem B now s it).1) s := by
  induction its with
  | nil => intro s acc; rfl
  | cons it its ih =>
    intro s acc
    obtain ⟨queued, rejected⟩ := acc
    rw [submitBatch, List.foldl_cons]
    generalize submitItem B now s it = res
    obtain ⟨s', v⟩ := res
    cases v <;> exact ih s' _

/-- The accepted entries of a batch, as effects. -/
def batchEffs (now : Int) : List SubmitItem → Shard β → List Eff
  | [], _ => []
  | it :: its, s =>
    match submitItem B now s it with
    | (s', .queued) =>
      .accept it.urlId it.host it.payload now (decide (0 ≤ f64 it.maxUrls)) ::
        batchEffs now its s'
    | (s', _) => batchEffs now its s'

theorem submitBatch_steps (now : Int) (its : List SubmitItem) :
    ∀ (s : Shard β) (acc : Nat × List UrlId),
      (effects B).Steps s (batchEffs B now its s) (submitBatch B now its s acc).1 := by
  induction its with
  | nil => intro s acc; exact .nil s
  | cons it its ih =>
    intro s acc
    obtain ⟨queued, rejected⟩ := acc
    simp only [batchEffs, submitBatch, submitItem_eq]
    by_cases hq : 0 ≤ f64 it.maxUrls ∧ f64 it.maxUrls ≤ f64 (s.hostCount it.host)
    · simp only [if_pos hq]
      exact ih s _
    · simp only [if_neg hq]
      by_cases hs : B.has s.seen it.urlId = true
      · simp only [if_pos hs]
        exact ih s _
      · simp only [if_neg hs]
        exact .cons (.accept (by simpa using hs)) (ih _ _)

theorem mem_batchEffs {now : Int} {its : List SubmitItem} {e : Eff} :
    ∀ {s : Shard β}, e ∈ batchEffs B now its s → ∃ it ∈ its,
      e = .accept it.urlId it.host it.payload now (decide (0 ≤ f64 it.maxUrls)) := by
  induction its with
  | nil => intro s h; simp [batchEffs] at h
  | cons it its ih =>
    intro s h
    simp only [batchEffs] at h
    split at h
    · rcases List.mem_cons.1 h with h | h
      · exact ⟨it, List.mem_cons_self, h⟩
      · obtain ⟨it', hm, he⟩ := ih h
        exact ⟨it', List.mem_cons_of_mem _ hm, he⟩
    · obtain ⟨it', hm, he⟩ := ih h
      exact ⟨it', List.mem_cons_of_mem _ hm, he⟩

/-! ## Claiming -/

/-- Both ends of `claim.lua`: the first ready host with a queued URL is leased and
the stale entries before it are gone, or every entry was stale. -/
inductive ClaimCases (s : Shard β) (now leaseMs : Int) : Shard β × ClaimReply → Prop
  | claimed {pre rest : List Host} {h : Host} {u : UrlId} {q : List UrlId} :
      s.ready = pre ++ h :: rest → (∀ x ∈ pre, s.hostQueue x = []) → s.hostQueue h = u :: q →
      ClaimCases s now leaseMs
        (s.take u h rest q (expiryOf now leaseMs), .claimed u h (s.urls u))
  | hint {h : Host} {t : Int} :
      (∀ x ∈ s.ready, s.hostQueue x = []) → s.wake.first? = some (h, t) →
      ClaimCases s now leaseMs ({ s with ready := [] }, .emptyHint t)
  | empty :
      (∀ x ∈ s.ready, s.hostQueue x = []) → s.wake.first? = none →
      ClaimCases s now leaseMs ({ s with ready := [] }, .empty)

theorem claimLoop_cases (now leaseMs : Int) (ready : List Host) :
    ∀ s : Shard β, s.ready = ready → ClaimCases s now leaseMs (claimLoop now leaseMs ready s) := by
  induction ready with
  | nil =>
    intro s hr
    have hall : ∀ x ∈ s.ready, s.hostQueue x = [] := by simp [hr]
    unfold claimLoop
    cases hf : s.wake.first? with
    | none => simpa [hf] using ClaimCases.empty hall hf
    | some p => simpa [hf] using ClaimCases.hint hall hf
  | cons h rest ih =>
    intro s hr
    unfold claimLoop
    cases hq : s.hostQueue h with
    | nil =>
      simp only
      -- the stale head is dropped; the cases of the shorter list are those of the whole
      generalize hres : claimLoop now leaseMs rest { s with ready := rest } = res
      have := ih { s with ready := rest } rfl
      rw [hres] at this
      cases this with
      | @claimed pre rest' h' u q hr' hpre hq' =>
        exact @ClaimCases.claimed β s now leaseMs (h :: pre) rest' h' u q
          (by rw [hr]; exact congrArg _ hr') (by simpa [hq] using hpre) hq'
      | hint hall hf => exact .hint (s := s) (by rw [hr]; simpa [hq] using hall) hf
      | empty hall hf => exact .empty (s := s) (by rw [hr]; simpa [hq] using hall) hf
    | cons u q =>
      exact @ClaimCases.claimed β s now leaseMs [] rest h u q (by simpa using hr) (by simp) hq

theorem claim_cases (s : Shard β) (now leaseMs : Int) :
    ClaimCases s now leaseMs (s.claim now leaseMs) := claimLoop_cases now leaseMs _ s rfl

/-- What a claim that hands out a URL found and did. -/
theorem claim_claimed {s : Shard β} {now leaseMs : Int} {u : UrlId} {h : Host} {p : Option Bytes}
    (hcl : (s.claim now leaseMs).2 = .claimed u h p) :
    ∃ pre rest q, s.ready = pre ++ h :: rest ∧ s.hostQueue h = u :: q ∧ p = s.urls u ∧
      (s.claim now leaseMs).1 = s.take u h rest q (expiryOf now leaseMs) := by
  have hc := claim_cases s now leaseMs
  generalize s.claim now leaseMs = res at hc hcl ⊢
  cases hc with
  | claimed hr _ hq =>
    cases hcl
    exact ⟨_, _, _, hr, hq, rfl, rfl⟩
  | hint => cases hcl
  | empty => cases hcl

theorem stale_steps (s : Shard β) (pre rest : List Host) (hr : s.ready = pre ++ rest)
    (hpre : ∀ x ∈ pre, s.hostQueue x = []) :
    (effects B).Steps s (pre.map .stale) { s with ready := rest } := by
  induction pre generalizing s with
  | nil =>
    have : s = { s with ready := rest } := by rw [← show s.ready = rest by simpa using hr]
    rw [List.map_nil, ← this]
    exact .nil s
  | cons h pre ih =>
    have hst : Eff.Step B s (.stale h) { s with ready := pre ++ rest } :=
      .stale hr (hpre h List.mem_cons_self)
    exact .cons hst (ih { s with ready := pre ++ rest } rfl
      fun x hx => hpre x (List.mem_cons_of_mem _ hx))

/-- A claim drops stale entries, then leases at most one URL: the one it returns. -/
theorem claim_steps (s : Shard β) (now leaseMs : Int) :
    ∃ effs, (effects B).Steps s effs (s.claim now leaseMs).1 ∧
      ∀ e ∈ effs, (∃ h, e = .stale h) ∨
        ∃ u h p, (s.claim now leaseMs).2 = .claimed u h p ∧ e = .lease u h (expiryOf now leaseMs) := by
  have hc := claim_cases s now leaseMs
  generalize s.claim now leaseMs = res at hc ⊢
  have hnone : (∀ x ∈ s.ready, s.hostQueue x = []) → ∀ reply,
      ∃ effs, (effects B).Steps s effs { s with ready := [] } ∧ ∀ e ∈ effs, (∃ h, e = .stale h) ∨
        ∃ u h p, reply = ClaimReply.claimed u h p ∧ e = .lease u h (expiryOf now leaseMs) := by
    intro hall reply
    refine ⟨s.ready.map .stale, stale_steps B s s.ready [] (by simp) hall, ?_⟩
    intro e he
    obtain ⟨h, -, rfl⟩ := List.mem_map.1 he
    exact .inl ⟨h, rfl⟩
  cases hc with
  | @claimed pre rest h u q hr hpre hq =>
    refine ⟨pre.map .stale ++ [.lease u h (expiryOf now leaseMs)], ?_, ?_⟩
    · exact (stale_steps B s pre (h :: rest) hr hpre).append
        (.cons (.lease rfl hq) (.nil _))
    · intro e he
      rcases List.mem_append.1 he with he | he
      · obtain ⟨x, -, rfl⟩ := List.mem_map.1 he
        exact .inl ⟨x, rfl⟩
      · exact .inr ⟨u, h, _, rfl, List.mem_singleton.1 he⟩
  | hint hall _ => exact hnone hall _
  | empty hall _ => exact hnone hall _

/-! ## Scheduling -/

theorem reclaimOne_eq (now : Int) (s : Shard β) (l : Lease) :
    reclaimOne now s l = s.requeue l now := by
  simp [reclaimOne, requeue]

theorem promote_fold_steps (now : Int) (hosts : List Host) (hnd : hosts.Nodup) :
    ∀ s : Shard β, (∀ h ∈ hosts, ∃ t, s.wake.score? h = some t ∧ 0 ≤ t ∧ t ≤ f64 now) →
      (effects B).Steps s (hosts.map (.promote · now)) (hosts.foldl promoteOne s) := by
  induction hosts with
  | nil => intro s _; exact .nil s
  | cons h hosts ih =>
    intro s hw
    obtain ⟨hh, hnd⟩ := List.nodup_cons.1 hnd
    obtain ⟨t, hs, h0, h1⟩ := hw h List.mem_cons_self
    refine .cons (.promote hs h0 h1) (ih hnd _ fun x hx => ?_)
    obtain ⟨t', hs', h0', h1'⟩ := hw x (List.mem_cons_of_mem _ hx)
    have hne : x ≠ h := fun he => hh (he ▸ hx)
    exact ⟨t', by simpa [promoteOne, ZSet.score?_zrem, hne] using hs', h0', h1'⟩

theorem promote_steps (s : Shard β) (now : Int) (limit : Nat) :
    (effects B).Steps s ((s.wake.zrangebyscore 0 (f64 now) limit).map (.promote · now))
      (s.promote now limit).1 :=
  promote_fold_steps B now _ (ZSet.nodup_zrangebyscore _ _ _ _) s
    fun _ hx => ZSet.score?_of_mem_zrangebyscore hx

theorem promote_fold_ready (hosts : List Host) :
    ∀ s : Shard β, (hosts.foldl promoteOne s).ready = s.ready ++ hosts ∧
      (hosts.foldl promoteOne s).hostQueue = s.hostQueue := by
  induction hosts with
  | nil => intro s; simp
  | cons x hosts ih =>
    intro s
    obtain ⟨h1, h2⟩ := ih (s.promoteOne x)
    refine ⟨?_, h2⟩
    rw [List.foldl_cons, h1]
    simp [promoteOne]

theorem reclaim_fold_steps (now : Int) (ls : List Lease) (hnd : ls.Nodup) :
    ∀ s : Shard β, (∀ l ∈ ls, ∃ t, s.inflight.score? l = some t ∧ 0 ≤ t ∧ t ≤ f64 now) →
      (effects B).Steps s (ls.map (.reclaim · now)) (ls.foldl (reclaimOne now) s) := by
  induction ls with
  | nil => intro s _; exact .nil s
  | cons l ls ih =>
    intro s hw
    obtain ⟨hh, hnd⟩ := List.nodup_cons.1 hnd
    obtain ⟨t, hs, h0, h1⟩ := hw l List.mem_cons_self
    rw [List.foldl_cons, reclaimOne_eq]
    refine .cons (.reclaim hs h0 h1) (ih hnd _ fun x hx => ?_)
    obtain ⟨t', hs', h0', h1'⟩ := hw x (List.mem_cons_of_mem _ hx)
    have hne : x ≠ l := fun he => hh (he ▸ hx)
    exact ⟨t', by simpa [requeue, ZSet.score?_zrem, hne] using hs', h0', h1'⟩

theorem reclaim_steps (s : Shard β) (now : Int) (limit : Nat) :
    (effects B).Steps s ((s.inflight.zrangebyscore 0 (f64 now) limit).map (.reclaim · now))
      (s.reclaim now limit).1 :=
  reclaim_fold_steps B now _ (ZSet.nodup_zrangebyscore _ _ _ _) s
    fun _ hx => ZSet.score?_of_mem_zrangebyscore hx

end Shard

end Crawlrs

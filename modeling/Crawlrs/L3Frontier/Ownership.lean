import Crawlrs.L3Frontier.Records

/-!
# Lease ownership

An attempt id encodes the shard, the URL and the host, and nothing of the
delivery: two deliveries of one URL carry the same token, and `ack` releases
whatever lease that token names. A worker whose lease was reclaimed releases the
lease of the worker that holds the URL now.

* `not_leaseOwned`: that run.
* `lease_owned`: when no ack command runs for a superseded delivery, a lease and
  its payload stay until the holder's own ack or a reclaim after expiry, and the
  reclaim puts the URL back.
-/
namespace Crawlrs

variable {β : Type}

/-- In `L`, a delivered URL keeps its lease and its payload until its own ack (the
next delivery's number is `s₀.deliveries.length`) or a reclaim that has reached the
expiry; and such a reclaim puts the URL back into its queue. -/
def LeaseOwned (E : Env β) (L : LTS (Sys β) Op) : Prop :=
  ∀ s₀ s₁ s₂ tr now leaseMs u e h,
    L.Reachable s₀ → L.step s₀ (.claim now leaseMs) s₁ →
    parseClaimValue E.wire (s₀.shard.claim now leaseMs).2 = .ok (.claimed u e h) →
    L.Steps s₁ tr s₂ → .ackZrem s₀.deliveries.length ∉ tr → .ackHdel s₀.deliveries.length ∉ tr →
    (∀ now' limit, .reclaim now' limit ∈ tr → f64 now' < Shard.expiryOf now leaseMs) →
    s₂.shard.inflight.score? ⟨u, h⟩ = some (Shard.expiryOf now leaseMs) ∧
      s₂.shard.urls u = s₁.shard.urls u ∧ (s₁.shard.urls u).isSome ∧
      ∀ now' limit, 0 ≤ Shard.expiryOf now leaseMs → Shard.expiryOf now leaseMs ≤ f64 now' →
        s₂.shard.inflight.zcard ≤ limit → u ∈ (s₂.shard.reclaim now' limit).1.hostQueue h

/-- The ack of the first delivery, late, releases the lease of the second. -/
theorem not_leaseOwned : ¬ LeaseOwned Env.sample (system Env.sample) := by
  intro hall
  have := (hall (.after .sample [] [.submit .a 0, .promote 0 10, .claim 0 10, .reclaim 10 10,
    .promote 10 10]) _ _ [.ackZrem 0] 10 10 Wire.idA .seedA "a.test" (reachable_after (by decide +kernel)) rfl
    (by decide +kernel) (LTS.steps_replay (by decide +kernel)) (by decide) (by decide) (by simp)).1
  exact absurd this (by decide +kernel)

/-! ## The lease of the current delivery -/

/-- `u` is leased under `h` until `x` and has payload `p`. -/
structure Leased (B : Sketch UrlId β) (u : UrlId) (h : Host) (x : Int) (p : Option Bytes)
    (s : Shard β) : Prop where
  conserved : ∃ acc, Conserved B acc (fun _ => True) s
  lease : s.inflight.score? ⟨u, h⟩ = some x
  payload : s.urls u = p

namespace Leased

variable {B : Sketch UrlId β} {s s' : Shard β} {u : UrlId} {h : Host} {x : Int} {p : Option Bytes}

theorem seen (hl : Leased B u h x p s) : B.has s.seen u = true := by
  obtain ⟨acc, hc⟩ := hl.conserved
  exact hc.seen _ (hc.mem_of_held (Conserved.held_pos_of_leased hl.lease))

/-- While it is leased it is queued nowhere. -/
theorem not_queued (hl : Leased B u h x p s) (h' : Host) : u ∉ s.hostQueue h' := by
  obtain ⟨acc, hc⟩ := hl.conserved
  intro hq
  have h1 := hc.mem_of_held (Conserved.held_pos_of_queued hq)
  have h2 := hc.mem_of_held (Conserved.held_pos_of_leased hl.lease)
  have hn := hc.not_leased_of_queued (hc.host_unique h1 h2 ▸ hq)
  rw [hl.lease] at hn
  cases hn

/-- Everything but the expiry and an ack of `u` keeps the lease. -/
theorem eff (hl : Leased B u h x p s) {e : Eff} (hst : Eff.Step B s e s')
    (hz : e ≠ .zrem ⟨u, h⟩) (hd : e ≠ .hdel u)
    (hr : ∀ now, e = .reclaim ⟨u, h⟩ now → f64 now < x) : Leased B u h x p s' := by
  have hc' : ∃ acc, Conserved B acc (fun _ => True) s' := by
    obtain ⟨acc, hc⟩ := hl.conserved
    exact ⟨_, hc.eff hst fun _ _ => trivial⟩
  cases hst with
  | @accept v _ _ _ _ hv =>
    have hne : u ≠ v := by
      rintro rfl
      rw [hl.seen] at hv
      cases hv
    exact ⟨hc', hl.lease, by simpa [Shard.accept, Function.update_of_ne hne] using hl.payload⟩
  | stale => exact ⟨hc', hl.lease, hl.payload⟩
  | @lease v m _ _ _ _ hq =>
    have hne : (⟨u, h⟩ : Lease) ≠ ⟨v, m⟩ := by
      intro he
      cases he
      exact hl.not_queued h (hq ▸ List.mem_cons_self)
    exact ⟨hc', by simpa only [Shard.take, ZSet.score?_zadd, if_neg hne] using hl.lease, hl.payload⟩
  | promote => exact ⟨hc', hl.lease, hl.payload⟩
  | @reclaim l now t hi h0 h1 =>
    have hne : (⟨u, h⟩ : Lease) ≠ l := by
      rintro rfl
      rw [hl.lease] at hi
      cases hi
      exact absurd h1 (not_le.2 (hr now rfl))
    exact ⟨hc', by simpa only [Shard.requeue, ZSet.score?_zrem, if_neg hne] using hl.lease, hl.payload⟩
  | advance => exact ⟨hc', hl.lease, hl.payload⟩
  | @zrem l =>
    have hne : (⟨u, h⟩ : Lease) ≠ l := fun he => hz (he ▸ rfl)
    exact ⟨hc', by simpa only [Shard.ackZrem, ZSet.score?_zrem, if_neg hne] using hl.lease, hl.payload⟩
  | @hdel v =>
    have hne : u ≠ v := fun he => hd (he ▸ rfl)
    exact ⟨hc', hl.lease, by simpa [Shard.ackHdel, Function.update_of_ne hne] using hl.payload⟩

end Leased

/-! ## Runs without acks of superseded deliveries -/

/-- A newer delivery of the same URL holds a lease. -/
def Superseded (s : Sys β) (d : Nat) : Prop :=
  ∃ l ∈ s.deliveries[d]?, ∃ l' ∈ s.deliveries.drop (d + 1),
    l'.urlId = l.urlId ∧ (s.shard.inflight.score? l').isSome

instance (s : Sys β) (d : Nat) : Decidable (Superseded s d) :=
  inferInstanceAs (Decidable (∃ l ∈ s.deliveries[d]?, ∃ l' ∈ s.deliveries.drop (d + 1),
    l'.urlId = l.urlId ∧ (s.shard.inflight.score? l').isSome))

/-- No command of an ack for a superseded delivery. -/
def CurrentAck (s : Sys β) : Op → Prop
  | .ackZrem d | .ackHdel d => ¬ Superseded s d
  | _ => True

instance (s : Sys β) : (op : Op) → Decidable (CurrentAck s op)
  | .ackZrem d | .ackHdel d => inferInstanceAs (Decidable (¬ Superseded s d))
  | .submit .. | .submitBatch .. | .claim .. | .promote .. | .reclaim .. | .advanceWake .. =>
    inferInstanceAs (Decidable True)

/-- Delivery `b`, the last one of `u`, holds the lease. -/
structure Holder (E : Env β) (b : Nat) (u : UrlId) (h : Host) (x : Int) (p : Option Bytes)
    (s : Sys β) : Prop where
  leased : Leased E.bloom u h x p s.shard
  delivery : s.deliveries[b]? = some ⟨u, h⟩
  last : ∀ l ∈ s.deliveries.drop (b + 1), l.urlId ≠ u

namespace Holder

variable {E : Env β} {b : Nat} {u : UrlId} {h : Host} {x : Int} {p : Option Bytes} {s s' : Sys β}

/-- An ack command for `u` that is not of a superseded delivery is the holder's own. -/
theorem own (hh : Holder E b u h x p s) {d : Nat} {l : Lease} (hl : s.deliveries[d]? = some l)
    (hu : l.urlId = u) (hcur : ¬ Superseded s d) : d = b := by
  rcases Nat.lt_trichotomy d b with hlt | heq | hgt
  · refine absurd ⟨l, hl, ⟨u, h⟩, ?_, hu.symm, by simp [hh.leased.lease]⟩ hcur
    refine List.mem_of_getElem? (i := b - (d + 1)) ?_
    rw [List.getElem?_drop, Nat.add_sub_cancel' hlt]
    exact hh.delivery
  · exact heq
  · refine absurd hu (hh.last l (List.mem_of_getElem? (i := d - (b + 1)) ?_))
    rw [List.getElem?_drop, Nat.add_sub_cancel' hgt]
    exact hl

theorem step {op : Op} (hh : Holder E b u h x p s) (hst : s.step E op = some s')
    (hcur : CurrentAck s op) (hz : op ≠ .ackZrem b) (hd : op ≠ .ackHdel b)
    (hr : ∀ now limit, op = .reclaim now limit → f64 now < x) : Holder E b u h x p s' := by
  refine ⟨?_, (Sys.step_grows hst).delivery hh.delivery, ?_⟩
  · obtain ⟨es, hsteps, hall, -⟩ := Sys.step_effs hst
    refine hsteps.preserves (P := Leased E.bloom u h x p) (Q := op.Effect E s) ?_ hall hh.leased
    intro a e a' ha he hst'
    refine ha.eff hst' ?_ ?_ ?_
    · rintro rfl
      cases op with
      | ackZrem d =>
        obtain ⟨l, hl, he⟩ := he
        cases he
        exact hz (hh.own hl rfl hcur ▸ rfl)
      | _ => simp [Op.Effect] at he
    · rintro rfl
      cases op with
      | ackHdel d =>
        obtain ⟨l, hl, -, he⟩ := he
        cases he
        exact hd (hh.own hl rfl hcur ▸ rfl)
      | _ => simp [Op.Effect] at he
    · rintro now rfl
      cases op with
      | reclaim now' limit =>
        obtain ⟨l, -, he⟩ := he
        cases he
        exact hr now limit rfl
      | _ => simp [Op.Effect] at he
  · intro l hl
    have hlt : b + 1 ≤ s.deliveries.length := (List.getElem?_eq_some_iff.1 hh.delivery).1
    rw [Sys.step_delivers hst, List.drop_append_of_le_length hlt] at hl
    rcases List.mem_append.1 hl with hl | hl
    · exact hh.last l hl
    · rintro rfl
      exact hh.leased.not_queued _ (delivers_queued hl)

theorem steps {tr : List Op} (hsteps : ((system E).restrict CurrentAck).Steps s tr s')
    (hz : .ackZrem b ∉ tr) (hd : .ackHdel b ∉ tr)
    (hr : ∀ now limit, .reclaim now limit ∈ tr → f64 now < x) (hh : Holder E b u h x p s) :
    Holder E b u h x p s' := by
  refine hsteps.preserves (P := Holder E b u h x p)
    (Q := fun op => op ≠ .ackZrem b ∧ op ≠ .ackHdel b ∧
      ∀ now limit, op = .reclaim now limit → f64 now < x) ?_ ?_ hh
  · intro a op a' ha hok hst
    exact ha.step hst.2 hst.1 hok.1 hok.2.1 hok.2.2
  · intro op hop
    exact ⟨fun he => hz (he ▸ hop), fun he => hd (he ▸ hop), fun now limit he => hr now limit (he ▸ hop)⟩

end Holder

/-- A delivered claim makes its delivery the holder. -/
theorem holder_claim {E : Env β} {s₀ s₁ : Sys β} {now leaseMs : Int} {u : UrlId} {e : UrlEntry}
    {h : Host} (hs : (system E).Reachable s₀) (hst : s₀.step E (.claim now leaseMs) = some s₁)
    (hcl : parseClaimValue E.wire (s₀.shard.claim now leaseMs).2 = .ok (.claimed u e h)) :
    Holder E s₀.deliveries.length u h (Shard.expiryOf now leaseMs) (s₁.shard.urls u) s₁ ∧
      (s₁.shard.urls u).isSome := by
  have hcons := conserved_reachable (.step hs hst)
  simp only [Sys.step, Option.some.injEq] at hst
  have hdel : E.delivered (s₀.shard.claim now leaseMs).2 = [⟨u, h⟩] := by simp [Env.delivered, hcl]
  subst hst
  obtain ⟨bs, hreply, -⟩ := parse_claimed_inv hcl
  obtain ⟨_, rest, q, -, -, hbs, htake⟩ := Shard.claim_claimed hreply
  rw [hdel, htake] at hcons ⊢
  refine ⟨⟨⟨⟨_, hcons.mono fun _ _ => trivial⟩, ?_, rfl⟩, by simp, by simp⟩, ?_⟩
  · simp [Shard.take, ZSet.score?_zadd]
  · simp [Shard.take, ← hbs]

/-- A reclaim puts every lease it selects back. -/
theorem Shard.mem_reclaim_fold (now : Int) (u : UrlId) (h : Host) (ls : List Lease) :
    ∀ s : Shard β, u ∈ s.hostQueue h ∨ ⟨u, h⟩ ∈ ls → u ∈ (ls.foldl (reclaimOne now) s).hostQueue h := by
  induction ls with
  | nil =>
    intro s hm
    simpa using hm
  | cons l ls ih =>
    intro s hm
    rw [List.foldl_cons, reclaimOne_eq]
    apply ih
    by_cases hl : (⟨u, h⟩ : Lease) = l
    · subst hl
      simp [requeue]
    · rcases hm with hm | hm
      · left
        by_cases hx : h = l.host
        · subst hx; simp [requeue, hm]
        · simpa [requeue, Function.update_of_ne hx] using hm
      · exact .inr ((List.mem_cons.1 hm).resolve_left hl)

theorem Shard.mem_reclaim {s : Shard β} {u : UrlId} {h : Host} {x : Int} {now : Int} {limit : Nat}
    (hl : s.inflight.score? ⟨u, h⟩ = some x) (h0 : 0 ≤ x) (h1 : x ≤ f64 now)
    (hlim : s.inflight.zcard ≤ limit) : u ∈ (s.reclaim now limit).1.hostQueue h :=
  Shard.mem_reclaim_fold now u h _ s (.inr (ZSet.mem_zrangebyscore hlim hl h0 h1))

/-- **Lease ownership, without acks of superseded deliveries.** -/
theorem lease_owned (E : Env β) : LeaseOwned E ((system E).restrict CurrentAck) := by
  intro s₀ s₁ s₂ tr now leaseMs u e h hs hst hcl hrun hz hd hr
  obtain ⟨hh, hsome⟩ := holder_claim hs.of_restrict hst.2 hcl
  have hh' := Holder.steps hrun hz hd hr hh
  refine ⟨hh'.leased.lease, hh'.leased.payload, hsome, fun now' limit h0 h1 hlim => ?_⟩
  exact Shard.mem_reclaim hh'.leased.lease h0 h1 hlim

/-- The second delivery of a URL keeps its lease while nobody acks. -/
theorem lease_owned_second :
    (Sys.after .sample [] [.submit .a 0, .promote 0 10, .claim 0 10, .reclaim 10 10, .promote 10 10,
      .claim 10 10, .reclaim 15 10]).shard.inflight.score? ⟨Wire.idA, "a.test"⟩ = some 20 :=
  (lease_owned .sample (.after .sample [] [.submit .a 0, .promote 0 10, .claim 0 10, .reclaim 10 10,
    .promote 10 10]) _ _ [.reclaim 15 10] 10 10 Wire.idA .seedA "a.test"
    (reachable_after_restrict (by decide +kernel)) ⟨trivial, rfl⟩ (by decide +kernel)
    (LTS.Steps.of_guarded (LTS.steps_replay (by decide +kernel))) (by decide) (by decide)
    (by
      intro now' limit hm
      simp only [List.mem_singleton, Op.reclaim.injEq] at hm
      obtain ⟨rfl, rfl⟩ := hm
      decide)).1

end Crawlrs

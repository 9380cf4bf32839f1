import Crawlrs.L3Frontier.System
import Mathlib.Algebra.BigOperators.Finprod

/-!
# Conservation of accepted URLs

`Shard.held u h` counts the places that hold `u` under `h`: occurrences in the
host queue plus its lease. No effect but `accept` adds to it and none but the
`ZREM` of an ack takes away, so it is bounded by the number of times the filter
accepted `u`, which is at most one (`Conserved`).

* `conserved_reachable`: `Conserved` holds in every reachable state.
* `accepted_held_once`: an accepted URL is held at most once, under its own
  host, and exactly once until an ack of it has executed its `ZREM`.
-/
namespace Crawlrs

variable {β : Type}

/-! ## Holding a URL -/

/-- Occurrences of `u` under `h`: queued, or leased. -/
def Shard.held (s : Shard β) (u : UrlId) (h : Host) : Nat :=
  (s.hostQueue h).count u + if (s.inflight.score? ⟨u, h⟩).isSome then 1 else 0

namespace Shard

variable (s : Shard β)

theorem held_accept (B : Sketch UrlId β) (u : UrlId) (h : Host) (payload : Bytes) (now : Int)
    (counted : Bool) (v : UrlId) (x : Host) :
    (s.accept B u h payload now counted).held v x =
      s.held v x + if (u, h) = (v, x) then 1 else 0 := by
  unfold held accept
  by_cases hx : x = h
  · subst hx
    simp [List.count_append, List.count_singleton]
    omega
  · have : ¬ (u = v ∧ h = x) := fun e => hx e.2.symm
    simp [Function.update_of_ne hx, this]

/-- A lease moves the head of the queue, if it was not leased already. -/
theorem held_take {u : UrlId} {h : Host} {q : List UrlId} (rest : List Host) (expiry : Int)
    (hq : s.hostQueue h = u :: q) (hi : s.inflight.score? ⟨u, h⟩ = none) (v : UrlId) (x : Host) :
    (s.take u h rest q expiry).held v x = s.held v x := by
  unfold held take
  simp only [ZSet.score?_zadd, Lease.mk.injEq]
  by_cases hx : x = h
  · subst hx
    by_cases hv : v = u
    · subst hv; simp [hq, hi]
    · have hv' : ¬ u = v := fun e => hv e.symm
      simp [hq, hv, hv']
  · simp [hx]

theorem held_requeue {l : Lease} {t : Int} (now : Int) (hi : s.inflight.score? l = some t)
    (v : UrlId) (x : Host) : (s.requeue l now).held v x = s.held v x := by
  obtain ⟨u, h⟩ := l
  unfold held requeue
  simp only [ZSet.score?_zrem, Lease.mk.injEq]
  by_cases hx : x = h
  · subst hx
    by_cases hv : v = u
    · subst hv; simp [hi, List.count_append]
    · have hv' : ¬ u = v := fun e => hv e.symm
      simp [hv, hv', List.count_append]
  · simp [hx]

theorem held_ackZrem (l : Lease) (v : UrlId) (x : Host) :
    (s.ackZrem l).held v x ≤ s.held v x ∧
      (l.urlId ≠ v → (s.ackZrem l).held v x = s.held v x) := by
  unfold held ackZrem
  simp only [ZSet.score?_zrem]
  refine ⟨?_, fun hne => ?_⟩
  · split
    · simp
    · exact Nat.le_refl _
  · have : (⟨v, x⟩ : Lease) ≠ l := fun e => hne (by rw [← e])
    simp [this]

end Shard

/-! ## The counting invariant -/

/-- `acc`: the accepted `(url_id, host)`s; `acked`: ids some ack has `ZREM`ed. -/
structure Conserved (B : Sketch UrlId β) (acc : List (UrlId × Host)) (acked : UrlId → Prop)
    (s : Shard β) : Prop where
  ids : (acc.map Prod.fst).Nodup
  seen : ∀ p ∈ acc, B.has s.seen p.1 = true
  le : ∀ u h, s.held u h ≤ acc.count (u, h)
  eq : ∀ u h, ¬ acked u → s.held u h = acc.count (u, h)

namespace Conserved

variable {B : Sketch UrlId β} {acc : List (UrlId × Host)} {acked acked' : UrlId → Prop}
  {s s' : Shard β}

theorem mono (hc : Conserved B acc acked s) (h : ∀ u, acked u → acked' u) :
    Conserved B acc acked' s :=
  ⟨hc.ids, hc.seen, hc.le, fun u h' hu => hc.eq u h' fun ha => hu (h u ha)⟩

theorem count_le_one (hc : Conserved B acc acked s) (p : UrlId × Host) : acc.count p ≤ 1 :=
  List.nodup_iff_count_le_one.1 (List.Nodup.of_map _ hc.ids) p

theorem held_le_one (hc : Conserved B acc acked s) (u : UrlId) (h : Host) : s.held u h ≤ 1 :=
  Nat.le_trans (hc.le u h) (hc.count_le_one _)

/-- What is held was accepted, under that host. -/
theorem mem_of_held (hc : Conserved B acc acked s) {u : UrlId} {h : Host} (hh : 0 < s.held u h) :
    (u, h) ∈ acc :=
  List.count_pos_iff.1 (Nat.lt_of_lt_of_le hh (hc.le u h))

/-- One host per accepted id. -/
theorem host_unique (hc : Conserved B acc acked s) {u : UrlId} {h h' : Host} (hm : (u, h) ∈ acc)
    (hm' : (u, h') ∈ acc) : h = h' := by
  have := List.inj_on_of_nodup_map hc.ids hm hm' rfl
  exact (Prod.mk.injEq .. ▸ this).2

theorem held_pos_of_queued {u : UrlId} {h : Host} (hq : u ∈ s.hostQueue h) : 0 < s.held u h := by
  have := List.count_pos_iff.2 hq
  unfold Shard.held
  omega

theorem held_pos_of_leased {u : UrlId} {h : Host} {t : Int} (hi : s.inflight.score? ⟨u, h⟩ = some t) :
    0 < s.held u h := by
  simp [Shard.held, hi]

/-- A queued URL is not leased at the same time. -/
theorem not_leased_of_queued (hc : Conserved B acc acked s) {u : UrlId} {h : Host}
    (hq : u ∈ s.hostQueue h) : s.inflight.score? ⟨u, h⟩ = none := by
  have h1 := List.count_pos_iff.2 hq
  have h2 := hc.held_le_one u h
  unfold Shard.held at h2
  cases hi : s.inflight.score? ⟨u, h⟩ with
  | none => rfl
  | some t => simp [hi] at h2; omega

/-- A change that keeps every count and the filter keeps the invariant. -/
theorem of_held (hc : Conserved B acc acked s) (hseen : s'.seen = s.seen)
    (hh : ∀ u h, s'.held u h = s.held u h) : Conserved B acc acked s' :=
  ⟨hc.ids, hseen ▸ hc.seen, fun u h => by rw [hh]; exact hc.le u h,
    fun u h hu => by rw [hh]; exact hc.eq u h hu⟩

theorem accept (hc : Conserved B acc acked s) {u : UrlId} (hu : B.has s.seen u = false) (h : Host)
    (payload : Bytes) (now : Int) (counted : Bool) :
    Conserved B (acc ++ [(u, h)]) acked (s.accept B u h payload now counted) := by
  have hnew : u ∉ acc.map Prod.fst := by
    intro hm
    obtain ⟨p, hp, rfl⟩ := List.mem_map.1 hm
    have := hc.seen p hp
    simp [hu] at this
  have hcount : ∀ v x, (acc ++ [(u, h)]).count (v, x) =
      acc.count (v, x) + if (u, h) = (v, x) then 1 else 0 := by
    intro v x
    simp [List.count_append, List.count_singleton]
  refine ⟨?_, ?_, ?_, ?_⟩
  · rw [List.map_append, List.nodup_append]
    refine ⟨hc.ids, by simp, ?_⟩
    rintro a ha b hb rfl
    simp only [List.map_cons, List.map_nil, List.mem_singleton] at hb
    exact hnew (hb ▸ ha)
  · intro p hp
    rcases List.mem_append.1 hp with hp | hp
    · exact B.has_insert _ _ _ (hc.seen p hp)
    · rw [List.mem_singleton.1 hp]
      exact B.has_insert_self _ _
  · intro v x
    rw [Shard.held_accept, hcount]
    have := hc.le v x
    omega
  · intro v x hv
    rw [Shard.held_accept, hcount, hc.eq v x hv]

theorem zrem (hc : Conserved B acc acked s) (l : Lease) (hl : acked l.urlId) :
    Conserved B acc acked (s.ackZrem l) := by
  refine ⟨hc.ids, hc.seen, fun u h => ?_, fun u h hu => ?_⟩
  · exact Nat.le_trans (s.held_ackZrem l u h).1 (hc.le u h)
  · rw [(s.held_ackZrem l u h).2 (fun e => hu (e ▸ hl))]
    exact hc.eq u h hu

/-- One effect. A `ZREM` is only executed by an ack. -/
theorem eff (hc : Conserved B acc acked s) {e : Eff} (hst : Eff.Step B s e s')
    (hz : ∀ l, e = .zrem l → acked l.urlId) :
    Conserved B (acc ++ e.accepted?.toList) acked s' := by
  have silent : e.accepted? = none → Conserved B acc acked s' →
      Conserved B (acc ++ e.accepted?.toList) acked s' := fun he h => by simpa [he] using h
  cases hst with
  | accept hu => exact hc.accept hu _ _ _ _
  | stale => exact silent rfl (hc.of_held rfl fun _ _ => rfl)
  | lease hr hq =>
    have hi := hc.not_leased_of_queued (hq ▸ List.mem_cons_self)
    exact silent rfl (hc.of_held rfl (s.held_take _ _ hq hi))
  | promote => exact silent rfl (hc.of_held rfl fun _ _ => rfl)
  | reclaim hi => exact silent rfl (hc.of_held rfl (s.held_requeue _ hi))
  | advance => exact silent rfl (hc.of_held rfl fun _ _ => rfl)
  | zrem => exact silent rfl (hc.zrem _ (hz _ rfl))
  | hdel => exact silent rfl (hc.of_held rfl fun _ _ => rfl)

/-- A run of effects. -/
theorem effs {es : List Eff} (h : (effects B).Steps s es s') (hz : ∀ l, .zrem l ∈ es → acked l.urlId)
    (hc : Conserved B acc acked s) : Conserved B (acc ++ es.filterMap Eff.accepted?) acked s' := by
  induction h generalizing acc with
  | nil s => simpa using hc
  | @cons s s1 s2 e es hst _ ih =>
    have h1 := hc.eff hst fun l he => hz l (he ▸ List.mem_cons_self)
    have h2 := ih (fun l hl => hz l (List.mem_cons_of_mem _ hl)) h1
    have happ : acc ++ e.accepted?.toList ++ es.filterMap Eff.accepted? =
        acc ++ (e :: es).filterMap Eff.accepted? := by
      cases he : e.accepted? <;> simp [he]
    exact happ ▸ h2

end Conserved

/-! ## Every run -/

theorem zremed_of_effect {E : Env β} {s s' : Sys β} {op : Op} (hst : s.step E op = some s')
    {l : Lease} (h : op.Effect E s (.zrem l)) : s'.Zremed l.urlId := by
  cases op with
  | ackZrem d =>
    obtain ⟨m, hm, he⟩ := h
    cases he
    have hg := Sys.step_grows hst
    exact ⟨d, (hg.zremed d).2 (.inr rfl), l, hg.delivery hm, rfl⟩
  | _ => simp [Op.Effect] at h

theorem conserved_inductive (E : Env β) :
    (system E).Inductive fun s => Conserved E.bloom s.accepted s.Zremed s.shard where
  init := by
    rintro s ⟨seen, rfl⟩
    exact ⟨by simp [Sys.init], by simp [Sys.init], fun u h => by simp [Sys.init, Shard.held, Shard.fresh],
      fun u h _ => by simp [Sys.init, Shard.held, Shard.fresh]⟩
  step := by
    intro s op s' hc hst
    obtain ⟨es, hsteps, hall, hacc⟩ := Sys.step_effs hst
    have hg := Sys.step_grows hst
    rw [hacc]
    exact (hc.mono fun u hu => hg.zremed_mono hu).effs hsteps
      fun l hl => zremed_of_effect hst (hall _ hl)

theorem conserved_reachable {E : Env β} {s : Sys β} (hs : (system E).Reachable s) :
    Conserved E.bloom s.accepted s.Zremed s.shard := (conserved_inductive E).reachable s hs

/-- The occurrences of `u` over all host queues and leases. -/
noncomputable def Shard.total (s : Shard β) (u : UrlId) : Nat := ∑ᶠ h, s.held u h

theorem Conserved.total_eq {B : Sketch UrlId β} {acc : List (UrlId × Host)} {acked : UrlId → Prop}
    {s : Shard β} (hc : Conserved B acc acked s) {u : UrlId} {h : Host} (hm : (u, h) ∈ acc) :
    s.total u = s.held u h := by
  refine finsum_eq_single _ h fun x hx => ?_
  by_contra hne
  exact hx (hc.host_unique (hc.mem_of_held (Nat.pos_of_ne_zero hne)) hm)

/-- **Conservation.** In every reachable state an accepted URL occurs at most
once over all queues and leases, only under its own host, and exactly once
until an ack of it has executed its `ZREM`. -/
theorem accepted_held_once (E : Env β) (s : Sys β) (hs : (system E).Reachable s) (u : UrlId)
    (h : Host) (ha : (u, h) ∈ s.accepted) :
    s.shard.total u ≤ 1 ∧ (∀ h', 0 < s.shard.held u h' → h' = h) ∧
      (¬ s.Zremed u → s.shard.total u = 1) := by
  have hc := conserved_reachable hs
  rw [hc.total_eq ha]
  refine ⟨hc.held_le_one u h, fun h' hh => hc.host_unique (hc.mem_of_held hh) ha, fun hz => ?_⟩
  rw [hc.eq u h hz]
  have h1 := List.count_pos_iff.2 ha
  have h2 := hc.count_le_one (u, h)
  omega

/-- A claimed URL whose lease was reclaimed is back in its queue, once. -/
theorem accepted_held_once_reclaimed :
    (Sys.after .sample [] [.submit .a 0, .promote 0 10, .claim 0 5, .reclaim 5 10]).shard.total
      Wire.idA = 1 :=
  (accepted_held_once .sample _ (reachable_after (by decide +kernel)) Wire.idA "a.test" (by decide)).2.2
    (by rintro ⟨d, hd, -⟩; exact absurd hd (by decide +revert))

end Crawlrs

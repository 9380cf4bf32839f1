import Crawlrs.L3Frontier.Records

/-!
# Payloads and late acks

`ack` removes the payload of a URL whether or not the URL is still leased. Once
the lease was reclaimed the id is back in its queue, and the `HDEL` of the late
ack leaves an id without payload behind: `claim.lua` hands it out with a nil
payload and the client fails to decode it.

* `not_payloadInvariant`: that run.
* `payload_invariant`: every queued or leased id has its payload, and the reply
  of every claim parses, in all runs in which no ack executes its `ZREM` while
  its URL is queued.
-/
namespace Crawlrs

variable {β : Type}

/-- Queued and leased ids have a payload, and the reply of every claim parses. -/
structure PayloadSafe (E : Env β) (s : Sys β) : Prop where
  payload : ∀ u h, u ∈ s.shard.hostQueue h ∨ (s.shard.inflight.score? ⟨u, h⟩).isSome →
    (s.shard.urls u).isSome
  claimed : ∀ now leaseMs u h, (s.shard.claim now leaseMs).2 ≠ .claimed u h none
  parses : ∀ now leaseMs, ∃ raw, parseClaimValue E.wire (s.shard.claim now leaseMs).2 = .ok raw

/-- The ack of a reclaimed delivery strips a queued id of its payload. -/
theorem not_payloadInvariant : ¬ ∀ s, (system Env.sample).Reachable s → PayloadSafe Env.sample s := by
  intro hall
  have hs := hall (.after .sample [] [.submit .a 0, .promote 0 10, .claim 0 5, .reclaim 5 10,
    .ackZrem 0, .ackHdel 0]) (reachable_after (by decide +kernel))
  exact absurd (hs.payload Wire.idA "a.test" (by decide +kernel)) (by decide +kernel)

/-! ## Runs without late acks -/

/-- A time whose score the server prints as a plain unsigned integer. -/
def PlainMs (t : Int) : Prop := 0 ≤ t ∧ t < 2 ^ 52

instance (t : Int) : Decidable (PlainMs t) := inferInstanceAs (Decidable (0 ≤ t ∧ t < 2 ^ 52))

/-- No `ZREM` of an ack while its URL is queued, and plain times. -/
def TimelyAck (s : Sys β) : Op → Prop
  | .ackZrem d => ∀ l ∈ s.deliveries[d]?, l.urlId ∉ s.shard.hostQueue l.host
  | .submit _ now | .submitBatch _ now | .reclaim now _ => PlainMs now
  | .claim now leaseMs => 0 ≤ now ∧ 0 ≤ leaseMs ∧ PlainMs (now + leaseMs)
  | .advanceWake _ untilMs => PlainMs untilMs
  | .promote .. | .ackHdel _ => True

instance (s : Sys β) : (op : Op) → Decidable (TimelyAck s op)
  | .ackZrem d => inferInstanceAs (Decidable (∀ l ∈ s.deliveries[d]?, l.urlId ∉ _))
  | .submit _ now | .submitBatch _ now | .reclaim now _ => inferInstanceAs (Decidable (PlainMs now))
  | .claim now leaseMs =>
    inferInstanceAs (Decidable (0 ≤ now ∧ 0 ≤ leaseMs ∧ PlainMs (now + leaseMs)))
  | .advanceWake _ untilMs => inferInstanceAs (Decidable (PlainMs untilMs))
  | .promote .. | .ackHdel _ => inferInstanceAs (Decidable True)

theorem PlainMs.f64 {t : Int} (h : PlainMs t) : PlainMs (f64 t) := by
  rw [f64_exact (by unfold PlainMs at h; omega)]
  exact h

theorem PlainMs.expiryOf {now leaseMs : Int} (h0 : 0 ≤ now) (h1 : 0 ≤ leaseMs)
    (h : PlainMs (now + leaseMs)) : PlainMs (Shard.expiryOf now leaseMs) := by
  unfold Shard.expiryOf
  unfold PlainMs at h
  rw [f64_exact (z := now) (by omega), f64_exact (z := leaseMs) (by omega)]
  exact PlainMs.f64 h

/-- `Z`: ids some ack has `ZREM`ed. They are held nowhere; everything held has its
payload. -/
structure Kept (E : Env β) (Z : UrlId → Prop) (s : Shard β) : Prop where
  seen : ∀ u, Z u → E.bloom.has s.seen u = true
  gone : ∀ u, Z u → ∀ h, s.held u h = 0
  stored : ∀ u h, 0 < s.held u h → ∃ e, s.urls u = some (E.wire.encode e)
  plain : s.wake.Scores PlainMs

/-- Effects of a run without late acks. -/
def TimelyEff (E : Env β) (Z : UrlId → Prop) : Eff → Prop
  | .accept _ _ payload now _ => (∃ e, payload = E.wire.encode e) ∧ PlainMs now
  | .lease _ _ expiry => PlainMs expiry
  | .reclaim _ now => PlainMs now
  | .advance _ untilMs => PlainMs untilMs
  | .hdel u => Z u
  | _ => True

theorem Eff.Step.held_le {B : Sketch UrlId β} {s s' : Shard β} {e : Eff} (hst : Eff.Step B s e s')
    (ha : e.accepted? = none) (u : UrlId) (h : Host) : s'.held u h ≤ s.held u h := by
  cases hst with
  | accept => cases ha
  | @lease v x rest q expiry hr hq =>
    unfold Shard.held Shard.take
    simp only [ZSet.score?_zadd, Lease.mk.injEq]
    by_cases hx : h = x
    · subst hx
      by_cases hv : u = v
      · subst hv; simp [hq]
      · simp [hq, hv, List.count_cons_of_ne (Ne.symm hv)]
    · simp [hx]
  | reclaim hi => exact Nat.le_of_eq (Shard.held_requeue _ _ hi u h)
  | zrem => exact (Shard.held_ackZrem _ _ u h).1
  | _ => exact Nat.le_refl _

namespace Kept

variable {E : Env β} {Z : UrlId → Prop} {s s' : Shard β}

/-- Nothing is newly held and no payload of a held id goes. -/
theorem shrink (hk : Kept E Z s) (hseen : s'.seen = s.seen)
    (hheld : ∀ u h, s'.held u h ≤ s.held u h)
    (hurls : ∀ u, s'.urls u = s.urls u ∨ Z u)
    (hplain : s'.wake.Scores PlainMs) : Kept E Z s' := by
  refine ⟨hseen ▸ hk.seen, fun u hu h => ?_, fun u h hh => ?_, hplain⟩
  · exact Nat.le_zero.1 (hk.gone u hu h ▸ hheld u h)
  · have hpos := Nat.lt_of_lt_of_le hh (hheld u h)
    rcases hurls u with he | hz
    · rw [he]
      exact hk.stored u h hpos
    · rw [hk.gone u hz h] at hpos
      exact absurd hpos (Nat.lt_irrefl 0)

theorem accept (hk : Kept E Z s) {u : UrlId} (hu : E.bloom.has s.seen u = false) (h : Host)
    (e : UrlEntry) {now : Int} (hnow : PlainMs now) (counted : Bool) :
    Kept E Z (s.accept E.bloom u h (E.wire.encode e) now counted) := by
  have hne : ∀ v, Z v → v ≠ u := by
    rintro v hv rfl
    rw [hk.seen v hv] at hu
    cases hu
  refine ⟨fun v hv => E.bloom.has_insert _ _ _ (hk.seen v hv), fun v hv x => ?_, fun v x hh => ?_,
    hk.plain.zaddNX _ hnow.f64⟩
  · rw [Shard.held_accept, hk.gone v hv x, if_neg]
    rintro ⟨rfl, rfl⟩
    exact hne u hv rfl
  · by_cases hv : v = u
    · exact ⟨e, by simp [Shard.accept, hv]⟩
    · rw [Shard.held_accept, if_neg (by rintro ⟨rfl, rfl⟩; exact hv rfl), Nat.add_zero] at hh
      simpa [Shard.accept, Function.update_of_ne hv] using hk.stored v x hh

theorem eff (hk : Kept E Z s) {e : Eff} (hst : Eff.Step E.bloom s e s') (hok : TimelyEff E Z e) :
    Kept E Z s' := by
  have hsame : ∀ u : UrlId, s.urls u = s.urls u ∨ Z u := fun _ => .inl rfl
  cases hst with
  | @accept u h payload now counted hu =>
    obtain ⟨⟨e, rfl⟩, hnow⟩ := hok
    exact hk.accept hu h e hnow counted
  | stale => exact hk.shrink rfl (fun _ _ => Nat.le_refl _) hsame hk.plain
  | lease hr hq =>
    exact hk.shrink rfl ((Eff.Step.lease (B := E.bloom) hr hq).held_le rfl) hsame
      (hk.plain.zadd _ hok)
  | promote => exact hk.shrink rfl (fun _ _ => Nat.le_refl _) hsame (hk.plain.zrem _)
  | reclaim hi h0 h1 =>
    exact hk.shrink rfl ((Eff.Step.reclaim (B := E.bloom) hi h0 h1).held_le rfl) hsame
      (hk.plain.zaddNX _ (PlainMs.f64 hok))
  | advance =>
    exact hk.shrink rfl (fun _ _ => Nat.le_refl _) hsame (hk.plain.zadd _ (PlainMs.f64 hok))
  | zrem => exact hk.shrink rfl (fun u h => (s.held_ackZrem _ u h).1) hsame hk.plain
  | @hdel v =>
    refine hk.shrink rfl (fun _ _ => Nat.le_refl _) (fun u => ?_) hk.plain
    by_cases hu : u = v
    · exact .inr (hu ▸ hok)
    · exact .inl (Function.update_of_ne hu _ _)

/-- The `ZREM` of an ack of an id that is not queued leaves it nowhere. -/
theorem mark (hk : Kept E Z s) {l : Lease} (hseen : E.bloom.has s.seen l.urlId = true)
    (hother : ∀ h, h ≠ l.host → s.held l.urlId h = 0) (hq : l.urlId ∉ s.hostQueue l.host) :
    Kept E (fun u => Z u ∨ u = l.urlId) (s.ackZrem l) := by
  have hle : ∀ u h, (s.ackZrem l).held u h ≤ s.held u h := fun u h => (s.held_ackZrem l u h).1
  refine ⟨?_, ?_, fun u h hh => hk.stored u h (Nat.lt_of_lt_of_le hh (hle u h)), hk.plain⟩
  · rintro u (hu | rfl)
    · exact hk.seen u hu
    · exact hseen
  · rintro u (hu | rfl) h
    · exact Nat.le_zero.1 (hk.gone u hu h ▸ hle u h)
    · by_cases hh : h = l.host
      · subst hh
        have hc : (s.hostQueue l.host).count l.urlId = 0 := List.count_eq_zero.2 hq
        simp [Shard.held, Shard.ackZrem, ZSet.score?_zrem, hc]
      · exact Nat.le_zero.1 (hother h hh ▸ hle l.urlId h)

theorem mono {Z' : UrlId → Prop} (hk : Kept E Z s) (h : ∀ u, Z' u → Z u) : Kept E Z' s :=
  ⟨fun u hu => hk.seen u (h u hu), fun u hu => hk.gone u (h u hu), hk.stored, hk.plain⟩

end Kept

theorem timelyEff_of_effect {E : Env β} {s : Sys β} {op : Op} {e : Eff} (hok : TimelyAck s op)
    (he : op.Effect E s e) : TimelyEff E s.Zremed e := by
  cases op with
  | submit it now => cases he; exact ⟨⟨it.entry, rfl⟩, hok⟩
  | submitBatch its now =>
    obtain ⟨p, -, rfl⟩ := he
    exact ⟨⟨p.1.entry, rfl⟩, hok⟩
  | claim now leaseMs =>
    rcases he with ⟨h, rfl⟩ | ⟨u, h, p, -, rfl⟩
    · trivial
    · exact PlainMs.expiryOf hok.1 hok.2.1 hok.2.2
  | promote now limit =>
    obtain ⟨h, -, rfl⟩ := he
    trivial
  | reclaim now limit =>
    obtain ⟨l, -, rfl⟩ := he
    exact hok
  | advanceWake h t => cases he; exact hok
  | ackZrem d =>
    obtain ⟨l, -, rfl⟩ := he
    trivial
  | ackHdel d =>
    obtain ⟨l, hl, hd, rfl⟩ := he
    exact ⟨d, hd, l, hl, rfl⟩

theorem kept_step {E : Env β} {s s' : Sys β} {op : Op} (hr : Recorded E s)
    (hk : Kept E s.Zremed s.shard) (hok : TimelyAck s op) (hst : s.step E op = some s') :
    Kept E s'.Zremed s'.shard := by
  by_cases hz : ∃ d, op = .ackZrem d
  · obtain ⟨d, rfl⟩ := hz
    obtain ⟨l, hl, hs'⟩ := Sys.ackZrem_inv hst
    have hacc := hr.delivered l (List.mem_of_getElem? hl)
    have hother : ∀ h, h ≠ l.host → s.shard.held l.urlId h = 0 := by
      intro h hh
      by_contra hne
      exact hh (hr.conserved.host_unique (hr.conserved.mem_of_held (Nat.pos_of_ne_zero hne)) hacc)
    have hm := hk.mark (hr.seen hl) hother (hok l hl)
    rw [show s'.shard = s.shard.ackZrem l by rw [hs']]
    refine hm.mono fun u hu => ?_
    rcases hr.zremed_cases hst hu with hu | ⟨d', l', he, hl', rfl⟩
    · exact .inl hu
    · cases he
      rw [hl] at hl'
      cases hl'
      exact .inr rfl
  · obtain ⟨es, hsteps, hall, -⟩ := Sys.step_effs hst
    have := hsteps.preserves (P := Kept E s.Zremed) (Q := TimelyEff E s.Zremed)
      (fun _ _ _ h hok h' => h.eff h' hok) (fun e he => timelyEff_of_effect hok (hall e he)) hk
    refine this.mono fun u hu => ?_
    rcases hr.zremed_cases hst hu with hu | ⟨d, l, he, -, -⟩
    · exact hu
    · exact absurd ⟨d, he⟩ hz

theorem kept_inductive (E : Env β) :
    ((system E).restrict TimelyAck).Inductive fun s => Recorded E s ∧ Kept E s.Zremed s.shard :=
  ((recorded_inductive E).restrict TimelyAck).within
    (by
      rintro s ⟨seen, rfl⟩
      refine ⟨?_, ?_, ?_, ?_⟩
      · rintro u ⟨d, hd, -⟩
        exact absurd hd List.not_mem_nil
      · rintro u ⟨d, hd, -⟩
        exact absurd hd List.not_mem_nil
      · intro u h hh
        exact absurd hh (by simp [Sys.init, Shard.fresh, Shard.held])
      · intro h t ht
        exact absurd ht (by simp [Sys.init, Shard.fresh]))
    fun _ _ _ hr hk hst => kept_step hr hk hst.1 hst.2

/-! ## The reply parses -/

theorem ZSet.score?_of_first? {α : Type} [LinearOrder α] {z : ZSet α} {m : α} {t : Int}
    (h : z.first? = some (m, t)) : z.score? m = some t :=
  ZSet.score?_eq_some.2 (List.mem_of_mem_head? h)

theorem PlainMs.reads {t : Int} (ht : PlainMs t) (W : Wire) :
    parseUnsigned 64 (W.scoreText t).toList = some t.toNat := by
  obtain ⟨n, rfl⟩ := Int.eq_ofNat_of_zero_le ht.1
  have hn : n < 2 ^ 52 := by have := ht.2; omega
  exact parseUnsigned_scoreText W hn

theorem parse_hint (W : Wire) {t : Int} (ht : PlainMs t) :
    parseClaimValue W (.emptyHint t) = .ok (.emptyHint t.toNat) := by
  simp [parseClaimValue, ht.reads W]

theorem Kept.payloadSafe {E : Env β} {Z : UrlId → Prop} {s : Sys β} (hk : Kept E Z s.shard) :
    PayloadSafe E s := by
  have hqueued : ∀ {h u q}, s.shard.hostQueue h = u :: q →
      ∃ e, s.shard.urls u = some (E.wire.encode e) := fun hq =>
    hk.stored _ _ (Conserved.held_pos_of_queued (hq ▸ List.mem_cons_self))
  refine ⟨?_, ?_, ?_⟩
  · rintro u h (hq | hi)
    · obtain ⟨e, he⟩ := hk.stored u h (Conserved.held_pos_of_queued hq)
      simp [he]
    · obtain ⟨t, ht⟩ := Option.isSome_iff_exists.1 hi
      obtain ⟨e, he⟩ := hk.stored u h (Conserved.held_pos_of_leased ht)
      simp [he]
  · intro now leaseMs u h hcl
    obtain ⟨_, _, _, _, hq, hnone, -⟩ := Shard.claim_claimed hcl
    obtain ⟨e, he⟩ := hqueued hq
    rw [he] at hnone
    cases hnone
  · intro now leaseMs
    have hc := Shard.claim_cases s.shard now leaseMs
    generalize s.shard.claim now leaseMs = res at hc
    cases hc with
    | @claimed _ _ h u _ _ _ hq =>
      obtain ⟨e, he⟩ := hqueued hq
      exact ⟨_, he ▸ parse_claimed E.wire u h e⟩
    | hint _ hf => exact ⟨_, parse_hint E.wire (hk.plain _ _ (ZSet.score?_of_first? hf))⟩
    | empty => exact ⟨.empty, rfl⟩

/-- **Payload invariant, without late acks.** In every run in which no ack executes
its `ZREM` while its URL is queued, and in which wake-times are plain unsigned
integers, every queued or leased id has its payload and every claim's reply
parses. -/
theorem payload_invariant (E : Env β) (s : Sys β)
    (hs : ((system E).restrict TimelyAck).Reachable s) : PayloadSafe E s :=
  ((kept_inductive E).reachable s hs).2.payloadSafe

/-- The redelivery after a reclaim is acked; its URL is gone, the other one intact. -/
theorem payload_invariant_redelivered :
    PayloadSafe .sample (Sys.after .sample [] [.submit .a 0, .submit .a' 0, .promote 0 10, .claim 0 5,
      .reclaim 5 10, .promote 5 10, .claim 5 5, .ackZrem 1, .ackHdel 1]) :=
  payload_invariant .sample _ (reachable_after_restrict (by decide +kernel))

end Crawlrs

import Crawlrs.L3Frontier.Payload

/-!
# First in, first out, host by host

A URL enters the queue of its host at the end, when it is accepted or when its
lease is reclaimed, and leaves it at the front, when it is claimed. `conserve` says
so of one effect; over a run, what has entered is what has been claimed followed by
what is still there.

Without reclaims an id enters once and its payload stays until it is claimed, so
what has been claimed is what the workers got.
-/
namespace Crawlrs

variable {β : Type}

/-! ## One effect -/

/-- The id an effect puts at the end of the queue of `h`. -/
def Eff.entered (h : Host) : Eff → List UrlId
  | .accept u x _ _ _ => if x = h then [u] else []
  | .reclaim l _ => if l.host = h then [l.urlId] else []
  | _ => []

/-- The id an effect takes from its front. -/
def Eff.claimed (h : Host) : Eff → List UrlId
  | .lease u x _ => if x = h then [u] else []
  | _ => []

theorem Eff.Step.conserve {B : Sketch UrlId β} {s s' : Shard β} {e : Eff} (hst : Eff.Step B s e s')
    (h : Host) : s.hostQueue h ++ e.entered h = e.claimed h ++ s'.hostQueue h := by
  cases hst with
  | @accept u x payload now counted _ =>
    by_cases hx : x = h
    · subst hx
      simp [Eff.entered, Eff.claimed, Shard.accept]
    · have hne : h ≠ x := fun he => hx he.symm
      simp [Eff.entered, Eff.claimed, Shard.accept, hx, hne]
  | stale => simp [Eff.entered, Eff.claimed]
  | @lease u x rest q expiry _ hq =>
    by_cases hx : x = h
    · subst hx
      simp [Eff.entered, Eff.claimed, Shard.take, hq]
    · have hne : h ≠ x := fun he => hx he.symm
      simp [Eff.entered, Eff.claimed, Shard.take, hx, hne]
  | promote => simp [Eff.entered, Eff.claimed, Shard.promoteOne]
  | @reclaim l now t _ _ _ =>
    by_cases hx : l.host = h
    · subst hx
      simp [Eff.entered, Eff.claimed, Shard.requeue]
    · have hne : h ≠ l.host := fun he => hx he.symm
      simp [Eff.entered, Eff.claimed, Shard.requeue, hx, hne]
  | advance => simp [Eff.entered, Eff.claimed, Shard.advanceWake]
  | zrem => simp [Eff.entered, Eff.claimed, Shard.ackZrem]
  | hdel => simp [Eff.entered, Eff.claimed, Shard.ackHdel]

theorem Eff.conserve_steps {B : Sketch UrlId β} {s s' : Shard β} {effs : List Eff}
    (h : (effects B).Steps s effs s') (x : Host) :
    s.hostQueue x ++ effs.flatMap (Eff.entered x) =
      effs.flatMap (Eff.claimed x) ++ s'.hostQueue x := by
  induction h with
  | nil s => simp
  | @cons s s' s'' e effs hst _ ih =>
    have hone := Eff.Step.conserve hst x
    calc s.hostQueue x ++ (e :: effs).flatMap (Eff.entered x)
        = (s.hostQueue x ++ e.entered x) ++ effs.flatMap (Eff.entered x) := by
          rw [List.flatMap_cons, List.append_assoc]
      _ = e.claimed x ++ (s'.hostQueue x ++ effs.flatMap (Eff.entered x)) := by
          rw [hone, List.append_assoc]
      _ = (e :: effs).flatMap (Eff.claimed x) ++ s''.hostQueue x := by
          rw [ih, List.flatMap_cons, List.append_assoc]

/-! ## Histories -/

/-- The ids of one host, in order. -/
def idsOf (h : Host) (ps : List (UrlId × Host)) : List UrlId :=
  (ps.filter fun p => p.2 = h).map Prod.fst

namespace Sys

/-- The URLs of `h` in the order they were accepted. -/
def acceptedIds (h : Host) (s : Sys β) : List UrlId := idsOf h s.accepted

/-- The URLs of `h` in the order claims returned them. -/
def returnedIds (h : Host) (s : Sys β) : List UrlId :=
  (s.deliveries.filter fun l => l.host = h).map Lease.urlId

end Sys

/-- What an op puts on the queue of `h`, from `s` to `s'`: the URLs it accepts, or the expired leases
it puts back. -/
def Op.entered (h : Host) (s s' : Sys β) : Op → List UrlId
  | .reclaim now limit => ((s.shard.inflight.zrangebyscore 0 (f64 now) limit).filter
      fun l => l.host = h).map Lease.urlId
  | _ => idsOf h (s'.accepted.drop s.accepted.length)

/-- What an op takes from the queue of `h`. -/
def Op.claimed (h : Host) (s : Sys β) : Op → List UrlId
  | .claim now leaseMs =>
    match (s.shard.claim now leaseMs).2 with
    | .claimed u x _ => if x = h then [u] else []
    | _ => []
  | _ => []

/-- A run with the ids that have entered the queue of a host, and those that were claimed from it. -/
structure Queued (β : Type) where
  sys : Sys β
  entered : List UrlId
  claimed : List UrlId

def histories (E : Env β) (h : Host) : LTS (Queued β) Op where
  init S := ∃ seen, S = ⟨.init seen, [], []⟩
  step S op S' := S.sys.step E op = some S'.sys ∧
    S'.entered = S.entered ++ op.entered h S.sys S'.sys ∧
    S'.claimed = S.claimed ++ op.claimed h S.sys

/-- A reclaim finds no expired lease. -/
def NoneExpired (s : Sys β) : Op → Prop
  | .reclaim now limit => s.shard.inflight.zrangebyscore 0 (f64 now) limit = []
  | _ => True

instance (s : Sys β) : (op : Op) → Decidable (NoneExpired s op)
  | .reclaim now limit =>
    inferInstanceAs (Decidable (s.shard.inflight.zrangebyscore 0 (f64 now) limit = []))
  | .submit .. | .submitBatch .. | .claim .. | .promote .. | .advanceWake .. | .ackZrem _
  | .ackHdel _ => inferInstanceAs (Decidable True)

/-! ## One op -/

section Step

variable {E : Env β} {s s' : Sys β} {op : Op} {h : Host}

/-- Effects that only accept put on the queue what they accept. -/
theorem entered_of_accepting {effs : List Eff}
    (hall : ∀ e ∈ effs, ∃ u x p now counted, e = .accept u x p now counted) :
    effs.flatMap (Eff.entered h) = idsOf h (effs.filterMap Eff.accepted?) ∧
      effs.flatMap (Eff.claimed h) = [] := by
  induction effs with
  | nil => exact ⟨rfl, rfl⟩
  | cons e effs ih =>
    obtain ⟨u, x, p, now, counted, rfl⟩ := hall e List.mem_cons_self
    obtain ⟨h1, h2⟩ := ih fun e he => hall e (List.mem_cons_of_mem _ he)
    rw [List.flatMap_cons, List.flatMap_cons, h1, h2]
    refine ⟨?_, rfl⟩
    by_cases hx : x = h
    · simp [Eff.entered, idsOf, Eff.accepted?, hx]
    · simp [Eff.entered, idsOf, Eff.accepted?, hx]

/-- Effects that only reclaim put the leases back in their order. -/
theorem entered_of_reclaiming (now : Int) (ls : List Lease) :
    (ls.map (Eff.reclaim · now)).flatMap (Eff.entered h) =
        (ls.filter fun l => l.host = h).map Lease.urlId ∧
      (ls.map (Eff.reclaim · now)).flatMap (Eff.claimed h) = [] := by
  induction ls with
  | nil => exact ⟨rfl, rfl⟩
  | cons l ls ih =>
    obtain ⟨h1, h2⟩ := ih
    rw [List.map_cons, List.flatMap_cons, List.flatMap_cons, h1, h2]
    refine ⟨?_, rfl⟩
    by_cases hx : l.host = h
    · simp [Eff.entered, hx]
    · simp [Eff.entered, hx]

/-- Effects that neither accept, lease nor reclaim leave the queues alone. -/
theorem queue_of_still {effs : List Eff} (hst : (effects E.bloom).Steps s.shard effs s'.shard)
    (hall : ∀ e ∈ effs, e.entered h = [] ∧ e.claimed h = []) :
    s'.shard.hostQueue h = s.shard.hostQueue h := by
  have hcons := Eff.conserve_steps hst h
  rw [List.flatMap_eq_nil_iff.2 fun e he => (hall e he).1,
    List.flatMap_eq_nil_iff.2 fun e he => (hall e he).2] at hcons
  simpa using hcons.symm

theorem drop_accepted {effs : List Eff}
    (hacc : s'.accepted = s.accepted ++ effs.filterMap Eff.accepted?) :
    s'.accepted.drop s.accepted.length = effs.filterMap Eff.accepted? := by
  rw [hacc, List.drop_left]

/-- The op's effects, where all of them accept. -/
theorem queue_of_accepting (hst : s.step E op = some s')
    (hall : ∀ e, op.Effect E s e → ∃ u x p now counted, e = .accept u x p now counted) :
    s.shard.hostQueue h ++ idsOf h (s'.accepted.drop s.accepted.length) = s'.shard.hostQueue h := by
  obtain ⟨effs, hsteps, heff, hacc⟩ := Sys.step_effs hst
  obtain ⟨h1, h2⟩ := entered_of_accepting (h := h) fun e he => hall e (heff e he)
  have hcons := Eff.conserve_steps hsteps h
  rw [h1, h2, List.nil_append] at hcons
  rw [drop_accepted hacc, hcons]

/-- Effects that accept nothing add no URL. -/
theorem drop_of_still {effs : List Eff}
    (hacc : s'.accepted = s.accepted ++ effs.filterMap Eff.accepted?)
    (hall : ∀ e ∈ effs, e.accepted? = none) : s'.accepted.drop s.accepted.length = [] := by
  rw [drop_accepted hacc]
  exact List.filterMap_eq_nil_iff.2 hall

/-- The op's effects, where none of them touches a queue. -/
theorem queue_of_quiet (hst : s.step E op = some s')
    (hall : ∀ e, op.Effect E s e → e.entered h = [] ∧ e.claimed h = [] ∧ e.accepted? = none) :
    s.shard.hostQueue h ++ idsOf h (s'.accepted.drop s.accepted.length) = s'.shard.hostQueue h := by
  obtain ⟨effs, hsteps, heff, hacc⟩ := Sys.step_effs hst
  have hq := queue_of_still (h := h) hsteps fun e he =>
    ⟨(hall e (heff e he)).1, (hall e (heff e he)).2.1⟩
  rw [drop_of_still hacc fun e he => (hall e (heff e he)).2.2, hq]
  exact List.append_nil _

theorem claim_conserve (now leaseMs : Int) :
    s.shard.hostQueue h =
      (Op.claim now leaseMs).claimed h s ++ (s.shard.claim now leaseMs).1.hostQueue h := by
  have hc := Shard.claim_cases s.shard now leaseMs
  simp only [Op.claimed]
  generalize s.shard.claim now leaseMs = res at hc ⊢
  cases hc with
  | @claimed pre rest x u q hr hpre hq =>
    by_cases hx : x = h
    · subst hx
      simp [Shard.take, hq]
    · have hne : h ≠ x := fun he => hx he.symm
      simp [Shard.take, hx, hne]
  | hint => rfl
  | empty => rfl

theorem reclaim_conserve (B : Sketch UrlId β) (s : Shard β) (now : Int) (limit : Nat) :
    s.hostQueue h ++ ((s.inflight.zrangebyscore 0 (f64 now) limit).filter
      fun l => l.host = h).map Lease.urlId = (s.reclaim now limit).1.hostQueue h := by
  have hcons := Eff.conserve_steps (Shard.reclaim_steps B s now limit) h
  obtain ⟨h1, h2⟩ := entered_of_reclaiming (h := h) now (s.inflight.zrangebyscore 0 (f64 now) limit)
  rw [h1, h2, List.nil_append] at hcons
  exact hcons

/-- **One op.** What was on the queue and what the op adds is what the op takes and what is left. -/
theorem step_conserve (hst : s.step E op = some s') :
    s.shard.hostQueue h ++ op.entered h s s' = op.claimed h s ++ s'.shard.hostQueue h := by
  cases op with
  | submit it now => exact queue_of_accepting hst fun e he => ⟨_, _, _, _, _, he⟩
  | submitBatch its now =>
    exact queue_of_accepting hst fun e he => by
      obtain ⟨p, -, rfl⟩ := he
      exact ⟨_, _, _, _, _, rfl⟩
  | claim now leaseMs =>
    simp only [Sys.step, Option.some.injEq] at hst
    subst hst
    rw [← claim_conserve]
    simp [Op.entered, idsOf]
  | reclaim now limit =>
    simp only [Sys.step, Option.some.injEq] at hst
    subst hst
    exact reclaim_conserve E.bloom s.shard now limit
  | promote now limit =>
    refine queue_of_quiet hst fun e he => ?_
    obtain ⟨x, -, rfl⟩ := he
    exact ⟨rfl, rfl, rfl⟩
  | advanceWake x t =>
    refine queue_of_quiet hst fun e he => ?_
    cases he
    exact ⟨rfl, rfl, rfl⟩
  | ackZrem d =>
    refine queue_of_quiet hst fun e he => ?_
    obtain ⟨l, -, rfl⟩ := he
    exact ⟨rfl, rfl, rfl⟩
  | ackHdel d =>
    refine queue_of_quiet hst fun e he => ?_
    obtain ⟨l, -, -, rfl⟩ := he
    exact ⟨rfl, rfl, rfl⟩

theorem delivered_cases (reply : Shard.ClaimReply) :
    E.delivered reply = [] ∨
      ∃ u x p, reply = .claimed u x p ∧ E.delivered reply = [⟨u, x⟩] := by
  unfold Env.delivered
  split
  · rename_i u e x hcl
    obtain ⟨bs, hreply, -⟩ := parse_claimed_inv hcl
    exact .inr ⟨u, x, _, hreply, rfl⟩
  · exact .inl rfl

theorem returned_step (hst : s.step E op = some s') : s'.returnedIds h =
    s.returnedIds h ++ ((op.delivers E s).filter fun l => l.host = h).map Lease.urlId := by
  simp [Sys.returnedIds, Sys.step_delivers hst]

/-- A step returns what it claims, or nothing. -/
theorem delivers_sublist :
    (((op.delivers E s).filter fun l => l.host = h).map Lease.urlId).Sublist (op.claimed h s) := by
  cases op with
  | claim now leaseMs =>
    simp only [Op.delivers]
    rcases delivered_cases (E := E) (s.shard.claim now leaseMs).2 with he | ⟨u, x, p, hreply, he⟩
    · rw [he]
      exact List.nil_sublist _
    · rw [he]
      simp only [Op.claimed, hreply]
      by_cases hx : x = h
      · simp [hx]
      · simp [hx]
  | _ => exact List.nil_sublist _

end Step

/-! ## Every run -/

/-- What has entered the queue of `h` is what was claimed from it, then what is on it. -/
theorem histories_inductive (E : Env β) (h : Host) : (histories E h).Inductive
    fun S => S.entered = S.claimed ++ S.sys.shard.hostQueue h ∧
      (S.sys.returnedIds h).Sublist S.claimed where
  init := by
    rintro S ⟨seen, rfl⟩
    exact ⟨rfl, List.nil_sublist _⟩
  step := by
    rintro S op S' ⟨hall, hsub⟩ ⟨hst, hent, hcl⟩
    refine ⟨?_, ?_⟩
    · calc S'.entered = S.claimed ++ (S.sys.shard.hostQueue h ++ op.entered h S.sys S'.sys) := by
            rw [hent, hall, List.append_assoc]
        _ = S'.claimed ++ S'.sys.shard.hostQueue h := by
            rw [step_conserve hst, hcl, List.append_assoc]
    · rw [returned_step hst, hcl]
      exact hsub.append delivers_sublist

/-- Every run has its history. -/
theorem histories_of_reachable {E : Env β} (h : Host) {s : Sys β} (hs : (system E).Reachable s) :
    ∃ S, (histories E h).Reachable S ∧ S.sys = s := by
  induction hs with
  | init h0 =>
    obtain ⟨seen, rfl⟩ := h0
    exact ⟨_, .init ⟨seen, rfl⟩, rfl⟩
  | @step s s' op _ hst ih =>
    obtain ⟨S, hS, rfl⟩ := ih
    exact ⟨⟨s', S.entered ++ op.entered h S.sys s', S.claimed ++ op.claimed h S.sys⟩,
      .step hS ⟨hst, rfl, rfl⟩, rfl⟩

/-! ## Runs without expired leases -/

/-- Every queued id has its payload. -/
def Stored (W : Wire) (s : Shard β) : Prop :=
  ∀ h, ∀ u ∈ s.hostQueue h, ∃ e, s.urls u = some (W.encode e)

/-- Effects of a run without expired leases: they accept encoded entries, and put nothing back. -/
def FreshEff (W : Wire) : Eff → Prop
  | .accept _ _ payload _ _ => ∃ e, payload = W.encode e
  | .reclaim .. | .hdel _ => False
  | _ => True

theorem Stored.eff {W : Wire} {B : Sketch UrlId β} {s s' : Shard β} {e : Eff} (hs : Stored W s)
    (hok : FreshEff W e) (hst : Eff.Step B s e s') : Stored W s' := by
  cases hst with
  | @accept u x payload now counted _ =>
    obtain ⟨entry, rfl⟩ := hok
    intro h v hv
    by_cases hvu : v = u
    · exact ⟨entry, by simp [Shard.accept, hvu]⟩
    · have hold : v ∈ s.hostQueue h := by
        by_cases hx : h = x
        · subst hx
          simpa [Shard.accept, hvu] using hv
        · simpa [Shard.accept, hx] using hv
      simpa [Shard.accept, hvu] using hs h v hold
  | @lease u x rest q expiry hr hq =>
    intro h v hv
    by_cases hx : h = x
    · subst hx
      exact hs h v (hq ▸ List.mem_cons_of_mem _ (by simpa [Shard.take] using hv))
    · exact hs h v (by simpa [Shard.take, hx] using hv)
  | stale => exact hs
  | promote => exact hs
  | advance => exact hs
  | zrem => exact hs
  | reclaim => exact hok.elim
  | hdel => exact hok.elim

/-- The queues hold what was accepted and not yet returned, with the payloads. -/
structure Ordered (E : Env β) (s : Sys β) : Prop where
  order : ∀ h, s.acceptedIds h = s.returnedIds h ++ s.shard.hostQueue h
  stored : Stored E.wire s.shard

namespace Ordered

variable {E : Env β} {s s' : Sys β} {op : Op}

theorem accepted_step (hok : NoneExpired s op) (hst : s.step E op = some s') (h : Host) :
    s'.acceptedIds h = s.acceptedIds h ++ op.entered h s s' := by
  obtain ⟨effs, -, heff, hacc⟩ := Sys.step_effs hst
  have hnew : s'.acceptedIds h = s.acceptedIds h ++ idsOf h (s'.accepted.drop s.accepted.length) := by
    rw [drop_accepted hacc, Sys.acceptedIds, Sys.acceptedIds, hacc]
    simp [idsOf]
  cases op with
  | reclaim now limit =>
    have hnil : effs.filterMap Eff.accepted? = [] := by
      refine List.filterMap_eq_nil_iff.2 fun e he => ?_
      obtain ⟨l, -, rfl⟩ := heff e he
      rfl
    rw [hnew, drop_accepted hacc, hnil]
    simp only [NoneExpired] at hok
    simp [Op.entered, hok, idsOf]
  | _ => exact hnew

/-- The payload of what is claimed decodes, so the caller gets it. -/
theorem delivers_claimed (ho : Ordered E s) (h : Host) :
    ((op.delivers E s).filter fun l => l.host = h).map Lease.urlId = op.claimed h s := by
  cases op with
  | claim now leaseMs =>
    have hc := Shard.claim_cases s.shard now leaseMs
    simp only [Op.claimed, Op.delivers]
    generalize s.shard.claim now leaseMs = res at hc ⊢
    cases hc with
    | @claimed pre rest x u q hr hpre hq =>
      obtain ⟨e, he⟩ := ho.stored x u (hq ▸ List.mem_cons_self)
      simp only [Env.delivered, he, parse_claimed]
      by_cases hx : x = h
      · simp [hx]
      · simp [hx]
    | @hint x t hall hf =>
      rcases delivered_cases (E := E) (.emptyHint t) with he | ⟨_, _, _, hreply, -⟩
      · rw [he]
        rfl
      · cases hreply
    | empty => rfl
  | _ => rfl

/-- A URL some claim has returned is on no queue. -/
theorem not_queued (ho : Ordered E s) (hr : Recorded E s) {l : Lease} (hl : l ∈ s.deliveries)
    (h : Host) : l.urlId ∉ s.shard.hostQueue h := by
  intro hq
  have hsame : h = l.host := hr.conserved.host_unique
    (hr.conserved.mem_of_held (Conserved.held_pos_of_queued hq)) (hr.delivered l hl)
  subst hsame
  have hret : l.urlId ∈ s.returnedIds l.host :=
    List.mem_map_of_mem (List.mem_filter.2 ⟨hl, by simp⟩)
  have hnd : (s.acceptedIds l.host).Nodup :=
    hr.conserved.ids.sublist (List.filter_sublist.map _)
  rw [ho.order l.host] at hnd
  exact (List.nodup_append.1 hnd).2.2 _ hret _ hq rfl

theorem freshEff (hok : NoneExpired s op) {e : Eff} (he : op.Effect E s e)
    (hne : ∀ d, op ≠ .ackHdel d) : FreshEff E.wire e := by
  cases op with
  | submit it now =>
    cases he
    exact ⟨it.entry, rfl⟩
  | submitBatch its now =>
    obtain ⟨p, -, rfl⟩ := he
    exact ⟨p.1.entry, rfl⟩
  | claim now leaseMs =>
    rcases he with ⟨h, rfl⟩ | ⟨u, h, p, -, rfl⟩
    · trivial
    · trivial
  | promote now limit =>
    obtain ⟨h, -, rfl⟩ := he
    trivial
  | reclaim now limit =>
    obtain ⟨l, hl, -⟩ := he
    rw [show s.shard.inflight.zrangebyscore 0 (f64 now) limit = [] from hok] at hl
    cases hl
  | advanceWake h t =>
    cases he
    trivial
  | ackZrem d =>
    obtain ⟨l, -, rfl⟩ := he
    trivial
  | ackHdel d => exact absurd rfl (hne d)

theorem stored_step (ho : Ordered E s) (hr : Recorded E s) (hok : NoneExpired s op)
    (hst : s.step E op = some s') : Stored E.wire s'.shard := by
  by_cases hd : ∃ d, op = .ackHdel d
  · obtain ⟨d, rfl⟩ := hd
    obtain ⟨l, hl, -, rfl⟩ := Sys.ackHdel_inv hst
    intro h u hu
    have hne : u ≠ l.urlId := by
      rintro rfl
      exact ho.not_queued hr (List.mem_of_getElem? hl) h hu
    simpa [Shard.ackHdel, hne] using ho.stored h u hu
  · obtain ⟨effs, hsteps, heff, -⟩ := Sys.step_effs hst
    exact hsteps.preserves (P := Stored E.wire) (Q := FreshEff E.wire)
      (fun _ _ _ hs hok h => hs.eff hok h)
      (fun e he => freshEff hok (heff e he) fun d hop => hd ⟨d, hop⟩) ho.stored

theorem step (ho : Ordered E s) (hr : Recorded E s) (hok : NoneExpired s op)
    (hst : s.step E op = some s') : Ordered E s' := by
  refine ⟨fun h => ?_, ho.stored_step hr hok hst⟩
  calc s'.acceptedIds h = s.returnedIds h ++ (s.shard.hostQueue h ++ op.entered h s s') := by
        rw [accepted_step hok hst, ho.order, List.append_assoc]
    _ = s'.returnedIds h ++ s'.shard.hostQueue h := by
        rw [step_conserve hst, returned_step hst, ho.delivers_claimed, List.append_assoc]

end Ordered

theorem ordered_inductive (E : Env β) :
    ((system E).restrict NoneExpired).Inductive fun s => Recorded E s ∧ Ordered E s :=
  ((recorded_inductive E).restrict NoneExpired).within
    (by
      rintro s ⟨seen, rfl⟩
      refine ⟨fun h => rfl, fun h u hu => ?_⟩
      exact absurd hu List.not_mem_nil)
    fun _ _ _ hr ho hst => ho.step hr hst.1 hst.2

/-- **First in, first out.** As long as no reclaim finds an expired lease, the URLs of a host that
claims returned, then those on its queue, are the accepted ones in their order. In every run, the ids
that entered a queue, when accepted or when reclaimed, are in their order the ones claimed from it,
then those on it; and what the callers got is, in order, some of what was claimed. -/
theorem host_fifo (E : Env β) (h : Host) :
    (∀ s, ((system E).restrict NoneExpired).Reachable s →
      s.returnedIds h <+: s.acceptedIds h ∧
        s.acceptedIds h = s.returnedIds h ++ s.shard.hostQueue h) ∧
    (∀ S, (histories E h).Reachable S →
      S.entered = S.claimed ++ S.sys.shard.hostQueue h ∧
        (S.sys.returnedIds h).Sublist S.claimed) := by
  refine ⟨fun s hs => ?_, fun S hS => (histories_inductive E h).reachable S hS⟩
  have horder := ((ordered_inductive E).reachable s hs).2.order h
  exact ⟨horder ▸ List.prefix_append _ _, horder⟩

/-- Two URLs of one host, the first claimed; and the same run after its lease was reclaimed: it
stands behind the second one. -/
theorem host_fifo_reclaimed :
    (let s := Sys.after .sample [] [.submit .a 0, .submit .a' 0, .promote 0 10, .claim 0 5,
      .reclaim 4 10]
     s.returnedIds "a.test" = [Wire.idA] ∧
      s.returnedIds "a.test" <+: s.acceptedIds "a.test" ∧
        s.acceptedIds "a.test" = s.returnedIds "a.test" ++ s.shard.hostQueue "a.test") ∧
    ∃ S, (histories Env.sample "a.test").Reachable S ∧
      S.sys = Sys.after .sample [] [.submit .a 0, .submit .a' 0, .promote 0 10, .claim 0 5,
        .reclaim 5 10] ∧ S.entered = S.claimed ++ S.sys.shard.hostQueue "a.test" := by
  refine ⟨⟨by decide +kernel, (host_fifo .sample "a.test").1 _
    (reachable_after_restrict (by decide +kernel))⟩, ?_⟩
  have hr : (system Env.sample).Reachable (.after .sample [] [.submit .a 0, .submit .a' 0,
    .promote 0 10, .claim 0 5, .reclaim 5 10]) := reachable_after (by decide +kernel)
  obtain ⟨S, hS, hs⟩ := histories_of_reachable "a.test" hr
  exact ⟨S, hS, hs, ((host_fifo .sample "a.test").2 S hS).1⟩

end Crawlrs

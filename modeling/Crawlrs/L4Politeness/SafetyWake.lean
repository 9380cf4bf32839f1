import Crawlrs.L3Frontier.Wake
import Crawlrs.L4Runtime.NoSilentDrop
import Crawlrs.L4Politeness.Planner

/-!
# The claim-time wake after the ack

`claim.lua` parks the host until the lease is over, "until advance_wake overwrites this
with the politeness value". The pipeline calls `advance_wake` after a fetch, unless the
plan is not later than the clock: "there's no future wake to record, and writing a
now-time would just fail the frontier's GT semantics anyway". The script is a plain
`ZADD`, and what stands there is the park. Nor is there a plan when the URL is skipped
for the blocklist or robots.txt.

`Held` is the shard during one delivery of `h`, between its calls: others submit,
promote, reclaim and claim, but nothing of `h` is delivered meanwhile. Beside the shard
it keeps what the delivery was told: the plan, the reading of the clock that the plan is
compared with, and whether the frontier executed `advance_wake`.

* `Parked.op`: what the others do to the wake-time of `h`.
* `safe_run`: at the ack, where the wake-time of `h` comes from.
* `released_iff`: when the host is free again.
-/
namespace Crawlrs

variable {β : Type}

open Prog (Log Safe Only safe_bind safe_perform safe_of_only)

/-! ## The score of a host without deliveries -/

/-- How the score changes by `c`: not at all, or it is due and goes, or the host is scheduled anew,
not later than `c`. -/
inductive Lifts (c : Int) : Option Int → Option Int → Prop
  | same (o : Option Int) : Lifts c o o
  | due {t : Int} : t ≤ f64 c → Lifts c (some t) none
  | anew {t : Int} : t ≤ f64 c → Lifts c none (some t)

/-- The clock reading of an effect. -/
def Eff.now? : Eff → Option Int
  | .accept _ _ _ now _ => some now
  | .promote _ now => some now
  | .reclaim _ now => some now
  | _ => none

theorem lifts_zaddNX {c now : Int} (hc : now ≤ c) (z : ZSet Host) (m h : Host) :
    Lifts c (z.score? h) ((z.zaddNX m (f64 now)).score? h) := by
  rw [ZSet.score?_zaddNX]
  split
  · rename_i hm
    rw [hm.1, hm.2]
    exact .anew (f64_mono hc)
  · exact .same _

theorem lifts_eff {B : Sketch UrlId β} {s s' : Shard β} {e : Eff} {h : Host} {c : Int}
    (hst : Eff.Step B s e s') (hadv : ∀ t, e ≠ .advance h t) (hlease : ∀ u x, e ≠ .lease u h x)
    (hnow : ∀ now ∈ e.now?, now ≤ c) : Lifts c (s.wake.score? h) (s'.wake.score? h) := by
  cases hst with
  | @accept u m payload now counted _ => exact lifts_zaddNX (hnow now rfl) _ _ _
  | stale => exact .same _
  | @lease u m rest q expiry _ _ =>
    have hne : h ≠ m := fun he => hlease u expiry (he ▸ rfl)
    have hsame : (s.take u m rest q expiry).wake.score? h = s.wake.score? h := by
      simp [Shard.take, ZSet.score?_zadd, hne]
    rw [hsame]
    exact .same _
  | @promote m now t hw _ hle =>
    have hc := f64_mono (hnow now rfl)
    by_cases hm : h = m
    · subst hm
      have hnone : (s.promoteOne h).wake.score? h = none := by
        simp [Shard.promoteOne, ZSet.score?_zrem]
      rw [hw, hnone]
      exact .due (hle.trans hc)
    · have hsame : (s.promoteOne m).wake.score? h = s.wake.score? h := by
        simp [Shard.promoteOne, ZSet.score?_zrem, hm]
      rw [hsame]
      exact .same _
  | @reclaim l now t _ _ _ => exact lifts_zaddNX (hnow now rfl) _ _ _
  | @advance m t =>
    have hne : h ≠ m := fun he => hadv t (he ▸ rfl)
    have hsame : (s.advanceWake m t).wake.score? h = s.wake.score? h := by
      simp [Shard.advanceWake, ZSet.score?_zadd, hne]
    rw [hsame]
    exact .same _
  | zrem => exact .same _
  | hdel => exact .same _

/-! ## One delivery -/

/-- `plan` is politeness' last answer, `reading` the worker's last reading of the clock, `executed`
whether `advance_wake` has been executed for the delivery. The clock is in milliseconds. -/
structure Held (β : Type) where
  sys : Sys β
  clock : Nat
  plan : Option NextWake
  reading : UInt64
  executed : Bool

namespace Held

/-- Milliseconds since the epoch, 0 before it. -/
def clockMs (ns : Int) : Nat := ns.toNat / 10 ^ 6

def score (s : Held β) (h : Host) : Option Int := s.sys.shard.wake.score? h

/-- An op of the others: no claim of `h`, no plan for it, at a reading that is not earlier. -/
def OthersOp (h : Host) (s : Held β) (op : Op) : Prop :=
  NoClaimOf h s.sys op ∧ (∀ t, op ≠ .advanceWake h t) ∧ ∀ now ∈ op.now?, (s.clock : Int) ≤ now

/-- Between two calls of the delivery: an op of the others, or time passes. -/
inductive Others (E : Env β) (h : Host) : Held β → Held β → Prop
  | op {s : Held β} {op : Op} {sys : Sys β} : OthersOp h s op → s.sys.step E op = some sys →
      Others E h s { s with sys := sys, clock := (op.now?.map Int.toNat).getD s.clock }
  | tick {s : Held β} {t : Nat} : s.clock ≤ t → Others E h s { s with clock := t }

/-- The ack of delivery `d`: both commands, or an error after none, one or both. -/
inductive Acks (E : Env β) (d : Nat) (s : Held β) : Except Error Unit → Held β → Prop
  | ok {sys₁ sys₂ : Sys β} : s.sys.step E (.ackZrem d) = some sys₁ →
      sys₁.step E (.ackHdel d) = some sys₂ → Acks E d s (.ok ()) { s with sys := sys₂ }
  | lost (e : Error) : Acks E d s (.error e) s
  | half (e : Error) {sys₁ : Sys β} : s.sys.step E (.ackZrem d) = some sys₁ →
      Acks E d s (.error e) { s with sys := sys₁ }
  | late (e : Error) {sys₁ sys₂ : Sys β} : s.sys.step E (.ackZrem d) = some sys₁ →
      sys₁.step E (.ackHdel d) = some sys₂ → Acks E d s (.error e) { s with sys := sys₂ }

/-- The plan after an answer of politeness at a reading of the clock. -/
def told (s : Held β) (ns : Int) (r : Except Error NextWake) : Held β :=
  { s with clock := clockMs ns, plan := match r with
    | .ok next => some next
    | .error _ => s.plan }

def advance (s : Held β) (host : Host) (untilMs : UInt64) : Held β :=
  { s with
    sys := { s.sys with shard := s.sys.shard.advanceWake host (asI64 untilMs) }
    executed := true }

/-- The calls of delivery `d`. An `advance_wake` that answers `Ok` was executed; one that answers an
error may have been. The pipeline's own `submit_batch` is among the ops of its shard. -/
def act (E : Env β) (h : Host) (d : Nat) (w : Wiring) (s : Held β) :
    (c : Call) → c.Answer → Held β → Prop
  | .recordFetch url, r, s' => ∃ ns, s.clock ≤ clockMs ns ∧ w.FetchPlan url ns r ∧ s' = s.told ns r
  | .recordFailure url _ _, r, s' =>
    ∃ ns, s.clock ≤ clockMs ns ∧ w.FailurePlan url ns r ∧ s' = s.told ns r
  | .now, ns, s' =>
    s.clock ≤ clockMs ns ∧ s' = { s with clock := clockMs ns, reading := millis ns }
  | .advanceWake host untilMs, r, s' =>
    s' = s.advance host untilMs ∨ ∃ e, r = .error e ∧ s' = s
  | .ack _, r, s' => Acks E d s r s'
  | .submitBatch _, _, s' => Relation.ReflTransGen (Others E h) s s'
  | _, _, s' => s' = s

def world (E : Env β) (h : Host) (d : Nat) (w : Wiring) : World (Held β) Call Call.Answer where
  env := Others E h
  act := act E h d w

/-- The state in which delivery `d` of a URL of `h` starts: its claim, at `now`. -/
structure Claimed (E : Env β) (h : Host) (d : Nat) (now : Nat) (leaseMs : Int)
    (s : Held β) : Prop where
  claim : ∃ (sys : Sys β) (u : UrlId) (p : Option Bytes),
    (sys.shard.claim now leaseMs).2 = .claimed u h p ∧
    sys.step E (.claim now leaseMs) = some s.sys ∧ s.sys.deliveries[d]? = some ⟨u, h⟩
  clock : s.clock = now
  plan : s.plan = none
  executed : s.executed = false

/-- The later of the clock and the plan of the delivery, as scores. -/
def bound (s : Held β) : Int :=
  match s.plan with
  | some next => max (f64 s.clock) (f64 next.untilMs.toNat)
  | none => f64 s.clock

/-! ## Where the wake-time comes from -/

/-- The park of the claim, which expires at `e`, is in place or over. -/
def Parked (h : Host) (e : Int) (s : Held β) : Prop :=
  s.score h = some e ∨ (e ≤ f64 s.clock ∧ ∀ x, s.score h = some x → x ≤ f64 s.clock)

/-- The plan that was compared with the clock and found later is in place or due. -/
def Moved (h : Host) (s : Held β) : Prop :=
  ∃ next, s.plan = some next ∧ s.reading < next.untilMs ∧
    ∀ x, s.score h = some x → x ≤ f64 next.untilMs.toNat ∨ x ≤ f64 s.clock

structure Inv (h : Host) (e : Int) (s : Held β) : Prop where
  parked : s.executed = false → Parked h e s
  moved : s.executed = true → Moved h s

variable {E : Env β} {h : Host} {d : Nat} {w : Wiring} {e : Int} {s s' : Held β}

theorem Inv.of_parked (hx : s.executed = false) (hp : Parked h e s) : Inv h e s := by
  refine ⟨fun _ => hp, fun ht => ?_⟩
  rw [hx] at ht
  cases ht

/-- Later, with the score changed only in the ways of others. -/
structure Later (h : Host) (s s' : Held β) : Prop where
  clock : s.clock ≤ s'.clock
  score : Lifts s'.clock (s.score h) (s'.score h)
  plan : s'.plan = s.plan
  reading : s'.reading = s.reading
  executed : s'.executed = s.executed

theorem Later.f64_clock (hl : Later h s s') : f64 s.clock ≤ f64 s'.clock :=
  f64_mono (Int.ofNat_le.2 hl.clock)

theorem Later.parked (hl : Later h s s') (hs : Parked h e s) : Parked h e s' := by
  have hc := hl.f64_clock
  rcases hs with hs | ⟨he, hs⟩
  · have hscore := hl.score
    rw [hs] at hscore
    generalize ho : s'.score h = o at hscore
    cases hscore with
    | same => exact .inl ho
    | due hle => exact .inr ⟨hle, fun x hx => by rw [ho] at hx; cases hx⟩
  · refine .inr ⟨he.trans hc, fun x hx => ?_⟩
    have hscore := hl.score
    rw [hx] at hscore
    generalize ho : s.score h = o at hscore
    cases hscore with
    | same => exact (hs x ho).trans hc
    | anew hle => exact hle

theorem Later.moved (hl : Later h s s') (hs : Moved h s) : Moved h s' := by
  obtain ⟨next, hp, hr, hs⟩ := hs
  refine ⟨next, by rw [hl.plan, hp], by rw [hl.reading]; exact hr, fun x hx => ?_⟩
  have hscore := hl.score
  rw [hx] at hscore
  generalize ho : s.score h = o at hscore
  cases hscore with
  | same => exact (hs x ho).imp_right fun hle => hle.trans hl.f64_clock
  | anew hle => exact .inr hle

theorem Later.inv (hl : Later h s s') (hs : Inv h e s) : Inv h e s' where
  parked hx := hl.parked (hs.parked (by rw [← hl.executed]; exact hx))
  moved hx := hl.moved (hs.moved (by rw [← hl.executed]; exact hx))

/-! ### What the others do -/

/-- The effects of an op of the others. -/
theorem OthersOp.effect {op : Op} (ho : OthersOp h s op) {eff : Eff} (he : op.Effect E s.sys eff) :
    (∀ t, eff ≠ .advance h t) ∧ (∀ u x, eff ≠ .lease u h x) ∧ ∀ now ∈ eff.now?, op.now? = some now := by
  obtain ⟨hclaim, hadv, -⟩ := ho
  cases op with
  | submit it now =>
    cases he
    exact ⟨by simp, by simp, fun n hn => hn⟩
  | submitBatch its now =>
    obtain ⟨q, -, rfl⟩ := he
    exact ⟨by simp, by simp, fun n hn => hn⟩
  | claim now leaseMs =>
    rcases he with ⟨m, rfl⟩ | ⟨u, m, q, hcl, rfl⟩
    · exact ⟨by simp, by simp, fun n hn => by cases hn⟩
    · refine ⟨by simp, fun u' x hx => ?_, fun n hn => by cases hn⟩
      cases hx
      exact hclaim u q hcl
  | promote now limit =>
    obtain ⟨m, -, rfl⟩ := he
    exact ⟨by simp, by simp, fun n hn => hn⟩
  | reclaim now limit =>
    obtain ⟨l, -, rfl⟩ := he
    exact ⟨by simp, by simp, fun n hn => hn⟩
  | advanceWake m t =>
    cases he
    refine ⟨fun t' ht => ?_, by simp, fun n hn => by cases hn⟩
    cases ht
    exact hadv t rfl
  | ackZrem i =>
    obtain ⟨l, -, rfl⟩ := he
    exact ⟨by simp, by simp, fun n hn => by cases hn⟩
  | ackHdel i =>
    obtain ⟨l, -, -, rfl⟩ := he
    exact ⟨by simp, by simp, fun n hn => by cases hn⟩

/-- The state with another shard, at another reading. -/
def onShard (s : Held β) (c : Nat) (a : Shard β) : Held β :=
  { s with sys := { s.sys with shard := a }, clock := c }

theorem later_tick {t : Nat} (ht : s.clock ≤ t) : Later h s { s with clock := t } :=
  ⟨ht, .same _, rfl, rfl, rfl⟩

theorem inv_others (hs : Inv h e s) (ho : Others E h s s') : Inv h e s' := by
  cases ho with
  | tick ht => exact (later_tick ht).inv hs
  | @op op sys hop hst =>
    obtain ⟨effs, hsteps, hall, -⟩ := Sys.step_effs hst
    have hclock : s.clock ≤ (op.now?.map Int.toNat).getD s.clock := by
      cases hn : op.now? with
      | none => simp
      | some now =>
        have hle := hop.2.2 now hn
        simp only [Option.map_some, Option.getD_some]
        omega
    -- the clock first, then the effects one by one at that reading
    have hstart : Inv h e { s with clock := (op.now?.map Int.toNat).getD s.clock } :=
      (later_tick hclock).inv hs
    generalize hc : (op.now?.map Int.toNat).getD s.clock = c at hstart ⊢
    have hstep : ∀ a eff b, Inv h e (s.onShard c a) → op.Effect E s.sys eff →
        (effects E.bloom).step a eff b → Inv h e (s.onShard c b) := by
      intro a eff b ha heff hab
      obtain ⟨hadv, hlease, hnow⟩ := hop.effect heff
      have hlift : Lifts c (a.wake.score? h) (b.wake.score? h) := by
        refine lifts_eff hab hadv hlease fun now hm => ?_
        have hn := hnow now hm
        have hle := hop.2.2 now hn
        rw [hn] at hc
        simp only [Option.map_some, Option.getD_some] at hc
        omega
      have hl : Later h (s.onShard c a) (s.onShard c b) := ⟨le_rfl, hlift, rfl, rfl, rfl⟩
      exact hl.inv ha
    have hend : Inv h e (s.onShard c sys.shard) :=
      hsteps.preserves (P := fun a => Inv h e (s.onShard c a)) hstep hall hstart
    exact ⟨hend.parked, hend.moved⟩

theorem stable_inv : (world E h d w).Stable (Inv h e) := fun _ _ hs ho => inv_others hs ho

/-- The ghosts are the delivery's own. -/
theorem others_told (ho : Others E h s s') :
    s'.plan = s.plan ∧ s'.reading = s.reading ∧ s'.executed = s.executed := by
  cases ho with
  | tick _ => exact ⟨rfl, rfl, rfl⟩
  | op _ _ => exact ⟨rfl, rfl, rfl⟩

/-- The two commands of an ack leave the schedule alone. -/
theorem step_ack_wake {sys sys' : Sys β} {op : Op} (hop : op = .ackZrem d ∨ op = .ackHdel d)
    (hst : sys.step E op = some sys') : sys'.shard.wake = sys.shard.wake := by
  rcases hop with rfl | rfl
  · obtain ⟨l, -, rfl⟩ := Sys.ackZrem_inv hst
    rfl
  · obtain ⟨l, -, -, rfl⟩ := Sys.ackHdel_inv hst
    rfl

theorem Acks.later {r : Except Error Unit} (ha : Acks E d s r s') : Later h s s' ∧
    s'.score h = s.score h ∧ s'.bound = s.bound := by
  have hsame {sys : Sys β} (hw : sys.shard.wake = s.sys.shard.wake) :
      Later h s { s with sys := sys } ∧ ({ s with sys := sys } : Held β).score h = s.score h ∧
        ({ s with sys := sys } : Held β).bound = s.bound := by
    have hscore : ({ s with sys := sys } : Held β).score h = s.score h := by
      simp only [score, hw]
    exact ⟨⟨le_rfl, by rw [hscore]; exact .same _, rfl, rfl, rfl⟩, hscore, rfl⟩
  cases ha with
  | lost e => exact hsame rfl
  | half e h1 => exact hsame (step_ack_wake (.inl rfl) h1)
  | ok h1 h2 => exact hsame ((step_ack_wake (.inr rfl) h2).trans (step_ack_wake (.inl rfl) h1))
  | late e h1 h2 => exact hsame ((step_ack_wake (.inr rfl) h2).trans (step_ack_wake (.inl rfl) h1))

/-! ### The delivery's own calls -/

/-- Calls that are told nothing of the schedule. -/
def still : List CallKind :=
  [.attempting, .succeeded, .failed, .permanentlyFailed, .skipped, .check, .fetch, .adapterExtract,
    .parse, .storeWrite, .ack, .submitBatch]

/-- A still call changes the state as the others do. -/
theorem act_still {c : Call} (hc : c.In still) {r : c.Answer} (ha : act E h d w s c r s')
    {Q : Held β → Prop} (hQ : (world E h d w).Stable Q) (hlater : ∀ s s', Later h s s' → Q s → Q s')
    (hs : Q s) : Q s' := by
  cases c with
  | ledger c => have ha : s' = s := ha; rw [ha]; exact hs
  | check url => have ha : s' = s := ha; rw [ha]; exact hs
  | fetch request => have ha : s' = s := ha; rw [ha]; exact hs
  | adapterExtract adapter resp => have ha : s' = s := ha; rw [ha]; exact hs
  | parse resp => have ha : s' = s := ha; rw [ha]; exact hs
  | storeWrite record => have ha : s' = s := ha; rw [ha]; exact hs
  | ack a => exact hlater s s' (Acks.later ha).1 hs
  | submitBatch entries => exact hQ.rely hs ha
  | recordFetch url => simp [Call.In, Call.kind, still] at hc
  | recordFailure url kind hint => simp [Call.In, Call.kind, still] at hc
  | advanceWake host untilMs => simp [Call.In, Call.kind, still] at hc
  | now => simp [Call.In, Call.kind, still] at hc

/-- Before the plan. -/
structure Fresh (h : Host) (e : Int) (s : Held β) : Prop extends Inv h e s where
  plan : s.plan = none
  executed : s.executed = false

/-- Politeness has answered. -/
structure Planned (h : Host) (e : Int) (r : Except Error NextWake) (s : Held β) : Prop
    extends Inv h e s where
  executed : s.executed = false
  plan : s.plan = r.toOption
  host : ∀ next, r = .ok next → next.host = h

theorem Later.fresh (hl : Later h s s') (hs : Fresh h e s) : Fresh h e s' :=
  ⟨hl.inv hs.toInv, by rw [hl.plan, hs.plan], by rw [hl.executed, hs.executed]⟩

theorem stable_fresh : (world E h d w).Stable (Fresh h e) := by
  intro s s' hs ho
  obtain ⟨hp, -, hx⟩ := others_told ho
  exact ⟨inv_others hs.toInv ho, by rw [hp, hs.plan], by rw [hx, hs.executed]⟩

theorem stable_planned (r : Except Error NextWake) : (world E h d w).Stable (Planned h e r) := by
  intro s s' hs ho
  obtain ⟨hp, -, hx⟩ := others_told ho
  exact ⟨inv_others hs.toInv ho, by rw [hx, hs.executed], by rw [hp, hs.plan], hs.host⟩

/-! ### Phase by phase -/

/-- An ack is made where the origin of the wake-time is known. -/
def AckOk (h : Host) (e : Int) (_ : Log Call Call.Answer) (s : Held β) (c : Call) : Prop :=
  c.kind = .ack → Inv h e s

section Safe

variable {α : Type} {log : Log Call Call.Answer} {p : UrlPipeline}

theorem safe_still {q : Pipe α} (hq : Only (Call.In still) q) {Q : Held β → Prop}
    (hQ : (world E h d w).Stable Q) (hlater : ∀ s s', Later h s s' → Q s → Q s')
    (hinv : ∀ s, Q s → Inv h e s) (hs : Q s) :
    Safe (world E h d w) (AckOk h e) (fun _ _ s => Q s) q log s := by
  have hok : ∀ (log : Log Call Call.Answer) (s : Held β) c, Call.In still c → Q s →
      AckOk h e log s c := fun _ s _ _ hs _ => hinv s hs
  exact safe_of_only (P := fun _ s => Q s) (fun _ => hQ) hok
    (fun _ _ _ _ _ hc hs ha => act_still hc ha hQ hlater hs) hq hs

theorem safe_still_inv {q : Pipe α} (hq : Only (Call.In still) q) (hs : Inv h e s) :
    Safe (world E h d w) (AckOk h e) (fun _ _ s => Inv h e s) q log s :=
  safe_still hq stable_inv (fun _ _ hl hs => hl.inv hs) (fun _ hs => hs) hs

theorem safe_still_fresh {q : Pipe α} (hq : Only (Call.In still) q) (hs : Fresh h e s) :
    Safe (world E h d w) (AckOk h e) (fun _ _ s => Fresh h e s) q log s :=
  safe_still hq stable_fresh (fun _ _ hl hs => hl.fresh hs) (fun _ hs => hs.toInv) hs

theorem planned_told (hs : Fresh h e s) {ns : Int} (hc : s.clock ≤ clockMs ns)
    {r : Except Error NextWake} (hhost : ∀ next, r = .ok next → next.host = h) :
    Planned h e r (s.told ns r) := by
  refine ⟨.of_parked hs.executed ?_, hs.executed, ?_, hhost⟩
  · exact (later_tick hc).parked (hs.parked hs.executed)
  · cases r with
    | ok next => rfl
    | error e => exact hs.plan

theorem asI64_le (t : UInt64) : asI64 t ≤ t.toNat := by
  unfold asI64
  split <;> omega

/-- The plan is executed. -/
theorem inv_advance {next : NextWake} (hs : Planned h e (.ok next) s)
    (hr : s.reading < next.untilMs) : Inv h e (s.advance next.host next.untilMs) := by
  refine ⟨fun hx => absurd hx (by simp [advance]), fun _ => ?_⟩
  refine ⟨next, hs.plan, hr, fun x hx => .inl ?_⟩
  have hscore : (s.advance next.host next.untilMs).score h = some (f64 (asI64 next.untilMs)) := by
    simp [score, advance, Shard.advanceWake, ZSet.score?_zadd, hs.host next rfl]
  rw [hscore] at hx
  cases hx
  exact f64_mono (asI64_le _)

theorem safe_applyWakePlan {r : Except Error NextWake} (hs : Planned h e r s) :
    Safe (world E h d w) (AckOk h e) (fun _ _ s => Inv h e s) (UrlPipeline.applyWakePlan r) log s := by
  cases r with
  | error err => exact hs.toInv
  | ok next =>
    refine safe_bind (safe_perform (stable_planned _) hs (fun _ _ hk => by cases hk) ?_)
    rintro s₁ ns s₂ h1 ⟨hc, rfl⟩
    have h2 : Planned h e (.ok next) { s₁ with clock := clockMs ns, reading := millis ns } :=
      ⟨.of_parked h1.executed ((later_tick hc).parked (h1.parked h1.executed)), h1.executed, h1.plan,
        h1.host⟩
    split
    · exact h2.toInv
    · rename_i hgt
      -- the reading is kept until the write
      have hread : (world E h d w).Stable fun s => s.reading = millis ns := by
        intro a b ha ho
        rw [(others_told ho).2.1, ha]
      refine safe_bind (safe_perform ((stable_planned _).and hread) ⟨h2, rfl⟩
        (fun _ _ hk => by cases hk) ?_)
      rintro s₃ r s₄ ⟨h3, hr3⟩ ha
      rcases ha with rfl | ⟨err, -, rfl⟩
      · refine inv_advance h3 ?_
        rw [hr3]
        exact UInt64.not_le.1 hgt
      · exact h3.toInv

theorem safe_recordFailure (hu : p.url.host = some h) (hs : Fresh h e s) (kind : FailureKind)
    (hint : Option Nat) (reason : String) :
    Safe (world E h d w) (AckOk h e) (fun _ _ s => Inv h e s) (do
      let plan ← await (.recordFailure p.url kind hint)
      UrlPipeline.applyWakePlan plan
      p.handleFailure kind reason
      pure (none : Option FetchResponse)) log s := by
  refine safe_bind (safe_perform stable_fresh hs (fun _ _ hk => by cases hk) ?_)
  rintro s₁ r s₂ h1 ⟨ns, hc, hplan, rfl⟩
  have hhost : ∀ next, r = .ok next → next.host = h := by
    intro next hr
    have hn := hplan.host hu hr
    rw [hu] at hn
    exact (Option.some.inj hn).symm
  refine safe_bind ((safe_applyWakePlan (planned_told h1 hc hhost)).mono fun _ _ s hs => ?_)
  refine safe_bind ((safe_still_inv ((kinds_handleFailure p _ _).mono
    (Call.In.mono (by decide))) hs).mono fun _ _ s hs => hs)

theorem safe_retryAfter (hs : Fresh h e s) (headers : List (String × String)) :
    Safe (world E h d w) (AckOk h e) (fun _ _ s => Fresh h e s) (p.retryAfter headers) log s := by
  unfold UrlPipeline.retryAfter
  split
  · exact hs
  · exact hs
  · refine safe_bind (safe_perform stable_fresh hs (fun _ _ hk => by cases hk) ?_)
    rintro s₁ ns s₂ h1 ⟨hc, rfl⟩
    exact ⟨.of_parked h1.executed ((later_tick hc).parked (h1.parked h1.executed)), h1.plan,
      h1.executed⟩

theorem safe_fetch (hu : p.url.host = some h) (hs : Fresh h e s) :
    Safe (world E h d w) (AckOk h e) (fun _ _ s => Inv h e s) p.fetch log s := by
  refine safe_bind (safe_perform stable_fresh hs (fun _ _ hk => by cases hk) ?_)
  rintro s₁ r s₂ h1 rfl
  cases r with
  | error err => exact safe_recordFailure hu h1 _ _ _
  | ok resp =>
    dsimp only
    split
    · exact safe_bind ((safe_retryAfter h1 _).mono fun hint _ s hs => safe_recordFailure hu hs _ _ _)
    · refine safe_bind (safe_perform stable_fresh h1 (fun _ _ hk => by cases hk) ?_)
      rintro s₃ r s₄ h3 ⟨ns, hc, hplan, rfl⟩
      have hhost : ∀ next, r = .ok next → next.host = h := by
        intro next hr
        have hn := hplan.host hr
        rw [hu] at hn
        exact (Option.some.inj hn).symm
      exact safe_bind ((safe_applyWakePlan (planned_told h3 hc hhost)).mono fun _ _ s hs => hs)

/-- `finalize` is told nothing of the schedule. -/
theorem still_finalize (resp : FetchResponse) (doc : ParsedDocument) (partition : OutboundPartition) :
    Only (Call.In still) (p.finalize resp doc partition) := by
  refine Prog.only_bind (Prog.only_perform (by simp [Call.In, Call.kind, still])) fun r => ?_
  cases r with
  | error err => exact (kinds_ack p).mono (Call.In.mono (by decide))
  | ok blobPath =>
    exact Prog.only_bind (Prog.only_perform (by simp [Call.In, Call.kind, still])) fun _ =>
      (kinds_afterCommit p partition).mono (Call.In.mono (by decide))

/-- Every ack of a delivery finds the wake-time to be the park's or the plan's. -/
theorem safe_run (hu : p.url.host = some h) (hs : Fresh h e s) :
    Safe (world E h d w) (AckOk h e) (fun _ _ _ => True) p.run log s := by
  refine safe_bind ((safe_still_fresh ((kinds_politenessAllows p).mono
    (Call.In.mono (by decide))) hs).mono fun allowed _ s hs => ?_)
  cases allowed with
  | false => trivial
  | true =>
    refine safe_bind ((safe_still_fresh ((kinds_markAttempting p).mono
      (Call.In.mono (by decide))) hs).mono fun _ _ s hs => ?_)
    refine safe_bind ((safe_fetch hu hs).mono fun r _ s hs => ?_)
    cases r with
    | none => trivial
    | some resp =>
      refine safe_bind ((safe_still_inv ((kinds_extract p resp).mono
        (Call.In.mono (by decide))) hs).mono fun r _ s hs => ?_)
      cases r with
      | none => trivial
      | some doc => exact (safe_still_inv (still_finalize resp doc _) hs).mono fun _ _ _ _ => trivial

end Safe

/-! ## After the ack -/

/-- `h` is not scheduled, or not later than the clock and the plan. -/
def Released (h : Host) (s : Held β) : Prop := ∀ x, s.score h = some x → x ≤ s.bound

/-- Politeness answered a plan later than the worker's reading, and the frontier executed it. -/
def PlanExecuted (s : Held β) : Prop :=
  s.executed = true ∧ ∃ next, s.plan = some next ∧ s.reading < next.untilMs

theorem clock_le_bound (s : Held β) : f64 s.clock ≤ s.bound := by
  unfold bound
  split
  · exact le_max_left _ _
  · exact le_rfl

theorem Inv.released_cases (hs : Inv h e s) : Released h s ↔ PlanExecuted s ∨ e ≤ s.bound := by
  have hclock := clock_le_bound s
  cases hx : s.executed with
  | true =>
    obtain ⟨next, hp, hr, hscore⟩ := hs.moved hx
    refine ⟨fun _ => .inl ⟨hx, next, hp, hr⟩, fun _ x hsx => ?_⟩
    rcases hscore x hsx with hle | hle
    · have hb : s.bound = max (f64 s.clock) (f64 next.untilMs.toNat) := by simp [bound, hp]
      rw [hb]
      exact hle.trans (le_max_right _ _)
    · exact hle.trans hclock
  | false =>
    rcases hs.parked hx with hpark | ⟨he, hscore⟩
    · refine ⟨fun h => .inr (h e hpark), fun hcond x hsx => ?_⟩
      rw [hpark] at hsx
      cases hsx
      rcases hcond with ⟨ht, -⟩ | hle
      · rw [hx] at ht
        cases ht
      · exact hle
    · exact ⟨fun _ => .inr (he.trans hclock), fun _ x hsx => (hscore x hsx).trans hclock⟩

theorem Claimed.fresh {now : Nat} {leaseMs : Int} (hc : Claimed E h d now leaseMs s) :
    Fresh h (Shard.expiryOf now leaseMs) s := by
  obtain ⟨sys, u, q, hcl, hst, -⟩ := hc.claim
  obtain ⟨pre, rest, qs, -, -, -, hshard⟩ := Shard.claim_claimed hcl
  have hs : s.sys.shard = (sys.shard.claim now leaseMs).1 := by
    simp only [Sys.step, Option.some.injEq] at hst
    rw [← hst]
  have hscore : s.score h = some (Shard.expiryOf now leaseMs) := by
    simp [score, hs, hshard, Shard.take, ZSet.score?_zadd]
  exact ⟨.of_parked hc.executed (.inl hscore), hc.plan, hc.executed⟩

/-- Deliveries of any pipeline over the shard. -/
abbrev deliveries (E : Env β) (h : Host) (d : Nat) (w : Wiring) :
    LTS (Session (Held β) UrlPipeline Call Call.Answer) (Session.Label UrlPipeline Call Call.Answer) :=
  Session.sessions (world E h d w) UrlPipeline.run

/-- The ack of a delivery finds the wake-time to be the park's or the plan's. -/
theorem inv_at_ack {p : UrlPipeline} {S : Session (Held β) UrlPipeline Call Call.Answer}
    {s₀ : Held β} {log : Log Call Call.Answer} {a : String} {k : Except Error Unit → Pipe Unit}
    (hS : (deliveries E h d w).Reachable S)
    (hr : S.running = some ⟨p, s₀, log, .call (.ack a) k⟩) (hu : p.url.host = some h)
    (h0 : Fresh h e s₀) : Inv h e S.state := by
  have hsafe : ∀ (p : UrlPipeline) (s : Held β), Safe (world E h d w)
      (fun log s' c => p.url.host = some h → Fresh h e s → AckOk h e log s' c)
      (fun _ _ _ => True) p.run [] s := by
    intro p s
    by_cases hcond : p.url.host = some h ∧ Fresh h e s
    · exact (safe_run hcond.1 hcond.2).mono_ok fun _ _ _ hok _ _ => hok
    · exact Prog.safe_true (fun _ _ _ hu hf => absurd ⟨hu, hf⟩ hcond) _
  exact Session.safe hsafe hS hr hu h0 rfl

/-- **When the host is free again.** After a successful ack, whatever others did meanwhile short of
delivering another URL of the host, its wake-time is at most the clock or the delivery's plan exactly
when the plan was later than the worker's reading of the clock and was executed, or the lease is over
by then. -/
theorem released_iff (E : Env β) (w : Wiring) (p : UrlPipeline) (h : Host) (d now : Nat)
    (leaseMs : Int) (S : Session (Held β) UrlPipeline Call Call.Answer) (s₀ s' : Held β)
    (log : Log Call Call.Answer) (a : String) (k : Except Error Unit → Pipe Unit)
    (hu : p.url.host = some h) (hS : (deliveries E h d w).Reachable S)
    (hr : S.running = some ⟨p, s₀, log, .call (.ack a) k⟩) (h0 : Claimed E h d now leaseMs s₀)
    (hack : Acks E d S.state (.ok ()) s') :
    Released h s' ↔ PlanExecuted S.state ∨ Shard.expiryOf now leaseMs ≤ S.state.bound := by
  obtain ⟨-, hscore, hbound⟩ := hack.later (h := h)
  rw [← (inv_at_ack hS hr hu h0.fresh).released_cases]
  simp only [Released, hscore, hbound]

/-! ### Deliveries that end within the millisecond -/

/-- The wake-time does not outlive the delivery under wiring `w`. -/
def WakeReleased (E : Env β) (w : Wiring) : Prop :=
  ∀ (p : UrlPipeline) (h : Host) (d now : Nat) (leaseMs : Int)
    (S : Session (Held β) UrlPipeline Call Call.Answer) (s₀ s' : Held β) (log : Log Call Call.Answer)
    (a : String) (k : Except Error Unit → Pipe Unit),
    p.url.host = some h → (deliveries E h d w).Reachable S →
    S.running = some ⟨p, s₀, log, .call (.ack a) k⟩ → Claimed E h d now leaseMs s₀ →
    Acks E d S.state (.ok ()) s' → Released h s'

/-- `a.test` right after the claim of its URL at 1000, with a lease of a minute. -/
def sample : Held (List UrlId) :=
  ⟨.after .sample [] [.submit .a 1000, .promote 1000 10, .claim 1000 60000], 1000, none, 0, false⟩

theorem claimed_sample : Claimed .sample "a.test" 0 1000 60000 sample where
  claim := ⟨.after .sample [] [.submit .a 1000, .promote 1000 10], Wire.idA, some Wire.bytesA,
    by decide +kernel, rfl, by decide +kernel⟩
  clock := rfl
  plan := rfl
  executed := rfl

/-- A page that fetches and parses within the millisecond, under a politeness layer that answers
`verdict` and a frontier that executes what it is asked. -/
def answering (w : Wiring) (verdict : PoliteDecision) (s : Held β) : (c : Call) → c.Answer × Held β
  | .ledger c => ((Ledger.empty.exec c).1, s)
  | .check _ => (.ok verdict, s)
  | .recordFetch url => (w.recordFetch url (s.clock * 10 ^ 6),
      s.told (s.clock * 10 ^ 6) (w.recordFetch url (s.clock * 10 ^ 6)))
  | .recordFailure url .. => (w.failureUnrecorded url (s.clock * 10 ^ 6),
      s.told (s.clock * 10 ^ 6) (w.failureUnrecorded url (s.clock * 10 ^ 6)))
  | .fetch request => (.ok ⟨request.url, 200, [], []⟩, s)
  | .adapterExtract .. => (.ok none, s)
  | .parse resp => (.ok ⟨resp.url, resp.status, none, none, []⟩, s)
  | .storeWrite _ => (.ok "blobs/1", s)
  | .ack _ => (.error (.frontier "timed out"), s)
  | .advanceWake host untilMs => (.ok (), s.advance host untilMs)
  | .submitBatch _ => (.ok {}, s)
  | .now => (s.clock * 10 ^ 6, { s with reading := millis (s.clock * 10 ^ 6) })

theorem clockMs_clock (s : Held β) : clockMs (s.clock * 10 ^ 6) = s.clock := by
  unfold clockMs
  omega

theorem answering_act (E : Env β) (h : Host) (d : Nat) (w : Wiring) (verdict : PoliteDecision)
    (s : Held β) (c : Call) :
    (world E h d w).act s c (answering w verdict s c).1 (answering w verdict s c).2 := by
  have hclock := clockMs_clock s
  cases c with
  | recordFetch url => exact ⟨_, hclock.ge, w.fetchPlan_recordFetch url _, rfl⟩
  | recordFailure url kind hint => exact ⟨_, hclock.ge, w.failurePlan_unrecorded url _, rfl⟩
  | now => exact ⟨hclock.ge, by simp only [answering, hclock]⟩
  | advanceWake host untilMs => exact .inl rfl
  | ack a => exact .lost _
  | submitBatch entries => exact .refl
  | ledger c => rfl
  | check url => rfl
  | fetch request => rfl
  | adapterExtract adapter resp => rfl
  | parse resp => rfl
  | storeWrite record => rfl

def firstAck (w : Wiring) (verdict : PoliteDecision) :
    Option (Call × Log Call Call.Answer × Held (List UrlId)) :=
  Prog.drive (answering w verdict) Call.isAck UrlPipeline.sampleA.run [] sample

theorem reachable_firstAck (w : Wiring) (verdict : PoliteDecision) {c : Call}
    {log : Log Call Call.Answer} {s : Held (List UrlId)} (h : firstAck w verdict = some (c, log, s)) :
    ∃ k, (deliveries .sample "a.test" 0 w).Reachable ⟨s, some ⟨.sampleA, sample, log, .call c k⟩⟩ :=
  Session.reachable_drive (answering_act .sample "a.test" 0 w verdict) (Session.reachable_start _ _) h

/-- Both commands of an ack of a delivery can be executed. -/
theorem exists_acks {E : Env β} {d : Nat} {s : Held β} {l : Lease}
    (hl : s.sys.deliveries[d]? = some l) : ∃ s', Acks E d s (.ok ()) s' := by
  have hzrem : s.sys.step E (.ackZrem d) =
      some { s.sys with shard := s.sys.shard.ackZrem l, zremed := d :: s.sys.zremed } := by
    simp [Sys.step, hl]
  exact ⟨_, .ok hzrem (by simp [Sys.step, hl]; rfl)⟩

/-- A delivery whose first ack finds the state to be `P`. -/
theorem exists_firstAck {w : Wiring} (verdict : PoliteDecision) (P : Held (List UrlId) → Prop)
    [DecidablePred P] (h : (firstAck w verdict).any fun x => x.1.isAck &&
      decide (x.2.2.sys.deliveries[0]? = some ⟨Wire.idA, "a.test"⟩ ∧ P x.2.2)) :
    ∃ s s' log a k, (deliveries .sample "a.test" 0 w).Reachable
        ⟨s, some ⟨.sampleA, sample, log, .call (.ack a) k⟩⟩ ∧
      Acks .sample 0 s (.ok ()) s' ∧ P s := by
  obtain ⟨⟨c, log, s⟩, hf, hx⟩ := (Option.any_eq_true _ _).1 h
  simp only [Bool.and_eq_true, decide_eq_true_eq] at hx
  obtain ⟨hc, hl, hP⟩ := hx
  obtain ⟨k, hk⟩ := reachable_firstAck w verdict hf
  obtain ⟨s', hack⟩ := exists_acks (E := .sample) hl
  obtain ⟨a, rfl⟩ := Call.eq_ack_of_isAck hc
  exact ⟨s, s', log, a, k, hk, hack, hP⟩

/-- A page of a host with a delay of a second: the plan replaces the park. -/
theorem released_iff_second : ∃ s s' : Held (List UrlId), Acks .sample 0 s (.ok ()) s' ∧
    s.score "a.test" = some 2000 ∧ Released "a.test" s' := by
  obtain ⟨s, s', log, a, k, hS, hack, hscore, hplan, hreading, hexecuted⟩ :=
    exists_firstAck (w := .second) .allow (fun s => s.score "a.test" = some 2000 ∧
      s.plan = some ⟨"a.test", 2000⟩ ∧ s.reading = 1000 ∧ s.executed = true)
      (by decide +kernel)
  have hexec : PlanExecuted s := ⟨hexecuted, _, hplan, by rw [hreading]; decide⟩
  exact ⟨s, s', hack, hscore, (released_iff .sample .second .sampleA "a.test" 0 1000 60000 _ sample s' log
    a k rfl hS rfl claimed_sample hack).2 (.inl hexec)⟩

/-- The ack leaves a host parked beyond the clock and the plan. -/
theorem not_wakeReleased_of_parked {w : Wiring} (verdict : PoliteDecision)
    (h : (firstAck w verdict).any fun x => x.1.isAck &&
      decide (x.2.2.sys.deliveries[0]? = some ⟨Wire.idA, "a.test"⟩ ∧
        x.2.2.score "a.test" = some 61000 ∧ x.2.2.bound < 61000)) : ¬ WakeReleased Env.sample w := by
  intro hall
  obtain ⟨s, s', log, a, k, hS, hack, hscore, hlt⟩ :=
    exists_firstAck verdict (fun s => s.score "a.test" = some 61000 ∧ s.bound < 61000) h
  have hrel := hall .sampleA "a.test" 0 1000 60000 _ sample s' log a k rfl hS rfl claimed_sample hack
  obtain ⟨-, hscore', hbound⟩ := hack.later (h := "a.test")
  have hle := hrel 61000 (hscore'.trans hscore)
  rw [hbound] at hle
  exact absurd hle (not_le.2 hlt)

/-- With the no-op trio the page is fetched, stored and acked, and `a.test` waits for the rest of the
minute; with a delay of a second it does so after a skip for robots.txt. -/
theorem not_wakeReleased :
    ¬ WakeReleased Env.sample .noop ∧ ¬ WakeReleased Env.sample .second := by
  constructor
  · exact not_wakeReleased_of_parked .allow (by decide +kernel)
  · exact not_wakeReleased_of_parked (.disallow .robots) (by decide +kernel)

end Held

end Crawlrs

import Crawlrs.L3Frontier.Exclusion
import Crawlrs.L4Politeness.Planner

/-!
# The rate at which a host is handed out

A fetch is followed by a plan of `record_fetch`: the clock and the host's delay. The
claim before it has gated the host for the length of its lease, and the plan moves that
gate. So two URLs of a host are handed out a delay apart, as long as the lease is no
shorter than the delay and a plan is made no earlier than the claim it is for.

`paced` is the shard under clients that do so. It records when URLs of the host were
handed out.

* `paced_reachable`: those times are `gap` apart, in every state of every run.
* `count_window`: of times `gap` apart a window of `width` holds at most
  `width / gap + 1`.
* `host_rate`: both together, for the delay that the configuration gives the host.
-/
namespace Crawlrs

variable {β : Type}

/-! ## Times that keep a distance -/

/-- The latest first, each `gap` after the one before. -/
def Spaced (gap : Int) (times : List Int) : Prop := times.IsChain fun later earlier => earlier + gap ≤ later

namespace Spaced

variable {gap : Int} {times : List Int}

theorem cons {t : Int} (h : Spaced gap times) (ht : ∀ c ∈ times.head?, c + gap ≤ t) :
    Spaced gap (t :: times) := List.isChain_cons.2 ⟨ht, h⟩

/-- The `n`-th time before `t` is `n` gaps before it. -/
theorem length_le {t a : Int} : Spaced gap (t :: times) → (∀ c ∈ t :: times, a ≤ c) →
    a + times.length * gap ≤ t := by
  induction times generalizing t with
  | nil =>
    intro _ ha
    simpa using ha t List.mem_cons_self
  | cons c times ih =>
    intro h ha
    obtain ⟨hct, hrest⟩ := List.isChain_cons_cons.1 h
    have hle := ih hrest fun c hc => ha c (List.mem_cons_of_mem _ hc)
    rw [List.length_cons, Nat.cast_add, Nat.cast_one, add_mul, one_mul]
    omega

theorem filter (h0 : 0 ≤ gap) (h : Spaced gap times) (p : Int → Bool) : Spaced gap (times.filter p) := by
  have htrans : IsTrans Int fun later earlier => earlier + gap ≤ later :=
    ⟨fun a b c hab hbc => by omega⟩
  exact ((List.isChain_iff_pairwise.1 h).filter p).isChain

/-- A window holds one time more than gaps fit into it. -/
theorem count_window (h0 : 0 < gap) (h : Spaced gap times) (a width : Int) (hw : 0 ≤ width) :
    (times.countP fun t => decide (a ≤ t ∧ t ≤ a + width) : Nat) ≤ width / gap + 1 := by
  have hs := h.filter (Int.le_of_lt h0) fun t => decide (a ≤ t ∧ t ≤ a + width)
  rw [List.countP_eq_length_filter]
  cases hin : times.filter fun t => decide (a ≤ t ∧ t ≤ a + width) with
  | nil =>
    have := Int.ediv_nonneg hw (Int.le_of_lt h0)
    simp only [List.length_nil, Nat.cast_zero]
    omega
  | cons t ts =>
    have hmem : ∀ c ∈ t :: ts, a ≤ c ∧ c ≤ a + width := by
      intro c hc
      rw [← hin] at hc
      simpa using (List.mem_filter.1 hc).2
    have hlen := length_le (hin ▸ hs) fun c hc => (hmem c hc).1
    have ht := (hmem t List.mem_cons_self).2
    have hdiv : (ts.length : Int) ≤ width / gap := by
      rw [Int.le_ediv_iff_mul_le h0]
      omega
    rw [List.length_cons, Nat.cast_add, Nat.cast_one]
    omega

end Spaced

/-! ## A shard under polite clients -/

/-- The shard, the latest reading of the clock, and when URLs of the host were handed out. -/
structure Paced (β : Type) where
  sys : Sys β
  clock : Int
  times : List Int

namespace Paced

/-- A claim hands out a URL of the host. -/
def serves (h : Host) (s : Shard β) (now leaseMs : Int) : Bool :=
  match (s.claim now leaseMs).2 with
  | .claimed _ x _ => decide (x = h)
  | _ => false

def record (h : Host) (s : Paced β) : Op → List Int
  | .claim now leaseMs => if serves h s.sys.shard now leaseMs then now :: s.times else s.times
  | _ => s.times

/-- A lease is no shorter than `gap`, and a plan for the host leaves `gap` after its last claim. -/
def Leaves (h : Host) (gap : Int) (s : Paced β) : Op → Prop
  | .claim _ leaseMs => gap ≤ leaseMs
  | .advanceWake x untilMs => x = h → ∀ c ∈ s.times.head?, c + gap ≤ untilMs
  | _ => True

inductive Step (E : Env β) (h : Host) (ok : Paced β → Op → Prop) : Paced β → Op → Paced β → Prop
  | mk {s : Paced β} {op : Op} {s' : Sys β} : ok s op →
      (∀ now, op.now? = some now → s.clock ≤ now) → s.sys.step E op = some s' →
      Step E h ok s op ⟨s', op.now?.getD s.clock, s.record h op⟩

end Paced

/-- The runs of a shard with a clock that does not go back; `ok` is what its clients may do. -/
def paced (E : Env β) (h : Host) (ok : Paced β → Op → Prop) : LTS (Paced β) Op where
  init s := (∃ seen, s.sys = .init seen) ∧ s.times = []
  step := Paced.Step E h ok

namespace Paced

variable {E : Env β} {h : Host} {gap : Int} {ok : Paced β → Op → Prop} {s s' : Paced β}

theorem serves_iff {x : Shard β} {now leaseMs : Int} :
    serves h x now leaseMs = true ↔ ∃ u p, (x.claim now leaseMs).2 = .claimed u h p := by
  unfold serves
  split
  · rename_i u y p hcl
    constructor
    · intro hy
      exact ⟨u, p, by rw [hcl, of_decide_eq_true hy]⟩
    · rintro ⟨u', p', he⟩
      rw [hcl] at he
      cases he
      exact decide_eq_true rfl
  · rename_i hno
    constructor
    · intro hf
      cases hf
    · rintro ⟨u, p, he⟩
      exact absurd he (hno u h p)

/-- The host was handed out at `c`, and is not again before `c + gap`: the clock is past it, or
the host is gated until then. -/
structure Waits (h : Host) (gap : Int) (s : Paced β) (c : Int) : Prop where
  exact : 0 ≤ c + gap ∧ c + gap ≤ 2 ^ 53
  gate : c + gap ≤ s.clock ∨ ∃ x, c + gap ≤ x ∧ Gated h x s.sys.shard

structure Keeps (h : Host) (gap : Int) (s : Paced β) : Prop where
  nodup : s.sys.shard.ready.Nodup
  spaced : Spaced gap s.times
  waits : ∀ c ∈ s.times.head?, Waits h gap s c

/-- Until the next claim of the host. -/
theorem Waits.step {c : Int} (hw : Waits h gap s c) {op : Op} {t : Sys β}
    (hc : c ∈ s.times.head?) (hleaves : s.Leaves h gap op)
    (hclock : ∀ now, op.now? = some now → s.clock ≤ now) (hst : s.sys.step E op = some t)
    (times : List Int) : Waits h gap ⟨t, op.now?.getD s.clock, times⟩ c := by
  refine ⟨hw.exact, ?_⟩
  obtain ⟨h0, h1⟩ := hw.exact
  obtain hpast | ⟨x, hx, hg⟩ := hw.gate
  · left
    cases hnow : op.now? with
    | none => exact hpast
    | some now => exact Int.le_trans hpast (hclock now hnow)
  · by_cases hadv : ∃ u, op = .advanceWake h u
    · obtain ⟨u, rfl⟩ := hadv
      right
      have hexact : f64 (c + gap) = c + gap := f64_exact (by omega)
      have hplan : c + gap ≤ u := hleaves rfl c hc
      refine ⟨f64 u, hexact ▸ f64_mono hplan, ?_⟩
      simp only [Sys.step, Option.some.injEq] at hst
      rw [← hst]
      exact gated_advanceWake s.sys.shard h u
    · by_cases hpro : ∀ now limit, op = .promote now limit → f64 now < x
      · exact Or.inr ⟨x, hx, hg.step hst (fun u he => hadv ⟨u, he⟩) fun now limit he _ => hpro now limit he⟩
      · -- a promote that has reached the gate has a clock past it
        left
        push Not at hpro
        obtain ⟨now, limit, rfl, hnow⟩ := hpro
        have hle : c + gap ≤ now := by
          by_contra hlt
          have hlt' := f64_lt_of_lt h0 h1 (not_le.1 hlt)
          have hexact : f64 (c + gap) = c + gap := f64_exact (by omega)
          omega
        exact hle

theorem keeps_inductive (E : Env β) (h : Host) (hgap : 0 ≤ gap)
    (hok : ∀ s op, ok s op → SoloPromote s.sys op ∧ s.Leaves h gap op) :
    (paced E h ok).Inductive (Keeps h gap) where
  init := by
    rintro ⟨s, clock, times⟩ ⟨⟨seen, hs⟩, ht⟩
    have hs : s = .init seen := hs
    have ht : times = [] := ht
    subst hs ht
    exact ⟨List.nodup_nil, List.isChain_nil, fun c hc => by cases hc⟩
  step := by
    intro s op s' hk hstep
    cases hstep with
    | @mk t hop hclock hst =>
    obtain ⟨hsolo, hleaves⟩ := hok s op hop
    have hnodup := nodup_ready_step hk.nodup hsolo hst
    have hquiet : s.record h op = s.times → Keeps h gap ⟨t, op.now?.getD s.clock, s.record h op⟩ := by
      intro hrec
      rw [hrec]
      exact ⟨hnodup, hk.spaced, fun c hc => (hk.waits c hc).step hc hleaves hclock hst _⟩
    cases op with
    | claim now leaseMs =>
      by_cases hserves : serves h s.sys.shard now leaseMs = true
      · have hrec : s.record h (.claim now leaseMs) = now :: s.times := if_pos hserves
        rw [hrec]
        obtain ⟨u, p, hcl⟩ := serves_iff.1 hserves
        have hgap' : gap ≤ leaseMs := hleaves
        obtain ⟨h0, h1, h2⟩ := hsolo
        refine ⟨hnodup, hk.spaced.cons fun c hc => ?_, fun c hc => ?_⟩
        · obtain hpast | ⟨x, -, hg⟩ := (hk.waits c hc).gate
          · exact Int.le_trans hpast (hclock now rfl)
          · exact absurd hcl (hg.not_claimed now leaseMs u p)
        · cases hc
          refine ⟨⟨by omega, by omega⟩, Or.inr ⟨now + leaseMs, by omega, ?_⟩⟩
          have hg := gated_claim hk.nodup hcl
          simp only [Sys.step, Option.some.injEq] at hst
          rw [← hst, ← expiryOf_exact h0 h1 h2]
          exact hg
      · exact hquiet (if_neg hserves)
    | _ => exact hquiet rfl

theorem paced_reachable (hgap : 0 ≤ gap)
    (hok : ∀ s op, ok s op → SoloPromote s.sys op ∧ s.Leaves h gap op)
    (hs : (paced E h ok).Reachable s) : Spaced gap s.times :=
  ((keeps_inductive E h hgap hok).reachable s hs).spaced

end Paced

/-! ## The delay of the configuration -/

namespace RedisWakePlanner

variable (P : RedisWakePlanner) (h : Host)

/-- The delay in whole milliseconds. -/
def delayMs : Nat := P.effectiveHostDelay h / 10 ^ 6

/-- Without a delay anywhere no host has one: looking it up or not is the same. -/
theorem delay_eq :
    (if P.config.hasHostDelay then P.effectiveHostDelay h else 0) = P.effectiveHostDelay h := by
  split
  · rfl
  · rename_i hno
    simp only [PolitenessConfig.hasHostDelay, Bool.or_eq_true, bne_iff_ne, ne_eq, List.any_eq_true,
      not_or, not_not, not_exists, not_and] at hno
    obtain ⟨hzero, hover⟩ := hno
    unfold effectiveHostDelay
    cases hl : P.config.perDomain.lookup h with
    | none => simp [hzero]
    | some o =>
      obtain ⟨l₁, l₂, hl₁, -⟩ := List.lookup_eq_some_iff.1 hl
      cases o with
      | none => simp [hzero]
      | some d =>
        have hd := hover (h, some d) (by simp [hl₁])
        simpa using Eq.symm (by simpa using hd)

variable {P h}

/-- The plan of a fetch, as the wake script gets it. -/
theorem recordFetch_untilMs {ns : Int} {next : NextWake} (hp : P.recordFetch h ns = .ok next)
    (h0 : 0 ≤ ns) (hlt : ns + P.effectiveHostDelay h < 2 ^ 63 * 10 ^ 6) :
    ns / 10 ^ 6 + P.delayMs h ≤ asI64 next.untilMs := by
  unfold recordFetch at hp
  simp only [delay_eq] at hp
  split at hp
  · cases hp
    have hwake : ns + P.effectiveHostDelay h < 2 ^ 63 * 10 ^ 9 := by omega
    obtain ⟨n, rfl⟩ := Int.eq_ofNat_of_zero_le h0
    have hms : (n + P.effectiveHostDelay h) / 10 ^ 6 < 2 ^ 63 := by omega
    have hto : ((n : Int) + P.effectiveHostDelay h).toNat = n + P.effectiveHostDelay h := by omega
    have hmillis : (millis ((n : Int) + P.effectiveHostDelay h)).toNat =
        (n + P.effectiveHostDelay h) / 10 ^ 6 := by
      rw [millis, hto, UInt64.toNat_ofNat', Nat.mod_eq_of_lt (by omega)]
    have huntil : asI64 (millis ((n : Int) + P.effectiveHostDelay h)) =
        ((n + P.effectiveHostDelay h) / 10 ^ 6 : Nat) := by
      rw [asI64_of_lt (by rw [hmillis]; exact hms), hmillis]
    rw [if_pos hwake]
    dsimp only
    rw [huntil, delayMs]
    omega
  · cases hp

/-- What clients under this planner do: they hold a URL of the host for at least its delay, and
write the plan of a fetch made after the last claim of the host. -/
def Plans (P : RedisWakePlanner) (h : Host) (s : Paced β) : Op → Prop
  | .claim now leaseMs => SoloPromote s.sys (.claim now leaseMs) ∧ P.delayMs h ≤ leaseMs
  | .promote now limit => SoloPromote s.sys (.promote now limit)
  | .advanceWake x untilMs => x = h → ∃ ns next, P.recordFetch h ns = .ok next ∧
      asI64 next.untilMs = untilMs ∧ (∀ c ∈ s.times.head?, c ≤ ns / 10 ^ 6) ∧ 0 ≤ ns ∧
      ns + P.effectiveHostDelay h < 2 ^ 63 * 10 ^ 6
  | _ => True

theorem leaves_of_plans {s : Paced β} {op : Op} (hp : P.Plans h s op) :
    SoloPromote s.sys op ∧ s.Leaves h (P.delayMs h) op := by
  cases op with
  | claim now leaseMs => exact hp
  | promote now limit => exact ⟨hp, trivial⟩
  | advanceWake x untilMs =>
    refine ⟨trivial, fun hx c hc => ?_⟩
    obtain ⟨ns, next, hfetch, rfl, hafter, h0, hlt⟩ := hp hx
    have hplan := recordFetch_untilMs hfetch h0 hlt
    have hc := hafter c hc
    omega
  | _ => exact ⟨trivial, trivial⟩

end RedisWakePlanner

/-- **A host is handed out at its own pace.** In every run of a shard whose clients follow the
planner's fetch plans, whose promotes move no ready host and whose clock does not go back, two URLs
of the host are handed out at least its delay apart; so no `width` milliseconds see more than
`width / delay + 1` of them. -/
theorem host_rate (E : Env β) (P : RedisWakePlanner) (h : Host) (s : Paced β)
    (hs : (paced E h (P.Plans h)).Reachable s) :
    Spaced (P.delayMs h) s.times ∧ (0 < P.delayMs h → ∀ a width : Int, 0 ≤ width →
      (s.times.countP fun t => decide (a ≤ t ∧ t ≤ a + width) : Nat) ≤ width / P.delayMs h + 1) := by
  have hspaced : Spaced (P.delayMs h) s.times := Paced.paced_reachable (Int.natCast_nonneg _)
    (fun _ _ hp => RedisWakePlanner.leaves_of_plans hp) hs
  refine ⟨hspaced, fun hpos a width hw => ?_⟩
  exact hspaced.count_window (by exact_mod_cast hpos) a width hw

/-! ### A run -/

namespace Paced

/-- The state after an op that can be executed. -/
def apply (h : Host) (s : Paced (List UrlId)) (op : Op) : Paced (List UrlId) :=
  ⟨(s.sys.step .sample op).getD s.sys, op.now?.getD s.clock, s.record h op⟩

theorem Step.apply {h : Host} {ok : Paced (List UrlId) → Op → Prop} {s : Paced (List UrlId)} (op : Op)
    (hok : ok s op) (hclock : ∀ now ∈ op.now?, s.clock ≤ now) (hst : (s.sys.step .sample op).isSome) :
    Step .sample h ok s op (s.apply h op) := by
  obtain ⟨s', hs'⟩ := Option.isSome_iff_exists.1 hst
  have hmk : Step .sample h ok s op ⟨s', op.now?.getD s.clock, s.record h op⟩ := .mk hok hclock hs'
  rwa [Paced.apply, hs']

/-- Two URLs of `a.test`; one is claimed, and its host ready again. -/
def fetchedOnce : Paced (List UrlId) :=
  [Op.submit .a 0, .submit .a' 0, .promote 0 10, .claim 0 2000, .advanceWake "a.test" 1005,
    .promote 1005 10].foldl (apply "a.test") ⟨.init [], 0, []⟩

def delayed : RedisWakePlanner := ⟨⟨1, HostHashShardPolicy.one_shard⟩, [0], ⟨10 ^ 9, []⟩⟩

theorem reachable_fetchedOnce :
    (paced .sample "a.test" (delayed.Plans "a.test")).Reachable fetchedOnce := by
  have h0 : (paced .sample "a.test" (delayed.Plans "a.test")).Reachable ⟨.init [], 0, []⟩ :=
    .init ⟨⟨[], rfl⟩, rfl⟩
  have h1 := h0.step (Step.apply (.submit .a 0) trivial (by decide) (by decide))
  have h2 := h1.step (Step.apply (.submit .a' 0) trivial (by decide) (by decide))
  have h3 := h2.step (Step.apply (.promote 0 10)
    (show SoloPromote _ (.promote 0 10) by decide +kernel) (by decide) (by decide))
  have h4 := h3.step (Step.apply (.claim 0 2000)
    ⟨by decide +kernel, by decide +kernel⟩ (by decide) (by decide))
  have h5 := h4.step (Step.apply (.advanceWake "a.test" 1005)
    (fun _ => ⟨5 * 10 ^ 6, ⟨"a.test", 1005⟩, by decide +kernel, by decide, by decide +kernel, by decide,
      by decide +kernel⟩) (by decide) (by decide))
  exact h5.step (Step.apply (.promote 1005 10)
    (show SoloPromote _ (.promote 1005 10) by decide +kernel) (by decide) (by decide))

end Paced

/-- The second URL is handed out a second after the first. -/
theorem host_rate_second : Spaced 1000 [1006, 0] := by
  have hclaim := Paced.reachable_fetchedOnce.step (Paced.Step.apply (.claim 1006 2000)
    ⟨by decide +kernel, by decide +kernel⟩ (by decide +kernel) (by decide))
  have hrate := (host_rate .sample Paced.delayed "a.test" _ hclaim).1
  have htimes : (Paced.fetchedOnce.apply "a.test" (.claim 1006 2000)).times = [1006, 0] := by
    decide +kernel
  rw [htimes] at hrate
  exact hrate

end Crawlrs

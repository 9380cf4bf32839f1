import Crawlrs.Core.Duration
import Crawlrs.L4Runtime.Failure
import Mathlib.Algebra.Order.Field.Power
import Mathlib.Data.Rat.Floor
import Mathlib.Tactic.Linarith
import Mathlib.Tactic.NormNum

/-!
# The backoff of a failing host (`crawlrs-politeness/src/failure.rs`)

`computeBackoff` with the floating-point arithmetic read over exact rationals, in
seconds. Two steps leave the rationals: the failure count minus one is cast to `i32`,
and a product of 2^64 seconds or more is no `Duration`, for which the source takes
zero before it applies the cap.

* `computed_of_representable`: below both limits the backoff is the exact product,
  capped.
* `computed_of_overflow`: above the second it is zero.
* `computed_of_wrapped`: past 2^31 failures the exponent is negative.
* `never_shrinks_iff`: exactly when the backoff keeps growing.
-/
namespace Crawlrs

/-- Exact seconds. -/
def Duration.secs (d : Duration) : ℚ := d.nanos / 10 ^ 9

theorem Duration.secs_nonneg (d : Duration) : 0 ≤ d.secs := by
  unfold Duration.secs
  positivity

theorem Duration.secs_lt (d : Duration) : d.secs < 2 ^ 64 := by
  have h : (d.nanos : ℚ) < 2 ^ 64 * 10 ^ 9 := by exact_mod_cast d.fits
  rw [Duration.secs, div_lt_iff₀ (by norm_num)]
  exact h

/-- mirrors crates/crawlrs-politeness/src/config.rs:127-146 -/
structure BackoffPolicy where
  initialBackoff : Duration
  maxBackoff : Duration
  multiplier : ℚ
  failureThreshold : UInt32
deriving DecidableEq

/-- mirrors crates/crawlrs-politeness/src/config.rs:148-157 -/
def BackoffPolicy.default : BackoffPolicy := ⟨.ofSecs 30, .ofSecs 600, 2, 10⟩

/-- `as i32` of a `u32`. -/
def asI32 (n : UInt32) : Int := n.toInt32.toInt

/-- `Duration::try_from_secs_f64` of a value that is not negative. -/
def tryFromSecs (secs : ℚ) : Option ℚ := if secs < 2 ^ 64 then some secs else none

/-- Full strength where the server pushes back.
mirrors crates/crawlrs-politeness/src/failure.rs:45-55 -/
def FailureKind.scale : FailureKind → ℚ
  | .tooManyRequests | .serviceUnavailable | .connectReset => 1
  | _ => 1 / 2

namespace BackoffPolicy

variable (P : BackoffPolicy)

/-- mirrors crates/crawlrs-politeness/src/failure.rs:41-61 -/
def computed (failures : UInt32) (kind : FailureKind) : ℚ :=
  if failures = 0 then 0
  else
    let base := P.initialBackoff.secs
    let exponent := asI32 (failures - 1)
    let backoffSecs := base * kind.scale * P.multiplier ^ exponent
    min ((tryFromSecs (max backoffSecs 0)).getD 0) P.maxBackoff.secs

/-- mirrors crates/crawlrs-politeness/src/failure.rs:35-67 -/
def computeBackoff (failures : UInt32) (kind : FailureKind) (serverHint : Option Duration) : ℚ :=
  match serverHint with
  | some hint => max (P.computed failures kind) (min hint.secs P.maxBackoff.secs)
  | none => P.computed failures kind

/-! ## The product and its limits -/

/-- `initial * scale(kind) * multiplier^(n-1)`. -/
def exact (kind : FailureKind) (n : Nat) : ℚ :=
  P.initialBackoff.secs * kind.scale * P.multiplier ^ (n - 1)

/-- The product with the exponent `n - 1` wrapped to a negative `i32`. -/
def wrapped (kind : FailureKind) (n : Nat) : ℚ :=
  P.initialBackoff.secs * kind.scale * P.multiplier ^ ((n : Int) - 1 - 2 ^ 32)

/-- The exponent fits `i32` and the product a `Duration`. -/
def Representable (kind : FailureKind) (n : Nat) : Prop :=
  n ≤ 2 ^ 31 ∧ P.exact kind n < 2 ^ 64

end BackoffPolicy

theorem FailureKind.scale_pos (kind : FailureKind) : 0 < kind.scale := by
  cases kind <;> norm_num [FailureKind.scale]

theorem FailureKind.scale_le_one (kind : FailureKind) : kind.scale ≤ 1 := by
  cases kind <;> norm_num [FailureKind.scale]

theorem asI32_pred {n : UInt32} (h : 1 ≤ n.toNat) :
    asI32 (n - 1) = if n.toNat ≤ 2 ^ 31 then (n.toNat : Int) - 1 else (n.toNat : Int) - 1 - 2 ^ 32 := by
  have hpred : (n - 1).toNat = n.toNat - 1 := UInt32.toNat_sub_of_le _ _ h
  have hlt := n.toNat_lt
  have hbmod : asI32 (n - 1) = ((n.toNat : Int) - 1).bmod (2 ^ 32) := by
    show (n - 1).toInt32.toBitVec.toInt = _
    rw [BitVec.toInt_eq_toNat_bmod]
    show ((n - 1).toNat : Int).bmod (2 ^ 32) = _
    rw [hpred]
    congr 1
    omega
  rw [hbmod, Int.bmod_def]
  split <;> split <;> omega

namespace BackoffPolicy

variable {P : BackoffPolicy} {kind : FailureKind}

theorem base_nonneg : 0 ≤ P.initialBackoff.secs * kind.scale :=
  mul_nonneg P.initialBackoff.secs_nonneg kind.scale_pos.le

theorem base_lt : P.initialBackoff.secs * kind.scale < 2 ^ 64 :=
  calc P.initialBackoff.secs * kind.scale
      ≤ P.initialBackoff.secs * 1 :=
        mul_le_mul_of_nonneg_left kind.scale_le_one P.initialBackoff.secs_nonneg
    _ < 2 ^ 64 := by rw [mul_one]; exact P.initialBackoff.secs_lt

theorem exact_nonneg (hmul : 1 ≤ P.multiplier) (n : Nat) : 0 ≤ P.exact kind n :=
  mul_nonneg base_nonneg (pow_nonneg (by linarith) _)

theorem wrapped_nonneg (hmul : 1 ≤ P.multiplier) (n : Nat) : 0 ≤ P.wrapped kind n :=
  mul_nonneg base_nonneg (zpow_nonneg (by linarith) _)

theorem exact_mono (hmul : 1 ≤ P.multiplier) {m n : Nat} (h : m ≤ n) :
    P.exact kind m ≤ P.exact kind n :=
  mul_le_mul_of_nonneg_left (pow_le_pow_right₀ hmul (by omega)) base_nonneg

theorem wrapped_mono (hmul : 1 ≤ P.multiplier) {m n : Nat} (h : m ≤ n) :
    P.wrapped kind m ≤ P.wrapped kind n :=
  mul_le_mul_of_nonneg_left (zpow_le_zpow_right₀ hmul (by omega)) base_nonneg

/-- A negative exponent divides. -/
theorem wrapped_le_base (hmul : 1 ≤ P.multiplier) {n : Nat} (h : n < 2 ^ 32) :
    P.wrapped kind n ≤ P.initialBackoff.secs * kind.scale := by
  have hpow : P.multiplier ^ ((n : Int) - 1 - 2 ^ 32) ≤ 1 :=
    zpow_le_one_of_nonpos₀ hmul (by omega)
  calc P.wrapped kind n
      ≤ P.initialBackoff.secs * kind.scale * 1 := mul_le_mul_of_nonneg_left hpow base_nonneg
    _ = P.initialBackoff.secs * kind.scale := mul_one _

theorem exact_one : P.exact kind 1 = P.initialBackoff.secs * kind.scale := by
  simp [exact]

theorem base_le_exact (hmul : 1 ≤ P.multiplier) {n : Nat} (h : 1 ≤ n) :
    P.initialBackoff.secs * kind.scale ≤ P.exact kind n := by
  rw [← exact_one]
  exact exact_mono hmul h

/-! ## The three ways a count is handled -/

section
variable {n : UInt32} (hn : 1 ≤ n.toNat)
include hn

theorem computed_eq (v : ℚ) (hv : 0 ≤ v)
    (hexp : P.initialBackoff.secs * kind.scale * P.multiplier ^ asI32 (n - 1) = v) :
    P.computed n kind = min ((tryFromSecs v).getD 0) P.maxBackoff.secs := by
  have hne : n ≠ 0 := by
    rintro rfl
    exact absurd hn (by decide)
  simp only [computed]
  rw [if_neg hne, hexp, max_eq_left hv]

theorem exponent_small (h : n.toNat ≤ 2 ^ 31) :
    P.initialBackoff.secs * kind.scale * P.multiplier ^ asI32 (n - 1) = P.exact kind n.toNat := by
  rw [asI32_pred hn, if_pos h, exact, ← zpow_natCast, Nat.cast_sub hn]
  rfl

variable (hmul : 1 ≤ P.multiplier)
include hmul

theorem computed_of_representable (h : P.Representable kind n.toNat) :
    P.computed n kind = min (P.exact kind n.toNat) P.maxBackoff.secs := by
  rw [computed_eq hn _ (exact_nonneg hmul _) (exponent_small hn h.1), tryFromSecs,
    if_pos h.2, Option.getD_some]

theorem computed_of_overflow (h : n.toNat ≤ 2 ^ 31) (hover : 2 ^ 64 ≤ P.exact kind n.toNat) :
    P.computed n kind = 0 := by
  rw [computed_eq hn _ (exact_nonneg hmul _) (exponent_small hn h), tryFromSecs,
    if_neg (not_lt.2 hover), Option.getD_none, min_eq_left P.maxBackoff.secs_nonneg]

theorem computed_of_wrapped (h : 2 ^ 31 < n.toNat) :
    P.computed n kind = min (P.wrapped kind n.toNat) P.maxBackoff.secs := by
  have hexp : P.initialBackoff.secs * kind.scale * P.multiplier ^ asI32 (n - 1) =
      P.wrapped kind n.toNat := by
    rw [asI32_pred hn, if_neg (by omega), wrapped]
  have hlt : P.wrapped kind n.toNat < 2 ^ 64 :=
    lt_of_le_of_lt (wrapped_le_base hmul n.toNat_lt) base_lt
  rw [computed_eq hn _ (wrapped_nonneg hmul _) hexp, tryFromSecs, if_pos hlt, Option.getD_some]

omit hn in
theorem computed_first : P.computed 1 kind = min (P.exact kind 1) P.maxBackoff.secs := by
  have hone : (1 : UInt32).toNat = 1 := rfl
  have hrep : P.Representable kind (1 : UInt32).toNat := by
    refine ⟨by decide, ?_⟩
    rw [hone, exact_one]
    exact base_lt
  exact computed_of_representable (Nat.le_refl 1) hmul hrep

/-- The backoff never exceeds the capped product. -/
theorem computed_le : P.computed n kind ≤ min (P.exact kind n.toNat) P.maxBackoff.secs := by
  by_cases hsmall : n.toNat ≤ 2 ^ 31
  · by_cases hfit : P.exact kind n.toNat < 2 ^ 64
    · exact (computed_of_representable hn hmul ⟨hsmall, hfit⟩).le
    · rw [computed_of_overflow hn hmul hsmall (not_lt.1 hfit)]
      exact le_min (exact_nonneg hmul _) P.maxBackoff.secs_nonneg
  · rw [computed_of_wrapped hn hmul (by omega)]
    apply min_le_min_right
    exact (wrapped_le_base hmul n.toNat_lt).trans (base_le_exact hmul hn)

end

/-! ## When the backoff keeps growing -/

variable (P kind)

/-- What is asked of the backoff after `n` failures: no smaller count backs off longer, the cap
holds, the formula does without a hint, and a hint is a floor. -/
structure NeverShrinks (hint : Option Duration) (n : UInt32) : Prop where
  mono : ∀ m : UInt32, 1 ≤ m.toNat → m.toNat ≤ n.toNat →
    P.computeBackoff m kind hint ≤ P.computeBackoff n kind hint
  capped : P.computeBackoff n kind hint ≤ P.maxBackoff.secs
  formula : hint = none →
    P.computeBackoff n kind hint = min (P.exact kind n.toNat) P.maxBackoff.secs
  floor : ∀ d, hint = some d → min d.secs P.maxBackoff.secs ≤ P.computeBackoff n kind hint

/-- Nothing is lost past the limits: there is no backoff to grow, or the wrapped product still
reaches the cap. -/
def Degenerate (n : Nat) : Prop :=
  P.initialBackoff.secs = 0 ∨ P.maxBackoff.secs = 0 ∨ P.multiplier = 1 ∨
    2 ^ 31 < n ∧ P.maxBackoff.secs ≤ P.wrapped kind n

/-- The hint is no less than any backoff below `n` that does not run into a limit. -/
def HintCovers (hint : Option Duration) (n : Nat) : Prop :=
  ∃ d, hint = some d ∧ ∀ m, 1 ≤ m → m < n → P.Representable kind m →
    min (P.exact kind m) P.maxBackoff.secs ≤ d.secs

variable {P kind}

section
variable {n : UInt32} (hn : 1 ≤ n.toNat) (hmul : 1 ≤ P.multiplier)
include hn hmul

theorem computed_le_max : P.computed n kind ≤ P.maxBackoff.secs :=
  (computed_le hn hmul).trans (min_le_right _ _)

/-- Where the formula holds every part of the promise does. -/
theorem neverShrinks_of_formula (hint : Option Duration)
    (h : P.computed n kind = min (P.exact kind n.toNat) P.maxBackoff.secs) :
    P.NeverShrinks kind hint n := by
  have hle : ∀ m : UInt32, 1 ≤ m.toNat → m.toNat ≤ n.toNat →
      P.computed m kind ≤ P.computed n kind := by
    intro m hm hmn
    calc P.computed m kind
        ≤ min (P.exact kind m.toNat) P.maxBackoff.secs := computed_le hm hmul
      _ ≤ min (P.exact kind n.toNat) P.maxBackoff.secs := min_le_min_right _ (exact_mono hmul hmn)
      _ = P.computed n kind := h.symm
  cases hint with
  | none =>
    exact ⟨hle, computed_le_max hn hmul, fun _ => h, fun d hd => by cases hd⟩
  | some d =>
    refine ⟨?_, max_le (computed_le_max hn hmul) (min_le_right _ _), fun hd => (by cases hd), ?_⟩
    · intro m hm hmn
      exact max_le_max (hle m hm hmn) le_rfl
    · intro d' hd'
      cases hd'
      exact le_max_right _ _

theorem formula_of_degenerate (h : P.Degenerate kind n.toNat) :
    P.computed n kind = min (P.exact kind n.toNat) P.maxBackoff.secs := by
  have hle : P.computed n kind ≤ min (P.exact kind n.toNat) P.maxBackoff.secs := computed_le hn hmul
  have hnonneg : 0 ≤ P.computed n kind := by
    by_cases hsmall : n.toNat ≤ 2 ^ 31
    · by_cases hfit : P.exact kind n.toNat < 2 ^ 64
      · rw [computed_of_representable hn hmul ⟨hsmall, hfit⟩]
        exact le_min (exact_nonneg hmul _) P.maxBackoff.secs_nonneg
      · exact (computed_of_overflow hn hmul hsmall (not_lt.1 hfit)).ge
    · rw [computed_of_wrapped hn hmul (by omega)]
      exact le_min (wrapped_nonneg hmul _) P.maxBackoff.secs_nonneg
  rcases h with h | h | h | ⟨hbig, h⟩
  · have hz : P.exact kind n.toNat = 0 := by simp [exact, h]
    rw [hz, min_eq_left P.maxBackoff.secs_nonneg] at hle ⊢
    exact le_antisymm hle hnonneg
  · rw [h, min_eq_right (exact_nonneg hmul _)] at hle ⊢
    exact le_antisymm hle hnonneg
  · have hexact : P.exact kind n.toNat = P.initialBackoff.secs * kind.scale := by simp [exact, h]
    by_cases hsmall : n.toNat ≤ 2 ^ 31
    · exact computed_of_representable hn hmul ⟨hsmall, hexact ▸ base_lt⟩
    · rw [computed_of_wrapped hn hmul (by omega), hexact]
      simp [wrapped, h]
  · have hexact : P.maxBackoff.secs ≤ P.exact kind n.toNat :=
      h.trans ((wrapped_le_base hmul n.toNat_lt).trans (base_le_exact hmul hn))
    rw [computed_of_wrapped hn hmul hbig, min_eq_right h, min_eq_right hexact]

/-- Past a limit, and with something to lose, the backoff falls short of the formula. -/
theorem computed_lt (hrep : ¬ P.Representable kind n.toNat) (hdeg : ¬ P.Degenerate kind n.toNat) :
    P.computed n kind < min (P.exact kind 1) P.maxBackoff.secs := by
  simp only [Degenerate, not_or, not_and, not_le] at hdeg
  obtain ⟨hinit, hmax, hmul1, hwrap⟩ := hdeg
  have hinit' : 0 < P.initialBackoff.secs := lt_of_le_of_ne P.initialBackoff.secs_nonneg (Ne.symm hinit)
  have hmax' : 0 < P.maxBackoff.secs := lt_of_le_of_ne P.maxBackoff.secs_nonneg (Ne.symm hmax)
  have hbase : 0 < P.initialBackoff.secs * kind.scale := mul_pos hinit' kind.scale_pos
  rw [exact_one]
  by_cases hsmall : n.toNat ≤ 2 ^ 31
  · have hover : 2 ^ 64 ≤ P.exact kind n.toNat := by
      by_contra hlt
      exact hrep ⟨hsmall, not_le.1 hlt⟩
    rw [computed_of_overflow hn hmul hsmall hover]
    exact lt_min hbase hmax'
  · have hbig : 2 ^ 31 < n.toNat := by omega
    have hgt : 1 < P.multiplier := lt_of_le_of_ne hmul (Ne.symm hmul1)
    have hpow : P.multiplier ^ ((n.toNat : Int) - 1 - 2 ^ 32) < 1 := by
      have := n.toNat_lt
      exact zpow_lt_one_of_neg₀ hgt (by omega)
    have hlt : P.wrapped kind n.toNat < P.initialBackoff.secs * kind.scale :=
      calc P.wrapped kind n.toNat
          < P.initialBackoff.secs * kind.scale * 1 := mul_lt_mul_of_pos_left hpow hbase
        _ = P.initialBackoff.secs * kind.scale := mul_one _
    rw [computed_of_wrapped hn hmul hbig, min_eq_left (hwrap hbig).le]
    exact lt_min hlt (hwrap hbig)

/-- Below `n` a backoff is covered by the hint, zero, or wrapped as that of `n` is. -/
theorem computed_le_of_hintCovers {d : Duration} (h : P.HintCovers kind (some d) n.toNat)
    {m : UInt32} (hm : 1 ≤ m.toNat) (hmn : m.toNat < n.toNat) :
    P.computed m kind ≤ max (P.computed n kind) (min d.secs P.maxBackoff.secs) := by
  obtain ⟨d', hd', hcov⟩ := h
  cases hd'
  by_cases hrep : P.Representable kind m.toNat
  · apply le_max_of_le_right
    rw [computed_of_representable hm hmul hrep]
    exact le_min (hcov _ hm hmn hrep) (min_le_right _ _)
  · by_cases hsmall : m.toNat ≤ 2 ^ 31
    · have hover : 2 ^ 64 ≤ P.exact kind m.toNat := by
        by_contra hlt
        exact hrep ⟨hsmall, not_le.1 hlt⟩
      apply le_max_of_le_right
      rw [computed_of_overflow hm hmul hsmall hover]
      exact le_min d.secs_nonneg P.maxBackoff.secs_nonneg
    · apply le_max_of_le_left
      rw [computed_of_wrapped hm hmul (by omega), computed_of_wrapped hn hmul (by omega)]
      exact min_le_min_right _ (wrapped_mono hmul hmn.le)

theorem neverShrinks_of_hintCovers {hint : Option Duration}
    (h : P.HintCovers kind hint n.toNat) : P.NeverShrinks kind hint n := by
  obtain ⟨d, rfl, -⟩ := id h
  refine ⟨?_, max_le (computed_le_max hn hmul) (min_le_right _ _), fun hd => (by cases hd), ?_⟩
  · intro m hm hmn
    refine max_le ?_ (le_max_right _ _)
    rcases Nat.lt_or_eq_of_le hmn with hlt | heq
    · exact computed_le_of_hintCovers hn hmul h hm hlt
    · rw [UInt32.toNat_inj.1 heq]
      exact le_max_left _ _
  · intro d' hd'
    cases hd'
    exact le_max_right _ _

/-- Past a limit only a hint can hide the loss. -/
theorem hintCovers_of_neverShrinks {hint : Option Duration} (h : P.NeverShrinks kind hint n)
    (hrep : ¬ P.Representable kind n.toNat) (hdeg : ¬ P.Degenerate kind n.toNat) :
    P.HintCovers kind hint n.toNat := by
  have hlt := computed_lt hn hmul hrep hdeg
  cases hint with
  | none =>
    have hmono : min (P.exact kind 1) P.maxBackoff.secs ≤
        min (P.exact kind n.toNat) P.maxBackoff.secs := min_le_min_right _ (exact_mono hmul hn)
    rw [← h.formula rfl] at hmono
    exact absurd hmono (not_le.2 hlt)
  | some d =>
    have hstep : ∀ m : UInt32, 1 ≤ m.toNat → m.toNat ≤ n.toNat →
        P.computed m kind ≤ max (P.computed n kind) (min d.secs P.maxBackoff.secs) :=
      fun m hm hmn => (le_max_left _ _).trans (h.mono m hm hmn)
    -- the first backoff already exceeds that of `n`, so the hint is what it is compared with
    have hfirst := hstep 1 (Nat.le_refl 1) hn
    rw [computed_first hmul] at hfirst
    have hhint : P.computed n kind ≤ min d.secs P.maxBackoff.secs := by
      rcases le_max_iff.1 hfirst with hle | hle
      · exact absurd hle (not_le.2 hlt)
      · exact hlt.le.trans hle
    refine ⟨d, rfl, fun m hm hmn hm' => ?_⟩
    have hlt32 : m < 2 ^ 32 := hmn.trans n.toNat_lt
    have htoNat : (UInt32.ofNat m).toNat = m := UInt32.toNat_ofNat_of_lt hlt32
    have := hstep (UInt32.ofNat m) (by rwa [htoNat]) (by rw [htoNat]; exact hmn.le)
    rw [computed_of_representable (by rwa [htoNat]) hmul (by rwa [htoNat]), max_eq_right hhint,
      htoNat] at this
    exact this.trans (min_le_left _ _)

end

/-- **Backoff under repeated failures.** After `n` failures everything that is asked of the
backoff holds exactly when the exponent fits `i32` and the product a `Duration`, or there is
nothing to lose past these limits, or the server's hint covers what is lost. -/
theorem never_shrinks_iff (P : BackoffPolicy) (hmul : 1 ≤ P.multiplier) (kind : FailureKind)
    (hint : Option Duration) (n : UInt32) (hn : 1 ≤ n.toNat) : P.NeverShrinks kind hint n ↔
      P.Representable kind n.toNat ∨ P.Degenerate kind n.toNat ∨ P.HintCovers kind hint n.toNat := by
  constructor
  · intro h
    by_cases hrep : P.Representable kind n.toNat
    · exact Or.inl hrep
    · by_cases hdeg : P.Degenerate kind n.toNat
      · exact Or.inr (Or.inl hdeg)
      · exact Or.inr (Or.inr (hintCovers_of_neverShrinks hn hmul h hrep hdeg))
  · rintro (hrep | hdeg | hcov)
    · exact neverShrinks_of_formula hn hmul hint (computed_of_representable hn hmul hrep)
    · exact neverShrinks_of_formula hn hmul hint (formula_of_degenerate hn hmul hdeg)
    · exact neverShrinks_of_hintCovers hn hmul hcov

/-- Sixty failures under the default policy. -/
theorem never_shrinks_iff_sixty :
    BackoffPolicy.default.NeverShrinks .tooManyRequests none 60 :=
  (never_shrinks_iff .default (by decide) .tooManyRequests none 60 (by decide)).2
    (Or.inl ⟨by decide, by decide +kernel⟩)

theorem backoff_sixty : BackoffPolicy.default.computeBackoff 60 .tooManyRequests none = 600 := by
  decide +kernel

theorem backoff_sixtyOne : BackoffPolicy.default.computeBackoff 61 .tooManyRequests none = 0 := by
  decide +kernel

/-- At the 61st failure the product is no `Duration`, and the host may be fetched at once. -/
theorem not_neverShrinks_sixtyOne :
    ¬ BackoffPolicy.default.NeverShrinks .tooManyRequests none 61 := by
  intro h
  have hle := h.mono 60 (by decide) (by decide)
  rw [backoff_sixty, backoff_sixtyOne] at hle
  exact absurd hle (by norm_num)

end BackoffPolicy

end Crawlrs

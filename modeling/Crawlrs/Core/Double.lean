import Mathlib.Data.Nat.Log
import Mathlib.Tactic.Ring

/-!
# Integers through IEEE 754 binary64

A Lua number and a Redis sorted-set score are doubles. An integer handed to
either is rounded to the nearest multiple of its unit in the last place, ties
to even; every integer of magnitude at most 2^53 survives unchanged. `f64` is
that rounding on `Int` (the values here stay far below 2^1024, so no
infinities arise and sums of integers are integers).

* `f64_mono`: rounding is monotone, so it never reverses a comparison.
* `f64_exact`: it is the identity up to 2^53.
* `f64_nonneg`: it keeps the sign.
* `lt_leastDouble`: where a comparison with a bound turns.
-/
namespace Crawlrs

/-- `n / 2^e` to the nearest integer, ties to even. -/
def rne (n e : Nat) : Nat :=
  if 2 ^ e < 2 * (n % 2 ^ e) ∨ (2 * (n % 2 ^ e) = 2 ^ e ∧ n / 2 ^ e % 2 = 1) then n / 2 ^ e + 1
  else n / 2 ^ e

/-- The magnitude of a double: 53 significant bits. -/
def roundNat (n : Nat) : Nat :=
  if n < 2 ^ 53 then n else rne n (Nat.log2 n - 52) * 2 ^ (Nat.log2 n - 52)

/-- An integer as a double. -/
def f64 (z : Int) : Int := if z < 0 then -(roundNat z.natAbs : Int) else (roundNat z.natAbs : Int)

/-! ## Nearest multiple -/

theorem le_rne (n e : Nat) : n / 2 ^ e ≤ rne n e := by
  unfold rne; split <;> omega

theorem rne_le (n e : Nat) : rne n e ≤ n / 2 ^ e + 1 := by
  unfold rne; split <;> omega

theorem rne_mono {n m : Nat} (e : Nat) (h : n ≤ m) : rne n e ≤ rne m e := by
  have hq : n / 2 ^ e ≤ m / 2 ^ e := Nat.div_le_div_right h
  rcases Nat.lt_or_eq_of_le hq with hlt | heq
  · exact Nat.le_trans (rne_le n e) (Nat.le_trans hlt (le_rne m e))
  · have hr : n % 2 ^ e ≤ m % 2 ^ e := by
      have h1 := Nat.div_add_mod n (2 ^ e)
      have h2 := Nat.div_add_mod m (2 ^ e)
      rw [heq] at h1; omega
    unfold rne
    rw [heq]
    split
    · split <;> omega
    · split <;> omega

/-! ## Binades -/

theorem log2_bounds {n : Nat} (h : n ≠ 0) : 2 ^ Nat.log2 n ≤ n ∧ n < 2 ^ (Nat.log2 n + 1) :=
  ⟨Nat.log2_self_le h, Nat.lt_log2_self⟩

theorem log2_ge {n : Nat} (h : ¬ n < 2 ^ 53) : 53 ≤ Nat.log2 n :=
  (Nat.le_log2 (by omega)).2 (by omega)

theorem roundNat_of_lt {n : Nat} (h : n < 2 ^ 53) : roundNat n = n := if_pos h

/-- A double lies in the closed binade of the number it rounds. -/
theorem roundNat_binade {n : Nat} (h : ¬ n < 2 ^ 53) :
    2 ^ Nat.log2 n ≤ roundNat n ∧ roundNat n ≤ 2 ^ (Nat.log2 n + 1) := by
  have hl := log2_ge h
  obtain ⟨h1, h2⟩ := log2_bounds (n := n) (by omega)
  unfold roundNat
  rw [if_neg h]
  generalize hk : Nat.log2 n = k at *
  have hsplit : 2 ^ k = 2 ^ 52 * 2 ^ (k - 52) := by rw [← Nat.pow_add]; congr 1; omega
  have hsplit' : 2 ^ (k + 1) = 2 ^ 53 * 2 ^ (k - 52) := by rw [← Nat.pow_add]; congr 1; omega
  constructor
  · rw [hsplit] at h1 ⊢
    exact Nat.mul_le_mul_right _
      (Nat.le_trans ((Nat.le_div_iff_mul_le (Nat.two_pow_pos _)).2 h1) (le_rne n _))
  · rw [hsplit'] at h2 ⊢
    have hq : n / 2 ^ (k - 52) < 2 ^ 53 := (Nat.div_lt_iff_lt_mul (Nat.two_pow_pos _)).2 h2
    exact Nat.mul_le_mul_right _ (Nat.le_trans (rne_le n _) hq)

theorem roundNat_mono : Monotone roundNat := by
  intro n m h
  by_cases hn : n < 2 ^ 53
  · by_cases hm : m < 2 ^ 53
    · rw [roundNat_of_lt hn, roundNat_of_lt hm]; exact h
    · have h1 := (roundNat_binade hm).1
      have h2 : 2 ^ 53 ≤ 2 ^ Nat.log2 m := Nat.pow_le_pow_right (by decide) (log2_ge hm)
      have h3 := roundNat_of_lt hn
      omega
  · have hm : ¬ m < 2 ^ 53 := by omega
    have hlog : Nat.log2 n ≤ Nat.log2 m := by
      have := (log2_bounds (n := n) (by omega)).1
      exact (Nat.le_log2 (by omega)).2 (Nat.le_trans this h)
    rcases Nat.lt_or_eq_of_le hlog with hlt | heq
    · -- different binades: the power of two between them separates the results
      have h1 := (roundNat_binade hn).2
      have h2 := (roundNat_binade hm).1
      have h3 : 2 ^ (Nat.log2 n + 1) ≤ 2 ^ Nat.log2 m := Nat.pow_le_pow_right (by decide) hlt
      omega
    · unfold roundNat
      rw [if_neg hn, if_neg hm, heq]
      exact Nat.mul_le_mul_right _ (rne_mono _ h)

theorem roundNat_exact {n : Nat} (h : n ≤ 2 ^ 53) : roundNat n = n := by
  rcases Nat.lt_or_eq_of_le h with hlt | rfl
  · exact roundNat_of_lt hlt
  · decide

/-- Rounding loses less than half of the number. -/
theorem le_two_mul_roundNat (n : Nat) : n ≤ 2 * roundNat n := by
  by_cases h : n < 2 ^ 53
  · have := roundNat_of_lt h; omega
  · have h1 := (roundNat_binade h).1
    have h2 := (log2_bounds (n := n) (by omega)).2
    rw [Nat.pow_succ] at h2
    omega

/-! ## Integers -/

theorem f64_of_nonneg {z : Int} (h : 0 ≤ z) : f64 z = (roundNat z.toNat : Int) := by
  have : z.natAbs = z.toNat := by omega
  simp [f64, not_lt.2 h, this]

theorem f64_nonneg {z : Int} (h : 0 ≤ z) : 0 ≤ f64 z := by
  rw [f64_of_nonneg h]; omega

theorem f64_mono {a b : Int} (h : a ≤ b) : f64 a ≤ f64 b := by
  unfold f64
  split
  · split
    · have : roundNat b.natAbs ≤ roundNat a.natAbs := roundNat_mono (by omega)
      omega
    · omega
  · split
    · omega
    · have : roundNat a.natAbs ≤ roundNat b.natAbs := roundNat_mono (by omega)
      omega

theorem f64_exact {z : Int} (h : z.natAbs ≤ 2 ^ 53) : f64 z = z := by
  unfold f64
  rw [roundNat_exact h]
  split <;> omega

theorem f64_nonneg_iff {z : Int} : 0 ≤ f64 z ↔ 0 ≤ z := by
  constructor
  · intro h
    by_contra hz
    have h1 : f64 z ≤ f64 (-1) := f64_mono (by omega)
    have h2 : f64 (-1) = -1 := f64_exact (by decide)
    omega
  · exact f64_nonneg

/-! ## Comparing with a bound

Two integers are compared as doubles, so a bound is passed as soon as the other side rounds to it. -/

/-- The least number that is not below `c` as a double. -/
def leastDouble (c : Nat) : Nat :=
  Nat.find (p := fun n => f64 c ≤ f64 n) ⟨c, Int.le_refl _⟩

theorem lt_leastDouble {n c : Nat} : n < leastDouble c ↔ f64 n < f64 c := by
  constructor
  · intro h
    exact Int.not_le.1 (Nat.find_min (p := fun n => f64 c ≤ f64 n) ⟨c, Int.le_refl _⟩ h)
  · intro h
    rw [leastDouble, Nat.lt_find_iff]
    intro m hm hle
    have := f64_mono (Int.ofNat_le.2 hm)
    omega

theorem leastDouble_le (c : Nat) : leastDouble c ≤ c := Nat.find_min' _ (Int.le_refl _)

/-- A bound is passed early exactly where it shares its double with its predecessor. -/
theorem leastDouble_eq {c : Nat} : leastDouble c = c ↔ c = 0 ∨ f64 (c - 1 : Nat) < f64 c := by
  have hle := leastDouble_le c
  rw [← lt_leastDouble]
  omega

theorem leastDouble_exact {c : Nat} (h : c ≤ 2 ^ 53) : leastDouble c = c := by
  rw [leastDouble_eq]
  rcases Nat.eq_zero_or_pos c with hc | hc
  · exact .inl hc
  · right
    rw [f64_exact (by omega), f64_exact (by omega)]
    omega

/-- Some integer rounds to a double at or above any bound. -/
theorem exists_le_f64 (x : Int) : ∃ z, 0 ≤ z ∧ x ≤ f64 z := by
  refine ⟨2 * x.natAbs, by omega, ?_⟩
  rw [f64_of_nonneg (by omega)]
  have := le_two_mul_roundNat (2 * x.natAbs : Int).toNat
  omega

end Crawlrs

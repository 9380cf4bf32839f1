import Mathlib.Algebra.Ring.Nat
import Mathlib.Order.Lattice
import Mathlib.Order.Defs.LinearOrder
import Mathlib.Data.Nat.Basic

/-!
# Spans of time and checked machine arithmetic

`Duration` is a span in nanoseconds below 2^64 seconds, so every value is one the
machine type can hold. Unsigned operations that panic on overflow answer `none`.
-/
namespace Crawlrs

/-- `std::time::Duration`. -/
structure Duration where
  nanos : Nat
  fits : nanos < 2 ^ 64 * 10 ^ 9
deriving DecidableEq

namespace Duration

theorem nanos_injective : Function.Injective nanos := by
  intro a b h
  cases a; cases b
  simpa using h

instance : LinearOrder Duration := LinearOrder.lift' nanos nanos_injective

theorem le_def {a b : Duration} : a ≤ b ↔ a.nanos ≤ b.nanos := Iff.rfl

theorem min_nanos (a b : Duration) : (min a b).nanos = min a.nanos b.nanos := by
  rcases le_total a b with h | h
  · rw [min_eq_left h, Nat.min_eq_left h]
  · rw [min_eq_right h, Nat.min_eq_right h]

/-- `Duration::MAX`. -/
def max : Duration := ⟨2 ^ 64 * 10 ^ 9 - 1, by decide⟩

def asMillis (d : Duration) : Nat := d.nanos / 10 ^ 6

def asSecs (d : Duration) : Nat := d.nanos / 10 ^ 9

def ofMillis (ms : UInt64) : Duration :=
  ⟨ms.toNat * 10 ^ 6, by have := ms.toNat_lt; omega⟩

def ofSecs (secs : UInt64) : Duration :=
  ⟨secs.toNat * 10 ^ 9, by have := secs.toNat_lt; omega⟩

def saturatingMul (d : Duration) (n : UInt32) : Duration :=
  ⟨min (d.nanos * n.toNat) max.nanos, Nat.lt_of_le_of_lt (Nat.min_le_right _ _) max.fits⟩

end Duration

namespace Checked

/-- `a + b`, a panic on overflow. -/
def add (a b : UInt32) : Option UInt32 := if a.toNat + b.toNat < 2 ^ 32 then some (a + b) else none

/-- `u32::checked_shl`. -/
def shl (a n : UInt32) : Option UInt32 := if n < 32 then some (a <<< n) else none

theorem add_one {a b : UInt32} (h : a < b) : ∃ c, add a 1 = some c ∧ c.toNat = a.toNat + 1 := by
  have ha : a.toNat < b.toNat := h
  have hb := b.toNat_lt
  have hlt : a.toNat + (1 : UInt32).toNat < 2 ^ 32 := by
    show a.toNat + 1 < 2 ^ 32
    omega
  refine ⟨a + 1, by rw [add, if_pos hlt], ?_⟩
  rw [UInt32.toNat_add, Nat.mod_eq_of_lt hlt]
  rfl

/-- A shift of one past the width saturates. -/
theorem shl_one_getD (n : UInt32) :
    ((shl 1 n).getD ⟨2 ^ 32 - 1, by decide⟩).toNat = min (2 ^ n.toNat) (2 ^ 32 - 1) := by
  unfold shl
  split
  · rename_i h
    have hn : n.toNat < 32 := h
    have hpow : 2 ^ n.toNat ≤ 2 ^ 31 := Nat.pow_le_pow_right (by decide) (by omega)
    rw [Option.getD_some, UInt32.toNat_shiftLeft, Nat.mod_eq_of_lt hn, Nat.shiftLeft_eq]
    have h1 : (1 : UInt32).toNat = 1 := rfl
    rw [h1, Nat.one_mul, Nat.mod_eq_of_lt (by omega)]
    omega
  · rename_i h
    have hn : 32 ≤ n.toNat := Nat.le_of_not_lt h
    have hpow : 2 ^ 32 ≤ 2 ^ n.toNat := Nat.pow_le_pow_right (by decide) hn
    rw [Option.getD_none]
    show 2 ^ 32 - 1 = _
    omega

end Checked

end Crawlrs

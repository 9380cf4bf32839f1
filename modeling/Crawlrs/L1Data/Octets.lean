import Mathlib.Algebra.Ring.Nat
import Mathlib.Data.List.Basic
import Mathlib.Data.List.Infix

/-!
# Percent-encoded octets (`url.rs`)

`decode_unreserved_percent_octets` reads its text once, from left to right: an
octet it decodes is never looked at again. Where the text after a bare `%` spells
two hex digits partly with octets of their own (`%%34%31`), the pass leaves an
octet behind (`%41`) that a second pass decodes.

* `decode_eq_self_iff`: the texts a pass leaves alone.
* `decode_decode_iff`: the texts for which one pass is enough are the ones without
  a nested octet.
-/
namespace Crawlrs.Url

/-- mirrors crates/crawlrs-core/src/url.rs:278-285 -/
def hexDigit (c : Char) : Option Nat :=
  if '0' ≤ c ∧ c ≤ '9' then some (c.toNat - '0'.toNat)
  else if 'a' ≤ c ∧ c ≤ 'f' then some (c.toNat - 'a'.toNat + 10)
  else if 'A' ≤ c ∧ c ≤ 'F' then some (c.toNat - 'A'.toNat + 10)
  else none

/-- mirrors crates/crawlrs-core/src/url.rs:287-291 -/
def isRfc3986Unreserved (c : Char) : Bool :=
  decide ('A' ≤ c ∧ c ≤ 'Z') || decide ('a' ≤ c ∧ c ≤ 'z') || decide ('0' ≤ c ∧ c ≤ '9') ||
    c == '-' || c == '.' || c == '_' || c == '~'

/-- The character `%ab` stands for, where both are hex digits and it is unreserved. -/
def octet (a b : Char) : Option Char :=
  match hexDigit a, hexDigit b with
  | some hi, some lo =>
    let byte := Char.ofNat (hi * 16 + lo)
    if isRfc3986Unreserved byte then some byte else none
  | _, _ => none

/-- The paths this is given are ASCII: a byte is a character.
mirrors crates/crawlrs-core/src/url.rs:253-276 (`decode_unreserved_percent_octets`) -/
def decodeUnreservedPercentOctets : List Char → List Char
  | '%' :: a :: b :: rest =>
    match octet a b with
    | some c => c :: decodeUnreservedPercentOctets rest
    | none => '%' :: decodeUnreservedPercentOctets (a :: b :: rest)
  | c :: rest => c :: decodeUnreservedPercentOctets rest
  | [] => []


/-! ## One octet -/

theorem ne_percent_of_hexDigit {c : Char} {n : Nat} (h : hexDigit c = some n) : c ≠ '%' := by
  rintro rfl
  simp [show hexDigit '%' = none from by decide] at h

theorem octet_digits {a b c : Char} (h : octet a b = some c) :
    (∃ n, hexDigit a = some n) ∧ (∃ n, hexDigit b = some n) ∧ isRfc3986Unreserved c = true := by
  unfold octet at h
  split at h
  · rename_i hi lo ha hb
    dsimp only at h
    split at h
    · rename_i hu
      cases h
      exact ⟨⟨hi, ha⟩, ⟨lo, hb⟩, hu⟩
    · cases h
  · cases h

theorem octet_ne_percent {a b c : Char} (h : octet a b = some c) : a ≠ '%' ∧ b ≠ '%' ∧ c ≠ '%' := by
  obtain ⟨⟨m, ha⟩, ⟨n, hb⟩, hc⟩ := octet_digits h
  refine ⟨ne_percent_of_hexDigit ha, ne_percent_of_hexDigit hb, ?_⟩
  rintro rfl
  exact absurd hc (by decide)

/-! ## One pass -/

/-- The text starts with an octet the pass decodes. -/
def startsOctet : List Char → Bool
  | '%' :: a :: b :: _ => (octet a b).isSome
  | _ => false

@[simp] theorem decode_nil : decodeUnreservedPercentOctets [] = [] := rfl

theorem decode_octet {a b c : Char} {rest : List Char} (h : octet a b = some c) :
    decodeUnreservedPercentOctets ('%' :: a :: b :: rest) =
      c :: decodeUnreservedPercentOctets rest := by
  rw [decodeUnreservedPercentOctets, h]

theorem decode_plain {c : Char} {rest : List Char} (h : startsOctet (c :: rest) = false) :
    decodeUnreservedPercentOctets (c :: rest) = c :: decodeUnreservedPercentOctets rest := by
  rw [decodeUnreservedPercentOctets.eq_def]
  split
  · rename_i a b rest' he
    cases he
    have hnone : octet a b = none := by simpa [startsOctet] using h
    rw [hnone]
  · rename_i he
    cases he
    rfl
  · rename_i he
    cases he

theorem startsOctet_of_ne {c : Char} {rest : List Char} (h : c ≠ '%') :
    startsOctet (c :: rest) = false := by
  unfold startsOctet
  split
  · rename_i he
    cases he
    exact absurd rfl h
  · rfl

/-- Induction along the pass. -/
theorem octet_induction {P : List Char → Prop} (nil : P [])
    (octet : ∀ a b c rest, octet a b = some c → P rest → P ('%' :: a :: b :: rest))
    (plain : ∀ c rest, startsOctet (c :: rest) = false → P rest → P (c :: rest)) (s : List Char) :
    P s := by
  fun_induction decodeUnreservedPercentOctets s with
  | case1 a b rest c h ih => exact octet a b c rest h ih
  | case2 a b rest h ih => exact plain '%' (a :: b :: rest) (by simp [startsOctet, h]) ih
  | case3 c rest hne ih =>
    refine plain c rest ?_ ih
    unfold startsOctet
    split
    · rename_i a b rest' he
      cases he
      exact (hne a b rest' rfl rfl).elim
    · rfl
  | case4 => exact nil

theorem length_decode_le (s : List Char) : (decodeUnreservedPercentOctets s).length ≤ s.length := by
  induction s using octet_induction with
  | nil => exact Nat.le_refl _
  | octet a b c rest h ih =>
    rw [decode_octet h]
    simp only [List.length_cons]
    omega
  | plain c rest h ih =>
    rw [decode_plain h]
    simpa using ih

/-- A pass that changes something makes the text shorter. -/
theorem length_decode_lt {s : List Char} (h : decodeUnreservedPercentOctets s ≠ s) :
    (decodeUnreservedPercentOctets s).length < s.length := by
  induction s using octet_induction with
  | nil => exact absurd rfl h
  | octet a b c rest hc ih =>
    rw [decode_octet hc]
    have hle := length_decode_le rest
    simp only [List.length_cons]
    omega
  | plain c rest hc ih =>
    rw [decode_plain hc] at h ⊢
    simp only [ne_eq, List.cons.injEq, true_and] at h
    simpa using ih h

/-- Somewhere in the text is an octet the pass decodes. -/
def HasOctet (s : List Char) : Prop := ∃ pre post, s = pre ++ post ∧ startsOctet post = true

/-- What holds of a suffix of `c :: s` holds of the whole or of a suffix of `s`. -/
theorem exists_suffix_cons {Q : List Char → Prop} {c : Char} {s : List Char} :
    (∃ pre post, c :: s = pre ++ post ∧ Q post) ↔
      Q (c :: s) ∨ ∃ pre post, s = pre ++ post ∧ Q post := by
  constructor
  · rintro ⟨pre, post, he, hq⟩
    cases pre with
    | nil =>
      rw [List.nil_append] at he
      exact Or.inl (he ▸ hq)
    | cons d pre =>
      simp only [List.cons_append, List.cons.injEq] at he
      exact Or.inr ⟨pre, post, he.2, hq⟩
  · rintro (hq | ⟨pre, post, rfl, hq⟩)
    · exact ⟨[], _, rfl, hq⟩
    · exact ⟨c :: pre, post, rfl, hq⟩

theorem hasOctet_cons {c : Char} {s : List Char} :
    HasOctet (c :: s) ↔ startsOctet (c :: s) = true ∨ HasOctet s := exists_suffix_cons

theorem not_hasOctet_nil : ¬ HasOctet [] := by
  rintro ⟨pre, post, he, hs⟩
  obtain ⟨-, rfl⟩ := List.append_eq_nil_iff.1 he.symm
  cases hs

/-- The pass leaves a text alone where it has no octet to decode. -/
theorem decode_eq_self_iff (s : List Char) :
    decodeUnreservedPercentOctets s = s ↔ ¬ HasOctet s := by
  induction s using octet_induction with
  | nil => simp [not_hasOctet_nil]
  | octet a b c rest h ih =>
    have hne : c ≠ '%' := (octet_ne_percent h).2.2
    have hoct : startsOctet ('%' :: a :: b :: rest) = true := by simp [startsOctet, h]
    simp [decode_octet h, hasOctet_cons, hoct, hne]
  | plain c rest h ih => simp [decode_plain h, hasOctet_cons, h, ih]

/-! ## Octets within octets -/

/-- A character, written as itself or as the octet that stands for it. -/
def Spells (e : List Char) (c : Char) : Prop := e = [c] ∨ ∃ a b, e = ['%', a, b] ∧ octet a b = some c

/-- A bare `%`, then two hex digits of an octet the pass would decode, not both written as
themselves. -/
def StartsNested (s : List Char) : Prop := ∃ e₁ e₂ rest a b, s = '%' :: (e₁ ++ (e₂ ++ rest)) ∧
  Spells e₁ a ∧ Spells e₂ b ∧ (octet a b).isSome = true ∧ (e₁ ≠ [a] ∨ e₂ ≠ [b])

def Nested (s : List Char) : Prop := ∃ pre post, s = pre ++ post ∧ StartsNested post

theorem nested_cons {c : Char} {s : List Char} :
    Nested (c :: s) ↔ StartsNested (c :: s) ∨ Nested s := exists_suffix_cons

theorem not_nested_nil : ¬ Nested [] := by
  rintro ⟨pre, post, he, e₁, e₂, rest, a, b, hs, -⟩
  obtain ⟨-, rfl⟩ := List.append_eq_nil_iff.1 he.symm
  cases hs

theorem startsNested_percent {c : Char} {s : List Char} (h : StartsNested (c :: s)) : c = '%' := by
  obtain ⟨e₁, e₂, rest, a, b, hs, -⟩ := h
  cases hs
  rfl

/-- A digit that is not written as itself starts with `%`. -/
theorem Spells.head {e s s' : List Char} {a c : Char} (h : Spells e c) (hs : e ++ s = a :: s')
    (ha : a ≠ '%') : e = [c] ∧ a = c ∧ s = s' := by
  rcases h with rfl | ⟨x, y, rfl, -⟩
  · cases hs
    exact ⟨rfl, rfl, rfl⟩
  · cases hs
    exact absurd rfl ha

theorem not_startsNested_octet {a b c : Char} {rest : List Char} (h : octet a b = some c) :
    ¬ StartsNested ('%' :: a :: b :: rest) := by
  rintro ⟨e₁, e₂, rest', x, y, hs, h1, h2, -, hne⟩
  obtain ⟨ha, hb, -⟩ := octet_ne_percent h
  simp only [List.cons.injEq, true_and] at hs
  obtain ⟨he1, -, hs'⟩ := h1.head hs.symm ha
  obtain ⟨he2, -, -⟩ := h2.head hs' hb
  exact hne.elim (· he1) (· he2)

/-- The first character of a decoded text, and how it was written. -/
theorem decode_eq_cons {s t : List Char} {c : Char}
    (h : decodeUnreservedPercentOctets s = c :: t) :
    ∃ e rest, s = e ++ rest ∧ Spells e c ∧ decodeUnreservedPercentOctets rest = t := by
  induction s using octet_induction with
  | nil => cases h
  | octet a b d rest hd _ =>
    rw [decode_octet hd] at h
    cases h
    exact ⟨['%', a, b], rest, rfl, Or.inr ⟨a, b, rfl, hd⟩, rfl⟩
  | plain d rest hd _ =>
    rw [decode_plain hd] at h
    cases h
    exact ⟨[c], rest, rfl, Or.inl rfl, rfl⟩

theorem decode_spells {e rest : List Char} {c : Char} (h : Spells e c) (hc : c ≠ '%') :
    decodeUnreservedPercentOctets (e ++ rest) = c :: decodeUnreservedPercentOctets rest := by
  rcases h with rfl | ⟨a, b, rfl, hab⟩
  · exact decode_plain (startsOctet_of_ne hc)
  · exact decode_octet hab

/-- A bare `%` starts an octet of the decoded text where it started a nested one. -/
theorem startsOctet_decode_iff {rest : List Char} (h : startsOctet ('%' :: rest) = false) :
    startsOctet ('%' :: decodeUnreservedPercentOctets rest) = true ↔ StartsNested ('%' :: rest) := by
  constructor
  · intro hs
    unfold startsOctet at hs
    split at hs
    · rename_i a b t he
      simp only [List.cons.injEq, true_and] at he
      obtain ⟨e₁, rest₁, rfl, h1, hd⟩ := decode_eq_cons he
      obtain ⟨e₂, rest₂, rfl, h2, -⟩ := decode_eq_cons hd
      refine ⟨e₁, e₂, rest₂, a, b, rfl, h1, h2, hs, ?_⟩
      by_contra hboth
      obtain ⟨rfl, rfl⟩ : e₁ = [a] ∧ e₂ = [b] := by simpa using hboth
      simp [startsOctet, hs] at h
    · cases hs
  · rintro ⟨e₁, e₂, rest', a, b, hs, h1, h2, hab, -⟩
    obtain ⟨c, hc⟩ := Option.isSome_iff_exists.1 hab
    obtain ⟨ha, hb, -⟩ := octet_ne_percent hc
    simp only [List.cons.injEq, true_and] at hs
    rw [hs, decode_spells h1 ha, decode_spells h2 hb]
    simp [startsOctet, hc]

theorem hasOctet_decode_iff (s : List Char) :
    HasOctet (decodeUnreservedPercentOctets s) ↔ Nested s := by
  induction s using octet_induction with
  | nil => simp [not_hasOctet_nil, not_nested_nil]
  | octet a b c rest h ih =>
    obtain ⟨ha, hb, hc⟩ := octet_ne_percent h
    have h1 : ¬ StartsNested (a :: b :: rest) := fun hn => ha (startsNested_percent hn)
    have h2 : ¬ StartsNested (b :: rest) := fun hn => hb (startsNested_percent hn)
    rw [decode_octet h, hasOctet_cons, startsOctet_of_ne hc, nested_cons, nested_cons, nested_cons, ih]
    simp [not_startsNested_octet h, h1, h2]
  | plain c rest h ih =>
    rw [decode_plain h, hasOctet_cons, nested_cons, ih]
    refine or_congr ?_ Iff.rfl
    by_cases hc : c = '%'
    · subst hc
      exact startsOctet_decode_iff h
    · have hn : ¬ StartsNested (c :: rest) := fun hn => hc (startsNested_percent hn)
      simp [startsOctet_of_ne hc, hn]

/-- One pass is enough for the texts without nested octets. -/
theorem decode_decode_iff (s : List Char) :
    decodeUnreservedPercentOctets (decodeUnreservedPercentOctets s) =
      decodeUnreservedPercentOctets s ↔ ¬ Nested s := by
  rw [decode_eq_self_iff, hasOctet_decode_iff]

end Crawlrs.Url

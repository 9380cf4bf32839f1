import Crawlrs.Core.Runs

/-!
# Text

The methods of `char` and `str` that the classifier, the parser, the seed loader and
the stores share, over lists of characters.
-/
namespace Crawlrs

/-- `char::is_whitespace`: the Unicode property `White_Space`, which is what `str::trim` strips. -/
def isWhitespace (c : Char) : Bool :=
  decide (0x09 ≤ c.toNat ∧ c.toNat ≤ 0x0D) || decide (0x2000 ≤ c.toNat ∧ c.toNat ≤ 0x200A) ||
    [0x20, 0x85, 0xA0, 0x1680, 0x2028, 0x2029, 0x202F, 0x205F, 0x3000].contains c.toNat

/-- `to_ascii_lowercase`. -/
def asciiLowercase (text : List Char) : List Char := text.map Char.toLower

/-- `eq_ignore_ascii_case`. -/
def eqIgnoreAsciiCase (a b : List Char) : Bool := asciiLowercase a == asciiLowercase b

end Crawlrs

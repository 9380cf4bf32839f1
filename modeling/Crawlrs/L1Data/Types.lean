import Mathlib.Algebra.Ring.Nat
import Mathlib.Logic.Encodable.Basic
import Mathlib.Logic.Equiv.List

/-!
# Data that flows between the stages (`crawlrs-core/src/types.rs`, `url.rs`)

`UrlId` is the 16-byte content address of a canonical URL and `UrlEntry` one
frontier item. BLAKE3, postcard and the server's rendering of a score are code
the crawler only calls; `Wire` carries them with the laws it relies on.

* `fromHex_toHex`: the hex rendering of an id reads back as that id.
* `pipe_notMem_toHex`: the rendering contains no `|`, the separator of every
  composite token.
-/
namespace Crawlrs

abbrev Host := String

/-- mirrors crates/crawlrs-core/src/traits/sharding.rs:17 (`ShardKey`) -/
abbrev ShardKey := UInt32

abbrev Bytes := List UInt8

/-- What the crawler reads of a `url::Url`: its serialization and two of the
parts the parser found in it. -/
structure Url where
  serialization : String
  scheme : String
  hostStr : Option Host
deriving DecidableEq, Repr

/-- mirrors crates/crawlrs-core/src/url.rs:68-70 -/
structure CanonicalUrl where
  url : Url
deriving DecidableEq, Repr

namespace CanonicalUrl

/-- mirrors crates/crawlrs-core/src/url.rs:112-114 -/
def isHttp (u : CanonicalUrl) : Bool := u.url.scheme == "http" || u.url.scheme == "https"

def host (u : CanonicalUrl) : Option Host := u.url.hostStr

def asStr (u : CanonicalUrl) : String := u.url.serialization

end CanonicalUrl

/-- mirrors crates/crawlrs-core/src/types.rs:184-191 (`UrlEntry`) -/
structure UrlEntry where
  url : CanonicalUrl
  depth : UInt32
  discoveredFrom : Option CanonicalUrl
deriving DecidableEq, Repr

/-- mirrors crates/crawlrs-core/src/types.rs:109-110 (`UrlId([u8; 16])`) -/
structure UrlId where
  bytes : Bytes
  size : bytes.length = 16
deriving DecidableEq, Repr

/-! ## Hex rendering -/

/-- One digit of `{:x}`. -/
def hexDigit (d : Nat) : Char := if d < 10 then Char.ofNat (48 + d) else Char.ofNat (87 + d)

/-- `char::to_digit(16)`. -/
def toDigit16 (c : Char) : Option Nat :=
  if 48 ≤ c.toNat ∧ c.toNat ≤ 57 then some (c.toNat - 48)
  else if 97 ≤ c.toNat ∧ c.toNat ≤ 102 then some (c.toNat - 87)
  else if 65 ≤ c.toNat ∧ c.toNat ≤ 70 then some (c.toNat - 55)
  else none

theorem toDigit16_hexDigit : ∀ d < 16, toDigit16 (hexDigit d) = some d := by decide

theorem hexDigit_ne_pipe : ∀ d < 16, hexDigit d ≠ '|' := by decide

/-- `{byte:02x}` of every byte. -/
def hexText (bs : Bytes) : List Char :=
  bs.flatMap fun b => [hexDigit (b.toNat / 16), hexDigit (b.toNat % 16)]

def readHex : List Char → Option Bytes
  | [] => some []
  | [_] => none
  | c :: d :: rest => do
    let hi ← toDigit16 c
    let lo ← toDigit16 d
    let bs ← readHex rest
    return UInt8.ofNat (hi * 16 + lo) :: bs

theorem readHex_hexText (bs : Bytes) : readHex (hexText bs) = some bs := by
  induction bs with
  | nil => rfl
  | cons b bs ih =>
    have hb := b.toNat_lt
    have h1 := toDigit16_hexDigit (b.toNat / 16) (by omega)
    have h2 := toDigit16_hexDigit (b.toNat % 16) (by omega)
    have h3 : b.toNat / 16 * 16 + b.toNat % 16 = b.toNat := by omega
    have hc : hexText (b :: bs) =
        hexDigit (b.toNat / 16) :: hexDigit (b.toNat % 16) :: hexText bs := rfl
    simp only [hc, readHex, h1, h2, ih, Option.bind_eq_bind, Option.bind_some, h3,
      UInt8.ofNat_toNat]
    rfl

theorem pipe_notMem_hexText (bs : Bytes) : '|' ∉ hexText bs := by
  intro h
  obtain ⟨b, -, hb⟩ := List.mem_flatMap.1 h
  have hlt := b.toNat_lt
  simp only [List.mem_cons, List.not_mem_nil, or_false] at hb
  rcases hb with h1 | h1
  · exact hexDigit_ne_pipe _ (by omega) h1.symm
  · exact hexDigit_ne_pipe _ (by omega) h1.symm

namespace UrlId

/-- mirrors crates/crawlrs-core/src/types.rs:131-138 -/
def toHex (u : UrlId) : String := String.ofList (hexText u.bytes)

/-- mirrors crates/crawlrs-core/src/types.rs:142-153

The source indexes bytes; a byte of a multi-byte character is no hex digit, so
reading characters rejects the same strings. -/
def fromHex (s : String) : Option UrlId :=
  match readHex s.toList with
  | none => none
  | some bs => if h : bs.length = 16 then some ⟨bs, h⟩ else none

@[simp] theorem fromHex_toHex (u : UrlId) : fromHex u.toHex = some u := by
  simp [fromHex, toHex, readHex_hexText, u.size]

theorem pipe_notMem_toHex (u : UrlId) : '|' ∉ u.toHex.toList := by
  simpa [toHex] using pipe_notMem_hexText u.bytes

end UrlId

/-! ## Libraries -/

/-- BLAKE3, postcard and the text of a score, as the frontier sees them.
`decode_encode` is postcard's round trip on `UrlEntry`; `decode_nil` that an
empty buffer is no entry (it ends inside the first field); `scoreText_plain`
that the server writes an integral double below 2^52 as a plain integer. -/
structure Wire where
  /-- `blake3::hash(url)[..16]` -/
  blake3 : String → UrlId
  encode : UrlEntry → Bytes
  decode : Bytes → Option UrlEntry
  scoreText : Int → String
  decode_encode : ∀ e, decode (encode e) = some e
  decode_nil : decode [] = none
  scoreText_plain : ∀ n : Nat, n < 2 ^ 52 → scoreText n = toString n

namespace Wire

/-- mirrors crates/crawlrs-core/src/types.rs:113-118 (`UrlId::from_canonical`) -/
def idOf (W : Wire) (e : UrlEntry) : UrlId := W.blake3 e.url.asStr

end Wire

/-! ### A wire that satisfies the laws

BLAKE3 and postcard on three seed entries, and some injective code elsewhere. -/

def codes (s : String) : List Nat := s.toList.map Char.toNat

def ofCodes (ns : List Nat) : String := String.ofList (ns.map Char.ofNat)

theorem ofCodes_codes (s : String) : ofCodes (codes s) = s := by
  simp [ofCodes, codes, Function.comp_def]

def Url.codes (u : Url) : List (List Nat) :=
  [Crawlrs.codes u.serialization, Crawlrs.codes u.scheme] ++ (u.hostStr.map Crawlrs.codes).toList

def Url.ofCodes : List (List Nat) → Option Url
  | [s, c] => some ⟨Crawlrs.ofCodes s, Crawlrs.ofCodes c, none⟩
  | [s, c, h] => some ⟨Crawlrs.ofCodes s, Crawlrs.ofCodes c, some (Crawlrs.ofCodes h)⟩
  | _ => none

theorem Url.ofCodes_codes (u : Url) : Url.ofCodes u.codes = some u := by
  obtain ⟨s, c, h⟩ := u
  cases h <;> simp [Url.codes, Url.ofCodes, Crawlrs.ofCodes_codes]

namespace UrlEntry

def code (e : UrlEntry) : Nat :=
  Encodable.encode (e.url.url.codes, e.depth.toNat, e.discoveredFrom.map (·.url.codes))

def ofCode (n : Nat) : Option UrlEntry := do
  let (u, d, f) ← (Encodable.decode n : Option (List (List Nat) × Nat × Option (List (List Nat))))
  let url ← Url.ofCodes u
  match f with
  | none => some ⟨⟨url⟩, UInt32.ofNat d, none⟩
  | some f => (Url.ofCodes f).map fun p => ⟨⟨url⟩, UInt32.ofNat d, some ⟨p⟩⟩

theorem ofCode_code (e : UrlEntry) : ofCode e.code = some e := by
  obtain ⟨⟨u⟩, d, f⟩ := e
  simp only [code, ofCode, Encodable.encodek]
  cases f <;> simp [Url.ofCodes_codes]

/-- mirrors crates/crawlrs-core/src/types.rs:194-200 -/
def seed (url : CanonicalUrl) : UrlEntry := ⟨url, 0, none⟩

def seedA : UrlEntry := seed ⟨⟨"https://a.test/", "https", some "a.test"⟩⟩

def seedA' : UrlEntry := seed ⟨⟨"https://a.test/b", "https", some "a.test"⟩⟩

def seedB : UrlEntry := seed ⟨⟨"https://b.test/", "https", some "b.test"⟩⟩

end UrlEntry

namespace Wire

open UrlEntry

def idA : UrlId := ⟨[80, 227, 30, 223, 204, 235, 248, 235, 136, 243, 6, 94, 73, 21, 94, 44], rfl⟩

def idA' : UrlId := ⟨[56, 141, 213, 26, 61, 238, 19, 212, 194, 243, 17, 115, 81, 104, 184, 50], rfl⟩

def idB : UrlId := ⟨[211, 68, 1, 174, 98, 170, 1, 118, 66, 16, 235, 73, 145, 140, 201, 160], rfl⟩

def bytesA : Bytes := [15, 104, 116, 116, 112, 115, 58, 47, 47, 97, 46, 116, 101, 115, 116, 47, 0, 0]

def bytesA' : Bytes :=
  [16, 104, 116, 116, 112, 115, 58, 47, 47, 97, 46, 116, 101, 115, 116, 47, 98, 0, 0]

def bytesB : Bytes := [15, 104, 116, 116, 112, 115, 58, 47, 47, 98, 46, 116, 101, 115, 116, 47, 0, 0]

def sample : Wire where
  blake3 s :=
    if s = "https://a.test/" then idA
    else if s = "https://a.test/b" then idA'
    else if s = "https://b.test/" then idB
    else ⟨List.replicate 16 0, rfl⟩
  encode e :=
    if e = seedA then bytesA
    else if e = seedA' then bytesA'
    else if e = seedB then bytesB
    else 255 :: List.replicate e.code 0
  decode bs :=
    if bs = bytesA then some seedA
    else if bs = bytesA' then some seedA'
    else if bs = bytesB then some seedB
    else match bs with
      | 255 :: rest => ofCode rest.length
      | _ => none
  scoreText z := toString z
  decode_encode e := by
    by_cases h1 : e = seedA
    · simp [h1]
    · by_cases h2 : e = seedA'
      · simp [h2, show seedA' ≠ seedA by decide, show bytesA' ≠ bytesA by decide]
      · by_cases h3 : e = seedB
        · simp [h3, show seedB ≠ seedA by decide, show seedB ≠ seedA' by decide,
            show bytesB ≠ bytesA by decide, show bytesB ≠ bytesA' by decide]
        · simp [h1, h2, h3, bytesA, bytesA', bytesB, ofCode_code]
  decode_nil := by decide
  scoreText_plain _ _ := rfl

end Wire

end Crawlrs

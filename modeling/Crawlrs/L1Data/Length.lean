import Crawlrs.L1Data.Canonicalize
import Crawlrs.L1Data.QueryBytes
import Mathlib.Algebra.BigOperators.Group.List.Basic

/-!
# The length cap (`MAX_URL_LEN` in `url.rs`)

`parse` measures its input, `parse_relative` the canonical URL. `weight` is how long
the canonical form of a URL is, read off the URL as the parser leaves it: the rules
for the host and the path take characters away, but every name and value of the query
that is kept is encoded anew, a byte that is no letter or digit in three.

`respectsCap_iff`: `parse_relative` never returns a URL over the cap, and `parse` does
not exactly where the URL it read has no weight over it.
-/
namespace Crawlrs

open Url

variable {H : HostParser}

namespace Url

/-! ## Texts -/

/-- `str::len`. -/
def size (cs : List Char) : Nat := (String.ofList cs).utf8ByteSize

@[simp] theorem size_append (a b : List Char) : size (a ++ b) = size a + size b := by
  rw [size, String.ofList_append, String.utf8ByteSize_append, size, size]

theorem size_singleton (c : Char) : size [c] = c.utf8Size := by
  rw [size, ← String.singleton_eq_ofList, String.utf8ByteSize_singleton]

theorem utf8Size_ascii {c : Char} (h : c.toNat < 128) : c.utf8Size = 1 := by
  have hle : c.val ≤ 0x7F := UInt32.le_iff_toNat_le.2 (by
    show c.toNat ≤ 127
    omega)
  exact Char.utf8Size_eq_one_iff.2 hle

/-- An ASCII text has a byte for each character. -/
theorem size_ascii {cs : List Char} (h : ∀ c ∈ cs, c.toNat < 128) : size cs = cs.length := by
  induction cs with
  | nil => rfl
  | cons c cs ih =>
    have htail := ih fun d hd => h d (List.mem_cons_of_mem _ hd)
    have hhead := (size_singleton c).trans (utf8Size_ascii (h c List.mem_cons_self))
    rw [← List.singleton_append, size_append, hhead, htail, List.length_append, List.length_singleton]

theorem length_intercalate {α : Type} (a : α) {xs : List (List α)} (h : xs ≠ []) :
    ([a].intercalate xs).length + 1 = (xs.map fun x => x.length + 1).sum := by
  induction xs with
  | nil => exact absurd rfl h
  | cons x xs ih =>
    by_cases hr : xs = []
    · subst hr
      simp [List.intercalate_singleton]
    · rw [List.intercalate_cons_of_ne_nil hr, List.map_cons, List.sum_cons, ← ih hr]
      simp only [List.length_append, List.length_singleton]
      omega

/-! ## Queries -/

/-- Letters, digits, `*`, `-`, `.`, `_` and the space are written in one byte. -/
def byteWidth (b : UInt8) : Nat := if byteSerializedUnchanged b || b == 0x20 then 1 else 3

def textWidth (s : String) : Nat := ((utf8 s).map byteWidth).sum

/-- With `=` and the `?` or `&` before it. -/
def pairWidth (pair : String × String) : Nat := textWidth pair.1 + textWidth pair.2 + 2

/-- What `canonicalize` keeps of a query, in its order. -/
def keptOf (query : List UInt8) : List (String × String) :=
  ((formParse query).filter fun pair => !isTrackingParam pair.1).mergeSort pairLe

/-- The parameters that are no tracking parameters. -/
def queryWeight : Option (List UInt8) → Nat
  | none => 0
  | some query => (((formParse query).filter fun pair => !isTrackingParam pair.1).map pairWidth).sum

theorem length_byteSerialize (b : UInt8) : (byteSerialize b).length = byteWidth b := by
  unfold byteSerialize byteWidth
  cases byteSerializedUnchanged b <;> cases hb : b == 0x20 <;> rfl

theorem length_formEncode (s : String) : (formEncode s).length = textWidth s := by
  rw [formEncode, List.length_flatMap, textWidth]
  exact congrArg List.sum (List.map_congr_left fun b _ => length_byteSerialize b)

theorem length_formSerialize {pairs : List (String × String)} (h : pairs ≠ []) :
    (formSerialize pairs).length + 1 = (pairs.map pairWidth).sum := by
  rw [formSerialize, length_intercalate _ (by simpa using h), List.map_map]
  refine congrArg List.sum (List.map_congr_left fun pair _ => ?_)
  simp only [Function.comp_apply, formPair, List.length_append, List.length_cons, length_formEncode,
    pairWidth]
  omega

theorem formSerialize_ascii {pairs : List (String × String)} {b : UInt8} (h : b ∈ formSerialize pairs) :
    b.toNat < 128 := by
  rcases mem_formSerialize h with (h | rfl | rfl) | rfl | rfl
  · simp only [byteSerializedUnchanged, Bool.or_eq_true, decide_eq_true_eq, List.contains_eq_mem,
      List.mem_cons, List.not_mem_nil, or_false] at h
    omega
  all_goals decide

theorem char_toNat_of_ascii {b : UInt8} (h : b.toNat < 128) : (Char.ofNat b.toNat).toNat < 128 := by
  have hchar : ∀ n < 128, (Char.ofNat n).toNat < 128 := by decide +kernel
  exact hchar _ h

theorem size_formSerialize (pairs : List (String × String)) :
    size ('?' :: (formSerialize pairs).map fun b => Char.ofNat b.toNat) = (formSerialize pairs).length + 1 := by
  rw [size_ascii, List.length_cons, List.length_map]
  intro c hc
  rcases List.mem_cons.1 hc with rfl | hc
  · decide
  · obtain ⟨b, hb, rfl⟩ := List.mem_map.1 hc
    exact char_toNat_of_ascii (formSerialize_ascii hb)

/-- A query as it is left, with the `?`. -/
theorem length_kept (query : List UInt8) :
    (if keptOf query = [] then 0 else (formSerialize (keptOf query)).length + 1) = queryWeight (some query) := by
  have hperm : ((keptOf query).map pairWidth).sum = queryWeight (some query) :=
    ((List.mergeSort_perm _ pairLe).map pairWidth).sum_eq
  split
  · rename_i hnil
    rw [← hperm, hnil]
    rfl
  · rename_i hne
    rw [length_formSerialize hne, hperm]

/-! ## Paths -/

/-- The octets a pass over the text decodes. -/
def octetCount : List Char → Nat
  | '%' :: a :: b :: rest =>
    if (octet a b).isSome then octetCount rest + 1 else octetCount (a :: b :: rest)
  | _ :: rest => octetCount rest
  | [] => 0

/-- Each segment that is left with its slash, an octet as one character. -/
def pathWeight (p : Path) : Nat :=
  (p.survivors.map fun s => s.length - 2 * octetCount s + 1).sum +
    if endsInDots p.collapse.segments then 1 else 0

theorem octetCount_octet {a b c : Char} {rest : List Char} (h : octet a b = some c) :
    octetCount ('%' :: a :: b :: rest) = octetCount rest + 1 := by
  rw [octetCount, h]
  rfl

theorem octetCount_plain {c : Char} {rest : List Char} (h : startsOctet (c :: rest) = false) :
    octetCount (c :: rest) = octetCount rest := by
  rw [octetCount.eq_def]
  split
  · rename_i a b rest' he
    cases he
    have hnone : (octet a b).isSome = false := h
    rw [hnone, if_neg Bool.false_ne_true]
  · rename_i he
    cases he
    rfl
  · rename_i he
    cases he

theorem length_decode (s : List Char) :
    (decodeUnreservedPercentOctets s).length = s.length - 2 * octetCount s := by
  have hadd : (decodeUnreservedPercentOctets s).length + 2 * octetCount s = s.length := by
    induction s using octet_induction with
    | nil => rfl
    | octet a b c rest h ih =>
      rw [decode_octet h, octetCount_octet h]
      simp only [List.length_cons]
      omega
    | plain c rest h ih =>
      rw [decode_plain h, octetCount_plain h]
      simp only [List.length_cons]
      omega
  omega

theorem pathChar_ascii {c : Char} (h : PathChar c) : c.toNat < 128 := by
  have hset := h.1
  simp only [pathPercentEncodeSet, Bool.or_eq_false_iff, decide_eq_false_iff_not] at hset
  omega

theorem Path.str_ascii (p : Path) : ∀ c ∈ p.str, c.toNat < 128 := by
  intro c hc
  rcases List.mem_cons.1 hc with rfl | hc
  · decide
  · rcases mem_joinTail hc with rfl | ⟨s, hs, hc⟩
    · decide
    · exact pathChar_ascii (p.chars s hs c hc)

theorem Path.length_str (p : Path) : p.str.length = total p.segments := by
  rw [Path.str, List.length_cons, joinTail, length_intercalate _ p.ne, total]

/-- The path as it is left. -/
theorem size_canonical_path (p : Path) : size p.canonical.str = pathWeight p := by
  rw [size_ascii p.canonical.str_ascii, Path.length_str, Path.canonical_segments, total_append, pathWeight]
  refine congrArg₂ (· + ·) ?_ ?_
  · rw [total, List.map_map]
    refine congrArg List.sum (List.map_congr_left fun s _ => ?_)
    rw [Function.comp_apply, length_decode]
  · split <;> rfl

end Url

namespace HttpUrl

/-- The length of the canonical form of an `http(s)` URL. -/
def weight (u : HttpUrl H) : Nat :=
  size u.scheme.toList + 3 + size (trimHost H u.host) + size (portText u.port) + pathWeight u.path +
    queryWeight (u.query.map Query.bytes)

theorem size_queryText (q : Option Query) :
    size (queryText (Query.canonical q)) = queryWeight (q.map Query.bytes) := by
  cases q with
  | none => rfl
  | some q =>
    rw [Option.map_some, ← length_kept]
    have hkept : keptOf q.bytes = keptPairs q := rfl
    rw [hkept, Query.canonical]
    split
    · rfl
    · rw [queryText, setQuery_formSerialize, size_formSerialize]

theorem size_canonicalize (u : HttpUrl H) : size u.canonicalize.serialize = u.weight := by
  have huinfo : u.canonicalize.userinfo = [] := rfl
  have hfragment : fragmentText u.canonicalize.fragment = [] := rfl
  rw [serialize, huinfo, hfragment, List.append_nil, List.append_nil, size_append, size_append, size_append,
    size_append, size_append]
  have hslashes : size [':', '/', '/'] = 3 := size_ascii (by simp)
  rw [hslashes]
  show size u.scheme.toList + 3 + size (trimHost H u.host) + size (portText u.port) +
    size u.path.canonical.str + size (queryText (Query.canonical u.query)) = u.weight
  rw [size_canonical_path, size_queryText, weight]

end HttpUrl

/-! ## Other schemes -/

/-- What the `url` crate writes is ASCII. -/
abbrev AsciiText := { cs : List Char // ∀ c ∈ cs, c.toNat < 128 }

/-- A URL of another scheme, its path as text. A URL that cannot be a base has no host. -/
structure OtherUrl where
  scheme : List Char
  username : List Char
  password : Option (List Char)
  host : Option (List Char)
  port : Option UInt16
  cannotBeABase : Bool
  path : AsciiText
  query : Option (List UInt8)
  fragment : Option (List Char)

/-- The setters of the `url` crate on these URLs: the host `set_host` makes of a text, the path
`set_path` makes of one, and what is left of the path of a URL that cannot be a base once nothing
is behind it. -/
structure UrlSetters where
  setHost : OtherUrl → List Char → Option (List Char)
  setPath : OtherUrl → List Char → AsciiText
  strip : AsciiText → AsciiText

namespace OtherUrl

variable (S : UrlSetters)

def userinfo (u : OtherUrl) : List Char :=
  if u.username = [] ∧ u.password = none then []
  else u.username ++ (match u.password with
    | some p => ':' :: p
    | none => []) ++ ['@']

/-- The text before the path. -/
def front (u : OtherUrl) : List Char :=
  u.scheme ++ [':'] ++ match u.host with
    | some host => ['/', '/'] ++ u.userinfo ++ host ++ HttpUrl.portText u.port
    | none => if !u.cannotBeABase && ['/', '/'].isPrefixOf u.path.1 then ['/', '.'] else []

def queryText : Option (List UInt8) → List Char
  | some query => '?' :: query.map fun b => Char.ofNat b.toNat
  | none => []

/-- `Url::as_str`. -/
def serialize (u : OtherUrl) : List Char :=
  u.front ++ u.path.1 ++ queryText u.query ++ HttpUrl.fragmentText u.fragment

/-- Spaces before a query or a fragment go with it. -/
def stripPath (u : OtherUrl) : OtherUrl :=
  if u.cannotBeABase ∧ u.query = none ∧ u.fragment = none then { u with path := S.strip u.path } else u

/-- `set_host` is not tried on a URL without a host. -/
def trimHost (u : OtherUrl) : OtherUrl :=
  match u.host with
  | some host =>
    if host.getLast? = some '.' ∧ 1 < host.length then
      { u with host := some ((S.setHost u (trimEndDots host)).getD host) }
    else u
  | none => u

def rewrite (f : List Char → List Char) (u : OtherUrl) : OtherUrl :=
  if f u.path.1 ≠ u.path.1 then { u with path := S.setPath u (f u.path.1) } else u

/-- All but the query. User-info, where there is one, can be taken off.
mirrors crates/crawlrs-core/src/url.rs:148-181 -/
def settle (u : OtherUrl) : OtherUrl :=
  let url := stripPath S { u with fragment := none }
  let url := { url with username := [], password := none }
  let url := url.trimHost S
  let url := url.rewrite S collapsePathSlashes
  url.rewrite S decodeUnreservedPercentOctets

/-- The serialised form has nothing `set_query` encodes.
mirrors crates/crawlrs-core/src/url.rs:183-201 -/
def settleQuery (u : OtherUrl) : OtherUrl :=
  match u.query with
  | some query =>
    if keptOf query = [] then stripPath S { u with query := none }
    else { u with query := some (formSerialize (keptOf query)) }
  | none => u

/-- mirrors crates/crawlrs-core/src/url.rs:148-204 -/
def canonicalize (u : OtherUrl) : OtherUrl := (u.settle S).settleQuery S

/-- The path, without the spaces before a query of which nothing is kept. -/
def pathLeft (u : OtherUrl) : AsciiText :=
  if u.cannotBeABase ∧ u.query ≠ none ∧ queryWeight u.query = 0 then S.strip u.path else u.path

/-- The length of the canonical form: what the setters leave, and the query. -/
def weight (u : OtherUrl) : Nat :=
  let url := u.settle S
  size url.front + (url.pathLeft S).1.length + queryWeight url.query

theorem settle_fragment (u : OtherUrl) : (u.settle S).fragment = none := by
  have hrewrite : ∀ (f : List Char → List Char) (v : OtherUrl), (v.rewrite S f).fragment = v.fragment := by
    intro f v
    unfold rewrite
    split <;> rfl
  have hhost : ∀ v : OtherUrl, (v.trimHost S).fragment = v.fragment := by
    intro v
    unfold trimHost
    split
    · split <;> rfl
    · rfl
  have hstrip : ∀ v : OtherUrl, (v.stripPath S).fragment = v.fragment := by
    intro v
    unfold stripPath
    split <;> rfl
  rw [settle, hrewrite, hrewrite, hhost]
  exact hstrip _

theorem queryWeight_eq_zero (query : List UInt8) : queryWeight (some query) = 0 ↔ keptOf query = [] := by
  rw [← length_kept]
  split
  · rename_i hnil
    simp [hnil]
  · rename_i hne
    simp [hne]

theorem size_serialize (u : OtherUrl) (h : u.fragment = none) :
    size u.serialize = size u.front + u.path.1.length + size (queryText u.query) := by
  rw [serialize, h, HttpUrl.fragmentText, List.append_nil, size_append, size_append, size_ascii u.path.2]

theorem pathLeft_of_kept {u : OtherUrl} {query : List UInt8} (hquery : u.query = some query)
    (hkept : keptOf query ≠ []) : u.pathLeft S = u.path := by
  refine if_neg fun h => hkept ((queryWeight_eq_zero query).1 ?_)
  rw [← hquery]
  exact h.2.2

/-- Where spaces are taken off, the text before the path does not depend on it. -/
theorem size_stripPath {u : OtherUrl} {query : List UInt8} (hfragment : u.fragment = none)
    (hquery : u.query = some query) (hkept : keptOf query = []) :
    size (stripPath S { u with query := none }).serialize = size u.front + (u.pathLeft S).1.length := by
  have hzero := (queryWeight_eq_zero query).2 hkept
  have hempty : size (queryText none) = 0 := rfl
  by_cases hbase : u.cannotBeABase = true
  · have hleft : u.pathLeft S = S.strip u.path := if_pos ⟨hbase, by simp [hquery], by rw [hquery, hzero]⟩
    have hstrip : stripPath S { u with query := none } = { u with query := none, path := S.strip u.path } :=
      if_pos ⟨hbase, rfl, hfragment⟩
    have hfront : { u with query := none, path := S.strip u.path }.front = u.front := by
      simp [front, hbase, userinfo]
    rw [hstrip, size_serialize _ (by exact hfragment), hempty, hfront, hleft]
    rfl
  · have hleft : u.pathLeft S = u.path := if_neg fun h => hbase h.1
    have hstrip : stripPath S { u with query := none } = { u with query := none } := if_neg fun h => hbase h.1
    rw [hstrip, size_serialize _ (by exact hfragment), hempty, hleft]
    rfl

theorem size_settleQuery {u : OtherUrl} (hfragment : u.fragment = none) :
    size (u.settleQuery S).serialize = size u.front + (u.pathLeft S).1.length + queryWeight u.query := by
  unfold settleQuery
  split
  · rename_i query hquery
    have hweight := length_kept query
    rw [hquery, ← hweight]
    split
    · rename_i hkept
      exact size_stripPath S hfragment hquery hkept
    · rename_i hkept
      rw [size_serialize _ (by exact hfragment), queryText, size_formSerialize, pathLeft_of_kept S hquery hkept]
      rfl
  · rename_i hquery
    have hleft : u.pathLeft S = u.path := if_neg fun h => h.2.1 hquery
    rw [size_serialize u hfragment, hquery, hleft]
    rfl

theorem size_canonicalize (u : OtherUrl) : size (u.canonicalize S).serialize = u.weight S :=
  size_settleQuery S (u.settle_fragment S)

end OtherUrl

/-! ## The two constructors -/

/-- A URL as the `url` crate has it. -/
inductive AnyUrl (H : HostParser)
  | http (u : HttpUrl H)
  | other (u : OtherUrl)

/-- `Url::parse` and `Url::join` on all texts. -/
structure UrlCrate (H : HostParser) extends UrlSetters where
  parse : String → Option (AnyUrl H)
  join : AnyUrl H → String → Option (AnyUrl H)

namespace AnyUrl

/-- `as_str`. -/
def asStr : AnyUrl H → String
  | .http u => u.toUrl.serialization
  | .other u => String.ofList u.serialize

def canonicalize (S : UrlSetters) : AnyUrl H → AnyUrl H
  | .http u => .http u.canonicalize
  | .other u => .other (u.canonicalize S)

def weight (S : UrlSetters) : AnyUrl H → Nat
  | .http u => u.weight
  | .other u => u.weight S

theorem size_canonicalize (S : UrlSetters) (u : AnyUrl H) :
    (u.canonicalize S).asStr.utf8ByteSize = u.weight S := by
  cases u with
  | http u => exact u.size_canonicalize
  | other u => exact u.size_canonicalize S

end AnyUrl

namespace UrlCrate

variable (C : UrlCrate H)

/-- mirrors crates/crawlrs-core/src/url.rs:80-89 -/
def canonicalParse (input : String) : Except UrlError (AnyUrl H) :=
  if maxUrlLen < input.utf8ByteSize then .error (.tooLong input.utf8ByteSize maxUrlLen)
  else match C.parse input with
    | some parsed => .ok (parsed.canonicalize C.toUrlSetters)
    | none => .error .parse

/-- mirrors crates/crawlrs-core/src/url.rs:96-107 -/
def parseRelative (base : AnyUrl H) (href : String) : Except UrlError (AnyUrl H) :=
  match C.join base href with
  | some resolved =>
    let canonicalized := resolved.canonicalize C.toUrlSetters
    let serializedLen := canonicalized.asStr.utf8ByteSize
    if maxUrlLen < serializedLen then .error (.tooLong serializedLen maxUrlLen) else .ok canonicalized
  | none => .error .parse

/-- On `http(s)` URLs these are the constructors of `UrlParser`. -/
def ofParser (W : UrlParser H) : UrlCrate H where
  setHost _ _ := none
  setPath u _ := u.path
  strip path := path
  parse input := (W.parse input.toList).map .http
  join
    | .http base, href => (W.join base href.toList).map .http
    | .other _, _ => none

theorem canonicalParse_ofParser (W : UrlParser H) (input : String) :
    (ofParser W).canonicalParse input = (W.canonicalParse input).map .http := by
  unfold canonicalParse UrlParser.canonicalParse
  split
  · rfl
  · simp only [ofParser]
    cases W.parse input.toList <;> rfl

theorem parseRelative_ofParser (W : UrlParser H) (base : HttpUrl H) (href : String) :
    (ofParser W).parseRelative (.http base) href = (W.parseRelative base href).map .http := by
  have hjoin : (ofParser W).join (.http base) href = (W.join base href.toList).map .http := rfl
  rw [parseRelative, UrlParser.parseRelative, hjoin]
  cases W.join base href.toList with
  | none => rfl
  | some resolved =>
    dsimp only [Option.map_some]
    by_cases hlong : maxUrlLen < resolved.canonicalize.toUrl.serialization.utf8ByteSize
    · have hlong' : maxUrlLen <
          ((AnyUrl.http resolved).canonicalize (ofParser W).toUrlSetters).asStr.utf8ByteSize := hlong
      rw [if_pos hlong, if_pos hlong']
      rfl
    · have hlong' : ¬ maxUrlLen <
          ((AnyUrl.http resolved).canonicalize (ofParser W).toUrlSetters).asStr.utf8ByteSize := hlong
      rw [if_neg hlong, if_neg hlong']
      rfl

/-- What either constructor returns is within the cap, and its text is not refused for its length. -/
def RespectsCap (input : String) (base : AnyUrl H) (href : String) : Prop :=
  ∀ u, C.canonicalParse input = .ok u ∨ C.parseRelative base href = .ok u →
    u.asStr.utf8ByteSize ≤ maxUrlLen ∧ ∀ len cap, C.canonicalParse u.asStr ≠ .error (.tooLong len cap)

/-- The URL read from an input that is not too long is not too heavy. -/
def Fits (input : String) : Prop :=
  input.utf8ByteSize ≤ maxUrlLen → ∀ u, C.parse input = some u → u.weight C.toUrlSetters ≤ maxUrlLen

/-- Only the length of a text makes it too long. -/
theorem canonicalParse_ne_tooLong {input : String} (h : input.utf8ByteSize ≤ maxUrlLen) (len cap : Nat) :
    C.canonicalParse input ≠ .error (.tooLong len cap) := by
  rw [canonicalParse, if_neg (Nat.not_lt.2 h)]
  cases C.parse input with
  | none => exact fun he => nomatch he
  | some u => exact fun he => nomatch he

theorem canonicalParse_eq_ok {input : String} {u : AnyUrl H} :
    C.canonicalParse input = .ok u ↔ input.utf8ByteSize ≤ maxUrlLen ∧
      ∃ parsed, C.parse input = some parsed ∧ u = parsed.canonicalize C.toUrlSetters := by
  unfold canonicalParse
  split
  · rename_i hlong
    constructor
    · exact fun he => nomatch he
    · exact fun h => absurd hlong (Nat.not_lt.2 h.1)
  · rename_i hshort
    cases C.parse input with
    | none => simp
    | some parsed =>
      simp only [Except.ok.injEq, Option.some.injEq, exists_eq_left']
      exact ⟨fun h => ⟨Nat.not_lt.1 hshort, h.symm⟩, fun h => h.2.symm⟩

theorem parseRelative_le {base u : AnyUrl H} {href : String} (h : C.parseRelative base href = .ok u) :
    u.asStr.utf8ByteSize ≤ maxUrlLen := by
  unfold parseRelative at h
  split at h
  · dsimp only at h
    split at h
    · cases h
    · rename_i hshort
      cases h
      exact Nat.not_lt.1 hshort
  · cases h

/-- For every input, base and reference: both constructors keep to the cap exactly where what the
input is read as is not too heavy. -/
theorem respectsCap_iff (H : HostParser) (C : UrlCrate H) (input : String) (base : AnyUrl H) (href : String) :
    C.RespectsCap input base href ↔ C.Fits input := by
  constructor
  · intro h hinput u hparse
    have hok := C.canonicalParse_eq_ok.2 ⟨hinput, u, hparse, rfl⟩
    rw [← AnyUrl.size_canonicalize]
    exact (h _ (.inl hok)).1
  · intro h u hu
    have hle : u.asStr.utf8ByteSize ≤ maxUrlLen := by
      rcases hu with hu | hu
      · obtain ⟨hinput, parsed, hparse, rfl⟩ := C.canonicalParse_eq_ok.1 hu
        rw [AnyUrl.size_canonicalize]
        exact h hinput parsed hparse
      · exact C.parseRelative_le hu
    exact ⟨hle, C.canonicalParse_ne_tooLong hle⟩

end UrlCrate

/-! ### Slashes in a query -/

namespace Url

theorem percentDecode_slashes (n : Nat) : percentDecode (List.replicate n 0x2F) = List.replicate n 0x2F := by
  induction n with
  | zero => rfl
  | succ n ih => rw [List.replicate_succ, percentDecode_of_ne (by decide), ih]

theorem utf8_slashes (n : Nat) : utf8 (String.ofList (List.replicate n '/')) = List.replicate n 0x2F := by
  rw [utf8, String.toList_ofList]
  induction n with
  | zero => rfl
  | succ n ih =>
    rw [List.replicate_succ, List.flatMap_cons, ih]
    rfl

theorem formDecode_slashes (n : Nat) :
    formDecode (List.replicate n 0x2F) = String.ofList (List.replicate n '/') := by
  have hplus : replacePlus 0x2F = 0x2F := by decide
  rw [formDecode, List.map_replicate, hplus, percentDecode_slashes, ← utf8_slashes, utf8Lossy_utf8,
    String.toList_ofList]

/-- A run of slashes is one name. -/
theorem formParse_slashes (n : Nat) :
    formParse (List.replicate (n + 1) 0x2F) =
      [(String.ofList (List.replicate (n + 1) '/'), String.ofList [])] := by
  have hsplit : (List.replicate (n + 1) (0x2F : UInt8)).splitOn 0x26 = [List.replicate (n + 1) 0x2F] := by
    apply List.splitOn_eq_singleton
    intro hmem
    exact absurd (List.eq_of_mem_replicate hmem) (by decide)
  have hequals : ∀ b ∈ List.replicate (n + 1) (0x2F : UInt8), (b != 0x3D) = true := by
    intro b hb
    rw [List.eq_of_mem_replicate hb]
    decide
  have hname := List.takeWhile_eq_self_iff.2 hequals
  have hvalue := List.dropWhile_eq_nil_iff.2 hequals
  have hempty : formDecode [] = String.ofList [] := formDecode_slashes 0
  rw [formParse, hsplit, List.filter_cons_of_pos (by rfl), List.filter_nil, List.map_singleton, hname, hvalue,
    List.drop_nil, hempty, formDecode_slashes]

theorem isTrackingParam_slashes (n : Nat) :
    isTrackingParam (String.ofList (List.replicate (n + 1) '/')) = false := by
  have hne : ∀ c cs, c ≠ '/' → String.ofList (List.replicate (n + 1) '/') ≠ String.ofList (c :: cs) := by
    intro c cs hc he
    rw [String.ofList_inj, List.replicate_succ] at he
    exact hc (List.cons.inj he).1.symm
  rw [isTrackingParam, String.toList_ofList, List.replicate_succ, Bool.or_eq_false_iff]
  refine ⟨rfl, ?_⟩
  rw [← List.replicate_succ]
  simp only [List.contains_eq_mem, List.mem_cons, List.not_mem_nil, or_false, decide_eq_false_iff_not, not_or]
  exact ⟨hne 'g' _ (by decide), hne 'f' _ (by decide), hne 'r' _ (by decide), hne 'r' _ (by decide)⟩

/-- Each slash is written in three bytes. -/
theorem queryWeight_slashes (n : Nat) : queryWeight (some (List.replicate (n + 1) 0x2F)) = 3 * (n + 1) + 2 := by
  have hwidth : byteWidth 0x2F = 3 := by decide
  have hempty : textWidth (String.ofList []) = 0 := rfl
  rw [queryWeight, formParse_slashes, List.filter_cons_of_pos (by simp [isTrackingParam_slashes]),
    List.filter_nil, List.map_singleton, List.sum_singleton, pairWidth, hempty, textWidth, utf8_slashes,
    List.map_replicate, hwidth, List.sum_replicate_nat]
  omega

end Url

/-- `http://a/?` with so many slashes behind it. -/
def slashesText (n : Nat) : List Char :=
  ['h', 't', 't', 'p', ':', '/', '/', 'a', '/', '?'] ++ List.replicate n '/'

def slashesUrl (n : Nat) : HttpUrl .names where
  https := false
  username := []
  password := none
  host := ['a']
  port := none
  path := setPath ['/']
  query := some (setQuery (List.replicate n 0x2F))
  fragment := none
  host_ok := by decide
  port_ok := by decide

theorem parse_slashesText (n : Nat) : UrlParser.parsePlain (slashesText n) = some (slashesUrl n) := by
  have hbytes : (List.replicate n '/').map (fun c => UInt8.ofNat c.toNat) = List.replicate n 0x2F :=
    List.map_replicate
  show UrlParser.parseRest false ('a' :: '/' :: '?' :: List.replicate n '/') = _
  rw [slashesUrl, ← hbytes]
  rfl

theorem weight_slashesUrl {n : Nat} (h : 0 < n) : 3 * n + 2 ≤ (slashesUrl n).weight := by
  obtain ⟨n, rfl⟩ := Nat.exists_eq_succ_of_ne_zero h.ne'
  have hbytes : (setQuery (List.replicate (n + 1) 0x2F)).bytes = List.replicate (n + 1) 0x2F := by
    apply setQuery_bytes
    intro b hb
    rw [List.eq_of_mem_replicate hb]
    decide
  have hquery : queryWeight ((slashesUrl (n + 1)).query.map Query.bytes) = 3 * (n + 1) + 2 := by
    rw [slashesUrl, Option.map_some, hbytes, queryWeight_slashes]
  rw [HttpUrl.weight, hquery]
  exact Nat.le_add_left _ _

theorem size_slashesText (n : Nat) : size (slashesText n) = n + 10 := by
  have hfront : ∀ c ∈ ['h', 't', 't', 'p', ':', '/', '/', 'a', '/', '?'], c.toNat < 128 := by simp
  have hascii : ∀ c ∈ slashesText n, c.toNat < 128 := by
    intro c hc
    rcases List.mem_append.1 hc with hc | hc
    · exact hfront c hc
    · rw [List.eq_of_mem_replicate hc]
      decide
  rw [size_ascii hascii, slashesText, List.length_append, List.length_replicate, Nat.add_comm]
  rfl

theorem canonicalParse_slashesText {n : Nat} (h : n + 10 ≤ maxUrlLen) :
    (UrlCrate.ofParser .plain).canonicalParse (String.ofList (slashesText n)) =
      .ok (.http (slashesUrl n).canonicalize) := by
  have hparse : (UrlCrate.ofParser .plain).parse (String.ofList (slashesText n)) =
      some (.http (slashesUrl n)) := by
    show (UrlParser.parsePlain (String.ofList (slashesText n)).toList).map AnyUrl.http = _
    rw [String.toList_ofList, parse_slashesText]
    rfl
  refine (UrlCrate.canonicalParse_eq_ok _).2 ⟨?_, _, hparse, rfl⟩
  rw [← size_slashesText] at h
  exact h

/-- An input of 710 bytes whose canonical URL has more than 2048. -/
theorem not_respectsCap : ¬ ∀ (H : HostParser) (C : UrlCrate H) (input : String) (base : AnyUrl H)
    (href : String), C.RespectsCap input base href := by
  intro h
  have hok := canonicalParse_slashesText (n := 700) (by decide)
  have hle := (h _ (.ofParser .plain) _ (.http (slashesUrl 0)) "" _ (.inl hok)).1
  have hsize : (AnyUrl.http (slashesUrl 700).canonicalize).asStr.utf8ByteSize = (slashesUrl 700).weight :=
    (slashesUrl 700).size_canonicalize
  have hweight := weight_slashesUrl (n := 700) (by decide)
  rw [hsize, maxUrlLen] at hle
  omega

end Crawlrs

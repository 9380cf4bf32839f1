import Crawlrs.L1Data.CanonicalPath
import Crawlrs.L1Data.Query
import Mathlib.Data.List.DropRight

/-!
# `CanonicalUrl::parse` and `canonicalize` (`url.rs`)

`HttpUrl` is an `http(s)` URL as the URL Standard keeps it: every part is in the
form its parser leaves it in. The host parser and the parser of whole URLs belong to
the `url` crate; `HostParser` and `UrlParser` carry them with the laws the crawler
relies on.

`canonicalize_fixpoint_iff`: canonicalising a second time, or reading the
canonical text back, gives the same URL exactly where no segment that is left of
the path has a nested octet. `/%%34%31` becomes `/%41`, and that becomes `/A`.
-/
namespace Crawlrs

namespace Url

/-- `trim_end_matches('.')`. -/
def trimEndDots (host : List Char) : List Char := host.rdropWhile (· == '.')

/-- `Host::parse` with its serialisation. A serialised host is read back as itself; without its
trailing dots it is refused, or read as a host that has none. -/
structure HostParser where
  parse : List Char → Option (List Char)
  serialized : ∀ {t h}, parse t = some h → parse h = some h
  trimmed : ∀ {h h'}, parse h = some h → parse (trimEndDots h) = some h' → h'.getLast? ≠ some '.'

end Url

open Url

variable {H : HostParser}

def defaultPort (https : Bool) : UInt16 := if https then 443 else 80

/-- User-info and fragment are the parts nothing is read from: `canonicalize` drops them. -/
structure HttpUrl (H : HostParser) where
  https : Bool
  username : List Char
  password : Option (List Char)
  host : List Char
  port : Option UInt16
  path : Path
  query : Option Query
  fragment : Option (List Char)
  host_ok : H.parse host = some host
  port_ok : port ≠ some (defaultPort https)

namespace HttpUrl

def scheme (u : HttpUrl H) : String := if u.https then "https" else "http"

def userinfo (u : HttpUrl H) : List Char :=
  if u.username = [] ∧ u.password = none then []
  else u.username ++ (match u.password with
    | some p => ':' :: p
    | none => []) ++ ['@']

def portText (port : Option UInt16) : List Char :=
  match port with
  | some n => ':' :: Nat.toDigits 10 n.toNat
  | none => []

def queryText (query : Option Query) : List Char :=
  match query with
  | some q => '?' :: q.bytes.map fun b => Char.ofNat b.toNat
  | none => []

def fragmentText (fragment : Option (List Char)) : List Char :=
  match fragment with
  | some f => '#' :: f
  | none => []

/-- `Url::as_str`. -/
def serialize (u : HttpUrl H) : List Char :=
  u.scheme.toList ++ [':', '/', '/'] ++ u.userinfo ++ u.host ++ portText u.port ++ u.path.str ++
    queryText u.query ++ fragmentText u.fragment

/-- Without user-info and fragment. -/
def Plain (u : HttpUrl H) : Prop := u.username = [] ∧ u.password = none ∧ u.fragment = none

/-- `Url::set_host(Some(..))` on an `http(s)` URL. -/
def setHost (H : HostParser) (text : List Char) : Option (List Char) :=
  if text = [] then none else H.parse text

/-- mirrors crates/crawlrs-core/src/url.rs:157-165 -/
def trimHost (H : HostParser) (host : List Char) : List Char :=
  if host.getLast? = some '.' ∧ 1 < host.length then (setHost H (trimEndDots host)).getD host
  else host

theorem trimHost_ok {host : List Char} (h : H.parse host = some host) :
    H.parse (trimHost H host) = some (trimHost H host) := by
  unfold trimHost setHost
  split
  · split
    · exact h
    · cases ht : H.parse (trimEndDots host) with
      | none => exact h
      | some h' => exact H.serialized ht
  · exact h

/-- mirrors crates/crawlrs-core/src/url.rs:148-204 -/
def canonicalize (u : HttpUrl H) : HttpUrl H where
  https := u.https
  username := []
  password := none
  host := trimHost H u.host
  port := u.port
  path := u.path.canonical
  query := Query.canonical u.query
  fragment := none
  host_ok := trimHost_ok u.host_ok
  port_ok := u.port_ok

@[simp] theorem canonicalize_path (u : HttpUrl H) : u.canonicalize.path = u.path.canonical := rfl

theorem trimHost_trimHost {host : List Char} (h : H.parse host = some host) :
    trimHost H (trimHost H host) = trimHost H host := by
  by_cases hdot : host.getLast? = some '.' ∧ 1 < host.length
  · cases hset : setHost H (trimEndDots host) with
    | none =>
      have hsame : trimHost H host = host := by simp [trimHost, hdot, hset]
      rw [hsame, hsame]
    | some h' =>
      have hnew : trimHost H host = h' := by simp [trimHost, hdot, hset]
      have hparse : H.parse (trimEndDots host) = some h' := by
        unfold setHost at hset
        split at hset
        · cases hset
        · exact hset
      rw [hnew, trimHost, if_neg fun hd => H.trimmed h hparse hd.1]
  · have hsame : trimHost H host = host := if_neg hdot
    rw [hsame, hsame]

/-- A second round can only change the path. -/
theorem canonicalize_canonicalize_iff (u : HttpUrl H) :
    u.canonicalize.canonicalize = u.canonicalize ↔ u.path.canonical.canonical = u.path.canonical := by
  constructor
  · intro h
    have hpath := congrArg HttpUrl.path h
    rwa [canonicalize_path, canonicalize_path] at hpath
  · intro hpath
    have hhost := trimHost_trimHost u.host_ok
    have hquery := Query.canonical_canonical u.query
    simp only [canonicalize, hhost, hpath, hquery]

/-- What the rest of the crawler sees. -/
def toUrl (u : HttpUrl H) : Url := ⟨String.ofList u.serialize, u.scheme, some (String.ofList u.host)⟩

end HttpUrl

/-- `Url::parse` and `Url::join` on texts that give an `http(s)` URL. A serialised URL is read back. -/
structure UrlParser (H : HostParser) where
  parse : List Char → Option (HttpUrl H)
  join : HttpUrl H → List Char → Option (HttpUrl H)
  parse_serialize : ∀ u, u.Plain → parse u.serialize = some u

/-- mirrors crates/crawlrs-core/src/url.rs:59-66 -/
inductive UrlError
  | tooLong (len cap : Nat)
  | parse
deriving DecidableEq, Repr

/-- mirrors crates/crawlrs-core/src/url.rs:54 -/
def maxUrlLen : Nat := 2048

namespace UrlParser

/-- mirrors crates/crawlrs-core/src/url.rs:80-89 -/
def canonicalParse (W : UrlParser H) (input : String) : Except UrlError (HttpUrl H) :=
  if maxUrlLen < input.utf8ByteSize then .error (.tooLong input.utf8ByteSize maxUrlLen)
  else match W.parse input.toList with
    | some parsed => .ok parsed.canonicalize
    | none => .error .parse

/-- mirrors crates/crawlrs-core/src/url.rs:96-107 -/
def parseRelative (W : UrlParser H) (base : HttpUrl H) (href : String) : Except UrlError (HttpUrl H) :=
  match W.join base href.toList with
  | some resolved =>
    let len := resolved.canonicalize.toUrl.serialization.utf8ByteSize
    if maxUrlLen < len then .error (.tooLong len maxUrlLen) else .ok resolved.canonicalize
  | none => .error .parse

/-- Canonicalising again, or reading the canonical text, gives the same URL. -/
def Fixpoint (W : UrlParser H) (u : HttpUrl H) : Prop :=
  u.canonicalize.canonicalize = u.canonicalize ∧
    (u.canonicalize.toUrl.serialization.utf8ByteSize ≤ maxUrlLen →
      W.canonicalParse u.canonicalize.toUrl.serialization = .ok u.canonicalize)

theorem canonicalParse_serialize (W : UrlParser H) (u : HttpUrl H) (hu : u.Plain)
    (hlen : u.toUrl.serialization.utf8ByteSize ≤ maxUrlLen) :
    W.canonicalParse u.toUrl.serialization = .ok u.canonicalize := by
  have hparse : W.parse u.toUrl.serialization.toList = some u := by
    rw [HttpUrl.toUrl, String.toList_ofList]
    exact W.parse_serialize u hu
  rw [canonicalParse, if_neg (Nat.not_lt.2 hlen), hparse]

end UrlParser

/-- For every URL of every parser: its canonical form is canonical, and is what its text reads back
as, exactly where no segment left of its path has a nested octet. -/
theorem canonicalize_fixpoint_iff (H : HostParser) (W : UrlParser H) (u : HttpUrl H) :
    W.Fixpoint u ↔ ∀ s ∈ u.path.survivors, ¬ Nested s := by
  rw [← Path.canonical_canonical_iff, ← HttpUrl.canonicalize_canonicalize_iff]
  constructor
  · exact fun h => h.1
  · intro h
    refine ⟨h, fun hlen => ?_⟩
    rw [W.canonicalParse_serialize u.canonicalize ⟨rfl, rfl, rfl⟩ hlen, h]

/-! ### A parser -/

namespace Url

/-- Names of lower-case letters, dots and hyphens, which are serialised as they are. -/
def nameChar (c : Char) : Bool := c.isLower || c == '.' || c == '-'

def parseName (t : List Char) : Option (List Char) := if t ≠ [] ∧ t.all nameChar then some t else none

theorem parseName_eq {t h : List Char} (ht : parseName t = some h) : h = t ∧ t.all nameChar = true := by
  unfold parseName at ht
  split at ht
  · rename_i hok
    cases ht
    exact ⟨rfl, hok.2⟩
  · cases ht

def HostParser.names : HostParser where
  parse := parseName
  serialized ht := by
    obtain ⟨rfl, -⟩ := parseName_eq ht
    exact ht
  trimmed {h h'} _ ht hlast := by
    obtain ⟨rfl, -⟩ := parseName_eq ht
    have hne : trimEndDots h ≠ [] := by
      rintro he
      rw [he] at hlast
      cases hlast
    have hdot := List.rdropWhile_last_not (· == '.') h hne
    rw [List.getLast?_eq_some_getLast hne] at hlast
    simp [trimEndDots] at hlast
    exact hdot (by simpa using hlast)

end Url

namespace UrlParser

/-- After the scheme: up to the slash the authority, up to `?` the path. -/
def parseRest (https : Bool) (rest : List Char) : Option (HttpUrl .names) :=
  let authority := rest.takeWhile (· != '/')
  let tail := rest.dropWhile (· != '/')
  let host := authority.takeWhile (· != ':')
  let port := match authority.dropWhile (· != ':') with
    | [] => none
    | _ :: digits => some (UInt16.ofNat (Nat.ofDigitChars 10 digits 0))
  let query := match tail.dropWhile (· != '?') with
    | [] => none
    | _ :: text => some (setQuery (text.map fun c => UInt8.ofNat c.toNat))
  if hhost : HostParser.names.parse host = some host then
    some ⟨https, [], none, host, port.filter (· ≠ defaultPort https),
      setPath (tail.takeWhile (· != '?')), query, none, hhost, by
        intro h
        simpa using (Option.filter_eq_some_iff.1 h).2⟩
  else none

def parsePlain : List Char → Option (HttpUrl .names)
  | 'h' :: 't' :: 't' :: 'p' :: 's' :: ':' :: '/' :: '/' :: rest => parseRest true rest
  | 'h' :: 't' :: 't' :: 'p' :: ':' :: '/' :: '/' :: rest => parseRest false rest
  | _ => none

theorem parsePlain_https (rest : List Char) :
    parsePlain ("https".toList ++ ([':', '/', '/'] ++ rest)) = parseRest true rest := rfl

theorem parsePlain_http (rest : List Char) :
    parsePlain ("http".toList ++ ([':', '/', '/'] ++ rest)) = parseRest false rest := rfl

theorem mem_str_ne {p : Path} {c : Char} (h : c ∈ p.str) : c ≠ '?' := by
  rintro rfl
  rcases List.mem_cons.1 h with h | h
  · cases h
  · rcases mem_joinTail h with h | ⟨s, hs, hc⟩
    · cases h
    · exact absurd (p.chars s hs '?' hc).1 (by decide)

theorem names_ne {host : List Char} (h : HostParser.names.parse host = some host) :
    ∀ c ∈ host, c ≠ '/' ∧ c ≠ ':' := by
  intro c hc
  have hname := List.all_eq_true.1 (parseName_eq h).2 c hc
  constructor <;> rintro rfl <;> exact absurd hname (by decide)

/-- A text is cut at the first character that stops. -/
theorem cut_append {p : Char → Bool} {a b : List Char} (ha : ∀ c ∈ a, p c = true)
    (hb : ∀ c, b.head? = some c → p c = false) :
    (a ++ b).takeWhile p = a ∧ (a ++ b).dropWhile p = b := by
  rw [List.takeWhile_append_of_pos ha, List.dropWhile_append_of_pos ha]
  cases b with
  | nil => simp
  | cons c b => simp [hb c rfl]

theorem portText_ne {port : Option UInt16} {c : Char} (h : c ∈ HttpUrl.portText port) : c ≠ '/' := by
  cases port with
  | none => cases h
  | some n =>
    rintro rfl
    rcases List.mem_cons.1 h with h | h
    · cases h
    · exact absurd (Nat.isDigit_of_mem_toDigits (by decide) (by decide) h) (by decide)

theorem portText_head {port : Option UInt16} {c : Char} (h : (HttpUrl.portText port).head? = some c) :
    c = ':' := by
  cases port with
  | none => cases h
  | some n => cases h; rfl

theorem queryText_head {query : Option Query} {c : Char}
    (h : (HttpUrl.queryText query).head? = some c) : c = '?' := by
  cases query with
  | none => cases h
  | some q => cases h; rfl

theorem byte_of_char (b : UInt8) : UInt8.ofNat (Char.ofNat b.toNat).toNat = b := by
  have hchar : ∀ n < 256, (Char.ofNat n).toNat = n := by decide +kernel
  rw [hchar b.toNat b.toNat_lt, UInt8.ofNat_toNat]

theorem parseRest_serialize (u : HttpUrl .names) :
    parseRest u.https (u.host ++ HttpUrl.portText u.port ++ (u.path.str ++ HttpUrl.queryText u.query)) =
      some ⟨u.https, [], none, u.host, u.port, u.path, u.query, none, u.host_ok, u.port_ok⟩ := by
  have hname := names_ne u.host_ok
  obtain ⟨hauth, htail⟩ := cut_append (p := (· != '/'))
    (a := u.host ++ HttpUrl.portText u.port) (b := u.path.str ++ HttpUrl.queryText u.query)
    (fun c hc => by
      rcases List.mem_append.1 hc with hc | hc
      · simpa using (hname c hc).1
      · simpa using portText_ne hc)
    (fun c hc => by cases hc; decide)
  obtain ⟨hhost, hport⟩ := cut_append (p := (· != ':')) (a := u.host) (b := HttpUrl.portText u.port)
    (fun c hc => by simpa using (hname c hc).2) (fun c hc => by simp [portText_head hc])
  obtain ⟨hpath, hquery⟩ := cut_append (p := (· != '?')) (a := u.path.str)
    (b := HttpUrl.queryText u.query) (fun c hc => by simpa using mem_str_ne hc)
    (fun c hc => by simp [queryText_head hc])
  have hport' : (match HttpUrl.portText u.port with
      | [] => none
      | _ :: digits => some (UInt16.ofNat (Nat.ofDigitChars 10 digits 0))) = u.port := by
    cases u.port with
    | none => rfl
    | some n => simp [HttpUrl.portText, Nat.ofDigitChars_ten_toDigits]
  have hquery' : (match HttpUrl.queryText u.query with
      | [] => none
      | _ :: text => some (setQuery (text.map fun c => UInt8.ofNat c.toNat))) = u.query := by
    cases hq : u.query with
    | none => rfl
    | some q =>
      have hbytes : (q.bytes.map fun b => Char.ofNat b.toNat).map (fun c => UInt8.ofNat c.toNat) =
          q.bytes := by
        rw [List.map_map]
        exact (List.map_congr_left (g := id) fun b _ => byte_of_char b).trans (List.map_id _)
      simp only [HttpUrl.queryText, hbytes, Option.some.injEq]
      exact Query.ext (setQuery_bytes q.encoded)
  have hfilter : u.port.filter (· ≠ defaultPort u.https) = u.port := by
    cases hp : u.port with
    | none => rfl
    | some n =>
      have hne : n ≠ defaultPort u.https := fun h => u.port_ok (hp.trans (congrArg some h))
      simp [Option.filter, hne]
  unfold parseRest
  simp only [hauth, htail, hhost, hport, hpath, hquery, hport', hquery', hfilter, u.path.setPath_str,
    dif_pos u.host_ok]

def plain : UrlParser .names where
  parse := parsePlain
  join _ href := parsePlain href
  parse_serialize u hu := by
    obtain ⟨huser, hpass, hfrag⟩ := hu
    have hparsed := parseRest_serialize u
    have huinfo : u.userinfo = [] := by simp [HttpUrl.userinfo, huser, hpass]
    obtain ⟨https, username, password, host, port, path, query, fragment, hhost, hport⟩ := u
    cases huser
    cases hpass
    cases hfrag
    cases https with
    | true =>
      simp only [HttpUrl.serialize, huinfo, HttpUrl.fragmentText, List.append_nil, List.append_assoc]
      refine (parsePlain_https _).trans ?_
      simpa only [List.append_assoc] using hparsed
    | false =>
      simp only [HttpUrl.serialize, huinfo, HttpUrl.fragmentText, List.append_nil, List.append_assoc]
      refine (parsePlain_http _).trans ?_
      simpa only [List.append_assoc] using hparsed

end UrlParser

/-- `https://a.test/%%34%31`. -/
def nestedUrl : HttpUrl .names where
  https := true
  username := []
  password := none
  host := ['a', '.', 't', 'e', 's', 't']
  port := none
  path := setPath ['/', '%', '%', '3', '4', '%', '3', '1']
  query := none
  fragment := none
  host_ok := by decide
  port_ok := by decide

/-- Its canonical text is `https://a.test/%41`, which reads back as `https://a.test/A`. -/
theorem not_canonicalize_fixpoint : ¬ ∀ (H : HostParser) (W : UrlParser H) (u : HttpUrl H), W.Fixpoint u := by
  intro h
  have hpath := congrArg (fun u => u.path.segments) (h .names .plain nestedUrl).1
  exact absurd hpath (by decide)

end Crawlrs

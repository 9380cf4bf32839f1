import Crawlrs.L1Data.QueryBytes
import Crawlrs.L1Data.Respell
import Crawlrs.L1Data.Routing
import Mathlib.Data.List.Sort

/-!
# URLs that differ only in noise

`UrlText` is the text of an `http(s)` URL cut at its delimiters, before the host, the
path and the query are read. `Variant` is what the documentation of `canonicalize`
calls the same resource: another order of the query, tracking parameters and empty
sequences anywhere, another user-info and fragment, a dot after the host, and
unreserved characters of the path written as triplets.

`canonicalize_variant`: variants have one canonical URL. The dot is the exception:
where a host without its trailing dots is none (`.`, or a number that is no
address), `set_host` refuses it and the host stays as it was.
-/
namespace Crawlrs

open Url

variable {H : HostParser}

/-! ## Texts -/

/-- Tab and newline are taken out of a text before it is cut. -/
structure UrlText (H : HostParser) where
  https : Bool
  username : List Char
  password : Option (List Char)
  host : List Char
  port : Option UInt16
  path : List Char
  query : Option (List UInt8)
  fragment : Option (List Char)
  host_ok : (H.parse host).isSome = true
  path_ok : ∀ c ∈ path, isTabOrNewline c = false

/-- The URL the parser makes of it. -/
def UrlText.parse (t : UrlText H) : HttpUrl H where
  https := t.https
  username := t.username
  password := t.password
  host := (H.parse t.host).get t.host_ok
  port := t.port.filter (· ≠ defaultPort t.https)
  path := setPath t.path
  query := t.query.map setQuery
  fragment := t.fragment
  host_ok := H.serialized (Option.some_get t.host_ok).symm
  port_ok := by
    intro h
    simpa using (Option.filter_eq_some_iff.1 h).2

/-! ## Queries -/

namespace Url

/-- The sequences between ampersands. -/
def sequences : Option (List UInt8) → List (List UInt8)
  | none => []
  | some query => query.splitOn 0x26

/-- The name of a sequence, decoded. -/
def sequenceName (seq : List UInt8) : String := formDecode ((setQuery seq).bytes.takeWhile (· != 0x3D))

/-- Empty, or a tracking parameter. -/
def isNoise (seq : List UInt8) : Bool :=
  (setQuery seq).bytes.isEmpty || isTrackingParam (sequenceName seq)

def sequencePair (seq : List UInt8) : String × String :=
  (sequenceName seq, formDecode (((setQuery seq).bytes.dropWhile (· != 0x3D)).drop 1))

/-- A byte of the text as the query has it. -/
def writeQueryByte (b : UInt8) : List UInt8 :=
  if !(b == 0x09 || b == 0x0A || b == 0x0D) then encodeQueryByte b else []

theorem setQuery_flatMap (text : List UInt8) : (setQuery text).bytes = text.flatMap writeQueryByte := by
  simp only [setQuery]
  induction text with
  | nil => rfl
  | cons b text ih =>
    rw [List.filter_cons, List.flatMap_cons, ← ih, writeQueryByte]
    split <;> rfl

theorem amp_writeQueryByte {b : UInt8} (h : b ≠ 0x26) : 0x26 ∉ writeQueryByte b := by
  have hlt := b.toNat_lt
  unfold writeQueryByte
  split
  · unfold encodeQueryByte
    split
    · have hhex : ∀ d < 16, hexByte d ≠ 0x26 := by decide
      simp only [percentEncodedByte, List.mem_cons, List.not_mem_nil, or_false, not_or]
      exact ⟨by decide, (hhex _ (by omega)).symm, (hhex _ (by omega)).symm⟩
    · simpa using h.symm
  · simp

theorem splitOnP_append {α : Type} {p : α → Bool} {a : List α} (h : ∀ x ∈ a, p x = false) (b : List α) :
    (a ++ b).splitOnP p = (b.splitOnP p).modifyHead (a ++ ·) := by
  induction a with
  | nil =>
    have hsame : ∀ l : List (List α), l.modifyHead ([] ++ ·) = l := fun l => by cases l <;> rfl
    rw [hsame, List.nil_append]
  | cons x a ih =>
    rw [List.cons_append, List.splitOnP_cons_eq_if_modifyHead, if_neg (by simp [h x List.mem_cons_self]),
      ih fun y hy => h y (List.mem_cons_of_mem _ hy)]
    cases b.splitOnP p <;> rfl

/-- The sequences of what is written are what is written for the sequences. -/
theorem splitOn_write (text : List UInt8) :
    (text.flatMap writeQueryByte).splitOn 0x26 = (text.splitOn 0x26).map fun seq => (setQuery seq).bytes := by
  simp only [setQuery_flatMap, List.splitOn]
  induction text with
  | nil => rfl
  | cons b text ih =>
    rw [List.flatMap_cons, List.splitOnP_cons_eq_if_modifyHead]
    by_cases hb : b = 0x26
    · subst hb
      have hwrite : writeQueryByte 0x26 = [0x26] := by decide
      rw [hwrite, List.singleton_append, List.splitOnP_cons_eq_if_modifyHead]
      simp [ih]
    · have hnone : ∀ x ∈ writeQueryByte b, (x == 0x26) = false := by
        intro x hx
        have hne : x ≠ 0x26 := fun he => amp_writeQueryByte hb (he ▸ hx)
        simpa using hne
      rw [splitOnP_append hnone, ih, if_neg (by simpa using hb)]
      cases text.splitOnP (· == 0x26) <;> simp

/-- The parameters that are kept of a text. -/
theorem kept_setQuery (query : Option (List UInt8)) :
    kept (query.map setQuery) =
      (((sequences query).filter fun seq => !isNoise seq).map sequencePair).mergeSort pairLe := by
  cases query with
  | none => simp [kept, sequences]
  | some text =>
    have hparse : (formParse (setQuery text).bytes).filter (fun pair => !isTrackingParam pair.1) =
        ((text.splitOn 0x26).filter fun seq => !isNoise seq).map sequencePair := by
      rw [setQuery_flatMap, formParse, splitOn_write, List.filter_map, List.filter_filter, List.filter_map,
        List.map_map]
      refine congrArg _ (List.filter_congr fun seq _ => ?_)
      simp [isNoise, sequenceName, Bool.and_comm]
    rw [Option.map_some, kept, keptPairs, hparse]
    rfl

theorem mergeSort_congr {a b : List (String × String)} (h : a.Perm b) :
    a.mergeSort pairLe = b.mergeSort pairLe := by
  refine List.Perm.eq_of_pairwise (fun x y _ _ hxy hyx => ?_) (pairwise_mergeSort_pairLe a)
    (pairwise_mergeSort_pairLe b)
    ((List.mergeSort_perm a pairLe).trans (h.trans (List.mergeSort_perm b pairLe).symm))
  exact toLex.injective (le_antisymm (of_decide_eq_true hxy) (of_decide_eq_true hyx))

end Url

/-! ## Hosts -/

/-- What the host parser makes of one more dot. An address is the same with it; a name has it in
its ASCII form, which is the name itself, or the text of an address, without it. -/
structure DotLaws (H : HostParser) : Prop where
  empty : H.parse [] = none
  address : ∀ {t h}, H.parse (t ++ ['.']) = some h → h.getLast? ≠ some '.' → H.parse t = some h
  name : ∀ {t h h'}, H.parse t = some h → H.parse (t ++ ['.']) = some h' → h'.getLast? = some '.' →
    ∃ x, h' = x ++ ['.'] ∧ H.parse x = some h ∧ (h.getLast? = some '.' → h = x)

namespace Url

theorem trimEndDots_concat (x : List Char) : trimEndDots (x ++ ['.']) = trimEndDots x := by
  simp [trimEndDots]

theorem trimEndDots_of_last {x : List Char} (h : x.getLast? ≠ some '.') : trimEndDots x = x := by
  rw [trimEndDots, List.rdropWhile_eq_self_iff]
  intro hne
  rw [List.getLast?_eq_some_getLast hne] at h
  simpa using h

/-- The text of an address is one without its dots. -/
theorem parse_trimEndDots (L : DotLaws H) {t h : List Char} (ht : H.parse t = some h)
    (hh : h.getLast? ≠ some '.') : H.parse (trimEndDots t) = some h := by
  induction t using List.reverseRecOn with
  | nil => exact ht
  | append_singleton t c ih =>
    by_cases hc : c = '.'
    · subst hc
      rw [trimEndDots_concat]
      exact ih (L.address ht hh)
    · rwa [trimEndDots_of_last (by simpa using hc)]

theorem ne_nil_of_parse (L : DotLaws H) {x h : List Char} (hx : H.parse x = some h) : x ≠ [] := by
  rintro rfl
  rw [L.empty] at hx
  cases hx

theorem setHost_of_parse (L : DotLaws H) {x h : List Char} (hx : H.parse x = some h) :
    HttpUrl.setHost H x = some h := by
  rw [HttpUrl.setHost, if_neg (ne_nil_of_parse L hx), hx]

/-- A lone dot has nothing before it. -/
theorem one_lt_length {h : List Char} (hlast : h.getLast? = some '.')
    (hok : (HttpUrl.setHost H (trimEndDots h)).isSome = true) : 1 < h.length := by
  obtain ⟨x, rfl⟩ := List.getLast?_eq_some_iff.1 hlast
  have hx : x ≠ [] := by
    rintro rfl
    exact absurd hok (by simp [trimEndDots, HttpUrl.setHost])
  have hpos := List.length_pos_of_ne_nil hx
  rw [List.length_append, List.length_singleton]
  omega

theorem trimHost_concat {x : List Char} (hx : x ≠ []) :
    HttpUrl.trimHost H (x ++ ['.']) = (HttpUrl.setHost H (trimEndDots x)).getD (x ++ ['.']) := by
  have hpos := List.length_pos_of_ne_nil hx
  have hlen : 1 < (x ++ ['.']).length := by
    rw [List.length_append, List.length_singleton]
    omega
  rw [HttpUrl.trimHost, if_pos ⟨by simp, hlen⟩, trimEndDots_concat]

/-- A host and the one of its text with a dot. -/
theorem trimHost_dot (L : DotLaws H) {t h h' : List Char} (ht : H.parse t = some h)
    (ht' : H.parse (t ++ ['.']) = some h') (hok : (HttpUrl.setHost H (trimEndDots h)).isSome = true) :
    HttpUrl.trimHost H h' = HttpUrl.trimHost H h := by
  by_cases hdot : h'.getLast? = some '.'
  · obtain ⟨x, rfl, hx, hname⟩ := L.name ht ht' hdot
    have hlong := trimHost_concat (H := H) (ne_nil_of_parse L hx)
    by_cases hlast : h.getLast? = some '.'
    · -- a name with dots already: without them it is a host
      cases hname hlast
      obtain ⟨g, hg⟩ := Option.isSome_iff_exists.1 hok
      rw [hlong, hg, HttpUrl.trimHost, if_pos ⟨hlast, one_lt_length hlast hok⟩, hg]
      rfl
    · have hshort : HttpUrl.trimHost H h = h := if_neg fun hd => hlast hd.1
      rw [hlong, hshort, setHost_of_parse L (parse_trimEndDots L hx hlast)]
      rfl
  · rw [L.address ht' hdot] at ht
    rw [Option.some.inj ht]

end Url

/-! ## Variants -/

/-- The second text is the first one but for noise; a dot is added to hosts with `dotOk` only. -/
structure Variant (dotOk : List Char → Prop) (t t' : UrlText H) : Prop where
  https : t'.https = t.https
  port : t'.port = t.port
  host : t'.host = t.host ∨ t'.host = t.host ++ ['.'] ∧ dotOk t.parse.host
  path : Respell t.path t'.path
  query : ((sequences t'.query).filter fun seq => !isNoise seq).Perm
    ((sequences t.query).filter fun seq => !isNoise seq)

/-- What is behind the canonical URL: its id and its shard. -/
def SameUrl (u u' : HttpUrl H) : Prop :=
  u.canonicalize = u'.canonicalize ∧
    (∀ W : Wire, W.blake3 u.canonicalize.toUrl.serialization = W.blake3 u'.canonicalize.toUrl.serialization) ∧
    ∀ P : HostHashShardPolicy, P.shardKey ⟨u.canonicalize.toUrl⟩ = P.shardKey ⟨u'.canonicalize.toUrl⟩

theorem sameUrl_of_eq {u u' : HttpUrl H} (h : u.canonicalize = u'.canonicalize) : SameUrl u u' := by
  refine ⟨h, fun W => ?_, fun P => ?_⟩
  · rw [h]
  · rw [h]

theorem SameUrl.trans {u v w : HttpUrl H} (huv : SameUrl u v) (hvw : SameUrl v w) : SameUrl u w :=
  sameUrl_of_eq (huv.1.trans hvw.1)

/-- The dot goes where the host without trailing dots is one. -/
def TrimOk (H : HostParser) (host : List Char) : Prop :=
  (HttpUrl.setHost H (trimEndDots host)).isSome = true

theorem Variant.host_eq (L : DotLaws H) {t t' : UrlText H} (h : Variant (TrimOk H) t t') :
    HttpUrl.trimHost H t.parse.host = HttpUrl.trimHost H t'.parse.host := by
  have hparse : ∀ t : UrlText H, H.parse t.host = some t.parse.host :=
    fun t => (Option.some_get t.host_ok).symm
  rcases h.host with hsame | ⟨hdot, hok⟩
  · have heq : some t.parse.host = some t'.parse.host := by rw [← hparse, ← hparse, hsame]
    rw [Option.some.inj heq]
  · exact (trimHost_dot L (hparse t) (hdot ▸ hparse t') hok).symm

theorem Variant.query_eq {dotOk : List Char → Prop} {t t' : UrlText H} (h : Variant dotOk t t') :
    Query.canonical t.parse.query = Query.canonical t'.parse.query := by
  apply canonical_congr
  rw [UrlText.parse, UrlText.parse, kept_setQuery, kept_setQuery]
  exact mergeSort_congr (h.query.map sequencePair).symm

theorem Variant.sameUrl (L : DotLaws H) {t t' : UrlText H} (h : Variant (TrimOk H) t t') :
    SameUrl t.parse t'.parse := by
  apply sameUrl_of_eq
  have hpath : t.parse.path.canonical = t'.parse.path.canonical :=
    h.path.canonical t.path_ok t'.path_ok
  have hhttps : t.parse.https = t'.parse.https := h.https.symm
  have hport : t.parse.port = t'.parse.port := by
    simp only [UrlText.parse, h.https, h.port]
  simp only [HttpUrl.canonicalize, h.host_eq L, h.query_eq, hpath, hhttps, hport]

/-- Any number of changes, one after the other, leave the canonical URL, its id and its shard. -/
theorem canonicalize_variant (H : HostParser) (L : DotLaws H) (t t' : UrlText H)
    (h : Relation.ReflTransGen (Variant (TrimOk H)) t t') : SameUrl t.parse t'.parse := by
  induction h with
  | refl => exact sameUrl_of_eq rfl
  | tail _ hstep ih => exact ih.trans (hstep.sameUrl L)

/-! ### Texts of names -/

theorem HostParser.names_dots : DotLaws HostParser.names where
  empty := rfl
  address ht hlast := by
    obtain ⟨rfl, -⟩ := parseName_eq ht
    simp at hlast
  name ht ht' _ := by
    obtain ⟨rfl, -⟩ := parseName_eq ht
    obtain ⟨rfl, -⟩ := parseName_eq ht'
    exact ⟨_, rfl, ht, fun _ => rfl⟩

/-- `http://a/x?b=2&a=1`. -/
def sampleText : UrlText .names where
  https := false
  username := []
  password := none
  host := ['a']
  port := some 80
  path := ['/', 'x']
  query := some [0x62, 0x3D, 0x32, 0x26, 0x61, 0x3D, 0x31]
  fragment := none
  host_ok := by decide
  path_ok := by simp [isTabOrNewline]

/-- `http://u@a./%78?a=1&&b=2#f`. -/
def sampleVariant : UrlText .names where
  https := false
  username := ['u']
  password := none
  host := ['a', '.']
  port := some 80
  path := ['/', '%', '7', '8']
  query := some [0x61, 0x3D, 0x31, 0x26, 0x26, 0x62, 0x3D, 0x32]
  fragment := some ['f']
  host_ok := by decide
  path_ok := by simp [isTabOrNewline]

theorem sampleVariant_variant : Variant (TrimOk .names) sampleText sampleVariant where
  https := rfl
  port := rfl
  host := .inr ⟨rfl, by simp only [TrimOk]; decide⟩
  path := .char (by decide) (.octet (by decide) .nil)
  query := by
    have hempty : isNoise [] = true := rfl
    have hsplit : sequences sampleText.query = [[0x62, 0x3D, 0x32], [0x61, 0x3D, 0x31]] := by decide
    have hsplit' : sequences sampleVariant.query = [[0x61, 0x3D, 0x31], [], [0x62, 0x3D, 0x32]] := by
      decide
    have hskip : (sequences sampleVariant.query).filter (fun seq => !isNoise seq) =
        [[0x61, 0x3D, 0x31], [0x62, 0x3D, 0x32]].filter fun seq => !isNoise seq := by
      rw [hsplit']
      simp only [List.filter_cons, hempty, Bool.not_true, Bool.false_eq_true, if_false]
    rw [hsplit, hskip]
    exact (List.Perm.swap _ _ []).filter _

theorem canonicalize_variant_sample : SameUrl sampleText.parse sampleVariant.parse :=
  canonicalize_variant .names HostParser.names_dots sampleText sampleVariant
    (.single sampleVariant_variant)

/-- `http://./`, or with more dots. -/
def dotsText (host : List Char) (h : (HostParser.names.parse host).isSome = true) : UrlText .names where
  https := false
  username := []
  password := none
  host := host
  port := none
  path := ['/']
  query := none
  fragment := none
  host_ok := h
  path_ok := by simp [isTabOrNewline]

/-- `http://./` and `http://../` are their own canonical URLs. -/
theorem not_canonicalize_variant : ¬ ∀ (H : HostParser), DotLaws H → ∀ t t' : UrlText H,
    Relation.ReflTransGen (Variant fun _ => True) t t' → SameUrl t.parse t'.parse := by
  intro h
  have hdot : Variant (fun _ => True) (dotsText ['.'] (by decide)) (dotsText ['.', '.'] (by decide)) :=
    ⟨rfl, rfl, .inr ⟨rfl, trivial⟩, Respell.refl _, .refl _⟩
  have hhost := congrArg HttpUrl.host (h _ HostParser.names_dots _ _ (.single hdot)).1
  exact absurd hhost (by decide)

end Crawlrs

import Crawlrs.Core.Pieces
import Crawlrs.L1Data.Length
import Crawlrs.L4Parser.Extract

/-!
# Links of a page (`crawlrs-parse/src/parser.rs`, `extensions.rs`)

`resolve_links` turns the raw `href`s of a page into the URLs the crawl goes on with.
`denies` cuts the last segment off the path and looks its extension up; `Denied` says
which paths that refuses, in one line.

* `denies_iff`: the two agree, whatever the case of the extension and however many
  slashes follow it.
* `resolveLinks_eq`: what is kept is the first of each text, in the order of the page;
  what is counted are the `href`s with a refused path, repeated ones too.
-/
namespace Crawlrs

open Url Pieces

variable {H : HostParser}

namespace AnyUrl

/-- `Url::scheme`. -/
def scheme : AnyUrl H → String
  | .http u => u.scheme
  | .other u => String.ofList u.scheme

/-- `Url::path`. -/
def path : AnyUrl H → List Char
  | .http u => u.path.str
  | .other u => u.path.1

/-- What the rest of the crawler sees. -/
def toCanonical : AnyUrl H → CanonicalUrl
  | .http u => ⟨u.toUrl⟩
  | .other u => ⟨⟨String.ofList u.serialize, String.ofList u.scheme, u.host.map String.ofList⟩⟩

theorem asStr_toCanonical (u : AnyUrl H) : u.toCanonical.asStr = u.asStr := by
  cases u with
  | http u => rfl
  | other u => rfl

end AnyUrl

/-! ## Extensions -/

/-- mirrors crates/crawlrs-parse/src/extensions.rs:27-40 -/
def denyExtensions : List String :=
  ["7z", "7zip", "bz2", "gz", "rar", "tar", "xz", "zip",
    "ai", "bmp", "cdr", "drw", "dxf", "eps", "gif", "ico", "jpeg", "jpg", "mng", "pct", "png",
    "ps", "psp", "pst", "svg", "tif", "tiff", "webp",
    "aac", "aiff", "au", "mid", "mp3", "ogg", "ra", "wav", "wma",
    "3gp", "asf", "asx", "avi", "flv", "m4a", "m4v", "mov", "mp4", "mpg", "qt", "rm", "swf",
    "webm", "wmv",
    "doc", "docb", "docm", "docx", "dotm", "dotx", "odg", "odp", "ods", "odt", "potm", "potx",
    "pps", "ppt", "pptm", "pptx", "xls", "xlsm", "xltm", "xltx", "xlsx",
    "apk", "bat", "bin", "cpl", "css", "dmg", "exe", "hta", "iso", "jar", "js", "msi", "msp", "pdf",
    "py", "rb", "rss", "sh"]

/-- mirrors crates/crawlrs-parse/src/extensions.rs:55-74 -/
def deniesPath (path : List Char) : Bool :=
  match lastPiece '/' path with
  | none => false
  | some lastSegment =>
    match afterLast '.' lastSegment with
    | none => false
    | some ext =>
      if ext.isEmpty then false
      else if ext.any Char.isUpper then denyExtensions.contains (String.ofList (asciiLowercase ext))
      else denyExtensions.contains (String.ofList ext)

/-- mirrors crates/crawlrs-parse/src/extensions.rs:55-74 -/
def denies (url : AnyUrl H) : Bool := deniesPath url.path

/-- Up to slashes at its end, the path ends in a dot and an extension of the list, in any case. -/
def Denied (path : List Char) : Prop :=
  ∃ front ext n, path = front ++ '.' :: ext ++ List.replicate n '/' ∧
    String.ofList (asciiLowercase ext) ∈ denyExtensions

theorem toLower_of_not_isUpper {c : Char} (h : c.isUpper = false) : c.toLower = c := by
  unfold Char.toLower
  unfold Char.isUpper at h
  rw [dif_neg]
  simpa using h

/-- Without a capital letter the text is its own lower case. -/
theorem asciiLowercase_of_not_any {ext : List Char} (h : ext.any Char.isUpper = false) :
    asciiLowercase ext = ext := by
  have hsame : ∀ c ∈ ext, c.toLower = id c := by
    intro c hc
    exact toLower_of_not_isUpper (by simpa using List.any_eq_false.1 h c hc)
  rw [asciiLowercase, List.map_congr_left hsame, List.map_id]

theorem denyExtensions_plain :
    ∀ e ∈ denyExtensions, e.toList ≠ [] ∧ '.' ∉ e.toList ∧ '/' ∉ e.toList := by
  decide

/-- An extension of the list has neither a dot nor a slash, and is not empty. -/
theorem plain_of_denied {ext : List Char} (h : String.ofList (asciiLowercase ext) ∈ denyExtensions) :
    ext ≠ [] ∧ '.' ∉ ext ∧ '/' ∉ ext := by
  obtain ⟨hne, hdot, hslash⟩ := denyExtensions_plain _ h
  rw [String.toList_ofList] at hne hdot hslash
  refine ⟨fun hnil => hne (by rw [hnil]; rfl), fun hmem => hdot ?_, fun hmem => hslash ?_⟩
  · exact List.mem_map.2 ⟨'.', hmem, by decide⟩
  · exact List.mem_map.2 ⟨'/', hmem, by decide⟩

theorem deniesPath_eq {path segment ext : List Char} (hseg : lastPiece '/' path = some segment)
    (hext : afterLast '.' segment = some ext) (hne : ext ≠ []) :
    deniesPath path = denyExtensions.contains (String.ofList (asciiLowercase ext)) := by
  simp only [deniesPath, hseg, hext, List.isEmpty_iff, hne, if_false]
  cases hany : ext.any Char.isUpper with
  | true => rfl
  | false => rw [asciiLowercase_of_not_any hany]; rfl

/-- The shortcut for a lower-case extension changes nothing, and neither do slashes at the end. -/
theorem denies_iff (path : List Char) : deniesPath path = true ↔ Denied path := by
  constructor
  · intro h
    obtain ⟨segment, hseg⟩ : ∃ segment, lastPiece '/' path = some segment := by
      cases hseg : lastPiece '/' path with
      | none => simp [deniesPath, hseg] at h
      | some segment => exact ⟨segment, rfl⟩
    obtain ⟨ext, hext⟩ : ∃ ext, afterLast '.' segment = some ext := by
      cases hext : afterLast '.' segment with
      | none => simp [deniesPath, hseg, hext] at h
      | some ext => exact ⟨ext, rfl⟩
    have hne : ext ≠ [] := by
      rintro rfl
      simp [deniesPath, hseg, hext] at h
    rw [deniesPath_eq hseg hext hne, List.contains_iff_mem] at h
    obtain ⟨-, -, dirs, n, hpath, -⟩ := lastPiece_eq_some.1 hseg
    obtain ⟨-, name, hsegment⟩ := afterLast_eq_some.1 hext
    refine ⟨dirs ++ name, ext, n, ?_, h⟩
    rw [hpath, hsegment, List.append_assoc dirs name]
  · rintro ⟨front, ext, n, rfl, hmem⟩
    obtain ⟨hne, hdot, hslash⟩ := plain_of_denied hmem
    -- the last segment starts behind the last slash of `front`
    have hcut := List.rdropWhile_append_rtakeWhile (p := fun c => decide (c ≠ '/')) (l := front)
    have hseg : lastPiece '/' (front ++ '.' :: ext ++ List.replicate n '/') =
        some (front.rtakeWhile (fun c => c ≠ '/') ++ '.' :: ext) := by
      refine lastPiece_eq_some.2 ⟨by simp, ?_, front.rdropWhile fun c => c ≠ '/', n, ?_, front_of_rdropWhile _ _⟩
      · simp only [List.mem_append, List.mem_cons, not_or]
        exact ⟨notMem_rtakeWhile _ _, by decide, hslash⟩
      · rw [← List.append_assoc (front.rdropWhile _), hcut]
    have hext := afterLast_eq_some.2 ⟨hdot, front.rtakeWhile (fun c => c ≠ '/'), rfl⟩
    rw [deniesPath_eq hseg hext hne, List.contains_iff_mem]
    exact hmem

/-! ## The list of a page -/

namespace UrlCrate

variable (C : UrlCrate H)

/-- One turn of the loop: `continue`, or the URL that is counted or kept.
mirrors crates/crawlrs-parse/src/parser.rs:242-252 -/
def resolve (base : AnyUrl H) (href : String) : Option (AnyUrl H) :=
  let trimmed := Runs.trim isWhitespace href.toList
  if trimmed.isEmpty || trimmed.head? == some '#' then none
  else match C.parseRelative base (String.ofList trimmed) with
    | .error _ => none
    | .ok resolved => if resolved.toCanonical.isHttp then some resolved else none

/-- The locals of the loop: the texts seen, the links and the count. -/
structure Kept (H : HostParser) where
  seen : List String
  out : List (AnyUrl H)
  extensionDenied : Nat

/-- mirrors crates/crawlrs-parse/src/parser.rs:241-261 -/
def resolveStep (base : AnyUrl H) (k : Kept H) (href : String) : Kept H :=
  match C.resolve base href with
  | none => k
  | some resolved =>
    if denies resolved then { k with extensionDenied := k.extensionDenied + 1 }
    else if resolved.asStr ∈ k.seen then k
    else { k with seen := resolved.asStr :: k.seen, out := k.out ++ [resolved] }

/-- `Url` compares by its text.
mirrors crates/crawlrs-parse/src/parser.rs:232-261 -/
def resolveLinks (raw : List String) (base : AnyUrl H) : List (AnyUrl H) × Nat :=
  let k := raw.foldl (C.resolveStep base) ⟨[], [], 0⟩
  (k.out, k.extensionDenied)

/-- The URL an `href` stands for, if the crawl wants it. -/
def wanted (base : AnyUrl H) (href : String) : Option (AnyUrl H) :=
  (C.resolve base href).filter fun u => !denies u

def refused (base : AnyUrl H) (href : String) : Bool := (C.resolve base href).any denies

theorem foldl_resolveStep (base : AnyUrl H) (raw : List String) (k : Kept H) :
    (raw.foldl (C.resolveStep base) k).out =
        k.out ++ firsts AnyUrl.asStr k.seen (raw.filterMap (C.wanted base)) ∧
      (raw.foldl (C.resolveStep base) k).extensionDenied =
        k.extensionDenied + raw.countP (C.refused base) := by
  induction raw generalizing k with
  | nil => simp [firsts]
  | cons href raw ih =>
    rw [List.foldl_cons, List.countP_cons]
    obtain ⟨hout, hcount⟩ := ih (C.resolveStep base k href)
    rw [hout, hcount]
    cases hres : C.resolve base href with
    | none =>
      have hwanted : C.wanted base href = none := by simp [wanted, hres]
      rw [List.filterMap_cons_none hwanted]
      simp [resolveStep, refused, hres]
    | some u =>
      cases hdeny : denies u with
      | true =>
        have hwanted : C.wanted base href = none := by simp [wanted, hres, hdeny]
        rw [List.filterMap_cons_none hwanted]
        simp [resolveStep, refused, hres, hdeny, Nat.add_assoc, Nat.add_comm]
      | false =>
        have hwanted : C.wanted base href = some u := by simp [wanted, hres, hdeny]
        rw [List.filterMap_cons_some hwanted, firsts]
        by_cases hseen : u.asStr ∈ k.seen
        · simp [resolveStep, refused, hres, hdeny, hseen]
        · simp [resolveStep, refused, hres, hdeny, hseen]

/-- The loop keeps the first of each text among the wanted ones, and counts the refused ones. -/
theorem resolveLinks_eq (raw : List String) (base : AnyUrl H) :
    C.resolveLinks raw base =
      (firsts AnyUrl.asStr [] (raw.filterMap (C.wanted base)), raw.countP (C.refused base)) := by
  obtain ⟨hout, hcount⟩ := C.foldl_resolveStep base raw ⟨[], [], 0⟩
  rw [resolveLinks, hout, hcount, List.nil_append, Nat.zero_add]

/-- What is wanted can be fetched, is worth a fetch and fits. -/
theorem wanted_spec {base u : AnyUrl H} {href : String} (h : C.wanted base href = some u) :
    u.toCanonical.isHttp = true ∧ ¬ Denied u.path ∧ u.asStr.utf8ByteSize ≤ maxUrlLen := by
  rw [wanted, Option.filter_eq_some_iff] at h
  obtain ⟨hres, hdeny⟩ := h
  unfold resolve at hres
  dsimp only at hres
  split at hres
  · cases hres
  · split at hres
    · cases hres
    · rename_i resolved hparse
      split at hres
      · rename_i hhttp
        cases hres
        refine ⟨hhttp, fun hd => ?_, C.parseRelative_le hparse⟩
        rw [denies, (denies_iff _).2 hd] at hdeny
        cases hdeny
      · cases hres

end UrlCrate

end Crawlrs

import Crawlrs.L4Parser.Links
import Crawlrs.L4Runtime.Outbox
import Mathlib.Logic.Relation

/-!
# From a response to a document, and its links to the outbox (`crawlrs-parse/src/parser.rs`)

`parse` skips a body that is no text, runs the handlers over the rest, and resolves the
links against the page's URL or its `<base href>`. `read` says what comes out in terms of
what the calls of the handlers carry, put together.

* `parse_recut`: `parse` is `read`, and `read` does not see how a text was cut into chunks
  or what stands inside a `<script>`.
* `outbound_links`: the links are the wanted ones of the page, each once and in its order.
* `links_committed`: so a commit writes one row for every kept link, and a second one none.
-/
namespace Crawlrs.Parser

open Url Pieces

variable {H : HostParser}

/-- A response with its URL as the `url` crate has it. -/
structure Page (H : HostParser) where
  url : AnyUrl H
  status : UInt16
  headers : List (String × String)
  body : Bytes

def Page.response (page : Page H) : FetchResponse := ⟨page.url.toCanonical, page.status, page.headers, page.body⟩

/-! ## What is not parsed -/

/-- mirrors crates/crawlrs-parse/src/parser.rs:290-305 -/
def binaryContentTypes : List String :=
  ["application/pdf", "application/zip", "application/gzip", "application/x-gzip", "application/x-tar",
    "application/x-7z-compressed", "application/x-rar-compressed", "application/x-bzip2",
    "application/octet-stream", "application/msword", "application/vnd.ms-excel",
    "application/vnd.openxmlformats-officedocument.wordprocessingml.document",
    "application/vnd.openxmlformats-officedocument.spreadsheetml.sheet",
    "application/vnd.openxmlformats-officedocument.presentationml.presentation"]

/-- mirrors crates/crawlrs-parse/src/parser.rs:307 -/
def binaryContentTypePrefixes : List String := ["image/", "audio/", "video/", "font/"]

/-- mirrors crates/crawlrs-parse/src/parser.rs:309-324 -/
def isBinaryContentType (ct : List Char) : Bool :=
  let trimmed := Runs.trim isWhitespace (ct.takeWhile fun c => c ≠ ';')
  if trimmed.isEmpty then false
  else if binaryContentTypes.any fun candidate => eqIgnoreAsciiCase trimmed candidate.toList then true
  else binaryContentTypePrefixes.any fun pre =>
    (asciiLowercase pre.toList).isPrefixOf (asciiLowercase trimmed)

/-- mirrors crates/crawlrs-parse/src/parser.rs:274-288 -/
def skipReason (response : FetchResponse) : Option String :=
  let contentType := ((response.headers.find? fun header =>
    eqIgnoreAsciiCase header.1.toList "content-type".toList).map Prod.snd).getD ""
  if isBinaryContentType contentType.toList then some "binary_content_type"
  else if !response.body.isEmpty && !response.body.toByteArray.validateUTF8 then some "invalid_utf8"
  else none

/-- `truncate` and `drain`: the title without the whitespace around it, if anything is left. -/
def trimTitle (raw : List Char) : Option String :=
  let raw := (raw.rdropWhile isWhitespace).dropWhile isWhitespace
  if raw.isEmpty then none else some (String.ofList raw)

/-! ## What the calls carry -/

def Event.titleChunk : Event → Option (List Char)
  | .titleText chunk => some chunk
  | _ => none

def Event.baseHref : Event → Option String
  | .base href => href
  | _ => none

def Event.href : Event → Option String
  | .anchor href => href
  | _ => none

/-- The number of `<script>` and `<style>` that are open after the calls. -/
def depthAfter (depth : UInt32) : List Event → UInt32
  | [] => depth
  | .excludedStart :: rest => depthAfter (depth + 1) rest
  | .excludedEnd :: rest => depthAfter (if depth = 0 then 0 else depth - 1) rest
  | _ :: rest => depthAfter depth rest

/-- One text in one chunk or in two, a chunk with nothing in it, a chunk nobody sees. -/
inductive Recut : List Event → List Event → Prop
  | title (l r a b) : Recut (l ++ .titleText (a ++ b) :: r) (l ++ .titleText a :: .titleText b :: r)
  | body (l r a b) : Recut (l ++ .bodyText (a ++ b) :: r) (l ++ .bodyText a :: .bodyText b :: r)
  | emptyTitle (l r) : Recut (l ++ r) (l ++ .titleText [] :: r)
  | emptyBody (l r) : Recut (l ++ r) (l ++ .bodyText [] :: r)
  | hidden (l r a) : depthAfter 0 l ≠ 0 → Recut (l ++ r) (l ++ .bodyText a :: r)

def nonblank (text : List Char) : Option String := if text = [] then none else some (String.ofList text)

def titleOf (events : List Event) : List Char := (events.filterMap Event.titleChunk).flatten

section Document

variable (C : UrlCrate H)

/-- mirrors crates/crawlrs-parse/src/parser.rs:71-80 -/
def effectiveBase (url : AnyUrl H) (baseHref : Option String) : AnyUrl H :=
  match baseHref with
  | some href =>
    match C.parseRelative url href with
    | .ok base => base
    | .error _ => url
  | none => url

/-- mirrors crates/crawlrs-parse/src/parser.rs:48-116 -/
def parse (rewrite : Bytes → Except RewriteError (List Event)) (page : Page H) :
    Except Error ParsedDocument :=
  match skipReason page.response with
  | some _ =>
    .ok { url := page.url.toCanonical, status := page.status, title := none, text := none, outboundLinks := [] }
  | none =>
    match extractHtml rewrite page.body with
    | .error err => .error err
    | .ok extracted =>
      let outboundLinks := (C.resolveLinks extracted.rawLinks (effectiveBase C page.url extracted.baseHref)).1
      .ok {
        url := page.url.toCanonical
        status := page.status
        title := extracted.title.bind trimTitle
        text := if extracted.collapsedText.isEmpty then none else some (String.ofList extracted.collapsedText)
        outboundLinks := outboundLinks.map AnyUrl.toCanonical }

/-- The base the links of a page are read against: the last `<base href>`, if it is a URL. -/
def baseOf (page : Page H) (events : List Event) : AnyUrl H :=
  effectiveBase C page.url (events.filterMap Event.baseHref).getLast?

/-- The wanted URLs of a page, as its links come. -/
def wantedOf (page : Page H) (events : List Event) : List (AnyUrl H) :=
  (events.filterMap Event.href).filterMap (C.wanted (baseOf C page events))

/-- The document of a page, from what the calls carry. -/
def read (page : Page H) (events : List Event) : ParsedDocument where
  url := page.url.toCanonical
  status := page.status
  title := nonblank (Runs.trim isWhitespace (titleOf events))
  text := nonblank (Runs.trim isWhitespace (Runs.squeeze isWhitespace ' ' (visible 0 events).flatten))
  outboundLinks := (firsts AnyUrl.asStr [] (wantedOf C page events)).map AnyUrl.toCanonical

/-- A body that was skipped. -/
def unread (page : Page H) : ParsedDocument := ⟨page.url.toCanonical, page.status, none, none, []⟩

end Document

/-! ## The handlers -/

theorem foldl_handle_title (events : List Event) (l : Locals) :
    ((events.foldl handle l).out.title.getD []) = l.out.title.getD [] ++ titleOf events := by
  induction events generalizing l with
  | nil => simp [titleOf]
  | cons e events ih =>
    rw [List.foldl_cons, ih]
    cases e with
    | titleText chunk => cases htitle : l.out.title <;> simp [handle, htitle, titleOf, Event.titleChunk]
    | base href => cases href <;> rfl
    | anchor href => cases href <;> rfl
    | excludedStart => rfl
    | excludedEnd => rfl
    | bodyText chunk =>
      rw [handle]
      split <;> rfl

theorem foldl_handle_base (events : List Event) (l : Locals) :
    (events.foldl handle l).out.baseHref = ((events.filterMap Event.baseHref).getLast?).or l.out.baseHref := by
  induction events generalizing l with
  | nil => rfl
  | cons e events ih =>
    rw [List.foldl_cons, ih]
    cases e with
    | titleText chunk => rfl
    | base href =>
      cases href with
      | none => rfl
      | some href =>
        have hcons : (Event.base (some href) :: events).filterMap Event.baseHref =
            href :: events.filterMap Event.baseHref := rfl
        rw [hcons, List.getLast?_cons]
        cases (events.filterMap Event.baseHref).getLast? <;> rfl
    | anchor href => cases href <;> rfl
    | excludedStart => rfl
    | excludedEnd => rfl
    | bodyText chunk =>
      rw [handle]
      split <;> rfl

theorem foldl_handle_links (events : List Event) (l : Locals) :
    (events.foldl handle l).out.rawLinks = l.out.rawLinks ++ events.filterMap Event.href := by
  induction events generalizing l with
  | nil => simp
  | cons e events ih =>
    rw [List.foldl_cons, ih]
    cases e with
    | titleText chunk => rfl
    | base href => cases href <;> rfl
    | anchor href =>
      cases href with
      | none => rfl
      | some href =>
        have hcons : (Event.anchor (some href) :: events).filterMap Event.href =
            href :: events.filterMap Event.href := rfl
        rw [hcons]
        simp [handle]
    | excludedStart => rfl
    | excludedEnd => rfl
    | bodyText chunk =>
      rw [handle]
      split <;> rfl

/-- What the handlers leave, from what the calls carry. -/
theorem extractHtml_eq (rewrite : Bytes → Except RewriteError (List Event)) (body : Bytes)
    (events : List Event) (hevents : rewrite body = .ok events) :
    ∃ out, extractHtml rewrite body = .ok out ∧
      out.title.getD [] = titleOf events ∧
      out.baseHref = (events.filterMap Event.baseHref).getLast? ∧
      out.rawLinks = events.filterMap Event.href ∧
      out.collapsedText =
        Runs.trim isWhitespace (Runs.squeeze isWhitespace ' ' (visible 0 events).flatten) := by
  have htext : (events.foldl handle .init).out.collapsedText =
      Runs.emit isWhitespace ' ' true (visible 0 events).flatten := foldl_handle events .init
  have hbase : (events.foldl handle .init).out.baseHref = (events.filterMap Event.baseHref).getLast? := by
    simpa [Locals.init] using foldl_handle_base events .init
  simp only [extractHtml, hevents]
  refine ⟨_, rfl, ?_, hbase, ?_, ?_⟩
  · simpa [Locals.init] using foldl_handle_title events .init
  · simpa [Locals.init] using foldl_handle_links events .init
  · simp only [htext]
    exact Runs.trimmed_emit (by decide) _

/-- `trim` in the order of `trimTitle`. -/
theorem trimTitle_eq (raw : List Char) : trimTitle raw = nonblank (Runs.trim isWhitespace raw) := by
  have hswap : (raw.rdropWhile isWhitespace).dropWhile isWhitespace = Runs.trim isWhitespace raw :=
    Runs.dropWhile_rdropWhile _ _
  simp only [trimTitle, nonblank, hswap, List.isEmpty_iff]

/-! ## The document -/

section Document

variable (C : UrlCrate H)

theorem title_bind (title : Option (List Char)) : title.bind trimTitle = trimTitle (title.getD []) := by
  cases title with
  | none => rfl
  | some raw => rfl

/-- For every page: nothing, the error of the rewriter, or what is read off its calls. -/
theorem parse_eq (rewrite : Bytes → Except RewriteError (List Event)) (page : Page H) :
    parse C rewrite page =
      if (skipReason page.response).isSome then .ok (unread page)
      else ((rewrite page.body).mapError RewriteError.toError).map (read C page) := by
  unfold parse
  cases hskip : skipReason page.response with
  | some reason => rfl
  | none =>
    cases hrewrite : rewrite page.body with
    | error err =>
      have herr : extractHtml rewrite page.body = .error err.toError := by rw [extractHtml, hrewrite]
      simp [herr, Except.mapError, Except.map]
    | ok events =>
      obtain ⟨out, hout, htitle, hbase, hlinks, htext⟩ := extractHtml_eq rewrite page.body events hrewrite
      simp only [hout, Option.isSome_none, Bool.false_eq_true, if_false, Except.mapError, Except.map]
      rw [title_bind, htitle, trimTitle_eq, hbase, hlinks, UrlCrate.resolveLinks_eq]
      simp only [read, wantedOf, baseOf, nonblank, htext, List.isEmpty_iff]

theorem parse_read {rewrite : Bytes → Except RewriteError (List Event)} {page : Page H} {doc : ParsedDocument}
    (hdoc : parse C rewrite page = .ok doc) (hread : skipReason page.response = none) :
    ∃ events, rewrite page.body = .ok events ∧ doc = read C page events := by
  rw [parse_eq, hread] at hdoc
  cases hrewrite : rewrite page.body with
  | error err =>
    rw [hrewrite] at hdoc
    cases hdoc
  | ok events =>
    rw [hrewrite] at hdoc
    cases hdoc
    exact ⟨events, rfl, rfl⟩

end Document

theorem visible_append (depth : UInt32) (l r : List Event) :
    visible depth (l ++ r) = visible depth l ++ visible (depthAfter depth l) r := by
  induction l generalizing depth with
  | nil => rfl
  | cons e l ih =>
    cases e with
    | titleText chunk => exact ih depth
    | base href => exact ih depth
    | anchor href => exact ih depth
    | excludedStart => exact ih _
    | excludedEnd => exact ih _
    | bodyText chunk =>
      simp only [List.cons_append, visible, depthAfter, ih]
      split <;> rfl

/-- Cutting a text elsewhere changes nothing that is read off the calls. -/
theorem Recut.same {events events' : List Event} (h : Recut events events') :
    titleOf events = titleOf events' ∧
      events.filterMap Event.baseHref = events'.filterMap Event.baseHref ∧
      events.filterMap Event.href = events'.filterMap Event.href ∧
      (visible 0 events).flatten = (visible 0 events').flatten := by
  cases h with
  | title l r a b =>
    simp [titleOf, List.filterMap_cons, Event.titleChunk, Event.baseHref, Event.href, visible_append, visible]
  | body l r a b =>
    by_cases hd : depthAfter 0 l = 0 <;>
      simp [titleOf, List.filterMap_cons, Event.titleChunk, Event.baseHref, Event.href, visible_append, visible, hd]
  | emptyTitle l r =>
    simp [titleOf, List.filterMap_cons, Event.titleChunk, Event.baseHref, Event.href, visible_append, visible]
  | emptyBody l r =>
    by_cases hd : depthAfter 0 l = 0 <;>
      simp [titleOf, List.filterMap_cons, Event.titleChunk, Event.baseHref, Event.href, visible_append, visible, hd]
  | hidden l r a hd =>
    simp [titleOf, List.filterMap_cons, Event.titleChunk, Event.baseHref, Event.href, visible_append, visible, hd]

theorem read_recut (C : UrlCrate H) (page : Page H) {events events' : List Event}
    (h : Relation.EqvGen Recut events events') : read C page events = read C page events' := by
  induction h with
  | rel _ _ h =>
    obtain ⟨htitle, hbase, hlinks, htext⟩ := h.same
    simp only [read, wantedOf, baseOf, htitle, hbase, hlinks, htext]
  | refl _ => rfl
  | symm _ _ _ ih => exact ih.symm
  | trans _ _ _ _ _ ih₁ ih₂ => exact ih₁.trans ih₂

/-- For every page and every rewriter: what `parse` answers is read off the calls, and stays the same
for any other way to cut the texts of the page and any text in its scripts and styles. -/
theorem parse_recut (C : UrlCrate H) (rewrite : Bytes → Except RewriteError (List Event)) (page : Page H) :
    parse C rewrite page =
        (if (skipReason page.response).isSome then .ok (unread page)
        else ((rewrite page.body).mapError RewriteError.toError).map (read C page)) ∧
      ∀ (events events' : List Event), rewrite page.body = .ok events →
        Relation.EqvGen Recut events events' →
        parse C (fun _ => .ok events') page = parse C rewrite page := by
  refine ⟨parse_eq C rewrite page, fun events events' hevents hcut => ?_⟩
  rw [parse_eq, parse_eq, hevents]
  simp only [Except.mapError, Except.map, read_recut C page hcut]

/-! ## The links -/

/-- What the links of a page are: each text once, where it first comes; URLs the crawl can fetch; and
every one of the page's. -/
structure LinksOf (C : UrlCrate H) (page : Page H) (events : List Event) (links : List CanonicalUrl) :
    Prop where
  order : links.map CanonicalUrl.asStr = ((wantedOf C page events).map AnyUrl.asStr).eraseDups
  nodup : (links.map CanonicalUrl.asStr).Nodup
  sound : ∀ u ∈ links, u.isHttp = true ∧ u.asStr.utf8ByteSize ≤ maxUrlLen ∧
    ∃ (href : String) (v : AnyUrl H), .anchor (some href) ∈ events ∧
      C.resolve (baseOf C page events) href = some v ∧ ¬ Denied v.path ∧ u = v.toCanonical
  complete : ∀ (href : String) (v : AnyUrl H), .anchor (some href) ∈ events →
    C.resolve (baseOf C page events) href = some v → ¬ Denied v.path →
    v.asStr ∈ links.map CanonicalUrl.asStr

theorem map_asStr_toCanonical (links : List (AnyUrl H)) :
    (links.map AnyUrl.toCanonical).map CanonicalUrl.asStr = links.map AnyUrl.asStr := by
  rw [List.map_map]
  exact List.map_congr_left fun u _ => u.asStr_toCanonical

theorem mem_hrefs {events : List Event} {href : String} :
    href ∈ events.filterMap Event.href ↔ Event.anchor (some href) ∈ events := by
  rw [List.mem_filterMap]
  constructor
  · rintro ⟨e, he, hhref⟩
    cases e with
    | anchor h =>
      cases hhref
      exact he
    | titleText chunk => cases hhref
    | base h => cases hhref
    | excludedStart => cases hhref
    | excludedEnd => cases hhref
    | bodyText chunk => cases hhref
  · exact fun h => ⟨_, h, rfl⟩

theorem read_links (C : UrlCrate H) (page : Page H) (events : List Event) :
    LinksOf C page events (read C page events).outboundLinks := by
  have horder : (read C page events).outboundLinks.map CanonicalUrl.asStr =
      ((wantedOf C page events).map AnyUrl.asStr).eraseDups := by
    rw [read, map_asStr_toCanonical, map_firsts]
  refine ⟨horder, ?_, ?_, ?_⟩
  · rw [horder]
    exact nodup_eraseDups _
  · intro u hu
    obtain ⟨v, hv, rfl⟩ := List.mem_map.1 hu
    obtain ⟨href, hhref, hwanted⟩ := List.mem_filterMap.1 ((firsts_sublist _ _ _).subset hv)
    obtain ⟨hhttp, hdenied, hsize⟩ := C.wanted_spec hwanted
    have hresolve := (Option.filter_eq_some_iff.1 hwanted).1
    rw [v.asStr_toCanonical]
    exact ⟨hhttp, hsize, href, v, mem_hrefs.1 hhref, hresolve, hdenied, rfl⟩
  · intro href v hhref hresolve hdenied
    have hdeny : denies v = false := by
      rw [← Bool.not_eq_true, denies, denies_iff]
      exact hdenied
    have hwanted : C.wanted (baseOf C page events) href = some v := by
      rw [UrlCrate.wanted, hresolve, Option.filter_some, hdeny]
      rfl
    have hmem : v ∈ wantedOf C page events := List.mem_filterMap.2 ⟨href, mem_hrefs.2 hhref, hwanted⟩
    rw [horder, List.mem_eraseDups]
    exact List.mem_map_of_mem hmem

/-- For every page that is read: its document lists the links the crawl wants. -/
theorem outbound_links (C : UrlCrate H) (rewrite : Bytes → Except RewriteError (List Event)) (page : Page H)
    (doc : ParsedDocument) (hdoc : parse C rewrite page = .ok doc)
    (hread : skipReason page.response = none) :
    ∃ events, rewrite page.body = .ok events ∧ LinksOf C page events doc.outboundLinks := by
  obtain ⟨events, hevents, rfl⟩ := parse_read C hdoc hread
  exact ⟨events, hevents, read_links C page events⟩

/-! ### A page with five links -/

theorem validateUTF8_utf8 (text : String) : (utf8 text).toByteArray.validateUTF8 = true :=
  ByteArray.validateUTF8_eq_true_iff.2 ByteArray.isValidUTF8_utf8Encode

theorem sampleHost_ok : HostParser.names.parse ['a', '.', 't', 'e', 's', 't'] = some ['a', '.', 't', 'e', 's', 't'] := by
  decide

theorem samplePort_ok : (none : Option UInt16) ≠ some (defaultPort true) := by decide

/-- `https://a.test` with a path. -/
def sampleUrl (path : List Char) : HttpUrl .names where
  https := true
  username := []
  password := none
  host := ['a', '.', 't', 'e', 's', 't']
  port := none
  path := setPath path
  query := none
  fragment := none
  host_ok := sampleHost_ok
  port_ok := samplePort_ok

/-- The second link has a refused extension, the third is the first with blanks, the last is a fragment. -/
def sampleHrefs : List String :=
  ["https://a.test/b", "https://a.test/c.PDF/", " https://a.test/b ", "https://a.test/d", "#top"]

def sampleBody : String :=
  "<title>Two links</title><body><a href=https://a.test/b><a href=https://a.test/c.PDF/>" ++
    "<a href=' https://a.test/b '><a href=https://a.test/d><a href='#top'>one <script></script> two"

def samplePage : Page .names where
  url := .http (sampleUrl ['/'])
  status := 200
  headers := [("Content-Type", "text/html")]
  body := utf8 sampleBody

/-- The calls for the page, with its title, the text before the script and the script in chunks. -/
def sampleCalls (title text script : List (List Char)) : List Event :=
  title.map .titleText ++ (sampleHrefs.map fun href => .anchor (some href)) ++ text.map .bodyText ++
    .excludedStart :: script.map .bodyText ++ [.excludedEnd, .bodyText [' ', 't', 'w', 'o']]

def sampleTitle : List Char := ['T', 'w', 'o', ' ', 'l', 'i', 'n', 'k', 's']

def sampleRewrite (_ : Bytes) : Except RewriteError (List Event) :=
  .ok (sampleCalls [sampleTitle] [['o', 'n', 'e', ' ']] [])

def sampleDocument : ParsedDocument where
  url := (AnyUrl.http (sampleUrl ['/'])).toCanonical
  status := 200
  title := some (String.ofList sampleTitle)
  text := some (String.ofList ['o', 'n', 'e', ' ', 't', 'w', 'o'])
  outboundLinks :=
    [(AnyUrl.http (sampleUrl ['/', 'b'])).toCanonical, (AnyUrl.http (sampleUrl ['/', 'd'])).toCanonical]

theorem skipReason_sample : skipReason samplePage.response = none := by
  have htype : isBinaryContentType "text/html".toList = false := by decide
  have hbody : samplePage.response.body = utf8 sampleBody := by simp only [Page.response, samplePage]
  have hutf8 : samplePage.response.body.toByteArray.validateUTF8 = true := by
    rw [hbody]
    exact validateUTF8_utf8 sampleBody
  have hheader : samplePage.response.headers.find?
      (fun header => eqIgnoreAsciiCase header.1.toList "content-type".toList) =
        some ("Content-Type", "text/html") := by decide
  simp only [skipReason, hutf8, hheader, Option.map_some, Option.getD_some, htype]
  simp

theorem resolveLinks_sample : ((UrlCrate.ofParser .plain).resolveLinks sampleHrefs samplePage.url).1 =
    [.http (sampleUrl ['/', 'b']), .http (sampleUrl ['/', 'd'])] := by
  have hwanted : sampleHrefs.filterMap ((UrlCrate.ofParser .plain).wanted samplePage.url) =
      [.http (sampleUrl ['/', 'b']), .http (sampleUrl ['/', 'b']), .http (sampleUrl ['/', 'd'])] := rfl
  have hne : (AnyUrl.http (sampleUrl ['/', 'd'])).asStr ≠ (AnyUrl.http (sampleUrl ['/', 'b'])).asStr := by decide
  rw [UrlCrate.resolveLinks_eq, hwanted]
  simp [firsts, hne]

theorem parse_sample : parse (UrlCrate.ofParser .plain) sampleRewrite samplePage = .ok sampleDocument := by
  have hpage : extractHtml sampleRewrite samplePage.body =
      .ok ⟨some sampleTitle, none, sampleHrefs, ['o', 'n', 'e', ' ', 't', 'w', 'o']⟩ := rfl
  have hbase : effectiveBase (UrlCrate.ofParser .plain) samplePage.url none = samplePage.url := rfl
  have htitle : (some sampleTitle).bind trimTitle = sampleDocument.title := rfl
  rw [parse, skipReason_sample, hpage]
  dsimp only
  rw [hbase, htitle, resolveLinks_sample]
  rfl

/-- The title and the text are cut in two, and the script gets a text. -/
theorem parse_recut_sample :
    parse (UrlCrate.ofParser .plain) (fun _ => .ok (sampleCalls
        [['T', 'w'], ['o', ' ', 'l', 'i', 'n', 'k', 's']] [['o', 'n'], ['e', ' ']] [['v', 'a', 'r']])) samplePage =
      .ok sampleDocument := by
  let links : List Event := sampleHrefs.map fun href => .anchor (some href)
  let cut : List (List Char) := [['T', 'w'], ['o', ' ', 'l', 'i', 'n', 'k', 's']]
  have htitle : Recut (sampleCalls [sampleTitle] [['o', 'n', 'e', ' ']] [])
      (sampleCalls cut [['o', 'n', 'e', ' ']] []) := .title [] _ ['T', 'w'] _
  have hbody : Recut (sampleCalls cut [['o', 'n', 'e', ' ']] []) (sampleCalls cut [['o', 'n'], ['e', ' ']] []) :=
    .body (cut.map .titleText ++ links) _ ['o', 'n'] _
  have hscript : Recut (sampleCalls cut [['o', 'n'], ['e', ' ']] [])
      (sampleCalls cut [['o', 'n'], ['e', ' ']] [['v', 'a', 'r']]) :=
    .hidden (cut.map .titleText ++ links ++ [.bodyText ['o', 'n'], .bodyText ['e', ' '], .excludedStart])
      [.excludedEnd, .bodyText [' ', 't', 'w', 'o']] ['v', 'a', 'r'] (by decide)
  have hsame := (parse_recut (UrlCrate.ofParser .plain) sampleRewrite samplePage).2 _ _ rfl
    (.trans _ _ _ (.rel _ _ htitle) (.trans _ _ _ (.rel _ _ hbody) (.rel _ _ hscript)))
  exact hsame.trans parse_sample

theorem outbound_links_sample :
    sampleDocument.outboundLinks.map CanonicalUrl.asStr = ["https://a.test/b", "https://a.test/d"] ∧
      ∃ events, sampleRewrite samplePage.body = .ok events ∧
        LinksOf (UrlCrate.ofParser .plain) samplePage events sampleDocument.outboundLinks :=
  ⟨rfl, outbound_links _ _ _ _ parse_sample skipReason_sample⟩

end Crawlrs.Parser

/-! ## The commit -/

namespace Crawlrs

open Url Pieces

variable {H : HostParser}

namespace OutboxTable

/-- The row of a link. -/
def rowOf (parentUrl parentAttemptId : String) (id : Nat) (child : UrlEntry) : OutboxRow :=
  ⟨id, child.url.asStr, child.depth, child.discoveredFrom.map CanonicalUrl.asStr, parentUrl, parentAttemptId, false⟩

/-- The rows of links that get consecutive ids. -/
def rowsOf (parentUrl parentAttemptId : String) : Nat → List UrlEntry → List OutboxRow
  | _, [] => []
  | id, child :: rest => rowOf parentUrl parentAttemptId id child :: rowsOf parentUrl parentAttemptId (id + 1) rest

/-- Links that are distinct and new each get a row, and no id is left out. -/
theorem foldl_insert_fresh {u a : String} {children : List UrlEntry} {t : OutboxTable}
    (hnodup : (children.map fun c => c.url.asStr).Nodup)
    (hfresh : ∀ c ∈ children, t.conflicts u a c.url.asStr = false) :
    (children.foldl (.insert u a) t).rows = t.rows ++ rowsOf u a (t.seq + 1) children ∧
      (children.foldl (.insert u a) t).seq = t.seq + children.length := by
  induction children generalizing t with
  | nil => simp [rowsOf]
  | cons c children ih =>
    rw [List.map_cons, List.nodup_cons] at hnodup
    have hrows : (t.insert u a c).rows = t.rows ++ [rowOf u a (t.seq + 1) c] := by
      rw [insert, hfresh c List.mem_cons_self]
      rfl
    have hseq : (t.insert u a c).seq = t.seq + 1 := by
      rw [insert, hfresh c List.mem_cons_self]
      rfl
    have hfresh' : ∀ c' ∈ children, (t.insert u a c).conflicts u a c'.url.asStr = false := by
      intro c' hc'
      have hne : c.url.asStr ≠ c'.url.asStr :=
        fun he => hnodup.1 (he ▸ List.mem_map_of_mem (f := fun c => c.url.asStr) hc')
      have hold := hfresh c' (List.mem_cons_of_mem _ hc')
      rw [conflicts] at hold ⊢
      rw [hrows, List.any_append, hold]
      simp [rowOf, hne]
    obtain ⟨hrest, hcount⟩ := ih hnodup.2 hfresh'
    rw [List.foldl_cons, hrest, hcount, hrows, hseq, List.append_assoc, List.length_cons]
    exact ⟨rfl, by omega⟩

end OutboxTable

/-- Kept links are among the document's, in its order. -/
theorem kept_sublist (parent : UrlEntry) (doc : ParsedDocument) (depthCap : Host → Option UInt32) :
    ((computeOutbound parent doc depthCap).kept.map fun c => c.url.asStr).Sublist
      (doc.outboundLinks.map CanonicalUrl.asStr) := by
  have hkept : (computeOutbound parent doc depthCap).kept.Sublist
      ((doc.outboundLinks.filter CanonicalUrl.isHttp).map fun url => ⟨url, parent.depth + 1, some parent.url⟩) :=
    List.filter_sublist
  have hmap := hkept.map fun c => c.url.asStr
  rw [List.map_map] at hmap
  exact hmap.trans (List.filter_sublist.map CanonicalUrl.asStr)

theorem links_nodup {C : UrlCrate H} {rewrite : Bytes → Except Parser.RewriteError (List Parser.Event)}
    {page : Parser.Page H} {doc : ParsedDocument} (hdoc : Parser.parse C rewrite page = .ok doc) :
    (doc.outboundLinks.map CanonicalUrl.asStr).Nodup := by
  cases hskip : Parser.skipReason page.response with
  | some reason =>
    rw [Parser.parse_eq, hskip] at hdoc
    cases hdoc
    exact .nil
  | none =>
    obtain ⟨events, -, rfl⟩ := Parser.parse_read C hdoc hskip
    exact (Parser.read_links C page events).nodup

/-- The page's two links become rows 1 and 2 of an empty outbox. -/
def SuccessRecord.sampleLinks : SuccessRecord :=
  ⟨Parser.sampleDocument.url, "attempt-1", "blob", 0,
    (computeOutbound ⟨Parser.sampleDocument.url, 0, none⟩ Parser.sampleDocument fun _ => none).kept⟩

def Ledger.sampleLinks : Ledger :=
  (Ledger.empty.markAttempting Parser.sampleDocument.url "run-1" 0).2

end Crawlrs

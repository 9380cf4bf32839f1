import Crawlrs.Core.Runs
import Crawlrs.L1Data.Types
import Crawlrs.L4Runtime.Failure

/-!
# Text of a page (`crawlrs-parse/src/parser.rs`)

`lol_html` streams a body through handlers: `Event` is one call of one of them. The
text inside `<body>` comes in chunks that are cut anywhere, and whitespace is
collapsed as they arrive, with a flag carried from one chunk to the next.

`collapsed_text_eq`: the text is that of the visible chunks put together, every run of
whitespace one space and none at the ends, however it was cut.
-/
namespace Crawlrs.Parser

open Runs

/-- A call of a handler, with what it reads. -/
inductive Event
  | titleText (chunk : List Char)
  | base (href : Option String)
  | anchor (href : Option String)
  | excludedStart
  | excludedEnd
  | bodyText (chunk : List Char)
deriving DecidableEq, Repr

/-- mirrors crates/crawlrs-parse/src/parser.rs:119-125 -/
structure Extracted where
  title : Option (List Char)
  baseHref : Option String
  rawLinks : List String
  collapsedText : List Char
deriving DecidableEq, Repr

/-- The locals the handlers borrow. -/
structure Locals where
  out : Extracted
  excludedDepth : UInt32
  lastWasWhitespace : Bool

/-- mirrors crates/crawlrs-parse/src/parser.rs:135-148 -/
def Locals.init : Locals := ⟨⟨none, none, [], []⟩, 0, true⟩

/-- The loop body over the characters of a chunk.
mirrors crates/crawlrs-parse/src/parser.rs:186-196 -/
def pushChar (text : List Char × Bool) (ch : Char) : List Char × Bool :=
  if isWhitespace ch then
    if text.2 then text else (text.1 ++ [' '], true)
  else (text.1 ++ [ch], false)

/-- mirrors crates/crawlrs-parse/src/parser.rs:153-201 -/
def handle (l : Locals) : Event → Locals
  | .titleText chunk =>
    { l with out.title := some (match l.out.title with
      | some existing => existing ++ chunk
      | none => chunk) }
  | .base href =>
    match href with
    | some href => { l with out.baseHref := some href }
    | none => l
  | .anchor href =>
    match href with
    | some href => { l with out.rawLinks := l.out.rawLinks ++ [href] }
    | none => l
  | .excludedStart => { l with excludedDepth := l.excludedDepth + 1 }
  | .excludedEnd =>
    -- `saturating_sub(1)`
    { l with excludedDepth := if l.excludedDepth = 0 then 0 else l.excludedDepth - 1 }
  | .bodyText chunk =>
    if l.excludedDepth = 0 then
      let text := chunk.foldl pushChar (l.out.collapsedText, l.lastWasWhitespace)
      { l with out.collapsedText := text.1, lastWasWhitespace := text.2 }
    else l

/-- `rewriter.write(body)` and `rewriter.end()`: the calls they make, or where they fail. -/
inductive RewriteError
  | write (err : String)
  | finish (err : String)

/-- mirrors crates/crawlrs-parse/src/parser.rs:206-211 -/
def RewriteError.toError : RewriteError → Error
  | .write err => .parse ("lol_html write failed: " ++ err)
  | .finish err => .parse ("lol_html end failed: " ++ err)

/-- mirrors crates/crawlrs-parse/src/parser.rs:127-224 -/
def extractHtml (rewrite : Bytes → Except RewriteError (List Event)) (body : Bytes) :
    Except Error Extracted :=
  match rewrite body with
  | .error err => .error err.toError
  | .ok events =>
    let out := (events.foldl handle .init).out
    .ok { out with
      collapsedText :=
        if out.collapsedText.getLast? = some ' ' then out.collapsedText.dropLast
        else out.collapsedText }

/-! ## The text -/

/-- The chunks that come while no `<script>` or `<style>` is open. -/
def visible (depth : UInt32) : List Event → List (List Char)
  | [] => []
  | .excludedStart :: rest => visible (depth + 1) rest
  | .excludedEnd :: rest => visible (if depth = 0 then 0 else depth - 1) rest
  | .bodyText chunk :: rest => if depth = 0 then chunk :: visible depth rest else visible depth rest
  | _ :: rest => visible depth rest

/-- A chunk, from where the last one left off. -/
theorem foldl_pushChar (text : List Char) (last : Bool) (chunk : List Char) :
    chunk.foldl pushChar (text, last) =
      (text ++ emit isWhitespace ' ' last chunk, lastAfter isWhitespace last chunk) := by
  induction chunk generalizing text last with
  | nil => simp [emit, lastAfter]
  | cons ch chunk ih =>
    have hlast : lastAfter isWhitespace last (ch :: chunk) = lastAfter isWhitespace (isWhitespace ch) chunk :=
      rfl
    rw [List.foldl_cons, pushChar, emit, hlast]
    cases hch : isWhitespace ch with
    | false => simp [ih]
    | true => cases last <;> simp [ih]

/-- After any calls the buffer holds what the visible chunks give when they are read as one. -/
theorem foldl_handle (events : List Event) (l : Locals) :
    (events.foldl handle l).out.collapsedText =
      l.out.collapsedText ++ emit isWhitespace ' ' l.lastWasWhitespace
        (visible l.excludedDepth events).flatten := by
  induction events generalizing l with
  | nil => simp [visible, emit]
  | cons e events ih =>
    rw [List.foldl_cons, ih]
    cases e with
    | titleText chunk => rfl
    | base href => cases href <;> rfl
    | anchor href => cases href <;> rfl
    | excludedStart => rfl
    | excludedEnd => rfl
    | bodyText chunk =>
      by_cases hd : l.excludedDepth = 0
      · simp [handle, visible, hd, foldl_pushChar, emit_append]
      · simp [handle, visible, hd]

/-- For every body: the text is that of the visible chunks put together, its runs of whitespace
squeezed and its ends trimmed. So it does not depend on how the text was cut. -/
theorem collapsed_text_eq (rewrite : Bytes → Except RewriteError (List Event)) (body : Bytes)
    (events : List Event) (hevents : rewrite body = .ok events) :
    (∃ out, extractHtml rewrite body = .ok out ∧
      out.collapsedText = Runs.trim isWhitespace (squeeze isWhitespace ' ' (visible 0 events).flatten)) ∧
    ∀ (body' : Bytes) (events' : List Event), rewrite body' = .ok events' →
      (visible 0 events').flatten = (visible 0 events).flatten →
      (extractHtml rewrite body').map Extracted.collapsedText =
        (extractHtml rewrite body).map Extracted.collapsedText := by
  have htext : ∀ (body : Bytes) (events : List Event), rewrite body = .ok events →
      ∃ out, extractHtml rewrite body = .ok out ∧
        out.collapsedText = Runs.trim isWhitespace (squeeze isWhitespace ' ' (visible 0 events).flatten) := by
    intro body events hevents
    have hbuffer : (events.foldl handle .init).out.collapsedText =
        emit isWhitespace ' ' true (visible 0 events).flatten := foldl_handle events .init
    simp only [extractHtml, hevents]
    refine ⟨_, rfl, ?_⟩
    simp only [hbuffer]
    exact trimmed_emit (by decide) _
  refine ⟨htext body events hevents, ?_⟩
  intro body' events' hevents' hsame
  obtain ⟨out, hout, hcollapsed⟩ := htext body events hevents
  obtain ⟨out', hout', hcollapsed'⟩ := htext body' events' hevents'
  rw [hout, hout']
  simp [Except.map, hcollapsed, hcollapsed', hsame]

/-! ### A page in four chunks -/

/-- `a <script>x</script> b`, cut after the first blank, before it and after the last. -/
def sampleEvents : List Event :=
  [.bodyText ['a', '\n'], .bodyText [], .excludedStart, .bodyText ['x'], .excludedEnd,
    .bodyText [' ', 'b'], .bodyText ['\t']]

theorem collapsed_text_sample :
    extractHtml (fun _ => .ok sampleEvents) [] = .ok ⟨none, none, [], ['a', ' ', 'b']⟩ ∧
    Runs.trim isWhitespace (squeeze isWhitespace ' ' ['a', '\n', ' ', 'b', '\t']) = ['a', ' ', 'b'] := by
  obtain ⟨⟨out, hout, htext⟩, -⟩ :=
    collapsed_text_eq (fun _ => .ok sampleEvents) [] sampleEvents rfl
  have hrun : extractHtml (fun _ => .ok sampleEvents) [] = .ok ⟨none, none, [], ['a', ' ', 'b']⟩ := rfl
  rw [hrun] at hout
  cases hout
  exact ⟨hrun, htext.symm⟩

end Crawlrs.Parser

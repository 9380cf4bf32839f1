import Crawlrs.Core.Frames
import Crawlrs.L1Data.QueryBytes
import Crawlrs.L4Store.Store

/-!
# WARC records as bytes (`crawlrs-store/src/warc_record.rs`)

In `Store.lean` a `.warc.gz` is a list of members. Here they are encoded: a header
block, a block of `Content-Length` bytes and two line ends, each record gzipped on its
own. `readWarc` is a length-driven reader of such files; it knows nothing of the
writer.

`readWarc_encodeFile`: what `encodeWarcinfo` and `encodeResponse` wrote, one after the
other, is read as these members, in order. The body of a response can hold anything:
the reader does not look into it.
-/
namespace Crawlrs

open Frames Url

namespace WarcRecord

/-! ## Texts -/

def OneLine (s : String) : Prop := '\r' ∉ s.toList ∧ '\n' ∉ s.toList

instance (s : String) : Decidable (OneLine s) := inferInstanceAs (Decidable (_ ∧ _))

/-- `GzEncoder`, and the reader of one member: it finds what was compressed and where the
member ends. -/
structure Gzip where
  gzip : Bytes → Bytes
  gunzip : Reader UInt8 Bytes
  lossless : ∀ bytes, Frame gunzip (gzip bytes) bytes

/-- `StatusCode::from_u16(..).ok().and_then(|c| c.canonical_reason())`: words of a table. -/
structure StatusTable where
  canonicalReason : UInt16 → Option String
  oneLine : ∀ {status reason}, canonicalReason status = some reason → OneLine reason

/-- `cuid2::create_id()`. -/
structure Cuid where
  text : String
  alphanum : ∀ c ∈ text.toList, c.isAlphanum = true

/-- The parts of a `DateTime<Utc>` that are formatted. -/
structure DateTime where
  year : Int
  month : Nat
  day : Nat
  hour : Nat
  minute : Nat
  second : Nat

/-- Digits with leading zeros. -/
def padded (width n : Nat) : String :=
  String.ofList (List.replicate (width - (Nat.toDigits 10 n).length) '0' ++ Nat.toDigits 10 n)

/-- `WARC_DATE_FMT`: `%Y-%m-%dT%H:%M:%SZ`; a year of more than four digits has a sign.
mirrors crates/crawlrs-store/src/warc_record.rs:31-32 -/
def DateTime.format (d : DateTime) : String :=
  let sign := if d.year < 0 then "-" else if 9999 < d.year then "+" else ""
  sign ++ padded 4 d.year.natAbs ++ "-" ++ padded 2 d.month ++ "-" ++ padded 2 d.day ++ "T" ++
    padded 2 d.hour ++ ":" ++ padded 2 d.minute ++ ":" ++ padded 2 d.second ++ "Z"

/-! ## Encoding -/

variable (G : Gzip) (T : StatusTable)

/-- The text of a `name: value` line, without its end. -/
def fieldText (field : String × String) : String := field.1 ++ ": " ++ field.2

/-- A first line, the fields and the empty line. -/
def head (first : String) (fields : List (String × String)) : Bytes :=
  utf8 (first ++ "\r\n") ++ fields.flatMap (fun field => utf8 (fieldText field ++ "\r\n")) ++ utf8 "\r\n"

/-- mirrors crates/crawlrs-store/src/warc_record.rs:101-108 -/
def framed (header body : Bytes) : Bytes := G.gzip (header ++ body ++ utf8 "\r\n\r\n")

/-- mirrors crates/crawlrs-store/src/warc_record.rs:122-124 -/
def newRecordId (cuid : Cuid) : String := "<urn:crawlrs:" ++ cuid.text ++ ">"

/-- mirrors crates/crawlrs-store/src/warc_record.rs:39-48 -/
def warcinfoBody (runId : String) : String :=
  "software: crawlrs/0.0.1\r\n" ++ "format: WARC File Format 1.1\r\n" ++ "run-id: " ++ runId ++ "\r\n"

/-- mirrors crates/crawlrs-store/src/warc_record.rs:49-59 -/
def warcinfoFields (cuid : Cuid) (now : DateTime) (len : Nat) : List (String × String) :=
  [("WARC-Type", "warcinfo"), ("WARC-Record-ID", newRecordId cuid), ("WARC-Date", now.format),
    ("Content-Type", "application/warc-fields"), ("Content-Length", toString len)]

/-- mirrors crates/crawlrs-store/src/warc_record.rs:35-61 -/
def encodeWarcinfo (cuid : Cuid) (now : DateTime) (runId : String) : Bytes :=
  let body := utf8 (warcinfoBody runId)
  framed G (head "WARC/1.1" (warcinfoFields cuid now body.length)) body

/-- mirrors crates/crawlrs-store/src/warc_record.rs:87-91 -/
def statusLine (status : UInt16) : String :=
  "HTTP/1.1 " ++ toString status.toNat ++ " " ++ (T.canonicalReason status).getD ""

/-- The headers are in the order the map is iterated in.
mirrors crates/crawlrs-store/src/warc_record.rs:85-99 -/
def buildHttpResponsePayload (record : StoreRecord) : Bytes :=
  head (statusLine T record.resp.status) record.resp.headers ++ record.resp.body

/-- mirrors crates/crawlrs-store/src/warc_record.rs:66-79 -/
def responseFields (uri : String) (cuid : Cuid) (fetchedAt : DateTime) (len : Nat) :
    List (String × String) :=
  [("WARC-Type", "response"), ("WARC-Target-URI", uri), ("WARC-Record-ID", newRecordId cuid),
    ("WARC-Date", fetchedAt.format), ("Content-Type", "application/http;msgtype=response"),
    ("Content-Length", toString len)]

/-- `fetchedAt` is `record.resp.fetched_at`.
mirrors crates/crawlrs-store/src/warc_record.rs:63-80 -/
def encodeResponse (cuid : Cuid) (fetchedAt : DateTime) (record : StoreRecord) : Bytes :=
  let payload := buildHttpResponsePayload T record
  framed G (head "WARC/1.1" (responseFields record.resp.url.asStr cuid fetchedAt payload.length)) payload

/-! ## A reader -/

/-- Up to CR LF. -/
def readLine : Reader UInt8 Bytes := cutPair 0x0D 0x0A

/-- Lines up to the first empty one. -/
def readHead : Reader UInt8 (List Bytes) := readUntil readLine List.isEmpty

/-- Split at the first colon with a space. -/
def readField (line : Bytes) : Option (String × String) := (cutPair 0x3A 0x20 line).map readPair

def readDecimal (s : String) : Option Nat :=
  if s.toList ≠ [] ∧ s.toList.all Char.isDigit then some (Nat.ofDigitChars 10 s.toList 0) else none

structure Record where
  fields : List (String × String)
  block : Bytes
deriving DecidableEq, Repr

/-- The header block, `Content-Length` bytes, CR LF CR LF. -/
def readRecord : Reader UInt8 Record := fun bytes => do
  let (lines, rest) ← readHead bytes
  let fields ← lines.tail.mapM readField
  let len ← (fields.lookup "Content-Length").bind readDecimal
  if lines.head? = some (utf8 "WARC/1.1") ∧ (rest.drop len).take 4 = [0x0D, 0x0A, 0x0D, 0x0A] then
    some (⟨fields, rest.take len⟩, rest.drop (len + 4))
  else none

/-- The second word. -/
def readStatus (line : Bytes) : Option UInt16 :=
  let word := ((line.dropWhile (· != 0x20)).drop 1).takeWhile (· != 0x20)
  (readDecimal (readText word)).map UInt16.ofNat

/-- Status, headers and body of an HTTP response: the payload is split at its first empty line. -/
def readPayload (payload : Bytes) : Option (UInt16 × List (String × String) × Bytes) := do
  let (lines, body) ← readHead payload
  let status ← lines.head?.bind readStatus
  let headers ← lines.tail.mapM readField
  return (status, headers, body)

/-- The third field of the block, up to the line end that ends the block. -/
def readRunId (block : Bytes) : Option String := do
  let (_, rest) ← readLine block
  let (_, rest) ← readLine rest
  let (_, value) ← cutPair 0x3A 0x20 rest
  return readText (value.take (value.length - 2))

def Record.member (r : Record) : Option WarcStore.Member := do
  let type ← r.fields.lookup "WARC-Type"
  if type = "warcinfo" then return .warcinfo (← readRunId r.block)
  else if type = "response" then
    let uri ← r.fields.lookup "WARC-Target-URI"
    let (status, headers, body) ← readPayload r.block
    return .response uri status headers body
  else none

/-- A `.warc.gz`: all its members are decompressed, then the records are read. -/
def readWarc (file : Bytes) : Option (List WarcStore.Member) := do
  let members ← readAll G.gunzip file
  let records ← readAll readRecord members.flatten
  records.mapM Record.member

/-! ## Lines -/

theorem oneLine_append {s t : String} : OneLine (s ++ t) ↔ OneLine s ∧ OneLine t := by
  simp only [OneLine, String.toList_append, List.mem_append, not_or]
  tauto

theorem oneLine_of_chars {s : String} (h : ∀ c ∈ s.toList, c.isAlphanum = true) : OneLine s := by
  constructor
  · intro hc
    exact absurd (h _ hc) (by decide)
  · intro hc
    exact absurd (h _ hc) (by decide)

theorem oneLine_toString (n : Nat) : OneLine (toString n) := by
  refine oneLine_of_chars fun c hc => PathBuilder.isAlphanum_of_isDigit ?_
  rw [Nat.toString_eq_repr, Nat.toList_repr] at hc
  exact isDigit_toDigits hc

theorem oneLine_padded (width n : Nat) : OneLine (padded width n) := by
  refine oneLine_of_chars fun c hc => PathBuilder.isAlphanum_of_isDigit ?_
  rw [padded, String.toList_ofList] at hc
  rcases List.mem_append.1 hc with hc | hc
  · rw [(List.mem_replicate.1 hc).2]
    decide
  · exact isDigit_toDigits hc

theorem oneLine_format (d : DateTime) : OneLine d.format := by
  have hsign : OneLine (if d.year < 0 then "-" else if 9999 < d.year then "+" else "") := by
    split
    · decide
    · split <;> decide
  -- an equation lemma would compare the appended strings byte by byte
  delta DateTime.format
  simp only [oneLine_append, oneLine_padded, hsign, and_true, true_and]
  decide

theorem oneLine_newRecordId (cuid : Cuid) : OneLine (newRecordId cuid) := by
  delta newRecordId
  simp only [oneLine_append]
  exact ⟨⟨by decide, oneLine_of_chars cuid.alphanum⟩, by decide⟩

theorem oneLine_statusLine (status : UInt16) : OneLine (statusLine T status) := by
  have hreason : OneLine ((T.canonicalReason status).getD "") := by
    cases h : T.canonicalReason status with
    | none => decide
    | some reason => exact T.oneLine h
  delta statusLine
  simp only [oneLine_append]
  exact ⟨⟨⟨by decide, oneLine_toString _⟩, by decide⟩, hreason⟩

/-- A name and a value as a header line can hold them. -/
def FieldOk (field : String × String) : Prop := ':' ∉ field.1.toList ∧ OneLine field.1 ∧ OneLine field.2

theorem FieldOk.oneLine {field : String × String} (h : FieldOk field) : OneLine (fieldText field) := by
  simp only [fieldText, oneLine_append]
  exact ⟨⟨h.2.1, by decide⟩, h.2.2⟩

theorem utf8_crlf : utf8 "\r\n" = [0x0D, 0x0A] := by decide

theorem frame_readLine {s : String} (h : OneLine s) : Frame readLine (utf8 (s ++ "\r\n")) (utf8 s) := by
  rw [utf8_append, utf8_crlf]
  exact frame_cutPair fun hmem => h.1 (char_mem_of_mem_utf8 (c := '\r') (by decide) hmem)

theorem utf8_ne_nil {s : String} (h : s.toList ≠ []) : utf8 s ≠ [] := by
  intro hnil
  rw [utf8, List.flatMap_eq_nil_iff] at hnil
  obtain ⟨c, hc⟩ := List.exists_mem_of_ne_nil _ h
  exact String.utf8EncodeChar_ne_nil (hnil c hc)

/-- A header block is read as its lines. -/
theorem frame_readHead {first : String} {fields : List (String × String)} (hfirst : OneLine first)
    (hne : first.toList ≠ []) (hfields : ∀ field ∈ fields, FieldOk field) :
    Frame readHead (head first fields) (utf8 first :: fields.map fun field => utf8 (fieldText field)) := by
  have hlines : ∀ s ∈ first :: fields.map fieldText,
      Frame readLine (utf8 (s ++ "\r\n")) (utf8 s) ∧ (utf8 s).isEmpty = false := by
    intro s hs
    rcases List.mem_cons.1 hs with rfl | hs
    · exact ⟨frame_readLine hfirst, by simp [utf8_ne_nil hne]⟩
    · obtain ⟨field, hfield, rfl⟩ := List.mem_map.1 hs
      refine ⟨frame_readLine (hfields field hfield).oneLine, ?_⟩
      simp [utf8_ne_nil (s := fieldText field) (by simp [fieldText])]
  have hlast : Frame readLine (utf8 "\r\n") [] := by
    rw [utf8_crlf]
    exact frame_cutPair List.not_mem_nil
  have hframe := readUntil_flatMap List.isEmpty hlines hlast rfl
  rwa [List.flatMap_cons, List.flatMap_map, List.map_cons, List.map_map] at hframe

theorem readText_utf8 (s : String) : readText (utf8 s) = s := by
  rw [readText, utf8Lossy_utf8, String.ofList_toList]

theorem readField_fieldText {field : String × String} (h : FieldOk field) :
    readField (utf8 (fieldText field)) = some field := by
  have hsep : utf8 ": " = [0x3A, 0x20] := by decide
  have hcut := cutPair_append (b := 0x20) (fun hmem : 0x3A ∈ utf8 field.1 =>
    h.1 (char_mem_of_mem_utf8 (c := ':') (by decide) hmem)) (utf8 field.2)
  rw [readField, fieldText, utf8_append, utf8_append, hsep, List.append_assoc]
  show Option.map _ (cutPair 0x3A 0x20 (utf8 field.1 ++ 0x3A :: 0x20 :: utf8 field.2)) = _
  rw [hcut, Option.map_some, readPair, readText_utf8, readText_utf8]

theorem mapM_readField {fields : List (String × String)} (h : ∀ field ∈ fields, FieldOk field) :
    (fields.map fun field => utf8 (fieldText field)).mapM readField = some fields := by
  induction fields with
  | nil => rfl
  | cons field fields ih =>
    have htail := ih fun f hf => h f (List.mem_cons_of_mem _ hf)
    rw [List.map_cons, List.mapM_cons, readField_fieldText (h field List.mem_cons_self), htail]
    rfl

theorem readDecimal_toString (n : Nat) : readDecimal (toString n) = some n := by
  have hdigits : (Nat.toDigits 10 n).all Char.isDigit = true :=
    List.all_eq_true.2 fun c hc => isDigit_toDigits hc
  rw [readDecimal, Nat.toString_eq_repr, Nat.toList_repr, if_pos ⟨Nat.toDigits_ne_nil, hdigits⟩,
    Nat.ofDigitChars_ten_toDigits]

/-! ## Records -/

/-- A record before it is compressed. -/
def Record.raw (r : Record) : Bytes := head "WARC/1.1" r.fields ++ r.block ++ utf8 "\r\n\r\n"

/-- The fields are lines, and one of them is the length of the block. -/
structure Record.Ok (r : Record) : Prop where
  fields : ∀ field ∈ r.fields, FieldOk field
  length : r.fields.lookup "Content-Length" = some (toString r.block.length)

/-- The reader takes the block by its length, whatever it holds. -/
theorem frame_readRecord {r : Record} (h : r.Ok) : Frame readRecord r.raw r where
  ne_nil := by
    have hend : utf8 "\r\n\r\n" ≠ [] := by decide
    simp [Record.raw, hend]
  read_append rest := by
    have hend : utf8 "\r\n\r\n" = [0x0D, 0x0A, 0x0D, 0x0A] := by decide
    have hversion : OneLine "WARC/1.1" := by decide
    have hhead := (frame_readHead hversion (by decide) h.fields).read_append
      (r.block ++ ([0x0D, 0x0A, 0x0D, 0x0A] ++ rest))
    have hdrop : (r.block ++ ([0x0D, 0x0A, 0x0D, 0x0A] ++ rest)).drop (r.block.length + 4) = rest := by
      rw [← List.drop_drop, List.drop_left]
      rfl
    rw [Record.raw, hend, List.append_assoc, List.append_assoc]
    simp only [readRecord, hhead, Option.bind_eq_bind, Option.bind_some, List.tail_cons, List.head?_cons,
      mapM_readField h.fields, h.length, readDecimal_toString, List.drop_left, List.take_left, hdrop]
    rfl

def warcinfoRecord (cuid : Cuid) (now : DateTime) (runId : String) : Record :=
  let body := utf8 (warcinfoBody runId)
  ⟨warcinfoFields cuid now body.length, body⟩

def responseRecord (cuid : Cuid) (fetchedAt : DateTime) (record : StoreRecord) : Record :=
  let payload := buildHttpResponsePayload T record
  ⟨responseFields record.resp.url.asStr cuid fetchedAt payload.length, payload⟩

/-- Header names without colon and line ends, header values and target URI without line ends. -/
structure Clean (record : StoreRecord) : Prop where
  headers : ∀ field ∈ record.resp.headers, FieldOk field
  uri : OneLine record.resp.url.asStr

theorem warcinfoRecord_ok (cuid : Cuid) (now : DateTime) (runId : String) :
    (warcinfoRecord cuid now runId).Ok where
  fields := by
    simp only [warcinfoRecord, warcinfoFields, List.forall_mem_cons, FieldOk]
    refine ⟨by decide, ⟨by decide, by decide, oneLine_newRecordId cuid⟩,
      ⟨by decide, by decide, oneLine_format now⟩, by decide,
      ⟨by decide, by decide, oneLine_toString _⟩, by simp⟩
  length := rfl

theorem responseRecord_ok (cuid : Cuid) (fetchedAt : DateTime) {record : StoreRecord}
    (h : OneLine record.resp.url.asStr) : (responseRecord T cuid fetchedAt record).Ok where
  fields := by
    simp only [responseRecord, responseFields, List.forall_mem_cons, FieldOk]
    refine ⟨by decide, ⟨by decide, by decide, h⟩, ⟨by decide, by decide, oneLine_newRecordId cuid⟩,
      ⟨by decide, by decide, oneLine_format fetchedAt⟩, by decide,
      ⟨by decide, by decide, oneLine_toString _⟩, by simp⟩
  length := rfl

/-! ## Blocks -/

theorem readStatus_statusLine (status : UInt16) : readStatus (utf8 (statusLine T status)) = some status := by
  have hfirst : utf8 "HTTP/1.1 " = [0x48, 0x54, 0x54, 0x50, 0x2F, 0x31, 0x2E, 0x31, 0x20] := by decide
  have hspace : utf8 " " = [0x20] := by decide
  have hdigits : ∀ b ∈ utf8 (toString status.toNat), (b != 0x20) = true := by
    intro b hb
    have hne : b ≠ 0x20 := by
      rintro rfl
      have hmem := char_mem_of_mem_utf8 (c := ' ') (by decide) hb
      rw [Nat.toString_eq_repr, Nat.toList_repr] at hmem
      exact absurd (isDigit_toDigits hmem) (by decide)
    simpa using hne
  have hdrop : ∀ rest : Bytes, ([0x48, 0x54, 0x54, 0x50, 0x2F, 0x31, 0x2E, 0x31, 0x20] ++ rest).dropWhile
      (· != 0x20) = 0x20 :: rest := fun _ => rfl
  have hstop : ∀ rest : Bytes, ([0x20] ++ rest).takeWhile (· != 0x20) = [] := fun _ => rfl
  rw [readStatus, statusLine, utf8_append, utf8_append, utf8_append, hfirst, hspace, List.append_assoc,
    List.append_assoc, hdrop, List.drop_one, List.tail_cons, List.takeWhile_append_of_pos hdigits, hstop,
    List.append_nil, readText_utf8, readDecimal_toString, Option.map_some, UInt16.ofNat_toNat]

theorem readPayload_build {record : StoreRecord} (h : ∀ field ∈ record.resp.headers, FieldOk field) :
    readPayload (buildHttpResponsePayload T record) =
      some (record.resp.status, record.resp.headers, record.resp.body) := by
  have hne : (statusLine T record.resp.status).toList ≠ [] := by simp [statusLine]
  have hhead := (frame_readHead (oneLine_statusLine T record.resp.status) hne h).read_append
    record.resp.body
  simp only [readPayload, buildHttpResponsePayload, hhead, Option.bind_eq_bind, Option.bind_some,
    List.tail_cons, List.head?_cons, mapM_readField h, readStatus_statusLine]
  rfl

theorem readRunId_lines {first second name : String} (hfirst : OneLine first) (hsecond : OneLine second)
    (hname : ':' ∉ name.toList) (runId : String) :
    readRunId (utf8 (first ++ "\r\n" ++ (second ++ "\r\n") ++ (name ++ ": ") ++ runId ++ "\r\n")) =
      some runId := by
  have hsep : utf8 ": " = [0x3A, 0x20] := by decide
  have hcut := cutPair_append (b := 0x20) (fun hmem : 0x3A ∈ utf8 name =>
    hname (char_mem_of_mem_utf8 (c := ':') (by decide) hmem)) (utf8 runId ++ [0x0D, 0x0A])
  rw [utf8_append, utf8_append, utf8_append, utf8_append, utf8_append name, hsep, utf8_crlf,
    List.append_assoc, List.append_assoc, List.append_assoc, List.append_assoc]
  simp only [List.cons_append, List.nil_append] at hcut ⊢
  simp only [readRunId, (frame_readLine hfirst).read_append, (frame_readLine hsecond).read_append, hcut,
    Option.bind_eq_bind, Option.bind_some]
  simp [readText_utf8]

theorem readRunId_warcinfoBody (runId : String) : readRunId (utf8 (warcinfoBody runId)) = some runId := by
  have hfirst : "software: crawlrs/0.0.1\r\n" = "software: crawlrs/0.0.1" ++ "\r\n" := by decide
  have hsecond : "format: WARC File Format 1.1\r\n" = "format: WARC File Format 1.1" ++ "\r\n" := by
    decide
  have hname : "run-id: " = "run-id" ++ ": " := by decide
  have hone : OneLine "software: crawlrs/0.0.1" := by decide
  have hone' : OneLine "format: WARC File Format 1.1" := by decide
  have hcolon : ':' ∉ "run-id".toList := by decide
  have hlines := readRunId_lines hone hone' hcolon runId
  rw [← hfirst, ← hsecond, ← hname] at hlines
  exact hlines

theorem member_warcinfoRecord (cuid : Cuid) (now : DateTime) (runId : String) :
    (warcinfoRecord cuid now runId).member = some (.warcinfo runId) := by
  have htype : (warcinfoRecord cuid now runId).fields.lookup "WARC-Type" = some "warcinfo" := rfl
  have hblock : (warcinfoRecord cuid now runId).block = utf8 (warcinfoBody runId) := rfl
  simp [Record.member, htype, hblock, readRunId_warcinfoBody]

theorem member_responseRecord (cuid : Cuid) (fetchedAt : DateTime) {record : StoreRecord}
    (h : ∀ field ∈ record.resp.headers, FieldOk field) :
    (responseRecord T cuid fetchedAt record).member = some (WarcStore.encodeResponse record) := by
  have htype : (responseRecord T cuid fetchedAt record).fields.lookup "WARC-Type" = some "response" := rfl
  have huri : (responseRecord T cuid fetchedAt record).fields.lookup "WARC-Target-URI" =
      some record.resp.url.asStr := rfl
  have hblock : (responseRecord T cuid fetchedAt record).block = buildHttpResponsePayload T record := rfl
  simp [Record.member, htype, huri, hblock, readPayload_build T h, WarcStore.encodeResponse]

/-! ## Files -/

/-- A record with what `encode_response` reads beside it. -/
structure Stamped where
  cuid : Cuid
  fetchedAt : DateTime
  record : StoreRecord

/-- A run of the encoders: the opener, then one record after the other. -/
def encodeFile (cuid : Cuid) (now : DateTime) (runId : String) (records : List Stamped) : Bytes :=
  encodeWarcinfo G cuid now runId ++ records.flatMap fun r => encodeResponse G T r.cuid r.fetchedAt r.record

def fileRecords (cuid : Cuid) (now : DateTime) (runId : String) (records : List Stamped) : List Record :=
  warcinfoRecord cuid now runId :: records.map fun r => responseRecord T r.cuid r.fetchedAt r.record

theorem encodeFile_eq (cuid : Cuid) (now : DateTime) (runId : String) (records : List Stamped) :
    encodeFile G T cuid now runId records =
      (fileRecords T cuid now runId records).flatMap fun r => G.gzip r.raw := by
  rw [fileRecords, List.flatMap_cons, List.flatMap_map]
  rfl

theorem fileRecords_ok (cuid : Cuid) (now : DateTime) (runId : String) {records : List Stamped}
    (h : ∀ r ∈ records, Clean r.record) : ∀ r ∈ fileRecords T cuid now runId records, r.Ok := by
  intro r hr
  rcases List.mem_cons.1 hr with rfl | hr
  · exact warcinfoRecord_ok cuid now runId
  · obtain ⟨s, hs, rfl⟩ := List.mem_map.1 hr
    exact responseRecord_ok T s.cuid s.fetchedAt (h s hs).uri

theorem mapM_member {records : List Stamped} (h : ∀ r ∈ records, Clean r.record) :
    (records.map fun r => responseRecord T r.cuid r.fetchedAt r.record).mapM Record.member =
      some (records.map fun r => WarcStore.encodeResponse r.record) := by
  induction records with
  | nil => rfl
  | cons r records ih =>
    have htail := ih fun s hs => h s (List.mem_cons_of_mem _ hs)
    rw [List.map_cons, List.mapM_cons, member_responseRecord T _ _ (h r List.mem_cons_self).headers, htail]
    rfl

/-- Records that are lines and lengths are read from the decompressed file. -/
theorem readAll_gunzip {rs : List Record} (h : ∀ r ∈ rs, r.Ok) :
    (readAll G.gunzip (rs.flatMap fun r => G.gzip r.raw)).bind (fun members => readAll readRecord members.flatten) =
      some rs := by
  have hmembers : readAll G.gunzip (rs.flatMap fun r => G.gzip r.raw) = some (rs.map Record.raw) :=
    readAll_flatMap fun r _ => G.lossless r.raw
  have hrecords : readAll readRecord (rs.flatMap Record.raw) = some (rs.map id) :=
    readAll_flatMap fun r hr => frame_readRecord (h r hr)
  rw [hmembers, Option.bind_some, ← List.flatMap_def, hrecords, List.map_id]

/-- For every run id and every list of records: the file is read as one `warcinfo` and then the
responses in order, each with its target URI, its status, its headers and its body. -/
theorem readWarc_encodeFile (G : Gzip) (T : StatusTable) (cuid : Cuid) (now : DateTime) (runId : String)
    (records : List Stamped) (h : ∀ r ∈ records, Clean r.record) :
    readWarc G (encodeFile G T cuid now runId records) =
      some (.warcinfo runId :: records.map fun r => WarcStore.encodeResponse r.record) := by
  have hread := readAll_gunzip G (fileRecords_ok T cuid now runId h)
  rw [← encodeFile_eq] at hread
  rw [readWarc, Option.bind_eq_bind]
  simp only [Option.bind_eq_bind]
  rw [← Option.bind_assoc, hread, Option.bind_some, fileRecords, List.mapM_cons, member_warcinfoRecord,
    mapM_member T h]
  rfl

/-! ### A compressor -/

/-- The bit of CRC-32 that is shifted out. -/
def crcBit (crc : UInt32) : UInt32 :=
  if crc &&& 1 = 1 then (crc >>> 1) ^^^ 0xEDB88320 else crc >>> 1

def crc32 (bytes : Bytes) : UInt32 :=
  bytes.foldl (fun crc b => crcBit^[8] (crc ^^^ b.toUInt32)) 0xFFFFFFFF ^^^ 0xFFFFFFFF

def le32 (n : UInt32) : Bytes := [n.toUInt8, (n >>> 8).toUInt8, (n >>> 16).toUInt8, (n >>> 24).toUInt8]

/-- No name, no time. -/
def gzipHeader : Bytes := [0x1F, 0x8B, 0x08, 0x00, 0x00, 0x00, 0x00, 0x00, 0x00, 0xFF]

def gzipTrailer (bytes : Bytes) : Bytes := le32 (crc32 bytes) ++ le32 (UInt32.ofNat bytes.length)

/-- A stored block: its length twice, then the bytes. Only the last one is empty. -/
def readStored : Reader UInt8 Bytes
  | last :: lo :: hi :: lo' :: hi' :: rest =>
    let len := lo.toNat + 256 * hi.toNat
    if lo' = ~~~lo ∧ hi' = ~~~hi ∧ last = (if len = 0 then 1 else 0) ∧ len ≤ rest.length then
      some (rest.take len, rest.drop len)
    else none
  | _ => none

theorem frame_readStored (b : UInt8) : Frame readStored [0x00, 0x01, 0x00, 0xFE, 0xFF, b] [b] where
  ne_nil := by simp
  read_append rest := by
    have hlen : 1 ≤ (b :: rest).length := by simp
    simp only [List.cons_append, List.nil_append, readStored]
    rw [if_pos ⟨by decide, by decide, by decide, hlen⟩]
    rfl

theorem frame_readStored_last : Frame readStored [0x01, 0x00, 0x00, 0xFF, 0xFF] [] where
  ne_nil := by simp
  read_append rest := by
    simp only [List.cons_append, List.nil_append, readStored]
    rw [if_pos ⟨by decide, by decide, by decide, Nat.zero_le _⟩]
    rfl

/-- Each byte is a block. -/
def gzipStored (bytes : Bytes) : Bytes :=
  gzipHeader ++ (bytes.flatMap (fun b => [0x00, 0x01, 0x00, 0xFE, 0xFF, b]) ++ [0x01, 0x00, 0x00, 0xFF, 0xFF] ++
    gzipTrailer bytes)

def gunzipStored : Reader UInt8 Bytes := fun bytes => do
  let (blocks, rest) ← readUntil readStored List.isEmpty (bytes.drop 10)
  if bytes.take 10 = gzipHeader ∧ rest.take 8 = gzipTrailer blocks.flatten then
    some (blocks.flatten, rest.drop 8)
  else none

def Gzip.stored : Gzip where
  gzip := gzipStored
  gunzip := gunzipStored
  lossless bytes := by
    refine ⟨by simp [gzipStored, gzipHeader], fun rest => ?_⟩
    have hstored : ∀ b ∈ bytes, Frame readStored [0x00, 0x01, 0x00, 0xFE, 0xFF, b] [b] ∧
        List.isEmpty [b] = false := fun b _ => ⟨frame_readStored b, rfl⟩
    have hblocks := (readUntil_flatMap List.isEmpty hstored frame_readStored_last rfl).read_append
      (gzipTrailer bytes ++ rest)
    have hflat : (bytes.map fun b => [b]).flatten = bytes := by
      rw [← List.flatMap_def]
      exact List.flatMap_singleton' bytes
    have hdrop : (gzipStored bytes ++ rest).drop 10 = bytes.flatMap (fun b => [0x00, 0x01, 0x00, 0xFE, 0xFF, b]) ++
        [0x01, 0x00, 0x00, 0xFF, 0xFF] ++ (gzipTrailer bytes ++ rest) := by
      rw [gzipStored, List.append_assoc, List.append_assoc _ (gzipTrailer bytes)]
      rfl
    have hhead : (gzipStored bytes ++ rest).take 10 = gzipHeader := rfl
    have hlen : (gzipTrailer bytes).length = 8 := rfl
    simp only [gunzipStored, hdrop, hhead, hblocks, Option.bind_eq_bind, Option.bind_some, hflat]
    rw [if_pos ⟨trivial, List.take_left' hlen⟩, List.drop_left' hlen]

def Cuid.k : Cuid := ⟨"k", by simp⟩

/-- A body that looks like a record, and one without bytes. -/
def sampleRecords : List Stamped :=
  let url : CanonicalUrl := ⟨⟨"https://a.test/", "https", some "a.test"⟩⟩
  let record (headers : List (String × String)) (body : Bytes) : StoreRecord :=
    ⟨⟨url, 200, none, none, []⟩, ⟨url, 200, headers, body⟩, "r", 0, 0, 0⟩
  [⟨.k, ⟨2026, 1, 2, 3, 4, 5⟩, record [("server", "a: b")] (utf8 "\r\n\r\nWARC/1.1\r\n")⟩,
    ⟨.k, ⟨2026, 1, 2, 3, 4, 6⟩, record [] []⟩]

def StatusTable.ok : StatusTable where
  canonicalReason status := if status = 200 then some "OK" else none
  oneLine h := by
    split at h
    · cases h
      decide
    · cases h

theorem readWarc_encodeFile_sample :
    readWarc .stored (encodeFile .stored .ok .k ⟨2026, 1, 2, 3, 4, 4⟩ "run\r\n\r\n" sampleRecords) =
      some [.warcinfo "run\r\n\r\n",
        .response "https://a.test/" 200 [("server", "a: b")] (utf8 "\r\n\r\nWARC/1.1\r\n"),
        .response "https://a.test/" 200 [] []] := by
  refine readWarc_encodeFile .stored .ok .k ⟨2026, 1, 2, 3, 4, 4⟩ "run\r\n\r\n" sampleRecords ?_
  simp only [sampleRecords, List.forall_mem_cons]
  refine ⟨⟨?_, by decide⟩, ⟨?_, by decide⟩, by simp⟩
  · simp only [List.forall_mem_cons, FieldOk]
    exact ⟨by decide, by simp⟩
  · simp

/-- These are the members of the store's file after the same writes. -/
theorem gzipped_foldl_append (paths : PathBuilder) (rotation : RotationPolicy) (runId : String) (ms : UInt64)
    (t : Nat) (records : List StoreRecord) :
    (records.foldl (WarcStore.format paths rotation runId).append (WarcStore.openFile runId ms t)).gzipped =
      .warcinfo runId :: records.map WarcStore.encodeResponse := by
  have hrun : ∀ f : WarcStore.ActiveFile,
      (records.foldl (WarcStore.format paths rotation runId).append f).gzipped =
        f.gzipped ++ records.map WarcStore.encodeResponse := by
    induction records with
    | nil => simp
    | cons r records ih =>
      intro f
      have hstep : ((WarcStore.format paths rotation runId).append f r).gzipped =
          f.gzipped ++ [WarcStore.encodeResponse r] := rfl
      rw [List.foldl_cons, ih, hstep, List.append_assoc]
      rfl
  rw [hrun]
  rfl

end WarcRecord

end Crawlrs

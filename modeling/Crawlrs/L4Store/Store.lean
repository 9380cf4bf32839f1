import Crawlrs.L4Runtime.Pipeline
import Crawlrs.L4Store.Path
import Mathlib.Data.List.AList
import Mathlib.Data.List.Perm.Basic

/-!
# Buffered stores (`crawlrs-store/src/parquet_store.rs`, `warc_store.rs`, `rotation.rs`)

Both stores keep one open file per shard under a mutex, push a record under the
lock, and upload a file that is due outside of it. They differ in what a file
holds, in how it is opened and in its path: `Format` is what they share, and
`ParquetStore` and `WarcStore` are its two instances.

`StoreState` is one store instance with the calls under way in it. A `write`
runs up to its upload (or returns), a `flush` empties the map and then uploads
file after file; `resume` is one `put` coming back. So uploads of one file, pushes
to the next and flushes interleave in any order.

The encoders (Arrow and Parquet, gzip) are third-party code: an object stands for
the rows, or the gzip members, it was encoded from. An encoding error ends
`flush_one` as a failed put does.
-/
namespace Crawlrs

/-! ## Rotation -/

/-- Durations are in nanoseconds.
mirrors crates/crawlrs-store/src/rotation.rs:10-25 -/
structure RotationPolicy where
  maxBytes : Nat := 128 * 1024 * 1024
  maxRows : Nat := 100000
  maxDuration : Nat := 30 * 60 * 10 ^ 9

/-- mirrors crates/crawlrs-store/src/rotation.rs:28-30 -/
def RotationPolicy.shouldRotate (p : RotationPolicy) (rows bytes elapsed : Nat) : Bool :=
  p.maxRows ≤ rows || p.maxBytes ≤ bytes || p.maxDuration ≤ elapsed

/-- The clocks as one write reads them: `Utc::now().timestamp_millis() as u64` and
`Instant::now()` where it opens a file, and `Instant::now()` where it asks for rotation. -/
structure Reading where
  wallMs : UInt64
  openedAt : Nat
  now : Nat

/-! ## Files -/

/-- What the two stores share: a file `F` that collects records, and the rows `ρ` it holds. -/
structure Format (F ρ : Type) where
  openFile : UInt64 → Nat → F
  append : F → StoreRecord → F
  windowStartMs : F → UInt64
  rows : F → Nat
  rawBytes : F → Nat
  openedAt : F → Nat
  path : ShardKey → UInt64 → String
  rotation : RotationPolicy
  /-- A record as the file holds it. -/
  row : StoreRecord → ρ
  /-- The records of the object the file is uploaded as. -/
  contents : F → List ρ
  contents_openFile : ∀ ms t, contents (openFile ms t) = []
  contents_append : ∀ f r, contents (append f r) = contents f ++ [row r]
  windowStartMs_openFile : ∀ ms t, windowStartMs (openFile ms t) = ms
  windowStartMs_append : ∀ f r, windowStartMs (append f r) = windowStartMs f
  path_injective : ∀ {s s' m m'}, path s m = path s' m' → s = s' ∧ m = m'

/-- A file with its shard. -/
abbrev ShardFile (F : Type) := (_ : ShardKey) × F

namespace ParquetStore

/-- The integer columns keep the record's unsigned values, `headers_json` the pairs it is made
of; the two time columns are left out.
mirrors crates/crawlrs-store/src/parquet_store.rs:62-78 -/
structure OwnedRow where
  url : String
  finalUrl : String
  status : UInt16
  contentType : Option String
  contentHash : UInt64
  body : Bytes
  text : Option String
  title : Option String
  discoveredLinks : List String
  headersJson : List (String × String)
  runId : String
  shard : ShardKey
  depth : UInt32
deriving DecidableEq, Repr

/-- mirrors crates/crawlrs-store/src/parquet_store.rs:207-238 -/
def OwnedRow.fromRecord (record : StoreRecord) : OwnedRow where
  url := record.doc.url.asStr
  finalUrl := record.resp.url.asStr
  status := record.resp.status
  contentType := (record.resp.headers.find? fun h =>
    eqIgnoreAsciiCase h.1.toList "content-type".toList).map Prod.snd
  contentHash := record.contentHash
  body := record.resp.body
  text := record.doc.text
  title := record.doc.title
  discoveredLinks := record.doc.outboundLinks.map CanonicalUrl.asStr
  headersJson := record.resp.headers
  runId := record.runId
  shard := record.shard
  depth := record.depth

/-- mirrors crates/crawlrs-store/src/parquet_store.rs:54-59 -/
structure ActiveFile where
  windowStartMs : UInt64
  rawBytes : Nat
  openedAt : Nat
  rows : List OwnedRow
deriving DecidableEq, Repr

/-- mirrors crates/crawlrs-store/src/parquet_store.rs:135-147 -/
def format (paths : PathBuilder) (rotation : RotationPolicy) : Format ActiveFile OwnedRow where
  openFile ms t := ⟨ms, 0, t, []⟩
  append f r := { f with
    rows := f.rows ++ [.fromRecord r]
    rawBytes := f.rawBytes + r.resp.body.length }
  windowStartMs := ActiveFile.windowStartMs
  rows f := f.rows.length
  rawBytes := ActiveFile.rawBytes
  openedAt := ActiveFile.openedAt
  path := paths.parquet
  rotation := rotation
  row := .fromRecord
  contents := ActiveFile.rows
  contents_openFile _ _ := rfl
  contents_append _ _ := rfl
  windowStartMs_openFile _ _ := rfl
  windowStartMs_append _ _ := rfl
  path_injective := paths.parquet_injective

end ParquetStore

namespace WarcStore

/-- One gzip member of a `.warc.gz`.
mirrors crates/crawlrs-store/src/warc_record.rs:35-97 -/
inductive Member
  | warcinfo (runId : String)
  | response (targetUri : String) (status : UInt16) (headers : List (String × String)) (body : Bytes)
deriving DecidableEq, Repr

def Member.isResponse : Member → Bool
  | .warcinfo _ => false
  | .response .. => true

/-- mirrors crates/crawlrs-store/src/warc_record.rs:63-80 -/
def encodeResponse (record : StoreRecord) : Member :=
  .response record.resp.url.asStr record.resp.status record.resp.headers record.resp.body

/-- mirrors crates/crawlrs-store/src/warc_store.rs:41-49 -/
structure ActiveFile where
  windowStartMs : UInt64
  rawBytes : Nat
  rows : Nat
  openedAt : Nat
  gzipped : List Member
deriving DecidableEq, Repr

/-- mirrors crates/crawlrs-store/src/warc_store.rs:67-75 -/
def openFile (runId : String) (ms : UInt64) (t : Nat) : ActiveFile := ⟨ms, 0, 0, t, [.warcinfo runId]⟩

/-- mirrors crates/crawlrs-store/src/warc_store.rs:112-122 -/
def format (paths : PathBuilder) (rotation : RotationPolicy) (runId : String) :
    Format ActiveFile Member where
  openFile := openFile runId
  append f r := { f with
    gzipped := f.gzipped ++ [encodeResponse r]
    rows := f.rows + 1
    rawBytes := f.rawBytes + r.resp.body.length }
  windowStartMs := ActiveFile.windowStartMs
  rows := ActiveFile.rows
  rawBytes := ActiveFile.rawBytes
  openedAt := ActiveFile.openedAt
  path := paths.warc
  rotation := rotation
  row := encodeResponse
  contents f := f.gzipped.filter Member.isResponse
  contents_openFile _ _ := rfl
  contents_append f r := by simp [encodeResponse, Member.isResponse]
  windowStartMs_openFile _ _ := rfl
  windowStartMs_append _ _ := rfl
  path_injective := paths.warc_injective

end WarcStore

/-! ## Calls under way -/

/-- A call that waits for a put: a write with the file it rotated out, or a flush with the
files it has still to upload. -/
inductive StoreCall (F : Type)
  | write (ticket : Nat) (record : StoreRecord) (planned : String) (file : F)
  | flush (files : List (ShardFile F))
deriving DecidableEq

/-- A write that answered `Ok(path)`. -/
structure Returned where
  ticket : Nat
  record : StoreRecord
  path : String
deriving DecidableEq

/-- One store with the calls under way in it and the objects it put, the latest first.
`returned`, `opened` and the tickets, which number the write calls, are for the statements. -/
structure StoreState (F : Type) where
  active : AList fun _ : ShardKey => F
  calls : List (StoreCall F)
  puts : List (ShardFile F)
  returned : List Returned
  opened : List (ShardKey × UInt64)
  tickets : Nat

namespace StoreState

variable {F ρ : Type}

def empty : StoreState F := ⟨∅, [], [], [], [], 0⟩

end StoreState

namespace Format

variable {F ρ : Type} (K : Format F ρ)

/-- The path `flush_one` puts a file at. -/
def pathOf (x : ShardFile F) : String := K.path x.1 (K.windowStartMs x.2)

/-- The file a record of the shard goes to: `entry(shard).or_insert_with(..)`. -/
def fileFor (S : StoreState F) (shard : ShardKey) (t : Reading) : F :=
  (S.active.lookup shard).getD (K.openFile t.wallMs t.openedAt)

/-- A write up to its upload, or to its return when the file is not due.
mirrors crates/crawlrs-store/src/parquet_store.rs:121-191,
crates/crawlrs-store/src/warc_store.rs:97-166 -/
def write (S : StoreState F) (record : StoreRecord) (t : Reading) : StoreState F :=
  let file := K.append (K.fileFor S record.shard t) record
  let planned := K.path record.shard (K.windowStartMs file)
  let S' := { S with
    tickets := S.tickets + 1
    opened := if record.shard ∈ S.active then S.opened else (record.shard, t.wallMs) :: S.opened }
  if K.rotation.shouldRotate (K.rows file) (K.rawBytes file) (t.now - K.openedAt file) then
    { S' with
      active := S.active.erase record.shard
      calls := S.calls ++ [.write S.tickets record planned file] }
  else
    { S' with
      active := S.active.insert record.shard file
      returned := S.returned ++ [⟨S.tickets, record, planned⟩] }

/-- The drain of a flush, in the order the map gives its files.
mirrors crates/crawlrs-store/src/parquet_store.rs:193-198,
crates/crawlrs-store/src/warc_store.rs:168-172 -/
def flush (S : StoreState F) (files : List (ShardFile F)) : StoreState F :=
  { S with active := ∅, calls := S.calls ++ [.flush files] }

/-- Call `i` runs on, the put it waited for having succeeded or failed (`flush_one(..).await?`).
mirrors crates/crawlrs-store/src/parquet_store.rs:100-115, 177-203,
crates/crawlrs-store/src/warc_store.rs:77-91, 152-177 -/
def resume (S : StoreState F) (i : Nat) (ok : Bool) : Option (StoreState F) :=
  match S.calls[i]? with
  | none => none
  | some (.write ticket record planned file) =>
    some (if ok then
      { S with
        calls := S.calls.eraseIdx i
        puts := ⟨record.shard, file⟩ :: S.puts
        returned := S.returned ++ [⟨ticket, record, planned⟩] }
    else { S with calls := S.calls.eraseIdx i })
  | some (.flush []) => some { S with calls := S.calls.eraseIdx i }
  | some (.flush (x :: rest)) =>
    some (if ok then { S with calls := S.calls.set i (.flush rest), puts := x :: S.puts }
    else { S with calls := S.calls.eraseIdx i })

/-- The object at a path: the last one put there. -/
def objectAt (S : StoreState F) (path : String) : Option F :=
  (S.puts.find? fun x => K.pathOf x == path).map Sigma.snd

inductive Label (F : Type)
  | write (record : StoreRecord) (t : Reading)
  | flush (files : List (ShardFile F))
  | resume (i : Nat) (ok : Bool)

inductive Step : StoreState F → Label F → StoreState F → Prop
  | write (S : StoreState F) (record : StoreRecord) (t : Reading) :
      Step S (.write record t) (K.write S record t)
  | flush (S : StoreState F) {files : List (ShardFile F)} (h : files.Perm S.active.entries) :
      Step S (.flush files) (flush S files)
  | resume {S S' : StoreState F} {i : Nat} {ok : Bool} (h : resume S i ok = some S') :
      Step S (.resume i ok) S'

/-- All runs of one store, from an empty one. -/
def runs : LTS (StoreState F) (Label F) where
  init S := S = .empty
  step := K.Step

end Format

end Crawlrs

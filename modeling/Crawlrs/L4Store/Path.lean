import Crawlrs.L1Data.Tokens

/-!
# Object paths (`crawlrs-store/src/path.rs`)

`<base>/run=<run_id>/shard=<shard>/worker=<worker_id>/<format>/part-<startts_ms>.<ext>`,
read by `object_store::path::Path::from`: split at the delimiter, every part
sanitised, empty parts dropped.

* `compose_injective`: under one builder, format and extension the path determines
  the shard and the opening millisecond, whatever the base, the run id and the
  worker id contain.
-/
namespace Crawlrs

/-- `object_store::path::PathPart::from`: the result has no delimiter, and a word of safe
characters stays as it is. -/
structure PathPart where
  encode : List Char → List Char
  no_delimiter : ∀ w, '/' ∉ encode w
  keep : ∀ w, (∀ c ∈ w, c.isAlphanum ∨ c ∈ ['=', '-', '.']) → w.length > 2 → encode w = w

namespace PathPart

variable (P : PathPart)

/-- The parts of `Path::from(s)`. -/
def parts (s : List Char) : List (List Char) :=
  ((s.splitOn '/').map P.encode).filter (· ≠ [])

/-- The `raw` text of `Path::from(s)`. -/
def path (s : List Char) : String := String.ofList (['/'].intercalate (P.parts s))

theorem parts_append (s t : List Char) : P.parts (s ++ '/' :: t) = P.parts s ++ P.parts t := by
  simp [parts, List.splitOn_append_cons_self]

/-- A safe word is one part. -/
theorem parts_word {w : List Char} (hw : ∀ c ∈ w, c.isAlphanum ∨ c ∈ ['=', '-', '.'])
    (hlen : w.length > 2) : P.parts w = [w] := by
  have hslash : '/' ∉ w := fun h => absurd (hw _ h) (by decide)
  have hne : w ≠ [] := by
    rintro rfl
    simp at hlen
  rw [parts, List.splitOn_eq_singleton hslash, List.map_singleton, P.keep w hw hlen]
  simp [hne]

theorem parts_of_path_eq {s t : List Char} (hs : P.parts s ≠ []) (ht : P.parts t ≠ [])
    (h : P.path s = P.path t) : P.parts s = P.parts t := by
  have hraw : ['/'].intercalate (P.parts s) = ['/'].intercalate (P.parts t) := by
    simpa [path] using congrArg String.toList h
  have hno : ∀ s, ∀ l ∈ P.parts s, '/' ∉ l := by
    intro s l hl
    obtain ⟨w, -, rfl⟩ := List.mem_map.1 (List.mem_filter.1 hl).1
    exact P.no_delimiter w
  rw [← List.splitOn_intercalate '/' (hno s) hs, hraw, List.splitOn_intercalate '/' (hno t) ht]

/-- Parts whose delimiters are escaped and nothing else. -/
def plain : PathPart where
  encode w := w.flatMap fun c => if c = '/' then "%2F".toList else [c]
  no_delimiter w := by
    simp only [List.mem_flatMap, not_exists, not_and]
    intro c _ h
    split at h
    · exact absurd h (by decide)
    · rename_i hc
      exact hc (List.mem_singleton.1 h).symm
  keep w hw _ := by
    have hmap : ∀ c ∈ w, (if c = '/' then "%2F".toList else [c]) = [c] := by
      intro c hc
      rw [if_neg]
      rintro rfl
      exact absurd (hw _ hc) (by decide)
    rw [List.flatMap_congr hmap]
    simp

end PathPart

/-- mirrors crates/crawlrs-store/src/path.rs:12-17 -/
structure PathBuilder where
  base : String
  runId : String
  workerId : String
  part : PathPart

namespace PathBuilder

/-- `{:013}`. -/
def pad13 (n : Nat) : List Char :=
  List.replicate (13 - (Nat.toDigits 10 n).length) '0' ++ Nat.toDigits 10 n

/-- `trim_end_matches('/')`. -/
def trimEnd (s : List Char) : List Char := (s.reverse.dropWhile (· == '/')).reverse

def shardWord (shard : ShardKey) : List Char := "shard=".toList ++ Nat.toDigits 10 shard.toNat

def partWord (ext : List Char) (startMs : UInt64) : List Char :=
  "part-".toList ++ pad13 startMs.toNat ++ '.' :: ext

variable (b : PathBuilder)

def runWord : List Char := "run=".toList ++ b.runId.toList

def workerWord : List Char := "worker=".toList ++ b.workerId.toList

/-- The formatted text. -/
def layout (format ext : String) (shard : ShardKey) (startMs : UInt64) : List Char :=
  trimEnd b.base.toList ++ '/' :: (b.runWord ++ '/' :: (shardWord shard ++ '/' ::
    (b.workerWord ++ '/' :: (format.toList ++ '/' :: partWord ext.toList startMs))))

/-- mirrors crates/crawlrs-store/src/path.rs:40-51 -/
def compose (format ext : String) (shard : ShardKey) (startMs : UInt64) : String :=
  b.part.path (b.layout format ext shard startMs)

/-- mirrors crates/crawlrs-store/src/path.rs:32-34 -/
def parquet : ShardKey → UInt64 → String := b.compose "parquet" "parquet"

/-- mirrors crates/crawlrs-store/src/path.rs:36-38 -/
def warc : ShardKey → UInt64 → String := b.compose "warc" "warc.gz"

/-! ## The path determines shard and millisecond -/

theorem ofDigitChars_pad13 (n : Nat) : Nat.ofDigitChars 10 (pad13 n) 0 = n := by
  simp [pad13, Nat.ofDigitChars_append, Nat.ofDigitChars_replicate_zero,
    Nat.ofDigitChars_ten_toDigits]

theorem pad13_injective : Function.Injective pad13 := by
  intro m n h
  rw [← ofDigitChars_pad13 m, h, ofDigitChars_pad13]

theorem isDigit_pad13 {n : Nat} {c : Char} (h : c ∈ pad13 n) : c.isDigit = true := by
  rcases List.mem_append.1 h with h | h
  · rw [(List.mem_replicate.1 h).2]; decide
  · exact isDigit_toDigits h

theorem isAlphanum_of_isDigit {c : Char} (h : c.isDigit = true) : c.isAlphanum = true := by
  simp [Char.isAlphanum, h]

theorem safe_shard : ∀ c ∈ "shard=".toList, c.isAlphanum ∨ c ∈ ['=', '-', '.'] := by simp

theorem safe_part : ∀ c ∈ "part-".toList, c.isAlphanum ∨ c ∈ ['=', '-', '.'] := by simp

theorem parts_shardWord (shard : ShardKey) : b.part.parts (shardWord shard) = [shardWord shard] := by
  refine b.part.parts_word ?_ ?_
  · intro c hc
    rcases List.mem_append.1 hc with hc | hc
    · exact safe_shard c hc
    · exact Or.inl (isAlphanum_of_isDigit (isDigit_toDigits hc))
  · have h : 2 < "shard=".toList.length := by decide
    change 2 < ("shard=".toList ++ Nat.toDigits 10 shard.toNat).length
    rw [List.length_append]
    exact Nat.lt_add_right _ h

theorem parts_partWord {ext : List Char} (hext : ∀ c ∈ ext, c.isAlphanum ∨ c ∈ ['=', '-', '.'])
    (ms : UInt64) : b.part.parts (partWord ext ms) = [partWord ext ms] := by
  refine b.part.parts_word ?_ ?_
  · intro c hc
    rcases List.mem_append.1 hc with hc | hc
    · rcases List.mem_append.1 hc with hc | hc
      · exact safe_part c hc
      · exact Or.inl (isAlphanum_of_isDigit (isDigit_pad13 hc))
    · rcases List.mem_cons.1 hc with rfl | hc
      · decide
      · exact hext c hc
  · have h : 2 < "part-".toList.length := by decide
    change 2 < ("part-".toList ++ pad13 ms.toNat ++ '.' :: ext).length
    rw [List.append_assoc, List.length_append]
    exact Nat.lt_add_right _ h

/-- What the layout's parts are: the shard's word between parts that do not depend on it. -/
theorem parts_layout (format : String) {ext : String}
    (hext : ∀ c ∈ ext.toList, c.isAlphanum ∨ c ∈ ['=', '-', '.']) (s : ShardKey) (m : UInt64) :
    b.part.parts (b.layout format ext s m) =
      (b.part.parts (trimEnd b.base.toList) ++ b.part.parts b.runWord) ++ shardWord s ::
        ((b.part.parts b.workerWord ++ b.part.parts format.toList) ++ [partWord ext.toList m]) := by
  simp only [layout, PathPart.parts_append, parts_shardWord, b.parts_partWord hext,
    List.append_assoc, List.singleton_append]

theorem compose_injective (format : String) {ext : String}
    (hext : ∀ c ∈ ext.toList, c.isAlphanum ∨ c ∈ ['=', '-', '.']) {s s' : ShardKey} {m m' : UInt64}
    (h : b.compose format ext s m = b.compose format ext s' m') : s = s' ∧ m = m' := by
  have hne : ∀ (s : ShardKey) (m : UInt64), b.part.parts (b.layout format ext s m) ≠ [] := by
    intro s m
    rw [b.parts_layout format hext]
    simp
  have heq := b.part.parts_of_path_eq (hne s m) (hne s' m') h
  rw [b.parts_layout format hext, b.parts_layout format hext] at heq
  obtain ⟨hshard, htail⟩ := List.cons.inj (List.append_cancel_left heq)
  have hpart : partWord ext.toList m = partWord ext.toList m' := by
    simpa using List.append_cancel_left htail
  have hdigits : Nat.toDigits 10 s.toNat = Nat.toDigits 10 s'.toNat := List.append_cancel_left hshard
  have hpad : pad13 m.toNat = pad13 m'.toNat :=
    List.append_cancel_left (List.append_cancel_right hpart)
  constructor
  · rw [← UInt32.toNat_inj, ← Nat.ofDigitChars_ten_toDigits (n := s.toNat), hdigits,
      Nat.ofDigitChars_ten_toDigits]
  · exact UInt64.toNat_inj.1 (pad13_injective hpad)

theorem parquet_injective {s s' : ShardKey} {m m' : UInt64} (h : b.parquet s m = b.parquet s' m') :
    s = s' ∧ m = m' :=
  b.compose_injective "parquet" (by simp) h

theorem warc_injective {s s' : ShardKey} {m m' : UInt64} (h : b.warc s m = b.warc s' m') :
    s = s' ∧ m = m' :=
  b.compose_injective "warc" (by simp) h

end PathBuilder

end Crawlrs

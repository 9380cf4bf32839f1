import Crawlrs.Core.Blocks
import Crawlrs.L4Politeness.Keys
import Crawlrs.L4Runtime.Frontier

/-!
# The call of `submit_batch.lua` (`crawlrs-frontier/src/host_queue.rs`)

One call takes any number of entries. The client lays their keys out behind three fixed
ones, two for each, and their arguments behind two fixed ones, four for each; the script
finds them by position.

* `round_submitBatch`: round `i` of the loop reads entry `i`, and its keys are those of
  the entry's host.
* `run_submitBatch`: the script on the call is `Shard.submitBatch` on the entries.
* `submitShard_run`: so the script on the call is what `submit_batch` does to a shard.
-/
namespace Crawlrs

open Shard (SubmitItem)

/-- An argument, as the client gives it. -/
inductive Arg
  | int (n : Int)
  | text (s : String)
  | bytes (bs : Bytes)
deriving DecidableEq, Repr

structure Invocation where
  keys : List String
  argv : List Arg
deriving DecidableEq, Repr

/-- What a round of the loop reads.
mirrors crates/crawlrs-frontier/src/scripts/submit_batch.lua:43-49 -/
structure BatchRound where
  item : SubmitItem
  hostQueueKey : String
  hostCountKey : String
deriving DecidableEq, Repr

namespace Invocation

/-- Lua counts from 1. -/
def key (call : Invocation) : Nat → Option String
  | 0 => none
  | i + 1 => call.keys[i]?

def arg (call : Invocation) : Nat → Option Arg
  | 0 => none
  | i + 1 => call.argv[i]?

/-- mirrors crates/crawlrs-frontier/src/host_queue.rs:182-197 -/
def submitBatch (k : KeyPrefix) (shard : ShardKey) (items : List SubmitItem) (nowMs : Int) :
    Invocation where
  keys := k.seen shard :: k.urls shard :: k.wake shard ::
    items.flatMap fun it => [k.hostQueue shard it.host, k.hostCount shard it.host]
  argv := .int items.length :: .int nowMs ::
    items.flatMap fun it => [.text it.urlId.toHex, .text it.host, .bytes it.payload, .int it.maxUrls]

/-- mirrors crates/crawlrs-frontier/src/scripts/submit_batch.lua:43-49 -/
def round (call : Invocation) (i : Nat) : Option BatchRound :=
  let base := 3 + i * 4
  match call.arg base, call.arg (base + 1), call.arg (base + 2), call.arg (base + 3),
    call.key (4 + i * 2), call.key (5 + i * 2) with
  | some (.text urlId), some (.text host), some (.bytes payload), some (.int cap), some queue, some count =>
    (UrlId.fromHex urlId).map fun u => ⟨⟨u, host, payload, cap⟩, queue, count⟩
  | _, _, _, _, _, _ => none

/-- The rounds `0` to `n - 1`, and `now_ms`; `none` where an argument is missing. A batch is far
shorter than 2^53, so `tonumber` reads `n` as it is.
mirrors crates/crawlrs-frontier/src/scripts/submit_batch.lua:36-49 -/
def rounds (call : Invocation) : Option (List BatchRound × Int) :=
  match call.arg 1, call.arg 2 with
  | some (.int n), some (.int now) => ((List.range n.toNat).mapM call.round).map (·, now)
  | _, _ => none

/-- mirrors crates/crawlrs-frontier/src/scripts/submit_batch.lua:36-87 -/
def run {β : Type} (B : Sketch UrlId β) (call : Invocation) (s : Shard β) :
    Option (Shard β × Nat × List UrlId) :=
  call.rounds.map fun r => Shard.submitBatch B r.2 (r.1.map BatchRound.item) s (0, [])

/-! ## What is packed is what is read -/

variable (k : KeyPrefix) (shard : ShardKey) (items : List SubmitItem) (now : Int)

theorem arg_submitBatch (i : Nat) {j : Nat} (hj : j < 4) :
    (submitBatch k shard items now).arg (3 + i * 4 + j) = items[i]?.bind fun it =>
      [Arg.text it.urlId.toHex, .text it.host, .bytes it.payload, .int it.maxUrls][j]? := by
  have hat : 3 + i * 4 + j = i * 4 + j + 1 + 1 + 1 := by omega
  rw [hat]
  exact getElem?_flatMap (n := 4) (fun _ => rfl) items i hj

theorem key_submitBatch (i : Nat) {j : Nat} (hj : j < 2) :
    (submitBatch k shard items now).key (4 + i * 2 + j) = items[i]?.bind fun it =>
      [k.hostQueue shard it.host, k.hostCount shard it.host][j]? := by
  have hat : 4 + i * 2 + j = i * 2 + j + 1 + 1 + 1 + 1 := by omega
  rw [hat]
  exact getElem?_flatMap (n := 2) (fun _ => rfl) items i hj

/-- What the client packs for an entry is what its round reads. -/
theorem round_submitBatch (i : Nat) : (submitBatch k shard items now).round i =
    items[i]?.map fun it => ⟨it, k.hostQueue shard it.host, k.hostCount shard it.host⟩ := by
  have h0 := arg_submitBatch k shard items now i (j := 0) (by decide)
  have h1 := arg_submitBatch k shard items now i (j := 1) (by decide)
  have h2 := arg_submitBatch k shard items now i (j := 2) (by decide)
  have h3 := arg_submitBatch k shard items now i (j := 3) (by decide)
  have hqueue := key_submitBatch k shard items now i (j := 0) (by decide)
  have hcount := key_submitBatch k shard items now i (j := 1) (by decide)
  have hodd : 5 + i * 2 = 4 + i * 2 + 1 := by omega
  rw [Nat.add_zero] at h0 hqueue
  simp only [round, hodd]
  rw [h0, h1, h2, h3, hqueue, hcount]
  cases items[i]? with
  | none => rfl
  | some it => simp [UrlId.fromHex_toHex]

theorem rounds_submitBatch : (submitBatch k shard items now).rounds =
    some (items.map fun it => ⟨it, k.hostQueue shard it.host, k.hostCount shard it.host⟩, now) := by
  have hcount : (submitBatch k shard items now).arg 1 = some (.int items.length) := rfl
  have hnow : (submitBatch k shard items now).arg 2 = some (.int now) := rfl
  rw [rounds, hcount, hnow]
  dsimp only
  rw [Int.toNat_natCast, mapM_range (round_submitBatch k shard items now)]
  rfl

/-- **The batch call.** The script, run on what the client packs for the entries, does to the shard what
`Shard.submitBatch` does with them. -/
theorem run_submitBatch {β : Type} (B : Sketch UrlId β) (s : Shard β) :
    run B (submitBatch k shard items now) s = some (Shard.submitBatch B now items s (0, [])) := by
  rw [run, rounds_submitBatch, Option.map_some, List.map_map]
  have hitems : items.map (BatchRound.item ∘ fun it =>
      ⟨it, k.hostQueue shard it.host, k.hostCount shard it.host⟩) = items := List.map_id items
  rw [hitems]

end Invocation

/-- The script call of `submit_batch` for one shard, whatever the run id in its keys. -/
theorem RedisFrontier.submitShard_run {β : Type} (F : RedisFrontier) (W : Wire) (B : Sketch UrlId β)
    (k : KeyPrefix) (now : Int) (items : List Routed) (shard : ShardKey) (R : Redis β)
    (total : SubmitBatchOutcome) : ∃ s queued rejectedIds,
      Invocation.run B (.submitBatch k shard (items.map (F.submitItem W)) now) (R.shards shard) =
        some (s, queued, rejectedIds) ∧
      F.submitShard W B now items shard R total =
        (⟨Function.update R.shards shard s, R.rejected ++ rejectedIds.map (shard, ·)⟩,
          ⟨total.queued + queued, total.rejectedUrls ++
            rejectedIds.filterMap fun id => (items.find? (·.urlId = id)).map Routed.entry⟩) :=
  ⟨_, _, _, Invocation.run_submitBatch k shard _ now B _, rfl⟩

end Crawlrs

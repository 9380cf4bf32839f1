import Crawlrs.Core.Runs
import Crawlrs.L4Parser.Extract
import Crawlrs.L4Runtime.Outbox
import Crawlrs.L4Runtime.PartialBatch

/-!
# Loading a seeds file (`crawlrs-bin/src/seed.rs`)

A line of the file is a seed unless it is blank, a comment, or no URL. The seeds are
submitted in batches; a batch that fails is counted and skipped. The job fails only when
every batch did, and a file without seeds has none.

* `seed_as_one`: without failures the keyspaces and the summary are those of taking the
  seeds of the file one at a time, whatever the batch size, the order of the hash maps
  and the clock. Only the scores of wake-times are the clock's.
* `seed_settles`: with failures, every seed of a batch that did not fail is settled at the
  end, the summary's numbers add up to the file, and the job fails only if there is a batch
  and every one did. A script call that fails is one that changed nothing.
-/
namespace Crawlrs

variable {β : Type}

/-! ## The file -/

/-- `str::lines`: what is between line feeds; nothing after the last one is no line.
Carriage returns go with the white space around a line. -/
def linesFrom : List Char → List Char → List (List Char)
  | [], [] => []
  | line, [] => [line]
  | line, c :: cs => if c = '\n' then line :: linesFrom [] cs else linesFrom (line ++ [c]) cs

def lines (contents : String) : List (List Char) := linesFrom [] contents.toList

/-- The seed of a line, if it is one.
mirrors crates/crawlrs-bin/src/seed.rs:48-63 -/
def seedOfLine (parse : ParseUrl) (rawLine : List Char) : Option UrlEntry :=
  let line := Runs.trim isWhitespace rawLine
  if line = [] ∨ line.head? = some '#' then none
  else
    match parse (String.ofList line) with
    | .ok url => some (.seed url)
    | .error _ => none

/-- mirrors crates/crawlrs-bin/src/seed.rs:41-67 -/
def readSeeds (parse : ParseUrl) (contents : String) : List UrlEntry :=
  (lines contents).filterMap (seedOfLine parse)

/-! ## The batches -/

/-- What one batch finds: the clock, the order of its hash map, the script calls that fail. -/
structure SeedAttempt where
  order : HashOrder
  now : Int
  fails : ShardKey → Option String

/-- The counters of `submit_in_batches`. -/
structure SeedTally where
  queued : Nat := 0
  rejected : Nat := 0
  failed : Nat := 0
  attempted : Nat := 0
  succeeded : Nat := 0
deriving DecidableEq, Repr

namespace SeedTally

/-- A batch of `size` entries has succeeded. -/
def ok (t : SeedTally) (outcome : SubmitBatchOutcome) : SeedTally :=
  { t with
    queued := t.queued + outcome.queued
    rejected := t.rejected + outcome.rejectedUrls.length
    attempted := t.attempted + 1
    succeeded := t.succeeded + 1 }

/-- A batch of `size` entries has failed. -/
def error (t : SeedTally) (size : Nat) : SeedTally :=
  { t with failed := t.failed + size, attempted := t.attempted + 1 }

/-- `total.saturating_sub(..)`. -/
def bloomDuplicates (t : SeedTally) (total : Nat) : Nat := total - (t.queued + t.rejected + t.failed)

end SeedTally

namespace RedisFrontier

variable (F : RedisFrontier) (W : Wire) (B : Sketch UrlId β)

/-- One batch.
mirrors crates/crawlrs-bin/src/seed.rs:89-112 -/
def seedBatch (env : SeedAttempt) (chunk : List UrlEntry) (acc : SeedTally × Redis β) :
    SeedTally × Redis β :=
  match F.submitBatchOr W B env.fails env.order env.now chunk acc.2 with
  | (.ok outcome, R) => (acc.1.ok outcome, R)
  | (.error _, R) => (acc.1.error chunk.length, R)

def seedBatches (env : Nat → SeedAttempt) : Nat → List (List UrlEntry) → SeedTally × Redis β →
    SeedTally × Redis β
  | _, [], acc => acc
  | i, chunk :: chunks, acc => seedBatches env (i + 1) chunks (F.seedBatch W B (env i) chunk acc)

/-- The exit of the job, the counters of its summary, and the keyspaces. `chunks(0)` panics.
mirrors crates/crawlrs-bin/src/seed.rs:72-134 -/
def submitInBatches (env : Nat → SeedAttempt) (entries : List UrlEntry)
    (batchSize : {n : Nat // 0 < n}) (R : Redis β) :
    Except String Unit × SeedTally × Redis β :=
  let res := F.seedBatches W B env 0 (chunks batchSize.1 entries) ({}, R)
  if res.1.succeeded = 0 then
    (.error (s!"all {res.1.attempted} seed batch(es) failed; nothing was loaded"), res)
  else (.ok (), res)

/-- The job, once the file is read: a file without seeds is none of Redis's business.
mirrors crates/crawlrs-bin/src/seed.rs:20-36 -/
def seed (parse : ParseUrl) (env : Nat → SeedAttempt) (contents : String)
    (batchSize : {n : Nat // 0 < n}) (R : Redis β) : Except String Unit × SeedTally × Redis β :=
  let entries := readSeeds parse contents
  if entries = [] then (.ok (), {}, R) else F.submitInBatches W B env entries batchSize R

/-! ## Keyspaces up to the clock -/

end RedisFrontier

/-- The same keyspace, but for the scores of `wake`. -/
structure Shard.SameButScores (s s' : Shard β) : Prop where
  seen : s'.seen = s.seen
  urls : s'.urls = s.urls
  hostQueue : s'.hostQueue = s.hostQueue
  hostCount : s'.hostCount = s.hostCount
  ready : s'.ready = s.ready
  inflight : s'.inflight = s.inflight
  wake : ∀ h, (s'.wake.score? h).isSome = (s.wake.score? h).isSome

namespace Shard

theorem SameButScores.refl (s : Shard β) : SameButScores s s :=
  ⟨rfl, rfl, rfl, rfl, rfl, rfl, fun _ => rfl⟩

/-- The clock decides nothing but scores. -/
theorem SameButScores.submitItem (B : Sketch UrlId β) (now now' : Int) {s s' : Shard β}
    (h : SameButScores s s') (it : SubmitItem) :
    SameButScores (submitItem B now s it).1 (submitItem B now' s' it).1 ∧
      (submitItem B now s it).2 = (submitItem B now' s' it).2 := by
  rw [submitItem_eq, submitItem_eq, h.seen, h.hostCount]
  split
  · exact ⟨h, rfl⟩
  · split
    · exact ⟨h, rfl⟩
    · refine ⟨⟨?_, ?_, ?_, ?_, h.ready, h.inflight, fun x => ?_⟩, rfl⟩
      · simp only [accept, h.seen]
      · simp only [accept, h.urls]
      · simp only [accept, h.hostQueue]
      · simp only [accept, h.hostCount]
      · simp only [accept, ZSet.score?_zaddNX]
        have hw := h.wake x
        by_cases hx : x = it.host
        · subst hx
          cases h1 : s.wake.score? it.host <;> cases h2 : s'.wake.score? it.host <;>
            simp [h1, h2] at hw ⊢
        · simpa [hx] using hw

end Shard

/-! ## Without failures -/

namespace RedisFrontier

variable {F : RedisFrontier} {W : Wire} {B : Sketch UrlId β}

/-- The entries one at a time, each on the shard of its host, at the epoch. -/
def takeOne (F : RedisFrontier) (W : Wire) (B : Sketch UrlId β) :
    (ShardKey → Shard β) → UrlEntry → (ShardKey → Shard β) × Shard.Verdict :=
  Loop.keyed F.shardOfEntry (F.luaBody W B 0)

/-- How many of the entries get the verdict. -/
def tally (F : RedisFrontier) (W : Wire) (B : Sketch UrlId β) (S : ShardKey → Shard β)
    (es : List UrlEntry) (v : Shard.Verdict) : Nat :=
  (Loop.trace (F.takeOne W B) S es).countP fun q => decide (q.2 = v)

theorem tally_append (S : ShardKey → Shard β) (es es' : List UrlEntry) (v : Shard.Verdict) :
    F.tally W B S (es ++ es') v =
      F.tally W B S es v + F.tally W B (Loop.after (F.takeOne W B) S es) es' v := by
  rw [tally, Loop.trace_append, List.countP_append]
  rfl

/-- Every entry gets one of three verdicts. -/
theorem tally_sum (S : ShardKey → Shard β) (es : List UrlEntry) :
    F.tally W B S es .queued + F.tally W B S es .rejected + F.tally W B S es .duplicate = es.length := by
  have hlen : (Loop.trace (F.takeOne W B) S es).length = es.length := by
    rw [← List.length_map, Loop.trace_fst]
  rw [← hlen]
  unfold tally
  induction Loop.trace (F.takeOne W B) S es with
  | nil => rfl
  | cons q qs ih =>
    obtain ⟨e, v⟩ := q
    simp only [List.countP_cons, List.length_cons]
    cases v <;> simp <;> omega

/-- The two runs on one shard. -/
theorem lockstep_shard (now : Int) {s s' : Shard β} (h : s.SameButScores s') (es : List UrlEntry) :
    (Loop.after (F.luaBody W B 0) s es).SameButScores (Loop.after (F.luaBody W B now) s' es) ∧
      Loop.trace (F.luaBody W B 0) s es = Loop.trace (F.luaBody W B now) s' es :=
  Loop.lockstep (fun s s' e _ (hr : Shard.SameButScores s s') => hr.submitItem B 0 now (F.itemOf W e)) h

/-- A batch that runs, from keyspaces that differ in scores. -/
theorem submitBatch_tally (order : HashOrder) (now : Int) {es : List UrlEntry}
    (hes : ∀ e ∈ es, F.Accepts e) {S : ShardKey → Shard β} {R : Redis β}
    (hS : ∀ k, (S k).SameButScores (R.shards k)) :
    (∀ k, (Loop.after (F.takeOne W B) S es k).SameButScores
        ((F.submitBatch W B order now es R).2.shards k)) ∧
      ∃ outcome, (F.submitBatch W B order now es R).1 = .ok outcome ∧
        outcome.queued = F.tally W B S es .queued ∧
        outcome.rejectedUrls.length = F.tally W B S es .rejected := by
  obtain ⟨ks, -, hnd, hks, hshards, hreply⟩ :=
    submitBatch_spec (F := F) (W := W) (B := B) order now hes R
  have hrun (k : ShardKey) := lockstep_shard (F := F) (W := W) (B := B) now (hS k) (F.onShardEntries k es)
  have htally : ∀ v, F.tally W B S es v = (ks.map fun k =>
      (Loop.trace (F.luaBody W B now) (R.shards k) (F.onShardEntries k es)).countP (·.2 = v)).sum := by
    intro v
    rw [tally, takeOne, Loop.countP_trace_keyed F.shardOfEntry (F.luaBody W B 0)
      (fun w => decide (w = v)) S hnd hks]
    refine congrArg List.sum (List.map_congr_left fun k _ => ?_)
    rw [← (hrun k).2]
    rfl
  refine ⟨fun k => ?_, _, hreply, (htally .queued).symm, ?_⟩
  · rw [hshards k, takeOne, Loop.after_keyed]
    exact (hrun k).1
  · rw [htally, List.length_flatMap]
    refine congrArg List.sum (List.map_congr_left fun k _ => ?_)
    rw [reported, List.length_map, List.countP_eq_length_filter]

/-- One batch that does not fail. -/
theorem seedBatch_ok {env : SeedAttempt} (hf : ∀ k, env.fails k = none) {chunk : List UrlEntry}
    (hes : ∀ e ∈ chunk, F.Accepts e) {S : ShardKey → Shard β} {t : SeedTally} {R : Redis β}
    (hS : ∀ k, (S k).SameButScores (R.shards k)) :
    (∀ k, (Loop.after (F.takeOne W B) S chunk k).SameButScores
        ((F.seedBatch W B env chunk (t, R)).2.shards k)) ∧
      (F.seedBatch W B env chunk (t, R)).1 =
        ⟨t.queued + F.tally W B S chunk .queued, t.rejected + F.tally W B S chunk .rejected,
          t.failed, t.attempted + 1, t.succeeded + 1⟩ := by
  have hnone : env.fails = fun _ => none := funext hf
  obtain ⟨hshards, outcome, hreply, hq, hr⟩ :=
    submitBatch_tally (W := W) (B := B) env.order env.now hes hS
  have hbatch : F.seedBatch W B env chunk (t, R) =
      (t.ok outcome, (F.submitBatch W B env.order env.now chunk R).2) := by
    unfold seedBatch
    rw [hnone, submitBatchOr_none]
    generalize F.submitBatch W B env.order env.now chunk R = res at hreply ⊢
    obtain ⟨out, R'⟩ := res
    cases hreply
    rfl
  rw [hbatch]
  exact ⟨hshards, by rw [SeedTally.ok, hq, hr]⟩

/-- All batches, by induction on what is left of the file. -/
theorem seedBatches_ok {env : Nat → SeedAttempt} (hf : ∀ i k, (env i).fails k = none)
    (cs : List (List UrlEntry)) : ∀ {i : Nat} {S : ShardKey → Shard β} {t : SeedTally} {R : Redis β},
      (∀ c ∈ cs, ∀ e ∈ c, F.Accepts e) → (∀ k, (S k).SameButScores (R.shards k)) →
      (∀ k, (Loop.after (F.takeOne W B) S cs.flatten k).SameButScores
          ((F.seedBatches W B env i cs (t, R)).2.shards k)) ∧
        (F.seedBatches W B env i cs (t, R)).1 =
          ⟨t.queued + F.tally W B S cs.flatten .queued, t.rejected + F.tally W B S cs.flatten .rejected,
            t.failed, t.attempted + cs.length, t.succeeded + cs.length⟩ := by
  induction cs with
  | nil =>
    intro i S t R _ hS
    exact ⟨hS, by simp [seedBatches, tally]⟩
  | cons c cs ih =>
    intro i S t R hes hS
    obtain ⟨h1, h2⟩ := seedBatch_ok (W := W) (B := B) (t := t) (hf i) (hes c List.mem_cons_self) hS
    rw [seedBatches, List.flatten_cons, Loop.after_append, tally_append, tally_append]
    obtain ⟨t', R', hb⟩ : ∃ t' R', F.seedBatch W B (env i) c (t, R) = (t', R') := ⟨_, _, rfl⟩
    rw [hb] at h1 h2 ⊢
    have h2 : t' = _ := h2
    obtain ⟨h3, h4⟩ := ih (i := i + 1) (t := t') (fun c hc => hes c (List.mem_cons_of_mem _ hc)) h1
    refine ⟨h3, h4.trans ?_⟩
    rw [h2]
    simp only [List.length_cons, SeedTally.mk.injEq]
    exact ⟨Nat.add_assoc .., Nat.add_assoc .., trivial, by omega, by omega⟩

/-- **A seeds file, as if taken one line at a time.** If the process owns every seed and no script
call fails, then for every batch size, every order of the hash maps and every clock the job succeeds,
the keyspaces are those of the seeds taken one at a time in the order of the file, up to the scores
in `wake`, and the summary counts their verdicts; the number of duplicates it works out is their
number. -/
theorem seed_as_one (F : RedisFrontier) (W : Wire) (B : Sketch UrlId β) (parse : ParseUrl)
    (contents : String) (batchSize : {n : Nat // 0 < n}) (env : Nat → SeedAttempt) (R : Redis β)
    (hf : ∀ i k, (env i).fails k = none) (hown : ∀ e ∈ readSeeds parse contents, F.Accepts e) :
    let es := readSeeds parse contents
    let res := F.seed W B parse env contents batchSize R
    res.1 = .ok () ∧
      (∀ k, (Loop.after (F.takeOne W B) R.shards es k).SameButScores (res.2.2.shards k)) ∧
      res.2.1.queued = F.tally W B R.shards es .queued ∧
      res.2.1.rejected = F.tally W B R.shards es .rejected ∧
      res.2.1.bloomDuplicates es.length = F.tally W B R.shards es .duplicate := by
  intro es res
  have hflat := chunks_flatten batchSize.1 es
  have hacc : ∀ c ∈ chunks batchSize.1 es, ∀ e ∈ c, F.Accepts e := by
    intro c hc e he
    refine hown e ?_
    have hin : e ∈ (chunks batchSize.1 es).flatten := List.mem_flatten.2 ⟨c, hc, he⟩
    rwa [hflat] at hin
  obtain ⟨hshards, htally⟩ := seedBatches_ok (F := F) (W := W) (B := B) hf (chunks batchSize.1 es)
    (i := 0) (t := {}) hacc fun k => Shard.SameButScores.refl (R.shards k)
  rw [hflat] at hshards htally
  have hres : res = (.ok (), F.seedBatches W B env 0 (chunks batchSize.1 es) ({}, R)) := by
    by_cases hne : es = []
    · have hnone : chunks batchSize.1 es = [] := by rw [hne]; rfl
      rw [hnone]
      exact if_pos hne
    · have hpos : (chunks batchSize.1 es).length ≠ 0 := by
        intro hzero
        rw [List.length_eq_zero_iff.1 hzero] at hflat
        exact hne hflat.symm
      have hseed : res = F.submitInBatches W B env es batchSize R := if_neg hne
      rw [hseed, submitInBatches]
      rw [if_neg]
      rw [htally]
      simpa using hpos
  rw [hres]
  have hsum := tally_sum (F := F) (W := W) (B := B) R.shards es
  refine ⟨rfl, hshards, ?_, ?_, ?_⟩
  · rw [htally]
    exact Nat.zero_add _
  · rw [htally]
    exact Nat.zero_add _
  · rw [SeedTally.bloomDuplicates, htally]
    dsimp only
    omega

/-- A file with a comment, a duplicate and a line that is no URL, in batches of two. -/
def seedsFile : String := "# seeds\nhttps://a.test/\n\nnot a url\nhttps://b.test/\nhttps://a.test/"

def parseSeed : ParseUrl := fun s =>
  if s = "https://a.test/" then .ok UrlEntry.seedA.url
  else if s = "https://b.test/" then .ok UrlEntry.seedB.url
  else .error "relative URL without a base"

theorem readSeeds_seedsFile : readSeeds parseSeed seedsFile = [.seedA, .seedB, .seedA] := by
  decide +kernel

/-- Two seeds are queued, and the third is the duplicate the summary works out. -/
theorem seed_as_one_file : ((flat 2).seed .sample .exact parseSeed
    (fun i => ⟨.asIs, i, fun _ => none⟩) seedsFile ⟨2, Nat.two_pos⟩ Redis.fresh).2.1.bloomDuplicates 3 = 1 := by
  have hown : ∀ e ∈ readSeeds parseSeed seedsFile, (flat 2).Accepts e := by
    rw [readSeeds_seedsFile]
    decide +kernel
  have hone := (seed_as_one (flat 2) .sample .exact parseSeed seedsFile ⟨2, Nat.two_pos⟩
    (fun i => ⟨.asIs, i, fun _ => none⟩) Redis.fresh (fun _ _ => rfl) hown).2.2.2.2
  rw [readSeeds_seedsFile] at hone
  have htally : (flat 2).tally .sample .exact (fun _ => .fresh []) [.seedA, .seedB, .seedA] .duplicate = 1 := by
    decide +kernel
  exact hone.trans htally

/-! ## With failures -/

/-- A batch that returns an outcome has run like one that cannot fail. -/
theorem submitShardsOr_eq (now : Int) (routed : List Routed) {fails : ShardKey → Option String}
    (ks : List ShardKey) : ∀ {R R' : Redis β} {total outcome : SubmitBatchOutcome},
      F.submitShardsOr W B fails now routed ks R total = (.ok outcome, R') →
      F.submitShards W B now routed ks R total = (R', outcome) := by
  induction ks with
  | nil =>
    intro R R' total outcome h
    cases h
    rfl
  | cons k ks ih =>
    intro R R' total outcome h
    rw [submitShardsOr] at h
    split at h
    · cases h
    · exact ih h

theorem submitBatchOr_eq {fails : ShardKey → Option String} {order : HashOrder} {now : Int}
    {es : List UrlEntry} {R R' : Redis β} {outcome : SubmitBatchOutcome}
    (h : F.submitBatchOr W B fails order now es R = (.ok outcome, R')) :
    (∀ e ∈ es, F.Accepts e) ∧ F.submitBatch W B order now es R = (.ok outcome, R') := by
  unfold submitBatchOr at h
  unfold submitBatch
  split at h
  · rename_i hnil
    cases h
    exact ⟨by simp [hnil], by simp [hnil]⟩
  · rename_i hne
    rw [if_neg hne]
    cases hr : F.resolve W es with
    | error e =>
      rw [hr] at h
      cases h
    | ok routed =>
      rw [hr] at h
      have hshards := submitShardsOr_eq now routed _ h
      refine ⟨fun e he => ?_, by simp only [hshards]⟩
      by_contra hno
      obtain ⟨err, herr⟩ := resolve_error (W := W) ⟨e, he, hno⟩
      rw [hr] at herr
      cases herr

theorem submitShardsOr_grows (now : Int) (routed : List Routed) (fails : ShardKey → Option String)
    (ks : List ShardKey) : ∀ (R : Redis β) (total : SubmitBatchOutcome),
      R.Grows B (F.submitShardsOr W B fails now routed ks R total).2 := by
  induction ks with
  | nil => intro R total; exact .refl R
  | cons k ks ih =>
    intro R total
    rw [submitShardsOr]
    split
    · exact .refl R
    · exact (submitShard_spec now _ k R total).1.trans (ih _ _)

theorem submitBatchOr_grows (fails : ShardKey → Option String) (order : HashOrder) (now : Int)
    (es : List UrlEntry) (R : Redis β) : R.Grows B (F.submitBatchOr W B fails order now es R).2 := by
  unfold submitBatchOr
  split
  · exact .refl R
  · split
    · exact .refl R
    · exact submitShardsOr_grows now _ fails _ R {}

theorem seedBatch_grows (env : SeedAttempt) (chunk : List UrlEntry) (t : SeedTally) (R : Redis β) :
    R.Grows B (F.seedBatch W B env chunk (t, R)).2 := by
  have hg := submitBatchOr_grows (F := F) (W := W) (B := B) env.fails env.order env.now chunk R
  unfold seedBatch
  split
  · rename_i heq
    rw [heq] at hg
    exact hg
  · rename_i heq
    rw [heq] at hg
    exact hg

/-- What the counters say of the entries they have counted: those that did not fail are settled. -/
structure Counted (F : RedisFrontier) (W : Wire) (B : Sketch UrlId β) (t : SeedTally) (R : Redis β)
    (es loaded : List UrlEntry) : Prop where
  sublist : loaded.Sublist es
  failed : loaded.length + t.failed = es.length
  sum : t.queued + t.rejected ≤ loaded.length
  none : t.succeeded = 0 → loaded = []
  settled : ∀ e ∈ loaded, Settled B R (F.shardOfEntry e) (W.idOf e)

/-- One batch: all of it is settled, or all of it has failed. -/
theorem Counted.batch {t : SeedTally} {R : Redis β} {es loaded : List UrlEntry}
    (h : Counted F W B t R es loaded) (env : SeedAttempt) (chunk : List UrlEntry) :
    ∃ more, Counted F W B (F.seedBatch W B env chunk (t, R)).1 (F.seedBatch W B env chunk (t, R)).2
      (es ++ chunk) (loaded ++ more) := by
  have hg := seedBatch_grows (F := F) (W := W) (B := B) env chunk t R
  have hold : ∀ e ∈ loaded, Settled B (F.seedBatch W B env chunk (t, R)).2 (F.shardOfEntry e) (W.idOf e) :=
    fun e he => (h.settled e he).mono hg
  obtain ⟨hsub, hfailed, hsum, hnone, -⟩ := h
  generalize hres : F.submitBatchOr W B env.fails env.order env.now chunk R = res
  obtain ⟨out, R'⟩ := res
  cases out with
  | error e =>
    have hb : F.seedBatch W B env chunk (t, R) = (t.error chunk.length, R') := by
      simp only [seedBatch, hres]
    rw [hb] at hold ⊢
    refine ⟨[], ?_, ?_, ?_, ?_, ?_⟩
    · rw [List.append_nil]
      exact hsub.trans (List.sublist_append_left _ _)
    · simp only [SeedTally.error, List.append_nil, List.length_append]
      omega
    · simpa [SeedTally.error] using hsum
    · simpa [SeedTally.error] using hnone
    · simpa using hold
  | ok outcome =>
    have hb : F.seedBatch W B env chunk (t, R) = (t.ok outcome, R') := by
      simp only [seedBatch, hres]
    obtain ⟨hacc, hbatch⟩ := submitBatchOr_eq hres
    obtain ⟨-, outcome', hout, hq, hr⟩ := submitBatch_tally (F := F) (W := W) (B := B) env.order env.now
      hacc fun k => Shard.SameButScores.refl (R.shards k)
    rw [hbatch] at hout
    cases hout
    have htotal := tally_sum (F := F) (W := W) (B := B) R.shards chunk
    rw [hb] at hold ⊢
    refine ⟨chunk, ?_, ?_, ?_, ?_, ?_⟩
    · exact hsub.append (List.Sublist.refl _)
    · simp only [SeedTally.ok, List.length_append]
      omega
    · simp only [SeedTally.ok, List.length_append]
      omega
    · intro hzero
      cases hzero
    · intro e he
      obtain he | he := List.mem_append.1 he
      · exact hold e he
      · have hset := submitBatch_settled (W := W) (B := B) env.order env.now R hacc e he
        rw [hbatch] at hset
        exact hset

theorem Counted.batches (env : Nat → SeedAttempt) (cs : List (List UrlEntry)) : ∀ (i : Nat) {t : SeedTally}
    {R : Redis β} {es loaded : List UrlEntry}, Counted F W B t R es loaded →
      ∃ all, Counted F W B (F.seedBatches W B env i cs (t, R)).1 (F.seedBatches W B env i cs (t, R)).2
        (es ++ cs.flatten) all := by
  induction cs with
  | nil =>
    intro i t R es loaded h
    exact ⟨loaded, by simpa [seedBatches] using h⟩
  | cons c cs ih =>
    intro i t R es loaded h
    obtain ⟨more, hmore⟩ := h.batch (env i) c
    obtain ⟨all, hall⟩ := ih (i + 1) hmore
    exact ⟨all, by simpa [seedBatches] using hall⟩

/-- **What a seed job promises when Redis fails.** Whatever script calls fail, and whichever seeds
are not the process's own: all seeds but as many as the summary counts as failed are settled in
their shards at the end, in the filter or rejected by quota; the four numbers of the summary add up
to the seeds of the file; and if the job exits with an error, there were seeds and all of them have
failed. A script call that fails changes nothing. -/
theorem seed_settles (F : RedisFrontier) (W : Wire) (B : Sketch UrlId β) (parse : ParseUrl)
    (contents : String) (batchSize : {n : Nat // 0 < n}) (env : Nat → SeedAttempt) (R : Redis β) :
    let es := readSeeds parse contents
    let res := F.seed W B parse env contents batchSize R
    (∃ loaded : List UrlEntry, loaded.Sublist es ∧ loaded.length + res.2.1.failed = es.length ∧
        ∀ e ∈ loaded, Settled B res.2.2 (F.policy.shardKey e.url) (W.idOf e)) ∧
      res.2.1.queued + res.2.1.rejected + res.2.1.bloomDuplicates es.length + res.2.1.failed = es.length ∧
      ∀ text, res.1 = .error text → es ≠ [] ∧ res.2.1.failed = es.length := by
  intro es res
  have h0 : Counted F W B {} R [] [] :=
    ⟨List.Sublist.refl _, rfl, Nat.le_refl _, fun _ => rfl, by simp⟩
  obtain ⟨loaded, hloaded⟩ := Counted.batches env (chunks batchSize.1 es) 0 h0
  rw [List.nil_append, chunks_flatten] at hloaded
  have hres : res.2 = F.seedBatches W B env 0 (chunks batchSize.1 es) ({}, R) ∧
      ∀ text, res.1 = .error text → es ≠ [] ∧ res.2.1.succeeded = 0 := by
    by_cases hne : es = []
    · have hseed : res = (.ok (), {}, R) := if_pos hne
      have hnone : chunks batchSize.1 es = [] := by rw [hne]; rfl
      rw [hseed, hnone]
      exact ⟨rfl, fun text h => by cases h⟩
    · have hseed : res = F.submitInBatches W B env es batchSize R := if_neg hne
      rw [hseed, submitInBatches]
      split
      · rename_i hzero
        exact ⟨rfl, fun _ _ => ⟨hne, hzero⟩⟩
      · exact ⟨rfl, fun text h => by cases h⟩
  obtain ⟨hres, herror⟩ := hres
  have hsum := hloaded.sum
  have hfailed := hloaded.failed
  rw [hres] at herror ⊢
  refine ⟨⟨loaded, hloaded.sublist, hfailed, hloaded.settled⟩, ?_, fun text h => ?_⟩
  · rw [SeedTally.bloomDuplicates]
    omega
  · obtain ⟨hne, hzero⟩ := herror text h
    rw [hloaded.none hzero] at hfailed
    exact ⟨hne, by simpa using hfailed⟩

end RedisFrontier

end Crawlrs

import Crawlrs.L3Frontier.Payload
import Crawlrs.L4Runtime.Client
import Mathlib.Order.Bounds.Basic

/-!
# A claim finds what is claimable (`crawlrs-frontier/src/frontier.rs`)

`claim` asks the owned shards one after the other, from the cursor on, and
`claim.lua` asks the ready hosts of a shard. Both loops drop what is stale on the
way: `sweep_cases` says that a sweep either ends at the first shard with a ready
host that has a queued URL, the shards before it drained of their stale entries, or
drains them all and has the least of their hints.

A hint is the text of a score, read as a `u64`. Below 2^52 the text is the integer;
above, what is relied on is that it reads back as the same double (`ScoresRead`). From
10^17 on the server writes an exponent, which is no `u64`: one such score at the head of
a shard with nothing to claim ends the whole sweep.

* `not_claimComplete`: then another shard's ready host is not claimed.
* `claim_complete`: a claim is complete exactly if the hints before the first shard with
  something to claim read.
-/
namespace Crawlrs

variable {β : Type}

/-- The text of a score, where it reads as a `u64`, reads as the same double. -/
def Wire.ScoresRead (W : Wire) : Prop :=
  ∀ t n, parseUnsigned 64 (W.scoreText t).toList = some n → f64 n = f64 t

namespace Shard

/-- Every queued id has a payload, the encoding of an entry. -/
def HasPayloads (W : Wire) (s : Shard β) : Prop :=
  ∀ h, ∀ u ∈ s.hostQueue h, ∃ bs e, s.urls u = some bs ∧ W.decode bs = some e

/-- No ready host has a queued URL. -/
def AllStale (s : Shard β) : Prop := ∀ x ∈ s.ready, s.hostQueue x = []

instance (s : Shard β) : Decidable s.AllStale :=
  inferInstanceAs (Decidable (∀ x ∈ s.ready, s.hostQueue x = []))

/-- The soonest wake-time, as the client reads it. -/
def hint? (W : Wire) (s : Shard β) : Option Nat :=
  s.wake.first?.bind fun p => parseUnsigned 64 (W.scoreText p.2).toList

/-- The soonest wake-time does not read. -/
def BadHint (W : Wire) (s : Shard β) : Prop := s.wake.first? ≠ none ∧ s.hint? W = none

end Shard

/-! ## The soonest wake-time -/

theorem ZSet.first?_le {α : Type} [LinearOrder α] {z : ZSet α} {m x : α} {t y : Int}
    (h : z.first? = some (m, t)) (hx : z.score? x = some y) : t ≤ y := by
  obtain ⟨es, hes⟩ := List.head?_eq_some_iff.1 h
  have hmem : (x, y) ∈ (m, t) :: es := hes ▸ ZSet.score?_eq_some.1 hx
  have hs := hes ▸ z.sorted
  rcases List.mem_cons.1 hmem with he | he
  · cases he
    exact Int.le_refl _
  · rcases (List.pairwise_cons.1 hs).1 _ he with hlt | ⟨heq, -⟩
    · exact Int.le_of_lt hlt
    · exact Int.le_of_eq heq

/-- Two numbers that are the same double, one of them exact. -/
theorem eq_of_f64_eq {n : Nat} {m : Int} (h : f64 n = f64 m) (h0 : 0 ≤ m) (h1 : m < 2 ^ 53) :
    (n : Int) = m := by
  rw [f64_exact (z := m) (by omega)] at h
  by_cases hn : (n : Int) ≤ 2 ^ 53
  · rw [← h, f64_exact (by omega)]
  · have hle : f64 (2 ^ 53) ≤ f64 n := f64_mono (by omega)
    rw [f64_exact (z := 2 ^ 53) (by decide)] at hle
    omega

/-! ## One sweep -/

namespace RedisClient

/-- The shards in `ks` with empty ready lists. -/
def drain (ks : List ShardKey) (R : Redis β) : Redis β :=
  { R with shards := fun j => if j ∈ ks then { R.shards j with ready := [] } else R.shards j }

/-- The hints of the shards in `ks`. -/
def hints (W : Wire) (ks : List ShardKey) (R : Redis β) : List Nat :=
  ks.filterMap fun k => (R.shards k).hint? W

/-- What a sweep that claims nothing returns. -/
def outcomeOf : Option Nat → ClaimOutcome
  | some ms => .emptyHint ms
  | none => .empty

/-- The ends of a sweep over `ks`. -/
inductive SweepCases (F : RedisClient) (W : Wire) (now : Int) (ks : List ShardKey) (R : Redis β)
    (soonest : Option Nat) : Except HostQueueError ClaimOutcome × Redis β → Prop
  | claimed {pre post : List ShardKey} {k : ShardKey} {stale rest : List Host} {h : Host} {u : UrlId}
      {q : List UrlId} {bs : Bytes} {e : UrlEntry} :
      ks = pre ++ k :: post → (∀ j ∈ pre, (R.shards j).AllStale) →
      (∀ j ∈ pre, ¬ (R.shards j).BadHint W) → (R.shards k).ready = stale ++ h :: rest →
      (∀ x ∈ stale, (R.shards k).hostQueue x = []) → (R.shards k).hostQueue h = u :: q →
      (R.shards k).urls u = some bs → W.decode bs = some e →
      SweepCases F W now ks R soonest (.ok (.claimed u e (encodeAttempt k u h)),
        setShard (drain pre R) k ((R.shards k).take u h rest q (Shard.expiryOf now F.leaseMs)))
  | failed {pre post : List ShardKey} {k : ShardKey} {R' : Redis β} :
      ks = pre ++ k :: post → (∀ j ∈ pre, (R.shards j).AllStale) → (R.shards k).AllStale →
      (R.shards k).BadHint W → SweepCases F W now ks R soonest (.error .parse, R')
  | nothing :
      (∀ k ∈ ks, (R.shards k).AllStale) → (∀ k ∈ ks, ¬ (R.shards k).BadHint W) →
      SweepCases F W now ks R soonest
        (.ok (outcomeOf (soonest.toList ++ hints W ks R).min?), drain ks R)

section Drain

variable (R : Redis β) (k : ShardKey) (ks : List ShardKey)

theorem setShard_stale : setShard R k { R.shards k with ready := [] } = drain [k] R := by
  simp only [setShard, drain]
  congr 1
  funext j
  by_cases hj : j = k
  · subst hj
    simp
  · simp [hj]

theorem drain_drain : drain ks (drain [k] R) = drain (k :: ks) R := by
  simp only [drain]
  congr 1
  funext j
  by_cases hj : j = k
  · subst hj
    by_cases hks : j ∈ ks
    · simp [hks]
    · simp [hks]
  · simp [hj]

variable {R k ks} {W : Wire} {j : ShardKey}

theorem drain_of_ne (hj : j ≠ k) : (drain [k] R).shards j = R.shards j := by
  simp [drain, hj]

theorem hint?_drain : ((drain ks R).shards j).hint? W = (R.shards j).hint? W := by
  by_cases hj : j ∈ ks
  · simp [drain, hj, Shard.hint?]
  · simp [drain, hj]

theorem badHint_drain : ((drain ks R).shards j).BadHint W ↔ (R.shards j).BadHint W := by
  unfold Shard.BadHint
  rw [hint?_drain]
  by_cases hj : j ∈ ks
  · simp [drain, hj]
  · simp [drain, hj]

theorem hints_drain (js : List ShardKey) : hints W js (drain ks R) = hints W js R :=
  congrArg (js.filterMap ·) (funext fun _ => hint?_drain)

theorem hasPayloads_drain (hp : (R.shards j).HasPayloads W) :
    ((drain ks R).shards j).HasPayloads W := by
  by_cases hj : j ∈ ks
  · simpa [drain, hj, Shard.HasPayloads] using hp
  · simpa [drain, hj] using hp

/-- Emptying a stale list hides no claimable host. -/
theorem allStale_of_drain (hk : (R.shards k).AllStale) (hj : ((drain [k] R).shards j).AllStale) :
    (R.shards j).AllStale := by
  by_cases he : j = k
  · exact he ▸ hk
  · exact drain_of_ne (R := R) he ▸ hj

end Drain

/-- The cases of the shards behind `k`, where `k` had nothing to claim. -/
theorem SweepCases.cons {F : RedisClient} {W : Wire} {now : Int} {k : ShardKey} {ks : List ShardKey}
    {R : Redis β} {soonest soonest' : Option Nat}
    {res : Except HostQueueError ClaimOutcome × Redis β} (hk : (R.shards k).AllStale)
    (hgood : ¬ (R.shards k).BadHint W)
    (hs : ∀ ms, (soonest'.toList ++ ms).min? =
      (soonest.toList ++ (((R.shards k).hint? W).toList ++ ms)).min?)
    (hc : SweepCases F W now ks (drain [k] R) soonest' res) :
    SweepCases F W now (k :: ks) R soonest res := by
  have hstale : ∀ {js : List ShardKey}, (∀ j ∈ js, ((drain [k] R).shards j).AllStale) →
      ∀ j ∈ k :: js, (R.shards j).AllStale := by
    intro js hjs j hj
    rcases List.mem_cons.1 hj with rfl | hj
    · exact hk
    · exact allStale_of_drain hk (hjs j hj)
  have hreads : ∀ {js : List ShardKey}, (∀ j ∈ js, ¬ ((drain [k] R).shards j).BadHint W) →
      ∀ j ∈ k :: js, ¬ (R.shards j).BadHint W := by
    intro js hjs j hj
    rcases List.mem_cons.1 hj with rfl | hj
    · exact hgood
    · exact fun hb => hjs j hj (badHint_drain.2 hb)
  cases hc with
  | @claimed pre post j stale rest h u q bs e hks hpre hread hr hst hq hu he =>
    have hne : j ≠ k := by
      rintro rfl
      simp [drain] at hr
    rw [drain_of_ne hne] at hr hst hq hu ⊢
    rw [drain_drain]
    exact .claimed (congrArg _ hks) (hstale hpre) (hreads hread) hr hst hq hu he
  | failed hks hpre hj hbad =>
    exact .failed (congrArg _ hks) (hstale hpre) (allStale_of_drain hk hj) (badHint_drain.1 hbad)
  | nothing hall hread =>
    have hlist : hints W (k :: ks) R = ((R.shards k).hint? W).toList ++ hints W ks R := by
      unfold hints
      rw [List.filterMap_cons]
      cases (R.shards k).hint? W <;> rfl
    rw [drain_drain, hints_drain, hs, ← hlist]
    exact .nothing (hstale hall) (hreads hread)

/-- **The sweep.** It ends at the first shard with something to claim, or at a hint that does not
read, or asks them all. -/
theorem sweep_cases (F : RedisClient) (W : Wire) (now : Int) (ks : List ShardKey) (R : Redis β)
    (soonest : Option Nat) (hp : ∀ k ∈ ks, (R.shards k).HasPayloads W) :
    SweepCases F W now ks R soonest (F.sweep W now ks R soonest) := by
  induction ks generalizing R soonest with
  | nil =>
    have hR : drain [] R = R := by simp [drain]
    have hnil := @SweepCases.nothing β F W now [] R soonest (by simp) (by simp)
    rw [hR] at hnil
    cases soonest <;> exact hnil
  | cons k ks ih =>
    have hrest : ∀ soonest', SweepCases F W now ks (drain [k] R) soonest'
        (F.sweep W now ks (drain [k] R) soonest') := fun soonest' =>
      ih (drain [k] R) soonest' fun j hj => hasPayloads_drain (hp j (List.mem_cons_of_mem _ hj))
    have hc := Shard.claim_cases (R.shards k) now F.leaseMs
    unfold sweep
    generalize (R.shards k).claim now F.leaseMs = res at hc ⊢
    cases hc with
    | @claimed stale rest h u q hr hst hq =>
      obtain ⟨bs, e, hbs, he⟩ := hp k List.mem_cons_self h u (hq ▸ List.mem_cons_self)
      have hR : drain [] R = R := by simp [drain]
      have hcl := @SweepCases.claimed β F W now (k :: ks) R soonest [] ks k stale rest h u q bs e rfl
        (by simp) (by simp) hr hst hq hbs he
      rw [hR] at hcl
      simpa [parseClaimValue, hbs, he] using hcl
    | @hint h t hall hf =>
      have hhint : (R.shards k).hint? W = parseUnsigned 64 (W.scoreText t).toList := by
        simp [Shard.hint?, hf]
      simp only [setShard_stale, parseClaimValue]
      cases hn : parseUnsigned 64 (W.scoreText t).toList with
      | none =>
        have hsplit : k :: ks = [] ++ k :: ks := rfl
        refine .failed hsplit (by simp) hall ⟨by simp [hf], ?_⟩
        rw [hhint, hn]
      | some ms =>
        refine (hrest _).cons hall ?_ ?_
        · rintro ⟨-, hnone⟩
          rw [hhint, hn] at hnone
          cases hnone
        · intro rest
          rw [hhint, hn]
          cases soonest <;> rfl
    | empty hall hf =>
      have hhint : (R.shards k).hint? W = none := by simp [Shard.hint?, hf]
      simp only [setShard_stale, parseClaimValue]
      refine (hrest _).cons hall (fun hbad => hbad.1 hf) ?_
      intro rest
      rw [hhint]
      rfl

/-- The shards of a sweep that it asks in vain. -/
def askedInVain (ks : List ShardKey) (R : Redis β) : List ShardKey :=
  ks.takeWhile fun k => (R.shards k).AllStale

/-- A sweep fails exactly at a hint that does not read. -/
theorem SweepCases.ok_iff {F : RedisClient} {W : Wire} {now : Int} {ks : List ShardKey} {R : Redis β}
    {soonest : Option Nat} {res : Except HostQueueError ClaimOutcome × Redis β}
    (hc : SweepCases F W now ks R soonest res) :
    res.1 ≠ .error .parse ↔ ∀ k ∈ askedInVain ks R, ¬ (R.shards k).BadHint W := by
  cases hc with
  | @claimed pre post k stale rest h u q bs e hks hpre hread hr hst hq hu he =>
    have hlive : ¬ (R.shards k).AllStale := fun hall => by
      have hnil := hall h (by simp [hr])
      rw [hq] at hnil
      cases hnil
    have hasked : askedInVain ks R = pre := by
      rw [askedInVain, hks, List.takeWhile_append_of_pos (by simpa using hpre)]
      simp [hlive]
    rw [hasked]
    exact ⟨fun _ => hread, fun _ hbad => by cases hbad⟩
  | @failed pre post k R' hks hpre hk hbad =>
    have hasked : k ∈ askedInVain ks R := by
      rw [askedInVain, hks, List.takeWhile_append_of_pos (by simpa using hpre)]
      simp [hk]
    exact ⟨fun hne => absurd rfl hne, fun hread => absurd hbad (hread k hasked)⟩
  | nothing hall hread =>
    exact ⟨fun _ k hk => hread k (List.takeWhile_subset _ hk), fun _ hbad => by cases hbad⟩

/-! ## One claim -/

/-- Some owned shard has a ready host with a queued URL. -/
def Claimable (F : RedisClient) (R : Redis β) : Prop :=
  ∃ k ∈ F.ownedShards, ∃ h ∈ (R.shards k).ready, (R.shards k).hostQueue h ≠ []

/-- The wake scores of the owned shards. -/
def wakeScores (F : RedisClient) (R : Redis β) : Set Int :=
  {t | ∃ k ∈ F.ownedShards, ∃ h, (R.shards k).wake.score? h = some t}

/-- The head of the queue of `h` was taken with one ready entry of `h`, and no ready entry of another
host that has queued URLs. -/
structure Took (W : Wire) (R R' : Redis β) (k : ShardKey) (h : Host) (u : UrlId) (e : UrlEntry) :
    Prop where
  ready : h ∈ (R.shards k).ready
  head : (R.shards k).hostQueue h = u :: (R'.shards k).hostQueue h
  entry : ∃ bs, (R.shards k).urls u = some bs ∧ W.decode bs = some e
  own : (R'.shards k).ready.count h + 1 = (R.shards k).ready.count h
  others : ∀ j x, (R.shards j).hostQueue x ≠ [] → (j, x) ≠ (k, h) →
    (R'.shards j).ready.count x = (R.shards j).ready.count x

/-- What a claim that returned `o` found in `R` and left in `R'`. -/
structure Complete (F : RedisClient) (W : Wire) (R R' : Redis β) (o : ClaimOutcome) : Prop where
  claimed_iff : (∃ u e a, o = .claimed u e a) ↔ F.Claimable R
  claimed : ∀ u e a, o = .claimed u e a → ∃ k ∈ F.ownedShards, ∃ h, a = encodeAttempt k u h ∧
    Took W R R' k h u e
  kept : ¬ F.Claimable R → ∀ j x, (R.shards j).hostQueue x ≠ [] →
    (R'.shards j).ready.count x = (R.shards j).ready.count x
  hint : ¬ F.Claimable R → (∃ k ∈ F.ownedShards, (R.shards k).wake.entries ≠ []) →
    ∃ (m : Int) (n : Nat), IsLeast (F.wakeScores R) m ∧ o = .emptyHint n ∧ f64 n = f64 m ∧
      (m < 2 ^ 53 → n = m)
  empty : ¬ F.Claimable R → (o = .empty ↔ ∀ k ∈ F.ownedShards, (R.shards k).wake.entries = [])

section Cases

variable {F : RedisClient} {W : Wire} {now : Int} {ks : List ShardKey} {R : Redis β}

/-- A drained shard kept the entries of hosts with queued URLs: it had none. -/
theorem count_drain (hall : ∀ j ∈ ks, (R.shards j).AllStale) {j : ShardKey} {x : Host}
    (hx : (R.shards j).hostQueue x ≠ []) :
    ((drain ks R).shards j).ready.count x = (R.shards j).ready.count x := by
  by_cases hj : j ∈ ks
  · have hnone : x ∉ (R.shards j).ready := fun hm => hx (hall j hj x hm)
    rw [List.count_eq_zero.2 hnone]
    simp [drain, hj]
  · simp [drain, hj]

/-- The claimed host: the entries before it were stale. -/
theorem took {pre : List ShardKey} {k : ShardKey} {stale rest : List Host} {h : Host} {u : UrlId}
    {q : List UrlId} {bs : Bytes} {e : UrlEntry} (expiry : Int)
    (hpre : ∀ j ∈ pre, (R.shards j).AllStale) (hr : (R.shards k).ready = stale ++ h :: rest)
    (hst : ∀ x ∈ stale, (R.shards k).hostQueue x = []) (hq : (R.shards k).hostQueue h = u :: q)
    (hu : (R.shards k).urls u = some bs) (he : W.decode bs = some e) :
    Took W R (setShard (drain pre R) k ((R.shards k).take u h rest q expiry)) k h u e := by
  have hfresh : ∀ x, (R.shards k).hostQueue x ≠ [] → stale.count x = 0 := fun x hx =>
    List.count_eq_zero.2 fun hm => hx (hst x hm)
  refine ⟨by simp [hr], ?_, ⟨bs, hu, he⟩, ?_, ?_⟩
  · simp [setShard, Shard.take, hq]
  · have hz := hfresh h (by simp [hq])
    simp [setShard, Shard.take, hr, List.count_append, hz]
  · intro j x hx hne
    by_cases hj : j = k
    · subst hj
      have hxh : h ≠ x := fun he => hne (by rw [he])
      simp [setShard, Shard.take, hr, List.count_append, hfresh x hx, List.count_cons_of_ne hxh]
    · rw [← count_drain hpre hx]
      simp [setShard, hj]

theorem hint?_of_first? {s : Shard β} (hgood : ¬ s.BadHint W) {h : Host} {t : Int}
    (hf : s.wake.first? = some (h, t)) :
    ∃ n, s.hint? W = some n ∧ parseUnsigned 64 (W.scoreText t).toList = some n := by
  have hhint : s.hint? W = parseUnsigned 64 (W.scoreText t).toList := by simp [Shard.hint?, hf]
  cases hn : parseUnsigned 64 (W.scoreText t).toList with
  | none => exact absurd ⟨by simp [hf], hhint.trans hn⟩ hgood
  | some n => exact ⟨n, hhint.trans hn, rfl⟩

theorem mem_hints {n : Nat} :
    n ∈ hints W ks R ↔ ∃ k ∈ ks, (R.shards k).hint? W = some n := by
  simp [hints]

/-- The least wake score is the first of some owned shard. -/
theorem exists_isLeast (hks : ∀ k, k ∈ ks ↔ k ∈ F.ownedShards)
    (hex : ∃ k ∈ F.ownedShards, (R.shards k).wake.entries ≠ []) :
    ∃ k ∈ ks, ∃ h m, (R.shards k).wake.first? = some (h, m) ∧ IsLeast (F.wakeScores R) m := by
  have hmem : ∀ t, t ∈ ks.filterMap (fun k => (R.shards k).wake.first?.map Prod.snd) ↔
      ∃ k ∈ ks, ∃ h, (R.shards k).wake.first? = some (h, t) := by
    intro t
    simp
  have hne : ks.filterMap (fun k => (R.shards k).wake.first?.map Prod.snd) ≠ [] := by
    obtain ⟨k, hk, hw⟩ := hex
    obtain ⟨p, es, hes⟩ := List.exists_cons_of_ne_nil hw
    refine List.ne_nil_of_mem ((hmem p.2).2 ⟨k, (hks k).2 hk, p.1, ?_⟩)
    simp [ZSet.first?, hes]
  obtain ⟨m, hm⟩ := Option.isSome_iff_exists.1 (List.isSome_min?_of_ne_nil hne)
  obtain ⟨hin, hle⟩ := List.min?_eq_some_iff.1 hm
  obtain ⟨k, hk, h, hf⟩ := (hmem m).1 hin
  refine ⟨k, hk, h, m, hf, ⟨k, (hks k).1 hk, h, ZSet.score?_of_first? hf⟩, ?_⟩
  rintro t ⟨j, hj, x, hx⟩
  have hjm : ∃ p es, (R.shards j).wake.entries = p :: es :=
    List.exists_cons_of_ne_nil (List.ne_nil_of_mem (ZSet.score?_eq_some.1 hx))
  obtain ⟨p, es, hes⟩ := hjm
  have hfj : (R.shards j).wake.first? = some (p.1, p.2) := by simp [ZSet.first?, hes]
  exact Int.le_trans (hle p.2 ((hmem p.2).2 ⟨j, (hks j).2 hj, p.1, hfj⟩)) (ZSet.first?_le hfj hx)

/-- The least hint is the least wake score, as a double. -/
theorem hint_isLeast (hread : W.ScoresRead) (hks : ∀ k, k ∈ ks ↔ k ∈ F.ownedShards)
    (hgood : ∀ k ∈ ks, ¬ (R.shards k).BadHint W)
    (hex : ∃ k ∈ F.ownedShards, (R.shards k).wake.entries ≠ []) :
    ∃ (m : Int) (n : Nat), IsLeast (F.wakeScores R) m ∧ (hints W ks R).min? = some n ∧
      f64 n = f64 m := by
  obtain ⟨k, hk, h, m, hf, hleast⟩ := exists_isLeast hks hex
  obtain ⟨n₁, hn₁, hp₁⟩ := hint?_of_first? (hgood k hk) hf
  have hmem₁ : n₁ ∈ hints W ks R := mem_hints.2 ⟨k, hk, hn₁⟩
  obtain ⟨n, hn⟩ := Option.isSome_iff_exists.1 (List.isSome_min?_of_mem hmem₁)
  obtain ⟨hin, hmin⟩ := List.min?_eq_some_iff.1 hn
  refine ⟨m, n, hleast, hn, le_antisymm ?_ ?_⟩
  · calc f64 n ≤ f64 n₁ := f64_mono (Int.ofNat_le.2 (hmin n₁ hmem₁))
      _ = f64 m := hread m n₁ hp₁
  · obtain ⟨j, hj, hnj⟩ := mem_hints.1 hin
    obtain ⟨⟨x, t⟩, hfj, ht⟩ := Option.bind_eq_some_iff.1 hnj
    calc f64 m ≤ f64 t := f64_mono (hleast.2 ⟨j, (hks j).1 hj, x, ZSet.score?_of_first? hfj⟩)
      _ = f64 n := (hread t n ht).symm

theorem hints_eq_nil (hks : ∀ k, k ∈ ks ↔ k ∈ F.ownedShards)
    (hgood : ∀ k ∈ ks, ¬ (R.shards k).BadHint W) :
    hints W ks R = [] ↔ ∀ k ∈ F.ownedShards, (R.shards k).wake.entries = [] := by
  have hone : ∀ k ∈ ks, (R.shards k).hint? W = none ↔ (R.shards k).wake.entries = [] := by
    intro k hk
    constructor
    · intro hnone
      have hf : (R.shards k).wake.first? = none := by
        by_contra hne
        exact hgood k hk ⟨hne, hnone⟩
      exact List.head?_eq_none_iff.1 hf
    · intro hnil
      simp [Shard.hint?, ZSet.first?, hnil]
  simp only [hints, List.filterMap_eq_nil_iff]
  constructor
  · intro hall k hk
    exact (hone k ((hks k).2 hk)).1 (hall k ((hks k).2 hk))
  · intro hall k hk
    exact (hone k hk).2 (hall k ((hks k).1 hk))

/-- Of a sweep over the owned shards. -/
theorem complete_of_cases {res : Except HostQueueError ClaimOutcome × Redis β} (hread : W.ScoresRead)
    (hwake : ∀ t ∈ F.wakeScores R, 0 ≤ t) (hks : ∀ k, k ∈ ks ↔ k ∈ F.ownedShards)
    (hc : SweepCases F W now ks R none res) (hok : res.1 ≠ .error .parse) :
    ∃ o, res.1 = .ok o ∧ Complete F W R res.2 o := by
  cases hc with
  | @claimed pre post k stale rest h u q bs e hsplit hpre _ hr hst hq hu he =>
    have hk : k ∈ F.ownedShards := (hks k).1 (by simp [hsplit])
    have hcl : F.Claimable R := ⟨k, hk, h, by simp [hr], by simp [hq]⟩
    refine ⟨_, rfl, ⟨fun _ => hcl, fun _ => ⟨u, e, _, rfl⟩⟩, ?_, fun hn => absurd hcl hn,
      fun hn => absurd hcl hn, fun hn => absurd hcl hn⟩
    intro u' e' a ho
    cases ho
    exact ⟨k, hk, h, rfl, took _ hpre hr hst hq hu he⟩
  | failed => exact absurd rfl hok
  | nothing hall hgood =>
    have hno : ¬ F.Claimable R := by
      rintro ⟨k, hk, h, hh, hq⟩
      exact hq (hall k ((hks k).2 hk) h hh)
    have hnot : ∀ u e a, outcomeOf ((none : Option Nat).toList ++ hints W ks R).min? ≠
        .claimed u e a := by
      intro u e a
      cases ((none : Option Nat).toList ++ hints W ks R).min? <;> simp [outcomeOf]
    refine ⟨_, rfl, ⟨?_, fun h => absurd h hno⟩, fun u e a ho => absurd ho (hnot u e a),
      fun _ j x hx => count_drain hall hx, fun _ hex => ?_, fun _ => ?_⟩
    · rintro ⟨u, e, a, ho⟩
      exact absurd ho (hnot u e a)
    · obtain ⟨m, n, hleast, hmin, heq⟩ := hint_isLeast hread hks hgood hex
      refine ⟨m, n, hleast, ?_, heq, eq_of_f64_eq heq (hwake m hleast.1)⟩
      simp [outcomeOf, hmin]
    · rw [← hints_eq_nil hks hgood, ← List.min?_eq_none_iff]
      simp only [Option.toList_none, List.nil_append]
      cases (hints W ks R).min? <;> simp [outcomeOf]

end Cases

/-- The owned shards in the order the cursor gives. -/
def sweepOrder (F : RedisClient) (C : Connected β) : List ShardKey :=
  F.ownedShards.rotate (C.claimCursor.toNat % F.ownedShards.length)

theorem mem_sweepOrder {F : RedisClient} {C : Connected β} {k : ShardKey} :
    k ∈ F.sweepOrder C ↔ k ∈ F.ownedShards := List.mem_rotate

/-- A claim is a sweep over the owned shards. -/
theorem claim_sweeps (F : RedisClient) (W : Wire) (now : Int) (C : Connected β)
    (hp : ∀ k ∈ F.ownedShards, (C.redis.shards k).HasPayloads W) :
    SweepCases F W now (F.sweepOrder C) C.redis none
      ((F.claim W now C).1, (F.claim W now C).2.redis) := by
  have hcases := sweep_cases F W now (F.sweepOrder C) C.redis none
    fun k hk => hp k (mem_sweepOrder.1 hk)
  unfold claim
  by_cases hnil : F.ownedShards = []
  · simpa [sweepOrder, hnil, sweep] using hcases
  · simp only [if_neg hnil]
    exact hcases

/-- The hint of every shard that a claim asks in vain reads. -/
def HintsRead (F : RedisClient) (W : Wire) (C : Connected β) : Prop :=
  ∀ k ∈ askedInVain (F.sweepOrder C) C.redis, ¬ (C.redis.shards k).BadHint W

/-- **Claim completeness.** Over owned shards whose queued ids have payloads and whose wake scores
are not negative, whatever is stale or repeated in their ready lists and wherever the cursor stands,
a claim returns the head of the queue of a ready host if there is one, and takes no ready entry of
another host with queued URLs; otherwise the least wake score as a hint, or nothing iff no owned
shard has one. It does exactly if the hints of the shards it asks in vain read, as those below 2^52
do. -/
theorem claim_complete (F : RedisClient) (W : Wire) (now : Int) (C : Connected β)
    (hread : W.ScoresRead) (hp : ∀ k ∈ F.ownedShards, (C.redis.shards k).HasPayloads W)
    (hwake : ∀ t ∈ F.wakeScores C.redis, 0 ≤ t) :
    ((∃ o, (F.claim W now C).1 = .ok o ∧ Complete F W C.redis (F.claim W now C).2.redis o) ↔
      F.HintsRead W C) ∧
    ((∀ t ∈ F.wakeScores C.redis, t < 2 ^ 52) → F.HintsRead W C) := by
  have hcases := claim_sweeps F W now C hp
  refine ⟨?_, ?_⟩
  · rw [HintsRead, ← hcases.ok_iff]
    constructor
    · rintro ⟨o, ho, -⟩ hbad
      rw [ho] at hbad
      cases hbad
    · exact complete_of_cases hread hwake (fun k => mem_sweepOrder) hcases
  · rintro hplain k hk ⟨hsome, hnone⟩
    obtain ⟨⟨h, t⟩, hf⟩ := Option.ne_none_iff_exists'.1 hsome
    have hown : k ∈ F.ownedShards := mem_sweepOrder.1 (List.takeWhile_subset _ hk)
    have ht : t ∈ F.wakeScores C.redis := ⟨k, hown, h, ZSet.score?_of_first? hf⟩
    have hms : PlainMs t := ⟨hwake t ht, hplain t ht⟩
    simp [Shard.hint?, hf, hms.reads W] at hnone

/-- Shard 1, where the cursor starts, has only stale entries; shard 0 has one before a live host. -/
def sampleStale : Connected (List UrlId) where
  redis :=
    { Redis.fresh with
      shards := fun k =>
        if k = 0 then { Shard.fresh [] with
          urls := fun u => if u = Wire.idA then some Wire.bytesA else none
          hostQueue := fun h => if h = "a.test" then [Wire.idA] else []
          ready := ["b.test", "a.test"] }
        else { Shard.fresh [] with
          ready := ["b.test", "b.test"]
          wake := ZSet.empty.zadd "b.test" 7 } }
  claimCursor := 1

def sampleTwo : RedisClient where
  policy := ⟨2, HostHashShardPolicy.two_shards⟩
  ownedShards := [0, 1]
  crawlScope := .flat 10
  leaseTimeout := 5
  tickBatchLimit := 10

theorem scoresRead_sample : Wire.sample.ScoresRead := by
  intro t n h
  cases t with
  | ofNat k =>
    have htext : (Wire.sample.scoreText (Int.ofNat k)).toList = Nat.toDigits 10 k := Nat.toList_repr
    rw [htext, parseUnsigned_digits] at h
    split at h
    · cases h
      rfl
    · cases h
  | negSucc k =>
    have htext : (Wire.sample.scoreText (Int.negSucc k)).toList = '-' :: Nat.toDigits 10 (k + 1) := by
      simp [Wire.sample, Int.repr, Nat.toList_repr]
    rw [htext] at h
    simp [parseUnsigned, show Char.isDigit '-' = false by decide] at h

theorem claim_complete_stale :
    (sampleTwo.claim .sample 0 sampleStale).1 =
        .ok (.claimed Wire.idA UrlEntry.seedA (encodeAttempt 0 Wire.idA "a.test")) ∧
      ∃ o, (sampleTwo.claim .sample 0 sampleStale).1 = .ok o ∧
        Complete sampleTwo .sample sampleStale.redis
          (sampleTwo.claim .sample 0 sampleStale).2.redis o := by
  have hplain : ∀ t ∈ sampleTwo.wakeScores sampleStale.redis, 0 ≤ t ∧ t < 2 ^ 52 := by
    rintro t ⟨k, _, h, ht⟩
    by_cases hk : k = 0
    · simp [sampleStale, hk, Shard.fresh] at ht
    · simp only [sampleStale, if_neg hk, ZSet.score?_zadd, ZSet.score?_empty] at ht
      split at ht
      · cases ht
        decide
      · cases ht
  have hcl := claim_complete sampleTwo .sample 0 sampleStale scoresRead_sample ?_ fun t ht =>
    (hplain t ht).1
  · exact ⟨by decide +kernel, hcl.1.2 (hcl.2 fun t ht => (hplain t ht).2)⟩
  · intro k _ h u hu
    by_cases hk : k = 0
    · subst hk
      by_cases hh : h = "a.test"
      · have hid : u = Wire.idA := by simpa [sampleStale, hh] using hu
        exact ⟨Wire.bytesA, UrlEntry.seedA, by simp [sampleStale, hid], by decide +kernel⟩
      · simp [sampleStale, hh] at hu
    · simp [sampleStale, hk, Shard.fresh] at hu

/-! ### A score with an exponent -/

/-- Every claim over such shards is complete. -/
def ClaimComplete (F : RedisClient) (W : Wire) : Prop :=
  ∀ (now : Int) (C : Connected (List UrlId)),
    (∀ k ∈ F.ownedShards, (C.redis.shards k).HasPayloads W) →
    (∀ t ∈ F.wakeScores C.redis, 0 ≤ t) →
    ∃ o, (F.claim W now C).1 = .ok o ∧ Complete F W C.redis (F.claim W now C).2.redis o

/-- The server's `%.17g` at 10^17. -/
def printed : Wire :=
  { Wire.sample with
    scoreText := fun t => if t = 10 ^ 17 then "1e+17" else toString t
    scoreText_plain := fun n hn => if_neg (by omega) }

theorem scoresRead_printed : printed.ScoresRead := by
  intro t n h
  by_cases ht : t = 10 ^ 17
  · have htext : printed.scoreText t = "1e+17" := if_pos ht
    have hunread : parseUnsigned 64 "1e+17".toList = none := by decide
    rw [htext, hunread] at h
    cases h
  · have htext : printed.scoreText t = Wire.sample.scoreText t := if_neg ht
    rw [htext] at h
    exact scoresRead_sample t n h

/-- Shard 1, where the cursor starts, waits for `b.test` until 10^17; shard 0 has a live host. -/
def sampleFar : Connected (List UrlId) :=
  { sampleStale with
    redis := { Redis.fresh with
      shards := fun k =>
        if k = 0 then sampleStale.redis.shards 0
        else { Shard.fresh [] with wake := ZSet.empty.zadd "b.test" (10 ^ 17) } } }

/-- The URL of `a.test` is not claimed: the text `1e+17` of shard 1 is no `u64`. -/
theorem not_claimComplete : printed.ScoresRead ∧ ¬ ClaimComplete sampleTwo printed := by
  refine ⟨scoresRead_printed, fun hall => ?_⟩
  have hp : ∀ k ∈ sampleTwo.ownedShards, (sampleFar.redis.shards k).HasPayloads printed := by
    intro k _ h u hu
    by_cases hk : k = 0
    · subst hk
      by_cases hh : h = "a.test"
      · have hid : u = Wire.idA := by simpa [sampleFar, sampleStale, hh] using hu
        exact ⟨Wire.bytesA, UrlEntry.seedA, by simp [sampleFar, sampleStale, hid], by decide +kernel⟩
      · simp [sampleFar, sampleStale, hh] at hu
    · simp [sampleFar, hk, Shard.fresh] at hu
  have hwake : ∀ t ∈ sampleTwo.wakeScores sampleFar.redis, 0 ≤ t := by
    rintro t ⟨k, _, h, ht⟩
    by_cases hk : k = 0
    · simp [sampleFar, sampleStale, hk, Shard.fresh] at ht
    · simp only [sampleFar, if_neg hk, ZSet.score?_zadd, ZSet.score?_empty] at ht
      split at ht
      · cases ht
        decide
      · cases ht
  obtain ⟨o, ho, -⟩ := hall 0 sampleFar hp hwake
  have hbad : (sampleTwo.claim printed 0 sampleFar).1 = .error .parse := by decide +kernel
  rw [hbad] at ho
  cases ho

end RedisClient

end Crawlrs

import Crawlrs.L2Redis.Batch
import Crawlrs.L3Frontier.Conservation
import Crawlrs.L4Runtime.Frontier
import Mathlib.Data.UInt

/-!
# The per-host quota (`submit_batch.lua`, `[crawl].max_urls`)

Any number of processes with one crawl scope submit batches to a shard, between
claims, acks and the scheduler's scripts. `host_count` is checked and incremented
inside one script, so it is the number of URLs the host has got in this run, and
that number never passes the cap.

The check compares doubles. A host is full when its count rounds to the double of
the cap, `leastDouble c`: the cap itself up to 2^53, and less than the cap where
the cap shares its double with smaller numbers.

* `step_submitBatch_append`: a batch is its entries one after the other.
* `quota_respected`: the counter, the bound and the only reason for a rejection.
* `not_quotaExact`: a cap of 2^53 + 1 is never reached.
-/
namespace Crawlrs

variable {β : Type}

/-! ## Runs under one scope -/

/-- URLs come in batches, each entry with the cap the scope gives its host. -/
def Scoped (S : CrawlScope) : Op → Prop
  | .submit .. => False
  | .submitBatch its _ =>
    ∃ F : RedisFrontier, F.crawlScope = S ∧ ∀ p ∈ its, p.2 = F.maxUrls p.1.host
  | _ => True

/-- Every run of one shard under the scope. -/
def scopedSystem (E : Env β) (S : CrawlScope) : LTS (Sys β) Op :=
  (system E).restrict fun _ op => Scoped S op

/-- How many URLs of the host this run has accepted. -/
def Sys.acceptedOf (s : Sys β) (h : Host) : Nat := s.accepted.countP (·.2 = h)

theorem RedisFrontier.maxUrls_some {F : RedisFrontier} {h : Host} {c : UInt64}
    (hc : F.crawlScope.maxUrlsFor h = some c) (hlt : c.toNat < 2 ^ 63) :
    F.maxUrls h = c.toNat := by
  simp only [maxUrls, hc, if_pos hlt]

theorem Scoped.cap {S : CrawlScope} {its : List (Item × Int)} {now : Int} {h : Host} {c : UInt64}
    (hs : Scoped S (.submitBatch its now)) (hc : S.maxUrlsFor h = some c) (hlt : c.toNat < 2 ^ 63)
    {p : Item × Int} (hp : p ∈ its) (hh : p.1.host = h) : p.2 = c.toNat := by
  obtain ⟨F, rfl, hF⟩ := hs
  rw [hF p hp, hh, RedisFrontier.maxUrls_some hc hlt]

theorem Scoped.of_subset {S : CrawlScope} {its its' : List (Item × Int)} {now : Int}
    (hs : Scoped S (.submitBatch its now)) (hsub : its' ⊆ its) :
    Scoped S (.submitBatch its' now) := by
  obtain ⟨F, hF, hall⟩ := hs
  exact ⟨F, hF, fun p hp => hall p (hsub hp)⟩

/-! ## A batch is its entries -/

namespace Sys

variable {E : Env β} {s s' : Sys β}

theorem step_submitBatch_append (E : Env β) (s : Sys β) (xs ys : List (Item × Int)) (now : Int) :
    s.step E (.submitBatch (xs ++ ys) now) =
      (s.step E (.submitBatch xs now)).bind fun s' => s'.step E (.submitBatch ys now) := by
  simp only [step, List.map_append, Shard.submitBatch_state, Loop.after_append,
    Shard.batchEffs_append, List.filterMap_append, Option.bind_some, List.append_assoc]

/-- One entry: rejected, dropped, or accepted. -/
theorem step_submitBatch_one (E : Env β) (s : Sys β) (p : Item × Int) (now : Int) :
    s.step E (.submitBatch [p] now) =
      if 0 ≤ f64 p.2 ∧ f64 p.2 ≤ f64 (s.shard.hostCount p.1.host) then some s
      else if E.bloom.has s.shard.seen (E.idOf p.1) then some s
      else some { s with
        shard := s.shard.accept E.bloom (E.idOf p.1) p.1.host (E.payloadOf p.1) now
          (decide (0 ≤ f64 p.2))
        accepted := s.accepted ++ [(E.idOf p.1, p.1.host)] } := by
  simp only [step, List.map_cons, List.map_nil, Shard.submitBatch_state, Loop.after_cons,
    Loop.after_nil, Shard.batchEffs, Shard.submitItem_eq, Env.submitItem]
  split
  · simp
  · split
    · simp
    · simp [Eff.accepted?]

/-- What the entries of a batch keep one by one, the batch keeps. -/
theorem submitBatch_preserves {Q : Sys β → Prop} {now : Int} {its : List (Item × Int)}
    (hone : ∀ s s' p, p ∈ its → Q s → s.step E (.submitBatch [p] now) = some s' → Q s')
    (hs : Q s) (hst : s.step E (.submitBatch its now) = some s') : Q s' := by
  induction its generalizing s with
  | nil =>
    simp only [step, List.map_nil, Shard.submitBatch, Shard.batchEffs, List.filterMap_nil,
      List.append_nil, Option.some.injEq] at hst
    subst hst
    exact hs
  | cons p its ih =>
    rw [← List.singleton_append, step_submitBatch_append, Option.bind_eq_some_iff] at hst
    obtain ⟨s1, h1, h2⟩ := hst
    have hq := hone s s1 p List.mem_cons_self hs h1
    exact ih (fun s s' q hm => hone s s' q (List.mem_cons_of_mem _ hm)) hq h2

/-- Nothing but a submit counts or accepts. -/
theorem step_counts {op : Op} (hst : s.step E op = some s') (h1 : ∀ it now, op ≠ .submit it now)
    (h2 : ∀ its now, op ≠ .submitBatch its now) :
    s'.shard.hostCount = s.shard.hostCount ∧ s'.accepted = s.accepted := by
  obtain ⟨effs, hsteps, hall, hacc⟩ := step_effs hst
  have hno : ∀ e ∈ effs, e.accepted? = none := by
    intro e he
    have h := hall e he
    cases op with
    | submit it now => exact absurd rfl (h1 it now)
    | submitBatch its now => exact absurd rfl (h2 its now)
    | claim now leaseMs => rcases h with ⟨x, rfl⟩ | ⟨u, x, p, -, rfl⟩ <;> rfl
    | promote now limit => obtain ⟨x, -, rfl⟩ := h; rfl
    | reclaim now limit => obtain ⟨x, -, rfl⟩ := h; rfl
    | advanceWake x t => rw [show e = .advance x t from h]; rfl
    | ackZrem d => obtain ⟨l, -, rfl⟩ := h; rfl
    | ackHdel d => obtain ⟨l, -, -, rfl⟩ := h; rfl
  have hkeep : ∀ (t : Shard β) (e : Eff) (t' : Shard β), t.hostCount = s.shard.hostCount →
      e.accepted? = none → Eff.Step E.bloom t e t' → t'.hostCount = s.shard.hostCount := by
    intro t e t' ht he hstep
    cases hstep with
    | accept => simp [Eff.accepted?] at he
    | _ => exact ht
  refine ⟨hsteps.preserves (P := fun t => t.hostCount = s.shard.hostCount)
    (Q := fun e => e.accepted? = none) hkeep hno rfl, ?_⟩
  rw [hacc, List.filterMap_eq_nil_iff.2 hno, List.append_nil]

end Sys

/-! ## The counter -/

/-- The counter of a capped host counts its accepted URLs and stays within the cap. -/
structure Counted (h : Host) (c : Nat) (s : Sys β) : Prop where
  count : s.shard.hostCount h = s.acceptedOf h
  le : s.acceptedOf h ≤ leastDouble c

namespace Counted

variable {E : Env β} {S : CrawlScope} {h : Host} {c : Nat} {s s' : Sys β}

/-- An entry is rejected only where the host is full. -/
theorem rejected (hi : Counted h c s) {now : Int} {p : Item × Int} (hp : p.1.host = h)
    (hcap : p.2 = c)
    (hr : (Shard.submitItem E.bloom now s.shard (E.submitItem p)).2 = .rejected) :
    s.acceptedOf h = leastDouble c := by
  have hle := hi.le
  have hfull : f64 c ≤ f64 (s.acceptedOf h) := by
    rw [Shard.submitItem_eq] at hr
    split at hr
    · rename_i hfull
      simp only [Env.submitItem, hp, hcap, hi.count] at hfull
      exact hfull.2
    · split at hr
      · cases hr
      · cases hr
  have hnot : ¬ s.acceptedOf h < leastDouble c := by
    rw [lt_leastDouble]
    omega
  omega

theorem one (hi : Counted h c s) {now : Int} {p : Item × Int} (hcap : p.1.host = h → p.2 = c)
    (hst : s.step E (.submitBatch [p] now) = some s') : Counted h c s' := by
  rw [Sys.step_submitBatch_one] at hst
  split at hst
  · cases hst
    exact hi
  · rename_i hroom
    split at hst
    · cases hst
      exact hi
    · cases hst
      by_cases hp : p.1.host = h
      · subst hp
        -- counted, and below the cap before
        have h0 : (0 : Int) ≤ f64 c := f64_nonneg (Int.natCast_nonneg c)
        rw [hcap rfl] at hroom
        have hlt : s.acceptedOf p.1.host < leastDouble c := by
          rw [lt_leastDouble, ← hi.count]
          exact Int.not_le.1 fun hle => hroom ⟨h0, hle⟩
        have hacc : (s.accepted ++ [(E.idOf p.1, p.1.host)]).countP (·.2 = p.1.host) =
            s.acceptedOf p.1.host + 1 := by
          simp [Sys.acceptedOf]
        refine ⟨Eq.trans ?_ hacc.symm, ?_⟩
        · simp [Shard.accept, hcap, h0, hi.count]
        · simp only [Sys.acceptedOf, hacc]
          exact hlt
      · have hacc : (s.accepted ++ [(E.idOf p.1, p.1.host)]).countP (·.2 = h) =
            s.acceptedOf h := by
          simp [Sys.acceptedOf, hp]
        have hcount : (s.shard.accept E.bloom (E.idOf p.1) p.1.host (E.payloadOf p.1) now
            (decide (0 ≤ f64 p.2))).hostCount h = s.shard.hostCount h := by
          have hne : h ≠ p.1.host := fun he => hp he.symm
          simp only [Shard.accept]
          split
          · simp [hne]
          · rfl
        refine ⟨Eq.trans ?_ hacc.symm, ?_⟩
        · exact hcount.trans hi.count
        · simp only [Sys.acceptedOf, hacc]
          exact hi.le

theorem step {cap : UInt64} (hc : S.maxUrlsFor h = some cap) (hlt : cap.toNat < 2 ^ 63) {op : Op}
    (hok : Scoped S op) (hi : Counted h cap.toNat s) (hst : s.step E op = some s') :
    Counted h cap.toNat s' := by
  by_cases hb : ∃ its now, op = .submitBatch its now
  · obtain ⟨its, now, rfl⟩ := hb
    exact Sys.submitBatch_preserves
      (fun s s' p hp hq h1 => hq.one (hok.cap hc hlt hp) h1) hi hst
  · have h1 : ∀ it now, op ≠ .submit it now := by
      intro it now hop
      subst hop
      exact hok
    obtain ⟨hcount, hacc⟩ := Sys.step_counts hst h1 fun its now hop => hb ⟨its, now, hop⟩
    refine ⟨?_, ?_⟩
    · rw [hcount, Sys.acceptedOf, hacc]
      exact hi.count
    · rw [Sys.acceptedOf, hacc]
      exact hi.le

end Counted

theorem counted_inductive (E : Env β) {S : CrawlScope} {h : Host} {c : UInt64}
    (hc : S.maxUrlsFor h = some c) (hlt : c.toNat < 2 ^ 63) :
    (scopedSystem E S).Inductive (Counted h c.toNat) where
  init s hs := by
    obtain ⟨seen, rfl⟩ := hs
    exact ⟨rfl, Nat.zero_le _⟩
  step s op s' hi hst := hi.step hc hlt hst.1 hst.2

/-- **The quota.** The counter of a capped host is the number of its URLs accepted so far, which
the cap bounds. An entry is rejected only at `leastDouble c` accepted URLs, the count that is the
cap as a double; a cap up to 2^53 is that count itself. `pre` is what the loop of the script has
done when it reaches the entry. -/
theorem quota_respected (E : Env β) (S : CrawlScope) (h : Host) (c : UInt64)
    (hc : S.maxUrlsFor h = some c) (hlt : c.toNat < 2 ^ 63) (s : Sys β)
    (hs : (scopedSystem E S).Reachable s) :
    s.shard.hostCount h = s.acceptedOf h ∧ (s.accepted.map Prod.fst).Nodup ∧
      s.acceptedOf h ≤ c.toNat ∧
      ∀ (its : List (Item × Int)) (now : Int), Scoped S (.submitBatch its now) →
        ∀ (pre : List (Item × Int)) (p : Item × Int) (post : List (Item × Int)),
          its = pre ++ p :: post → p.1.host = h →
          ∀ s', s.step E (.submitBatch pre now) = some s' →
            (Shard.submitItem E.bloom now s'.shard (E.submitItem p)).2 = .rejected →
            s'.acceptedOf h = leastDouble c.toNat ∧ f64 (s'.acceptedOf h) = f64 c.toNat ∧
              (c.toNat ≤ 2 ^ 53 → s'.acceptedOf h = c.toNat) := by
  have hi := (counted_inductive E hc hlt).reachable s hs
  refine ⟨hi.count, (conserved_reachable hs.of_restrict).ids,
    Nat.le_trans hi.le (leastDouble_le _), ?_⟩
  intro its now hok pre p post hits hp s' hst hr
  have hpre : Scoped S (.submitBatch pre now) := hok.of_subset (by simp [hits])
  have hi' := hi.step hc hlt hpre hst
  have hfull := hi'.rejected hp (hok.cap hc hlt (by simp [hits]) hp) hr
  refine ⟨hfull, ?_, fun hle => hfull.trans (leastDouble_exact hle)⟩
  have hle : f64 (leastDouble c.toNat) ≤ f64 c.toNat :=
    f64_mono (Int.ofNat_le.2 (leastDouble_le _))
  have hge : ¬ f64 (leastDouble c.toNat) < f64 c.toNat := by
    rw [← lt_leastDouble]
    exact Nat.lt_irrefl _
  rw [hfull]
  omega

/-- One URL of two is accepted under a cap of 1, and the other is rejected at the cap. -/
theorem quota_respected_full :
    (Sys.after .sample [] [.submitBatch [(.a, 1)] 0]).acceptedOf "a.test" = 1 ∧
      (Shard.submitItem Env.sample.bloom 0 (Sys.after .sample [] [.submitBatch [(.a, 1)] 0]).shard
        (Env.sample.submitItem (.a', 1))).2 = .rejected := by
  have hok : Scoped (.flat 1) (.submitBatch [(Item.a, 1), (Item.a', 1)] 0) :=
    ⟨.flat 1, rfl, by decide⟩
  have hr : (Shard.submitItem Env.sample.bloom 0
      (Sys.after .sample [] [.submitBatch [(.a, 1)] 0]).shard
      (Env.sample.submitItem (.a', 1))).2 = .rejected := by decide +kernel
  have hq := quota_respected .sample (.flat 1) "a.test" 1 rfl (by decide) (.init [])
    (.init ⟨[], rfl⟩)
  exact ⟨(hq.2.2.2 _ 0 hok [(.a, 1)] (.a', 1) [] rfl rfl _ rfl hr).2.2 (by decide), hr⟩

/-! ## A cap that is never reached -/

/-- The low `k` bytes of a number. -/
def lowBytes : Nat → Nat → Bytes
  | 0, _ => []
  | k + 1, n => UInt8.ofNat n :: lowBytes k (n / 256)

theorem length_lowBytes (k n : Nat) : (lowBytes k n).length = k := by
  induction k generalizing n with
  | zero => rfl
  | succ k ih => simp [lowBytes, ih]

theorem lowBytes_inj {k n m : Nat} (h : lowBytes k n = lowBytes k m) :
    n % 256 ^ k = m % 256 ^ k := by
  induction k generalizing n m with
  | zero => simp [Nat.mod_one]
  | succ k ih =>
    simp only [lowBytes, List.cons.injEq] at h
    have hlow : n % 256 = m % 256 := by
      have := congrArg UInt8.toNat h.1
      simpa using this
    rw [Nat.pow_succ', Nat.mod_mul, Nat.mod_mul, hlow, ih h.2]

/-- The id that counts. -/
def UrlId.ofNat (n : Nat) : UrlId := ⟨lowBytes 16 n, length_lowBytes 16 n⟩

theorem UrlId.ofNat_inj {n m : Nat} (hn : n < 2 ^ 64) (hm : m < 2 ^ 64)
    (h : UrlId.ofNat n = UrlId.ofNat m) : n = m := by
  have := lowBytes_inj (congrArg UrlId.bytes h)
  omega

/-- Some hash that tells the pages of `a.test` apart, which are numbered. -/
def Env.numbered : Env (List UrlId) where
  wire := { Wire.sample with
    blake3 := fun s => UrlId.ofNat (Nat.ofDigitChars 10 (s.toList.drop 15) 0) }
  bloom := .exact
  shard := 0

/-- `https://a.test/<n>` -/
def Item.numbered (n : Nat) : Item :=
  ⟨.seed ⟨⟨"https://a.test/" ++ toString n, "https", some "a.test"⟩⟩, "a.test", rfl⟩

theorem idOf_numbered (n : Nat) : Env.numbered.idOf (.numbered n) = UrlId.ofNat n := by
  have hdrop : ("https://a.test/" ++ toString n).toList.drop 15 = Nat.toDigits 10 n := by
    simp [Nat.toList_repr]
  show UrlId.ofNat (Nat.ofDigitChars 10 (("https://a.test/" ++ toString n).toList.drop 15) 0) = _
  rw [hdrop]
  simp

/-- The cap that shares its double with 2^53. -/
def oddCap : UInt64 := 2 ^ 53 + 1

theorem f64_oddCap : f64 oddCap.toNat = 2 ^ 53 := by decide +kernel

/-- The first pages of `a.test`, submitted one after the other. -/
theorem reachable_numbered (n : Nat) (hn : n ≤ 2 ^ 53) : ∃ s,
    (scopedSystem .numbered (.flat oddCap)).Reachable s ∧ s.acceptedOf "a.test" = n ∧
      ∀ m, n ≤ m → m < 2 ^ 64 → Env.numbered.bloom.has s.shard.seen (.ofNat m) = false := by
  induction n with
  | zero => exact ⟨.init [], .init ⟨[], rfl⟩, rfl, fun m _ _ => rfl⟩
  | succ n ih =>
    obtain ⟨s, hs, hacc, hnew⟩ := ih (by omega)
    have hcount := ((counted_inductive .numbered (S := .flat oddCap) (h := "a.test") rfl
      (by decide)).reachable s hs).count
    have hroom : ¬ f64 oddCap.toNat ≤ f64 (s.shard.hostCount "a.test") := by
      rw [hcount, hacc, f64_oddCap, f64_exact (by omega)]
      omega
    have hst : s.step .numbered (.submitBatch [(.numbered n, oddCap.toNat)] 0) = some { s with
        shard := s.shard.accept Env.numbered.bloom (.ofNat n) "a.test"
          (Env.numbered.payloadOf (.numbered n)) 0 (decide (0 ≤ f64 oddCap.toNat))
        accepted := s.accepted ++ [(.ofNat n, "a.test")] } := by
      rw [Sys.step_submitBatch_one, if_neg fun h => hroom h.2, idOf_numbered,
        hnew n (Nat.le_refl n) (by omega)]
      rfl
    have hok : Scoped (.flat oddCap) (.submitBatch [(.numbered n, oddCap.toNat)] 0) := by
      refine ⟨.flat oddCap, rfl, fun p hp => ?_⟩
      rw [List.mem_singleton.1 hp]
      rfl
    refine ⟨_, .step hs ⟨hok, hst⟩, ?_, fun m hm hm64 => ?_⟩
    · simp only [Sys.acceptedOf] at hacc ⊢
      simp [hacc]
    · have hold := hnew m (by omega) hm64
      have hne : UrlId.ofNat m ≠ UrlId.ofNat n := fun he => by
        have := UrlId.ofNat_inj hm64 (by omega) he
        omega
      simp only [Env.numbered, Sketch.exact, decide_eq_false_iff_not] at hold
      simp [Shard.accept, Env.numbered, Sketch.exact, hne, hold]

/-- With a cap of 2^53 + 1 the host is full one URL earlier. -/
theorem not_quotaExact : ∃ s, (scopedSystem .numbered (.flat oddCap)).Reachable s ∧
    (CrawlScope.flat oddCap).maxUrlsFor "a.test" = some oddCap ∧ oddCap.toNat = 2 ^ 53 + 1 ∧
    Scoped (.flat oddCap) (.submitBatch [(.numbered (2 ^ 53), oddCap.toNat)] 0) ∧
    Env.numbered.bloom.has s.shard.seen (Env.numbered.idOf (.numbered (2 ^ 53))) = false ∧
    (Shard.submitItem Env.numbered.bloom 0 s.shard
      (Env.numbered.submitItem (.numbered (2 ^ 53), oddCap.toNat))).2 = .rejected ∧
    s.acceptedOf "a.test" = 2 ^ 53 := by
  obtain ⟨s, hs, hacc, hnew⟩ := reachable_numbered (2 ^ 53) (Nat.le_refl _)
  have hcount := ((counted_inductive .numbered (S := .flat oddCap) (h := "a.test") rfl
    (by decide)).reachable s hs).count
  have hfull : 0 ≤ f64 oddCap.toNat ∧ f64 oddCap.toNat ≤ f64 (s.shard.hostCount "a.test") := by
    rw [hcount, hacc, f64_oddCap]
    exact ⟨by decide, by decide +kernel⟩
  refine ⟨s, hs, rfl, rfl, ⟨.flat oddCap, rfl, fun p hp => ?_⟩, ?_, ?_, hacc⟩
  · rw [List.mem_singleton.1 hp]
    rfl
  · rw [idOf_numbered]
    exact hnew _ (Nat.le_refl _) (by decide)
  · rw [Shard.submitItem_eq]
    exact congrArg Prod.snd (if_pos hfull)

end Crawlrs

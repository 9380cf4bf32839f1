import Crawlrs.L1Data.Types
import Mathlib.Data.List.Range
import Mathlib.Data.Nat.ModEq

/-!
# Routing and scope (`crawlrs-core/src/hash.rs`, `traits/sharding.rs`, `crawl_scope.rs`, `blocklist.rs`)

Which shard a URL belongs to, which shards a pod owns
(`crawlrs-bin/src/factory.rs`), and the operator's caps and blocklist.

* `shardKey_lt`: every shard key is below the shard count.
* `mem_strided`: with `R` replicas pod `k` owns the shards from `k` on congruent
  to `k` modulo `R`.
* `shards_partitioned`: the pods' shards are a partition, and a URL and its host
  resolve to the same one of them.
-/
namespace Crawlrs

/-! ## Hashing -/

/-- One byte of FNV-1a. `wrapping_mul` is the product of `UInt64`. -/
def fnv1aByte (hash : UInt64) (byte : UInt8) : UInt64 := (hash ^^^ byte.toUInt64) * 0x100000001b3

/-- mirrors crates/crawlrs-core/src/hash.rs:11-19 -/
def fnv1a64 (bytes : Bytes) : UInt64 := bytes.foldl fnv1aByte 0xcbf29ce484222325

/-- mirrors crates/crawlrs-core/src/hash.rs:25-28 -/
def contentHash (body : Bytes) : UInt64 := fnv1a64 body

/-- `str::as_bytes`. -/
def asBytes (s : String) : Bytes := s.toUTF8.data.toList

/-! ## Sharding -/

/-- mirrors crates/crawlrs-core/src/traits/sharding.rs:68-80; `new` asserts the field -/
structure HostHashShardPolicy where
  numShards : UInt32
  pos : 1 ≤ numShards.toNat
deriving DecidableEq

namespace HostHashShardPolicy

theorem one_shard : 1 ≤ (1 : UInt32).toNat := by decide

theorem two_shards : 1 ≤ (2 : UInt32).toNat := by decide

/-- mirrors crates/crawlrs-core/src/traits/sharding.rs:86-89 -/
def shardKeyFromHost (P : HostHashShardPolicy) (host : String) : ShardKey :=
  (fnv1a64 (asBytes host) % P.numShards.toUInt64).toUInt32

/-- mirrors crates/crawlrs-core/src/traits/sharding.rs:83-85 -/
def shardKey (P : HostHashShardPolicy) (url : CanonicalUrl) : ShardKey :=
  P.shardKeyFromHost (url.host.getD "")

theorem shardKeyFromHost_lt (P : HostHashShardPolicy) (host : String) :
    (P.shardKeyFromHost host).toNat < P.numShards.toNat := by
  have hn := P.numShards.toNat_lt
  have hlt : (fnv1a64 (asBytes host)).toNat % P.numShards.toNat < P.numShards.toNat :=
    Nat.mod_lt _ P.pos
  simp only [shardKeyFromHost, UInt64.toNat_toUInt32, UInt64.toNat_mod, UInt32.toNat_toUInt64]
  omega

theorem shardKey_lt (P : HostHashShardPolicy) (url : CanonicalUrl) :
    (P.shardKey url).toNat < P.numShards.toNat := P.shardKeyFromHost_lt _

end HostHashShardPolicy

/-- `(ordinal..num_shards).step_by(replicas)`. -/
def strided (ordinal numShards replicas : Nat) : List ShardKey :=
  (List.range' ordinal ((numShards - ordinal + replicas - 1) / replicas) replicas).map UInt32.ofNat

/-- mirrors crates/crawlrs-bin/src/factory.rs:440-476 -/
def deriveOwnedShards (numShards : UInt32) (explicit : Option (List ShardKey))
    (ordinal replicas : Option UInt32) : Except String (List ShardKey) :=
  match explicit with
  | some shards =>
    match shards.find? (numShards ≤ ·) with
    | some shard => .error s!"owned_shards entry {shard} >= num_shards {numShards}"
    | none => .ok shards
  | none =>
    match ordinal with
    | none => .ok ((List.range numShards.toNat).map UInt32.ofNat)
    | some ordinal =>
      let replicas := replicas.getD numShards
      let owned :=
        if replicas = 0 then [] else strided ordinal.toNat numShards.toNat replicas.toNat
      if owned = [] then
        .error (s!"POD_NAME ordinal {ordinal} >= num_shards {numShards} with " ++
          s!"replicas={replicas}; nothing to own")
      else .ok owned

theorem mem_strided {k n R : Nat} (hn : n < 2 ^ 32) (hR : 0 < R) (x : ShardKey) :
    x ∈ strided k n R ↔ k ≤ x.toNat ∧ x.toNat < n ∧ x.toNat % R = k % R := by
  have hlen : ∀ i, i < (n - k + R - 1) / R ↔ k + R * i < n := by
    intro i
    rw [Nat.lt_iff_add_one_le, Nat.le_div_iff_mul_le hR, Nat.mul_comm, Nat.mul_add]
    omega
  simp only [strided, List.mem_map, List.mem_range']
  constructor
  · rintro ⟨y, ⟨i, hi, rfl⟩, rfl⟩
    have hlt := (hlen i).1 hi
    have hx : (UInt32.ofNat (k + R * i)).toNat = k + R * i := by
      simp only [UInt32.toNat_ofNat']; omega
    rw [hx]
    exact ⟨by omega, hlt, by simp⟩
  · rintro ⟨h1, h2, h3⟩
    obtain ⟨i, hi⟩ := (Nat.modEq_iff_dvd' h1).1 h3.symm
    have hx : k + R * i = x.toNat := by omega
    exact ⟨x.toNat, ⟨i, (hlen i).2 (by omega), hx.symm⟩, UInt32.ofNat_toNat⟩

/-- A pod below the replica count owns the shards of its residue. -/
theorem mem_strided_of_lt {n R : Nat} {k : UInt32} (hn : n < 2 ^ 32) (hk : k.toNat < R)
    (x : ShardKey) : x ∈ strided k.toNat n R ↔ x.toNat < n ∧ x.toNat % R = k.toNat := by
  have hle := Nat.mod_le x.toNat R
  rw [mem_strided hn (by omega), Nat.mod_eq_of_lt hk]
  omega

theorem nodup_strided {k n R : Nat} (hn : n < 2 ^ 32) (hR : 0 < R) : (strided k n R).Nodup := by
  have hlt : ∀ i ∈ List.range' k ((n - k + R - 1) / R) R, i < 2 ^ 32 := by
    intro i hi
    obtain ⟨j, hj, hij⟩ := List.mem_range'.1 hi
    have hle : (j + 1) * R ≤ n - k + R - 1 := (Nat.le_div_iff_mul_le hR).1 hj
    have hmul : (j + 1) * R = R * j + R := by rw [Nat.add_mul, Nat.one_mul, Nat.mul_comm]
    omega
  refine (List.nodup_range' _ hR).map_on fun i hi j hj h => ?_
  have h : (UInt32.ofNat i).toNat = (UInt32.ofNat j).toNat := by rw [h]
  have hi := hlt i hi
  have hj := hlt j hj
  simp only [UInt32.toNat_ofNat'] at h
  omega

/-- An ordinal below the replica count has its strided list. -/
theorem deriveOwnedShards_strided {n k : UInt32} {replicas : Option UInt32}
    (hk : k.toNat < (replicas.getD n).toNat) (hle : (replicas.getD n).toNat ≤ n.toNat) :
    deriveOwnedShards n none (some k) replicas =
      .ok (strided k.toNat n.toNat (replicas.getD n).toNat) := by
  have hR : 0 < (replicas.getD n).toNat := by omega
  have hne : replicas.getD n ≠ 0 := by
    intro h
    simp [h] at hR
  have hmem : k ∈ strided k.toNat n.toNat (replicas.getD n).toNat :=
    (mem_strided n.toNat_lt hR k).2 ⟨Nat.le_refl _, by omega, rfl⟩
  simp [deriveOwnedShards, hne, List.ne_nil_of_mem hmem]

/-- **Ownership is a partition.** Every pod has its list, no shard is in two of them, and each
shard of the policy is in one; a URL is on the shard of its host. -/
theorem shards_partitioned (P : HostHashShardPolicy) (replicas : Option UInt32)
    (hpos : 1 ≤ (replicas.getD P.numShards).toNat)
    (hle : (replicas.getD P.numShards).toNat ≤ P.numShards.toNat) :
    ∃ owned : UInt32 → List ShardKey,
      (∀ k : UInt32, k.toNat < (replicas.getD P.numShards).toNat →
        deriveOwnedShards P.numShards none (some k) replicas = .ok (owned k) ∧ (owned k).Nodup) ∧
      (∀ k k' : UInt32, k.toNat < (replicas.getD P.numShards).toNat →
        k'.toNat < (replicas.getD P.numShards).toNat → k ≠ k' → (owned k).Disjoint (owned k')) ∧
      (∀ x : ShardKey, (∃ k : UInt32, k.toNat < (replicas.getD P.numShards).toNat ∧ x ∈ owned k) ↔
        x.toNat < P.numShards.toNat) ∧
      (∀ url : CanonicalUrl, ∃! k : UInt32, k.toNat < (replicas.getD P.numShards).toNat ∧
        P.shardKey url ∈ owned k) ∧
      ∀ (url : CanonicalUrl) (host : Host), url.host = some host →
        P.shardKey url = P.shardKeyFromHost host := by
  have hok (k : UInt32) (hk : k.toNat < (replicas.getD P.numShards).toNat) :=
    deriveOwnedShards_strided hk hle
  have hR32 := (replicas.getD P.numShards).toNat_lt
  generalize (replicas.getD P.numShards).toNat = R at hpos hle hok hR32 ⊢
  have hlt (x : Nat) : x % R < R := Nat.mod_lt x hpos
  -- the pod of a shard is its residue
  have hpod (x : Nat) : (UInt32.ofNat (x % R)).toNat = x % R := by
    have := hlt x
    rw [UInt32.toNat_ofNat']
    omega
  have hmem (k : UInt32) (hk : k.toNat < R) (x : ShardKey) := mem_strided_of_lt P.numShards.toNat_lt hk x
  refine ⟨fun k => strided k.toNat P.numShards.toNat R, fun k hk => ⟨hok k hk, ?_⟩,
    fun k k' hk hk' hne x hx hx' => ?_, fun x => ⟨?_, fun hx => ?_⟩, fun url => ?_,
    fun url host hh => ?_⟩
  · exact nodup_strided P.numShards.toNat_lt hpos
  · apply hne
    apply UInt32.toNat_inj.1
    rw [← ((hmem k hk x).1 hx).2, ((hmem k' hk' x).1 hx').2]
  · intro ⟨k, hk, hx⟩
    exact ((hmem k hk x).1 hx).1
  · have hk : (UInt32.ofNat (x.toNat % R)).toNat < R := by
      rw [hpod]
      exact hlt _
    exact ⟨_, hk, (hmem _ hk x).2 ⟨hx, (hpod _).symm⟩⟩
  · have hk : (UInt32.ofNat ((P.shardKey url).toNat % R)).toNat < R := by
      rw [hpod]
      exact hlt _
    refine ⟨_, ⟨hk, (hmem _ hk _).2 ⟨P.shardKey_lt url, (hpod _).symm⟩⟩, fun k hk' => ?_⟩
    apply UInt32.toNat_inj.1
    rw [hpod, ((hmem k hk'.1 _).1 hk'.2).2]
  · simp [HostHashShardPolicy.shardKey, hh]

/-- Eight shards on three pods: `https://a.test/` has its pod. -/
theorem shards_partitioned_three : ∃ (k : UInt32) (owned : List ShardKey), k.toNat < 3 ∧
    deriveOwnedShards 8 none (some k) (some 3) = .ok owned ∧
      HostHashShardPolicy.shardKey ⟨8, by decide⟩ UrlEntry.seedA.url ∈ owned := by
  obtain ⟨owned, hok, -, -, hurl, -⟩ := shards_partitioned ⟨8, by decide⟩ (some 3) (by decide) (by decide)
  obtain ⟨k, ⟨hk, hmem⟩, -⟩ := hurl UrlEntry.seedA.url
  exact ⟨k, owned k, hk, (hok k hk).1, hmem⟩

/-! ## Scope and blocklist -/

/-- mirrors crates/crawlrs-core/src/crawl_scope.rs:13-17 -/
structure CrawlOverride where
  maxDepth : Option UInt32
  maxUrls : Option UInt64
deriving DecidableEq, Repr

/-- mirrors crates/crawlrs-core/src/crawl_scope.rs:26-31 -/
structure CrawlScope where
  maxDepth : Option UInt32
  maxUrls : Option UInt64
  perDomain : Host → Option CrawlOverride

namespace CrawlScope

/-- mirrors crates/crawlrs-core/src/crawl_scope.rs:48-56 -/
def depthCap (S : CrawlScope) (host : Host) : Option UInt32 :=
  ((S.perDomain host).bind CrawlOverride.maxDepth).orElse fun _ => S.maxDepth

/-- mirrors crates/crawlrs-core/src/crawl_scope.rs:64-72 -/
def maxUrlsFor (S : CrawlScope) (host : Host) : Option UInt64 :=
  ((S.perDomain host).bind CrawlOverride.maxUrls).orElse fun _ => S.maxUrls

end CrawlScope

/-- mirrors crates/crawlrs-core/src/blocklist.rs:13-16 -/
structure Blocklist where
  hosts : List Host
deriving DecidableEq, Repr

/-- mirrors crates/crawlrs-core/src/blocklist.rs:28-30 -/
def Blocklist.isBlocked (B : Blocklist) (host : Host) : Bool := B.hosts.contains host

end Crawlrs

import Crawlrs.L1Data.Types
import Mathlib.Order.Defs.LinearOrder
import Mathlib.Order.Lattice
import Mathlib.Data.String.Basic

/-!
# Composite tokens of the frontier

An inflight member is `<url_id_hex>|<host>` and an attempt id
`s<shard>|<url_id_hex>|<host>`. The host is last and may contain anything,
the separator included; the parts before it cannot.

* `splitMember_member`: the split of `reclaim.lua` recovers the parts of the
  member `claim.lua` composed.
* `decodeAttempt_encodeAttempt`: `ack` recovers what `claim` encoded.
* `tokens_invert`: every token is read back as the parts it was made of.
* `Lease` is a member by its parts, ordered as the server orders members, by
  the bytes of the rendering (for UTF-8 that is the order of the characters).
-/
namespace Crawlrs

/-- Everything before and after the first `sep`, `none` without one. -/
def splitOnce (sep : Char) : List Char → Option (List Char × List Char)
  | [] => none
  | c :: cs => if c = sep then some ([], cs) else (splitOnce sep cs).map fun p => (c :: p.1, p.2)

theorem splitOnce_append {sep : Char} {pre : List Char} (h : sep ∉ pre) (rest : List Char) :
    splitOnce sep (pre ++ sep :: rest) = some (pre, rest) := by
  induction pre with
  | nil => simp [splitOnce]
  | cons c cs ih =>
    have hc : c ≠ sep := fun he => h (he ▸ List.mem_cons_self)
    have hcs : sep ∉ cs := fun hm => h (List.mem_cons_of_mem _ hm)
    simp [splitOnce, hc, ih hcs]

/-! ## Inflight members -/

structure Lease where
  urlId : UrlId
  host : Host
deriving DecidableEq, Repr

namespace Lease

/-- mirrors crates/crawlrs-frontier/src/scripts/claim.lua:46 -/
def member (l : Lease) : String := l.urlId.toHex ++ "|" ++ l.host

/-- mirrors crates/crawlrs-frontier/src/scripts/reclaim.lua:45-48 -/
def splitMember (m : String) : Option Lease := do
  let (pre, rest) ← splitOnce '|' m.toList
  let u ← UrlId.fromHex (String.ofList pre)
  return ⟨u, String.ofList rest⟩

@[simp] theorem splitMember_member (l : Lease) : splitMember l.member = some l := by
  have hs : l.member.toList = l.urlId.toHex.toList ++ '|' :: l.host.toList := by
    simp [member]
  simp [splitMember, hs, splitOnce_append l.urlId.pipe_notMem_toHex]

theorem member_injective : Function.Injective member := by
  intro a b h
  have := splitMember_member a
  rw [h, splitMember_member] at this
  exact (Option.some.inj this).symm

/-- What `ack` removes.
mirrors crates/crawlrs-frontier/src/host_queue.rs:306 -/
def ackMember (u : UrlId) (host : Host) : String := u.toHex ++ ("|" ++ host)

/-- The two `string.sub` of `reclaim.lua`, `none` where there is no separator.
mirrors crates/crawlrs-frontier/src/scripts/reclaim.lua:45-48 -/
def luaSplit (m : String) : Option (String × String) :=
  (splitOnce '|' m.toList).map fun p => (String.ofList p.1, String.ofList p.2)

theorem ackMember_eq (l : Lease) : ackMember l.urlId l.host = l.member := by
  simp [ackMember, member, String.append_assoc]

theorem luaSplit_member (l : Lease) : luaSplit l.member = some (l.urlId.toHex, l.host) := by
  have hs : l.member.toList = l.urlId.toHex.toList ++ '|' :: l.host.toList := by
    simp [member]
  simp [luaSplit, hs, splitOnce_append l.urlId.pipe_notMem_toHex]

instance : LinearOrder Lease := LinearOrder.lift' member member_injective

end Lease

/-! ## Attempt ids -/

/-- mirrors crates/crawlrs-frontier/src/frontier.rs:598-600 -/
def encodeAttempt (shard : ShardKey) (u : UrlId) (host : Host) : String :=
  "s" ++ (toString shard.toNat ++ ("|" ++ (u.toHex ++ ("|" ++ host))))

/-- `str::parse` of an unsigned `w`-bit integer: an optional `+`, then at least
one digit, no overflow. -/
def parseUnsigned (w : Nat) (cs : List Char) : Option Nat :=
  let ds := match cs with
    | '+' :: rest => rest
    | _ => cs
  if ds = [] ∨ ¬ ds.all Char.isDigit then none
  else if Nat.ofDigitChars 10 ds 0 < 2 ^ w then some (Nat.ofDigitChars 10 ds 0)
  else none

/-- The token is returned in the error (`MalformedAttempt`).
mirrors crates/crawlrs-frontier/src/frontier.rs:602-621 -/
def decodeAttempt (raw : String) : Except String (ShardKey × UrlId × Host) :=
  let parts := do
    let (shardStr, rest) ← splitOnce '|' raw.toList
    let (hex, host) ← splitOnce '|' rest
    let shard ← match shardStr with
      | 's' :: ds => (parseUnsigned 32 ds).map UInt32.ofNat
      | _ => none
    let u ← UrlId.fromHex (String.ofList hex)
    return (shard, u, String.ofList host)
  match parts with
  | some p => .ok p
  | none => .error raw

theorem isDigit_toDigits {n : Nat} {c : Char} (h : c ∈ Nat.toDigits 10 n) : c.isDigit = true :=
  Nat.isDigit_of_mem_toDigits (by decide) (by decide) h

theorem parseUnsigned_digits (w n : Nat) :
    parseUnsigned w (Nat.toDigits 10 n) = if n < 2 ^ w then some n else none := by
  have hdig : (Nat.toDigits 10 n).all Char.isDigit = true :=
    List.all_eq_true.2 fun c hc => isDigit_toDigits hc
  have hnil : Nat.toDigits 10 n ≠ [] := Nat.toDigits_ne_nil
  have hplus : ∀ rest, Nat.toDigits 10 n ≠ '+' :: rest := by
    intro rest he
    have := isDigit_toDigits (n := n) (c := '+') (he ▸ List.mem_cons_self)
    exact absurd this (by decide)
  unfold parseUnsigned
  split
  · rename_i rest he
    exact absurd he (hplus rest)
  · simp [hdig, hnil]

theorem parseUnsigned_toDigits {w n : Nat} (hlt : n < 2 ^ w) :
    parseUnsigned w (Nat.toDigits 10 n) = some n := by
  rw [parseUnsigned_digits, if_pos hlt]

theorem decodeAttempt_encodeAttempt (shard : ShardKey) (u : UrlId) (host : Host) :
    decodeAttempt (encodeAttempt shard u host) = .ok (shard, u, host) := by
  have hpre : '|' ∉ 's' :: Nat.toDigits 10 shard.toNat := by
    intro h
    rcases List.mem_cons.1 h with h | h
    · exact absurd h (by decide)
    · exact absurd (isDigit_toDigits h) (by decide)
  have hs : (encodeAttempt shard u host).toList =
      ('s' :: Nat.toDigits 10 shard.toNat) ++ '|' :: (u.toHex.toList ++ '|' :: host.toList) := by
    simp [encodeAttempt, Nat.toList_repr]
  have h1 := splitOnce_append hpre (u.toHex.toList ++ '|' :: host.toList)
  have h2 := splitOnce_append u.pipe_notMem_toHex host.toList
  rw [← hs] at h1
  simp [decodeAttempt, h1, h2, parseUnsigned_toDigits (w := 32) shard.toNat_lt]

/-- `claim` and `ack`, and `claim.lua`, `ack` and `reclaim.lua`, agree on every token: each is read
back as the parts it was made of. -/
theorem tokens_invert (shard : ShardKey) (u : UrlId) (host : Host) :
    decodeAttempt (encodeAttempt shard u host) = .ok (shard, u, host) ∧
    UrlId.fromHex u.toHex = some u ∧
    Lease.luaSplit (Lease.member ⟨u, host⟩) = some (u.toHex, host) ∧
    Lease.ackMember u host = Lease.member ⟨u, host⟩ ∧
    ∀ (u' : UrlId) (host' : Host), Lease.member ⟨u, host⟩ = Lease.member ⟨u', host'⟩ →
      u = u' ∧ host = host' := by
  refine ⟨decodeAttempt_encodeAttempt shard u host, u.fromHex_toHex, Lease.luaSplit_member ⟨u, host⟩,
    Lease.ackMember_eq ⟨u, host⟩, ?_⟩
  intro u' host' h
  have hlease : (⟨u, host⟩ : Lease) = ⟨u', host'⟩ := Lease.member_injective h
  exact ⟨congrArg Lease.urlId hlease, congrArg Lease.host hlease⟩

end Crawlrs

import Crawlrs.L1Data.Octets
import Crawlrs.L4Politeness.Robots

/-!
# Redis keys (`crawlrs-frontier/src/keys.rs`, `crawlrs-politeness/src/keys.rs`)

Two builders put the keys of a run together from the run id, which an operator
chooses, the shard and the host, with nothing escaped. A key is still read from its
end: a host has a colon only in an IPv6 literal, so what is after the last colon
outside of one is the host or the purpose (`host_cut`), and what is left ends in the
shard.

`keys_separate`: no two keys of different runs, shards, purposes or hosts are the
same, none of them is a `seen` key, and the keys the Lua scripts derive are the ones
the client uses.
-/
namespace Crawlrs

/-! ## The builders -/

/-- Both crates have a `KeyPrefix` of their own, with the same field. -/
structure KeyPrefix where
  runId : String
deriving DecidableEq, Repr

namespace KeyPrefix

variable (k : KeyPrefix) (shard : ShardKey)

/-- mirrors crates/crawlrs-frontier/src/keys.rs:41-43 -/
def shardTag : String := "crawlrs:\x7b" ++ (k.runId ++ ("_s" ++ (toString shard.toNat ++ "\x7d")))

/-- mirrors crates/crawlrs-frontier/src/keys.rs:47-49 -/
def hostQueue (host : Host) : String := k.shardTag shard ++ (":host_queue:" ++ host)

/-- mirrors crates/crawlrs-frontier/src/keys.rs:54-56 -/
def hostQueuePrefix : String := k.shardTag shard ++ ":host_queue:"

/-- mirrors crates/crawlrs-frontier/src/keys.rs:61-63 -/
def wake : String := k.shardTag shard ++ ":wake"

/-- mirrors crates/crawlrs-frontier/src/keys.rs:67-69 -/
def ready : String := k.shardTag shard ++ ":ready"

/-- mirrors crates/crawlrs-frontier/src/keys.rs:75-77 -/
def inflight : String := k.shardTag shard ++ ":inflight"

/-- mirrors crates/crawlrs-frontier/src/keys.rs:82-84 -/
def urls : String := k.shardTag shard ++ ":urls"

/-- mirrors crates/crawlrs-frontier/src/keys.rs:93-95 -/
def hostCount (host : Host) : String := k.shardTag shard ++ (":host_count:" ++ host)

/-- The one key without the run.
mirrors crates/crawlrs-frontier/src/keys.rs:112-114 -/
def seen (_ : KeyPrefix) (shard : ShardKey) : String :=
  "crawlrs:\x7bs" ++ (toString shard.toNat ++ "\x7d:seen")

/-- mirrors crates/crawlrs-politeness/src/keys.rs:26-28 -/
def hoststate (host : Host) : String :=
  "crawlrs:" ++ (k.runId ++ (":s" ++ (toString shard.toNat ++ (":hoststate:" ++ host))))

/-- mirrors crates/crawlrs-politeness/src/keys.rs:34-36 -/
def robots (host : Host) : String := robotsKey k.runId shard host

end KeyPrefix

/-! ## Hosts -/

/-- A character of an IPv6 literal. -/
def ipv6Char (c : Char) : Bool := (Url.hexDigit c).isSome || c == ':'

/-- A colon is only in a bracketed IPv6 literal; so no `}` is before one. -/
def HostText (h : List Char) : Prop :=
  ':' ∈ h → ∃ lit, h = '[' :: (lit ++ [']']) ∧ ∀ c ∈ lit, ipv6Char c = true

/-- A host as `CanonicalUrl::host` gives it. -/
structure UrlHost where
  text : Host
  ok : HostText text.toList

/-- What a key ends in before its last part: a word no part of which is read as the start of a
literal. -/
def Marked (stem : List Char) : Prop :=
  ∃ front word, stem = front ++ word ∧ '[' ∉ word ∧ ∃ c ∈ word, ipv6Char c = false

/-- A host is not longer than it looks: the part before it would be in a literal. -/
theorem host_not_longer {stem stem' x h h' : List Char} (hstem : Marked stem) (hok : HostText h')
    (hs : stem = stem' ++ ':' :: x) (hh : h' = x ++ ':' :: h) : False := by
  obtain ⟨lit, hlit, hchars⟩ := hok (by rw [hh]; simp)
  rw [hlit] at hh
  cases x with
  | nil => cases hh
  | cons c x =>
    simp only [List.cons_append, List.cons.injEq] at hh
    obtain ⟨rfl, hh⟩ := hh
    have hx : ∀ c ∈ x, ipv6Char c = true := by
      have hlen := congrArg List.length hh
      simp only [List.length_append, List.length_cons, List.length_nil] at hlen
      intro c hc
      refine hchars c ?_
      have htake := congrArg (List.take x.length) hh
      rw [List.take_left, List.take_append_of_le_length (by omega)] at htake
      rw [← htake] at hc
      exact List.mem_of_mem_take hc
    obtain ⟨front, word, hmark, hopen, c, hc, hword⟩ := hstem
    rw [hmark] at hs
    -- the word is a part of the literal, or the bracket is a part of the word
    have hcut : front ++ word = (stem' ++ [':']) ++ '[' :: x := by simp [hs]
    rcases List.append_eq_append_iff.1 hcut with ⟨t, -, ht⟩ | ⟨t, -, ht⟩
    · exact hopen (by rw [ht]; simp)
    · cases t with
      | nil => exact hopen (by rw [← List.nil_append word, ← ht]; simp)
      | cons d t =>
        simp only [List.cons_append, List.cons.injEq] at ht
        have hin : c ∈ x := by
          rw [ht.2]
          exact List.mem_append_right _ hc
        rw [hx c hin] at hword
        cases hword

/-- The last part of a key and what is before it. -/
theorem host_cut {stem stem' h h' : List Char} (hstem : Marked stem) (hstem' : Marked stem')
    (hh : HostText h) (hh' : HostText h') (heq : stem ++ ':' :: h = stem' ++ ':' :: h') :
    stem = stem' ∧ h = h' := by
  rcases List.append_eq_append_iff.1 heq with ⟨t, ht, htail⟩ | ⟨t, ht, htail⟩
  · cases t with
    | nil =>
      simp only [List.nil_append, List.cons.injEq, true_and, List.append_nil] at ht htail
      exact ⟨ht.symm, htail⟩
    | cons c x =>
      simp only [List.cons_append, List.cons.injEq] at htail
      obtain ⟨rfl, htail⟩ := htail
      exact (host_not_longer hstem' hh ht htail).elim
  · cases t with
    | nil =>
      simp only [List.nil_append, List.cons.injEq, true_and, List.append_nil] at ht htail
      exact ⟨ht, htail.symm⟩
    | cons c x =>
      simp only [List.cons_append, List.cons.injEq] at htail
      obtain ⟨rfl, htail⟩ := htail
      exact (host_not_longer hstem hh' ht htail).elim

/-! ## Keys -/

/-- The keys of a shard without a host. -/
inductive ShardPurpose
  | wake
  | ready
  | inflight
  | urls
deriving DecidableEq, Repr

/-- The keys of a host in the frontier. -/
inductive HostPurpose
  | hostQueue
  | hostCount
deriving DecidableEq, Repr

inductive PolitenessPurpose
  | hoststate
  | robots
deriving DecidableEq, Repr

/-- A key of a run, by what it was built from. -/
inductive Key
  | shard (purpose : ShardPurpose) (run : String) (shard : ShardKey)
  | host (purpose : HostPurpose) (run : String) (shard : ShardKey) (host : UrlHost)
  | politeness (purpose : PolitenessPurpose) (run : String) (shard : ShardKey) (host : UrlHost)

def Key.text : Key → String
  | .shard .wake run s => KeyPrefix.wake ⟨run⟩ s
  | .shard .ready run s => KeyPrefix.ready ⟨run⟩ s
  | .shard .inflight run s => KeyPrefix.inflight ⟨run⟩ s
  | .shard .urls run s => KeyPrefix.urls ⟨run⟩ s
  | .host .hostQueue run s h => KeyPrefix.hostQueue ⟨run⟩ s h.text
  | .host .hostCount run s h => KeyPrefix.hostCount ⟨run⟩ s h.text
  | .politeness .hoststate run s h => KeyPrefix.hoststate ⟨run⟩ s h.text
  | .politeness .robots run s h => KeyPrefix.robots ⟨run⟩ s h.text

/-! ## Reading a key from its end -/

def ShardPurpose.word : ShardPurpose → List Char
  | .wake => ['w', 'a', 'k', 'e']
  | .ready => ['r', 'e', 'a', 'd', 'y']
  | .inflight => ['i', 'n', 'f', 'l', 'i', 'g', 'h', 't']
  | .urls => ['u', 'r', 'l', 's']

def HostPurpose.word : HostPurpose → List Char
  | .hostQueue => ['h', 'o', 's', 't', '_', 'q', 'u', 'e', 'u', 'e']
  | .hostCount => ['h', 'o', 's', 't', '_', 'c', 'o', 'u', 'n', 't']

def PolitenessPurpose.word : PolitenessPurpose → List Char
  | .hoststate => ['h', 'o', 's', 't', 's', 't', 'a', 't', 'e']
  | .robots => ['r', 'o', 'b', 'o', 't', 's']

/-- The run and the shard, as both builders write them. -/
def runShard (sep : Char) (run : String) (s : ShardKey) : List Char :=
  run.toList ++ sep :: 's' :: Nat.toDigits 10 s.toNat

def tagChars (run : String) (s : ShardKey) : List Char :=
  ['c', 'r', 'a', 'w', 'l', 'r', 's', ':', '\x7b'] ++ (runShard '_' run s ++ ['\x7d'])

/-- What is before the last part. -/
def Key.stem : Key → List Char
  | .shard _ run s => tagChars run s
  | .host p run s _ => tagChars run s ++ ':' :: p.word
  | .politeness p run s _ =>
    ['c', 'r', 'a', 'w', 'l', 'r', 's', ':'] ++ runShard ':' run s ++ ':' :: p.word

/-- The host, or the purpose where there is none. -/
def Key.last : Key → List Char
  | .shard p _ _ => p.word
  | .host _ _ _ h => h.text.toList
  | .politeness _ _ _ h => h.text.toList

theorem shardTag_toList (run : String) (s : ShardKey) :
    (KeyPrefix.shardTag ⟨run⟩ s).toList = tagChars run s := by
  unfold KeyPrefix.shardTag tagChars runShard
  simp only [String.toList_append, Nat.toString_eq_repr, Nat.toList_repr, List.append_assoc]
  rfl

theorem shardTag_append (run : String) (s : ShardKey) (t : String) :
    (KeyPrefix.shardTag ⟨run⟩ s ++ t).toList = tagChars run s ++ t.toList := by
  rw [String.toList_append, shardTag_toList]

theorem hoststate_toList (run : String) (s : ShardKey) (host : Host) :
    (KeyPrefix.hoststate ⟨run⟩ s host).toList =
      ['c', 'r', 'a', 'w', 'l', 'r', 's', ':'] ++ runShard ':' run s ++
        ':' :: (PolitenessPurpose.hoststate.word ++ ':' :: host.toList) := by
  unfold KeyPrefix.hoststate runShard
  simp only [String.toList_append, Nat.toString_eq_repr, Nat.toList_repr, List.append_assoc]
  rfl

theorem robots_toList (run : String) (s : ShardKey) (host : Host) :
    (KeyPrefix.robots ⟨run⟩ s host).toList =
      ['c', 'r', 'a', 'w', 'l', 'r', 's', ':'] ++ runShard ':' run s ++
        ':' :: (PolitenessPurpose.robots.word ++ ':' :: host.toList) := by
  unfold KeyPrefix.robots robotsKey runShard
  simp only [String.toList_append, Nat.toString_eq_repr, Nat.toList_repr, List.append_assoc]
  rfl

theorem Key.text_toList (k : Key) : k.text.toList = k.stem ++ ':' :: k.last := by
  cases k with
  | shard p run s =>
    cases p with
    | wake => exact shardTag_append run s ":wake"
    | ready => exact shardTag_append run s ":ready"
    | inflight => exact shardTag_append run s ":inflight"
    | urls => exact shardTag_append run s ":urls"
  | host p run s h =>
    rw [Key.stem, List.append_assoc]
    cases p with
    | hostQueue => exact (shardTag_append run s _).trans (congrArg _ String.toList_append)
    | hostCount => exact (shardTag_append run s _).trans (congrArg _ String.toList_append)
  | politeness p run s h =>
    rw [Key.stem, List.append_assoc]
    cases p with
    | hoststate => exact hoststate_toList run s h.text
    | robots => exact robots_toList run s h.text

theorem marked_append {front word : List Char} (hopen : '[' ∉ word)
    (hword : word.any (fun c => !ipv6Char c) = true) : Marked (front ++ word) := by
  obtain ⟨c, hc, hbad⟩ := List.any_eq_true.1 hword
  exact ⟨front, word, rfl, hopen, c, hc, by simpa using hbad⟩

theorem marked_tagChars (run : String) (s : ShardKey) : Marked (tagChars run s) := by
  rw [tagChars, ← List.append_assoc]
  exact marked_append (by decide) (by decide)

theorem Key.marked_stem (k : Key) : Marked k.stem := by
  have hword : ∀ {front word : List Char}, '[' ∉ word → word.any (fun c => !ipv6Char c) = true →
      Marked (front ++ ':' :: word) := by
    intro front word hopen hw
    rw [← List.singleton_append, ← List.append_assoc]
    exact marked_append hopen hw
  cases k with
  | shard p run s => exact marked_tagChars run s
  | host p run s h => cases p <;> exact hword (by decide) (by decide)
  | politeness p run s h => cases p <;> exact hword (by decide) (by decide)

theorem ShardPurpose.colon_notMem_word (p : ShardPurpose) : ':' ∉ p.word := by cases p <;> decide

theorem Key.hostText_last (k : Key) : HostText k.last := by
  cases k with
  | shard p run s => exact fun h => absurd h p.colon_notMem_word
  | host p run s h => exact h.ok
  | politeness p run s h => exact h.ok

/-- A text is cut at its last separator in one way. -/
theorem last_sep_inj {a a' b b' : List Char} {sep : Char} (hb : sep ∉ b) (hb' : sep ∉ b')
    (h : a ++ sep :: b = a' ++ sep :: b') : a = a' ∧ b = b' := by
  have hrev := congrArg List.reverse h
  simp only [List.reverse_append, List.reverse_cons, List.append_assoc, List.singleton_append] at hrev
  have hsplit := congrArg (splitOnce sep) hrev
  rw [splitOnce_append (by simpa using hb), splitOnce_append (by simpa using hb')] at hsplit
  obtain ⟨hright, hleft⟩ := Prod.mk.inj (Option.some.inj hsplit)
  exact ⟨List.reverse_injective hleft, List.reverse_injective hright⟩

theorem runShard_inj {sep : Char} {run run' : String} {s s' : ShardKey}
    (h : runShard sep run s = runShard sep run' s') : run = run' ∧ s = s' := by
  have hdigits : ∀ n : Nat, 's' ∉ Nat.toDigits 10 n := fun n hm =>
    absurd (isDigit_toDigits hm) (by decide)
  have hcut : (run.toList ++ [sep]) ++ 's' :: Nat.toDigits 10 s.toNat =
      (run'.toList ++ [sep]) ++ 's' :: Nat.toDigits 10 s'.toNat := by
    rw [List.append_assoc, List.append_assoc]
    exact h
  obtain ⟨hrun, hshard⟩ := last_sep_inj (hdigits _) (hdigits _) hcut
  refine ⟨String.toList_inj.1 (List.append_cancel_right hrun), UInt32.toNat_inj.1 ?_⟩
  calc s.toNat = Nat.ofDigitChars 10 (Nat.toDigits 10 s.toNat) 0 := Nat.ofDigitChars_ten_toDigits.symm
    _ = Nat.ofDigitChars 10 (Nat.toDigits 10 s'.toNat) 0 := by rw [hshard]
    _ = s'.toNat := Nat.ofDigitChars_ten_toDigits

theorem tagChars_inj {run run' : String} {s s' : ShardKey} (h : tagChars run s = tagChars run' s') :
    run = run' ∧ s = s' := by
  unfold tagChars at h
  exact runShard_inj (List.append_cancel_right (List.append_cancel_left h))

theorem tagChars_getLast (run : String) (s : ShardKey) : (tagChars run s).getLast? = some '\x7d' := by
  rw [tagChars, ← List.append_assoc, List.getLast?_concat]

/-- A tag ends in its brace, a stem with a purpose does not. -/
theorem closed_ne {tag front word : List Char} (htag : tag.getLast? = some '\x7d') (hword : word ≠ [])
    (hlast : word.getLast? ≠ some '\x7d') : tag ≠ front ++ ':' :: word := by
  rintro rfl
  obtain ⟨c, word, rfl⟩ := List.exists_cons_of_ne_nil hword
  rw [List.getLast?_append_of_ne_nil _ (by simp), List.getLast?_cons_cons] at htag
  exact hlast htag

theorem HostPurpose.word_ok (p : HostPurpose) :
    p.word ≠ [] ∧ p.word.getLast? ≠ some '\x7d' ∧ ':' ∉ p.word := by cases p <;> decide

theorem PolitenessPurpose.word_ok (p : PolitenessPurpose) :
    p.word ≠ [] ∧ p.word.getLast? ≠ some '\x7d' ∧ ':' ∉ p.word := by cases p <;> decide

/-- A stem that ends in a brace is a tag: the key has no host. -/
theorem stem_closed {k : Key} (h : k.stem.getLast? = some '\x7d') : ∃ p run s, k = .shard p run s := by
  cases k with
  | shard p run s => exact ⟨p, run, s, rfl⟩
  | host p run s host => exact absurd rfl (closed_ne h p.word_ok.1 p.word_ok.2.1)
  | politeness p run s host => exact absurd rfl (closed_ne h p.word_ok.1 p.word_ok.2.1)

theorem ShardPurpose.word_injective : Function.Injective ShardPurpose.word := by
  intro p q h
  cases p <;> cases q <;> first | rfl | cases h

theorem HostPurpose.word_injective : Function.Injective HostPurpose.word := by
  intro p q h
  cases p <;> cases q <;> first | rfl | cases h

theorem PolitenessPurpose.word_injective : Function.Injective PolitenessPurpose.word := by
  intro p q h
  cases p <;> cases q <;> first | rfl | cases h

theorem word_ne_word (p : HostPurpose) (q : PolitenessPurpose) : p.word ≠ q.word := by
  cases p <;> cases q <;> decide

theorem UrlHost.ext {h h' : UrlHost} (heq : h.text.toList = h'.text.toList) : h = h' := by
  cases h
  cases h'
  cases String.toList_inj.1 heq
  rfl

/-- A key is what it was built from. -/
theorem Key.text_injective : Function.Injective Key.text := by
  intro k k' h
  have hparts := congrArg String.toList h
  rw [k.text_toList, k'.text_toList] at hparts
  obtain ⟨hstem, hlast⟩ := host_cut k.marked_stem k'.marked_stem k.hostText_last k'.hostText_last hparts
  cases k with
  | shard p run s =>
    have hclosed : k'.stem.getLast? = some '\x7d' := by
      rw [← hstem]
      exact tagChars_getLast run s
    obtain ⟨p', run', s', rfl⟩ := stem_closed hclosed
    obtain ⟨rfl, rfl⟩ := tagChars_inj hstem
    rw [ShardPurpose.word_injective hlast]
  | host p run s host =>
    cases k' with
    | shard p' run' s' =>
      exact absurd hstem.symm (closed_ne (tagChars_getLast run' s') p.word_ok.1 p.word_ok.2.1)
    | host p' run' s' host' =>
      obtain ⟨htag, hword⟩ := last_sep_inj p.word_ok.2.2 p'.word_ok.2.2 hstem
      obtain ⟨rfl, rfl⟩ := tagChars_inj htag
      rw [HostPurpose.word_injective hword, UrlHost.ext hlast]
    | politeness p' run' s' host' =>
      exact absurd (last_sep_inj p.word_ok.2.2 p'.word_ok.2.2 hstem).2 (word_ne_word p p')
  | politeness p run s host =>
    cases k' with
    | shard p' run' s' =>
      exact absurd hstem.symm (closed_ne (tagChars_getLast run' s') p.word_ok.1 p.word_ok.2.1)
    | host p' run' s' host' =>
      exact absurd (last_sep_inj p.word_ok.2.2 p'.word_ok.2.2 hstem).2 (word_ne_word p' p).symm
    | politeness p' run' s' host' =>
      obtain ⟨hrun, hword⟩ := last_sep_inj p.word_ok.2.2 p'.word_ok.2.2 hstem
      obtain ⟨rfl, rfl⟩ := runShard_inj (List.append_cancel_left hrun)
      rw [PolitenessPurpose.word_injective hword, UrlHost.ext hlast]

/-! ## The key without the run -/

def seenTag (s : ShardKey) : List Char :=
  ['c', 'r', 'a', 'w', 'l', 'r', 's', ':', '\x7b', 's'] ++ Nat.toDigits 10 s.toNat ++ ['\x7d']

theorem seen_toList (k : KeyPrefix) (s : ShardKey) :
    (k.seen s).toList = seenTag s ++ ':' :: ['s', 'e', 'e', 'n'] := by
  unfold KeyPrefix.seen seenTag
  simp only [String.toList_append, Nat.toString_eq_repr, Nat.toList_repr, List.append_assoc]
  rfl

theorem ShardPurpose.word_ne_seen (p : ShardPurpose) : p.word ≠ ['s', 'e', 'e', 'n'] := by
  cases p <;> decide

theorem seen_ne_text (k : KeyPrefix) (s : ShardKey) (key : Key) : k.seen s ≠ key.text := by
  intro h
  have hparts := congrArg String.toList h
  rw [seen_toList, key.text_toList] at hparts
  obtain ⟨hstem, hlast⟩ := host_cut (marked_append (by decide) (by decide)) key.marked_stem
    (fun hcolon => absurd hcolon (by decide)) key.hostText_last hparts
  have hclosed : key.stem.getLast? = some '\x7d' := by
    rw [← hstem, List.getLast?_concat]
  obtain ⟨p, run, s', rfl⟩ := stem_closed hclosed
  exact p.word_ne_seen hlast.symm

/-- Over all run ids, shards and hosts: two keys are the same only if they are for the same purpose,
run, shard and host; no key of a run is a `seen` key; and what the Lua scripts append to the prefix,
the host of an inflight member among it, gives the key the client uses. -/
theorem keys_separate :
    (∀ k k' : Key, k.text = k'.text → k = k') ∧
    (∀ (k : KeyPrefix) (shard : ShardKey) (key : Key), k.seen shard ≠ key.text) ∧
    (∀ (k : KeyPrefix) (shard : ShardKey) (host : Host),
      k.hostQueue shard host = k.hostQueuePrefix shard ++ host) ∧
    ∀ (k : KeyPrefix) (shard : ShardKey) (l : Lease),
      (Lease.luaSplit l.member).map (fun p => k.hostQueuePrefix shard ++ p.2) =
        some (k.hostQueue shard l.host) := by
  have hqueue : ∀ (k : KeyPrefix) (shard : ShardKey) (host : Host),
      k.hostQueue shard host = k.hostQueuePrefix shard ++ host := by
    intro k shard host
    rw [KeyPrefix.hostQueue, KeyPrefix.hostQueuePrefix, String.append_assoc]
  refine ⟨fun k k' h => Key.text_injective h, seen_ne_text, hqueue, ?_⟩
  intro k shard l
  rw [Lease.luaSplit_member, Option.map_some, hqueue]

end Crawlrs

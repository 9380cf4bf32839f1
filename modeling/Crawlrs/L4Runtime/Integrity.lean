import Crawlrs.L4Runtime.Lossless

/-!
# What a claim hands out

`submit.lua` writes the payload of a URL once, when the filter takes its id; `claim.lua`
reads it back with every lease, also after a reclaim, and `HDEL` is all that removes it.

* `Written`: each payload in a keyspace is the encoding of an offered item of the shard,
  accepted under the host it was submitted with.
* `claimed_as_offered`: in every run of a fleet, what a claim hands to its caller is an
  offered entry, and every later claim of the id hands out the same one.
-/
namespace Crawlrs

variable {β : Type}

namespace Eff.Step

variable {B : Sketch UrlId β} {s s' : Shard β} {e : Eff}

/-- A payload is there already, or written by an accept. -/
theorem urls_some (hst : Eff.Step B s e s') {u : UrlId} {bs : Bytes} (hu : s'.urls u = some bs) :
    s.urls u = some bs ∨ ∃ h now counted, e = .accept u h bs now counted := by
  cases hst with
  | @accept v h payload now counted hv =>
    by_cases huv : u = v
    · subst huv
      simp only [Shard.accept, Function.update_self, Option.some.injEq] at hu
      subst hu
      exact .inr ⟨h, now, counted, rfl⟩
    · exact .inl (by simpa [Shard.accept, huv] using hu)
  | @hdel v =>
    by_cases huv : u = v
    · simp [Shard.ackHdel, huv] at hu
    · exact .inl (by simpa [Shard.ackHdel, huv] using hu)
  | _ => exact .inl hu

/-- A seen id keeps its payload or loses it. -/
theorem urls_seen (hst : Eff.Step B s e s') {u : UrlId} {bs : Bytes}
    (hu : B.has s.seen u = true ∧ ∀ bs', s.urls u = some bs' → bs' = bs) :
    B.has s'.seen u = true ∧ ∀ bs', s'.urls u = some bs' → bs' = bs := by
  cases hst with
  | @accept v h payload now counted hv =>
    refine ⟨B.has_insert _ _ _ hu.1, fun bs' hbs => ?_⟩
    have huv : u ≠ v := by
      rintro rfl
      simp [hu.1] at hv
    exact hu.2 bs' (by simpa [Shard.accept, huv] using hbs)
  | @hdel v =>
    refine ⟨hu.1, fun bs' hbs => ?_⟩
    by_cases huv : u = v
    · simp [Shard.ackHdel, huv] at hbs
    · exact hu.2 bs' (by simpa [Shard.ackHdel, huv] using hbs)
  | _ => exact hu

end Eff.Step

namespace Fleet

variable {E : Env β} {P : HostHashShardPolicy} {U : UrlEntry → Prop} {t t' : Staffed β}

/-! ## Payloads -/

/-- An offered item of the shard, with what the keyspace keeps of it. -/
structure Filed (E : Env β) (P : HostHashShardPolicy) (U : UrlEntry → Prop) (u : UrlId) (h : Host)
    (bs : Bytes) (it : Item) : Prop where
  routed : it.RoutedTo P U E.shard
  id : E.idOf it = u
  host : it.host = h
  payload : E.payloadOf it = bs

/-- Every payload is that of an offered item, accepted under its host. -/
def Written (E : Env β) (P : HostHashShardPolicy) (U : UrlEntry → Prop) (acc : List (UrlId × Host))
    (s : Shard β) : Prop :=
  ∀ u bs, s.urls u = some bs → ∃ h it, Filed E P U u h bs it ∧ (u, h) ∈ acc

/-- What an op accepts are its own items. -/
theorem filed_of_effect {s : Sys β} {op : Op} (hop : op.RoutedTo P U E.shard) {u : UrlId} {h : Host}
    {bs : Bytes} {now : Int} {counted : Bool} (he : op.Effect E s (.accept u h bs now counted)) :
    ∃ it, Filed E P U u h bs it := by
  cases op with
  | submit it now' =>
    cases he
    exact ⟨it, hop, rfl, rfl, rfl⟩
  | submitBatch its now' =>
    obtain ⟨p, hp, heq⟩ := he
    cases heq
    exact ⟨p.1, hop p hp, rfl, rfl, rfl⟩
  | _ => simp [Op.Effect] at he

theorem Written.step {s s' : Sys β} {op : Op} (hw : Written E P U s.accepted s.shard)
    (hop : op.RoutedTo P U E.shard) (hst : s.step E op = some s') :
    Written E P U s'.accepted s'.shard := by
  obtain ⟨es, hsteps, hall, hacc⟩ := Sys.step_effs hst
  rw [hacc]
  refine Eff.accumulate (K := Written E P U) (Q := op.Effect E s) ?_ hsteps hall hw
  intro acc a e b ha he hab u bs hu
  obtain hu | ⟨h, now, counted, rfl⟩ := hab.urls_some hu
  · obtain ⟨h, it, hit, hm⟩ := ha u bs hu
    exact ⟨h, it, hit, List.mem_append_left _ hm⟩
  · obtain ⟨it, hit⟩ := filed_of_effect hop he
    exact ⟨h, it, hit, List.mem_append_right _ (by simp [Eff.accepted?])⟩

theorem written_inductive (E : Env β) (P : HostHashShardPolicy) (U : UrlEntry → Prop) :
    (shardRuns E P U).Inductive fun t => Written E P U t.sys.accepted t.sys.shard where
  init := by
    rintro ⟨s, as⟩ ⟨⟨seen, hs⟩, -⟩ u bs hu
    have hs : s = .init seen := hs
    subst hs
    cases hu
  step := by
    intro t m t' hw hst
    cases hst with
    | op hroute _ hst => exact hw.step hroute hst
    | grant _ => exact hw

/-- The payload of a seen id is for good, until it is gone. -/
theorem payload_kept {u : UrlId} {bs : Bytes} {ms : List Move} (h : (shardRuns E P U).Steps t ms t')
    (hseen : E.bloom.has t.sys.shard.seen u = true) (hu : t.sys.shard.urls u = some bs) {bs' : Bytes}
    (hu' : t'.sys.shard.urls u = some bs') : bs' = bs := by
  have hinit : ∀ b, t.sys.shard.urls u = some b → b = bs := by
    intro b hb
    rw [hu] at hb
    exact (Option.some.inj hb).symm
  refine (h.stable (P := fun t => E.bloom.has t.sys.shard.seen u = true ∧
    ∀ b, t.sys.shard.urls u = some b → b = bs) ?_ ⟨hseen, hinit⟩).2 bs' hu'
  intro t m t' ht hst
  cases hst with
  | op _ _ hst =>
    obtain ⟨es, hsteps, -, -⟩ := Sys.step_effs hst
    exact hsteps.stable (P := fun s => E.bloom.has s.seen u = true ∧ ∀ b, s.urls u = some b → b = bs)
      (fun _ _ _ hs hst => Eff.Step.urls_seen hst hs) ht
  | grant _ => exact ht

/-! ## Claims -/

variable {W : Wire} {B : Sketch UrlId β}

/-- The step in which the server leases `u` of `h` to a caller that reads the entry `e`. -/
def Hands (W : Wire) (k : ShardKey) (u : UrlId) (h : Host) (e : UrlEntry)
    (l : Service.Label (RedisClient × ClientCall) Trip Trip.Answer) : Prop :=
  ∃ n now leaseMs reply, l = .call n ⟨k, .claim now leaseMs⟩ (.ok reply) ∧
    parseClaimValue W reply = .ok (.claimed u e h)

/-- What is handed out is the head of a queue, with the payload of its id. -/
theorem Hands.reads {S S' : Pool (Fleet β) Trip Trip.Answer (Option String)}
    {l : Service.Label (RedisClient × ClientCall) Trip Trip.Answer}
    (hst : (runs W B P U).step S l S') {k : ShardKey} {u : UrlId} {h : Host} {e : UrlEntry}
    (hc : Hands W k u h e l) : u ∈ (S.state.shards k).hostQueue h ∧
      ∃ bs, (S.state.shards k).urls u = some bs ∧ W.decode bs = some e := by
  obtain ⟨n, now, leaseMs, reply, rfl, hp⟩ := hc
  cases hst with
  | @call s s' pre post c k' r hexec =>
    cases hexec with
    | replied =>
      obtain ⟨bs, hreply, hd⟩ := parse_claimed_inv hp
      obtain ⟨_, _, _, _, hq, hbs, -⟩ := Shard.claim_claimed hreply
      exact ⟨hq ▸ List.mem_cons_self, bs, hbs.symm, hd⟩

/-- What is handed out was offered. -/
theorem Hands.offered {S S' : Pool (Fleet β) Trip Trip.Answer (Option String)}
    {l : Service.Label (RedisClient × ClientCall) Trip Trip.Answer}
    (hS : (runs W B P U).Reachable S) (hst : (runs W B P U).step S l S') {k : ShardKey} {u : UrlId}
    {h : Host} {e : UrlEntry} (hc : Hands W k u h e l) :
    U e ∧ W.idOf e = u ∧ e.url.host = some h ∧ P.shardKeyFromHost h = k := by
  obtain ⟨t, ht, hR⟩ := (shard_simulation ⟨W, B, k⟩ P U).reachable hS
  obtain ⟨hq, bs, hbs, hd⟩ := hc.reads hst
  have hshard : t.sys.shard = S.state.shards k := hR.1.shard
  rw [← hshard] at hq hbs
  obtain ⟨h', it, hit, hm⟩ := (written_inductive _ P U).reachable t ht u bs hbs
  have hrec := ((accounted_inductive _ P U).reachable t ht).recorded
  have hh : h' = h := hrec.conserved.host_unique hm
    (hrec.conserved.mem_of_held (Conserved.held_pos_of_queued hq))
  have he : it.entry = e := by
    have hdec := W.decode_encode it.entry
    rw [show W.encode it.entry = bs from hit.payload, hd] at hdec
    exact (Option.some.inj hdec).symm
  subst hh he
  exact ⟨hit.routed.2, hit.id, hit.host ▸ it.host_eq, hit.host ▸ hit.routed.1⟩

/-- **A claim hands out what was offered.** In every run of a fleet, the entry that a claim's caller
reads is one that somebody offered, under its own id, host and shard; and every later claim of that
id in the run hands out the same entry, however often the lease expired and was reclaimed. -/
theorem claimed_as_offered (W : Wire) (B : Sketch UrlId β) (P : HostHashShardPolicy)
    (U : UrlEntry → Prop) (S S₁ : Pool (Fleet β) Trip Trip.Answer (Option String))
    (l : Service.Label (RedisClient × ClientCall) Trip Trip.Answer)
    (hS : (runs W B P U).Reachable S) (hst : (runs W B P U).step S l S₁) (k : ShardKey) (u : UrlId)
    (h : Host) (e : UrlEntry) (hc : Hands W k u h e l) :
    (U e ∧ W.idOf e = u ∧ e.url.host = some h ∧ P.shardKeyFromHost h = k) ∧
      ∀ tr S₂ l' S₃ h' e', (runs W B P U).Steps S₁ tr S₂ → (runs W B P U).step S₂ l' S₃ →
        Hands W k u h' e' l' → e' = e ∧ h' = h := by
  have hfirst := hc.offered hS hst
  refine ⟨hfirst, fun tr S₂ l' S₃ h' e' hrun hst' hc' => ?_⟩
  have hlater := hc'.offered ((LTS.Reachable.step hS hst).steps hrun) hst'
  obtain ⟨hq, bs, hbs, hd⟩ := hc.reads hst
  obtain ⟨-, bs', hbs', hd'⟩ := hc'.reads hst'
  have hsim := shard_simulation ⟨W, B, k⟩ P U
  obtain ⟨t, ht, hR⟩ := hsim.reachable hS
  obtain ⟨ms, t', hms, hR'⟩ := hsim.steps (.cons hst hrun) hR
  have hshard : t.sys.shard = S.state.shards k := hR.1.shard
  have hshard' : t'.sys.shard = S₂.state.shards k := hR'.1.shard
  rw [← hshard] at hq hbs
  rw [← hshard'] at hbs'
  have hrec := ((accounted_inductive _ P U).reachable t ht).recorded
  have hseen := hrec.conserved.seen _ (hrec.conserved.mem_of_held (Conserved.held_pos_of_queued hq))
  have hsame := payload_kept hms hseen hbs hbs'
  subst hsame
  have he : e' = e := by
    rw [hd] at hd'
    exact (Option.some.inj hd').symm
  subst he
  refine ⟨rfl, ?_⟩
  have hhost := hlater.2.2.1
  rw [hfirst.2.2.1] at hhost
  exact (Option.some.inj hhost).symm

/-! ### A URL that is handed out twice -/

section Sample

/-- The URL was leased at 2 and reclaimed at 20. -/
def reclaimed : Fleet (List UrlId) :=
  oneShard.alone answered (oneClient, .tick 20) (oneShard.alone answered (oneClient, .claim 0 2) submitted)

/-- The server answers a claim. -/
def claimStep (S : Fleet (List UrlId)) (now : Int) :
    Service.Label (RedisClient × ClientCall) Trip Trip.Answer :=
  .call 0 ⟨0, .claim now 10⟩ (answered S ⟨0, .claim now 10⟩).1

/-- A claim is started, its trip is answered, and its caller takes the result. -/
theorem steps_claim (S : Fleet (List UrlId)) (now : Int) : ∃ S₁ S₂ tr,
    oneShard.pools.step ⟨S, []⟩ (.start (oneClient, .claim 0 now)) S₁ ∧
      oneShard.pools.step S₁ (claimStep S now) S₂ ∧
        oneShard.pools.Steps S₂ tr ⟨oneShard.alone answered (oneClient, .claim 0 now) S, []⟩ :=
  Service.steps_first exec_answered (starts_of (fun e he => by cases he) fun a h => by cases h) rfl

theorem hands_claimStep {S : Fleet (List UrlId)} {now : Int}
    (h : ((S.shards 0).claim now 10).2 = .claimed Wire.idA "a.test" (some (Wire.sample.encode .seedA))) :
    Hands .sample 0 Wire.idA "a.test" .seedA (claimStep S now) := by
  refine ⟨0, now, 10, _, ?_, parse_claimed ..⟩
  rw [← h]
  rfl

end Sample

/-- A URL that is claimed, reclaimed and claimed again. -/
theorem claimed_as_offered_reclaimed : IsSeed .seedA ∧
    Hands .sample 0 Wire.idA "a.test" .seedA (claimStep reclaimed 20) ∧
      ∀ h e, Hands .sample 0 Wire.idA h e (claimStep reclaimed 20) → e = .seedA ∧ h = "a.test" := by
  obtain ⟨S₁, S₂, tr, hstart, hst, hrest⟩ := steps_claim submitted 2
  obtain ⟨tr', htick⟩ := Service.steps_alone exec_answered
    (starts_of (S := oneShard.alone answered (oneClient, .claim 0 2) submitted) (c := .tick 20)
      (by decide) fun a h => by cases h)
  obtain ⟨R₁, R₂, -, hstart', hst', -⟩ := steps_claim reclaimed 20
  have hfirst := claimed_as_offered .sample .exact oneClient.policy IsSeed S₁ S₂ _
    (.step reachable_submitted hstart) hst 0 Wire.idA "a.test" .seedA
    (hands_claimStep (by decide +kernel))
  refine ⟨hfirst.1.1, hands_claimStep (by decide +kernel), fun h e hh => ?_⟩
  exact hfirst.2 _ R₁ _ R₂ h e ((hrest.append htick).append (.cons hstart' (.nil _))) hst' hh

end Fleet

end Crawlrs

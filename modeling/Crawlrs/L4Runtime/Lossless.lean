import Crawlrs.L3Frontier.Stranded
import Crawlrs.L4Runtime.Fleet

/-!
# What a fleet does not lose

The simulation of `Fleet` carries the invariants of one shard over to every run of any
number of clients, with answers lost and processes gone in the middle of a call.

* `fleet_refines_shards`: each shard of the fleet is in a state of its own `system`.
* `kept_until_received`: a URL whose payload is stored stays stored, in one place that
  the scheduler knows, until a client has received an attempt id for it.
* `one_place`: no two shards hold the same URL.
-/
namespace Crawlrs

variable {β : Type}

/-! ## Payloads -/

/-- What the effects of a step add up to. -/
theorem Eff.accumulate {B : Sketch UrlId β} {K : List (UrlId × Host) → Shard β → Prop}
    {Q : Eff → Prop} (hK : ∀ acc s e s', K acc s → Q e → Eff.Step B s e s' →
      K (acc ++ e.accepted?.toList) s') {s s' : Shard β} {es : List Eff}
    (h : (effects B).Steps s es s') : (∀ e ∈ es, Q e) → ∀ {acc : List (UrlId × Host)}, K acc s →
      K (acc ++ es.filterMap Eff.accepted?) s' := by
  induction h with
  | nil s =>
    intro _ acc hs
    simpa using hs
  | @cons s s₁ s₂ e es hst _ ih =>
    intro hes acc hs
    have h1 := hK acc s e s₁ hs (hes e List.mem_cons_self) hst
    have h2 := ih (fun e he => hes e (List.mem_cons_of_mem _ he)) h1
    have happ : acc ++ e.accepted?.toList ++ es.filterMap Eff.accepted? =
        acc ++ (e :: es).filterMap Eff.accepted? := by
      cases he : e.accepted? <;> simp [he]
    exact happ ▸ h2

/-- The payloads in the keyspace: those of accepted URLs, and all of these that no ack has reached. -/
structure Payloads (acked : UrlId → Prop) (acc : List (UrlId × Host)) (s : Shard β) : Prop where
  stored : ∀ p ∈ acc, ¬ acked p.1 → (s.urls p.1).isSome
  accepted : ∀ u, (s.urls u).isSome → ∃ h, (u, h) ∈ acc

namespace Payloads

variable {B : Sketch UrlId β} {acked acked' : UrlId → Prop} {acc : List (UrlId × Host)}
  {s s' : Shard β}

theorem mono (hp : Payloads acked acc s) (h : ∀ u, acked u → acked' u) : Payloads acked' acc s :=
  ⟨fun p hm hn => hp.stored p hm fun ha => hn (h _ ha), hp.accepted⟩

theorem eff {e : Eff} (hp : Payloads acked acc s) (hh : ∀ u, e = .hdel u → acked u)
    (hst : Eff.Step B s e s') : Payloads acked (acc ++ e.accepted?.toList) s' := by
  have silent : e.accepted? = none → s'.urls = s.urls →
      Payloads acked (acc ++ e.accepted?.toList) s' := by
    intro he hu
    rw [he, Option.toList_none, List.append_nil]
    exact ⟨hu ▸ hp.stored, hu ▸ hp.accepted⟩
  cases hst with
  | @accept u h payload now counted hu =>
    constructor
    · intro p hm hn
      by_cases hpu : p.1 = u
      · simp [Shard.accept, hpu]
      · have hm : p ∈ acc := by
          obtain hm | hm := List.mem_append.1 hm
          · exact hm
          · simp only [Eff.accepted?, Option.toList_some, List.mem_singleton] at hm
            exact absurd (hm ▸ rfl) hpu
        simpa [Shard.accept, hpu] using hp.stored p hm hn
    · intro v hv
      by_cases hvu : v = u
      · exact ⟨h, by simp [Eff.accepted?, hvu]⟩
      · obtain ⟨x, hx⟩ := hp.accepted v (by simpa [Shard.accept, hvu] using hv)
        exact ⟨x, List.mem_append_left _ hx⟩
  | @hdel u =>
    have he : (Eff.hdel u).accepted? = none := rfl
    rw [he, Option.toList_none, List.append_nil]
    constructor
    · intro p hm hn
      have hne : p.1 ≠ u := fun he => hn (he ▸ hh u rfl)
      simpa [Shard.ackHdel, hne] using hp.stored p hm hn
    · intro v hv
      by_cases hvu : v = u
      · simp [Shard.ackHdel, hvu] at hv
      · exact hp.accepted v (by simpa [Shard.ackHdel, hvu] using hv)
  | _ => exact silent rfl rfl

theorem step {E : Env β} {s s' : Sys β} {op : Op} (hp : Payloads s.Zremed s.accepted s.shard)
    (hst : s.step E op = some s') : Payloads s'.Zremed s'.accepted s'.shard := by
  obtain ⟨es, hsteps, hall, hacc⟩ := Sys.step_effs hst
  have hg := Sys.step_grows hst
  rw [hacc]
  refine Eff.accumulate (Q := op.Effect E s) (fun acc a e b ha he hab => ha.eff ?_ hab) hsteps hall
    (hp.mono fun u hu => hg.zremed_mono hu)
  rintro u rfl
  cases op with
  | ackHdel d =>
    obtain ⟨l, hl, hz, he⟩ := he
    cases he
    exact hg.zremed_mono ⟨d, hz, l, hl, rfl⟩
  | _ => simp [Op.Effect] at he

end Payloads

/-! ## The shards of a fleet -/

namespace Fleet

variable {E : Env β} {P : HostHashShardPolicy} {U : UrlEntry → Prop} {t t' : Staffed β}

/-- Accepted as an offered item of the shard. -/
def Offered (E : Env β) (P : HostHashShardPolicy) (U : UrlEntry → Prop) (p : UrlId × Host) : Prop :=
  ∃ it : Item, it.RoutedTo P U E.shard ∧ (E.idOf it, it.host) = p

theorem offered_of_step {s s' : Sys β} {op : Op} (hop : op.RoutedTo P U E.shard)
    (hst : s.step E op = some s') (hs : ∀ p ∈ s.accepted, Offered E P U p) :
    ∀ p ∈ s'.accepted, Offered E P U p := by
  obtain ⟨es, -, hall, hacc⟩ := Sys.step_effs hst
  intro p hp
  rw [hacc] at hp
  obtain hp | hp := List.mem_append.1 hp
  · exact hs p hp
  · obtain ⟨e, he, hep⟩ := List.mem_filterMap.1 hp
    have heff := hall e he
    cases e with
    | accept u h payload now counted =>
      cases hep
      cases op with
      | submit it now' =>
        cases heff
        exact ⟨it, hop, rfl⟩
      | submitBatch its now' =>
        obtain ⟨q, hq, heq⟩ := heff
        cases heq
        exact ⟨q.1, hop q hq, rfl⟩
      | _ => simp [Op.Effect] at heff
    | _ => cases hep

/-- The invariants of a shard and its workers. -/
structure Accounted (E : Env β) (P : HostHashShardPolicy) (U : UrlEntry → Prop) (t : Staffed β) :
    Prop where
  recorded : Recorded E t.sys
  scheduled : Scheduled t.sys.shard
  payloads : Payloads t.sys.Zremed t.sys.accepted t.sys.shard
  offered : ∀ p ∈ t.sys.accepted, Offered E P U p
  ticketed : ∀ u, t.sys.Zremed u → ∃ h, Ticket E ⟨u, h⟩ t.tickets

theorem accounted_inductive (E : Env β) (P : HostHashShardPolicy) (U : UrlEntry → Prop) :
    (shardRuns E P U).Inductive (Accounted E P U) where
  init := by
    rintro ⟨s, as⟩ ⟨⟨seen, hs⟩, -⟩
    have hs : s = .init seen := hs
    subst hs
    refine ⟨(recorded_inductive E).init _ ⟨seen, rfl⟩, (scheduled_inductive E).init _ ⟨seen, rfl⟩,
      ⟨?_, ?_⟩, ?_, ?_⟩
    · intro p hp
      cases hp
    · intro u hu
      simp [Sys.init, Shard.fresh] at hu
    · intro p hp
      cases hp
    · intro u hz
      obtain ⟨d, hd, -⟩ := hz
      cases hd
  step := by
    intro t m t' h hst
    cases hst with
    | @op op s' hroute hticket hst =>
      refine ⟨(recorded_inductive E).step _ _ _ h.recorded hst,
        (scheduled_inductive E).step _ _ _ h.scheduled hst, h.payloads.step hst,
        offered_of_step hroute hst h.offered, ?_⟩
      intro u hz
      obtain hz | ⟨d, l, rfl, hl, rfl⟩ := h.recorded.zremed_cases hst hz
      · exact h.ticketed u hz
      · obtain ⟨m, hm, htick⟩ := hticket
        rw [hl] at hm
        cases hm
        exact ⟨l.host, htick⟩
    | grant _ =>
      refine ⟨h.recorded, h.scheduled, h.payloads, h.offered, ?_⟩
      intro u hz
      obtain ⟨x, hx⟩ := h.ticketed u hz
      exact ⟨x, hx.mono (List.subset_append_left _ _)⟩

/-- The shard itself runs its own scripts, on items of its own. -/
theorem reachable_sys (ht : (shardRuns E P U).Reachable t) :
    ((system E).restrict fun _ op => op.RoutedTo P U E.shard).Reachable t.sys := by
  induction ht with
  | init h0 => exact .init h0.1
  | step _ hst ih =>
    cases hst with
    | op hroute _ hst => exact .step ih ⟨hroute, hst⟩
    | grant _ => exact ih

theorem accepted_prefix {m : Move} (h : ShardStep E P U t m t') : t.sys.accepted ⊆ t'.sys.accepted := by
  cases h with
  | op _ _ hst =>
    obtain ⟨es, -, -, hacc⟩ := Sys.step_effs hst
    rw [hacc]
    exact List.subset_append_left _ _
  | grant _ => exact List.Subset.refl _

/-! ## Every run of a fleet -/

variable {W : Wire} {B : Sketch UrlId β}

/-- **A fleet works on its shards as `system` says.** In every state of every run of any number
of clients, with lost answers and abandoned calls, each shard is in a state that its own scripts
lead to when they are given only the offered items whose host hashes to it; an attempt id in a
worker's hands is of a delivery that shard made. -/
theorem fleet_refines_shards (W : Wire) (B : Sketch UrlId β) (P : HostHashShardPolicy)
    (U : UrlEntry → Prop) (S : Pool (Fleet β) Trip Trip.Answer (Option String))
    (hS : (runs W B P U).Reachable S) (k : ShardKey) :
    ∃ s : Sys β, ((system ⟨W, B, k⟩).restrict fun _ op => op.RoutedTo P U k).Reachable s ∧
      s.shard = S.state.shards k ∧
      ∀ a ∈ S.state.tickets, ∀ u h, decodeAttempt a = .ok (k, u, h) →
        (⟨u, h⟩ : Lease) ∈ s.deliveries := by
  obtain ⟨t, ht, hsees, -⟩ := (shard_simulation ⟨W, B, k⟩ P U).reachable hS
  exact ⟨t.sys, reachable_sys ht, hsees.shard, hsees.delivered⟩

/-! ### A run in which an answer is lost -/

section Sample

/-- A client with the one shard there is. -/
def oneClient : RedisClient := ⟨.flat 1, 10, 10⟩

/-- The seeds there are. -/
def IsSeed (e : UrlEntry) : Prop := e ∈ [UrlEntry.seedA, .seedA', .seedB]

instance (e : UrlEntry) : Decidable (IsSeed e) := inferInstanceAs (Decidable (e ∈ _))

def oneShard : Service (Fleet (List UrlId)) (RedisClient × ClientCall) Trip Trip.Answer (Option String) :=
  service .sample .exact oneClient.policy IsSeed

/-- Every trip is answered. -/
def answered (S : Fleet (List UrlId)) (c : Trip) : c.Answer × Fleet (List UrlId) :=
  ((serve .sample .exact S.shards c).1, S.execute .sample .exact c)

/-- No trip is answered, and all are executed. -/
def unanswered (S : Fleet (List UrlId)) (c : Trip) : c.Answer × Fleet (List UrlId) :=
  (.error "timed out", S.execute .sample .exact c)

theorem exec_answered (S : Fleet (List UrlId)) (c : Trip) :
    oneShard.exec S c (answered S c).1 (answered S c).2 := .replied S c

theorem exec_unanswered (S : Fleet (List UrlId)) (c : Trip) :
    oneShard.exec S c (unanswered S c).1 (unanswered S c).2 := .lost S c "timed out"

/-- `https://a.test/` is submitted, and its host promoted. -/
def submitted : Fleet (List UrlId) :=
  oneShard.alone answered (oneClient, .tick 1)
    (oneShard.alone answered (oneClient, .submit 0 .seedA) ⟨fun _ => .fresh [], []⟩)

/-- A claim leases the URL and is not answered. -/
def unheard : Fleet (List UrlId) := oneShard.alone unanswered (oneClient, .claim 0 2) submitted

theorem starts_of {S : Fleet (List UrlId)} {c : ClientCall} (he : ∀ e ∈ c.entries, IsSeed e)
    (h : ∀ a, c ≠ .ack a) : oneShard.starts S (oneClient, c) :=
  ⟨rfl, he, fun a ha => absurd ha (h a)⟩

theorem reachable_submitted : oneShard.pools.Reachable ⟨submitted, []⟩ := by
  have h0 : oneShard.pools.Reachable ⟨⟨fun _ => .fresh [], []⟩, []⟩ :=
    .init ⟨⟨fun _ => ⟨[], rfl⟩, rfl⟩, rfl⟩
  obtain ⟨tr, h1⟩ := Service.steps_alone exec_answered (s := ⟨fun _ => .fresh [], []⟩)
    (starts_of (c := .submit 0 .seedA) (by decide) fun a h => by cases h)
  obtain ⟨tr', h2⟩ := Service.steps_alone exec_answered
    (starts_of (S := oneShard.alone answered (oneClient, .submit 0 .seedA) ⟨fun _ => .fresh [], []⟩)
      (c := .tick 1) (by decide) fun a h => by cases h)
  exact (h0.steps h1).steps h2

theorem steps_unheard : ∃ tr, oneShard.pools.Steps ⟨submitted, []⟩ tr ⟨unheard, []⟩ :=
  Service.steps_alone exec_unanswered (starts_of (by decide) fun a h => by cases h)

end Sample

/-- The refinement at a state in which a claim has leased a URL and nobody knows. -/
theorem fleet_refines_shards_unheard : ∃ s : Sys (List UrlId), (system .sample).Reachable s ∧
    s.shard.inflight.score? ⟨Wire.idA, "a.test"⟩ = some 12 := by
  obtain ⟨tr, htr⟩ := steps_unheard
  obtain ⟨s, hs, hshard, -⟩ := fleet_refines_shards .sample .exact oneClient.policy IsSeed
    ⟨unheard, []⟩ (reachable_submitted.steps htr) 0
  refine ⟨s, hs.of_restrict, ?_⟩
  rw [hshard]
  decide +kernel

/-- The payload is there, and one copy of the URL in one place: leased, or in the queue of a host
that the scheduler knows. -/
structure KeptIn (P : HostHashShardPolicy) (k : ShardKey) (u : UrlId) (h : Host) (s : Shard β) :
    Prop where
  payload : (s.urls u).isSome
  home : P.shardKeyFromHost h = k
  once : s.held u h = 1
  only : ∀ h', h' ≠ h → s.held u h' = 0
  scheduled : u ∈ s.hostQueue h → (s.wake.score? h).isSome ∨ h ∈ s.ready

theorem Accounted.kept (ha : Accounted E P U t) {u : UrlId} {h : Host}
    (hm : (u, h) ∈ t.sys.accepted) (hz : ¬ t.sys.Zremed u) : KeptIn P E.shard u h t.sys.shard := by
  have hc := ha.recorded.conserved
  obtain ⟨it, hroute, hit⟩ := ha.offered _ hm
  have hhost : it.host = h := congrArg Prod.snd hit
  refine ⟨ha.payloads.stored _ hm hz, hhost ▸ hroute.1, ?_, ?_, ?_⟩
  · rw [hc.eq u h hz]
    exact Nat.le_antisymm (hc.count_le_one _) (List.count_pos_iff.2 hm)
  · intro h' hne
    by_contra hpos
    exact hne (hc.host_unique (hc.mem_of_held (Nat.pos_of_ne_zero hpos)) hm)
  · intro hq
    exact ha.scheduled h (List.ne_nil_of_mem hq)

/-- **At least once, for a fleet.** From any state of any run on, a URL whose payload is stored
stays stored, in one place of its shard that the scheduler knows, until a client has received an
attempt id for it. Losing the answer of a claim, or the process that made it, changes nothing. -/
theorem kept_until_received (W : Wire) (B : Sketch UrlId β) (P : HostHashShardPolicy)
    (U : UrlEntry → Prop) (S S' : Pool (Fleet β) Trip Trip.Answer (Option String))
    (tr : List (Service.Label (RedisClient × ClientCall) Trip Trip.Answer))
    (hS : (runs W B P U).Reachable S) (hrun : (runs W B P U).Steps S tr S') (k : ShardKey)
    (u : UrlId) (hu : ((S.state.shards k).urls u).isSome) :
    (∃ a ∈ S'.state.tickets, ∃ h, decodeAttempt a = .ok (k, u, h)) ∨
      ∃ h, KeptIn P k u h (S'.state.shards k) := by
  have hsim := shard_simulation ⟨W, B, k⟩ P U
  obtain ⟨t, ht, hR⟩ := hsim.reachable hS
  obtain ⟨ms, t', hms, hR'⟩ := hsim.steps hrun hR
  have ha := (accounted_inductive _ P U).reachable t ht
  have ha' := (accounted_inductive _ P U).reachable t' (ht.steps hms)
  rw [← hR.1.shard] at hu
  obtain ⟨h, hm⟩ := ha.payloads.accepted u hu
  have hm' : (u, h) ∈ t'.sys.accepted :=
    hms.stable (P := fun t => (u, h) ∈ t.sys.accepted) (fun _ _ _ hp hst => accepted_prefix hst hp) hm
  by_cases hz : t'.sys.Zremed u
  · obtain ⟨x, a, hat, hd⟩ := ha'.ticketed u hz
    rw [hR'.1.tickets] at hat
    exact Or.inl ⟨a, hat, x, hd⟩
  · right
    refine ⟨h, ?_⟩
    rw [← hR'.1.shard]
    exact ha'.kept hm' hz

/-- The URL whose claim was not answered is still there. -/
theorem kept_until_received_unheard :
    unheard.tickets = [] ∧ ∃ h, KeptIn oneClient.policy 0 Wire.idA h (unheard.shards 0) := by
  obtain ⟨tr, htr⟩ := steps_unheard
  have hnone : unheard.tickets = [] := by decide +kernel
  obtain ⟨a, ha, -⟩ | hkept := kept_until_received .sample .exact oneClient.policy IsSeed
    ⟨submitted, []⟩ ⟨unheard, []⟩ tr reachable_submitted htr 0 Wire.idA (by decide +kernel)
  · simp [hnone] at ha
  · exact ⟨hnone, hkept⟩

/-- **One place.** If entries with the same id have the same host, then in every state of every run
of a fleet a URL is held at most once over all shards: by the shard its host hashes to, under that
host. -/
theorem one_place (W : Wire) (B : Sketch UrlId β) (P : HostHashShardPolicy) (U : UrlEntry → Prop)
    (hid : ∀ e e', U e → U e' → W.idOf e = W.idOf e' → e.url.host = e'.url.host)
    (S : Pool (Fleet β) Trip Trip.Answer (Option String)) (hS : (runs W B P U).Reachable S)
    (u : UrlId) (k k' : ShardKey) (h h' : Host) (hh : 0 < (S.state.shards k).held u h)
    (hh' : 0 < (S.state.shards k').held u h') :
    k = P.shardKeyFromHost h ∧ k' = k ∧ h' = h ∧ (S.state.shards k).held u h = 1 := by
  have hone : ∀ k h, 0 < (S.state.shards k).held u h → ∃ e, U e ∧ W.idOf e = u ∧
      e.url.host = some h ∧ P.shardKeyFromHost h = k ∧ (S.state.shards k).held u h = 1 := by
    intro k h hpos
    obtain ⟨t, ht, hR⟩ := (shard_simulation ⟨W, B, k⟩ P U).reachable hS
    have ha := (accounted_inductive _ P U).reachable t ht
    have hshard : t.sys.shard = S.state.shards k := hR.1.shard
    rw [← hshard] at hpos ⊢
    obtain ⟨it, hroute, hit⟩ := ha.offered _ (ha.recorded.conserved.mem_of_held hpos)
    obtain ⟨hidu, hhost⟩ := Prod.mk.injEq .. ▸ hit
    have hle := ha.recorded.conserved.held_le_one u h
    exact ⟨it.entry, hroute.2, hidu, hhost ▸ it.host_eq, hhost ▸ hroute.1, by omega⟩
  obtain ⟨e, hU, hidu, hhost, hk, h1⟩ := hone k h hh
  obtain ⟨e', hU', hidu', hhost', hk', -⟩ := hone k' h' hh'
  have hsame : h' = h := by
    have := hid e e' hU hU' (hidu.trans hidu'.symm)
    rw [hhost, hhost'] at this
    exact (Option.some.inj this).symm
  subst hsame
  exact ⟨hk.symm, hk'.symm.trans hk, rfl, h1⟩

/-- The leased URL is held once. -/
theorem one_place_unheard : (unheard.shards 0).held Wire.idA "a.test" = 1 := by
  obtain ⟨tr, htr⟩ := steps_unheard
  have hpos : 0 < (unheard.shards 0).held Wire.idA "a.test" := by decide +kernel
  refine (one_place .sample .exact oneClient.policy IsSeed ?_ ⟨unheard, []⟩
    (reachable_submitted.steps htr) Wire.idA 0 0 "a.test" "a.test" hpos hpos).2.2.2
  intro e e' he he'
  simp only [IsSeed, List.mem_cons, List.not_mem_nil, or_false] at he he'
  obtain rfl | rfl | rfl := he <;> obtain rfl | rfl | rfl := he' <;> decide

end Fleet

end Crawlrs

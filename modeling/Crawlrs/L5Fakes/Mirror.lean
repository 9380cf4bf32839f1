import Crawlrs.L4Runtime.Client
import Crawlrs.L5Fakes.Frontier

/-!
# One shard in Redis and in memory

`Mirrors W good r m` relates the keyspace `r` of a shard to its double `m`: key by key
they hold the same, the payloads encoded. `good` are the hosts of the shard. Its fields
say how the keys correspond and what the double keeps of its own: its wake-times are
small enough to be read back as plain integers, and a URL that is queued or leased has
its entry.

Every operation is matched by its counterpart (`Mirrors.accept`, `Mirrors.claim`,
`Mirrors.promote`, `Mirrors.reclaim`, `Mirrors.advanceWake`, `Mirrors.ack`). Where the
two differ, the condition under which they agree is a hypothesis.
-/
namespace Crawlrs

namespace Fakes

/-! ## Finite maps by their lookups -/

section Lookup

variable {α ν : Type} [DecidableEq α]

theorem lookup_insert_eq (s : AList fun _ : α => ν) (a b : α) (v : ν) :
    (s.insert a v).lookup b = if b = a then some v else s.lookup b := by
  by_cases h : b = a
  · subst h
    rw [if_pos rfl, AList.lookup_insert]
  · rw [if_neg h, AList.lookup_insert_ne h]

theorem lookup_erase_eq (s : AList fun _ : α => ν) (a b : α) :
    (s.erase a).lookup b = if b = a then none else s.lookup b := by
  by_cases h : b = a
  · subst h
    rw [if_pos rfl, AList.lookup_erase]
  · rw [if_neg h, AList.lookup_erase_ne h]

/-- What a map holds after an insertion is new, or was there. -/
theorem lookup_insert_cases {s : AList fun _ : α => ν} {a b : α} {v w : ν}
    (h : (s.insert a v).lookup b = some w) : (b = a ∧ w = v) ∨ s.lookup b = some w := by
  rw [lookup_insert_eq] at h
  split at h
  · rename_i hba
    cases h
    exact .inl ⟨hba, rfl⟩
  · exact .inr h

theorem lookup_of_erase {s : AList fun _ : α => ν} {a b : α} {w : ν}
    (h : (s.erase a).lookup b = some w) : s.lookup b = some w := by
  rw [lookup_erase_eq] at h
  split at h
  · cases h
  · exact h

theorem mem_entries_iff {s : AList fun _ : α => ν} {a : α} {v : ν} :
    (⟨a, v⟩ : Sigma fun _ : α => ν) ∈ s.entries ↔ s.lookup a = some v := by
  rw [← Option.mem_def, AList.mem_lookup_iff]

end Lookup

/-! ## The relation -/

/-- A time that a score's text gives back. -/
def Plain (t : Nat) : Prop := t < 2 ^ 52

theorem Plain.f64 {t : Nat} (h : Plain t) : f64 t = t := f64_exact (by unfold Plain at h; omega)

/-- The shard has one host. -/
def OneHost (good : Host → Prop) : Prop := ∀ x y, good x → good y → x = y

structure Mirrors (W : Wire) (good : Host → Prop) (r : Shard (List UrlId)) (m : ShardState) :
    Prop where
  seen : ∀ u, u ∈ r.seen ↔ u ∈ m.seen
  urls : ∀ u, r.urls u = (m.urls u).map W.encode
  hostQueue : ∀ h, r.hostQueue h = (m.hostQueue h).getD []
  hostCount : r.hostCount = m.hostCount
  wake : ∀ h, r.wake.score? h = (m.wake.lookup h).map Nat.cast
  ready : r.ready = m.ready
  inflight : ∀ l : Lease, r.inflight.score? l = (m.inflight.lookup l.urlId).bind fun slot =>
    if slot.host = l.host then some (slot.leaseExpiryMs : Int) else none
  queue_good : ∀ h, (m.hostQueue h).isSome → good h
  queue_stored : ∀ h, ∀ u ∈ (m.hostQueue h).getD [], (m.urls u).isSome
  wake_good : ∀ h t, m.wake.lookup h = some t → good h
  wake_plain : ∀ h t, m.wake.lookup h = some t → Plain t
  lease_good : ∀ u slot, m.inflight.lookup u = some slot → good slot.host
  lease_stored : ∀ u slot, m.inflight.lookup u = some slot → (m.urls u).isSome

theorem mirrors_fresh (W : Wire) (good : Host → Prop) : Mirrors W good (.fresh []) {} where
  seen := by simp [Shard.fresh]
  urls := by simp [Shard.fresh]
  hostQueue := by simp [Shard.fresh]
  hostCount := rfl
  wake := by simp [Shard.fresh]
  ready := rfl
  inflight := by simp [Shard.fresh]
  queue_good := by simp
  queue_stored := by simp
  wake_good := by simp
  wake_plain := by simp
  lease_good := by simp
  lease_stored := by simp

namespace Mirrors

variable {W : Wire} {good : Host → Prop} {r : Shard (List UrlId)} {m : ShardState}

/-! ## Key by key -/

/-- `RPUSH host_queue`. -/
theorem push (hm : Mirrors W good r m) {u : UrlId} {h : Host} (hu : (m.urls u).isSome) (hh : good h) :
    Mirrors W good { r with hostQueue := Function.update r.hostQueue h (r.hostQueue h ++ [u]) }
      (m.pushBack h u) := by
  refine { hm with
    hostQueue := fun x => ?_
    queue_good := fun x hx => ?_
    queue_stored := fun x v hv => ?_ }
  · by_cases hx : x = h
    · subst hx
      simp [ShardState.pushBack, hm.hostQueue]
    · simp [ShardState.pushBack, hx, hm.hostQueue]
  · by_cases hxh : x = h
    · rw [hxh]
      exact hh
    · refine hm.queue_good x ?_
      simpa [ShardState.pushBack, hxh] using hx
  · by_cases hxh : x = h
    · subst hxh
      have hor : v ∈ (m.hostQueue x).getD [] ∨ v = u := by
        simpa [ShardState.pushBack] using hv
      rcases hor with hold | rfl
      · exact hm.queue_stored x v hold
      · exact hu
    · refine hm.queue_stored x v ?_
      simpa [ShardState.pushBack, hxh] using hv

/-- `ZADD wake`. -/
theorem zadd (hm : Mirrors W good r m) {h : Host} (hh : good h) {t : Nat} (ht : Plain t) :
    Mirrors W good { r with wake := r.wake.zadd h t } { m with wake := m.wake.insert h t } := by
  refine { hm with
    wake := fun x => ?_
    wake_good := fun x t' hx => ?_
    wake_plain := fun x t' hx => ?_ }
  · rw [ZSet.score?_zadd, lookup_insert_eq, hm.wake]
    split
    · rfl
    · rfl
  · rcases lookup_insert_cases hx with ⟨rfl, -⟩ | hold
    · exact hh
    · exact hm.wake_good x t' hold
  · rcases lookup_insert_cases hx with ⟨-, rfl⟩ | hold
    · exact ht
    · exact hm.wake_plain x t' hold

/-- `ZADD wake NX`. -/
theorem zaddNX (hm : Mirrors W good r m) {h : Host} (hh : good h) {now : Nat} (hnow : Plain now) :
    Mirrors W good { r with wake := r.wake.zaddNX h (f64 now) } (m.wakeOrInsert h now) := by
  have hiff : (r.wake.score? h).isSome ↔ h ∈ m.wake := by
    rw [hm.wake, Option.isSome_map, AList.lookup_isSome]
  unfold ShardState.wakeOrInsert ZSet.zaddNX
  by_cases hin : h ∈ m.wake
  · rw [if_pos (hiff.2 hin), if_pos hin]
    exact hm
  · rw [if_neg (mt hiff.1 hin), if_neg hin, hnow.f64]
    exact hm.zadd hh hnow

/-- `ZREM wake`. -/
theorem zrem (hm : Mirrors W good r m) (h : Host) :
    Mirrors W good { r with wake := r.wake.zrem h } { m with wake := m.wake.erase h } := by
  refine { hm with
    wake := fun x => ?_
    wake_good := fun x t hx => hm.wake_good x t (lookup_of_erase hx)
    wake_plain := fun x t hx => hm.wake_plain x t (lookup_of_erase hx) }
  rw [ZSet.score?_zrem, lookup_erase_eq, hm.wake]
  split
  · rfl
  · rfl

/-- The list of ready hosts is a list of names. -/
theorem setReady (hm : Mirrors W good r m) (hosts : List Host) :
    Mirrors W good { r with ready := hosts } { m with ready := hosts } :=
  { hm with ready := rfl }

/-- `BF.ADD` and `HSET urls` of a new URL. -/
theorem store (hm : Mirrors W good r m) (e : UrlEntry) (u : UrlId) :
    Mirrors W good
      { r with
        seen := u :: r.seen
        urls := Function.update r.urls u (some (W.encode e)) }
      { m with
        seen := insert u m.seen
        urls := Function.update m.urls u (some e) } := by
  have hkept : ∀ {v : UrlId}, (m.urls v).isSome → (Function.update m.urls u (some e) v).isSome := by
    intro v hv
    by_cases hvu : v = u
    · subst hvu
      simp
    · simpa [hvu] using hv
  refine { hm with
    seen := fun v => ?_
    urls := fun v => ?_
    queue_stored := fun x v hv => hkept (hm.queue_stored x v hv)
    lease_stored := fun v slot hv => hkept (hm.lease_stored v slot hv) }
  · simp [hm.seen]
  · by_cases hv : v = u
    · subst hv
      simp
    · simp [hv, hm.urls]

/-- `INCR host_count`. -/
theorem incr (hm : Mirrors W good r m) (h : Host) :
    Mirrors W good { r with hostCount := Function.update r.hostCount h (r.hostCount h + 1) }
      { m with hostCount := Function.update m.hostCount h (m.hostCount h + 1) } :=
  { hm with hostCount := by rw [hm.hostCount] }

/-! ## Submitting -/

/-- A URL that is new to both. -/
theorem accept (hm : Mirrors W good r m) (e : UrlEntry) (u : UrlId) {h : Host} (hh : good h)
    {now : Nat} (hnow : Plain now) (counted : Bool) :
    Mirrors W good (r.accept .exact u h (W.encode e) now counted)
      ((if counted then { m with hostCount := Function.update m.hostCount h (m.hostCount h + 1) }
        else m).enqueue e u h now) := by
  cases counted with
  | true => exact (((hm.incr h).store e u).push (by simp) hh).zaddNX hh hnow
  | false => exact ((hm.store e u).push (by simp) hh).zaddNX hh hnow

theorem submit (hm : Mirrors W good r m) (e : UrlEntry) (u : UrlId) {h : Host} (hh : good h)
    {now : Nat} (hnow : Plain now) :
    (r.submit .exact u h (W.encode e) now).2 = (m.submit e u h now).2 ∧
      Mirrors W good (r.submit .exact u h (W.encode e) now).1 (m.submit e u h now).1 := by
  rw [Shard.submit_eq, ShardState.submit]
  by_cases hu : u ∈ m.seen
  · have hr : Sketch.exact.has r.seen u = true := by simp [Sketch.exact, hm.seen, hu]
    rw [if_pos hr, if_pos hu]
    exact ⟨rfl, hm⟩
  · have hr : ¬ Sketch.exact.has r.seen u = true := by simp [Sketch.exact, hm.seen, hu]
    rw [if_neg hr, if_neg hu]
    exact ⟨rfl, hm.accept e u hh hnow false⟩

/-- The loop body of a batch, under a quota that doubles hold. -/
theorem submitEntry (hm : Mirrors W good r m) (F : RedisFrontier) (e : UrlEntry) (u : UrlId) {h : Host}
    (hh : good h) {now : Nat} (hnow : Plain now)
    (hcap : ∀ c ∈ F.crawlScope.maxUrlsFor h, c.toNat ≤ 2 ^ 53) :
    Mirrors W good (Shard.submitItem .exact now r ⟨u, h, W.encode e, F.maxUrls h⟩).1
        (m.submitEntry (F.crawlScope.maxUrlsFor h) now e u h).1 ∧
      (Shard.submitItem .exact now r ⟨u, h, W.encode e, F.maxUrls h⟩).2 =
        (m.submitEntry (F.crawlScope.maxUrlsFor h) now e u h).2 := by
  have hseen : Sketch.exact.has r.seen u = true ↔ u ∈ m.seen := by simp [Sketch.exact, hm.seen]
  rw [Shard.submitItem_eq, ShardState.submitEntry]
  dsimp only
  rw [hm.hostCount]
  unfold RedisFrontier.maxUrls
  cases hc : F.crawlScope.maxUrlsFor h with
  | none =>
    have hneg : ¬ 0 ≤ f64 (-1) := by decide
    simp only [hneg, false_and, if_false, Option.any_none, Bool.false_eq_true, Option.isSome_none]
    by_cases hu : u ∈ m.seen
    · rw [if_pos (hseen.2 hu), if_pos hu]
      exact ⟨hm, rfl⟩
    · rw [if_neg (mt hseen.1 hu), if_neg hu]
      exact ⟨hm.accept e u hh hnow false, rfl⟩
  | some c =>
    have hle := hcap c hc
    have hfull : (0 ≤ f64 c.toNat ∧ f64 c.toNat ≤ f64 (m.hostCount h)) ↔ c.toNat ≤ m.hostCount h := by
      rw [and_iff_right (f64_nonneg (by omega)), ← not_lt, ← lt_leastDouble, leastDouble_exact hle, not_lt]
    have hpos : 0 ≤ f64 c.toNat := f64_nonneg (by omega)
    have hfit : c.toNat < 2 ^ 63 := by omega
    simp only [if_pos hfit, hfull, Option.any_some, decide_eq_true_eq, Option.isSome_some, if_true]
    by_cases hq : c.toNat ≤ m.hostCount h
    · rw [if_pos hq, if_pos hq]
      exact ⟨hm, rfl⟩
    · rw [if_neg hq, if_neg hq]
      by_cases hu : u ∈ m.seen
      · rw [if_pos (hseen.2 hu), if_pos hu]
        exact ⟨hm, rfl⟩
      · rw [if_neg (mt hseen.1 hu), if_neg hu, decide_eq_true hpos]
        exact ⟨hm.accept e u hh hnow true, rfl⟩

/-! ## Claiming -/

end Mirrors

namespace ShardState

variable {m : ShardState} {expiry : Nat}

/-- The loop stops at the first ready host with a queued URL. -/
theorem popLoop_found {pre rest : List Host} {h : Host} {u : UrlId} {q : List UrlId} {e : UrlEntry}
    (hpre : ∀ x ∈ pre, (m.hostQueue x).getD [] = []) (hq : m.hostQueue h = some (u :: q))
    (hu : m.urls u = some e) :
    popLoop expiry (pre ++ h :: rest) m = (lease { m with
      ready := rest
      hostQueue := Function.update m.hostQueue h (some q) } u h expiry, .found u e h) := by
  induction pre generalizing m with
  | nil => simp [popLoop, hq, hu]
  | cons x pre ih =>
    have hx := hpre x List.mem_cons_self
    have hrest := ih (m := { m with ready := pre ++ h :: rest })
      (fun y hy => hpre y (List.mem_cons_of_mem _ hy)) hq hu
    rw [List.cons_append, popLoop]
    cases hmx : m.hostQueue x with
    | none => exact hrest
    | some l =>
      cases l with
      | nil => exact hrest
      | cons v l => simp [hmx] at hx

/-- Some ready host has a queued URL. -/
def Claimable (m : ShardState) : Prop := ∃ h ∈ m.ready, (m.hostQueue h).getD [] ≠ []

theorem not_claimable (h : ∀ x ∈ m.ready, (m.hostQueue x).getD [] = []) : ¬ m.Claimable := by
  intro ⟨x, hx, hne⟩
  exact hne (h x hx)

/-- Every ready host was stale. -/
theorem popLoop_nothing : ∀ {ready : List Host}, (∀ x ∈ ready, (m.hostQueue x).getD [] = []) →
    popLoop expiry ready m = ({ m with ready := [] }, .nothing) := by
  intro ready
  induction ready generalizing m with
  | nil => intro _; rfl
  | cons x ready ih =>
    intro hall
    have hx := hall x List.mem_cons_self
    have hrest := ih (m := { m with ready := ready }) fun y hy => hall y (List.mem_cons_of_mem _ hy)
    rw [popLoop]
    cases hmx : m.hostQueue x with
    | none => exact hrest
    | some l =>
      cases l with
      | nil => exact hrest
      | cons v l => simp [hmx] at hx

end ShardState

/-- How a claim of a shard ends on both sides: with the same URL, or with nothing, where Redis looks
for a hint. -/
inductive Claimed (W : Wire) (good : Host → Prop) (m : ShardState) :
    Shard (List UrlId) × Shard.ClaimReply → ShardState × ShardState.Popped → Prop
  | found {r : Shard (List UrlId)} {m' : ShardState} {u : UrlId} {e : UrlEntry} {h : Host} :
      good h → Mirrors W good r m' →
      Claimed W good m (r, .claimed u h (some (W.encode e))) (m', .found u e h)
  | hint {r : Shard (List UrlId)} {h : Host} {t : Nat} :
      ¬ m.Claimable → m.wake.lookup h = some t → Plain t → Mirrors W good r { m with ready := [] } →
      Claimed W good m (r, .emptyHint t) ({ m with ready := [] }, .nothing)
  | empty {r : Shard (List UrlId)} :
      ¬ m.Claimable → (∀ h, m.wake.lookup h = none) → Mirrors W good r { m with ready := [] } →
      Claimed W good m (r, .empty) ({ m with ready := [] }, .nothing)

namespace Mirrors

variable {W : Wire} {good : Host → Prop} {r : Shard (List UrlId)} {m : ShardState}

/-- The map is keyed by the URL alone; the slot it replaces is of the same host. -/
theorem inflight_insert (hm : Mirrors W good r m) (hone : OneHost good) {h : Host} (hh : good h)
    (u : UrlId) (t : Nat) (l : Lease) : (r.inflight.zadd ⟨u, h⟩ t).score? l =
      ((m.inflight.insert u ⟨h, t⟩).lookup l.urlId).bind fun slot =>
        if slot.host = l.host then some (slot.leaseExpiryMs : Int) else none := by
  have hl : l = ⟨u, h⟩ ↔ l.urlId = u ∧ l.host = h := by
    cases l
    simp
  simp only [ZSet.score?_zadd, lookup_insert_eq, hm.inflight, hl]
  by_cases hlu : l.urlId = u
  · by_cases hlh : l.host = h
    · simp [hlu, hlh]
    · have hother : ∀ slot, m.inflight.lookup l.urlId = some slot → slot.host ≠ l.host := by
        intro slot hs
        rw [hone _ _ (hm.lease_good _ slot hs) hh]
        exact Ne.symm hlh
      simpa [hlu, hlh, Ne.symm hlh] using hother
  · simp [hlu]

/-- The lease and the safety wake-time of a claim. -/
theorem take (hm : Mirrors W good r m) (hone : OneHost good) {u : UrlId} {h : Host} {q : List UrlId}
    {rest : List Host} (hq : m.hostQueue h = some (u :: q)) {t : Nat} (ht : Plain t) :
    Mirrors W good (r.take u h rest q t)
      (ShardState.lease { m with
        ready := rest
        hostQueue := Function.update m.hostQueue h (some q) } u h t) := by
  have hh : good h := hm.queue_good h (by simp [hq])
  have hu : (m.urls u).isSome := hm.queue_stored h u (by simp [hq])
  have hbase := (hm.zadd hh ht).setReady rest
  refine { hbase with
    hostQueue := fun x => ?_
    inflight := fun l => ?_
    queue_good := fun x hx => ?_
    queue_stored := fun x v hv => ?_
    lease_good := fun v slot hv => ?_
    lease_stored := fun v slot hv => ?_ }
  · by_cases hx : x = h
    · subst hx
      simp [Shard.take, ShardState.lease]
    · simp [Shard.take, ShardState.lease, hx, hm.hostQueue]
  · exact hm.inflight_insert hone hh u t l
  · by_cases hxh : x = h
    · rw [hxh]
      exact hh
    · refine hm.queue_good x ?_
      simpa [ShardState.lease, hxh] using hx
  · by_cases hxh : x = h
    · subst hxh
      have hv : v ∈ q := by simpa [ShardState.lease] using hv
      exact hm.queue_stored x v (by simp [hq, hv])
    · refine hm.queue_stored x v ?_
      simpa [ShardState.lease, hxh] using hv
  · rcases lookup_insert_cases hv with ⟨-, rfl⟩ | hold
    · exact hh
    · exact hm.lease_good v slot hold
  · rcases lookup_insert_cases hv with ⟨rfl, -⟩ | hold
    · exact hu
    · exact hm.lease_stored v slot hold

theorem claim (hm : Mirrors W good r m) (hone : OneHost good) {now leaseMs : Nat}
    (ht : Plain (now + leaseMs)) :
    Claimed W good m (r.claim now leaseMs) (m.popOneReady now leaseMs) := by
  have hexp : Shard.expiryOf now leaseMs = ((now + leaseMs : Nat) : Int) := by
    unfold Plain at ht
    have h1 : f64 now = now := f64_exact (by omega)
    have h2 : f64 leaseMs = leaseMs := f64_exact (by omega)
    rw [Shard.expiryOf, h1, h2]
    exact f64_exact (by omega)
  have hmin : min (now + leaseMs) maxMs = now + leaseMs := by
    unfold Plain at ht
    simp only [maxMs]
    omega
  have hc := Shard.claim_cases r now leaseMs
  unfold ShardState.popOneReady
  rw [hmin]
  generalize hres : r.claim now leaseMs = res at hc ⊢
  have hempty : ∀ x, r.hostQueue x = [] → (m.hostQueue x).getD [] = [] := by
    intro x hx
    rw [← hm.hostQueue, hx]
  cases hc with
  | @claimed pre rest h u q hr hpre hq =>
    obtain ⟨e, he⟩ : ∃ e, m.urls u = some e := Option.isSome_iff_exists.1
      (hm.queue_stored h u (by rw [← hm.hostQueue, hq]; simp))
    have hq' : m.hostQueue h = some (u :: q) := by
      have := hm.hostQueue h
      rw [hq] at this
      cases hmq : m.hostQueue h with
      | none => simp [hmq] at this
      | some q' => simpa [hmq] using this.symm
    rw [← hm.ready, hr, ShardState.popLoop_found (fun x hx => hempty x (hpre x hx)) hq' he, hexp,
      hm.urls, he]
    exact .found (hm.queue_good h (by simp [hq'])) (hm.take hone hq' ht)
  | @hint h t hall hf =>
    have hall' : ∀ x ∈ m.ready, (m.hostQueue x).getD [] = [] := fun x hx =>
      hempty x (hall x (hm.ready ▸ hx))
    rw [ShardState.popLoop_nothing hall']
    have hscore : r.wake.score? h = some t :=
      ZSet.score?_eq_some.2 (List.mem_of_mem_head? hf)
    rw [hm.wake] at hscore
    obtain ⟨n, hn, rfl⟩ := Option.map_eq_some_iff.1 hscore
    exact .hint (ShardState.not_claimable hall') hn (hm.wake_plain h n hn) (hm.setReady [])
  | empty hall hf =>
    have hall' : ∀ x ∈ m.ready, (m.hostQueue x).getD [] = [] := fun x hx =>
      hempty x (hall x (hm.ready ▸ hx))
    rw [ShardState.popLoop_nothing hall']
    refine .empty (ShardState.not_claimable hall') (fun h => ?_) (hm.setReady [])
    have hnone : r.wake.score? h = none := by
      have hnil : r.wake.entries = [] := List.head?_eq_none_iff.1 hf
      simp [ZSet.score?, hnil]
    rw [hm.wake, Option.map_eq_none_iff] at hnone
    exact hnone

/-! ## Scheduling -/

theorem promoteOne (hm : Mirrors W good r m) (h : Host) :
    Mirrors W good (r.promoteOne h) (m.promoteOne h) :=
  { hm.zrem h with ready := by simp [Shard.promoteOne, ShardState.promoteOne, hm.ready] }

theorem promote_fold (hosts : List Host) : ∀ {r : Shard (List UrlId)} {m : ShardState},
    Mirrors W good r m →
      Mirrors W good (hosts.foldl Shard.promoteOne r) (hosts.foldl ShardState.promoteOne m) := by
  induction hosts with
  | nil => intro r m hm; exact hm
  | cons h hosts ih => intro r m hm; exact ih (hm.promoteOne h)

/-- The hosts of one shard that are due, on both sides: at most the one host. -/
theorem promoted_eq (hm : Mirrors W good r m) (hone : OneHost good) {now limit : Nat}
    (hnow : Plain now) (hlimit : r.wake.zcard ≤ limit)
    (hready : ∀ h ∈ m.ready, ∀ t, m.wake.lookup h = some t → now < t) (order : IterOrder) :
    r.wake.zrangebyscore 0 (f64 now) limit = order.hosts (m.due now) := by
  have hmem : ∀ h, h ∈ r.wake.zrangebyscore 0 (f64 now) limit ↔ h ∈ order.hosts (m.due now) := by
    intro h
    rw [(order.perm_hosts _).mem_iff, hnow.f64]
    constructor
    · intro hin
      obtain ⟨x, hx, -, hle⟩ := ZSet.score?_of_mem_zrangebyscore hin
      rw [hm.wake] at hx
      obtain ⟨t, ht, rfl⟩ := Option.map_eq_some_iff.1 hx
      have hle : t ≤ now := by exact_mod_cast hle
      refine List.mem_map.2 ⟨⟨h, t⟩, List.mem_filter.2 ⟨mem_entries_iff.2 ht, ?_⟩, rfl⟩
      have hnot : h ∉ m.ready := fun hr => absurd (hready h hr t ht) (by omega)
      simp [hle, hnot]
    · intro hin
      obtain ⟨⟨x, t⟩, hf, rfl⟩ := List.mem_map.1 hin
      obtain ⟨he, hc⟩ := List.mem_filter.1 hf
      have ht : m.wake.lookup x = some t := mem_entries_iff.1 he
      have hle : t ≤ now := (of_decide_eq_true hc).1
      have hscore : r.wake.score? x = some (t : Int) := by rw [hm.wake, ht]; rfl
      exact ZSet.mem_zrangebyscore hlimit hscore (by omega) (by exact_mod_cast hle)
  have hgood : ∀ h ∈ r.wake.zrangebyscore 0 (f64 now) limit, good h := by
    intro h hin
    obtain ⟨x, hx, -⟩ := ZSet.score?_of_mem_zrangebyscore hin
    rw [hm.wake] at hx
    obtain ⟨t, ht, -⟩ := Option.map_eq_some_iff.1 hx
    exact hm.wake_good h t ht
  have hnd : (order.hosts (m.due now)).Nodup := by
    rw [(order.perm_hosts _).nodup_iff]
    exact (List.Sublist.map _ List.filter_sublist).nodup m.wake.nodupKeys
  have hperm := (List.perm_ext_iff_of_nodup (ZSet.nodup_zrangebyscore _ _ _ _) hnd).2 hmem
  -- any order sorts a list of one host
  have hany : ∀ hosts : List Host, hosts.Pairwise fun _ _ => True := fun hosts =>
    List.pairwise_of_forall fun _ _ => trivial
  exact hperm.eq_of_pairwise
    (fun a b ha hb _ _ => hone a b (hgood a ha) (hgood b ((hmem b).2 hb))) (hany _) (hany _)

theorem promote (hm : Mirrors W good r m) (hone : OneHost good) {now limit : Nat} (hnow : Plain now)
    (hlimit : r.wake.zcard ≤ limit)
    (hready : ∀ h ∈ m.ready, ∀ t, m.wake.lookup h = some t → now < t) (order : IterOrder) :
    (r.promote now limit).2 = (order.hosts (m.due now)).length ∧
      Mirrors W good (r.promote now limit).1 ((order.hosts (m.due now)).foldl .promoteOne m) := by
  unfold Shard.promote
  rw [hm.promoted_eq hone hnow hlimit hready order]
  exact ⟨rfl, promote_fold _ hm⟩

/-- An expired lease goes back to its queue. -/
theorem reclaimOne (hm : Mirrors W good r m) {l : Lease} {slot : InflightSlot} {now : Nat}
    (hs : m.inflight.lookup l.urlId = some slot) (hl : slot.host = l.host) (hnow : Plain now) :
    Mirrors W good (r.requeue l now) (m.reclaimOne now l.urlId) := by
  have hh : good slot.host := hm.lease_good _ slot hs
  have hbase : Mirrors W good { r with inflight := r.inflight.zrem l }
      { m with inflight := m.inflight.erase l.urlId } := by
    refine { hm with
      inflight := fun l' => ?_
      lease_good := fun v slot hv => hm.lease_good v slot (lookup_of_erase hv)
      lease_stored := fun v slot hv => hm.lease_stored v slot (lookup_of_erase hv) }
    rw [ZSet.score?_zrem, lookup_erase_eq, hm.inflight]
    by_cases hu : l'.urlId = l.urlId
    · rw [if_pos hu, hu, hs]
      by_cases hl' : l' = l
      · simp [hl']
      · have hne : slot.host ≠ l'.host := by
          intro he
          refine hl' ?_
          cases l'
          cases l
          simp_all
        simp [hl', hne]
    · have hl' : l' ≠ l := fun he => hu (by rw [he])
      simp [hl', hu]
  rw [hl] at hh
  unfold ShardState.reclaimOne Shard.requeue
  rw [hs]
  dsimp only
  rw [hl]
  exact (hbase.push (hm.lease_stored _ slot hs) hh).zaddNX hh hnow

theorem reclaim_fold {now : Nat} (hnow : Plain now) (ls : List Lease) (hnd : ls.Nodup) :
    ∀ {r : Shard (List UrlId)} {m : ShardState}, Mirrors W good r m →
      (∀ l ∈ ls, (r.inflight.score? l).isSome) →
      Mirrors W good (ls.foldl (Shard.reclaimOne now) r)
        ((ls.map Lease.urlId).foldl (.reclaimOne now) m) := by
  induction ls with
  | nil => intro r m hm _; exact hm
  | cons l ls ih =>
    intro r m hm hin
    obtain ⟨hl, hnd⟩ := List.nodup_cons.1 hnd
    have hsome := hin l List.mem_cons_self
    rw [hm.inflight, Option.isSome_iff_exists] at hsome
    obtain ⟨x, hx⟩ := hsome
    obtain ⟨slot, hs, hslot⟩ := Option.bind_eq_some_iff.1 hx
    have hhost : slot.host = l.host := by
      by_contra hne
      simp [hne] at hslot
    rw [List.foldl_cons, List.map_cons, List.foldl_cons, Shard.reclaimOne_eq]
    refine ih hnd (hm.reclaimOne hs hhost hnow) fun l' hl' => ?_
    have hne : l' ≠ l := fun he => hl (he ▸ hl')
    simpa [Shard.requeue, ZSet.score?_zrem, hne] using hin l' (List.mem_cons_of_mem _ hl')

/-- The leases come back in the server's order if the map yields them so. -/
theorem reclaim (hm : Mirrors W good r m) {now limit : Nat} (hnow : Plain now) {order : IterOrder}
    (horder : order.leases (m.expired now) =
      (r.inflight.zrangebyscore 0 (f64 now) limit).map Lease.urlId) :
    (r.reclaim now limit).2 = (order.leases (m.expired now)).length ∧
      Mirrors W good (r.reclaim now limit).1
        ((order.leases (m.expired now)).foldl (.reclaimOne now) m) := by
  rw [horder]
  refine ⟨?_, reclaim_fold hnow _ (ZSet.nodup_zrangebyscore _ _ _ _) hm fun l hl => ?_⟩
  · simp [Shard.reclaim]
  · obtain ⟨x, hx, -⟩ := ZSet.score?_of_mem_zrangebyscore hl
    simp [hx]

/-- A tick: promoting leaves the leases alone. -/
theorem tick (hm : Mirrors W good r m) (hone : OneHost good) {F : RedisClient} {order : IterOrder}
    {now : Nat} (hnow : Plain now) (hlimit : r.wake.zcard ≤ F.tickBatchLimit)
    (hready : ∀ h ∈ m.ready, ∀ t ∈ m.wake.lookup h, now < t)
    (horder : order.leases (m.expired now) =
      (r.inflight.zrangebyscore 0 (f64 now) F.tickBatchLimit).map Lease.urlId) :
    (F.tickShard now r).2 = (m.tick order now).2 ∧
      Mirrors W good (F.tickShard now r).1 (m.tick order now).1 := by
  obtain ⟨hcount, hpromoted⟩ := hm.promote hone hnow hlimit hready order
  have hr : (r.promote now F.tickBatchLimit).1.inflight = r.inflight := by
    unfold Shard.promote
    exact List.foldlRecOn (motive := fun s : Shard (List UrlId) => s.inflight = r.inflight) _ _ rfl
      fun s hs _ _ => hs
  have hmem : ((order.hosts (m.due now)).foldl ShardState.promoteOne m).inflight = m.inflight :=
    List.foldlRecOn (motive := fun s : ShardState => s.inflight = m.inflight) _ _ rfl
      fun s hs _ _ => hs
  have hexpired : ((order.hosts (m.due now)).foldl ShardState.promoteOne m).expired now =
      m.expired now := by
    simp only [ShardState.expired, hmem]
  rw [← hexpired, ← hr] at horder
  obtain ⟨hcount', hreclaimed⟩ := hpromoted.reclaim hnow horder
  refine ⟨?_, hreclaimed⟩
  simp only [RedisClient.tickShard, ShardState.tick, hcount, hcount']

theorem advanceWake (hm : Mirrors W good r m) {h : Host}
    (hknown : (m.hostQueue h).isSome ∨ h ∈ m.wake) {t : Nat} (ht : Plain t) :
    Mirrors W good (r.advanceWake h t) (m.advanceWake h t) := by
  have hh : good h := by
    rcases hknown with hq | hw
    · exact hm.queue_good h hq
    · obtain ⟨t', ht'⟩ := Option.isSome_iff_exists.1 (AList.lookup_isSome.2 hw)
      exact hm.wake_good h t' ht'
  have hset := (hm.zadd hh ht).setReady (r.ready.filter (· ≠ h))
  unfold ShardState.advanceWake Shard.advanceWake
  rw [if_pos hknown, ht.f64, ← hm.ready]
  exact hset

/-- An ack of a URL that is not queued. -/
theorem ack (hm : Mirrors W good r m) (hone : OneHost good) {u : UrlId} {h : Host} (hh : good h)
    (hq : ∀ x, u ∉ (m.hostQueue x).getD []) :
    Mirrors W good ((r.ackZrem ⟨u, h⟩).ackHdel u) (m.ack u) := by
  have hold : ∀ {v : UrlId} {slot : InflightSlot}, (m.inflight.erase u).lookup v = some slot →
      v ≠ u ∧ m.inflight.lookup v = some slot := by
    intro v slot hv
    rw [lookup_erase_eq] at hv
    split at hv
    · cases hv
    · rename_i hne
      exact ⟨hne, hv⟩
  refine { hm with
    urls := fun v => ?_
    inflight := fun l => ?_
    queue_stored := fun x v hv => ?_
    lease_good := fun v slot hv => hm.lease_good v slot (hold hv).2
    lease_stored := fun v slot hv => ?_ }
  · by_cases hv : v = u
    · subst hv
      simp [Shard.ackHdel, ShardState.ack]
    · simp [Shard.ackHdel, Shard.ackZrem, ShardState.ack, hv, hm.urls]
  · simp only [Shard.ackHdel, Shard.ackZrem, ShardState.ack, ZSet.score?_zrem, lookup_erase_eq,
      hm.inflight]
    by_cases hu : l.urlId = u
    · rw [if_pos hu]
      split
      · rfl
      · -- the only slot of the URL is of the one host
        rename_i hl
        rw [Option.bind_eq_none_iff.2]
        · rfl
        · intro slot hs
          have hsame := hone _ _ (hm.lease_good _ slot hs) hh
          have hne : slot.host ≠ l.host := by
            intro he
            refine hl ?_
            cases l
            simp_all
          rw [if_neg hne]
    · have hl : l ≠ ⟨u, h⟩ := fun he => hu (by rw [he])
      rw [if_neg hl, if_neg hu]
  · have hne : v ≠ u := fun he => hq x (he ▸ hv)
    simpa [ShardState.ack, hne] using hm.queue_stored x v hv
  · simpa [ShardState.ack, (hold hv).1] using hm.lease_stored v slot (hold hv).2

end Mirrors

end Fakes

end Crawlrs

import Crawlrs.Core.LTS
import Crawlrs.L5Fakes.Mirror

/-!
# Moves of an in-memory shard

A call changes a shard by a few elementary moves (`Move`), as the scripts of the
Redis frontier do. `Placed` and `Parked` are kept move by move, and what a claim or
a tick does to a shard is a run of moves (`pop_moves`, `tick_moves`).
-/
namespace Crawlrs

namespace Fakes

open ShardState (Popped)

/-- What a call can do to a shard. -/
inductive Move
  | enqueue (e : UrlEntry) (u : UrlId) (h : Host) (now : Nat)
  | stale (h : Host)
  | found (u : UrlId) (h : Host) (expiry : Nat)
  | missing (u : UrlId) (h : Host)
  | promote (h : Host) (now : Nat)
  | reclaim (u : UrlId) (now : Nat)
  | advance (h : Host) (untilMs : Nat)
  | ack (u : UrlId)

namespace ShardState

/-- `home` are the hosts of the shard. -/
inductive MoveStep (home : Host → Prop) : ShardState → Move → ShardState → Prop
  | enqueue {s : ShardState} {e : UrlEntry} {u : UrlId} {h : Host} {now : Nat} (counts : Host → Nat) :
      u ∉ s.seen → e.url.host = some h → home h →
      MoveStep home s (.enqueue e u h now) ({ s with hostCount := counts }.enqueue e u h now)
  | stale {s : ShardState} {h : Host} {rest : List Host} : s.ready = h :: rest →
      MoveStep home s (.stale h) { s with ready := rest }
  | found {s : ShardState} {u : UrlId} {h : Host} {rest : List Host} {q : List UrlId} {expiry : Nat} :
      s.ready = h :: rest → s.hostQueue h = some (u :: q) →
      MoveStep home s (.found u h expiry) (lease { s with
        ready := rest, hostQueue := Function.update s.hostQueue h (some q) } u h expiry)
  | missing {s : ShardState} {u : UrlId} {h : Host} {rest : List Host} {q : List UrlId} :
      s.ready = h :: rest → s.hostQueue h = some (u :: q) →
      MoveStep home s (.missing u h) { s with
        ready := rest, hostQueue := Function.update s.hostQueue h (some q) }
  | promote {s : ShardState} {h : Host} {now t : Nat} : s.wake.lookup h = some t → t ≤ now →
      h ∉ s.ready → MoveStep home s (.promote h now) (s.promoteOne h)
  | reclaim {s : ShardState} {u : UrlId} {now : Nat} :
      MoveStep home s (.reclaim u now) (s.reclaimOne now u)
  | advance {s : ShardState} {h : Host} {untilMs : Nat} :
      MoveStep home s (.advance h untilMs) (s.advanceWake h untilMs)
  | ack {s : ShardState} {u : UrlId} : MoveStep home s (.ack u) (s.ack u)

def moves (home : Host → Prop) : LTS ShardState Move where
  init s := s = {}
  step := MoveStep home

/-! ## What a shard holds -/

/-- No host is ready twice, all hosts are the shard's own, and an id that is queued or leased under a
host has its entry there. -/
structure Placed (home : Host → Prop) (s : ShardState) : Prop where
  ready_nodup : s.ready.Nodup
  ready_home : ∀ h ∈ s.ready, home h
  wake_home : ∀ h t, s.wake.lookup h = some t → home h
  queue_home : ∀ h, (s.hostQueue h).isSome → home h
  lease_home : ∀ u slot, s.inflight.lookup u = some slot → home slot.host
  stored : ∀ u e, s.urls u = some e → u ∈ s.seen
  queued : ∀ h, ∀ u ∈ (s.hostQueue h).getD [], u ∈ s.seen ∧
    ∀ e, s.urls u = some e → e.url.host = some h
  leased : ∀ u slot, s.inflight.lookup u = some slot → u ∈ s.seen ∧
    ∀ e, s.urls u = some e → e.url.host = some slot.host

/-- The host waits for `expiry`. -/
structure Parked (h : Host) (expiry : Nat) (s : ShardState) : Prop where
  unready : h ∉ s.ready
  wake : s.wake.lookup h = some expiry

end ShardState

/-- The move leaves a host parked until `expiry` alone. -/
def Move.Spares (h : Host) (expiry : Nat) : Move → Prop
  | .promote _ now => now < expiry
  | .advance h' _ => h' ≠ h
  | _ => True

namespace ShardState

variable {home : Host → Prop} {s s' : ShardState} {h : Host} {expiry : Nat}

theorem placed_empty (home : Host → Prop) : Placed home {} where
  ready_nodup := List.nodup_nil
  ready_home := by simp
  wake_home := by simp
  queue_home := by simp
  lease_home := by simp
  stored := by simp
  queued := by simp
  leased := by simp

theorem lookup_wakeOrInsert (s : ShardState) (h x : Host) (now : Nat) :
    (s.wakeOrInsert h now).wake.lookup x =
      if x = h ∧ s.wake.lookup h = none then some now else s.wake.lookup x := by
  unfold wakeOrInsert
  by_cases hm : h ∈ s.wake
  · have hsome : s.wake.lookup h ≠ none := by
      rw [Ne, AList.lookup_eq_none]
      exact fun hn => hn hm
    simp [hm, hsome]
  · have hnone : s.wake.lookup h = none := AList.lookup_eq_none.2 hm
    simp [hm, hnone, lookup_insert_eq]

@[simp] theorem wakeOrInsert_ready (s : ShardState) (h : Host) (now : Nat) :
    (s.wakeOrInsert h now).ready = s.ready := by
  unfold wakeOrInsert
  split <;> rfl

@[simp] theorem wakeOrInsert_hostQueue (s : ShardState) (h : Host) (now : Nat) :
    (s.wakeOrInsert h now).hostQueue = s.hostQueue := by
  unfold wakeOrInsert
  split <;> rfl

@[simp] theorem wakeOrInsert_urls (s : ShardState) (h : Host) (now : Nat) :
    (s.wakeOrInsert h now).urls = s.urls := by
  unfold wakeOrInsert
  split <;> rfl

@[simp] theorem wakeOrInsert_seen (s : ShardState) (h : Host) (now : Nat) :
    (s.wakeOrInsert h now).seen = s.seen := by
  unfold wakeOrInsert
  split <;> rfl

@[simp] theorem wakeOrInsert_inflight (s : ShardState) (h : Host) (now : Nat) :
    (s.wakeOrInsert h now).inflight = s.inflight := by
  unfold wakeOrInsert
  split <;> rfl

/-- The wake-times after `entry(host).or_insert(now)`, on the shard's own host. -/
theorem wake_home_wakeOrInsert (hw : ∀ x t, s.wake.lookup x = some t → home x) (hh : home h) (now : Nat) :
    ∀ x t, (s.wakeOrInsert h now).wake.lookup x = some t → home x := by
  intro x t hx
  rw [lookup_wakeOrInsert] at hx
  split at hx
  · rename_i hc
    rw [hc.1]
    exact hh
  · exact hw x t hx

/-! ## Parked hosts -/

theorem Parked.congr (hp : Parked h expiry s) (hr : s'.ready = s.ready) (hw : s'.wake = s.wake) :
    Parked h expiry s' :=
  ⟨by rw [hr]; exact hp.unready, by rw [hw]; exact hp.wake⟩

theorem parked_wakeOrInsert (hp : Parked h expiry s) (x : Host) (now : Nat) :
    Parked h expiry (s.wakeOrInsert x now) := by
  refine ⟨by simpa using hp.unready, ?_⟩
  rw [lookup_wakeOrInsert, if_neg, hp.wake]
  rintro ⟨rfl, hn⟩
  rw [hp.wake] at hn
  cases hn

/-- A parked host stays so while the moves spare it. -/
theorem parked_step {m : Move} (hp : Parked h expiry s) (hm : m.Spares h expiry)
    (hst : MoveStep home s m s') : Parked h expiry s' := by
  cases hst with
  | enqueue counts _ _ _ =>
    apply parked_wakeOrInsert
    exact hp.congr rfl rfl
  | stale hr =>
    refine ⟨fun hin => hp.unready ?_, hp.wake⟩
    rw [hr]
    exact List.mem_cons_of_mem _ hin
  | @found _ x rest _ x' hr _ =>
    have hne : h ≠ x := by
      rintro rfl
      exact hp.unready (hr ▸ List.mem_cons_self)
    refine ⟨fun hin => hp.unready (hr ▸ List.mem_cons_of_mem _ hin), ?_⟩
    show (s.wake.insert x x').lookup h = some expiry
    rw [lookup_insert_eq, if_neg hne, hp.wake]
  | missing hr _ => exact ⟨fun hin => hp.unready (hr ▸ List.mem_cons_of_mem _ hin), hp.wake⟩
  | @promote x now t hw ht _ =>
    have hne : h ≠ x := by
      rintro rfl
      rw [hp.wake] at hw
      cases hw
      exact absurd ht (Nat.not_le.2 hm)
    refine ⟨?_, ?_⟩
    · show h ∉ s.ready ++ [x]
      simp [hp.unready, hne]
    · show (s.wake.erase x).lookup h = some expiry
      rw [lookup_erase_eq, if_neg hne, hp.wake]
  | @reclaim u now =>
    unfold reclaimOne
    split
    · exact hp
    · apply parked_wakeOrInsert
      exact hp.congr rfl rfl
  | @advance x t =>
    have hne : h ≠ x := fun he => hm he.symm
    unfold advanceWake
    split
    · refine ⟨fun hin => hp.unready (List.mem_filter.1 hin).1, ?_⟩
      show (s.wake.insert x t).lookup h = some expiry
      rw [lookup_insert_eq, if_neg hne, hp.wake]
    · exact hp
  | ack => exact ⟨hp.unready, hp.wake⟩

/-! ## What the moves keep -/

/-- `RPUSH` of an id on the queue of its host. -/
theorem queued_pushBack {u : UrlId} (hq : ∀ x, ∀ v ∈ (s.hostQueue x).getD [], v ∈ s.seen ∧
      ∀ e, s.urls v = some e → e.url.host = some x)
    (hu : u ∈ s.seen ∧ ∀ e, s.urls u = some e → e.url.host = some h) :
    ∀ x, ∀ v ∈ ((s.pushBack h u).hostQueue x).getD [], v ∈ s.seen ∧
      ∀ e, s.urls v = some e → e.url.host = some x := by
  intro x v hv
  by_cases hx : x = h
  · subst hx
    have hv : v ∈ (s.hostQueue x).getD [] ++ [u] := by simpa [pushBack] using hv
    rcases List.mem_append.1 hv with hv | hv
    · exact hq x v hv
    · rw [List.mem_singleton.1 hv]
      exact hu
  · exact hq x v (by simpa [pushBack, hx] using hv)

theorem queue_home_pushBack {u : UrlId} (hq : ∀ x, (s.hostQueue x).isSome → home x) (hh : home h) :
    ∀ x, ((s.pushBack h u).hostQueue x).isSome → home x := by
  intro x hx
  by_cases hxh : x = h
  · rw [hxh]
    exact hh
  · exact hq x (by simpa [pushBack, hxh] using hx)

theorem placed_enqueue {e : UrlEntry} {u : UrlId} {now : Nat} (counts : Host → Nat)
    (hp : Placed home s) (hu : u ∉ s.seen) (he : e.url.host = some h) (hh : home h) :
    Placed home ({ s with hostCount := counts }.enqueue e u h now) where
  ready_nodup := by simpa [enqueue, pushBack] using hp.ready_nodup
  ready_home := by simpa [enqueue, pushBack] using hp.ready_home
  wake_home := by
    apply wake_home_wakeOrInsert
    · exact hp.wake_home
    · exact hh
  queue_home := by
    have hq := queue_home_pushBack (u := u) hp.queue_home hh
    simpa [enqueue, pushBack] using hq
  lease_home := by simpa [enqueue, pushBack] using hp.lease_home
  stored := by
    intro v e' hv
    simp only [enqueue, wakeOrInsert_urls, wakeOrInsert_seen, pushBack] at hv ⊢
    by_cases hvu : v = u
    · rw [hvu]
      exact Finset.mem_insert_self u s.seen
    · rw [Function.update_of_ne hvu] at hv
      exact Finset.mem_insert_of_mem (hp.stored v e' hv)
  queued := by
    simp only [enqueue, wakeOrInsert_urls, wakeOrInsert_seen, wakeOrInsert_hostQueue]
    apply queued_pushBack
    · intro x v hv
      obtain ⟨hseen, hent⟩ := hp.queued x v hv
      have hvu : v ≠ u := fun heq => hu (heq ▸ hseen)
      refine ⟨Finset.mem_insert_of_mem hseen, ?_⟩
      simpa only [Function.update_of_ne hvu] using hent
    · refine ⟨Finset.mem_insert_self u s.seen, fun e' he' => ?_⟩
      simp only [Function.update_self, Option.some.injEq] at he'
      rw [← he']
      exact he
  leased := by
    intro v slot hv
    simp only [enqueue, wakeOrInsert_urls, wakeOrInsert_seen, wakeOrInsert_inflight, pushBack] at hv ⊢
    obtain ⟨hseen, hent⟩ := hp.leased v slot hv
    have hvu : v ≠ u := fun heq => hu (heq ▸ hseen)
    refine ⟨Finset.mem_insert_of_mem hseen, ?_⟩
    rw [Function.update_of_ne hvu]
    exact hent

/-- A host leaves the head of `ready`, with or without the head of its queue. -/
theorem placed_pop {rest : List Host} {hq : Host → Option (List UrlId)} (hp : Placed home s)
    (hr : s.ready = h :: rest) (hsub : ∀ x, (hq x).getD [] ⊆ (s.hostQueue x).getD [])
    (hsome : ∀ x, (hq x).isSome → (s.hostQueue x).isSome) :
    Placed home { s with ready := rest, hostQueue := hq } where
  ready_nodup := by
    have hnd := hp.ready_nodup
    rw [hr] at hnd
    exact (List.nodup_cons.1 hnd).2
  ready_home x hx := hp.ready_home x (hr ▸ List.mem_cons_of_mem _ hx)
  wake_home := hp.wake_home
  queue_home x hx := hp.queue_home x (hsome x hx)
  lease_home := hp.lease_home
  stored := hp.stored
  queued x v hv := hp.queued x v (hsub x hv)
  leased := hp.leased

/-- The queue of `h` without its head. -/
theorem placed_popQueue {rest : List Host} {u : UrlId} {q : List UrlId} (hp : Placed home s)
    (hr : s.ready = h :: rest) (hq : s.hostQueue h = some (u :: q)) :
    Placed home { s with ready := rest, hostQueue := Function.update s.hostQueue h (some q) } := by
  refine placed_pop hp hr (fun x v hv => ?_) (fun x hx => ?_)
  · by_cases hxh : x = h
    · subst hxh
      rw [hq]
      exact List.mem_cons_of_mem _ (by simpa using hv)
    · simpa [hxh] using hv
  · by_cases hxh : x = h
    · subst hxh
      rw [hq]
      rfl
    · simpa [hxh] using hx

theorem placed_lease {u : UrlId} (hp : Placed home s) (hh : home h)
    (hu : u ∈ s.seen ∧ ∀ e, s.urls u = some e → e.url.host = some h) :
    Placed home (s.lease u h expiry) :=
  { hp with
    wake_home := by
      intro x t hx
      rcases lookup_insert_cases hx with ⟨rfl, -⟩ | hold
      · exact hh
      · exact hp.wake_home x t hold
    lease_home := by
      intro v slot hv
      rcases lookup_insert_cases hv with ⟨-, rfl⟩ | hold
      · exact hh
      · exact hp.lease_home v slot hold
    leased := by
      intro v slot hv
      rcases lookup_insert_cases hv with ⟨rfl, rfl⟩ | hold
      · exact hu
      · exact hp.leased v slot hold }

theorem placed_promote {t : Nat} (hp : Placed home s) (hw : s.wake.lookup h = some t)
    (hr : h ∉ s.ready) : Placed home (s.promoteOne h) :=
  { hp with
    ready_nodup := by
      show (s.ready ++ [h]).Nodup
      rw [List.nodup_append]
      refine ⟨hp.ready_nodup, List.nodup_singleton h, fun x hx y hy => ?_⟩
      rw [List.mem_singleton.1 hy]
      exact fun he => hr (he ▸ hx)
    ready_home := by
      intro x hx
      rcases List.mem_append.1 hx with hx | hx
      · exact hp.ready_home x hx
      · rw [List.mem_singleton.1 hx]
        exact hp.wake_home h t hw
    wake_home := fun x t' hx => hp.wake_home x t' (lookup_of_erase hx) }

theorem placed_dropLease {u : UrlId} (hp : Placed home s) :
    Placed home { s with inflight := s.inflight.erase u } :=
  { hp with
    lease_home := fun v slot hv => hp.lease_home v slot (lookup_of_erase hv)
    leased := fun v slot hv => hp.leased v slot (lookup_of_erase hv) }

theorem placed_reclaim {u : UrlId} {now : Nat} (hp : Placed home s) :
    Placed home (s.reclaimOne now u) := by
  unfold reclaimOne
  split
  · exact hp
  · rename_i slot hslot
    have hd := placed_dropLease (u := u) hp
    have hh := hp.lease_home u slot hslot
    have hu := hp.leased u slot hslot
    exact {
      ready_nodup := by simpa [pushBack] using hd.ready_nodup
      ready_home := by simpa [pushBack] using hd.ready_home
      wake_home := by
        apply wake_home_wakeOrInsert
        · exact hd.wake_home
        · exact hh
      queue_home := by
        simp only [wakeOrInsert_hostQueue]
        exact queue_home_pushBack hd.queue_home hh
      lease_home := by simpa [pushBack] using hd.lease_home
      stored := by simpa [pushBack] using hd.stored
      queued := by
        simp only [wakeOrInsert_urls, wakeOrInsert_seen, wakeOrInsert_hostQueue]
        exact queued_pushBack hd.queued hu
      leased := by simpa [pushBack] using hd.leased }

theorem placed_advance {untilMs : Nat} (hp : Placed home s) : Placed home (s.advanceWake h untilMs) := by
  unfold advanceWake
  split
  · rename_i hknown
    have hh : home h := by
      rcases hknown with hq | hw
      · exact hp.queue_home h hq
      · obtain ⟨t, ht⟩ := Option.isSome_iff_exists.1 (AList.lookup_isSome.2 hw)
        exact hp.wake_home h t ht
    exact { hp with
      ready_nodup := hp.ready_nodup.filter _
      ready_home := fun x hx => hp.ready_home x (List.mem_filter.1 hx).1
      wake_home := by
        intro x t hx
        rcases lookup_insert_cases hx with ⟨rfl, -⟩ | hold
        · exact hh
        · exact hp.wake_home x t hold }
  · exact hp

theorem placed_ack {u : UrlId} (hp : Placed home s) : Placed home (s.ack u) := by
  have hd := placed_dropLease (u := u) hp
  -- an entry is still there only for another id
  have hkeep : ∀ v e, Function.update s.urls u none v = some e → s.urls v = some e := by
    intro v e hv
    by_cases hvu : v = u
    · subst hvu
      rw [Function.update_self] at hv
      cases hv
    · rwa [Function.update_of_ne hvu] at hv
  exact { hd with
    stored := fun v e hv => hd.stored v e (hkeep v e hv)
    queued := fun x v hv => ⟨(hd.queued x v hv).1, fun e he => (hd.queued x v hv).2 e (hkeep v e he)⟩
    leased := fun v slot hv =>
      ⟨(hd.leased v slot hv).1, fun e he => (hd.leased v slot hv).2 e (hkeep v e he)⟩ }

theorem placed_step {m : Move} (hp : Placed home s) (hst : MoveStep home s m s') :
    Placed home s' := by
  cases hst with
  | enqueue counts hu he hh => exact placed_enqueue counts hp hu he hh
  | stale hr => exact placed_pop hp hr (fun _ => List.Subset.refl _) fun _ hx => hx
  | @found u x _ _ _ hr hq =>
    have hx : home x := hp.ready_home x (hr ▸ List.mem_cons_self)
    exact placed_lease (placed_popQueue hp hr hq) hx (hp.queued x u (by simp [hq]))
  | missing hr hq => exact placed_popQueue hp hr hq
  | promote hw _ hr => exact placed_promote hp hw hr
  | reclaim => exact placed_reclaim hp
  | advance => exact placed_advance hp
  | ack => exact placed_ack hp

/-! ## Calls as runs of moves -/

/-- The ends of `pop_one_ready`: the first ready host with a queued URL, behind hosts that had none. -/
inductive PopCases (expiry : Nat) (s : ShardState) : ShardState × Popped → Prop
  | found {pre rest : List Host} {h : Host} {u : UrlId} {q : List UrlId} {e : UrlEntry} :
      s.ready = pre ++ h :: rest → s.hostQueue h = some (u :: q) → s.urls u = some e →
      PopCases expiry s (lease { s with
        ready := rest, hostQueue := Function.update s.hostQueue h (some q) } u h expiry, .found u e h)
  | missing {pre rest : List Host} {h : Host} {u : UrlId} {q : List UrlId} :
      s.ready = pre ++ h :: rest → s.hostQueue h = some (u :: q) →
      PopCases expiry s ({ s with
        ready := rest, hostQueue := Function.update s.hostQueue h (some q) }, .missing u)
  | nothing : PopCases expiry s ({ s with ready := [] }, .nothing)

theorem popLoop_cases (expiry : Nat) (ready : List Host) :
    ∀ s : ShardState, s.ready = ready → PopCases expiry s (popLoop expiry ready s) := by
  induction ready with
  | nil => exact fun s _ => .nothing
  | cons h ready ih =>
    intro s hr
    have hdrop : PopCases expiry s (popLoop expiry ready { s with ready := ready }) := by
      have hc := ih { s with ready := ready } rfl
      generalize popLoop expiry ready { s with ready := ready } = res at hc
      cases hc with
      | @found pre rest x u q e hr' hq hu =>
        have hr'' : s.ready = (h :: pre) ++ x :: rest := hr.trans (congrArg (h :: ·) hr')
        exact .found (s := s) hr'' hq hu
      | @missing pre rest x u q hr' hq =>
        have hr'' : s.ready = (h :: pre) ++ x :: rest := hr.trans (congrArg (h :: ·) hr')
        exact .missing (s := s) hr'' hq
      | nothing => exact .nothing (s := s)
    rw [popLoop]
    split
    · exact hdrop
    · exact hdrop
    · rename_i u q hq
      dsimp only
      split
      · exact @PopCases.missing expiry s [] ready h u q hr hq
      · rename_i e hu
        exact @PopCases.found expiry s [] ready h u q e hr hq hu

theorem stale_moves (s : ShardState) (pre rest : List Host) (hr : s.ready = pre ++ rest) :
    (moves home).Steps s (pre.map .stale) { s with ready := rest } := by
  induction pre generalizing s with
  | nil =>
    have hs : s = { s with ready := rest } := by
      rw [← show s.ready = rest by simpa using hr]
    rw [List.map_nil, ← hs]
    exact .nil s
  | cons x pre ih =>
    have hst : MoveStep home s (.stale x) { s with ready := pre ++ rest } := .stale hr
    exact .cons hst (ih { s with ready := pre ++ rest } rfl)

/-- A claim moves no parked host. -/
theorem pop_moves (s : ShardState) (now leaseMs : Nat) :
    ∃ ms, (moves home).Steps s ms (s.popOneReady now leaseMs).1 ∧
      ∀ m ∈ ms, ∀ h x, m.Spares h x := by
  have hc := popLoop_cases (min (now + leaseMs) maxMs) s.ready s rfl
  have hstale (pre : List Host) : ∀ m ∈ pre.map Move.stale, ∀ h x, m.Spares h x := by
    intro m hm h x
    obtain ⟨y, -, rfl⟩ := List.mem_map.1 hm
    trivial
  have hlast (pre : List Host) (last : Move) (hl : ∀ h x, last.Spares h x) :
      ∀ m ∈ pre.map Move.stale ++ [last], ∀ h x, m.Spares h x := by
    intro m hm
    rcases List.mem_append.1 hm with hm | hm
    · exact hstale pre m hm
    · rw [List.mem_singleton.1 hm]
      exact hl
  unfold popOneReady
  generalize popLoop (min (now + leaseMs) maxMs) s.ready s = res at hc
  cases hc with
  | @found pre rest h u q e hr hq _ =>
    exact ⟨pre.map .stale ++ [.found u h (min (now + leaseMs) maxMs)],
      (stale_moves s pre (h :: rest) hr).append (.cons (.found rfl hq) (.nil _)),
      hlast pre (.found u h _) fun _ _ => trivial⟩
  | @missing pre rest h u q hr hq =>
    exact ⟨pre.map .stale ++ [.missing u h],
      (stale_moves s pre (h :: rest) hr).append (.cons (.missing rfl hq) (.nil _)),
      hlast pre (.missing u h) fun _ _ => trivial⟩
  | nothing =>
    exact ⟨s.ready.map .stale, stale_moves s s.ready [] (by simp), hstale s.ready⟩

theorem promote_moves (now : Nat) (hosts : List Host) (hnd : hosts.Nodup) :
    ∀ s : ShardState, (∀ h ∈ hosts, h ∉ s.ready ∧ ∃ t, s.wake.lookup h = some t ∧ t ≤ now) →
      (moves home).Steps s (hosts.map (.promote · now)) (hosts.foldl promoteOne s) := by
  induction hosts with
  | nil => exact fun s _ => .nil s
  | cons h hosts ih =>
    intro s hall
    obtain ⟨hh, hnd⟩ := List.nodup_cons.1 hnd
    obtain ⟨hr, t, hw, ht⟩ := hall h List.mem_cons_self
    refine .cons (.promote hw ht hr) (ih hnd _ fun x hx => ?_)
    obtain ⟨hxr, t', hxw, hxt⟩ := hall x (List.mem_cons_of_mem _ hx)
    have hne : x ≠ h := fun he => hh (he ▸ hx)
    refine ⟨?_, t', ?_, hxt⟩
    · show x ∉ s.ready ++ [h]
      simp [hxr, hne]
    · show (s.wake.erase h).lookup x = some t'
      rw [lookup_erase_eq, if_neg hne, hxw]

theorem reclaim_moves (now : Nat) (us : List UrlId) :
    ∀ s : ShardState,
      (moves home).Steps s (us.map (.reclaim · now)) (us.foldl (reclaimOne now) s) := by
  induction us with
  | nil => exact fun s => .nil s
  | cons u us ih => exact fun s => .cons .reclaim (ih _)

theorem due_nodup (s : ShardState) (now : Nat) : (s.due now).Nodup :=
  (List.Sublist.map Sigma.fst List.filter_sublist).nodup s.wake.nodupKeys

theorem tick_moves (order : IterOrder) (now : Nat) (s : ShardState) :
    ∃ ms, (moves home).Steps s ms (s.tick order now).1 ∧
      ∀ m ∈ ms, (∀ h x, m.Spares h x) ∨ ∃ h, m = .promote h now := by
  have hprom : (moves home).Steps s ((order.hosts (s.due now)).map (.promote · now))
      ((order.hosts (s.due now)).foldl promoteOne s) := by
    refine promote_moves now _ ((order.perm_hosts _).nodup_iff.2 (s.due_nodup now)) s fun h hh => ?_
    obtain ⟨⟨x, t⟩, hp, rfl⟩ := List.mem_map.1 ((order.perm_hosts _).mem_iff.1 hh)
    obtain ⟨hmem, hcond⟩ := List.mem_filter.1 hp
    have hcond : t ≤ now ∧ x ∉ s.ready := by simpa using hcond
    exact ⟨hcond.2, t, mem_entries_iff.1 hmem, hcond.1⟩
  refine ⟨_, hprom.append (reclaim_moves now _ _), ?_⟩
  intro m hm
  rcases List.mem_append.1 hm with hm | hm
  · obtain ⟨y, -, rfl⟩ := List.mem_map.1 hm
    exact Or.inr ⟨y, rfl⟩
  · obtain ⟨y, -, rfl⟩ := List.mem_map.1 hm
    exact Or.inl fun _ _ => trivial

/-- A URL is found behind hosts that had none, and its host is parked. -/
theorem pop_found {now leaseMs : Nat} {u : UrlId} {e : UrlEntry} (hp : Placed home s)
    (hf : (s.popOneReady now leaseMs).2 = .found u e h) :
    h ∈ s.ready ∧ e.url.host = some h ∧
      Parked h (min (now + leaseMs) maxMs) (s.popOneReady now leaseMs).1 := by
  have hc := popLoop_cases (min (now + leaseMs) maxMs) s.ready s rfl
  unfold popOneReady at hf ⊢
  generalize popLoop (min (now + leaseMs) maxMs) s.ready s = res at hc hf
  cases hc with
  | @found pre rest x v q e' hr hq hu =>
    cases hf
    have hnd := hp.ready_nodup
    rw [hr] at hnd
    refine ⟨by simp [hr], (hp.queued h u (by simp [hq])).2 e hu, ?_, ?_⟩
    · exact (List.nodup_cons.1 (List.nodup_append.1 hnd).2.1).1
    · simp [lease]
  | missing => cases hf
  | nothing => cases hf

theorem pop_nothing {now leaseMs : Nat} (hf : (s.popOneReady now leaseMs).2 = .nothing) :
    (s.popOneReady now leaseMs).1.ready = [] := by
  have hc := popLoop_cases (min (now + leaseMs) maxMs) s.ready s rfl
  unfold popOneReady at hf ⊢
  generalize popLoop (min (now + leaseMs) maxMs) s.ready s = res at hc hf
  cases hc with
  | found => cases hf
  | missing => cases hf
  | nothing => rfl

end ShardState

end Fakes

end Crawlrs

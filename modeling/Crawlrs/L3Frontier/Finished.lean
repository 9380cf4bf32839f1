import Crawlrs.L3Frontier.Records

/-!
# A finished URL stays finished

Once an ack has executed both commands the id has no payload, and the `seen`
filter, which forgets nothing, keeps it from getting a new one. The id may still
sit in a queue (the lease was reclaimed before the ack) and be handed out by
`claim.lua`, but the client cannot decode the nil payload: no worker receives it.

`acked_never_delivered` says so for every order of acks, redeliveries and
re-submissions.
-/
namespace Crawlrs

variable {β : Type}

/-- Seen, and without payload. -/
def Finished (B : Sketch UrlId β) (u : UrlId) (s : Shard β) : Prop :=
  B.has s.seen u = true ∧ s.urls u = none

namespace Finished

variable {B : Sketch UrlId β} {s s' : Shard β} {u : UrlId}

theorem accept (hf : Finished B u s) {v : UrlId} (hv : B.has s.seen v = false) (h : Host)
    (payload : Bytes) (now : Int) (counted : Bool) :
    Finished B u (s.accept B v h payload now counted) := by
  have hne : u ≠ v := by
    rintro rfl
    rw [hf.1] at hv
    cases hv
  exact ⟨B.has_insert _ _ _ hf.1, by simpa [Shard.accept, Function.update_of_ne hne] using hf.2⟩

theorem eff (hf : Finished B u s) {e : Eff} (hst : Eff.Step B s e s') : Finished B u s' := by
  cases hst with
  | accept hv => exact hf.accept hv _ _ _ _
  | @hdel v =>
    refine ⟨hf.1, ?_⟩
    by_cases hu : u = v
    · simp [Shard.ackHdel, hu]
    · simpa [Shard.ackHdel, Function.update_of_ne hu] using hf.2
  | _ => exact hf

theorem step {E : Env β} {s s' : Sys β} {op : Op} (hst : s.step E op = some s')
    (hf : Finished E.bloom u s.shard) : Finished E.bloom u s'.shard := by
  obtain ⟨es, hsteps, -, -⟩ := Sys.step_effs hst
  exact hsteps.stable (P := Finished E.bloom u) (fun _ _ _ h h' => h.eff h') hf

/-! ## What submits and claims do with it -/

theorem submit_eq (hf : Finished B u s) (h : Host) (payload : Bytes) (now : Int) :
    s.submit B u h payload now = (s, .skippedDuplicate) := by
  rw [Shard.submit_eq, if_pos hf.1]

theorem submitItem_fst (hf : Finished B u s) (now : Int) {it : Shard.SubmitItem}
    (hit : it.urlId = u) : (Shard.submitItem B now s it).1 = s := by
  rw [Shard.submitItem_eq]
  split
  · rfl
  · rw [if_pos (hit ▸ hf.1)]

theorem submitItem (hf : Finished B u s) (now : Int) (it : Shard.SubmitItem) :
    Finished B u (Shard.submitItem B now s it).1 := by
  rw [Shard.submitItem_eq]
  split
  · exact hf
  · split
    · exact hf
    · rename_i hv
      exact hf.accept (by simpa using hv) _ _ _ _

/-- The entries of a finished URL can be left out of a batch. -/
theorem submitBatch_filter (hf : Finished B u s) (now : Int) (its : List Shard.SubmitItem)
    (acc : Nat × List UrlId) : (Shard.submitBatch B now its s acc).1 =
      (Shard.submitBatch B now (its.filter (·.urlId ≠ u)) s acc).1 := by
  rw [Shard.submitBatch_fst, Shard.submitBatch_fst]
  induction its generalizing s with
  | nil => rfl
  | cons it its ih =>
    by_cases hit : it.urlId = u
    · rw [List.filter_cons_of_neg (by simpa using hit), List.foldl_cons, hf.submitItem_fst now hit]
      exact ih hf
    · rw [List.filter_cons_of_pos (by simpa using hit)]
      exact ih (hf.submitItem now it)

/-- `claim.lua` may still hand it out; the client does not get it. -/
theorem not_delivered {W : Wire} (hf : Finished B u s) (now leaseMs : Int) (e : UrlEntry) (h : Host) :
    parseClaimValue W (s.claim now leaseMs).2 ≠ .ok (.claimed u e h) := by
  intro hcl
  obtain ⟨bs, hreply, -⟩ := parse_claimed_inv hcl
  obtain ⟨_, _, _, _, _, hbs, -⟩ := Shard.claim_claimed hreply
  rw [hf.2] at hbs
  cases hbs

end Finished

/-! ## Every run -/

/-- Every delivery whose ack is complete is of a finished URL. -/
theorem finished_inductive (E : Env β) : (system E).Inductive fun s => Recorded E s ∧
    ∀ d ∈ s.hdeled, ∀ l, s.deliveries[d]? = some l → Finished E.bloom l.urlId s.shard :=
  (recorded_inductive E).within
    (by
      rintro s ⟨seen, rfl⟩ d hd
      exact absurd hd List.not_mem_nil)
    (by
      intro s op s' hr hf hst d hd l hl
      rcases ((Sys.step_grows hst).hdeled d).1 hd with hd | rfl
      · exact (hf d hd l (hr.old_delivery hst (hr.hdeled_sub d hd) hl)).step hst
      · obtain ⟨m, hm, hz, rfl⟩ := Sys.ackHdel_inv hst
        rw [hm] at hl
        cases hl
        exact ⟨hr.seen hm, by simp [Shard.ackHdel]⟩)

/-- **An acked URL is never delivered again.** Once the ack of some delivery of `u`
has executed both commands, in every later state no claim returns `Ok(Claimed)`
for `u`, a submit of `u` changes nothing, and a batch does what it would do
without its entries of `u`. -/
theorem acked_never_delivered (E : Env β) (s s' : Sys β) (tr : List Op)
    (hs : (system E).Reachable s) (d : Nat) (l : Lease) (hd : d ∈ s.hdeled)
    (hl : s.deliveries[d]? = some l) (hrun : (system E).Steps s tr s') :
    (∀ now leaseMs e h,
      parseClaimValue E.wire (s'.shard.claim now leaseMs).2 ≠ .ok (.claimed l.urlId e h)) ∧
    (∀ h payload now, s'.shard.submit E.bloom l.urlId h payload now =
      (s'.shard, .skippedDuplicate)) ∧
    ∀ now its acc, (Shard.submitBatch E.bloom now its s'.shard acc).1 =
      (Shard.submitBatch E.bloom now (its.filter (·.urlId ≠ l.urlId)) s'.shard acc).1 := by
  have hf := ((finished_inductive E).reachable s hs).2 d hd l hl
  have hf' : Finished E.bloom l.urlId s'.shard :=
    hrun.stable (P := fun s => Finished E.bloom l.urlId s.shard) (fun _ _ _ h hst => h.step hst) hf
  exact ⟨hf'.not_delivered, hf'.submit_eq, hf'.submitBatch_filter⟩

/-- A late ack: the id is queued again, but claiming it delivers nothing. -/
theorem acked_never_delivered_late :
    parseClaimValue Wire.sample ((Sys.after .sample [] [.submit .a 0, .promote 0 10, .claim 0 5,
      .reclaim 5 10, .ackZrem 0, .ackHdel 0, .promote 5 10]).shard.claim 5 5).2 ≠
        .ok (.claimed Wire.idA .seedA "a.test") :=
  (acked_never_delivered .sample (.after .sample [] [.submit .a 0, .promote 0 10, .claim 0 5,
    .reclaim 5 10, .ackZrem 0, .ackHdel 0]) _ [.promote 5 10] (reachable_after (by decide +kernel)) 0
    ⟨Wire.idA, "a.test"⟩ (by decide) (by decide) (.cons rfl (.nil _))).1 5 5 .seedA "a.test"

end Crawlrs

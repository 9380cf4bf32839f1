import Crawlrs.L3Frontier.Conservation

/-!
# The records of a run

`Recorded` ties the records of `Sys` to the keyspace: every delivery is of a URL
the filter accepted, and an ack's commands refer to a delivery that was made, the
`HDEL` after the `ZREM`.
-/
namespace Crawlrs

variable {β : Type}

theorem zremed_lt_inductive (E : Env β) :
    (system E).Inductive fun s => ∀ d ∈ s.zremed, d < s.deliveries.length where
  init := by
    rintro s ⟨seen, rfl⟩ d hd
    exact absurd hd List.not_mem_nil
  step := by
    intro s op s' hlt hst d hd
    have hg := Sys.step_grows hst
    rcases (hg.zremed d).1 hd with hd | rfl
    · exact Nat.lt_of_lt_of_le (hlt d hd) hg.deliveries.length_le
    · obtain ⟨l, hl, rfl⟩ := Sys.ackZrem_inv hst
      exact (List.getElem?_eq_some_iff.1 hl).1

/-- What the delivered leases record: URLs the filter had accepted. -/
theorem delivered_mem {E : Env β} {s : Shard β} {now leaseMs : Int} {l : Lease}
    (h : l ∈ E.delivered (s.claim now leaseMs).2) : l.urlId ∈ s.hostQueue l.host := by
  unfold Env.delivered at h
  split at h
  · rename_i u e x hcl
    obtain ⟨bs, hreply, -⟩ := parse_claimed_inv hcl
    obtain ⟨_, _, _, _, hq, -, -⟩ := Shard.claim_claimed hreply
    rw [List.mem_singleton.1 h, hq]
    exact List.mem_cons_self
  · cases h

/-- New deliveries are of URLs that were queued. -/
theorem delivers_queued {E : Env β} {s : Sys β} {op : Op} {l : Lease} (hl : l ∈ op.delivers E s) :
    l.urlId ∈ s.shard.hostQueue l.host := by
  cases op with
  | claim now leaseMs => exact delivered_mem hl
  | _ => exact absurd hl List.not_mem_nil

/-- Conservation, and every delivery is of an accepted URL. -/
structure Recorded (E : Env β) (s : Sys β) : Prop where
  conserved : Conserved E.bloom s.accepted s.Zremed s.shard
  zremed_lt : ∀ d ∈ s.zremed, d < s.deliveries.length
  hdeled_sub : ∀ d ∈ s.hdeled, d ∈ s.zremed
  delivered : ∀ l ∈ s.deliveries, (l.urlId, l.host) ∈ s.accepted

theorem recorded_inductive (E : Env β) : (system E).Inductive (Recorded E) where
  init := by
    rintro s ⟨seen, rfl⟩
    exact ⟨(conserved_inductive E).init _ ⟨seen, rfl⟩, (zremed_lt_inductive E).init _ ⟨seen, rfl⟩,
      fun d hd => absurd hd List.not_mem_nil, fun l hl => absurd hl List.not_mem_nil⟩
  step := by
    intro s op s' hs hst
    have hg := Sys.step_grows hst
    refine ⟨(conserved_inductive E).step s op s' hs.conserved hst,
      (zremed_lt_inductive E).step s op s' hs.zremed_lt hst, fun d hd => ?_, fun l hl => ?_⟩
    · rcases (hg.hdeled d).1 hd with hd | rfl
      · exact (hg.zremed d).2 (.inl (hs.hdeled_sub d hd))
      · obtain ⟨l, hl, hz, rfl⟩ := Sys.ackHdel_inv hst
        exact hz
    · obtain ⟨es, -, -, hacc⟩ := Sys.step_effs hst
      rw [hacc]
      refine List.mem_append_left _ ?_
      rcases List.mem_append.1 (Sys.step_delivers hst ▸ hl) with hl | hl
      · exact hs.delivered l hl
      · exact hs.conserved.mem_of_held (Conserved.held_pos_of_queued (delivers_queued hl))

namespace Recorded

variable {E : Env β} {s s' : Sys β} {op : Op}

theorem seen (hs : Recorded E s) {d : Nat} {l : Lease} (hl : s.deliveries[d]? = some l) :
    E.bloom.has s.shard.seen l.urlId = true :=
  hs.conserved.seen _ (hs.delivered l (List.mem_of_getElem? hl))

theorem old_delivery (hs : Recorded E s) (hst : s.step E op = some s') {d : Nat}
    (hd : d ∈ s.zremed) {l : Lease} (hl : s'.deliveries[d]? = some l) : s.deliveries[d]? = some l := by
  obtain ⟨ds, hds⟩ := (Sys.step_grows hst).deliveries
  rwa [← hds, List.getElem?_append_left (hs.zremed_lt d hd)] at hl

/-- Only the `ZREM` of an ack of `u` marks `u`. -/
theorem zremed_cases (hs : Recorded E s) (hst : s.step E op = some s') {u : UrlId}
    (hz : s'.Zremed u) :
    s.Zremed u ∨ ∃ d l, op = .ackZrem d ∧ s.deliveries[d]? = some l ∧ l.urlId = u := by
  obtain ⟨d, hd, l, hl, rfl⟩ := hz
  rcases ((Sys.step_grows hst).zremed d).1 hd with hd | rfl
  · exact .inl ⟨d, hd, l, hs.old_delivery hst hd hl, rfl⟩
  · obtain ⟨m, hm, rfl⟩ := Sys.ackZrem_inv hst
    exact .inr ⟨d, l, rfl, hl, rfl⟩

end Recorded

end Crawlrs

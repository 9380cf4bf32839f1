import Crawlrs.L4Runtime.Crawler

/-!
# The last batch of the outbox publisher

After its loop the publisher drains one more batch, "so the commits the worker pool
already produced are not stranded". It does not wait for the workers, and a batch
is at most 256 rows: links committed after the last lease, or behind the first 256
unpublished rows, stay unpublished when `Crawler::run` returns.

They do not where, at the last lease, the process's own unpublished rows are among
the rows leased, and no worker commits links after it: `drained_at_exit`.
-/
namespace Crawlrs

variable {F ρ : Type} {deps : WorkerDeps} {K : Format F ρ}

namespace Crawler

/-- The frontier takes every batch and the ledger answers every call. -/
def healthy (_ : Crawler F) : Label → Bool
  | .shipped ok => ok
  | .answer _ _ fault => fault.isNone
  | _ => true

/-- The publisher has leased its last batch. -/
def pastLastLease (C : Crawler F) : Bool := match C.publisher with
  | .shipping last _ => last
  | .done => true
  | _ => false

/-- Worker `i` is about to commit links. -/
def commitsLinks (C : Crawler F) (i : Nat) : Bool := match C.workers[i]? with
  | some (.running _ (.call (.ledger (.markSucceeded record)) _)) => !record.outbound.isEmpty
  | _ => false

/-- A lease takes every unpublished row with an id above `base`. -/
def leasesAll (base : Nat) (C : Crawler F) : Bool :=
  C.ledger.outbox.unpublished.all fun r =>
    r.id ≤ base || (C.ledger.outbox.leaseBatch [] batchSize).contains r

/-- The last lease takes every unpublished row above `base`, and no worker commits links after it. -/
def timely (base : Nat) (C : Crawler F) : Label → Bool
  | .lease => C.publisher != .publishing true || C.leasesAll base
  | l => match l.worker with
    | some i => !(C.pastLastLease && C.commitsLinks i)
    | none => true

/-- Rows above `base` are published. -/
def Published (base : Nat) (C : Crawler F) : Prop :=
  ∀ r ∈ C.ledger.outbox.rows, base < r.id → r.published = true

instance (base : Nat) (C : Crawler F) : Decidable (Published base C) :=
  inferInstanceAs (Decidable (∀ r ∈ _, _))

/-- When `Crawler::run` has returned, every outbox row its workers committed is published. -/
def NoneStranded (deps : WorkerDeps) (K : Format F ρ) : Prop :=
  ∀ (C₀ C : Crawler F) (tr : List Label), Starts deps C₀ →
    ((runs deps K).restrict fun C l => C.healthy l).Steps C₀ tr C → Exited C →
    Published C₀.ledger.outbox.seq C

/-! ## From the last lease on -/

/-- What is left to publish: nothing but the rows being shipped. -/
def LastBatch (base : Nat) (C : Crawler F) : Prop := match C.publisher with
  | .shipping true ids => ∀ r ∈ C.ledger.outbox.rows, base < r.id → r.published = true ∨ r.id ∈ ids
  | .done => Published base C
  | _ => True

variable {base : Nat} {C C' : Crawler F} {l : Label}

/-- A step that keeps the publisher and the outbox keeps what is left. -/
theorem LastBatch.congr (h : LastBatch base C) (hp : C'.publisher = C.publisher)
    (ho : C'.ledger.outbox = C.ledger.outbox) : LastBatch base C' := by
  simp only [LastBatch, Published, hp, ho] at h ⊢
  exact h

/-- A step before the last lease asks for nothing. -/
theorem lastBatch_of_not_past (hpast : C'.pastLastLease = false) : LastBatch base C' := by
  unfold LastBatch
  split
  · rename_i ids hp
    simp [pastLastLease, hp] at hpast
  · rename_i hp
    simp [pastLastLease, hp] at hpast
  · trivial

theorem lastBatch_worker {i : Nat} {w : Worker} (h : LastBatch base C) (hw : C.workers[i]? = some w)
    (hlinks : C.pastLastLease = true → C.commitsLinks i = false) (hm : WorkerMoves deps K C i l w C') :
    LastBatch base C' := by
  cases hm with
  | call r l' hc hl =>
    cases hpast : C.pastLastLease with
    | true =>
      refine h.congr rfl ?_
      rcases hl with rfl | ⟨m, rfl, rfl⟩
      · rfl
      · refine C.ledger.exec_outbox_of_no_links ?_
        rintro record rfl
        have hnone := hlinks hpast
        simpa [commitsLinks, hw] using hnone
    | false => exact lastBatch_of_not_past hpast
  | _ => exact h.congr rfl rfl

theorem lastBatch_publisher (h : LastBatch base C) (hhealthy : C.healthy l = true) (ht : C.timely base l = true)
    (hm : PublisherMoves C l C') : LastBatch base C' := by
  cases hm with
  | check hp => trivial
  | lease hp hids =>
    rename_i last ids
    cases last with
    | false => trivial
    | true =>
      intro r hr hb
      cases hpub : r.published with
      | true => exact Or.inl rfl
      | false =>
        have hun : r ∈ C.ledger.outbox.unpublished := List.mem_filter.2 ⟨hr, by simp [hpub]⟩
        have hall : C.leasesAll base = true := by simpa [timely, hp] using ht
        have hmem : r ∈ C.ledger.outbox.leaseBatch [] batchSize := by
          simpa [Nat.not_le.2 hb] using List.all_eq_true.1 hall r hun
        exact Or.inr (hids ▸ List.mem_map_of_mem hmem)
  | shipped next hp hlast hnot =>
    rename_i last ok ids
    have hok : ok = true := hhealthy
    subst hok
    cases last with
    | false => rcases hnot rfl with rfl | rfl <;> trivial
    | true =>
      obtain rfl := hlast rfl
      simp only [LastBatch, hp] at h
      intro r hr hb
      obtain ⟨r', hr', rfl⟩ := List.mem_map.1 hr
      rcases h r' hr' hb with hpub | hid
      · simp [OutboxRow.publish, hpub]
      · simp [OutboxRow.publish, hid]
  | rejected url runId depth discoveredFrom =>
    exact h.congr rfl (C.ledger.markDiscoveredSkipped_outbox url runId depth discoveredFrom .maxUrls)
  | wake last hp => cases last <;> trivial

theorem lastBatch_step (h : LastBatch base C) (hhealthy : C.healthy l = true) (ht : C.timely base l = true)
    (hst : step deps K C l = some C') : LastBatch base C' := by
  rcases step_cases hst with ⟨i, w, hi, hw, hm⟩ | hm | ⟨j, ok, S, rfl, hS, rfl⟩ | ⟨rfl, rfl⟩
  · refine lastBatch_worker h hw (fun hpast => ?_) hm
    cases l <;> simp_all [timely, Label.worker]
  · exact lastBatch_publisher h hhealthy ht hm
  · exact h.congr rfl rfl
  · exact h.congr rfl rfl

theorem lastBatch_starts (h : Starts deps C) : LastBatch C.ledger.outbox.seq C := by
  obtain ⟨-, -, -, hp⟩ := h
  cases hd : deps.linkDispatch with
  | durableOutbox => simp [LastBatch, hp, hd]
  | direct =>
    rw [hd] at hp
    simp only [LastBatch, hp]
    intro r hr hb
    exact absurd (C.ledger.outbox.le_seq r hr) (Nat.not_le.2 hb)

end Crawler

open Crawler

/-- In every healthy run whose last lease takes the process's own unpublished rows, and in which no
worker commits links after it, nothing the workers committed is left unpublished at the exit. -/
theorem drained_at_exit (deps : WorkerDeps) (K : Format F ρ) (C₀ C : Crawler F) (tr : List Label)
    (h0 : Starts deps C₀)
    (hst : ((runs deps K).restrict fun C l =>
      C.healthy l = true ∧ C.timely C₀.ledger.outbox.seq l = true).Steps C₀ tr C)
    (hexit : Exited C) : Published C₀.ledger.outbox.seq C := by
  have hstep : ∀ C l C', LastBatch C₀.ledger.outbox.seq C → ((runs deps K).restrict fun C l =>
      C.healthy l = true ∧ C.timely C₀.ledger.outbox.seq l = true).step C l C' →
      LastBatch C₀.ledger.outbox.seq C' :=
    fun _ _ _ h hs => lastBatch_step h hs.1.1 hs.1.2 hs.2
  have hlast := hst.stable hstep (lastBatch_starts h0)
  simpa [LastBatch, hexit.2.2] using hlast

theorem drained_at_exit_committed :
    (LTS.replay (step sampleDeps sampleFormat) sampleStart sampleExit).ledger.outbox.rows.length = 1 ∧
      Published 0 (LTS.replay (step sampleDeps sampleFormat) sampleStart sampleExit) :=
  ⟨by decide +kernel, drained_at_exit sampleDeps sampleFormat sampleStart _ sampleExit
    sampleStart_starts (LTS.restrict_steps_replay (by decide +kernel)) (by decide +kernel)⟩

/-- The signal reaches the publisher while the page is being parsed: its last batch is empty, and the
link committed after it stays. -/
def strandedRun : List Label := sampleFetch ++ [.signal] ++ samplePublish ++ sampleCommit

theorem not_noneStranded : ¬ NoneStranded sampleDeps sampleFormat := by
  intro h
  have hpub := h sampleStart _ strandedRun sampleStart_starts
    (LTS.restrict_steps_replay (by decide +kernel)) (by decide +kernel)
  exact absurd hpub (by decide +kernel)

end Crawlrs

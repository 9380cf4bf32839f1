import Crawlrs.Core.Duration
import Mathlib.Algebra.Order.Floor.Semiring
import Mathlib.Data.Rat.Floor
import Mathlib.Tactic.Linarith

/-!
# The restart budget of a worker (`crawlrs-runtime/src/supervisor.rs`)

A supervisor asks `decideRestart` at every exit of its worker, with the clock's
reading. The state machine counts restarts and starts over once more than
`reset_window` has passed since the latest one; `supervise` feeds it a whole
sequence of exits and keeps what it answered.

The claims speak of a sliding window while the code looks at one gap. `streak` is
the count as the history gives it: how many of the latest restarts follow one
another without a gap above the window. `decideRestart_spec` says what one exit
does in terms of `streak`, and `count_le_streak` that the restarts inside one
window are part of one streak.
-/
namespace Crawlrs

/-- mirrors crates/crawlrs-runtime/src/supervisor.rs:39-58 -/
structure RestartPolicy where
  maxRestarts : UInt32
  baseBackoff : Duration
  maxBackoff : Duration
  resetWindow : Duration
deriving DecidableEq

/-- mirrors crates/crawlrs-runtime/src/supervisor.rs:59-68 -/
def RestartPolicy.default : RestartPolicy :=
  ⟨5, .ofMillis 100, .ofSecs 30, .ofSecs 300⟩

/-- mirrors crates/crawlrs-runtime/src/supervisor.rs:213-217 -/
inductive RestartDecision
  | restart (backoff : Duration)
  | giveUp
deriving DecidableEq

/-- mirrors crates/crawlrs-runtime/src/supervisor.rs:162-168 -/
structure RestartState where
  policy : RestartPolicy
  restartCount : UInt32
  lastRestartMs : Option UInt64
deriving DecidableEq

namespace RestartState

/-- mirrors crates/crawlrs-runtime/src/supervisor.rs:172-178 -/
def new (policy : RestartPolicy) : RestartState := ⟨policy, 0, none⟩

/-- `u64::saturating_sub`. -/
def saturatingSub (a b : UInt64) : UInt64 := if b ≤ a then a - b else 0

/-- The counter the budget is applied to: 0 after a stable stretch. -/
def effectiveCount (s : RestartState) (nowMs : UInt64) : UInt32 :=
  let resetWindowMs := UInt64.ofNat s.policy.resetWindow.asMillis
  match s.lastRestartMs with
  | some lastMs => if resetWindowMs < saturatingSub nowMs lastMs then 0 else s.restartCount
  | none => s.restartCount

/-- The backoff of the restart that brought the counter to `count`.
mirrors crates/crawlrs-runtime/src/supervisor.rs:203-207 -/
def backoffAt (policy : RestartPolicy) (count : UInt32) : Duration :=
  -- `saturating_sub(1)`
  let exponent := if 1 ≤ count then count - 1 else 0
  let scale := (Checked.shl 1 exponent).getD ⟨2 ^ 32 - 1, by decide⟩
  let scaled := policy.baseBackoff.saturatingMul scale
  min scaled policy.maxBackoff

/-- `none` is the panic of an overflowing `+=`.
mirrors crates/crawlrs-runtime/src/supervisor.rs:180-210 -/
def decideRestart (s : RestartState) (nowMs : UInt64) : Option (RestartState × RestartDecision) :=
  let count := s.effectiveCount nowMs
  if s.policy.maxRestarts ≤ count then some ({ s with restartCount := count }, .giveUp)
  else
    match Checked.add count 1 with
    | none => none
    | some count => some (⟨s.policy, count, some nowMs⟩, .restart (backoffAt s.policy count))

end RestartState

/-- One exit of the worker, and what the supervisor decided. -/
structure Exit where
  atMs : UInt64
  decision : RestartDecision
deriving DecidableEq

/-- The decisions for a sequence of exits.
mirrors crates/crawlrs-runtime/src/supervisor.rs:84-141, the calls of `decide_restart` -/
def RestartState.supervise (s : RestartState) : List UInt64 → Option (List Exit)
  | [] => some []
  | t :: ts =>
    match s.decideRestart t with
    | none => none
    | some (s', d) => (supervise s' ts).map (⟨t, d⟩ :: ·)

/-! ## The history of a supervisor -/

/-- The time of a restart. -/
def Exit.restartedAt (e : Exit) : Option Nat :=
  match e.decision with
  | .restart _ => some e.atMs.toNat
  | .giveUp => none

/-- The times of the restarts, latest first. -/
def restarts (log : List Exit) : List Nat := (log.filterMap Exit.restartedAt).reverse

/-- How many of the latest restarts follow one another with no gap above `w`: those since the
last reset. -/
def streak (w : Nat) : List Nat → Nat
  | [] => 0
  | [_] => 1
  | t :: l :: rest => if w < t - l then 1 else streak w (l :: rest) + 1

theorem streak_pos (w t : Nat) (rs : List Nat) : 1 ≤ streak w (t :: rs) := by
  cases rs with
  | nil => exact Nat.le_refl 1
  | cons l rest =>
    rw [streak]
    split
    · exact Nat.le_refl 1
    · omega

theorem restarts_append (log log' : List Exit) :
    restarts (log ++ log') = restarts log' ++ restarts log := by
  simp [restarts, List.filterMap_append]

theorem restarts_cons (e : Exit) (log : List Exit) :
    restarts (e :: log) = restarts log ++ e.restartedAt.toList := by
  unfold restarts
  cases h : e.restartedAt with
  | none => simp [h]
  | some t => simp [h]

theorem eq_of_mem_restarts {t : UInt64} {d : RestartDecision} {r : Nat}
    (h : r ∈ restarts [⟨t, d⟩]) : r = t.toNat := by
  cases d with
  | restart b => exact List.mem_singleton.1 h
  | giveUp => cases h

/-- Past a chain without a long gap the streak goes on. -/
theorem streak_append {w : Nat} {xs : List Nat} {x : Nat} (ys : List Nat)
    (h : (xs ++ [x]).IsChain fun t l => t - l ≤ w) :
    streak w (xs ++ x :: ys) = xs.length + streak w (x :: ys) := by
  induction xs with
  | nil => simp
  | cons t xs ih =>
    have htail := ih h.of_cons
    cases xs with
    | nil =>
      have hgap : t - x ≤ w := by simpa using h
      rw [List.cons_append, List.nil_append, streak, if_neg (by omega)]
      simp only [List.length_singleton]
      omega
    | cons l rest =>
      have hgap : t - l ≤ w := by
        simp only [List.cons_append, List.isChain_cons_cons] at h
        exact h.1
      rw [List.cons_append, List.cons_append, streak, if_neg (by omega), ← List.cons_append, htail]
      simp only [List.length_cons]
      omega

/-- The restarts that lie at most `w` before the latest one are part of its streak. -/
theorem count_le_streak {w lo t : Nat} {rs : List Nat} (hs : (t :: rs).Pairwise (· ≥ ·))
    (hw : t - lo ≤ w) (hlo : lo ≤ t) :
    ((t :: rs).filter fun x => lo ≤ x).length ≤ streak w (t :: rs) := by
  induction rs generalizing t with
  | nil => simp [streak, hlo]
  | cons l rest ih =>
    have htail := (List.pairwise_cons.1 hs).2
    have htl : l ≤ t := (List.pairwise_cons.1 hs).1 l List.mem_cons_self
    by_cases hl : lo ≤ l
    · have hrest := ih htail (by omega) hl
      rw [streak, if_neg (by omega), List.filter_cons_of_pos (by simpa using hlo), List.length_cons]
      omega
    · -- everything older lies before `lo` too
      have hnone : (l :: rest).filter (fun x => lo ≤ x) = [] := by
        rw [List.filter_eq_nil_iff]
        intro x hx
        have hxl : x ≤ l := by
          rcases List.mem_cons.1 hx with rfl | hx
          · exact Nat.le_refl _
          · exact (List.pairwise_cons.1 htail).1 x hx
        simp only [decide_eq_true_eq]
        omega
      rw [List.filter_cons_of_pos (by simpa using hlo), hnone]
      exact streak_pos w t (l :: rest)

/-- A history whose streaks all stay within a bound has no more restarts than that in any
window. -/
theorem count_window_le {w m : Nat} {rs : List Nat} (lo : Nat) (hs : rs.Pairwise (· ≥ ·))
    (hm : ∀ sfx, sfx <:+ rs → streak w sfx ≤ m) :
    (rs.filter fun x => lo ≤ x ∧ x ≤ lo + w).length ≤ m := by
  induction rs with
  | nil => simp
  | cons t rs ih =>
    by_cases hhi : t ≤ lo + w
    · by_cases hlo : lo ≤ t
      · calc ((t :: rs).filter fun x => lo ≤ x ∧ x ≤ lo + w).length
            ≤ ((t :: rs).filter fun x => lo ≤ x).length := by
              refine (List.Sublist.length_le ?_)
              refine List.monotone_filter_right _ fun x hx => ?_
              simp only [decide_eq_true_eq] at hx ⊢
              exact hx.1
          _ ≤ streak w (t :: rs) := count_le_streak hs (by omega) hlo
          _ ≤ m := hm _ (List.suffix_refl _)
      · have hskip : ¬ (lo ≤ t ∧ t ≤ lo + w) := fun h => hlo h.1
        rw [List.filter_cons_of_neg (by simpa using hskip)]
        exact ih (List.pairwise_cons.1 hs).2 fun sfx h => hm sfx (h.trans (List.suffix_cons _ _))
    · have hskip : ¬ (lo ≤ t ∧ t ≤ lo + w) := fun h => hhi h.2
      rw [List.filter_cons_of_neg (by simpa using hskip)]
      exact ih (List.pairwise_cons.1 hs).2 fun sfx h => hm sfx (h.trans (List.suffix_cons _ _))

/-! ## What one exit does -/

namespace RestartPolicy

variable (P : RestartPolicy)

/-- The budget is used up at time `t` after the restarts `rs`. -/
def Exhausted (rs : List Nat) (t : Nat) : Prop :=
  P.maxRestarts = 0 ∨ streak P.resetWindow.asMillis rs = P.maxRestarts.toNat ∧
    ∃ l, rs.head? = some l ∧ (t - l) * 10 ^ 6 ≤ P.resetWindow.nanos

/-- The backoff of the `n`-th restart since the last reset, in nanoseconds. -/
def backoffNanos (n : Nat) : Nat :=
  min (min (P.baseBackoff.nanos * min (2 ^ (n - 1)) (2 ^ 32 - 1)) Duration.max.nanos)
    P.maxBackoff.nanos

/-- The decision for an exit at time `t` after the restarts `rs`. -/
structure Decides (rs : List Nat) (t : Nat) (d : RestartDecision) : Prop where
  giveUp : d = .giveUp ↔ P.Exhausted rs t
  backoff : ∀ b, d = .restart b →
    b.nanos = P.backoffNanos (streak P.resetWindow.asMillis (t :: rs))

theorem backoffNanos_mono {m n : Nat} (h : m ≤ n) : P.backoffNanos m ≤ P.backoffNanos n := by
  have hpow : 2 ^ (m - 1) ≤ 2 ^ (n - 1) := Nat.pow_le_pow_right (by decide) (by omega)
  have hscale : min (2 ^ (m - 1)) (2 ^ 32 - 1) ≤ min (2 ^ (n - 1)) (2 ^ 32 - 1) := by omega
  have hmul := Nat.mul_le_mul_left P.baseBackoff.nanos hscale
  unfold backoffNanos
  omega

end RestartPolicy

/-- The state after a history. -/
structure RestartState.Tracks (P : RestartPolicy) (log : List Exit) (s : RestartState) : Prop where
  policy : s.policy = P
  count : s.restartCount.toNat = streak P.resetWindow.asMillis (restarts log)
  last : s.lastRestartMs.map UInt64.toNat = (restarts log).head?
  sorted : (restarts log).Pairwise (· ≥ ·)
  budget : ∀ sfx, sfx <:+ restarts log → streak P.resetWindow.asMillis sfx ≤ P.maxRestarts.toNat

namespace RestartState

variable {P : RestartPolicy} {log : List Exit} {s : RestartState} {t : UInt64}

theorem toNat_saturatingSub (a b : UInt64) : (saturatingSub a b).toNat = a.toNat - b.toNat := by
  unfold saturatingSub
  split
  · rename_i h
    exact UInt64.toNat_sub_of_le a b h
  · rename_i h
    have hlt : a.toNat < b.toNat := Nat.lt_of_not_le h
    show 0 = _
    omega

theorem backoffAt_nanos {count : UInt32} (h : 1 ≤ count.toNat) :
    (backoffAt P count).nanos = P.backoffNanos count.toNat := by
  have hone : 1 ≤ count := h
  have hexp : (count - 1).toNat = count.toNat - 1 := UInt32.toNat_sub_of_le _ _ hone
  simp only [backoffAt]
  rw [if_pos hone, Duration.min_nanos, RestartPolicy.backoffNanos, ← hexp,
    ← Checked.shl_one_getD (count - 1)]
  rfl

theorem tracks_new (P : RestartPolicy) : Tracks P [] (new P) := by
  refine ⟨rfl, rfl, rfl, List.Pairwise.nil, ?_⟩
  intro sfx h
  have : sfx = [] := by simpa [restarts] using h
  subst this
  exact Nat.zero_le _

/-- What the budget is applied to, in terms of the history. -/
theorem effectiveCount_eq (h : Tracks P log s) (hfit : P.resetWindow.asMillis < 2 ^ 64) :
    streak P.resetWindow.asMillis (t.toNat :: restarts log) = (s.effectiveCount t).toNat + 1 ∧
      ((s.effectiveCount t).toNat = 0 ∨
        (s.effectiveCount t).toNat = streak P.resetWindow.asMillis (restarts log) ∧
          ∃ l, (restarts log).head? = some l ∧ t.toNat - l ≤ P.resetWindow.asMillis) ∧
      (∀ l, (restarts log).head? = some l → t.toNat - l ≤ P.resetWindow.asMillis →
        (s.effectiveCount t).toNat = streak P.resetWindow.asMillis (restarts log)) := by
  have hw : (UInt64.ofNat s.policy.resetWindow.asMillis).toNat = P.resetWindow.asMillis := by
    rw [h.policy, UInt64.toNat_ofNat', Nat.mod_eq_of_lt hfit]
  have hcount := h.count
  have hlast := h.last
  cases hrs : restarts log with
  | nil =>
    rw [hrs] at hcount hlast
    have hnone : s.lastRestartMs = none := by simpa using hlast
    have hz : s.restartCount.toNat = 0 := hcount
    simp [effectiveCount, hnone, hz, streak]
  | cons l rest =>
    rw [hrs] at hcount hlast
    obtain ⟨lastMs, hsome, hl⟩ : ∃ lastMs, s.lastRestartMs = some lastMs ∧ lastMs.toNat = l := by
      simpa using hlast
    subst hl
    have hlt : UInt64.ofNat s.policy.resetWindow.asMillis < saturatingSub t lastMs ↔
        P.resetWindow.asMillis < t.toNat - lastMs.toNat := by
      rw [UInt64.lt_iff_toNat_lt, hw, toNat_saturatingSub]
    simp only [effectiveCount, hsome, streak, List.head?_cons, Option.some.injEq]
    by_cases hgap : P.resetWindow.asMillis < t.toNat - lastMs.toNat
    · rw [if_pos hgap, if_pos (hlt.2 hgap)]
      refine ⟨rfl, Or.inl rfl, ?_⟩
      rintro _ rfl hle
      omega
    · rw [if_neg hgap, if_neg (fun hc => hgap (hlt.1 hc))]
      refine ⟨by rw [hcount], Or.inr ⟨hcount, _, rfl, by omega⟩, fun _ _ _ => hcount⟩

theorem exhausted_iff (h : Tracks P log s) (hfit : P.resetWindow.asMillis < 2 ^ 64) :
    P.maxRestarts ≤ s.effectiveCount t ↔ P.Exhausted (restarts log) t.toNat := by
  obtain ⟨-, hcases, hkeep⟩ := effectiveCount_eq (t := t) h hfit
  have hbudget := h.budget _ (List.suffix_refl _)
  have hgap : ∀ l : Nat, (t.toNat - l) * 10 ^ 6 ≤ P.resetWindow.nanos ↔
      t.toNat - l ≤ P.resetWindow.asMillis := by
    intro l
    exact (Nat.le_div_iff_mul_le (by decide)).symm
  rw [UInt32.le_iff_toNat_le, RestartPolicy.Exhausted]
  constructor
  · intro hle
    rcases hcases with hz | ⟨heq, l, hl, hle'⟩
    · left
      apply UInt32.toNat_inj.mp
      show P.maxRestarts.toNat = 0
      omega
    · right
      exact ⟨by omega, l, hl, (hgap l).2 hle'⟩
  · rintro (hz | ⟨heq, l, hl, hle⟩)
    · rw [hz]
      exact Nat.zero_le _
    · rw [hkeep l hl ((hgap l).1 hle), heq]

/-- Giving up leaves the history of restarts alone. -/
theorem tracks_giveUp (h : Tracks P log s) (hfit : P.resetWindow.asMillis < 2 ^ 64)
    (hfull : P.maxRestarts ≤ s.effectiveCount t) :
    Tracks P (log ++ [⟨t, .giveUp⟩]) { s with restartCount := s.effectiveCount t } := by
  obtain ⟨-, hcases, -⟩ := effectiveCount_eq (t := t) h hfit
  have hrs : restarts (log ++ [⟨t, .giveUp⟩]) = restarts log := by
    rw [restarts_append]; rfl
  have hbudget := h.budget _ (List.suffix_refl _)
  rw [UInt32.le_iff_toNat_le] at hfull
  refine ⟨h.policy, ?_, ?_, ?_, ?_⟩
  · rw [hrs]
    show (s.effectiveCount t).toNat = _
    -- a counter that was reset can only be exhausted by an empty budget
    rcases hcases with hz | ⟨heq, -⟩
    · omega
    · exact heq
  · rw [hrs]; exact h.last
  · rw [hrs]; exact h.sorted
  · rw [hrs]; exact h.budget

/-- A restart is the newest of the history. -/
theorem tracks_restart (h : Tracks P log s) (hfit : P.resetWindow.asMillis < 2 ^ 64)
    (hlate : ∀ r ∈ restarts log, r ≤ t.toNat) (hfull : ¬ P.maxRestarts ≤ s.effectiveCount t)
    {count : UInt32} (hcount : count.toNat = (s.effectiveCount t).toNat + 1) (b : Duration) :
    Tracks P (log ++ [⟨t, .restart b⟩]) ⟨P, count, some t⟩ := by
  obtain ⟨hstreak, -, -⟩ := effectiveCount_eq (t := t) h hfit
  have hrs : restarts (log ++ [⟨t, .restart b⟩]) = t.toNat :: restarts log := by
    rw [restarts_append]; rfl
  refine ⟨rfl, ?_, ?_, ?_, ?_⟩
  · rw [hrs, hstreak]; exact hcount
  · rw [hrs]; rfl
  · rw [hrs]
    exact List.pairwise_cons.2 ⟨hlate, h.sorted⟩
  · rw [hrs]
    intro sfx hsfx
    rcases List.suffix_cons_iff.1 hsfx with rfl | hsfx
    · rw [hstreak]
      rw [UInt32.le_iff_toNat_le] at hfull
      omega
    · exact h.budget sfx hsfx

/-- **One exit.** The decision follows the history, nothing overflows, and the state goes on
tracking it. -/
theorem decideRestart_spec (h : Tracks P log s) (hfit : P.resetWindow.asMillis < 2 ^ 64)
    (hlate : ∀ r ∈ restarts log, r ≤ t.toNat) : ∃ s' d, s.decideRestart t = some (s', d) ∧
      Tracks P (log ++ [⟨t, d⟩]) s' ∧ P.Decides (restarts log) t.toNat d := by
  have hex := exhausted_iff (t := t) h hfit
  by_cases hfull : P.maxRestarts ≤ s.effectiveCount t
  · refine ⟨{ s with restartCount := s.effectiveCount t }, .giveUp, ?_, tracks_giveUp h hfit hfull, ?_⟩
    · simp only [decideRestart]
      rw [h.policy, if_pos hfull]
    · exact ⟨⟨fun _ => hex.1 hfull, fun _ => rfl⟩, by intro b hb; cases hb⟩
  · obtain ⟨hstreak, -, -⟩ := effectiveCount_eq (t := t) h hfit
    obtain ⟨count, hadd, hcount⟩ := Checked.add_one (UInt32.not_le.mp hfull)
    refine ⟨⟨P, count, some t⟩, .restart (backoffAt P count), ?_,
      tracks_restart h hfit hlate hfull hcount _, ?_⟩
    · simp only [decideRestart]
      rw [h.policy, if_neg hfull, hadd]
    · refine ⟨⟨fun hd => (by cases hd), fun hx => absurd (hex.2 hx) hfull⟩, ?_⟩
      intro b hb
      cases hb
      rw [hstreak, ← hcount]
      exact backoffAt_nanos (by omega)

/-- **A whole supervision.** Exits at nondecreasing times are all answered, and every answer
follows the history before it. -/
theorem supervise_spec (hfit : P.resetWindow.asMillis < 2 ^ 64) (ts : List UInt64)
    (hts : ts.Pairwise (· ≤ ·)) : ∀ (s : RestartState) (log : List Exit), Tracks P log s →
      (∀ r ∈ restarts log, ∀ t ∈ ts, r ≤ t.toNat) → ∃ log' s', s.supervise ts = some log' ∧
        log'.map Exit.atMs = ts ∧ Tracks P (log ++ log') s' ∧
        ∀ pre e post, log' = pre ++ e :: post →
          P.Decides (restarts (log ++ pre)) e.atMs.toNat e.decision := by
  induction ts with
  | nil =>
    intro s log h _
    exact ⟨[], s, rfl, rfl, by simpa using h, by simp⟩
  | cons t ts ih =>
    intro s log h hlate
    obtain ⟨hfirst, htail⟩ := List.pairwise_cons.1 hts
    obtain ⟨s1, d, hdec, htr, hd⟩ :=
      decideRestart_spec h hfit fun r hr => hlate r hr t List.mem_cons_self
    have hlate1 : ∀ r ∈ restarts (log ++ [⟨t, d⟩]), ∀ t' ∈ ts, r ≤ t'.toNat := by
      intro r hr t' ht'
      rw [restarts_append] at hr
      rcases List.mem_append.1 hr with hr | hr
      · rw [eq_of_mem_restarts hr]
        exact hfirst t' ht'
      · exact hlate r hr t' (List.mem_cons_of_mem _ ht')
    obtain ⟨log', s', hsup, hmap, htr', hall⟩ := ih htail s1 _ htr hlate1
    refine ⟨⟨t, d⟩ :: log', s', ?_, by simp [hmap], by simpa using htr', ?_⟩
    · simp [supervise, hdec, hsup]
    · intro pre e post heq
      cases pre with
      | nil =>
        simp only [List.nil_append, List.cons.injEq] at heq
        rw [← heq.1, List.append_nil]
        exact hd
      | cons x pre =>
        simp only [List.cons_append, List.cons.injEq] at heq
        rw [← heq.1]
        simpa using hall pre e post heq.2

end RestartState

/-! ## The budget over a whole supervision -/

/-- No two successive restarts of the log are more than the window apart. -/
def NoReset (P : RestartPolicy) (log : List Exit) : Prop :=
  (restarts log).IsChain fun t l => t - l ≤ P.resetWindow.asMillis

/-- What the policy promises about a log of exits. -/
structure RestartPolicy.Budgeted (P : RestartPolicy) (log : List Exit) : Prop where
  /-- in nanoseconds, for any closed interval as long as the window -/
  window : ∀ a : ℚ, ((restarts log).filter fun t : Nat => a ≤ (t : ℚ) * 10 ^ 6 ∧
    (t : ℚ) * 10 ^ 6 ≤ a + P.resetWindow.nanos).length ≤ P.maxRestarts.toNat
  decides : ∀ pre e post, log = pre ++ e :: post →
    P.Decides (restarts pre) e.atMs.toNat e.decision
  nondecreasing : ∀ pre e mid e' post b b', log = pre ++ e :: (mid ++ e' :: post) →
    e.decision = .restart b → e'.decision = .restart b' → NoReset P (e :: (mid ++ [e'])) → b ≤ b'
  capped : ∀ e ∈ log, ∀ b, e.decision = .restart b → b ≤ P.maxBackoff

namespace RestartState

variable {P : RestartPolicy} {log : List Exit} {s : RestartState}

theorem Tracks.window (h : Tracks P log s) (a : ℚ) :
    ((restarts log).filter fun t : Nat => a ≤ (t : ℚ) * 10 ^ 6 ∧
      (t : ℚ) * 10 ^ 6 ≤ a + P.resetWindow.nanos).length ≤ P.maxRestarts.toNat := by
  refine Nat.le_trans (List.Sublist.length_le ?_)
    (count_window_le ⌈a / 10 ^ 6⌉₊ h.sorted h.budget)
  refine List.monotone_filter_right _ fun t ht => ?_
  simp only [decide_eq_true_eq] at ht ⊢
  obtain ⟨h1, h2⟩ := ht
  have hlo : ⌈a / 10 ^ 6⌉₊ ≤ t := by
    rw [Nat.ceil_le, div_le_iff₀ (by norm_num)]
    exact h1
  have hceil : a ≤ (⌈a / 10 ^ 6⌉₊ : ℚ) * 10 ^ 6 := by
    rw [← div_le_iff₀ (by norm_num)]
    exact Nat.le_ceil _
  refine ⟨hlo, ?_⟩
  generalize ⌈a / 10 ^ 6⌉₊ = lo at hlo hceil
  have hns : t * 10 ^ 6 ≤ lo * 10 ^ 6 + P.resetWindow.nanos := by
    rw [← Nat.cast_le (α := ℚ)]
    push_cast
    linarith
  have hdiv : t - lo ≤ P.resetWindow.asMillis := by
    rw [Duration.asMillis, Nat.le_div_iff_mul_le (by decide), Nat.sub_mul, Nat.sub_le_iff_le_add']
    exact hns
  omega

end RestartState

theorem nondecreasing_of_decides {P : RestartPolicy} {log : List Exit}
    (h : ∀ pre e post, log = pre ++ e :: post → P.Decides (restarts pre) e.atMs.toNat e.decision)
    {pre : List Exit} {e : Exit} {mid : List Exit} {e' : Exit} {post : List Exit} {b b' : Duration}
    (hlog : log = pre ++ e :: (mid ++ e' :: post)) (hb : e.decision = .restart b)
    (hb' : e'.decision = .restart b') (hno : NoReset P (e :: (mid ++ [e']))) : b ≤ b' := by
  obtain ⟨t, d⟩ := e
  obtain ⟨t', d'⟩ := e'
  simp only at hb hb'
  subst hb hb'
  have h1 := (h pre _ _ hlog).backoff b rfl
  have h2 := (h (pre ++ ⟨t, .restart b⟩ :: mid) ⟨t', .restart b'⟩ post (by simp [hlog])).backoff b' rfl
  have hmid : restarts (pre ++ ⟨t, .restart b⟩ :: mid) = restarts mid ++ t.toNat :: restarts pre := by
    simp [restarts_append, restarts_cons, Exit.restartedAt]
  have hchain : restarts (⟨t, .restart b⟩ :: (mid ++ [⟨t', .restart b'⟩])) =
      (t'.toNat :: restarts mid) ++ [t.toNat] := by
    rw [restarts_cons, restarts_append]
    rfl
  rw [NoReset, hchain] at hno
  have hlong := streak_append (restarts pre) hno
  rw [List.cons_append, ← hmid] at hlong
  rw [Duration.le_def, h1, h2]
  apply P.backoffNanos_mono
  show streak _ (t.toNat :: restarts pre) ≤ streak _ (t'.toNat :: _)
  omega

/-- **The restart budget.** Over any nondecreasing sequence of exits nothing overflows, no closed
interval as long as `reset_window` holds more than `max_restarts` restarts, the supervisor gives
up exactly when the budget is used up, and the backoffs double up to their cap. -/
theorem restart_budget (P : RestartPolicy) (hfit : P.resetWindow.asMillis < 2 ^ 64)
    (ts : List UInt64) (hts : ts.Pairwise (· ≤ ·)) : ∃ log,
      (RestartState.new P).supervise ts = some log ∧ log.map Exit.atMs = ts ∧ P.Budgeted log := by
  obtain ⟨log, s, hsup, hmap, htr, hall⟩ :=
    RestartState.supervise_spec hfit ts hts _ [] (RestartState.tracks_new P) (by simp [restarts])
  simp only [List.nil_append] at htr hall
  refine ⟨log, hsup, hmap, htr.window, hall, ?_, ?_⟩
  · intro pre e mid e' post b b' hlog hb hb' hno
    exact nondecreasing_of_decides hall hlog hb hb' hno
  · intro e he b hb
    obtain ⟨pre, post, hlog⟩ := List.append_of_mem he
    rw [Duration.le_def, (hall pre e post hlog).backoff b hb]
    exact Nat.min_le_right _ _

/-- Six exits at once and one past the window, under the default policy. -/
theorem restart_budget_default : ∃ log,
    (RestartState.new .default).supervise [0, 0, 0, 0, 0, 0, 300001] = some log ∧
      log.map Exit.atMs = [0, 0, 0, 0, 0, 0, 300001] ∧ RestartPolicy.default.Budgeted log :=
  restart_budget .default (by decide) _ (by decide)

end Crawlrs

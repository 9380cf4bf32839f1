import Crawlrs.L3Frontier.System

/-!
# How long a ready host waits

`promote.lua` appends to `ready` and `claim.lua` takes from its front, so nothing gets
past a host that waits there. Each claim takes at least one entry from before the host,
and finds no reason to report the shard empty while the host has a queued URL.

* `Waiting.step`: what one op does to the place of a waiting host.
* `served_within`: a host with `n` entries before it is served by one of the next
  `n + 1` claims, whatever else happens to the shard meanwhile.
-/
namespace Crawlrs

variable {β : Type}

/-- `h` has a queued URL, and at most `n` entries before it in `ready`. -/
def Waiting (h : Host) (n : Nat) (s : Shard β) : Prop :=
  s.hostQueue h ≠ [] ∧ ∃ pre rest, s.ready = pre ++ h :: rest ∧ pre.length ≤ n

/-- The claim hands out a URL of `h`. -/
def Serves (h : Host) (s : Shard β) (now leaseMs : Int) : Prop :=
  ∃ u p, (s.claim now leaseMs).2 = .claimed u h p

def Op.isClaim : Op → Bool
  | .claim .. => true
  | _ => false

namespace Waiting

variable {B : Sketch UrlId β} {h : Host} {n : Nat} {s s' : Shard β}

theorem mono {m : Nat} (hw : Waiting h n s) (hm : n ≤ m) : Waiting h m s := by
  obtain ⟨hq, pre, rest, hr, hlen⟩ := hw
  exact ⟨hq, pre, rest, hr, Nat.le_trans hlen hm⟩

/-- Something is pushed to a queue. -/
theorem push (hw : Waiting h n s) {x : Host} {u : UrlId}
    (hq : s'.hostQueue = Function.update s.hostQueue x (s.hostQueue x ++ [u]))
    (hr : s'.ready = s.ready) : Waiting h n s' := by
  obtain ⟨hne, hready⟩ := hw
  refine ⟨?_, hr ▸ hready⟩
  rw [hq]
  by_cases hx : h = x
  · subst hx
    simp
  · rwa [Function.update_of_ne hx]

/-- Nothing but a claim, or a plan for the host itself, moves it back or away. -/
theorem eff (hw : Waiting h n s) {e : Eff} (hst : Eff.Step B s e s') (hstale : ∀ x, e ≠ .stale x)
    (hlease : ∀ u x t, e ≠ .lease u x t) (hadv : ∀ t, e ≠ .advance h t) : Waiting h n s' := by
  cases hst with
  | accept => exact hw.push rfl rfl
  | stale => exact absurd rfl (hstale _)
  | lease => exact absurd rfl (hlease _ _ _)
  | @promote x now t _ _ _ =>
    obtain ⟨hne, pre, rest, hr, hlen⟩ := hw
    refine ⟨hne, pre, rest ++ [x], ?_, hlen⟩
    simp [Shard.promoteOne, hr]
  | reclaim => exact hw.push rfl rfl
  | @advance x t =>
    obtain ⟨hne, pre, rest, hr, hlen⟩ := hw
    have hx : h ≠ x := fun he => hadv t (he ▸ rfl)
    refine ⟨hne, pre.filter (· ≠ x), rest.filter (· ≠ x), ?_, ?_⟩
    · simp [Shard.advanceWake, hr, hx]
    · exact Nat.le_trans (List.length_filter_le _ _) hlen
  | zrem => exact hw
  | hdel => exact hw

/-- A claim serves the host, or takes an entry from before it. -/
theorem claim (hw : Waiting h n s) (now leaseMs : Int) :
    Serves h s now leaseMs ∨ 0 < n ∧ Waiting h (n - 1) (s.claim now leaseMs).1 := by
  obtain ⟨hne, pre, rest, hr, hlen⟩ := hw
  have hmem : h ∈ s.ready := by simp [hr]
  have hc := Shard.claim_cases s now leaseMs
  generalize hres : s.claim now leaseMs = res at hc
  cases hc with
  | hint hall _ => exact absurd (hall h hmem) hne
  | empty hall _ => exact absurd (hall h hmem) hne
  | @claimed pre' rest' x u q hr' hpre' hx =>
    by_cases hxh : x = h
    · subst hxh
      exact Or.inl ⟨u, s.urls u, by rw [hres]⟩
    · right
      -- `h` is not among the stale entries, so what the claim took is a part of `pre`
      have hprefix : pre' ++ [x] <+: pre := by
        have hboth : pre' ++ [x] <+: s.ready := ⟨rest', by simp [hr']⟩
        have hpre : pre <+: s.ready := ⟨h :: rest, hr.symm⟩
        obtain hp | hp := List.prefix_or_prefix_of_prefix hboth hpre
        · exact hp
        · obtain hp | hp := List.prefix_concat_iff.1 hp
          · exact hp ▸ List.prefix_rfl
          · exfalso
            obtain ⟨ys, hys⟩ := hp
            have hhead : ys ++ x :: rest' = h :: rest := by
              have heq : pre ++ (ys ++ x :: rest') = pre ++ h :: rest := by
                rw [← List.append_assoc, hys, ← hr', hr]
              exact List.append_cancel_left heq
            cases ys with
            | nil => exact hxh (List.cons.inj hhead).1
            | cons y ys =>
              have hy : y = h := (List.cons.inj hhead).1
              have hin : h ∈ pre' := by rw [← hys, ← hy]; simp
              exact hne (hpre' h hin)
      obtain ⟨zs, hzs⟩ := hprefix
      have hlen' : pre'.length + 1 + zs.length ≤ n := by
        rw [← hzs] at hlen
        simp only [List.length_append, List.length_cons, List.length_nil] at hlen
        omega
      have hrest : rest' = zs ++ h :: rest := by
        have heq : pre' ++ [x] ++ rest' = pre' ++ [x] ++ (zs ++ h :: rest) := by
          rw [← List.append_assoc, hzs, ← hr, hr']
          simp
        exact List.append_cancel_left heq
      refine ⟨by omega, ?_, zs, rest, hrest, by omega⟩
      have hhx : h ≠ x := fun he => hxh he.symm
      simpa [Shard.take, hhx] using hne

/-- One op. -/
theorem step {E : Env β} {s s' : Sys β} {op : Op} (hw : Waiting h n s.shard)
    (hst : s.step E op = some s') (hadv : ∀ t, op ≠ .advanceWake h t) (hop : op.isClaim = false) :
    Waiting h n s'.shard := by
  obtain ⟨es, hsteps, hall, -⟩ := Sys.step_effs hst
  refine hsteps.preserves (P := Waiting h n) (Q := op.Effect E s) ?_ hall hw
  intro a e b ha he hab
  refine ha.eff hab ?_ ?_ ?_
  · rintro x rfl
    cases op with
    | claim => cases hop
    | _ => simp [Op.Effect] at he
  · rintro u x t rfl
    cases op with
    | claim => cases hop
    | _ => simp [Op.Effect] at he
  · rintro t rfl
    cases op with
    | advanceWake x t' => cases he; exact hadv t rfl
    | _ => simp [Op.Effect] at he

end Waiting

/-- The run, cut at a claim that serves `h` after at most `n` others. -/
def ServedWithin (E : Env β) (h : Host) (n : Nat) (s : Sys β) (tr : List Op) : Prop :=
  ∃ tr₁ s₁ now leaseMs tr₂, tr = tr₁ ++ .claim now leaseMs :: tr₂ ∧ (system E).Steps s tr₁ s₁ ∧
    Serves h s₁.shard now leaseMs ∧ tr₁.countP Op.isClaim ≤ n

theorem ServedWithin.cons {E : Env β} {h : Host} {n m : Nat} {s s' : Sys β} {op : Op} {tr : List Op}
    (hst : s.step E op = some s') (hs : ServedWithin E h m s' tr)
    (hm : m + (if op.isClaim then 1 else 0) ≤ n) : ServedWithin E h n s (op :: tr) := by
  obtain ⟨tr₁, s₁, now, leaseMs, tr₂, rfl, hrun, hserves, hcount⟩ := hs
  refine ⟨op :: tr₁, s₁, now, leaseMs, tr₂, rfl, .cons hst hrun, hserves, ?_⟩
  rw [List.countP_cons]
  omega

theorem Waiting.served {E : Env β} {h : Host} {s s' : Sys β} {tr : List Op}
    (hrun : (system E).Steps s tr s') (hadv : ∀ op ∈ tr, ∀ t, op ≠ .advanceWake h t) :
    ∀ {n : Nat}, Waiting h n s.shard → n < tr.countP Op.isClaim → ServedWithin E h n s tr := by
  -- along the run; the place of `h` bounds the claims that are left
  induction hrun with
  | nil s =>
    intro n _ hn
    simp at hn
  | @cons s s₁ s₂ op tr hst _ ih =>
    intro n hw hn
    have hadv' : ∀ op ∈ tr, ∀ t, op ≠ .advanceWake h t :=
      fun o ho => hadv o (List.mem_cons_of_mem _ ho)
    rw [List.countP_cons] at hn
    by_cases hop : op.isClaim = true
    · cases op with
      | claim now leaseMs =>
        obtain hserve | ⟨hpos, hw'⟩ := hw.claim now leaseMs
        · exact ⟨[], s, now, leaseMs, tr, rfl, .nil s, hserve, Nat.zero_le _⟩
        · have hs₁ : s₁.shard = (s.shard.claim now leaseMs).1 := by
            have hst : s.step E (.claim now leaseMs) = some s₁ := hst
            simp only [Sys.step, Option.some.injEq] at hst
            rw [← hst]
          refine (ih hadv' (hs₁ ▸ hw') ?_).cons hst ?_
          · simp only [Op.isClaim, if_true] at hn
            omega
          · simp only [Op.isClaim, if_true]
            omega
      | _ => cases hop
    · have hop : op.isClaim = false := by simpa using hop
      have hw' := hw.step hst (hadv op List.mem_cons_self) hop
      refine (ih hadv' hw' ?_).cons hst ?_
      · simpa [hop] using hn
      · simp [hop]

/-- **Bounded waiting.** A host with a queued URL and `pre` before it in `ready` is served by one
of the next `pre.length + 1` claims on its shard: in every run, whatever is submitted, promoted,
reclaimed or acknowledged meanwhile, unless a plan for this very host is written. -/
theorem served_within (E : Env β) (s s' : Sys β) (tr : List Op) (hrun : (system E).Steps s tr s')
    (h : Host) (pre rest : List Host) (hr : s.shard.ready = pre ++ h :: rest)
    (hq : s.shard.hostQueue h ≠ []) (hadv : ∀ op ∈ tr, ∀ t, op ≠ .advanceWake h t)
    (hn : pre.length < tr.countP Op.isClaim) : ServedWithin E h pre.length s tr :=
  Waiting.served hrun hadv ⟨hq, pre, rest, hr, Nat.le_refl _⟩ hn

/-- `b.test` is behind `a.test`, and the second claim serves it although `a.test` comes back. -/
theorem served_within_second : ServedWithin .sample "b.test" 1
    (.after .sample [] [.submit .a 0, .submit .b 0, .promote 0 10])
    [.claim 1 5, .submit .a' 2, .promote 6 10, .claim 7 5] := by
  exact served_within .sample _ _ _ (LTS.steps_replay (by decide +kernel)) "b.test" ["a.test"] []
    (by decide +kernel) (by decide +kernel) (by simp) (by decide)

end Crawlrs

import Crawlrs.L4Store.Kept

/-!
# Objects that replace each other

The path of a file is made of its shard and the millisecond it was opened at, and
a put replaces what is at the path. Two files of one shard opened in the same
millisecond get one path: the second upload takes the first one's place, and the
records of the first are gone although their writes answered `Ok(path)`.

Where the files of a shard are opened at pairwise distinct milliseconds, every
object holds, once everything is uploaded, exactly the records whose writes
returned its path, in their order: `objects_complete`.
-/
namespace Crawlrs

variable {F ρ : Type}

namespace Format

variable (K : Format F ρ)

/-- The records of the writes that returned `path`. -/
def rowsAt (returned : List Returned) (path : String) : List ρ :=
  (returned.filter fun y => y.path == path).map fun y => K.row y.record

/-- Nothing buffered, no call under way: a last flush is over. -/
def Drained (S : StoreState F) : Prop := S.active = ∅ ∧ S.calls = []

/-- Every path a write returned names an object, and the object holds the records of those writes,
each once. A flush with no other call under way leads to such a state. -/
structure ObjectsComplete (L : LTS (StoreState F) (Label F)) : Prop where
  complete : ∀ S, L.Reachable S → Drained S → ∀ y ∈ S.returned,
    ∃ f, K.objectAt S y.path = some f ∧ K.contents f = K.rowsAt S.returned y.path
  drains : ∀ S, L.Reachable S → S.calls = [] →
    ∃ tr S', L.Steps S tr S' ∧ Drained S' ∧ S'.returned = S.returned

/-- Every put succeeds. -/
def PutsSucceed (_ : StoreState F) : Label F → Prop
  | .resume _ ok => ok = true
  | _ => True

/-- No file of the shard was opened in that millisecond before. -/
def OpensFresh (S : StoreState F) : Label F → Prop
  | .write record t => record.shard ∉ S.active → (record.shard, t.wallMs) ∉ S.opened
  | _ => True

/-! ## One file for each path -/

structure Filed (a : Filing F ρ) : Prop where
  nodup : (a.places.map fun x => K.pathOf x.1).Nodup
  opened : ∀ x ∈ a.places, (x.1.1, K.windowStartMs x.1.2) ∈ a.opened
  rows : ∀ x ∈ a.places, K.contents x.1.2 = K.rowsAt a.returned (K.pathOf x.1) ++ x.2
  home : ∀ y ∈ a.returned, ∃ x ∈ a.places, K.pathOf x.1 = y.path

variable {K}

theorem rowsAt_append_self (R : List Returned) (n : Nat) (r : StoreRecord) (p : String) :
    K.rowsAt (R ++ [⟨n, r, p⟩]) p = K.rowsAt R p ++ [K.row r] := by
  simp [rowsAt]

theorem rowsAt_append_other (R : List Returned) (n : Nat) (r : StoreRecord) {p q : String}
    (h : p ≠ q) : K.rowsAt (R ++ [⟨n, r, p⟩]) q = K.rowsAt R q := by
  simp [rowsAt, h]

/-- A path whose shard and millisecond are new is nobody's. -/
theorem Filed.path_fresh {a : Filing F ρ} (h : K.Filed a) {s : ShardKey} {ms : UInt64}
    (hnew : (s, ms) ∉ a.opened) : ∀ x ∈ a.places, K.pathOf x.1 ≠ K.path s ms := by
  intro x hx he
  obtain ⟨hs, hm⟩ := K.path_injective he
  exact hnew (hs ▸ hm ▸ h.opened x hx)

section Moves

variable {P P' : List (Place F ρ)} {R : List Returned} {O : List (ShardKey × UInt64)}

theorem Filed.perm (h : K.Filed ⟨P, R, O⟩) (hp : P.Perm P') : K.Filed ⟨P', R, O⟩ where
  nodup := (hp.map _).nodup_iff.1 h.nodup
  opened x hx := h.opened x (hp.mem_iff.2 hx)
  rows x hx := h.rows x (hp.mem_iff.2 hx)
  home y hy := by
    obtain ⟨x, hx, he⟩ := h.home y hy
    exact ⟨x, hp.mem_iff.1 hx, he⟩

theorem Filed.openFile (h : K.Filed ⟨P, R, O⟩) {s : ShardKey} {ms : UInt64} (t : Nat)
    (hnew : (s, ms) ∉ O) : K.Filed ⟨(⟨s, K.openFile ms t⟩, []) :: P, R, (s, ms) :: O⟩ := by
  have hpath : K.pathOf ⟨s, K.openFile ms t⟩ = K.path s ms := by
    rw [pathOf, K.windowStartMs_openFile]
  have hfresh := h.path_fresh hnew
  have hnone : K.rowsAt R (K.path s ms) = [] := by
    rw [rowsAt, List.map_eq_nil_iff, List.filter_eq_nil_iff]
    intro y hy he
    obtain ⟨x, hx, hxy⟩ := h.home y hy
    exact hfresh x hx (hxy.trans (by simpa using he))
  refine ⟨?_, ?_, ?_, ?_⟩
  · rw [List.map_cons, List.nodup_cons, hpath]
    refine ⟨fun hmem => ?_, h.nodup⟩
    obtain ⟨x, hx, he⟩ := List.mem_map.1 hmem
    exact hfresh x hx he
  · intro x hx
    rcases List.mem_cons.1 hx with rfl | hx
    · rw [K.windowStartMs_openFile]
      exact List.mem_cons_self
    · exact List.mem_cons_of_mem _ (h.opened x hx)
  · intro x hx
    rcases List.mem_cons.1 hx with rfl | hx
    · simp only [hpath, hnone, K.contents_openFile, List.append_nil]
    · exact h.rows x hx
  · intro y hy
    obtain ⟨x, hx, he⟩ := h.home y hy
    exact ⟨x, List.mem_cons_of_mem _ hx, he⟩

theorem Filed.push {s : ShardKey} {f : F} (h : K.Filed ⟨(⟨s, f⟩, []) :: P, R, O⟩) (r : StoreRecord) :
    K.Filed ⟨(⟨s, K.append f r⟩, [K.row r]) :: P, R, O⟩ := by
  have hpath : K.pathOf ⟨s, K.append f r⟩ = K.pathOf ⟨s, f⟩ := by
    rw [pathOf, K.windowStartMs_append, pathOf]
  refine ⟨?_, ?_, ?_, ?_⟩
  · have hnd := h.nodup
    simpa [hpath] using hnd
  · intro x hx
    rcases List.mem_cons.1 hx with rfl | hx
    · rw [K.windowStartMs_append]
      exact h.opened _ List.mem_cons_self
    · exact h.opened x (List.mem_cons_of_mem _ hx)
  · intro x hx
    rcases List.mem_cons.1 hx with rfl | hx
    · have hf := h.rows _ List.mem_cons_self
      simp only [List.append_nil] at hf
      simp only [K.contents_append, hpath, hf]
    · exact h.rows x (List.mem_cons_of_mem _ hx)
  · intro y hy
    obtain ⟨x, hx, he⟩ := h.home y hy
    rcases List.mem_cons.1 hx with rfl | hx
    · exact ⟨_, List.mem_cons_self, hpath.trans he⟩
    · exact ⟨x, List.mem_cons_of_mem _ hx, he⟩

theorem Filed.ret {x : ShardFile F} {r : StoreRecord} (h : K.Filed ⟨(x, [K.row r]) :: P, R, O⟩)
    (n : Nat) : K.Filed ⟨(x, []) :: P, R ++ [⟨n, r, K.pathOf x⟩], O⟩ := by
  have hother : ∀ y ∈ P, K.pathOf x ≠ K.pathOf y.1 := by
    intro y hy he
    have hnd := h.nodup
    rw [List.map_cons, List.nodup_cons] at hnd
    exact hnd.1 (List.mem_map.2 ⟨y, hy, he.symm⟩)
  refine ⟨h.nodup, ?_, ?_, ?_⟩
  · intro y hy
    rcases List.mem_cons.1 hy with rfl | hy
    · exact h.opened (x, [K.row r]) List.mem_cons_self
    · exact h.opened y (List.mem_cons_of_mem _ hy)
  · intro y hy
    rcases List.mem_cons.1 hy with rfl | hy
    · simp only [rowsAt_append_self, List.append_nil]
      exact h.rows _ List.mem_cons_self
    · rw [rowsAt_append_other R n r (hother y hy)]
      exact h.rows y (List.mem_cons_of_mem _ hy)
  · intro y hy
    rcases List.mem_append.1 hy with hy | hy
    · obtain ⟨z, hz, he⟩ := h.home y hy
      rcases List.mem_cons.1 hz with rfl | hz
      · exact ⟨_, List.mem_cons_self, he⟩
      · exact ⟨z, List.mem_cons_of_mem _ hz, he⟩
    · cases List.mem_singleton.1 hy
      exact ⟨_, List.mem_cons_self, rfl⟩

end Moves

theorem Filed.move {a b : Filing F ρ} (h : K.Filed a)
    (hm : K.Move (fun O k => k ∉ O) (fun _ => False) a b) : K.Filed b := by
  cases hm with
  | perm hp => exact h.perm hp
  | openFile s ms t hnew => exact h.openFile t hnew
  | push s f r => exact h.push r
  | ret x n r => exact h.ret n
  | lose hl => exact hl.elim

/-- The steps of a run in which puts succeed and files open at fresh milliseconds. -/
def Orderly (S : StoreState F) (l : Label F) : Prop := PutsSucceed S l ∧ OpensFresh S l

theorem inductive_filed : (K.runs.restrict Orderly).Inductive fun S =>
    K.Planned S ∧ K.Filed (K.filing S) := by
  refine K.inductive_of_moves (fun O k => k ∉ O) (fun _ => False) (fun _ _ _ hok => hok.2) ?_
    ⟨by simp, by simp, by simp, by simp⟩ fun a b h hm => h.move hm
  intro S i c hok
  exact absurd hok.1 (by simp [PutsSucceed])

/-! ## When everything is uploaded -/

/-- What is at the path of a write that returned. -/
theorem Filed.complete {S : StoreState F} (h : K.Filed (K.filing S)) (hd : Drained S) {y : Returned}
    (hy : y ∈ S.returned) :
    ∃ f, K.objectAt S y.path = some f ∧ K.contents f = K.rowsAt S.returned y.path := by
  have hplaces : (K.filing S).places = settled S.puts := by
    simp [filing, hd.1, hd.2, settled]
  obtain ⟨x, hx, hpath⟩ := h.home y hy
  rw [hplaces] at hx
  obtain ⟨z, hz, rfl⟩ := List.mem_map.1 hx
  have hfind : (S.puts.find? fun x => K.pathOf x == y.path).isSome := by
    rw [List.find?_isSome]
    exact ⟨z, hz, by simpa using hpath⟩
  obtain ⟨w, hw⟩ := Option.isSome_iff_exists.1 hfind
  have hwpath : K.pathOf w = y.path := by simpa using List.find?_some hw
  have hwmem : (w, []) ∈ (K.filing S).places := by
    rw [hplaces]
    exact List.mem_map_of_mem (List.mem_of_find?_eq_some hw)
  refine ⟨w.2, by simp [objectAt, hw], ?_⟩
  have hrows : K.contents w.2 = K.rowsAt S.returned (K.pathOf w) ++ [] := h.rows _ hwmem
  rw [hrows, hwpath, List.append_nil]

/-- The puts of a flush, one after another. -/
theorem drain_steps {ok : StoreState F → Label F → Prop} (hok : ∀ S i, ok S (.resume i true))
    (files : List (ShardFile F)) : ∀ S : StoreState F, S.active = ∅ → S.calls = [.flush files] →
      ∃ tr S', (K.runs.restrict ok).Steps S tr S' ∧ Drained S' ∧ S'.returned = S.returned := by
  induction files with
  | nil =>
    intro S hact hc
    have hres : resume S 0 true = some { S with calls := [] } := by
      simp [Format.resume, hc]
    exact ⟨_, _, .cons ⟨hok S 0, .resume hres⟩ (.nil _), ⟨hact, rfl⟩, rfl⟩
  | cons x rest ih =>
    intro S hact hc
    have hres : resume S 0 true = some { S with calls := [.flush rest], puts := x :: S.puts } := by
      simp [Format.resume, hc]
    obtain ⟨tr, S', hst, hd, hr⟩ := ih { S with calls := [.flush rest], puts := x :: S.puts } hact rfl
    exact ⟨_, S', .cons ⟨hok S 0, .resume hres⟩ hst, hd, hr⟩

theorem flush_drains {S : StoreState F} {ok : StoreState F → Label F → Prop}
    (hok : ∀ S i, ok S (.resume i true)) (hflush : ∀ S files, ok S (.flush files))
    (hc : S.calls = []) :
    ∃ tr S', (K.runs.restrict ok).Steps S tr S' ∧ Drained S' ∧ S'.returned = S.returned := by
  obtain ⟨tr, S', hst, hd, hr⟩ := drain_steps (K := K) hok S.active.entries
    (flush S S.active.entries) rfl (by simp [flush, hc])
  exact ⟨_, S', .cons ⟨hflush _ _, .flush S (.refl _)⟩ hst, hd, hr⟩

theorem objectsComplete_of_orderly : K.ObjectsComplete (K.runs.restrict Orderly) where
  complete S hS hd _ hy := (inductive_filed.reachable S hS).2.complete hd hy
  drains _ _ hc := flush_drains (fun _ _ => ⟨rfl, trivial⟩) (fun _ _ => ⟨trivial, trivial⟩) hc

/-- A file that is due with its first record, written while nothing else is going on and uploaded. -/
theorem steps_due {ok : StoreState F → Label F → Prop} (hok : ∀ S i, ok S (.resume i true))
    (hw : ∀ S record t, ok S (.write record t)) {record : StoreRecord} {t : Reading} {file : F}
    (hfile : K.append (K.openFile t.wallMs t.openedAt) record = file)
    (hdue : K.rotation.shouldRotate (K.rows file) (K.rawBytes file) (t.now - K.openedAt file) = true)
    (puts : List (ShardFile F)) (returned : List Returned) (opened : List (ShardKey × UInt64))
    (n : Nat) : ∃ tr, (K.runs.restrict ok).Steps ⟨∅, [], puts, returned, opened, n⟩ tr
      ⟨∅, [], ⟨record.shard, file⟩ :: puts,
        returned ++ [⟨n, record, K.path record.shard (K.windowStartMs file)⟩],
        (record.shard, t.wallMs) :: opened, n + 1⟩ := by
  have hnew : K.fileFor ⟨∅, [], puts, returned, opened, n⟩ record.shard t =
      K.openFile t.wallMs t.openedAt := rfl
  have hwrite : K.write ⟨∅, [], puts, returned, opened, n⟩ record t =
      ⟨∅, [.write n record (K.path record.shard (K.windowStartMs file)) file], puts, returned,
        (record.shard, t.wallMs) :: opened, n + 1⟩ := by
    simp only [Format.write, hnew, hfile, hdue, if_true]
    rfl
  have h1 : K.Step ⟨∅, [], puts, returned, opened, n⟩ (.write record t)
      (K.write ⟨∅, [], puts, returned, opened, n⟩ record t) := .write _ record t
  rw [hwrite] at h1
  exact ⟨_, .cons ⟨hw _ _ _, h1⟩ (.cons ⟨hok _ 0, .resume rfl⟩ (.nil _))⟩

/-- Two files of one shard, opened in the same millisecond. -/
theorem not_objectsComplete_of_due (r₁ r₂ : StoreRecord) (t : Reading) {f₁ f₂ : F}
    (h₁ : K.append (K.openFile t.wallMs t.openedAt) r₁ = f₁)
    (h₂ : K.append (K.openFile t.wallMs t.openedAt) r₂ = f₂)
    (hdue₁ : K.rotation.shouldRotate (K.rows f₁) (K.rawBytes f₁) (t.now - K.openedAt f₁) = true)
    (hdue₂ : K.rotation.shouldRotate (K.rows f₂) (K.rawBytes f₂) (t.now - K.openedAt f₂) = true)
    (hs : r₁.shard = r₂.shard) : ¬ K.ObjectsComplete (K.runs.restrict PutsSucceed) := by
  intro hall
  have hok : ∀ (S : StoreState F) i, PutsSucceed S (.resume i true) := fun _ _ => rfl
  have hw : ∀ (S : StoreState F) record t, PutsSucceed S (.write record t) := fun _ _ _ => trivial
  obtain ⟨tr₁, hst₁⟩ := steps_due hok hw h₁ hdue₁ [] [] [] 0
  obtain ⟨tr₂, hst₂⟩ := steps_due hok hw h₂ hdue₂ [⟨r₁.shard, f₁⟩]
    [⟨0, r₁, K.path r₁.shard (K.windowStartMs f₁)⟩] [(r₁.shard, t.wallMs)] 1
  have hreach := (LTS.Reachable.init rfl).steps (hst₁.append hst₂)
  have hms : ∀ f r, K.append (K.openFile t.wallMs t.openedAt) r = f → K.windowStartMs f = t.wallMs := by
    rintro f r rfl
    rw [K.windowStartMs_append, K.windowStartMs_openFile]
  -- Both writes returned the path of the object, which is the second file.
  have hpath : K.path r₁.shard (K.windowStartMs f₁) = K.path r₂.shard (K.windowStartMs f₂) := by
    rw [hms f₁ r₁ h₁, hms f₂ r₂ h₂, hs]
  obtain ⟨f, hf, hrows⟩ := hall.complete _ hreach ⟨rfl, rfl⟩ _ List.mem_cons_self
  have hobj : f = f₂ := by simpa [objectAt, pathOf, hpath] using hf.symm
  have hone : K.contents f₂ = [K.row r₂] := by
    rw [← h₂, K.contents_append, K.contents_openFile, List.nil_append]
  rw [hobj, hone] at hrows
  have hlen := congrArg List.length hrows
  simp [rowsAt, hpath] at hlen

end Format

/-- Both stores, in every run whose puts succeed and whose files of one shard are opened at pairwise
distinct milliseconds. -/
theorem objects_complete (paths : PathBuilder) (rotation : RotationPolicy) (runId : String) :
    (ParquetStore.format paths rotation).ObjectsComplete
      ((ParquetStore.format paths rotation).runs.restrict Format.Orderly) ∧
    (WarcStore.format paths rotation runId).ObjectsComplete
      ((WarcStore.format paths rotation runId).runs.restrict Format.Orderly) :=
  ⟨Format.objectsComplete_of_orderly, Format.objectsComplete_of_orderly⟩

def StoreRecord.sample' : StoreRecord where
  doc := ⟨UrlEntry.seedA'.url, 200, none, none, []⟩
  resp := ⟨UrlEntry.seedA'.url, 200, [], []⟩
  runId := "run-1"
  shard := 0
  depth := 0
  contentHash := Crawlrs.contentHash []

/-- One row per file, and two pages of a shard written within one millisecond: the second object
replaces the first. -/
theorem not_objectsComplete :
    ¬ (ParquetStore.format .sample { maxRows := 1 }).ObjectsComplete
      ((ParquetStore.format .sample { maxRows := 1 }).runs.restrict Format.PutsSucceed) ∧
    ¬ (WarcStore.format .sample { maxRows := 1 } "run-1").ObjectsComplete
      ((WarcStore.format .sample { maxRows := 1 } "run-1").runs.restrict Format.PutsSucceed) :=
  ⟨Format.not_objectsComplete_of_due .sample .sample' ⟨1700000000000, 0, 0⟩ rfl rfl (by decide)
      (by decide) rfl,
    Format.not_objectsComplete_of_due .sample .sample' ⟨1700000000000, 0, 0⟩ rfl rfl (by decide)
      (by decide) rfl⟩

end Crawlrs

import Crawlrs.L4Store.Store
import Mathlib.Logic.Relation

/-!
# Where the files of a store are

A file is in one place at a time: open in the map, inside a call that uploads it,
or among the objects put. `Filing` lists the places, each with the records of the
write that has not returned yet, and forgets which kind of place it is.

A step of the store is a few `Move`s of its filing: open a file, push a record,
return, lose the files of a call whose put failed. So what every move keeps, every
run keeps.
-/
namespace Crawlrs

variable {F ρ : Type}

/-- A file, and the records in it whose writes have not returned. -/
abbrev Place (F ρ : Type) := ShardFile F × List ρ

structure Filing (F ρ : Type) where
  places : List (Place F ρ)
  returned : List Returned
  opened : List (ShardKey × UInt64)

namespace Format

variable (K : Format F ρ)

/-- Files that hold nothing but records of writes that returned. -/
def settled (files : List (ShardFile F)) : List (Place F ρ) := files.map fun x => (x, [])

def placesOf : StoreCall F → List (Place F ρ)
  | .write _ record _ file => [(⟨record.shard, file⟩, [K.row record])]
  | .flush files => settled files

def filing (S : StoreState F) : Filing F ρ where
  places := settled S.active.entries ++ (S.calls.flatMap K.placesOf ++ settled S.puts)
  returned := S.returned
  opened := S.opened

/-- What a step does to the filing. `fresh` is asked where a file is opened, `lost` of the files
a failed call drops. -/
inductive Move (fresh : List (ShardKey × UInt64) → ShardKey × UInt64 → Prop)
    (lost : List (Place F ρ) → Prop) : Filing F ρ → Filing F ρ → Prop
  | perm {P P' : List (Place F ρ)} {R : List Returned} {O : List (ShardKey × UInt64)}
      (h : P.Perm P') : Move fresh lost ⟨P, R, O⟩ ⟨P', R, O⟩
  | openFile {P : List (Place F ρ)} {R : List Returned} {O : List (ShardKey × UInt64)}
      (s : ShardKey) (ms : UInt64) (t : Nat) (h : fresh O (s, ms)) :
      Move fresh lost ⟨P, R, O⟩ ⟨(⟨s, K.openFile ms t⟩, []) :: P, R, (s, ms) :: O⟩
  | push {P : List (Place F ρ)} {R : List Returned} {O : List (ShardKey × UInt64)}
      (s : ShardKey) (f : F) (r : StoreRecord) :
      Move fresh lost ⟨(⟨s, f⟩, []) :: P, R, O⟩ ⟨(⟨s, K.append f r⟩, [K.row r]) :: P, R, O⟩
  | ret {P : List (Place F ρ)} {R : List Returned} {O : List (ShardKey × UInt64)}
      (x : ShardFile F) (n : Nat) (r : StoreRecord) :
      Move fresh lost ⟨(x, [K.row r]) :: P, R, O⟩ ⟨(x, []) :: P, R ++ [⟨n, r, K.pathOf x⟩], O⟩
  | lose {P L : List (Place F ρ)} {R : List Returned} {O : List (ShardKey × UInt64)} (h : lost L) :
      Move fresh lost ⟨L ++ P, R, O⟩ ⟨P, R, O⟩

abbrev Moves (fresh : List (ShardKey × UInt64) → ShardKey × UInt64 → Prop)
    (lost : List (Place F ρ) → Prop) : Filing F ρ → Filing F ρ → Prop :=
  Relation.ReflTransGen (K.Move fresh lost)

/-- A write under way returns the path its file is put at. -/
def Planned (S : StoreState F) : Prop :=
  ∀ n r p f, StoreCall.write n r p f ∈ S.calls → p = K.pathOf ⟨r.shard, f⟩

/-! ## A step, as moves -/

section Steps

variable {K} {fresh : List (ShardKey × UInt64) → ShardKey × UInt64 → Prop}
  {lost : List (Place F ρ) → Prop} {S S' : StoreState F}

theorem Move.of_perm {a b : Filing F ρ} (hp : a.places.Perm b.places) (hr : a.returned = b.returned)
    (ho : a.opened = b.opened) : K.Move fresh lost a b := by
  obtain ⟨P, R, O⟩ := a
  obtain ⟨P', R', O'⟩ := b
  cases hr
  cases ho
  exact .perm hp

theorem planned_write (S : StoreState F) (h : K.Planned S) (record : StoreRecord) (t : Reading) :
    K.Planned (K.write S record t) := by
  intro n r p f hm
  simp only [Format.write] at hm
  split at hm
  · rcases List.mem_append.1 hm with hm | hm
    · exact h n r p f hm
    · cases List.mem_singleton.1 hm
      rfl
  · exact h n r p f hm

theorem planned_step {l : Label F} (h : K.Planned S) (hst : K.Step S l S') : K.Planned S' := by
  cases hst with
  | write record t => exact planned_write S h record t
  | flush hp =>
    intro n r p f hm
    rcases List.mem_append.1 hm with hm | hm
    · exact h n r p f hm
    · cases List.mem_singleton.1 hm
  | resume hr =>
    rename_i i ok
    -- Whatever the call was, the writes under way afterwards were under way before.
    suffices hsub : ∀ n r p f, StoreCall.write n r p f ∈ S'.calls → StoreCall.write n r p f ∈ S.calls by
      exact fun n r p f hm => h n r p f (hsub n r p f hm)
    intro n r p f hm
    unfold Format.resume at hr
    split at hr
    · cases hr
    · cases hr
      cases ok <;> exact List.mem_of_mem_eraseIdx hm
    · cases hr
      exact List.mem_of_mem_eraseIdx hm
    · cases hr
      cases ok with
      | true =>
        rcases List.mem_or_eq_of_mem_set hm with hm | hm
        · exact hm
        · cases hm
      | false => exact List.mem_of_mem_eraseIdx hm

/-- The map with the shard's file in front. -/
theorem entries_perm {s : ShardKey} {f : F} (h : S.active.lookup s = some f) :
    S.active.entries.Perm (⟨s, f⟩ :: (S.active.erase s).entries) := by
  have hmem : s ∈ S.active.entries.keys := AList.lookup_isSome.1 (by simp [h])
  obtain ⟨f', l₁, l₂, -, hl, he⟩ := List.exists_of_kerase hmem
  have hf : f' = f := by
    have hin : (⟨s, f'⟩ : ShardFile F) ∈ S.active.entries := by simp [hl]
    have := AList.mem_lookup_iff.2 hin
    rw [h] at this
    exact (Option.some.inj this).symm
  subst hf
  have herase : (S.active.erase s).entries = l₁ ++ l₂ := he
  rw [herase, hl]
  exact List.perm_middle

/-- Before anything is pushed: the shard's file, opened if there is none. -/
theorem moves_fileFor (record : StoreRecord) (t : Reading)
    (hopen : record.shard ∉ S.active → fresh S.opened (record.shard, t.wallMs)) :
    K.Moves fresh lost (K.filing S)
      ⟨(⟨record.shard, K.fileFor S record.shard t⟩, []) ::
        (settled (S.active.erase record.shard).entries ++
          (S.calls.flatMap K.placesOf ++ settled S.puts)), S.returned,
        if record.shard ∈ S.active then S.opened else (record.shard, t.wallMs) :: S.opened⟩ := by
  cases hl : S.active.lookup record.shard with
  | some f =>
    have hmem : record.shard ∈ S.active := AList.lookup_isSome.1 (by simp [hl])
    simp only [fileFor, hl, Option.getD_some, if_pos hmem]
    exact .single (.of_perm (((entries_perm hl).map _).append_right _) rfl rfl)
  | none =>
    have hmem : record.shard ∉ S.active := AList.lookup_eq_none.1 hl
    have herase : (S.active.erase record.shard).entries = S.active.entries :=
      List.kerase_of_notMem_keys hmem
    simp only [fileFor, hl, Option.getD_none, if_neg hmem, herase]
    exact .single (.openFile _ _ _ (hopen hmem))

theorem moves_write (record : StoreRecord) (t : Reading)
    (hopen : record.shard ∉ S.active → fresh S.opened (record.shard, t.wallMs)) :
    K.Moves fresh lost (K.filing S) (K.filing (K.write S record t)) := by
  have hfile : K.Moves fresh lost (K.filing S) _ := moves_fileFor record t hopen
  have hpush := hfile.tail (.push _ _ record)
  simp only [Format.write]
  split
  · refine hpush.tail (.of_perm ?_ rfl rfl)
    have hcall : (S.calls ++ [StoreCall.write S.tickets record
        (K.path record.shard (K.windowStartMs (K.append (K.fileFor S record.shard t) record)))
        (K.append (K.fileFor S record.shard t) record)]).flatMap K.placesOf =
          S.calls.flatMap K.placesOf ++
            [(⟨record.shard, K.append (K.fileFor S record.shard t) record⟩, [K.row record])] := by
      simp [placesOf]
    simp only [filing, hcall, List.append_assoc, List.singleton_append]
    rw [← List.append_assoc, ← List.append_assoc]
    exact List.perm_middle.symm
  · exact (hpush.tail (.ret _ S.tickets record)).tail (.of_perm (.refl _) rfl rfl)

theorem moves_flush {files : List (ShardFile F)} (h : files.Perm S.active.entries) :
    K.Moves fresh lost (K.filing S) (K.filing (flush S files)) := by
  refine .single (.of_perm ?_ rfl rfl)
  have hcall : (S.calls ++ [StoreCall.flush files]).flatMap K.placesOf =
      S.calls.flatMap K.placesOf ++ settled files := by
    simp [placesOf]
  simp only [filing, flush, hcall, AList.empty_entries, settled, List.map_nil, List.nil_append]
  rw [← List.append_assoc]
  exact ((List.perm_append_comm).trans ((h.map _).symm.append_left _)).append_right _

/-- The files of call `i`, in front of everything else. -/
theorem places_perm {i : Nat} {c : StoreCall F} (h : S.calls[i]? = some c) :
    (K.filing S).places.Perm (K.placesOf c ++
      (settled S.active.entries ++ ((S.calls.eraseIdx i).flatMap K.placesOf ++ settled S.puts))) := by
  obtain ⟨hi, rfl⟩ := List.getElem?_eq_some_iff.1 h
  have hcalls := (List.getElem_cons_eraseIdx_perm hi).flatMap_right K.placesOf
  rw [List.flatMap_cons] at hcalls
  refine ((hcalls.symm.append_right _).append_left _).trans ?_
  rw [List.append_assoc, ← List.append_assoc, ← List.append_assoc (K.placesOf _)]
  exact List.perm_append_comm.append_right _

/-- The places of everything but call `i`. -/
def placesBut (K : Format F ρ) (S : StoreState F) (i : Nat) : List (Place F ρ) :=
  settled S.active.entries ++ ((S.calls.eraseIdx i).flatMap K.placesOf ++ settled S.puts)

theorem move_front {i : Nat} {c : StoreCall F} (h : S.calls[i]? = some c) :
    K.Move fresh lost (K.filing S) ⟨K.placesOf c ++ K.placesBut S i, S.returned, S.opened⟩ :=
  .perm (places_perm h)

theorem moves_resume {i : Nat} {ok : Bool} (hplan : K.Planned S)
    (hlost : ok = false → ∀ c, S.calls[i]? = some c → lost (K.placesOf c))
    (h : resume S i ok = some S') : K.Moves fresh lost (K.filing S) (K.filing S') := by
  -- A failed put drops the call with its files.
  have hdrop : ∀ c, S.calls[i]? = some c → ok = false →
      K.Moves fresh lost (K.filing S) (K.filing { S with calls := S.calls.eraseIdx i }) :=
    fun c hc hok => .tail (.single (move_front hc)) (.lose (hlost hok c hc))
  unfold Format.resume at h
  split at h
  · cases h
  · rename_i n r p f hc
    have hp : p = K.pathOf ⟨r.shard, f⟩ := hplan n r p f (List.mem_of_getElem? hc)
    subst hp
    cases h
    cases ok with
    | true =>
      have hret : K.Moves fresh lost (K.filing S) ⟨(⟨r.shard, f⟩, []) :: K.placesBut S i,
          S.returned ++ [⟨n, r, K.pathOf ⟨r.shard, f⟩⟩], S.opened⟩ :=
        .tail (.single (move_front hc)) (.ret _ n r)
      refine hret.tail (.of_perm ?_ rfl rfl)
      simp only [filing, placesBut, settled, if_true, List.map_cons]
      rw [← List.append_assoc, ← List.append_assoc]
      exact List.perm_middle.symm
    | false => exact hdrop _ hc rfl
  · rename_i hc
    cases h
    exact .single (move_front hc)
  · rename_i x rest hc
    cases h
    cases ok with
    | true =>
      obtain ⟨hi, -⟩ := List.getElem?_eq_some_iff.1 hc
      have hset : ((S.calls.set i (.flush rest)).flatMap K.placesOf).Perm
          (settled rest ++ (S.calls.eraseIdx i).flatMap K.placesOf) :=
        (List.set_perm_cons_eraseIdx hi (StoreCall.flush rest)).flatMap_right K.placesOf
      refine .tail (.single (move_front hc)) (.of_perm ?_ rfl rfl)
      have hback : (settled rest ++ K.placesBut S i).Perm (settled S.active.entries ++
          ((settled rest ++ (S.calls.eraseIdx i).flatMap K.placesOf) ++ settled S.puts)) := by
        rw [List.append_assoc]
        exact List.perm_append_comm_assoc _ _ _
      have hput : ((x, []) :: (settled S.active.entries ++ ((settled rest ++
          (S.calls.eraseIdx i).flatMap K.placesOf) ++ settled S.puts))).Perm
          (settled S.active.entries ++ ((settled rest ++ (S.calls.eraseIdx i).flatMap K.placesOf) ++
            settled (x :: S.puts))) := by
        generalize settled rest ++ (S.calls.eraseIdx i).flatMap K.placesOf = B
        rw [← List.append_assoc, ← List.append_assoc]
        exact List.perm_middle.symm
      exact ((hback.cons _).trans hput).trans ((hset.symm.append_right _).append_left _)
    | false => exact hdrop _ hc rfl

/-- A step is a few moves, `fresh` where it opens a file and `lost` where its put fails. -/
theorem moves_of_step {l : Label F} (hplan : K.Planned S)
    (hopen : ∀ record t, l = .write record t → record.shard ∉ S.active →
      fresh S.opened (record.shard, t.wallMs))
    (hlost : ∀ i, l = .resume i false → ∀ c, S.calls[i]? = some c → lost (K.placesOf c))
    (h : K.Step S l S') : K.Moves fresh lost (K.filing S) (K.filing S') := by
  cases h with
  | write record t => exact moves_write record t (hopen record t rfl)
  | flush hp => exact moves_flush hp
  | resume hr =>
    refine moves_resume hplan (fun hok => ?_) hr
    subst hok
    exact hlost _ rfl

end Steps

/-- What every move keeps holds of the filing in every run whose steps meet `ok`. -/
theorem inductive_of_moves (fresh : List (ShardKey × UInt64) → ShardKey × UInt64 → Prop)
    (lost : List (Place F ρ) → Prop) {ok : StoreState F → Label F → Prop} {I : Filing F ρ → Prop}
    (hopen : ∀ S record t, ok S (.write record t) → record.shard ∉ S.active →
      fresh S.opened (record.shard, t.wallMs))
    (hlost : ∀ S i c, ok S (.resume i false) → S.calls[i]? = some c → lost (K.placesOf c))
    (h0 : I ⟨[], [], []⟩) (hmove : ∀ a b, I a → K.Move fresh lost a b → I b) :
    (K.runs.restrict ok).Inductive fun S => K.Planned S ∧ I (K.filing S) where
  init S h := by
    have h : S = .empty := h
    subst h
    exact ⟨fun _ _ _ _ hm => absurd hm List.not_mem_nil, h0⟩
  step S l S' hi hst := by
    obtain ⟨hplan, hI⟩ := hi
    obtain ⟨hok, hst⟩ := hst
    have hmoves : K.Moves fresh lost (K.filing S) (K.filing S') :=
      moves_of_step hplan (fun record t hl => hopen S record t (hl ▸ hok))
        (fun i hl c hc => hlost S i c (hl ▸ hok) hc) hst
    refine ⟨planned_step hplan hst, ?_⟩
    clear hst
    generalize K.filing S' = b at hmoves
    induction hmoves with
    | refl => exact hI
    | tail _ hm ih => exact hmove _ _ ih hm

end Format

end Crawlrs

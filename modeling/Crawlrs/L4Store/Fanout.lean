import Crawlrs.L4Store.Overwrite

/-!
# One write to several stores (`crawlrs-store/src/multi_store.rs`)

`MultiStore` hands a record to its stores one after the other and stops at the first
that fails; it returns the path of the first, the primary. `Fanout` is such a list of
stores with the calls under way in it: a call waits for one store's write, and others
run meanwhile. `flush` goes through all stores whatever they answer, so here a flush
of any store can come at any time.

* `step_stores`: what one step does to the stores is at most one step of one of them.
* `fanout_kept`: a record `MultiStore` acknowledged is in every store's memory or objects,
  and so is in each store what a later one acknowledged.
* `fanout_complete`: after a last flush the path it returned names an object of the
  primary that holds the record, and the other stores hold it too.
-/
namespace Crawlrs

/-- A write that went through the stores before `paths.length`, and waits for that one's. -/
structure FanCall where
  record : StoreRecord
  ticket : Nat
  paths : List String

/-- The stores of `MultiStore::new`, at least one, with the calls under way. `returned` are the writes
that answered `Ok`, with their paths. -/
structure Fanout {n : Nat} (F : Fin (n + 1) → Type) where
  stores : ∀ i, StoreState (F i)
  calls : List FanCall
  returned : List (StoreRecord × String)

namespace Fanout

variable {n : Nat} {F ρ : Fin (n + 1) → Type} (K : ∀ i, Format (F i) (ρ i))

def empty : Fanout F := ⟨fun _ => .empty, [], []⟩

def setStore (S : Fanout F) (i : Fin (n + 1)) (T : StoreState (F i)) : Fanout F :=
  { S with stores := Function.update S.stores i T }

@[simp] theorem setStore_self (S : Fanout F) (i : Fin (n + 1)) (T : StoreState (F i)) :
    (S.setStore i T).stores i = T := Function.update_self _ _ _

theorem setStore_of_ne (S : Fanout F) {i i' : Fin (n + 1)} (h : i' ≠ i) (T : StoreState (F i)) :
    (S.setStore i T).stores i' = S.stores i' := Function.update_of_ne h _ _

/-- The write of store `i` begins, the others' paths in hand. -/
def enter (S : Fanout F) (i : Fin (n + 1)) (record : StoreRecord) (t : Reading) (paths : List String) :
    Fanout F :=
  { S.setStore i ((K i).write (S.stores i) record t) with
    calls := S.calls ++ [⟨record, (S.stores i).tickets, paths⟩] }

/-- A step of one of the stores. -/
abbrev Move (F : Fin (n + 1) → Type) := Σ i, Format.Label (F i)

def drop (S : Fanout F) (j : Nat) : Fanout F := { S with calls := S.calls.eraseIdx j }

/-- The label is what one of the stores does.
mirrors crates/crawlrs-store/src/multi_store.rs:66-99 -/
inductive Step : Fanout F → Option (Move F) → Fanout F → Prop
  | begin (S : Fanout F) (record : StoreRecord) (t : Reading) :
      Step S (some ⟨0, .write record t⟩) (enter K S 0 record t [])
  /-- `paths.push(store.write(record).await?)`, and the next store's turn. -/
  | next {S : Fanout F} {j : Nat} {c : FanCall} {i i' : Fin (n + 1)} {y : Returned} (t : Reading)
      (hc : S.calls[j]? = some c) (hi : i.val = c.paths.length) (hi' : i'.val = c.paths.length + 1)
      (hy : y ∈ (S.stores i).returned) (hticket : y.ticket = c.ticket) :
      Step S (some ⟨i', .write c.record t⟩) (enter K (S.drop j) i' c.record t (c.paths ++ [y.path]))
  /-- After the last store the first path is returned. -/
  | last {S : Fanout F} {j : Nat} {c : FanCall} {i : Fin (n + 1)} {y : Returned} {path : String}
      (hc : S.calls[j]? = some c) (hi : i.val = c.paths.length) (hn : c.paths.length = n)
      (hy : y ∈ (S.stores i).returned) (hticket : y.ticket = c.ticket)
      (hpath : (c.paths ++ [y.path]).head? = some path) :
      Step S none { S.drop j with returned := S.returned ++ [(c.record, path)] }
  /-- The store's write is gone and did not return. -/
  | fail {S : Fanout F} {j : Nat} {c : FanCall} {i : Fin (n + 1)}
      (hc : S.calls[j]? = some c) (hi : i.val = c.paths.length)
      (hreturned : ∀ y ∈ (S.stores i).returned, y.ticket ≠ c.ticket)
      (hcalls : ∀ record planned file, .write c.ticket record planned file ∉ (S.stores i).calls) :
      Step S none (S.drop j)
  /-- A flush of a store, or a put coming back. -/
  | store {S : Fanout F} {i : Fin (n + 1)} {l : Format.Label (F i)} {T : StoreState (F i)}
      (hl : ∀ record t, l ≠ .write record t) (h : (K i).Step (S.stores i) l T) :
      Step S (some ⟨i, l⟩) (S.setStore i T)

def runs : LTS (Fanout F) (Option (Move F)) where
  init S := S = empty
  step := Step K

/-- Every store's step meets that store's condition. -/
def Within (ok : ∀ i, StoreState (F i) → Format.Label (F i) → Prop) (S : Fanout F)
    (l : Option (Move F)) : Prop := ∀ m ∈ l, ok m.1 (S.stores m.1) m.2

end Fanout

/-- What `flush` answers once every store has answered: the errors of all of them in one.
mirrors crates/crawlrs-store/src/multi_store.rs:78-99 -/
def Fanout.flushAnswer (answers : List (Except Error Unit)) : Except Error Unit :=
  let errors := answers.filterMap fun answer => match answer with
    | .error err => some err.display
    | .ok () => none
  if errors.isEmpty then .ok ()
  else .error (.store (toString errors.length ++ " of " ++ toString answers.length ++
    " stores failed to flush: " ++ "; ".intercalate errors))

/-- No store's error is passed over. -/
theorem Fanout.flushAnswer_eq_ok (answers : List (Except Error Unit)) :
    flushAnswer answers = .ok () ↔ ∀ answer ∈ answers, answer = .ok () := by
  unfold flushAnswer
  induction answers with
  | nil => simp
  | cons answer answers ih =>
    cases answer with
    | error err => simp
    | ok u => simpa using ih

/-! ## Tickets of one store -/

namespace Format

variable {F ρ : Type} {K : Format F ρ}

/-- The record of a call or of a write that returned. -/
def Given (T : StoreState F) (ticket : Nat) (record : StoreRecord) : Prop :=
  (∃ y ∈ T.returned, y.ticket = ticket ∧ y.record = record) ∨
    ∃ planned file, .write ticket record planned file ∈ T.calls

theorem given_write {T : StoreState F} {record' : StoreRecord} {t : Reading} {ticket : Nat}
    {record : StoreRecord} (hg : Given (K.write T record' t) ticket record) :
    Given T ticket record ∨ ticket = T.tickets ∧ record = record' := by
  simp only [Format.write] at hg
  split at hg
  · obtain hg | ⟨planned, file, hc⟩ := hg
    · exact .inl (.inl hg)
    · rcases List.mem_append.1 hc with hc | hc
      · exact .inl (.inr ⟨planned, file, hc⟩)
      · cases List.mem_singleton.1 hc
        exact .inr ⟨rfl, rfl⟩
  · obtain ⟨y, hy, hticket, hrecord⟩ | hc := hg
    · rcases List.mem_append.1 hy with hy | hy
      · exact .inl (.inl ⟨y, hy, hticket, hrecord⟩)
      · cases List.mem_singleton.1 hy
        exact .inr ⟨hticket.symm, hrecord.symm⟩
    · exact .inl (.inr hc)

theorem given_resume {T T' : StoreState F} {i : Nat} {ok : Bool} (hr : resume T i ok = some T')
    {ticket : Nat} {record : StoreRecord} (hg : Given T' ticket record) : Given T ticket record := by
  unfold Format.resume at hr
  split at hr
  · cases hr
  · rename_i n r p f hcall
    have hmem := List.mem_of_getElem? hcall
    cases ok with
    | true =>
      cases hr
      obtain ⟨y, hy, hticket, hrecord⟩ | ⟨planned, file, hc⟩ := hg
      · rcases List.mem_append.1 hy with hy | hy
        · exact .inl ⟨y, hy, hticket, hrecord⟩
        · cases List.mem_singleton.1 hy
          cases hticket
          cases hrecord
          exact .inr ⟨p, f, hmem⟩
      · exact .inr ⟨planned, file, List.mem_of_mem_eraseIdx hc⟩
    | false =>
      cases hr
      exact hg.imp_right fun ⟨planned, file, hc⟩ => ⟨planned, file, List.mem_of_mem_eraseIdx hc⟩
  · cases hr
    exact hg.imp_right fun ⟨planned, file, hc⟩ => ⟨planned, file, List.mem_of_mem_eraseIdx hc⟩
  · cases ok with
    | true =>
      cases hr
      refine hg.imp_right fun ⟨planned, file, hc⟩ => ⟨planned, file, ?_⟩
      rcases List.mem_or_eq_of_mem_set hc with hc | hc
      · exact hc
      · cases hc
    | false =>
      cases hr
      exact hg.imp_right fun ⟨planned, file, hc⟩ => ⟨planned, file, List.mem_of_mem_eraseIdx hc⟩

/-- A step gives a store at most the record of a write that begins, under the next ticket. -/
theorem given_step {T T' : StoreState F} {l : Label F} (h : K.Step T l T') {ticket : Nat}
    {record : StoreRecord} (hg : Given T' ticket record) :
    Given T ticket record ∨ ticket = T.tickets ∧ ∃ t, l = .write record t := by
  cases h with
  | write record' t => exact (given_write hg).imp_right fun ⟨hticket, he⟩ => ⟨hticket, t, by rw [he]⟩
  | flush hp =>
    refine .inl (hg.imp_right fun ⟨planned, file, hc⟩ => ⟨planned, file, ?_⟩)
    rcases List.mem_append.1 hc with hc | hc
    · exact hc
    · cases List.mem_singleton.1 hc
  | resume hr => exact .inl (given_resume hr hg)

theorem tickets_write (T : StoreState F) (record : StoreRecord) (t : Reading) :
    (K.write T record t).tickets = T.tickets + 1 := by
  simp only [Format.write]
  split <;> rfl

theorem tickets_step {T T' : StoreState F} {l : Label F} (h : K.Step T l T') : T.tickets ≤ T'.tickets := by
  cases h with
  | write record t => exact (tickets_write T record t).symm ▸ Nat.le_succ _
  | flush hp => exact Nat.le_refl _
  | resume hr =>
    rename_i i ok
    unfold Format.resume at hr
    split at hr
    · cases hr
    · cases ok <;> cases hr <;> exact Nat.le_refl _
    · cases hr; exact Nat.le_refl _
    · cases ok <;> cases hr <;> exact Nat.le_refl _

/-- Tickets are handed out in order. -/
theorem inductive_numbered :
    K.runs.Inductive fun T => ∀ ticket record, Given T ticket record → ticket < T.tickets where
  init T hT ticket record hg := by
    obtain rfl : T = .empty := hT
    obtain ⟨y, hy, -⟩ | ⟨planned, file, hc⟩ := hg
    · cases hy
    · cases hc
  step T l T' ih h ticket record hg := by
    rcases given_step h hg with hg | ⟨rfl, t, rfl⟩
    · exact (ih ticket record hg).trans_le (tickets_step h)
    · cases h
      rw [tickets_write]
      exact Nat.lt_succ_self _

/-- The ticket stands for this record. -/
def Issued (T : StoreState F) (ticket : Nat) (record : StoreRecord) : Prop :=
  ticket < T.tickets ∧ ∀ record', Given T ticket record' → record' = record

theorem Issued.step {T T' : StoreState F} {l : Label F} {ticket : Nat} {record : StoreRecord}
    (hi : Issued T ticket record) (h : K.Step T l T') : Issued T' ticket record := by
  refine ⟨hi.1.trans_le (tickets_step h), fun record' hg => ?_⟩
  rcases given_step h hg with hg | ⟨rfl, -⟩
  · exact hi.2 record' hg
  · exact absurd hi.1 (Nat.lt_irrefl _)

theorem issued_write {T : StoreState F} (hT : K.runs.Reachable T) (record : StoreRecord) (t : Reading) :
    Issued (K.write T record t) T.tickets record := by
  refine ⟨by rw [tickets_write]; exact Nat.lt_succ_self _, fun record' hg => ?_⟩
  rcases given_write hg with hg | ⟨-, rfl⟩
  · exact absurd (inductive_numbered.reachable T hT _ _ hg) (Nat.lt_irrefl _)
  · rfl

end Format

/-! ## All stores -/

namespace Fanout

variable {n : Nat} {F ρ : Fin (n + 1) → Type} {K : ∀ i, Format (F i) (ρ i)}

/-- What a step does to the stores: nothing, or a step of one of them. -/
theorem step_stores {S S' : Fanout F} {l : Option (Move F)} (h : Step K S l S') :
    (l = none ∧ S'.stores = S.stores) ∨
      ∃ m, l = some m ∧ (K m.1).Step (S.stores m.1) m.2 (S'.stores m.1) ∧
        ∀ i, i ≠ m.1 → S'.stores i = S.stores i := by
  have hset : ∀ (S : Fanout F) (i : Fin (n + 1)) (l : Format.Label (F i)) (T : StoreState (F i)),
      (K i).Step (S.stores i) l T → (K i).Step (S.stores i) l ((S.setStore i T).stores i) ∧
        ∀ i', i' ≠ i → (S.setStore i T).stores i' = S.stores i' := by
    intro S i l T hl
    rw [setStore_self]
    exact ⟨hl, fun i' hi' => setStore_of_ne S hi' T⟩
  cases h with
  | begin record t => exact .inr ⟨_, rfl, hset S 0 _ _ (.write _ record t)⟩
  | next t hc hi hi' hy hticket => exact .inr ⟨_, rfl, hset (S.drop _) _ _ _ (.write _ _ t)⟩
  | last hc hi hn hy hticket hpath => exact .inl ⟨rfl, rfl⟩
  | fail hc hi hreturned hcalls => exact .inl ⟨rfl, rfl⟩
  | store hl h => exact .inr ⟨_, rfl, hset S _ _ _ h⟩

/-- Each store has a run of its own. -/
theorem simulation (ok : ∀ i, StoreState (F i) → Format.Label (F i) → Prop) (i : Fin (n + 1)) :
    ((runs K).restrict (Within ok)).Simulation ((K i).runs.restrict (ok i)) fun S T => S.stores i = T where
  init S hS := by
    obtain rfl : S = empty := hS
    exact ⟨.empty, rfl, rfl⟩
  step S l S' T hT h := by
    obtain rfl := hT
    obtain ⟨hok, h⟩ := h
    obtain ⟨rfl, hsame⟩ | ⟨m, rfl, hm, hother⟩ := step_stores h
    · exact ⟨[], _, .nil _, congrFun hsame i⟩
    · by_cases hi : i = m.1
      · subst hi
        exact ⟨[m.2], _, .cons ⟨hok m rfl, hm⟩ (.nil _), rfl⟩
      · exact ⟨[], _, .nil _, hother i hi⟩

theorem reachable_store {ok : ∀ i, StoreState (F i) → Format.Label (F i) → Prop} {S : Fanout F}
    (hS : ((runs K).restrict (Within ok)).Reachable S) (i : Fin (n + 1)) :
    ((K i).runs.restrict (ok i)).Reachable (S.stores i) := by
  obtain ⟨T, hT, rfl⟩ := (simulation ok i).reachable hS
  exact hT

theorem returned_stores {S S' : Fanout F} {l : Option (Move F)} (h : Step K S l S') (i : Fin (n + 1))
    {y : Returned} (hy : y ∈ (S.stores i).returned) : y ∈ (S'.stores i).returned := by
  obtain ⟨-, hsame⟩ | ⟨m, -, hm, hother⟩ := step_stores h
  · rwa [hsame]
  · by_cases hi : i = m.1
    · subst hi
      exact Format.returned_mono hm hy
    · rwa [hother i hi]

theorem issued_stores {S S' : Fanout F} {l : Option (Move F)} (h : Step K S l S') (i : Fin (n + 1))
    {ticket : Nat} {record : StoreRecord} (hi : Format.Issued (S.stores i) ticket record) :
    Format.Issued (S'.stores i) ticket record := by
  obtain ⟨-, hsame⟩ | ⟨m, -, hm, hother⟩ := step_stores h
  · rwa [hsame]
  · by_cases hi' : i = m.1
    · subst hi'
      exact hi.step hm
    · rwa [hother i hi']

/-- Store `i` acknowledged the record, at the path. -/
def Acked (S : Fanout F) (i : Fin (n + 1)) (record : StoreRecord) (path : String) : Prop :=
  ∃ y ∈ (S.stores i).returned, y.record = record ∧ y.path = path

/-- Every store with a path in the list acknowledged the record there. -/
def Passed (S : Fanout F) (record : StoreRecord) (paths : List String) : Prop :=
  ∀ (i : Fin (n + 1)) (path : String), paths[i.val]? = some path → S.Acked i record path

theorem Acked.step {S S' : Fanout F} {l : Option (Move F)} (h : Step K S l S') {i : Fin (n + 1)}
    {record : StoreRecord} {path : String} (ha : S.Acked i record path) : S'.Acked i record path := by
  obtain ⟨y, hy, hrecord, hpath⟩ := ha
  exact ⟨y, returned_stores h i hy, hrecord, hpath⟩

theorem Passed.step {S S' : Fanout F} {l : Option (Move F)} (h : Step K S l S') {record : StoreRecord}
    {paths : List String} (hp : S.Passed record paths) : S'.Passed record paths :=
  fun i path hpath => (hp i path hpath).step h

/-- One more store has acknowledged the record. -/
theorem Passed.append {S : Fanout F} {record : StoreRecord} {paths : List String} {i : Fin (n + 1)}
    {path : String} (hp : S.Passed record paths) (hi : i.val = paths.length) (ha : S.Acked i record path) :
    S.Passed record (paths ++ [path]) := by
  intro k path' hk
  rcases Nat.lt_or_ge k.val paths.length with hlt | hge
  · rw [List.getElem?_append_left hlt] at hk
    exact hp k path' hk
  · have heq : k.val = paths.length := by
      have hlt : k.val < (paths ++ [path]).length := (List.getElem?_eq_some_iff.1 hk).1
      rw [List.length_append, List.length_singleton] at hlt
      omega
    rw [heq, List.getElem?_concat_length] at hk
    cases hk
    obtain rfl : k = i := Fin.ext (heq.trans hi.symm)
    exact ha

/-- What a call knows: the stores behind it have the record, and the one it waits for has it under the
call's ticket. -/
structure CallOk (S : Fanout F) (c : FanCall) : Prop where
  passed : S.Passed c.record c.paths
  issued : ∀ i : Fin (n + 1), i.val = c.paths.length → Format.Issued (S.stores i) c.ticket c.record

/-- `nested`: a store is given a record when those before it have acknowledged it. -/
structure Inv (S : Fanout F) : Prop where
  calls : ∀ c ∈ S.calls, S.CallOk c
  returned : ∀ e ∈ S.returned, ∃ paths, paths.length = n + 1 ∧ paths.head? = some e.2 ∧ S.Passed e.1 paths
  nested : ∀ i j ticket record, i < j → Format.Given (S.stores j) ticket record →
    ∃ path, S.Acked i record path

theorem CallOk.step {S S' : Fanout F} {l : Option (Move F)} (h : Step K S l S') {c : FanCall}
    (hc : S.CallOk c) : S'.CallOk c :=
  ⟨hc.passed.step h, fun i hi => issued_stores h i (hc.issued i hi)⟩

/-- The write the call waited for returned. -/
theorem CallOk.acked {S : Fanout F} {c : FanCall} (hc : S.CallOk c) {i : Fin (n + 1)}
    (hi : i.val = c.paths.length) {y : Returned} (hy : y ∈ (S.stores i).returned)
    (hticket : y.ticket = c.ticket) : S.Acked i c.record y.path :=
  ⟨y, hy, (hc.issued i hi).2 _ (.inl ⟨y, hy, hticket, rfl⟩), rfl⟩

/-- A call that enters store `i` waits for it. -/
theorem callOk_enter {S : Fanout F} {i : Fin (n + 1)} (hT : (K i).runs.Reachable (S.stores i))
    {record : StoreRecord} {t : Reading} {paths : List String} (hi : i.val = paths.length)
    (hp : (enter K S i record t paths).Passed record paths) :
    (enter K S i record t paths).CallOk ⟨record, (S.stores i).tickets, paths⟩ where
  passed := hp
  issued k hk := by
    obtain rfl : k = i := Fin.ext (hk.trans hi.symm)
    have hstore : (enter K S k record t paths).stores k = (K k).write (S.stores k) record t := setStore_self S k _
    rw [hstore]
    exact Format.issued_write hT record t

theorem inv_empty : (empty : Fanout F).Inv where
  calls c hc := nomatch hc
  returned e he := nomatch he
  nested i j ticket record _ hg := by
    obtain ⟨y, hy, -⟩ | ⟨planned, file, hc⟩ := hg
    · cases hy
    · cases hc

/-- The stores before the one whose write begins have the record. -/
theorem Inv.before_write {S S' : Fanout F} {m : Move F} (hS : S.Inv) (h : Step K S (some m) S')
    {record : StoreRecord} {t : Reading} (hw : m.2 = .write record t) {i : Fin (n + 1)} (hi : i < m.1) :
    ∃ path, S.Acked i record path := by
  cases h with
  | begin record' t' => exact absurd hi (Fin.not_lt_zero i)
  | next t' hc hj hj' hy hticket =>
    rename_i j c k k' y
    cases hw
    have hcall := hS.calls c (List.mem_of_getElem? hc)
    have hpassed := hcall.passed.append hj (hcall.acked hj hy hticket)
    have hlt : i.val < (c.paths ++ [y.path]).length := by
      have hlt : i.val < k'.val := hi
      rw [List.length_append, List.length_singleton]
      omega
    exact ⟨_, hpassed i _ (List.getElem?_eq_getElem hlt)⟩
  | store hl h => exact absurd hw (hl record t)

theorem Inv.nested_step {S S' : Fanout F} {l : Option (Move F)} (hS : S.Inv) (h : Step K S l S')
    {i j : Fin (n + 1)} {ticket : Nat} {record : StoreRecord} (hij : i < j)
    (hg : Format.Given (S'.stores j) ticket record) : ∃ path, S'.Acked i record path := by
  suffices hold : ∃ path, S.Acked i record path by
    obtain ⟨path, ha⟩ := hold
    exact ⟨path, ha.step h⟩
  obtain ⟨-, hsame⟩ | ⟨m, rfl, hm, hother⟩ := step_stores h
  · rw [hsame] at hg
    exact hS.nested i j ticket record hij hg
  · by_cases hj : j = m.1
    · subst hj
      rcases Format.given_step hm hg with hg | ⟨-, t, hw⟩
      · exact hS.nested i m.1 ticket record hij hg
      · exact hS.before_write h hw hij
    · rw [hother j hj] at hg
      exact hS.nested i j ticket record hij hg

theorem Inv.step {S S' : Fanout F} {l : Option (Move F)} (hS : S.Inv)
    (hreach : ∀ i, (K i).runs.Reachable (S.stores i)) (h : Step K S l S') : S'.Inv := by
  have hcalls : ∀ c ∈ S.calls, S'.CallOk c := fun c hc => (hS.calls c hc).step h
  have hreturned : ∀ e ∈ S.returned, ∃ paths, paths.length = n + 1 ∧ paths.head? = some e.2 ∧
      S'.Passed e.1 paths := by
    intro e he
    obtain ⟨paths, hlen, hhead, hp⟩ := hS.returned e he
    exact ⟨paths, hlen, hhead, hp.step h⟩
  refine ⟨?_, ?_, fun i j ticket record hij hg => hS.nested_step h hij hg⟩
  · intro c hc
    cases id h with
    | begin record t =>
      rcases List.mem_append.1 hc with hc | hc
      · exact hcalls c hc
      · cases List.mem_singleton.1 hc
        exact callOk_enter (hreach 0) rfl fun i path hp => nomatch hp
    | next t hcall hi hi' hy hticket =>
      rename_i j c' i i' y
      rcases List.mem_append.1 hc with hc | hc
      · exact hcalls c (List.mem_of_mem_eraseIdx hc)
      · cases List.mem_singleton.1 hc
        have hok := hS.calls c' (List.mem_of_getElem? hcall)
        have hpassed := hok.passed.append hi (hok.acked hi hy hticket)
        refine callOk_enter (S := S.drop j) (hreach i') ?_ (hpassed.step h)
        rw [List.length_append, List.length_singleton, hi']
    | last hcall hi hn hy hticket hpath => exact hcalls c (List.mem_of_mem_eraseIdx hc)
    | fail hcall hi hreturned hcalls' => exact hcalls c (List.mem_of_mem_eraseIdx hc)
    | store hl hstore => exact hcalls c hc
  · intro e he
    cases id h with
    | begin record t => exact hreturned e he
    | next t hcall hi hi' hy hticket => exact hreturned e he
    | last hcall hi hn hy hticket hpath =>
      rename_i j c i y path
      rcases List.mem_append.1 he with he | he
      · exact hreturned e he
      · cases List.mem_singleton.1 he
        have hok := hS.calls c (List.mem_of_getElem? hcall)
        refine ⟨c.paths ++ [y.path], ?_, hpath, (hok.passed.append hi (hok.acked hi hy hticket)).step h⟩
        rw [List.length_append, List.length_singleton, hn]
    | fail hcall hi hreturned' hcalls' => exact hreturned e he
    | store hl hstore => exact hreturned e he

theorem inv_reachable {ok : ∀ i, StoreState (F i) → Format.Label (F i) → Prop} {S : Fanout F}
    (hS : ((runs K).restrict (Within ok)).Reachable S) : S.Inv := by
  induction hS with
  | init h0 =>
    obtain rfl : _ = empty := h0
    exact inv_empty
  | step hS hst ih => exact ih.step (fun i => (reachable_store hS i).of_restrict) hst.2

/-! ## What is acknowledged -/

/-- A record that was acknowledged is in every store, and in the primary at the path that was returned. -/
theorem acked_everywhere {ok : ∀ i, StoreState (F i) → Format.Label (F i) → Prop} {S : Fanout F}
    (hS : ((runs K).restrict (Within ok)).Reachable S) {e : StoreRecord × String} (he : e ∈ S.returned) :
    S.Acked 0 e.1 e.2 ∧ ∀ i, ∃ path, S.Acked i e.1 path := by
  obtain ⟨paths, hlen, hhead, hp⟩ := (inv_reachable hS).returned e he
  refine ⟨hp 0 e.2 ?_, fun i => ?_⟩
  · rw [← hhead, List.head?_eq_getElem?]
    rfl
  · have hlt : i.val < paths.length := by
      rw [hlen]
      exact i.isLt
    exact ⟨_, hp i _ (List.getElem?_eq_getElem hlt)⟩

/-- In memory or in an object. -/
def Has (K : ∀ i, Format (F i) (ρ i)) (S : Fanout F) (i : Fin (n + 1)) (record : StoreRecord) : Prop :=
  (K i).Held (S.stores i) ((K i).row record) ∨ (K i).Stored (S.stores i) ((K i).row record)

end Fanout

/-- For any stores and any run in which a put fails only for a write alone in its file: a record that
`MultiStore` acknowledged is in every store's memory or objects, and in the primary was given the path
that was returned; and what a store acknowledged is in every store before it. -/
theorem fanout_kept {n : Nat} {F ρ : Fin (n + 1) → Type} (K : ∀ i, Format (F i) (ρ i)) (S : Fanout F)
    (hS : ((Fanout.runs K).restrict (Fanout.Within fun i => (K i).FailsAlone)).Reachable S) :
    (∀ e ∈ S.returned, S.Acked 0 e.1 e.2 ∧ ∀ i, Fanout.Has K S i e.1) ∧
    ∀ i j, i ≤ j → ∀ y ∈ (S.stores j).returned, Fanout.Has K S i y.record := by
  have hkept : ∀ i, ∀ y ∈ (S.stores i).returned, Fanout.Has K S i y.record := by
    intro i y hy
    exact Format.acked_kept_of_failsAlone.acked _ (Fanout.reachable_store hS i) y hy
  have hacked : ∀ i record path, S.Acked i record path → Fanout.Has K S i record := by
    rintro i record path ⟨y, hy, rfl, -⟩
    exact hkept i y hy
  refine ⟨fun e he => ?_, fun i j hij y hy => ?_⟩
  · obtain ⟨hprimary, hall⟩ := Fanout.acked_everywhere hS he
    refine ⟨hprimary, fun i => ?_⟩
    obtain ⟨path, ha⟩ := hall i
    exact hacked i e.1 path ha
  · rcases eq_or_lt_of_le hij with rfl | hlt
    · exact hkept i y hy
    · obtain ⟨path, ha⟩ := (Fanout.inv_reachable hS).nested i j y.ticket y.record hlt (.inl ⟨y, hy, rfl, rfl⟩)
      exact hacked i y.record path ha

/-- For any stores and any run whose puts succeed and whose files of one shard are opened at distinct
milliseconds, once all stores are drained: the path `MultiStore` returned names an object of the primary
that holds the record, and every other store has an object that holds it. -/
theorem fanout_complete {n : Nat} {F ρ : Fin (n + 1) → Type} (K : ∀ i, Format (F i) (ρ i)) (S : Fanout F)
    (hS : ((Fanout.runs K).restrict (Fanout.Within fun _ => Format.Orderly)).Reachable S)
    (hdrained : ∀ i, Format.Drained (S.stores i)) (e : StoreRecord × String) (he : e ∈ S.returned) :
    (∃ f, (K 0).objectAt (S.stores 0) e.2 = some f ∧ (K 0).row e.1 ∈ (K 0).contents f) ∧
    ∀ i, ∃ path f, (K i).objectAt (S.stores i) path = some f ∧ (K i).row e.1 ∈ (K i).contents f := by
  have hobject : ∀ i record path, S.Acked i record path →
      ∃ f, (K i).objectAt (S.stores i) path = some f ∧ (K i).row record ∈ (K i).contents f := by
    rintro i record path ⟨y, hy, rfl, rfl⟩
    have hfiled := (Format.inductive_filed.reachable _ (Fanout.reachable_store hS i)).2
    obtain ⟨f, hf, hcontents⟩ := hfiled.complete (hdrained i) hy
    refine ⟨f, hf, ?_⟩
    rw [hcontents, Format.rowsAt]
    exact List.mem_map_of_mem (f := fun y : Returned => (K i).row y.record)
      (List.mem_filter.2 ⟨hy, beq_self_eq_true _⟩)
  obtain ⟨hprimary, hall⟩ := Fanout.acked_everywhere hS he
  refine ⟨hobject 0 e.1 e.2 hprimary, fun i => ?_⟩
  obtain ⟨path, ha⟩ := hall i
  obtain ⟨f, hf⟩ := hobject i e.1 path ha
  exact ⟨path, f, hf⟩

/-! ### Parquet and WARC, one row a file -/

namespace Fanout

def sampleFile : Fin 2 → Type
  | 0 => ParquetStore.ActiveFile
  | 1 => WarcStore.ActiveFile

def sampleRow : Fin 2 → Type
  | 0 => ParquetStore.OwnedRow
  | 1 => WarcStore.Member

def sampleFormats : ∀ i, Format (sampleFile i) (sampleRow i)
  | 0 => ParquetStore.format .sample { maxRows := 1 }
  | 1 => WarcStore.format .sample { maxRows := 1 } "run-1"

def sampleReading : Reading := ⟨1700000000000, 0, 0⟩

/-- The write of the primary, its put, the write of the other store, its put. -/
def sampleBegun : Fanout sampleFile := enter sampleFormats empty 0 .sample sampleReading []

def samplePut (S : Fanout sampleFile) (i : Fin 2) : Fanout sampleFile :=
  S.setStore i ((Format.resume (S.stores i) 0 true).getD (S.stores i))

def samplePath : String :=
  ParquetStore.format .sample { maxRows := 1 } |>.path 0 1700000000000

def sampleNext : Fanout sampleFile :=
  enter sampleFormats ((samplePut sampleBegun 0).drop 0) 1 .sample sampleReading [samplePath]

def sampleDone : Fanout sampleFile :=
  { (samplePut sampleNext 1).drop 0 with returned := [(.sample, samplePath)] }

theorem sample_reachable (ok : ∀ i, StoreState (sampleFile i) → Format.Label (sampleFile i) → Prop)
    (hwrite : ∀ i record t, ok i .empty (.write record t)) (hput : ∀ i T, ok i T (.resume 0 true)) :
    ((runs sampleFormats).restrict (Within ok)).Reachable sampleDone := by
  have h0 : ((runs sampleFormats).restrict (Within ok)).Reachable empty := .init rfl
  have h1 := h0.step ⟨by rintro m ⟨⟩; exact hwrite 0 _ _, Step.begin empty .sample sampleReading⟩
  have h2 : ((runs sampleFormats).restrict (Within ok)).Reachable (samplePut sampleBegun 0) :=
    h1.step ⟨by rintro m ⟨⟩; exact hput 0 _,
      Step.store (i := 0) (l := .resume 0 true) (fun _ _ h => nomatch h) (.resume rfl)⟩
  have h3 : ((runs sampleFormats).restrict (Within ok)).Reachable sampleNext :=
    h2.step ⟨by rintro m ⟨⟩; exact hwrite 1 _ _,
      Step.next (j := 0) (c := ⟨.sample, 0, []⟩) (i := 0) (y := ⟨0, .sample, samplePath⟩) sampleReading
        rfl rfl rfl List.mem_cons_self rfl⟩
  have h4 : ((runs sampleFormats).restrict (Within ok)).Reachable (samplePut sampleNext 1) :=
    h3.step ⟨by rintro m ⟨⟩; exact hput 1 _,
      Step.store (i := 1) (l := .resume 0 true) (fun _ _ h => nomatch h) (.resume rfl)⟩
  exact h4.step ⟨by rintro m ⟨⟩, Step.last (j := 0) (c := ⟨.sample, 0, [samplePath]⟩) (i := 1)
    (y := ⟨0, .sample, WarcStore.format .sample { maxRows := 1 } "run-1" |>.path 0 1700000000000⟩)
    rfl rfl rfl List.mem_cons_self rfl rfl⟩

theorem sample_drained : ∀ i, Format.Drained (sampleDone.stores i)
  | 0 => ⟨rfl, rfl⟩
  | 1 => ⟨rfl, rfl⟩

theorem fanout_kept_sample : Has sampleFormats sampleDone 1 .sample := by
  have hS := sample_reachable (fun i => (sampleFormats i).FailsAlone) (fun _ _ _ => trivial) fun _ _ => trivial
  exact ((fanout_kept sampleFormats sampleDone hS).1 (.sample, samplePath) List.mem_cons_self).2 1

theorem fanout_complete_sample :
    ∃ f, (sampleFormats 0).objectAt (sampleDone.stores 0) samplePath = some f ∧
      (sampleFormats 0).row .sample ∈ (sampleFormats 0).contents f := by
  have hS := sample_reachable (fun _ => Format.Orderly)
    (fun _ _ _ => ⟨trivial, fun _ h => nomatch h⟩) fun _ _ => ⟨rfl, trivial⟩
  exact (fanout_complete sampleFormats sampleDone hS sample_drained (.sample, samplePath) List.mem_cons_self).1

end Fanout

end Crawlrs

import Crawlrs.L4Runtime.NoSilentDrop

/-!
# Blocked hosts and redirects

"Hosts the crawler refuses to visit": `politeness_allows` reads the blocklist
once, for the host of the claimed URL. The fetcher then follows redirects by
itself, so `FetchResponse::url` may be on another host, and nothing between
`fetch` and `finalize` reads the blocklist again.

* `log_disallowed`, `log_failed`, `log_fetched`: the calls of a delivery, for
  given answers of its collaborators.
* `stores_iff`: which answers let a delivery reach the store.
* `blocked_stored_iff`: a page of a blocked host is kept exactly where the fetch
  of an allowed URL ends on one and the page can be read.
-/
namespace Crawlrs

open Prog (Log Only trace trace_bind subset_trace mem_trace_only mem_trace_answer
  mem_trace_perform_bind interp)

/-- How the collaborators answer a delivery. The calls that decide its course, each made at most
once, are answered by the first four; `other` answers the rest, and may keep a state. -/
structure Answers (σ : Type) where
  checked : Except Error PoliteDecision
  fetched : Except Error FetchResponse
  adapted : Nat → FetchResponse → Except Error (Option ParsedDocument)
  parsed : FetchResponse → Except Error ParsedDocument
  other : σ → (c : Call) → c.Answer × σ

/-- `store.write`, or `metadata.mark_succeeded`. -/
def Call.stores : Call → Bool
  | .storeWrite _ => true
  | .ledger (.markSucceeded _) => true
  | _ => false

/-- The URL's host is on the blocklist. -/
def UrlPipeline.bars (p : UrlPipeline) (url : CanonicalUrl) : Bool :=
  url.host.any p.deps.blocklist.isBlocked

/-- Where the delivery stores a page or marks its URL succeeded, neither the claimed URL nor the
final URL of a response it got is on a blocked host. -/
def NoBlockedStored (p : UrlPipeline) (log : Log Call Call.Answer) : Prop :=
  (∃ e ∈ log, e.1.stores) →
    p.bars p.url = false ∧
      ∀ request resp, (⟨.fetch request, .ok resp⟩ : (c : Call) × c.Answer) ∈ log →
        p.bars resp.url = false

namespace Answers

variable {σ : Type} (I : Answers σ) (p : UrlPipeline)

def respond (s : σ) : (c : Call) → c.Answer × σ
  | .check _ => (I.checked, s)
  | .fetch _ => (I.fetched, s)
  | .adapterExtract adapter resp => (I.adapted adapter resp, s)
  | .parse resp => (I.parsed resp, s)
  | c => I.other s c

/-- The calls of a delivery with their answers, the latest first. -/
def log (s : σ) : Log Call Call.Answer := (trace I.respond p.run [] s).1

/-- What the first matching adapter reads from a response, or else the parser. -/
def document (resp : FetchResponse) : Option ParsedDocument :=
  match p.deps.adapters.findIdx? fun matchesUrl => matchesUrl resp.url with
  | none => (I.parsed resp).toOption
  | some adapter =>
    match I.adapted adapter resp with
    | .ok (some doc) => some doc
    | .ok none => (I.parsed resp).toOption
    | .error _ => none

/-- The delivery is let through, its fetch succeeds with `resp`, and the page can be read. -/
structure Reads (resp : FetchResponse) : Prop where
  unblocked : p.bars p.url = false
  allowed : I.checked = .ok .allow
  fetched : I.fetched = .ok resp
  status : 200 ≤ resp.status ∧ resp.status ≤ 399
  document : (I.document p resp).isSome

/-- The fetch of an allowed URL ends on a readable page of a blocked host. -/
def EndsOnBlocked : Prop := ∃ resp, I.Reads p resp ∧ p.bars resp.url = true

/-! ## What the phases return -/

theorem respond_check (s : σ) (url : CanonicalUrl) :
    I.respond s (.check url) = (I.checked, s) := rfl

theorem respond_fetch (s : σ) (request : FetchRequest) :
    I.respond s (.fetch request) = (I.fetched, s) := rfl

theorem respond_adapterExtract (s : σ) (adapter : Nat) (resp : FetchResponse) :
    I.respond s (.adapterExtract adapter resp) = (I.adapted adapter resp, s) := rfl

theorem respond_parse (s : σ) (resp : FetchResponse) :
    I.respond s (.parse resp) = (I.parsed resp, s) := rfl

theorem interp_politenessAllows (s : σ) : (interp I.respond p.politenessAllows s).1 =
    (!p.bars p.url && decide (I.checked = .ok .allow)) := by
  unfold UrlPipeline.politenessAllows
  have hb : p.blocked = p.bars p.url := rfl
  split
  · rename_i h
    simp [← hb, h]
  · rename_i h
    rw [Prog.interp_bind, Prog.interp_perform, respond_check]
    rcases hc : I.checked with e | d
    · simp [← hb, h]
    · rcases d with _ | _ | _ <;> simp [← hb, h]

theorem interp_fetch (s : σ) : (interp I.respond p.fetch s).1 =
    match I.fetched with
    | .error _ => none
    | .ok resp => if classifyStatus resp.status = none then some resp else none := by
  unfold UrlPipeline.fetch
  rw [Prog.interp_bind, Prog.interp_perform, respond_fetch]
  cases I.fetched with
  | error e => simp
  | ok resp =>
    dsimp only
    cases hs : classifyStatus resp.status with
    | some kind => simp
    | none => simp

theorem interp_parseGeneric (resp : FetchResponse) (s : σ) :
    (interp I.respond (p.parseGeneric resp) s).1 = (I.parsed resp).toOption := by
  unfold UrlPipeline.parseGeneric
  rw [Prog.interp_bind, Prog.interp_perform, respond_parse]
  cases I.parsed resp with
  | ok doc => rfl
  | error e => simp [Except.toOption]

theorem interp_extract (resp : FetchResponse) (s : σ) :
    (interp I.respond (p.extract resp) s).1 = I.document p resp := by
  unfold UrlPipeline.extract document
  cases p.deps.adapters.findIdx? fun matchesUrl => matchesUrl resp.url with
  | none => exact I.interp_parseGeneric p resp s
  | some adapter =>
    dsimp only
    rw [Prog.interp_bind, Prog.interp_perform, respond_adapterExtract]
    rcases I.adapted adapter resp with e | _ | doc
    · simp
    · exact I.interp_parseGeneric p resp s
    · rfl

/-! ## What the phases log -/

variable {I p}

/-- A call that stores nothing. -/
def Spares (c : Call) : Prop := c.stores = false

theorem spares_of_in {ks : List CallKind} (h : ∀ k ∈ ks, k ∉ [.storeWrite, .succeeded]) (c : Call)
    (hc : c.In ks) : Spares c := by
  have hk := h _ hc
  unfold Spares Call.stores
  split
  · simp [Call.kind] at hk
  · simp [Call.kind] at hk
  · rfl

/-- What a phase that stores nothing adds to a log that holds no store. -/
theorem spared_trace {α : Type} {q : Pipe α} (hq : Only Spares q) {log : Log Call Call.Answer}
    (hlog : ∀ e ∈ log, Spares e.1) (s : σ) : ∀ e ∈ (trace I.respond q log s).1, Spares e.1 := by
  intro e he
  obtain h | h := mem_trace_only hq he
  · exact hlog e h
  · exact h

/-- A fetch is answered as given. -/
def AsFetched (I : Answers σ) : (c : Call) → c.Answer → Prop
  | .fetch _, r => r = I.fetched
  | _, _ => True

theorem asFetched_respond (s : σ) (c : Call) : I.AsFetched c (I.respond s c).1 := by
  cases c with
  | fetch request => rfl
  | _ => trivial

theorem fetched_of_mem_log {s : σ} {request : FetchRequest} {resp : FetchResponse}
    (h : (⟨.fetch request, .ok resp⟩ : (c : Call) × c.Answer) ∈ I.log p s) :
    I.fetched = .ok resp := by
  obtain h | h := mem_trace_answer asFetched_respond h
  · exact absurd h List.not_mem_nil
  · exact h.symm

/-- Where `politeness_allows` and `mark_attempting` leave a delivery. -/
def atFetch (I : Answers σ) (p : UrlPipeline) (s : σ) : Log Call Call.Answer × σ :=
  let t := trace I.respond p.politenessAllows [] s
  trace I.respond p.markAttempting t.1 t.2

/-- Where `fetch` leaves it. -/
def atExtract (I : Answers σ) (p : UrlPipeline) (s : σ) : Log Call Call.Answer × σ :=
  trace I.respond p.fetch (I.atFetch p s).1 (I.atFetch p s).2

/-- Where `extract` leaves it. -/
def atFinalize (I : Answers σ) (p : UrlPipeline) (resp : FetchResponse) (s : σ) :
    Log Call Call.Answer × σ :=
  trace I.respond (p.extract resp) (I.atExtract p s).1 (I.atExtract p s).2

theorem spared_atFetch (s : σ) : ∀ e ∈ (I.atFetch p s).1, Spares e.1 :=
  spared_trace ((kinds_markAttempting p).mono (spares_of_in (by decide)))
    (spared_trace ((kinds_politenessAllows p).mono (spares_of_in (by decide))) (by simp) s) _

theorem spared_atExtract (s : σ) : ∀ e ∈ (I.atExtract p s).1, Spares e.1 :=
  spared_trace ((kinds_fetch p).mono (spares_of_in (by decide))) (spared_atFetch s) _

theorem spared_atFinalize (resp : FetchResponse) (s : σ) :
    ∀ e ∈ (I.atFinalize p resp s).1, Spares e.1 :=
  spared_trace ((kinds_extract p resp).mono (spares_of_in (by decide))) (spared_atExtract s) _

/-- The fetch and its answer are in the log from then on. -/
theorem fetch_mem_atExtract (s : σ) :
    (⟨.fetch { url := p.url }, I.fetched⟩ : (c : Call) × c.Answer) ∈ (I.atExtract p s).1 :=
  mem_trace_perform_bind (Call.fetch { url := p.url }) _ _ _

theorem log_disallowed (s : σ) (h : ¬ (p.bars p.url = false ∧ I.checked = .ok .allow)) :
    I.log p s = (trace I.respond p.politenessAllows [] s).1 := by
  have hp : (interp I.respond p.politenessAllows s).1 = false := by
    rw [interp_politenessAllows]
    simpa using h
  unfold log UrlPipeline.run
  rw [trace_bind, hp]
  rfl

theorem log_allowed (s : σ) (hb : p.bars p.url = false) (hc : I.checked = .ok .allow) :
    I.log p s = (trace I.respond (p.fetch >>= fun
      | none => pure ()
      | some resp => p.extract resp >>= fun
        | none => pure ()
        | some doc => p.finalize resp doc (computeOutbound p.entry doc p.deps.crawlScope.depthCap))
      (I.atFetch p s).1 (I.atFetch p s).2).1 := by
  have hp : (interp I.respond p.politenessAllows s).1 = true := by
    rw [interp_politenessAllows]
    simp [hb, hc]
  unfold log UrlPipeline.run
  rw [trace_bind, hp, if_pos rfl, trace_bind]
  rfl

/-- A failed fetch ends the delivery. -/
theorem log_failed (s : σ) (hb : p.bars p.url = false) (hc : I.checked = .ok .allow)
    (hf : ∀ resp, I.fetched = .ok resp → classifyStatus resp.status ≠ none) :
    I.log p s = (I.atExtract p s).1 := by
  have hp : (interp I.respond p.fetch (I.atFetch p s).2).1 = none := by
    rw [interp_fetch]
    cases hr : I.fetched with
    | error e => rfl
    | ok resp => simp [hf resp hr]
  rw [log_allowed s hb hc, trace_bind, hp]
  rfl

theorem log_fetched (s : σ) (hb : p.bars p.url = false) (hc : I.checked = .ok .allow)
    {resp : FetchResponse} (hf : I.fetched = .ok resp) (hs : classifyStatus resp.status = none) :
    I.log p s = (match I.document p resp with
      | none => I.atFinalize p resp s
      | some doc => trace I.respond (p.finalize resp doc
          (computeOutbound p.entry doc p.deps.crawlScope.depthCap))
          (I.atFinalize p resp s).1 (I.atFinalize p resp s).2).1 := by
  have hp : (interp I.respond p.fetch (I.atFetch p s).2).1 = some resp := by
    rw [interp_fetch, hf]
    simp [hs]
  rw [log_allowed s hb hc, trace_bind, hp]
  dsimp only
  rw [trace_bind, interp_extract]
  cases I.document p resp with
  | none => rfl
  | some doc => rfl

/-- A delivery stores a page exactly where it reads one. -/
theorem stores_iff (s : σ) : (∃ e ∈ I.log p s, e.1.stores) ↔ ∃ resp, I.Reads p resp := by
  constructor
  · rintro ⟨e, he, hst⟩
    by_contra hno
    have hsp : Spares e.1 := by
      by_cases hbc : p.bars p.url = false ∧ I.checked = .ok .allow
      · by_cases hf : ∃ resp, I.fetched = .ok resp ∧ classifyStatus resp.status = none
        · obtain ⟨resp, hf, hs⟩ := hf
          rw [log_fetched s hbc.1 hbc.2 hf hs] at he
          cases hd : I.document p resp with
          | none =>
            rw [hd] at he
            exact spared_atFinalize resp s e he
          | some doc =>
            exact absurd ⟨resp, hbc.1, hbc.2, hf, classifyStatus_eq_none.1 hs, by simp [hd]⟩ hno
        · rw [log_failed s hbc.1 hbc.2 fun resp h1 h2 => hf ⟨resp, h1, h2⟩] at he
          exact spared_atExtract s e he
      · rw [log_disallowed s hbc] at he
        exact spared_trace ((kinds_politenessAllows p).mono (spares_of_in (by decide)))
          (by simp) s e he
    rw [hsp] at hst
    exact Bool.false_ne_true hst
  · rintro ⟨resp, h⟩
    obtain ⟨doc, hd⟩ := Option.isSome_iff_exists.1 h.document
    rw [log_fetched s h.unblocked h.allowed h.fetched (classifyStatus_eq_none.2 h.status), hd]
    exact ⟨_, mem_trace_perform_bind (Call.storeWrite (p.storeRecord resp doc)) _ _ _, rfl⟩

/-- The response of a delivery that reads a page is in its log. -/
theorem Reads.fetch_mem_log {resp : FetchResponse} (h : I.Reads p resp) (s : σ) :
    (⟨.fetch { url := p.url }, .ok resp⟩ : (c : Call) × c.Answer) ∈ I.log p s := by
  have hm := fetch_mem_atExtract (I := I) (p := p) s
  rw [h.fetched] at hm
  rw [log_fetched s h.unblocked h.allowed h.fetched (classifyStatus_eq_none.2 h.status)]
  have hm : _ ∈ (I.atFinalize p resp s).1 := subset_trace _ _ _ hm
  cases I.document p resp with
  | none => exact hm
  | some doc => exact subset_trace _ _ _ hm

end Answers

/-- A delivery keeps clear of blocked hosts, unless the fetch of an allowed URL ends on one: the
blocklist is not read for the final URL. -/
theorem blocked_stored_iff {σ : Type} (I : Answers σ) (p : UrlPipeline) (s : σ) :
    NoBlockedStored p (I.log p s) ↔ ¬ I.EndsOnBlocked p := by
  constructor
  · rintro hno ⟨resp, hr, hb⟩
    have hclean := (hno ((Answers.stores_iff s).2 ⟨resp, hr⟩)).2 _ _ (hr.fetch_mem_log s)
    rw [hb] at hclean
    exact Bool.noConfusion hclean
  · intro hno hst
    obtain ⟨resp, hr⟩ := (Answers.stores_iff s).1 hst
    refine ⟨hr.unblocked, fun request resp' hm => ?_⟩
    have hresp := Answers.fetched_of_mem_log hm
    rw [hr.fetched] at hresp
    cases hresp
    by_contra hb
    exact hno ⟨resp, hr, by simpa using hb⟩

/-- A worker that refuses `b.test`, with a URL of `a.test`. -/
def UrlPipeline.refusesB : UrlPipeline :=
  { UrlPipeline.sampleA with deps := { WorkerDeps.sample with blocklist := ⟨["b.test"]⟩ } }

/-- `https://a.test/` redirects to `https://b.test/`, which answers a page. -/
def Answers.redirectToB : Answers Ledger where
  checked := .ok .allow
  fetched := .ok ⟨UrlEntry.seedB.url, 200, [], []⟩
  adapted := fun _ _ => .ok none
  parsed := fun resp => .ok ⟨resp.url, resp.status, none, none, []⟩
  other := answering .allow (.ok "blob")

/-- The page of the refused host is stored under the claimed URL. -/
theorem blocked_stored_redirect :
    ¬ NoBlockedStored .refusesB (Answers.redirectToB.log .refusesB .empty) := by
  intro h
  have hr : Answers.redirectToB.Reads .refusesB ⟨UrlEntry.seedB.url, 200, [], []⟩ :=
    ⟨by decide, rfl, rfl, by decide, rfl⟩
  have hstores := (Answers.stores_iff .empty).2 ⟨_, hr⟩
  have hclean := (h hstores).2 _ _ (hr.fetch_mem_log .empty)
  have hbars : UrlPipeline.refusesB.bars UrlEntry.seedB.url = true := by decide
  rw [hbars] at hclean
  exact Bool.noConfusion hclean

end Crawlrs

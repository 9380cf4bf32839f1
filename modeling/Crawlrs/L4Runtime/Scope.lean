import Crawlrs.Core.Crew
import Crawlrs.L4Runtime.Durable
import Crawlrs.L4Runtime.Integrity

/-!
# The scope of a crawl

Any number of workers over one frontier, one ledger and one store. Of the frontier only
what it was offered matters here: it may deliver any offered entry that has a host, any
number of times, and `delivers_of_hands` says that a claim does no more. Of the ledger
only the outbox matters. A worker's calls may be answered anything, take effect or not,
and stop anywhere; publishers read any rows of the outbox, in any batches, and mark any.

`Reached` says how an entry may come to be offered: it is a seed, or a link that
`compute_outbound` kept of a stored page whose own entry was reached before, or one of
these read back from the outbox.

* `fetches_in_scope`: a worker that is about to fetch has been let through for that URL,
  and the URL is reached, through pages none of which is on a blocked host.
* `fetch_depth`: where every host has a depth cap below `u32::MAX`, the entry's depth is
  the number of links from the seed, and within the cap of its own host.
-/
namespace Crawlrs

open Prog (Log Safe Only each only_perform only_bind only_each safe_bind safe_perform safe_of_only)

/-! ## The workers and what they share -/

/-- The store has acknowledged the write of `doc`, for the entry it was claimed as. -/
structure StoredPage where
  entry : UrlEntry
  doc : ParsedDocument
deriving DecidableEq, Repr

/-- What all pods of a crawl agree on. `real` are the values the type `CanonicalUrl` can have. -/
structure CrawlPlan where
  scope : CrawlScope
  blocklist : Blocklist
  parse : ParseUrl
  seed : UrlEntry → Prop
  real : CanonicalUrl → Prop

/-- The links of a document are values of their type. -/
def CrawlPlan.RealLinks (K : CrawlPlan) (doc : ParsedDocument) : Prop :=
  ∀ u ∈ doc.outboundLinks, K.real u

structure Shared where
  offered : List UrlEntry
  ledger : Ledger
  pages : List StoredPage

/-- What a call offers to the frontier. -/
def Call.offers : Call → List UrlEntry
  | .submitBatch entries => entries
  | _ => []

/-- What a call makes of the ledger. -/
def Call.commits (l : Ledger) : Call → Ledger
  | .ledger c => (l.exec c).2
  | _ => l

/-- What an answer adds to the acknowledged pages. -/
def UrlPipeline.stored (p : UrlPipeline) : (c : Call) → c.Answer → List StoredPage
  | .storeWrite record, .ok _ => [⟨p.entry, record.doc⟩]
  | _, _ => []

/-- A call of a worker. It may be answered anything, with or without its effect. -/
inductive WorkerAct (K : CrawlPlan) (p : UrlPipeline) : Shared → (c : Call) → c.Answer → Shared → Prop
  | mk {s : Shared} {c : Call} {r : c.Answer} {offered : List UrlEntry} {ledger : Ledger} :
      (∀ doc, documentOf c r = some doc → K.RealLinks doc) →
      offered = s.offered ∨ offered = s.offered ++ c.offers →
      ledger = s.ledger ∨ ledger = c.commits s.ledger →
      WorkerAct K p s c r ⟨offered, ledger, s.pages ++ p.stored c r⟩

/-- A seed is submitted, rows of the outbox are read and submitted, or some are marked. -/
inductive CrawlEnv (K : CrawlPlan) : Shared → Shared → Prop
  | seed {s : Shared} {e : UrlEntry} : K.seed e → CrawlEnv K s { s with offered := s.offered ++ [e] }
  | read {s : Shared} {rows : List OutboxRow} {entries : List UrlEntry} :
      rows ⊆ s.ledger.outbox.rows → OutboxRow.readAll K.parse rows = .ok entries →
      CrawlEnv K s { s with offered := s.offered ++ entries }
  | mark {s : Shared} {ids : List Nat} :
      CrawlEnv K s { s with ledger := { s.ledger with outbox := s.ledger.outbox.markPublished ids } }

/-- A worker of the crawl, with an entry the frontier may deliver. -/
structure CrawlPlan.Delivers (K : CrawlPlan) (s : Shared) (p : UrlPipeline) : Prop where
  offered : p.entry ∈ s.offered
  host : p.url.host.isSome
  scope : p.deps.crawlScope = K.scope
  blocklist : p.deps.blocklist = K.blocklist

/-- What a claim of the fleet hands out may be delivered, if that is what the fleet was offered. -/
theorem CrawlPlan.delivers_of_hands {β : Type} {W : Wire} {B : Sketch UrlId β}
    {P : HostHashShardPolicy} {K : CrawlPlan} {s : Shared}
    {S S' : Pool (Fleet β) Trip Trip.Answer (Option String)}
    {l : Service.Label (RedisClient × ClientCall) Trip Trip.Answer}
    (hS : (Fleet.runs W B P (· ∈ s.offered)).Reachable S)
    (hst : (Fleet.runs W B P (· ∈ s.offered)).step S l S') {k : ShardKey} {u : UrlId} {h : Host}
    {p : UrlPipeline} (hc : Fleet.Hands W k u h p.entry l) (hscope : p.deps.crawlScope = K.scope)
    (hblock : p.deps.blocklist = K.blocklist) : K.Delivers s p := by
  obtain ⟨hoff, -, hhost, -⟩ := hc.offered hS hst
  exact ⟨hoff, Option.isSome_of_eq_some hhost, hscope, hblock⟩

def CrawlPlan.crew (K : CrawlPlan) : Crew Shared UrlPipeline Call Call.Answer where
  init s := s.offered = [] ∧ s.ledger.outbox.rows = [] ∧ s.pages = []
  prog := UrlPipeline.run
  starts := K.Delivers
  env := CrawlEnv K
  act := WorkerAct K

/-! ## Where entries come from -/

/-- The host of the entry is on the blocklist. -/
def CrawlPlan.bars (K : CrawlPlan) (e : UrlEntry) : Bool := e.url.host.any K.blocklist.isBlocked

/-- The links `compute_outbound` keeps of a page. -/
def CrawlPlan.links (K : CrawlPlan) (page : StoredPage) : List UrlEntry :=
  (computeOutbound page.entry page.doc K.scope.depthCap).kept

/-- `Reached K pages n e`: `n` links from a seed to `e`, each kept of a stored page of a host that
is not blocked. -/
inductive Reached (K : CrawlPlan) (pages : List StoredPage) : Nat → UrlEntry → Prop
  | seed {e : UrlEntry} : K.seed e → Reached K pages 0 e
  | link {n : Nat} {page : StoredPage} {e : UrlEntry} :
      Reached K pages n page.entry → page ∈ pages → K.bars page.entry = false → e ∈ K.links page →
      Reached K pages (n + 1) e
  | reread {n : Nat} {e e' : UrlEntry} :
      Reached K pages n e → K.parse e.url.asStr = .ok e'.url → e'.depth = e.depth →
      Reached K pages n e'

variable {K : CrawlPlan}

theorem Reached.mono {pages pages' : List StoredPage} {n : Nat} {e : UrlEntry}
    (h : Reached K pages n e) (hsub : pages ⊆ pages') : Reached K pages' n e := by
  induction h with
  | seed hs => exact .seed hs
  | link _ hp hb he ih => exact .link ih (hsub hp) hb he
  | reread _ hp hd ih => exact .reread ih hp hd

/-- The entry is reached, over some number of links. -/
def CrawlPlan.Found (K : CrawlPlan) (pages : List StoredPage) (e : UrlEntry) : Prop :=
  ∃ n, Reached K pages n e

theorem CrawlPlan.Found.mono {pages pages' : List StoredPage} {e : UrlEntry}
    (h : K.Found pages e) (hsub : pages ⊆ pages') : K.Found pages' e := by
  obtain ⟨n, hn⟩ := h
  exact ⟨n, hn.mono hsub⟩

/-- A row of the outbox is the text of a reached entry. -/
def CrawlPlan.FoundRow (K : CrawlPlan) (pages : List StoredPage) (r : OutboxRow) : Prop :=
  ∃ e, K.Found pages e ∧ r.url = e.url.asStr ∧ r.depth = e.depth

/-- The invariant of a crawl. -/
structure InScope (K : CrawlPlan) (s : Shared) : Prop where
  offered : ∀ e ∈ s.offered, K.Found s.pages e
  rows : ∀ r ∈ s.ledger.outbox.rows, K.FoundRow s.pages r
  pages : ∀ page ∈ s.pages, page.entry.url.host.isSome ∧ K.RealLinks page.doc

/-! ## The outbox -/

theorem OutboxTable.mem_foldl_insert_cases {u a : String} {r : OutboxRow} {children : List UrlEntry} :
    ∀ {t : OutboxTable}, r ∈ (children.foldl (.insert u a) t).rows →
      r ∈ t.rows ∨ ∃ child ∈ children, r.url = child.url.asStr ∧ r.depth = child.depth := by
  induction children with
  | nil => exact fun h => .inl h
  | cons c children ih =>
    intro t h
    obtain h | ⟨child, hc, hr⟩ := ih h
    · unfold insert at h
      split at h
      · exact .inl h
      · obtain h | h := List.mem_append.1 h
        · exact .inl h
        · rw [List.mem_singleton.1 h]
          exact .inr ⟨c, List.mem_cons_self, rfl, rfl⟩
    · exact .inr ⟨child, List.mem_cons_of_mem _ hc, hr⟩

/-- A row after a ledger call is an earlier one, or one of the links that are committed. -/
theorem Ledger.exec_outbox_cases {l : Ledger} {c : Ledger.Call} {r : OutboxRow}
    (h : r ∈ (l.exec c).2.outbox.rows) : r ∈ l.outbox.rows ∨
      ∃ record, c = .markSucceeded record ∧ ∃ child ∈ record.outbound,
        r.url = child.url.asStr ∧ r.depth = child.depth := by
  cases c with
  | markSucceeded record =>
    simp only [exec, markSucceeded] at h
    split at h
    · exact .inl h
    · obtain h | hr := OutboxTable.mem_foldl_insert_cases h
      · exact .inl (by simpa using h)
      · exact .inr ⟨record, rfl, hr⟩
  | _ =>
    rw [exec_outbox_of_no_links l (fun record hr => by cases hr)] at h
    exact .inl h

theorem OutboxRow.read_depth {parse : ParseUrl} {r : OutboxRow} {e : UrlEntry}
    (h : r.read parse = .ok e) : e.depth = r.depth := by
  unfold read at h
  split at h
  · cases h
  · split at h
    · cases h
    · cases h
      rfl

/-! ## A worker -/

/-- Let through: the host is there and not blocked, and the politeness layer has answered `Allow`. -/
structure Cleared (K : CrawlPlan) (p : UrlPipeline) (log : Log Call Call.Answer) : Prop where
  host : p.url.host.isSome
  unblocked : K.bars p.entry = false
  allowed : (⟨.check p.url, .ok .allow⟩ : (c : Call) × c.Answer) ∈ log

/-- A kept link of a page that was stored for the worker's entry. -/
def LinkOf (K : CrawlPlan) (p : UrlPipeline) (pages : List StoredPage) (e : UrlEntry) : Prop :=
  ∃ page ∈ pages, page.entry = p.entry ∧ e ∈ K.links page

/-- The worker is let through, its entry is reached, and the links `out` are its page's. -/
structure Holds (K : CrawlPlan) (p : UrlPipeline) (out : List UrlEntry) (log : Log Call Call.Answer)
    (s : Shared) : Prop where
  cleared : Cleared K p log
  found : K.Found s.pages p.entry
  links : ∀ e ∈ out, LinkOf K p s.pages e

/-- Where a worker may make a call. -/
def CallInScope (K : CrawlPlan) (p : UrlPipeline) (log : Log Call Call.Answer) (s : Shared) :
    Call → Prop
  | .fetch request => request.url = p.url ∧ Holds K p [] log s
  | .storeWrite record => Holds K p [] log s ∧ K.RealLinks record.doc
  | .submitBatch entries => Holds K p entries log s
  | .ledger (.markSucceeded record) => Holds K p record.outbound log s
  | _ => True

/-- The calls a worker makes that will not hand on more than the links `out`. -/
def Limited (p : UrlPipeline) (out : List UrlEntry) : Call → Prop
  | .fetch request => request.url = p.url
  | .storeWrite _ => False
  | .submitBatch entries => entries ⊆ out
  | .ledger (.markSucceeded record) => record.outbound ⊆ out
  | _ => True

theorem limited_of_in {p : UrlPipeline} {out : List UrlEntry} {ks : List CallKind}
    (h : ∀ k ∈ ks, k ∉ [.fetch, .storeWrite, .submitBatch, .succeeded]) (c : Call) (hc : c.In ks) :
    Limited p out c := by
  have hk := h _ hc
  unfold Limited
  split
  · simp [Call.kind] at hk
  · simp [Call.kind] at hk
  · simp [Call.kind] at hk
  · simp [Call.kind] at hk
  · trivial

section Phases

variable (p : UrlPipeline) (out : List UrlEntry)

theorem limited_fetch : Only (Limited p out) p.fetch := by
  have hfail (kind : FailureKind) (hint : Option Nat) (reason : String) : Only (Limited p out) (do
      let plan ← await (.recordFailure p.url kind hint)
      UrlPipeline.applyWakePlan plan
      p.handleFailure kind reason
      pure (none : Option FetchResponse)) :=
    only_bind (only_perform trivial) fun _ =>
      only_bind ((kinds_applyWakePlan _).mono (limited_of_in (by decide))) fun _ =>
        only_bind ((kinds_handleFailure p _ _).mono (limited_of_in (by decide))) fun _ => trivial
  refine only_bind (only_perform rfl) fun r => ?_
  cases r with
  | error e => exact hfail _ none _
  | ok resp =>
    dsimp only
    split
    · exact only_bind ((kinds_retryAfter p _).mono (limited_of_in (by decide))) fun hint =>
        hfail _ hint _
    · exact only_bind (only_perform trivial) fun _ =>
        only_bind ((kinds_applyWakePlan _).mono (limited_of_in (by decide))) fun _ => trivial

theorem limited_dispatch : Only (Limited p out) (p.dispatch out) := by
  unfold UrlPipeline.dispatch
  split
  · refine only_bind (only_perform (List.Subset.refl out)) fun r => ?_
    cases r with
    | error e => trivial
    | ok outcome =>
      exact only_each (fun _ => (kinds_recordDiscoveredSkip p _ _ _ _).mono
        (limited_of_in (by decide))) _
  · trivial

/-- What `finalize` does once the page is stored. -/
theorem limited_afterStore (resp : FetchResponse) (blobPath : String) (partition : OutboundPartition) :
    Only (Limited p partition.kept) (do
      let _ ← await (.ledger (.markSucceeded (p.successRecord resp blobPath partition.kept)))
      each (fun child => p.recordDiscoveredSkip child.url child.depth child.discoveredFrom .depth)
        partition.depthSkipped
      p.dispatch partition.kept
      p.ack) := by
  have hrecord : (p.successRecord resp blobPath partition.kept).outbound ⊆ partition.kept := by
    unfold UrlPipeline.successRecord
    dsimp only
    split
    · exact List.Subset.refl _
    · exact List.nil_subset _
  refine only_bind (only_perform hrecord) fun _ => ?_
  refine only_bind (only_each (fun _ => (kinds_recordDiscoveredSkip p _ _ _ _).mono
    (limited_of_in (by decide))) _) fun _ => ?_
  exact only_bind (limited_dispatch p _) fun _ => (kinds_ack p).mono (limited_of_in (by decide))

end Phases

/-! ### A delivery stays in scope -/

section Safe

variable {p : UrlPipeline} {out : List UrlEntry} {log : Log Call Call.Answer} {s s' s₀ : Shared} {α : Type}

theorem LinkOf.mono {e : UrlEntry} (h : LinkOf K p s.pages e) (hsub : s.pages ⊆ s'.pages) :
    LinkOf K p s'.pages e := by
  obtain ⟨page, hp, he⟩ := h
  exact ⟨page, hsub hp, he⟩

theorem Holds.mono (h : Holds K p out log s) (hsub : s.pages ⊆ s'.pages) : Holds K p out log s' :=
  ⟨h.cleared, h.found.mono hsub, fun e he => (h.links e he).mono hsub⟩

theorem Holds.of_subset {out' : List UrlEntry} (h : Holds K p out log s) (hsub : out' ⊆ out) :
    Holds K p out' log s :=
  ⟨h.cleared, h.found, fun e he => h.links e (hsub he)⟩

theorem WorkerAct.pages_subset {c : Call} {r : c.Answer} (h : WorkerAct K p s c r s') :
    s.pages ⊆ s'.pages := by
  cases h with
  | mk _ _ _ => exact List.subset_append_left _ _

theorem Holds.act {c : Call} {r : c.Answer} (h : Holds K p out log s) (ha : WorkerAct K p s c r s') :
    Holds K p out (⟨c, r⟩ :: log) s' :=
  ⟨⟨h.cleared.host, h.cleared.unblocked, List.mem_cons_of_mem _ h.cleared.allowed⟩,
    h.found.mono ha.pages_subset, fun e he => (h.links e he).mono ha.pages_subset⟩

/-- What the others do: the acknowledged pages stay. -/
def PagesStay (s s' : Shared) : Prop := s.pages ⊆ s'.pages

/-- `CallInScope` for every call of a program. -/
abbrev SafeInScope (K : CrawlPlan) (p : UrlPipeline) (post : α → Log Call Call.Answer → Shared → Prop)
    (q : Pipe α) (log : Log Call Call.Answer) (s : Shared) : Prop :=
  Safe ⟨PagesStay, WorkerAct K p⟩ (CallInScope K p) post q log s

theorem safe_limited {q : Pipe α} (hq : Only (Limited p out) q) (h : Holds K p out log s) :
    SafeInScope K p (fun _ => Holds K p out) q log s := by
  refine safe_of_only (P := Holds K p out) (fun _ _ _ h he => h.mono he) ?_
    (fun _ _ _ _ _ _ h ha => h.act ha) hq h
  intro log s c hc h
  have hnil : Holds K p [] log s := h.of_subset (List.nil_subset _)
  match c with
  | .fetch request => exact ⟨hc, hnil⟩
  | .storeWrite _ => exact hc.elim
  | .submitBatch entries => exact h.of_subset hc
  | .ledger (.markSucceeded record) => exact h.of_subset hc
  | .ledger (.markAttempting ..) | .ledger (.markFailed ..) | .ledger (.markPermanentlyFailed ..)
  | .ledger (.markDiscoveredSkipped ..) | .check _ | .recordFetch _ | .recordFailure ..
  | .adapterExtract .. | .parse _ | .ack _ | .advanceWake .. | .now => trivial

/-- Calls that are allowed anywhere. -/
theorem safe_anywhere {ks : List CallKind} {q : Pipe α} (hq : Only (Call.In ks) q)
    (h : ∀ k ∈ ks, k ∉ [.fetch, .storeWrite, .submitBatch, .succeeded]) :
    SafeInScope K p (fun _ _ _ => True) q log s := by
  refine safe_of_only (P := fun _ _ => True) (fun _ _ _ _ _ => trivial) ?_
    (fun _ _ _ _ _ _ _ _ => trivial) hq trivial
  intro log s c hc _
  have hk := h _ hc
  unfold CallInScope
  split
  · simp [Call.kind] at hk
  · simp [Call.kind] at hk
  · simp [Call.kind] at hk
  · simp [Call.kind] at hk
  · trivial

theorem safe_politenessAllows_scope (hd : K.Delivers s₀ p) (h : K.Found s.pages p.entry) :
    SafeInScope K p (fun b log s => b = true → Holds K p [] log s) p.politenessAllows log s := by
  have hack {log : Log Call Call.Answer} {s : Shared} :
      SafeInScope K p (fun b log s => b = true → Holds K p [] log s) (do
        p.ack
        pure false) log s :=
    safe_bind ((safe_anywhere (kinds_ack p) (by decide)).mono fun _ _ _ _ hb => by cases hb)
  have hskip {log : Log Call Call.Answer} {s : Shared} (reason : SkipReason) :
      SafeInScope K p (fun b log s => b = true → Holds K p [] log s) (do
        p.recordDiscoveredSkip p.url p.entry.depth p.entry.discoveredFrom reason
        p.ack
        pure false) log s :=
    safe_bind ((safe_anywhere (kinds_recordDiscoveredSkip p _ _ _ _) (by decide)).mono
      fun _ _ _ _ => hack)
  unfold UrlPipeline.politenessAllows
  split
  · exact hskip .blocklist
  · rename_i hb
    have hbars : K.bars p.entry = false := by
      have hb : p.blocked = false := by simpa using hb
      unfold UrlPipeline.blocked at hb
      rw [hd.blocklist] at hb
      exact hb
    refine safe_bind (safe_perform (P := fun s => K.Found s.pages p.entry)
      (fun _ _ h he => h.mono he) h (fun _ _ => trivial) fun s₁ r s₂ h ha => ?_)
    match r with
    | .ok .allow =>
      exact fun _ => ⟨⟨hd.host, hbars, List.mem_cons_self⟩, h.mono ha.pages_subset,
        fun e he => absurd he List.not_mem_nil⟩
    | .ok (.disallow .robots) => exact hskip .robots
    | .ok (.disallow .circuit) => exact hack
    | .error e => exact fun hb => by cases hb

/-- What `extract` returns, if anything. -/
def Extracts (K : CrawlPlan) (p : UrlPipeline) (doc : Option ParsedDocument)
    (log : Log Call Call.Answer) (s : Shared) : Prop :=
  Holds K p [] log s ∧ ∀ d ∈ doc, K.RealLinks d

theorem safe_failParse_scope (h : Holds K p [] log s) (reason : String) :
    SafeInScope K p (Extracts K p) (do p.failParse reason; pure none) log s :=
  safe_bind ((safe_limited ((kinds_failParse p reason).mono (limited_of_in (by decide))) h).mono
    fun _ _ _ h => ⟨h, fun _ hd => by cases hd⟩)

/-- One of the two calls that yield a document. -/
theorem safe_extracting {c : Call} (h : Holds K p [] log s) (hok : ∀ s, CallInScope K p log s c)
    {post : c.Answer → Log Call Call.Answer → Shared → Prop}
    (hpost : ∀ r s, Holds K p [] (⟨c, r⟩ :: log) s →
      (∀ doc, documentOf c r = some doc → K.RealLinks doc) → post r (⟨c, r⟩ :: log) s) :
    SafeInScope K p post (await c) log s := by
  refine safe_perform (P := Holds K p [] log) (fun _ _ h he => h.mono he) h (fun s _ => hok s) ?_
  intro s₁ r s₂ h ha
  have hh := h.act ha
  cases ha with
  | mk hreal _ _ => exact hpost r _ hh hreal

theorem safe_parseGeneric_scope (h : Holds K p [] log s) (resp : FetchResponse) :
    SafeInScope K p (Extracts K p) (p.parseGeneric resp) log s := by
  refine safe_bind (safe_extracting (c := .parse resp) h (fun _ => trivial) fun r s h hreal => ?_)
  cases r with
  | ok doc => exact ⟨h, fun d hd => hreal d hd⟩
  | error e => exact safe_failParse_scope h _

theorem safe_extract_scope (h : Holds K p [] log s) (resp : FetchResponse) :
    SafeInScope K p (Extracts K p) (p.extract resp) log s := by
  unfold UrlPipeline.extract
  split
  · exact safe_parseGeneric_scope h resp
  · rename_i adapter _
    refine safe_bind (safe_extracting (c := .adapterExtract adapter resp) h (fun _ => trivial)
      fun r s h hreal => ?_)
    match r with
    | .ok (some doc) => exact ⟨h, fun d hd => hreal d hd⟩
    | .ok none => exact safe_parseGeneric_scope h resp
    | .error e => exact safe_failParse_scope h _

theorem safe_finalize_scope (hd : K.Delivers s₀ p) (resp : FetchResponse) {doc : ParsedDocument}
    (hreal : K.RealLinks doc) (h : Holds K p [] log s) :
    SafeInScope K p (fun _ _ _ => True) (p.finalize resp doc
      (computeOutbound p.entry doc p.deps.crawlScope.depthCap)) log s := by
  refine safe_bind (safe_perform (P := Holds K p [] log) (fun _ _ h he => h.mono he) h
    (fun _ h => ⟨h, hreal⟩) fun s₁ r s₂ h ha => ?_)
  cases r with
  | error e => exact safe_anywhere (kinds_ack p) (by decide)
  | ok blobPath =>
    have hpage : (⟨p.entry, doc⟩ : StoredPage) ∈ s₂.pages := by
      cases ha with
      | mk _ _ _ => exact List.mem_append_right _ List.mem_cons_self
    have hlinks : (computeOutbound p.entry doc p.deps.crawlScope.depthCap).kept =
        K.links ⟨p.entry, doc⟩ := by rw [hd.scope]; rfl
    have hholds := h.act ha
    refine (safe_limited (limited_afterStore p resp blobPath _) ⟨hholds.cleared, hholds.found, ?_⟩).mono
      fun _ _ _ _ => trivial
    intro e he
    exact ⟨_, hpage, rfl, hlinks ▸ he⟩

theorem safe_run_scope (hd : K.Delivers s₀ p) (h : K.Found s.pages p.entry) :
    SafeInScope K p (fun _ _ _ => True) p.run [] s := by
  refine safe_bind ((safe_politenessAllows_scope hd h).mono fun allowed log s h => ?_)
  cases allowed with
  | false => trivial
  | true =>
    refine safe_bind ((safe_limited ((kinds_markAttempting p).mono
      (limited_of_in (by decide))) (h rfl)).mono fun _ log s h => ?_)
    refine safe_bind ((safe_limited (limited_fetch p []) h).mono fun fetched log s h => ?_)
    cases fetched with
    | none => trivial
    | some resp =>
      refine safe_bind ((safe_extract_scope h resp).mono fun extracted log s h => ?_)
      cases extracted with
      | none => trivial
      | some doc => exact safe_finalize_scope hd resp (h.2 doc rfl) h.1

end Safe

/-! ## The crawl stays in scope -/

section InScope

variable {p : UrlPipeline} {log : Log Call Call.Answer} {s s' : Shared}

theorem Holds.reaches {e : UrlEntry} {out : List UrlEntry} (h : Holds K p out log s) (he : e ∈ out) :
    K.Found s.pages e := by
  obtain ⟨page, hp, hentry, hlink⟩ := h.links e he
  obtain ⟨n, hn⟩ := h.found
  have hn : Reached K s.pages n page.entry := hentry ▸ hn
  exact ⟨n + 1, .link hn hp (hentry ▸ h.cleared.unblocked) hlink⟩

theorem found_offers {c : Call} (hok : CallInScope K p log s c) {e : UrlEntry} (he : e ∈ c.offers) :
    K.Found s.pages e := by
  cases c with
  | submitBatch entries =>
    have hok : Holds K p entries log s := hok
    exact hok.reaches he
  | _ => cases he

theorem foundRow_commits (hs : InScope K s) {c : Call} (hok : CallInScope K p log s c) {r : OutboxRow}
    (hr : r ∈ (c.commits s.ledger).outbox.rows) : K.FoundRow s.pages r := by
  cases c with
  | ledger c =>
    obtain hr | ⟨record, rfl, child, hc, hurl, hdepth⟩ := Ledger.exec_outbox_cases hr
    · exact hs.rows r hr
    · have hok : Holds K p record.outbound log s := hok
      exact ⟨child, hok.reaches hc, hurl, hdepth⟩
  | _ => exact hs.rows r hr

theorem page_stored {c : Call} (hok : CallInScope K p log s c) {r : c.Answer} {page : StoredPage}
    (hp : page ∈ p.stored c r) : page.entry.url.host.isSome ∧ K.RealLinks page.doc := by
  unfold UrlPipeline.stored at hp
  split at hp
  · rename_i record _
    have hok : Holds K p [] log s ∧ K.RealLinks record.doc := hok
    rw [List.mem_singleton.1 hp]
    exact ⟨hok.1.cleared.host, hok.2⟩
  · cases hp

/-- What is reached stays reached when pages are added. -/
theorem scoped_of_pages {offered : List UrlEntry} {ledger : Ledger} {pages : List StoredPage}
    (hsub : s.pages ⊆ pages) (hoff : ∀ e ∈ offered, K.Found s.pages e)
    (hrows : ∀ r ∈ ledger.outbox.rows, K.FoundRow s.pages r)
    (hpages : ∀ page ∈ pages, page.entry.url.host.isSome ∧ K.RealLinks page.doc) :
    InScope K ⟨offered, ledger, pages⟩ where
  offered e he := (hoff e he).mono hsub
  rows r hr := by
    obtain ⟨e, he, hrow⟩ := hrows r hr
    exact ⟨e, he.mono hsub, hrow⟩
  pages := hpages

theorem InScope.act (hs : InScope K s) {c : Call} (hok : CallInScope K p log s c) {r : c.Answer}
    (ha : WorkerAct K p s c r s') : InScope K s' := by
  cases ha with
  | mk _ hoff hled =>
    refine scoped_of_pages (List.subset_append_left _ _) (fun e he => ?_) (fun row hr => ?_)
      fun page hp => ?_
    · obtain rfl | rfl := hoff
      · exact hs.offered e he
      · obtain he | he := List.mem_append.1 he
        · exact hs.offered e he
        · exact found_offers hok he
    · obtain rfl | rfl := hled
      · exact hs.rows row hr
      · exact foundRow_commits hs hok hr
    · obtain hp | hp := List.mem_append.1 hp
      · exact hs.pages page hp
      · exact page_stored hok hp

theorem InScope.env (hs : InScope K s) (he : CrawlEnv K s s') : InScope K s' ∧ PagesStay s s' := by
  refine ⟨?_, ?_⟩
  · cases he with
    | seed hseed =>
      refine scoped_of_pages (List.Subset.refl _) (fun e he => ?_) hs.rows hs.pages
      obtain he | he := List.mem_append.1 he
      · exact hs.offered e he
      · rw [List.mem_singleton.1 he]
        exact ⟨0, .seed hseed⟩
    | read hsub hread =>
      refine scoped_of_pages (List.Subset.refl _) (fun e he => ?_) hs.rows hs.pages
      obtain he | he := List.mem_append.1 he
      · exact hs.offered e he
      · obtain ⟨r, hr, hre⟩ := (OutboxRow.readAll_ok hread).2 e he
        obtain ⟨e', ⟨n, hn⟩, hurl, hdepth⟩ := hs.rows r (hsub hr)
        exact ⟨n, hn.reread (hurl ▸ OutboxRow.read_url hre) ((OutboxRow.read_depth hre).trans hdepth)⟩
    | mark =>
      refine scoped_of_pages (List.Subset.refl _) hs.offered (fun r hr => ?_) hs.pages
      obtain ⟨r', hr', rfl⟩ := List.mem_map.1 hr
      exact hs.rows r' hr'
  · cases he <;> exact List.Subset.refl _

end InScope

/-- The invariant, and that every worker stays in scope. -/
theorem crew_in_scope (K : CrawlPlan) : K.crew.runs.Inductive fun S => InScope K S.shared ∧
    ∀ t ∈ S.members, Crew.MemberSafe K.crew PagesStay (CallInScope K) S.shared t := by
  refine Crew.rely_guarantee ?_ (fun _ _ hs he => hs.env he) ?_ ?_
  · rintro s ⟨hoff, hrows, hpages⟩
    exact ⟨by simp [hoff], by simp [hrows], by simp [hpages]⟩
  · exact fun _ _ _ _ _ _ hs hok ha => ⟨hs.act hok ha, WorkerAct.pages_subset ha⟩
  · exact fun s p hs hd => safe_run_scope hd (hs.offered _ hd.offered)

/-- **The crawl stays in scope.** In every run of any number of workers, whatever the collaborators
answer and whichever calls take effect, a worker that is about to fetch asks for its own URL, whose
host is not blocked and for which the politeness layer has answered `Allow`; and that URL is a seed,
or a few links from one, each link kept of a page that was stored before and that is not on a blocked
host. -/
theorem fetches_in_scope (K : CrawlPlan) (S : Crew.State Shared UrlPipeline Call Call.Answer)
    (hS : K.crew.runs.Reachable S) (p : UrlPipeline) (log : Log Call Call.Answer)
    (request : FetchRequest) (k : (Call.fetch request).Answer → Pipe Unit)
    (hp : ⟨p, log, .call (.fetch request) k⟩ ∈ S.members) :
    request.url = p.url ∧ K.bars p.entry = false ∧
      (⟨.check request.url, .ok .allow⟩ : (c : Call) × c.Answer) ∈ log ∧
      ∃ n, Reached K S.shared.pages n p.entry := by
  obtain ⟨hurl, hholds⟩ := Crew.MemberSafe.next (((crew_in_scope K).reachable S hS).2 _ hp)
  exact ⟨hurl, hholds.cleared.unblocked, hurl ▸ hholds.cleared.allowed, hholds.found⟩

/-! ### Two pages of a host, one linking to the other -/

section Sample

/-- One level of links below `https://a.test/`, and nothing of `b.test`. -/
def CrawlPlan.sample : CrawlPlan where
  scope := ⟨some 1, none, fun _ => none⟩
  blocklist := ⟨["b.test"]⟩
  parse s :=
    if s = "https://a.test/" then .ok UrlEntry.seedA.url
    else if s = "https://a.test/b" then .ok UrlEntry.seedA'.url
    else .error "relative URL without a base"
  seed e := e = .seedA
  real u := u = UrlEntry.seedA.url ∨ u = UrlEntry.seedA'.url

/-- The link of the first page, as it comes back from the outbox. -/
def UrlEntry.linkA' : UrlEntry := ⟨UrlEntry.seedA'.url, 1, some UrlEntry.seedA.url⟩

def UrlPipeline.inSample (e : UrlEntry) : UrlPipeline where
  deps := { WorkerDeps.sample with
    linkDispatch := .durableOutbox
    crawlScope := CrawlPlan.sample.scope
    blocklist := CrawlPlan.sample.blocklist }
  entry := e
  attemptId := "s0|50e31edfccebf8eb88f3065e49155e2c|a.test"

/-- Every call succeeds and takes effect, and every page links to `https://a.test/b`. -/
def Shared.answer (p : UrlPipeline) (s : Shared) (c : Call) : c.Answer × Shared :=
  let r := (linking (.ok "blobs/1") s.ledger c).1
  (r, ⟨s.offered ++ c.offers, c.commits s.ledger, s.pages ++ p.stored c r⟩)

theorem workerAct_answer (p : UrlPipeline) (s : Shared) (c : Call) :
    WorkerAct .sample p s c (s.answer p c).1 (s.answer p c).2 := by
  refine .mk (fun doc hdoc => ?_) (.inr rfl) (.inr rfl)
  cases c with
  | parse resp =>
    cases hdoc
    intro u hu
    exact .inr (List.mem_singleton.1 hu)
  | _ => cases hdoc

def Call.asksPage : Call → Bool
  | .fetch _ => true
  | _ => false

/-- The seed is offered. -/
def Shared.seeded : Shared := ⟨[.seedA], .empty, []⟩

/-- The seed's page has been stored and committed. -/
def Shared.crawledA : Shared :=
  (Prog.trace (Shared.answer (.inSample .seedA)) (UrlPipeline.inSample .seedA).run [] .seeded).2

/-- The link has been published. -/
def Shared.published : Shared := { Shared.crawledA with offered := Shared.crawledA.offered ++ [.linkA'] }

theorem reachable_crawledA : CrawlPlan.sample.crew.runs.Reachable ⟨.crawledA, []⟩ := by
  have h0 : CrawlPlan.sample.crew.runs.Reachable ⟨⟨[], .empty, []⟩, []⟩ :=
    .init ⟨⟨rfl, rfl, rfl⟩, rfl⟩
  have h1 : CrawlPlan.sample.crew.runs.Reachable ⟨.seeded, []⟩ := .step h0 (.env (.seed rfl))
  have hd : CrawlPlan.sample.Delivers .seeded (.inSample .seedA) :=
    ⟨List.mem_singleton.2 rfl, rfl, rfl, rfl⟩
  exact Crew.reachable_trace (workerAct_answer _) (Crew.reachable_start h1 hd)

/-- The worker of the link gets to its fetch. -/
theorem reachable_link : ∃ s log request k, CrawlPlan.sample.crew.runs.Reachable
    ⟨s, [⟨.inSample .linkA', log, .call (.fetch request) k⟩]⟩ := by
  have hread : OutboxRow.readAll CrawlPlan.sample.parse Shared.crawledA.ledger.outbox.rows =
      .ok [.linkA'] := by decide +kernel
  have h1 : CrawlPlan.sample.crew.runs.Reachable ⟨.published, []⟩ :=
    .step reachable_crawledA (.env (.read (List.Subset.refl _) hread))
  have hd : CrawlPlan.sample.Delivers .published (.inSample .linkA') :=
    ⟨List.mem_append_right _ List.mem_cons_self, rfl, rfl, rfl⟩
  have hfetch : ((Prog.drive (Shared.answer (.inSample .linkA')) Call.asksPage
      (UrlPipeline.inSample .linkA').run [] .published).any fun d => d.1.asksPage) = true := by
    decide +kernel
  obtain ⟨⟨c, log, s⟩, hdrive, hc⟩ := (Option.any_eq_true _ _).1 hfetch
  obtain ⟨k, hk⟩ := Crew.reachable_drive (workerAct_answer _) (Crew.reachable_start h1 hd) hdrive
  cases c with
  | fetch request => exact ⟨s, log, request, k, hk⟩
  | _ => cases hc

end Sample

/-- The page that the seed links to, about to be fetched. -/
theorem fetches_in_scope_link : ∃ (S : Crew.State Shared UrlPipeline Call Call.Answer) (n : Nat),
    CrawlPlan.sample.crew.runs.Reachable S ∧ Reached .sample S.shared.pages n .linkA' ∧
      CrawlPlan.sample.bars .linkA' = false := by
  obtain ⟨s, log, request, k, hS⟩ := reachable_link
  obtain ⟨-, hbars, -, n, hn⟩ := fetches_in_scope .sample _ hS _ log request k List.mem_cons_self
  exact ⟨_, n, hS, hn, hbars⟩

/-! ## Depths -/

/-- Every host has a depth cap, and none is over `d`. -/
def CrawlPlan.CappedBy (K : CrawlPlan) (d : UInt32) : Prop :=
  ∀ h, ∃ c, K.scope.depthCap h = some c ∧ c ≤ d

/-- Reading a canonical URL back keeps its host. -/
def CrawlPlan.KeepsHost (K : CrawlPlan) : Prop :=
  ∀ u u', K.real u → K.parse u.asStr = .ok u' → K.real u' ∧ u'.host = u.host

/-- The seeds are at depth 0. -/
def CrawlPlan.SeedsAtZero (K : CrawlPlan) : Prop := ∀ e, K.seed e → K.real e.url ∧ e.depth = 0

theorem links_depth {page : StoredPage} {e : UrlEntry} (he : e ∈ K.links page) :
    e.url ∈ page.doc.outboundLinks ∧ e.depth = page.entry.depth + 1 ∧
      ∀ h c, e.url.host = some h → K.scope.depthCap h = some c → e.depth ≤ c := by
  simp only [CrawlPlan.links, computeOutbound, List.mem_filter, List.mem_map] at he
  obtain ⟨⟨url, hurl, rfl⟩, hcap⟩ := he
  refine ⟨hurl.1, rfl, fun h c hhost hc => ?_⟩
  simp only [hhost, Option.bind_some, hc, overCap, Bool.not_eq_true', decide_eq_false_iff_not] at hcap
  exact UInt32.not_lt.1 hcap

/-- `n` links deep: the depth says so, and it is 0 or within the cap of the entry's host. -/
structure DeepAs (K : CrawlPlan) (n : Nat) (e : UrlEntry) : Prop where
  depth : e.depth.toNat = n
  capped : ∀ h c, e.url.host = some h → K.scope.depthCap h = some c → n = 0 ∨ n ≤ c.toNat

theorem DeepAs.le {d : UInt32} (hcap : K.CappedBy d) {n : Nat} {e : UrlEntry} (h : DeepAs K n e)
    (hhost : e.url.host.isSome) : n ≤ d.toNat := by
  obtain ⟨x, hx⟩ := Option.isSome_iff_exists.1 hhost
  obtain ⟨c, hc, hle⟩ := hcap x
  obtain rfl | hn := h.capped x c hx hc
  · exact Nat.zero_le _
  · exact Nat.le_trans hn (UInt32.le_iff_toNat_le.1 hle)

/-- A link is one deeper than its page; the counter does not wrap. -/
theorem deepAs_link {d : UInt32} (hd : d.toNat + 1 < 2 ^ 32) (hcap : K.CappedBy d) {n : Nat}
    {page : StoredPage} (hpage : DeepAs K n page.entry) (hhost : page.entry.url.host.isSome)
    {e : UrlEntry} (he : e ∈ K.links page) : DeepAs K (n + 1) e := by
  obtain ⟨-, hdepth, hown⟩ := links_depth he
  have hn := hpage.le hcap hhost
  have hnext : e.depth.toNat = n + 1 := by
    rw [hdepth, UInt32.toNat_add, hpage.depth]
    exact Nat.mod_eq_of_lt (Nat.lt_of_le_of_lt (Nat.succ_le_succ hn) hd)
  refine ⟨hnext, fun h c hh hc => .inr ?_⟩
  rw [← hnext]
  exact UInt32.le_iff_toNat_le.1 (hown h c hh hc)

theorem Reached.deepAs {pages : List StoredPage} {d : UInt32} (hd : d.toNat + 1 < 2 ^ 32)
    (hseed : K.SeedsAtZero) (hparse : K.KeepsHost) (hcap : K.CappedBy d)
    (hpages : ∀ page ∈ pages, page.entry.url.host.isSome ∧ K.RealLinks page.doc) {n : Nat}
    {e : UrlEntry} (h : Reached K pages n e) : K.real e.url ∧ DeepAs K n e := by
  induction h with
  | seed hs =>
    obtain ⟨hreal, hzero⟩ := hseed _ hs
    exact ⟨hreal, by simp [hzero], fun _ _ _ _ => .inl rfl⟩
  | @link n page e _ hp _ he ih =>
    exact ⟨(hpages page hp).2 _ (links_depth he).1, deepAs_link hd hcap ih.2 (hpages page hp).1 he⟩
  | @reread n e e' _ hread hdepth ih =>
    obtain ⟨hreal, hsame⟩ := hparse _ _ ih.1 hread
    have hsame : e'.url.host = e.url.host := hsame
    exact ⟨hreal, hdepth ▸ ih.2.depth, fun h c hh hc => ih.2.capped h c (hsame ▸ hh) hc⟩

/-- **How deep a crawl goes.** Where the seeds start at depth 0, every host has a cap and none is at
`u32::MAX`: the entry of a worker that is about to fetch is as many links from a seed as its depth
says, through stored pages, and it is a seed or within the cap of its own host. -/
theorem fetch_depth (K : CrawlPlan) (d : UInt32) (hd : d.toNat + 1 < 2 ^ 32)
    (hseed : K.SeedsAtZero) (hparse : K.KeepsHost) (hcap : K.CappedBy d)
    (S : Crew.State Shared UrlPipeline Call Call.Answer) (hS : K.crew.runs.Reachable S)
    (p : UrlPipeline) (log : Log Call Call.Answer) (request : FetchRequest)
    (k : (Call.fetch request).Answer → Pipe Unit)
    (hp : ⟨p, log, .call (.fetch request) k⟩ ∈ S.members) :
    Reached K S.shared.pages p.entry.depth.toNat p.entry ∧
      ∀ h c, p.url.host = some h → K.scope.depthCap h = some c →
        p.entry.depth = 0 ∨ p.entry.depth ≤ c := by
  obtain ⟨hs, hmembers⟩ := (crew_in_scope K).reachable S hS
  obtain ⟨-, hholds⟩ := Crew.MemberSafe.next (hmembers _ hp)
  obtain ⟨n, hn⟩ := hholds.found
  obtain ⟨hdepth, hown⟩ := (hn.deepAs hd hseed hparse hcap hs.pages).2
  rw [hdepth]
  refine ⟨hn, fun h c hh hc => ?_⟩
  obtain h0 | hle := hown h c hh hc
  · exact .inl (UInt32.toNat_inj.1 (by simpa using hdepth.trans h0))
  · exact .inr (UInt32.le_iff_toNat_le.2 (hdepth ▸ hle))

/-- The page that the seed links to is one link deep, which is what the cap allows. -/
theorem fetch_depth_link : ∃ pages, Reached .sample pages 1 .linkA' ∧
    ∀ h c, UrlEntry.linkA'.url.host = some h → CrawlPlan.sample.scope.depthCap h = some c →
      UrlEntry.linkA'.depth = 0 ∨ UrlEntry.linkA'.depth ≤ c := by
  obtain ⟨s, log, request, k, hS⟩ := reachable_link
  have hseed : CrawlPlan.sample.SeedsAtZero := by
    rintro e rfl
    exact ⟨.inl rfl, rfl⟩
  have hparse : CrawlPlan.sample.KeepsHost := by
    rintro u u' (rfl | rfl) hu
    · cases hu
      exact ⟨.inl rfl, rfl⟩
    · cases hu
      exact ⟨.inr rfl, rfl⟩
  have hcap : CrawlPlan.sample.CappedBy 1 := fun h => ⟨1, rfl, UInt32.le_refl 1⟩
  obtain ⟨hn, hown⟩ := fetch_depth .sample 1 (by decide) hseed hparse hcap _ hS _ log request k
    List.mem_cons_self
  exact ⟨_, hn, hown⟩

end Crawlrs

import Crawlrs.L4Runtime.Outbox
import Crawlrs.L4Runtime.Pipeline

/-!
# Fetching a page (`crawlrs-fetch/src/fetcher.rs`)

`fetch` asks the resolver for a proxy, sends the request through it, reads the body up to
the cap and tells the resolver how it went. The HTTP client is `wreq`: what it answers is
an answer of the call `send`, the chunks of the body with it.

* `reported_once`: a proxy that was used is told of once, last, and of what.
* `fetched_body`: a page that is returned has the whole body, within the cap, whatever
  chunks it came in; a body over the cap is never returned.
-/
namespace Crawlrs

open Prog (perform Runs Log)

/-! ## What the client answers -/

/-- The predicates of `wreq::Error` the crawler asks, and its text. -/
structure WreqError where
  isTimeout : Bool := false
  isTls : Bool := false
  isConnectionReset : Bool := false
  isConnect : Bool := false
  text : String
deriving DecidableEq, Repr

/-- A header whose value is no visible ASCII has no text. -/
structure Incoming where
  status : UInt16
  uri : String
  headers : List (String × Option String)
  contentLength : Option UInt64
  chunks : List (Except WreqError Bytes)

/-- mirrors crates/crawlrs-core/src/traits/proxy.rs:25-35 -/
structure ProxySelection where
  url : String
  extraHeaders : List (String × String)
deriving DecidableEq, Repr

/-- mirrors crates/crawlrs-core/src/traits/proxy.rs:39-50 -/
inductive ProxyOutcome
  | success
  | banned
  | timeout
  | networkError
deriving DecidableEq, Repr

/-- What is built up before `send`. The timeout is in seconds. -/
structure Outgoing where
  url : String
  timeout : Nat
  headers : List (String × String)
  proxy : Option String
deriving DecidableEq, Repr

inductive FetchCall
  | resolve (request : FetchRequest)
  | send (request : Outgoing)
  | report (selection : ProxySelection) (outcome : ProxyOutcome)
deriving DecidableEq, Repr

abbrev FetchCall.Answer : FetchCall → Type
  | .resolve _ => Except Error (Option ProxySelection)
  | .send _ => Except WreqError Incoming
  | .report .. => Unit

/-- The fetcher's configuration, with the two parsers of other crates: `proxyAll` is `Proxy::all`,
an error by its text. -/
structure WreqFetcher where
  maxBodyBytes : UInt64
  proxyAll : String → Except String Unit
  parseUrl : ParseUrl

/-! ## Verdicts -/

/-- mirrors crates/crawlrs-fetch/src/fetcher.rs:320-325 -/
def classifyOutcome (status : UInt16) : ProxyOutcome :=
  if status = 403 ∨ status = 429 then .banned else .success

/-- mirrors crates/crawlrs-fetch/src/fetcher.rs:335-345 -/
def classifyWreqError (err : WreqError) : FailureKind :=
  if err.isTimeout then .timeout
  else if err.isTls then .tlsError
  else if err.isConnectionReset || err.isConnect then .connectReset
  else .other

/-! ## The body -/

/-- `u64::saturating_add`. -/
def saturatingAdd (a b : Nat) : Nat := min (a + b) (2 ^ 64 - 1)

/-- The loop over the stream, with the buffer so far.
mirrors crates/crawlrs-fetch/src/fetcher.rs:350-381 -/
def readBody (cap : UInt64) (url : CanonicalUrl) (buf : Bytes) :
    List (Except WreqError Bytes) → Except Error Bytes
  | [] => .ok buf
  | .error err :: _ =>
    .error (.transport (classifyWreqError err) ("body read from " ++ url.asStr ++ " failed: " ++ err.text))
  | .ok chunk :: rest =>
    if cap.toNat < saturatingAdd buf.length chunk.length then
      .error (.fetch ("response body from " ++ url.asStr ++ " exceeds cap of " ++ toString cap.toNat ++
        " bytes during streaming"))
    else readBody cap url (buf ++ chunk) rest

/-- `collect` into a `HashMap`: of two values for a name the later one stays. -/
def insertHeader (headers : List (String × String)) (header : String × String) : List (String × String) :=
  headers.filter (fun h => h.1 ≠ header.1) ++ [header]

def collectHeaders (headers : List (String × Option String)) : List (String × String) :=
  (headers.filterMap fun h => h.2.map fun value => (h.1, value)).foldl insertHeader []

/-! ## One fetch -/

namespace WreqFetcher

variable (F : WreqFetcher)

abbrev Fetching := Prog FetchCall FetchCall.Answer

def await (c : FetchCall) : Fetching c.Answer := perform c

/-- Only a proxy that was chosen is told. -/
def report (selection : Option ProxySelection) (outcome : ProxyOutcome) : Fetching Unit :=
  match selection with
  | some activeProxy => await (.report activeProxy outcome)
  | none => pure ()

/-- `Proxy::all` refuses the URL of the proxy. -/
def refusedProxy (selection : Option ProxySelection) : Option Error :=
  match selection with
  | some activeProxy =>
    match F.proxyAll activeProxy.url with
    | .ok () => none
    | .error err => some (.fetch ("invalid proxy url " ++ activeProxy.url ++ ": " ++ err))
  | none => none

/-- mirrors crates/crawlrs-fetch/src/fetcher.rs:111-138 -/
def build (request : FetchRequest) (selection : Option ProxySelection) : Outgoing where
  url := request.url.asStr
  timeout := request.timeout
  headers := request.headers ++ (selection.map ProxySelection.extraHeaders).getD []
  proxy := selection.map ProxySelection.url

/-- `Content-Length` is over the cap. -/
def overAdvertised (response : Incoming) : Option UInt64 :=
  response.contentLength.filter fun advertisedLen => F.maxBodyBytes < advertisedLen

/-- mirrors crates/crawlrs-fetch/src/fetcher.rs:102-311 -/
def fetch (request : FetchRequest) : Fetching (Except Error FetchResponse) := do
  match ← await (.resolve request) with
  | .error err => pure (.error err)
  | .ok proxySelection =>
    match F.refusedProxy proxySelection with
    | some err => pure (.error err)
    | none =>
      match ← await (.send (build request proxySelection)) with
      | .error sendError =>
        report proxySelection (if sendError.isTimeout then .timeout else .networkError)
        pure (.error (.transport (classifyWreqError sendError)
          ("request to " ++ request.url.asStr ++ " failed: " ++ sendError.text)))
      | .ok response =>
        match F.overAdvertised response with
        | some advertisedLen =>
          report proxySelection (classifyOutcome response.status)
          pure (.error (.fetch ("response body content-length " ++ toString advertisedLen.toNat ++
            " exceeds cap " ++ toString F.maxBodyBytes.toNat)))
        | none =>
          match readBody F.maxBodyBytes request.url [] response.chunks with
          | .error readError =>
            report proxySelection .networkError
            pure (.error readError)
          | .ok responseBody =>
            let finalUrl := match F.parseUrl response.uri with
              | .ok url => url
              | .error _ => request.url
            report proxySelection (classifyOutcome response.status)
            pure (.ok ⟨finalUrl, response.status, collectHeaders response.headers, responseBody⟩)

/-! ### What comes of an answer of `send` -/

/-- What the proxy is told. -/
def verdict (request : FetchRequest) : Except WreqError Incoming → ProxyOutcome
  | .error sendError => if sendError.isTimeout then .timeout else .networkError
  | .ok response =>
    match F.overAdvertised response, readBody F.maxBodyBytes request.url [] response.chunks with
    | none, .error _ => .networkError
    | _, _ => classifyOutcome response.status

/-- What the caller is told. -/
def answer (request : FetchRequest) : Except WreqError Incoming → Except Error FetchResponse
  | .error sendError => .error (.transport (classifyWreqError sendError)
      ("request to " ++ request.url.asStr ++ " failed: " ++ sendError.text))
  | .ok response =>
    match F.overAdvertised response with
    | some advertisedLen => .error (.fetch ("response body content-length " ++ toString advertisedLen.toNat ++
        " exceeds cap " ++ toString F.maxBodyBytes.toNat))
    | none => (readBody F.maxBodyBytes request.url [] response.chunks).map fun body =>
        ⟨match F.parseUrl response.uri with
          | .ok url => url
          | .error _ => request.url, response.status, collectHeaders response.headers, body⟩

/-- A fetch that gets as far as `send` reports and returns. -/
theorem fetch_eq (request : FetchRequest) :
    F.fetch request = (do
      match ← await (.resolve request) with
      | .error err => pure (.error err)
      | .ok proxySelection =>
        match F.refusedProxy proxySelection with
        | some err => pure (.error err)
        | none =>
          let sent ← await (.send (build request proxySelection))
          report proxySelection (F.verdict request sent)
          pure (F.answer request sent)) := by
  unfold fetch
  refine congrArg (Prog.bind _) (funext fun resolved => ?_)
  cases resolved with
  | error err => rfl
  | ok proxySelection =>
    cases hrefused : F.refusedProxy proxySelection with
    | some err => simp only [hrefused]
    | none =>
      simp only [hrefused]
      refine congrArg (Prog.bind _) (funext fun sent => ?_)
      cases sent with
      | error sendError => rfl
      | ok response =>
        cases hover : F.overAdvertised response with
        | some advertisedLen => simp only [verdict, answer, hover]
        | none =>
          cases hbody : readBody F.maxBodyBytes request.url [] response.chunks with
          | error readError => simp only [verdict, answer, hover, hbody, Except.map]
          | ok responseBody => simp only [verdict, answer, hover, hbody, Except.map]

end WreqFetcher

/-! ## Reading the body -/

/-- As long as the guard lets it be. -/
def Within (cap : UInt64) (n : Nat) : Prop := min n (2 ^ 64 - 1) ≤ cap.toNat

theorem Within.mono {cap : UInt64} {m n : Nat} (h : Within cap n) (hmn : m ≤ n) : Within cap m := by
  unfold Within at *
  omega

/-- Under a cap that is not the largest number, nothing over it is let through. -/
theorem within_iff {cap : UInt64} (hcap : cap.toNat < 2 ^ 64 - 1) (n : Nat) : Within cap n ↔ n ≤ cap.toNat := by
  unfold Within
  omega

/-- The chunks arrive one after the other, and together they are let through. -/
def Whole (cap : UInt64) (chunks : List (Except WreqError Bytes)) (body : Bytes) : Prop :=
  ∃ pieces : List Bytes, chunks = pieces.map .ok ∧ body = pieces.flatten ∧ Within cap body.length

theorem readBody_eq_ok {cap : UInt64} {url : CanonicalUrl} {buf body : Bytes}
    {chunks : List (Except WreqError Bytes)} (hbuf : Within cap buf.length) :
    readBody cap url buf chunks = .ok body ↔
      ∃ pieces : List Bytes, chunks = pieces.map .ok ∧ body = buf ++ pieces.flatten ∧ Within cap body.length := by
  induction chunks generalizing buf with
  | nil =>
    constructor
    · intro h
      cases h
      exact ⟨[], rfl, by simp, hbuf⟩
    · rintro ⟨pieces, hnil, hbody, -⟩
      rw [List.map_eq_nil_iff.1 hnil.symm] at hbody
      simp [readBody, hbody]
  | cons chunkResult rest ih =>
    cases chunkResult with
    | error err =>
      constructor
      · exact fun h => nomatch h
      · rintro ⟨pieces, hpieces, -⟩
        cases pieces with
        | nil => cases hpieces
        | cons piece pieces => cases hpieces
    | ok chunk =>
      have hnext : (buf ++ chunk).length = buf.length + chunk.length := List.length_append
      by_cases hguard : Within cap (buf.length + chunk.length)
      · have hguard' : ¬ cap.toNat < saturatingAdd buf.length chunk.length := by
          unfold Within saturatingAdd at *
          omega
        rw [readBody, if_neg hguard', ih (hnext ▸ hguard)]
        constructor
        · rintro ⟨pieces, rfl, hbody, hcap⟩
          exact ⟨chunk :: pieces, rfl, by rw [hbody, List.flatten_cons, List.append_assoc], hcap⟩
        · rintro ⟨pieces, hpieces, hbody, hcap⟩
          cases pieces with
          | nil => cases hpieces
          | cons piece pieces =>
            cases hpieces
            exact ⟨pieces, rfl, by rw [hbody, List.flatten_cons, List.append_assoc], hcap⟩
      · have hguard' : cap.toNat < saturatingAdd buf.length chunk.length := by
          unfold Within saturatingAdd at *
          omega
        rw [readBody, if_pos hguard']
        constructor
        · exact fun h => nomatch h
        · rintro ⟨pieces, hpieces, rfl, hcap⟩
          cases pieces with
          | nil => cases hpieces
          | cons piece pieces =>
            cases hpieces
            refine absurd (hcap.mono ?_) hguard
            simp only [List.length_append, List.flatten_cons]
            omega

/-- The body is read to its end exactly where it is whole. -/
theorem readBody_iff {cap : UInt64} {url : CanonicalUrl} {body : Bytes} {chunks : List (Except WreqError Bytes)} :
    readBody cap url [] chunks = .ok body ↔ Whole cap chunks body := by
  have hempty : Within cap ([] : Bytes).length := by simp [Within]
  rw [readBody_eq_ok hempty]
  simp [Whole]

/-! ## Runs -/

/-- What a resolver was told in a run. -/
def reports (log : Log FetchCall FetchCall.Answer) : List (ProxySelection × ProxyOutcome) :=
  log.filterMap fun e => match e with
    | ⟨.report activeProxy outcome, _⟩ => some (activeProxy, outcome)
    | _ => none

/-- A request went out through what the resolver chose. -/
structure Sent (F : WreqFetcher) (request : FetchRequest) (log : Log FetchCall FetchCall.Answer)
    (selection : Option ProxySelection) (sent : Except WreqError Incoming) : Prop where
  resolved : ⟨.resolve request, .ok selection⟩ ∈ log
  through : ⟨.send (WreqFetcher.build request selection), sent⟩ ∈ log
  accepted : F.refusedProxy selection = none

/-- A response with a body the fetcher takes: not announced as too long, and read to its end. -/
def Taken (F : WreqFetcher) (response : Incoming) (body : Bytes) : Prop :=
  F.overAdvertised response = none ∧ Whole F.maxBodyBytes response.chunks body

/-- What a proxy has deserved. Only a body that breaks off or turns out too long while it is read
counts against the proxy; one that is announced as too long does not. -/
inductive Deserved (F : WreqFetcher) : Except WreqError Incoming → ProxyOutcome → Prop
  | timeout {err} : err.isTimeout = true → Deserved F (.error err) .timeout
  | network {err} : err.isTimeout = false → Deserved F (.error err) .networkError
  | announced {response len} : response.contentLength = some len → F.maxBodyBytes < len →
      Deserved F (.ok response) (classifyOutcome response.status)
  | broken {response} : F.overAdvertised response = none → (∀ body, ¬ Taken F response body) →
      Deserved F (.ok response) .networkError
  | taken {response body} : Taken F response body → Deserved F (.ok response) (classifyOutcome response.status)

namespace WreqFetcher

variable {F : WreqFetcher} {request : FetchRequest}

theorem deserved_verdict (F : WreqFetcher) (request : FetchRequest) (sent : Except WreqError Incoming) :
    Deserved F sent (F.verdict request sent) := by
  cases sent with
  | error err =>
    cases htimeout : err.isTimeout with
    | true => simpa [verdict, htimeout] using Deserved.timeout htimeout
    | false => simpa [verdict, htimeout] using Deserved.network htimeout
  | ok response =>
    cases hover : F.overAdvertised response with
    | some len =>
      obtain ⟨hlen, hcap⟩ := Option.filter_eq_some_iff.1 hover
      simpa only [verdict, hover] using Deserved.announced hlen (by simpa using hcap)
    | none =>
      cases hbody : readBody F.maxBodyBytes request.url [] response.chunks with
      | error err =>
        simp only [verdict, hover, hbody]
        refine .broken hover fun body htaken => ?_
        rw [readBody_iff.2 htaken.2] at hbody
        cases hbody
      | ok body =>
        simp only [verdict, hover, hbody]
        exact .taken ⟨hover, readBody_iff.1 hbody⟩

theorem answer_eq_ok {response : Incoming} {resp : FetchResponse} :
    F.answer request (.ok response) = .ok resp ↔
      Taken F response resp.body ∧ resp.status = response.status ∧
        resp.headers = collectHeaders response.headers ∧
        resp.url = (match F.parseUrl response.uri with
          | .ok url => url
          | .error _ => request.url) := by
  unfold answer Taken
  cases hover : F.overAdvertised response with
  | some len => simp [hover]
  | none =>
    simp only [hover, true_and, ← @readBody_iff F.maxBodyBytes request.url]
    cases hbody : readBody F.maxBodyBytes request.url [] response.chunks with
    | error err => simp [Except.map]
    | ok body =>
      obtain ⟨url, status, headers, body'⟩ := resp
      simp only [Except.map, Except.ok.injEq, FetchResponse.mk.injEq]
      constructor
      · rintro ⟨rfl, rfl, rfl, rfl⟩
        exact ⟨rfl, rfl, rfl, rfl⟩
      · rintro ⟨rfl, rfl, rfl, rfl⟩
        exact ⟨rfl, rfl, rfl, rfl⟩

variable {σ : Type} {W : World σ FetchCall FetchCall.Answer} {s s' : σ}
  {log : Log FetchCall FetchCall.Answer} {result : Except Error FetchResponse}

theorem runs_report {selection : Option ProxySelection} {outcome : ProxyOutcome} {u : Unit}
    {log' : Log FetchCall FetchCall.Answer} (h : Runs W (report selection outcome) log s u log' s') :
    log' = (selection.toList.map fun p => ⟨.report p outcome, ()⟩) ++ log := by
  cases selection with
  | none => exact h.of_pure.2
  | some p => exact h.of_perform

/-- The log of a fetch that sent its request, from its end. -/
def sentLog (F : WreqFetcher) (request : FetchRequest) (selection : Option ProxySelection)
    (sent : Except WreqError Incoming) : Log FetchCall FetchCall.Answer :=
  (selection.toList.map fun p => ⟨.report p (F.verdict request sent), ()⟩) ++
    [⟨.send (build request selection), sent⟩, ⟨.resolve request, .ok selection⟩]

theorem mem_sentLog_send {selection : Option ProxySelection} {sent sent' : Except WreqError Incoming}
    {out : Outgoing} (h : ⟨.send out, sent'⟩ ∈ F.sentLog request selection sent) :
    out = build request selection ∧ sent' = sent := by
  rcases List.mem_append.1 h with h | h
  · obtain ⟨p, -, hp⟩ := List.mem_map.1 h
    cases hp
  · rcases List.mem_cons.1 h with h | h
    · cases h
      exact ⟨rfl, rfl⟩
    · cases List.mem_singleton.1 h

theorem mem_sentLog_resolve {selection selection' : Option ProxySelection} {sent : Except WreqError Incoming}
    (h : ⟨.resolve request, .ok selection'⟩ ∈ F.sentLog request selection sent) : selection' = selection := by
  rcases List.mem_append.1 h with h | h
  · obtain ⟨p, -, hp⟩ := List.mem_map.1 h
    cases hp
  · rcases List.mem_cons.1 h with h | h
    · cases h
    · cases List.mem_singleton.1 h
      rfl

theorem sent_sentLog {selection : Option ProxySelection} (sent : Except WreqError Incoming)
    (haccepted : F.refusedProxy selection = none) :
    Sent F request (F.sentLog request selection sent) selection sent where
  resolved := List.mem_append_right _ (List.mem_cons_of_mem _ List.mem_cons_self)
  through := List.mem_append_right _ List.mem_cons_self
  accepted := haccepted

/-- A fetch ends at the resolver, at the URL of the proxy, or with an answer of `send`. -/
theorem fetch_log (h : Runs W (F.fetch request) [] s result log s') :
    (∃ resolved err, log = [⟨.resolve request, resolved⟩] ∧ result = .error err) ∨
    ∃ selection sent, F.refusedProxy selection = none ∧ result = F.answer request sent ∧
      log = F.sentLog request selection sent := by
  rw [fetch_eq] at h
  obtain ⟨resolved, log₁, s₁, hresolve, h⟩ := h.of_bind
  obtain rfl := hresolve.of_perform
  cases resolved with
  | error err =>
    obtain ⟨rfl, rfl⟩ := h.of_pure
    exact .inl ⟨.error err, err, rfl, rfl⟩
  | ok selection =>
    cases hrefused : F.refusedProxy selection with
    | some err =>
      simp only [hrefused] at h
      obtain ⟨rfl, rfl⟩ := h.of_pure
      exact .inl ⟨.ok selection, err, rfl, rfl⟩
    | none =>
      simp only [hrefused] at h
      obtain ⟨sent, log₂, s₂, hsend, h⟩ := h.of_bind
      obtain rfl := hsend.of_perform
      obtain ⟨u, log₃, s₃, hreport, h⟩ := h.of_bind
      obtain rfl := runs_report hreport
      obtain ⟨rfl, rfl⟩ := h.of_pure
      exact .inr ⟨selection, sent, hrefused, rfl, rfl⟩

/-- For every run, whatever the resolver and the network answer: a resolver is told of a proxy exactly
when a request went out through it, once, as the last thing, and what it deserved. -/
theorem reported_once {σ : Type} (W : World σ FetchCall FetchCall.Answer) (F : WreqFetcher)
    (request : FetchRequest) (s s' : σ) (log : Log FetchCall FetchCall.Answer)
    (result : Except Error FetchResponse) (h : Runs W (F.fetch request) [] s result log s') :
    (∀ out sent, ⟨.send out, sent⟩ ∈ log → ∃ selection, out = build request selection ∧
      Sent F request log selection sent) ∧
    (∀ p sent, Sent F request log (some p) sent → ∃ outcome, Deserved F sent outcome ∧
      reports log = [(p, outcome)] ∧ log.head? = some ⟨.report p outcome, ()⟩) ∧
    ((∀ p sent, ¬ Sent F request log (some p) sent) → reports log = []) := by
  obtain ⟨resolved, err, rfl, -⟩ | ⟨selection, sent, haccepted, -, rfl⟩ := fetch_log h
  · have hnone : ∀ selection sent, ¬ Sent F request [⟨.resolve request, resolved⟩] selection sent :=
      fun selection sent hs => nomatch List.mem_singleton.1 hs.through
    exact ⟨fun out sent hout => (nomatch List.mem_singleton.1 hout),
      fun p sent hs => absurd hs (hnone _ _), fun _ => rfl⟩
  · refine ⟨fun out sent' hout => ?_, fun p sent' hs => ?_, fun hnone => ?_⟩
    · obtain ⟨rfl, rfl⟩ := mem_sentLog_send hout
      exact ⟨selection, rfl, sent_sentLog sent' haccepted⟩
    · obtain rfl := mem_sentLog_resolve hs.resolved
      obtain ⟨-, rfl⟩ := mem_sentLog_send hs.through
      exact ⟨F.verdict request sent', deserved_verdict F request sent', rfl, rfl⟩
    · cases selection with
      | none => rfl
      | some p => exact absurd (sent_sentLog sent haccepted) (hnone p sent)

/-- For every run: what is returned is a response that was taken, with its whole body within the cap; a
response that was taken is returned; and how its body was cut does not matter. -/
theorem fetched_body {σ : Type} (W : World σ FetchCall FetchCall.Answer) (F : WreqFetcher)
    (request : FetchRequest) (s s' : σ) (log : Log FetchCall FetchCall.Answer)
    (result : Except Error FetchResponse) (h : Runs W (F.fetch request) [] s result log s') :
    (∀ resp, result = .ok resp ↔ ∃ selection response, Sent F request log selection (.ok response) ∧
      Taken F response resp.body ∧ resp.status = response.status ∧
      resp.headers = collectHeaders response.headers ∧
      resp.url = (match F.parseUrl response.uri with
        | .ok url => url
        | .error _ => request.url)) ∧
    (∀ resp, result = .ok resp → F.maxBodyBytes.toNat < 2 ^ 64 - 1 →
      resp.body.length ≤ F.maxBodyBytes.toNat) ∧
    ∀ (response : Incoming) (body : Bytes) (pieces : List Bytes), Taken F response body →
      pieces.flatten = body → Taken F { response with chunks := pieces.map .ok } body := by
  have hiff : ∀ resp, result = .ok resp ↔ ∃ selection response,
      Sent F request log selection (.ok response) ∧ F.answer request (.ok response) = .ok resp := by
    intro resp
    obtain ⟨resolved, err, rfl, rfl⟩ | ⟨selection, sent, haccepted, rfl, rfl⟩ := fetch_log h
    · constructor
      · exact fun he => nomatch he
      · rintro ⟨selection, response, hs, -⟩
        cases List.mem_singleton.1 hs.through
    · constructor
      · intro he
        cases sent with
        | error err => cases he
        | ok response => exact ⟨selection, response, sent_sentLog _ haccepted, he⟩
      · rintro ⟨selection', response, hs, he⟩
        obtain ⟨-, rfl⟩ := mem_sentLog_send hs.through
        exact he
  refine ⟨?_, fun resp he hcap => ?_, fun response body pieces htaken hpieces => ?_⟩
  · simpa only [answer_eq_ok] using hiff
  · obtain ⟨selection, response, -, he⟩ := (hiff resp).1 he
    obtain ⟨-, pieces, -, -, hwithin⟩ := (answer_eq_ok.1 he).1
    exact (within_iff hcap _).1 hwithin
  · obtain ⟨hover, _, -, -, hwithin⟩ := htaken
    exact ⟨hover, pieces, rfl, hpieces.symm, hwithin⟩

/-! ### A fetch through a proxy that is banned -/

def sampleUrl : CanonicalUrl := ⟨⟨"https://a.test/", "https", some "a.test"⟩⟩

def sample : WreqFetcher := ⟨4, fun _ => .ok (), fun _ => .ok sampleUrl⟩

def sampleProxy : ProxySelection := ⟨"http://proxy.test:3128", []⟩

def sampleResponse : Incoming := ⟨403, "https://a.test/", [("server", some "a")], some 3, [.ok [1, 2], .ok [3]]⟩

/-- The resolver always has the same proxy, and the server the same answer. -/
def sampleAnswer : (c : FetchCall) → c.Answer
  | .resolve _ => .ok (some sampleProxy)
  | .send _ => .ok sampleResponse
  | .report .. => ()

def sampleWorld : World Unit FetchCall FetchCall.Answer where
  env _ _ := False
  act _ c r _ := r = sampleAnswer c

def sampleRequest : FetchRequest := { url := sampleUrl }

def sampleReply : FetchResponse := ⟨sampleUrl, 403, [("server", "a")], [1, 2, 3]⟩

theorem sampleWorld_act (c : FetchCall) : sampleWorld.act () c (sampleAnswer c) () := rfl

theorem runs_sample : Runs sampleWorld (sample.fetch sampleRequest) [] () (.ok sampleReply)
    (sample.sentLog sampleRequest (some sampleProxy) (.ok sampleResponse)) () := by
  refine .call .refl (sampleWorld_act _) (.call .refl (sampleWorld_act _) (.call .refl (sampleWorld_act _) ?_))
  exact .ret _ _ _

theorem reported_once_sample :
    Deserved sample (.ok sampleResponse) .banned ∧ ∃ outcome, Deserved sample (.ok sampleResponse) outcome ∧
      reports (sample.sentLog sampleRequest (some sampleProxy) (.ok sampleResponse)) =
        [(sampleProxy, outcome)] := by
  obtain ⟨outcome, hdeserved, hreports, -⟩ :=
    (reported_once sampleWorld sample sampleRequest () () _ _ runs_sample).2.1 sampleProxy _
      (sent_sentLog (.ok sampleResponse) rfl)
  exact ⟨deserved_verdict sample sampleRequest (.ok sampleResponse), outcome, hdeserved, hreports⟩

theorem fetched_body_sample : sampleReply.body.length ≤ 4 :=
  (fetched_body sampleWorld sample sampleRequest () () _ _ runs_sample).2.1 sampleReply rfl (by decide)

end WreqFetcher

end Crawlrs

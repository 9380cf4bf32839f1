import Crawlrs.L1Data.Text
import Crawlrs.L1Data.Tokens

/-!
# Failures and their categories (`crawlrs-runtime/src/failure.rs`)

The crate-wide `Error` with its texts, and the maps from a fetch outcome to the
category the politeness layer backs off on.

* `classifyStatus_eq_none`: only 2xx and 3xx are not failures.
* `classifyTransportError` reads the error's text and those of its sources;
  the tests run in the source's order.
* `parseRetryAfter`: the date form goes through the `httpdate` crate, a
  parameter here.
-/
namespace Crawlrs

/-- mirrors crates/crawlrs-core/src/traits/politeness.rs:73-118 -/
inductive FailureKind
  | tooManyRequests
  | serviceUnavailable
  | notFound
  | clientError
  | serverError
  | connectReset
  | timeout
  | dnsFailure
  | tlsError
  | unreachable
  | resourceExhausted
  | other
deriving DecidableEq, Repr

/-- mirrors crates/crawlrs-core/src/traits/politeness.rs:126-141 -/
def FailureKind.asStr : FailureKind → String
  | .tooManyRequests => "too_many_requests"
  | .serviceUnavailable => "service_unavailable"
  | .notFound => "not_found"
  | .clientError => "client_error"
  | .serverError => "server_error"
  | .connectReset => "connect_reset"
  | .timeout => "timeout"
  | .dnsFailure => "dns_failure"
  | .tlsError => "tls_error"
  | .unreachable => "unreachable"
  | .resourceExhausted => "resource_exhausted"
  | .other => "other"

/-- `InvalidUrl` and `Io` wrap another error: its text, and those of its own sources.
mirrors crates/crawlrs-core/src/error.rs:12-49 -/
inductive Error
  | invalidUrl (text : String) (sources : List String)
  | fetch (text : String)
  | transport (kind : FailureKind) (message : String)
  | parse (text : String)
  | store (text : String)
  | frontier (text : String)
  | politeness (text : String)
  | metadata (text : String)
  | io (text : String) (sources : List String)
  | other (text : String)
deriving DecidableEq, Repr

namespace Error

/-- The `#[error(..)]` texts. -/
def display : Error → String
  | .invalidUrl t _ => "invalid url: " ++ t
  | .fetch t => "fetch error: " ++ t
  | .transport _ m => "transport error: " ++ m
  | .parse t => "parse error: " ++ t
  | .store t => "store error: " ++ t
  | .frontier t => "frontier error: " ++ t
  | .politeness t => "politeness error: " ++ t
  | .metadata t => "metadata error: " ++ t
  | .io t _ => "io error: " ++ t
  | .other t => t

/-- The texts along `source()`; only a `#[from]` variant has one. -/
def sources : Error → List String
  | .invalidUrl t ts => t :: ts
  | .io t ts => t :: ts
  | _ => []

end Error

/-! ## Categories -/

/-- mirrors crates/crawlrs-runtime/src/failure.rs:26-36 -/
def classifyStatus (status : UInt16) : Option FailureKind :=
  if 200 ≤ status ∧ status ≤ 399 then none
  else if status = 404 ∨ status = 410 then some .notFound
  else if status = 429 then some .tooManyRequests
  else if 400 ≤ status ∧ status ≤ 499 then some .clientError
  else if status = 503 then some .serviceUnavailable
  else if 500 ≤ status ∧ status ≤ 599 then some .serverError
  else some .other

theorem classifyStatus_ok : classifyStatus 200 = none := rfl

theorem classifyStatus_eq_none {status : UInt16} :
    classifyStatus status = none ↔ 200 ≤ status ∧ status ≤ 399 := by
  unfold classifyStatus
  split_ifs with h1 h2 h3 h4 h5 h6 <;> simp [h1]

/-- `str::contains`. -/
def contains (text sub : String) : Bool := decide (sub.toList <:+: text.toList)

/-- The tests of the fallback, in the source's order. -/
def transportSigns : List (List String × FailureKind) :=
  [(["too many open files", "emfile"], .resourceExhausted),
   (["tls", "ssl", "handshake", "certificate"], .tlsError),
   (["dns error", "name resolution", "failed to lookup"], .dnsFailure),
   (["network is unreachable", "network unreachable", "no route to host", "host is unreachable",
     "host unreachable"], .unreachable),
   (["timeout", "timed out"], .timeout),
   (["connection reset", "connection aborted", "broken pipe", "connection refused"], .connectReset),
   (["address not available", "cannot assign requested address", "eaddrnotavail"],
     .resourceExhausted)]

/-- mirrors crates/crawlrs-runtime/src/failure.rs:55-121; `String.toLower` maps ASCII only -/
def classifyTransportError (err : Error) : FailureKind :=
  let text := err.sources.foldl (fun t s => t ++ " " ++ s.toLower) err.display.toLower
  match transportSigns.find? fun sign => sign.1.any (contains text) with
  | some (_, kind) => kind
  | none => .other

/-! ## `Retry-After` -/

/-- A hint in nanoseconds: a delay, or a date since the epoch, which the caller turns into
a delay by its clock. -/
inductive RetryAfter
  | absent
  | delta (ns : Nat)
  | date (atNs : Nat)
deriving DecidableEq, Repr

/-- Up to the reading of the clock; `httpDate` gives the seconds since the epoch of a date.
mirrors crates/crawlrs-runtime/src/failure.rs:138-152 -/
def parseRetryAfter (httpDate : String → Option Nat) (value : String) : RetryAfter :=
  let trimmed := Runs.trim isWhitespace value.toList
  if trimmed = [] then .absent
  else
    match parseUnsigned 64 trimmed with
    | some secs => .delta (secs * 10 ^ 9)
    | none =>
      match httpDate (String.ofList trimmed) with
      | some secs => .date (secs * 10 ^ 9)
      | none => .absent

/-- mirrors crates/crawlrs-runtime/src/failure.rs:157-162; the map in its iteration order -/
def extractRetryAfter (httpDate : String → Option Nat) (headers : List (String × String)) :
    RetryAfter :=
  match headers.find? fun h => eqIgnoreAsciiCase h.1.toList "retry-after".toList with
  | some (_, value) => parseRetryAfter httpDate value
  | none => .absent

end Crawlrs

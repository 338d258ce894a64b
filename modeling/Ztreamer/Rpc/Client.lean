import Mathlib.Data.Stream.Init
import Ztreamer.Lib.Octets
import Ztreamer.Lib.Result

/-! # The JSON-RPC client

    One call to the node: the credentials, one attempt, and the loop that decides
    whether the request is sent again.

    A call meets a stream of turns, one for each attempt. A turn is what happens
    during the attempt: how the exchange ends, what the cookie file holds, and what
    other calls do to the state that all calls of a client share.

    * `RpcClient.attempts`: the loop, with the list of the requests that it sent,
    * `RpcClient.submits_once_iff`: when a call that retries only unsent requests runs
      at most once on the node.
-/

namespace Ztreamer

open Octets Result

/-! ## Errors -/

/-- The status of an HTTP answer. -/
abbrev HttpStatus : Type := { code : Nat // 100 ≤ code ∧ code < 1000 }

/-- The error object of the node. -/
structure RpcErrorObject where
  code : Int
  message : String
  deriving DecidableEq

/-- The node is still warming up. -/
def inWarmup : Int := -28

/-- Why a request gave no HTTP answer: an error of the HTTP client, or of the read of
    the body. -/
inductive TransportError where
  | client (isConnect : Bool) (text : String)
  | body (text : String)
  deriving DecidableEq

inductive RpcError where
  | config (text : String)
  | transport (method : String) (source : TransportError)
  | connectionClosed (method hint : String)
  | timeout (method : String) (timeout : Nat)
  | unauthorized (method : String) (status : HttpStatus)
  | http (method : String) (status : HttpStatus) (body : String)
  | rpc (method : String) (object : RpcErrorObject)
  | protocol (method detail : String)
  | decode (method source : String)
  deriving DecidableEq

namespace RpcError

/-- The request did not reach the node. -/
def isUnsent : RpcError → Bool
  | transport _ (.client isConnect _) => isConnect
  | _ => false

def isRetryable : RpcError → Bool
  | transport .. | connectionClosed .. | timeout .. => true
  | http _ status _ => status.val ∈ [429, 502, 503, 504]
  | rpc _ object => object.code = inWarmup
  | config _ | unauthorized .. | protocol .. | decode .. => false

def isUnauthorized : RpcError → Bool
  | unauthorized .. => true
  | _ => false

/-- A call with cookie credentials reads the cookie file again after this error. -/
def mayBeCredentials : RpcError → Bool
  | unauthorized .. | connectionClosed .. => true
  | _ => false

end RpcError

/-! ## Formats of the libraries -/

/-- The body of an answer. -/
structure Response (Value : Type) where
  result : Option Value
  error : Option RpcErrorObject
  id : Option Value

/-- The formats that a call uses: JSON, base64 and text. -/
class RpcFormats where
  Value : Type
  null : Value
  isNull : Value → Bool
  array : List Value → Value
  /-- A byte string in hex. -/
  hexData : Bytes → Value
  /-- The value of an unsigned number. -/
  asU64 : Value → Option Nat
  debug : Option Value → String
  /-- The request with an id, a method and its parameters. -/
  toVec : U64 → String → Value → Except String Bytes
  fromSlice : Bytes → Except String (Response Value)
  encodeBase64 : String → String
  fromUtf8Lossy : Bytes → String

open RpcFormats (Value)

section

variable [RpcFormats]

/-! ## Credentials -/

inductive Auth where
  | none
  | cookie (path : String)
  | basic (user password : String)
  deriving DecidableEq

/-- The white space that a trim removes. -/
def isWhiteSpace (c : Char) : Bool :=
  let n := c.toNat
  (9 ≤ n && n ≤ 13) || (0x2000 ≤ n && n ≤ 0x200a) ||
    n ∈ [0x20, 0x85, 0xa0, 0x1680, 0x2028, 0x2029, 0x202f, 0x205f, 0x3000]

def trimText (text : String) : String :=
  .ofList (((text.toList.dropWhile isWhiteSpace).reverse.dropWhile isWhiteSpace).reverse)

/-- The `user:secret` line of a cookie file, from the result of its read. -/
def parseCookie (path : String) (contents : Except String String) : Except RpcError String := do
  let contents ← okMapError contents fun error =>
    .config s!"cannot read cookie file {path}: {error}"
  let line := trimText contents
  ensure (line ≠ "" ∧ ':' ∈ line.toList)
    (.config s!"cookie file {path} does not hold a user:secret line")
  pure line

/-- The header value of credentials. -/
def basicHeader (credentials : String) : String := "Basic " ++ RpcFormats.encodeBase64 credentials

namespace Auth

def isCookie : Auth → Bool
  | cookie _ => true
  | _ => false

def userPasswordHeader (user password : String) : Except RpcError String := do
  ensure (':' ∉ user.toList) (.config "basic auth user must not contain ':'")
  pure (basicHeader s!"{user}:{password}")

/-- The value of the authorization header, with the result of a read of the cookie file. -/
def header (auth : Auth) (file : Except String String) : Except RpcError (Option String) :=
  match auth with
  | none => .ok Option.none
  | cookie path => (fun line => some (basicHeader line)) <$> parseCookie path file
  | basic user password => some <$> userPasswordHeader user password

end Auth

/-! ## One attempt -/

/-- An error of the HTTP client. `incompleteMessage`: the connection was closed before
    the answer was complete. -/
structure ClientError where
  isConnect : Bool
  incompleteMessage : Bool
  text : String
  deriving DecidableEq

/-- How an exchange ends. -/
inductive Exchange where
  | unbuilt (text : String)
  | failed (error : ClientError)
  | bodyLost (text : String)
  | timedOut
  | answered (status : HttpStatus) (body : Bytes)
  deriving DecidableEq

namespace Exchange

/-- The connection to the node failed. -/
def isUnsent : Exchange → Bool
  | failed error => !error.incompleteMessage && error.isConnect
  | _ => false

/-- The node closed the connection without an answer. -/
def isClosed : Exchange → Bool
  | failed error => error.incompleteMessage
  | _ => false

/-- The node refused the credentials. -/
def isRefused : Exchange → Bool
  | answered status _ => status.val = 401 ∨ status.val = 403
  | _ => false

omit [RpcFormats] in
theorem not_closed_of_unsent {exchange : Exchange} (h : exchange.isUnsent) :
    exchange.isClosed = false ∧ exchange.isRefused = false := by
  cases exchange with
  | failed e =>
    simp only [isUnsent, Bool.and_eq_true, Bool.not_eq_true'] at h
    exact ⟨h.1, rfl⟩
  | _ => simp [isUnsent] at h

omit [RpcFormats] in
theorem not_refused_of_closed {exchange : Exchange} (h : exchange.isClosed) :
    exchange.isUnsent = false ∧ exchange.isRefused = false := by
  cases exchange with
  | failed e =>
    have hincomplete : e.incompleteMessage = true := h
    exact ⟨by simp [isUnsent, hincomplete], rfl⟩
  | _ => simp [isClosed] at h

end Exchange

def closedHint : String :=
  "zakura drops the connection when cookie auth is on and the credentials are wrong; " ++
    "check the cookie file or password"

def classifyClientError (method : String) (error : ClientError) : RpcError :=
  if error.incompleteMessage then .connectionClosed method closedHint
  else .transport method (.client error.isConnect error.text)

/-- The longest beginning of a text in at most `limit` bytes. -/
def cutText : Nat → List Char → List Char
  | _, [] => []
  | limit, c :: rest => if c.utf8Size ≤ limit then c :: cutText (limit - c.utf8Size) rest else []

def errorBodyPreview : Nat := 512

def preview (body : Bytes) : String :=
  .ofList (cutText errorBodyPreview (RpcFormats.fromUtf8Lossy body).toList)

/-- The result in the body of the answer to the request `expectedId`. -/
def parseResult (method : String) (expectedId : U64) (body : Bytes) : Except RpcError Value := do
  let response ← okMapError (RpcFormats.fromSlice body) fun error =>
    .protocol method s!"not a JSON-RPC response: {error}"
  match response.error with
  | some object => .error (.rpc method object)
  | none =>
    ensure (response.id.bind RpcFormats.asU64 = some expectedId.val) (.protocol method
      s!"response id {RpcFormats.debug response.id} does not match request id {expectedId.val}")
    pure (response.result.getD RpcFormats.null)

/-- Limits of the retries. Times are in nanoseconds. -/
structure RetryPolicy where
  maxRetries : U32
  initialBackoff : Nat
  maxBackoff : Nat

/-- The largest duration. -/
def maxDuration : Nat := (2 ^ 64 - 1) * 1000000000 + 999999999

def RetryPolicy.backoff (policy : RetryPolicy) (retry : Nat) : Nat :=
  min (min (policy.initialBackoff * min (2 ^ retry) (2 ^ 32 - 1)) maxDuration) policy.maxBackoff

/-- What is fixed in a client. -/
structure RpcClient where
  auth : Auth
  defaultTimeout : Nat
  methodTimeouts : String → Option Nat
  retry : RetryPolicy

/-- What the calls of a client share. -/
structure Shared where
  authHeader : Option String
  nextId : U64
  deriving DecidableEq

/-- The next request has another id. -/
def Shared.fetchId (shared : Shared) : Shared := { shared with nextId := shared.nextId + 1 }

/-- One request that was sent, and its outcome. -/
structure Attempt where
  id : U64
  authorization : Option String
  body : Bytes
  outcome : Except RpcError Value

namespace RpcClient

def timeoutFor (c : RpcClient) (method : String) : Nat :=
  (c.methodTimeouts method).getD c.defaultTimeout

def once (c : RpcClient) (exchange : Exchange) (method : String) (id : U64) :
    Except RpcError Value :=
  match exchange with
  | .unbuilt text => .error (.protocol method s!"cannot build request: {text}")
  | .failed error => .error (classifyClientError method error)
  | .bodyLost text => .error (.transport method (.body text))
  | .timedOut => .error (.timeout method (c.timeoutFor method))
  | .answered status body =>
    if status.val = 401 ∨ status.val = 403 then .error (.unauthorized method status)
    else if 200 ≤ status.val ∧ status.val < 300 then parseResult method id body
    else .error (.http method status (preview body))

/-- Reads the cookie file again. True when the header changed. -/
def reloadCookie (c : RpcClient) (file : Except String String) (shared : Shared) : Bool × Shared :=
  match c.auth.header file with
  | .error _ => (false, shared)
  | .ok fresh =>
    if shared.authHeader = fresh then (false, shared)
    else (true, { shared with authHeader := fresh })

end RpcClient

/-! ## The loop -/

/-- The failures that a call retries. -/
inductive Retries where
  | retryable
  | unsent
  deriving DecidableEq

def Retries.retries : Retries → RpcError → Bool
  | retryable, error => error.isRetryable
  | unsent, error => error.isUnsent

/-- What happens during one attempt. Other calls change the shared state before the
    attempt, and before the header is replaced. -/
structure RpcTurn where
  before : Shared → Shared
  exchange : Exchange
  during : Shared → Shared
  cookie : Except String String

structure LoopState where
  shared : Shared
  retryCount : Nat
  reloadedCookie : Bool

/-- How an iteration goes on: the call returns, or the loop continues after a wait. -/
inductive Next where
  | done (shared : Shared) (result : Except RpcError Value)
  | again (wait : Option Nat) (state : LoopState)

namespace RpcClient

variable (c : RpcClient)

/-- What follows a failed attempt. -/
def afterError (turn : RpcTurn) (retries : Retries) (st : LoopState) (error : RpcError) : Next :=
  let reloads := !st.reloadedCookie && c.auth.isCookie && error.mayBeCredentials
  let (changed, shared) :=
    if reloads then c.reloadCookie turn.cookie (turn.during st.shared) else (false, st.shared)
  let st := { st with shared, reloadedCookie := st.reloadedCookie || reloads }
  if changed then .again none st
  else if retries.retries error && st.retryCount < c.retry.maxRetries.val then
    .again (some (c.retry.backoff st.retryCount)) { st with retryCount := st.retryCount + 1 }
  else .done shared (.error error)

/-- One iteration: the request that was sent, and what follows. -/
def iteration (turn : RpcTurn) (method : String) (params : Value) (retries : Retries)
    (st : LoopState) : Option Attempt × Next :=
  let shared := turn.before st.shared
  let id := shared.nextId
  let st := { st with shared := shared.fetchId }
  match RpcFormats.toVec id method params with
  | .error error =>
    (none, .done st.shared (.error (.protocol method s!"cannot serialize request: {error}")))
  | .ok body =>
    let outcome := c.once turn.exchange method id
    (some ⟨id, shared.authHeader, body, outcome⟩, match outcome with
      | .ok value => .done st.shared (.ok value)
      | .error error => c.afterError turn retries st error)

/-- The iterations that are still possible. -/
def remaining (st : LoopState) : Nat :=
  (c.retry.maxRetries.val - st.retryCount) + (if st.reloadedCookie then 0 else 1)

variable {c}

variable {turn : RpcTurn} {retries : Retries} {st st' : LoopState} {error : RpcError}
  {wait : Option Nat}

/-- The loop continues after a reload that changed the header, which it makes once, or
    after a failure that it retries. -/
theorem afterError_eq_again (h : c.afterError turn retries st error = .again wait st') :
    (st.reloadedCookie = false ∧ st'.reloadedCookie = true ∧ st'.retryCount = st.retryCount ∧
      wait = none ∧ c.auth.isCookie ∧ error.mayBeCredentials ∧
      c.reloadCookie turn.cookie (turn.during st.shared) = (true, st'.shared)) ∨
    (retries.retries error ∧ st.retryCount < c.retry.maxRetries.val ∧
      st'.retryCount = st.retryCount + 1 ∧ wait = some (c.retry.backoff st.retryCount) ∧
      (st.reloadedCookie = true → st'.reloadedCookie = true) ∧
      (error.mayBeCredentials = false →
        st'.reloadedCookie = st.reloadedCookie ∧ st'.shared = st.shared)) := by
  unfold afterError at h
  by_cases hreloads : (!st.reloadedCookie && c.auth.isCookie && error.mayBeCredentials) = true
  · simp only [hreloads, if_true, Bool.or_true] at h
    simp only [Bool.and_eq_true, Bool.not_eq_true'] at hreloads
    obtain ⟨⟨hfirst, hcookie⟩, hmay⟩ := hreloads
    split at h
    case isTrue hchanged =>
      cases h
      exact .inl ⟨hfirst, rfl, rfl, rfl, hcookie, hmay, Prod.ext hchanged rfl⟩
    case isFalse =>
      split at h
      · rename_i hretry
        simp only [Bool.and_eq_true, decide_eq_true_eq] at hretry
        cases h
        exact .inr ⟨hretry.1, hretry.2, rfl, rfl, fun _ => rfl, by simp [hmay]⟩
      · cases h
  · simp only [hreloads, Bool.or_false, if_false, Bool.false_eq_true] at h
    split at h
    · rename_i hretry
      simp only [Bool.and_eq_true, decide_eq_true_eq] at hretry
      cases h
      exact .inr ⟨hretry.1, hretry.2, rfl, rfl, id, fun _ => ⟨rfl, rfl⟩⟩
    · cases h

theorem afterError_of_reload (st : LoopState) {shared : Shared} (hfirst : st.reloadedCookie = false)
    (hcookie : c.auth.isCookie) (hmay : error.mayBeCredentials)
    (hreload : c.reloadCookie turn.cookie (turn.during st.shared) = (true, shared)) :
    c.afterError turn retries st error =
      .again none { st with shared, reloadedCookie := true } := by
  simp [afterError, hfirst, hcookie, hmay, hreload]

theorem afterError_of_retry (st : LoopState) (hmay : error.mayBeCredentials = false)
    (hretry : retries.retries error) (hlt : st.retryCount < c.retry.maxRetries.val) :
    c.afterError turn retries st error = .again (some (c.retry.backoff st.retryCount))
      { st with retryCount := st.retryCount + 1 } := by
  simp [afterError, hmay, hretry, hlt]

/-- An iteration that continues has sent a request, which failed. -/
theorem iteration_eq_again {method : String} {params : Value} {sent : Option Attempt}
    (h : c.iteration turn method params retries st = (sent, .again wait st')) :
    ∃ body error, RpcFormats.toVec (turn.before st.shared).nextId method params = .ok body ∧
      c.once turn.exchange method (turn.before st.shared).nextId = .error error ∧
      sent = some ⟨(turn.before st.shared).nextId, (turn.before st.shared).authHeader, body,
        .error error⟩ ∧
      c.afterError turn retries { st with shared := (turn.before st.shared).fetchId } error =
        .again wait st' := by
  simp only [iteration] at h
  split at h
  case h_1 => cases h
  case h_2 body hbody =>
    split at h
    case h_1 => cases h
    case h_2 error herror =>
      obtain ⟨rfl, hnext⟩ := Prod.mk.inj h
      exact ⟨body, error, hbody, herror, by rw [herror], hnext⟩

theorem remaining_lt {method : String} {params : Value} {sent : Option Attempt}
    (h : c.iteration turn method params retries st = (sent, .again wait st')) :
    c.remaining st' < c.remaining st := by
  obtain ⟨body, error, -, -, -, hagain⟩ := iteration_eq_again h
  unfold remaining
  rcases afterError_eq_again hagain with
    ⟨hfirst, hreloaded, hcount, -⟩ | ⟨-, hlt, hcount, -, hkeeps, -⟩
  · have hfirst : st.reloadedCookie = false := hfirst
    have hcount : st'.retryCount = st.retryCount := hcount
    rw [hfirst, hreloaded, hcount]
    simp
  · have hlt : st.retryCount < c.retry.maxRetries.val := hlt
    have hcount : st'.retryCount = st.retryCount + 1 := hcount
    have hkeeps : st.reloadedCookie = true → st'.reloadedCookie = true := hkeeps
    rw [hcount]
    cases hreloaded : st.reloadedCookie with
    | true =>
      rw [hkeeps hreloaded]
      simp only [if_true]
      omega
    | false =>
      split <;> simp <;> omega

end RpcClient

/-- What a call did: the requests it sent, its waits, and its result. -/
structure CallRun (ρ : Type) where
  sent : List Attempt
  waits : List Nat
  shared : Shared
  result : Except RpcError ρ

namespace RpcClient

variable (c : RpcClient)

/-- The iterations from a state of the loop on. -/
def attemptsFrom (turns : Stream' RpcTurn) (method : String) (params : Value) (retries : Retries)
    (st : LoopState) : CallRun Value :=
  match _h : c.iteration turns.head method params retries st with
  | (sent, .done shared result) => ⟨sent.toList, [], shared, result⟩
  | (sent, .again wait st') =>
    let run := attemptsFrom turns.tail method params retries st'
    { run with sent := sent.toList ++ run.sent, waits := wait.toList ++ run.waits }
termination_by c.remaining st
decreasing_by exact remaining_lt _h

def attempts (turns : Stream' RpcTurn) (method : String) (params : Value) (retries : Retries)
    (shared : Shared) : CallRun Value :=
  c.attemptsFrom turns method params retries ⟨shared, 0, false⟩

/-- A call with the parameters that were serialized, and the reader of its result. -/
def callWith {ρ : Type} (turns : Stream' RpcTurn) (method : String) (params : Except String Value)
    (retries : Retries) (decode : Value → Except String ρ) (shared : Shared) : CallRun ρ :=
  match params with
  | .error error =>
    ⟨[], [], shared, .error (.protocol method s!"cannot serialize params: {error}")⟩
  | .ok params =>
    -- no parameters are an empty list
    let params := if RpcFormats.isNull params then RpcFormats.array [] else params
    let run := c.attempts turns method params retries shared
    { run with result := do
        let value ← run.result
        okMapError (decode value) fun error => .decode method error }

/-- The submission of a transaction. -/
def sendRawTransaction {ρ : Type} (turns : Stream' RpcTurn) (transaction : Bytes)
    (decode : Value → Except String ρ) (shared : Shared) : CallRun ρ :=
  c.callWith turns "sendrawtransaction" (.ok (RpcFormats.array [RpcFormats.hexData transaction]))
    .unsent decode shared

end RpcClient

/-! ## At most one run on the node -/

/-- The node may have run the request: it was sent, and the node did not refuse its
    credentials. -/
def Attempt.MayHaveRun (a : Attempt) : Prop :=
  ∀ error, a.outcome = .error error → error.isUnsent = false ∧ error.isUnauthorized = false

/-- After a request that the node may have run, nothing is sent. -/
def RunsAtMostOnce (sent : List Attempt) : Prop :=
  ∀ (before after : List Attempt) (a : Attempt), sent = before ++ a :: after → a.MayHaveRun →
    after = []

theorem runsAtMostOnce_nil : RunsAtMostOnce [] := by
  intro before after a h
  simp at h

theorem runsAtMostOnce_cons {a : Attempt} {rest : List Attempt} :
    RunsAtMostOnce (a :: rest) ↔ (a.MayHaveRun → rest = []) ∧ RunsAtMostOnce rest := by
  constructor
  · intro h
    refine ⟨fun ha => h [] rest a rfl ha, ?_⟩
    intro before after b hrest hb
    exact h (a :: before) after b (by rw [hrest]; rfl) hb
  · rintro ⟨hfirst, hrest⟩ before after b hsent hb
    cases before with
    | nil =>
      obtain ⟨rfl, rfl⟩ := List.cons.inj hsent
      exact hfirst hb
    | cons c before => exact hrest before after b (List.cons.inj hsent).2 hb

theorem runsAtMostOnce_toList (sent : Option Attempt) : RunsAtMostOnce sent.toList := by
  cases sent with
  | none => exact runsAtMostOnce_nil
  | some a => exact runsAtMostOnce_cons.mpr ⟨fun _ => rfl, runsAtMostOnce_nil⟩

namespace RpcClient

variable (c : RpcClient) (method : String) (params : Value)

/-- The next request can be serialized. -/
def Sends (turn : RpcTurn) (shared : Shared) : Prop :=
  ∃ body, RpcFormats.toVec (turn.before shared).nextId method params = .ok body

/-- With cookie credentials, the first exchange that is not unsent ends with a closed
    connection, and the cookie file then holds another cookie. At most `left` exchanges
    before it were unsent. -/
inductive ReloadsAfterClose : Stream' RpcTurn → Shared → Nat → Prop where
  | closed {turns : Stream' RpcTurn} {shared shared' : Shared} {left : Nat} :
      Sends method params turns.head shared → turns.head.exchange.isClosed → c.auth.isCookie →
      c.reloadCookie turns.head.cookie (turns.head.during (turns.head.before shared).fetchId) =
        (true, shared') →
      Sends method params turns.tail.head shared' → ReloadsAfterClose turns shared left
  | unsent {turns : Stream' RpcTurn} {shared : Shared} {left : Nat} :
      Sends method params turns.head shared → turns.head.exchange.isUnsent →
      ReloadsAfterClose turns.tail (turns.head.before shared).fetchId left →
      ReloadsAfterClose turns shared (left + 1)

variable {c method params} {turns : Stream' RpcTurn} {st : LoopState}

theorem parseResult_eq_error {id : U64} {body : Bytes} {error : RpcError}
    (h : parseResult method id body = .error error) :
    error.isUnsent = false ∧ error.mayBeCredentials = false ∧ error.isUnauthorized = false := by
  unfold parseResult at h
  cases hbody : RpcFormats.fromSlice body with
  | error text =>
    rw [hbody] at h
    cases h
    exact ⟨rfl, rfl, rfl⟩
  | ok response =>
    rw [hbody, okMapError_ok, ok_bind] at h
    split at h
    · cases h
      exact ⟨rfl, rfl, rfl⟩
    · unfold ensure at h
      split at h
      · cases h
      · cases h
        exact ⟨rfl, rfl, rfl⟩

/-- The error of an attempt says how its exchange ended. -/
theorem once_eq_error {exchange : Exchange} {id : U64} {error : RpcError}
    (h : c.once exchange method id = .error error) :
    error.isUnsent = exchange.isUnsent ∧
      error.mayBeCredentials = (exchange.isClosed || exchange.isRefused) ∧
      error.isUnauthorized = exchange.isRefused := by
  cases exchange with
  | failed e =>
    cases h
    obtain ⟨isConnect, incomplete, text⟩ := e
    cases incomplete with
    | true => exact ⟨rfl, rfl, rfl⟩
    | false => exact ⟨rfl, rfl, rfl⟩
  | answered status body =>
    simp only [once] at h
    simp only [Exchange.isUnsent, Exchange.isClosed, Exchange.isRefused]
    split at h
    case isTrue hrefused =>
      cases h
      simp [hrefused, RpcError.isUnsent, RpcError.mayBeCredentials, RpcError.isUnauthorized]
    case isFalse hrefused =>
      simp only [hrefused, decide_false, Bool.false_or]
      split at h
      · exact parseResult_eq_error h
      · cases h
        exact ⟨rfl, rfl, rfl⟩
  | _ =>
    cases h
    exact ⟨rfl, rfl, rfl⟩

/-- A closed connection and an unsent request are errors of the attempt. -/
theorem exists_once_error {exchange : Exchange} (id : U64)
    (h : exchange.isClosed ∨ exchange.isUnsent) :
    ∃ error, c.once exchange method id = .error error := by
  cases exchange with
  | failed e => exact ⟨_, rfl⟩
  | _ => simp [Exchange.isClosed, Exchange.isUnsent] at h

theorem iteration_of_error {turn : RpcTurn} {retries : Retries} {error : RpcError}
    (hsends : Sends method params turn st.shared)
    (herror : c.once turn.exchange method (turn.before st.shared).nextId = .error error) :
    ∃ a : Attempt, a.outcome = .error error ∧ c.iteration turn method params retries st =
      (some a, c.afterError turn retries { st with shared := (turn.before st.shared).fetchId }
        error) := by
  obtain ⟨body, hbody⟩ := hsends
  refine ⟨⟨(turn.before st.shared).nextId, (turn.before st.shared).authHeader, body,
    .error error⟩, rfl, ?_⟩
  simp only [iteration, hbody, herror]

variable {retries : Retries} {sent : Option Attempt}

/-- An iteration that returns sent the only request. -/
theorem attemptsFrom_sent_of_done {shared : Shared} {result : Except RpcError Value}
    (h : c.iteration turns.head method params retries st = (sent, .done shared result)) :
    (c.attemptsFrom turns method params retries st).sent = sent.toList := by
  rw [attemptsFrom]
  split
  case h_1 hdone =>
    rw [h] at hdone
    cases hdone
    rfl
  case h_2 hagain =>
    rw [h] at hagain
    cases hagain

/-- An iteration that continues sent the first request. -/
theorem attemptsFrom_sent_of_again {wait : Option Nat} {st' : LoopState}
    (h : c.iteration turns.head method params retries st = (sent, .again wait st')) :
    (c.attemptsFrom turns method params retries st).sent =
      sent.toList ++ (c.attemptsFrom turns.tail method params retries st').sent := by
  rw [attemptsFrom]
  split
  case h_1 hdone =>
    rw [h] at hdone
    cases hdone
  case h_2 hagain =>
    rw [h] at hagain
    cases hagain
    rfl

/-- A call sends at most one request for each retry of the policy, one after a reload of
    the cookie, and the first one. -/
theorem attempts_length_le (retries : Retries) (shared : Shared) :
    (c.attempts turns method params retries shared).sent.length ≤
      c.retry.maxRetries.val + 2 := by
  have hfrom : ∀ (n : Nat) (turns : Stream' RpcTurn) (st : LoopState), c.remaining st = n →
      (c.attemptsFrom turns method params retries st).sent.length ≤ n + 1 := by
    intro n
    induction n using Nat.strong_induction_on with
    | _ n ih =>
      intro turns st hn
      rcases h : c.iteration turns.head method params retries st with ⟨sent, next⟩
      have hsent : sent.toList.length ≤ 1 := by cases sent <;> simp
      cases next with
      | done shared result =>
        rw [attemptsFrom_sent_of_done h]
        omega
      | again wait st' =>
        have hlt := remaining_lt h
        have hrest := ih _ (hn ▸ hlt) turns.tail st' rfl
        rw [attemptsFrom_sent_of_again h, List.length_append]
        omega
  exact hfrom (c.retry.maxRetries.val + 1) turns ⟨shared, 0, false⟩ rfl

/-- An iteration sends a request when it can be serialized. -/
theorem iteration_sent {turn : RpcTurn} {next : Next}
    (h : c.iteration turn method params retries st = (sent, next)) :
    sent.isSome ↔ Sends method params turn st.shared := by
  unfold Sends
  simp only [iteration] at h
  cases hbody : RpcFormats.toVec (turn.before st.shared).nextId method params with
  | error error =>
    rw [hbody] at h
    cases h
    simp
  | ok body =>
    rw [hbody] at h
    cases h
    simp

/-- A first request is sent when it can be serialized. -/
theorem attemptsFrom_sent_eq_nil :
    (c.attemptsFrom turns method params retries st).sent = [] ↔
      ¬ Sends method params turns.head st.shared := by
  rcases h : c.iteration turns.head method params retries st with ⟨sent, next⟩
  rw [← iteration_sent h]
  cases next with
  | done shared result =>
    rw [attemptsFrom_sent_of_done h]
    cases sent <;> simp
  | again wait st' =>
    obtain ⟨_, _, -, -, rfl, -⟩ := iteration_eq_again h
    rw [attemptsFrom_sent_of_again h]
    simp

/-- After a reload the call retries unsent requests only. -/
theorem runsAtMostOnce_of_reloaded (hst : st.reloadedCookie = true) :
    RunsAtMostOnce (c.attemptsFrom turns method params .unsent st).sent := by
  induction hn : c.remaining st using Nat.strong_induction_on generalizing turns st with
  | _ n ih =>
    rcases h : c.iteration turns.head method params .unsent st with ⟨sent, next⟩
    cases next with
    | done shared result =>
      rw [attemptsFrom_sent_of_done h]
      exact runsAtMostOnce_toList sent
    | again wait st' =>
      rw [attemptsFrom_sent_of_again h]
      obtain ⟨body, error, -, -, rfl, hagain⟩ := iteration_eq_again h
      rcases afterError_eq_again hagain with ⟨hfirst, -⟩ | ⟨hunsent, -, -, -, hkeeps, -⟩
      · have hfirst : st.reloadedCookie = false := hfirst
        rw [hst] at hfirst
        cases hfirst
      · refine runsAtMostOnce_cons.mpr ⟨?_, ih _ (hn ▸ remaining_lt h) (hkeeps hst) rfl⟩
        intro hran
        have hnot := (hran error rfl).1
        have hunsent : error.isUnsent = true := hunsent
        rw [hunsent] at hnot
        cases hnot

/-- A closed connection and another cookie: the request is sent again. -/
theorem ReloadsAfterClose.not_runsAtMostOnce {shared : Shared} {left : Nat}
    (h : c.ReloadsAfterClose method params turns shared left) (hshared : st.shared = shared)
    (hst : st.reloadedCookie = false) (hleft : left ≤ c.retry.maxRetries.val - st.retryCount) :
    ¬ RunsAtMostOnce (c.attemptsFrom turns method params .unsent st).sent := by
  induction h generalizing st with
  | @closed turns shared shared' left hsends hclosed hcookie hreload hnext =>
    subst hshared
    obtain ⟨error, honce⟩ := @exists_once_error _ c method _
      (turns.head.before st.shared).nextId (.inl hclosed)
    obtain ⟨hunsentEq, hmayEq, hrefusedEq⟩ := once_eq_error honce
    obtain ⟨hunsent, hrefused⟩ := Exchange.not_refused_of_closed hclosed
    obtain ⟨a, ha, hiter⟩ := @iteration_of_error _ c _ _ _ _ .unsent _ hsends honce
    rw [afterError_of_reload { st with shared := (turns.head.before st.shared).fetchId } hst hcookie
      (by rw [hmayEq, hclosed]; rfl) hreload] at hiter
    intro hruns
    rw [attemptsFrom_sent_of_again hiter] at hruns
    -- the server may have run the first attempt, and the second one is sent anyway
    have hrest := (runsAtMostOnce_cons.mp hruns).1 ?_
    · exact attemptsFrom_sent_eq_nil.mp hrest hnext
    · intro e he
      obtain rfl : error = e := Except.error.inj (ha.symm.trans he)
      exact ⟨hunsentEq.trans hunsent, hrefusedEq.trans hrefused⟩
  | @unsent turns shared left hsends hunsent _ ih =>
    subst hshared
    obtain ⟨error, honce⟩ := @exists_once_error _ c method _
      (turns.head.before st.shared).nextId (.inr hunsent)
    obtain ⟨hunsentEq, hmayEq, -⟩ := once_eq_error honce
    obtain ⟨hclosed, hrefused⟩ := Exchange.not_closed_of_unsent hunsent
    obtain ⟨a, -, hiter⟩ := @iteration_of_error _ c _ _ _ _ .unsent _ hsends honce
    have hlt : st.retryCount < c.retry.maxRetries.val := by omega
    have hretry : Retries.unsent.retries error := hunsentEq.trans hunsent
    rw [afterError_of_retry { st with shared := (turns.head.before st.shared).fetchId }
      (by rw [hmayEq, hclosed, hrefused]; rfl) hretry hlt] at hiter
    intro hruns
    rw [attemptsFrom_sent_of_again hiter] at hruns
    refine ih ?_ ?_ ?_ (runsAtMostOnce_cons.mp hruns).2
    · rfl
    · exact hst
    · show left ≤ c.retry.maxRetries.val - (st.retryCount + 1)
      omega

/-- Otherwise each request that is followed by another was unsent or refused. -/
theorem runsAtMostOnce_of_not_reloadsAfterClose (hst : st.reloadedCookie = false)
    (h : ¬ c.ReloadsAfterClose method params turns st.shared
      (c.retry.maxRetries.val - st.retryCount)) :
    RunsAtMostOnce (c.attemptsFrom turns method params .unsent st).sent := by
  induction hn : c.remaining st using Nat.strong_induction_on generalizing turns st with
  | _ n ih =>
    rcases hiter : c.iteration turns.head method params .unsent st with ⟨sent, next⟩
    cases next with
    | done shared result =>
      rw [attemptsFrom_sent_of_done hiter]
      exact runsAtMostOnce_toList sent
    | again wait st' =>
      rw [attemptsFrom_sent_of_again hiter]
      obtain ⟨body, error, hbody, honce, rfl, hagain⟩ := iteration_eq_again hiter
      obtain ⟨hunsentEq, hmayEq, hrefusedEq⟩ := once_eq_error honce
      have hsends : Sends method params turns.head st.shared := ⟨body, hbody⟩
      refine runsAtMostOnce_cons.mpr ?_
      rcases afterError_eq_again hagain with
        ⟨-, hreloaded, -, -, hcookie, hmay, hreload⟩ | ⟨hunsent, hlt, hcount, -, -, hsame⟩
      · refine ⟨?_, runsAtMostOnce_of_reloaded hreloaded⟩
        intro hran
        have hrefused := (hran error rfl).2
        rw [hrefusedEq] at hrefused
        rw [hmayEq, hrefused, Bool.or_false] at hmay
        -- the request after a closed connection could not be serialized
        refine attemptsFrom_sent_eq_nil.mpr fun hnext => ?_
        exact h (.closed hsends hmay hcookie hreload hnext)
      · have hunsent : error.isUnsent = true := hunsent
        have hlt : st.retryCount < c.retry.maxRetries.val := hlt
        have hcount : st'.retryCount = st.retryCount + 1 := hcount
        have hexchange := hunsentEq ▸ hunsent
        obtain ⟨hclosed, hrefused⟩ := Exchange.not_closed_of_unsent hexchange
        obtain ⟨hreloaded, hshared⟩ := hsame (by rw [hmayEq, hclosed, hrefused]; rfl)
        constructor
        · intro hran
          have hnot := (hran error rfl).1
          rw [hunsent] at hnot
          cases hnot
        · refine ih _ (hn ▸ remaining_lt hiter) (hreloaded.trans hst) ?_ rfl
          intro hrest
          refine h ?_
          rw [show c.retry.maxRetries.val - st.retryCount =
            c.retry.maxRetries.val - st'.retryCount + 1 by omega]
          rw [hshared] at hrest
          exact .unsent hsends hexchange hrest

/-- A call that retries only unsent requests runs at most once on the node, unless the
    node closes a connection without an answer and the cookie file holds another cookie
    after that. -/
theorem submits_once_iff {ρ : Type} (c : RpcClient) (turns : Stream' RpcTurn) (method : String)
    (params : Except String Value) (decode : Value → Except String ρ) (shared : Shared) :
    RunsAtMostOnce (c.callWith turns method params .unsent decode shared).sent ↔
      ∀ value, params = .ok value → ¬ c.ReloadsAfterClose method
        (if RpcFormats.isNull value then RpcFormats.array [] else value) turns shared
        c.retry.maxRetries.val := by
  cases params with
  | error error =>
    constructor
    · intro _ value hvalue
      cases hvalue
    · intro _
      exact runsAtMostOnce_nil
  | ok params =>
    constructor
    · intro hruns value hvalue hreloads
      cases hvalue
      exact hreloads.not_runsAtMostOnce rfl rfl (Nat.le_refl _) hruns
    · intro h
      exact runsAtMostOnce_of_not_reloadsAfterClose rfl (h params rfl)

end RpcClient

end

/-! ## A connection that is closed after the node ran the request -/

/-- Formats in which every request is the empty string and credentials are not encoded. -/
@[reducible] def plainFormats : RpcFormats where
  Value := Unit
  null := ()
  isNull _ := false
  array _ := ()
  hexData _ := ()
  asU64 _ := none
  debug _ := ""
  toVec _ _ _ := .ok []
  fromSlice _ := .error "no JSON"
  encodeBase64 := id
  fromUtf8Lossy _ := ""

section

attribute [local instance] plainFormats

/-- The node takes the transaction, restarts with a new cookie, and its old connection is
    closed: without any retry in the policy, the transaction is sent again. -/
theorem submits_twice_after_restart : ∃ (c : RpcClient) (turns : Stream' RpcTurn) (shared : Shared),
    c.retry.maxRetries = 0 ∧
    ¬ RunsAtMostOnce (c.sendRawTransaction turns [1] (fun _ => .ok ()) shared).sent := by
  let c : RpcClient := ⟨.cookie ".cookie", 15000000000, fun _ => none, ⟨0, 200000000, 2000000000⟩⟩
  let turn : RpcTurn := ⟨id, .failed ⟨false, true, "connection closed"⟩, id, .ok "__cookie__:new"⟩
  let shared : Shared := ⟨some "Basic __cookie__:old", 1⟩
  refine ⟨c, .const turn, shared, rfl, ?_⟩
  have hsends : ∀ shared, RpcClient.Sends "sendrawtransaction" () turn shared :=
    fun _ => ⟨[], rfl⟩
  have hheader : c.auth.header turn.cookie = .ok (some "Basic __cookie__:new") := by decide
  have hreload : c.reloadCookie turn.cookie (turn.during (turn.before shared).fetchId) =
      (true, ⟨some "Basic __cookie__:new", 2⟩) := by
    rw [RpcClient.reloadCookie, hheader]
    decide
  have hreloads : c.ReloadsAfterClose "sendrawtransaction" () (.const turn) shared 0 :=
    .closed (hsends _) rfl rfl hreload (hsends _)
  exact hreloads.not_runsAtMostOnce rfl rfl (Nat.zero_le _)

end

end Ztreamer

import AsrServiceProxy.Utils.StringUtil

namespace AsrServiceProxy.Http

open CMemory

inductive HttpMethod where
  | METHOD_GET
  | METHOD_POST
  | METHOD_PUT
  | METHOD_DELETE
  | METHOD_PATCH
  | METHOD_HEAD
  | UNKNOWN
deriving DecidableEq, Repr

structure HttpRequest where
  method : HttpMethod
  headers : StringUtil.Map
  body : Bytes
deriving DecidableEq, Repr

structure HttpResponse where
  headers : StringUtil.Map
  body : Bytes
  status : Bytes
  strHeaders : Bytes
deriving DecidableEq, Repr

def HttpResponse.empty : HttpResponse :=
  { headers := [], body := [], status := [], strHeaders := [] }

def GENERAL_ERROR : ℤ := -1
def COULDNT_RESOLVE_HOST : ℤ := -2
def COULDNT_CONNECT : ℤ := -3
def SEND_ERROR : ℤ := -4
def RECV_ERROR : ℤ := -5

def buildHeadersFromStr (str : Bytes) : Except StringUtil.Fault StringUtil.Map := do
  match ← StringUtil.splitMap (← StringUtil.spaceTrimAt str) 10 58 true with
  | none => return []
  | some headers =>
      return headers.filter fun entry => (StringUtil.find (ascii "HTTP/1.1") entry.1).isNone

def getStatuslineFromStr (str : Bytes) : Except StringUtil.Fault Bytes := do
  let line ← (StringUtil.substr str (StringUtil.find (ascii "HTTP") str)
    (StringUtil.find [13, 10] str)).mapError .thrown
  StringUtil.spaceTrimAt line

-- The `istringstream` over the request body: what is left of it, and whether
-- a read has not yet failed.
structure BodyStream where
  rest : Bytes
  good : Bool
deriving DecidableEq, Repr

-- A read that gets fewer bytes than asked for sets the fail bit, after which
-- every read returns nothing.
def BodyStream.writeBody (stream : BodyStream) (count : ℕ) : Bytes × BodyStream :=
  if stream.good then
    (stream.rest.take count,
      { rest := stream.rest.drop count, good := decide (count ≤ stream.rest.length) })
  else ([], stream)

-- What the attempts of one `talk` share.
structure Session where
  stream : BodyStream
  response : HttpResponse
deriving DecidableEq, Repr

-- A callback that libcurl makes during a transfer.
inductive Callback where
  | writeBody (count : ℕ)
  | readBody (bytes : Bytes)
  | readHeaders (bytes : Bytes)
deriving DecidableEq, Repr

def Session.callback (s : Session) : Callback → Session
  | .writeBody count => { s with stream := (s.stream.writeBody count).2 }
  | .readBody bytes => { s with response.body := s.response.body ++ bytes }
  | .readHeaders bytes => { s with response.strHeaders := s.response.strHeaders ++ bytes }

-- One `curl_easy_perform`: the callbacks it makes, its result, and the
-- response code that `curl_easy_getinfo` gives after it.
structure Attempt where
  callbacks : List Callback
  code : CURLcode
  httpCode : ℤ
deriving DecidableEq, Repr

def Session.perform (s : Session) (attempt : Attempt) : Session :=
  attempt.callbacks.foldl Session.callback s

-- The loop of `talk` from attempt `i` on with `tries` attempts left: the
-- session it ends with, and the last attempt made.
def talkLoop (attempts : ℕ → Attempt) : (tries i : ℕ) → Session → Session × Attempt
  | 0, i, s => (s, attempts (i - 1))
  | tries + 1, i, s =>
      let s := s.perform (attempts i)
      if (attempts i).code = .CURLE_OK then (s, attempts i)
      else talkLoop attempts tries (i + 1) s

def Supported : HttpMethod → Bool
  | .METHOD_POST | .METHOD_PUT | .METHOD_DELETE | .METHOD_GET => true
  | .METHOD_PATCH | .METHOD_HEAD | .UNKNOWN => false

-- The response object, the libcurl resources touched, and the return value
-- unless an exception or another fault ended the call.
structure Talk where
  response : HttpResponse
  ops : List CurlOp
  outcome : Except StringUtil.Fault ℤ

def errorCode : CURLcode → ℤ
  | .CURLE_COULDNT_RESOLVE_HOST => COULDNT_RESOLVE_HOST
  | .CURLE_COULDNT_CONNECT => COULDNT_CONNECT
  | .CURLE_SEND_ERROR => SEND_ERROR
  | .CURLE_RECV_ERROR => RECV_ERROR
  | _ => GENERAL_ERROR

def start (request : HttpRequest) (response : HttpResponse) : Session :=
  { stream := { rest := request.body, good := true }, response := response }

-- The end of both `talk`s when the transfer succeeded.
def finish (response : HttpResponse) (ops : List CurlOp) (httpCode : ℤ) : Talk :=
  match buildHeadersFromStr response.strHeaders with
  | .error e => { response := response, ops := ops, outcome := .error e }
  | .ok headers =>
      let response := { response with headers := headers }
      match getStatuslineFromStr response.strHeaders with
      | .error e => { response := response, ops := ops, outcome := .error e }
      | .ok status =>
          { response := { response with status := status }
            ops := ops ++ [.slistFreeAll, .easyCleanup]
            outcome := .ok httpCode }

-- `HttpClient::talk`. `curl` says whether `curl_easy_init` returned a handle.
def talk (curl : Bool) (attempts : ℕ → Attempt) (request : HttpRequest)
    (response : HttpResponse) : Talk :=
  if ¬curl then
    { response := response, ops := [], outcome := .ok GENERAL_ERROR }
  else if ¬Supported request.method then
    { response := response, ops := [.easyInit], outcome := .ok GENERAL_ERROR }
  else
    let ops := .easyInit :: request.headers.map fun _ => CurlOp.slistAppend
    let (s, last) := talkLoop attempts 3 0 (start request response)
    if last.code = .CURLE_OK then finish s.response ops last.httpCode
    else
      { response := s.response
        ops := ops ++ [.slistFreeAll, .easyCleanup]
        outcome := .ok (errorCode last.code) }

-- `HttpsClient::talk` makes one attempt.
def httpsTalk (curl : Bool) (attempt : Attempt) (request : HttpRequest)
    (response : HttpResponse) : Talk :=
  if ¬curl then
    { response := response, ops := [], outcome := .ok (-1) }
  else if ¬Supported request.method then
    { response := response, ops := [.easyInit], outcome := .ok (-1) }
  else
    let ops := .easyInit :: request.headers.map fun _ => CurlOp.slistAppend
    let s := (start request response).perform attempt
    if attempt.code = .CURLE_OK then finish s.response ops attempt.httpCode
    else
      { response := s.response
        ops := ops ++ [.slistFreeAll, .easyCleanup]
        outcome := .ok (-1) }

end AsrServiceProxy.Http

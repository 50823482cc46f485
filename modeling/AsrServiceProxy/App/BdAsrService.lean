import AsrServiceProxy.App.Writefunc
import AsrServiceProxy.Utils.Extern

namespace AsrServiceProxy.App

open CMemory

inductive ReturnCode where
  | RETURN_OK
  | RETURN_ERROR
  | ERROR_TOKEN_CURL
  | ERROR_TOKEN_PARSE_ACCESS_TOKEN
  | ERROR_TOKEN_PARSE_SCOPE
  | ERROR_ASR_FILE_NOT_EXIST
  | ERROR_ASR_CURL
deriving DecidableEq, Repr

def ReturnCode.toInt : ReturnCode → ℤ
  | .RETURN_OK => 0
  | .RETURN_ERROR => 1
  | .ERROR_TOKEN_CURL => 13
  | .ERROR_TOKEN_PARSE_ACCESS_TOKEN => 15
  | .ERROR_TOKEN_PARSE_SCOPE => 16
  | .ERROR_ASR_FILE_NOT_EXIST => 101
  | .ERROR_ASR_CURL => 102

structure Config where
  appKey : Bytes
  appSecretKey : Bytes
  asrServer : Bytes
  audioFormat : Bytes
  audioType : ℤ
deriving DecidableEq, Repr

structure BdAsrService where
  conf : Config
  asrToken : Bytes
deriving DecidableEq, Repr

-- What `call` hands to libcurl.
structure Request where
  url : Bytes
  header : Bytes
  audio : Bytes
deriving DecidableEq, Repr

-- `curl_easy_escape` leaves the letters and digits of the fixed cuid alone.
def cuid : Bytes := ascii "1234567C"

-- `char url[300]`
def requestUrl (conf : Config) (token : Bytes) : Bytes :=
  snprintf 300 (cstr conf.asrServer ++ ascii "?cuid=" ++ cuid ++ ascii "&token=" ++ cstr token ++
    ascii "&dev_pid=" ++ ascii (toString conf.audioType))

-- The block of `call` that holds `_token_mutex`.
def buildUrl (conf : Config) (asrToken : Bytes) : Option Bytes :=
  if asrToken.isEmpty then none else some (requestUrl conf asrToken)

-- `char header[50]`
def requestHeader (conf : Config) : Bytes :=
  snprintf 50 (ascii "Content-Type: audio/" ++ cstr conf.audioFormat ++ ascii "; rate=16000")

-- The transfer that libcurl makes of a request: its code, and the chunks
-- passed to `writefunc`.
abbrev Perform := Request → CURLcode × List Chunk

-- Returns the code and the new value of `asr_result`.
def handleAsrResult (reader : Json.Reader) (response : Option Bytes) (asrResult : Bytes) :
    Except Exn (ReturnCode × Bytes) := do
  let raw ← stdString response
  match loadJson reader raw with
  | none => return (.RETURN_ERROR, asrResult)
  | some root =>
      let result ← root.member (ascii "result")
      let first ← result.element 0
      let text ← first.asString
      if text.isEmpty then
        return (.RETURN_ERROR, text)
      return (.RETURN_OK, text)

-- Returns the code and the new values of `token` and `scopes`. An empty scope
-- is reported with the code of an empty token.
def handleResponse (reader : Json.Reader) (response : Option Bytes) (token scopes : Bytes) :
    Except Exn (ReturnCode × Bytes × Bytes) := do
  let raw ← stdString response
  match loadJson reader raw with
  | none => return (.RETURN_ERROR, token, scopes)
  | some root =>
      let access ← root.member (ascii "access_token")
      let token ← access.asString
      if token.isEmpty then
        return (.ERROR_TOKEN_PARSE_ACCESS_TOKEN, token, scopes)
      let scope ← root.member (ascii "scope")
      let scopes ← scope.asString
      if scopes.isEmpty then
        return (.ERROR_TOKEN_PARSE_ACCESS_TOKEN, token, scopes)
      return (.RETURN_OK, token, scopes)

-- What one `call` leaves behind: the request it sent, the libcurl resources
-- it touched, and its return value with `asr_result`, unless an exception
-- left it.
structure Call where
  request : Option Request
  ops : List CurlOp
  outcome : Except Exn (ℤ × Bytes)

def call (reader : Json.Reader) (perform : Perform) (service : BdAsrService)
    (audio asrResult : Bytes) : Call :=
  match buildUrl service.conf service.asrToken with
  | none => { request := none, ops := [.easyInit, .easyEscape], outcome := .ok (-1, asrResult) }
  | some url =>
      let request : Request := { url := url, header := requestHeader service.conf, audio := audio }
      let ops := [CurlOp.easyInit, .easyEscape, .free, .slistAppend]
      let (code, chunks) := perform request
      if code ≠ .CURLE_OK then
        { request := some request
          ops := ops ++ [.slistFreeAll, .easyCleanup]
          outcome := .ok (ReturnCode.ERROR_ASR_CURL.toInt, asrResult) }
      else
        match handleAsrResult reader ((received chunks).map Block.mem) asrResult with
        | .error e => { request := some request, ops := ops, outcome := .error e }
        | .ok (handled, asrResult) =>
            let res := if handled = .RETURN_OK then ReturnCode.RETURN_OK else .RETURN_ERROR
            { request := some request
              ops := ops ++ [.slistFreeAll, .easyCleanup]
              outcome := .ok (res.toInt, asrResult) }

end AsrServiceProxy.App

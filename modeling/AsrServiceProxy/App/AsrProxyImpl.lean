import AsrServiceProxy.App.BdAsrService

namespace AsrServiceProxy.App

open CMemory

structure AsrResponse where
  code : ℤ
  msg : Bytes
deriving DecidableEq, Repr

-- `AsrProxyImpl::asr`; a null `_asr_service` is `none`. An exception of
-- `call` passes through.
def asr (reader : Json.Reader) (perform : Perform) (service : Option BdAsrService)
    (audio : Bytes) : Except Exn AsrResponse :=
  match service with
  | none => .ok { code := -1, msg := ascii "asr service is nullptr!" }
  | some service =>
      match (call reader perform service audio []).outcome with
      | .error e => .error e
      | .ok (ret, asrResult) =>
          if ret ≠ ReturnCode.RETURN_OK.toInt then
            .ok { code := -1, msg := ascii "asr call failed!" }
          else
            -- `set_msg` takes the C string of the result
            .ok { code := 0, msg := cstr asrResult }

-- The text of `result[0]`, when the body is a JSON object that has one.
def resultText (reader : Json.Reader) (body : Bytes) : Option Bytes :=
  match reader body with
  | some (.objectValue members) =>
      match members.lookup (ascii "result") with
      | some (.arrayValue (first :: _)) => first.asString.toOption
      | _ => none
  | _ => none

-- A reply that the caller can use: the text of `result[0]`, or the error code.
def Replies (reader : Json.Reader) (body : Bytes) (out : Except Exn AsrResponse) : Prop :=
  ∃ response, out = .ok response ∧
    (response.code = -1 ∨
      response.code = 0 ∧ response.msg ≠ [] ∧ resultText reader body = some response.msg)

-- The text is empty, or what a C string keeps of it is the text of the body.
def Kept (reader : Json.Reader) (body text : Bytes) : Prop :=
  text = [] ∨ cstr text ≠ [] ∧ resultText reader body = some (cstr text)

-- The JSON documents that `handle_asr_result` can take apart.
def Readable (reader : Json.Reader) (body : Bytes) : Json.Value → Prop
  | .nullValue => True
  | .objectValue members =>
      match members.lookup (ascii "result") with
      | none | some .nullValue | some (.arrayValue []) => True
      | some (.arrayValue (first :: _)) => ∃ text, first.asString = .ok text ∧ Kept reader body text
      | some _ => False
  | _ => False

end AsrServiceProxy.App

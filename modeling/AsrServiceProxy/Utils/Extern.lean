import Mathlib.Data.Int.Notation
import AsrServiceProxy.Lib.CMemory

-- What the code uses of the C++ library, of libcurl and of jsoncpp.
namespace AsrServiceProxy

open CMemory

inductive Exn where
  | stdLogicError (what : String)
  | stdOutOfRange (what : String)
  | jsonLogicError (what : String)
deriving DecidableEq, Repr

-- A computation that returned went through each of its steps.
theorem except_bind_ok {ε α β : Type} {first : Except ε α} {next : α → Except ε β} {b : β}
    (h : (first >>= next) = .ok b) : ∃ a, first = .ok a ∧ next a = .ok b := by
  cases first with
  | error e => cases h
  | ok a => exact ⟨a, rfl, h⟩

-- The conversion of `const char*` to `std::string`; NULL is `none`.
def stdString : Option Bytes → Except Exn Bytes
  | none => .error (.stdLogicError "basic_string::_M_construct null not valid")
  | some mem => .ok (cstr mem)

-- `snprintf(buffer, size, ...)` keeps one byte for the terminator.
def snprintf (size : ℕ) (text : Bytes) : Bytes := text.take (size - 1)

inductive CURLcode where
  | CURLE_OK
  | CURLE_COULDNT_RESOLVE_HOST
  | CURLE_COULDNT_CONNECT
  | CURLE_SEND_ERROR
  | CURLE_RECV_ERROR
  | other (code : ℕ)
deriving DecidableEq, Repr

-- The libcurl calls that obtain or give back a resource.
inductive CurlOp where
  | easyInit
  | easyEscape
  | free
  | slistAppend
  | slistFreeAll
  | easyCleanup
deriving DecidableEq, Repr

namespace Json

-- A double is kept as the text that `valueToString` prints for it.
inductive Value where
  | nullValue
  | intValue (n : ℤ)
  | uintValue (n : ℕ)
  | realValue (text : Bytes)
  | stringValue (text : Bytes)
  | booleanValue (b : Bool)
  | arrayValue (elements : List Value)
  | objectValue (members : List (Bytes × Value))

-- `Json::Reader::parse` on a document: the root, or a parse error.
abbrev Reader := Bytes → Option Value

namespace Value

-- The non-const `operator[](const char*)`. A missing member is created as
-- null, and a null value becomes an object first.
def member (key : Bytes) : Value → Except Exn Value
  | .nullValue => .ok .nullValue
  | .objectValue members => .ok ((members.lookup key).getD .nullValue)
  | _ => .error (.jsonLogicError "in Json::Value::resolveReference(key, end): requires objectValue")

-- The non-const `operator[](int)`, which fills a short array with nulls.
def element (index : ℕ) : Value → Except Exn Value
  | .nullValue => .ok .nullValue
  | .arrayValue elements => .ok (elements.getD index .nullValue)
  | _ => .error (.jsonLogicError "in Json::Value::operator[](ArrayIndex): requires arrayValue")

def asString : Value → Except Exn Bytes
  | .nullValue => .ok []
  | .stringValue text => .ok text
  | .booleanValue b => .ok (ascii (if b then "true" else "false"))
  | .intValue n => .ok (ascii (toString n))
  | .uintValue n => .ok (ascii (toString n))
  | .realValue text => .ok text
  | .arrayValue _ | .objectValue _ => .error (.jsonLogicError "Type is not convertible to string")

end Value

end Json

-- `JsonUtils::load_json`. No caller reads the text it stores in `msg`.
def loadJson (reader : Json.Reader) (raw : Bytes) : Option Json.Value := reader raw

end AsrServiceProxy

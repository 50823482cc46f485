import AsrServiceProxy.Lib.IndexLoop
import AsrServiceProxy.Utils.StringUtil

-- Percent encoding: `uri_encode` and `uri_decode`.
namespace AsrServiceProxy.StringUtil

open CMemory

-- `isalnum` of the C locale.
def isalnum (c : UInt8) : Bool :=
  (48 ≤ c && c ≤ 57) || (65 ≤ c && c ≤ 90) || (97 ≤ c && c ≤ 122)

def hexChars : Bytes := ascii "0123456789ABCDEF"

def toHex (c : UInt8) : Bytes :=
  [hexChars.getD (c >>> 4).toNat 0, hexChars.getD (c &&& 0xf).toNat 0]

def isHexChar (c : UInt8) : Bool :=
  (48 ≤ c && c ≤ 57) || (97 ≤ c && c ≤ 102) || (65 ≤ c && c ≤ 70)

def toBin (c : UInt8) : UInt8 :=
  if 48 ≤ c && c ≤ 57 then c - 48
  else if 97 ≤ c && c ≤ 102 then c - 97 + 10
  else if 65 ≤ c && c ≤ 70 then c - 65 + 10
  else 0xff

-- What `uri_encode` writes for a character.
def uriEncodeChar (encodeSlash : Bool) (c : UInt8) : Bytes :=
  if isalnum c || c = 95 || c = 45 || c = 126 || c = 46 then [c]
  else if c = 47 then
    if encodeSlash then 37 :: toHex c else [c]
  else 37 :: toHex c

-- The index is a `uint32_t`; `none` when the loop takes more rounds than given.
def uriEncode (rounds : ℕ) (input : Bytes) (encodeSlash : Bool) : Option Bytes :=
  IndexLoop.loop 32 (fun _ => false) (fun ss c => ss ++ uriEncodeChar encodeSlash c) input rounds 0 []

inductive UriState where
  | normalState
  | percentAppearState
  | percentAndHexCharAppearState
  | errorState
deriving DecidableEq, Repr

structure UriDecoder where
  state : UriState
  ss : Bytes
deriving DecidableEq, Repr

-- A round of the loop; `o` is a new variable in each, so that what the first digit
-- of an escape puts there is gone when the second one is read.
def uriDecodeRound (d : UriDecoder) (c : UInt8) : UriDecoder :=
  let o : UInt8 := 0
  match d.state with
  | .normalState =>
      if c = 37 then { d with state := .percentAppearState }
      else if isalnum c || c = 46 || c = 126 || c = 45 || c = 95 || c = 47 then
        { d with ss := d.ss ++ [c] }
      else { d with state := .errorState }
  | .percentAppearState =>
      if isHexChar c then { d with state := .percentAndHexCharAppearState }
      else { d with state := .errorState }
  | .percentAndHexCharAppearState =>
      if isHexChar c then { state := .normalState, ss := d.ss ++ [o + toBin c] }
      else { d with state := .errorState }
  | .errorState => d

def uriDecodeLoop (rounds : ℕ) (input : Bytes) : Option UriDecoder :=
  IndexLoop.loop 32 (fun d : UriDecoder => d.state = .errorState) uriDecodeRound input rounds 0
    { state := .normalState, ss := [] }

-- The return value and `*out` after the call.
def uriDecode (rounds : ℕ) (input out : Bytes) : Option (ℤ × Bytes) :=
  (uriDecodeLoop rounds input).map fun d =>
    if d.state ≠ .normalState then (-1, out) else (0, d.ss)

-- The elements of an encoded text.
inductive UriElement where
  | unreserved (c : UInt8)
  | escape (high low : UInt8)
deriving DecidableEq, Repr

namespace UriElement

def text : UriElement → Bytes
  | .unreserved c => [c]
  | .escape high low => [37, high, low]

def isUnreserved (c : UInt8) : Bool :=
  isalnum c || c = 46 || c = 126 || c = 45 || c = 95 || c = 47

def wellFormed : UriElement → Bool
  | .unreserved c => isUnreserved c
  | .escape high low => isHexChar high && isHexChar low

end UriElement

-- `input` is these elements one after the other.
def Factors (elements : List UriElement) (input : Bytes) : Prop :=
  (∀ e ∈ elements, e.wellFormed = true) ∧ elements.flatMap UriElement.text = input

def IsUriText (input : Bytes) : Prop := ∃ elements, Factors elements input

end AsrServiceProxy.StringUtil

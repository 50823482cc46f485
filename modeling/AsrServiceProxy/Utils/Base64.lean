import AsrServiceProxy.Lib.BitString
import AsrServiceProxy.Utils.Uri

-- `base64_encode` and `base64_decode`.
namespace AsrServiceProxy.Base64

open CMemory

def base64Chars : Bytes :=
  ascii "ABCDEFGHIJKLMNOPQRSTUVWXYZabcdefghijklmnopqrstuvwxyz0123456789+/"

def isBase64 (c : UInt8) : Bool := StringUtil.isalnum c || c = 43 || c = 47

-- `char_array_4` for the three bytes of a group.
def encodeGroup (a b c : UInt8) : List UInt8 :=
  [(a &&& 0xfc) >>> 2,
    ((a &&& 0x03) <<< 4) + ((b &&& 0xf0) >>> 4),
    ((b &&& 0x0f) <<< 2) + ((c &&& 0xc0) >>> 6),
    c &&& 0x3f]

def base64Char (digit : UInt8) : UInt8 := base64Chars.getD digit.toNat 0

-- The first `i` bytes of `char_array_3`, and `dst`.
structure Encoder where
  group : List UInt8
  dst : Bytes
deriving DecidableEq, Repr

def encodeRound (e : Encoder) (byte : UInt8) : Encoder :=
  match e.group ++ [byte] with
  | [a, b, c] => { group := [], dst := e.dst ++ (encodeGroup a b c).map base64Char }
  | group => { e with group := group }

def encodeRest (e : Encoder) : Bytes :=
  let i := e.group.length
  if i = 0 then e.dst
  else
    let group := e.group ++ List.replicate (3 - i) 0
    let digits := encodeGroup (group.getD 0 0) (group.getD 1 0) (group.getD 2 0)
    e.dst ++ (digits.take (i + 1)).map base64Char ++ List.replicate (3 - i) 61

def base64Encode (bytes : Bytes) : Bytes :=
  encodeRest (bytes.foldl encodeRound { group := [], dst := [] })

-- `base64_chars.find` as an `unsigned char`, which makes 255 of npos.
def base64Find (c : UInt8) : UInt8 :=
  match base64Chars.findIdx? (· = c) with
  | some digit => UInt8.ofNat digit
  | none => 255

-- `char_array_3` for the four digits of a group.
def decodeGroup (a b c d : UInt8) : List UInt8 :=
  [(a <<< 2) + ((b &&& 0x30) >>> 4),
    ((b &&& 0xf) <<< 4) + ((c &&& 0x3c) >>> 2),
    ((c &&& 0x3) <<< 6) + d]

-- The first `i` characters of `char_array_4`; `read` records the indices that the
-- loop has read.
structure Decoder where
  inLen : ℤ
  in_ : ℕ
  group : List UInt8
  ret : Bytes
  read : List ℕ
deriving DecidableEq, Repr

def decodeStart (encoded : Bytes) : Decoder :=
  { inLen := intOfSize encoded.length, in_ := 0, group := [], ret := [], read := [] }

-- The body of the loop.
def decodeRound (d : Decoder) (c : UInt8) : Decoder :=
  let d := { d with in_ := d.in_ + 1 }
  match d.group ++ [c] with
  | [a, b, c, e] =>
      { d with
        group := []
        ret := d.ret ++
          decodeGroup (base64Find a) (base64Find b) (base64Find c) (base64Find e) }
  | group => { d with group := group }

-- The character at the size is NUL. `none` when the loop takes more rounds than given.
def decodeLoop (encoded : Bytes) : ℕ → Decoder → Option Decoder
  | 0, _ => none
  | n + 1, d =>
      if d.inLen = 0 then some { d with inLen := d.inLen - 1 }
      else
        let c := encoded.getD d.in_ 0
        let d := { d with inLen := d.inLen - 1, read := d.read ++ [d.in_] }
        if c ≠ 61 ∧ isBase64 c = true then decodeLoop encoded n (decodeRound d c) else some d

def decodeRest (d : Decoder) : Bytes :=
  let i := d.group.length
  if i = 0 then d.ret
  else
    let group := (d.group ++ List.replicate (4 - i) 0).map base64Find
    let bytes :=
      decodeGroup (group.getD 0 0) (group.getD 1 0) (group.getD 2 0) (group.getD 3 0)
    d.ret ++ bytes.take (i - 1)

def base64Decode (rounds : ℕ) (encoded : Bytes) : Option Bytes :=
  (decodeLoop encoded rounds (decodeStart encoded)).map decodeRest

-- The padded encoding of RFC 4648: the bits of the bytes, filled up with zeros to whole
-- digits, and the characters of the digits, filled up with `=` to groups of four.
def rfc4648 (bytes : Bytes) : Bytes :=
  let string := bytes.flatMap fun b => BitString.bits 8 b.toNat
  let count := (string.length + 5) / 6
  let digits :=
    BitString.numbers 6 count (string ++ List.replicate (6 * count - string.length) false)
  digits.map (fun digit => base64Chars.getD digit 0) ++ List.replicate ((4 - count % 4) % 4) 61

-- The longest prefix of characters of the alphabet.
def alphabetPrefix (encoded : Bytes) : Bytes := encoded.takeWhile base64Chars.contains

-- The whole bytes in the bits of that prefix.
def prefixBytes (encoded : Bytes) : Bytes :=
  let digits := (alphabetPrefix encoded).map fun c => base64Chars.idxOf c
  (BitString.numbers 8 (6 * digits.length / 8) (digits.flatMap (BitString.bits 6))).map UInt8.ofNat

end AsrServiceProxy.Base64

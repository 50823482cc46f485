import AsrServiceProxy.Utils.Extern

namespace AsrServiceProxy.StringUtil

open CMemory

-- `isspace` of the C locale.
def isspace (b : UInt8) : Bool := b = 32 || (9 ≤ b && b ≤ 13)

-- `std::string::find`; npos is `none`.
def find (pattern : Bytes) : Bytes → Option ℕ
  | [] => if pattern = [] then some 0 else none
  | b :: rest =>
      if pattern.isPrefixOf (b :: rest) then some 0 else (find pattern rest).map (· + 1)

-- `std::string::substr`; a count of npos, or past the end, means up to the end.
def substr (str : Bytes) (pos count : Option ℕ) : Except Exn Bytes :=
  match pos with
  | none => .error (.stdOutOfRange "basic_string::substr")
  | some p =>
      if str.length < p then .error (.stdOutOfRange "basic_string::substr")
      else
        match count with
        | none => .ok (str.drop p)
        | some n => .ok ((str.drop p).take n)

-- A read that is outside of the string, an `int` that overflows, an exception, or a loop
-- that does not end.
inductive Fault where
  | outside (i : ℤ)
  | overflow
  | thrown (e : Exn)
  | endless
deriving DecidableEq, Repr

def charAt (src : Bytes) (i : ℤ) : Except Fault UInt8 :=
  if i < 0 then .error (.outside i)
  else
    match src[i.toNat]? with
    | some b => .ok b
    | none => .error (.outside i)

-- The result of an operation on `int`s.
def int (x : ℤ) : Except Fault ℤ := (signed 32 x).elim (.error .overflow) .ok

-- An `int` that is converted to `size_t`.
def sizeOfInt (x : ℤ) : ℕ := (x % 2 ^ 64).toNat

-- The first loop of `space_trim`, with the distance of its iterator from the end.
def spaceTrimFront (src : Bytes) : ℕ → ℤ → ℤ → Except Fault (ℤ × ℤ)
  | 0, startPos, length => .ok (startPos, length)
  | left + 1, startPos, length => do
      let c ← charAt src (src.length - (left + 1))
      if !isspace c then return (startPos, length)
      else spaceTrimFront src left (← int (startPos + 1)) (← int (length - 1))

-- The second one. A reverse iterator reads in front of its base.
def spaceTrimBack (src : Bytes) : ℕ → ℤ → Except Fault ℤ
  | 0, length => .ok length
  | base + 1, length => do
      let c ← charAt src base
      if !isspace c then return length
      else spaceTrimBack src base (← int (length - 1))

-- `space_trim`, index by index.
def spaceTrimAt (src : Bytes) : Except Fault Bytes := do
  let (startPos, length) ← spaceTrimFront src src.length 0 (intOfSize src.length)
  let length ← spaceTrimBack src src.length length
  (substr src (some (sizeOfInt startPos)) (some (sizeOfInt length))).mapError .thrown

-- The loop of the vector overload of `split`; every pass removes a byte.
def splitLoop (delimiter : UInt8) : ℕ → Bytes → List Bytes → List Bytes
  | 0, str, result => result ++ [str]
  | fuel + 1, str, result =>
      match str.findIdx? (· = delimiter) with
      | none => result ++ [str]
      | some pos => splitLoop delimiter fuel (str.drop (pos + 1)) (result ++ [str.take pos])

def split (str : Bytes) (delimiter : UInt8) : List Bytes :=
  splitLoop delimiter str.length str []

-- A `std::map`, whose `insert` leaves a name that is present alone.
abbrev Map := List (Bytes × Bytes)

def Map.insert (map : Map) (name value : Bytes) : Map :=
  match map.lookup name with
  | some _ => map
  | none => map ++ [(name, value)]

-- One line of the map overload of `split`; `none` is its return value -1.
def splitLine (minor : UInt8) (acceptMinorInValue : Bool) (line : Bytes) :
    Except Fault (Option (Bytes × Bytes)) :=
  match split line minor with
  | [] => return none
  | [name] => return some (← spaceTrimAt name, [])
  | [name, value] => return some (← spaceTrimAt name, ← spaceTrimAt value)
  | name :: _ => do
      let name ← spaceTrimAt name
      if acceptMinorInValue then
        return some (name, ← spaceTrimAt ((line.dropWhile (· ≠ minor)).drop 1))
      else return none

def splitLines (minor : UInt8) (acceptMinorInValue : Bool) :
    List Bytes → Map → Except Fault (Option Map)
  | [], map => return some map
  | line :: rest, map => do
      match ← splitLine minor acceptMinorInValue line with
      | none => return none
      | some (name, value) => splitLines minor acceptMinorInValue rest (map.insert name value)

-- The index of the loop is a uint32_t. From 2^32 lines on it starts again and again.
def splitMap (str : Bytes) (major minor : UInt8) (acceptMinorInValue : Bool) :
    Except Fault (Option Map) := do
  let majorResult := split str major
  match ← splitLines minor acceptMinorInValue (majorResult.take (2 ^ 32)) [] with
  | none => return none
  | some map => if majorResult.length < 2 ^ 32 then return some map else throw .endless

end AsrServiceProxy.StringUtil

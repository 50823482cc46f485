import AsrServiceProxy.Config.Lookup

-- The getters for durations and sizes, whose strings end in a unit.
namespace AsrServiceProxy.Config

open CMemory

inductive GetterException where
  | lookup (e : LookupException)
  | badValue (message : Bytes)
  | undefinedBehaviour (message : String)
deriving DecidableEq, Repr

-- The constructor of `ConfigExceptionBadValue`.
def GetterException.ofBadValue (path message : Bytes) : GetterException :=
  .badValue (ascii "_invalid value at '" ++ path ++ ascii "': " ++ message)

def SimpleConfig.getUnits (s : Bytes) : Bytes := (s.reverse.takeWhile isalpha).reverse

-- The number and the unit of a trimmed string.
def splitUnit (input : Bytes) : Bytes × Bytes :=
  let s := trimCopy input
  let unit := SimpleConfig.getUnits s
  (trimCopy (s.take (s.length - unit.length)), unit)

-- The product for a number that is a double: its cast to `int64_t`; `none` is
-- bad_lexical_cast.
abbrev DoubleProduct := Bytes → UInt64 → Option Int64

-- The number times the unit, which is an unsigned product for an integer.
def scaled (doubles : DoubleProduct) (number : Bytes) (units : UInt64) : Option UInt64 :=
  if number.all (fun b => 48 ≤ b && b ≤ 57) then
    (lexicalInt64 number).map fun n => n.toUInt64 * units
  else (doubles number units).map Int64.toUInt64

def durationUnits (unit : Bytes) : Option UInt64 :=
  if unit = [] ∨ unit = ascii "ms" ∨ unit = ascii "milliseconds" then some 1000000
  else if unit = ascii "us" ∨ unit = ascii "microseconds" then some 1000
  else if unit = ascii "ns" ∨ unit = ascii "nanoseconds" then some 1
  else if unit = ascii "d" ∨ unit = ascii "days" then some 86400000000000
  else if unit = ascii "h" ∨ unit = ascii "hrs" ∨ unit = ascii "hours" then some 3600000000000
  else if unit = ascii "s" ∨ unit = ascii "secs" ∨ unit = ascii "seconds" then some 1000000000
  else if unit = ascii "m" ∨ unit = ascii "mins" ∨ unit = ascii "minutes" then some 60000000000
  else none

-- A long unit may leave out its last letter.
def plural (unit : Bytes) : Bytes :=
  if 2 < unit.length ∧ unit.getLast? ≠ some 115 then unit ++ [115] else unit

def SimpleConfig.parseDuration (doubles : DoubleProduct) (input path : Bytes) :
    Except GetterException UInt64 :=
  let (number, unit) := splitUnit input
  if number = [] then
    .error (.ofBadValue path (ascii "_no number in duration value '" ++ input ++ ascii "'"))
  else
    match durationUnits (plural unit) with
    | none =>
        .error (.ofBadValue path (ascii "_could not parse time unit '" ++ unit ++
          ascii "' (try ns, us, ms, s, m, d)"))
    | some units =>
        match scaled doubles number units with
        | some duration => .ok duration
        | none =>
            .error (.ofBadValue path (ascii "_could not parse duration number '" ++ number ++
              ascii "'"))

structure MemoryUnit where
  memoryPrefix : Bytes
  powerOf : UInt32
  power : UInt32
deriving DecidableEq, Repr

-- `bytes`, which the constructor computes in a loop.
def MemoryUnit.bytes (unit : MemoryUnit) : UInt64 :=
  (fun bytes => bytes * unit.powerOf.toUInt64)^[unit.power.toNat] 1

def MemoryUnit.units : List MemoryUnit :=
  [{ memoryPrefix := [], powerOf := 1024, power := 0 },
    { memoryPrefix := ascii "kilo", powerOf := 1000, power := 1 },
    { memoryPrefix := ascii "mega", powerOf := 1000, power := 2 },
    { memoryPrefix := ascii "giga", powerOf := 1000, power := 3 },
    { memoryPrefix := ascii "tera", powerOf := 1000, power := 4 },
    { memoryPrefix := ascii "peta", powerOf := 1000, power := 5 },
    { memoryPrefix := ascii "exa", powerOf := 1000, power := 6 },
    { memoryPrefix := ascii "zetta", powerOf := 1000, power := 7 },
    { memoryPrefix := ascii "yotta", powerOf := 1000, power := 8 },
    { memoryPrefix := ascii "kibi", powerOf := 1024, power := 1 },
    { memoryPrefix := ascii "mebi", powerOf := 1024, power := 2 },
    { memoryPrefix := ascii "gibi", powerOf := 1024, power := 3 },
    { memoryPrefix := ascii "tebi", powerOf := 1024, power := 4 },
    { memoryPrefix := ascii "pebi", powerOf := 1024, power := 5 },
    { memoryPrefix := ascii "exbi", powerOf := 1024, power := 6 },
    { memoryPrefix := ascii "zebi", powerOf := 1024, power := 7 },
    { memoryPrefix := ascii "yobi", powerOf := 1024, power := 8 }]

-- `boost::to_upper_copy`
def toUpperCopy (s : Bytes) : Bytes := s.map fun b => if 97 ≤ b && b ≤ 122 then b - 32 else b

-- The names under which a unit is entered. The `runtime_error` for a power that
-- is neither of the two is never thrown.
def MemoryUnit.names (unit : MemoryUnit) : List Bytes :=
  [unit.memoryPrefix ++ ascii "byte", unit.memoryPrefix ++ ascii "bytes"] ++
    if unit.memoryPrefix = [] then [ascii "b", ascii "_b", []]
    else
      let first := unit.memoryPrefix.take 1
      let firstUpper := toUpperCopy first
      if unit.powerOf = 1024 then
        [first, firstUpper, firstUpper ++ ascii "i", firstUpper ++ ascii "i_b"]
      else if unit.power = 1 then [first ++ ascii "_b"]
      else [firstUpper ++ ascii "_b"]

-- The map, the entry that counts for a name being the last one made.
def MemoryUnit.makeUnitsMap : List (Bytes × MemoryUnit) :=
  (units.flatMap fun unit => unit.names.map fun name => (name, unit)).reverse

def MemoryUnit.parseUnit (unit : Bytes) : Option MemoryUnit := makeUnitsMap.lookup unit

def SimpleConfig.parseBytes (doubles : DoubleProduct) (input path : Bytes) :
    Except GetterException UInt64 :=
  let (number, unit) := splitUnit input
  if number = [] then
    .error (.ofBadValue path (ascii "_no number in size-in-bytes value '" ++ input ++ ascii "'"))
  else
    match MemoryUnit.parseUnit unit with
    | none =>
        .error (.ofBadValue path (ascii "_could not parse size-in-bytes unit '" ++ unit ++
          ascii "' (try k, _k, k_b, _ki_b, kilobytes, kibibytes)"))
    | some units =>
        match scaled doubles number units.bytes with
        | some size => .ok size
        | none =>
            .error (.ofBadValue path (ascii "_could not parse size-in-bytes number '" ++ number ++
              ascii "'"))

section

variable (doubles : Doubles) (products : DoubleProduct) (newId : ℕ)

-- `unwrapped()` and `_variant_int64`; a double is cast like one times 1.
def Value.int64 : Value ℕ → ℤ
  | .configInt _ value _ => value.toInt
  | .configInt64 _ value _ => value.toInt
  | .configDouble _ text => ((products text 1).map Int64.toInt).getD 0
  | _ => 0

def SimpleConfig.getInt64 (object : Value ℕ) (path : Bytes) : Except LookupException ℤ :=
  (findExpression doubles newId object path .NUMBER).map (Value.int64 products)

-- The string of the value at the path, for one that is no number.
def SimpleConfig.parseAt (parse : Bytes → Bytes → Except GetterException UInt64)
    (object : Value ℕ) (path : Bytes) : Except GetterException UInt64 :=
  match findExpression doubles newId object path .STRING with
  | .ok v => parse v.transformToString path
  | .error e => .error (.lookup e)

def SimpleConfig.getBytes (object : Value ℕ) (path : Bytes) : Except GetterException UInt64 :=
  match getInt64 doubles products newId object path with
  | .ok size => .ok (Int64.ofInt size).toUInt64
  | .error (.wrongType _) | .error (.config (.wrongType _)) =>
      parseAt doubles newId (parseBytes products) object path
  | .error e => .error (.lookup e)

def SimpleConfig.getNanoseconds (object : Value ℕ) (path : Bytes) : Except GetterException UInt64 :=
  match getInt64 doubles products newId object path with
  | .ok millis =>
      match signed 64 (millis * 1000000) with
      | some size => .ok (Int64.ofInt size).toUInt64
      | none => .error (.undefinedBehaviour "signed overflow")
  | .error (.wrongType _) | .error (.config (.wrongType _)) =>
      parseAt doubles newId (parseDuration products) object path
  | .error e => .error (.lookup e)

def SimpleConfig.getMilliseconds (object : Value ℕ) (path : Bytes) : Except GetterException UInt64 :=
  (getNanoseconds doubles products newId object path).map (· / 1000000)

end

end AsrServiceProxy.Config

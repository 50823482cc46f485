import AsrServiceProxy.Config.ListGetters
import AsrServiceProxy.Config.Units

-- The getters for booleans, integers and strings, and for lists of them.
namespace AsrServiceProxy.Config

open CMemory

-- `variant_get`
def variantGetBool : ConfigVariant → Except ListException Bool
  | .bool x => .ok x
  | _ => .error .badGet

def variantGetString : ConfigVariant → Except ListException Bytes
  | .string x => .ok x
  | _ => .error .badGet

section

variable (doubles : Doubles) (products : DoubleProduct) (newId : ℕ) (walk : EntryWalk)

-- `_variant_int64`
def variantInt64 : ConfigVariant → ℤ
  | .int32 x => x.toInt
  | .int64 x => x.toInt
  | .double text => ((products text 1).map Int64.toInt).getD 0
  | .bool x => if x then 1 else 0
  | _ => 0

-- `int_value_range_checked`
def Value.intValueRangeChecked (path : Bytes) (number : Value ℕ) : Except LookupException Int32 :=
  let l := number.int64 products
  if l < Int32.minValue.toInt ∨ Int32.maxValue.toInt < l then
    .error (.ofWrongType path (ascii "32-bit integer")
      (ascii "out-of-range value " ++ lexicalString l))
  else .ok (Int32.ofInt l)

-- `unwrapped<T>()` of the value that is found.
def SimpleConfig.getUnwrapped {α : Type} (variantGet : ConfigVariant → Except ListException α)
    (expected : ConfigValueType) (object : Value ℕ) (path : Bytes) : Except ListException α := do
  let v ← (findExpression doubles newId object path expected).mapError .lookup
  variantGet (← (v.unwrapped walk).mapError fun e => .lookup (.config e))

def SimpleConfig.getBoolean (object : Value ℕ) (path : Bytes) : Except ListException Bool :=
  getUnwrapped doubles newId walk variantGetBool .BOOLEAN object path

def SimpleConfig.getString (object : Value ℕ) (path : Bytes) : Except ListException Bytes :=
  getUnwrapped doubles newId walk variantGetString .STRING object path

def SimpleConfig.getInt (object : Value ℕ) (path : Bytes) : Except LookupException Int32 := do
  (← findExpression doubles newId object path .NUMBER).intValueRangeChecked products path

def SimpleConfig.getBooleanList (object : Value ℕ) (path : Bytes) :
    Except ListException (List Bool) := do
  let list ← (getHomogeneousUnwrappedList doubles newId walk object path .BOOLEAN).mapError .lookup
  list.mapM variantGetBool

def SimpleConfig.getStringList (object : Value ℕ) (path : Bytes) :
    Except ListException (List Bytes) := do
  let list ← (getHomogeneousUnwrappedList doubles newId walk object path .STRING).mapError .lookup
  list.mapM variantGetString

def SimpleConfig.getInt64List (object : Value ℕ) (path : Bytes) :
    Except LookupException (List ℤ) := do
  let list ← getHomogeneousUnwrappedList doubles newId walk object path .NUMBER
  return list.map (variantInt64 products)

def SimpleConfig.getIntList (object : Value ℕ) (path : Bytes) :
    Except LookupException (List Int32) := do
  let list ← getHomogeneousWrappedList doubles newId object path .NUMBER
  list.mapM (Value.intValueRangeChecked products path)

end

end AsrServiceProxy.Config

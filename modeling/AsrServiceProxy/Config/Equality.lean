import AsrServiceProxy.Config.Lookup
import AsrServiceProxy.Config.Unwrapped
import Mathlib.Data.List.Lex
import Mathlib.Data.Set.Basic

-- `equals` and `hash_code` of values, and the trees that values stand for.
namespace AsrServiceProxy.Config

open CMemory

variable {ι κ : Type}

-- What the comparison of variants uses of floating point: the casts of a double,
-- its text, and `==` with the double that another variant is cast to.
structure Floats where
  int32 : Bytes → Int32
  int64 : Bytes → Int64
  print : Bytes → Bytes
  same : ConfigVariant → Bytes → Bool

section

variable (floats : Floats)

-- `_variant_int`
def ConfigVariant.toInt32 : ConfigVariant → Int32
  | .int32 x => x
  | .int64 x => x.toInt32
  | .double text => floats.int32 text
  | .bool x => if x then 1 else 0
  | _ => 0

-- `_variant_int64`
def ConfigVariant.toInt64 : ConfigVariant → Int64
  | .int32 x => x.toInt64
  | .int64 x => x
  | .double text => floats.int64 text
  | .bool x => if x then 1 else 0
  | _ => 0

-- `_variant_string` of a scalar
def ConfigVariant.toText : ConfigVariant → Bytes
  | .null => ascii "null"
  | .int32 x => lexicalString x.toInt
  | .int64 x => lexicalString x.toInt
  | .double text => floats.print text
  | .bool x => ascii (if x then "true" else "false")
  | .string x => x
  | .base | .map _ | .vector _ => []

-- `equals_handling_null`: the visitor `_variant_equals(eq)` on a scalar. Lists and
-- objects are compared by classes of their own.
def ConfigVariant.equalsHandlingNull (eq : ConfigVariant) : ConfigVariant → Bool
  | .null =>
      match eq with
      | .null => true
      | _ => false
  | .int32 x => eq.toInt32 floats == x
  | .int64 x => eq.toInt64 floats == x
  | .double text => floats.same eq text
  | .bool x =>
      match eq with
      | .bool y => y == x
      | _ => false
  | .string x => eq.toText floats == x
  | .base | .map _ | .vector _ => false

-- What a scalar is unwrapped to.
def Value.scalar : Value ι → Option ConfigVariant
  | .configNull _ => some .null
  | .configBoolean _ value => some (.bool value)
  | .configInt _ value _ => some (.int32 value)
  | .configInt64 _ value _ => some (.int64 value)
  | .configDouble _ originalText => some (.double originalText)
  | .configString _ value => some (.string value)
  | _ => none

-- `operator<=` of `std::string`
def KeyLE (a b : Bytes) : Prop := a.map UInt8.toNat ≤ b.map UInt8.toNat

instance : DecidableRel KeyLE := fun a b =>
  inferInstanceAs (Decidable (a.map UInt8.toNat ≤ b.map UInt8.toNat))

-- A `std::set` of the keys of a map, in its order.
def sortedKeys (fields : Fields ι) : List Bytes := (fields.map Prod.fst).insertionSort KeyLE

-- `equals` of a resolved value
mutual

def Value.equals : Value ι → Value κ → Bool
  -- `map_equals`
  | .simpleConfigObject _ value _, .simpleConfigObject _ other _ =>
      value.length == other.length && sortedKeys value == sortedKeys other &&
        fieldsEqual value other
  | .simpleConfigList _ value, .simpleConfigList _ other =>
      value.length == other.length && elementsEqual value other
  | this, other =>
      match this.scalar, other.scalar, this.valueType, other.valueType with
      | some a, some b, .ok type, .ok otherType =>
          type = otherType && a.equalsHandlingNull floats b
      | _, _, _, _ => false

-- `std::equal` on lists of one length
def elementsEqual : List (Value ι) → List (Value κ) → Bool
  | v :: rest, w :: others => v.equals w && elementsEqual rest others
  | _, _ => true

-- The keys are those of the other map.
def fieldsEqual : List (Bytes × Value ι) → Fields κ → Bool
  | [], _ => true
  | (key, v) :: rest, other =>
      (match other.lookup key with
        | some w => v.equals w
        | none => false) && fieldsEqual rest other

end

end

-- `std::hash` and `boost::hash_combine`, which gives the new seed.
structure Hashes where
  string : Bytes → UInt64
  boolean : Bool → UInt64
  double : Bytes → UInt32
  combine : UInt64 → UInt64 → UInt64

section

variable (hashes : Hashes)

-- `ConfigNumber::hash_code` of a whole number
def hashInt64 (asInt64 : Int64) : UInt32 := (asInt64 ^^^ (asInt64 >>> 32)).toUInt64.toUInt32

-- `map_hash` with the hashes of the values.
def mapHash (keys : List Bytes) (codes : List (Bytes × UInt32)) : UInt32 :=
  let valuesHash := keys.foldl (fun hash k => hash + (codes.lookup k).getD 0) 0
  let keysHash := keys.foldl (fun hash k => hashes.combine hash (hashes.string k)) 0
  41 * (41 + keysHash.toUInt32) + valuesHash

-- `hash_code` of a resolved value
mutual

def Value.hashCode : Value ι → UInt32
  | .configNull _ => 0
  | .configBoolean _ value => (hashes.boolean value).toUInt32
  | .configInt _ value _ => hashInt64 value.toInt64
  | .configInt64 _ value _ => hashInt64 value
  | .configDouble _ originalText => hashes.double originalText
  | .configString _ value => (hashes.string value).toUInt32
  | .simpleConfigList _ value => (hashElements value 0).toUInt32
  | .simpleConfigObject _ value _ => mapHash hashes (sortedKeys value) (hashFields value)
  | _ => 0

def hashElements : List (Value ι) → UInt64 → UInt64
  | [], hash => hash
  | v :: rest, hash => hashElements rest (hashes.combine hash v.hashCode.toUInt64)

def hashFields : List (Bytes × Value ι) → List (Bytes × UInt32)
  | [] => []
  | (key, v) :: rest => (key, v.hashCode) :: hashFields rest

end

end

-- The tree that a value stands for: an object is a partial function of the keys, and
-- how much of a number counts is left open.
inductive DataTree (ν : Type) where
  | null
  | boolean (b : Bool)
  | number (n : ν)
  | string (s : Bytes)
  | list (elements : List (DataTree ν))
  | object (fields : Bytes → Option (DataTree ν))
  -- doubles, and what is not resolved
  | other

section

variable {ν : Type} (narrow : Int32 → ν) (wide : Int64 → ν)

mutual

def Value.tree : Value ι → DataTree ν
  | .configNull _ => .null
  | .configBoolean _ value => .boolean value
  | .configInt _ value _ => .number (narrow value)
  | .configInt64 _ value _ => .number (wide value)
  | .configString _ value => .string value
  | .simpleConfigList _ value => .list (treeAll value)
  | .simpleConfigObject _ value _ => .object (treeFields value)
  | _ => .other

def treeAll : List (Value ι) → List (DataTree ν)
  | [] => []
  | v :: rest => v.tree :: treeAll rest

def treeFields : List (Bytes × Value ι) → Bytes → Option (DataTree ν)
  | [], _ => none
  | (name, v) :: rest, key => if key = name then some v.tree else treeFields rest key

end

end

-- A value by its number.
def Value.denotes (v : Value ι) : DataTree ℤ := v.tree Int32.toInt Int64.toInt

-- Integers, booleans, strings, null, lists and objects; a map has each key once.
def Value.IsData : Value ι → Prop
  | .simpleConfigObject _ value _ => (value.map Prod.fst).Nodup
  | .configDouble _ _ | .configReference _ _ _ | .configConcatenation _ _
  | .configDelayedMerge _ _ | .configDelayedMergeObject _ _ => False
  | _ => True

-- The number of an integer value.
def Value.integer : Value ι → Option ℤ
  | .configInt _ value _ => some value.toInt
  | .configInt64 _ value _ => some value.toInt
  | _ => none

end AsrServiceProxy.Config

import AsrServiceProxy.Lib.CMemory
import Mathlib.Data.Nat.Digits.Lemmas

-- The values of the config library.
namespace AsrServiceProxy.Config

open CMemory

-- The exceptions the library throws, with the fixed text of their messages.
-- `undefinedBehaviour` stands for an access that the C++ standard leaves open,
-- `outOfFuel` for a loop that was given too few rounds.
inductive ConfigException where
  | parse (message : String)
  | badPath (message : String)
  | wrongType (message : String)
  | unresolvedSubstitution (message : String)
  | notResolved (message : String)
  | notPossibleToResolve
  | bugOrBroken (message : String)
  | undefinedBehaviour (message : String)
  | outOfFuel
deriving DecidableEq, Repr

-- A path is a key and what comes after it; a null path is an `Option`.
inductive Path where
  | newKey (first : Bytes)
  | cons (first : Bytes) (remainder : Path)
deriving DecidableEq, Repr

def Path.first : Path → Bytes
  | .newKey first | .cons first _ => first

def Path.remainder : Path → Option Path
  | .newKey _ => none
  | .cons _ remainder => some remainder

def Path.keys : Path → List Bytes
  | .newKey first => [first]
  | .cons first remainder => first :: remainder.keys

def Path.length (path : Path) : ℕ := path.keys.length

-- `PathBuilder::result` on the keys that were appended.
def PathBuilder.result : List Bytes → Option Path
  | [] => none
  | key :: keys =>
      match PathBuilder.result keys with
      | none => some (.newKey key)
      | some remainder => some (.cons key remainder)

-- `path.prepend(toPrepend)`.
def Path.prepend (path : Path) : Path → Path
  | .newKey first => .cons first path
  | .cons first remainder => .cons first (path.prepend remainder)

-- `sub_path(remove_from_front)`; null when no key remains.
def Path.subPath (path : Path) : ℕ → Option Path
  | 0 => some path
  | n + 1 =>
      match path with
      | .newKey _ => none
      | .cons _ remainder => remainder.subPath n

structure SubstitutionExpression where
  path : Path
  optional : Bool
deriving DecidableEq, Repr

-- `ι` is what tells objects with equal contents apart. The flag that stores
-- the resolve status of an object or list is computed below, and the fields of
-- an object are in the order in which the hash map is walked.
inductive Value (ι : Type) where
  | configNull (id : ι)
  | configBoolean (id : ι) (value : Bool)
  | configInt (id : ι) (value : Int32) (originalText : Bytes)
  | configInt64 (id : ι) (value : Int64) (originalText : Bytes)
  -- a double that is no int64, kept as its text
  | configDouble (id : ι) (originalText : Bytes)
  | configString (id : ι) (value : Bytes)
  | simpleConfigList (id : ι) (value : List (Value ι))
  | simpleConfigObject (id : ι) (value : List (Bytes × Value ι)) (ignoresFallbacks : Bool)
  | configReference (id : ι) (expr : SubstitutionExpression) (prefixLength : ℕ)
  | configConcatenation (id : ι) (pieces : List (Value ι))
  | configDelayedMerge (id : ι) (stack : List (Value ι))
  | configDelayedMergeObject (id : ι) (stack : List (Value ι))

abbrev Fields (ι : Type) := List (Bytes × Value ι)

namespace Value

variable {ι : Type}

-- `resolve_status() == RESOLVED`, with `ResolveStatusEnum::from_values`.
mutual

def resolved : Value ι → Bool
  | .configNull _ | .configBoolean _ _ | .configInt _ _ _ | .configInt64 _ _ _
  | .configDouble _ _ | .configString _ _ => true
  | .simpleConfigList _ value => resolvedAll value
  | .simpleConfigObject _ value _ => resolvedFields value
  | .configReference _ _ _ | .configConcatenation _ _ | .configDelayedMerge _ _
  | .configDelayedMergeObject _ _ => false

def resolvedAll : List (Value ι) → Bool
  | [] => true
  | v :: rest => v.resolved && resolvedAll rest

def resolvedFields : List (Bytes × Value ι) → Bool
  | [] => true
  | (_, v) :: rest => v.resolved && resolvedFields rest

end

-- `instanceof<AbstractConfigObject>`, which for a value is `instanceof<ConfigObject>`.
def isObject : Value ι → Bool
  | .simpleConfigObject _ _ _ | .configDelayedMergeObject _ _ => true
  | _ => false

-- `instanceof<Unmergeable>`
def isUnmergeable : Value ι → Bool
  | .configReference _ _ _ | .configConcatenation _ _ | .configDelayedMerge _ _
  | .configDelayedMergeObject _ _ => true
  | _ => false

-- `instanceof<ReplaceableMergeStack>`
def isDelayedMerge : Value ι → Bool
  | .configDelayedMerge _ _ | .configDelayedMergeObject _ _ => true
  | _ => false

-- A stack is never empty; the last of its values decides.
mutual

def ignoresFallbacks : Value ι → Bool
  | .simpleConfigObject _ _ ignores => ignores
  | .configReference _ _ _ | .configConcatenation _ _ => false
  | .configDelayedMerge _ stack | .configDelayedMergeObject _ stack => stackIgnoresFallbacks stack
  | .simpleConfigList _ value => resolvedAll value
  | _ => true

def stackIgnoresFallbacks : List (Value ι) → Bool
  | [] => false
  | [last] => last.ignoresFallbacks
  | _ :: v :: rest => stackIgnoresFallbacks (v :: rest)

end

end Value

-- `boost::lexical_cast<std::string>` of an integer.
def decimal (n : ℕ) : Bytes :=
  if n = 0 then [48] else ((Nat.digits 10 n).map fun d => UInt8.ofNat (48 + d)).reverse

def lexicalString (n : ℤ) : Bytes :=
  if n < 0 then 45 :: decimal n.natAbs else decimal n.natAbs

-- The number that a string of decimal digits names.
def digitsValue : Bytes → Option ℕ
  | [] => none
  | digits =>
      if digits.all fun b => 48 ≤ b && b ≤ 57 then
        some (digits.foldl (fun n b => 10 * n + (b.toNat - 48)) 0)
      else none

def signedValue : Bytes → Option ℤ
  | 45 :: digits => (digitsValue digits).map fun n : ℕ => -(n : ℤ)
  | 43 :: digits => (digitsValue digits).map fun n : ℕ => (n : ℤ)
  | digits => (digitsValue digits).map fun n : ℕ => (n : ℤ)

-- `boost::lexical_cast<int64_t>`: a sign, if any, and digits; `none` is bad_lexical_cast.
def lexicalInt64 (text : Bytes) : Option Int64 :=
  match signedValue text with
  | none => none
  | some n => if -2 ^ 63 ≤ n ∧ n < 2 ^ 63 then some (Int64.ofInt n) else none

-- What the library uses of floating point: the cast of a text to a double
-- (`none` is bad_lexical_cast, `some (some n)` a double that equals the int64 `n`),
-- and the text that a double is printed as, given the text it was read from.
structure Doubles where
  cast : Bytes → Option (Option Int64)
  print : Bytes → Bytes

-- `ConfigNumber::new_number`
def newNumber {ι : Type} (id : ι) (number : Int64) (originalText : Bytes) : Value ι :=
  if number ≤ Int32.maxValue.toInt64 ∧ Int32.minValue.toInt64 ≤ number then
    .configInt id number.toInt32 originalText
  else .configInt64 id number originalText

-- Lists and objects have no text.
def Value.transformToString {ι : Type} : Value ι → Bytes
  | .configNull _ => ascii "null"
  | .configBoolean _ value => ascii (if value then "true" else "false")
  | .configInt _ value originalText =>
      if originalText.isEmpty then lexicalString value.toInt else originalText
  | .configInt64 _ value originalText =>
      if originalText.isEmpty then lexicalString value.toInt else originalText
  | .configDouble _ originalText => originalText
  | .configString _ value => value
  | _ => []

end AsrServiceProxy.Config

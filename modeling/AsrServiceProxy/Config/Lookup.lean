import AsrServiceProxy.Config.PathText
import AsrServiceProxy.Config.Peek

-- The look-ups of a config by a path expression. A new value that a conversion
-- makes has the identity `newId`.
namespace AsrServiceProxy.Config

open CMemory

inductive ConfigValueType where
  | OBJECT | LIST | NUMBER | BOOLEAN | NONE | STRING
deriving DecidableEq, Repr

def ConfigValueType.name : ConfigValueType → Bytes
  | .OBJECT => ascii "OBJECT"
  | .LIST => ascii "LIST"
  | .NUMBER => ascii "NUMBER"
  | .BOOLEAN => ascii "BOOLEAN"
  | .NONE => ascii "NONE"
  | .STRING => ascii "STRING"

-- The exceptions of a look-up, with their messages after the description of the
-- origin; the last are those of the calls it makes.
inductive LookupException where
  | missing (message : Bytes)
  | null (message : Bytes)
  | wrongType (message : Bytes)
  | config (e : ConfigException)
deriving DecidableEq, Repr

-- The constructors of `ConfigExceptionMissing`, `ConfigExceptionNull` and
-- `ConfigExceptionWrongType`.
def LookupException.ofMissing (path : Bytes) : LookupException :=
  .missing (ascii "_no configuration setting found for key '" ++ path ++ ascii "'")

def LookupException.ofNull (path expected : Bytes) : LookupException :=
  if expected.isEmpty then .null (ascii "_configuration key '" ++ path ++ ascii "' is null")
  else .null (ascii "_configuration key '" ++ path ++ ascii "' is set to null but expected " ++
    expected)

def LookupException.ofWrongType (path expected actual : Bytes) : LookupException :=
  .wrongType (path ++ ascii " has type " ++ actual ++ ascii " rather than " ++ expected)

-- `value_type`
def Value.valueType {ι : Type} : Value ι → Except ConfigException ConfigValueType
  | .configNull _ => .ok .NONE
  | .configBoolean _ _ => .ok .BOOLEAN
  | .configInt _ _ _ | .configInt64 _ _ _ | .configDouble _ _ => .ok .NUMBER
  | .configString _ _ => .ok .STRING
  | .simpleConfigList _ _ => .ok .LIST
  | .simpleConfigObject _ _ _ | .configDelayedMergeObject _ _ => .ok .OBJECT
  | .configReference _ _ _ =>
      .error (.notResolved "need to Config#resolve(), see the API docs for Config#resolve()")
  | .configConcatenation _ _ =>
      .error (.notResolved "need to Config#resolve(), see the API docs for Config#resolve()")
  | .configDelayedMerge _ _ =>
      .error (.notResolved "called value_type() on value with unresolved substitutions")

-- `DefaultTransformer::transform` on a string.
def DefaultTransformer.transformString {ι : Type} (doubles : Doubles) (newId : ι)
    (value : Value ι) (s : Bytes) : ConfigValueType → Value ι
  | .NUMBER =>
      match lexicalInt64 s with
      | some v => .configInt64 newId v s
      | none => if (doubles.cast s).isSome then .configDouble newId s else value
  | .NONE => if s = ascii "null" then .configNull newId else value
  | .BOOLEAN =>
      if s = ascii "true" || s = ascii "yes" || s = ascii "on" then .configBoolean newId true
      else if s = ascii "false" || s = ascii "no" || s = ascii "off" then
        .configBoolean newId false
      else value
  -- a string is no list or object, and a string already
  | .LIST | .OBJECT | .STRING => value

def DefaultTransformer.transform {ι : Type} (doubles : Doubles) (newId : ι) (value : Value ι)
    (requested : ConfigValueType) : Except ConfigException (Value ι) := do
  let type ← value.valueType
  if type = .STRING then return transformString doubles newId value value.transformToString requested
  else if requested = .STRING && (type = .NUMBER || type = .BOOLEAN) then
    return .configString newId value.transformToString
  else return value

-- The keys that `sub_path(first_index, last_index)` appends. A round throws when
-- it has taken the last key of the path, needed or not.
def Path.takeKeys : ℕ → Option Path → Except ConfigException (List Bytes)
  | 0, _ => .ok []
  | _ + 1, none => .error (.undefinedBehaviour "null path")
  | n + 1, some path =>
      match path.remainder with
      | none => .error (.bugOrBroken "sub_path last_index out of range ")
      | some remainder => (takeKeys n (some remainder)).map (path.first :: ·)

def Path.subPathBetween (path : Path) (firstIndex lastIndex : ℕ) :
    Except ConfigException (Option Path) :=
  if lastIndex < firstIndex then .error (.bugOrBroken "bad call to sub_path")
  else (Path.takeKeys (lastIndex - firstIndex) (path.subPath firstIndex)).map PathBuilder.result

-- `original_path->render()`
def renderOriginal : Option Path → Except LookupException Bytes
  | some path => .ok path.render
  | none => .error (.config (.undefinedBehaviour "null path"))

def LookupException.improveNotResolved : LookupException → LookupException
  | .config e => .config (Config.improveNotResolved e)
  | e => e

section

variable (doubles : Doubles) (newId : ℕ)

def SimpleConfig.findKey (self : Value ℕ) (key : Bytes) (expected : ConfigValueType)
    (originalPath : Option Path) : Except LookupException (Value ℕ) := do
  -- `peek_assuming_resolved`
  match ← (attemptPeekWithPartialResolve key self).mapError fun e =>
      .config (improveNotResolved e) with
  | none => throw (.ofMissing (← renderOriginal originalPath))
  | some peeked =>
      let v ←
        if expected ≠ .NONE then
          (DefaultTransformer.transform doubles newId peeked expected).mapError .config
        else pure peeked
      let actual ← v.valueType.mapError .config
      if actual = .NONE then
        throw (.ofNull (← renderOriginal originalPath)
          (if expected ≠ .NONE then expected.name else []))
      else if expected ≠ .NONE && actual ≠ expected then
        throw (.ofWrongType (← renderOriginal originalPath) expected.name actual.name)
      else return v

def SimpleConfig.find (expected : ConfigValueType) (originalPath : Path) :
    Path → Value ℕ → Except LookupException (Value ℕ)
  | .newKey key, self =>
      (findKey doubles newId self key expected (some originalPath)).mapError
        LookupException.improveNotResolved
  | .cons key next, self =>
      (do
        let parent ← (originalPath.subPathBetween 0
          (originalPath.length - next.length)).mapError LookupException.config
        let o ← findKey doubles newId self key .OBJECT parent
        find expected originalPath next o).mapError LookupException.improveNotResolved

def SimpleConfig.findExpression (object : Value ℕ) (pathExpression : Bytes) (expected : ConfigValueType) :
    Except LookupException (Value ℕ) := do
  let path ← (parsePath doubles pathExpression).mapError .config
  find doubles newId expected path path object

def SimpleConfig.getValue (object : Value ℕ) (path : Bytes) : Except LookupException (Value ℕ) :=
  findExpression doubles newId object path .NONE

def SimpleConfig.hasPath (object : Value ℕ) (pathExpression : Bytes) : Except ConfigException Bool := do
  let path ← parsePath doubles pathExpression
  match ← (peekPath object path).mapError improveNotResolved with
  | none => return false
  | some peeked => return decide ((← peeked.valueType) ≠ .NONE)

end

end AsrServiceProxy.Config

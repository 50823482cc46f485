import AsrServiceProxy.Config.Lookup
import AsrServiceProxy.Utils.StringUtil.Cleaning

-- `check_valid`, which compares a config with a reference config.
namespace AsrServiceProxy.Config

open CMemory

-- A problem, without the origin of the setting.
structure ValidationProblem where
  path : Bytes
  problem : Bytes
deriving DecidableEq, Repr

-- The exceptions of `check_valid`; the message of the first lists its problems.
inductive ValidityException where
  | validationFailed (problems : List ValidationProblem)
  | config (e : ConfigException)
deriving DecidableEq, Repr

-- What any access to the fields of an unresolved merge of objects throws.
def fieldsNotResolved : ConfigException :=
  .notResolved
    "need to Config#resolve() before using this object, see the API docs for Config::resolve()"

section

variable {ι : Type} (doubles : Doubles) (newId : ι)

-- `instanceof<SimpleConfigList>` and `instanceof<ConfigString>`
def Value.isList : Value ι → Bool
  | .simpleConfigList _ _ => true
  | _ => false

def Value.isString : Value ι → Bool
  | .configString _ _ => true
  | _ => false

def SimpleConfig.addProblem (path : Path) (problem : Bytes) : List ValidationProblem :=
  [{ path := path.render, problem := problem }]

-- A comma stands before a key once there is some text.
def keySet (keys : List Bytes) : Bytes :=
  keys.foldl (fun set key => (if set.isEmpty then set else set ++ ascii ", ") ++ key) []

def SimpleConfig.getDesc : Value ι → Except ConfigException Bytes
  | .simpleConfigObject _ fields _ =>
      if fields.isEmpty then .ok (ascii "object")
      else .ok (ascii "object with keys " ++ keySet (fields.map Prod.fst))
  | .configDelayedMergeObject _ _ => .error fieldsNotResolved
  | .simpleConfigList _ _ => .ok (ascii "list")
  | refValue => refValue.valueType.map fun type => StringUtil.toLower type.name

def SimpleConfig.addMissing (refValue : Value ι) (path : Path) :
    Except ConfigException (List ValidationProblem) := do
  return addProblem path (ascii "_no setting at '" ++ path.render ++ ascii "', expecting: " ++
    (← getDesc refValue))

def SimpleConfig.addWrongType (refValue actual : Value ι) (path : Path) :
    Except ConfigException (List ValidationProblem) := do
  return addProblem path (ascii "_wrong value type at '" ++ path.render ++
    ascii "', expecting: " ++ (← getDesc refValue) ++ ascii " but got: " ++ (← getDesc actual))

def SimpleConfig.couldBeNull (v : Value ι) : Except ConfigException Bool := do
  let transformed ← DefaultTransformer.transform doubles newId v .NONE
  return decide ((← transformed.valueType) = .NONE)

def SimpleConfig.haveCompatibleTypes (reference value : Value ι) : Except ConfigException Bool := do
  if ← couldBeNull doubles newId reference then return true
  else if ← couldBeNull doubles newId value then return true
  else if reference.isObject then return value.isObject
  else if reference.isList then return value.isList
  else if reference.isString then return true
  else if value.isString then return true
  else return decide ((← reference.valueType) = (← value.valueType))

-- The elements of a list, each against the first one of the reference. The first
-- problem ends the loop.
def SimpleConfig.checkElements (path : Path) (refElement : Value ι) :
    List (Value ι) → Except ConfigException (List ValidationProblem)
  | [] => .ok []
  | e :: rest => do
      if ← haveCompatibleTypes doubles newId refElement e then checkElements path refElement rest
      else
        return addProblem path (ascii "_list at '" ++ path.render ++
          ascii "' contains wrong value type, expecting list of " ++ (← getDesc refElement) ++
          ascii " but got element of type " ++ (← getDesc e))

def SimpleConfig.childPath (path : Option Path) (key : Bytes) : Path :=
  match path with
  | some path => (Path.newKey key).prepend path
  | none => .newKey key

-- `value->find(key)` for an object
def findField (key : Bytes) : Value ι → Except ConfigException (Option (Value ι))
  | .simpleConfigObject _ fields _ => .ok (fields.lookup key)
  | .configDelayedMergeObject _ _ => .error fieldsNotResolved
  | _ => .error (.undefinedBehaviour "null pointer")

-- The problems that are added to the accumulator.
mutual

def SimpleConfig.checkFields (path : Option Path) :
    Fields ι → Value ι → Except ConfigException (List ValidationProblem)
  | [], _ => .ok []
  | (key, reference) :: rest, value => do
      let found ← match ← findField key value with
        | none => addMissing reference (childPath path key)
        | some v => checkValue (childPath path key) reference v
      return found ++ (← checkFields path rest value)

-- `check_valid` at a path
def SimpleConfig.checkValue (path : Path) (reference value : Value ι) :
    Except ConfigException (List ValidationProblem) := do
  if ← haveCompatibleTypes doubles newId reference value then
    match reference with
    | .simpleConfigObject _ fields _ =>
        if value.isObject then checkFields (some path) fields value else return []
    | .configDelayedMergeObject _ _ =>
        if value.isObject then throw fieldsNotResolved else return []
    | .simpleConfigList _ refElements =>
        match refElements, value with
        | refElement :: _, .simpleConfigList _ elements =>
            checkElements doubles newId path refElement elements
        | _, _ => return []
    | _ => return []
  else addWrongType reference value path

end

-- `check_valid_object`
def SimpleConfig.checkValidObject (path : Option Path) :
    Value ι → Value ι → Except ConfigException (List ValidationProblem)
  | .simpleConfigObject _ fields _, value => checkFields doubles newId path fields value
  | .configDelayedMergeObject _ _, _ => .error fieldsNotResolved
  | _, _ => .error (.undefinedBehaviour "null pointer")

end

section

variable (doubles : Doubles) (newId : ℕ)

def SimpleConfig.checkPaths (self reference : Value ℕ) :
    List Bytes → Except ConfigException (List ValidationProblem)
  | [] => .ok []
  | p :: rest => do
      let path ← parsePath doubles p
      let found ← match ← peekPath reference path with
        | none => pure []
        | some refValue =>
            match ← peekPath self path with
            | some child => checkValue doubles newId path refValue child
            | none => addMissing refValue path
      return found ++ (← checkPaths self reference rest)

-- The two roots are the values of the configs.
def SimpleConfig.checkValid (self reference : Value ℕ) (restrictToPaths : List Bytes) :
    Except ValidityException Unit := do
  if ¬reference.resolved then
    throw (.config (.bugOrBroken ("do not call check_valid() with an unresolved reference config, " ++
      "call Config#resolve(), see Config#resolve() API docs")))
  else if ¬self.resolved then
    throw (.config (.notResolved ("need to Config#resolve() each config before using it, " ++
      "see the API docs for Config#resolve()")))
  else
    let problems ←
      (if restrictToPaths.isEmpty then checkValidObject doubles newId none reference self
      else checkPaths doubles newId self reference restrictToPaths).mapError .config
    if problems.isEmpty then return ()
    else throw (.validationFailed problems)

end

end AsrServiceProxy.Config

import AsrServiceProxy.Config.Parser

-- The operations that make a new value out of others, each with the constructors
-- that it calls. Origins are left out, except that `with_origin` looks at one.
namespace AsrServiceProxy.Config

open CMemory

-- The key of a reference below the path of an including file.
def SubstitutionExpression.below (path : Path) (expr : SubstitutionExpression) :
    SubstitutionExpression :=
  { expr with path := expr.path.prepend path }

-- `relativized` with the checks of the constructors; `none` is `this`.
mutual

def makeRelativized (path : Path) : Value Unit → Make Unit (Option (Value Unit))
  | .configReference _ expr prefixLength => do
      return some (.configReference (← Objects.plain.new) (expr.below path)
        (prefixLength + path.length))
  | .simpleConfigList _ value => do
      let (elements, changed) ← makeRelativizedAll path value
      -- the new list is given the status of the old one
      if changed then return some (← makeList .plain elements (Value.resolvedAll value))
      else return none
  | .simpleConfigObject _ value ignores => do
      let (fields, changed) ← makeRelativizedFields path value
      if changed then
        return some (← makeObject .plain fields (Value.resolvedFields fields) ignores)
      else return none
  | .configConcatenation _ pieces => do
      let (newPieces, _) ← makeRelativizedAll path pieces
      return some (← makeConcatenation .plain newPieces)
  | .configDelayedMerge _ stack => do
      let (newStack, _) ← makeRelativizedAll path stack
      return some (← makeDelayedMerge .plain newStack)
  | .configDelayedMergeObject _ stack => do
      let (newStack, _) ← makeRelativizedAll path stack
      return some (← makeDelayedMergeObject .plain newStack)
  | _ => return none

def makeRelativizedAll (path : Path) : List (Value Unit) → Make Unit (List (Value Unit) × Bool)
  | [] => return ([], false)
  | v :: rest => do
      let modified ← makeRelativized path v
      let (elements, changed) ← makeRelativizedAll path rest
      return (modified.getD v :: elements, modified.isSome || changed)

def makeRelativizedFields (path : Path) :
    List (Bytes × Value Unit) → Make Unit (Fields Unit × Bool)
  | [] => return ([], false)
  | (key, v) :: rest => do
      let modified ← makeRelativized path v
      let (fields, changed) ← makeRelativizedFields path rest
      return ((key, modified.getD v) :: fields, modified.isSome || changed)

end

-- `new_copy(origin)`
def newCopy : Value Unit → Make Unit (Value Unit)
  | .simpleConfigList _ value => makeList .plain value (Value.resolvedAll value)
  | .simpleConfigObject _ value ignores =>
      makeObject .plain value (Value.resolvedFields value) ignores
  | .configConcatenation _ pieces => makeConcatenation .plain pieces
  | .configDelayedMerge _ stack => makeDelayedMerge .plain stack
  | .configDelayedMergeObject _ stack => makeDelayedMergeObject .plain stack
  | v => return v

-- `sameOrigin` is whether the value has this origin already.
def withOrigin (sameOrigin : Bool) (self : Value Unit) : Make Unit (Value Unit) :=
  if sameOrigin then return self else newCopy self

-- `ConfigDelayedMergeObject::not_resolved`
def notResolved : ConfigException := .notResolved "need to Config#resolve() before using this object"

-- A new object with these fields.
def fromFields (value : Fields Unit) (ignores : Bool) : Make Unit (Value Unit) :=
  makeObject .plain value (Value.resolvedFields value) ignores

-- `at_path` from the last key of the path outwards.
def atPath (self : Value Unit) : Path → Make Unit (Value Unit)
  | .newKey key => fromFields [(key, self)] false
  | .cons key next => do
      fromFields [(key, ← atPath self next)] false

-- The next three are methods of objects: only these are asked.
def withValue (v : Value Unit) : Path → Value Unit → Make Unit (Value Unit)
  | .newKey key, .simpleConfigObject _ value ignores => fromFields (putField value key v) ignores
  | .cons key next, .simpleConfigObject _ value ignores => do
      match value.lookup key with
      | some child =>
          if child.isObject then
            fromFields (putField value key (← withValue v next child)) ignores
          else fromFields (putField value key (← atPath v next)) ignores
      | none => fromFields (putField value key (← atPath v next)) ignores
  | _, .configDelayedMergeObject _ _ => throw notResolved
  | _, _ => throw (.undefinedBehaviour "not an object")

def withoutPath : Path → Value Unit → Make Unit (Value Unit)
  | .newKey key, .simpleConfigObject id value ignores =>
      if (value.lookup key).isNone then return .simpleConfigObject id value ignores
      else fromFields (value.filter fun old => old.1 ≠ key) ignores
  | .cons key next, .simpleConfigObject id value ignores => do
      match value.lookup key with
      | some child =>
          if child.isObject then
            fromFields (putField value key (← withoutPath next child)) ignores
          else return .simpleConfigObject id value ignores
      | none => return .simpleConfigObject id value ignores
  | _, .configDelayedMergeObject _ _ => throw notResolved
  | _, _ => throw (.undefinedBehaviour "not an object")

-- The status of the new object is that of its one value.
def withOnlyPathOrNull : Path → Value Unit → Make Unit (Option (Value Unit))
  | .newKey key, .simpleConfigObject _ value ignores => do
      match value.lookup key with
      | some child => return some (← makeObject .plain [(key, child)] child.resolved ignores)
      | none => return none
  | .cons key next, .simpleConfigObject _ value ignores => do
      match value.lookup key with
      | some child =>
          if child.isObject then
            match ← withOnlyPathOrNull next child with
            | some v => return some (← makeObject .plain [(key, v)] v.resolved ignores)
            | none => return none
          else return none
      | none => return none
  | _, .configDelayedMergeObject _ _ => throw notResolved
  | _, _ => throw (.undefinedBehaviour "not an object")

def withOnlyPath (path : Path) (self : Value Unit) : Make Unit (Value Unit) := do
  match ← withOnlyPathOrNull path self with
  | some v => return v
  | none => makeObject .plain [] true self.ignoresFallbacks

end AsrServiceProxy.Config

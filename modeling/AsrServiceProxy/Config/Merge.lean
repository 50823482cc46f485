import AsrServiceProxy.Config.Value

-- Fallbacks and concatenation: how values of one key are put together.
namespace AsrServiceProxy.Config

open CMemory

-- Where the identities of new objects come from.
structure Objects (ι σ : Type) where
  next : σ → ι × σ

-- The contents of values alone, as the parser builds them.
def Objects.plain : Objects Unit Unit where
  next _ := ((), ())

-- Objects that are numbered as they are made.
def Objects.numbered : Objects ℕ ℕ where
  next n := (n, n + 1)

abbrev Make (σ : Type) := EStateM ConfigException σ

variable {ι σ : Type} (objects : Objects ι σ)

def Objects.new : Make σ ι := fun s => .ok (objects.next s).1 (objects.next s).2

-- The constructor of `SimpleConfigObject`, which checks the status it is given.
def makeObject (value : Fields ι) (resolved ignoresFallbacks : Bool) : Make σ (Value ι) := do
  if resolved ≠ Value.resolvedFields value then
    throw (.bugOrBroken "SimpleConfigObject created with wrong resolve status")
  return .simpleConfigObject (← objects.new) value ignoresFallbacks

def makeList (value : List (Value ι)) (resolved : Bool) : Make σ (Value ι) := do
  if resolved ≠ Value.resolvedAll value then
    throw (.bugOrBroken "SimpleConfigList created with wrong resolve status")
  return .simpleConfigList (← objects.new) value

def makeDelayedMerge (stack : List (Value ι)) : Make σ (Value ι) := do
  if stack.isEmpty then
    throw (.bugOrBroken "creating empty delayed merge value")
  if stack.any Value.isDelayedMerge then
    throw (.bugOrBroken "placed nested _delayed_merge in a ConfigDelayedMerge")
  return .configDelayedMerge (← objects.new) stack

def makeDelayedMergeObject (stack : List (Value ι)) : Make σ (Value ι) := do
  if stack.isEmpty then
    throw (.bugOrBroken "creating empty delayed merge object")
  if ¬stack.head?.any Value.isObject then
    throw (.bugOrBroken "created a delayed merge object not guaranteed to be an object")
  if stack.any Value.isDelayedMerge then
    throw (.bugOrBroken "placed nested _delayed_merge in a ConfigDelayedMergeObject")
  return .configDelayedMergeObject (← objects.new) stack

def Value.isConcatenation : Value ι → Bool
  | .configConcatenation _ _ => true
  | _ => false

def makeConcatenation (pieces : List (Value ι)) : Make σ (Value ι) := do
  if pieces.length < 2 then
    throw (.bugOrBroken "_created concatenation with less than 2 items: ")
  if pieces.any Value.isConcatenation then
    throw (.bugOrBroken "ConfigConcatenation should never be nested: ")
  if ¬pieces.any Value.isUnmergeable then
    throw (.bugOrBroken "_created concatenation without an unmergeable in it: ")
  return .configConcatenation (← objects.new) pieces

-- What a value puts on a merge stack; for an unmergeable value this is `unmerged_values`.
def Value.unmergedValues : Value ι → List (Value ι)
  | .configDelayedMerge _ stack | .configDelayedMergeObject _ stack => stack
  | v => [v]

def constructDelayedMerge (isObject : Bool) (stack : List (Value ι)) : Make σ (Value ι) :=
  if isObject then makeDelayedMergeObject objects stack else makeDelayedMerge objects stack

-- In the functions below `none` is `this` and `some` a new object. The calls of
-- `require_not_ignoring_fallbacks` are left out: `with_fallback` has returned before.
def withFallbacksIgnored : Value ι → Make σ (Option (Value ι))
  | .simpleConfigObject _ value ignores =>
      if ignores then return none
      else do return some (← makeObject objects value (Value.resolvedFields value) true)
  | v =>
      if v.ignoresFallbacks then return none
      else throw (.bugOrBroken "_value class doesn't implement forced fallback-ignoring ")

def mergedWithTheUnmergeable (self fallback : Value ι) : Make σ (Option (Value ι)) := do
  return some (← constructDelayedMerge objects self.isObject
    (self.unmergedValues ++ fallback.unmergedValues))

def mergedWithNonObject (self fallback : Value ι) : Make σ (Option (Value ι)) :=
  if self.resolved then withFallbacksIgnored objects self
  else do
    return some (← constructDelayedMerge objects self.isObject (self.unmergedValues ++ [fallback]))

-- The end of `SimpleConfigObject::merged_with_object`: `merged` has the fields
-- that the object had, and `added` those that only the fallback has.
def finishMerge (value : Fields ι) (ignores : Bool) (merged : Fields ι) (changed : Bool)
    (added : Fields ι) (newIgnores : Bool) : Make σ (Option (Value ι)) := do
  let allResolved := Value.resolvedFields (merged ++ added)
  if changed || ¬added.isEmpty then
    return some (← makeObject objects (merged ++ added) allResolved newIgnores)
  else if allResolved ≠ Value.resolvedFields value || newIgnores ≠ ignores then
    return some (← makeObject objects value allResolved newIgnores)
  else
    return none

-- The fields of the fallback that an object does not have.
def addedFields (value fallback : Fields ι) : Fields ι :=
  fallback.filter fun field => (value.lookup field.1).isNone

mutual

-- `with_fallback`
def mergeFallback : Value ι → Value ι → Make σ (Option (Value ι))
  | .simpleConfigObject id value ignores, fallback =>
      if ignores then return none
      else if fallback.isUnmergeable then
        mergedWithTheUnmergeable objects (.simpleConfigObject id value ignores) fallback
      else
        match fallback with
        | .simpleConfigObject _ fallbackValue newIgnores => do
            let (merged, changed) ← mergeFields value fallbackValue
            finishMerge objects value ignores merged changed (addedFields value fallbackValue)
              newIgnores
        | fallback => mergedWithNonObject objects (.simpleConfigObject id value ignores) fallback
  | self, fallback =>
      if self.ignoresFallbacks then return none
      else if fallback.isUnmergeable then mergedWithTheUnmergeable objects self fallback
      else mergedWithNonObject objects self fallback

-- The fields of the object, each with its fallback, and whether one of them changed.
def mergeFields : List (Bytes × Value ι) → Fields ι → Make σ (Fields ι × Bool)
  | [], _ => return ([], false)
  | (key, first) :: rest, fallback => do
      let kept ← match fallback.lookup key with
        | none => pure none
        | some second => mergeFallback first second
      let (merged, changed) ← mergeFields rest fallback
      return ((key, kept.getD first) :: merged, kept.isSome || changed)

end

def withFallback (self fallback : Value ι) : Make σ (Value ι) := do
  return (← mergeFallback objects self fallback).getD self

-- `ConfigConcatenation::join` on the last value so far: the values that take its place.
def join (left right : Value ι) : Make σ (List (Value ι)) :=
  if left.isObject && right.isObject then do
    return [← withFallback objects right left]
  else
    match left, right with
    | .simpleConfigList _ first, .simpleConfigList _ second => do
        return [← makeList objects (first ++ second) (Value.resolvedAll (first ++ second))]
    | left, right =>
        if left.isConcatenation || right.isConcatenation then
          throw (.bugOrBroken "unflattened ConfigConcatenation")
        else if left.isUnmergeable || right.isUnmergeable then
          return [left, right]
        else if left.transformToString.isEmpty || right.transformToString.isEmpty then
          throw (.wrongType "_cannot concatenate object or list with a non-object-or-list, ")
        else do
          return [.configString (← objects.new) (left.transformToString ++ right.transformToString)]

-- The loop of `consolidate` with the values so far.
def joinAll : List (Value ι) → List (Value ι) → Make σ (List (Value ι))
  | consolidated, [] => return consolidated
  | consolidated, v :: rest => do
      match consolidated.getLast? with
      | none => joinAll [v] rest
      | some left => joinAll (consolidated.dropLast ++ (← join objects left v)) rest

def flattenPieces (pieces : List (Value ι)) : List (Value ι) :=
  pieces.flatMap fun v =>
    match v with
    | .configConcatenation _ pieces => pieces
    | v => [v]

def consolidate (pieces : List (Value ι)) : Make σ (List (Value ι)) :=
  if pieces.length < 2 then return pieces else joinAll objects [] (flattenPieces pieces)

-- A null result is `none`.
def concatenate (pieces : List (Value ι)) : Make σ (Option (Value ι)) := do
  match ← consolidate objects pieces with
  | [] => return none
  | [v] => return some v
  | consolidated => return some (← makeConcatenation objects consolidated)

end AsrServiceProxy.Config

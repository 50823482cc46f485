import AsrServiceProxy.Config.FromMap

-- The plain data that values stand for.
namespace AsrServiceProxy.Config

open CMemory

variable {ι : Type}

-- The order in which a hash map of variants is walked is left open.
structure EntryWalk where
  order : List (Bytes × ConfigVariant) → List (Bytes × ConfigVariant)
  perm : ∀ entries, (order entries).Perm entries

-- `unwrapped`
mutual

def Value.unwrapped (walk : EntryWalk) : Value ι → Except ConfigException ConfigVariant
  | .configNull _ => .ok .null
  | .configBoolean _ value => .ok (.bool value)
  | .configInt _ value _ => .ok (.int32 value)
  | .configInt64 _ value _ => .ok (.int64 value)
  | .configDouble _ originalText => .ok (.double originalText)
  | .configString _ value => .ok (.string value)
  | .simpleConfigList _ value => do return .vector (← unwrappedAll walk value)
  | .simpleConfigObject _ value _ => do
      return .map (walk.order (← unwrappedFields walk value))
  | .configReference _ _ _ | .configConcatenation _ _ =>
      .error (.notResolved "need to Config#resolve(), see the API docs for Config#resolve()")
  | .configDelayedMerge _ _ =>
      .error (.notResolved "called unwrapped() on value with unresolved substitutions")
  | .configDelayedMergeObject _ _ =>
      .error (.notResolved "need to Config#resolve() before using this object")

def unwrappedAll (walk : EntryWalk) : List (Value ι) → Except ConfigException (List ConfigVariant)
  | [] => .ok []
  | v :: rest => do
      let element ← v.unwrapped walk
      return element :: (← unwrappedAll walk rest)

def unwrappedFields (walk : EntryWalk) :
    List (Bytes × Value ι) → Except ConfigException (List (Bytes × ConfigVariant))
  | [] => .ok []
  | (key, v) :: rest => do
      let entry ← v.unwrapped walk
      return (key, entry) :: (← unwrappedFields walk rest)

end

-- What a resolved value is unwrapped to; unresolved values and pointers do not occur.
mutual

def Value.plain (walk : EntryWalk) : Value ι → ConfigVariant
  | .configBoolean _ value => .bool value
  | .configInt _ value _ => .int32 value
  | .configInt64 _ value _ => .int64 value
  | .configDouble _ originalText => .double originalText
  | .configString _ value => .string value
  | .simpleConfigList _ value => .vector (plainAll walk value)
  | .simpleConfigObject _ value _ => .map (walk.order (plainFields walk value))
  | _ => .null

def plainAll (walk : EntryWalk) : List (Value ι) → List ConfigVariant
  | [] => []
  | v :: rest => v.plain walk :: plainAll walk rest

def plainFields (walk : EntryWalk) : List (Bytes × Value ι) → List (Bytes × ConfigVariant)
  | [] => []
  | (key, v) :: rest => (key, v.plain walk) :: plainFields walk rest

end

mutual

theorem Value.unwrapped_of_resolved (walk : EntryWalk) : ∀ v : Value ι, v.resolved →
    v.unwrapped walk = .ok (v.plain walk)
  | .configNull _, _ | .configBoolean _ _, _ | .configInt _ _ _, _ | .configInt64 _ _ _, _
  | .configDouble _ _, _ | .configString _ _, _ => rfl
  | .simpleConfigList _ value, h => by
      rw [Value.unwrapped, unwrappedAll_of_resolved walk value h, Value.plain]
      rfl
  | .simpleConfigObject _ value _, h => by
      rw [Value.unwrapped, unwrappedFields_of_resolved walk value h, Value.plain]
      rfl
  | .configReference _ _ _, h | .configConcatenation _ _, h | .configDelayedMerge _ _, h
  | .configDelayedMergeObject _ _, h => by cases h

theorem unwrappedAll_of_resolved (walk : EntryWalk) : ∀ vs : List (Value ι),
    Value.resolvedAll vs → unwrappedAll walk vs = .ok (plainAll walk vs)
  | [], _ => rfl
  | v :: rest, h => by
      rw [Value.resolvedAll, Bool.and_eq_true] at h
      rw [unwrappedAll, v.unwrapped_of_resolved walk h.1, unwrappedAll_of_resolved walk rest h.2]
      rfl

theorem unwrappedFields_of_resolved (walk : EntryWalk) : ∀ fields : List (Bytes × Value ι),
    Value.resolvedFields fields → unwrappedFields walk fields = .ok (plainFields walk fields)
  | [], _ => rfl
  | (key, v) :: rest, h => by
      rw [Value.resolvedFields, Bool.and_eq_true] at h
      rw [unwrappedFields, v.unwrapped_of_resolved walk h.1,
        unwrappedFields_of_resolved walk rest h.2]
      rfl

end

end AsrServiceProxy.Config

import AsrServiceProxy.Config.Resolve.Weight
import AsrServiceProxy.Lib.Entries

-- The contents of values: what is left of a value without the identities of its objects.
namespace AsrServiceProxy.Config

open CMemory

variable {ι : Type}

mutual

def Value.contents : Value ι → Value Unit
  | .configNull _ => .configNull ()
  | .configBoolean _ value => .configBoolean () value
  | .configInt _ value originalText => .configInt () value originalText
  | .configInt64 _ value originalText => .configInt64 () value originalText
  | .configDouble _ originalText => .configDouble () originalText
  | .configString _ value => .configString () value
  | .simpleConfigList _ value => .simpleConfigList () (contentsAll value)
  | .simpleConfigObject _ value ignores => .simpleConfigObject () (contentsFields value) ignores
  | .configReference _ expr prefixLength => .configReference () expr prefixLength
  | .configConcatenation _ pieces => .configConcatenation () (contentsAll pieces)
  | .configDelayedMerge _ stack => .configDelayedMerge () (contentsAll stack)
  | .configDelayedMergeObject _ stack => .configDelayedMergeObject () (contentsAll stack)

def contentsAll : List (Value ι) → List (Value Unit)
  | [] => []
  | v :: rest => v.contents :: contentsAll rest

def contentsFields : List (Bytes × Value ι) → List (Bytes × Value Unit)
  | [] => []
  | (key, v) :: rest => (key, v.contents) :: contentsFields rest

end

theorem contentsAll_eq (vs : List (Value ι)) : contentsAll vs = vs.map Value.contents := by
  induction vs with
  | nil => rfl
  | cons v rest ih => rw [contentsAll, ih, List.map_cons]

theorem contentsFields_eq (fields : Fields ι) :
    contentsFields fields = fields.map fun field => (field.1, field.2.contents) := by
  induction fields with
  | nil => rfl
  | cons field rest ih => rw [contentsFields, ih, List.map_cons]

-- A value that was made without identities is its own contents.
mutual

theorem Value.contents_eq_self : ∀ v : Value Unit, v.contents = v
  | .configNull _ | .configBoolean _ _ | .configInt _ _ _ | .configInt64 _ _ _
  | .configDouble _ _ | .configString _ _ | .configReference _ _ _ => rfl
  | .simpleConfigList _ value => congrArg (Value.simpleConfigList ()) (contentsAll_eq_self value)
  | .simpleConfigObject _ value ignores =>
      congrArg (Value.simpleConfigObject () · ignores) (contentsFields_eq_self value)
  | .configConcatenation _ pieces =>
      congrArg (Value.configConcatenation ()) (contentsAll_eq_self pieces)
  | .configDelayedMerge _ stack =>
      congrArg (Value.configDelayedMerge ()) (contentsAll_eq_self stack)
  | .configDelayedMergeObject _ stack =>
      congrArg (Value.configDelayedMergeObject ()) (contentsAll_eq_self stack)

theorem contentsAll_eq_self : ∀ vs : List (Value Unit), contentsAll vs = vs
  | [] => rfl
  | v :: rest => congrArg₂ List.cons (Value.contents_eq_self v) (contentsAll_eq_self rest)

theorem contentsFields_eq_self : ∀ fields : List (Bytes × Value Unit), contentsFields fields = fields
  | [] => rfl
  | (key, v) :: rest =>
      congrArg₂ List.cons (congrArg (Prod.mk key) (Value.contents_eq_self v))
        (contentsFields_eq_self rest)

end

@[simp] theorem Value.isObject_contents (v : Value ι) : v.contents.isObject = v.isObject := by
  cases v <;> rfl

@[simp] theorem Value.isUnmergeable_contents (v : Value ι) :
    v.contents.isUnmergeable = v.isUnmergeable := by
  cases v <;> rfl

@[simp] theorem Value.isDelayedMerge_contents (v : Value ι) :
    v.contents.isDelayedMerge = v.isDelayedMerge := by
  cases v <;> rfl

@[simp] theorem Value.isConcatenation_contents (v : Value ι) :
    v.contents.isConcatenation = v.isConcatenation := by
  cases v <;> rfl

@[simp] theorem Value.isSimpleObject_contents (v : Value ι) :
    v.contents.isSimpleObject = v.isSimpleObject := by
  cases v <;> rfl

@[simp] theorem Value.transformToString_contents (v : Value ι) :
    v.contents.transformToString = v.transformToString := by
  cases v <;> rfl

theorem Value.unmergedValues_contents (v : Value ι) :
    v.contents.unmergedValues = contentsAll v.unmergedValues := by
  cases v <;> rfl

mutual

theorem Value.resolved_contents : ∀ v : Value ι, v.contents.resolved = v.resolved
  | .configNull _ | .configBoolean _ _ | .configInt _ _ _ | .configInt64 _ _ _
  | .configDouble _ _ | .configString _ _ | .configReference _ _ _ | .configConcatenation _ _
  | .configDelayedMerge _ _ | .configDelayedMergeObject _ _ => rfl
  | .simpleConfigList _ value => resolvedAll_contents value
  | .simpleConfigObject _ value _ => resolvedFields_contents value

theorem resolvedAll_contents : ∀ vs : List (Value ι),
    Value.resolvedAll (contentsAll vs) = Value.resolvedAll vs
  | [] => rfl
  | v :: rest => congrArg₂ and (Value.resolved_contents v) (resolvedAll_contents rest)

theorem resolvedFields_contents : ∀ fields : List (Bytes × Value ι),
    Value.resolvedFields (contentsFields fields) = Value.resolvedFields fields
  | [] => rfl
  | (_, v) :: rest => congrArg₂ and (Value.resolved_contents v) (resolvedFields_contents rest)

end

mutual

theorem Value.ignoresFallbacks_contents : ∀ v : Value ι,
    v.contents.ignoresFallbacks = v.ignoresFallbacks
  | .configNull _ | .configBoolean _ _ | .configInt _ _ _ | .configInt64 _ _ _
  | .configDouble _ _ | .configString _ _ | .configReference _ _ _ | .configConcatenation _ _
  | .simpleConfigObject _ _ _ => rfl
  | .simpleConfigList _ value => resolvedAll_contents value
  | .configDelayedMerge _ stack => stackIgnoresFallbacks_contents stack
  | .configDelayedMergeObject _ stack => stackIgnoresFallbacks_contents stack

theorem stackIgnoresFallbacks_contents : ∀ stack : List (Value ι),
    Value.stackIgnoresFallbacks (contentsAll stack) = Value.stackIgnoresFallbacks stack
  | [] => rfl
  | [last] => Value.ignoresFallbacks_contents last
  | _ :: v :: rest => stackIgnoresFallbacks_contents (v :: rest)

end

attribute [simp] Value.resolved_contents resolvedAll_contents resolvedFields_contents
  Value.ignoresFallbacks_contents stackIgnoresFallbacks_contents

theorem contentsAll_append (vs ws : List (Value ι)) :
    contentsAll (vs ++ ws) = contentsAll vs ++ contentsAll ws := by
  simp [contentsAll_eq]

theorem contentsFields_append (fields more : Fields ι) :
    contentsFields (fields ++ more) = contentsFields fields ++ contentsFields more := by
  simp [contentsFields_eq]

theorem lookup_contentsFields (key : Bytes) (fields : Fields ι) :
    (contentsFields fields).lookup key = (fields.lookup key).map Value.contents := by
  rw [contentsFields_eq]
  exact Entries.lookup_map Value.contents fields key

theorem addedFields_contents (value fallback : Fields ι) :
    addedFields (contentsFields value) (contentsFields fallback) =
      contentsFields (addedFields value fallback) := by
  rw [addedFields, addedFields, contentsFields_eq fallback, List.filter_map,
    contentsFields_eq (fallback.filter _)]
  congr 1
  apply List.filter_congr
  intro field _
  simp [Function.comp_apply, lookup_contentsFields]

theorem resolvedFields_iff {fields : Fields ι} :
    Value.resolvedFields fields = true ↔ ∀ field ∈ fields, field.2.resolved = true := by
  induction fields with
  | nil => simp [Value.resolvedFields]
  | cons field rest ih => simp [Value.resolvedFields, ih]

theorem resolvedAll_iff {vs : List (Value ι)} :
    Value.resolvedAll vs = true ↔ ∀ v ∈ vs, v.resolved = true := by
  induction vs with
  | nil => simp [Value.resolvedAll]
  | cons v rest ih => simp [Value.resolvedAll, ih]

theorem resolved_of_lookup {fields : Fields ι} {key : Bytes} {v : Value ι}
    (h : Value.resolvedFields fields = true) (hv : fields.lookup key = some v) :
    v.resolved = true :=
  resolvedFields_iff.mp h (key, v) (Entries.mem_of_lookup hv)

end AsrServiceProxy.Config

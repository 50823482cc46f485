import AsrServiceProxy.Config.Resolve
import AsrServiceProxy.Lib.Runs

-- What falling back and concatenating keep: the checks that values pass, the
-- references they have, and a bound on how large they get.
namespace AsrServiceProxy.Config

open CMemory Simulation

variable {ι : Type}

def Value.isSimpleObject : Value ι → Bool
  | .simpleConfigObject _ _ _ => true
  | _ => false

def Value.isReference : Value ι → Bool
  | .configReference _ _ _ => true
  | _ => false

-- The fields of an object are those of a map, a reference keeps a key of its path
-- when the path of an including file is taken off, and a delayed merge object has
-- passed the check of its constructor.
def Value.Checked : Value ι → Prop
  | .simpleConfigObject _ value _ => (value.map Prod.fst).Nodup
  | .configReference _ expr prefixLength => prefixLength < expr.path.length
  | .configDelayedMergeObject _ stack =>
      stack.head?.any Value.isObject ∧ stack.any Value.isDelayedMerge = false
  | _ => True

-- A value and all the values inside it.
mutual

def Value.Forall (p : Value ι → Prop) : Value ι → Prop
  | .simpleConfigList id value => p (.simpleConfigList id value) ∧ ForallAll p value
  | .simpleConfigObject id value ignores =>
      p (.simpleConfigObject id value ignores) ∧ ForallFields p value
  | .configConcatenation id pieces => p (.configConcatenation id pieces) ∧ ForallAll p pieces
  | .configDelayedMerge id stack => p (.configDelayedMerge id stack) ∧ ForallAll p stack
  | .configDelayedMergeObject id stack =>
      p (.configDelayedMergeObject id stack) ∧ ForallAll p stack
  | v => p v

def ForallAll (p : Value ι → Prop) : List (Value ι) → Prop
  | [] => True
  | v :: rest => v.Forall p ∧ ForallAll p rest

def ForallFields (p : Value ι → Prop) : List (Bytes × Value ι) → Prop
  | [] => True
  | (_, v) :: rest => v.Forall p ∧ ForallFields p rest

end

def Value.Valid (v : Value ι) : Prop := v.Forall Value.Checked

theorem forallAll_iff {p : Value ι → Prop} (vs : List (Value ι)) :
    ForallAll p vs ↔ ∀ v ∈ vs, v.Forall p := by
  induction vs with
  | nil => simp [ForallAll]
  | cons v rest ih => simp [ForallAll, ih]

theorem forallFields_iff {p : Value ι → Prop} (fields : List (Bytes × Value ι)) :
    ForallFields p fields ↔ ∀ field ∈ fields, field.2.Forall p := by
  induction fields with
  | nil => simp [ForallFields]
  | cons field rest ih => simp [ForallFields, ih]

mutual

def Value.references : Value ι → List (Value ι)
  | .configReference id expr prefixLength => [.configReference id expr prefixLength]
  | .simpleConfigList _ value => referencesAll value
  | .simpleConfigObject _ value _ => referencesFields value
  | .configConcatenation _ pieces => referencesAll pieces
  | .configDelayedMerge _ stack | .configDelayedMergeObject _ stack => referencesAll stack
  | _ => []

def referencesAll : List (Value ι) → List (Value ι)
  | [] => []
  | v :: rest => v.references ++ referencesAll rest

def referencesFields : List (Bytes × Value ι) → List (Value ι)
  | [] => []
  | (_, v) :: rest => v.references ++ referencesFields rest

end

-- A value that passed its check and, if it is a reference, is one of `refs`.
def Allowed (refs : List (Value ι)) (v : Value ι) : Prop :=
  v.Checked ∧ (v.isReference → v ∈ refs)

mutual

theorem Value.Valid.allowed {refs : List (Value ι)} :
    ∀ v : Value ι, v.Forall Value.Checked → v.references ⊆ refs → v.Forall (Allowed refs)
  | .configNull _, _, _ => ⟨trivial, nofun⟩
  | .configBoolean _ _, _, _ => ⟨trivial, nofun⟩
  | .configInt _ _ _, _, _ => ⟨trivial, nofun⟩
  | .configInt64 _ _ _, _, _ => ⟨trivial, nofun⟩
  | .configDouble _ _, _, _ => ⟨trivial, nofun⟩
  | .configString _ _, _, _ => ⟨trivial, nofun⟩
  | .configReference _ _ _, hv, hrefs => ⟨hv, fun _ => hrefs (by simp [Value.references])⟩
  | .simpleConfigList _ value, hv, hrefs => ⟨⟨hv.1, nofun⟩, allowedAll value hv.2 hrefs⟩
  | .simpleConfigObject _ value _, hv, hrefs => ⟨⟨hv.1, nofun⟩, allowedFields value hv.2 hrefs⟩
  | .configConcatenation _ pieces, hv, hrefs => ⟨⟨hv.1, nofun⟩, allowedAll pieces hv.2 hrefs⟩
  | .configDelayedMerge _ stack, hv, hrefs => ⟨⟨hv.1, nofun⟩, allowedAll stack hv.2 hrefs⟩
  | .configDelayedMergeObject _ stack, hv, hrefs => ⟨⟨hv.1, nofun⟩, allowedAll stack hv.2 hrefs⟩

theorem allowedAll {refs : List (Value ι)} :
    ∀ vs : List (Value ι), ForallAll Value.Checked vs → referencesAll vs ⊆ refs →
      ForallAll (Allowed refs) vs
  | [], _, _ => trivial
  | v :: rest, hvs, hrefs => by
      rw [referencesAll, List.append_subset] at hrefs
      exact ⟨Value.Valid.allowed v hvs.1 hrefs.1, allowedAll rest hvs.2 hrefs.2⟩

theorem allowedFields {refs : List (Value ι)} :
    ∀ fields : List (Bytes × Value ι), ForallFields Value.Checked fields →
      referencesFields fields ⊆ refs → ForallFields (Allowed refs) fields
  | [], _, _ => trivial
  | (_, v) :: rest, hvs, hrefs => by
      rw [referencesFields, List.append_subset] at hrefs
      exact ⟨Value.Valid.allowed v hvs.1 hrefs.1, allowedFields rest hvs.2 hrefs.2⟩

end

-- The size of a value. A field counts one more than its value, so that an object
-- with all its fallbacks merged in is no larger than what it was made of.
mutual

def Value.weight : Value ι → ℕ
  | .simpleConfigList _ value => weightAll value + 1
  | .simpleConfigObject _ value _ => weightFields value + 1
  | .configConcatenation _ pieces => weightAll pieces + 1
  | .configDelayedMerge _ stack | .configDelayedMergeObject _ stack => weightAll stack + 1
  | _ => 1

def weightAll : List (Value ι) → ℕ
  | [] => 0
  | v :: rest => v.weight + weightAll rest

def weightFields : List (Bytes × Value ι) → ℕ
  | [] => 0
  | (_, v) :: rest => v.weight + 1 + weightFields rest

end

-- The size of the delayed merge that a value is part of, or would be.
def Value.mergeWeight (v : Value ι) : ℕ := weightAll v.unmergedValues + 1

theorem Value.weight_pos (v : Value ι) : 0 < v.weight := by
  cases v <;> simp [Value.weight]

theorem Value.mergeWeight_eq (v : Value ι) :
    v.mergeWeight = v.weight + if v.isDelayedMerge then 0 else 1 := by
  cases v <;> simp [Value.mergeWeight, Value.unmergedValues, Value.isDelayedMerge, weightAll,
    Value.weight]

theorem Value.weightAll_unmergedValues (v : Value ι) : weightAll v.unmergedValues ≤ v.weight := by
  have h := v.mergeWeight_eq
  rw [Value.mergeWeight] at h
  split at h <;> omega

theorem weightAll_append (xs ys : List (Value ι)) :
    weightAll (xs ++ ys) = weightAll xs + weightAll ys := by
  induction xs with
  | nil => simp [weightAll]
  | cons x xs ih =>
      rw [List.cons_append, weightAll, weightAll, ih]
      omega

theorem weightFields_append (xs ys : List (Bytes × Value ι)) :
    weightFields (xs ++ ys) = weightFields xs + weightFields ys := by
  induction xs with
  | nil => simp [weightFields]
  | cons x xs ih =>
      rw [List.cons_append, weightFields, weightFields, ih]
      omega

theorem weightFields_filter_le (p : Bytes × Value ι → Bool) (fields : List (Bytes × Value ι)) :
    weightFields (fields.filter p) ≤ weightFields fields := by
  induction fields with
  | nil => simp
  | cons field rest ih =>
      by_cases hp : p field
      · rw [List.filter_cons_of_pos hp, weightFields, weightFields]
        omega
      · rw [List.filter_cons_of_neg hp, weightFields]
        omega

-- Without the field of a key.
theorem weightFields_erase {key : Bytes} {v : Value ι} {fields : List (Bytes × Value ι)}
    (h : (key, v) ∈ fields) :
    weightFields (fields.filter (·.1 ≠ key)) + (v.weight + 1) ≤ weightFields fields := by
  induction fields with
  | nil => cases h
  | cons field rest ih =>
      have hle := weightFields_filter_le (fun f => decide (f.1 ≠ key)) rest
      by_cases hkey : field.1 = key
      · rw [List.filter_cons_of_neg (by simpa using hkey), weightFields]
        rcases List.mem_cons.mp h with rfl | h
        · dsimp only
          omega
        · have hrest := ih h
          omega
      · rw [List.filter_cons_of_pos (by simpa using hkey), weightFields, weightFields]
        rcases List.mem_cons.mp h with rfl | h
        · exact absurd rfl hkey
        · have hrest := ih h
          omega

-- The exceptions of the library, without what the C++ standard leaves open.
def ConfigException.isDefined : ConfigException → Prop
  | .undefinedBehaviour _ => False
  | _ => True

section

variable {σ : Type} (objects : Objects ι σ) {refs : List (Value ι)}

theorem gives_new {post : ι → Prop} (h : ∀ id, post id) :
    Gives objects.new post ConfigException.isDefined := fun s => h (objects.next s).1

theorem gives_makeObject {value : Fields ι} (hvalue : ForallFields (Allowed refs) value)
    (hnodup : (value.map Prod.fst).Nodup) (resolved ignores : Bool) :
    Gives (makeObject objects value resolved ignores)
      (fun v => v.Forall (Allowed refs) ∧ v.isSimpleObject ∧ v.weight = weightFields value + 1)
      ConfigException.isDefined := by
  refine Gives.ite (fun _ => Gives.throw trivial) fun _ => ?_
  refine Gives.bind (gives_new objects fun _ => trivial) ?_
  intro id _
  exact Gives.pure ⟨⟨⟨hnodup, nofun⟩, hvalue⟩, rfl, rfl⟩

theorem gives_makeList {value : List (Value ι)} (hvalue : ForallAll (Allowed refs) value)
    (resolved : Bool) :
    Gives (makeList objects value resolved) (fun v => v.Forall (Allowed refs))
      ConfigException.isDefined := by
  refine Gives.ite (fun _ => Gives.throw trivial) fun _ => ?_
  refine Gives.bind (gives_new objects fun _ => trivial) ?_
  intro id _
  exact Gives.pure ⟨⟨trivial, nofun⟩, hvalue⟩

-- A new delayed merge is as large as its stack says.
theorem gives_constructDelayedMerge (isObject : Bool) {stack : List (Value ι)}
    (hstack : ForallAll (Allowed refs) stack) :
    Gives (constructDelayedMerge objects isObject stack)
      (fun v => v.Forall (Allowed refs) ∧ v.mergeWeight = weightAll stack + 1 ∧
        (isObject → v.isObject)) ConfigException.isDefined := by
  refine Gives.ite (fun _ => ?_) fun hobject => ?_
  · refine Gives.ite (fun _ => Gives.throw trivial) fun _ => ?_
    refine Gives.ite (fun _ => Gives.throw trivial) fun hhead => ?_
    refine Gives.ite (fun _ => Gives.throw trivial) fun hnested => ?_
    refine Gives.bind (gives_new objects fun _ => trivial) ?_
    intro id _
    refine Gives.pure ⟨⟨⟨⟨not_not.mp hhead, ?_⟩, nofun⟩, hstack⟩, rfl, fun _ => rfl⟩
    simpa using hnested
  · refine Gives.ite (fun _ => Gives.throw trivial) fun _ => ?_
    refine Gives.ite (fun _ => Gives.throw trivial) fun _ => ?_
    refine Gives.bind (gives_new objects fun _ => trivial) ?_
    intro id _
    exact Gives.pure ⟨⟨⟨trivial, nofun⟩, hstack⟩, rfl, fun h => absurd h hobject⟩

end

end AsrServiceProxy.Config

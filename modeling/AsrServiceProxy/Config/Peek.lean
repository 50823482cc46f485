import AsrServiceProxy.Config.Contents

-- What is found in a resolved tree when the keys of a path are followed from its root.
namespace AsrServiceProxy.Config

open CMemory

variable {ι : Type}

theorem Path.keys_ne_nil (path : Path) : path.keys ≠ [] := by
  cases path <;> exact List.cons_ne_nil _ _

theorem Path.keys_injective {p q : Path} (h : p.keys = q.keys) : p = q := by
  induction p generalizing q with
  | newKey first =>
      cases q with
      | newKey other => exact congrArg Path.newKey (List.cons.inj h).1
      | cons other rest => exact absurd (List.cons.inj h).2.symm rest.keys_ne_nil
  | cons first remainder ih =>
      cases q with
      | newKey other => exact absurd (List.cons.inj h).2 remainder.keys_ne_nil
      | cons other rest =>
          obtain ⟨hfirst, hrest⟩ := List.cons.inj h
          rw [hfirst, ih hrest]

theorem Path.keys_prepend (path front : Path) :
    (path.prepend front).keys = front.keys ++ path.keys := by
  induction front with
  | newKey first => rfl
  | cons first remainder ih => rw [Path.prepend, Path.keys, ih, Path.keys, List.cons_append]

-- Only a simple object has children.
def Value.child (key : Bytes) : Value ι → Option (Value ι)
  | .simpleConfigObject _ value _ => value.lookup key
  | _ => none

def Value.descend : List Bytes → Value ι → Option (Value ι)
  | [], v => some v
  | key :: keys, v => (v.child key).bind (Value.descend keys)

@[simp] theorem Value.descend_nil (v : Value ι) : v.descend [] = some v := rfl

theorem Value.descend_cons (key : Bytes) (keys : List Bytes) (v : Value ι) :
    v.descend (key :: keys) = (v.child key).bind (Value.descend keys) := rfl

theorem Value.descend_append (keys more : List Bytes) (v : Value ι) :
    v.descend (keys ++ more) = (v.descend keys).bind (Value.descend more) := by
  induction keys generalizing v with
  | nil => simp
  | cons key keys ih =>
      simp only [List.cons_append, Value.descend_cons, Option.bind_assoc]
      exact congrArg _ (funext ih)

theorem Value.isObject_of_child {key : Bytes} {v w : Value ι} (h : v.child key = some w) :
    v.isObject = true := by
  cases v <;> first | rfl | simp [Value.child] at h

theorem Value.descend_eq_none_of_not_isObject {key : Bytes} {keys : List Bytes} {v : Value ι}
    (h : v.isObject = false) : v.descend (key :: keys) = none := by
  rw [Value.descend_cons]
  cases hc : v.child key with
  | none => rfl
  | some w =>
      have := Value.isObject_of_child hc
      simp [h] at this

theorem Value.resolved_of_child {key : Bytes} {v w : Value ι} (h : v.resolved = true)
    (hw : v.child key = some w) : w.resolved = true := by
  cases v with
  | simpleConfigObject id value ignores => exact resolved_of_lookup h hw
  | _ => simp [Value.child] at hw

theorem Value.forall_of_child {p : Value ι → Prop} {key : Bytes} {v w : Value ι}
    (h : v.Forall p) (hw : v.child key = some w) : w.Forall p := by
  cases v with
  | simpleConfigObject id value ignores =>
      exact (forallFields_iff value).mp h.2 _ (Entries.mem_of_lookup hw)
  | _ => cases hw

theorem Value.forall_of_descend {p : Value ι → Prop} {keys : List Bytes} {v w : Value ι}
    (h : v.Forall p) (hw : v.descend keys = some w) : w.Forall p := by
  induction keys generalizing v with
  | nil =>
      obtain rfl := Option.some.inj hw
      exact h
  | cons key keys ih =>
      obtain ⟨u, hu, huw⟩ := Option.bind_eq_some_iff.mp hw
      exact ih (Value.forall_of_child h hu) huw

-- A resolved object is a simple one.
theorem Value.eq_simpleConfigObject {v : Value ι} (hobject : v.isObject = true)
    (h : v.resolved = true) :
    ∃ id value ignores, v = .simpleConfigObject id value ignores := by
  cases v with
  | simpleConfigObject id value ignores => exact ⟨id, value, ignores, rfl⟩
  | configDelayedMergeObject id stack => simp [Value.resolved] at h
  | _ => simp [Value.isObject] at hobject

-- On a resolved object `peek_path` throws nothing and follows the keys.
theorem attemptPeek_eq_child {v : Value ℕ} (hobject : v.isObject = true) (h : v.resolved = true)
    (key : Bytes) : attemptPeekWithPartialResolve key v = .ok (v.child key) := by
  obtain ⟨id, value, ignores, rfl⟩ := Value.eq_simpleConfigObject hobject h
  rw [attemptPeekWithPartialResolve, Value.child]

theorem peekPath_eq_descend {v : Value ℕ} (hobject : v.isObject = true) (h : v.resolved = true)
    (path : Path) : peekPath v path = .ok (v.descend path.keys) := by
  induction path generalizing v with
  | newKey first =>
      rw [peekPath, attemptPeek_eq_child hobject h, Path.keys, Value.descend_cons]
      cases v.child first <;> rfl
  | cons first next ih =>
      rw [peekPath, attemptPeek_eq_child hobject h, Path.keys, Value.descend_cons]
      cases hc : v.child first with
      | none => rfl
      | some w =>
          by_cases ho : w.isObject
          · have hw := ih ho (Value.resolved_of_child h hc)
            simp only [ho, if_true, hw]
            rfl
          · simp only [ho, Bool.false_eq_true, if_false, Option.bind_some]
            cases next <;>
              rw [Path.keys, Value.descend_eq_none_of_not_isObject (Bool.eq_false_iff.mpr ho)]

-- A value all of whose objects have one number.
mutual

def Value.tagged : Value Unit → Value ℕ
  | .configNull _ => .configNull 0
  | .configBoolean _ value => .configBoolean 0 value
  | .configInt _ value originalText => .configInt 0 value originalText
  | .configInt64 _ value originalText => .configInt64 0 value originalText
  | .configDouble _ originalText => .configDouble 0 originalText
  | .configString _ value => .configString 0 value
  | .simpleConfigList _ value => .simpleConfigList 0 (taggedAll value)
  | .simpleConfigObject _ value ignores => .simpleConfigObject 0 (taggedFields value) ignores
  | .configReference _ expr prefixLength => .configReference 0 expr prefixLength
  | .configConcatenation _ pieces => .configConcatenation 0 (taggedAll pieces)
  | .configDelayedMerge _ stack => .configDelayedMerge 0 (taggedAll stack)
  | .configDelayedMergeObject _ stack => .configDelayedMergeObject 0 (taggedAll stack)

def taggedAll : List (Value Unit) → List (Value ℕ)
  | [] => []
  | v :: rest => v.tagged :: taggedAll rest

def taggedFields : List (Bytes × Value Unit) → List (Bytes × Value ℕ)
  | [] => []
  | (key, v) :: rest => (key, v.tagged) :: taggedFields rest

end

mutual

theorem Value.contents_tagged : ∀ v : Value Unit, v.tagged.contents = v
  | .configNull _ | .configBoolean _ _ | .configInt _ _ _ | .configInt64 _ _ _
  | .configDouble _ _ | .configString _ _ | .configReference _ _ _ => rfl
  | .simpleConfigList _ value => congrArg (Value.simpleConfigList ()) (contents_taggedAll value)
  | .simpleConfigObject _ value ignores =>
      congrArg (Value.simpleConfigObject () · ignores) (contents_taggedFields value)
  | .configConcatenation _ pieces =>
      congrArg (Value.configConcatenation ()) (contents_taggedAll pieces)
  | .configDelayedMerge _ stack =>
      congrArg (Value.configDelayedMerge ()) (contents_taggedAll stack)
  | .configDelayedMergeObject _ stack =>
      congrArg (Value.configDelayedMergeObject ()) (contents_taggedAll stack)

theorem contents_taggedAll : ∀ vs : List (Value Unit), contentsAll (taggedAll vs) = vs
  | [] => rfl
  | v :: rest => congrArg₂ List.cons (Value.contents_tagged v) (contents_taggedAll rest)

theorem contents_taggedFields : ∀ fields : List (Bytes × Value Unit),
    contentsFields (taggedFields fields) = fields
  | [] => rfl
  | (key, v) :: rest =>
      congrArg₂ List.cons (congrArg (Prod.mk key) (Value.contents_tagged v))
        (contents_taggedFields rest)

end

-- `peek_path` does not look at the identities of objects.
def peekContents (self : Value Unit) (path : Path) : Except ConfigException (Option (Value Unit)) :=
  (peekPath self.tagged path).map (Option.map Value.contents)

theorem Value.child_contents (key : Bytes) (v : Value ι) :
    v.contents.child key = (v.child key).map Value.contents := by
  cases v with
  | simpleConfigObject id value ignores => exact lookup_contentsFields key value
  | _ => rfl

theorem Value.descend_contents (keys : List Bytes) (v : Value ι) :
    v.contents.descend keys = (v.descend keys).map Value.contents := by
  induction keys generalizing v with
  | nil => rfl
  | cons key keys ih =>
      rw [Value.descend_cons, Value.descend_cons, Value.child_contents]
      cases v.child key with
      | none => rfl
      | some w => exact ih w

theorem peekContents_eq_descend {v : Value Unit} (hobject : v.isObject = true) (h : v.resolved = true)
    (path : Path) : peekContents v path = .ok (v.descend path.keys) := by
  have htagged := Value.contents_tagged v
  rw [← htagged, Value.isObject_contents] at hobject
  rw [← htagged, Value.resolved_contents] at h
  rw [peekContents, peekPath_eq_descend hobject h]
  conv_rhs => rw [← htagged, Value.descend_contents]
  rfl

end AsrServiceProxy.Config

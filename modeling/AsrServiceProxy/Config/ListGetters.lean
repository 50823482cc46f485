import AsrServiceProxy.Config.Lookup.Theorems
import AsrServiceProxy.Config.Unwrapped

-- The getters for lists of objects and of configs. A config is its object.
namespace AsrServiceProxy.Config

open CMemory

-- What a list getter throws: an exception of the library, or `boost::bad_get`.
inductive ListException where
  | lookup (e : LookupException)
  | badGet
deriving DecidableEq, Repr

section

variable (doubles : Doubles) (newId : ℕ) (walk : EntryWalk)

def SimpleConfig.getList (object : Value ℕ) (path : Bytes) :
    Except LookupException (List (Value ℕ)) := do
  match ← findExpression doubles newId object path .LIST with
  | .simpleConfigList _ value => return value
  | _ => throw (.config (.undefinedBehaviour "null list"))

-- The loop that the two walkers of a list have in common, with what they keep of
-- an element.
def SimpleConfig.homogeneousList {α : Type} (keep : Value ℕ → Except ConfigException α)
    (path : Bytes) (expected : ConfigValueType) :
    List (Value ℕ) → Except LookupException (List α)
  | [] => .ok []
  | cv :: rest => do
      let v ←
        if expected ≠ .NONE then (DefaultTransformer.transform doubles newId cv expected).mapError .config
        else pure cv
      let actual ← v.valueType.mapError .config
      if actual ≠ expected then
        throw (.ofWrongType path (ascii "list of " ++ expected.name) (ascii "list of " ++ actual.name))
      let kept ← (keep v).mapError .config
      return kept :: (← homogeneousList keep path expected rest)

def SimpleConfig.getHomogeneousUnwrappedList (object : Value ℕ) (path : Bytes)
    (expected : ConfigValueType) : Except LookupException (List ConfigVariant) := do
  homogeneousList doubles newId (fun v => v.unwrapped walk) path expected
    (← getList doubles newId object path)

def SimpleConfig.getHomogeneousWrappedList (object : Value ℕ) (path : Bytes)
    (expected : ConfigValueType) : Except LookupException (List (Value ℕ)) := do
  homogeneousList doubles newId Except.ok path expected (← getList doubles newId object path)

-- The casts of the elements keep their type `OBJECT`.
def SimpleConfig.getObjectList (object : Value ℕ) (path : Bytes) :
    Except ListException (List (Value ℕ)) :=
  (getHomogeneousWrappedList doubles newId object path .OBJECT).mapError .lookup

-- `dynamic_get<ConfigObject>` and `to_config`: the variant has to hold a pointer, and
-- what is unwrapped never does.
def dynamicGetObject : ConfigVariant → Except ListException (Value ℕ)
  | .base => .error (.lookup (.config (.undefinedBehaviour "pointer in unwrapped data")))
  | _ => .error .badGet

def SimpleConfig.getConfigList (object : Value ℕ) (path : Bytes) :
    Except ListException (List (Value ℕ)) := do
  let list ← (getHomogeneousUnwrappedList doubles newId walk object path .OBJECT).mapError .lookup
  list.mapM dynamicGetObject

-- What a look-up finds in a resolved object is resolved.
theorem DefaultTransformer.resolved_transform {v w : Value ℕ} (h : v.resolved)
    {requested : ConfigValueType}
    (hw : DefaultTransformer.transform doubles newId v requested = .ok w) : w.resolved := by
  obtain ⟨t, ht, -⟩ := Value.valueType_of_resolved h
  simp only [DefaultTransformer.transform, ht, bind, Except.bind, pure, Except.pure] at hw
  by_cases hstring : t = .STRING
  · rw [if_pos hstring, Except.ok.injEq] at hw
    subst hw
    unfold DefaultTransformer.transformString
    split
    · split
      · rfl
      · split
        · rfl
        · exact h
    · split
      · rfl
      · exact h
    · split
      · rfl
      · split
        · rfl
        · exact h
    all_goals exact h
  · rw [if_neg hstring] at hw
    split at hw
    · cases hw
      rfl
    · cases hw
      exact h

theorem SimpleConfig.findKey_resolved {self v : Value ℕ} (hobject : self.isObject)
    (h : self.resolved) {key : Bytes} {expected : ConfigValueType} {path : Option Path}
    (hv : findKey doubles newId self key expected path = .ok v) :
    v.resolved ∧ (expected ≠ .NONE → v.valueType = .ok expected) := by
  simp only [findKey, attemptPeek_eq_child hobject h, Except.mapError, bind, Except.bind] at hv
  cases hchild : self.child key with
  | none =>
      rw [hchild] at hv
      simp only at hv
      split at hv
      · cases hv
      · cases hv
  | some peeked =>
      have hpeeked := Value.resolved_of_child h hchild
      rw [hchild] at hv
      by_cases hnone : expected = .NONE
      · subst hnone
        obtain ⟨t, ht, -⟩ := Value.valueType_of_resolved hpeeked
        simp only [ne_eq, not_true_eq_false, if_false, pure, Except.pure, ht, decide_false,
          Bool.false_and] at hv
        split at hv
        · split at hv
          · cases hv
          · cases hv
        · cases hv
          exact ⟨hpeeked, fun hne => absurd rfl hne⟩
      · simp only [ne_eq, hnone, not_false_eq_true, if_true] at hv
        cases htransform : DefaultTransformer.transform doubles newId peeked expected with
        | error e =>
            rw [htransform] at hv
            cases hv
        | ok w =>
            have hw := DefaultTransformer.resolved_transform doubles newId hpeeked htransform
            obtain ⟨t, ht, -⟩ := Value.valueType_of_resolved hw
            simp only [htransform, ht] at hv
            split at hv
            · split at hv
              · cases hv
              · cases hv
            · split at hv
              · split at hv
                · cases hv
                · cases hv
              · rename_i hsame
                cases hv
                simp only [decide_true, Bool.true_and, decide_eq_true_eq, not_not] at hsame
                exact ⟨hw, fun _ => by rw [ht, hsame]⟩

theorem Value.isObject_of_valueType {ι : Type} {v : Value ι} (h : v.valueType = .ok .OBJECT) :
    v.isObject = true := by
  cases v with
  | simpleConfigObject | configDelayedMergeObject => rfl
  | _ => cases h

-- The induction is on what is left of the path.
theorem SimpleConfig.find_resolved {expected : ConfigValueType} (path rest : Path)
    {self v : Value ℕ} (hobject : self.isObject) (h : self.resolved)
    (hv : find doubles newId expected path rest self = .ok v) :
    v.resolved ∧ (expected ≠ .NONE → v.valueType = .ok expected) := by
  induction rest generalizing self with
  | newKey key =>
      rw [find] at hv
      cases hkey : findKey doubles newId self key expected (some path) with
      | error e =>
          rw [hkey] at hv
          cases hv
      | ok w =>
          rw [hkey] at hv
          cases hv
          exact findKey_resolved doubles newId hobject h hkey
  | cons key next ih =>
      simp only [find, bind, Except.bind] at hv
      cases hparent : path.subPathBetween 0 (path.length - next.length) with
      | error e =>
          rw [hparent] at hv
          cases hv
      | ok parent =>
          simp only [hparent, Except.mapError] at hv
          cases hkey : findKey doubles newId self key .OBJECT parent with
          | error e =>
              rw [hkey] at hv
              cases hv
          | ok o =>
              obtain ⟨ho, htype⟩ := findKey_resolved doubles newId hobject h hkey
              rw [hkey] at hv
              cases hnext : find doubles newId expected path next o with
              | error e =>
                  simp only [hnext] at hv
                  cases hv
              | ok w =>
                  simp only [hnext] at hv
                  cases hv
                  exact ih (Value.isObject_of_valueType (htype (by decide))) ho hnext

variable {object : Value ℕ} {path : Bytes} {list : List (Value ℕ)}

theorem SimpleConfig.getList_resolved (hobject : object.isObject) (h : object.resolved)
    (hlist : getList doubles newId object path = .ok list) : ∀ v ∈ list, v.resolved := by
  simp only [getList, findExpression, bind, Except.bind] at hlist
  cases hparse : parsePath doubles path with
  | error e =>
      rw [hparse] at hlist
      cases hlist
  | ok parsed =>
      simp only [hparse, Except.mapError] at hlist
      cases hfind : find doubles newId .LIST parsed parsed object with
      | error e =>
          rw [hfind] at hlist
          cases hlist
      | ok v =>
          obtain ⟨hv, -⟩ := find_resolved doubles newId parsed parsed hobject h hfind
          rw [hfind] at hlist
          cases v with
          | simpleConfigList id value =>
              cases hlist
              exact resolvedAll_iff.mp hv
          | _ => cases hlist

-- One pass of a walker over a list: it stops at the first element that is no object.
theorem SimpleConfig.homogeneousList_object {α : Type} (path : Bytes)
    (keep : Value ℕ → Except ConfigException α) (kept : Value ℕ → α)
    (hresolved : ∀ v ∈ list, v.resolved) (hkeep : ∀ v ∈ list, keep v = .ok (kept v)) :
    ((∀ v ∈ list, v.isObject) ∧
        homogeneousList doubles newId keep path .OBJECT list = .ok (list.map kept)) ∨
      (∃ v ∈ list, v.isObject = false) ∧
        ∃ message, homogeneousList doubles newId keep path .OBJECT list =
          .error (.wrongType message) := by
  induction list with
  | nil => exact .inl ⟨nofun, rfl⟩
  | cons v rest ih =>
      have hv := hresolved v List.mem_cons_self
      obtain ⟨t, ht, htobject, -⟩ := Value.valueType_of_resolved hv
      have htransform := DefaultTransformer.transform_object doubles newId hv
      have hrest := ih (fun w hw => hresolved w (List.mem_cons_of_mem v hw))
        fun w hw => hkeep w (List.mem_cons_of_mem v hw)
      by_cases hobject : t = .OBJECT
      · have hloop : homogeneousList doubles newId keep path .OBJECT (v :: rest) =
            (homogeneousList doubles newId keep path .OBJECT rest).map (kept v :: ·) := by
          simp only [homogeneousList, ne_eq, reduceCtorEq, not_false_eq_true, if_true,
            htransform, Except.mapError, bind, Except.bind, ht, hobject, not_true_eq_false,
            if_false, hkeep v List.mem_cons_self]
          cases homogeneousList doubles newId keep path .OBJECT rest with
          | ok l => rfl
          | error e => rfl
        rcases hrest with ⟨hall, hok⟩ | ⟨⟨w, hw, hwo⟩, message, herror⟩
        · refine .inl ⟨?_, by rw [hloop, hok]; rfl⟩
          intro w hw
          rcases List.mem_cons.mp hw with rfl | hw
          · exact htobject.mp hobject
          · exact hall w hw
        · exact .inr ⟨⟨w, List.mem_cons_of_mem v hw, hwo⟩, message, by rw [hloop, herror]; rfl⟩
      · refine .inr ⟨⟨v, List.mem_cons_self, ?_⟩, ?_⟩
        · rw [← Bool.not_eq_true]
          exact fun hb => hobject (htobject.mpr hb)
        · simp only [homogeneousList, ne_eq, reduceCtorEq, not_false_eq_true, if_true,
            htransform, Except.mapError, bind, Except.bind, ht, hobject, if_true]
          exact ⟨_, rfl⟩

def ThrowsListWrongType {α : Type} (r : Except ListException α) : Prop :=
  ∃ message, r = .error (.lookup (.wrongType message))

-- What the two getters promise together for the list at a path.
structure ListGettersAgree (object : Value ℕ) (path : Bytes) (list : List (Value ℕ)) : Prop where
  objects : (∀ v ∈ list, v.isObject) → ∃ configs,
    SimpleConfig.getObjectList doubles newId object path = .ok configs ∧
      SimpleConfig.getConfigList doubles newId walk object path = .ok configs
  others : (∃ v ∈ list, v.isObject = false) →
    ThrowsListWrongType (SimpleConfig.getObjectList doubles newId object path) ∧
      ThrowsListWrongType (SimpleConfig.getConfigList doubles newId walk object path)

theorem SimpleConfig.getObjectList_eq (hlist : getList doubles newId object path = .ok list) :
    getObjectList doubles newId object path =
      (homogeneousList doubles newId Except.ok path .OBJECT list).mapError .lookup := by
  rw [getObjectList, getHomogeneousWrappedList, hlist]
  rfl

theorem SimpleConfig.getConfigList_eq (hlist : getList doubles newId object path = .ok list) :
    getConfigList doubles newId walk object path =
      (homogeneousList doubles newId (fun v => v.unwrapped walk) path .OBJECT list).mapError .lookup >>=
        fun list => list.mapM dynamicGetObject := by
  rw [getConfigList, getHomogeneousUnwrappedList, hlist]
  rfl

-- An object is unwrapped to a map, and a map is no pointer to an object.
theorem dynamicGetObject_plain {v : Value ℕ} (h : v.resolved) :
    dynamicGetObject (v.plain walk) = .error .badGet := by
  cases v with
  | configReference | configConcatenation | configDelayedMerge | configDelayedMergeObject => cases h
  | _ => rfl

-- The getters agree on the empty list and on lists with something else than objects;
-- `get_config_list` fails on every other list of objects.
theorem SimpleConfig.listGettersAgree_iff (hobject : object.isObject) (hresolved : object.resolved)
    (hlist : getList doubles newId object path = .ok list) :
    ListGettersAgree doubles newId walk object path list ↔
      list = [] ∨ ∃ v ∈ list, v.isObject = false := by
  have helements := getList_resolved doubles newId hobject hresolved hlist
  have hwrapped := homogeneousList_object doubles newId path Except.ok id helements fun _ _ => rfl
  have hunwrapped := homogeneousList_object doubles newId path (fun v => v.unwrapped walk)
    (fun v => v.plain walk) helements fun v hv => v.unwrapped_of_resolved walk (helements v hv)
  constructor
  · intro h
    by_contra hnot
    rw [not_or, not_exists] at hnot
    obtain ⟨hne, hall⟩ := hnot
    have hobjects : ∀ v ∈ list, v.isObject := by
      intro v hv
      rw [← Bool.not_eq_false]
      exact fun hb => hall v ⟨hv, hb⟩
    obtain ⟨configs, -, hconfigs⟩ := h.objects hobjects
    rcases hunwrapped with ⟨-, hok⟩ | ⟨⟨v, hv, hvo⟩, -⟩
    · obtain ⟨v, rest, rfl⟩ := List.exists_cons_of_ne_nil hne
      have hget := dynamicGetObject_plain walk (helements v List.mem_cons_self)
      rw [getConfigList_eq doubles newId walk hlist, hok] at hconfigs
      simp only [Except.mapError, bind, Except.bind, List.map_cons, List.mapM_cons, hget] at hconfigs
      cases hconfigs
    · exact hall v ⟨hv, hvo⟩
  · intro h
    refine ⟨fun hobjects => ?_, fun hother => ?_⟩
    · rcases h with rfl | ⟨v, hv, hvo⟩
      · refine ⟨[], ?_, ?_⟩
        · rw [getObjectList_eq doubles newId hlist]
          rfl
        · rw [getConfigList_eq doubles newId walk hlist]
          rfl
      · rw [hobjects v hv] at hvo
        cases hvo
    · obtain ⟨v, hv, hvo⟩ := hother
      have hnot : ¬∀ w ∈ list, w.isObject := by
        intro hall
        rw [hall v hv] at hvo
        cases hvo
      rcases hwrapped with ⟨hall, -⟩ | ⟨-, message, hthrows⟩
      · exact absurd hall hnot
      rcases hunwrapped with ⟨hall, -⟩ | ⟨-, message', hthrows'⟩
      · exact absurd hall hnot
      refine ⟨⟨message, ?_⟩, message', ?_⟩
      · rw [getObjectList_eq doubles newId hlist, hthrows]
        rfl
      · rw [getConfigList_eq doubles newId walk hlist, hthrows']
        rfl

end

-- The object `a = [ELEMENTS]`.
def listAt (elements : List (Value ℕ)) : Value ℕ :=
  .simpleConfigObject 0 [(ascii "a", .simpleConfigList 1 elements)] false

-- `a = [1, {}, "x"]`
def mixedElements : List (Value ℕ) :=
  [.configInt 2 1 [], .simpleConfigObject 3 [] false, .configString 4 (ascii "x")]

theorem SimpleConfig.listGettersAgree_iff_number :
    ListGettersAgree ⟨fun _ => none, id⟩ 5 ⟨id, fun _ => .refl _⟩ (listAt mixedElements) (ascii "a")
        mixedElements ↔
      mixedElements = [] ∨ ∃ v ∈ mixedElements, v.isObject = false :=
  listGettersAgree_iff ⟨fun _ => none, id⟩ 5 ⟨id, fun _ => .refl _⟩ rfl rfl rfl

-- `a = [{}]`
theorem SimpleConfig.getConfigList_throws_badGet :
    getObjectList ⟨fun _ => none, id⟩ 3 (listAt [.simpleConfigObject 2 [] false]) (ascii "a") =
        .ok [.simpleConfigObject 2 [] false] ∧
      getConfigList ⟨fun _ => none, id⟩ 3 ⟨id, fun _ => .refl _⟩
        (listAt [.simpleConfigObject 2 [] false]) (ascii "a") = .error .badGet ∧
      ¬ListGettersAgree ⟨fun _ => none, id⟩ 3 ⟨id, fun _ => .refl _⟩
        (listAt [.simpleConfigObject 2 [] false]) (ascii "a") [.simpleConfigObject 2 [] false] := by
  have hthrows : getConfigList ⟨fun _ => none, id⟩ 3 ⟨id, fun _ => .refl _⟩
      (listAt [.simpleConfigObject 2 [] false]) (ascii "a") = .error .badGet := rfl
  refine ⟨rfl, hthrows, fun h => ?_⟩
  obtain ⟨configs, -, hconfigs⟩ := h.objects (by simp [Value.isObject])
  rw [hthrows] at hconfigs
  cases hconfigs

end AsrServiceProxy.Config

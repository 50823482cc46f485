import AsrServiceProxy.Config.Lookup.Theorems
import AsrServiceProxy.Config.RoundTrip.Theorems
import AsrServiceProxy.Config.Validity
import Mathlib.Logic.Relation

-- What `check_valid` finds, against what its documentation says.
namespace AsrServiceProxy.Config

open CMemory Relation

variable {ι : Type}

-- The types that may stand for one another: null for every type, strings for every
-- type but objects and lists, and each type for itself.
def TypesAgree (reference value : ConfigValueType) : Prop :=
  reference = .NONE ∨ value = .NONE ∨
    (reference = .STRING ∧ value ≠ .OBJECT ∧ value ≠ .LIST) ∨
    (value = .STRING ∧ reference ≠ .OBJECT ∧ reference ≠ .LIST) ∨ reference = value

instance (reference value : ConfigValueType) : Decidable (TypesAgree reference value) :=
  inferInstanceAs (Decidable (_ ∨ _))

-- A value of the reference and the one that stands in its place.
abbrev Facing (ι : Type) := Value ι × Value ι

-- To a key that both objects have.
inductive KeyStep : Facing ι → Facing ι → Prop
  | intro {id id' : ι} {fields fields' : Fields ι} {ignores ignores' : Bool} {key : Bytes}
      {r v : Value ι} (hkey : (key, r) ∈ fields) (hfound : fields'.lookup key = some v) :
      KeyStep (.simpleConfigObject id fields ignores, .simpleConfigObject id' fields' ignores')
        (r, v)

-- To an element of a list, which faces the first one of the reference.
inductive ElementStep : Facing ι → Facing ι → Prop
  | intro {id id' : ι} {r v : Value ι} {rest elements : List (Value ι)} (hv : v ∈ elements) :
      ElementStep (.simpleConfigList id (r :: rest), .simpleConfigList id' elements) (r, v)

def Step (p q : Facing ι) : Prop := KeyStep p q ∨ ElementStep p q

-- A key of the reference that the value lacks.
inductive Missing : Facing ι → Prop
  | intro {id id' : ι} {fields fields' : Fields ι} {ignores ignores' : Bool} {key : Bytes}
      {r : Value ι} (hkey : (key, r) ∈ fields) (habsent : fields'.lookup key = none) :
      Missing (.simpleConfigObject id fields ignores, .simpleConfigObject id' fields' ignores')

def Clash (p : Facing ι) : Prop :=
  ∃ a b, p.1.valueType = .ok a ∧ p.2.valueType = .ok b ∧ ¬TypesAgree a b

-- A key is missing or two types are incompatible somewhere below the two values.
def Violates (p : Facing ι) : Prop :=
  ∃ q, ReflTransGen Step p q ∧ (Missing q ∨ Clash q)

-- The string that is read as null.
def Value.isNullText : Value ι → Bool
  | .configString _ value => value = ascii "null"
  | _ => false

-- The pairs with a string that the code takes for compatible: the reference is a
-- string, or the value is the string `null`.
def Excused (p : Facing ι) : Prop := p.1.isString ∨ p.2.isNullText

instance (p : Facing ι) : Decidable (Excused p) := inferInstanceAs (Decidable (_ ∨ _))

def PlainClash (p : Facing ι) : Prop := Clash p ∧ ¬Excused p

-- The flaws at a path that do not depend on an excused pair, nor on what is
-- inside an element of a list.
def PlainlyViolates (p : Facing ι) : Prop :=
  ∃ q, ReflTransGen KeyStep p q ∧
    (Missing q ∨ PlainClash q ∨ ∃ e, ElementStep q e ∧ PlainClash e)

-- The others: excused pairs, and what is inside an element of a list.
def Overlooked (p : Facing ι) : Prop :=
  ∃ q, ReflTransGen KeyStep p q ∧
    ((Clash q ∧ Excused q) ∨
      ∃ e, ElementStep q e ∧ ((Clash e ∧ Excused e) ∨ Missing e ∨ ∃ inner, Step e inner ∧ Violates inner))

theorem PlainlyViolates.of_step {p q : Facing ι} (hstep : KeyStep p q) (h : PlainlyViolates q) :
    PlainlyViolates p := by
  obtain ⟨flaw, hpath, hflaw⟩ := h
  exact ⟨flaw, .head hstep hpath, hflaw⟩

theorem Overlooked.of_step {p q : Facing ι} (hstep : KeyStep p q) (h : Overlooked q) :
    Overlooked p := by
  obtain ⟨flaw, hpath, hflaw⟩ := h
  exact ⟨flaw, .head hstep hpath, hflaw⟩

theorem Violates.of_step {p q : Facing ι} (hstep : Step p q) (h : Violates q) : Violates p := by
  obtain ⟨flaw, hpath, hflaw⟩ := h
  exact ⟨flaw, .head hstep hpath, hflaw⟩

theorem Violates.of_keys {p q : Facing ι} (hpath : ReflTransGen KeyStep p q) (h : Violates q) :
    Violates p := by
  induction hpath using ReflTransGen.head_induction_on with
  | refl => exact h
  | head hstep _ ih => exact .of_step (.inl hstep) ih

theorem plain_or_overlooked {p : Facing ι} (h : Violates p) :
    PlainlyViolates p ∨ Overlooked p := by
  obtain ⟨flaw, hpath, hflaw⟩ := h
  induction hpath using ReflTransGen.head_induction_on with
  | refl =>
      rcases hflaw with hmissing | hclash
      · exact .inl ⟨flaw, .refl, .inl hmissing⟩
      · by_cases hexcused : Excused flaw
        · exact .inr ⟨flaw, .refl, .inl ⟨hclash, hexcused⟩⟩
        · exact .inl ⟨flaw, .refl, .inr (.inl ⟨hclash, hexcused⟩)⟩
  | @head p q hstep hrest ih =>
      rcases hstep with hkey | helement
      · exact ih.imp (.of_step hkey) (.of_step hkey)
      · -- the path ends at the element or goes into it
        rcases ReflTransGen.cases_head hrest with rfl | ⟨inner, hinner, hbelow⟩
        · rcases hflaw with hmissing | hclash
          · exact .inr ⟨p, .refl, .inr ⟨q, helement, .inr (.inl hmissing)⟩⟩
          · by_cases hexcused : Excused q
            · exact .inr ⟨p, .refl, .inr ⟨q, helement, .inl ⟨hclash, hexcused⟩⟩⟩
            · exact .inl ⟨p, .refl, .inr (.inr ⟨q, helement, hclash, hexcused⟩)⟩
        · exact .inr ⟨p, .refl, .inr ⟨q, helement, .inr (.inr ⟨inner, hinner, flaw, hbelow, hflaw⟩)⟩⟩

theorem PlainlyViolates.violates {p : Facing ι} (h : PlainlyViolates p) : Violates p := by
  obtain ⟨q, hpath, hflaw⟩ := h
  apply Violates.of_keys hpath
  rcases hflaw with hmissing | ⟨hclash, -⟩ | ⟨e, he, hclash, -⟩
  · exact ⟨q, .refl, .inl hmissing⟩
  · exact ⟨q, .refl, .inr hclash⟩
  · exact .of_step (.inr he) ⟨e, .refl, .inr hclash⟩

theorem Overlooked.violates {p : Facing ι} (h : Overlooked p) : Violates p := by
  obtain ⟨q, hpath, hflaw⟩ := h
  apply Violates.of_keys hpath
  rcases hflaw with ⟨hclash, -⟩ | ⟨e, he, hinside⟩
  · exact ⟨q, .refl, .inr hclash⟩
  · apply Violates.of_step (.inr he)
    rcases hinside with ⟨hclash, -⟩ | hmissing | ⟨inner, hinner, hbelow⟩
    · exact ⟨e, .refl, .inr hclash⟩
    · exact ⟨e, .refl, .inl hmissing⟩
    · exact .of_step hinner hbelow

theorem Value.kind_of_resolved {v : Value ι} (h : v.resolved = true) :
    ∃ t, v.valueType = .ok t ∧ v.isObject = decide (t = .OBJECT) ∧
      v.isList = decide (t = .LIST) ∧ v.isString = decide (t = .STRING) ∧
      v.isNull = decide (t = .NONE) := by
  cases v with
  | configReference id expr prefixLength => simp [Value.resolved] at h
  | configConcatenation id pieces => simp [Value.resolved] at h
  | configDelayedMerge id stack => simp [Value.resolved] at h
  | configDelayedMergeObject id stack => simp [Value.resolved] at h
  | _ => exact ⟨_, rfl, rfl, rfl, rfl, rfl⟩

theorem Value.isString_of_isNullText {v : Value ι} (h : v.isNullText = true) :
    v.isString = true := by
  cases v <;> first | rfl | simp [Value.isNullText] at h

section

variable {doubles : Doubles} {newId : ι}

theorem couldBeNull_eq {v : Value ι} (h : v.resolved = true) :
    SimpleConfig.couldBeNull doubles newId v = .ok (v.isNull || v.isNullText) := by
  cases v with
  | configReference id expr prefixLength => simp [Value.resolved] at h
  | configConcatenation id pieces => simp [Value.resolved] at h
  | configDelayedMerge id stack => simp [Value.resolved] at h
  | configDelayedMergeObject id stack => simp [Value.resolved] at h
  | configString id value =>
      show (if value = ascii "null" then Value.configNull newId
        else Value.configString id value).valueType.bind
          (fun type => .ok (decide (type = .NONE))) = _
      by_cases hnull : value = ascii "null"
      · simp only [hnull, if_true, Value.isNullText, decide_true, Bool.or_true]
        rfl
      · simp only [hnull, if_false, Value.isNullText, decide_false, Bool.or_false]
        rfl
  | _ => rfl

variable (doubles newId) in
theorem haveCompatibleTypes_eq {reference value : Value ι} (href : reference.resolved = true)
    (hvalue : value.resolved = true) :
    ∃ a b, reference.valueType = .ok a ∧ value.valueType = .ok b ∧
      SimpleConfig.haveCompatibleTypes doubles newId reference value =
        .ok (decide (TypesAgree a b ∨ Excused (reference, value))) := by
  obtain ⟨a, ha, haobject, halist, hastring, hanull⟩ := Value.kind_of_resolved href
  obtain ⟨b, hb, hbobject, hblist, hbstring, hbnull⟩ := Value.kind_of_resolved hvalue
  refine ⟨a, b, ha, hb, ?_⟩
  unfold SimpleConfig.haveCompatibleTypes
  rw [couldBeNull_eq href, couldBeNull_eq hvalue, ha, hb, haobject, halist, hastring, hanull,
    hbobject, hblist, hbstring, hbnull]
  by_cases hreference : a = .NONE ∨ reference.isNullText = true
  · have htrue : TypesAgree a b ∨ Excused (reference, value) :=
      hreference.imp .inl fun htext => .inl (Value.isString_of_isNullText htext)
    rw [show (decide (a = .NONE) || reference.isNullText) = true by simpa using hreference,
      decide_eq_true htrue]
    rfl
  · rw [show (decide (a = .NONE) || reference.isNullText) = false by simpa using hreference]
    by_cases hnull : b = .NONE ∨ value.isNullText = true
    · have htrue : TypesAgree a b ∨ Excused (reference, value) :=
        hnull.imp (fun h => .inr (.inl h)) .inr
      rw [show (decide (b = .NONE) || value.isNullText) = true by simpa using hnull,
        decide_eq_true htrue]
      rfl
    · rw [show (decide (b = .NONE) || value.isNullText) = false by simpa using hnull]
      have hexcused : Excused (reference, value) ↔ a = .STRING := by
        rw [Excused, hastring, decide_eq_true_iff]
        exact or_iff_left fun h => hnull (.inr h)
      rw [show decide (TypesAgree a b ∨ Excused (reference, value)) =
        decide (TypesAgree a b ∨ a = .STRING) from decide_eq_decide.mpr (or_congr_right hexcused)]
      -- neither type is null: each pair of the others takes its branch of the code
      cases a <;> cases b <;>
        first
        | rfl
        | exact absurd (.inl rfl) hreference
        | exact absurd (.inl rfl) hnull

-- What is reported, for a computation that throws nothing.
def Reports (m : Except ConfigException (List ValidationProblem)) (p : Prop) : Prop :=
  ∃ problems, m = .ok problems ∧ (problems ≠ [] ↔ p)

theorem Reports.nothing {p : Prop} (h : ¬p) : Reports (.ok []) p :=
  ⟨[], rfl, iff_of_false (fun hne => hne rfl) h⟩

theorem Reports.append {m n : Except ConfigException (List ValidationProblem)} {p q : Prop}
    (hm : Reports m p) (hn : Reports n q) :
    Reports (do return (← m) ++ (← n)) (p ∨ q) := by
  obtain ⟨first, rfl, hfirst⟩ := hm
  obtain ⟨second, rfl, hsecond⟩ := hn
  refine ⟨first ++ second, rfl, ?_⟩
  rw [← hfirst, ← hsecond, ne_eq, List.append_eq_nil_iff, not_and_or]

theorem Reports.congr {m : Except ConfigException (List ValidationProblem)} {p q : Prop}
    (h : Reports m p) (hpq : p ↔ q) : Reports m q := by
  obtain ⟨problems, hm, hproblems⟩ := h
  exact ⟨problems, hm, hproblems.trans hpq⟩

theorem getDesc_ok {v : Value ι} (h : v.resolved = true) :
    ∃ text, SimpleConfig.getDesc v = .ok text := by
  cases v with
  | configReference id expr prefixLength => simp [Value.resolved] at h
  | configConcatenation id pieces => simp [Value.resolved] at h
  | configDelayedMerge id stack => simp [Value.resolved] at h
  | configDelayedMergeObject id stack => simp [Value.resolved] at h
  | simpleConfigObject id fields ignores =>
      by_cases hempty : fields.isEmpty = true
      · exact ⟨_, by rw [SimpleConfig.getDesc, if_pos hempty]⟩
      · exact ⟨_, by rw [SimpleConfig.getDesc, if_neg hempty]⟩
  | _ => exact ⟨_, rfl⟩

theorem reports_addMissing {reference : Value ι} (href : reference.resolved = true) (path : Path)
    {p : Prop} (h : p) : Reports (SimpleConfig.addMissing reference path) p := by
  obtain ⟨text, htext⟩ := getDesc_ok href
  unfold SimpleConfig.addMissing
  rw [htext]
  exact ⟨_, rfl, iff_of_true (List.cons_ne_nil _ _) h⟩

theorem reports_addWrongType {reference value : Value ι} (href : reference.resolved = true)
    (hvalue : value.resolved = true) (path : Path) {p : Prop} (h : p) :
    Reports (SimpleConfig.addWrongType reference value path) p := by
  obtain ⟨text, htext⟩ := getDesc_ok href
  obtain ⟨actual, hactual⟩ := getDesc_ok hvalue
  unfold SimpleConfig.addWrongType
  rw [htext, hactual]
  exact ⟨_, rfl, iff_of_true (List.cons_ne_nil _ _) h⟩

theorem plainClash_iff {reference value : Value ι} {a b : ConfigValueType}
    (ha : reference.valueType = .ok a) (hb : value.valueType = .ok b) :
    PlainClash (reference, value) ↔ ¬(TypesAgree a b ∨ Excused (reference, value)) := by
  rw [not_or, PlainClash, Clash]
  apply and_congr_left'
  constructor
  · rintro ⟨a', b', ha', hb', hclash⟩
    rw [ha] at ha'
    rw [hb] at hb'
    obtain ⟨rfl⟩ := ha'
    obtain ⟨rfl⟩ := hb'
    exact hclash
  · intro hclash
    exact ⟨a, b, ha, hb, hclash⟩

variable (doubles newId) in
-- The test tells the plain clashes.
theorem haveCompatibleTypes_cases {reference value : Value ι} (href : reference.resolved = true)
    (hvalue : value.resolved = true) :
    (SimpleConfig.haveCompatibleTypes doubles newId reference value = .ok true ∧
      ¬PlainClash (reference, value)) ∨
    (SimpleConfig.haveCompatibleTypes doubles newId reference value = .ok false ∧
      PlainClash (reference, value)) := by
  obtain ⟨a, b, ha, hb, htest⟩ := haveCompatibleTypes_eq doubles newId href hvalue
  rw [htest, plainClash_iff ha hb, not_not]
  by_cases h : TypesAgree a b ∨ Excused (reference, value)
  · exact .inl ⟨by rw [decide_eq_true h], h⟩
  · exact .inr ⟨by rw [decide_eq_false h], h⟩

theorem reports_checkElements {path : Path} {refElement : Value ι}
    (href : refElement.resolved = true) :
    ∀ elements : List (Value ι), Value.resolvedAll elements = true →
      Reports (SimpleConfig.checkElements doubles newId path refElement elements)
        (∃ e ∈ elements, PlainClash (refElement, e)) := by
  intro elements
  induction elements with
  | nil => exact fun _ => .nothing (by simp)
  | cons e rest ih =>
      intro h
      obtain ⟨he, hrest⟩ := Bool.and_eq_true_iff.mp h
      rw [SimpleConfig.checkElements]
      rcases haveCompatibleTypes_cases doubles newId href he with ⟨htest, hclash⟩ | ⟨htest, hclash⟩
      · rw [htest]
        apply (ih hrest).congr
        rw [List.exists_mem_cons_iff, or_iff_right hclash]
      · obtain ⟨text, htext⟩ := getDesc_ok href
        obtain ⟨actual, hactual⟩ := getDesc_ok he
        rw [htest, htext, hactual]
        exact ⟨_, rfl, iff_of_true (List.cons_ne_nil _ _) ⟨e, List.mem_cons_self, hclash⟩⟩

end

-- A key of the reference fields whose value is missing or plainly wrong.
def FieldFlaw (fields fields' : Fields ι) : Prop :=
  ∃ field ∈ fields, fields'.lookup field.1 = none ∨
    ∃ v, fields'.lookup field.1 = some v ∧ PlainlyViolates (field.2, v)

theorem plainlyViolates_object {id id' : ι} {fields fields' : Fields ι} {ignores ignores' : Bool} :
    PlainlyViolates (.simpleConfigObject id fields ignores,
      .simpleConfigObject id' fields' ignores') ↔ FieldFlaw fields fields' := by
  constructor
  · rintro ⟨q, hpath, hflaw⟩
    rcases ReflTransGen.cases_head hpath with rfl | ⟨c, hstep, hrest⟩
    · rcases hflaw with hmissing | ⟨⟨a, b, ha, hb, hclash⟩, -⟩ | ⟨e, he, -⟩
      · cases hmissing with
        | intro hkey habsent => exact ⟨_, hkey, .inl habsent⟩
      · cases ha
        cases hb
        exact absurd (show TypesAgree .OBJECT .OBJECT by decide) hclash
      · cases he
    · cases hstep with
      | intro hkey hfound => exact ⟨_, hkey, .inr ⟨_, hfound, q, hrest, hflaw⟩⟩
  · rintro ⟨field, hkey, habsent | ⟨v, hfound, hv⟩⟩
    · exact ⟨_, .refl, .inl (.intro hkey habsent)⟩
    · exact .of_step (.intro hkey hfound) hv

-- Unless both are objects, only the two values and the elements of lists count.
theorem plainlyViolates_of_not_object {r v : Value ι} (h : (r.isObject && v.isObject) = false) :
    PlainlyViolates (r, v) ↔
      PlainClash (r, v) ∨ ∃ e, ElementStep (r, v) e ∧ PlainClash e := by
  constructor
  · rintro ⟨q, hpath, hflaw⟩
    rcases ReflTransGen.cases_head hpath with rfl | ⟨c, hstep, -⟩
    · rcases hflaw with hmissing | hflaw
      · cases hmissing
        cases h
      · exact hflaw
    · cases hstep
      cases h
  · intro hflaw
    exact ⟨_, .refl, .inr hflaw⟩

theorem exists_elementStep {id id' : ι} {r : Value ι} {rest elements : List (Value ι)} :
    (∃ e, ElementStep (.simpleConfigList id (r :: rest), .simpleConfigList id' elements) e ∧
      PlainClash e) ↔ ∃ e ∈ elements, PlainClash (r, e) := by
  constructor
  · rintro ⟨e, hstep, hclash⟩
    cases hstep with
    | intro hv => exact ⟨_, hv, hclash⟩
  · rintro ⟨e, he, hclash⟩
    exact ⟨_, .intro he, hclash⟩

section

variable {doubles : Doubles} {newId : ι}

-- The test comes first; `body` is what the code does with compatible values.
theorem reports_tested {path : Path} {reference value : Value ι}
    {body : Except ConfigException (List ValidationProblem)} (href : reference.resolved = true)
    (hvalue : value.resolved = true)
    (h : ¬PlainClash (reference, value) → Reports body (PlainlyViolates (reference, value))) :
    Reports (do
      if ← SimpleConfig.haveCompatibleTypes doubles newId reference value then body
      else SimpleConfig.addWrongType reference value path) (PlainlyViolates (reference, value)) := by
  rcases haveCompatibleTypes_cases doubles newId href hvalue with
    ⟨htest, hclash⟩ | ⟨htest, hclash⟩
  · rw [htest]
    exact h hclash
  · rw [htest]
    exact reports_addWrongType href hvalue path ⟨_, .refl, .inr (.inl hclash)⟩

-- Compatible values of which not both are objects, and not both are lists.
theorem reports_nothing {reference value : Value ι}
    (hobject : (reference.isObject && value.isObject) = false)
    (hlist : ∀ e, ¬ElementStep (reference, value) e) (hclash : ¬PlainClash (reference, value)) :
    Reports (.ok []) (PlainlyViolates (reference, value)) := by
  apply Reports.nothing
  rw [plainlyViolates_of_not_object hobject]
  rintro (h | ⟨e, he, -⟩)
  · exact hclash h
  · exact hlist e he

mutual

theorem reports_checkFields (path : Option Path) : ∀ (fields : List (Bytes × Value ι)) (id : ι)
    (fields' : Fields ι) (ignores : Bool), Value.resolvedFields fields = true →
    Value.resolvedFields fields' = true →
    Reports (SimpleConfig.checkFields doubles newId path fields
      (.simpleConfigObject id fields' ignores)) (FieldFlaw fields fields')
  | [], _, _, _, _, _ => .nothing nofun
  | (key, reference) :: rest, id, fields', ignores, href, hvalue => by
      obtain ⟨hhead, hrest⟩ := Bool.and_eq_true_iff.mp href
      rw [SimpleConfig.checkFields, FieldFlaw, List.exists_mem_cons_iff]
      have htail := reports_checkFields path rest id fields' ignores hrest hvalue
      cases hfound : fields'.lookup key with
      | none =>
          simp only [findField, hfound]
          exact (reports_addMissing hhead _ (.inl trivial)).append htail
      | some v =>
          simp only [findField, hfound]
          have hv := resolved_of_lookup hvalue hfound
          have hhere := reports_checkValue (SimpleConfig.childPath path key) reference v hhead hv
          exact (hhere.congr (by simp)).append htail

theorem reports_checkValue (path : Path) : ∀ reference value : Value ι,
    reference.resolved = true → value.resolved = true →
    Reports (SimpleConfig.checkValue doubles newId path reference value)
      (PlainlyViolates (reference, value))
  | .simpleConfigObject id fields ignores, value, href, hvalue => by
      unfold SimpleConfig.checkValue
      apply reports_tested href hvalue
      intro hclash
      by_cases hobject : value.isObject = true
      · obtain ⟨id', fields', ignores', rfl⟩ := Value.eq_simpleConfigObject hobject hvalue
        exact (reports_checkFields (some path) fields id' fields' ignores' href hvalue).congr
          plainlyViolates_object.symm
      · simp only [hobject]
        exact reports_nothing (Bool.eq_false_iff.mpr hobject) nofun hclash
  | .simpleConfigList id refElements, value, href, hvalue => by
      unfold SimpleConfig.checkValue
      apply reports_tested href hvalue
      intro hclash
      cases refElements with
      | nil => exact reports_nothing rfl nofun hclash
      | cons refElement rest =>
          cases value with
          | simpleConfigList id' elements =>
              apply (reports_checkElements (Bool.and_eq_true_iff.mp href).1 elements hvalue).congr
              rw [plainlyViolates_of_not_object rfl, or_iff_right hclash, exists_elementStep]
          | _ => exact reports_nothing rfl nofun hclash
  | .configNull _, _, href, hvalue | .configBoolean _ _, _, href, hvalue
  | .configInt _ _ _, _, href, hvalue | .configInt64 _ _ _, _, href, hvalue
  | .configDouble _ _, _, href, hvalue | .configString _ _, _, href, hvalue => by
      unfold SimpleConfig.checkValue
      apply reports_tested href hvalue
      intro hclash
      exact reports_nothing rfl nofun hclash

end

end

section

variable {doubles : Doubles} {newId : ℕ} {reference value : Value ℕ}

theorem checkValid_throws_iff (href : reference.resolved = true) (hroot : reference.isObject = true)
    (hvalue : value.resolved = true) (hobject : value.isObject = true) :
    (∃ problems, SimpleConfig.checkValid doubles newId value reference [] =
      .error (.validationFailed problems)) ↔ PlainlyViolates (reference, value) := by
  obtain ⟨id, fields, ignores, rfl⟩ := Value.eq_simpleConfigObject hroot href
  obtain ⟨id', fields', ignores', rfl⟩ := Value.eq_simpleConfigObject hobject hvalue
  obtain ⟨problems, hproblems, hne⟩ : Reports (SimpleConfig.checkFields doubles newId none fields
      (.simpleConfigObject id' fields' ignores')) (FieldFlaw fields fields') :=
    reports_checkFields none fields id' fields' ignores' href hvalue
  rw [plainlyViolates_object, ← hne, SimpleConfig.checkValid, href, hvalue]
  have hcheck : SimpleConfig.checkValidObject doubles newId none
      (.simpleConfigObject id fields ignores) (.simpleConfigObject id' fields' ignores') =
        .ok problems := hproblems
  simp only [List.isEmpty_nil, if_true, hcheck]
  cases problems with
  | nil => exact iff_of_false nofun fun h => h rfl
  | cons problem rest => exact iff_of_true ⟨_, rfl⟩ (List.cons_ne_nil _ _)

theorem checkValid_documented_iff (href : reference.resolved = true)
    (hroot : reference.isObject = true) (hvalue : value.resolved = true)
    (hobject : value.isObject = true) :
    ((∃ problems, SimpleConfig.checkValid doubles newId value reference [] =
        .error (.validationFailed problems)) ↔ Violates (reference, value)) ↔
      (Overlooked (reference, value) → PlainlyViolates (reference, value)) := by
  rw [checkValid_throws_iff href hroot hvalue hobject]
  constructor
  · intro h hoverlooked
    exact h.mpr hoverlooked.violates
  · intro h
    constructor
    · exact PlainlyViolates.violates
    · intro hviolates
      exact (plain_or_overlooked hviolates).elim id h

end

-- A config with one field.
def oneField (v : Value ℕ) : Value ℕ := .simpleConfigObject 0 [(ascii "a", v)] false

theorem checkValid_documented_iff_numbers :
    ((∃ problems, SimpleConfig.checkValid noDoubles 2 (oneField (.configBoolean 1 true))
        (oneField (.configInt 1 5 [])) [] = .error (.validationFailed problems)) ↔
      Violates (oneField (.configInt 1 5 []), oneField (.configBoolean 1 true))) ↔
    (Overlooked (oneField (.configInt 1 5 []), oneField (.configBoolean 1 true)) →
      PlainlyViolates (oneField (.configInt 1 5 []), oneField (.configBoolean 1 true))) :=
  checkValid_documented_iff rfl rfl rfl rfl

-- `a = "x"` in the reference, and `a = {}`.
theorem not_checkValid_documented :
    ¬((∃ problems, SimpleConfig.checkValid noDoubles 2
          (oneField (.simpleConfigObject 1 [] false))
          (oneField (.configString 1 (ascii "x"))) [] = .error (.validationFailed problems)) ↔
        Violates (oneField (.configString 1 (ascii "x")),
          oneField (.simpleConfigObject 1 [] false))) := by
  intro h
  have hclash : Clash (.configString 1 (ascii "x"), .simpleConfigObject (1 : ℕ) [] false) :=
    ⟨.STRING, .OBJECT, rfl, rfl, by decide⟩
  have hkey : KeyStep (oneField (.configString 1 (ascii "x")),
      oneField (.simpleConfigObject 1 [] false))
      (.configString 1 (ascii "x"), .simpleConfigObject 1 [] false) :=
    .intro (List.mem_singleton_self _) rfl
  obtain ⟨problems, hthrows⟩ := h.mpr ⟨_, .single (.inl hkey), .inr hclash⟩
  have hpasses : SimpleConfig.checkValid noDoubles 2 (oneField (.simpleConfigObject 1 [] false))
      (oneField (.configString 1 (ascii "x"))) [] = .ok () := rfl
  rw [hpasses] at hthrows
  cases hthrows

end AsrServiceProxy.Config

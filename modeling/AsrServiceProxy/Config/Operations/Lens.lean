import AsrServiceProxy.Config.Operations
import AsrServiceProxy.Config.Peek

-- What the edits at a path do to what is found at the other paths.
namespace AsrServiceProxy.Config

open CMemory

theorem lookup_putField_self (values : Fields Unit) (key : Bytes) (v : Value Unit) :
    (putField values key v).lookup key = some v := by
  unfold putField
  split
  case isTrue h =>
    induction values with
    | nil => simp at h
    | cons field rest ih =>
        rw [List.map_cons]
        by_cases hkey : field.1 = key
        · simp [hkey]
        · have hne : (key == field.1) = false := beq_false_of_ne (Ne.symm hkey)
          rw [List.lookup_cons, hne] at h
          rw [if_neg hkey, List.lookup_cons, hne]
          exact ih h
  case isFalse h =>
    rw [List.lookup_append, Option.not_isSome_iff_eq_none.mp h]
    simp

theorem lookup_putField_other (values : Fields Unit) {key other : Bytes} (h : other ≠ key)
    (v : Value Unit) : (putField values key v).lookup other = values.lookup other := by
  have hne : (other == key) = false := beq_false_of_ne h
  unfold putField
  split
  case isTrue hthere =>
    clear hthere
    induction values with
    | nil => rfl
    | cons field rest ih =>
        rw [List.map_cons]
        by_cases hkey : field.1 = key
        · rw [if_pos hkey, List.lookup_cons, List.lookup_cons, hkey, hne]
          exact ih
        · rw [if_neg hkey, List.lookup_cons, List.lookup_cons, ih]
  case isFalse =>
    rw [List.lookup_append]
    simp [List.lookup_cons, hne]

theorem resolvedFields_putField {values : Fields Unit} (h : Value.resolvedFields values = true)
    (key : Bytes) {v : Value Unit} (hv : v.resolved = true) :
    Value.resolvedFields (putField values key v) = true := by
  rw [resolvedFields_iff] at h ⊢
  intro field hfield
  unfold putField at hfield
  split at hfield
  · obtain ⟨old, hold, rfl⟩ := List.mem_map.mp hfield
    by_cases hkey : old.1 = key
    · rw [if_pos hkey]
      exact hv
    · rw [if_neg hkey]
      exact h old hold
  · rcases List.mem_append.mp hfield with hold | hnew
    · exact h field hold
    · obtain rfl := List.mem_singleton.mp hnew
      exact hv

theorem fromFields_eq (fields : Fields Unit) (ignores : Bool) :
    fromFields fields ignores () = .ok (.simpleConfigObject () fields ignores) () := by
  simp [fromFields, makeObject, Objects.new, Objects.plain, bind, EStateM.bind, pure, EStateM.pure]

-- Two lists of keys of which neither begins with the other.
def Apart (p q : List Bytes) : Prop := ¬p <+: q ∧ ¬q <+: p

theorem Apart.tail {key : Bytes} {p q : List Bytes} (h : Apart (key :: p) (key :: q)) :
    Apart p q :=
  ⟨fun hpq => h.1 ((List.prefix_cons_inj key).mpr hpq),
    fun hqp => h.2 ((List.prefix_cons_inj key).mpr hqp)⟩

-- A list of keys apart from a path is not empty: it leaves the path at its first
-- key or at a later one.
theorem Apart.cases {first : Bytes} {keys q : List Bytes} (h : Apart (first :: keys) q) :
    ∃ key rest, q = key :: rest ∧ (key ≠ first ∨ key = first ∧ Apart keys rest) := by
  cases q with
  | nil => exact absurd List.nil_prefix h.2
  | cons key rest =>
      refine ⟨key, rest, rfl, ?_⟩
      by_cases hkey : key = first
      · subst hkey
        exact Or.inr ⟨rfl, h.tail⟩
      · exact Or.inl hkey

theorem not_apart_singleton {first : Bytes} {rest : List Bytes} :
    ¬Apart [first] (first :: rest) := fun h =>
  h.1 ((List.prefix_cons_inj first).mpr List.nil_prefix)

-- What `with_value` asks of the values that it writes below: an object that is
-- there, or a new one.
def Value.orEmpty : Option (Value Unit) → Value Unit
  | some v => if v.isObject then v else .simpleConfigObject () [] false
  | none => .simpleConfigObject () [] false

theorem atPath_eq_withValue (v : Value Unit) (path : Path) :
    atPath v path = withValue v path (.simpleConfigObject () [] false) := by
  induction path with
  | newKey key => rfl
  | cons key next ih =>
      rw [atPath, withValue]
      rfl

theorem withValue_cons (v : Value Unit) (key : Bytes) (next : Path) (fields : Fields Unit)
    (ignores : Bool) :
    withValue v (.cons key next) (.simpleConfigObject () fields ignores) = (do
      fromFields (putField fields key (← withValue v next (Value.orEmpty (fields.lookup key))))
        ignores) := by
  rw [withValue]
  cases hc : fields.lookup key with
  | none => simp only [Value.orEmpty, atPath_eq_withValue]
  | some child =>
      by_cases ho : child.isObject
      · simp only [ho, if_true, Value.orEmpty]
      · simp only [ho, Value.orEmpty, atPath_eq_withValue]
        rfl

theorem Value.orEmpty_object (found : Option (Value Unit)) :
    (Value.orEmpty found).isObject = true := by
  unfold Value.orEmpty
  split
  · split
    · assumption
    · rfl
  · rfl

theorem Value.orEmpty_resolved {found : Option (Value Unit)}
    (h : ∀ v, found = some v → v.resolved = true) : (Value.orEmpty found).resolved = true := by
  unfold Value.orEmpty
  split
  · split
    · exact h _ rfl
    · rfl
  · rfl

-- Below its keys a value that is no object is as good as an empty one.
theorem descend_orEmpty (found : Option (Value Unit)) {keys : List Bytes} (h : keys ≠ []) :
    (Value.orEmpty found).descend keys = found.bind (Value.descend keys) := by
  obtain ⟨key, rest, rfl⟩ := List.exists_cons_of_ne_nil h
  cases found with
  | none => rfl
  | some v =>
      by_cases ho : v.isObject
      · simp only [Value.orEmpty, ho, if_true, Option.bind_some]
      · rw [Value.orEmpty, if_neg ho, Option.bind_some,
          Value.descend_eq_none_of_not_isObject (Bool.eq_false_iff.mpr ho)]
        rfl

-- Setting one field, as both editors do on their way back.
section

variable {fields : Fields Unit} {ignores : Bool} {key : Bytes} {below : Value Unit}

theorem descend_setField_self (keys : List Bytes) :
    (Value.simpleConfigObject () (putField fields key below) ignores).descend (key :: keys) =
      below.descend keys := by
  rw [Value.descend_cons, Value.child, lookup_putField_self, Option.bind_some]

theorem descend_setField_other {other : Bytes} (h : other ≠ key) (keys : List Bytes) :
    (Value.simpleConfigObject () (putField fields key below) ignores).descend (other :: keys) =
      (Value.simpleConfigObject () fields ignores).descend (other :: keys) := by
  rw [Value.descend_cons, Value.child, lookup_putField_other _ h, Value.descend_cons, Value.child]

end

-- What an edit at a path leaves as it was: all that is apart from the path.
def SameApart (keys : List Bytes) (w o : Value Unit) : Prop :=
  ∀ q, Apart keys q → w.descend q = o.descend q

theorem SameApart.refl (keys : List Bytes) (o : Value Unit) : SameApart keys o o := fun _ _ => rfl

theorem SameApart.setField {fields : Fields Unit} {ignores : Bool} {key : Bytes}
    {keys : List Bytes} {below before : Value Unit} (h : SameApart keys below before)
    (hbefore : ∀ rest, rest ≠ [] →
      before.descend rest = (fields.lookup key).bind (Value.descend rest)) :
    SameApart (key :: keys) (.simpleConfigObject () (putField fields key below) ignores)
      (.simpleConfigObject () fields ignores) := by
  intro q hq
  obtain ⟨other, rest, rfl, hother | ⟨rfl, hrest⟩⟩ := hq.cases
  · exact descend_setField_other hother rest
  · rw [descend_setField_self, h rest hrest]
    exact hbefore rest fun hnil => hrest.2 (hnil ▸ List.nil_prefix)

theorem withValue_spec {v : Value Unit} (hv : v.resolved = true) (path : Path) {o : Value Unit}
    (hobject : o.isObject = true) (h : o.resolved = true) :
    ∃ w, withValue v path o () = .ok w () ∧ w.isObject = true ∧ w.resolved = true ∧
      w.descend path.keys = some v ∧ SameApart path.keys w o := by
  induction path generalizing o with
  | newKey key =>
      obtain ⟨id, fields, ignores, rfl⟩ := Value.eq_simpleConfigObject hobject h
      refine ⟨.simpleConfigObject () (putField fields key v) ignores, ?_, rfl,
        resolvedFields_putField h key hv, descend_setField_self [], ?_⟩
      · rw [withValue, fromFields_eq]
      intro q hq
      obtain ⟨other, rest, rfl, hother | ⟨rfl, hrest⟩⟩ := hq.cases
      · exact descend_setField_other hother rest
      · exact absurd hq not_apart_singleton
  | cons key next ih =>
      obtain ⟨id, fields, ignores, rfl⟩ := Value.eq_simpleConfigObject hobject h
      have hchild : (Value.orEmpty (fields.lookup key)).resolved = true :=
        Value.orEmpty_resolved fun child hc => resolved_of_lookup h hc
      obtain ⟨below, hbelow, -, hresolved, hput, hframe⟩ :=
        ih (Value.orEmpty_object (fields.lookup key)) hchild
      refine ⟨.simpleConfigObject () (putField fields key below) ignores, ?_, rfl,
        resolvedFields_putField h key hresolved, ?_, ?_⟩
      · rw [withValue_cons]
        simp only [bind, EStateM.bind, hbelow, fromFields_eq]
      · rw [Path.keys, descend_setField_self, hput]
      · exact hframe.setField fun rest hrest => descend_orEmpty _ hrest

theorem resolvedFields_filter {fields : Fields Unit} (h : Value.resolvedFields fields = true)
    (p : Bytes × Value Unit → Bool) : Value.resolvedFields (fields.filter p) = true := by
  rw [resolvedFields_iff] at h ⊢
  exact fun field hfield => h field (List.mem_filter.mp hfield).1

-- Nothing is found below a path where nothing is found at it.
theorem descend_eq_none_of_prefix {keys q : List Bytes} {v : Value Unit}
    (h : v.descend keys = none) (hq : keys <+: q) : v.descend q = none := by
  obtain ⟨rest, rfl⟩ := hq
  rw [Value.descend_append, h]
  rfl

theorem withoutPath_spec (path : Path) {o : Value Unit} (hobject : o.isObject = true)
    (h : o.resolved = true) :
    ∃ w, withoutPath path o () = .ok w () ∧ w.isObject = true ∧ w.resolved = true ∧
      w.descend path.keys = none ∧ SameApart path.keys w o := by
  induction path generalizing o with
  | newKey key =>
      obtain ⟨id, fields, ignores, rfl⟩ := Value.eq_simpleConfigObject hobject h
      rw [withoutPath]
      by_cases hnone : (fields.lookup key).isNone
      · rw [if_pos hnone]
        refine ⟨_, rfl, rfl, h, ?_, SameApart.refl _ _⟩
        rw [Path.keys, Value.descend_cons, Value.child, Option.isNone_iff_eq_none.mp hnone]
        rfl
      · rw [if_neg hnone, fromFields_eq]
        refine ⟨_, rfl, rfl, resolvedFields_filter h _, ?_, ?_⟩
        · rw [Path.keys, Value.descend_cons, Value.child, Entries.lookup_filter (· ≠ key),
            if_neg (by simp)]
          rfl
        · intro q hq
          obtain ⟨other, rest, rfl, hother | ⟨rfl, hrest⟩⟩ := hq.cases
          · rw [Value.descend_cons, Value.child, Entries.lookup_filter (· ≠ key),
              if_pos (decide_eq_true hother)]
            rfl
          · exact absurd hq not_apart_singleton
  | cons key next ih =>
      obtain ⟨id, fields, ignores, rfl⟩ := Value.eq_simpleConfigObject hobject h
      have hunchanged (hnone : (fields.lookup key).bind (Value.descend next.keys) = none) :
          ∃ w, (pure (.simpleConfigObject id fields ignores) : Make Unit (Value Unit)) () =
              .ok w () ∧ w.isObject = true ∧ w.resolved = true ∧
            w.descend (Path.cons key next).keys = none ∧
            SameApart (Path.cons key next).keys w (.simpleConfigObject id fields ignores) :=
        ⟨_, rfl, rfl, h, hnone, SameApart.refl _ _⟩
      rw [withoutPath]
      cases hc : fields.lookup key with
      | none => exact hunchanged (by rw [hc]; rfl)
      | some child =>
          by_cases ho : child.isObject
          · obtain ⟨below, hbelow, -, hresolved, hgone, hframe⟩ :=
              ih ho (resolved_of_lookup h hc)
            refine ⟨.simpleConfigObject () (putField fields key below) ignores, ?_, rfl,
              resolvedFields_putField h key hresolved, ?_, ?_⟩
            · simp only [ho, if_true, bind, EStateM.bind, hbelow, fromFields_eq]
            · rw [Path.keys, descend_setField_self, hgone]
            · exact hframe.setField fun rest _ => by rw [hc]; rfl
          · simp only [ho, Bool.false_eq_true, if_false]
            apply hunchanged
            obtain ⟨first, rest, hkeys⟩ := List.exists_cons_of_ne_nil next.keys_ne_nil
            rw [hc, Option.bind_some, hkeys,
              Value.descend_eq_none_of_not_isObject (Bool.eq_false_iff.mpr ho)]

-- The objects that lead along the keys to a value of `o`, each with one field and
-- with the flag of the object that it stands for.
def ChainTo : List Bytes → Value Unit → Value Unit → Prop
  | [], o, w => w = o
  | key :: keys, o, w =>
      ∃ child below, o.child key = some child ∧ ChainTo keys child below ∧
        w = .simpleConfigObject () [(key, below)] o.ignoresFallbacks

theorem makeObject_single (key : Bytes) (v : Value Unit) (ignores : Bool) :
    makeObject .plain [(key, v)] v.resolved ignores () =
      .ok (.simpleConfigObject () [(key, v)] ignores) () := by
  simp [makeObject, Value.resolvedFields, Objects.new, Objects.plain, bind, EStateM.bind, pure,
    EStateM.pure]

theorem withOnlyPathOrNull_spec (path : Path) {o : Value Unit} (hobject : o.isObject = true)
    (h : o.resolved = true) :
    (∃ w, withOnlyPathOrNull path o () = .ok (some w) () ∧ ChainTo path.keys o w ∧
        ∃ x, o.descend path.keys = some x) ∨
      withOnlyPathOrNull path o () = .ok none () ∧ o.descend path.keys = none := by
  induction path generalizing o with
  | newKey key =>
      obtain ⟨id, fields, ignores, rfl⟩ := Value.eq_simpleConfigObject hobject h
      rw [withOnlyPathOrNull, Path.keys, Value.descend_cons, Value.child]
      cases hc : fields.lookup key with
      | none => exact Or.inr ⟨rfl, rfl⟩
      | some child =>
          left
          refine ⟨.simpleConfigObject () [(key, child)] ignores, ?_, ⟨child, child, hc, rfl, rfl⟩,
            child, rfl⟩
          simp only [bind, EStateM.bind, makeObject_single]
          rfl
  | cons key next ih =>
      obtain ⟨id, fields, ignores, rfl⟩ := Value.eq_simpleConfigObject hobject h
      rw [withOnlyPathOrNull, Path.keys, Value.descend_cons, Value.child]
      cases hc : fields.lookup key with
      | none => exact Or.inr ⟨rfl, rfl⟩
      | some child =>
          by_cases ho : child.isObject
          · simp only [ho, if_true, bind, EStateM.bind, Option.bind_some]
            rcases ih ho (resolved_of_lookup h hc) with
              ⟨below, hbelow, hchain, x, hx⟩ | ⟨hnone, hx⟩
            · left
              refine ⟨.simpleConfigObject () [(key, below)] ignores, ?_,
                ⟨child, below, hc, hchain, rfl⟩, x, hx⟩
              simp only [hbelow, EStateM.bind, makeObject_single]
              rfl
            · right
              exact ⟨by simp only [hnone]; rfl, hx⟩
          · right
            obtain ⟨first, rest, hkeys⟩ := List.exists_cons_of_ne_nil next.keys_ne_nil
            rw [Option.bind_some, hkeys,
              Value.descend_eq_none_of_not_isObject (Bool.eq_false_iff.mpr ho)]
            simp only [ho, Bool.false_eq_true, if_false]
            exact ⟨rfl, trivial⟩

theorem withOnlyPath_spec (path : Path) {o : Value Unit} (hobject : o.isObject = true)
    (h : o.resolved = true) :
    ∃ w, withOnlyPath path o () = .ok w () ∧
      (∀ x, o.descend path.keys = some x → ChainTo path.keys o w) ∧
      (o.descend path.keys = none → w = .simpleConfigObject () [] o.ignoresFallbacks) := by
  simp only [withOnlyPath, bind, EStateM.bind]
  rcases withOnlyPathOrNull_spec path hobject h with ⟨w, hw, hchain, x, hx⟩ | ⟨hw, hx⟩
  · refine ⟨w, by rw [hw]; rfl, fun _ _ => hchain, fun hnone => ?_⟩
    exact nomatch hx.symm.trans hnone
  · refine ⟨.simpleConfigObject () [] o.ignoresFallbacks, by rw [hw]; rfl, fun y hy => ?_,
      fun _ => rfl⟩
    exact nomatch hx.symm.trans hy

-- The value at the end of the chain is that of the object itself.
theorem ChainTo.descend {keys : List Bytes} {o w : Value Unit} (h : ChainTo keys o w) :
    w.descend keys = o.descend keys := by
  induction keys generalizing o w with
  | nil => exact congrArg some h
  | cons key keys ih =>
      obtain ⟨child, below, hc, hchain, rfl⟩ := h
      rw [Value.descend_cons, Value.descend_cons, hc]
      simp [Value.child, ih hchain]

theorem ChainTo.resolved {keys : List Bytes} {o w : Value Unit} (hchain : ChainTo keys o w)
    (h : o.resolved = true) : w.resolved = true := by
  induction keys generalizing o w with
  | nil => exact hchain ▸ h
  | cons key keys ih =>
      obtain ⟨child, below, hc, hbelow, rfl⟩ := hchain
      simp [Value.resolved, Value.resolvedFields, ih hbelow (Value.resolved_of_child h hc)]

theorem ChainTo.isObject {keys : List Bytes} {o w : Value Unit} (hchain : ChainTo keys o w)
    (hkeys : keys ≠ []) : w.isObject = true := by
  obtain ⟨key, rest, rfl⟩ := List.exists_cons_of_ne_nil hkeys
  obtain ⟨child, below, -, -, rfl⟩ := hchain
  rfl

-- The laws of the edits at a path of a resolved object. The frame of `with_value`
-- holds even where a value that is no object is overwritten: nothing was below it.
theorem edits_lens {o v : Value Unit} (hobject : o.isObject = true) (h : o.resolved = true)
    (hv : v.resolved = true) (path : Path) :
    (∃ w, withValue v path o () = .ok w () ∧ peekContents w path = .ok (some v) ∧
      ∀ q : Path, Apart path.keys q.keys → peekContents w q = peekContents o q) ∧
    (∃ w, withoutPath path o () = .ok w () ∧
      (∀ q : Path, path.keys <+: q.keys → peekContents w q = .ok none) ∧
      ∀ q : Path, Apart path.keys q.keys → peekContents w q = peekContents o q) ∧
    ∃ w, withOnlyPath path o () = .ok w () ∧
      (∀ x, peekContents o path = .ok (some x) →
        ChainTo path.keys o w ∧ peekContents w path = .ok (some x)) ∧
      (peekContents o path = .ok none → w = .simpleConfigObject () [] o.ignoresFallbacks) := by
  refine ⟨?_, ?_, ?_⟩
  · obtain ⟨w, hw, hwobject, hresolved, hput, hframe⟩ := withValue_spec hv path hobject h
    refine ⟨w, hw, ?_, fun q hq => ?_⟩
    · rw [peekContents_eq_descend hwobject hresolved, hput]
    · rw [peekContents_eq_descend hwobject hresolved, peekContents_eq_descend hobject h,
        hframe q.keys hq]
  · obtain ⟨w, hw, hwobject, hresolved, hgone, hframe⟩ := withoutPath_spec path hobject h
    refine ⟨w, hw, fun q hq => ?_, fun q hq => ?_⟩
    · rw [peekContents_eq_descend hwobject hresolved, descend_eq_none_of_prefix hgone hq]
    · rw [peekContents_eq_descend hwobject hresolved, peekContents_eq_descend hobject h,
        hframe q.keys hq]
  · obtain ⟨w, hw, hthere, hnone⟩ := withOnlyPath_spec path hobject h
    rw [peekContents_eq_descend hobject h]
    refine ⟨w, hw, fun x hx => ?_, fun hx => hnone (Except.ok.inj hx)⟩
    have hchain := hthere x (Except.ok.inj hx)
    refine ⟨hchain, ?_⟩
    rw [peekContents_eq_descend (hchain.isObject path.keys_ne_nil) (hchain.resolved h),
      hchain.descend, hx]

-- The object `a = null` edited at `a.b`.
theorem edits_lens_overwritten :
    ∃ w, withValue (.configBoolean () true) (.cons (ascii "a") (.newKey (ascii "b")))
      (.simpleConfigObject () [(ascii "a", .configNull ())] false) () = .ok w () ∧
      peekContents w (.cons (ascii "a") (.newKey (ascii "b"))) =
        .ok (some (.configBoolean () true)) := by
  obtain ⟨⟨w, hw, hput, -⟩, -⟩ := edits_lens
    (o := .simpleConfigObject () [(ascii "a", .configNull ())] false)
    (v := .configBoolean () true) rfl rfl rfl (.cons (ascii "a") (.newKey (ascii "b")))
  exact ⟨w, hw, hput⟩

end AsrServiceProxy.Config

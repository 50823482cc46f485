import AsrServiceProxy.Config.Fallback

-- Falling back is associative on resolved values.
namespace AsrServiceProxy.Config

open CMemory

variable {ι σ : Type} (objects : Objects ι σ)

-- A field of an object after its value fell back to the one that another object has.
def fallbackField (other : Fields Unit) (field : Bytes × Value Unit) : Bytes × Value Unit :=
  (field.1, match other.lookup field.1 with
    | none => field.2
    | some w => fallback field.2 w)

theorem fallbackFields_eq (value other : Fields Unit) :
    fallbackFields value other = value.map (fallbackField other) := by
  induction value with
  | nil => rfl
  | cons field rest ih =>
      rw [fallbackFields, ih]
      rfl

theorem fallbackFields_append (value more other : Fields Unit) :
    fallbackFields (value ++ more) other =
      fallbackFields value other ++ fallbackFields more other := by
  simp [fallbackFields_eq]

theorem lookup_fallbackFields (key : Bytes) (value other : Fields Unit) :
    (fallbackFields value other).lookup key =
      (value.lookup key).map fun v => (fallbackField other (key, v)).2 := by
  induction value with
  | nil => rfl
  | cons field rest ih =>
      rw [fallbackFields, List.lookup_cons, List.lookup_cons, ih]
      cases hkey : key == field.1 with
      | false => rfl
      | true =>
          rw [beq_iff_eq] at hkey
          subst hkey
          rfl

theorem lookup_addedFields {key : Bytes} {value : Fields ι} (h : value.lookup key = none)
    (other : Fields ι) : (addedFields value other).lookup key = other.lookup key :=
  (Entries.lookup_filter (fun key => (value.lookup key).isNone) other key).trans (if_pos (by simp [h]))

theorem resolvedFields_append (fields more : Fields ι) :
    Value.resolvedFields (fields ++ more) =
      (Value.resolvedFields fields && Value.resolvedFields more) := by
  rw [Bool.eq_iff_iff, Bool.and_eq_true]
  simp only [resolvedFields_iff, List.mem_append]
  constructor
  · intro h
    exact ⟨fun field hfield => h field (.inl hfield), fun field hfield => h field (.inr hfield)⟩
  · rintro ⟨hfields, hmore⟩ field (hfield | hfield)
    · exact hfields field hfield
    · exact hmore field hfield

theorem resolvedFields_addedFields (value : Fields ι) {other : Fields ι}
    (h : Value.resolvedFields other) : Value.resolvedFields (addedFields value other) = true := by
  rw [resolvedFields_iff] at h ⊢
  intro field hfield
  exact h field (List.mem_filter.mp hfield).1

mutual

theorem resolved_fallback : ∀ a b : Value Unit, a.resolved → b.resolved → (fallback a b).resolved
  | .simpleConfigObject id value ignores, b, ha, hb => by
      unfold fallback
      split
      · exact ha
      · split
        · rw [Value.resolved, resolvedFields_append, resolvedFields_fallbackFields value _ ha hb,
            resolvedFields_addedFields value hb]
          rfl
        · have hmergeable : b.isUnmergeable = false := by
            cases b with
            | configReference | configConcatenation | configDelayedMerge
            | configDelayedMergeObject => cases hb
            | _ => rfl
          rw [Value.resolved] at ha
          simp [hmergeable, ha, Value.resolved]
  | .configNull _, b, ha, _ | .configBoolean _ _, b, ha, _ | .configInt _ _ _, b, ha, _
  | .configInt64 _ _ _, b, ha, _ | .configDouble _ _, b, ha, _ | .configString _ _, b, ha, _
  | .simpleConfigList _ _, b, ha, _ => by
      rw [fallback_of_resolved ha rfl]
      exact ha
  | .configReference _ _ _, _, ha, _ => by cases ha
  | .configConcatenation _ _, _, ha, _ => by cases ha
  | .configDelayedMerge _ _, _, ha, _ => by cases ha
  | .configDelayedMergeObject _ _, _, ha, _ => by cases ha

theorem resolvedFields_fallbackFields : ∀ value other : Fields Unit, Value.resolvedFields value →
    Value.resolvedFields other → Value.resolvedFields (fallbackFields value other)
  | [], _, _, _ => rfl
  | (key, v) :: rest, other, hvalue, hother => by
      rw [Value.resolvedFields, Bool.and_eq_true] at hvalue
      rw [fallbackFields, Value.resolvedFields, Bool.and_eq_true]
      refine ⟨?_, resolvedFields_fallbackFields rest other hvalue.2 hother⟩
      cases hlookup : other.lookup key with
      | none => exact hvalue.1
      | some w => exact resolved_fallback v w hvalue.1 (resolved_of_lookup hother hlookup)

end

theorem fallback_object {value : Fields Unit} {b : Value Unit} (hb : b.resolved)
    (hsimple : b.isSimpleObject = false) (hvalue : Value.resolvedFields value) :
    fallback (.simpleConfigObject () value false) b = .simpleConfigObject () value true := by
  cases b with
  | simpleConfigObject => cases hsimple
  | configReference | configConcatenation | configDelayedMerge | configDelayedMergeObject => cases hb
  | _ => simp [fallback, Value.isUnmergeable, hvalue]

-- The fields that are left of the fallback after two merges.
theorem addedFields_merged (value other more : Fields Unit) :
    fallbackFields (addedFields value other) more ++
        addedFields (fallbackFields value other ++ addedFields value other) more =
      addedFields value (fallbackFields other more ++ addedFields other more) := by
  rw [addedFields, addedFields, addedFields, List.filter_append]
  congr 1
  · rw [fallbackFields_eq, fallbackFields_eq, List.filter_map]
    rfl
  · rw [addedFields, List.filter_filter]
    apply List.filter_congr
    intro field _
    rw [List.lookup_append, lookup_fallbackFields]
    cases hvalue : value.lookup field.1 with
    | some v => simp
    | none =>
        have hadded := lookup_addedFields hvalue other
        rw [addedFields] at hadded
        simp [hadded]

theorem fallback_objects (value other : Fields Unit) (ignores : Bool) :
    fallback (.simpleConfigObject () value false) (.simpleConfigObject () other ignores) =
      .simpleConfigObject () (fallbackFields value other ++ addedFields value other) ignores := by
  unfold fallback
  rfl

theorem Value.eq_object {v : Value Unit} (h : v.isSimpleObject) :
    ∃ value ignores, v = .simpleConfigObject () value ignores := by
  cases v with
  | simpleConfigObject id value ignores => exact ⟨value, ignores, rfl⟩
  | _ => cases h

-- An object with two fallbacks, when the fields fall back in either order.
theorem fallback_assoc_object {value : Fields Unit} {b c : Value Unit}
    (hvalue : Value.resolvedFields value) (hb : b.resolved) (hc : c.resolved)
    (hfields : ∀ other more, Value.resolvedFields other → Value.resolvedFields more →
      fallbackFields (fallbackFields value other) more =
        fallbackFields value (fallbackFields other more ++ addedFields other more)) :
    fallback (fallback (.simpleConfigObject () value false) b) c =
      fallback (.simpleConfigObject () value false) (fallback b c) := by
  cases hsimple : b.isSimpleObject with
  | false =>
      rw [fallback_of_resolved hb hsimple, fallback_object hb hsimple hvalue]
      exact fallback_of_ignores rfl c
  | true =>
      obtain ⟨other, ignores, rfl⟩ := b.eq_object hsimple
      rw [fallback_objects]
      cases ignores with
      | true =>
          rw [fallback_of_ignores (a := .simpleConfigObject () other true) rfl, fallback_objects]
          exact fallback_of_ignores rfl c
      | false =>
          cases hsimple' : c.isSimpleObject with
          | false =>
              have hmerged := resolved_fallback (.simpleConfigObject () value false) _ hvalue hb
              rw [fallback_objects] at hmerged
              rw [fallback_object hc hsimple' hb, fallback_object hc hsimple' hmerged,
                fallback_objects]
          | true =>
              obtain ⟨more, ignores, rfl⟩ := c.eq_object hsimple'
              rw [fallback_objects, fallback_objects, fallback_objects, fallbackFields_append,
                List.append_assoc, addedFields_merged, hfields other more hb hc]

mutual

theorem fallback_assoc : ∀ a b c : Value Unit, a.resolved → b.resolved → c.resolved →
    fallback (fallback a b) c = fallback a (fallback b c)
  | .simpleConfigObject _ value true, b, c, _, _, _ => by
      rw [fallback_of_ignores rfl, fallback_of_ignores rfl, fallback_of_ignores rfl]
  | .simpleConfigObject _ value false, b, c, ha, hb, hc =>
      fallback_assoc_object ha hb hc (fallbackFields_assoc value · · ha)
  | .configNull _, b, c, ha, _, _ | .configBoolean _ _, b, c, ha, _, _
  | .configInt _ _ _, b, c, ha, _, _ | .configInt64 _ _ _, b, c, ha, _, _
  | .configDouble _ _, b, c, ha, _, _ | .configString _ _, b, c, ha, _, _
  | .simpleConfigList _ _, b, c, ha, _, _ => by
      rw [fallback_of_resolved ha rfl, fallback_of_resolved ha rfl, fallback_of_resolved ha rfl]
  | .configReference _ _ _, _, _, ha, _, _ => by cases ha
  | .configConcatenation _ _, _, _, ha, _, _ => by cases ha
  | .configDelayedMerge _ _, _, _, ha, _, _ => by cases ha
  | .configDelayedMergeObject _ _, _, _, ha, _, _ => by cases ha

theorem fallbackFields_assoc : ∀ value other more : Fields Unit, Value.resolvedFields value →
    Value.resolvedFields other → Value.resolvedFields more →
    fallbackFields (fallbackFields value other) more =
      fallbackFields value (fallbackFields other more ++ addedFields other more)
  | [], _, _, _, _, _ => rfl
  | (key, v) :: rest, other, more, hvalue, hother, hmore => by
      rw [Value.resolvedFields, Bool.and_eq_true] at hvalue
      rw [fallbackFields, fallbackFields, fallbackFields,
        fallbackFields_assoc rest other more hvalue.2 hother hmore]
      congr 2
      rw [List.lookup_append, lookup_fallbackFields]
      cases hlookup : other.lookup key with
      | none =>
          rw [lookup_addedFields hlookup]
          rfl
      | some w =>
          have hw := resolved_of_lookup hother hlookup
          cases hlookup' : more.lookup key with
          | none => simp [fallbackField, hlookup']
          | some u =>
              have hu := resolved_of_lookup hmore hlookup'
              simp only [Option.map_some, Option.some_or, fallbackField, hlookup']
              exact fallback_assoc v w u hvalue.1 hw hu

end

mutual

theorem Value.constructed_of_resolved : ∀ v : Value ι, v.resolved → v.Forall Value.Constructed
  | .configNull _, _ | .configBoolean _ _, _ | .configInt _ _ _, _ | .configInt64 _ _ _, _
  | .configDouble _ _, _ | .configString _ _, _ => trivial
  | .simpleConfigList _ value, h => ⟨trivial, constructedAll_of_resolved value h⟩
  | .simpleConfigObject _ value _, h => ⟨trivial, constructedFields_of_resolved value h⟩
  | .configReference _ _ _, h => by cases h
  | .configConcatenation _ _, h => by cases h
  | .configDelayedMerge _ _, h => by cases h
  | .configDelayedMergeObject _ _, h => by cases h

theorem constructedAll_of_resolved : ∀ vs : List (Value ι), Value.resolvedAll vs →
    ForallAll Value.Constructed vs
  | [], _ => trivial
  | v :: rest, h => by
      rw [Value.resolvedAll, Bool.and_eq_true] at h
      exact ⟨Value.constructed_of_resolved v h.1, constructedAll_of_resolved rest h.2⟩

theorem constructedFields_of_resolved : ∀ fields : List (Bytes × Value ι),
    Value.resolvedFields fields → ForallFields Value.Constructed fields
  | [], _ => trivial
  | (_, v) :: rest, h => by
      rw [Value.resolvedFields, Bool.and_eq_true] at h
      exact ⟨Value.constructed_of_resolved v h.1, constructedFields_of_resolved rest h.2⟩

end

theorem withFallback_eq {a b : Value Unit} (ha : a.Forall Value.Constructed)
    (hb : b.Forall Value.Constructed) :
    withFallback .plain a b () = .ok (fallback a b) () := by
  have h := gives_withFallback_contents .plain ha hb ()
  cases hr : withFallback .plain a b () with
  | ok c s =>
      rw [hr] at h
      dsimp only at h
      rw [c.contents_eq_self, a.contents_eq_self, b.contents_eq_self] at h
      rw [h]
  | error e s =>
      rw [hr] at h
      cases h

theorem withFallback_of_ignores {a : Value ι} (h : a.ignoresFallbacks) (b : Value ι) (s : σ) :
    withFallback objects a b s = .ok a s := by
  have hmerge : mergeFallback objects a b = pure none := by
    cases a with
    | simpleConfigObject id value ignores =>
        unfold mergeFallback
        exact if_pos h
    | _ =>
        rw [mergeFallback_of_not_simple objects rfl]
        exact if_pos h
  rw [withFallback, hmerge]
  rfl

theorem ignoresFallbacks_fallback {a b : Value Unit} (ha : a.resolved) (hb : b.resolved)
    (hobject : a.isObject) (hother : b.isObject = false) : (fallback a b).ignoresFallbacks := by
  cases a with
  | simpleConfigObject id value ignores =>
      cases ignores with
      | true =>
          rw [fallback_of_ignores rfl]
          rfl
      | false =>
          have hsimple : b.isSimpleObject = false := by
            cases b with
            | simpleConfigObject => cases hother
            | _ => rfl
          rw [fallback_object hb hsimple ha]
          rfl
  | configDelayedMergeObject => cases ha
  | _ => cases hobject

-- Two fallbacks in a row, and one to a value that has fallen back already, give the
-- same value with the same flags. After falling back to a non-object, an object
-- takes no further fallback.
theorem withFallback_assoc (a b c : Value Unit) (ha : a.resolved) (hb : b.resolved)
    (hc : c.resolved) :
    ∃ ab bc abc, withFallback .plain a b () = .ok ab () ∧ withFallback .plain ab c () = .ok abc () ∧
      withFallback .plain b c () = .ok bc () ∧ withFallback .plain a bc () = .ok abc () ∧
      (a.isObject → b.isObject = false → ∀ d : Value Unit,
        withFallback .plain ab d () = .ok ab ()) := by
  have hab := resolved_fallback a b ha hb
  have hbc := resolved_fallback b c hb hc
  refine ⟨fallback a b, fallback b c, fallback (fallback a b) c, ?_, ?_, ?_, ?_, ?_⟩
  · exact withFallback_eq (a.constructed_of_resolved ha) (b.constructed_of_resolved hb)
  · exact withFallback_eq (Value.constructed_of_resolved _ hab) (c.constructed_of_resolved hc)
  · exact withFallback_eq (b.constructed_of_resolved hb) (c.constructed_of_resolved hc)
  · rw [fallback_assoc a b c ha hb hc]
    exact withFallback_eq (a.constructed_of_resolved ha) (Value.constructed_of_resolved _ hbc)
  · intro hobject hother d
    exact withFallback_of_ignores .plain (ignoresFallbacks_fallback ha hb hobject hother) d ()

-- `{a: 1}`, the number 5 and `{b: null}`.
theorem withFallback_assoc_number :
    ∃ ab bc abc,
      withFallback .plain (.simpleConfigObject () [(ascii "a", .configInt () 1 [])] false)
        (.configInt () 5 []) () = .ok ab () ∧
      withFallback .plain ab (.simpleConfigObject () [(ascii "b", .configNull ())] false) () =
        .ok abc () ∧
      withFallback .plain (.configInt () 5 [])
        (.simpleConfigObject () [(ascii "b", .configNull ())] false) () = .ok bc () ∧
      withFallback .plain (.simpleConfigObject () [(ascii "a", .configInt () 1 [])] false) bc () =
        .ok abc () ∧ ∀ d : Value Unit, withFallback .plain ab d () = .ok ab () := by
  obtain ⟨ab, bc, abc, hab, habc, hbc, ha, hignores⟩ := withFallback_assoc
    (.simpleConfigObject () [(ascii "a", .configInt () 1 [])] false) (.configInt () 5 [])
    (.simpleConfigObject () [(ascii "b", .configNull ())] false) rfl rfl rfl
  exact ⟨ab, bc, abc, hab, habc, hbc, ha, hignores rfl rfl⟩

end AsrServiceProxy.Config

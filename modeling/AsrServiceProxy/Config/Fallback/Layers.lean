import AsrServiceProxy.Config.Fallback.Theorems
import AsrServiceProxy.Config.Lookup.Theorems

-- Which layer of a config a setting comes from: falling back, seen path by path.
namespace AsrServiceProxy.Config

open CMemory Simulation

-- Whether a fallback is asked for what lies under these keys: on the way down there
-- are only objects that merge, or nothing.
def Value.opens {ι : Type} : List Bytes → Value ι → Bool
  | [], _ => true
  | key :: keys, .simpleConfigObject _ value ignores =>
      !ignores && (value.lookup key).all (Value.opens keys)
  | _ :: _, _ => false

theorem child_fallback {value other : Fields Unit} {ignores : Bool} (key : Bytes) :
    (fallback (.simpleConfigObject () value false)
        (.simpleConfigObject () other ignores)).child key =
      Option.merge fallback (value.lookup key) (other.lookup key) := by
  rw [fallback_objects, Value.child, List.lookup_append, lookup_fallbackFields]
  cases hvalue : value.lookup key with
  | none => simp [lookup_addedFields hvalue other]
  | some v =>
      cases hother : other.lookup key with
      | none => simp [fallbackField, hother]
      | some w => simp [fallbackField, hother]

theorem Value.child_eq_none {v : Value Unit} (h : v.isSimpleObject = false) (key : Bytes) :
    v.child key = none := by
  cases v with
  | simpleConfigObject => cases h
  | _ => rfl

theorem Value.opens_eq_false {v : Value Unit} (h : v.isSimpleObject = false) (key : Bytes)
    (keys : List Bytes) : v.opens (key :: keys) = false := by
  cases v with
  | simpleConfigObject => cases h
  | _ => rfl

theorem descend_fallback (keys : List Bytes) {a b : Value Unit} (ha : a.resolved)
    (hb : b.resolved) :
    (fallback a b).descend keys =
      Option.merge fallback (a.descend keys) (if a.opens keys then b.descend keys else none) := by
  induction keys generalizing a b with
  | nil => rfl
  | cons key keys ih =>
      by_cases hsimple : a.isSimpleObject
      · obtain ⟨value, ignores, rfl⟩ := Value.eq_object hsimple
        cases ignores with
        | true =>
            rw [fallback_of_ignores rfl]
            simp [Value.opens]
        | false =>
            by_cases hother : b.isSimpleObject
            · obtain ⟨other, ignores, rfl⟩ := Value.eq_object hother
              simp only [Value.descend_cons, child_fallback, Value.opens]
              simp only [Value.child]
              rcases Option.eq_none_or_eq_some (value.lookup key) with hvalue | ⟨v, hvalue⟩
              · simp [hvalue]
              · rcases Option.eq_none_or_eq_some (other.lookup key) with hlookup | ⟨w, hlookup⟩
                · simp [hvalue, hlookup]
                · have hv := resolved_of_lookup ha hvalue
                  have hw := resolved_of_lookup hb hlookup
                  simpa [hvalue, hlookup] using ih hv hw
            · rw [Bool.not_eq_true] at hother
              have hnone : b.descend (key :: keys) = none := by
                rw [Value.descend_cons, Value.child_eq_none hother]
                rfl
              rw [fallback_object hb hother ha, hnone, ite_self, Option.merge_none_right]
              rfl
      · rw [Bool.not_eq_true] at hsimple
        rw [fallback_of_resolved ha hsimple, Value.opens_eq_false hsimple]
        simp

theorem opens_fallback (keys : List Bytes) {a b : Value Unit} (ha : a.resolved) (hb : b.resolved) :
    (fallback a b).opens keys = (a.opens keys && b.opens keys) := by
  induction keys generalizing a b with
  | nil => rfl
  | cons key keys ih =>
      by_cases hsimple : a.isSimpleObject
      · obtain ⟨value, ignores, rfl⟩ := Value.eq_object hsimple
        cases ignores with
        | true =>
            rw [fallback_of_ignores rfl]
            simp [Value.opens]
        | false =>
            by_cases hother : b.isSimpleObject
            · obtain ⟨other, ignores, rfl⟩ := Value.eq_object hother
              have hchild := @child_fallback value other ignores key
              rw [fallback_objects, Value.child] at hchild
              rw [fallback_objects, Value.opens, hchild, Value.opens, Value.opens]
              cases hvalue : value.lookup key with
              | none => simp
              | some v =>
                  cases hlookup : other.lookup key with
                  | none => cases ignores <;> simp
                  | some w =>
                      have hv := resolved_of_lookup ha hvalue
                      have hw := resolved_of_lookup hb hlookup
                      cases ignores <;> simp [ih hv hw]
            · rw [Bool.not_eq_true] at hother
              rw [fallback_object hb hother ha, Value.opens_eq_false hother]
              simp [Value.opens]
      · rw [Bool.not_eq_true] at hsimple
        rw [fallback_of_resolved ha hsimple, Value.opens_eq_false hsimple]
        simp

-- Some layer has such a value under the keys, and the layers above it have nothing
-- there and nothing that is in the way.
def Supplies {ι : Type} (keys : List Bytes) (p : Value ι → Prop) : List (Value ι) → Prop
  | [] => False
  | layer :: rest =>
      (∃ v, layer.descend keys = some v ∧ p v) ∨
        layer.descend keys = none ∧ layer.opens keys = true ∧ Supplies keys p rest

theorem supplies_iff {ι : Type} {keys : List Bytes} {p : Value ι → Prop} {layers : List (Value ι)} :
    Supplies keys p layers ↔ ∃ above layer below v, layers = above ++ layer :: below ∧
      layer.descend keys = some v ∧ p v ∧
      ∀ other ∈ above, other.descend keys = none ∧ other.opens keys = true := by
  induction layers with
  | nil => simp [Supplies]
  | cons first rest ih =>
      rw [Supplies, ih]
      constructor
      · rintro (⟨v, hfirst, hv⟩ | ⟨hnone, hopens, above, layer, below, v, rfl, hlayer, hv, habove⟩)
        · exact ⟨[], first, rest, v, rfl, hfirst, hv, by simp⟩
        · refine ⟨first :: above, layer, below, v, rfl, hlayer, hv, ?_⟩
          intro other hother
          rcases List.mem_cons.mp hother with rfl | hother
          · exact ⟨hnone, hopens⟩
          · exact habove other hother
      · rintro ⟨above, layer, below, v, heq, hlayer, hv, habove⟩
        cases above with
        | nil =>
            obtain ⟨rfl, rfl⟩ := List.cons.inj heq
            exact .inl ⟨v, hlayer, hv⟩
        | cons other above =>
            obtain ⟨rfl, rfl⟩ := List.cons.inj heq
            obtain ⟨hnone, hopens⟩ := habove first List.mem_cons_self
            refine .inr ⟨hnone, hopens, above, layer, below, v, rfl, hlayer, hv, ?_⟩
            intro other hother
            exact habove other (List.mem_cons_of_mem _ hother)

theorem Value.opens_contents {ι : Type} (keys : List Bytes) (v : Value ι) :
    v.contents.opens keys = v.opens keys := by
  induction keys generalizing v with
  | nil => rfl
  | cons key keys ih =>
      cases v with
      | simpleConfigObject id value ignores =>
          rw [Value.contents, Value.opens, Value.opens, lookup_contentsFields, Option.all_map]
          exact congrArg (fun p => !ignores && (value.lookup key).all p) (funext ih)
      | _ => rfl

theorem supplies_contents {ι : Type} {keys : List Bytes} {p : Value Unit → Prop}
    {layers : List (Value ι)} :
    Supplies keys p (layers.map Value.contents) ↔ Supplies keys (fun v => p v.contents) layers := by
  induction layers with
  | nil => rfl
  | cons first rest ih =>
      rw [List.map_cons, Supplies, Supplies, ih, Value.descend_contents, Value.opens_contents]
      simp

-- What falling back does not change about a value.
def KeptOnTop (p : Value Unit → Prop) : Prop :=
  ∀ a b : Value Unit, a.resolved → b.resolved → (p (fallback a b) ↔ p a)

theorem isObject_fallback {a b : Value Unit} (ha : a.resolved) (hb : b.resolved)
    (h : a.isObject) : (fallback a b).isObject := by
  obtain ⟨_, value, ignores, rfl⟩ := Value.eq_simpleConfigObject h ha
  cases ignores with
  | true =>
      rw [fallback_of_ignores rfl]
      rfl
  | false =>
      by_cases hother : b.isSimpleObject
      · obtain ⟨other, ignores, rfl⟩ := Value.eq_object hother
        rw [fallback_objects]
        rfl
      · rw [Bool.not_eq_true] at hother
        rw [fallback_object hb hother ha]
        rfl

theorem layers_object {first : Value Unit} (hobject : first.isObject) (hfirst : first.resolved)
    (rest : List (Value Unit)) (hrest : ∀ layer ∈ rest, layer.resolved) :
    (rest.foldl fallback first).isObject = true ∧ (rest.foldl fallback first).resolved = true := by
  induction rest generalizing first with
  | nil => exact ⟨hobject, hfirst⟩
  | cons second rest ih =>
      have hsecond := hrest second List.mem_cons_self
      exact ih (isObject_fallback hfirst hsecond hobject) (resolved_fallback _ _ hfirst hsecond)
        fun layer hlayer => hrest layer (List.mem_cons_of_mem _ hlayer)

-- A value that is no object is what it was before it fell back.
theorem keptOnTop_eq {v : Value Unit} (hv : v.isObject = false) : KeptOnTop (· = v) := by
  intro a b ha hb
  dsimp only
  by_cases h : a.isObject
  · have hfallback := isObject_fallback ha hb h
    constructor
    · intro heq
      rw [heq, hv] at hfallback
      cases hfallback
    · intro heq
      rw [heq, hv] at h
      cases h
  · have hsimple : a.isSimpleObject = false := by
      cases a with
      | simpleConfigObject => exact absurd rfl h
      | _ => rfl
    rw [fallback_of_resolved ha hsimple]

theorem keptOnTop_isNull : KeptOnTop fun v => v.isNull = false := by
  intro a b ha hb
  by_cases h : a.isObject
  · have hobject : ∀ {v : Value Unit}, v.isObject = true → v.isNull = false := by
      intro v hv
      cases v <;> first | rfl | cases hv
    simp only [hobject h, hobject (isObject_fallback ha hb h)]
  · have hsimple : a.isSimpleObject = false := by
      cases a with
      | simpleConfigObject => exact absurd rfl h
      | _ => rfl
    rw [fallback_of_resolved ha hsimple]

theorem supplies_fallback {keys : List Bytes} {p : Value Unit → Prop} (hp : KeptOnTop p)
    {a b : Value Unit} (ha : a.resolved) (hb : b.resolved) (rest : List (Value Unit)) :
    Supplies keys p (fallback a b :: rest) ↔ Supplies keys p (a :: b :: rest) := by
  simp only [Supplies, descend_fallback keys ha hb, opens_fallback keys ha hb]
  cases hfirst : a.descend keys with
  | none => cases a.opens keys <;> simp
  | some u =>
      have hu := Value.resolved_of_descend ha hfirst
      by_cases hopens : a.opens keys
      · cases hsecond : b.descend keys with
        | none => simp [hopens]
        | some w =>
            have hw := Value.resolved_of_descend hb hsecond
            simp [hopens, hp u w hu hw]
      · simp [hopens]

theorem descend_layers {keys : List Bytes} {p : Value Unit → Prop} (hp : KeptOnTop p)
    (rest : List (Value Unit)) {first : Value Unit} (hfirst : first.resolved)
    (hrest : ∀ layer ∈ rest, layer.resolved) :
    (∃ v, (rest.foldl fallback first).descend keys = some v ∧ p v) ↔
      Supplies keys p (first :: rest) := by
  induction rest generalizing first with
  | nil => simp [Supplies]
  | cons second rest ih =>
      have hsecond := hrest second List.mem_cons_self
      rw [List.foldl_cons, ih (resolved_fallback first second hfirst hsecond) fun layer hlayer =>
        hrest layer (List.mem_cons_of_mem _ hlayer)]
      exact supplies_fallback hp hfirst hsecond rest

-- `with_fallback` again and again, as the layers of a config are put together.
theorem gives_layers {ι σ : Type} (objects : Objects ι σ) (rest : List (Value ι)) {first : Value ι}
    (hfirst : first.resolved) (hrest : ∀ layer ∈ rest, layer.resolved) :
    Gives (rest.foldlM (withFallback objects) first)
      (fun merged => merged.contents = (rest.map Value.contents).foldl fallback first.contents)
      fun _ => False := by
  induction rest generalizing first with
  | nil => exact Gives.pure rfl
  | cons second rest ih =>
      have hsecond := hrest second List.mem_cons_self
      rw [List.foldlM_cons]
      refine Gives.bind (gives_withFallback_contents objects
        (first.constructed_of_resolved hfirst) (second.constructed_of_resolved hsecond)) ?_
      intro both hboth
      have hresolved : both.resolved = true := by
        rw [← both.resolved_contents, hboth]
        refine resolved_fallback _ _ ?_ ?_
        · rw [Value.resolved_contents, hfirst]
        · rw [Value.resolved_contents, hsecond]
      have hlayers := ih hresolved fun layer hlayer => hrest layer (List.mem_cons_of_mem _ hlayer)
      rw [hboth] at hlayers
      exact hlayers

@[simp] theorem Value.isNull_contents {ι : Type} (v : Value ι) : v.contents.isNull = v.isNull := by
  cases v <;> rfl

-- A setting of a config that was put together from layers is that of the first layer
-- with something at its path, unless a layer above has a value in the way of the path
-- or takes no fallback; a null up there takes the setting away.
theorem getValue_layers (doubles : Doubles) (newId : ℕ) {first : Value ℕ}
    (hobject : first.isObject = true) (hfirst : first.resolved = true) (rest : List (Value ℕ))
    (hrest : ∀ layer ∈ rest, layer.resolved = true) (nextId : ℕ) :
    ∃ merged nextId', rest.foldlM (withFallback .numbered) first nextId = .ok merged nextId' ∧
      ∀ expression path, parsePath doubles expression = .ok path →
        (SimpleConfig.hasPath doubles merged expression = .ok true ↔
          ∃ above layer below v, first :: rest = above ++ layer :: below ∧
            layer.descend path.keys = some v ∧ v.isNull = false ∧
            ∀ other ∈ above, other.descend path.keys = none ∧ other.opens path.keys = true) ∧
        ∀ value : Value Unit, value.isObject = false → value.isNull = false →
          ((∃ w, SimpleConfig.getValue doubles newId merged expression = .ok w ∧
              w.contents = value) ↔
            ∃ above layer below v, first :: rest = above ++ layer :: below ∧
              layer.descend path.keys = some v ∧ v.contents = value ∧
              ∀ other ∈ above, other.descend path.keys = none ∧ other.opens path.keys = true) := by
  have hgives := gives_layers .numbered rest hfirst hrest nextId
  have hfirst' : first.contents.resolved = true := by rw [Value.resolved_contents, hfirst]
  have hrest' : ∀ layer ∈ rest.map Value.contents, layer.resolved = true := by
    intro layer hlayer
    obtain ⟨other, hother, rfl⟩ := List.mem_map.mp hlayer
    rw [Value.resolved_contents, hrest other hother]
  cases hrun : rest.foldlM (withFallback .numbered) first nextId with
  | error e nextId' =>
      rw [hrun] at hgives
      cases hgives
  | ok merged nextId' =>
      rw [hrun] at hgives
      refine ⟨merged, nextId', rfl, fun expression path hpath => ?_⟩
      dsimp only at hgives
      have hmerged : merged.isObject = true ∧ merged.resolved = true := by
        rw [← merged.isObject_contents, ← merged.resolved_contents, hgives]
        exact layers_object (by simpa using hobject) hfirst' _ hrest'
      have hdescend : ∀ p : Value Unit → Prop, KeptOnTop p →
          ((∃ w, merged.descend path.keys = some w ∧ p w.contents) ↔
            Supplies path.keys (fun v => p v.contents) (first :: rest)) := by
        intro p hp
        have h := @descend_layers path.keys p hp _ _ hfirst' hrest'
        rw [← hgives, Value.descend_contents, ← List.map_cons, supplies_contents] at h
        simpa using h
      have hhas := hasPath_eq doubles hmerged.1 hmerged.2 hpath
      refine ⟨?_, fun value hvalue hnull => ?_⟩
      · have h := hdescend _ keptOnTop_isNull
        rw [supplies_iff] at h
        simp only [Value.isNull_contents] at h
        rw [hhas, ← h, Except.ok.injEq, Option.any_eq_true]
        simp
      · have h := hdescend _ (keptOnTop_eq hvalue)
        rw [supplies_iff] at h
        rw [← h]
        have hget := getValue_eq_ok_iff doubles newId hmerged.1 hmerged.2 hpath
        constructor
        · rintro ⟨w, hw, rfl⟩
          exact ⟨w, ((hget w).mp hw).1, rfl⟩
        · rintro ⟨w, hw, rfl⟩
          rw [Value.isNull_contents] at hnull
          exact ⟨w, (hget w).mpr ⟨hw, hnull⟩, rfl⟩

-- The layers `a.b = 1`, `{}` and `a { b = 2, c = 3 }` asked for `a.c`.
theorem getValue_layers_nested :
    let layer (fields : Fields ℕ) : Value ℕ :=
      .simpleConfigObject 0 [(ascii "a", .simpleConfigObject 1 fields false)] false
    let first := layer [(ascii "b", .configInt 2 1 [])]
    let rest : List (Value ℕ) := [.simpleConfigObject 3 [] false,
      layer [(ascii "b", .configInt 4 2 []), (ascii "c", .configInt 5 3 [])]]
    ∃ merged nextId', rest.foldlM (withFallback .numbered) first 6 = .ok merged nextId' ∧
      ∃ w, SimpleConfig.getValue ⟨fun _ => none, id⟩ 9 merged (ascii "a.c") = .ok w ∧
        w.contents = .configInt () 3 [] := by
  intro layer first rest
  have hrest : ∀ other ∈ rest, other.resolved = true := by decide
  obtain ⟨merged, nextId', hrun, hmerged⟩ :=
    @getValue_layers ⟨fun _ => none, id⟩ 9 first rfl rfl rest hrest 6
  have hpath : parsePath ⟨fun _ => none, id⟩ (ascii "a.c") =
      .ok (.cons (ascii "a") (.newKey (ascii "c"))) := by decide
  refine ⟨merged, nextId', hrun, ((hmerged _ _ hpath).2 (.configInt () 3 []) rfl rfl).mpr ?_⟩
  refine ⟨[first, .simpleConfigObject 3 [] false], _, [], .configInt 5 3 [], rfl, ?_, rfl, ?_⟩
  · decide
  · decide

end AsrServiceProxy.Config

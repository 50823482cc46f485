import AsrServiceProxy.Config.Fallback.Layers
import AsrServiceProxy.Config.Resolve.Solution

-- The order in which the fields of objects are walked: what a config is resolved to
-- does not depend on it.
namespace AsrServiceProxy.Config

open CMemory Entries

-- A value without the order of the fields: an object is a partial function of the keys.
inductive Shape where
  | leaf (v : Value Unit)
  | list (elements : List Shape)
  | concatenation (pieces : List Shape)
  | object (fields : Bytes → Option Shape) (ignores : Bool)

mutual

def Value.shape : Value Unit → Shape
  | .simpleConfigList _ value => .list (shapeAll value)
  | .simpleConfigObject _ value ignores => .object (shapeFields value) ignores
  | .configConcatenation _ pieces => .concatenation (shapeAll pieces)
  | v => .leaf v

def shapeAll : List (Value Unit) → List Shape
  | [] => []
  | v :: rest => v.shape :: shapeAll rest

def shapeFields : List (Bytes × Value Unit) → Bytes → Option Shape
  | [], _ => none
  | (name, v) :: rest, key => if key = name then some v.shape else shapeFields rest key

end

theorem shapeAll_eq (vs : List (Value Unit)) : shapeAll vs = vs.map Value.shape := by
  induction vs with
  | nil => rfl
  | cons v rest ih => rw [shapeAll, ih, List.map_cons]

theorem shapeFields_eq (fields : Fields Unit) (key : Bytes) :
    shapeFields fields key = (fields.lookup key).map Value.shape := by
  induction fields with
  | nil => rfl
  | cons field rest ih =>
      rw [shapeFields, lookup_cons, ih]
      split <;> rfl

section

variable {v w : Value Unit}

theorem eq_of_shape_leaf (h : v.shape = .leaf w) : v = w := by
  cases v with
  | simpleConfigList | simpleConfigObject | configConcatenation => cases h
  | _ =>
      cases h
      rfl

theorem eq_of_shape_primitive (hv : v.isPrimitive) (h : v.shape = w.shape) : w = v := by
  apply eq_of_shape_leaf
  rw [← h]
  cases v with
  | configNull | configBoolean | configInt | configInt64 | configDouble | configString => rfl
  | _ => cases hv

theorem eq_of_shape_reference {expr : SubstitutionExpression} {prefixLength : ℕ}
    (h : (Value.configReference () expr prefixLength).shape = w.shape) :
    w = .configReference () expr prefixLength :=
  eq_of_shape_leaf h.symm

theorem eq_of_shape_list {vs : List (Value Unit)}
    (h : (Value.simpleConfigList () vs).shape = w.shape) :
    ∃ ws, w = .simpleConfigList () ws ∧ vs.map Value.shape = ws.map Value.shape := by
  rw [Value.shape, shapeAll_eq] at h
  cases w with
  | simpleConfigList id ws =>
      rw [Value.shape, shapeAll_eq, Shape.list.injEq] at h
      exact ⟨ws, rfl, h⟩
  | _ => cases h

theorem eq_of_shape_concatenation {vs : List (Value Unit)}
    (h : (Value.configConcatenation () vs).shape = w.shape) :
    ∃ ws, w = .configConcatenation () ws ∧ vs.map Value.shape = ws.map Value.shape := by
  rw [Value.shape, shapeAll_eq] at h
  cases w with
  | configConcatenation id ws =>
      rw [Value.shape, shapeAll_eq, Shape.concatenation.injEq] at h
      exact ⟨ws, rfl, h⟩
  | _ => cases h

theorem eq_of_shape_object {fields : Fields Unit} {ignores : Bool}
    (h : (Value.simpleConfigObject () fields ignores).shape = w.shape) :
    ∃ others, w = .simpleConfigObject () others ignores ∧
      ∀ key, (fields.lookup key).map Value.shape = (others.lookup key).map Value.shape := by
  rw [Value.shape] at h
  cases w with
  | simpleConfigObject id others ignores' =>
      rw [Value.shape, Shape.object.injEq] at h
      obtain ⟨hfields, rfl⟩ := h
      refine ⟨others, rfl, fun key => ?_⟩
      rw [← shapeFields_eq, ← shapeFields_eq, hfields]
  | _ => cases h

theorem shape_object {fields others : Fields Unit} {ignores : Bool}
    (h : ∀ key, (fields.lookup key).map Value.shape = (others.lookup key).map Value.shape) :
    (Value.simpleConfigObject () fields ignores).shape =
      (Value.simpleConfigObject () others ignores).shape := by
  rw [Value.shape, Value.shape, Shape.object.injEq]
  refine ⟨funext fun key => ?_, rfl⟩
  rw [shapeFields_eq, shapeFields_eq, h]

theorem isObject_of_shape (h : v.shape = w.shape) (hv : v.isSimpleObject) : w.isSimpleObject := by
  cases v with
  | simpleConfigObject =>
      obtain ⟨others, rfl, -⟩ := eq_of_shape_object h
      rfl
  | _ => cases hv

theorem isSimpleList_of_shape (h : v.shape = w.shape) (hv : v.isSimpleList) : w.isSimpleList := by
  cases v with
  | simpleConfigList =>
      obtain ⟨others, rfl, -⟩ := eq_of_shape_list h
      rfl
  | _ => cases hv

theorem transformToString_of_shape (h : v.shape = w.shape) :
    v.transformToString = w.transformToString := by
  cases v with
  | simpleConfigList =>
      obtain ⟨others, rfl, -⟩ := eq_of_shape_list h
      rfl
  | simpleConfigObject =>
      obtain ⟨others, rfl, -⟩ := eq_of_shape_object h
      rfl
  | configConcatenation =>
      obtain ⟨others, rfl, -⟩ := eq_of_shape_concatenation h
      rfl
  | _ => rw [eq_of_shape_leaf h.symm]

end

-- Falling back does not look at the order of the fields.
def FallsBackAlike (a : Value Unit) : Prop :=
  ∀ a' b b' : Value Unit, a'.resolved → b.resolved → b'.resolved → a.shape = a'.shape →
    b.shape = b'.shape → (fallback a b).shape = (fallback a' b').shape

theorem fallsBackAlike_of_not_simple {a : Value Unit} (ha : a.resolved)
    (hsimple : a.isSimpleObject = false) : FallsBackAlike a := by
  intro a' b b' ha' _ _ h _
  have hsimple' : a'.isSimpleObject = false := by
    rw [Bool.eq_false_iff]
    intro hobject
    rw [isObject_of_shape h.symm hobject] at hsimple
    cases hsimple
  rw [fallback_of_resolved ha hsimple, fallback_of_resolved ha' hsimple', h]

mutual

theorem Value.fallsBackAlike : ∀ a : Value Unit, a.resolved → FallsBackAlike a
  | .configNull _, h | .configBoolean _ _, h | .configInt _ _ _, h | .configInt64 _ _ _, h
  | .configDouble _ _, h | .configString _ _, h | .simpleConfigList _ _, h =>
      fallsBackAlike_of_not_simple h rfl
  | .simpleConfigObject _ value true, _ => by
      intro a' b b' _ _ _ h _
      obtain ⟨value', rfl, -⟩ := eq_of_shape_object h
      rw [fallback_of_ignores rfl, fallback_of_ignores rfl, h]
  | .simpleConfigObject _ value false, ha => by
      intro a' b b' ha' hb hb' h hother
      obtain ⟨value', rfl, hvalue⟩ := eq_of_shape_object h
      by_cases hsimple : b.isSimpleObject
      · obtain ⟨other, ignores, rfl⟩ := Value.eq_object hsimple
        obtain ⟨other', rfl, hothers⟩ := eq_of_shape_object hother
        rw [fallback_objects, fallback_objects]
        refine shape_object fun key => ?_
        have hchild := @child_fallback value other ignores key
        have hchild' := @child_fallback value' other' ignores key
        rw [fallback_objects, Value.child] at hchild hchild'
        rw [hchild, hchild']
        have hvalue := hvalue key
        have hother := hothers key
        cases hv : value.lookup key with
        | none =>
            rw [hv, Option.map_none, eq_comm, Option.map_eq_none_iff] at hvalue
            rwa [hvalue, Option.merge_none_left, Option.merge_none_left]
        | some v =>
            rw [hv, Option.map_some, eq_comm, Option.map_eq_some_iff] at hvalue
            obtain ⟨v', hv', hshape⟩ := hvalue
            cases hw : other.lookup key with
            | none =>
                rw [hw, Option.map_none, eq_comm, Option.map_eq_none_iff] at hother
                rw [hv', hother, Option.merge_none_right, Option.merge_none_right, Option.map_some,
                  Option.map_some, hshape]
            | some w =>
                rw [hw, Option.map_some, eq_comm, Option.map_eq_some_iff] at hother
                obtain ⟨w', hw', hshape'⟩ := hother
                have halike := fallsBackAlike_of_lookup value ha hv v' w w'
                  (resolved_of_lookup ha' hv') (resolved_of_lookup hb hw)
                  (resolved_of_lookup hb' hw') hshape.symm hshape'.symm
                rw [hv', hw', Option.merge_some_some, Option.merge_some_some, Option.map_some,
                  Option.map_some, halike]
      · rw [Bool.not_eq_true] at hsimple
        have hsimple' : b'.isSimpleObject = false := by
          rw [Bool.eq_false_iff]
          intro hobject
          rw [isObject_of_shape hother.symm hobject] at hsimple
          cases hsimple
        rw [fallback_object hb hsimple ha, fallback_object hb' hsimple' ha']
        exact shape_object hvalue

theorem fallsBackAlike_of_lookup : ∀ fields : Fields Unit, Value.resolvedFields fields →
    ∀ {key : Bytes} {v : Value Unit}, fields.lookup key = some v → FallsBackAlike v
  | (name, u) :: rest, h, key, v, hlookup => by
      rw [Value.resolvedFields, Bool.and_eq_true] at h
      rw [lookup_cons] at hlookup
      split at hlookup
      · cases hlookup
        exact u.fallsBackAlike h.1
      · exact fallsBackAlike_of_lookup rest h.2 hlookup

end

-- The second of two values that differ only in the order of the fields of their objects.
structure Reordered (v w : Value Unit) : Prop where
  shape : v.shape = w.shape
  wellMade : w.Forall Value.WellMade

theorem map_shape_eq {vs ws : List (Value Unit)} (h : List.Forall₂ Reordered vs ws) :
    vs.map Value.shape = ws.map Value.shape := by
  induction h with
  | nil => rfl
  | cons hvw _ ih => rw [List.map_cons, List.map_cons, hvw.shape, ih]

theorem forall₂_reordered {vs ws : List (Value Unit)}
    (h : vs.map Value.shape = ws.map Value.shape) (hws : ∀ w ∈ ws, w.Forall Value.WellMade) :
    List.Forall₂ Reordered vs ws := by
  induction vs generalizing ws with
  | nil =>
      cases ws with
      | nil => exact .nil
      | cons => cases h
  | cons v vs ih =>
      cases ws with
      | nil => cases h
      | cons w ws =>
          rw [List.map_cons, List.map_cons, List.cons.injEq] at h
          exact .cons ⟨h.1, hws w List.mem_cons_self⟩
            (ih h.2 fun x hx => hws x (List.mem_cons_of_mem w hx))

section

variable {left right left' right' x : Value Unit}

theorem join_objects (hleft : left.resolved) (hright : right.resolved) (hobject : left.isObject)
    (hobject' : right.isObject) : join .plain left right () = .ok [fallback right left] () := by
  have hrun := withFallback_eq (right.constructed_of_resolved hright)
    (left.constructed_of_resolved hleft)
  unfold join
  rw [if_pos (by rw [hobject, hobject']; rfl)]
  simp [bind, EStateM.bind, hrun, pure, EStateM.pure]

theorem join_lists {first second : List (Value Unit)} (hfirst : Value.resolvedAll first)
    (hsecond : Value.resolvedAll second) :
    join .plain (.simpleConfigList () first) (.simpleConfigList () second) () =
      .ok [.simpleConfigList () (first ++ second)] () := by
  have hresolved : Value.resolvedAll (first ++ second) = true := by
    rw [resolvedAll_iff] at hfirst hsecond ⊢
    intro v hv
    exact (List.mem_append.mp hv).elim (hfirst v) (hsecond v)
  unfold join
  rw [if_neg (by simp [Value.isObject])]
  dsimp only
  rw [makeList, if_neg fun h => h rfl]
  rfl

theorem join_reordered (hleft : left.resolved) (hright : right.resolved)
    (hleft' : left'.resolved) (hright' : right'.resolved) (hl : Reordered left left')
    (hr : Reordered right right') (hjoin : join .plain left right () = .ok [x] ()) :
    ∃ x', join .plain left' right' () = .ok [x'] () ∧ Reordered x x' := by
  have hobject {v w : Value Unit} (h : v.shape = w.shape) (hv : v.resolved) (hw : v.isObject) :
      w.isObject := by
    obtain ⟨_, value, ignores, rfl⟩ := Value.eq_simpleConfigObject hw hv
    obtain ⟨others, rfl, -⟩ := eq_of_shape_object h
    rfl
  by_cases hobjects : left.isObject ∧ right.isObject
  · rw [join_objects hleft hright hobjects.1 hobjects.2] at hjoin
    cases hjoin
    refine ⟨_, join_objects hleft' hright' (hobject hl.shape hleft hobjects.1)
      (hobject hr.shape hright hobjects.2), ?_, forall_fallback _ _ hr.wellMade hl.wellMade⟩
    exact right.fallsBackAlike hright right' left left' hright' hleft hleft' hr.shape hl.shape
  have hobjects' : ¬(left'.isObject ∧ right'.isObject) := fun h => hobjects
    ⟨hobject hl.shape.symm hleft' h.1, hobject hr.shape.symm hright' h.2⟩
  by_cases hlists : left.isSimpleList ∧ right.isSimpleList
  · obtain ⟨hfirst, hsecond⟩ := hlists
    cases left with
    | simpleConfigList _ first =>
        cases right with
        | simpleConfigList _ second =>
            obtain ⟨first', rfl, hl'⟩ := eq_of_shape_list hl.shape
            obtain ⟨second', rfl, hr'⟩ := eq_of_shape_list hr.shape
            rw [join_lists hleft hright] at hjoin
            cases hjoin
            refine ⟨_, join_lists hleft' hright', ?_, ⟨trivial, trivial⟩, ?_⟩
            · rw [Value.shape, Value.shape, shapeAll_eq, shapeAll_eq, List.map_append, hl', hr',
                List.map_append]
            · have hfirst' := (forallAll_iff first').mp hl.wellMade.2
              have hsecond' := (forallAll_iff second').mp hr.wellMade.2
              rw [forallAll_iff]
              intro w hw
              exact (List.mem_append.mp hw).elim (hfirst' w) (hsecond' w)
        | _ => cases hsecond
    | _ => cases hfirst
  have hlists' : ¬(left'.isSimpleList ∧ right'.isSimpleList) := fun h => hlists
    ⟨isSimpleList_of_shape hl.shape.symm h.1, isSimpleList_of_shape hr.shape.symm h.2⟩
  rw [join_eq_texts .plain hleft hright hobjects hlists] at hjoin
  rw [join_eq_texts .plain hleft' hright' hobjects' hlists',
    ← transformToString_of_shape hl.shape, ← transformToString_of_shape hr.shape]
  refine ⟨x, hjoin, rfl, ?_⟩
  split at hjoin
  · cases hjoin
  · cases hjoin
    exact ⟨trivial, trivial⟩

theorem joinAll_reordered {rest rest' : List (Value Unit)} {v v' : Value Unit} (hv : v.resolved)
    (hv' : v'.resolved) (hvv' : Reordered v v') (hrest : ∀ w ∈ rest, w.resolved)
    (hrest' : ∀ w ∈ rest', w.resolved) (h : List.Forall₂ Reordered rest rest')
    (hjoin : joinAll .plain [v] rest () = .ok [x] ()) :
    ∃ x', joinAll .plain [v'] rest' () = .ok [x'] () ∧ Reordered x x' := by
  induction h generalizing v v' with
  | nil =>
      cases hjoin
      exact ⟨v', rfl, hvv'⟩
  | @cons w w' rest rest' hw _ ih =>
      have hloop (u t : Value Unit) (more : List (Value Unit)) : joinAll .plain [u] (t :: more) =
          (join .plain u t >>= fun vs => joinAll .plain vs more) := rfl
      have hstep {u t y : Value Unit} (more : List (Value Unit))
          (h : join .plain u t () = .ok [y] ()) :
          joinAll .plain [u] (t :: more) () = joinAll .plain [y] more () := by
        rw [hloop]
        simp [bind, EStateM.bind, h]
      have hresolved := gives_join_contents .plain hv (hrest w List.mem_cons_self) ()
      cases hrun : join .plain v w () with
      | error e =>
          rw [hloop] at hjoin
          simp [bind, EStateM.bind, hrun] at hjoin
      | ok vs s =>
          rw [hrun] at hresolved
          obtain ⟨y, rfl, hy, -⟩ := hresolved
          obtain ⟨y', hrun', hyy'⟩ := join_reordered hv (hrest w List.mem_cons_self) hv'
            (hrest' w' List.mem_cons_self) hvv' hw hrun
          have hresolved' := gives_join_contents .plain hv' (hrest' w' List.mem_cons_self) ()
          rw [hrun'] at hresolved'
          obtain ⟨z, hz, hz', -⟩ := hresolved'
          cases hz
          rw [hstep rest hrun] at hjoin
          rw [hstep rest' hrun']
          exact ih hy hz' hyy' (fun u hu => hrest u (List.mem_cons_of_mem w hu))
            (fun u hu => hrest' u (List.mem_cons_of_mem w' hu)) hjoin

theorem consolidate_reordered {pieces pieces' : List (Value Unit)}
    (hpieces : ∀ w ∈ pieces, w.resolved) (hpieces' : ∀ w ∈ pieces', w.resolved)
    (h : List.Forall₂ Reordered pieces pieces') (hjoin : consolidate .plain pieces () = .ok [x] ()) :
    ∃ x', consolidate .plain pieces' () = .ok [x'] () ∧ Reordered x x' := by
  rw [consolidate, flattenPieces_of_resolved hpieces] at hjoin
  rw [consolidate, flattenPieces_of_resolved hpieces', ← h.length_eq]
  split at hjoin
  · rw [if_pos ‹_›]
    cases hjoin
    cases h with
    | cons hx hrest =>
        cases hrest
        exact ⟨_, rfl, hx⟩
  · rw [if_neg ‹_›]
    cases h with
    | nil => cases hjoin
    | @cons v v' rest rest' hv hrest =>
        exact joinAll_reordered (hpieces v List.mem_cons_self) (hpieces' v' List.mem_cons_self) hv
          (fun w hw => hpieces w (List.mem_cons_of_mem v hw))
          (fun w hw => hpieces' w (List.mem_cons_of_mem v' hw)) hrest hjoin

end

inductive Query.Reordered : Query → Query → Prop
  | value {v w : Value Unit} (h : Config.Reordered v w) : Query.Reordered (.value v) (.value w)
  | path {v w : Value Unit} (h : Config.Reordered v w) (keys : List Bytes) :
      Query.Reordered (.path v keys) (.path w keys)
  | reference (expr : SubstitutionExpression) (prefixLength : ℕ) :
      Query.Reordered (.reference expr prefixLength) (.reference expr prefixLength)

-- The config and the environment with their fields in another order.
structure Sources.Reordered (sources sources' : Sources) : Prop where
  root : Config.Reordered sources.root sources'.root
  options : sources.options = sources'.options
  environment : ∀ name, sources.environment.lookup name = sources'.environment.lookup name

section

variable {sources sources' : Sources} {v w : Value Unit}

theorem Reordered.child (h : Reordered v w) (key : Bytes) :
    Option.Rel Reordered (v.child key) (w.child key) := by
  cases v with
  | simpleConfigObject id value ignores =>
      obtain ⟨others, rfl, hvalue⟩ := eq_of_shape_object h.shape
      have hkey := hvalue key
      rw [Value.child, Value.child]
      cases hv : value.lookup key with
      | none =>
          rw [hv, Option.map_none, eq_comm, Option.map_eq_none_iff] at hkey
          rw [hkey]
          exact .none
      | some u =>
          rw [hv, Option.map_some, eq_comm, Option.map_eq_some_iff] at hkey
          obtain ⟨u', hu', hshape⟩ := hkey
          rw [hu']
          exact .some ⟨hshape.symm, @Value.forall_of_child _ _ key _ _ h.wellMade hu'⟩
  | simpleConfigList =>
      obtain ⟨others, rfl, -⟩ := eq_of_shape_list h.shape
      exact .none
  | configConcatenation =>
      obtain ⟨others, rfl, -⟩ := eq_of_shape_concatenation h.shape
      exact .none
  | _ =>
      rw [eq_of_shape_leaf h.shape.symm]
      exact .none

theorem Reordered.isUnmergeable (h : Reordered v w) : v.isUnmergeable = w.isUnmergeable := by
  cases v with
  | simpleConfigObject =>
      obtain ⟨others, rfl, -⟩ := eq_of_shape_object h.shape
      rfl
  | simpleConfigList =>
      obtain ⟨others, rfl, -⟩ := eq_of_shape_list h.shape
      rfl
  | configConcatenation =>
      obtain ⟨others, rfl, -⟩ := eq_of_shape_concatenation h.shape
      rfl
  | _ => rw [eq_of_shape_leaf h.shape.symm]

-- Each field of the reordered object comes to what the field of that key comes to.
theorem object_reordered {fields results others : Fields Unit} (ignores : Bool)
    (h : Matching (fun v w => ∀ v', Reordered v v' →
      ∃ w', ComesTo sources' v' w' ∧ Reordered w w') fields results)
    (hfields : Reordered (.simpleConfigObject () fields ignores)
      (.simpleConfigObject () others ignores)) :
    ∃ w, ComesTo sources' (.simpleConfigObject () others ignores) w ∧
      Reordered (.simpleConfigObject () results ignores) w := by
  have hnodup : (others.map Prod.fst).Nodup := hfields.wellMade.1.2
  have himage : ∀ field ∈ others, ∃ w', ComesTo sources' field.2 w' ∧
      ∃ w, results.lookup field.1 = some w ∧ Reordered w w' := by
    intro field hfield
    have hchild := hfields.child field.1
    have hmatching := h.lookup field.1
    rw [Value.child, Value.child, lookup_of_mem hnodup hfield] at hchild
    generalize fields.lookup field.1 = x at hchild hmatching
    generalize results.lookup field.1 = y at hmatching ⊢
    cases hchild with
    | some hx =>
        cases hmatching with
        | some hxy =>
            obtain ⟨w', hw', hww'⟩ := hxy _ hx
            exact ⟨w', hw', _, rfl, hww'⟩
  have hresults : ∃ results', Matching (ComesTo sources') others results' ∧
      ∀ field ∈ results', ∃ w, results.lookup field.1 = some w ∧ Reordered w field.2 := by
    clear h hfields hnodup
    induction others with
    | nil => exact ⟨[], .nil, by simp⟩
    | cons field rest ih =>
        obtain ⟨w', hw', hresult⟩ := himage field List.mem_cons_self
        obtain ⟨results', hmatching, hall⟩ := ih fun x hx =>
          himage x (List.mem_cons_of_mem field hx)
        refine ⟨(field.1, w') :: results', .cons ⟨rfl, hw'⟩ hmatching, ?_⟩
        rw [List.forall_mem_cons]
        exact ⟨hresult, hall⟩
  obtain ⟨results', hmatching, hall⟩ := hresults
  refine ⟨_, .object hmatching, shape_object fun key => ?_, ⟨trivial, ?_⟩, ?_⟩
  · have hlookup := hmatching.lookup key
    cases hresult' : results'.lookup key with
    | some w' =>
        obtain ⟨w, hw, hww'⟩ := hall _ (mem_of_lookup hresult')
        rw [hw, Option.map_some, Option.map_some, hww'.shape]
    | none =>
        rw [hresult'] at hlookup
        have hchild := hfields.child key
        have hresults := h.lookup key
        rw [Value.child, Value.child] at hchild
        generalize others.lookup key = x at hlookup hchild
        generalize fields.lookup key = y at hchild hresults
        generalize results.lookup key = z at hresults
        cases hlookup
        cases hchild
        cases hresults
        rfl
  · change (results'.map Prod.fst).Nodup
    rwa [← hmatching.keys]
  · rw [forallFields_iff]
    intro field hfield
    obtain ⟨w, -, hww'⟩ := hall field hfield
    exact hww'.wellMade

theorem variables_reordered (h : sources.Reordered sources') (path : Path) {u : Value Unit}
    (hu : sources.variables.descend path.keys = some u) :
    sources'.variables.descend path.keys = some u ∧ Reordered u u := by
  have hchild (key : Bytes) :
      sources.variables.child key = (sources.environment.lookup key).map (.configString ()) :=
    lookup_map _ _ key
  have hchild' (key : Bytes) :
      sources'.variables.child key = (sources'.environment.lookup key).map (.configString ()) :=
    lookup_map _ _ key
  obtain ⟨key, keys, hkeys⟩ := List.exists_cons_of_ne_nil path.keys_ne_nil
  rw [hkeys, Value.descend_cons, hchild] at hu
  rw [hkeys, Value.descend_cons, hchild', ← h.environment]
  refine ⟨hu, ?_⟩
  obtain ⟨v, hv, hvu⟩ := Option.bind_eq_some_iff.mp hu
  obtain ⟨s, -, rfl⟩ := Option.map_eq_some_iff.mp hv
  cases keys with
  | nil =>
      cases hvu
      exact ⟨rfl, trivial, trivial⟩
  | cons => cases hvu

-- Whatever is asked has the same answer in any order, but for the order.
theorem Answers.reordered (h : sources.Reordered sources') {query query' : Query}
    {r : Option (Value Unit)} (hanswer : Answers sources query r) (hquery : query.Reordered query') :
    ∃ r', Answers sources' query' r' ∧ Option.Rel Reordered r r' := by
  have hsome {query : Query} {v : Value Unit}
      (h : ∃ r', Answers sources' query r' ∧ Option.Rel Reordered (some v) r') :
      ∃ w, Answers sources' query (some w) ∧ Reordered v w := by
    obtain ⟨_, hr, hrel⟩ := h
    cases hrel with
    | some hvw => exact ⟨_, hr, hvw⟩
  have hnone {query : Query} (h : ∃ r', Answers sources' query r' ∧ Option.Rel Reordered none r') :
      Answers sources' query none := by
    obtain ⟨_, hr, hrel⟩ := h
    cases hrel
    exact hr
  have hroot (keys : List Bytes) :
      (Query.path sources.root keys).Reordered (.path sources'.root keys) := .path h.root keys
  induction hanswer generalizing query' with
  | primitive hv =>
      cases hquery with
      | value hvw =>
          obtain rfl := eq_of_shape_primitive hv hvw.shape
          exact ⟨_, .primitive hv, .some hvw⟩
  | list hlength _ ih =>
      cases hquery with
      | value hvw =>
          obtain ⟨vs', rfl, hvs⟩ := eq_of_shape_list hvw.shape
          obtain ⟨ws', hws', hws⟩ := exists_images hlength
            (forall₂_reordered hvs ((forallAll_iff vs').mp hvw.wellMade.2))
            fun v w v' hmem _ hv => hsome (ih v w hmem (.value hv))
          refine ⟨_, ComesTo.list hws', .some ⟨?_, ⟨trivial, trivial⟩, ?_⟩⟩
          · rw [Value.shape, Value.shape, shapeAll_eq, shapeAll_eq, map_shape_eq hws]
          · rw [forallAll_iff]
            intro w' hw'
            obtain ⟨w, hmem⟩ := mem_zip_right hws.length_eq hw'
            exact (List.forall₂_zip hws hmem).wellMade
  | object hlength hkeys _ ih =>
      cases hquery with
      | value hvw =>
          obtain ⟨others, rfl, -⟩ := eq_of_shape_object hvw.shape
          obtain ⟨w, hw, hrel⟩ := object_reordered _ (matching_iff_zip.mpr ⟨hlength, hkeys,
            fun x y hmem v' hv' => hsome (ih x y hmem (.value hv'))⟩) hvw
          exact ⟨_, hw, .some hrel⟩
  | reference _ _ ihtarget ihu =>
      cases hquery with
      | value hvw =>
          obtain rfl := eq_of_shape_reference hvw.shape
          obtain ⟨u', htarget, hu'⟩ := hsome (ihtarget (.reference _ _))
          obtain ⟨w', hw', hrel⟩ := hsome (ihu (.value hu'))
          exact ⟨_, .reference htarget hw', .some hrel⟩
  | @concatenation pieces ws w hlength hpieces hjoin ih =>
      cases hquery with
      | value hvw =>
          obtain ⟨pieces', rfl, hshapes⟩ := eq_of_shape_concatenation hvw.shape
          obtain ⟨ws', hws', hws⟩ := exists_images hlength
            (forall₂_reordered hshapes ((forallAll_iff pieces').mp hvw.wellMade.2))
            fun v w v' hmem _ hv => hsome (ih v w hmem (.value hv))
          have hresolved : ∀ w ∈ ws, w.resolved = true := by
            intro w hw
            obtain ⟨v, hmem⟩ := mem_zip_right hlength hw
            exact ComesTo.resolved (hpieces v w hmem)
          have hresolved' : ∀ w' ∈ ws', w'.resolved = true := by
            intro w' hw'
            obtain ⟨v', hmem⟩ := mem_zip_right hws'.length_eq hw'
            exact ComesTo.resolved (List.forall₂_zip hws' hmem)
          obtain ⟨x', hjoin', hrel⟩ := consolidate_reordered hresolved hresolved' hws hjoin
          exact ⟨_, ComesTo.concatenation hws' hjoin', .some hrel⟩
  | here v =>
      cases hquery with
      | path hvw => exact ⟨_, .here _, .some hvw⟩
  | @child v u key keys r hchild _ ih =>
      cases hquery with
      | path hvw =>
          have hrel := hvw.child key
          rw [hchild] at hrel
          generalize hchild' : Value.child key _ = x at hrel
          cases hrel with
          | some hu =>
              obtain ⟨r', hr', hrel⟩ := ih (.path hu keys)
              exact ⟨r', .child hchild' hr', hrel⟩
  | @missing v key keys hchild hv =>
      cases hquery with
      | path hvw =>
          have hrel := hvw.child key
          rw [hchild] at hrel
          generalize hchild' : Value.child key _ = x at hrel
          cases hrel
          exact ⟨_, .missing keys hchild' (hvw.isUnmergeable ▸ hv), .none⟩
  | throughReference _ _ ihtarget ih =>
      cases hquery with
      | path hvw =>
          obtain rfl := eq_of_shape_reference hvw.shape
          obtain ⟨u', htarget, hu'⟩ := hsome (ihtarget (.reference _ _))
          obtain ⟨r', hr', hrel⟩ := ih (.path hu' _)
          exact ⟨r', .throughReference htarget hr', hrel⟩
  | throughConcatenation _ _ ihw ih =>
      cases hquery with
      | path hvw =>
          obtain ⟨w', hw', hrel⟩ := hsome (ihw (.value hvw))
          obtain ⟨pieces', rfl, -⟩ := eq_of_shape_concatenation hvw.shape
          obtain ⟨r', hr', hrel'⟩ := ih (.path hrel _)
          exact ⟨r', .throughConcatenation hw' hr', hrel'⟩
  | full _ ih =>
      cases hquery
      obtain ⟨u', hu', hrel⟩ := hsome (ih (hroot _))
      exact ⟨_, .full hu', .some hrel⟩
  | unprefixed _ hpositive hpath _ ihfull ih =>
      cases hquery
      obtain ⟨u', hu', hrel⟩ := hsome (ih (hroot _))
      exact ⟨_, .unprefixed (hnone (ihfull (hroot _))) hpositive hpath hu', .some hrel⟩
  | @systemEnvironment expr prefixLength path u _ hpath _ huse hu ihfull ihunprefixed =>
      cases hquery
      obtain ⟨hu', hrel⟩ := variables_reordered h path hu
      exact ⟨_, .systemEnvironment (hnone (ihfull (hroot _))) hpath (fun hpositive =>
        hnone (ihunprefixed hpositive (hroot _))) (h.options ▸ huse) hu', .some hrel⟩

end

-- Two runs on configs that differ only in the order in which their maps are walked: when
-- both return, they return the same but for this order.
theorem resolve_order {environment environment' : List (Bytes × Bytes)}
    (henvironment : ∀ name, environment.lookup name = environment'.lookup name)
    (options : ConfigResolveOptions) {root root' : Value ℕ} (hroot : root.Strict)
    (hroot' : root'.Strict) (hshape : root.contents.shape = root'.contents.shape)
    (hwellMade : root'.contents.Forall Value.WellMade) {depth depth' nextId nextId' : ℕ}
    {r r' : Option (Value ℕ)} {s s' : ResolveState}
    (hrun : resolveOutermost environment options root depth root (.new nextId) = some (.ok r, s))
    (hrun' : resolveOutermost environment' options root' depth' root' (.new nextId') =
      some (.ok r', s')) :
    ∃ w w', r = some w ∧ r' = some w' ∧ w.contents.shape = w'.contents.shape := by
  obtain ⟨w, rfl, -, hw⟩ := resolveOutermost_comesTo environment options hroot hrun
  obtain ⟨w', rfl, -, hw'⟩ := resolveOutermost_comesTo environment' options hroot' hrun'
  have hsources : Sources.Reordered (.of environment options root)
      (.of environment' options root') := ⟨⟨hshape, hwellMade⟩, rfl, henvironment⟩
  obtain ⟨r, hr, hrel⟩ := Answers.reordered hsources hw (.value hsources.root)
  obtain rfl := hr.unique hw'
  cases hrel with
  | some hww' => exact ⟨w, w', rfl, rfl, hww'.shape⟩

-- `a { b = 1, c = ${a.b} }, d = ${a}` with the fields of both objects in another order.
theorem resolve_order_swapped :
    let reference (path : Path) : Value ℕ := .configReference 9 { path := path, optional := false } 0
    let b : Bytes × Value ℕ := (ascii "b", .configInt 2 1 [])
    let c : Bytes × Value ℕ := (ascii "c", reference (.cons (ascii "a") (.newKey (ascii "b"))))
    let d : Bytes × Value ℕ := (ascii "d", reference (.newKey (ascii "a")))
    let object (id : ℕ) (fields : Fields ℕ) : Value ℕ := .simpleConfigObject id fields false
    let root := object 0 [(ascii "a", object 1 [b, c]), d]
    let root' := object 0 [d, (ascii "a", object 1 [c, b])]
    ∃ w s w' s', resolveOutermost [] { useSystemEnvironment := false } root 9 root (.new 10) =
        some (.ok (some w), s) ∧
      resolveOutermost [] { useSystemEnvironment := false } root' 9 root' (.new 10) =
        some (.ok (some w'), s') ∧ w.contents.shape = w'.contents.shape := by
  intro reference b c d object root root'
  have hroot : root.Strict := ⟨rfl, ⟨rfl, rfl, rfl, trivial⟩, rfl, trivial⟩
  have hroot' : root'.Strict := ⟨rfl, rfl, ⟨rfl, rfl, rfl, trivial⟩, trivial⟩
  have hok : (resolveOutermost [] { useSystemEnvironment := false } root 9 root (.new 10)).any
      (fun outcome => outcome.1.isOk) = true := by decide +kernel
  have hok' : (resolveOutermost [] { useSystemEnvironment := false } root' 9 root' (.new 10)).any
      (fun outcome => outcome.1.isOk) = true := by decide +kernel
  obtain ⟨⟨r, s⟩, hrun, hr⟩ := (Option.any_eq_true _ _).mp hok
  obtain ⟨⟨r', s'⟩, hrun', hr'⟩ := (Option.any_eq_true _ _).mp hok'
  have hswap {x y : Bytes × Value Unit} (hne : x.1 ≠ y.1) (x' : Value Unit)
      (hx : x.2.shape = x'.shape) (ignores : Bool) :
      (Value.simpleConfigObject () [x, y] ignores).shape =
        (Value.simpleConfigObject () [y, (x.1, x')] ignores).shape := by
    rw [Value.shape, Value.shape, Shape.object.injEq]
    refine ⟨funext fun key => ?_, rfl⟩
    simp only [shapeFields, hx]
    split_ifs with hkey hkey' <;> first | rfl | exact absurd (hkey.symm.trans hkey') hne
  have hshape : root.contents.shape = root'.contents.shape :=
    hswap (by decide) _ (hswap (by decide) _ rfl false) false
  have hwellMade : root'.contents.Forall Value.WellMade := by
    refine ⟨⟨trivial, ?_⟩, ⟨trivial, ?_⟩,
      ⟨⟨trivial, ?_⟩, ⟨trivial, ?_⟩, ⟨trivial, trivial⟩, trivial⟩,
      trivial⟩
    · change [ascii "d", ascii "a"].Nodup
      decide
    · change 0 < 1
      decide
    · change [ascii "c", ascii "b"].Nodup
      decide
    · change 0 < 2
      decide
  cases r with
  | error e => cases hr
  | ok r =>
      cases r' with
      | error e => cases hr'
      | ok r' =>
          obtain ⟨w, w', rfl, rfl, hresult⟩ := resolve_order (fun _ => rfl) _ hroot hroot' hshape
            hwellMade hrun hrun'
          exact ⟨w, s, w', s', hrun, hrun', hresult⟩

end AsrServiceProxy.Config

import AsrServiceProxy.Config.Resolve.Reduction

-- A config as a set of equations: each reference equals what is found at its path in
-- the result. What is resolved is the one solution.
namespace AsrServiceProxy.Config

open CMemory Entries

def joined (pieces : List (Value Unit)) : Option (Value Unit) :=
  match consolidate .plain pieces () with
  | .ok [v] _ => some v
  | _ => none

-- The value with each reference as `look` has it.
mutual

def Value.substituted (look : SubstitutionExpression → ℕ → Option (Value Unit)) :
    Value Unit → Option (Value Unit)
  | .configReference _ expr prefixLength => look expr prefixLength
  | .configConcatenation _ pieces => (substitutedAll look pieces).bind joined
  | .configDelayedMerge _ _ | .configDelayedMergeObject _ _ => none
  | .simpleConfigList _ value => (substitutedAll look value).map (.simpleConfigList ())
  | .simpleConfigObject _ value ignores =>
      (substitutedFields look value).map (.simpleConfigObject () · ignores)
  | v => some v

def substitutedAll (look : SubstitutionExpression → ℕ → Option (Value Unit)) :
    List (Value Unit) → Option (List (Value Unit))
  | [] => some []
  | v :: rest => do return (← v.substituted look) :: (← substitutedAll look rest)

def substitutedFields (look : SubstitutionExpression → ℕ → Option (Value Unit)) :
    List (Bytes × Value Unit) → Option (Fields Unit)
  | [] => some []
  | (key, v) :: rest => do
      return (key, ← v.substituted look) :: (← substitutedFields look rest)

end

-- What a reference is to when `result` is the resolved config.
def Sources.lookUp (sources : Sources) (result : Value Unit) (expr : SubstitutionExpression)
    (prefixLength : ℕ) : Option (Value Unit) :=
  (result.descend expr.path.keys).orElse fun _ =>
    (expr.path.subPath prefixLength).bind fun path =>
      (if 0 < prefixLength then result.descend path.keys else none).orElse fun _ =>
        if sources.options.useSystemEnvironment then sources.variables.descend path.keys else none

def Sources.Solves (sources : Sources) (result : Value Unit) : Prop :=
  sources.root.substituted (sources.lookUp result) = some result

instance (sources : Sources) (result : Value Unit) : Decidable (sources.Solves result) :=
  inferInstanceAs (Decidable (_ = _))

section

variable {look : SubstitutionExpression → ℕ → Option (Value Unit)}

theorem substitutedAll_iff {vs ws : List (Value Unit)} :
    substitutedAll look vs = some ws ↔
      List.Forall₂ (fun v w => v.substituted look = some w) vs ws := by
  induction vs generalizing ws with
  | nil =>
      rw [substitutedAll, List.forall₂_nil_left_iff, Option.some.injEq]
      exact eq_comm
  | cons v rest ih =>
      rw [List.forall₂_cons_left_iff]
      simp only [substitutedAll, Option.bind_eq_bind, Option.pure_def, Option.bind_eq_some_iff,
        Option.some.injEq]
      constructor
      · rintro ⟨w, hw, others, hothers, rfl⟩
        exact ⟨w, others, hw, ih.mp hothers, rfl⟩
      · rintro ⟨w, others, hw, hothers, rfl⟩
        exact ⟨w, hw, others, ih.mpr hothers, rfl⟩

theorem substitutedFields_iff {fields results : Fields Unit} :
    substitutedFields look fields = some results ↔
      Matching (fun v w => v.substituted look = some w) fields results := by
  rw [Matching]
  induction fields generalizing results with
  | nil =>
      rw [substitutedFields, List.forall₂_nil_left_iff, Option.some.injEq]
      exact eq_comm
  | cons field rest ih =>
      rw [List.forall₂_cons_left_iff]
      simp only [substitutedFields, Option.bind_eq_bind, Option.pure_def, Option.bind_eq_some_iff,
        Option.some.injEq]
      constructor
      · rintro ⟨w, hw, others, hothers, rfl⟩
        exact ⟨(field.1, w), others, ⟨rfl, hw⟩, ih.mp hothers, rfl⟩
      · rintro ⟨⟨key, w⟩, others, ⟨rfl, hw⟩, hothers, rfl⟩
        exact ⟨w, hw, others, ih.mpr hothers, rfl⟩

theorem substituted_list {vs ws : List (Value Unit)}
    (h : List.Forall₂ (fun v w => v.substituted look = some w) vs ws) :
    (Value.simpleConfigList () vs).substituted look = some (.simpleConfigList () ws) := by
  rw [Value.substituted, substitutedAll_iff.mpr h]
  rfl

theorem substituted_object {fields results : Fields Unit} (ignores : Bool)
    (h : Matching (fun v w => v.substituted look = some w) fields results) :
    (Value.simpleConfigObject () fields ignores).substituted look =
      some (.simpleConfigObject () results ignores) := by
  rw [Value.substituted, substitutedFields_iff.mpr h]
  rfl

theorem substituted_concatenation {pieces ws : List (Value Unit)} {w : Value Unit}
    (h : List.Forall₂ (fun v w => v.substituted look = some w) pieces ws)
    (hjoin : consolidate .plain ws () = .ok [w] ()) :
    (Value.configConcatenation () pieces).substituted look = some w := by
  rw [Value.substituted, substitutedAll_iff.mpr h, Option.bind_some, joined, hjoin]

theorem substituted_of_primitive {v : Value Unit} (h : v.isPrimitive) :
    v.substituted look = some v := by
  cases v with
  | configNull | configBoolean | configInt | configInt64 | configDouble | configString => rfl
  | _ => cases h

-- Where there is no reference nothing is put in.
mutual

theorem Value.substituted_of_resolved : ∀ v : Value Unit, v.resolved → v.substituted look = some v
  | .configNull _, _ | .configBoolean _ _, _ | .configInt _ _ _, _ | .configInt64 _ _ _, _
  | .configDouble _ _, _ | .configString _ _, _ => rfl
  | .simpleConfigList _ value, h => substituted_list (substitutedAll_of_resolved value h)
  | .simpleConfigObject _ value ignores, h =>
      substituted_object ignores (substitutedFields_of_resolved value h)

theorem substitutedAll_of_resolved : ∀ vs : List (Value Unit), Value.resolvedAll vs →
    List.Forall₂ (fun v w => v.substituted look = some w) vs vs
  | [], _ => .nil
  | v :: rest, h => by
      rw [Value.resolvedAll, Bool.and_eq_true] at h
      exact .cons (v.substituted_of_resolved h.1) (substitutedAll_of_resolved rest h.2)

theorem substitutedFields_of_resolved : ∀ fields : Fields Unit, Value.resolvedFields fields →
    Matching (fun v w => v.substituted look = some w) fields fields
  | [], _ => .nil
  | (_, v) :: rest, h => by
      rw [Value.resolvedFields, Bool.and_eq_true] at h
      exact .cons ⟨rfl, v.substituted_of_resolved h.1⟩ (substitutedFields_of_resolved rest h.2)

end

-- Following a key through an object before and after the references are replaced.
theorem child_substituted {v w : Value Unit} (h : v.substituted look = some w)
    (hv : v.isUnmergeable = false) (key : Bytes) :
    Option.Rel (fun u x => u.substituted look = some x) (v.child key) (w.child key) := by
  cases v with
  | simpleConfigObject id value ignores =>
      rw [Value.substituted, Option.map_eq_some_iff] at h
      obtain ⟨results, hresults, rfl⟩ := h
      exact (substitutedFields_iff.mp hresults).lookup key
  | simpleConfigList id value =>
      rw [Value.substituted, Option.map_eq_some_iff] at h
      obtain ⟨results, -, rfl⟩ := h
      exact .none
  | configReference | configConcatenation | configDelayedMerge | configDelayedMergeObject =>
      cases hv
  | _ =>
      cases h
      exact .none

end

variable {sources : Sources} {result : Value Unit}

theorem Sources.lookUp_of_full {expr : SubstitutionExpression} {u : Value Unit}
    (h : result.descend expr.path.keys = some u) (prefixLength : ℕ) :
    sources.lookUp result expr prefixLength = some u := by
  rw [Sources.lookUp, h, Option.orElse_some]

theorem Sources.lookUp_of_unprefixed {expr : SubstitutionExpression} {prefixLength : ℕ} {path : Path}
    {u : Value Unit} (hfull : result.descend expr.path.keys = none) (hpositive : 0 < prefixLength)
    (hpath : expr.path.subPath prefixLength = some path) (h : result.descend path.keys = some u) :
    sources.lookUp result expr prefixLength = some u := by
  rw [Sources.lookUp, hfull, Option.orElse_none, hpath, Option.bind_some, if_pos hpositive, h,
    Option.orElse_some]

theorem Sources.lookUp_of_systemEnvironment {expr : SubstitutionExpression} {prefixLength : ℕ}
    {path : Path} {u : Value Unit} (hfull : result.descend expr.path.keys = none)
    (hpath : expr.path.subPath prefixLength = some path)
    (hunprefixed : 0 < prefixLength → result.descend path.keys = none)
    (huse : sources.options.useSystemEnvironment = true)
    (h : sources.variables.descend path.keys = some u) :
    sources.lookUp result expr prefixLength = some u := by
  have hnone : (if 0 < prefixLength then result.descend path.keys else none) = none := by
    split
    · exact hunprefixed ‹_›
    · rfl
  rw [Sources.lookUp, hfull, Option.orElse_none, hpath, Option.bind_some, hnone, Option.orElse_none,
    if_pos huse, h]

theorem Sources.resolved_variables (sources : Sources) : sources.variables.resolved = true := by
  refine resolvedFields_iff.mpr fun field hfield => ?_
  obtain ⟨entry, -, rfl⟩ := List.mem_map.mp hfield
  rfl

-- A reference is to what its target comes to in the resolved config.
theorem Sources.lookUp_of_target (hresult : ComesTo sources sources.root result)
    {expr : SubstitutionExpression} {prefixLength : ℕ} {u w : Value Unit}
    (htarget : Answers sources (.reference expr prefixLength) (some u)) (hu : ComesTo sources u w) :
    sources.lookUp result expr prefixLength = some w := by
  have hsome {keys : List Bytes} (h : LeadsTo sources sources.root keys (some u)) :
      result.descend keys = some w := by
    obtain ⟨found, hfound, hrel⟩ := ComesTo.leadsTo hresult keys
    rw [← h.unique hfound] at hrel
    generalize result.descend keys = x at hrel
    cases hrel with
    | some hx => exact hx.unique hu
  have hnone {keys : List Bytes} (h : LeadsTo sources sources.root keys none) :
      result.descend keys = none := by
    obtain ⟨found, hfound, hrel⟩ := ComesTo.leadsTo hresult keys
    rw [← h.unique hfound] at hrel
    generalize result.descend keys = x at hrel
    cases hrel
    rfl
  cases htarget with
  | full h => exact lookUp_of_full (hsome h) prefixLength
  | unprefixed hfull hpositive hpath h =>
      exact lookUp_of_unprefixed (hnone hfull) hpositive hpath (hsome h)
  | systemEnvironment hfull hpath hunprefixed huse h =>
      have hresolved := Value.resolved_of_descend sources.resolved_variables h
      rw [hu.eq hresolved]
      exact lookUp_of_systemEnvironment (hnone hfull) hpath (fun hpositive =>
        hnone (hunprefixed hpositive)) huse h

theorem Answers.substituted {look : SubstitutionExpression → ℕ → Option (Value Unit)}
    (hlook : ∀ expr prefixLength u w, Answers sources (.reference expr prefixLength) (some u) →
      ComesTo sources u w → look expr prefixLength = some w)
    {query : Query} {r : Option (Value Unit)} (h : Answers sources query r) :
    ∀ v w, query = .value v → r = some w → v.substituted look = some w := by
  induction h with
  | primitive hv =>
      rintro _ _ ⟨⟩ ⟨⟩
      exact substituted_of_primitive hv
  | list hlength _ ih =>
      rintro _ _ ⟨⟩ ⟨⟩
      exact substituted_list (List.forall₂_iff_zip.mpr ⟨hlength, fun hmem =>
        ih _ _ hmem _ _ rfl rfl⟩)
  | object hlength hkeys _ ih =>
      rintro _ _ ⟨⟩ ⟨⟩
      exact substituted_object _ (matching_iff_zip.mpr ⟨hlength, hkeys, fun x y hmem =>
        ih x y hmem _ _ rfl rfl⟩)
  | reference htarget hu =>
      rintro _ _ ⟨⟩ ⟨⟩
      exact hlook _ _ _ _ htarget hu
  | concatenation hlength _ hjoin ih =>
      rintro _ _ ⟨⟩ ⟨⟩
      exact substituted_concatenation (List.forall₂_iff_zip.mpr ⟨hlength, fun hmem =>
        ih _ _ hmem _ _ rfl rfl⟩) hjoin
  | _ => rintro _ _ ⟨⟩

-- What a config comes to solves its equations.
theorem Sources.solves_of_comesTo (h : ComesTo sources sources.root result) :
    sources.Solves result :=
  Answers.substituted (fun _ _ _ _ => lookUp_of_target h) h _ _ rfl rfl

-- How an answer shows in a solution.
def Query.Agrees (sources : Sources) (result : Value Unit) (r : Option (Value Unit)) :
    Query → Prop
  | .value v => v.substituted (sources.lookUp result) = r
  | .path v keys => ∀ w, v.substituted (sources.lookUp result) = some w →
      Option.Rel (fun u x => u.substituted (sources.lookUp result) = some x) r (w.descend keys)
  | .reference expr prefixLength => ∃ u w, r = some u ∧
      u.substituted (sources.lookUp result) = some w ∧
        sources.lookUp result expr prefixLength = some w

theorem Sources.Solves.agrees (hresult : sources.Solves result) {query : Query}
    {r : Option (Value Unit)} (h : Answers sources query r) : query.Agrees sources result r := by
  induction h with
  | primitive hv => exact substituted_of_primitive hv
  | list hlength _ ih =>
      exact substituted_list (List.forall₂_iff_zip.mpr ⟨hlength, fun hmem => ih _ _ hmem⟩)
  | object hlength hkeys _ ih =>
      exact substituted_object _ (matching_iff_zip.mpr ⟨hlength, hkeys, ih⟩)
  | reference _ _ ihtarget ihu =>
      obtain ⟨_, w, ⟨⟩, hw, hlook⟩ := ihtarget
      rw [Query.Agrees, Value.substituted, hlook, ← hw]
      exact ihu
  | concatenation hlength _ hjoin ih =>
      exact substituted_concatenation (List.forall₂_iff_zip.mpr ⟨hlength, fun hmem =>
        ih _ _ hmem⟩) hjoin
  | here v => exact fun w hw => .some hw
  | @child v u key keys r hchild _ ih =>
      intro w hw
      have hv : v.isUnmergeable = false := by
        cases v with
        | simpleConfigObject => rfl
        | _ => cases hchild
      have hrel := child_substituted hw hv key
      rw [hchild] at hrel
      rw [Value.descend_cons]
      generalize w.child key = x at hrel
      cases hrel with
      | some hx => exact ih _ hx
  | @missing v key keys hchild hv =>
      intro w hw
      have hrel := child_substituted hw hv key
      rw [hchild] at hrel
      rw [Value.descend_cons]
      generalize w.child key = x at hrel
      cases hrel
      exact .none
  | throughReference _ _ ihtarget ih =>
      intro w hw
      obtain ⟨_, x, ⟨⟩, hx, hlook⟩ := ihtarget
      rw [Value.substituted, hlook] at hw
      exact ih w (hx.trans hw)
  | throughConcatenation hw _ ihw ih =>
      intro x hx
      rw [Query.Agrees] at ihw
      rw [ihw] at hx
      exact ih x (hx ▸ Value.substituted_of_resolved _ (ComesTo.resolved hw))
  | full _ ih =>
      have hrel := ih result hresult
      generalize hfound : result.descend _ = x at hrel
      cases hrel with
      | some hx => exact ⟨_, _, rfl, hx, lookUp_of_full hfound _⟩
  | unprefixed _ hpositive hpath _ ihfull ih =>
      have hrel := ih result hresult
      have hrel' := ihfull result hresult
      generalize hfound : result.descend (Path.keys _) = x at hrel
      generalize hfull : result.descend _ = y at hrel'
      cases hrel with
      | some hx =>
          cases hrel'
          exact ⟨_, _, rfl, hx, lookUp_of_unprefixed hfull hpositive hpath hfound⟩
  | systemEnvironment _ hpath _ huse h ihfull ihunprefixed =>
      have hnone {keys : List Bytes} (h : (Query.path sources.root keys).Agrees sources result none) :
          result.descend keys = none := by
        have hrel := h result hresult
        generalize result.descend keys = x at hrel
        cases hrel
        rfl
      have hresolved := Value.resolved_of_descend sources.resolved_variables h
      exact ⟨_, _, rfl, Value.substituted_of_resolved _ hresolved, lookUp_of_systemEnvironment
        (hnone ihfull) hpath (fun hpositive => hnone (ihunprefixed hpositive)) huse h⟩

theorem Sources.solves_iff {w : Value Unit} (h : ComesTo sources sources.root w) :
    sources.Solves result ↔ result = w := by
  constructor
  · intro hresult
    exact Option.some.inj (hresult.symm.trans (hresult.agrees h))
  · rintro rfl
    exact solves_of_comesTo h

-- A config without merges that wait and without optional references is resolved to the
-- one value that is what the config says when every reference is looked up in it.
theorem resolve_solution (environment : List (Bytes × Bytes)) (options : ConfigResolveOptions)
    {root : Value ℕ} (hroot : root.Strict) {depth nextId : ℕ} {r : Option (Value ℕ)}
    {s : ResolveState} (hrun : resolveOutermost environment options root depth root (.new nextId) =
      some (.ok r, s)) :
    ∃ w, r = some w ∧ w.resolved = true ∧
      ∀ result, (Sources.of environment options root).Solves result ↔ result = w.contents := by
  obtain ⟨w, rfl, hw, hcomesTo⟩ := resolveOutermost_comesTo environment options hroot hrun
  exact ⟨w, rfl, hw, fun result => Sources.solves_iff hcomesTo⟩

-- `a = ${b}, b { c = 1 }, d = ${a.c}${HOME}`, where `d` is reached through `a`.
theorem resolve_solution_through :
    let reference (id : ℕ) (path : Path) : Value ℕ :=
      .configReference id { path := path, optional := false } 0
    let root : Value ℕ := .simpleConfigObject 0
      [(ascii "a", reference 1 (.newKey (ascii "b"))),
        (ascii "b", .simpleConfigObject 2 [(ascii "c", .configInt 3 1 [])] false),
        (ascii "d", .configConcatenation 4 [reference 5 (.cons (ascii "a") (.newKey (ascii "c"))),
          reference 6 (.newKey (ascii "HOME"))])] false
    let c : Value Unit := .simpleConfigObject () [(ascii "c", .configInt () 1 [])] false
    ∃ w s, resolveOutermost [(ascii "HOME", ascii "/x")] { useSystemEnvironment := true } root 9
        root (.new 7) = some (.ok (some w), s) ∧
      w.contents = .simpleConfigObject ()
        [(ascii "a", c), (ascii "b", c), (ascii "d", .configString () (ascii "1/x"))] false := by
  intro reference root c
  have hroot : root.Strict := ⟨rfl, rfl, ⟨rfl, rfl, trivial⟩, ⟨rfl, rfl, rfl, trivial⟩, trivial⟩
  have hok : (resolveOutermost [(ascii "HOME", ascii "/x")] { useSystemEnvironment := true } root 9
      root (.new 7)).any (fun outcome => outcome.1.isOk) = true := by decide +kernel
  obtain ⟨⟨r, s⟩, hrun, hr⟩ := (Option.any_eq_true _ _).mp hok
  cases r with
  | error e => cases hr
  | ok r =>
      obtain ⟨w, rfl, -, hsolves⟩ := resolve_solution _ _ hroot hrun
      refine ⟨w, s, hrun, ((hsolves _).mp ?_).symm⟩
      decide

end AsrServiceProxy.Config

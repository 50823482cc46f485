import AsrServiceProxy.Config.FromMap
import AsrServiceProxy.Config.Operations.Lens
import AsrServiceProxy.Config.PathText.Theorems

-- The object that is put together from a map of paths, whatever the order in which
-- the hash tables are walked.
namespace AsrServiceProxy.Config

open CMemory

theorem Path.frontKeys_last (path : Path) : path.frontKeys ++ [path.last] = path.keys := by
  induction path with
  | newKey first => rfl
  | cons first remainder ih => rw [Path.frontKeys, Path.last, List.cons_append, ih, Path.keys]

-- The keys of what may be no path at all.
def frontOf : Option Path → List Bytes
  | none => []
  | some path => path.keys

theorem Path.frontOf_parent (path : Path) : frontOf path.parent = path.frontKeys := by
  cases path with
  | newKey first => rfl
  | cons first remainder =>
      obtain ⟨parent, hparent, hkeys⟩ :=
        PathBuilder.result_keys (first :: remainder.frontKeys) (List.cons_ne_nil _ _)
      change frontOf (PathBuilder.result (first :: remainder.frontKeys)) = _
      rw [hparent]
      exact hkeys

theorem Path.keys_eq_parent (path : Path) : path.keys = frontOf path.parent ++ [path.last] := by
  rw [path.frontOf_parent, path.frontKeys_last]

theorem frontOf_injective {p q : Option Path} (h : frontOf p = frontOf q) : p = q := by
  cases p with
  | none =>
      cases q with
      | none => rfl
      | some q => exact absurd h.symm q.keys_ne_nil
  | some p =>
      cases q with
      | none => exact absurd h p.keys_ne_nil
      | some q => rw [Path.keys_injective h]

-- The path of a field in the map of a parent.
def childPath : Option Path → Bytes → Path
  | none, key => .newKey key
  | some parent, key => (Path.newKey key).prepend parent

theorem keys_childPath (parent : Option Path) (key : Bytes) :
    (childPath parent key).keys = frontOf parent ++ [key] := by
  cases parent with
  | none => rfl
  | some parent => exact Path.keys_prepend _ _

theorem parent_childPath (parent : Option Path) (key : Bytes) :
    (childPath parent key).parent = parent ∧ (childPath parent key).last = key := by
  have h := (childPath parent key).keys_eq_parent
  rw [keys_childPath] at h
  obtain ⟨hfront, hlast⟩ := List.append_inj' h rfl
  exact ⟨(frontOf_injective hfront).symm, (List.cons.inj hlast).1.symm⟩

-- The proper prefixes of a path.
theorem mem_parents (n : ℕ) (path p : Path) (hn : path.length ≤ n) :
    p ∈ path.parents n ↔ p.keys <+: path.keys ∧ p ≠ path := by
  induction n generalizing path with
  | zero => exact absurd (List.length_pos_of_ne_nil path.keys_ne_nil) (by simpa [Path.length] using hn)
  | succ n ih =>
      have hkeys := path.keys_eq_parent
      rw [Path.parents]
      cases hparent : path.parent with
      | none =>
          rw [hparent] at hkeys
          constructor
          · intro h
            simp at h
          · rintro ⟨hstarts, hne⟩
            rw [hkeys] at hstarts
            have hp : p.keys = [path.last] := by
              rcases List.prefix_cons_iff.mp hstarts with hnil | ⟨t, ht, htnil⟩
              · exact absurd hnil p.keys_ne_nil
              · rw [ht, List.prefix_nil.mp htnil]
            exact absurd (Path.keys_injective (hp.trans hkeys.symm)) hne
      | some next =>
          rw [hparent] at hkeys
          have hlength : next.length ≤ n := by
            have := congrArg List.length hkeys
            simp only [frontOf, List.length_append, List.length_singleton] at this
            simp only [Path.length] at hn ⊢
            omega
          simp only [List.mem_cons, ih next hlength]
          rw [hkeys, frontOf, List.prefix_concat_iff]
          constructor
          · rintro (rfl | ⟨hstarts, -⟩)
            · refine ⟨Or.inr List.prefix_rfl, fun h => ?_⟩
              have := congrArg (fun q => q.keys.length) h
              simp [hkeys, frontOf] at this
            · refine ⟨Or.inr hstarts, fun h => ?_⟩
              have := hstarts.length_le
              simp [h, hkeys, frontOf] at this
          · rintro ⟨hwhole | hstarts, hne⟩
            · exact absurd (Path.keys_injective (hwhole.trans hkeys.symm)) hne
            · by_cases h : p = next
              · exact Or.inl h
              · exact Or.inr ⟨hstarts, h⟩

-- The maps are one map from paths to values.
def ScopeMaps.find (maps : ScopeMaps) (path : Path) : Option (Value Unit) :=
  (maps.fields path.parent).lookup path.last

theorem ScopeMaps.fields_store (maps : ScopeMaps) (path : Path) (value : Value Unit)
    (parent : Option Path) :
    (maps.store path value).fields parent =
      if parent = path.parent then putField (maps.fields parent) path.last value
      else maps.fields parent := by
  unfold ScopeMaps.store
  cases hpath : path.parent with
  | none => cases parent <;> simp [ScopeMaps.fields]
  | some front =>
      cases parent with
      | none => simp [ScopeMaps.fields]
      | some other =>
          by_cases h : other = front
          · subst h
            simp [ScopeMaps.fields]
          · simp [ScopeMaps.fields, h, AList.lookup_insert_ne h]

theorem ScopeMaps.find_store_self (maps : ScopeMaps) (path : Path) (value : Value Unit) :
    (maps.store path value).find path = some value := by
  rw [ScopeMaps.find, ScopeMaps.fields_store, if_pos rfl, lookup_putField_self]

theorem ScopeMaps.find_store_other (maps : ScopeMaps) {path other : Path} (h : other ≠ path)
    (value : Value Unit) : (maps.store path value).find other = maps.find other := by
  rw [ScopeMaps.find, ScopeMaps.fields_store, ScopeMaps.find]
  by_cases hparent : other.parent = path.parent
  · have hlast : other.last ≠ path.last := fun hlast =>
      h (Path.keys_injective (by rw [other.keys_eq_parent, path.keys_eq_parent, hparent, hlast]))
    rw [if_pos hparent, lookup_putField_other _ hlast]
  · rw [if_neg hparent]

theorem ScopeMaps.lookup_fields (maps : ScopeMaps) (parent : Option Path) (key : Bytes) :
    (maps.fields parent).lookup key = maps.find (childPath parent key) := by
  obtain ⟨hparent, hlast⟩ := parent_childPath parent key
  rw [ScopeMaps.find, hparent, hlast]

-- The leaves of the tree that is put together.
section

variable (leaf : Path → Option (Value Unit))

-- The paths of its objects.
def IsScope (path : Path) : Prop :=
  ∃ q, (leaf q).isSome ∧ path.keys <+: q.keys ∧ path ≠ q

-- No leaf is below another one, and each is a resolved value that is no object.
structure Leaves : Prop where
  apart : ∀ path, (leaf path).isSome → ¬IsScope leaf path
  plain : ∀ path v, leaf path = some v → v.isObject = false ∧ v.resolved = true

-- What is to be found at a path of the tree.
structure Expected (path : Path) (found : Option (Value Unit)) : Prop where
  value : ∀ v, leaf path = some v → found = some v
  scope : IsScope leaf path → ∃ o, found = some o ∧ o.isObject = true
  absent : leaf path = none → ¬IsScope leaf path → found = none

-- The part of the tree below some keys.
structure Assembled (front : List Bytes) (x : Value Unit) : Prop where
  object : x.isObject = true
  resolved : x.resolved = true
  below : ∀ (path : Path) (rest : List Bytes), rest ≠ [] → path.keys = front ++ rest →
    Expected leaf path (x.descend rest)

-- What is in the field of a path, once all below it is there.
structure Placed (path : Path) (found : Option (Value Unit)) : Prop where
  value : ∀ v, leaf path = some v → found = some v
  scope : IsScope leaf path → ∃ o, found = some o ∧ Assembled leaf path.keys o
  absent : leaf path = none → ¬IsScope leaf path → found = none

end

section

variable {leaf : Path → Option (Value Unit)}

theorem IsScope.of_prefix {p q : Path} (hpq : p.keys <+: q.keys) (hne : p ≠ q)
    (h : (leaf q).isSome ∨ IsScope leaf q) : IsScope leaf p := by
  rcases h with h | ⟨r, hr, hqr, hne'⟩
  · exact ⟨q, h, hpq, hne⟩
  · refine ⟨r, hr, hpq.trans hqr, ?_⟩
    rintro rfl
    exact hne (Path.keys_injective (hpq.eq_of_length_le hqr.length_le))

theorem Expected.of_nothing {path : Path} (h : ¬((leaf path).isSome ∨ IsScope leaf path)) :
    Expected leaf path none := by
  rw [not_or] at h
  refine ⟨fun v hv => ?_, fun hs => absurd hs h.2, fun _ _ => rfl⟩
  exact absurd (hv ▸ rfl) h.1

-- An object whose fields are all placed is the part of the tree at its path.
theorem assembled_of_placed (hleaves : Leaves leaf) {parent : Option Path} {fields : Fields Unit}
    (hresolved : Value.resolvedFields fields = true)
    (h : ∀ key, Placed leaf (childPath parent key) (fields.lookup key)) :
    Assembled leaf (frontOf parent) (.simpleConfigObject () fields false) := by
  refine ⟨rfl, hresolved, fun path rest hrest hkeys => ?_⟩
  obtain ⟨key, rest, rfl⟩ := List.exists_cons_of_ne_nil hrest
  have hplaced := h key
  have hchild : path.keys = (childPath parent key).keys ++ rest := by
    rw [hkeys, keys_childPath, List.append_assoc, List.singleton_append]
  rw [Value.descend_cons, Value.child]
  cases rest with
  | nil =>
      have hpath : path = childPath parent key :=
        Path.keys_injective (hchild.trans (List.append_nil _))
      have hfound : (fields.lookup key).bind (Value.descend []) = fields.lookup key := by
        cases fields.lookup key <;> rfl
      rw [hfound, hpath]
      refine ⟨hplaced.value, fun hs => ?_, hplaced.absent⟩
      obtain ⟨o, ho, hassembled⟩ := hplaced.scope hs
      exact ⟨o, ho, hassembled.object⟩
  | cons next rest =>
      have hstarts : (childPath parent key).keys <+: path.keys := ⟨next :: rest, hchild.symm⟩
      have hne : childPath parent key ≠ path := fun heq => by
        simp [heq] at hchild
      by_cases hs : IsScope leaf (childPath parent key)
      · obtain ⟨o, ho, hassembled⟩ := hplaced.scope hs
        rw [ho, Option.bind_some]
        exact hassembled.below path _ (List.cons_ne_nil _ _) hchild
      · have hnothing : (fields.lookup key).bind (Value.descend (next :: rest)) = none := by
          cases hv : leaf (childPath parent key) with
          | none =>
              rw [hplaced.absent hv hs]
              rfl
          | some v =>
              rw [hplaced.value v hv, Option.bind_some,
                Value.descend_eq_none_of_not_isObject (hleaves.plain _ v hv).1]
        rw [hnothing]
        exact Expected.of_nothing fun hpath => hs (IsScope.of_prefix hstarts hne hpath)

-- The maps while they are filled: what has been stored is placed, and nothing else
-- is there.
structure Filled (leaf : Path → Option (Value Unit)) (done : Path → Prop) (maps : ScopeMaps) :
    Prop where
  resolved : ∀ parent, Value.resolvedFields (maps.fields parent) = true
  placed : ∀ path, done path → Placed leaf path (maps.find path)
  absent : ∀ path, ¬done path → maps.find path = none

theorem Filled.store {done : Path → Prop} {maps : ScopeMaps} (h : Filled leaf done maps)
    {path : Path} {v : Value Unit} (hv : v.resolved = true) (hplaced : Placed leaf path (some v)) :
    Filled leaf (fun p => p = path ∨ done p) (maps.store path v) := by
  refine ⟨fun parent => ?_, fun p hp => ?_, fun p hp => ?_⟩
  · rw [ScopeMaps.fields_store]
    by_cases hparent : parent = path.parent
    · rw [if_pos hparent]
      exact resolvedFields_putField (h.resolved parent) _ hv
    · rw [if_neg hparent]
      exact h.resolved parent
  · by_cases heq : p = path
    · rw [heq, ScopeMaps.find_store_self]
      exact hplaced
    · rw [ScopeMaps.find_store_other _ heq]
      exact h.placed p (hp.resolve_left heq)
  · rw [not_or] at hp
    rw [ScopeMaps.find_store_other _ hp.1]
    exact h.absent p hp.2

theorem Filled.congr {done done' : Path → Prop} {maps : ScopeMaps} (h : Filled leaf done maps)
    (hdone : ∀ p, done p ↔ done' p) : Filled leaf done' maps := by
  have heq : done = done' := funext fun p => propext (hdone p)
  exact heq ▸ h

-- The object of a map is complete when all that is below it has been stored.
theorem Filled.assembled (hleaves : Leaves leaf) {done : Path → Prop} {maps : ScopeMaps}
    (h : Filled leaf done maps) (parent : Option Path)
    (hdone : ∀ key, (leaf (childPath parent key)).isSome ∨ IsScope leaf (childPath parent key) →
      done (childPath parent key)) :
    Assembled leaf (frontOf parent) (.simpleConfigObject () (maps.fields parent) false) := by
  apply assembled_of_placed hleaves (h.resolved parent)
  intro key
  rw [ScopeMaps.lookup_fields]
  by_cases hthere : done (childPath parent key)
  · exact h.placed _ hthere
  · rw [h.absent _ hthere]
    have hnothing := not_or.mp fun hx => hthere (hdone key hx)
    refine ⟨fun v hv => ?_, fun hs => absurd hs hnothing.2, fun _ _ => rfl⟩
    exact absurd (hv ▸ rfl) hnothing.1

end

theorem length_childPath (parent : Path) (key : Bytes) :
    (childPath (some parent) key).length = parent.length + 1 := by
  rw [Path.length, keys_childPath, List.length_append]
  rfl

theorem makeObject_resolved {fields : Fields Unit} (h : Value.resolvedFields fields = true) :
    makeObject .plain fields true false () = .ok (.simpleConfigObject () fields false) () := by
  have hmake := fromFields_eq fields false
  rw [fromFields, h] at hmake
  exact hmake

section

variable {α : Type} {convert : α → Make Unit (Value Unit)} (blank : α) {value : α → Value Unit}
  {pathMap : AList fun _ : Path => α}

theorem storeValues_filled
    (hconvert : ∀ path x, pathMap.lookup path = some x → convert x () = .ok (value x) ())
    (hleaves : Leaves fun path => (pathMap.lookup path).map value) (paths : List Path)
    (hpaths : ∀ path ∈ paths, (pathMap.lookup path).isSome) {done : Path → Prop}
    {maps : ScopeMaps} (h : Filled (fun path => (pathMap.lookup path).map value) done maps) :
    ∃ maps', paths.foldlM (storeValue convert blank pathMap) maps () = .ok maps' () ∧
      Filled (fun path => (pathMap.lookup path).map value) (fun p => p ∈ paths ∨ done p) maps' := by
  induction paths generalizing maps done with
  | nil => exact ⟨maps, rfl, h.congr fun p => by simp⟩
  | cons path rest ih =>
      obtain ⟨x, hx⟩ := Option.isSome_iff_exists.mp (hpaths path (List.mem_cons_self ..))
      have hleaf : (pathMap.lookup path).map value = some (value x) := by rw [hx]; rfl
      have hstore : storeValue convert blank pathMap maps path () =
          .ok (maps.store path (value x)) () := by
        simp only [storeValue, hx, Option.getD_some, bind, EStateM.bind, hconvert path x hx]
        rfl
      have hplaced : Placed (fun path => (pathMap.lookup path).map value) path
          (some (value x)) := by
        refine ⟨fun v hv => hleaf.symm.trans hv, fun hs => ?_, fun hnone => ?_⟩
        · exact absurd hs (hleaves.apart path (by rw [hleaf]; rfl))
        · exact nomatch hleaf.symm.trans hnone
      obtain ⟨maps', hfold, hfilled⟩ := ih (fun p hp => hpaths p (List.mem_cons_of_mem _ hp))
        (h.store (hleaves.plain path _ hleaf).2 hplaced)
      refine ⟨maps', ?_, hfilled.congr fun p => ?_⟩
      · simp only [List.foldlM_cons, bind, EStateM.bind, hstore]
        exact hfold
      · simp only [List.mem_cons]
        tauto

end

-- The scopes that are left are no longer than those that have been stored, so that
-- whatever belongs into one of them is there when its turn comes.
theorem storeScopes_filled {leaf : Path → Option (Value Unit)} (hleaves : Leaves leaf)
    (paths : List Path) (hsorted : paths.Pairwise fun first second => second.length ≤ first.length)
    (hpaths : ∀ path ∈ paths, IsScope leaf path) {done : Path → Prop}
    (hdone : ∀ path, (leaf path).isSome ∨ IsScope leaf path → done path ∨ path ∈ paths)
    {maps : ScopeMaps} (h : Filled leaf done maps) :
    ∃ maps', paths.foldlM storeScope maps () = .ok maps' () ∧
      Filled leaf (fun p => p ∈ paths ∨ done p) maps' := by
  induction paths generalizing maps done with
  | nil => exact ⟨maps, rfl, h.congr fun p => by simp⟩
  | cons path rest ih =>
      obtain ⟨hlonger, hsorted⟩ := List.pairwise_cons.mp hsorted
      have hassembled : Assembled leaf (frontOf (some path))
          (.simpleConfigObject () (maps.fields (some path)) false) := by
        apply h.assembled hleaves (some path)
        intro key hkey
        rcases hdone _ hkey with hthere | hleft
        · exact hthere
        · have hlength := length_childPath path key
          rcases List.mem_cons.mp hleft with heq | hrest
          · rw [heq] at hlength
            omega
          · have := hlonger _ hrest
            omega
      have hstore : storeScope maps path () = .ok (maps.store path
          (.simpleConfigObject () (maps.fields (some path)) false)) () := by
        simp only [storeScope, bind, EStateM.bind, makeObject_resolved (h.resolved _)]
        rfl
      have hscope := hpaths path (List.mem_cons_self ..)
      have hnotleaf (hl : (leaf path).isSome) : False := hleaves.apart path hl hscope
      have hplaced : Placed leaf path
          (some (.simpleConfigObject () (maps.fields (some path)) false)) :=
        ⟨fun v hv => (hnotleaf (hv ▸ rfl)).elim, fun _ => ⟨_, rfl, hassembled⟩,
          fun _ hs => absurd hscope hs⟩
      obtain ⟨maps', hfold, hfilled⟩ := ih hsorted
        (fun p hp => hpaths p (List.mem_cons_of_mem _ hp))
        (fun p hp => by
          rcases hdone p hp with hthere | hleft
          · exact Or.inl (Or.inr hthere)
          · rcases List.mem_cons.mp hleft with heq | hrest
            · exact Or.inl (Or.inl heq)
            · exact Or.inr hrest)
        (h.store hassembled.resolved hplaced)
      refine ⟨maps', ?_, hfilled.congr fun p => ?_⟩
      · simp only [List.foldlM_cons, bind, EStateM.bind, hstore]
        exact hfold
      · simp only [List.mem_cons]
        tauto

theorem lookup_insert_nil (paths : List Path) (scopes : AList fun _ : Path => Fields Unit)
    (h : ∀ path, (scopes.lookup path).getD [] = []) (path : Path) :
    ((paths.foldl (fun scopes path => scopes.insert path []) scopes).lookup path).getD [] = [] := by
  induction paths generalizing scopes with
  | nil => exact h path
  | cons first rest ih =>
      apply ih
      intro other
      by_cases heq : other = first
      · rw [heq, AList.lookup_insert]
        rfl
      · rw [AList.lookup_insert_ne heq]
        exact h other

theorem filled_empty (leaf : Path → Option (Value Unit)) (paths : List Path) :
    Filled leaf (fun _ => False)
      { root := [], scopes := paths.foldl (fun scopes path => scopes.insert path []) ∅ } := by
  have hfields (parent : Option Path) : ScopeMaps.fields
      { root := [], scopes := paths.foldl (fun scopes path => scopes.insert path []) ∅ } parent =
        [] := by
    cases parent with
    | none => rfl
    | some path => exact lookup_insert_nil paths ∅ (fun _ => rfl) path
  refine ⟨fun parent => by rw [hfields]; rfl, fun _ => False.elim, fun path _ => ?_⟩
  rw [ScopeMaps.find, hfields]
  rfl

section

variable {doubles : Doubles} {α : Type} {convert : α → Make Unit (Value Unit)}
  {value : α → Value Unit} {pathMap : AList fun _ : Path => α}

theorem mem_scopePaths (pathMap : AList fun _ : Path => α) (value : α → Value Unit) (path : Path) :
    path ∈ (pathMap.keys.flatMap fun path => path.parents path.length).dedup ↔
      IsScope (fun path => (pathMap.lookup path).map value) path := by
  simp only [List.mem_dedup, List.mem_flatMap, mem_parents _ _ _ le_rfl, IsScope,
    Option.isSome_map, AList.lookup_isSome, AList.mem_keys]

-- What becomes of the paths once they have been read: the exception when a value
-- lies above another one, and else the tree.
theorem fromPathMap_eq (valueWalk scopeWalk : Walk) (blank : α)
    {entries : List (Bytes × α)}
    (hbuilt : entries.foldlM (insertExpression doubles) ∅ () = .ok pathMap ())
    (hconvert : ∀ path x, pathMap.lookup path = some x → convert x () = .ok (value x) ())
    (hplain : ∀ path x, pathMap.lookup path = some x →
      (value x).isObject = false ∧ (value x).resolved = true) :
    ((∃ path, (pathMap.lookup path).isSome ∧
        IsScope (fun path => (pathMap.lookup path).map value) path) →
      fromPathMap doubles valueWalk scopeWalk convert blank entries () =
        .error (.bugOrBroken "occurs as both the parent object of a value and as a value. ") ()) ∧
    ((¬∃ path, (pathMap.lookup path).isSome ∧
        IsScope (fun path => (pathMap.lookup path).map value) path) →
      ∃ v, fromPathMap doubles valueWalk scopeWalk convert blank entries () = .ok v () ∧
        Assembled (fun path => (pathMap.lookup path).map value) [] v) := by
  have hvalues (path : Path) : path ∈ valueWalk.order pathMap.keys ↔
      (pathMap.lookup path).isSome := by
    rw [(valueWalk.perm _).mem_iff, ← AList.mem_keys, AList.lookup_isSome]
  have hscopes (path : Path) : path ∈ scopeWalk.order
      (pathMap.keys.flatMap fun path => path.parents path.length).dedup ↔
        IsScope (fun path => (pathMap.lookup path).map value) path := by
    rw [(scopeWalk.perm _).mem_iff, mem_scopePaths]
  have hcheck : ((valueWalk.order pathMap.keys).any fun path => decide (path ∈ scopeWalk.order
      (pathMap.keys.flatMap fun path => path.parents path.length).dedup)) = true ↔
        ∃ path, (pathMap.lookup path).isSome ∧
          IsScope (fun path => (pathMap.lookup path).map value) path := by
    simp only [List.any_eq_true, decide_eq_true_eq, hvalues, hscopes]
  constructor
  · intro hconflict
    simp only [fromPathMap, bind, EStateM.bind, hbuilt, hcheck.mpr hconflict, if_true]
    rfl
  · intro hfree
    have hleaves : Leaves fun path => (pathMap.lookup path).map value := by
      refine ⟨fun path hpath hs => hfree ⟨path, by simpa using hpath, hs⟩, fun path v hv => ?_⟩
      obtain ⟨x, hx, rfl⟩ := Option.map_eq_some_iff.mp hv
      exact hplain path x hx
    obtain ⟨maps, hmaps, hfilled⟩ := storeValues_filled blank hconvert hleaves
      (valueWalk.order pathMap.keys) (fun path hpath => (hvalues path).mp hpath)
      (filled_empty _ (scopeWalk.order
        (pathMap.keys.flatMap fun path => path.parents path.length).dedup))
    obtain ⟨maps', hmaps', hfilled'⟩ := storeScopes_filled hleaves
      ((scopeWalk.order (pathMap.keys.flatMap fun path => path.parents path.length).dedup
        ).insertionSort fun first second => second.length ≤ first.length)
      (List.pairwise_insertionSort _ _)
      (fun path hpath => (hscopes path).mp ((List.mem_insertionSort _).mp hpath))
      (fun path hpath => by
        rcases hpath with hleaf | hscope
        · exact Or.inl (Or.inl ((hvalues path).mpr (by simpa using hleaf)))
        · exact Or.inr ((List.mem_insertionSort _).mpr ((hscopes path).mpr hscope)))
      hfilled
    have hroot := hfilled'.assembled hleaves none fun key hkey => by
      rcases hkey with hleaf | hscope
      · exact Or.inr (Or.inl ((hvalues _).mpr (by simpa using hleaf)))
      · exact Or.inl ((List.mem_insertionSort _).mpr ((hscopes _).mpr hscope))
    refine ⟨_, ?_, hroot⟩
    have hno := mt hcheck.mp hfree
    simp only [fromPathMap, bind, EStateM.bind, hbuilt, hno, Bool.false_eq_true, if_false, hmaps,
      hmaps']
    exact makeObject_resolved (hfilled'.resolved none)

-- The table of the paths: a path is in it when an expression names it, with the
-- value of one of these expressions.
theorem insertExpressions_eq (doubles : Doubles) (entries : List (Bytes × α))
    (hvalid : ∀ entry ∈ entries, ∃ path, parsePath doubles entry.1 = .ok path)
    (pathMap : AList fun _ : Path => α) :
    ∃ pathMap', entries.foldlM (insertExpression doubles) pathMap () = .ok pathMap' () ∧
      (∀ path, (pathMap'.lookup path).isSome ↔ (pathMap.lookup path).isSome ∨
        ∃ entry ∈ entries, parsePath doubles entry.1 = .ok path) ∧
      ∀ path x, pathMap'.lookup path = some x → pathMap.lookup path = some x ∨
        ∃ entry ∈ entries, parsePath doubles entry.1 = .ok path ∧ entry.2 = x := by
  induction entries generalizing pathMap with
  | nil => exact ⟨pathMap, rfl, by simp, fun path x hx => Or.inl hx⟩
  | cons entry rest ih =>
      obtain ⟨path, hpath⟩ := hvalid entry (List.mem_cons_self ..)
      have hinsert : insertExpression doubles pathMap entry () =
          .ok (pathMap.insert path entry.2) () := by
        simp only [insertExpression, hpath]
        rfl
      obtain ⟨pathMap', hfold, hthere, hvalue⟩ := ih
        (fun e he => hvalid e (List.mem_cons_of_mem _ he)) (pathMap.insert path entry.2)
      refine ⟨pathMap', ?_, fun p => ?_, fun p x hx => ?_⟩
      · simp only [List.foldlM_cons, bind, EStateM.bind, hinsert]
        exact hfold
      · have hinserted : ((pathMap.insert path entry.2).lookup p).isSome ↔
            parsePath doubles entry.1 = .ok p ∨ (pathMap.lookup p).isSome := by
          rw [AList.lookup_isSome, AList.mem_insert, AList.lookup_isSome, hpath, Except.ok.injEq,
            eq_comm]
        simp only [hthere, hinserted, List.mem_cons, exists_eq_or_imp]
        exact or_assoc.trans or_left_comm
      · rcases hvalue p x hx with hold | ⟨e, he, hparse, hval⟩
        · by_cases heq : p = path
          · subst heq
            rw [AList.lookup_insert] at hold
            exact Or.inr ⟨entry, List.mem_cons_self .., hpath, Option.some.inj hold⟩
          · rw [AList.lookup_insert_ne heq] at hold
            exact Or.inl hold
        · exact Or.inr ⟨e, List.mem_cons_of_mem _ he, hparse, hval⟩

end

def ConfigVariant.isScalar : ConfigVariant → Bool
  | .null | .int32 _ | .int64 _ | .double _ | .bool _ | .string _ => true
  | .base | .map _ | .vector _ => false

-- The value of a scalar; the others have none of their own.
def ConfigVariant.scalarValue : ConfigVariant → Value Unit
  | .int32 x => .configInt () x []
  | .int64 x => .configInt64 () x []
  | .double text => .configDouble () text
  | .bool x => .configBoolean () x
  | .string x => .configString () x
  | .null | .base | .map _ | .vector _ => .configNull ()

theorem fromAnyRef_scalar (doubles : Doubles) (valueWalk scopeWalk : Walk) (mapMode : FromMapMode)
    {x : ConfigVariant} (h : x.isScalar = true) :
    fromAnyRef doubles valueWalk scopeWalk mapMode x () = .ok x.scalarValue () := by
  cases x <;> first | (rw [fromAnyRef]; rfl) | simp [ConfigVariant.isScalar] at h

theorem scalarValue_plain (x : ConfigVariant) :
    x.scalarValue.isObject = false ∧ x.scalarValue.resolved = true := by
  cases x <;> exact ⟨rfl, rfl⟩

section

variable (doubles : Doubles) (entries : List (Bytes × ConfigVariant))

-- An entry gives a path this value.
def Names (path : Path) (x : ConfigVariant) : Prop :=
  ∃ entry ∈ entries, parsePath doubles entry.1 = .ok path ∧ entry.2 = x

-- One entry's path is a proper prefix of another's.
def PrefixConflict : Prop :=
  ∃ p q x y, Names doubles entries p x ∧ Names doubles entries q y ∧ p.keys <+: q.keys ∧ p ≠ q

-- Two entries give one path different values.
def ValueConflict : Prop :=
  ∃ p x y, Names doubles entries p x ∧ Names doubles entries p y ∧ x ≠ y

-- Objects count as equal here, so that two trees are alike when they have the same
-- objects and the same leaves at the same paths.
def Value.look (v : Value Unit) : Option (Value Unit) := if v.isObject then none else some v

def Alike (v w : Value Unit) : Prop :=
  ∀ keys, (v.descend keys).map Value.look = (w.descend keys).map Value.look

def SameOutcome : EStateM.Result ConfigException Unit (Value Unit) →
    EStateM.Result ConfigException Unit (Value Unit) → Prop
  | .ok v _, .ok w _ => Alike v w
  | .error e _, .error e' _ => e = e'
  | _, _ => False

-- The tree has the values of the entries and what leads to them, and nothing else.
structure TreeOf (v : Value Unit) : Prop where
  object : v.isObject = true
  values : ∀ p x, Names doubles entries p x → v.descend p.keys = some x.scalarValue
  leaves : ∀ (p : Path) w, v.descend p.keys = some w → w.isObject = false →
    ∃ x, Names doubles entries p x
  objects : ∀ (p : Path) w, v.descend p.keys = some w → w.isObject = true →
    ∃ q x, Names doubles entries q x ∧ p.keys <+: q.keys

-- Whatever the order of the map and of the sets: an exception exactly for a conflict,
-- else the tree, and always the same outcome.
structure OrderIndependent : Prop where
  throws : ∀ (more : List (Bytes × ConfigVariant)) (valueWalk scopeWalk : Walk),
    more.Perm entries →
      ((∃ e, fromPathVariants doubles valueWalk scopeWalk more () = .error e ()) ↔
        PrefixConflict doubles entries ∨ ValueConflict doubles entries)
  yields : ∀ (more : List (Bytes × ConfigVariant)) (valueWalk scopeWalk : Walk) (v : Value Unit),
    more.Perm entries → fromPathVariants doubles valueWalk scopeWalk more () = .ok v () →
      TreeOf doubles entries v
  same : ∀ (more others : List (Bytes × ConfigVariant))
    (valueWalk scopeWalk valueWalk' scopeWalk' : Walk), more.Perm entries → others.Perm entries →
      SameOutcome (fromPathVariants doubles valueWalk scopeWalk more ())
        (fromPathVariants doubles valueWalk' scopeWalk' others ())

end

section

variable {doubles : Doubles} {entries : List (Bytes × ConfigVariant)}

theorem names_of_perm {more : List (Bytes × ConfigVariant)} (hperm : more.Perm entries)
    {path : Path} {x : ConfigVariant} : Names doubles more path x ↔ Names doubles entries path x := by
  simp only [Names, hperm.mem_iff]

-- The outcome for one order of everything: `leaf` has for each path the value of one
-- of the entries that name it.
theorem fromPathVariants_eq (hvalid : ∀ entry ∈ entries, ∃ path,
      parsePath doubles entry.1 = .ok path) (hscalar : ∀ entry ∈ entries, entry.2.isScalar = true)
    {more : List (Bytes × ConfigVariant)} (hperm : more.Perm entries) (valueWalk scopeWalk : Walk) :
    (PrefixConflict doubles entries →
      fromPathVariants doubles valueWalk scopeWalk more () =
        .error (.bugOrBroken "occurs as both the parent object of a value and as a value. ") ()) ∧
    (¬PrefixConflict doubles entries → ∃ v leaf,
      fromPathVariants doubles valueWalk scopeWalk more () = .ok v () ∧ Assembled leaf [] v ∧
        (∀ p w, leaf p = some w → ∃ x, Names doubles entries p x ∧ w = x.scalarValue) ∧
        ∀ p x, Names doubles entries p x → (leaf p).isSome) := by
  obtain ⟨pathMap, hbuilt, hthere, hvalue⟩ := insertExpressions_eq doubles more
    (fun entry hentry => hvalid entry (hperm.mem_iff.mp hentry)) ∅
  have hnamed (path : Path) (x : ConfigVariant) (hx : pathMap.lookup path = some x) :
      Names doubles entries path x := by
    rcases hvalue path x hx with hempty | hentry
    · exact nomatch hempty
    · exact (names_of_perm hperm).mp hentry
  have hsome (path : Path) : (pathMap.lookup path).isSome ↔ ∃ x, Names doubles entries path x := by
    rw [hthere]
    constructor
    · rintro (hempty | ⟨entry, hentry, hparse⟩)
      · exact absurd hempty (by simp)
      · exact ⟨entry.2, entry, hperm.mem_iff.mp hentry, hparse, rfl⟩
    · rintro ⟨x, entry, hentry, hparse, -⟩
      exact Or.inr ⟨entry, hperm.mem_iff.mpr hentry, hparse⟩
  have hconflict : (∃ path, (pathMap.lookup path).isSome ∧
      IsScope (fun path => (pathMap.lookup path).map ConfigVariant.scalarValue) path) ↔
        PrefixConflict doubles entries := by
    simp only [IsScope, Option.isSome_map, hsome]
    constructor
    · rintro ⟨p, ⟨x, hx⟩, q, ⟨y, hy⟩, hstarts, hne⟩
      exact ⟨p, q, x, y, hx, hy, hstarts, hne⟩
    · rintro ⟨p, q, x, y, hx, hy, hstarts, hne⟩
      exact ⟨p, ⟨x, hx⟩, q, ⟨y, hy⟩, hstarts, hne⟩
  have hscalars (path : Path) (x : ConfigVariant) (hx : pathMap.lookup path = some x) :
      fromAnyRef doubles valueWalk scopeWalk .KEYS_ARE_PATHS x () = .ok x.scalarValue () := by
    obtain ⟨entry, hentry, -, rfl⟩ := hnamed path x hx
    exact fromAnyRef_scalar _ _ _ _ (hscalar entry hentry)
  obtain ⟨hthrow, hok⟩ := fromPathMap_eq valueWalk scopeWalk .null hbuilt hscalars
    fun _ x _ => scalarValue_plain x
  rw [hconflict] at hthrow hok
  refine ⟨hthrow, fun hfree => ?_⟩
  obtain ⟨v, hv, hassembled⟩ := hok hfree
  refine ⟨v, _, hv, hassembled, fun p w hw => ?_, fun p x hx => ?_⟩
  · obtain ⟨x, hx, rfl⟩ := Option.map_eq_some_iff.mp hw
    exact ⟨x, hnamed p x hx, rfl⟩
  · rw [Option.isSome_map]
    exact (hsome p).mpr ⟨x, hx⟩

-- Two trees with the same leaves are alike.
theorem Assembled.alike {leaf : Path → Option (Value Unit)} {v w : Value Unit}
    (hv : Assembled leaf [] v) (hw : Assembled leaf [] w) : Alike v w := by
  intro keys
  cases keys with
  | nil => simp [Value.look, hv.object, hw.object]
  | cons key rest =>
      obtain ⟨path, -, hkeys⟩ := PathBuilder.result_keys (key :: rest) (List.cons_ne_nil _ _)
      have hfound := hv.below path (key :: rest) (List.cons_ne_nil _ _) hkeys
      have hother := hw.below path (key :: rest) (List.cons_ne_nil _ _) hkeys
      cases hleaf : leaf path with
      | some x => rw [hfound.value x hleaf, hother.value x hleaf]
      | none =>
          by_cases hs : IsScope leaf path
          · obtain ⟨o, ho, hobject⟩ := hfound.scope hs
            obtain ⟨o', ho', hobject'⟩ := hother.scope hs
            simp [ho, ho', Value.look, hobject, hobject']
          · rw [hfound.absent hleaf hs, hother.absent hleaf hs]

theorem Assembled.treeOf {leaf : Path → Option (Value Unit)} {v : Value Unit}
    (h : Assembled leaf [] v)
    (hleaf : ∀ p w, leaf p = some w → ∃ x, Names doubles entries p x ∧ w = x.scalarValue)
    (hnames : ∀ p x, Names doubles entries p x → (leaf p).isSome)
    (hsingle : ¬ValueConflict doubles entries) : TreeOf doubles entries v := by
  have hbelow (p : Path) : Expected leaf p (v.descend p.keys) :=
    h.below p p.keys p.keys_ne_nil rfl
  refine ⟨h.object, fun p x hx => ?_, fun p w hw hplain => ?_, fun p w hw hobject => ?_⟩
  · obtain ⟨w, hw⟩ := Option.isSome_iff_exists.mp (hnames p x hx)
    obtain ⟨y, hy, rfl⟩ := hleaf p w hw
    have heq : x = y := by
      by_contra hne
      exact hsingle ⟨p, x, y, hx, hy, hne⟩
    rw [(hbelow p).value _ hw, heq]
  · cases hlp : leaf p with
    | some u =>
        obtain ⟨x, hx, -⟩ := hleaf p u hlp
        exact ⟨x, hx⟩
    | none =>
        by_cases hs : IsScope leaf p
        · obtain ⟨o, ho, hobject⟩ := (hbelow p).scope hs
          obtain rfl := Option.some.inj (hw.symm.trans ho)
          simp [hplain] at hobject
        · exact nomatch hw.symm.trans ((hbelow p).absent hlp hs)
  · cases hlp : leaf p with
    | some u =>
        obtain ⟨x, hx, -⟩ := hleaf p u hlp
        exact ⟨p, x, hx, List.prefix_rfl⟩
    | none =>
        by_cases hs : IsScope leaf p
        · obtain ⟨q, hq, hstarts, -⟩ := hs
          obtain ⟨u, hu⟩ := Option.isSome_iff_exists.mp hq
          obtain ⟨x, hx, -⟩ := hleaf q u hu
          exact ⟨q, x, hx, hstarts⟩
        · exact nomatch hw.symm.trans ((hbelow p).absent hlp hs)

-- The outcome does not depend on the order unless two expressions give one path
-- different values: then the last one in the order of the map is kept.
theorem fromPathVariants_orderIndependent_iff
    (hvalid : ∀ entry ∈ entries, ∃ path, parsePath doubles entry.1 = .ok path)
    (hscalar : ∀ entry ∈ entries, entry.2.isScalar = true) :
    OrderIndependent doubles entries ↔
      PrefixConflict doubles entries ∨ ¬ValueConflict doubles entries := by
  constructor
  · intro h
    by_contra hcontra
    rw [not_or, not_not] at hcontra
    obtain ⟨hfree, hdouble⟩ := hcontra
    let walk : Walk := ⟨id, fun _ => List.Perm.refl _⟩
    obtain ⟨v, leaf, hv, -⟩ :=
      (fromPathVariants_eq hvalid hscalar (List.Perm.refl entries) walk walk).2 hfree
    obtain ⟨e, he⟩ := (h.throws entries walk walk (List.Perm.refl _)).mpr (Or.inr hdouble)
    exact nomatch hv.symm.trans he
  · intro h
    by_cases hstarts : PrefixConflict doubles entries
    · have hthrow (more : List (Bytes × ConfigVariant)) (valueWalk scopeWalk : Walk)
          (hperm : more.Perm entries) :=
        (fromPathVariants_eq hvalid hscalar hperm valueWalk scopeWalk).1 hstarts
      refine ⟨fun more valueWalk scopeWalk hperm => ?_, fun more valueWalk scopeWalk v hperm hv => ?_,
        fun more others valueWalk scopeWalk valueWalk' scopeWalk' hperm hperm' => ?_⟩
      · exact ⟨fun _ => Or.inl hstarts, fun _ => ⟨_, hthrow more valueWalk scopeWalk hperm⟩⟩
      · exact nomatch hv.symm.trans (hthrow more valueWalk scopeWalk hperm)
      · rw [hthrow more valueWalk scopeWalk hperm, hthrow others valueWalk' scopeWalk' hperm']
        rfl
    · have hsingle := h.resolve_left hstarts
      have htree (more : List (Bytes × ConfigVariant)) (valueWalk scopeWalk : Walk)
          (hperm : more.Perm entries) :=
        (fromPathVariants_eq hvalid hscalar hperm valueWalk scopeWalk).2 hstarts
      refine ⟨fun more valueWalk scopeWalk hperm => ?_, fun more valueWalk scopeWalk v hperm hv => ?_,
        fun more others valueWalk scopeWalk valueWalk' scopeWalk' hperm hperm' => ?_⟩
      · obtain ⟨v, leaf, hv, -⟩ := htree more valueWalk scopeWalk hperm
        constructor
        · rintro ⟨e, he⟩
          exact nomatch hv.symm.trans he
        · rintro (hconflict | hconflict)
          · exact absurd hconflict hstarts
          · exact absurd hconflict hsingle
      · obtain ⟨v', leaf, hv', hassembled, hleaf, hnames⟩ := htree more valueWalk scopeWalk hperm
        obtain ⟨rfl, -⟩ := EStateM.Result.ok.inj (hv.symm.trans hv')
        exact hassembled.treeOf hleaf hnames hsingle
      · obtain ⟨v, leaf, hv, hassembled, hleaf, hnames⟩ := htree more valueWalk scopeWalk hperm
        obtain ⟨w, leaf', hw, hassembled', hleaf', hnames'⟩ :=
          htree others valueWalk' scopeWalk' hperm'
        rw [hv, hw]
        have hsame : leaf' = leaf := by
          funext p
          cases hp : leaf p with
          | none =>
              cases hp' : leaf' p with
              | none => rfl
              | some u =>
                  obtain ⟨x, hx, -⟩ := hleaf' p u hp'
                  have := hnames p x hx
                  simp [hp] at this
          | some u =>
              obtain ⟨x, hx, rfl⟩ := hleaf p u hp
              obtain ⟨u', hu'⟩ := Option.isSome_iff_exists.mp (hnames' p x hx)
              obtain ⟨y, hy, rfl⟩ := hleaf' p u' hu'
              have heq : x = y := by
                by_contra hne
                exact hsingle ⟨p, x, y, hx, hy, hne⟩
              rw [hu', heq]
        exact hassembled.alike (hsame ▸ hassembled')

end

theorem fromPathVariants_orderIndependent_siblings :
    OrderIndependent ⟨fun _ => none, id⟩ [(ascii "a.b", .int32 1), (ascii "a.c", .bool true)] := by
  have hb : parsePath ⟨fun _ => none, id⟩ (ascii "a.b") =
    .ok (.cons (ascii "a") (.newKey (ascii "b"))) := by decide
  have hc : parsePath ⟨fun _ => none, id⟩ (ascii "a.c") =
    .ok (.cons (ascii "a") (.newKey (ascii "c"))) := by decide
  have hne : ascii "b" ≠ ascii "c" := by decide
  refine (fromPathVariants_orderIndependent_iff ?_ ?_).mpr (Or.inr ?_)
  · simp [hb, hc]
  · simp [ConfigVariant.isScalar]
  · rintro ⟨p, x, y, ⟨e, he, hp, rfl⟩, ⟨f, hf, hp', rfl⟩, hdiffer⟩
    simp only [List.mem_cons, List.not_mem_nil, or_false] at he hf
    rcases he with rfl | rfl <;> rcases hf with rfl | rfl
    · exact hdiffer rfl
    · exact hne (by simpa using Except.ok.inj ((hb.symm.trans hp).trans (hp'.symm.trans hc)))
    · exact hne (by simpa using Except.ok.inj ((hb.symm.trans hp').trans (hp.symm.trans hc)))
    · exact hdiffer rfl

-- The path `a` under two spellings: each order keeps its last value.
theorem fromPathVariants_spellings :
    fromPathVariants ⟨fun _ => none, id⟩ ⟨id, fun _ => .refl _⟩ ⟨id, fun _ => .refl _⟩
        [(ascii "a", .int32 1), (ascii "\"a\"", .int32 2)] () =
      .ok (.simpleConfigObject () [(ascii "a", .configInt () 2 [])] false) () ∧
    fromPathVariants ⟨fun _ => none, id⟩ ⟨id, fun _ => .refl _⟩ ⟨id, fun _ => .refl _⟩
        [(ascii "\"a\"", .int32 2), (ascii "a", .int32 1)] () =
      .ok (.simpleConfigObject () [(ascii "a", .configInt () 1 [])] false) () ∧
    ¬OrderIndependent ⟨fun _ => none, id⟩ [(ascii "a", .int32 1), (ascii "\"a\"", .int32 2)] := by
  have hfirst : fromPathVariants ⟨fun _ => none, id⟩ ⟨id, fun _ => .refl _⟩
      ⟨id, fun _ => .refl _⟩ [(ascii "a", .int32 1), (ascii "\"a\"", .int32 2)] () =
    .ok (.simpleConfigObject () [(ascii "a", .configInt () 2 [])] false) () := by rfl
  refine ⟨hfirst, by rfl, fun h => ?_⟩
  obtain ⟨e, he⟩ := (h.throws _ ⟨id, fun _ => .refl _⟩ ⟨id, fun _ => .refl _⟩ (.refl _)).mpr
    (Or.inr ⟨.newKey (ascii "a"), .int32 1, .int32 2, ⟨_, List.mem_cons_self .., by decide, rfl⟩,
      ⟨_, List.mem_cons_of_mem _ (List.mem_cons_self ..), by decide, rfl⟩, by simp⟩)
  exact nomatch hfirst.symm.trans he

end AsrServiceProxy.Config

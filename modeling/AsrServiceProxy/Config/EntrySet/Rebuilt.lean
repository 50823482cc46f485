import AsrServiceProxy.Config.EntrySet
import AsrServiceProxy.Config.Equality.Rewrapped
import AsrServiceProxy.Config.FromMap.Theorems

-- A config is put together again from the set of its settings.
namespace AsrServiceProxy.Config

open CMemory

variable {ι : Type}

mutual

theorem Value.resolved_of_data : ∀ v : Value ι, v.Forall Value.IsData → v.resolved = true
  | .configNull _, _ | .configBoolean _ _, _ | .configInt _ _ _, _ | .configInt64 _ _ _, _
  | .configString _ _, _ => rfl
  | .simpleConfigList _ value, h => resolvedAll_of_data value h.2
  | .simpleConfigObject _ value _, h => resolvedFields_of_data value h.2
  | .configDouble _ _, h => h.elim
  | .configReference _ _ _, h => h.elim
  | .configConcatenation _ _, h => h.1.elim
  | .configDelayedMerge _ _, h => h.1.elim
  | .configDelayedMergeObject _ _, h => h.1.elim

theorem resolvedAll_of_data : ∀ vs : List (Value ι), ForallAll Value.IsData vs →
    Value.resolvedAll vs = true
  | [], _ => rfl
  | v :: rest, h => by
      rw [Value.resolvedAll, v.resolved_of_data h.1, resolvedAll_of_data rest h.2]
      rfl

theorem resolvedFields_of_data : ∀ fields : List (Bytes × Value ι),
    ForallFields Value.IsData fields → Value.resolvedFields fields = true
  | [], _ => rfl
  | (_, v) :: rest, h => by
      rw [Value.resolvedFields, v.resolved_of_data h.1, resolvedFields_of_data rest h.2]
      rfl

end

-- Lists of data without a map in them are made in the same way in both modes.
section

variable (doubles : Doubles) (valueWalk scopeWalk : Walk) (walk : EntryWalk)

mutual

theorem fromAnyRef_mode : ∀ v : Value ι, v.Forall (fun w => w.isObject = false) →
    fromAnyRef doubles valueWalk scopeWalk .KEYS_ARE_PATHS (v.plain walk) =
      fromAnyRef doubles valueWalk scopeWalk .KEYS_ARE_KEYS (v.plain walk)
  | .configNull _, _ | .configBoolean _ _, _ | .configInt _ _ _, _ | .configInt64 _ _ _, _
  | .configDouble _ _, _ | .configString _ _, _ | .configReference _ _ _, _
  | .configConcatenation _ _, _ | .configDelayedMerge _ _, _
  | .configDelayedMergeObject _ _, _ => by
      simp only [Value.plain, fromAnyRef]
  | .simpleConfigList _ value, h => by
      simp only [Value.plain, fromAnyRef, fromElements_mode value h.2]
  | .simpleConfigObject _ _ _, h => absurd h.1 (by simp [Value.isObject])

theorem fromElements_mode : ∀ vs : List (Value ι), ForallAll (fun w => w.isObject = false) vs →
    fromElements doubles valueWalk scopeWalk .KEYS_ARE_PATHS (plainAll walk vs) =
      fromElements doubles valueWalk scopeWalk .KEYS_ARE_KEYS (plainAll walk vs)
  | [], _ => rfl
  | v :: rest, h => by
      simp only [plainAll, fromElements, fromAnyRef_mode v h.1, fromElements_mode rest h.2]

end

theorem Rewraps.isObject {κ : Type} {v : Value ι} {w : Value κ} (h : Rewraps v w)
    (hv : v.isObject = false) : w.isObject = false := by
  have htree := h.tree ℤ Int32.toInt Int64.toInt
  cases w with
  | simpleConfigObject =>
      rw [Value.tree] at htree
      cases v with
      | simpleConfigObject => cases hv
      | _ => simp [Value.tree] at htree
  | configDelayedMergeObject => exact h.data.1.elim
  | _ => rfl

-- What `from_any_ref` makes of a variant, if it makes anything.
def madeOf (x : ConfigVariant) : Value Unit :=
  match fromAnyRef doubles valueWalk scopeWalk .KEYS_ARE_PATHS x () with
  | .ok v _ => v
  | .error _ _ => .configNull ()

theorem madeOf_setting {v : Value ι} (hdata : v.Forall Value.IsData)
    (hflat : v.Forall fun w => w.isObject = false) :
    fromAnyRef doubles valueWalk scopeWalk .KEYS_ARE_PATHS (v.plain walk) () =
        .ok (madeOf doubles valueWalk scopeWalk (v.plain walk)) () ∧
      Rewraps v (madeOf doubles valueWalk scopeWalk (v.plain walk)) ∧
      (madeOf doubles valueWalk scopeWalk (v.plain walk)).isObject = false ∧
      (madeOf doubles valueWalk scopeWalk (v.plain walk)).resolved = true := by
  obtain ⟨w, hw, hrewraps⟩ := comes_of_data doubles valueWalk scopeWalk walk v hdata
  rw [← fromAnyRef_mode doubles valueWalk scopeWalk walk v hflat] at hw
  have hmade : madeOf doubles valueWalk scopeWalk (v.plain walk) = w := by
    rw [madeOf, hw]
  have hobject : v.isObject = false := by
    cases v <;> first | rfl | exact hflat.1
  rw [hmade]
  exact ⟨hw, hrewraps, hrewraps.isObject hobject, w.resolved_of_data hrewraps.data⟩

end

-- The trees have the same settings at the same paths, and no objects but those that
-- settings lie in.
structure SameSettings (root : Value ℕ) (v : Value Unit) : Prop where
  kept : ∀ (path : Path) w, root.descend path.keys = some w → w.isSetting = true →
    ∃ u, v.descend path.keys = some u ∧ u.isSetting = true ∧ w.tree Sum.inl Sum.inr =
      (u.tree Sum.inl Sum.inr : DataTree (Int32 ⊕ Int64))
  only : ∀ (path : Path) u, v.descend path.keys = some u → u.isObject = false →
    ∃ w, root.descend path.keys = some w ∧ w.isSetting = true ∧ w.tree Sum.inl Sum.inr =
      (u.tree Sum.inl Sum.inr : DataTree (Int32 ⊕ Int64))
  objects : ∀ (path : Path) u, v.descend path.keys = some u → u.isObject = true →
    ∃ (below : Path) (w : Value ℕ), path.keys <+: below.keys ∧
      root.descend below.keys = some w ∧ w.isSetting = true

theorem Value.isSetting_iff {v : Value ι} :
    v.isSetting = true ↔ v.isObject = false ∧ v.isNull = false := by
  rw [Value.isSetting, Bool.and_eq_true, Bool.not_eq_true', Bool.not_eq_true']

theorem Rewraps.isSetting {κ : Type} {v : Value ι} {w : Value κ} (h : Rewraps v w)
    (hv : v.isSetting = true) : w.isSetting = true := by
  rw [Value.isSetting_iff] at hv ⊢
  refine ⟨h.isObject hv.1, ?_⟩
  have htree := h.tree ℤ Int32.toInt Int64.toInt
  cases w with
  | configNull =>
      rw [Value.tree] at htree
      cases v with
      | configNull => cases hv.2
      | configDouble | configReference | configConcatenation | configDelayedMerge
      | configDelayedMergeObject => simp [Value.tree] at htree
      | _ => simp [Value.tree] at htree
  | _ => rfl

-- No setting lies below another one.
theorem Value.setting_apart {root v w : Value ι} {p q : Path}
    (hv : root.descend p.keys = some v) (hsetting : v.isSetting = true)
    (hw : root.descend q.keys = some w) (h : p.keys <+: q.keys) : p = q := by
  obtain ⟨more, hmore⟩ := h
  cases more with
  | nil =>
      rw [List.append_nil] at hmore
      exact Path.keys_injective hmore
  | cons key keys =>
      rw [← hmore, Value.descend_append, hv, Option.bind_some,
        Value.descend_eq_none_of_not_isObject (Value.isSetting_iff.mp hsetting).1] at hw
      cases hw

theorem Value.checked_of_data {v : Value ι} (h : v.IsData) : v.Checked := by
  cases v <;> first | exact h | trivial

section

variable {doubles : Doubles} {valueWalk scopeWalk : Walk} {walk : EntryWalk}

-- The table of the paths has the settings, each under its path.
theorem pathMap_settings {root : Value ℕ} {variants : List (Bytes × ConfigVariant)}
    (hvariants : ∀ text x, (text, x) ∈ variants ↔ ∃ (path : Path) (w : Value ℕ),
      text = path.render ∧ root.descend path.keys = some w ∧ w.isSetting = true ∧
        x = w.plain walk)
    (hread : ∀ (path : Path) w, root.descend path.keys = some w → w.isSetting = true →
      parsePath doubles path.render = .ok path) :
    ∃ pathMap, variants.foldlM (insertExpression doubles) ∅ () = .ok pathMap () ∧
      ∀ path x, pathMap.lookup path = some x ↔
        ∃ w, root.descend path.keys = some w ∧ w.isSetting = true ∧ x = w.plain walk := by
  have hparses : ∀ entry ∈ variants, ∀ path, parsePath doubles entry.1 = .ok path →
      ∃ w, root.descend path.keys = some w ∧ w.isSetting = true ∧ entry.2 = w.plain walk := by
    intro entry hentry path hpath
    obtain ⟨other, w, htext, hw, hsetting, hx⟩ := (hvariants entry.1 entry.2).mp hentry
    rw [htext, hread other w hw hsetting, Except.ok.injEq] at hpath
    subst hpath
    exact ⟨w, hw, hsetting, hx⟩
  obtain ⟨pathMap, hbuilt, hthere, hvalue⟩ := insertExpressions_eq doubles variants
    (fun entry hentry => by
      obtain ⟨path, w, htext, hw, hsetting, -⟩ := (hvariants entry.1 entry.2).mp hentry
      exact ⟨path, htext ▸ hread path w hw hsetting⟩) ∅
  have hfound : ∀ path x, pathMap.lookup path = some x →
      ∃ w, root.descend path.keys = some w ∧ w.isSetting = true ∧ x = w.plain walk := by
    intro path x hx
    rcases hvalue path x hx with hempty | ⟨entry, hentry, hpath, rfl⟩
    · cases hempty
    · exact hparses entry hentry path hpath
  refine ⟨pathMap, hbuilt, fun path x => ⟨hfound path x, ?_⟩⟩
  rintro ⟨w, hw, hsetting, rfl⟩
  have hentry := (hvariants path.render (w.plain walk)).mpr ⟨path, w, rfl, hw, hsetting, rfl⟩
  have hsome := (hthere path).mpr (.inr ⟨_, hentry, hread path w hw hsetting⟩)
  obtain ⟨x, hx⟩ := Option.isSome_iff_exists.mp hsome
  obtain ⟨u, hu, -, rfl⟩ := hfound path x hx
  obtain rfl := Option.some.inj (hw.symm.trans hu)
  exact hx

theorem Assembled.sameSettings {root : Value ℕ} {v : Value Unit}
    {leaf : Path → Option (Value Unit)}
    (hmade : ∀ path u, leaf path = some u ↔ ∃ w, root.descend path.keys = some w ∧
      w.isSetting = true ∧ u = madeOf doubles valueWalk scopeWalk (w.plain walk))
    (hrewraps : ∀ (path : Path) w, root.descend path.keys = some w → w.isSetting = true →
      Rewraps w (madeOf doubles valueWalk scopeWalk (w.plain walk)))
    (h : Assembled leaf [] v) : SameSettings root v := by
  have hbelow (path : Path) : Expected leaf path (v.descend path.keys) :=
    h.below path path.keys path.keys_ne_nil rfl
  have hleaf : ∀ path u, leaf path = some u → ∃ w, root.descend path.keys = some w ∧
      w.isSetting = true ∧ Rewraps w u := by
    intro path u hu
    obtain ⟨w, hw, hsetting, rfl⟩ := (hmade path u).mp hu
    exact ⟨w, hw, hsetting, hrewraps path w hw hsetting⟩
  refine ⟨fun path w hw hsetting => ?_, fun path u hu hplain => ?_, fun path u hu hobject => ?_⟩
  · have hfound := (hbelow path).value _ ((hmade path _).mpr ⟨w, hw, hsetting, rfl⟩)
    have hsame := hrewraps path w hw hsetting
    exact ⟨_, hfound, hsame.isSetting hsetting, hsame.tree _ _ _⟩
  · cases hl : leaf path with
    | some x =>
        obtain rfl := Option.some.inj (hu.symm.trans ((hbelow path).value x hl))
        obtain ⟨w, hw, hsetting, hsame⟩ := hleaf path u hl
        exact ⟨w, hw, hsetting, hsame.tree _ _ _⟩
    | none =>
        by_cases hscope : IsScope leaf path
        · obtain ⟨o, ho, hobject⟩ := (hbelow path).scope hscope
          rw [← Option.some.inj (hu.symm.trans ho), hplain] at hobject
          cases hobject
        · rw [(hbelow path).absent hl hscope] at hu
          cases hu
  · cases hl : leaf path with
    | some x =>
        obtain ⟨w, hw, hsetting, -⟩ := hleaf path x hl
        exact ⟨path, w, List.prefix_rfl, hw, hsetting⟩
    | none =>
        by_cases hscope : IsScope leaf path
        · obtain ⟨below, hsome, hstarts, -⟩ := hscope
          obtain ⟨x, hx⟩ := Option.isSome_iff_exists.mp hsome
          obtain ⟨w, hw, hsetting, -⟩ := hleaf below x hx
          exact ⟨below, w, hstarts, hw, hsetting⟩
        · rw [(hbelow path).absent hl hscope] at hu
          cases hu

end

-- The settings of a config, unwrapped and given to `from_path_map` in any order, make
-- a config with the same settings; nulls and objects without settings are gone. The
-- texts of the paths have to be read as these, and no list may hold an object, whose
-- keys would be taken for paths.
theorem fromPathVariants_entrySet (doubles : Doubles) (valueWalk scopeWalk : Walk)
    (walk : EntryWalk) {root : Value ℕ} (hobject : root.isObject = true)
    (hdata : root.Forall Value.IsData)
    (hsettings : ∀ (path : Path) w, root.descend path.keys = some w → w.isSetting = true →
      w.Forall (fun u => u.isObject = false) ∧ path.render.length < 2 ^ 32 ∧
        (∀ key ∈ path.keys, (255 : UInt8) ∉ key) ∧ NumbersCast doubles (leadingText path.keys)) :
    ∃ entries, SimpleConfig.entrySet root = .ok entries ∧
      ∀ variants : List (Bytes × ConfigVariant),
        (∀ text x, (text, x) ∈ variants ↔
          ∃ w, (text, w) ∈ entries ∧ w.unwrapped walk = .ok x) →
        ∃ v, fromPathVariants doubles valueWalk scopeWalk variants () = .ok v () ∧
          SameSettings root v := by
  have hresolved := root.resolved_of_data hdata
  have hvalid : root.Valid := Value.Forall.imp (fun _ h => Value.checked_of_data h) root hdata
  obtain ⟨entries, hentries, -, hmem⟩ := entrySet_eq hobject hresolved hvalid
  refine ⟨entries, hentries, fun variants hvariants => ?_⟩
  have hread : ∀ (path : Path) w, root.descend path.keys = some w → w.isSetting = true →
      parsePath doubles path.render = .ok path := by
    intro path w hw hsetting
    obtain ⟨-, hlength, hbytes, hnumbers⟩ := hsettings path w hw hsetting
    exact parsePath_render doubles path hlength hbytes hnumbers
  have hplain : ∀ text x, (text, x) ∈ variants ↔ ∃ (path : Path) (w : Value ℕ),
      text = path.render ∧ root.descend path.keys = some w ∧ w.isSetting = true ∧
        x = w.plain walk := by
    intro text x
    rw [hvariants]
    constructor
    · rintro ⟨w, hw, hx⟩
      obtain ⟨path, keys, rfl, htext, hdescend, hsetting⟩ := (hmem _).mp hw
      rw [w.unwrapped_of_resolved walk (Value.resolved_of_descend hresolved hdescend)] at hx
      exact ⟨path, w, htext, hdescend, hsetting, (Except.ok.inj hx).symm⟩
    · rintro ⟨path, w, htext, hdescend, hsetting, rfl⟩
      exact ⟨w, (hmem _).mpr ⟨path, path.keys, rfl, htext, hdescend, hsetting⟩,
        w.unwrapped_of_resolved walk (Value.resolved_of_descend hresolved hdescend)⟩
  obtain ⟨pathMap, hbuilt, hlookup⟩ := pathMap_settings hplain hread
  have hmade (path : Path) (w : Value ℕ) (hw : root.descend path.keys = some w)
      (hsetting : w.isSetting = true) := madeOf_setting doubles valueWalk scopeWalk walk
    (Value.forall_of_descend hdata hw) (hsettings path w hw hsetting).1
  obtain ⟨-, hok⟩ := @fromPathMap_eq _ _ _ (madeOf doubles valueWalk scopeWalk) _ valueWalk
    scopeWalk .null _ hbuilt
    (fun path x hx => by
      obtain ⟨w, hw, hsetting, rfl⟩ := (hlookup path x).mp hx
      exact (hmade path w hw hsetting).1)
    (fun path x hx => by
      obtain ⟨w, hw, hsetting, rfl⟩ := (hlookup path x).mp hx
      exact (hmade path w hw hsetting).2.2)
  obtain ⟨v, hv, hassembled⟩ := hok (by
    rintro ⟨path, hpath, below, hbelow, hstarts, hne⟩
    obtain ⟨x, hx⟩ := Option.isSome_iff_exists.mp hpath
    rw [Option.isSome_map] at hbelow
    obtain ⟨y, hy⟩ := Option.isSome_iff_exists.mp hbelow
    obtain ⟨w, hw, hsetting, -⟩ := (hlookup path x).mp hx
    obtain ⟨u, hu, -, -⟩ := (hlookup below y).mp hy
    exact hne (Value.setting_apart hw hsetting hu hstarts))
  refine ⟨v, hv, hassembled.sameSettings (fun path u => ?_)
    fun path w hw hsetting => (hmade path w hw hsetting).2.1⟩
  rw [Option.map_eq_some_iff]
  constructor
  · rintro ⟨x, hx, rfl⟩
    obtain ⟨w, hw, hsetting, rfl⟩ := (hlookup path x).mp hx
    exact ⟨w, hw, hsetting, rfl⟩
  · rintro ⟨w, hw, hsetting, rfl⟩
    exact ⟨_, (hlookup path _).mpr ⟨w, hw, hsetting, rfl⟩, rfl⟩

-- `a { b = [1] }, c = null` is made again from `a.b = [1]`.
theorem fromPathVariants_entrySet_nested :
    let root : Value ℕ := .simpleConfigObject 0 [(ascii "a", .simpleConfigObject 1
      [(ascii "b", .simpleConfigList 2 [.configInt 3 1 []])] false),
      (ascii "c", .configNull 4)] false
    ∃ v, fromPathVariants ⟨fun _ => none, id⟩ ⟨id, fun _ => .refl _⟩ ⟨id, fun _ => .refl _⟩
        [(ascii "a.b", .vector [.int32 1])] () = .ok v () ∧ SameSettings root v := by
  intro root
  have hdata : root.Forall Value.IsData := by
    refine ⟨?_, ⟨?_, ⟨trivial, trivial, trivial⟩, trivial⟩, trivial, trivial⟩
    · change [ascii "a", ascii "c"].Nodup
      decide
    · change [ascii "b"].Nodup
      decide
  have hentries : SimpleConfig.entrySet root =
      .ok [(ascii "a.b", .simpleConfigList 2 [.configInt 3 1 []])] := by rfl
  have hpaths : ∀ (path : Path) w, root.descend path.keys = some w → w.isSetting = true →
      path = .cons (ascii "a") (.newKey (ascii "b")) ∧
        w = .simpleConfigList 2 [.configInt 3 1 []] := by
    intro path w hw hsetting
    obtain ⟨entries, heq, -, hmem⟩ := @entrySet_eq root rfl rfl
      (Value.Forall.imp (fun _ h => Value.checked_of_data h) root hdata)
    obtain rfl := Except.ok.inj (hentries.symm.trans heq)
    have hentry := (hmem (path.render, w)).mpr ⟨path, path.keys, rfl, rfl, hw, hsetting⟩
    rw [List.mem_singleton, Prod.mk.injEq] at hentry
    have hshort : ∀ key ∈ path.keys, key.length < 2 ^ 32 := fun key hkey =>
      (path.length_le_render key hkey).trans_lt (by rw [hentry.1]; decide)
    exact ⟨Path.render_injective hshort (by decide) (hentry.1.trans rfl), hentry.2⟩
  obtain ⟨entries, heq, hall⟩ := @fromPathVariants_entrySet ⟨fun _ => none, id⟩
    ⟨id, fun _ => .refl _⟩ ⟨id, fun _ => .refl _⟩ ⟨id, fun _ => .refl _⟩ root rfl hdata
    (by
      intro path w hw hsetting
      obtain ⟨rfl, rfl⟩ := hpaths path w hw hsetting
      refine ⟨⟨rfl, rfl, trivial⟩, by decide, by decide, ?_⟩
      have htext : leadingText (Path.cons (ascii "a") (.newKey (ascii "b"))).keys =
          97 :: ascii ".b" := by decide
      rw [htext]
      exact .other (by decide) (by decide))
  obtain rfl := Except.ok.inj (hentries.symm.trans heq)
  refine hall _ fun text x => ?_
  rw [List.mem_singleton, Prod.mk.injEq]
  constructor
  · rintro ⟨rfl, rfl⟩
    exact ⟨_, List.mem_singleton_self _, rfl⟩
  · rintro ⟨w, hw, hx⟩
    obtain ⟨rfl, rfl⟩ := Prod.mk.injEq .. ▸ List.mem_singleton.mp hw
    exact ⟨rfl, (Except.ok.inj hx).symm⟩

end AsrServiceProxy.Config

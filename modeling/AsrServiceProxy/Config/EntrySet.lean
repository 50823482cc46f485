import AsrServiceProxy.Config.Lookup.Theorems
import AsrServiceProxy.Config.Operations
import AsrServiceProxy.Config.PathText.Distinct
import AsrServiceProxy.Config.Resolve.Weight

-- The settings of a config as a set of paths and values, all its objects taken apart.
namespace AsrServiceProxy.Config

open CMemory

-- `_path::new_key(elem)`, behind the path of the object if there is one.
def entryPath (parent : Option Path) (elem : Bytes) : Path :=
  match parent with
  | none => .newKey elem
  | some parent => (Path.newKey elem).prepend parent

-- The entries of an object that is not resolved yet cannot be walked.
mutual

def SimpleConfig.findPaths (parent : Option Path) : List (Bytes × Value ℕ) →
    List (Bytes × Value ℕ) → Except ConfigException (List (Bytes × Value ℕ))
  | [], entries => .ok entries
  | (elem, v) :: rest, entries => do
      let entries ← findPathsIn (entryPath parent elem) v entries
      findPaths parent rest entries

def SimpleConfig.findPathsIn (path : Path) : Value ℕ → List (Bytes × Value ℕ) →
    Except ConfigException (List (Bytes × Value ℕ))
  | .simpleConfigObject _ value _, entries => findPaths (some path) value entries
  | .configDelayedMergeObject _ _, _ => .error notResolved
  | .configNull _, entries => .ok entries
  | v, entries => .ok (entries.insert (path.render, v))

end

def SimpleConfig.entrySet : Value ℕ → Except ConfigException (List (Bytes × Value ℕ))
  | .simpleConfigObject _ value _ => findPaths none value []
  | .configDelayedMergeObject _ _ => .error notResolved
  | _ => .error (.undefinedBehaviour "not an object")

-- A setting: what is neither an object nor null.
def Value.isSetting {ι : Type} (v : Value ι) : Bool := !v.isObject && !v.isNull

-- What `find_paths` adds below a path.
def EntryBelow (front : List Bytes) (v : Value ℕ) (entry : Bytes × Value ℕ) : Prop :=
  ∃ (path : Path) (keys : List Bytes), path.keys = front ++ keys ∧ entry.1 = path.render ∧
    v.descend keys = some entry.2 ∧ entry.2.isSetting = true

-- The entries that were there, and those below.
def Adds (entries : List (Bytes × Value ℕ)) (below : Bytes × Value ℕ → Prop)
    (r : Except ConfigException (List (Bytes × Value ℕ))) : Prop :=
  ∃ found, r = .ok found ∧ (entries.Nodup → found.Nodup) ∧
    ∀ entry, entry ∈ found ↔ entry ∈ entries ∨ below entry

theorem keys_entryPath (parent : Option Path) (elem : Bytes) :
    (entryPath parent elem).keys = (parent.elim [] Path.keys) ++ [elem] := by
  cases parent with
  | none => rfl
  | some parent => exact Path.keys_prepend _ _

theorem adds_setting {path : Path} {v : Value ℕ} (h : v.isSetting = true)
    (entries : List (Bytes × Value ℕ)) :
    Adds entries (EntryBelow path.keys v) (.ok (entries.insert (path.render, v))) := by
  refine ⟨_, rfl, fun hnodup => hnodup.insert, fun entry => ?_⟩
  rw [List.mem_insert_iff, or_comm]
  refine or_congr_right ⟨?_, ?_⟩
  · rintro rfl
    exact ⟨path, [], (List.append_nil _).symm, rfl, rfl, h⟩
  · rintro ⟨other, keys, hkeys, htext, hv, -⟩
    cases keys with
    | nil =>
        rw [List.append_nil] at hkeys
        rw [Value.descend_nil, Option.some.injEq] at hv
        rw [← Path.keys_injective hkeys, hv, ← htext]
    | cons key keys =>
        have hobject : v.isObject = false := by
          rw [Value.isSetting, Bool.and_eq_true, Bool.not_eq_true'] at h
          exact h.1
        rw [Value.descend_eq_none_of_not_isObject hobject] at hv
        cases hv

-- An object has the settings below its fields.
theorem entryBelow_object {front : List Bytes} {id : ℕ} {value : Fields ℕ} {ignores : Bool}
    {entry : Bytes × Value ℕ} :
    EntryBelow front (.simpleConfigObject id value ignores) entry ↔
      ∃ elem v, value.lookup elem = some v ∧ EntryBelow (front ++ [elem]) v entry := by
  constructor
  · rintro ⟨path, keys, hkeys, htext, hv, hsetting⟩
    cases keys with
    | nil =>
        rw [Value.descend_nil, Option.some.injEq] at hv
        rw [← hv] at hsetting
        cases hsetting
    | cons elem keys =>
        obtain ⟨v, hlookup, hv⟩ := Option.bind_eq_some_iff.mp hv
        refine ⟨elem, v, hlookup, path, keys, ?_, htext, hv, hsetting⟩
        rw [hkeys, List.append_assoc, List.singleton_append]
  · rintro ⟨elem, v, hlookup, path, keys, hkeys, htext, hv, hsetting⟩
    refine ⟨path, elem :: keys, ?_, htext, ?_, hsetting⟩
    · rw [hkeys, List.append_assoc, List.singleton_append]
    · rw [Value.descend_cons, Value.child, hlookup, Option.bind_some]
      exact hv

theorem not_entryBelow_null {front : List Bytes} {id : ℕ} {entry : Bytes × Value ℕ} :
    ¬EntryBelow front (.configNull id) entry := by
  rintro ⟨path, keys, hkeys, htext, hv, hsetting⟩
  cases keys with
  | nil =>
      rw [Value.descend_nil, Option.some.injEq] at hv
      rw [← hv] at hsetting
      cases hsetting
  | cons elem keys => cases hv

mutual

theorem adds_findPathsIn (path : Path) : ∀ v : Value ℕ, v.resolved → v.Valid → ∀ entries,
    Adds entries (EntryBelow path.keys v) (SimpleConfig.findPathsIn path v entries)
  | .simpleConfigObject id value ignores, h, hvalid, entries => by
      obtain ⟨found, hfound, hnodup, hmem⟩ :=
        adds_findPaths (some path) value h hvalid.1 hvalid.2 entries
      refine ⟨found, hfound, hnodup, fun entry => ?_⟩
      rw [hmem, entryBelow_object]
      rfl
  | .configNull id, _, _, entries => by
      refine ⟨entries, rfl, fun h => h, fun entry => ?_⟩
      rw [or_iff_left not_entryBelow_null]
  | .configBoolean _ _, _, _, entries | .configInt _ _ _, _, _, entries
  | .configInt64 _ _ _, _, _, entries | .configDouble _ _, _, _, entries
  | .configString _ _, _, _, entries | .simpleConfigList _ _, _, _, entries =>
      adds_setting rfl entries

theorem adds_findPaths (parent : Option Path) : ∀ fields : List (Bytes × Value ℕ),
    Value.resolvedFields fields → (fields.map Prod.fst).Nodup →
    ForallFields Value.Checked fields → ∀ entries,
    Adds entries
      (fun entry => ∃ elem v, fields.lookup elem = some v ∧
        EntryBelow (parent.elim [] Path.keys ++ [elem]) v entry)
      (SimpleConfig.findPaths parent fields entries)
  | [], _, _, _, entries => ⟨entries, rfl, id, by simp⟩
  | (elem, v) :: rest, h, hkeys, hvalid, entries => by
      rw [Value.resolvedFields, Bool.and_eq_true] at h
      rw [List.map_cons, List.nodup_cons] at hkeys
      obtain ⟨some, hsome, hnodup, hmem⟩ :=
        adds_findPathsIn (entryPath parent elem) v h.1 hvalid.1 entries
      obtain ⟨found, hfound, hnodup', hmem'⟩ :=
        adds_findPaths parent rest h.2 hkeys.2 hvalid.2 some
      refine ⟨found, ?_, fun hentries => hnodup' (hnodup hentries), fun entry => ?_⟩
      · rw [SimpleConfig.findPaths, hsome]
        exact hfound
      · rw [hmem', hmem, keys_entryPath, or_assoc]
        refine or_congr_right ?_
        have hlookup : rest.lookup elem = none := Entries.lookup_eq_none_iff.mpr hkeys.1
        constructor
        · rintro (hbelow | ⟨other, w, hw, hbelow⟩)
          · exact ⟨elem, v, by rw [List.lookup_cons_self], hbelow⟩
          · refine ⟨other, w, ?_, hbelow⟩
            rw [Entries.lookup_cons, if_neg, hw]
            rintro rfl
            rw [hlookup] at hw
            cases hw
        · rintro ⟨other, w, hw, hbelow⟩
          rw [Entries.lookup_cons] at hw
          by_cases heq : other = elem
          · rw [if_pos heq, Option.some.injEq] at hw
            subst heq
            subst hw
            exact .inl hbelow
          · rw [if_neg heq] at hw
            exact .inr ⟨other, w, hw, hbelow⟩

end

theorem entrySet_eq {root : Value ℕ} (hobject : root.isObject = true) (h : root.resolved = true)
    (hvalid : root.Valid) :
    ∃ entries, SimpleConfig.entrySet root = .ok entries ∧ entries.Nodup ∧
      ∀ entry, entry ∈ entries ↔ EntryBelow [] root entry := by
  obtain ⟨id, value, ignores, rfl⟩ := Value.eq_simpleConfigObject hobject h
  obtain ⟨entries, hentries, hnodup, hmem⟩ := adds_findPaths none value h hvalid.1 hvalid.2 []
  refine ⟨entries, hentries, hnodup List.nodup_nil, fun entry => ?_⟩
  rw [hmem, entryBelow_object]
  simp

-- The keys whose lengths are a uint32_t: all others may lack the quotes that they need.
def Value.ShortKeys {ι : Type} : Value ι → Prop
  | .simpleConfigObject _ value _ => ∀ field ∈ value, field.1.length < 2 ^ 32
  | _ => True

theorem Value.short_of_descend {ι : Type} {keys : List Bytes} {v w : Value ι}
    (h : v.Forall Value.ShortKeys) (hw : v.descend keys = some w) :
    ∀ key ∈ keys, key.length < 2 ^ 32 := by
  induction keys generalizing v with
  | nil => nofun
  | cons key keys ih =>
      obtain ⟨u, hu, huw⟩ := Option.bind_eq_some_iff.mp hw
      refine List.forall_mem_cons.mpr ⟨?_, ih (Value.forall_of_child h hu) huw⟩
      cases v with
      | simpleConfigObject id value ignores => exact h.1 _ (Entries.mem_of_lookup hu)
      | _ => cases hu

-- A path whose text is read as that path.
theorem parsePath_render (doubles : Doubles) (path : Path) (hlength : path.render.length < 2 ^ 32)
    (hbytes : ∀ key ∈ path.keys, (255 : UInt8) ∉ key)
    (hnumbers : NumbersCast doubles (leadingText path.keys)) :
    parsePath doubles path.render = .ok path := by
  obtain ⟨key, keys, hkeys⟩ := List.exists_cons_of_ne_nil path.keys_ne_nil
  have hrender : path.render = writeKey key ++ dotted keys :=
    render_eq_dotted path hkeys fun k hk =>
      renderKey_eq ((path.length_le_render k hk).trans_lt hlength)
  rw [hkeys] at hbytes hnumbers
  have hround := (splitPath_written doubles key keys hbytes).mpr hnumbers
  rw [← hrender, ← hkeys] at hround
  change (parsePath doubles path.render).map Path.keys = .ok path.keys at hround
  cases hparse : parsePath doubles path.render with
  | error e =>
      rw [hparse] at hround
      cases hround
  | ok other =>
      rw [hparse] at hround
      rw [Path.keys_injective (Except.ok.inj hround)]

-- The entries are the settings of the config, each once and under the text of its
-- path; `get_value` finds a setting by the text of its path where this is read as the
-- path, and what it finds is an entry unless it is an object.
theorem entrySet_settings (doubles : Doubles) (newId : ℕ) {root : Value ℕ}
    (hobject : root.isObject = true) (h : root.resolved = true) (hvalid : root.Valid)
    (hshort : root.Forall Value.ShortKeys) :
    ∃ entries, SimpleConfig.entrySet root = .ok entries ∧ (entries.map Prod.fst).Nodup ∧
      (∀ text v, (text, v) ∈ entries ↔ ∃ path : Path, text = path.render ∧
        root.descend path.keys = some v ∧ v.isSetting = true) ∧
      (∀ (path : Path) v, root.descend path.keys = some v → v.isSetting = true →
        path.render.length < 2 ^ 32 → (∀ key ∈ path.keys, (255 : UInt8) ∉ key) →
          NumbersCast doubles (leadingText path.keys) →
            SimpleConfig.getValue doubles newId root path.render = .ok v) ∧
      ∀ expression path v, parsePath doubles expression = .ok path →
        SimpleConfig.getValue doubles newId root expression = .ok v → v.isObject = false →
          (path.render, v) ∈ entries := by
  obtain ⟨entries, hentries, hnodup, hmem⟩ := entrySet_eq hobject h hvalid
  have hiff (text : Bytes) (v : Value ℕ) : (text, v) ∈ entries ↔ ∃ path : Path,
      text = path.render ∧ root.descend path.keys = some v ∧ v.isSetting = true := by
    rw [hmem]
    constructor
    · rintro ⟨path, keys, rfl, htext, hv, hsetting⟩
      exact ⟨path, htext, hv, hsetting⟩
    · rintro ⟨path, htext, hv, hsetting⟩
      exact ⟨path, path.keys, rfl, htext, hv, hsetting⟩
  refine ⟨entries, hentries, ?_, hiff, ?_, ?_⟩
  · refine (List.nodup_map_iff_inj_on hnodup).mpr ?_
    rintro ⟨text, v⟩ hv ⟨other, w⟩ hw htext
    obtain ⟨path, rfl, hpath, -⟩ := (hiff text v).mp hv
    obtain ⟨path', rfl, hpath', -⟩ := (hiff other w).mp hw
    obtain rfl := Path.render_injective (Value.short_of_descend hshort hpath)
      (Value.short_of_descend hshort hpath') htext
    rw [Option.some.inj (hpath.symm.trans hpath')]
  · intro path v hv hsetting hlength hbytes hnumbers
    have hparse := parsePath_render doubles path hlength hbytes hnumbers
    rw [Value.isSetting, Bool.and_eq_true, Bool.not_eq_true', Bool.not_eq_true'] at hsetting
    exact (getValue_eq_ok_iff doubles newId hobject h hparse v).mpr ⟨hv, hsetting.2⟩
  · intro expression path v hparse hv hother
    obtain ⟨hdescend, hnull⟩ := (getValue_eq_ok_iff doubles newId hobject h hparse v).mp hv
    refine (hiff _ _).mpr ⟨path, rfl, hdescend, ?_⟩
    rw [Value.isSetting, hother, hnull]
    rfl

-- The settings of `a { b = 1, c = null }, "x y" = true`.
theorem entrySet_settings_nested :
    let number : Value ℕ := .configInt 2 1 []
    let root : Value ℕ := .simpleConfigObject 0 [(ascii "a", .simpleConfigObject 1
      [(ascii "b", number), (ascii "c", .configNull 3)] false),
      (ascii "x y", .configBoolean 4 true)] false
    ∃ entries, SimpleConfig.entrySet root = .ok entries ∧ (ascii "a.b", number) ∈ entries ∧
      SimpleConfig.getValue ⟨fun _ => none, id⟩ 9 root (ascii "a.b") = .ok number := by
  intro number root
  have hvalid : root.Valid := by
    refine ⟨?_, ⟨?_, trivial, trivial, trivial⟩, trivial, trivial⟩
    · change [ascii "a", ascii "x y"].Nodup
      decide
    · change [ascii "b", ascii "c"].Nodup
      decide
  let path : Path := .cons (ascii "a") (.newKey (ascii "b"))
  obtain ⟨entries, hentries, -, hiff, hget, -⟩ :=
    @entrySet_settings ⟨fun _ => none, id⟩ 9 root rfl rfl hvalid
      ⟨by rw [Value.ShortKeys]; decide, ⟨by rw [Value.ShortKeys]; decide, trivial, trivial, trivial⟩,
        trivial, trivial⟩
  have hentry : (path.render, number) ∈ entries :=
    (hiff _ _).mpr ⟨path, rfl, by decide, by decide⟩
  have htext : leadingText path.keys = 97 :: ascii ".b" := by decide
  have hnumbers : NumbersCast ⟨fun _ => none, id⟩ (leadingText path.keys) := by
    rw [htext]
    exact .other (by decide) (by decide)
  exact ⟨entries, hentries, hentry,
    hget path number (by decide) (by decide) (by decide) (by decide) hnumbers⟩

end AsrServiceProxy.Config

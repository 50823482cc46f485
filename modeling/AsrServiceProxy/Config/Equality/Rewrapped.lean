import AsrServiceProxy.Config.Equality.Theorems
import AsrServiceProxy.Config.RoundTrip.Objects
import AsrServiceProxy.Config.WellMade

-- A value that is unwrapped and wrapped again is the value that it was.
namespace AsrServiceProxy.Config

open CMemory

variable {ι κ : Type}

-- `w` is `v` with its keys, elements and scalars, but for the order of the keys.
structure Rewraps (v : Value ι) (w : Value κ) : Prop where
  data : w.Forall Value.IsData
  tree : ∀ (ν : Type) (narrow : Int32 → ν) (wide : Int64 → ν), v.tree narrow wide = w.tree narrow wide

-- The elements of two lists, and the fields of two maps in their orders.
theorem Rewraps.list {vs : List (Value ι)} {ws : List (Value κ)} (h : List.Forall₂ Rewraps vs ws)
    (id : ι) (id' : κ) : Rewraps (.simpleConfigList id vs) (.simpleConfigList id' ws) := by
  constructor
  · refine ⟨trivial, ?_⟩
    induction h with
    | nil => trivial
    | cons hv _ ih => exact ⟨hv.data, ih⟩
  · intro ν narrow wide
    rw [Value.tree, Value.tree]
    congr 1
    induction h with
    | nil => rfl
    | cons hv _ ih => rw [treeAll, treeAll, hv.tree, ih]

theorem Rewraps.object {value : Fields ι} {fields : Fields κ} (hnodup : (value.map Prod.fst).Nodup)
    (hkeys : (fields.map Prod.fst).Perm (value.map Prod.fst))
    (h : ∀ field ∈ fields, ∃ v, (field.1, v) ∈ value ∧ Rewraps v field.2)
    (id : ι) (id' : κ) (ignores ignores' : Bool) :
    Rewraps (.simpleConfigObject id value ignores) (.simpleConfigObject id' fields ignores') := by
  have hnodup' : (fields.map Prod.fst).Nodup := hkeys.nodup_iff.mpr hnodup
  constructor
  · refine ⟨hnodup', (forallFields_iff _).mpr fun field hfield => ?_⟩
    obtain ⟨v, -, hv⟩ := h field hfield
    exact hv.data
  · intro ν narrow wide
    rw [Value.tree, Value.tree]
    congr 1
    funext key
    rw [treeFields_eq, treeFields_eq]
    cases hw : fields.lookup key with
    | none =>
        have hnone : ¬(value.lookup key).isSome := by
          rw [Entries.isSome_lookup_iff, ← hkeys.mem_iff, ← Entries.isSome_lookup_iff, hw]
          exact Bool.false_ne_true
        rw [Option.not_isSome_iff_eq_none] at hnone
        rw [hnone]
        rfl
    | some w =>
        obtain ⟨v, hv, hrewraps⟩ := h (key, w) (Entries.mem_of_lookup hw)
        rw [Entries.lookup_of_mem hnodup hv, Option.map_some, Option.map_some, hrewraps.tree]

theorem plainFields_eq (walk : EntryWalk) (fields : Fields ι) :
    plainFields walk fields = fields.map fun field => (field.1, field.2.plain walk) := by
  induction fields with
  | nil => rfl
  | cons field rest ih => rw [plainFields, ih, List.map_cons]

theorem plainAll_eq (walk : EntryWalk) (vs : List (Value ι)) :
    plainAll walk vs = vs.map (Value.plain walk) := by
  induction vs with
  | nil => rfl
  | cons v rest ih => rw [plainAll, ih, List.map_cons]

section

variable (doubles : Doubles) (valueWalk scopeWalk : Walk) (walk : EntryWalk)

-- What is made of the data of a value is that value.
def Comes (v : Value ι) : Prop :=
  ∃ w, fromAnyRef doubles valueWalk scopeWalk .KEYS_ARE_KEYS (v.plain walk) () = .ok w () ∧
    Rewraps v w

theorem fromElements_plain {vs : List (Value ι)}
    (h : ∀ v ∈ vs, Comes doubles valueWalk scopeWalk walk v) :
    ∃ ws, fromElements doubles valueWalk scopeWalk .KEYS_ARE_KEYS (vs.map (Value.plain walk)) () =
      .ok ws () ∧ List.Forall₂ Rewraps vs ws := by
  induction vs with
  | nil => exact ⟨[], rfl, .nil⟩
  | cons v rest ih =>
      obtain ⟨w, hw, hrewraps⟩ := h v List.mem_cons_self
      obtain ⟨ws, hws, hall⟩ := ih fun x hx => h x (List.mem_cons_of_mem v hx)
      refine ⟨w :: ws, ?_, .cons hrewraps hall⟩
      rw [List.map_cons, fromElements]
      simp only [bind, EStateM.bind, hw, hws]
      rfl

-- The loop over the entries of a map, whose keys are all new.
theorem fromEntries_made {entries : List (Bytes × ConfigVariant)}
    (made : Bytes → Value Unit → Prop)
    (h : ∀ entry ∈ entries, ∃ w,
      fromAnyRef doubles valueWalk scopeWalk .KEYS_ARE_KEYS entry.2 () = .ok w () ∧ made entry.1 w)
    {values : Fields Unit} (hkeys : (values.map Prod.fst ++ entries.map Prod.fst).Nodup) :
    ∃ fields, fromEntries doubles valueWalk scopeWalk entries values () = .ok (values ++ fields) () ∧
      fields.map Prod.fst = entries.map Prod.fst ∧ ∀ field ∈ fields, made field.1 field.2 := by
  induction entries generalizing values with
  | nil => exact ⟨[], by rw [List.append_nil]; rfl, rfl, nofun⟩
  | cons entry rest ih =>
      obtain ⟨key, x⟩ := entry
      obtain ⟨w, hw, hmade⟩ := h (key, x) List.mem_cons_self
      have hnew : key ∉ values.map Prod.fst := by
        rw [List.map_cons, List.nodup_append] at hkeys
        exact fun hmem => hkeys.2.2 key hmem key List.mem_cons_self rfl
      have hput := (putField_new hnew w).2
      have hkeys' : ((values ++ [(key, w)]).map Prod.fst ++ rest.map Prod.fst).Nodup := by
        rw [List.map_append, List.append_assoc]
        exact hkeys
      obtain ⟨fields, hfields, hsame, hall⟩ :=
        ih (fun e he => h e (List.mem_cons_of_mem _ he)) hkeys'
      rw [List.append_assoc, List.singleton_append] at hfields
      refine ⟨(key, w) :: fields, ?_, ?_, List.forall_mem_cons.mpr ⟨hmade, hall⟩⟩
      · rw [fromEntries]
        simp only [bind, EStateM.bind, hw, hput, hfields]
      · rw [List.map_cons, List.map_cons, hsame]

theorem fromAnyRef_map {entries : List (Bytes × ConfigVariant)} {made : Fields Unit}
    (h : fromEntries doubles valueWalk scopeWalk entries [] () = .ok made ()) :
    fromAnyRef doubles valueWalk scopeWalk .KEYS_ARE_KEYS (.map entries) () =
      .ok (.simpleConfigObject () made false) () := by
  rw [fromAnyRef]
  cases entries with
  | nil =>
      cases h
      rfl
  | cons entry rest =>
      rw [if_neg (by simp)]
      simp only [bind, EStateM.bind, h, makeObject_eq]
      rfl

theorem comes_object {value : Fields ι} (hnodup : (value.map Prod.fst).Nodup)
    (h : ∀ field ∈ value, Comes doubles valueWalk scopeWalk walk field.2) (id : ι) (ignores : Bool) :
    Comes doubles valueWalk scopeWalk walk (.simpleConfigObject id value ignores) := by
  have hperm := walk.perm (plainFields walk value)
  rw [plainFields_eq] at hperm
  have hkeys : ((walk.order (plainFields walk value)).map Prod.fst).Perm (value.map Prod.fst) := by
    rw [plainFields_eq]
    have hmap := hperm.map Prod.fst
    rwa [List.map_map] at hmap
  have hentries : ∀ entry ∈ walk.order (plainFields walk value), ∃ w,
      fromAnyRef doubles valueWalk scopeWalk .KEYS_ARE_KEYS entry.2 () = .ok w () ∧
        ∃ v, (entry.1, v) ∈ value ∧ Rewraps v w := by
    intro entry hentry
    rw [plainFields_eq, hperm.mem_iff, List.mem_map] at hentry
    obtain ⟨field, hfield, rfl⟩ := hentry
    obtain ⟨w, hw, hrewraps⟩ := h field hfield
    exact ⟨w, hw, field.2, hfield, hrewraps⟩
  have hnew : (([] : Fields Unit).map Prod.fst ++
      (walk.order (plainFields walk value)).map Prod.fst).Nodup := hkeys.nodup_iff.mpr hnodup
  obtain ⟨fields, hfields, hsame, hall⟩ := fromEntries_made doubles valueWalk scopeWalk
    (fun key w => ∃ v, (key, v) ∈ value ∧ Rewraps v w) hentries hnew
  refine ⟨.simpleConfigObject () fields false, fromAnyRef_map doubles valueWalk scopeWalk hfields, ?_⟩
  exact .object hnodup (hsame ▸ hkeys) hall id () ignores false

mutual

theorem comes_of_data : ∀ v : Value ι, v.Forall Value.IsData →
    Comes doubles valueWalk scopeWalk walk v
  | .configNull _, _ => ⟨.configNull (), rfl, trivial, fun _ _ _ => rfl⟩
  | .configBoolean _ value, _ => ⟨.configBoolean () value, rfl, trivial, fun _ _ _ => rfl⟩
  | .configInt _ value _, _ => ⟨.configInt () value [], rfl, trivial, fun _ _ _ => rfl⟩
  | .configInt64 _ value _, _ => ⟨.configInt64 () value [], rfl, trivial, fun _ _ _ => rfl⟩
  | .configString _ value, _ => ⟨.configString () value, rfl, trivial, fun _ _ _ => rfl⟩
  | .simpleConfigList id value, h => by
      obtain ⟨ws, hws, hall⟩ := fromElements_plain doubles valueWalk scopeWalk walk
        (comesAll_of_data value h.2)
      refine ⟨.simpleConfigList () ws, ?_, .list hall id ()⟩
      rw [Value.plain, plainAll_eq, fromAnyRef]
      simp only [bind, EStateM.bind, hws, makeList_eq]
      rfl
  | .simpleConfigObject id value ignores, h =>
      comes_object doubles valueWalk scopeWalk walk h.1 (comesFields_of_data value h.2) id ignores
  | .configDouble _ _, h => h.elim
  | .configReference _ _ _, h => h.elim
  | .configConcatenation _ _, h => h.1.elim
  | .configDelayedMerge _ _, h => h.1.elim
  | .configDelayedMergeObject _ _, h => h.1.elim

theorem comesAll_of_data : ∀ vs : List (Value ι), ForallAll Value.IsData vs →
    ∀ v ∈ vs, Comes doubles valueWalk scopeWalk walk v
  | [], _ => nofun
  | v :: rest, h => List.forall_mem_cons.mpr
      ⟨comes_of_data v h.1, comesAll_of_data rest h.2⟩

theorem comesFields_of_data : ∀ fields : List (Bytes × Value ι), ForallFields Value.IsData fields →
    ∀ field ∈ fields, Comes doubles valueWalk scopeWalk walk field.2
  | [], _ => nofun
  | (_, v) :: rest, h => List.forall_mem_cons.mpr
      ⟨comes_of_data v h.1, comesFields_of_data rest h.2⟩

end

-- Unwrapping and wrapping again gives a value with the keys, elements and scalars of
-- the first one, their widths included, and the two are equal to each other.
theorem fromAnyRef_unwrapped (floats : Floats) (v : Value ι) (h : v.Forall Value.IsData)
    (hresolved : v.resolved) :
    ∃ x w, v.unwrapped walk = .ok x ∧
      fromAnyRef doubles valueWalk scopeWalk .KEYS_ARE_KEYS x () = .ok w () ∧
      v.equals floats w = true ∧ w.equals floats v = true ∧
      v.tree (ν := Int32 ⊕ Int64) .inl .inr = w.tree .inl .inr := by
  obtain ⟨w, hw, hrewraps⟩ := comes_of_data doubles valueWalk scopeWalk walk v h
  have hdenotes : v.denotes = w.denotes := hrewraps.tree ℤ Int32.toInt Int64.toInt
  exact ⟨v.plain walk, w, v.unwrapped_of_resolved walk hresolved, hw,
    equals_of_denotes_eq floats v w h hrewraps.data hdenotes,
    equals_of_denotes_eq floats w v hrewraps.data h hdenotes.symm, hrewraps.tree _ _ _⟩

end

-- `{a = [1, "x", {}], b = null}`
def nestedData : Value Unit :=
  .simpleConfigObject () [(ascii "a", .simpleConfigList () [.configInt () 1 [],
    .configString () (ascii "x"), .simpleConfigObject () [] false]), (ascii "b", .configNull ())] false

theorem fromAnyRef_unwrapped_nested :
    ∃ x w, nestedData.unwrapped ⟨id, fun _ => .refl _⟩ = .ok x ∧
      fromAnyRef ⟨fun _ => none, id⟩ ⟨id, fun _ => .refl _⟩ ⟨id, fun _ => .refl _⟩ .KEYS_ARE_KEYS x () =
        .ok w () ∧
      nestedData.equals noFloats w = true ∧ w.equals noFloats nestedData = true ∧
      nestedData.tree (ν := Int32 ⊕ Int64) .inl .inr = w.tree .inl .inr :=
  fromAnyRef_unwrapped ⟨fun _ => none, id⟩ ⟨id, fun _ => .refl _⟩ ⟨id, fun _ => .refl _⟩
    ⟨id, fun _ => .refl _⟩ noFloats nestedData ⟨show [ascii "a", ascii "b"].Nodup by decide,
      ⟨trivial, trivial, trivial, ⟨List.nodup_nil, trivial⟩, trivial⟩, trivial, trivial⟩ rfl

end AsrServiceProxy.Config

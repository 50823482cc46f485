import Mathlib.Data.UInt
import AsrServiceProxy.Config.Equality
import AsrServiceProxy.Config.FromMap.Theorems
import AsrServiceProxy.Config.Resolve.Merging

-- Equality of values is equality of the trees they stand for, as long as no 64-bit
-- integer is cut to a 32-bit one that it is compared with.
namespace AsrServiceProxy.Config

open CMemory

variable {ι κ : Type}

section

variable {ν : Type} (narrow : Int32 → ν) (wide : Int64 → ν)

theorem treeFields_eq (fields : Fields ι) (key : Bytes) :
    treeFields narrow wide fields key = (fields.lookup key).map (Value.tree narrow wide) := by
  induction fields with
  | nil => rfl
  | cons field rest ih =>
      obtain ⟨name, v⟩ := field
      rw [treeFields, List.lookup_cons]
      by_cases hkey : key = name
      · rw [if_pos hkey, hkey, beq_self_eq_true]
        rfl
      · rw [if_neg hkey, beq_eq_false_iff_ne.mpr hkey]
        exact ih

theorem treeAll_eq (vs : List (Value ι)) :
    treeAll narrow wide vs = vs.map (Value.tree narrow wide) := by
  induction vs with
  | nil => rfl
  | cons v rest ih => rw [treeAll, ih, List.map_cons]

end

instance : Std.Total KeyLE := ⟨fun a b => le_total (a.map UInt8.toNat) (b.map UInt8.toNat)⟩

instance : IsTrans Bytes KeyLE :=
  ⟨fun a b c => le_trans (a := a.map UInt8.toNat) (b := b.map UInt8.toNat) (c := c.map UInt8.toNat)⟩

theorem KeyLE.antisymm {a b : Bytes} (hab : KeyLE a b) (hba : KeyLE b a) : a = b :=
  List.map_injective_iff.mpr (fun _ _ => UInt8.toNat_inj.mp) (le_antisymm hab hba)

-- Two maps have the same sorted keys when they have the same keys.
theorem sortedKeys_eq_iff {fields : Fields ι} {other : Fields κ} (h : (fields.map Prod.fst).Nodup)
    (h' : (other.map Prod.fst).Nodup) :
    sortedKeys fields = sortedKeys other ↔
      ∀ key, key ∈ fields.map Prod.fst ↔ key ∈ other.map Prod.fst := by
  rw [sortedKeys, sortedKeys]
  constructor
  · intro heq key
    rw [← List.mem_insertionSort KeyLE, heq, List.mem_insertionSort]
  · intro hkeys
    have hperm := (List.perm_ext_iff_of_nodup h h').mpr hkeys
    apply List.Perm.eq_of_pairwise fun _ _ _ _ => KeyLE.antisymm
    · exact List.pairwise_insertionSort KeyLE _
    · exact List.pairwise_insertionSort KeyLE _
    · exact ((List.perm_insertionSort KeyLE _).trans hperm).trans (List.perm_insertionSort KeyLE _).symm

section

variable (floats : Floats)

-- Integers of the two widths are compared after the one on the left is cast.
theorem equals_int (id : ι) (id' : κ) (m n : Int32) (s t : Bytes) :
    (Value.configInt id m s).equals floats (.configInt id' n t) = (m == n) := rfl

theorem equals_int_int64 (id : ι) (id' : κ) (m : Int32) (n : Int64) (s t : Bytes) :
    (Value.configInt id m s).equals floats (.configInt64 id' n t) = (m.toInt64 == n) := rfl

theorem equals_int64_int (id : ι) (id' : κ) (m : Int64) (n : Int32) (s t : Bytes) :
    (Value.configInt64 id m s).equals floats (.configInt id' n t) = (m.toInt32 == n) := rfl

theorem equals_int64 (id : ι) (id' : κ) (m n : Int64) (s t : Bytes) :
    (Value.configInt64 id m s).equals floats (.configInt64 id' n t) = (m == n) := rfl

theorem toInt64_eq_of_toInt_eq {m : Int32} {n : Int64} (h : m.toInt = n.toInt) : m.toInt64 = n := by
  rw [← Int64.toInt_inj, Int32.toInt_toInt64, h]

theorem toInt32_eq_of_toInt_eq {m : Int64} {n : Int32} (h : m.toInt = n.toInt) : m.toInt32 = n := by
  rw [← toInt64_eq_of_toInt_eq h.symm, Int32.toInt32_toInt64]

-- The fields of two maps that stand for one partial function.
theorem fields_of_treeFields_eq {value : Fields ι} {other : Fields κ}
    (hvalue : (value.map Prod.fst).Nodup) (hother : (other.map Prod.fst).Nodup)
    (h : treeFields Int32.toInt Int64.toInt value = treeFields Int32.toInt Int64.toInt other) :
    value.length = other.length ∧ sortedKeys value = sortedKeys other ∧
      ∀ field ∈ value, ∃ w, other.lookup field.1 = some w ∧ field.2.denotes = w.denotes := by
  have hlookup : ∀ key, (value.lookup key).map Value.denotes = (other.lookup key).map Value.denotes := by
    intro key
    have hkey := congrFun h key
    rwa [treeFields_eq, treeFields_eq] at hkey
  have hkeys : ∀ key, key ∈ value.map Prod.fst ↔ key ∈ other.map Prod.fst := by
    intro key
    rw [← Entries.isSome_lookup_iff, ← Entries.isSome_lookup_iff,
      ← Option.isSome_map (f := Value.denotes), hlookup, Option.isSome_map]
  refine ⟨?_, (sortedKeys_eq_iff hvalue hother).mpr hkeys, ?_⟩
  · have hperm := (List.perm_ext_iff_of_nodup hvalue hother).mpr hkeys
    simpa using hperm.length_eq
  · intro field hfield
    have hfield' := hlookup field.1
    rw [Entries.lookup_of_mem hvalue hfield, Option.map_some] at hfield'
    obtain ⟨w, hw, hdenotes⟩ := Option.map_eq_some_iff.mp hfield'.symm
    exact ⟨w, hw, hdenotes.symm⟩

-- Values that stand for one tree are equal, whatever the widths of their integers.
mutual

theorem equals_of_denotes_eq : ∀ (a : Value ι) (b : Value κ), a.Forall Value.IsData →
    b.Forall Value.IsData → a.denotes = b.denotes → a.equals floats b = true
  | .configNull _, b, _, _, h => by
      cases b with
      | configNull => rfl
      | _ => cases h
  | .configBoolean _ x, b, _, _, h => by
      cases b with
      | configBoolean id y =>
          cases h
          cases x
          · rfl
          · rfl
      | _ => cases h
  | .configInt _ m _, b, _, _, h => by
      cases b with
      | configInt id n =>
          have hn : m.toInt = n.toInt := DataTree.number.inj h
          rw [equals_int, Int32.toInt_inj.mp hn, beq_self_eq_true]
      | configInt64 id n =>
          have hn : m.toInt = n.toInt := DataTree.number.inj h
          rw [equals_int_int64, toInt64_eq_of_toInt_eq hn, beq_self_eq_true]
      | _ => cases h
  | .configInt64 _ m _, b, _, _, h => by
      cases b with
      | configInt id n =>
          have hn : m.toInt = n.toInt := DataTree.number.inj h
          rw [equals_int64_int, toInt32_eq_of_toInt_eq hn, beq_self_eq_true]
      | configInt64 id n =>
          have hn : m.toInt = n.toInt := DataTree.number.inj h
          rw [equals_int64, Int64.toInt_inj.mp hn, beq_self_eq_true]
      | _ => cases h
  | .configString _ x, b, _, _, h => by
      cases b with
      | configString id y =>
          cases h
          exact beq_self_eq_true x
      | _ => cases h
  | .simpleConfigList _ value, b, ha, hb, h => by
      cases b with
      | simpleConfigList id other =>
          have htrees := DataTree.list.inj h
          have hlength := congrArg List.length htrees
          rw [treeAll_eq, treeAll_eq, List.length_map, List.length_map] at hlength
          rw [Value.equals, hlength, beq_self_eq_true, Bool.true_and]
          exact elementsEqual_of_denotes_eq value other ha.2 hb.2 htrees
      | _ => cases h
  | .simpleConfigObject _ value _, b, ha, hb, h => by
      cases b with
      | simpleConfigObject id other ignores =>
          obtain ⟨hlength, hkeys, hfields⟩ :=
            fields_of_treeFields_eq ha.1 hb.1 (DataTree.object.inj h)
          rw [Value.equals, hlength, hkeys, beq_self_eq_true, beq_self_eq_true, Bool.true_and,
            Bool.true_and]
          exact fieldsEqual_of_denotes_eq value other ha.2 hb.2 hfields
      | _ => cases h
  | .configDouble _ _, _, ha, _, _ => ha.elim
  | .configReference _ _ _, _, ha, _, _ => ha.elim
  | .configConcatenation _ _, _, ha, _, _ => ha.1.elim
  | .configDelayedMerge _ _, _, ha, _, _ => ha.1.elim
  | .configDelayedMergeObject _ _, _, ha, _, _ => ha.1.elim

theorem elementsEqual_of_denotes_eq : ∀ (vs : List (Value ι)) (ws : List (Value κ)),
    ForallAll Value.IsData vs → ForallAll Value.IsData ws →
    treeAll Int32.toInt Int64.toInt vs = treeAll Int32.toInt Int64.toInt ws →
    elementsEqual floats vs ws = true
  | [], [], _, _, _ => rfl
  | [], _ :: _, _, _, _ => rfl
  | _ :: _, [], _, _, _ => rfl
  | v :: rest, w :: others, hvs, hws, h => by
      obtain ⟨hv, hrest⟩ := List.cons.inj h
      rw [elementsEqual, equals_of_denotes_eq v w hvs.1 hws.1 hv, Bool.true_and]
      exact elementsEqual_of_denotes_eq rest others hvs.2 hws.2 hrest

theorem fieldsEqual_of_denotes_eq : ∀ (fields : List (Bytes × Value ι)) (other : Fields κ),
    ForallFields Value.IsData fields → ForallFields Value.IsData other →
    (∀ field ∈ fields, ∃ w, other.lookup field.1 = some w ∧ field.2.denotes = w.denotes) →
    fieldsEqual floats fields other = true
  | [], _, _, _, _ => rfl
  | (key, v) :: rest, other, hfields, hother, h => by
      obtain ⟨w, hlookup, hv⟩ := h (key, v) List.mem_cons_self
      have hw : w.Forall Value.IsData := (forallFields_iff _).mp hother _ (Entries.mem_of_lookup hlookup)
      dsimp only at hlookup
      rw [fieldsEqual, hlookup]
      dsimp only
      rw [equals_of_denotes_eq v w hfields.1 hw hv, Bool.true_and]
      exact fieldsEqual_of_denotes_eq rest other hfields.2 hother
        fun field hfield => h field (List.mem_cons_of_mem _ hfield)

end

-- A set of data that has the elements and the fields of its values.
structure DataSet (S : Set (Value ι)) : Prop where
  data : ∀ v ∈ S, v.IsData
  elements : ∀ id value, .simpleConfigList id value ∈ S → ∀ v ∈ value, v ∈ S
  fields : ∀ id value ignores, .simpleConfigObject id value ignores ∈ S →
    ∀ field ∈ value, field.2 ∈ S

-- No 64-bit integer among the values is cut to a 32-bit one among them.
def NoneCut (S : Set (Value ι)) : Prop :=
  ∀ id m s id' n t, .configInt64 id m s ∈ S → .configInt id' n t ∈ S →
    m.toInt32 = n → m.toInt = n.toInt

variable {S : Set (Value ι)}

mutual

theorem DataSet.forall (h : DataSet S) : ∀ v : Value ι, v ∈ S → v.Forall Value.IsData
  | .configNull _, _ | .configBoolean _ _, _ | .configInt _ _ _, _ | .configInt64 _ _ _, _
  | .configString _ _, _ => trivial
  | .simpleConfigList id value, hv => ⟨trivial, h.forallAll value (h.elements id value hv)⟩
  | .simpleConfigObject id value ignores, hv =>
      ⟨h.data _ hv, h.forallFields value (h.fields id value ignores hv)⟩
  | .configDouble _ _, hv | .configReference _ _ _, hv | .configConcatenation _ _, hv
  | .configDelayedMerge _ _, hv | .configDelayedMergeObject _ _, hv => (h.data _ hv).elim

theorem DataSet.forallAll (h : DataSet S) : ∀ vs : List (Value ι), (∀ v ∈ vs, v ∈ S) →
    ForallAll Value.IsData vs
  | [], _ => trivial
  | v :: rest, hvs => ⟨h.forall v (hvs v List.mem_cons_self),
      h.forallAll rest fun w hw => hvs w (List.mem_cons_of_mem v hw)⟩

theorem DataSet.forallFields (h : DataSet S) : ∀ fields : List (Bytes × Value ι),
    (∀ field ∈ fields, field.2 ∈ S) → ForallFields Value.IsData fields
  | [], _ => trivial
  | (key, v) :: rest, hfields => ⟨h.forall v (hfields (key, v) List.mem_cons_self),
      h.forallFields rest fun field hfield => hfields field (List.mem_cons_of_mem _ hfield)⟩

end

-- Two maps with the same keys and equal fields stand for one partial function.
theorem treeFields_eq_of_fields {value other : Fields ι} (hvalue : (value.map Prod.fst).Nodup)
    (hother : (other.map Prod.fst).Nodup) (hkeys : sortedKeys value = sortedKeys other)
    (h : ∀ field ∈ value, ∃ w, other.lookup field.1 = some w ∧ field.2.denotes = w.denotes) :
    treeFields Int32.toInt Int64.toInt value = treeFields Int32.toInt Int64.toInt other := by
  rw [sortedKeys_eq_iff hvalue hother] at hkeys
  funext key
  rw [treeFields_eq, treeFields_eq]
  cases hv : value.lookup key with
  | none =>
      have hnot : ¬(other.lookup key).isSome := by
        rw [Entries.isSome_lookup_iff, ← hkeys, ← Entries.isSome_lookup_iff, hv]
        exact Bool.false_ne_true
      rw [Option.not_isSome_iff_eq_none] at hnot
      rw [hnot]
  | some v =>
      obtain ⟨w, hw, hdenotes⟩ := h (key, v) (Entries.mem_of_lookup hv)
      dsimp only at hw hdenotes
      rw [hw]
      exact congrArg some hdenotes

-- Equal values stand for one tree if no integer is cut in their comparison.
mutual

theorem denotes_eq_of_equals (hS : DataSet S) (hcut : NoneCut S) : ∀ a b : Value ι, a ∈ S → b ∈ S →
    a.equals floats b = true → a.denotes = b.denotes
  | .configNull _, b, _, hb, h => by
      cases b with
      | configNull => rfl
      | configReference | configConcatenation | configDelayedMerge | configDelayedMergeObject
      | configDouble => exact (hS.data _ hb).elim
      | _ => cases h
  | .configBoolean _ x, b, _, hb, h => by
      cases b with
      | configBoolean id y => exact congrArg DataTree.boolean (eq_of_beq h)
      | configReference | configConcatenation | configDelayedMerge | configDelayedMergeObject
      | configDouble => exact (hS.data _ hb).elim
      | _ => cases h
  | .configInt _ m _, b, ha, hb, h => by
      cases b with
      | configInt id n =>
          rw [equals_int] at h
          exact congrArg (DataTree.number ∘ Int32.toInt) (eq_of_beq h)
      | configInt64 id n =>
          rw [equals_int_int64] at h
          have hn := congrArg Int64.toInt (eq_of_beq h)
          rw [Int32.toInt_toInt64] at hn
          exact congrArg DataTree.number hn
      | configReference | configConcatenation | configDelayedMerge | configDelayedMergeObject
      | configDouble => exact (hS.data _ hb).elim
      | _ => cases h
  | .configInt64 id m s, b, ha, hb, h => by
      cases b with
      | configInt id' n t =>
          rw [equals_int64_int] at h
          exact congrArg DataTree.number (hcut id m s id' n t ha hb (eq_of_beq h))
      | configInt64 id' n t =>
          rw [equals_int64] at h
          exact congrArg (DataTree.number ∘ Int64.toInt) (eq_of_beq h)
      | configReference | configConcatenation | configDelayedMerge | configDelayedMergeObject
      | configDouble => exact (hS.data _ hb).elim
      | _ => cases h
  | .configString _ x, b, _, hb, h => by
      cases b with
      | configString id y => exact congrArg DataTree.string (eq_of_beq h)
      | configReference | configConcatenation | configDelayedMerge | configDelayedMergeObject
      | configDouble => exact (hS.data _ hb).elim
      | _ => cases h
  | .simpleConfigList id value, b, ha, hb, h => by
      cases b with
      | simpleConfigList id' other =>
          rw [Value.equals, Bool.and_eq_true, beq_iff_eq] at h
          exact congrArg DataTree.list (treeAll_eq_of_equals hS hcut value other
            (hS.elements id value ha) (hS.elements id' other hb) h.1 h.2)
      | _ => cases h
  | .simpleConfigObject id value ignores, b, ha, hb, h => by
      cases b with
      | simpleConfigObject id' other ignores' =>
          rw [Value.equals, Bool.and_eq_true, Bool.and_eq_true, beq_iff_eq, beq_iff_eq] at h
          exact congrArg DataTree.object (treeFields_eq_of_fields (hS.data _ ha) (hS.data _ hb) h.1.2
            (fields_eq_of_equals hS hcut value other (hS.fields id value ignores ha)
              (hS.fields id' other ignores' hb) h.2))
      | _ => cases h
  | .configDouble _ _, _, ha, _, _ | .configReference _ _ _, _, ha, _, _
  | .configConcatenation _ _, _, ha, _, _ | .configDelayedMerge _ _, _, ha, _, _
  | .configDelayedMergeObject _ _, _, ha, _, _ => (hS.data _ ha).elim

theorem treeAll_eq_of_equals (hS : DataSet S) (hcut : NoneCut S) : ∀ vs ws : List (Value ι),
    (∀ v ∈ vs, v ∈ S) → (∀ w ∈ ws, w ∈ S) → vs.length = ws.length →
    elementsEqual floats vs ws = true →
    treeAll Int32.toInt Int64.toInt vs = treeAll Int32.toInt Int64.toInt ws
  | [], [], _, _, _, _ => rfl
  | [], _ :: _, _, _, hlength, _ => by cases hlength
  | _ :: _, [], _, _, hlength, _ => by cases hlength
  | v :: rest, w :: others, hvs, hws, hlength, h => by
      rw [elementsEqual, Bool.and_eq_true] at h
      rw [treeAll, treeAll]
      exact congrArg₂ List.cons
        (denotes_eq_of_equals hS hcut v w (hvs v List.mem_cons_self) (hws w List.mem_cons_self) h.1)
        (treeAll_eq_of_equals hS hcut rest others (fun x hx => hvs x (List.mem_cons_of_mem v hx))
          (fun x hx => hws x (List.mem_cons_of_mem w hx)) (Nat.succ.inj hlength) h.2)

theorem fields_eq_of_equals (hS : DataSet S) (hcut : NoneCut S) :
    ∀ (fields : List (Bytes × Value ι)) (other : Fields ι), (∀ field ∈ fields, field.2 ∈ S) →
    (∀ field ∈ other, field.2 ∈ S) → fieldsEqual floats fields other = true →
    ∀ field ∈ fields, ∃ w, other.lookup field.1 = some w ∧ field.2.denotes = w.denotes
  | [], _, _, _, _ => nofun
  | (key, v) :: rest, other, hfields, hother, h => by
      rw [fieldsEqual, Bool.and_eq_true] at h
      intro field hfield
      rcases List.mem_cons.mp hfield with rfl | hrest
      · cases hw : other.lookup key with
        | none =>
            rw [hw] at h
            cases h.1
        | some w =>
            rw [hw] at h
            exact ⟨w, rfl, denotes_eq_of_equals hS hcut v w (hfields _ List.mem_cons_self)
              (hother _ (Entries.mem_of_lookup hw)) h.1⟩
      · exact fields_eq_of_equals hS hcut rest other
          (fun x hx => hfields x (List.mem_cons_of_mem _ hx)) hother h.2 field hrest

end

end

section

variable (hashes : Hashes)

theorem lookup_hashFields (fields : Fields ι) (key : Bytes) :
    (hashFields hashes fields).lookup key = (fields.lookup key).map (Value.hashCode hashes) := by
  induction fields with
  | nil => rfl
  | cons field rest ih =>
      obtain ⟨name, v⟩ := field
      rw [hashFields, List.lookup_cons, List.lookup_cons, ih]
      cases key == name with
      | true => rfl
      | false => rfl

-- The hash of a map looks only at the sorted keys and at what their values hash to.
theorem mapHash_congr {keys : List Bytes} {codes codes' : List (Bytes × UInt32)}
    (h : ∀ key ∈ keys, codes.lookup key = codes'.lookup key) :
    mapHash hashes keys codes = mapHash hashes keys codes' := by
  have hfold : ∀ start : UInt32, keys.foldl (fun hash k => hash + (codes.lookup k).getD 0) start =
      keys.foldl (fun hash k => hash + (codes'.lookup k).getD 0) start := by
    intro start
    apply List.foldl_ext
    intro hash key hkey
    rw [h key hkey]
  simp only [mapHash, hfold]

mutual

theorem hashCode_of_denotes_eq : ∀ a b : Value ι, a.Forall Value.IsData → b.Forall Value.IsData →
    a.denotes = b.denotes → a.hashCode hashes = b.hashCode hashes
  | .configNull _, b, _, _, h => by
      cases b with
      | configNull => rfl
      | _ => cases h
  | .configBoolean _ x, b, _, _, h => by
      cases b with
      | configBoolean id y => rw [Value.hashCode, Value.hashCode, DataTree.boolean.inj h]
      | _ => cases h
  | .configInt _ m _, b, _, _, h => by
      cases b with
      | configInt id n =>
          have hn : m.toInt = n.toInt := DataTree.number.inj h
          rw [Value.hashCode, Value.hashCode, Int32.toInt_inj.mp hn]
      | configInt64 id n =>
          have hn : m.toInt = n.toInt := DataTree.number.inj h
          rw [Value.hashCode, Value.hashCode, toInt64_eq_of_toInt_eq hn]
      | _ => cases h
  | .configInt64 _ m _, b, _, _, h => by
      cases b with
      | configInt id n =>
          have hn : m.toInt = n.toInt := DataTree.number.inj h
          rw [Value.hashCode, Value.hashCode, toInt64_eq_of_toInt_eq hn.symm]
      | configInt64 id n =>
          have hn : m.toInt = n.toInt := DataTree.number.inj h
          rw [Value.hashCode, Value.hashCode, Int64.toInt_inj.mp hn]
      | _ => cases h
  | .configString _ x, b, _, _, h => by
      cases b with
      | configString id y => rw [Value.hashCode, Value.hashCode, DataTree.string.inj h]
      | _ => cases h
  | .simpleConfigList _ value, b, ha, hb, h => by
      cases b with
      | simpleConfigList id other =>
          rw [Value.hashCode, Value.hashCode,
            hashElements_of_denotes_eq value other ha.2 hb.2 (DataTree.list.inj h)]
      | _ => cases h
  | .simpleConfigObject _ value _, b, ha, hb, h => by
      cases b with
      | simpleConfigObject id other ignores =>
          have htrees := DataTree.object.inj h
          obtain ⟨-, hkeys, hfields⟩ := fields_of_treeFields_eq ha.1 hb.1 htrees
          have hcodes := hashFields_of_denotes_eq value other ha.2 hb.2 hfields
          rw [Value.hashCode, Value.hashCode, ← hkeys]
          apply mapHash_congr
          intro key hkey
          rw [sortedKeys, List.mem_insertionSort, List.mem_map] at hkey
          obtain ⟨field, hfield, rfl⟩ := hkey
          obtain ⟨w, hw, hcode⟩ := hcodes field hfield
          rw [lookup_hashFields, lookup_hashFields, Entries.lookup_of_mem ha.1 hfield, hw,
            Option.map_some, Option.map_some, hcode]
      | _ => cases h
  | .configDouble _ _, _, ha, _, _ => ha.elim
  | .configReference _ _ _, _, ha, _, _ => ha.elim
  | .configConcatenation _ _, _, ha, _, _ => ha.1.elim
  | .configDelayedMerge _ _, _, ha, _, _ => ha.1.elim
  | .configDelayedMergeObject _ _, _, ha, _, _ => ha.1.elim

theorem hashElements_of_denotes_eq : ∀ vs ws : List (Value ι),
    ForallAll Value.IsData vs → ForallAll Value.IsData ws →
    treeAll Int32.toInt Int64.toInt vs = treeAll Int32.toInt Int64.toInt ws →
    ∀ hash, hashElements hashes vs hash = hashElements hashes ws hash
  | [], [], _, _, _, _ => rfl
  | [], _ :: _, _, _, h, _ => by cases h
  | _ :: _, [], _, _, h, _ => by cases h
  | v :: rest, w :: others, hvs, hws, h, hash => by
      obtain ⟨hv, hrest⟩ := List.cons.inj h
      rw [hashElements, hashElements, hashCode_of_denotes_eq v w hvs.1 hws.1 hv]
      exact hashElements_of_denotes_eq rest others hvs.2 hws.2 hrest _

theorem hashFields_of_denotes_eq : ∀ (fields : List (Bytes × Value ι)) (other : Fields ι),
    ForallFields Value.IsData fields → ForallFields Value.IsData other →
    (∀ field ∈ fields, ∃ w, other.lookup field.1 = some w ∧ field.2.denotes = w.denotes) →
    ∀ field ∈ fields, ∃ w, other.lookup field.1 = some w ∧
      field.2.hashCode hashes = w.hashCode hashes
  | [], _, _, _, _ => nofun
  | (key, v) :: rest, other, hfields, hother, h => by
      intro field hfield
      rcases List.mem_cons.mp hfield with rfl | hrest
      · obtain ⟨w, hw, hdenotes⟩ := h (key, v) List.mem_cons_self
        have hwdata : w.Forall Value.IsData := (forallFields_iff _).mp hother _ (Entries.mem_of_lookup hw)
        exact ⟨w, hw, hashCode_of_denotes_eq v w hfields.1 hwdata hdenotes⟩
      · exact hashFields_of_denotes_eq rest other hfields.2 hother
          (fun x hx => h x (List.mem_cons_of_mem _ hx)) field hrest

end

end

-- What equality and hashing promise on a set of values.
structure EqualityLaws (floats : Floats) (hashes : Hashes) (S : Set (Value ι)) : Prop where
  refl : ∀ a ∈ S, a.equals floats a
  symm : ∀ a ∈ S, ∀ b ∈ S, a.equals floats b → b.equals floats a
  trans : ∀ a ∈ S, ∀ b ∈ S, ∀ c ∈ S, a.equals floats b → b.equals floats c → a.equals floats c
  integers : ∀ a ∈ S, ∀ b ∈ S, ∀ m n, a.integer = some m → b.integer = some n →
    (a.equals floats b ↔ m = n)
  hash : ∀ a ∈ S, ∀ b ∈ S, a.equals floats b → a.hashCode hashes = b.hashCode hashes

theorem denotes_of_integer {v : Value ι} {n : ℤ} (h : v.integer = some n) : v.denotes = .number n := by
  cases v with
  | configInt id value => rw [← Option.some.inj h]; rfl
  | configInt64 id value => rw [← Option.some.inj h]; rfl
  | _ => cases h

-- A comparison cuts a 64-bit integer to 32 bits when it stands on the left of a 32-bit
-- one; where no two numbers are taken for one so, equality is an equivalence that
-- agrees with the numbers and with the hashes.
theorem equalityLaws_iff (floats : Floats) (hashes : Hashes) {S : Set (Value ι)} (hS : DataSet S) :
    EqualityLaws floats hashes S ↔ NoneCut S := by
  constructor
  · intro h id m s id' n t hm hn hcut
    have hequal : (Value.configInt64 id m s).equals floats (.configInt id' n t) := by
      rw [equals_int64_int, hcut]
      exact beq_self_eq_true n
    exact (h.integers _ hm _ hn m.toInt n.toInt rfl rfl).mp hequal
  · intro hcut
    have hiff : ∀ a ∈ S, ∀ b ∈ S, (a.equals floats b ↔ a.denotes = b.denotes) := by
      intro a ha b hb
      exact ⟨denotes_eq_of_equals floats hS hcut a b ha hb,
        equals_of_denotes_eq floats a b (hS.forall a ha) (hS.forall b hb)⟩
    refine ⟨fun a ha => (hiff a ha a ha).mpr rfl, ?_, ?_, ?_, ?_⟩
    · intro a ha b hb h
      exact (hiff b hb a ha).mpr ((hiff a ha b hb).mp h).symm
    · intro a ha b hb c hc hab hbc
      exact (hiff a ha c hc).mpr (((hiff a ha b hb).mp hab).trans ((hiff b hb c hc).mp hbc))
    · intro a ha b hb m n hm hn
      rw [hiff a ha b hb, denotes_of_integer hm, denotes_of_integer hn, DataTree.number.injEq]
    · intro a ha b hb h
      exact hashCode_of_denotes_eq hashes a b (hS.forall a ha) (hS.forall b hb)
        ((hiff a ha b hb).mp h)

def noFloats : Floats where
  int32 _ := 0
  int64 _ := 0
  print := id
  same _ _ := false

def addingHashes : Hashes where
  string s := (s.map UInt8.toUInt64).sum
  boolean b := if b then 1 else 0
  double _ := 0
  combine := (· + ·)

theorem dataSet_integers (m : Int64) (n : Int32) :
    DataSet {Value.configInt64 () m [], .configInt () n []} := by
  refine ⟨?_, ?_, ?_⟩
  · rintro v (rfl | rfl)
    · trivial
    · trivial
  · rintro id value (h | h)
    · cases h
    · cases h
  · rintro id value ignores (h | h)
    · cases h
    · cases h

-- The integers 1 of both widths.
theorem equalityLaws_iff_one :
    EqualityLaws noFloats addingHashes {Value.configInt64 () 1 [], .configInt () 1 []} ↔
      NoneCut {Value.configInt64 () 1 [], .configInt () 1 []} :=
  equalityLaws_iff noFloats addingHashes (dataSet_integers 1 1)

-- 4294967296 is cut to 0.
theorem not_equalityLaws_cut :
    (Value.configInt64 () 4294967296 []).equals noFloats (Value.configInt () 0 []) = true ∧
      (Value.configInt () 0 []).equals noFloats (Value.configInt64 () 4294967296 []) = false ∧
      (Value.configInt64 () 4294967296 []).hashCode addingHashes ≠
        (Value.configInt () 0 []).hashCode addingHashes ∧
      ¬EqualityLaws noFloats addingHashes
        {Value.configInt64 () 4294967296 [], .configInt () 0 []} := by
  have hequal : (Value.configInt64 () 4294967296 []).equals noFloats (Value.configInt () 0 []) = true :=
    by decide
  have hother : (Value.configInt () 0 []).equals noFloats (Value.configInt64 () 4294967296 []) = false :=
    by decide
  refine ⟨hequal, hother, by decide, fun h => ?_⟩
  have hsymm := h.symm _ (Set.mem_insert _ _) _ (Set.mem_insert_of_mem _ rfl) hequal
  rw [hother] at hsymm
  cases hsymm

end AsrServiceProxy.Config

import AsrServiceProxy.Config.Resolve.Weight
import AsrServiceProxy.Lib.Entries

-- Falling back to a value gives something that is no larger than the two and has
-- only references of the two, and so do concatenation and what is left of a stack.
namespace AsrServiceProxy.Config

open CMemory Simulation

variable {ι σ : Type} (objects : Objects ι σ) {refs : List (Value ι)}

-- `c` can be the result when `a` falls back to `b`.
structure MergesTo (refs : List (Value ι)) (a b c : Value ι) : Prop where
  allowed : c.Forall (Allowed refs)
  weight_le : c.mergeWeight ≤ a.mergeWeight + b.weight
  isObject : a.isObject → c.isObject

theorem MergesTo.self {a : Value ι} (ha : a.Forall (Allowed refs)) (b : Value ι) :
    MergesTo refs a b a where
  allowed := ha
  weight_le := Nat.le_add_right _ _
  isObject := id

theorem Value.Forall.unmergedValues {p : Value ι → Prop} {v : Value ι} (h : v.Forall p) :
    ForallAll p v.unmergedValues := by
  cases v with
  | configDelayedMerge id stack => exact h.2
  | configDelayedMergeObject id stack => exact h.2
  | _ => exact ⟨h, trivial⟩

theorem forallAll_append {p : Value ι → Prop} {xs ys : List (Value ι)} (hxs : ForallAll p xs)
    (hys : ForallAll p ys) : ForallAll p (xs ++ ys) := by
  rw [forallAll_iff] at hxs hys ⊢
  intro v hv
  rcases List.mem_append.mp hv with hv | hv
  · exact hxs v hv
  · exact hys v hv

-- A delayed merge of what `a` and the fallback put on the stack.
theorem gives_delayed {a b : Value ι} {more : List (Value ι)} (ha : a.Forall (Allowed refs))
    (hmore : ForallAll (Allowed refs) more) (hle : weightAll more ≤ b.weight) :
    Gives (do return some (← constructDelayedMerge objects a.isObject (a.unmergedValues ++ more)))
      (fun c => ∀ v, c = some v → MergesTo refs a b v) ConfigException.isDefined := by
  refine Gives.bind (gives_constructDelayedMerge objects a.isObject
    (forallAll_append ha.unmergedValues hmore)) ?_
  rintro c ⟨hc, hweight, hobject⟩
  refine Gives.pure ?_
  rintro v ⟨⟩
  refine ⟨hc, ?_, hobject⟩
  rw [hweight, weightAll_append, Value.mergeWeight]
  omega

theorem gives_withFallbacksIgnored {a : Value ι} (ha : a.Forall (Allowed refs)) (b : Value ι) :
    Gives (withFallbacksIgnored objects a) (fun c => ∀ v, c = some v → MergesTo refs a b v)
      ConfigException.isDefined := by
  cases a with
  | simpleConfigObject id value ignores =>
      refine Gives.ite (fun _ => Gives.pure nofun) fun _ => ?_
      refine Gives.bind (gives_makeObject objects ha.2 ha.1.1 _ true) ?_
      rintro c ⟨hc, hsimple, hweight⟩
      refine Gives.pure ?_
      rintro v ⟨⟩
      cases c with
      | simpleConfigObject id' value' ignores' =>
          refine ⟨hc, ?_, fun _ => rfl⟩
          rw [Value.mergeWeight_eq, Value.mergeWeight_eq, hweight]
          exact Nat.le_add_right _ _
      | _ => cases hsimple
  | configReference | configConcatenation => exact Gives.throw trivial
  | configNull | configBoolean | configInt | configInt64 | configDouble | configString =>
      exact Gives.pure nofun
  | simpleConfigList | configDelayedMerge | configDelayedMergeObject =>
      exact Gives.ite (fun _ => Gives.pure nofun) fun _ => Gives.throw trivial

theorem gives_mergedWithNonObject {a b : Value ι} (ha : a.Forall (Allowed refs))
    (hb : b.Forall (Allowed refs)) :
    Gives (mergedWithNonObject objects a b) (fun c => ∀ v, c = some v → MergesTo refs a b v)
      ConfigException.isDefined := by
  refine Gives.ite (fun _ => gives_withFallbacksIgnored objects ha b) fun _ => ?_
  refine gives_delayed objects ha ⟨hb, trivial⟩ ?_
  simp [weightAll]

theorem gives_mergedWithTheUnmergeable {a b : Value ι} (ha : a.Forall (Allowed refs))
    (hb : b.Forall (Allowed refs)) :
    Gives (mergedWithTheUnmergeable objects a b)
      (fun c => ∀ v, c = some v → MergesTo refs a b v) ConfigException.isDefined :=
  gives_delayed objects ha hb.unmergedValues b.weightAll_unmergedValues

theorem mergeFallback_of_not_simple {a : Value ι} (h : a.isSimpleObject = false) (b : Value ι) :
    mergeFallback objects a b =
      if a.ignoresFallbacks then pure none
      else if b.isUnmergeable then mergedWithTheUnmergeable objects a b
      else mergedWithNonObject objects a b := by
  cases a with
  | simpleConfigObject => cases h
  | _ =>
      rw [mergeFallback]
      nofun

theorem addedFields_cons (key : Bytes) (first : Value ι) (rest fallback : Fields ι) :
    addedFields ((key, first) :: rest) fallback =
      (addedFields rest fallback).filter (·.1 ≠ key) := by
  rw [addedFields, addedFields, List.filter_filter]
  apply List.filter_congr
  intro field _
  by_cases hkey : field.1 = key
  · simp [hkey]
  · simp [hkey, List.lookup_cons, beq_eq_false_iff_ne.mpr hkey]

theorem mem_addedFields {key : Bytes} {v : Value ι} {value fallback : Fields ι}
    (hkey : key ∉ value.map Prod.fst) (h : fallback.lookup key = some v) :
    (key, v) ∈ addedFields value fallback := by
  refine List.mem_filter.mpr ⟨Entries.mem_of_lookup h, ?_⟩
  rw [Option.isNone_iff_eq_none, Entries.lookup_eq_none_iff]
  exact hkey

-- The fields after a merge: those of the object, in place, and those of the fallback.
structure MergesFields (refs : List (Value ι)) (value fallback merged : Fields ι) : Prop where
  allowed : ForallFields (Allowed refs) merged
  keys : merged.map Prod.fst = value.map Prod.fst
  weight_le : weightFields merged + weightFields (addedFields value fallback) ≤
    weightFields value + weightFields fallback

theorem forallFields_addedFields {p : Value ι → Prop} {value fallback : Fields ι}
    (h : ForallFields p fallback) : ForallFields p (addedFields value fallback) := by
  rw [forallFields_iff] at h ⊢
  intro field hfield
  exact h field (List.mem_filter.mp hfield).1

theorem nodup_merged {value fallback merged : Fields ι} (hvalue : (value.map Prod.fst).Nodup)
    (hfallback : (fallback.map Prod.fst).Nodup)
    (hkeys : merged.map Prod.fst = value.map Prod.fst) :
    ((merged ++ addedFields value fallback).map Prod.fst).Nodup := by
  rw [List.map_append, hkeys]
  refine List.nodup_append.mpr ⟨hvalue, ?_, ?_⟩
  · exact hfallback.sublist (List.filter_sublist.map Prod.fst)
  · intro key hkey other hother hne
    obtain ⟨field, hfield, rfl⟩ := List.mem_map.mp hother
    have hnone := (List.mem_filter.mp hfield).2
    rw [Option.isNone_iff_eq_none, Entries.lookup_eq_none_iff] at hnone
    exact hnone (hne ▸ hkey)

theorem gives_finishMerge {id id' : ι} {value fallback merged : Fields ι} {ignores ignores' : Bool}
    (ha : (Value.simpleConfigObject id value ignores).Forall (Allowed refs))
    (hb : (Value.simpleConfigObject id' fallback ignores').Forall (Allowed refs))
    (h : MergesFields refs value fallback merged) (changed : Bool) :
    Gives (finishMerge objects value ignores merged changed (addedFields value fallback) ignores')
      (fun c => ∀ v, c = some v → MergesTo refs (.simpleConfigObject id value ignores)
        (.simpleConfigObject id' fallback ignores') v) ConfigException.isDefined := by
  -- both kinds of new objects are no larger than the two objects
  have hmake : ∀ (fields : Fields ι) (resolved : Bool), ForallFields (Allowed refs) fields →
      (fields.map Prod.fst).Nodup → weightFields fields ≤ weightFields value + weightFields fallback →
      Gives (do return some (← makeObject objects fields resolved ignores'))
        (fun c => ∀ v, c = some v → MergesTo refs (.simpleConfigObject id value ignores)
          (.simpleConfigObject id' fallback ignores') v) ConfigException.isDefined := by
    intro fields resolved hfields hnodup hle
    refine Gives.bind (gives_makeObject objects hfields hnodup resolved ignores') ?_
    rintro c ⟨hc, hsimple, hweight⟩
    refine Gives.pure ?_
    rintro v ⟨⟩
    cases c with
    | simpleConfigObject id'' value' ignores'' =>
        refine ⟨hc, ?_, fun _ => rfl⟩
        rw [Value.mergeWeight_eq, Value.mergeWeight_eq, hweight]
        simp only [Value.weight, Value.isDelayedMerge, Bool.false_eq_true, ite_false]
        omega
    | _ => cases hsimple
  refine Gives.ite (fun _ => ?_) fun _ => Gives.ite (fun _ => ?_) fun _ => Gives.pure (by simp)
  · apply hmake
    · rw [forallFields_iff]
      intro field hfield
      rcases List.mem_append.mp hfield with hfield | hfield
      · exact (forallFields_iff _).mp h.allowed field hfield
      · exact (forallFields_iff _).mp (forallFields_addedFields hb.2) field hfield
    · exact nodup_merged ha.1.1 hb.1.1 h.keys
    · rw [weightFields_append]
      exact h.weight_le
  · exact hmake value _ ha.2 ha.1.1 (Nat.le_add_right _ _)

theorem gives_mergeOther {a b : Value ι} (ha : a.Forall (Allowed refs))
    (hb : b.Forall (Allowed refs)) (h : a.isSimpleObject = false) :
    Gives (mergeFallback objects a b) (fun c => ∀ v, c = some v → MergesTo refs a b v)
      ConfigException.isDefined := by
  rw [mergeFallback_of_not_simple objects h]
  refine Gives.ite (fun _ => Gives.pure nofun) fun _ => Gives.ite (fun _ => ?_) fun _ => ?_
  · exact gives_mergedWithTheUnmergeable objects ha hb
  · exact gives_mergedWithNonObject objects ha hb

-- By the recursion of `with_fallback` through the fields that two objects share.
mutual

theorem gives_mergeFallback : ∀ a b : Value ι, a.Forall (Allowed refs) → b.Forall (Allowed refs) →
    Gives (mergeFallback objects a b) (fun c => ∀ v, c = some v → MergesTo refs a b v)
      ConfigException.isDefined
  | .simpleConfigObject id value ignores, b, ha, hb => by
      unfold mergeFallback
      refine Gives.ite (fun _ => Gives.pure nofun) fun _ => ?_
      refine Gives.ite (fun _ => gives_mergedWithTheUnmergeable objects ha hb) fun _ => ?_
      cases b with
      | simpleConfigObject id' fallback ignores' =>
          refine Gives.bind (gives_mergeFields value fallback ha.1.1 ha.2 hb.2) ?_
          rintro ⟨merged, changed⟩ h
          exact gives_finishMerge objects ha hb h changed
      | _ => exact gives_mergedWithNonObject objects ha hb
  | .configNull _, b, ha, hb => gives_mergeOther objects ha hb rfl
  | .configBoolean _ _, b, ha, hb => gives_mergeOther objects ha hb rfl
  | .configInt _ _ _, b, ha, hb => gives_mergeOther objects ha hb rfl
  | .configInt64 _ _ _, b, ha, hb => gives_mergeOther objects ha hb rfl
  | .configDouble _ _, b, ha, hb => gives_mergeOther objects ha hb rfl
  | .configString _ _, b, ha, hb => gives_mergeOther objects ha hb rfl
  | .simpleConfigList _ _, b, ha, hb => gives_mergeOther objects ha hb rfl
  | .configReference _ _ _, b, ha, hb => gives_mergeOther objects ha hb rfl
  | .configConcatenation _ _, b, ha, hb => gives_mergeOther objects ha hb rfl
  | .configDelayedMerge _ _, b, ha, hb => gives_mergeOther objects ha hb rfl
  | .configDelayedMergeObject _ _, b, ha, hb => gives_mergeOther objects ha hb rfl

theorem gives_mergeFields : ∀ value fallback : Fields ι, (value.map Prod.fst).Nodup →
    ForallFields (Allowed refs) value → ForallFields (Allowed refs) fallback →
    Gives (mergeFields objects value fallback) (fun r => MergesFields refs value fallback r.1)
      ConfigException.isDefined
  | [], fallback, _, _, _ => by
      refine Gives.pure ⟨trivial, rfl, ?_⟩
      simp only [weightFields, Nat.zero_add]
      exact weightFields_filter_le _ _
  | (key, first) :: rest, fallback, hnodup, hvalue, hfallback => by
      obtain ⟨hkey, hnodup⟩ := List.nodup_cons.mp hnodup
      have hrest : ∀ kept : Option (Value ι), (kept.getD first).Forall (Allowed refs) →
          (kept.getD first).weight + weightFields (addedFields ((key, first) :: rest) fallback) ≤
            first.weight + weightFields (addedFields rest fallback) →
          Gives (do
            let (merged, changed) ← mergeFields objects rest fallback
            return ((key, kept.getD first) :: merged, kept.isSome || changed))
            (fun r => MergesFields refs ((key, first) :: rest) fallback r.1)
            ConfigException.isDefined := by
        intro kept hallowed hle
        refine Gives.bind (gives_mergeFields rest fallback hnodup hvalue.2 hfallback) ?_
        rintro ⟨merged, changed⟩ ⟨hmerged, hkeys, hweight⟩
        refine Gives.pure ⟨⟨hallowed, hmerged⟩, congrArg (key :: ·) hkeys, ?_⟩
        dsimp only at hweight
        simp only [weightFields]
        omega
      rw [mergeFields]
      cases hlookup : fallback.lookup key with
      | none =>
          refine hrest none hvalue.1 ?_
          rw [addedFields_cons]
          exact Nat.add_le_add_left (weightFields_filter_le _ _) _
      | some second =>
          have hsecond : second.Forall (Allowed refs) :=
            (forallFields_iff _).mp hfallback _ (Entries.mem_of_lookup hlookup)
          refine Gives.bind (gives_mergeFallback first second hvalue.1 hsecond) ?_
          intro kept h
          have hmerges : MergesTo refs first second (kept.getD first) := by
            cases kept with
            | none => exact MergesTo.self hvalue.1 second
            | some v => exact h v rfl
          refine hrest kept hmerges.allowed ?_
          -- the field of the fallback is no longer among those that are added
          have hle := hmerges.weight_le
          rw [Value.mergeWeight_eq, Value.mergeWeight_eq] at hle
          have herase := weightFields_erase (mem_addedFields hkey hlookup)
          rw [addedFields_cons]
          dsimp only at herase
          split at hle <;> split at hle <;> omega

end

theorem gives_withFallback {a b : Value ι} (ha : a.Forall (Allowed refs))
    (hb : b.Forall (Allowed refs)) :
    Gives (withFallback objects a b) (fun c => MergesTo refs a b c) ConfigException.isDefined := by
  refine Gives.bind (gives_mergeFallback objects a b ha hb) ?_
  intro merged h
  refine Gives.pure ?_
  cases merged with
  | none => exact MergesTo.self ha b
  | some v => exact h v rfl

theorem gives_join {left right : Value ι} (hleft : left.Forall (Allowed refs))
    (hright : right.Forall (Allowed refs)) :
    Gives (join objects left right) (fun vs => ForallAll (Allowed refs) vs)
      ConfigException.isDefined := by
  unfold join
  refine Gives.ite (fun _ => ?_) fun _ => ?_
  · refine Gives.bind (gives_withFallback objects hright hleft) ?_
    intro v h
    exact Gives.pure ⟨h.allowed, trivial⟩
  · split
    · refine Gives.bind (gives_makeList objects (forallAll_append hleft.2 hright.2) _) ?_
      intro v hv
      exact Gives.pure ⟨hv, trivial⟩
    · refine Gives.ite (fun _ => Gives.throw trivial) fun _ => ?_
      refine Gives.ite (fun _ => Gives.pure ⟨hleft, hright, trivial⟩) fun _ => ?_
      refine Gives.ite (fun _ => Gives.throw trivial) fun _ => ?_
      refine Gives.bind (gives_new objects fun _ => trivial) ?_
      intro id _
      exact Gives.pure ⟨⟨trivial, nofun⟩, trivial⟩

theorem gives_joinAll {consolidated rest : List (Value ι)}
    (hconsolidated : ForallAll (Allowed refs) consolidated) (hrest : ForallAll (Allowed refs) rest) :
    Gives (joinAll objects consolidated rest) (fun vs => ForallAll (Allowed refs) vs)
      ConfigException.isDefined := by
  induction rest generalizing consolidated with
  | nil => exact Gives.pure hconsolidated
  | cons v rest ih =>
      rw [joinAll]
      cases hlast : consolidated.getLast? with
      | none => exact ih ⟨hrest.1, trivial⟩ hrest.2
      | some left =>
          rw [forallAll_iff] at hconsolidated
          refine Gives.bind (gives_join objects
            (hconsolidated left (List.mem_of_getLast? hlast)) hrest.1) ?_
          intro joined hjoined
          refine ih (forallAll_append ?_ hjoined) hrest.2
          rw [forallAll_iff]
          intro w hw
          exact hconsolidated w (List.mem_of_mem_dropLast hw)

theorem forallAll_flattenPieces {p : Value ι → Prop} {pieces : List (Value ι)}
    (h : ForallAll p pieces) : ForallAll p (flattenPieces pieces) := by
  rw [forallAll_iff] at h ⊢
  intro v hv
  obtain ⟨piece, hpiece, hv⟩ := List.mem_flatMap.mp hv
  have hall := h piece hpiece
  cases piece with
  | configConcatenation id inner => exact (forallAll_iff _).mp hall.2 v hv
  | _ =>
      rw [List.mem_singleton] at hv
      rw [hv]
      exact hall

theorem gives_consolidate {pieces : List (Value ι)} (h : ForallAll (Allowed refs) pieces) :
    Gives (consolidate objects pieces) (fun vs => ForallAll (Allowed refs) vs)
      ConfigException.isDefined := by
  refine Gives.ite (fun _ => Gives.pure h) fun _ => ?_
  exact gives_joinAll objects trivial (forallAll_flattenPieces h)

theorem gives_mergeRest {v : Value ι} {rest : List (Value ι)} (hv : v.Forall (Allowed refs))
    (hrest : ForallAll (Allowed refs) rest) :
    Gives (rest.foldlM (withFallback objects) v)
      (fun c => c.Forall (Allowed refs) ∧ c.mergeWeight ≤ v.mergeWeight + weightAll rest)
      ConfigException.isDefined := by
  induction rest generalizing v with
  | nil => exact Gives.pure ⟨hv, le_rfl⟩
  | cons w rest ih =>
      rw [List.foldlM_cons]
      refine Gives.bind (gives_withFallback objects hv hrest.1) ?_
      intro c hc
      refine Gives.imp (ih hc.allowed hrest.2) ?_
      rintro d ⟨hd, hle⟩
      have hstep := hc.weight_le
      refine ⟨hd, ?_⟩
      rw [weightAll]
      omega

-- What is left of a stack is lighter than the merge it is taken from.
theorem gives_makeReplacement {refs : List (Value ℕ)} {stack : List (Value ℕ)}
    (h : ForallAll (Allowed refs) stack) {skipping : ℕ} (hskipping : 0 < skipping) :
    Gives (makeReplacement stack skipping)
      (fun v => v.Forall (Allowed refs) ∧ v.weight < weightAll stack + 1)
      ConfigException.isDefined := by
  unfold makeReplacement
  have hdrop : ForallAll (Allowed refs) (stack.drop skipping) := by
    rw [forallAll_iff] at h ⊢
    intro v hv
    exact h v (List.mem_of_mem_drop hv)
  cases hrest : stack.drop skipping with
  | nil => exact Gives.throw trivial
  | cons v rest =>
      rw [hrest] at hdrop
      refine Gives.imp (gives_mergeRest .numbered hdrop.1 hdrop.2) ?_
      rintro c ⟨hc, hle⟩
      refine ⟨hc, ?_⟩
      have hsplit := congrArg weightAll (List.take_append_drop skipping stack)
      rw [weightAll_append, hrest, weightAll] at hsplit
      -- the values that are skipped weigh something
      have htake : 0 < weightAll (stack.take skipping) := by
        cases stack with
        | nil => simp at hrest
        | cons first others =>
            obtain ⟨skipping, rfl⟩ : ∃ n, skipping = n + 1 := ⟨skipping - 1, by omega⟩
            have hfirst := first.weight_pos
            rw [List.take_succ_cons, weightAll]
            omega
      rw [Value.mergeWeight_eq, Value.mergeWeight_eq] at hle
      split at hle <;> split at hle <;> omega

end AsrServiceProxy.Config

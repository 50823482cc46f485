import AsrServiceProxy.Config.Fallback.Theorems

-- The invariant of the values: what the constructors check, and that the keys of an
-- object are those of a map. Falling back and concatenating keep it.
namespace AsrServiceProxy.Config

open CMemory Simulation

variable {ι σ : Type}

def Value.WellMade (v : Value ι) : Prop := v.Constructed ∧ v.Checked

mutual

theorem Value.Forall.imp {p q : Value ι → Prop} (hpq : ∀ v, p v → q v) :
    ∀ v : Value ι, v.Forall p → v.Forall q
  | .configNull _, h | .configBoolean _ _, h | .configInt _ _ _, h | .configInt64 _ _ _, h
  | .configDouble _ _, h | .configString _ _, h | .configReference _ _ _, h => hpq _ h
  | .simpleConfigList _ value, h => ⟨hpq _ h.1, ForallAll.imp hpq value h.2⟩
  | .simpleConfigObject _ value _, h => ⟨hpq _ h.1, ForallFields.imp hpq value h.2⟩
  | .configConcatenation _ pieces, h => ⟨hpq _ h.1, ForallAll.imp hpq pieces h.2⟩
  | .configDelayedMerge _ stack, h => ⟨hpq _ h.1, ForallAll.imp hpq stack h.2⟩
  | .configDelayedMergeObject _ stack, h => ⟨hpq _ h.1, ForallAll.imp hpq stack h.2⟩

theorem ForallAll.imp {p q : Value ι → Prop} (hpq : ∀ v, p v → q v) :
    ∀ vs : List (Value ι), ForallAll p vs → ForallAll q vs
  | [], _ => trivial
  | v :: rest, h => ⟨Value.Forall.imp hpq v h.1, ForallAll.imp hpq rest h.2⟩

theorem ForallFields.imp {p q : Value ι → Prop} (hpq : ∀ v, p v → q v) :
    ∀ fields : List (Bytes × Value ι), ForallFields p fields → ForallFields q fields
  | [], _ => trivial
  | (_, v) :: rest, h => ⟨Value.Forall.imp hpq v h.1, ForallFields.imp hpq rest h.2⟩

end

theorem Value.Forall.constructed {v : Value ι} (h : v.Forall Value.WellMade) :
    v.Forall Value.Constructed :=
  Value.Forall.imp (fun _ hw => hw.1) v h

theorem Value.Forall.valid {v : Value ι} (h : v.Forall Value.WellMade) : v.Valid :=
  Value.Forall.imp (fun _ hw => hw.2) v h

theorem wellMade_delayedMerge {a : Value Unit} {more : List (Value Unit)} (ha : a.Constructed)
    (hmore : more.any Value.isDelayedMerge = false) :
    (delayedMerge a.isObject (a.unmergedValues ++ more)).WellMade := by
  have hnested := any_append_isDelayedMerge ha.any_isDelayedMerge hmore
  cases hobject : a.isObject with
  | true =>
      have hhead : (a.unmergedValues ++ more).head?.any Value.isObject = true := by
        rw [head?_append_of_ne_nil ha.unmergedValues_ne_nil]
        exact ha.head_isObject hobject
      exact ⟨⟨hhead, hnested⟩, hhead, hnested⟩
  | false =>
      refine ⟨⟨?_, hnested⟩, trivial⟩
      exact List.append_ne_nil_of_left_ne_nil ha.unmergedValues_ne_nil more

theorem forall_delayedMerge {a b : Value Unit} (ha : a.Forall Value.WellMade)
    (hb : b.Forall Value.WellMade) :
    (delayedMerge a.isObject (a.unmergedValues ++ b.unmergedValues)).Forall Value.WellMade := by
  have hall := forallAll_append ha.unmergedValues hb.unmergedValues
  have hmade := wellMade_delayedMerge ha.node.1 hb.node.1.any_isDelayedMerge
  cases hobject : a.isObject with
  | true =>
      rw [hobject] at hmade
      exact ⟨hmade, hall⟩
  | false =>
      rw [hobject] at hmade
      exact ⟨hmade, hall⟩

theorem fallbackFields_keys (value other : Fields Unit) :
    (fallbackFields value other).map Prod.fst = value.map Prod.fst := by
  rw [fallbackFields_eq, List.map_map]
  rfl

theorem forallFields_append {p : Value ι → Prop} {fields more : Fields ι}
    (hfields : ForallFields p fields) (hmore : ForallFields p more) :
    ForallFields p (fields ++ more) := by
  rw [forallFields_iff] at hfields hmore ⊢
  intro field hfield
  rcases List.mem_append.mp hfield with hfield | hfield
  · exact hfields field hfield
  · exact hmore field hfield

theorem forall_fallback_of_not_simple {a b : Value Unit} (ha : a.Forall Value.WellMade)
    (hb : b.Forall Value.WellMade) (h : a.isSimpleObject = false) :
    (fallback a b).Forall Value.WellMade := by
  rw [fallback_of_not_simple h]
  split
  · exact ha
  · exact forall_delayedMerge ha hb

mutual

theorem forall_fallback : ∀ a b : Value Unit, a.Forall Value.WellMade → b.Forall Value.WellMade →
    (fallback a b).Forall Value.WellMade
  | .simpleConfigObject id value ignores, b, ha, hb => by
      unfold fallback
      split
      · exact ha
      · split
        · rename_i other otherIgnores
          refine ⟨⟨trivial, ?_⟩, forallFields_append
            (forallFields_fallbackFields value other ha.2 hb.2) (forallFields_addedFields hb.2)⟩
          exact nodup_merged ha.1.2 hb.1.2 (fallbackFields_keys value other)
        · split
          · exact ⟨⟨trivial, ha.1.2⟩, ha.2⟩
          · exact forall_delayedMerge ha hb
  | .configNull _, b, ha, hb => forall_fallback_of_not_simple ha hb rfl
  | .configBoolean _ _, b, ha, hb => forall_fallback_of_not_simple ha hb rfl
  | .configInt _ _ _, b, ha, hb => forall_fallback_of_not_simple ha hb rfl
  | .configInt64 _ _ _, b, ha, hb => forall_fallback_of_not_simple ha hb rfl
  | .configDouble _ _, b, ha, hb => forall_fallback_of_not_simple ha hb rfl
  | .configString _ _, b, ha, hb => forall_fallback_of_not_simple ha hb rfl
  | .simpleConfigList _ _, b, ha, hb => forall_fallback_of_not_simple ha hb rfl
  | .configReference _ _ _, b, ha, hb => forall_fallback_of_not_simple ha hb rfl
  | .configConcatenation _ _, b, ha, hb => forall_fallback_of_not_simple ha hb rfl
  | .configDelayedMerge _ _, b, ha, hb => forall_fallback_of_not_simple ha hb rfl
  | .configDelayedMergeObject _ _, b, ha, hb => forall_fallback_of_not_simple ha hb rfl

theorem forallFields_fallbackFields : ∀ value other : Fields Unit,
    ForallFields Value.WellMade value → ForallFields Value.WellMade other →
    ForallFields Value.WellMade (fallbackFields value other)
  | [], _, _, _ => trivial
  | (key, v) :: rest, other, hvalue, hother => by
      rw [fallbackFields]
      refine ⟨?_, forallFields_fallbackFields rest other hvalue.2 hother⟩
      cases hlookup : other.lookup key with
      | none => exact hvalue.1
      | some w =>
          exact forall_fallback v w hvalue.1
            ((forallFields_iff _).mp hother _ (Entries.mem_of_lookup hlookup))

end

-- A value falls back without an exception, and the result keeps the invariant.
theorem withFallback_wellMade {a b : Value Unit} (ha : a.Forall Value.WellMade)
    (hb : b.Forall Value.WellMade) :
    withFallback .plain a b () = .ok (fallback a b) () ∧ (fallback a b).Forall Value.WellMade :=
  ⟨withFallback_eq ha.constructed hb.constructed, forall_fallback a b ha hb⟩

-- The constructors on a status that was computed from the values.
theorem makeList_eq (value : List (Value Unit)) :
    makeList .plain value (Value.resolvedAll value) = pure (.simpleConfigList () value) :=
  if_neg fun h => h rfl

theorem makeObject_eq (value : Fields Unit) (ignores : Bool) :
    makeObject .plain value (Value.resolvedFields value) ignores =
      pure (.simpleConfigObject () value ignores) :=
  if_neg fun h => h rfl

-- What the parser puts into a concatenation.
structure Piece (v : Value Unit) : Prop where
  made : v.Forall Value.WellMade
  delayed : v.isDelayedMerge = false
  flat : v.isConcatenation = false

theorem Piece.isSimpleObject {v : Value Unit} (h : Piece v) (hobject : v.isObject) :
    v.isSimpleObject = true := by
  cases v with
  | simpleConfigObject => rfl
  | configDelayedMergeObject => cases h.delayed
  | _ => cases hobject

theorem isSimpleObject_fallback {a b : Value Unit} (ha : a.isSimpleObject) (hb : b.isSimpleObject) :
    (fallback a b).isSimpleObject = true := by
  obtain ⟨value, ignores, rfl⟩ := a.eq_object ha
  obtain ⟨other, otherIgnores, rfl⟩ := b.eq_object hb
  cases ignores with
  | true =>
      rw [fallback_of_ignores rfl]
      rfl
  | false =>
      rw [fallback_objects]
      rfl

theorem Piece.of_simple {v : Value Unit} (h : v.Forall Value.WellMade) (hsimple : v.isSimpleObject) :
    Piece v := by
  obtain ⟨value, ignores, rfl⟩ := v.eq_object hsimple
  exact ⟨h, rfl, rfl⟩

-- The two values that `join` leaves, or the one that it makes of them.
def Joins (left right : Value Unit) (joined : List (Value Unit)) : Prop :=
  (∃ v, joined = [v] ∧ Piece v ∧ left.isUnmergeable = false) ∨
    joined = [left, right] ∧ (left.isUnmergeable || right.isUnmergeable) = true

theorem gives_join_pieces {left right : Value Unit} (hleft : Piece left) (hright : Piece right) :
    Gives (join .plain left right) (Joins left right) fun e => ∃ message, e = .wrongType message := by
  unfold join
  refine Gives.ite (fun hobjects => ?_) fun _ => ?_
  · rw [Bool.and_eq_true] at hobjects
    obtain ⟨hmerge, hmade⟩ := withFallback_wellMade hright.made hleft.made
    have hleft' := hleft.isSimpleObject hobjects.1
    have hmerged := isSimpleObject_fallback (hright.isSimpleObject hobjects.2) hleft'
    intro s
    simp only [Bind.bind, EStateM.bind, hmerge]
    refine .inl ⟨_, rfl, .of_simple hmade hmerged, ?_⟩
    obtain ⟨value, ignores, rfl⟩ := left.eq_object hleft'
    rfl
  · split
    · rename_i first _ second _
      have hmade : ForallAll Value.WellMade (first ++ second) :=
        forallAll_append hleft.made.2 hright.made.2
      rw [makeList_eq]
      exact Gives.pure (.inl ⟨_, rfl, ⟨⟨⟨trivial, trivial⟩, hmade⟩, rfl, rfl⟩, rfl⟩)
    · refine Gives.ite (fun hconcatenation => ?_) fun _ => ?_
      · rw [hleft.flat, hright.flat] at hconcatenation
        cases hconcatenation
      · refine Gives.ite (fun hunmergeable => Gives.pure (.inr ⟨rfl, hunmergeable⟩)) fun hmergeable => ?_
        refine Gives.ite (fun _ => Gives.throw ⟨_, rfl⟩) fun _ => ?_
        intro s
        rw [Bool.not_eq_true, Bool.or_eq_false_iff] at hmergeable
        exact .inl ⟨_, rfl, ⟨⟨trivial, trivial⟩, rfl, rfl⟩, hmergeable.1⟩

-- The values so far in `consolidate`: one value, or one among them cannot be joined.
structure Consolidated (vs : List (Value Unit)) : Prop where
  pieces : ∀ v ∈ vs, Piece v
  linked : 2 ≤ vs.length → vs.any Value.isUnmergeable = true

theorem Consolidated.join {front : List (Value Unit)} {left right : Value Unit}
    {joined : List (Value Unit)} (h : Consolidated (front ++ [left])) (hright : Piece right)
    (hjoins : Joins left right joined) : Consolidated (front ++ joined) := by
  have hfront : ∀ v ∈ front, Piece v := fun v hv => h.pieces v (List.mem_append_left _ hv)
  have hleft : Piece left := h.pieces left (List.mem_append_right _ (List.mem_singleton_self left))
  rcases hjoins with ⟨v, rfl, hv, hmergeable⟩ | ⟨rfl, hunmergeable⟩
  · refine ⟨?_, ?_⟩
    · intro w hw
      rcases List.mem_append.mp hw with hw | hw
      · exact hfront w hw
      · rw [List.mem_singleton.mp hw]
        exact hv
    · -- the value that cannot be joined was not the last one
      intro hlength
      have hany := h.linked (by simpa using hlength)
      rw [List.any_append, List.any_cons, List.any_nil, hmergeable, Bool.or_false,
        Bool.or_false] at hany
      rw [List.any_append, hany, Bool.true_or]
  · refine ⟨?_, ?_⟩
    · intro w hw
      rcases List.mem_append.mp hw with hw | hw
      · exact hfront w hw
      · rcases List.mem_pair.mp hw with rfl | rfl
        · exact hleft
        · exact hright
    · intro _
      rw [List.any_append]
      simp only [List.any_cons, List.any_nil, Bool.or_false, hunmergeable, Bool.or_true]

theorem gives_joinAll_pieces {consolidated rest : List (Value Unit)}
    (hconsolidated : Consolidated consolidated) (hrest : ∀ v ∈ rest, Piece v)
    (hne : consolidated ≠ [] ∨ rest ≠ []) :
    Gives (joinAll .plain consolidated rest) (fun vs => Consolidated vs ∧ vs ≠ [])
      fun e => ∃ message, e = .wrongType message := by
  induction rest generalizing consolidated with
  | nil => exact Gives.pure ⟨hconsolidated, hne.resolve_right fun h => h rfl⟩
  | cons v rest ih =>
      have hv := hrest v List.mem_cons_self
      have hrest' : ∀ w ∈ rest, Piece w := fun w hw => hrest w (List.mem_cons_of_mem v hw)
      rw [joinAll]
      cases hlast : consolidated.getLast? with
      | none =>
          refine ih ⟨?_, ?_⟩ hrest' (.inl (List.cons_ne_nil _ _))
          · intro w hw
            rw [List.mem_singleton.mp hw]
            exact hv
          · intro hlength
            simp at hlength
      | some left =>
          have hsplit : consolidated = consolidated.dropLast ++ [left] :=
            (List.dropLast_append_getLast? left hlast).symm
          have hleft : Piece left := hconsolidated.pieces left (List.mem_of_getLast? hlast)
          rw [hsplit] at hconsolidated
          refine Gives.bind (gives_join_pieces hleft hv) ?_
          intro joined hjoined
          refine ih (hconsolidated.join hv hjoined) hrest' (.inl ?_)
          rcases hjoined with ⟨w, rfl, _⟩ | ⟨rfl, _⟩ <;> simp

theorem flattenPieces_eq {pieces : List (Value Unit)} (h : ∀ v ∈ pieces, Piece v) :
    flattenPieces pieces = pieces := by
  induction pieces with
  | nil => rfl
  | cons v rest ih =>
      have hv := (h v List.mem_cons_self).flat
      have hrest := ih fun w hw => h w (List.mem_cons_of_mem v hw)
      rw [flattenPieces] at hrest ⊢
      rw [List.flatMap_cons, hrest]
      cases v with
      | configConcatenation => cases hv
      | _ => rfl

-- Concatenating the pieces of a value passes the checks of the concatenation.
theorem gives_concatenate {pieces : List (Value Unit)} (h : ∀ v ∈ pieces, Piece v)
    (hne : pieces ≠ []) :
    Gives (concatenate .plain pieces)
      (fun r => ∃ v, r = some v ∧ v.Forall Value.WellMade)
      fun e => ∃ message, e = .wrongType message := by
  have hconsolidate : Gives (consolidate .plain pieces) (fun vs => Consolidated vs ∧ vs ≠ [])
      fun e => ∃ message, e = .wrongType message := by
    refine Gives.ite (fun hshort => Gives.pure ⟨⟨h, fun hlong => by omega⟩, hne⟩) fun _ => ?_
    rw [flattenPieces_eq h]
    exact gives_joinAll_pieces ⟨nofun, nofun⟩ h (.inr hne)
  refine Gives.bind hconsolidate ?_
  rintro vs ⟨hvs, hne⟩
  rcases vs with _ | ⟨v, _ | ⟨w, rest⟩⟩
  · exact absurd rfl hne
  · have hv := hvs.pieces v List.mem_cons_self
    exact Gives.pure ⟨v, rfl, hv.made⟩
  · have hflat : (v :: w :: rest).any Value.isConcatenation = false := by
      rw [List.any_eq_false]
      intro x hx
      rw [(hvs.pieces x hx).flat]
      exact Bool.false_ne_true
    have hany := hvs.linked (by simp)
    have hmade : ForallAll Value.WellMade (v :: w :: rest) := by
      rw [forallAll_iff]
      intro x hx
      exact (hvs.pieces x hx).made
    intro s
    simp only [makeConcatenation, hflat, hany, List.length_cons, not_true_eq_false, ite_false,
      Bool.false_eq_true, show ¬rest.length + 1 + 1 < 2 by omega]
    exact ⟨_, rfl, ⟨⟨by simp, hflat, hany⟩, trivial⟩, hmade⟩

end AsrServiceProxy.Config

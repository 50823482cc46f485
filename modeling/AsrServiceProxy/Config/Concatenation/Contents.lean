import AsrServiceProxy.Config.Concatenation

-- Concatenations of resolved values do not look at the identities of objects, and
-- what they come to is resolved.
namespace AsrServiceProxy.Config

open CMemory Simulation

variable {ι σ : Type} (objects : Objects ι σ)

-- What is left of a run without the identities: it comes to the same contents.
def JoinsTo (plain : Make Unit (List (Value Unit))) (vs : List (Value ι)) : Prop :=
  ∃ v, vs = [v] ∧ v.resolved ∧ plain () = .ok [v.contents] ()

variable {left right v : Value ι}

theorem gives_join_contents (hleft : left.resolved) (hright : right.resolved) :
    Gives (join objects left right) (JoinsTo (join .plain left.contents right.contents))
      fun _ => True := by
  by_cases hobjects : left.isObject ∧ right.isObject
  · unfold join
    rw [if_pos (by simpa using hobjects), if_pos (by simpa using hobjects)]
    refine Gives.bind ((gives_withFallback_contents objects (right.constructed_of_resolved hright)
      (left.constructed_of_resolved hleft)).raises fun _ => False.elim) ?_
    intro merged hmerged
    rw [← Value.resolved_contents] at hleft hright
    refine Gives.pure ⟨merged, rfl, ?_, ?_⟩
    · rw [← Value.resolved_contents, hmerged]
      exact resolved_fallback _ _ hright hleft
    · have heq := withFallback_eq (Value.constructed_of_resolved _ hright)
        (Value.constructed_of_resolved _ hleft)
      simp [bind, EStateM.bind, heq, hmerged, pure, EStateM.pure]
  by_cases hlists : left.isSimpleList ∧ right.isSimpleList
  · obtain ⟨hl, hr⟩ := hlists
    cases left with
    | simpleConfigList _ first =>
        cases right with
        | simpleConfigList _ second =>
            have hresolved : Value.resolvedAll (first ++ second) = true := by
              rw [Value.resolved, resolvedAll_iff] at hleft hright
              rw [resolvedAll_iff]
              intro v hv
              exact (List.mem_append.mp hv).elim (hleft v) (hright v)
            unfold join
            rw [if_neg (by simp [Value.isObject]),
              if_neg (by simp [Value.contents, Value.isObject])]
            dsimp only [Value.contents]
            rw [makeList, if_neg fun h => h rfl, makeList, if_neg fun h => h rfl]
            intro s
            refine ⟨_, rfl, hresolved, ?_⟩
            rw [Value.contents, contentsAll_append]
            rfl
        | _ => cases hr
    | _ => cases hl
  have hplain := join_eq_texts .plain (left.resolved_contents.trans hleft)
    (right.resolved_contents.trans hright) (by simpa using hobjects) (by
      rintro ⟨hl, hr⟩
      apply hlists
      constructor
      · cases left <;> first | rfl | cases hl
      · cases right <;> first | rfl | cases hr)
  rw [join_eq_texts objects hleft hright hobjects hlists]
  refine Gives.ite (fun _ => Gives.throw trivial) fun hfull => ?_
  intro s
  refine ⟨_, rfl, rfl, ?_⟩
  rw [hplain, Value.transformToString_contents, Value.transformToString_contents, if_neg hfull]
  rfl

-- The loop of `consolidate` with one value so far.
theorem gives_joinAll_contents {rest : List (Value ι)} (hv : v.resolved)
    (hrest : ∀ w ∈ rest, w.resolved) :
    Gives (joinAll objects [v] rest)
      (JoinsTo (joinAll .plain [v.contents] (contentsAll rest))) fun _ => True := by
  induction rest generalizing v with
  | nil => exact Gives.pure ⟨v, rfl, hv, rfl⟩
  | cons w rest ih =>
      have hloop : joinAll objects [v] (w :: rest) =
          (join objects v w >>= fun vs => joinAll objects vs rest) := rfl
      rw [hloop]
      refine Gives.bind (gives_join_contents objects hv (hrest w List.mem_cons_self)) ?_
      intro vs hvs
      obtain ⟨u, rfl, hu, hjoin⟩ := hvs
      refine (ih hu fun x hx => hrest x (List.mem_cons_of_mem w hx)).imp ?_
      intro ws hws
      obtain ⟨x, rfl, hx, hall⟩ := hws
      refine ⟨x, rfl, hx, ?_⟩
      have hplain : joinAll .plain [v.contents] (contentsAll (w :: rest)) =
          (join .plain v.contents w.contents >>= fun vs => joinAll .plain vs (contentsAll rest)) :=
        rfl
      rw [hplain]
      simp only [bind, EStateM.bind, hjoin, hall]

theorem gives_consolidate_contents {pieces : List (Value ι)} (hpieces : ∀ v ∈ pieces, v.resolved) :
    Gives (consolidate objects pieces)
      (fun vs => (∀ v ∈ vs, v.resolved) ∧
        consolidate .plain (contentsAll pieces) () = .ok (contentsAll vs) ()) fun _ => True := by
  have hcontents : ∀ v ∈ contentsAll pieces, v.resolved := by
    rw [contentsAll_eq]
    intro v hv
    obtain ⟨w, hw, rfl⟩ := List.mem_map.mp hv
    exact w.resolved_contents.trans (hpieces w hw)
  have hlength : (contentsAll pieces).length = pieces.length := by
    rw [contentsAll_eq, List.length_map]
  rw [consolidate, consolidate, flattenPieces_of_resolved hpieces,
    flattenPieces_of_resolved hcontents, hlength]
  refine Gives.ite (fun hshort => ?_) fun hlong => ?_
  · refine Gives.pure ⟨hpieces, ?_⟩
    rw [if_pos hshort]
    rfl
  · rw [if_neg hlong]
    cases pieces with
    | nil => exact absurd Nat.two_pos hlong
    | cons v rest =>
        refine (gives_joinAll_contents objects (hpieces v List.mem_cons_self)
          fun w hw => hpieces w (List.mem_cons_of_mem v hw)).imp ?_
        intro vs hvs
        obtain ⟨w, rfl, hw, hall⟩ := hvs
        exact ⟨by simpa using hw, hall⟩

end AsrServiceProxy.Config

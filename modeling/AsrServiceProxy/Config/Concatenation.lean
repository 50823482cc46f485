import AsrServiceProxy.Config.Fallback.Theorems

-- Concatenations of resolved values: texts are put together, and values of
-- different kinds cannot be.
namespace AsrServiceProxy.Config

open CMemory Simulation

variable {ι σ : Type} (objects : Objects ι σ)

def Value.isSimpleList : Value ι → Bool
  | .simpleConfigList _ _ => true
  | _ => false

-- Strings, numbers, booleans and null.
def Value.isPrimitive : Value ι → Bool
  | .configNull _ | .configBoolean _ _ | .configInt _ _ _ | .configInt64 _ _ _
  | .configDouble _ _ | .configString _ _ => true
  | _ => false

-- An object or a list among scalars, or an object among lists.
def Mixed (pieces : List (Value ι)) : Prop :=
  ∃ v ∈ pieces, ∃ w ∈ pieces, (v.isObject ∨ v.isSimpleList) ∧ w.isPrimitive ∨ v.isObject ∧ w.isSimpleList

-- The kinds of resolved values: objects, lists, and all others.
def SameKind (v w : Value ι) : Prop := v.isObject = w.isObject ∧ v.isSimpleList = w.isSimpleList

def IsWrongType (e : ConfigException) : Prop := ∃ message, e = .wrongType message

variable {left right v w : Value ι}

theorem SameKind.symm (h : SameKind v w) : SameKind w v := ⟨h.1.symm, h.2.symm⟩

theorem SameKind.trans {u : Value ι} (h : SameKind u v) (h' : SameKind v w) : SameKind u w :=
  ⟨h.1.trans h'.1, h.2.trans h'.2⟩

-- Two values of a mixed list cannot both be like a third one.
theorem Mixed.exists_not_sameKind {pieces : List (Value ι)} (h : Mixed pieces) (u : Value ι) :
    ∃ w ∈ pieces, ¬SameKind u w := by
  obtain ⟨v, hv, w, hw, hmixed⟩ := h
  have hne : ¬SameKind v w := by
    intro hkind
    rcases hmixed with ⟨hcontainer, hprimitive⟩ | ⟨hobject, hlist⟩
    · have hw' : w.isObject = false ∧ w.isSimpleList = false := by
        cases w with
        | configNull | configBoolean | configInt | configInt64 | configDouble | configString =>
            exact ⟨rfl, rfl⟩
        | _ => cases hprimitive
      rw [hkind.1, hkind.2, hw'.1, hw'.2] at hcontainer
      simp at hcontainer
    · rw [hkind.1] at hobject
      cases w with
      | simpleConfigList => cases hobject
      | _ => cases hlist
  by_cases hu : SameKind u v
  · exact ⟨w, hw, fun h' => hne (hu.symm.trans h')⟩
  · exact ⟨v, hv, hu⟩

-- What two resolved values of one kind are joined to.
theorem gives_join_objects (hleft : left.resolved) (hright : right.resolved)
    (hobject : left.isObject) (hobject' : right.isObject) :
    Gives (join objects left right) (fun vs => ∃ v, vs = [v] ∧ v.resolved ∧ SameKind left v)
      fun _ => False := by
  unfold join
  rw [if_pos (by rw [hobject, hobject']; rfl)]
  refine Gives.bind (gives_withFallback_contents objects (right.constructed_of_resolved hright)
    (left.constructed_of_resolved hleft)) ?_
  intro merged hmerged
  refine Gives.pure ⟨merged, rfl, ?_, ?_⟩
  · rw [← Value.resolved_contents, hmerged]
    exact resolved_fallback _ _ (by rwa [Value.resolved_contents]) (by rwa [Value.resolved_contents])
  · cases left with
    | simpleConfigObject _ value ignores =>
        cases right with
        | simpleConfigObject _ other otherIgnores =>
            have hobjects : merged.contents.isObject = true := by
              rw [hmerged, Value.contents, Value.contents]
              cases otherIgnores with
              | true =>
                  rw [fallback_of_ignores rfl]
                  rfl
              | false =>
                  rw [fallback_objects]
                  rfl
            rw [Value.isObject_contents] at hobjects
            cases merged with
            | simpleConfigObject | configDelayedMergeObject => exact ⟨rfl, rfl⟩
            | _ => cases hobjects
        | configDelayedMergeObject => cases hright
        | _ => cases hobject'
    | configDelayedMergeObject => cases hleft
    | _ => cases hobject

theorem gives_join_lists (hleft : left.resolved) (hright : right.resolved)
    (hlist : left.isSimpleList) (hlist' : right.isSimpleList) :
    Gives (join objects left right) (fun vs => ∃ v, vs = [v] ∧ v.resolved ∧ SameKind left v)
      fun _ => False := by
  cases left with
  | simpleConfigList _ first =>
      cases right with
      | simpleConfigList _ second =>
          have hresolved : Value.resolvedAll (first ++ second) = true := by
            rw [Value.resolved, resolvedAll_iff] at hleft hright
            rw [resolvedAll_iff]
            intro v hv
            exact (List.mem_append.mp hv).elim (hleft v) (hright v)
          unfold join
          rw [if_neg (by simp [Value.isObject])]
          dsimp only
          rw [makeList, if_neg fun h => h rfl]
          intro s
          exact ⟨_, rfl, hresolved, rfl, rfl⟩
      | _ => cases hlist'
  | _ => cases hlist

theorem not_isUnmergeable_of_resolved (h : v.resolved) : v.isUnmergeable = false := by
  cases v with
  | configReference | configConcatenation | configDelayedMerge | configDelayedMergeObject => cases h
  | _ => rfl

theorem not_isConcatenation_of_resolved (h : v.resolved) : v.isConcatenation = false := by
  cases v with
  | configConcatenation => cases h
  | _ => rfl

-- Resolved values that are not two objects and not two lists are joined as texts.
theorem join_eq_texts (hleft : left.resolved) (hright : right.resolved)
    (hobjects : ¬(left.isObject ∧ right.isObject)) (hlists : ¬(left.isSimpleList ∧ right.isSimpleList)) :
    join objects left right =
      if left.transformToString.isEmpty || right.transformToString.isEmpty then
        throw (.wrongType "_cannot concatenate object or list with a non-object-or-list, ")
      else do
        return [.configString (← objects.new) (left.transformToString ++ right.transformToString)] := by
  unfold join
  rw [if_neg (by rwa [Bool.and_eq_true])]
  split
  · exact absurd ⟨rfl, rfl⟩ hlists
  · rw [not_isConcatenation_of_resolved hleft, not_isConcatenation_of_resolved hright,
      not_isUnmergeable_of_resolved hleft, not_isUnmergeable_of_resolved hright]
    rfl

theorem transformToString_of_not_primitive (h : v.isObject ∨ v.isSimpleList) :
    v.transformToString = [] := by
  cases v with
  | simpleConfigList | simpleConfigObject | configDelayedMergeObject => rfl
  | _ => simp [Value.isObject, Value.isSimpleList] at h

-- Values of different kinds are not joined: one of them has no text.
theorem gives_join_unlike (hleft : left.resolved) (hright : right.resolved)
    (hne : ¬SameKind left right) :
    Gives (join objects left right) (fun _ => False) IsWrongType := by
  have hobjects : ¬(left.isObject ∧ right.isObject) := by
    rintro ⟨h, h'⟩
    apply hne
    cases left with
    | simpleConfigObject =>
        cases right with
        | simpleConfigObject | configDelayedMergeObject => exact ⟨rfl, rfl⟩
        | _ => cases h'
    | configDelayedMergeObject => cases hleft
    | _ => cases h
  have hlists : ¬(left.isSimpleList ∧ right.isSimpleList) := by
    rintro ⟨h, h'⟩
    apply hne
    cases left with
    | simpleConfigList =>
        cases right with
        | simpleConfigList => exact ⟨rfl, rfl⟩
        | _ => cases h'
    | _ => cases h
  have hcontainer : (left.isObject ∨ left.isSimpleList) ∨ right.isObject ∨ right.isSimpleList := by
    by_contra hnot
    simp only [not_or, Bool.not_eq_true] at hnot
    exact hne ⟨hnot.1.1.trans hnot.2.1.symm, hnot.1.2.trans hnot.2.2.symm⟩
  have hempty : (left.transformToString.isEmpty || right.transformToString.isEmpty) = true := by
    rcases hcontainer with h | h
    · rw [transformToString_of_not_primitive h]
      rfl
    · rw [transformToString_of_not_primitive h]
      exact Bool.or_true _
  rw [join_eq_texts objects hleft hright hobjects hlists, if_pos hempty]
  exact Gives.throw ⟨_, rfl⟩

theorem Value.isPrimitive_iff (hresolved : v.resolved) :
    v.isPrimitive ↔ v.isObject = false ∧ v.isSimpleList = false := by
  cases v with
  | configReference | configConcatenation | configDelayedMerge | configDelayedMergeObject =>
      cases hresolved
  | _ => simp [Value.isPrimitive, Value.isObject, Value.isSimpleList]

theorem Value.resolved_of_isPrimitive (h : v.isPrimitive) : v.resolved := by
  cases v with
  | configNull | configBoolean | configInt | configInt64 | configDouble | configString => rfl
  | _ => cases h

theorem gives_join_primitives (hleft : left.isPrimitive) (hright : right.isPrimitive) :
    Gives (join objects left right)
      (fun vs => left.transformToString ≠ [] ∧ right.transformToString ≠ [] ∧
        ∃ id, vs = [.configString id (left.transformToString ++ right.transformToString)])
      fun e => IsWrongType e ∧ (left.transformToString = [] ∨ right.transformToString = []) := by
  have hresolved := Value.resolved_of_isPrimitive hleft
  have hl := (Value.isPrimitive_iff hresolved).mp hleft
  rw [join_eq_texts objects hresolved (Value.resolved_of_isPrimitive hright) (by simp [hl.1])
    (by simp [hl.2])]
  refine Gives.ite (fun hempty => ?_) fun hfull => ?_
  · rw [Bool.or_eq_true, List.isEmpty_iff, List.isEmpty_iff] at hempty
    exact Gives.throw ⟨⟨_, rfl⟩, hempty⟩
  · rw [Bool.or_eq_true, List.isEmpty_iff, List.isEmpty_iff, not_or] at hfull
    intro s
    exact ⟨hfull.1, hfull.2, _, rfl⟩

-- The loop of `consolidate` with one value so far: it goes on with one value of
-- that kind, until a value of another kind comes.
theorem gives_joinAll_unlike {rest : List (Value ι)} (hv : v.resolved)
    (hrest : ∀ w ∈ rest, w.resolved) (hne : ∃ w ∈ rest, ¬SameKind v w) :
    Gives (joinAll objects [v] rest) (fun _ => False) IsWrongType := by
  induction rest generalizing v with
  | nil => simp at hne
  | cons w rest ih =>
      have hw := hrest w List.mem_cons_self
      have hrest' : ∀ u ∈ rest, u.resolved := fun u hu => hrest u (List.mem_cons_of_mem w hu)
      have hloop : joinAll objects [v] (w :: rest) =
          (join objects v w >>= fun vs => joinAll objects vs rest) := rfl
      rw [hloop]
      by_cases hkind : SameKind v w
      · -- the value that is not of this kind comes later
        have hjoin : Gives (join objects v w) (fun vs => ∃ u, vs = [u] ∧ u.resolved ∧ SameKind v u)
            IsWrongType := by
          by_cases hobject : v.isObject
          · exact (gives_join_objects objects hv hw hobject (hkind.1 ▸ hobject)).raises
              fun _ => False.elim
          by_cases hlist : v.isSimpleList
          · exact (gives_join_lists objects hv hw hlist (hkind.2 ▸ hlist)).raises
              fun _ => False.elim
          have hvs : v.isPrimitive := (Value.isPrimitive_iff hv).mpr (by simp [hobject, hlist])
          have hws : w.isPrimitive := by
            rw [Value.isPrimitive_iff hw, ← hkind.1, ← hkind.2]
            simp [hobject, hlist]
          refine ((gives_join_primitives objects hvs hws).imp ?_).raises fun _ h => h.1
          rintro vs ⟨-, -, id, rfl⟩
          exact ⟨_, rfl, rfl, (Value.isPrimitive_iff hv).mp hvs⟩
        refine Gives.bind hjoin ?_
        rintro vs ⟨u, rfl, hu, hvu⟩
        apply ih hu hrest'
        obtain ⟨x, hx, hvx⟩ := hne
        rcases List.mem_cons.mp hx with rfl | hx
        · exact absurd hkind hvx
        · exact ⟨x, hx, fun hux => hvx (hvu.trans hux)⟩
      · exact Gives.bind (gives_join_unlike objects hv hw hkind) fun _ => False.elim

-- The same loop on scalars: their texts so far, or a text that is empty.
theorem gives_joinAll_primitives {rest : List (Value ι)} (hv : v.isPrimitive)
    (hrest : ∀ w ∈ rest, w.isPrimitive) (hne : rest ≠ []) :
    Gives (joinAll objects [v] rest)
      (fun vs => (∀ w ∈ v :: rest, w.transformToString ≠ []) ∧
        ∃ id, vs = [.configString id ((v :: rest).flatMap Value.transformToString)])
      fun e => IsWrongType e ∧ ∃ w ∈ v :: rest, w.transformToString = [] := by
  induction rest generalizing v with
  | nil => exact absurd rfl hne
  | cons w rest ih =>
      have hw := hrest w List.mem_cons_self
      have hrest' : ∀ u ∈ rest, u.isPrimitive := fun u hu => hrest u (List.mem_cons_of_mem w hu)
      have hloop : joinAll objects [v] (w :: rest) =
          (join objects v w >>= fun vs => joinAll objects vs rest) := rfl
      rw [hloop]
      refine Gives.bind ((gives_join_primitives objects hv hw).raises ?_) ?_
      · rintro e ⟨he, hempty | hempty⟩
        · exact ⟨he, v, List.mem_cons_self, hempty⟩
        · exact ⟨he, w, List.mem_cons_of_mem v List.mem_cons_self, hempty⟩
      · rintro vs ⟨hvt, hwt, id, rfl⟩
        by_cases hlast : rest = []
        · subst hlast
          refine Gives.pure ⟨?_, id, by simp⟩
          intro u hu
          rcases List.mem_pair.mp hu with rfl | rfl
          · exact hvt
          · exact hwt
        · refine ((ih rfl hrest' hlast).imp ?_).raises ?_
          · rintro vs ⟨hfull, id', rfl⟩
            refine ⟨?_, id', by simp [Value.transformToString]⟩
            intro u hu
            rcases List.mem_cons.mp hu with rfl | hu
            · exact hvt
            rcases List.mem_cons.mp hu with rfl | hu
            · exact hwt
            · exact hfull u (List.mem_cons_of_mem _ hu)
          · rintro e ⟨he, u, hu, hempty⟩
            refine ⟨he, ?_⟩
            rcases List.mem_cons.mp hu with rfl | hu
            · exact ⟨v, List.mem_cons_self, (List.append_eq_nil_iff.mp hempty).1⟩
            · exact ⟨u, List.mem_cons_of_mem _ (List.mem_cons_of_mem _ hu), hempty⟩

theorem flattenPieces_of_resolved {pieces : List (Value ι)} (h : ∀ v ∈ pieces, v.resolved) :
    flattenPieces pieces = pieces := by
  induction pieces with
  | nil => rfl
  | cons v rest ih =>
      have hv := not_isConcatenation_of_resolved (h v List.mem_cons_self)
      have hrest := ih fun w hw => h w (List.mem_cons_of_mem v hw)
      rw [flattenPieces] at hrest ⊢
      rw [List.flatMap_cons, hrest]
      cases v with
      | configConcatenation => cases hv
      | _ => rfl

variable {pieces : List (Value ι)} (s : σ)

-- The text of all the values in their order.
def ReturnsText (pieces : List (Value ι)) (s : σ) : Prop :=
  ∃ id s', concatenate objects pieces s =
    .ok (some (.configString id (pieces.flatMap Value.transformToString))) s'

def ThrowsWrongType (pieces : List (Value ι)) (s : σ) : Prop :=
  ∃ message s', concatenate objects pieces s = .error (.wrongType message) s'

theorem concatenate_of_resolved (hlen : 2 ≤ pieces.length) (hresolved : ∀ v ∈ pieces, v.resolved) :
    ∃ v rest, pieces = v :: rest ∧ rest ≠ [] ∧
      consolidate objects pieces = joinAll objects [v] rest := by
  cases pieces with
  | nil => simp at hlen
  | cons v rest =>
      refine ⟨v, rest, rfl, ?_, ?_⟩
      · intro hnil
        rw [hnil] at hlen
        simp at hlen
      · rw [consolidate, if_neg (by omega), flattenPieces_of_resolved hresolved]
        rfl

theorem throwsWrongType_of_mixed (hlen : 2 ≤ pieces.length)
    (hresolved : ∀ v ∈ pieces, v.resolved) (hmixed : Mixed pieces) :
    ThrowsWrongType objects pieces s := by
  obtain ⟨v, rest, rfl, -, hconsolidate⟩ := concatenate_of_resolved objects hlen hresolved
  obtain ⟨w, hw, hne⟩ := hmixed.exists_not_sameKind v
  have hrest : w ∈ rest := by
    rcases List.mem_cons.mp hw with rfl | hw
    · exact absurd ⟨rfl, rfl⟩ hne
    · exact hw
  have hthrows : Gives (concatenate objects (v :: rest)) (fun _ => False) IsWrongType := by
    unfold concatenate
    rw [hconsolidate]
    exact Gives.bind (gives_joinAll_unlike objects (hresolved v List.mem_cons_self)
      (fun u hu => hresolved u (List.mem_cons_of_mem v hu)) ⟨w, hrest, hne⟩) fun _ => False.elim
  have h := hthrows s
  cases hrun : concatenate objects (v :: rest) s with
  | ok r s' =>
      rw [hrun] at h
      exact h.elim
  | error e s' =>
      rw [hrun] at h
      obtain ⟨message, rfl⟩ := h
      exact ⟨message, s', hrun⟩

theorem returnsText_iff (hlen : 2 ≤ pieces.length) (hprimitive : ∀ v ∈ pieces, v.isPrimitive)
    (hresolved : ∀ v ∈ pieces, v.resolved) :
    ReturnsText objects pieces s ↔ ∀ v ∈ pieces, v.transformToString ≠ [] := by
  obtain ⟨v, rest, rfl, hne, hconsolidate⟩ := concatenate_of_resolved objects hlen hresolved
  have hloop := gives_joinAll_primitives objects (hprimitive v List.mem_cons_self)
    (fun u hu => hprimitive u (List.mem_cons_of_mem v hu)) hne
  have hgives : Gives (concatenate objects (v :: rest))
      (fun r => (∀ w ∈ v :: rest, w.transformToString ≠ []) ∧
        ∃ id, r = some (.configString id ((v :: rest).flatMap Value.transformToString)))
      fun e => IsWrongType e ∧ ∃ w ∈ v :: rest, w.transformToString = [] := by
    unfold concatenate
    rw [hconsolidate]
    refine Gives.bind hloop ?_
    rintro vs ⟨hfull, id, rfl⟩
    exact Gives.pure ⟨hfull, id, rfl⟩
  have h := hgives s
  unfold ReturnsText
  cases hrun : concatenate objects (v :: rest) s with
  | ok r s' =>
      rw [hrun] at h
      obtain ⟨hfull, id, rfl⟩ := h
      exact iff_of_true ⟨id, s', rfl⟩ hfull
  | error e s' =>
      rw [hrun] at h
      obtain ⟨-, w, hw, hempty⟩ := h
      refine iff_of_false ?_ fun hfull => hfull w hw hempty
      rintro ⟨id, s'', heq⟩
      cases heq

-- Mixed values are refused, and scalars give their texts exactly when none of
-- these is empty: an empty string is taken for a value without a text.
theorem concatenate_texts_iff (hlen : 2 ≤ pieces.length) (hresolved : ∀ v ∈ pieces, v.resolved) :
    (((∀ v ∈ pieces, v.isPrimitive) → ReturnsText objects pieces s) ∧
        (Mixed pieces → ThrowsWrongType objects pieces s)) ↔
      ((∀ v ∈ pieces, v.isPrimitive) → ∀ v ∈ pieces, v.transformToString ≠ []) := by
  constructor
  · intro h hprimitive
    exact (returnsText_iff objects s hlen hprimitive hresolved).mp (h.1 hprimitive)
  · intro hfull
    refine ⟨fun hprimitive => ?_, throwsWrongType_of_mixed objects s hlen hresolved⟩
    exact (returnsText_iff objects s hlen hprimitive hresolved).mpr (hfull hprimitive)

-- `1 a`
theorem concatenate_texts_one :
    (((∀ v ∈ [Value.configInt () 1 [], .configString () (ascii "a")], v.isPrimitive) →
        ReturnsText .plain [.configInt () 1 [], .configString () (ascii "a")] ()) ∧
      (Mixed [Value.configInt () 1 [], .configString () (ascii "a")] →
        ThrowsWrongType .plain [.configInt () 1 [], .configString () (ascii "a")] ())) ↔
    ((∀ v ∈ [Value.configInt () 1 [], .configString () (ascii "a")], v.isPrimitive) →
      ∀ v ∈ [Value.configInt () 1 [], .configString () (ascii "a")], v.transformToString ≠ []) :=
  concatenate_texts_iff .plain () (by decide) (by decide)

-- `"" a`
theorem concatenate_empty_string :
    (∀ v ∈ [Value.configString () [], .configString () (ascii "a")], v.isPrimitive) ∧
      ThrowsWrongType .plain [.configString () [], .configString () (ascii "a")] () ∧
      ¬ReturnsText .plain [.configString () [], .configString () (ascii "a")] () := by
  have hrun : concatenate .plain [.configString () [], .configString () (ascii "a")] () =
      .error (.wrongType "_cannot concatenate object or list with a non-object-or-list, ") () := rfl
  refine ⟨by decide, ⟨_, _, hrun⟩, ?_⟩
  rintro ⟨id, s', heq⟩
  rw [hrun] at heq
  cases heq

end AsrServiceProxy.Config

import AsrServiceProxy.Config.Operations
import AsrServiceProxy.Config.WellMade

-- The operations on values keep the invariant, and no constructor refuses what
-- they give it.
namespace AsrServiceProxy.Config

open CMemory Simulation

section

variable (path : Path)

theorem relativizedAll_eq (vs : List (Value Unit)) :
    relativizedAll path vs = vs.map (relativized path) := by
  induction vs with
  | nil => rfl
  | cons v rest ih => rw [relativizedAll, ih, List.map_cons]

theorem relativizedFields_eq (fields : Fields Unit) :
    relativizedFields path fields =
      fields.map fun field => (field.1, relativized path field.2) := by
  induction fields with
  | nil => rfl
  | cons field rest ih => rw [relativizedFields, ih, List.map_cons]

@[simp] theorem isObject_relativized (v : Value Unit) :
    (relativized path v).isObject = v.isObject := by
  cases v <;> rfl

@[simp] theorem isUnmergeable_relativized (v : Value Unit) :
    (relativized path v).isUnmergeable = v.isUnmergeable := by
  cases v <;> rfl

@[simp] theorem isDelayedMerge_relativized (v : Value Unit) :
    (relativized path v).isDelayedMerge = v.isDelayedMerge := by
  cases v <;> rfl

@[simp] theorem isConcatenation_relativized (v : Value Unit) :
    (relativized path v).isConcatenation = v.isConcatenation := by
  cases v <;> rfl

theorem any_relativizedAll {p : Value Unit → Bool} (hp : ∀ v, p (relativized path v) = p v)
    (vs : List (Value Unit)) : (relativizedAll path vs).any p = vs.any p := by
  induction vs with
  | nil => rfl
  | cons v rest ih => rw [relativizedAll, List.any_cons, List.any_cons, ih, hp]

theorem head?_relativizedAll (vs : List (Value Unit)) :
    (relativizedAll path vs).head?.any Value.isObject = vs.head?.any Value.isObject := by
  cases vs with
  | nil => rfl
  | cons v rest => exact isObject_relativized path v

mutual

theorem resolved_relativized : ∀ v : Value Unit, (relativized path v).resolved = v.resolved
  | .configNull _ | .configBoolean _ _ | .configInt _ _ _ | .configInt64 _ _ _
  | .configDouble _ _ | .configString _ _ | .configReference _ _ _ | .configConcatenation _ _
  | .configDelayedMerge _ _ | .configDelayedMergeObject _ _ => rfl
  | .simpleConfigList _ value => resolvedAll_relativizedAll value
  | .simpleConfigObject _ value _ => resolvedFields_relativizedFields value

theorem resolvedAll_relativizedAll : ∀ vs : List (Value Unit),
    Value.resolvedAll (relativizedAll path vs) = Value.resolvedAll vs
  | [] => rfl
  | v :: rest => by
      rw [relativizedAll, Value.resolvedAll, Value.resolvedAll, resolved_relativized v,
        resolvedAll_relativizedAll rest]

theorem resolvedFields_relativizedFields : ∀ fields : List (Bytes × Value Unit),
    Value.resolvedFields (relativizedFields path fields) = Value.resolvedFields fields
  | [] => rfl
  | (_, v) :: rest => by
      rw [relativizedFields, Value.resolvedFields, Value.resolvedFields, resolved_relativized v,
        resolvedFields_relativizedFields rest]

end

theorem Path.length_prepend (path toPrepend : Path) :
    (path.prepend toPrepend).length = path.length + toPrepend.length := by
  induction toPrepend with
  | newKey first =>
      rw [Path.prepend, Path.length, Path.keys, List.length_cons]
      rfl
  | cons first remainder ih =>
      rw [Path.prepend, Path.length, Path.keys, List.length_cons]
      change (path.prepend remainder).length + 1 = path.length + (remainder.length + 1)
      omega

theorem wellMade_relativized {v : Value Unit} (h : v.WellMade) : (relativized path v).WellMade := by
  obtain ⟨hconstructed, hchecked⟩ := h
  cases v with
  | configReference id expr prefixLength =>
      refine ⟨trivial, ?_⟩
      have hlength := Path.length_prepend expr.path path
      change prefixLength < expr.path.length at hchecked
      change prefixLength + path.length < (expr.path.prepend path).length
      omega
  | simpleConfigObject id value ignores =>
      refine ⟨trivial, ?_⟩
      change ((relativizedFields path value).map Prod.fst).Nodup
      rw [relativizedFields_eq, List.map_map]
      exact hchecked
  | configConcatenation id pieces =>
      obtain ⟨hlength, hflat, hany⟩ := hconstructed
      refine ⟨⟨?_, ?_, ?_⟩, trivial⟩
      · rw [relativizedAll_eq, List.length_map]
        exact hlength
      · rw [any_relativizedAll path (isConcatenation_relativized path)]
        exact hflat
      · rw [any_relativizedAll path (isUnmergeable_relativized path)]
        exact hany
  | configDelayedMerge id stack =>
      refine ⟨⟨?_, ?_⟩, trivial⟩
      · rw [relativizedAll_eq]
        simpa using hconstructed.1
      · rw [any_relativizedAll path (isDelayedMerge_relativized path)]
        exact hconstructed.2
  | configDelayedMergeObject id stack =>
      have hhead : (relativizedAll path stack).head?.any Value.isObject = true := by
        rw [head?_relativizedAll]
        exact hconstructed.1
      have hnested : (relativizedAll path stack).any Value.isDelayedMerge = false := by
        rw [any_relativizedAll path (isDelayedMerge_relativized path)]
        exact hconstructed.2
      exact ⟨⟨hhead, hnested⟩, hhead, hnested⟩
  | _ => exact ⟨trivial, trivial⟩

mutual

theorem forall_relativized : ∀ v : Value Unit, v.Forall Value.WellMade →
    (relativized path v).Forall Value.WellMade
  | .configNull _, h | .configBoolean _ _, h | .configInt _ _ _, h | .configInt64 _ _ _, h
  | .configDouble _ _, h | .configString _ _, h | .configReference _ _ _, h =>
      wellMade_relativized path h
  | .simpleConfigList _ value, h => ⟨wellMade_relativized path h.1, forallAll_relativized value h.2⟩
  | .simpleConfigObject _ value _, h =>
      ⟨wellMade_relativized path h.1, forallFields_relativized value h.2⟩
  | .configConcatenation _ pieces, h =>
      ⟨wellMade_relativized path h.1, forallAll_relativized pieces h.2⟩
  | .configDelayedMerge _ stack, h =>
      ⟨wellMade_relativized path h.1, forallAll_relativized stack h.2⟩
  | .configDelayedMergeObject _ stack, h =>
      ⟨wellMade_relativized path h.1, forallAll_relativized stack h.2⟩

theorem forallAll_relativized : ∀ vs : List (Value Unit), ForallAll Value.WellMade vs →
    ForallAll Value.WellMade (relativizedAll path vs)
  | [], _ => trivial
  | v :: rest, h => ⟨forall_relativized v h.1, forallAll_relativized rest h.2⟩

theorem forallFields_relativized : ∀ fields : List (Bytes × Value Unit),
    ForallFields Value.WellMade fields →
    ForallFields Value.WellMade (relativizedFields path fields)
  | [], _ => trivial
  | (_, v) :: rest, h => ⟨forall_relativized v h.1, forallFields_relativized rest h.2⟩

end

end

-- The constructors of merges and concatenations on what passes their checks.
theorem makeConcatenation_eq {pieces : List (Value Unit)}
    (h : (Value.configConcatenation () pieces).Constructed) :
    makeConcatenation .plain pieces = pure (.configConcatenation () pieces) := by
  obtain ⟨hlength, hflat, hany⟩ := h
  have hshort : ¬pieces.length < 2 := by omega
  simp only [makeConcatenation, hshort, hflat, hany, ite_false, Bool.false_eq_true,
    not_true_eq_false]
  rfl

theorem makeDelayedMerge_eq {stack : List (Value Unit)}
    (h : (Value.configDelayedMerge () stack).Constructed) :
    makeDelayedMerge .plain stack = pure (.configDelayedMerge () stack) := by
  have hempty : stack.isEmpty = false := by simpa using h.1
  simp only [makeDelayedMerge, hempty, h.2, Bool.false_eq_true, ite_false]
  rfl

theorem makeDelayedMergeObject_eq {stack : List (Value Unit)}
    (h : (Value.configDelayedMergeObject () stack).Constructed) :
    makeDelayedMergeObject .plain stack = pure (.configDelayedMergeObject () stack) := by
  have hempty : stack.isEmpty = false := by
    cases stack with
    | nil => cases h.1
    | cons => rfl
  simp only [makeDelayedMergeObject, hempty, h.1, h.2, Bool.false_eq_true, ite_false,
    not_true_eq_false]
  rfl

-- The values after a change to each, and that the flag says whether there was one.
def Changed {α : Type} (before after : α) (r : α × Bool) : Prop :=
  r.1 = after ∧ (r.2 = false → r.1 = before)

theorem Changed.cons {α : Type} {v w : α} {rest rest' : List α} {modified : Option α}
    {r : List α × Bool} (hv : modified.getD v = w) (hrest : Changed rest rest' r) :
    Changed (v :: rest) (w :: rest') (modified.getD v :: r.1, modified.isSome || r.2) := by
  refine ⟨by rw [hv, hrest.1], ?_⟩
  intro hsame
  rw [Bool.or_eq_false_iff, Option.isSome_eq_false_iff, Option.isNone_iff_eq_none] at hsame
  rw [hsame.1, Option.getD_none, hrest.2 hsame.2]

mutual

theorem gives_makeRelativized (path : Path) : ∀ v : Value Unit, v.Forall Value.WellMade →
    Gives (makeRelativized path v) (fun r => r.getD v = relativized path v) fun _ => False
  | .configNull _, _ | .configBoolean _ _, _ | .configInt _ _ _, _ | .configInt64 _ _ _, _
  | .configDouble _ _, _ | .configString _ _, _ => Gives.pure rfl
  | .configReference _ _ _, _ => fun _ => rfl
  | .simpleConfigList _ value, h => by
      refine Gives.bind (gives_makeRelativizedAll path value h.2) ?_
      rintro ⟨elements, changed⟩ ⟨rfl, hsame⟩
      refine Gives.ite (fun _ => ?_) fun hchanged => Gives.pure ?_
      · rw [← resolvedAll_relativizedAll path value, makeList_eq]
        exact Gives.pure rfl
      · have heq := hsame (by simpa using hchanged)
        rw [Option.getD_none, relativized]
        exact congrArg _ heq.symm
  | .simpleConfigObject _ value ignores, h => by
      refine Gives.bind (gives_makeRelativizedFields path value h.2) ?_
      rintro ⟨fields, changed⟩ ⟨rfl, hsame⟩
      refine Gives.ite (fun _ => ?_) fun hchanged => Gives.pure ?_
      · rw [makeObject_eq]
        exact Gives.pure rfl
      · have heq := hsame (by simpa using hchanged)
        rw [Option.getD_none, relativized]
        exact congrArg (Value.simpleConfigObject () · ignores) heq.symm
  | .configConcatenation _ pieces, h => by
      refine Gives.bind (gives_makeRelativizedAll path pieces h.2) ?_
      rintro ⟨newPieces, changed⟩ ⟨rfl, _⟩
      have hmade := (wellMade_relativized path h.1).1
      dsimp only
      rw [makeConcatenation_eq hmade]
      exact Gives.pure rfl
  | .configDelayedMerge _ stack, h => by
      refine Gives.bind (gives_makeRelativizedAll path stack h.2) ?_
      rintro ⟨newStack, changed⟩ ⟨rfl, _⟩
      have hmade := (wellMade_relativized path h.1).1
      dsimp only
      rw [makeDelayedMerge_eq hmade]
      exact Gives.pure rfl
  | .configDelayedMergeObject _ stack, h => by
      refine Gives.bind (gives_makeRelativizedAll path stack h.2) ?_
      rintro ⟨newStack, changed⟩ ⟨rfl, _⟩
      have hmade := (wellMade_relativized path h.1).1
      dsimp only
      rw [makeDelayedMergeObject_eq hmade]
      exact Gives.pure rfl

theorem gives_makeRelativizedAll (path : Path) : ∀ vs : List (Value Unit),
    ForallAll Value.WellMade vs →
    Gives (makeRelativizedAll path vs) (Changed vs (relativizedAll path vs)) fun _ => False
  | [], _ => Gives.pure ⟨rfl, fun _ => rfl⟩
  | v :: rest, h => by
      refine Gives.bind (gives_makeRelativized path v h.1) ?_
      intro modified hmodified
      refine Gives.bind (gives_makeRelativizedAll path rest h.2) ?_
      rintro ⟨elements, changed⟩ hrest
      exact Gives.pure (hrest.cons hmodified)

theorem gives_makeRelativizedFields (path : Path) : ∀ fields : List (Bytes × Value Unit),
    ForallFields Value.WellMade fields →
    Gives (makeRelativizedFields path fields) (Changed fields (relativizedFields path fields))
      fun _ => False
  | [], _ => Gives.pure ⟨rfl, fun _ => rfl⟩
  | (key, v) :: rest, h => by
      refine Gives.bind (gives_makeRelativized path v h.1) ?_
      intro modified hmodified
      refine Gives.bind (gives_makeRelativizedFields path rest h.2) ?_
      rintro ⟨fields, changed⟩ hrest
      have hfield : (modified.map (key, ·)).getD (key, v) = (key, relativized path v) := by
        rw [← hmodified]
        cases modified <;> rfl
      have hcons := hrest.cons hfield
      refine Gives.pure ?_
      cases modified with
      | none => exact hcons
      | some w => exact hcons

end

theorem gives_withOrigin (sameOrigin : Bool) {v : Value Unit} (h : v.Forall Value.WellMade) :
    Gives (withOrigin sameOrigin v) (fun w => w = v) fun _ => False := by
  refine Gives.ite (fun _ => Gives.pure rfl) fun _ => ?_
  cases v with
  | simpleConfigList id value =>
      rw [newCopy, makeList_eq]
      exact Gives.pure rfl
  | simpleConfigObject id value ignores =>
      rw [newCopy, makeObject_eq]
      exact Gives.pure rfl
  | configConcatenation id pieces =>
      rw [newCopy, makeConcatenation_eq h.1.1]
      exact Gives.pure rfl
  | configDelayedMerge id stack =>
      rw [newCopy, makeDelayedMerge_eq h.1.1]
      exact Gives.pure rfl
  | configDelayedMergeObject id stack =>
      rw [newCopy, makeDelayedMergeObject_eq h.1.1]
      exact Gives.pure rfl
  | _ => exact Gives.pure rfl

theorem keys_putField (values : Fields Unit) (key : Bytes) (v : Value Unit) :
    (putField values key v).map Prod.fst =
      if (values.lookup key).isSome then values.map Prod.fst else values.map Prod.fst ++ [key] := by
  unfold putField
  split
  · rw [List.map_map]
    apply List.map_congr_left
    intro field _
    simp only [Function.comp_apply]
    split
    · rename_i hkey
      exact hkey.symm
    · rfl
  · rw [List.map_append]
    rfl

theorem nodup_putField {values : Fields Unit} (h : (values.map Prod.fst).Nodup) (key : Bytes)
    (v : Value Unit) : ((putField values key v).map Prod.fst).Nodup := by
  rw [keys_putField]
  split
  · exact h
  · rename_i hnone
    rw [Entries.isSome_lookup_iff] at hnone
    refine List.nodup_append.mpr ⟨h, List.nodup_singleton key, ?_⟩
    intro key' hkey' other hother
    rw [List.mem_singleton.mp hother]
    rintro rfl
    exact hnone hkey'

theorem forallFields_putField {p : Value Unit → Prop} {values : Fields Unit}
    (h : ForallFields p values) (key : Bytes) {v : Value Unit} (hv : v.Forall p) :
    ForallFields p (putField values key v) := by
  unfold putField
  split
  · rw [forallFields_iff] at h ⊢
    intro field hfield
    obtain ⟨old, hold, rfl⟩ := List.mem_map.mp hfield
    split
    · exact hv
    · exact h old hold
  · exact forallFields_append h ⟨hv, trivial⟩

theorem forall_putField {id : Unit} {values : Fields Unit} {ignores : Bool}
    (h : (Value.simpleConfigObject id values ignores).Forall Value.WellMade) (key : Bytes)
    {v : Value Unit} (hv : v.Forall Value.WellMade) :
    (Value.simpleConfigObject () (putField values key v) ignores).Forall Value.WellMade :=
  ⟨⟨trivial, nodup_putField h.1.2 key v⟩, forallFields_putField h.2 key hv⟩

theorem forall_single {v : Value Unit} (h : v.Forall Value.WellMade) (key : Bytes) (ignores : Bool) :
    (Value.simpleConfigObject () [(key, v)] ignores).Forall Value.WellMade :=
  ⟨⟨trivial, List.nodup_singleton key⟩, h, trivial⟩

section

variable {raised : ConfigException → Prop}

theorem gives_fromFields {value : Fields Unit} {ignores : Bool}
    (h : (Value.simpleConfigObject () value ignores).Forall Value.WellMade) :
    Gives (fromFields value ignores) (fun w => w.Forall Value.WellMade) raised := by
  rw [fromFields, makeObject_eq]
  exact Gives.pure h

theorem gives_atPath {v : Value Unit} (hv : v.Forall Value.WellMade) (path : Path) :
    Gives (atPath v path) (fun w => w.Forall Value.WellMade) raised := by
  induction path with
  | newKey key => exact gives_fromFields (forall_single hv key false)
  | cons key next ih =>
      refine Gives.bind ih ?_
      intro w hw
      exact gives_fromFields (forall_single hw key false)

end

theorem forall_of_lookup {key : Bytes} {v : Value Unit} {value : Fields Unit}
    (h : ForallFields Value.WellMade value) (hlookup : value.lookup key = some v) :
    v.Forall Value.WellMade :=
  (forallFields_iff _).mp h _ (Entries.mem_of_lookup hlookup)

-- All that these operations throw is that an object is not resolved yet.
theorem gives_withValue {v : Value Unit} (hv : v.Forall Value.WellMade) (path : Path)
    {self : Value Unit} (hself : self.Forall Value.WellMade) (hobject : self.isObject) :
    Gives (withValue v path self) (fun w => w.Forall Value.WellMade) (· = notResolved) := by
  induction path generalizing self with
  | newKey key =>
      cases self with
      | simpleConfigObject id value ignores =>
          exact gives_fromFields (forall_putField hself key hv)
      | configDelayedMergeObject => exact Gives.throw rfl
      | _ => cases hobject
  | cons key next ih =>
      cases self with
      | simpleConfigObject id value ignores =>
          have hput : ∀ {w : Value Unit}, w.Forall Value.WellMade →
              Gives (fromFields (putField value key w) ignores)
                (fun w => w.Forall Value.WellMade) (· = notResolved) :=
            fun hw => gives_fromFields (forall_putField hself key hw)
          unfold withValue
          cases hlookup : value.lookup key with
          | none => exact Gives.bind (gives_atPath hv next) fun w hw => hput hw
          | some child =>
              have hchild := forall_of_lookup hself.2 hlookup
              refine Gives.ite (fun hobject => ?_) fun _ => ?_
              · exact Gives.bind (ih hchild hobject) fun w hw => hput hw
              · exact Gives.bind (gives_atPath hv next) fun w hw => hput hw
      | configDelayedMergeObject => exact Gives.throw rfl
      | _ => cases hobject

theorem gives_withoutPath (path : Path) {self : Value Unit} (hself : self.Forall Value.WellMade)
    (hobject : self.isObject) :
    Gives (withoutPath path self) (fun w => w.Forall Value.WellMade) (· = notResolved) := by
  induction path generalizing self with
  | newKey key =>
      cases self with
      | simpleConfigObject id value ignores =>
          refine Gives.ite (fun _ => Gives.pure hself) fun _ => gives_fromFields ⟨⟨trivial, ?_⟩, ?_⟩
          · exact List.Nodup.sublist (List.filter_sublist.map Prod.fst) hself.1.2
          · have hvalue := hself.2
            rw [forallFields_iff] at hvalue ⊢
            intro field hfield
            exact hvalue field (List.mem_filter.mp hfield).1
      | configDelayedMergeObject => exact Gives.throw rfl
      | _ => cases hobject
  | cons key next ih =>
      cases self with
      | simpleConfigObject id value ignores =>
          unfold withoutPath
          cases hlookup : value.lookup key with
          | none => exact Gives.pure hself
          | some child =>
              refine Gives.ite (fun hobject => ?_) fun _ => Gives.pure hself
              refine Gives.bind (ih (forall_of_lookup hself.2 hlookup) hobject) ?_
              intro w hw
              exact gives_fromFields (forall_putField hself key hw)
      | configDelayedMergeObject => exact Gives.throw rfl
      | _ => cases hobject

-- The new object has the status of its one value.
theorem gives_single {raised : ConfigException → Prop} {v : Value Unit}
    (h : v.Forall Value.WellMade) (key : Bytes) (ignores : Bool) :
    Gives (makeObject .plain [(key, v)] v.resolved ignores) (fun w => w.Forall Value.WellMade)
      raised := by
  have hstatus : v.resolved = Value.resolvedFields [(key, v)] := by
    rw [Value.resolvedFields, Value.resolvedFields, Bool.and_true]
  rw [hstatus, makeObject_eq]
  exact Gives.pure (forall_single h key ignores)

theorem gives_withOnlyPathOrNull (path : Path) {self : Value Unit}
    (hself : self.Forall Value.WellMade) (hobject : self.isObject) :
    Gives (withOnlyPathOrNull path self) (fun r => ∀ w, r = some w → w.Forall Value.WellMade)
      (· = notResolved) := by
  have hsome : ∀ {v : Value Unit} (key : Bytes) (ignores : Bool), v.Forall Value.WellMade →
      Gives (do return some (← makeObject .plain [(key, v)] v.resolved ignores))
        (fun r => ∀ w, r = some w → w.Forall Value.WellMade) (· = notResolved) := by
    intro v key ignores hv
    refine Gives.bind (gives_single hv key ignores) ?_
    intro w hw
    refine Gives.pure ?_
    rintro _ ⟨⟩
    exact hw
  induction path generalizing self with
  | newKey key =>
      cases self with
      | simpleConfigObject id value ignores =>
          unfold withOnlyPathOrNull
          cases hlookup : value.lookup key with
          | none => exact Gives.pure nofun
          | some child => exact hsome key ignores (forall_of_lookup hself.2 hlookup)
      | configDelayedMergeObject => exact Gives.throw rfl
      | _ => cases hobject
  | cons key next ih =>
      cases self with
      | simpleConfigObject id value ignores =>
          unfold withOnlyPathOrNull
          cases hlookup : value.lookup key with
          | none => exact Gives.pure nofun
          | some child =>
              refine Gives.ite (fun hobject => ?_) fun _ => Gives.pure nofun
              refine Gives.bind (ih (forall_of_lookup hself.2 hlookup) hobject) ?_
              intro r hr
              cases r with
              | none => exact Gives.pure nofun
              | some v => exact hsome key ignores (hr v rfl)
      | configDelayedMergeObject => exact Gives.throw rfl
      | _ => cases hobject

theorem gives_withOnlyPath (path : Path) {self : Value Unit} (hself : self.Forall Value.WellMade)
    (hobject : self.isObject) :
    Gives (withOnlyPath path self) (fun w => w.Forall Value.WellMade) (· = notResolved) := by
  refine Gives.bind (gives_withOnlyPathOrNull path hself hobject) ?_
  intro r hr
  cases r with
  | some v => exact Gives.pure (hr v rfl)
  | none =>
      have hnone : (Value.simpleConfigObject () [] self.ignoresFallbacks).Forall Value.WellMade :=
        ⟨⟨trivial, List.nodup_nil⟩, trivial⟩
      exact gives_fromFields hnone

end AsrServiceProxy.Config

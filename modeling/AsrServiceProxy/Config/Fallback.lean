import AsrServiceProxy.Config.Contents
import AsrServiceProxy.Config.Resolve.Merging

-- Falling back as a function of the contents. A value that passed the checks of
-- its constructors falls back without an exception, and the result is this one.
namespace AsrServiceProxy.Config

open CMemory Simulation

variable {ι σ : Type}

-- The checks that the constructors of delayed merges and concatenations make.
def Value.Constructed : Value ι → Prop
  | .configConcatenation _ pieces =>
      2 ≤ pieces.length ∧ pieces.any Value.isConcatenation = false ∧
        pieces.any Value.isUnmergeable = true
  | .configDelayedMerge _ stack => stack ≠ [] ∧ stack.any Value.isDelayedMerge = false
  | .configDelayedMergeObject _ stack =>
      stack.head?.any Value.isObject = true ∧ stack.any Value.isDelayedMerge = false
  | _ => True

def delayedMerge (isObject : Bool) (stack : List (Value Unit)) : Value Unit :=
  if isObject then .configDelayedMergeObject () stack else .configDelayedMerge () stack

mutual

def fallback : Value Unit → Value Unit → Value Unit
  | .simpleConfigObject id value ignores, other =>
      if ignores then .simpleConfigObject id value ignores
      else
        match other with
        | .simpleConfigObject _ otherValue otherIgnores =>
            .simpleConfigObject () (fallbackFields value otherValue ++ addedFields value otherValue)
              otherIgnores
        | other =>
            if !other.isUnmergeable && Value.resolvedFields value then
              .simpleConfigObject () value true
            else
              .configDelayedMergeObject ()
                (.simpleConfigObject id value ignores :: other.unmergedValues)
  | self, other =>
      if self.ignoresFallbacks then self
      else delayedMerge self.isObject (self.unmergedValues ++ other.unmergedValues)

def fallbackFields : List (Bytes × Value Unit) → Fields Unit → Fields Unit
  | [], _ => []
  | (key, v) :: rest, other =>
      (key, match other.lookup key with
        | none => v
        | some w => fallback v w) :: fallbackFields rest other

end

section

variable {a b : Value ι}

theorem Value.Constructed.unmergedValues_ne_nil (h : a.Constructed) : a.unmergedValues ≠ [] := by
  cases a with
  | configDelayedMerge id stack => exact h.1
  | configDelayedMergeObject id stack =>
      rintro rfl
      cases h.1
  | _ => exact List.cons_ne_nil _ _

theorem Value.Constructed.any_isDelayedMerge (h : a.Constructed) :
    a.unmergedValues.any Value.isDelayedMerge = false := by
  cases a with
  | configDelayedMerge id stack => exact h.2
  | configDelayedMergeObject id stack => exact h.2
  | _ => rfl

theorem Value.Constructed.head_isObject (h : a.Constructed) (ha : a.isObject) :
    a.unmergedValues.head?.any Value.isObject = true := by
  cases a with
  | configDelayedMergeObject id stack => exact h.1
  | simpleConfigObject => rfl
  | _ => cases ha

end

variable (objects : Objects ι σ)

theorem gives_makeObject_contents (value : Fields ι) (ignores : Bool) :
    Gives (makeObject objects value (Value.resolvedFields value) ignores)
      (fun v => v.contents = .simpleConfigObject () (contentsFields value) ignores)
      fun _ => False := by
  refine Gives.ite (fun h => absurd rfl h) fun _ => ?_
  intro s
  rfl

theorem gives_constructDelayedMerge_contents (isObject : Bool) {stack : List (Value ι)}
    (hne : stack ≠ []) (hnested : stack.any Value.isDelayedMerge = false)
    (hhead : isObject → stack.head?.any Value.isObject = true) :
    Gives (constructDelayedMerge objects isObject stack)
      (fun v => v.contents = delayedMerge isObject (contentsAll stack)) fun _ => False := by
  have hempty : stack.isEmpty = false := by
    cases stack with
    | nil => exact absurd rfl hne
    | cons => rfl
  cases isObject with
  | true =>
      intro s
      simp only [constructDelayedMerge, makeDelayedMergeObject, hempty, hnested, hhead rfl, ite_true,
        not_true_eq_false, Bool.false_eq_true, ite_false]
      rfl
  | false =>
      intro s
      simp only [constructDelayedMerge, makeDelayedMerge, hempty, hnested, Bool.false_eq_true,
        ite_false]
      rfl

theorem any_append_isDelayedMerge {vs ws : List (Value ι)}
    (hvs : vs.any Value.isDelayedMerge = false) (hws : ws.any Value.isDelayedMerge = false) :
    (vs ++ ws).any Value.isDelayedMerge = false := by
  rw [List.any_append, hvs, hws, Bool.or_false]

theorem head?_append_of_ne_nil {α : Type} {xs : List α} (h : xs ≠ []) (ys : List α) :
    (xs ++ ys).head? = xs.head? := by
  cases xs with
  | nil => exact absurd rfl h
  | cons => rfl

-- What `merged_with_the_unmergeable` and `delay_merge` put together.
theorem gives_delayed_contents {a : Value ι} {more : List (Value ι)} (ha : a.Constructed)
    (hmore : more.any Value.isDelayedMerge = false) :
    Gives (do return some (← constructDelayedMerge objects a.isObject (a.unmergedValues ++ more)))
      (fun r => (r.getD a).contents =
        delayedMerge a.contents.isObject (a.contents.unmergedValues ++ contentsAll more))
      fun _ => False := by
  refine Gives.bind (gives_constructDelayedMerge_contents objects a.isObject ?_ ?_ ?_) ?_
  · exact List.append_ne_nil_of_left_ne_nil ha.unmergedValues_ne_nil more
  · exact any_append_isDelayedMerge ha.any_isDelayedMerge hmore
  · intro hobject
    rw [head?_append_of_ne_nil ha.unmergedValues_ne_nil]
    exact ha.head_isObject hobject
  · intro v hv
    refine Gives.pure ?_
    rw [Option.getD_some, hv, contentsAll_append, Value.isObject_contents,
      Value.unmergedValues_contents]

theorem gives_mergedWithTheUnmergeable_contents {a b : Value ι} (ha : a.Constructed)
    (hb : b.Constructed) :
    Gives (mergedWithTheUnmergeable objects a b)
      (fun r => (r.getD a).contents =
        delayedMerge a.contents.isObject (a.contents.unmergedValues ++ b.contents.unmergedValues))
      fun _ => False := by
  rw [b.unmergedValues_contents]
  exact gives_delayed_contents objects ha hb.any_isDelayedMerge

theorem unmergedValues_of_not_unmergeable {b : Value ι} (h : b.isUnmergeable = false) :
    b.unmergedValues = [b] := by
  cases b with
  | configDelayedMerge | configDelayedMergeObject => cases h
  | _ => rfl

theorem isDelayedMerge_of_not_unmergeable {b : Value ι} (h : b.isUnmergeable = false) :
    b.isDelayedMerge = false := by
  cases b with
  | configDelayedMerge | configDelayedMergeObject => cases h
  | _ => rfl

theorem gives_mergedWithNonObject_contents {a b : Value ι} (ha : a.Constructed)
    (hb : b.isUnmergeable = false) (hunresolved : a.resolved = false) :
    Gives (mergedWithNonObject objects a b)
      (fun r => (r.getD a).contents =
        delayedMerge a.contents.isObject (a.contents.unmergedValues ++ b.contents.unmergedValues))
      fun _ => False := by
  rw [mergedWithNonObject, hunresolved, b.unmergedValues_contents,
    unmergedValues_of_not_unmergeable hb]
  refine gives_delayed_contents objects ha ?_
  simp [isDelayedMerge_of_not_unmergeable hb]

-- Only an object can be resolved and take a fallback.
theorem Value.resolved_eq_false {a : Value ι} (h : a.isSimpleObject = false)
    (hignores : a.ignoresFallbacks = false) : a.resolved = false := by
  cases a with
  | simpleConfigObject => cases h
  | simpleConfigList | configReference | configConcatenation | configDelayedMerge
  | configDelayedMergeObject => first | rfl | exact hignores
  | _ => cases hignores

theorem fallback_of_not_simple {a : Value Unit} (h : a.isSimpleObject = false) (b : Value Unit) :
    fallback a b = if a.ignoresFallbacks then a
      else delayedMerge a.isObject (a.unmergedValues ++ b.unmergedValues) := by
  cases a with
  | simpleConfigObject => cases h
  | _ =>
      rw [fallback]
      nofun

theorem fallback_of_ignores {a : Value Unit} (h : a.ignoresFallbacks) (b : Value Unit) :
    fallback a b = a := by
  cases a with
  | simpleConfigObject id value ignores =>
      unfold fallback
      exact if_pos h
  | _ =>
      rw [fallback_of_not_simple rfl]
      exact if_pos h

theorem fallback_of_resolved {a : Value Unit} (h : a.resolved) (hsimple : a.isSimpleObject = false)
    (b : Value Unit) : fallback a b = a := by
  apply fallback_of_ignores
  by_contra hignores
  rw [Bool.not_eq_true] at hignores
  rw [Value.resolved_eq_false hsimple hignores] at h
  cases h

theorem gives_mergeOther_contents {a b : Value ι} (ha : a.Constructed) (hb : b.Constructed)
    (h : a.isSimpleObject = false) :
    Gives (mergeFallback objects a b)
      (fun r => (r.getD a).contents = fallback a.contents b.contents) fun _ => False := by
  rw [mergeFallback_of_not_simple objects h, fallback_of_not_simple (by simpa using h)]
  refine Gives.ite (fun hignores => Gives.pure ?_) fun hignores => ?_
  · simp [hignores]
  · rw [Value.ignoresFallbacks_contents, if_neg hignores]
    refine Gives.ite (fun _ => ?_) fun hmergeable => ?_
    · exact gives_mergedWithTheUnmergeable_contents objects ha hb
    · exact gives_mergedWithNonObject_contents objects ha (by simpa using hmergeable)
        (Value.resolved_eq_false h (by simpa using hignores))

-- The fields of the object after a merge, and that `changed` says whether they are others.
def MergedContents (value other : Fields ι) (r : Fields ι × Bool) : Prop :=
  contentsFields r.1 = fallbackFields (contentsFields value) (contentsFields other) ∧
    (r.2 = false → r.1 = value)

theorem gives_finishMerge_contents {id : ι} {value other merged : Fields ι} {changed : Bool}
    (ignores otherIgnores : Bool) (h : MergedContents value other (merged, changed)) :
    Gives (finishMerge objects value ignores merged changed (addedFields value other) otherIgnores)
      (fun r => (r.getD (.simpleConfigObject id value ignores)).contents =
        .simpleConfigObject () (fallbackFields (contentsFields value) (contentsFields other) ++
          addedFields (contentsFields value) (contentsFields other)) otherIgnores)
      fun _ => False := by
  obtain ⟨hmerged, hsame⟩ := h
  rw [addedFields_contents, ← hmerged, ← contentsFields_append]
  refine Gives.ite (fun _ => ?_) fun hnone => ?_
  · refine Gives.bind (gives_makeObject_contents objects _ otherIgnores) ?_
    intro v hv
    exact Gives.pure hv
  · -- the fields are those of the object itself
    simp only [Bool.or_eq_true, decide_eq_true_eq, not_or, Bool.not_eq_true,
      not_not, List.isEmpty_iff] at hnone
    obtain ⟨hchanged, hadded⟩ := hnone
    have hvalue : merged ++ addedFields value other = value := by
      rw [hadded, List.append_nil]
      exact hsame hchanged
    rw [hvalue]
    refine Gives.ite (fun _ => ?_) fun hflags => Gives.pure ?_
    · refine Gives.bind (gives_makeObject_contents objects value otherIgnores) ?_
      intro v hv
      exact Gives.pure hv
    · simp only [ne_eq, not_true_eq_false, decide_false, Bool.false_or, decide_eq_true_eq,
        not_not] at hflags
      rw [hflags]
      rfl

theorem gives_mergeObject_contents {id : ι} {value : Fields ι} {b : Value ι}
    (hb : b.Constructed) (hsimple : b.isSimpleObject = false) :
    Gives (if b.isUnmergeable then
        mergedWithTheUnmergeable objects (.simpleConfigObject id value false) b
      else mergedWithNonObject objects (.simpleConfigObject id value false) b)
      (fun r => (r.getD (.simpleConfigObject id value false)).contents =
        fallback (.simpleConfigObject () (contentsFields value) false) b.contents)
      fun _ => False := by
  have hfallback : fallback (.simpleConfigObject () (contentsFields value) false) b.contents =
      if !b.isUnmergeable && Value.resolvedFields value then
        .simpleConfigObject () (contentsFields value) true
      else .configDelayedMergeObject ()
        (.simpleConfigObject () (contentsFields value) false :: b.contents.unmergedValues) := by
    cases b with
    | simpleConfigObject => cases hsimple
    | _ => simp [fallback, Value.contents, Value.isUnmergeable]
  rw [hfallback]
  refine Gives.ite (fun hunmergeable => ?_) fun hmergeable => ?_
  · rw [hunmergeable]
    exact gives_mergedWithTheUnmergeable_contents objects (a := .simpleConfigObject id value false)
      trivial hb
  · rw [Bool.not_eq_true] at hmergeable
    by_cases hresolved : Value.resolvedFields value
    · rw [hmergeable, hresolved, mergedWithNonObject]
      simp only [Value.resolved, hresolved, ite_true, withFallbacksIgnored, Bool.false_eq_true,
        ite_false, Bool.not_false, Bool.and_self]
      have hmake := gives_makeObject_contents objects value true
      rw [hresolved] at hmake
      refine Gives.bind hmake ?_
      intro v hv
      exact Gives.pure hv
    · rw [if_neg (by simp [hresolved])]
      exact gives_mergedWithNonObject_contents objects (a := .simpleConfigObject id value false)
        trivial hmergeable (by simpa [Value.resolved] using hresolved)

theorem Value.Forall.node {p : Value ι → Prop} {v : Value ι} (h : v.Forall p) : p v := by
  cases v with
  | simpleConfigList | simpleConfigObject | configConcatenation | configDelayedMerge
  | configDelayedMergeObject => exact h.1
  | _ => exact h

mutual

theorem gives_mergeFallback_contents : ∀ a b : Value ι, a.Forall Value.Constructed →
    b.Forall Value.Constructed → Gives (mergeFallback objects a b)
      (fun r => (r.getD a).contents = fallback a.contents b.contents) fun _ => False
  | .simpleConfigObject id value ignores, b, ha, hb => by
      unfold mergeFallback
      cases ignores with
      | true =>
          refine Gives.pure ?_
          rw [Value.contents, fallback_of_ignores rfl]
          rfl
      | false =>
          rw [if_neg Bool.false_ne_true]
          cases b with
          | simpleConfigObject id' other otherIgnores =>
              simp only [Value.isUnmergeable, Bool.false_eq_true, ite_false]
              refine Gives.bind (gives_mergeFields_contents value other ha.2 hb.2) ?_
              rintro ⟨merged, changed⟩ h
              exact gives_finishMerge_contents objects false otherIgnores h
          | _ => exact gives_mergeObject_contents objects hb.node rfl
  | .configNull _, b, ha, hb => gives_mergeOther_contents objects ha hb.node rfl
  | .configBoolean _ _, b, ha, hb => gives_mergeOther_contents objects ha hb.node rfl
  | .configInt _ _ _, b, ha, hb => gives_mergeOther_contents objects ha hb.node rfl
  | .configInt64 _ _ _, b, ha, hb => gives_mergeOther_contents objects ha hb.node rfl
  | .configDouble _ _, b, ha, hb => gives_mergeOther_contents objects ha hb.node rfl
  | .configString _ _, b, ha, hb => gives_mergeOther_contents objects ha hb.node rfl
  | .simpleConfigList _ _, b, ha, hb => gives_mergeOther_contents objects ha.1 hb.node rfl
  | .configReference _ _ _, b, ha, hb => gives_mergeOther_contents objects ha hb.node rfl
  | .configConcatenation _ _, b, ha, hb => gives_mergeOther_contents objects ha.1 hb.node rfl
  | .configDelayedMerge _ _, b, ha, hb => gives_mergeOther_contents objects ha.1 hb.node rfl
  | .configDelayedMergeObject _ _, b, ha, hb => gives_mergeOther_contents objects ha.1 hb.node rfl

theorem gives_mergeFields_contents : ∀ value other : Fields ι,
    ForallFields Value.Constructed value → ForallFields Value.Constructed other →
    Gives (mergeFields objects value other) (MergedContents value other) fun _ => False
  | [], _, _, _ => Gives.pure ⟨rfl, fun _ => rfl⟩
  | (key, first) :: rest, other, hvalue, hother => by
      have hrest : ∀ kept : Option (Value ι), (kept.getD first).contents =
            (match (contentsFields other).lookup key with
              | none => first.contents
              | some w => fallback first.contents w) →
          Gives (do
            let (merged, changed) ← mergeFields objects rest other
            return ((key, kept.getD first) :: merged, kept.isSome || changed))
            (MergedContents ((key, first) :: rest) other) fun _ => False := by
        intro kept hkept
        refine Gives.bind (gives_mergeFields_contents rest other hvalue.2 hother) ?_
        rintro ⟨merged, changed⟩ ⟨hmerged, hsame⟩
        refine Gives.pure ⟨?_, ?_⟩
        · rw [contentsFields, contentsFields, fallbackFields, hkept]
          exact congrArg _ hmerged
        · intro hchanged
          rw [Bool.or_eq_false_iff] at hchanged
          obtain ⟨hnone, hchanged⟩ := hchanged
          rw [Option.isSome_eq_false_iff, Option.isNone_iff_eq_none] at hnone
          rw [hnone]
          exact congrArg _ (hsame hchanged)
      rw [mergeFields]
      cases hlookup : other.lookup key with
      | none =>
          apply hrest none
          rw [lookup_contentsFields, hlookup]
          rfl
      | some second =>
          have hsecond : second.Forall Value.Constructed :=
            (forallFields_iff _).mp hother _ (Entries.mem_of_lookup hlookup)
          refine Gives.bind (gives_mergeFallback_contents first second hvalue.1 hsecond) ?_
          intro kept hkept
          apply hrest kept
          rw [lookup_contentsFields, hlookup]
          exact hkept

end

-- A value that passed the checks falls back without an exception.
theorem gives_withFallback_contents {a b : Value ι} (ha : a.Forall Value.Constructed)
    (hb : b.Forall Value.Constructed) :
    Gives (withFallback objects a b) (fun c => c.contents = fallback a.contents b.contents)
      fun _ => False := by
  refine Gives.bind (gives_mergeFallback_contents objects a b ha hb) ?_
  intro r hr
  exact Gives.pure hr

end AsrServiceProxy.Config

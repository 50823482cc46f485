import AsrServiceProxy.Config.Environment
import AsrServiceProxy.Config.Resolve.Completeness
import AsrServiceProxy.Config.Resolve.Meaning
import AsrServiceProxy.Config.Resolve.Tables
import AsrServiceProxy.Config.WellMade

-- What `resolve` does to a value is to reduce it: every entry that it memoizes is a
-- reduction, and without a restriction nothing is left to resolve.
namespace AsrServiceProxy.Config

open CMemory Simulation Fuel Entries

-- No merge waits for its values, and no reference may come to nothing.
def Value.isStrict {ι : Type} : Value ι → Bool
  | .configReference _ expr _ => !expr.optional
  | .configDelayedMerge _ _ | .configDelayedMergeObject _ _ => false
  | _ => true

abbrev Value.Strict {ι : Type} (v : Value ι) : Prop := v.Forall fun w => w.isStrict = true

theorem Value.strict_of_resolved {v : Value ℕ} (h : v.resolved) : v.Strict := by
  refine Value.Forall.imp (fun w hw => ?_) v (v.forall_of_resolved h)
  cases w with
  | configReference | configDelayedMerge | configDelayedMergeObject => cases hw.1
  | _ => rfl

-- On an object without merges `peek_path` throws nothing and follows the keys.
theorem peekPath_of_strict {v : Value ℕ} (hobject : v.isObject = true) (h : v.Strict)
    (path : Path) : peekPath v path = .ok (v.descend path.keys) := by
  induction path generalizing v with
  | newKey first =>
      cases v with
      | simpleConfigObject id value ignores =>
          rw [peekPath, attemptPeekWithPartialResolve, Path.keys, Value.descend_cons, Value.child]
          cases value.lookup first <;> rfl
      | configDelayedMergeObject => cases h.1
      | _ => cases hobject
  | cons first next ih =>
      cases v with
      | simpleConfigObject id value ignores =>
          rw [peekPath, attemptPeekWithPartialResolve, Path.keys, Value.descend_cons, Value.child]
          cases hlookup : value.lookup first with
          | none => rfl
          | some w =>
              have hw : w.Strict := @Value.forall_of_child _ _ first _ _ h hlookup
              by_cases hobject' : w.isObject
              · simp only [if_pos hobject', ih hobject' hw]
                rfl
              · simp only [if_neg hobject', Option.bind_some]
                cases next <;>
                  rw [Path.keys, Value.descend_eq_none_of_not_isObject (Bool.eq_false_iff.mpr hobject')]
      | configDelayedMergeObject => cases h.1
      | _ => cases hobject

-- What a call that is restricted to `context` may return for `v`.
structure ReducesTo (sources : Sources) (context : Option Path) (v w : Value ℕ) : Prop where
  reduces : Reduces sources v.contents w.contents
  strict : w.Strict
  resolved : context = none → w.resolved = true
  clear : ∀ path, context = some path → Clear path.keys w.contents

theorem ReducesTo.comesTo {sources : Sources} {context : Option Path} {v w : Value ℕ}
    (h : ReducesTo sources context v w) (hw : w.resolved = true) :
    ComesTo sources v.contents w.contents :=
  h.reduces.comesTo (w.resolved_contents.trans hw)

theorem ReducesTo.of_comesTo {sources : Sources} {v w : Value ℕ}
    (h : ComesTo sources v.contents w.contents) (context : Option Path) :
    ReducesTo sources context v w := by
  have hw : w.resolved = true := w.resolved_contents.symm.trans h.resolved
  exact ⟨.value h, Value.strict_of_resolved hw, fun _ => hw, fun path _ => .of_resolved _ h.resolved⟩

theorem ReducesTo.of_resolved {sources : Sources} {context : Option Path} {v : Value ℕ}
    (h : v.resolved = true) : ReducesTo sources context v v :=
  .of_comesTo (Value.comesTo_self _ (v.resolved_contents.trans h)) context

theorem ReducesTo.keep (sources : Sources) {context : Option Path} {v : Value ℕ} (h : v.Strict)
    (hresolved : context = none → v.resolved = true) (hv : v.isUnmergeable = false)
    (hchild : ∀ key, v.child key = none) : ReducesTo sources context v v where
  reduces := .keep _
  strict := h
  resolved := hresolved
  clear := by
    intro path _
    have hchild' (key : Bytes) : v.contents.child key = none := by
      rw [Value.child_contents, hchild, Option.map_none]
    have hv' : v.contents.isUnmergeable = false := by rw [Value.isUnmergeable_contents, hv]
    cases path <;> exact ⟨hv', by simp [hchild']⟩

-- A field of an object, of which only the one the restriction names is resolved, and
-- that as far as the rest of the restriction says.
structure Modified (sources : Sources) (context : Option Path) (key : Bytes) (v w : Value ℕ) :
    Prop where
  reduces : Reduces sources v.contents w.contents
  strict : w.Strict
  resolved : context = none → w.resolved = true
  clear : ∀ path, context = some path → key = path.first → Clear path.keys.tail w.contents

def ModifiedFields (sources : Sources) (context : Option Path) (fields results : Fields ℕ) : Prop :=
  List.Forall₂ (fun x y => x.1 = y.1 ∧ Modified sources context x.1 x.2 y.2) fields results

section

variable {sources : Sources} {context : Option Path}

theorem ModifiedFields.contents {fields results : Fields ℕ}
    (h : ModifiedFields sources context fields results) :
    Matching (Reduces sources) (contentsFields fields) (contentsFields results) := by
  induction h with
  | nil => exact .nil
  | cons hfield _ ih => exact .cons ⟨hfield.1, hfield.2.reduces⟩ ih

theorem ModifiedFields.mem {fields results : Fields ℕ}
    (h : ModifiedFields sources context fields results) {y : Bytes × Value ℕ} (hy : y ∈ results) :
    ∃ v, Modified sources context y.1 v y.2 := by
  induction h with
  | nil => cases hy
  | cons hfield _ ih =>
      rcases List.mem_cons.mp hy with rfl | hy
      · exact ⟨_, hfield.1 ▸ hfield.2⟩
      · exact ih hy

theorem ModifiedFields.reducesTo {fields results : Fields ℕ}
    (h : ModifiedFields sources context fields results) (id id' : ℕ) (ignores : Bool) :
    ReducesTo sources context (.simpleConfigObject id fields ignores)
      (.simpleConfigObject id' results ignores) where
  reduces := .ofFields h.contents
  strict := by
    refine ⟨rfl, (forallFields_iff results).mpr fun y hy => ?_⟩
    obtain ⟨v, hmodified⟩ := h.mem hy
    exact hmodified.strict
  resolved := by
    intro hcontext
    refine resolvedFields_iff.mpr fun y hy => ?_
    obtain ⟨v, hmodified⟩ := h.mem hy
    exact hmodified.resolved hcontext
  clear := by
    intro path hpath
    have hkeys : path.keys = path.first :: path.keys.tail := by cases path <;> rfl
    rw [hkeys]
    refine ⟨rfl, fun u hu => ?_⟩
    rw [Value.child_contents, Option.map_eq_some_iff] at hu
    obtain ⟨w, hw, rfl⟩ := hu
    obtain ⟨v, hmodified⟩ := h.mem (mem_of_lookup hw)
    exact hmodified.clear path hpath rfl

theorem reducesTo_list {vs ws : List (Value ℕ)} (h : List.Forall₂ (ReducesTo sources none) vs ws)
    (id id' : ℕ) (context : Option Path) :
    ReducesTo sources context (.simpleConfigList id vs) (.simpleConfigList id' ws) := by
  refine .of_comesTo (.list ?_) context
  rw [contentsAll_eq, contentsAll_eq, List.forall₂_map_left_iff, List.forall₂_map_right_iff]
  exact h.imp fun _ _ hvw => hvw.comesTo (hvw.resolved rfl)

theorem gives_makeObject_fields (fields : Fields ℕ) (resolved ignores : Bool) :
    Gives (makeObject .numbered fields resolved ignores)
      (fun v => ∃ id, v = .simpleConfigObject id fields ignores) fun _ => True := by
  refine Gives.ite (fun _ => Gives.throw trivial) fun _ => ?_
  exact fun s => ⟨s, rfl⟩

theorem gives_makeList_elements (elements : List (Value ℕ)) (resolved : Bool) :
    Gives (makeList .numbered elements resolved)
      (fun v => ∃ id, v = .simpleConfigList id elements) fun _ => True := by
  refine Gives.ite (fun _ => Gives.throw trivial) fun _ => ?_
  exact fun s => ⟨s, rfl⟩

end

-- The tables while a config is resolved: the results are reductions, and only
-- references are marked, for as long as they are being resolved.
abbrev Reducing {α : Type} (sources : Sources) (m : Resolve α) (post : α → Prop) : Prop :=
  KeepsTables (fun key w => ReducesTo sources key.restrictToChild key.value w)
    (fun _ replacer => replacer = .cycle) m post

theorem Reducing.replacement {sources : Sources} (v : Value ℕ) :
    Reducing sources (replacement v) fun r => r = v := by
  intro s hs
  have hget : (get : Resolve ResolveState) s = some (.ok s, s) := rfl
  refine Always.bind_of_eq hget ?_
  cases hlookup : s.replacements.lookup v with
  | none =>
      have hpure : Reducing sources (pure v) fun r => r = v := .pure rfl
      exact hpure s hs
  | some replacer =>
      cases hs.replacements v replacer (mem_of_lookup hlookup)
      exact Maintains.throw trivial s hs

-- What the references of `root` are looked up in.
def Sources.of (environment : List (Bytes × Bytes)) (options : ConfigResolveOptions)
    (root : Value ℕ) : Sources :=
  { environment := environment, options := options, root := root.contents }

theorem gives_environmentObject (environment : List (Bytes × Bytes)) (options : ConfigResolveOptions)
    (root : Value ℕ) : Gives (envVariablesAsConfigObject environment) (fun env =>
      env.contents = (Sources.of environment options root).variables ∧ env.resolved = true)
      fun _ => True := by
  intro s
  obtain ⟨id, fields, s', hrun, hfields⟩ := envVariablesAsConfigObject_run environment s
  rw [hrun]
  refine ⟨?_, resolvedFields_environment hfields⟩
  rw [Value.contents, hfields, Sources.variables, Sources.of]

section

variable (environment : List (Bytes × Bytes)) (options : ConfigResolveOptions) {root : Value ℕ}
  {resolve : Option Path → Value ℕ → Resolve (Option (Value ℕ))} {sources : Sources}

-- What a look-up may find: the value that is meant, or one that it was reduced to.
abbrev FoundFor (sources : Sources) (found : Option (Value Unit)) (r : Option (Value ℕ)) : Prop :=
  Option.Rel (fun u w => Reduces sources u w.contents ∧ w.Strict) found r

variable (h : ∀ context v, v.Strict → Reducing sources (resolve context v)
    fun r => ∃ w, r = some w ∧ ReducesTo sources context v w)

include h

theorem reducing_restrictAndResolve (context restrictTo : Option Path) {v : Value ℕ}
    (hv : v.Strict) : Reducing sources (restrictAndResolve resolve context restrictTo v)
      fun r => ∃ w, r = some w ∧ ReducesTo sources restrictTo v w := by
  refine Maintains.ite (fun heq => ?_) fun _ => (h restrictTo v hv).inNewContext
  rw [heq]
  exact h context v hv

theorem reducing_findInObject (context : Option Path) {obj : Value ℕ} (hobj : obj.Strict)
    (path : Path) : Reducing sources (findInObject resolve context obj path) fun r =>
      ∃ found, LeadsTo sources obj.contents path.keys found ∧ FoundFor sources found r := by
  refine Maintains.tryCatch (Maintains.bind
    (reducing_restrictAndResolve h context (some path) hobj) ?_) fun e _ => .throw trivial
  rintro _ ⟨w, rfl, hw⟩
  refine .ite (fun hobject => KeepsTables.fromExcept fun r hr => ?_) fun _ => .throw trivial
  rw [peekPath_of_strict hobject hw.strict, Except.ok.injEq] at hr
  obtain ⟨found, hfound, hrel⟩ := hw.reduces.leadsTo (hw.clear path rfl)
  refine ⟨found, hfound, ?_⟩
  rw [Value.descend_contents, hr] at hrel
  cases r with
  | none =>
      cases hrel
      exact .none
  | some x =>
      cases hrel with
      | some hux => exact .some ⟨hux, Value.forall_of_descend hw.strict hr⟩

end

-- The value that a reference was found to be to.
def IsTarget (sources : Sources) (expr : SubstitutionExpression) (prefixLength : ℕ) (w : Value ℕ) :
    Prop :=
  ∃ u, Answers sources (.reference expr prefixLength) (some u) ∧ Reduces sources u w.contents ∧
    w.Strict

section

variable (environment : List (Bytes × Bytes)) (options : ConfigResolveOptions) {root : Value ℕ}
  {resolve : Option Path → Value ℕ → Resolve (Option (Value ℕ))}
  (hroot : root.Strict) (h : ∀ context v, v.Strict →
    Reducing (.of environment options root) (resolve context v)
      fun r => ∃ w, r = some w ∧ ReducesTo (.of environment options root) context v w)

include hroot h

theorem reducing_lookupUnprefixed (context : Option Path) (subst : SubstitutionExpression)
    (prefixLength : ℕ)
    (hfull : LeadsTo (.of environment options root) root.contents subst.path.keys none) :
    Reducing (.of environment options root)
      (lookupUnprefixed environment options root resolve context subst prefixLength)
      fun r => ∀ w, r = some w → IsTarget (.of environment options root) subst prefixLength w := by
  unfold lookupUnprefixed
  cases hpath : subst.path.subPath prefixLength with
  | none => exact .throw trivial
  | some path =>
      refine Maintains.bind KeepsTables.untrace fun _ _ => ?_
      refine Maintains.bind (KeepsTables.trace _) fun _ _ => ?_
      have hunprefixed : Reducing (.of environment options root)
          (if 0 < prefixLength then findInObject resolve context root path else pure none)
          fun r => ∃ found, (0 < prefixLength →
            LeadsTo (.of environment options root) root.contents path.keys found) ∧
              (prefixLength = 0 → found = none) ∧
                FoundFor (.of environment options root) found r := by
        refine Maintains.ite (fun hpositive => ?_) fun hzero => .pure ⟨none, ?_, fun _ => rfl, .none⟩
        · refine (reducing_findInObject h context hroot path).imp ?_
          rintro r ⟨found, hfound, hrel⟩
          exact ⟨found, fun _ => hfound, by omega, hrel⟩
        · exact fun hpositive => absurd hpositive hzero
      refine Maintains.bind hunprefixed ?_
      rintro r ⟨found, hfound, hzero, hrel⟩
      cases hrel with
      | @some u w hrel =>
          refine .pure ?_
          rintro _ ⟨⟩
          have hpositive : 0 < prefixLength := by
            rw [Nat.pos_iff_ne_zero]
            intro heq
            cases hzero heq
          exact ⟨u, .unprefixed hfull hpositive hpath (hfound hpositive), hrel⟩
      | none =>
          refine Maintains.ite (fun huse => ?_) fun _ => .pure (by simp)
          refine Maintains.bind (KeepsTables.fromMake
            (gives_environmentObject environment options root)) ?_
          rintro env ⟨hcontents, henv⟩
          refine (reducing_findInObject h context (Value.strict_of_resolved henv) path).imp ?_
          rintro r ⟨found, hfound', hrel⟩ w rfl
          cases hrel with
          | @some u w hrel =>
              have hclear : Clear path.keys env.contents :=
                .of_resolved _ (env.resolved_contents.trans henv)
              have hdescend := hfound'.unique hclear.leadsTo
              rw [hcontents] at hdescend
              exact ⟨u, .systemEnvironment hfull hpath hfound huse hdescend.symm, hrel⟩

theorem reducing_lookupSubst (context : Option Path) (subst : SubstitutionExpression)
    (prefixLength : ℕ) (id : ℕ) : Reducing (.of environment options root)
      (lookupSubst environment options root resolve context subst prefixLength)
      fun r => ∀ x, r = some x → ReducesTo (.of environment options root) context
        (.configReference id subst prefixLength) x := by
  refine Maintains.bind (KeepsTables.trace subst) fun _ _ => ?_
  refine KeepsTables.finallyDo ?_ KeepsTables.untrace
  have htarget (w : Value ℕ)
      (hw : IsTarget (.of environment options root) subst prefixLength w) :
      Reducing (.of environment options root) (resolve context w)
        fun r => ∀ x, r = some x → ReducesTo (.of environment options root) context
          (.configReference id subst prefixLength) x := by
    obtain ⟨u, htarget, hu, hw⟩ := hw
    refine (h context w hw).imp ?_
    rintro _ ⟨x, rfl, hx⟩ _ ⟨⟩
    exact ⟨.reference htarget (hu.trans hx.reduces), hx.strict, hx.resolved, hx.clear⟩
  refine Maintains.bind (reducing_findInObject h context hroot subst.path) ?_
  rintro result ⟨found, hfound, hrel⟩
  cases hrel with
  | @some u w hrel => exact htarget w ⟨u, .full hfound, hrel⟩
  | none =>
      refine Maintains.bind (reducing_lookupUnprefixed environment options hroot h context subst
        prefixLength hfound) fun result hresult => ?_
      cases result with
      | none => exact .pure (by simp)
      | some w => exact htarget w (hresult w rfl)

theorem reducing_resolveReference (context : Option Path) (id : ℕ) {expr : SubstitutionExpression}
    (prefixLength : ℕ) (hrequired : expr.optional = false) :
    Reducing (.of environment options root) (resolveReference environment options root resolve
      context (.configReference id expr prefixLength) expr prefixLength)
      fun r => ∃ w, r = some w ∧ ReducesTo (.of environment options root) context
        (.configReference id expr prefixLength) w := by
  refine Maintains.bind (KeepsTables.replace rfl) fun _ _ => ?_
  refine KeepsTables.finallyDo ?_ (KeepsTables.unreplace _)
  refine Maintains.bind (Maintains.tryCatch (reducing_lookupSubst environment options hroot h
    context expr prefixLength id) fun e _ => ?_) fun r hr => ?_
  · refine .ite (fun _ => .ite (fun hoptional => ?_) fun _ => .throw trivial)
      fun _ => .throw trivial
    rw [hrequired] at hoptional
    cases hoptional
  · refine .ite (fun _ => .throw trivial) fun hfound => ?_
    cases r with
    | none =>
        rw [hrequired] at hfound
        exact absurd (by decide) hfound
    | some w => exact .pure ⟨w, rfl, hr w rfl⟩

end

section

variable {sources : Sources} {resolve : Option Path → Value ℕ → Resolve (Option (Value ℕ))}
  (h : ∀ context v, v.Strict → Reducing sources (resolve context v)
    fun r => ∃ w, r = some w ∧ ReducesTo sources context v w)

include h

theorem reducing_resolvePieces (context : Option Path) {pieces : List (Value ℕ)}
    (hpieces : ∀ p ∈ pieces, p.Strict) : Reducing sources (resolvePieces resolve context pieces)
      fun results => List.Forall₂ (ReducesTo sources none) pieces results := by
  induction pieces with
  | nil => exact .pure .nil
  | cons p rest ih =>
      refine Maintains.bind (reducing_restrictAndResolve h context none
        (hpieces p List.mem_cons_self)) ?_
      rintro _ ⟨w, rfl, hw⟩
      refine Maintains.bind (ih fun q hq => hpieces q (List.mem_cons_of_mem p hq)) ?_
      intro results hresults
      exact .pure (.cons hw hresults)

theorem reducing_resolveConcatenation (context : Option Path) (id : ℕ) {pieces : List (Value ℕ)}
    (hpieces : ∀ p ∈ pieces, p.Strict) :
    Reducing sources (resolveConcatenation resolve context pieces)
      fun r => ∃ w, r = some w ∧ ReducesTo sources context (.configConcatenation id pieces) w := by
  refine Maintains.bind (reducing_resolvePieces h context hpieces) ?_
  intro results hresults
  have hresolved : ∀ w ∈ results, w.resolved := by
    intro w hw
    obtain ⟨v, hmem⟩ := mem_zip_right hresults.length_eq hw
    exact (List.forall₂_zip hresults hmem).resolved rfl
  refine Maintains.bind (KeepsTables.fromMake (gives_consolidate_contents .numbered hresolved)) ?_
  rintro joined ⟨-, hjoin⟩
  rcases joined with _ | ⟨w, _ | ⟨_, _⟩⟩
  · exact .throw trivial
  · refine .pure ⟨w, rfl, .of_comesTo (@ComesTo.concatenation _ _ (contentsAll results) _ ?_ hjoin)
      context⟩
    rw [contentsAll_eq, contentsAll_eq, List.forall₂_map_left_iff, List.forall₂_map_right_iff]
    exact hresults.imp fun _ _ hvw => hvw.comesTo (hvw.resolved rfl)
  · exact .throw trivial

theorem reducing_modifyChild (context : Option Path) (key : Bytes) {v : Value ℕ} (hv : v.Strict) :
    Reducing sources (modifyChild resolve context key v)
      fun r => ∃ w, r = some w ∧ Modified sources context key v w := by
  have hkeep (hcontext : context.isSome) (hkey : ∀ path, context = some path → key = path.first →
      path.remainder = none) : Modified sources context key v v := by
    refine ⟨.keep _, hv, ?_, fun path hpath hfirst => ?_⟩
    · rintro rfl
      cases hcontext
    · cases path with
      | newKey => trivial
      | cons => cases hkey _ hpath hfirst
  cases context with
  | none =>
      refine (h none v hv).imp ?_
      rintro _ ⟨w, rfl, hw⟩
      exact ⟨w, rfl, hw.reduces, hw.strict, hw.resolved, by simp⟩
  | some path =>
      refine Maintains.ite (fun hfirst => ?_) fun hother => .pure ⟨v, rfl, hkeep rfl ?_⟩
      · cases hremainder : path.remainder with
        | none =>
            refine .pure ⟨v, rfl, hkeep rfl ?_⟩
            rintro _ ⟨⟩ _
            exact hremainder
        | some remainder =>
            refine (reducing_restrictAndResolve h (some path) (some remainder) hv).imp ?_
            rintro _ ⟨w, rfl, hw⟩
            refine ⟨w, rfl, hw.reduces, hw.strict, by simp, ?_⟩
            rintro _ ⟨⟩ _
            cases path with
            | newKey => trivial
            | cons =>
                cases hremainder
                exact hw.clear _ rfl
      · rintro _ ⟨⟩ hfirst
        exact absurd hfirst hother

theorem reducing_modifyFields (context : Option Path) {fields : Fields ℕ}
    (hfields : ∀ field ∈ fields, field.2.Strict) :
    Reducing sources (modifyFields resolve context fields)
      fun r => ModifiedFields sources context fields r.1 ∧ (r.2 = false → r.1 = fields) := by
  induction fields with
  | nil => exact .pure ⟨.nil, fun _ => rfl⟩
  | cons field rest ih =>
      refine Maintains.bind (reducing_modifyChild h context field.1
        (hfields field List.mem_cons_self)) ?_
      rintro _ ⟨w, rfl, hw⟩
      refine Maintains.bind (ih fun x hx => hfields x (List.mem_cons_of_mem field hx)) ?_
      rintro ⟨results, changed⟩ ⟨hresults, hsame⟩
      refine .pure ⟨.cons ⟨rfl, hw⟩ hresults, fun hunchanged => ?_⟩
      rw [Bool.or_eq_false_iff, decide_eq_false_iff_not, not_not, Option.some.injEq] at hunchanged
      obtain ⟨rfl, hchanged⟩ := hunchanged
      obtain rfl : results = rest := hsame hchanged
      rfl

theorem reducing_resolveObject (context : Option Path) (id : ℕ) {value : Fields ℕ} (ignores : Bool)
    (hvalue : (Value.simpleConfigObject id value ignores).Strict) :
    Reducing sources
      (resolveObject resolve context (.simpleConfigObject id value ignores) value ignores)
      fun r => ∃ w, r = some w ∧
        ReducesTo sources context (.simpleConfigObject id value ignores) w := by
  refine Maintains.ite (fun hresolved => ?_) fun _ => ?_
  · exact .pure ⟨_, rfl, .of_resolved hresolved⟩
  refine Maintains.bind (reducing_modifyFields h context
    ((forallFields_iff value).mp hvalue.2)) ?_
  rintro ⟨results, changed⟩ ⟨hresults, hsame⟩
  refine Maintains.ite (fun _ => ?_) fun hunchanged => ?_
  · refine Maintains.bind (KeepsTables.fromMake (gives_makeObject_fields results _ ignores)) ?_
    rintro _ ⟨id', rfl⟩
    exact .pure ⟨_, rfl, hresults.reducesTo id id' ignores⟩
  · rw [Bool.not_eq_true] at hunchanged
    obtain rfl := hsame hunchanged
    exact .pure ⟨_, rfl, hresults.reducesTo id id ignores⟩

theorem reducing_modifyElements {value : List (Value ℕ)} (hvalue : ∀ v ∈ value, v.Strict) :
    Reducing sources (modifyElements resolve value)
      fun r => List.Forall₂ (ReducesTo sources none) value r.1 ∧ (r.2 = false → r.1 = value) := by
  induction value with
  | nil => exact .pure ⟨.nil, fun _ => rfl⟩
  | cons v rest ih =>
      refine Maintains.bind (h none v (hvalue v List.mem_cons_self)) ?_
      rintro _ ⟨w, rfl, hw⟩
      refine Maintains.bind (ih fun x hx => hvalue x (List.mem_cons_of_mem v hx)) ?_
      rintro ⟨results, changed⟩ ⟨hresults, hsame⟩
      refine .pure ⟨.cons hw hresults, fun hunchanged => ?_⟩
      rw [Bool.or_eq_false_iff, decide_eq_false_iff_not, not_not, Option.some.injEq] at hunchanged
      obtain ⟨rfl, hchanged⟩ := hunchanged
      obtain rfl : results = rest := hsame hchanged
      rfl

theorem reducing_resolveList (context : Option Path) (id : ℕ) {value : List (Value ℕ)}
    (hvalue : (Value.simpleConfigList id value).Strict) :
    Reducing sources (resolveList resolve context (.simpleConfigList id value) value)
      fun r => ∃ w, r = some w ∧ ReducesTo sources context (.simpleConfigList id value) w := by
  refine Maintains.ite (fun hresolved => ?_) fun _ => ?_
  · exact .pure ⟨_, rfl, .of_resolved hresolved⟩
  refine Maintains.ite (fun hcontext => ?_) fun _ => ?_
  · refine .pure ⟨_, rfl, .keep sources hvalue ?_ rfl fun _ => rfl⟩
    rintro rfl
    cases hcontext
  refine Maintains.bind (reducing_modifyElements h ((forallAll_iff value).mp hvalue.2)) ?_
  rintro ⟨results, changed⟩ ⟨hresults, hsame⟩
  refine Maintains.ite (fun _ => ?_) fun hunchanged => ?_
  · refine Maintains.bind (KeepsTables.fromMake (gives_makeList_elements results true)) ?_
    rintro _ ⟨id', rfl⟩
    exact .pure ⟨_, rfl, reducesTo_list hresults id id' context⟩
  · rw [Bool.not_eq_true] at hunchanged
    obtain rfl := hsame hunchanged
    exact .pure ⟨_, rfl, reducesTo_list hresults id id context⟩

end

section

variable (environment : List (Bytes × Bytes)) (options : ConfigResolveOptions) {root : Value ℕ}
  {resolve : Option Path → Value ℕ → Resolve (Option (Value ℕ))}
  (hroot : root.Strict) (h : ∀ context v, v.Strict →
    Reducing (.of environment options root) (resolve context v)
      fun r => ∃ w, r = some w ∧ ReducesTo (.of environment options root) context v w)

include hroot h

theorem reducing_resolveSubstitutions (context : Option Path) {self : Value ℕ} (hself : self.Strict) :
    Reducing (.of environment options root)
      (resolveSubstitutions environment options root resolve context self)
      fun r => ∃ w, r = some w ∧ ReducesTo (.of environment options root) context self w := by
  cases self with
  | configReference id expr prefixLength =>
      exact reducing_resolveReference environment options hroot h context id prefixLength
        (by simpa [Value.isStrict] using hself.node)
  | configConcatenation id pieces =>
      exact reducing_resolveConcatenation h context id ((forallAll_iff pieces).mp hself.2)
  | configDelayedMerge id stack => cases hself.1
  | configDelayedMergeObject id stack => cases hself.1
  | simpleConfigObject id value ignores => exact reducing_resolveObject h context id ignores hself
  | simpleConfigList id value => exact reducing_resolveList h context id hself
  | _ => exact .pure ⟨_, rfl, .of_resolved rfl⟩

theorem reducing_resolveMemoized (context : Option Path) {v : Value ℕ} (hv : v.Strict) :
    Reducing (.of environment options root)
      (resolveMemoized environment options root resolve context v)
      fun r => ∃ w, r = some w ∧ ReducesTo (.of environment options root) context v w := by
  have hmemoize (w : Value ℕ) (hw : ReducesTo (.of environment options root) context v w) :
      Reducing (.of environment options root) (memoize context v (some w)) fun _ => True := by
    refine Maintains.ite (fun hresolved => ?_) fun _ => ?_
    · refine KeepsTables.memoPut ?_
      rintro _ ⟨⟩
      exact .of_comesTo (hw.comesTo hresolved) none
    · cases context with
      | none => exact .throw trivial
      | some path =>
          refine KeepsTables.memoPut ?_
          rintro _ ⟨⟩
          exact hw
  have hchecking : Reducing (.of environment options root)
      (resolveCheckingReplacement environment options root resolve context v)
      fun r => ∃ w, r = some w ∧ ReducesTo (.of environment options root) context v w := by
    refine Maintains.bind (Reducing.replacement v) fun r hr => ?_
    refine Maintains.ite (fun hne => absurd hr hne) fun _ => ?_
    exact reducing_resolveSubstitutions environment options hroot h context hv
  have hfresh : Reducing (.of environment options root) (do
        let resolved ← resolveCheckingReplacement environment options root resolve context v
        memoize context v resolved
        return resolved)
      fun r => ∃ w, r = some w ∧ ReducesTo (.of environment options root) context v w := by
    refine Maintains.bind hchecking ?_
    rintro _ ⟨w, rfl, hw⟩
    exact Maintains.bind (hmemoize w hw) fun _ _ => .pure ⟨w, rfl, hw⟩
  refine Maintains.bind (KeepsTables.memoGet _) ?_
  intro full hfull
  cases full with
  | some w =>
      have hw := hfull w rfl
      exact .pure ⟨w, rfl, .of_comesTo (hw.comesTo (hw.resolved rfl)) context⟩
  | none =>
      refine Maintains.ite (fun _ => ?_) fun _ => hfresh
      refine Maintains.bind (KeepsTables.memoGet _) fun cached hcached => ?_
      cases cached with
      | none => exact hfresh
      | some w => exact .pure ⟨w, rfl, hcached w rfl⟩

end

theorem reducing_resolve (environment : List (Bytes × Bytes)) (options : ConfigResolveOptions)
    {root : Value ℕ} (hroot : root.Strict) (n : ℕ) (context : Option Path) (v : Value ℕ)
    (hv : v.Strict) : Reducing (.of environment options root)
      (resolve environment options root n context v)
      fun r => ∃ w, r = some w ∧ ReducesTo (.of environment options root) context v w := by
  induction n generalizing context v with
  | zero =>
      intro s _ r s' hrun
      cases hrun
  | succ n ih =>
      exact reducing_resolveMemoized environment options hroot ih context hv

-- What `SimpleConfig::resolve` returns is what the config comes to.
theorem resolveOutermost_comesTo (environment : List (Bytes × Bytes))
    (options : ConfigResolveOptions) {root : Value ℕ} (hroot : root.Strict) {depth nextId : ℕ}
    {r : Option (Value ℕ)} {s : ResolveState}
    (hrun : resolveOutermost environment options root depth root (.new nextId) =
      some (.ok r, s)) :
    ∃ w, r = some w ∧ w.resolved = true ∧
      ComesTo (.of environment options root) root.contents w.contents := by
  have hresolve : Reducing (.of environment options root)
      (resolveOutermost environment options root depth root)
      fun r => ∃ w, r = some w ∧ ReducesTo (.of environment options root) none root w :=
    Maintains.tryCatch (reducing_resolve environment options hroot depth none root hroot)
      fun e _ => .ite (fun _ => .throw trivial) fun _ => .throw trivial
  have hnew : Tables (fun key w => ReducesTo (.of environment options root) key.restrictToChild
      key.value w) (fun _ replacer => replacer = .cycle) (.new nextId) :=
    ⟨by simp [ResolveState.new], by simp [ResolveState.new]⟩
  obtain ⟨w, rfl, hw⟩ := (hresolve _ hnew _ _ hrun).2.1 r rfl
  exact ⟨w, rfl, hw.resolved rfl, hw.comesTo (hw.resolved rfl)⟩

end AsrServiceProxy.Config

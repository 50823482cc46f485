import AsrServiceProxy.Config.PathText.Theorems
import AsrServiceProxy.Config.Peek
import AsrServiceProxy.Lib.Fuel
import AsrServiceProxy.Utils.StringUtil.Lemmas

-- The variables of the environment as the fields of an object, and as the last
-- resort of a substitution.
namespace AsrServiceProxy.Config

open CMemory Fuel

-- A `std::unordered_map` of strings.
abbrev MapString := List (Bytes × Bytes)

-- `map[name] = value`
def MapString.put (map : MapString) (name value : Bytes) : MapString :=
  if (map.lookup name).isSome then
    map.map fun entry => if entry.1 = name then (name, value) else entry
  else map ++ [(name, value)]

-- `boost::split` with `is_any_of("=")`, which does not merge delimiters.
def splitAtEquals (s : Bytes) : List Bytes := s.splitOn 61

def loadPair (env : MapString) (envPair : Bytes) : MapString :=
  match splitAtEquals envPair with
  | [name, value] => env.put name value
  | _ => env

-- `ConfigImpl::load_env_variables` with the static map as it is before the call.
def loadEnvVariables (environ : List Bytes) (env : MapString) : MapString :=
  if env.isEmpty then environ.foldl loadPair env else env

-- An environment block, and its entries as the process finds them.
structure EnvBlock (entries : List (Bytes × Bytes)) : Prop where
  named : ∀ entry ∈ entries, entry.1 ≠ []
  plain : ∀ entry ∈ entries, (61 : UInt8) ∉ entry.1
  distinct : (entries.map Prod.fst).Nodup

def environOf (entries : List (Bytes × Bytes)) : List Bytes :=
  entries.map fun entry => entry.1 ++ 61 :: entry.2

-- The object has one string field for each entry and no other fields.
def ExposesEntries (entries : List (Bytes × Bytes)) (env : MapString) : Prop :=
  ∀ nextId, ∃ id fields nextId',
    envVariablesAsConfigObject env nextId = .ok (.simpleConfigObject id fields false) nextId' ∧
      (contentsFields fields).Perm
        (entries.map fun entry => (entry.1, Value.configString () entry.2))

-- `${NAME}` in a config that has no setting NAME; the recursion needs two levels.
def ReadsVariable (env : MapString) (name value : Bytes) : Prop :=
  ∀ (doubles : Doubles) (rootId id nextId n : ℕ) (fields : Fields ℕ) (ignores optional : Bool),
    fields.lookup name = none → ∃ path id' s, parsePath doubles name = .ok path ∧
      resolve env ⟨true⟩ (.simpleConfigObject rootId fields ignores) (n + 2) none
        (.configReference id ⟨path, optional⟩ 0) (ResolveState.new nextId) =
          some (.ok (some (.configString id' value)), s)

structure FaithfulEnvironment (entries : List (Bytes × Bytes)) : Prop where
  exposes : ExposesEntries entries (loadEnvVariables (environOf entries) [])
  resolves : ∀ entry ∈ entries, (∀ b ∈ entry.1, isalpha b) →
    ReadsVariable (loadEnvVariables (environOf entries) []) entry.1 entry.2

-- A second call gives the map of the first one.
theorem loadEnvVariables_again (environ : List Bytes) :
    loadEnvVariables environ (loadEnvVariables environ []) = loadEnvVariables environ [] := by
  by_cases hempty : (loadEnvVariables environ []).isEmpty
  · rw [List.isEmpty_iff.mp hempty]
    exact List.isEmpty_iff.mp hempty
  · conv_lhs => rw [loadEnvVariables, if_neg hempty]

theorem splitAtEquals_entry {name : Bytes} (hname : (61 : UInt8) ∉ name) (value : Bytes) :
    splitAtEquals (name ++ 61 :: value) = name :: value.splitOn 61 := by
  rw [splitAtEquals, List.splitOn_append_cons_self_of_not_mem hname]

theorem MapString.put_new {map : MapString} {name : Bytes} (h : name ∉ map.map Prod.fst)
    (value : Bytes) : map.put name value = map ++ [(name, value)] := by
  rw [MapString.put, if_neg]
  rw [Entries.isSome_lookup_iff]
  exact h

-- Only the entries whose values have no `=` are kept.
def keptEntries (entries : List (Bytes × Bytes)) : List (Bytes × Bytes) :=
  entries.filter fun entry => 61 ∉ entry.2

theorem loadPair_entry {env : MapString} {name : Bytes} (hname : (61 : UInt8) ∉ name)
    (hnew : name ∉ env.map Prod.fst) (value : Bytes) :
    loadPair env (name ++ 61 :: value) = if 61 ∉ value then env ++ [(name, value)] else env := by
  rw [loadPair, splitAtEquals_entry hname]
  by_cases hvalue : (61 : UInt8) ∉ value
  · rw [List.splitOn_eq_singleton hvalue, if_pos hvalue]
    exact MapString.put_new hnew value
  · rw [if_neg hvalue]
    obtain ⟨front, back, rfl⟩ := List.append_of_mem (not_not.mp hvalue)
    rw [List.splitOn_append_cons_self]
    obtain ⟨x, xs, hx⟩ := List.exists_cons_of_ne_nil (List.splitOn_ne_nil 61 front)
    obtain ⟨y, ys, hy⟩ := List.exists_cons_of_ne_nil (List.splitOn_ne_nil 61 back)
    rw [hx, hy]
    cases xs with
    | nil => rfl
    | cons x' xs => rfl

theorem foldl_loadPair {entries : List (Bytes × Bytes)} (h : EnvBlock entries) {env : MapString}
    (hnew : ∀ entry ∈ entries, entry.1 ∉ env.map Prod.fst) :
    (environOf entries).foldl loadPair env = env ++ keptEntries entries := by
  induction entries generalizing env with
  | nil => simp [environOf, keptEntries]
  | cons entry rest ih =>
      have hrest : EnvBlock rest :=
        ⟨fun e he => h.named e (List.mem_cons_of_mem entry he),
          fun e he => h.plain e (List.mem_cons_of_mem entry he),
          (List.nodup_cons.mp h.distinct).2⟩
      have hother : entry.1 ∉ rest.map Prod.fst := (List.nodup_cons.mp h.distinct).1
      have hrestNew : ∀ e ∈ rest, e.1 ∉ env.map Prod.fst :=
        fun e he => hnew e (List.mem_cons_of_mem entry he)
      show (environOf rest).foldl loadPair (loadPair env (entry.1 ++ 61 :: entry.2)) = _
      rw [loadPair_entry (h.plain entry List.mem_cons_self) (hnew entry List.mem_cons_self)]
      by_cases hvalue : (61 : UInt8) ∉ entry.2
      · rw [if_pos hvalue, ih hrest, keptEntries, keptEntries, List.filter_cons,
          if_pos (decide_eq_true hvalue), List.append_assoc, List.singleton_append]
        intro e he
        rw [List.map_append, List.mem_append, not_or]
        refine ⟨hrestNew e he, ?_⟩
        intro hmem
        rw [List.map_singleton, List.mem_singleton] at hmem
        exact hother (hmem ▸ List.mem_map_of_mem he)
      · rw [if_neg hvalue, ih hrest hrestNew, keptEntries, keptEntries, List.filter_cons,
          if_neg (by simpa using hvalue)]

theorem loadEnvVariables_eq {entries : List (Bytes × Bytes)} (h : EnvBlock entries) :
    loadEnvVariables (environOf entries) [] = keptEntries entries := by
  rw [loadEnvVariables, if_pos List.isEmpty_nil, foldl_loadPair h (by simp), List.nil_append]

-- The fields that are made of a map: its entries in their order.
theorem envStrings_run (env : MapString) (nextId : ℕ) : ∃ fields nextId',
    envStrings env nextId = .ok fields nextId' ∧
      contentsFields fields = env.map fun entry => (entry.1, Value.configString () entry.2) := by
  induction env generalizing nextId with
  | nil => exact ⟨[], nextId, rfl, rfl⟩
  | cons entry rest ih =>
      obtain ⟨fields, nextId', hrun, hfields⟩ := ih (nextId + 1)
      refine ⟨(entry.1, .configString nextId entry.2) :: fields, nextId', ?_, ?_⟩
      · rw [envStrings] at hrun ⊢
        rw [List.mapM_cons]
        simp only [bind, EStateM.bind, Objects.new, Objects.numbered, pure, EStateM.pure] at hrun ⊢
        rw [hrun]
      · rw [contentsFields, hfields]
        rfl

theorem resolvedFields_environment {env : MapString} {fields : Fields ℕ}
    (hfields : contentsFields fields =
      env.map fun entry => (entry.1, Value.configString () entry.2)) :
    Value.resolvedFields fields = true := by
  rw [← resolvedFields_contents, hfields, resolvedFields_iff]
  intro field hfield
  obtain ⟨entry, -, rfl⟩ := List.mem_map.mp hfield
  rfl

theorem envVariablesAsConfigObject_run (env : MapString) (nextId : ℕ) : ∃ id fields nextId',
    envVariablesAsConfigObject env nextId = .ok (.simpleConfigObject id fields false) nextId' ∧
      contentsFields fields = env.map fun entry => (entry.1, Value.configString () entry.2) := by
  obtain ⟨fields, nextId', hrun, hfields⟩ := envStrings_run env nextId
  refine ⟨nextId', fields, nextId' + 1, ?_, hfields⟩
  rw [envVariablesAsConfigObject]
  simp only [bind, EStateM.bind, hrun, makeObject, resolvedFields_environment hfields]
  rfl

theorem exposesEntries_iff {entries : List (Bytes × Bytes)} (h : EnvBlock entries) :
    ExposesEntries entries (loadEnvVariables (environOf entries) []) ↔
      ∀ entry ∈ entries, (61 : UInt8) ∉ entry.2 := by
  rw [loadEnvVariables_eq h]
  constructor
  · intro hexposes entry hentry
    obtain ⟨id, fields, nextId', hrun, hperm⟩ := hexposes 0
    obtain ⟨id', fields', nextId'', hrun', hfields⟩ :=
      envVariablesAsConfigObject_run (keptEntries entries) 0
    rw [hrun, EStateM.Result.ok.injEq, Value.simpleConfigObject.injEq] at hrun'
    rw [hrun'.1.2.1, hfields] at hperm
    have hlength := hperm.length_eq
    rw [List.length_map, List.length_map, keptEntries, List.length_filter_eq_length_iff] at hlength
    simpa using hlength entry hentry
  · intro hplain nextId
    obtain ⟨id, fields, nextId', hrun, hfields⟩ :=
      envVariablesAsConfigObject_run (keptEntries entries) nextId
    refine ⟨id, fields, nextId', hrun, ?_⟩
    rw [hfields, keptEntries, List.filter_eq_self.mpr fun e he => decide_eq_true (hplain e he)]

section

variable {α β : Type} {m : Resolve α} {s s' : ResolveState} {a : α}

-- Runs that return.
theorem bind_run (h : m s = some (.ok a, s')) (f : α → Resolve β) : (m >>= f) s = f a s' :=
  bind_eq_of_ok h

theorem tryCatch_run (h : m s = some (.ok a, s')) (handler : ConfigException → Resolve α) :
    (tryCatch m handler) s = some (.ok a, s') :=
  congrArg (fun x => x >>= _) h

end

section

variable {env : MapString} {options : ConfigResolveOptions} {root : Value ℕ}
  {inner : Option Path → Value ℕ → Resolve (Option (Value ℕ))} {s : ResolveState}

-- The state has nothing about a value.
structure Unknown (s : ResolveState) (v : Value ℕ) : Prop where
  memos : ∀ context, s.memos.lookup ⟨v, context⟩ = none
  replacements : s.replacements.lookup v = none

-- A value that has not been met is resolved by its class, and the result is remembered.
theorem resolveMemoized_run {v : Value ℕ} (h : Unknown s v) {context : Option Path}
    {r : Option (Value ℕ)} {s' s'' : ResolveState}
    (hrun : resolveSubstitutions env options root inner context v s = some (.ok r, s'))
    (hmemo : memoize context v r s' = some (.ok (), s'')) :
    resolveMemoized env options root inner context v s = some (.ok r, s'') := by
  have hget : ∀ restrictTo, Resolve.memoGet ⟨v, restrictTo⟩ s = some (.ok none, s) := by
    intro restrictTo
    rw [Resolve.memoGet, h.memos restrictTo]
    rfl
  have hreplacement : replacement v s = some (.ok v, s) := by
    have hstate : (get : Resolve ResolveState) s = some (.ok s, s) := rfl
    rw [replacement, bind_run hstate, h.replacements]
    rfl
  have hchecked : resolveCheckingReplacement env options root inner context v s =
      some (.ok r, s') := by
    rw [resolveCheckingReplacement, bind_run hreplacement, if_neg (by simp), hrun]
  have hrest : (do
      let resolved ← resolveCheckingReplacement env options root inner context v
      memoize context v resolved
      return resolved : Resolve (Option (Value ℕ))) s = some (.ok r, s'') := by
    rw [bind_run hchecked, bind_run hmemo]
    rfl
  rw [resolveMemoized, bind_run (hget none)]
  cases context with
  | none => exact hrest
  | some path => exact (bind_run (hget (some path)) _).trans hrest

-- The fields other than the one asked for stay as they are.
theorem modifyFields_run {path : Path} {fields : Fields ℕ}
    (h : ∀ field ∈ fields, field.1 ≠ path.first) (s : ResolveState) :
    modifyFields inner (some path) fields s = some (.ok (fields, false), s) := by
  induction fields with
  | nil => rfl
  | cons field rest ih =>
      obtain ⟨key, v⟩ := field
      have hchild : modifyChild inner (some path) key v s = some (.ok (some v), s) := by
        rw [modifyChild, if_neg (h _ List.mem_cons_self)]
        rfl
      rw [modifyFields, bind_run hchild,
        bind_run (ih fun field hfield => h field (List.mem_cons_of_mem _ hfield))]
      simp
      rfl

-- The state after a value was remembered.
def ResolveState.remember (s : ResolveState) (v : Value ℕ) (context : Option Path)
    (r : Option (Value ℕ)) : ResolveState :=
  { s with memos := (⟨v, context⟩, r) :: s.memos }

theorem Unknown.remember {v w : Value ℕ} (h : Unknown s v) (hne : v ≠ w) (context : Option Path)
    (r : Option (Value ℕ)) : Unknown (s.remember w context r) v := by
  refine ⟨fun restrictTo => ?_, h.replacements⟩
  have hkey : ((⟨v, restrictTo⟩ : MemoKey) == ⟨w, context⟩) = false := by
    simp [hne]
  rw [ResolveState.remember, List.lookup_cons, hkey]
  exact h.memos restrictTo

theorem memoize_resolved {w : Value ℕ} (h : w.resolved) (context : Option Path) (v : Value ℕ) :
    memoize context v (some w) s = some (.ok (), s.remember v none (some w)) := by
  unfold memoize
  rw [if_pos (by simpa using h)]
  rfl

variable (env options root) in
-- An object whose own fields need no look at, asked for one key.
theorem resolve_object_run (n : ℕ) {id : ℕ} {fields : Fields ℕ} {ignores : Bool} (path : Path)
    (h : Unknown s (.simpleConfigObject id fields ignores))
    (hfields : Value.resolvedFields fields ∨ ∀ field ∈ fields, field.1 ≠ path.first) :
    ∃ context, resolve env options root (n + 1) (some path) (.simpleConfigObject id fields ignores) s =
      some (.ok (some (.simpleConfigObject id fields ignores)),
        s.remember (.simpleConfigObject id fields ignores) context
          (some (.simpleConfigObject id fields ignores))) := by
  by_cases hresolved : Value.resolvedFields fields
  · refine ⟨none, resolveMemoized_run h ?_ (memoize_resolved
      (show Value.resolved (.simpleConfigObject id fields ignores) from hresolved) _ _)⟩
    show resolveObject _ _ _ _ _ s = _
    rw [resolveObject, if_pos hresolved]
    rfl
  · have hrun : resolveSubstitutions env options root (resolve env options root n) (some path)
        (.simpleConfigObject id fields ignores) s =
          some (.ok (some (.simpleConfigObject id fields ignores)), s) := by
      show resolveObject _ _ _ _ _ s = _
      rw [resolveObject, if_neg hresolved]
      exact bind_run (modifyFields_run (hfields.resolve_left hresolved) s) _
    refine ⟨some path, resolveMemoized_run h hrun ?_⟩
    unfold memoize
    rw [if_neg (by simpa [Value.resolved] using hresolved)]
    rfl

variable (env options root) in
theorem findInObject_run (n : ℕ) {id : ℕ} {fields : Fields ℕ} {ignores : Bool} (name : Bytes)
    (h : Unknown s (.simpleConfigObject id fields ignores))
    (hfields : Value.resolvedFields fields ∨ ∀ field ∈ fields, field.1 ≠ name) :
    ∃ context, findInObject (resolve env options root (n + 1)) none
        (.simpleConfigObject id fields ignores) (.newKey name) s =
      some (.ok (fields.lookup name), s.remember (.simpleConfigObject id fields ignores) context
        (some (.simpleConfigObject id fields ignores))) := by
  obtain ⟨context, hrun⟩ := resolve_object_run env options root n (.newKey name) h hfields
  refine ⟨context, tryCatch_run ?_ _⟩
  have hrestricted : restrictAndResolve (resolve env options root (n + 1)) none (some (.newKey name))
      (.simpleConfigObject id fields ignores) s =
        some (.ok (some (.simpleConfigObject id fields ignores)),
          s.remember (.simpleConfigObject id fields ignores) context
            (some (.simpleConfigObject id fields ignores))) := by
    rw [restrictAndResolve, if_neg (by simp), Resolve.inNewContext, hrun]
    rfl
  exact bind_run hrestricted _

-- The string that a variable has in the object of the environment.
theorem lookup_environment {name value : Bytes} {fields : Fields ℕ}
    (hfields : contentsFields fields = env.map fun entry => (entry.1, Value.configString () entry.2))
    (hlookup : env.lookup name = some value) :
    ∃ id, fields.lookup name = some (.configString id value) := by
  have hcontents := lookup_contentsFields name fields
  rw [hfields, Entries.lookup_map (Value.configString ()), hlookup] at hcontents
  cases hw : fields.lookup name with
  | none =>
      rw [hw] at hcontents
      cases hcontents
  | some w =>
      rw [hw] at hcontents
      cases w with
      | configString id text =>
          cases hcontents
          exact ⟨id, rfl⟩
      | _ => cases hcontents

-- The state has nothing about values other than references and objects without the setting.
def Fresh (name : Bytes) (s : ResolveState) : Prop :=
  ∀ v : Value ℕ, v.isReference = false → (v.isObject = false ∨ v.child name ≠ none) → Unknown s v

theorem Fresh.remember {name : Bytes} (h : Fresh name s) (root : Value ℕ) (hroot : root.isObject)
    (habsent : root.child name = none) (context : Option Path) (r : Option (Value ℕ)) :
    Fresh name (s.remember root context r) := by
  intro v hreference hv
  refine (h v hreference hv).remember ?_ context r
  rintro rfl
  rcases hv with hobject | hchild
  · rw [hroot] at hobject
    cases hobject
  · exact hchild habsent

variable (root) in
-- The look-up in the environment.
theorem lookupUnprefixed_run (n : ℕ) {name value : Bytes} (hfresh : Fresh name s)
    {traced : SubstitutionExpression} {rest : List SubstitutionExpression}
    (htrace : s.expressionTrace = traced :: rest) (henv : env.lookup name = some value)
    (subst : SubstitutionExpression) (hpath : subst.path = .newKey name) :
    ∃ id s', lookupUnprefixed env ⟨true⟩ root (resolve env ⟨true⟩ root (n + 1)) none subst 0 s =
        some (.ok (some (.configString id value)), s') ∧ Unknown s' (.configString id value) ∧
      s'.replacements = s.replacements ∧ s'.expressionTrace = subst :: rest := by
  obtain ⟨envId, fields, nextId, henvRun, hcontents⟩ := envVariablesAsConfigObject_run env s.nextId
  obtain ⟨id, hstring⟩ := lookup_environment hcontents henv
  have huntrace : Resolve.untrace s = some (.ok (), { s with expressionTrace := rest }) := by
    rw [Resolve.untrace, htrace]
  have hretrace : Resolve.trace { subst with path := .newKey name }
      { s with expressionTrace := rest } =
        some (.ok (), { s with expressionTrace := subst :: rest }) := by
    rw [← hpath]
    rfl
  have hmake : Resolve.fromMake (envVariablesAsConfigObject env)
      { s with expressionTrace := subst :: rest } = some (.ok (.simpleConfigObject envId fields false),
        { s with nextId := nextId, expressionTrace := subst :: rest }) := by
    rw [Resolve.fromMake, henvRun]
  have hobject := hfresh (.simpleConfigObject envId fields false) rfl
    (.inr (by rw [Value.child, hstring]; exact Option.some_ne_none _))
  have hunknown : Unknown { s with nextId := nextId, expressionTrace := subst :: rest }
      (.simpleConfigObject envId fields false) := ⟨hobject.memos, hobject.replacements⟩
  obtain ⟨context, hfind⟩ := findInObject_run env ⟨true⟩ root n name hunknown
    (.inl (resolvedFields_environment hcontents))
  rw [hstring] at hfind
  have hrun : lookupUnprefixed env ⟨true⟩ root (resolve env ⟨true⟩ root (n + 1)) none subst 0 s =
      some (.ok (some (.configString id value)),
        ResolveState.remember { s with nextId := nextId, expressionTrace := subst :: rest }
          (.simpleConfigObject envId fields false) context
            (some (.simpleConfigObject envId fields false))) := by
    rw [lookupUnprefixed, hpath]
    refine (bind_run huntrace _).trans ((bind_run hretrace _).trans ?_)
    exact (bind_run hmake _).trans hfind
  have hv := hfresh (.configString id value) rfl (.inl rfl)
  have hv' : Unknown { s with nextId := nextId, expressionTrace := subst :: rest }
      (.configString id value) := ⟨hv.memos, hv.replacements⟩
  exact ⟨id, _, hrun, hv'.remember (w := .simpleConfigObject envId fields false) (by simp) context
    (some (.simpleConfigObject envId fields false)), rfl, rfl⟩

variable (env) in
theorem lookupSubst_run (n id : ℕ) {fields : Fields ℕ} (ignores : Bool) {name value : Bytes}
    (hfresh : Fresh name s) (hroot : Unknown s (.simpleConfigObject id fields ignores))
    (habsent : fields.lookup name = none) (henv : env.lookup name = some value)
    (subst : SubstitutionExpression) (hpath : subst.path = .newKey name) :
    ∃ id' s', lookupSubst env ⟨true⟩ (.simpleConfigObject id fields ignores)
        (resolve env ⟨true⟩ (.simpleConfigObject id fields ignores) (n + 1)) none subst 0 s =
      some (.ok (some (.configString id' value)), s') ∧ s'.replacements = s.replacements := by
  have hkeys : ∀ field ∈ fields, field.1 ≠ name := by
    intro field hfield heq
    exact Entries.lookup_eq_none_iff.mp habsent (heq ▸ List.mem_map_of_mem hfield)
  have htrace : Resolve.trace subst s =
      some (.ok (), { s with expressionTrace := subst :: s.expressionTrace }) := rfl
  have hroot' : Unknown { s with expressionTrace := subst :: s.expressionTrace }
      (.simpleConfigObject id fields ignores) := ⟨hroot.memos, hroot.replacements⟩
  obtain ⟨context, hfind⟩ := findInObject_run env ⟨true⟩ (.simpleConfigObject id fields ignores) n
    name hroot' (.inr hkeys)
  rw [habsent] at hfind
  have hfresh' : Fresh name { s with expressionTrace := subst :: s.expressionTrace } :=
    fun v hv hv' => ⟨(hfresh v hv hv').memos, (hfresh v hv hv').replacements⟩
  have hfresh'' := hfresh'.remember (.simpleConfigObject id fields ignores) rfl habsent context
    (some (.simpleConfigObject id fields ignores))
  obtain ⟨id', s₁, hlookup, hunknown, hreplacements, htrace₁⟩ := lookupUnprefixed_run
    (.simpleConfigObject id fields ignores) n hfresh'' rfl henv subst hpath
  have hresult : resolve env ⟨true⟩ (.simpleConfigObject id fields ignores) (n + 1) none
      (.configString id' value) s₁ = some (.ok (some (.configString id' value)),
        s₁.remember (.configString id' value) none (some (.configString id' value))) :=
    resolveMemoized_run hunknown rfl (memoize_resolved rfl none _)
  have hafter : Resolve.untrace (s₁.remember (.configString id' value) none
      (some (.configString id' value))) = some (.ok (),
        { s₁.remember (.configString id' value) none (some (.configString id' value)) with
          expressionTrace := s.expressionTrace }) := by
    have htrace₂ : (s₁.remember (.configString id' value) none
      (some (.configString id' value))).expressionTrace = subst :: s.expressionTrace := htrace₁
    rw [Resolve.untrace, htrace₂]
  have hrun : lookupSubst env ⟨true⟩ (.simpleConfigObject id fields ignores)
      (resolve env ⟨true⟩ (.simpleConfigObject id fields ignores) (n + 1)) none subst 0 s =
        some (.ok (some (.configString id' value)),
          { s₁.remember (.configString id' value) none (some (.configString id' value)) with
            expressionTrace := s.expressionTrace }) := by
    rw [lookupSubst, bind_run htrace, hpath]
    refine Resolve.finallyDo_run ?_ hafter
    exact (bind_run hfind _).trans ((bind_run hlookup _).trans hresult)
  exact ⟨id', _, hrun, hreplacements⟩

-- A substitution that only the environment can answer.
theorem resolve_reference_run {env : MapString} {name value : Bytes} (henv : env.lookup name = some value)
    (rootId id nextId n : ℕ) {fields : Fields ℕ} (ignores optional : Bool)
    (habsent : fields.lookup name = none) :
    ∃ id' s, resolve env ⟨true⟩ (.simpleConfigObject rootId fields ignores) (n + 2) none
      (.configReference id ⟨.newKey name, optional⟩ 0) (ResolveState.new nextId) =
        some (.ok (some (.configString id' value)), s) := by
  let self : Value ℕ := .configReference id ⟨.newKey name, optional⟩ 0
  let s₁ : ResolveState := { ResolveState.new nextId with replacements := [(self, .cycle)] }
  have hunknown : ∀ v : Value ℕ, v.isReference = false → Unknown s₁ v := by
    intro v hv
    refine ⟨fun _ => rfl, ?_⟩
    have hne : (v == self) = false := by
      rw [beq_eq_false_iff_ne]
      rintro rfl
      cases hv
    show List.lookup v [(self, ResolveReplacer.cycle)] = none
    rw [List.lookup_cons, hne]
    rfl
  obtain ⟨id', s₂, hlookup, hreplacements⟩ := lookupSubst_run env n
    rootId ignores (fun v hv _ => hunknown v hv) (hunknown _ rfl) habsent henv
    ⟨.newKey name, optional⟩ rfl
  have hreplace : Resolve.replace self .cycle (ResolveState.new nextId) = some (.ok (), s₁) := rfl
  have hunreplace : Resolve.unreplace self s₂ =
      some (.ok (), { s₂ with replacements := s₂.replacements.filter fun r => r.1 ≠ self }) := by
    have hself : s₂.replacements.lookup self = some .cycle := by
      rw [hreplacements]
      show List.lookup self [(self, ResolveReplacer.cycle)] = _
      rw [List.lookup_cons, beq_self_eq_true]
    rw [Resolve.unreplace, hself]
    rfl
  have hrun : resolveSubstitutions env ⟨true⟩ (.simpleConfigObject rootId fields ignores)
      (resolve env ⟨true⟩ (.simpleConfigObject rootId fields ignores) (n + 1)) none self
        (ResolveState.new nextId) = some (.ok (some (.configString id' value)),
          { s₂ with replacements := s₂.replacements.filter fun r => r.1 ≠ self }) := by
    show resolveReference _ _ _ _ _ _ _ _ _ = _
    rw [resolveReference, bind_run hreplace]
    exact Resolve.finallyDo_run (bind_run (tryCatch_run hlookup _) _) hunreplace
  exact ⟨id', _, resolveMemoized_run ⟨fun _ => rfl, rfl⟩ hrun (memoize_resolved rfl none self)⟩

-- A name of letters is a path of one key.
theorem parsePath_letters (doubles : Doubles) {name : Bytes} (hne : name ≠ [])
    (h : ∀ b ∈ name, isalpha b) : parsePath doubles name = .ok (.newKey name) := by
  have hspace : ∀ b, isalpha b = true → StringUtil.isspace b = false ∧ b ≠ 46 := by
    apply forall_byte
    decide +kernel
  have htrim : trimCopy name = name := trimCopy_eq_self fun b hb => (hspace b (h b hb)).1
  have hperiod : (46 : UInt8) ∉ name := fun hmem => (hspace 46 (h 46 hmem)).2 rfl
  have hsafe : hasUnsafeChars name = false := by
    rw [hasUnsafeChars, List.any_eq_false]
    intro b hb
    simp [h b hb]
  have hhead : name.head? ≠ some 46 := fun heq => hperiod (List.mem_of_head? heq)
  have hlast : name.getLast? ≠ some 46 := fun heq => hperiod (List.mem_of_getLast? heq)
  have hdots : StringUtil.find (ascii "..") name = none := by
    rw [StringUtil.find_eq_none_iff]
    intro hinfix
    exact hperiod (List.IsInfix.subset hinfix (by decide))
  have hfind : name.findIdx? (· = 46) = none := by
    rw [List.findIdx?_eq_none_iff]
    intro b hb
    exact decide_eq_false fun heq => hperiod (heq ▸ hb)
  have hfast : speculativeFastParsePath name = some (.newKey name) := by
    unfold speculativeFastParsePath
    rw [htrim, if_neg (by simpa using hne), if_neg (by simp [hsafe]),
      if_neg (by simp [hhead, hlast, hdots]), appendPathString, hfind]
    rfl
  rw [parsePath, hfast]

-- The environment is exposed as it is exactly when no value has an `=` in it.
theorem faithfulEnvironment_iff {entries : List (Bytes × Bytes)} (h : EnvBlock entries) :
    FaithfulEnvironment entries ↔ ∀ entry ∈ entries, (61 : UInt8) ∉ entry.2 := by
  constructor
  · intro hfaithful
    exact (exposesEntries_iff h).mp hfaithful.exposes
  · intro hplain
    refine ⟨(exposesEntries_iff h).mpr hplain, ?_⟩
    intro entry hentry hletters doubles rootId id nextId n fields ignores optional habsent
    have hkept : keptEntries entries = entries :=
      List.filter_eq_self.mpr fun e he => decide_eq_true (hplain e he)
    have hlookup : (loadEnvVariables (environOf entries) []).lookup entry.1 = some entry.2 := by
      rw [loadEnvVariables_eq h, hkept]
      exact Entries.lookup_of_mem h.distinct hentry
    obtain ⟨id', s, hrun⟩ := resolve_reference_run hlookup rootId id nextId n ignores optional habsent
    exact ⟨_, id', s, parsePath_letters doubles (h.named entry hentry) hletters, hrun⟩

-- `HOME=/root` and `EMPTY=`
theorem faithfulEnvironment_home :
    FaithfulEnvironment [(ascii "HOME", ascii "/root"), (ascii "EMPTY", [])] ↔
      ∀ entry ∈ [(ascii "HOME", ascii "/root"), (ascii "EMPTY", [])], (61 : UInt8) ∉ entry.2 :=
  faithfulEnvironment_iff ⟨by decide, by decide, by decide⟩

-- `OPTS=a=b`
theorem not_faithfulEnvironment_equals :
    loadEnvVariables (environOf [(ascii "OPTS", ascii "a=b")]) [] = [] ∧
      ¬FaithfulEnvironment [(ascii "OPTS", ascii "a=b")] := by
  have hlost : loadEnvVariables (environOf [(ascii "OPTS", ascii "a=b")]) [] = [] := by decide
  refine ⟨hlost, fun h => ?_⟩
  obtain ⟨id, fields, nextId, hrun, hperm⟩ := h.exposes 0
  rw [hlost] at hrun
  cases hrun
  exact absurd hperm.length_eq (by decide)

end

end AsrServiceProxy.Config

import AsrServiceProxy.Config.Merge

-- Substitutions: how references are looked up in the root object and how cycles
-- of them are cut by the table of replacements.
namespace AsrServiceProxy.Config

open CMemory

-- Two pointers are equal when they are to the same object, that is to values
-- that agree in all their parts with the identities of these.
mutual

def Value.same {ι : Type} [DecidableEq ι] : Value ι → Value ι → Bool
  | .configNull a, .configNull b => a = b
  | .configBoolean a x, .configBoolean b y => a = b ∧ x = y
  | .configInt a x s, .configInt b y t => a = b ∧ x = y ∧ s = t
  | .configInt64 a x s, .configInt64 b y t => a = b ∧ x = y ∧ s = t
  | .configDouble a s, .configDouble b t => a = b ∧ s = t
  | .configString a s, .configString b t => a = b ∧ s = t
  | .simpleConfigList a xs, .simpleConfigList b ys => a = b && sameAll xs ys
  | .simpleConfigObject a xs i, .simpleConfigObject b ys j => a = b && i = j && sameFields xs ys
  | .configReference a e m, .configReference b f n => a = b ∧ e = f ∧ m = n
  | .configConcatenation a xs, .configConcatenation b ys => a = b && sameAll xs ys
  | .configDelayedMerge a xs, .configDelayedMerge b ys => a = b && sameAll xs ys
  | .configDelayedMergeObject a xs, .configDelayedMergeObject b ys => a = b && sameAll xs ys
  | _, _ => false

def sameAll {ι : Type} [DecidableEq ι] : List (Value ι) → List (Value ι) → Bool
  | [], [] => true
  | x :: xs, y :: ys => x.same y && sameAll xs ys
  | _, _ => false

def sameFields {ι : Type} [DecidableEq ι] :
    List (Bytes × Value ι) → List (Bytes × Value ι) → Bool
  | [], [] => true
  | (k, x) :: xs, (l, y) :: ys => k = l && x.same y && sameFields xs ys
  | _, _ => false

end

mutual

theorem Value.same_iff {ι : Type} [DecidableEq ι] : ∀ v w : Value ι, v.same w ↔ v = w
  | .configNull a, w => by cases w <;> simp [Value.same]
  | .configBoolean a x, w => by cases w <;> simp [Value.same]
  | .configInt a x s, w => by cases w <;> simp [Value.same]
  | .configInt64 a x s, w => by cases w <;> simp [Value.same]
  | .configDouble a s, w => by cases w <;> simp [Value.same]
  | .configString a s, w => by cases w <;> simp [Value.same]
  | .simpleConfigList a xs, w => by cases w <;> simp [Value.same, sameAll_iff xs]
  | .simpleConfigObject a xs i, w => by
      cases w <;> simp [Value.same, sameFields_iff xs]
      tauto
  | .configReference a e m, w => by cases w <;> simp [Value.same]
  | .configConcatenation a xs, w => by cases w <;> simp [Value.same, sameAll_iff xs]
  | .configDelayedMerge a xs, w => by cases w <;> simp [Value.same, sameAll_iff xs]
  | .configDelayedMergeObject a xs, w => by cases w <;> simp [Value.same, sameAll_iff xs]

theorem sameAll_iff {ι : Type} [DecidableEq ι] : ∀ vs ws : List (Value ι), sameAll vs ws ↔ vs = ws
  | [], ws => by cases ws <;> simp [sameAll]
  | v :: vs, ws => by cases ws <;> simp [sameAll, Value.same_iff v, sameAll_iff vs]

theorem sameFields_iff {ι : Type} [DecidableEq ι] :
    ∀ vs ws : List (Bytes × Value ι), sameFields vs ws ↔ vs = ws
  | [], ws => by cases ws <;> simp [sameFields]
  | (k, v) :: vs, ws => by
      rcases ws with _ | ⟨⟨l, w⟩, ws⟩
      · simp [sameFields]
      · simp [sameFields, Value.same_iff v, sameFields_iff vs]

end

instance {ι : Type} [DecidableEq ι] : DecidableEq (Value ι) := fun v w =>
  decidable_of_iff (v.same w) (v.same_iff w)

-- What a value is replaced by while it is being resolved: nothing, or what is
-- left of a merge stack, which is made when it is first asked for.
inductive ResolveReplacer where
  | cycle
  | delayedMerge (stack : List (Value ℕ)) (skipping : ℕ) (replacement : Option (Value ℕ))

structure MemoKey where
  value : Value ℕ
  restrictToChild : Option Path
deriving DecidableEq

-- `expressionTrace` is that of the current context, the last expression first.
structure ResolveState where
  nextId : ℕ
  memos : List (MemoKey × Option (Value ℕ))
  replacements : List (Value ℕ × ResolveReplacer)
  expressionTrace : List SubstitutionExpression

-- `none` is a recursion that was given too few levels.
abbrev Resolve := ExceptT ConfigException (StateT ResolveState Option)

structure ConfigResolveOptions where
  useSystemEnvironment : Bool

namespace Resolve

def fromMake {α : Type} (m : Make ℕ α) : Resolve α := fun s =>
  match m s.nextId with
  | .ok a n => some (.ok a, { s with nextId := n })
  | .error e n => some (.error e, { s with nextId := n })

def fromExcept {α : Type} (m : Except ConfigException α) : Resolve α := fun s => some (m, s)

-- `after` is done whether `m` returns or throws.
def finallyDo {α : Type} (m : Resolve α) (after : Resolve Unit) : Resolve α := do
  let result ← (ExceptT.lift m.run : Resolve (Except ConfigException α))
  after
  fromExcept result

theorem finallyDo_run {α : Type} {m : Resolve α} {after : Resolve Unit} {s s' s'' : ResolveState}
    {r : Except ConfigException α} (h : m s = some (r, s')) (hafter : after s' = some (.ok (), s'')) :
    finallyDo m after s = some (r, s'') := by
  have hlift : (ExceptT.lift m.run : Resolve (Except ConfigException α)) s =
      some (.ok r, s') := congrArg (fun x => x >>= _) h
  calc finallyDo m after s
      = (after >>= fun _ => fromExcept r : Resolve α) s' := congrArg (fun x => x >>= _) hlift
    _ = (fromExcept r : Resolve α) s'' := congrArg (fun x => x >>= _) hafter

-- A new context starts with a copy of the trace, and the old one has its own.
def inNewContext {α : Type} (m : Resolve α) : Resolve α := fun s =>
  (m s).map fun result =>
    (result.1, { result.2 with expressionTrace := s.expressionTrace })

def trace (expr : SubstitutionExpression) : Resolve Unit := fun s =>
  some (.ok (), { s with expressionTrace := expr :: s.expressionTrace })

def untrace : Resolve Unit := fun s =>
  match s.expressionTrace with
  | [] => some (.error (.undefinedBehaviour "pop_back of an empty vector"), s)
  | _ :: rest => some (.ok (), { s with expressionTrace := rest })

-- A null value in the table is as good as none.
def memoGet (key : MemoKey) : Resolve (Option (Value ℕ)) := fun s =>
  some (.ok (s.memos.lookup key).join, s)

def memoPut (key : MemoKey) (value : Option (Value ℕ)) : Resolve Unit := fun s =>
  some (.ok (), { s with memos := (key, value) :: s.memos })

def replace (value : Value ℕ) (replacer : ResolveReplacer) : Resolve Unit := fun s =>
  if (s.replacements.lookup value).isSome then
    some (.error (.bugOrBroken "should not have replaced the same value twice: "), s)
  else some (.ok (), { s with replacements := (value, replacer) :: s.replacements })

def unreplace (value : Value ℕ) : Resolve Unit := fun s =>
  if (s.replacements.lookup value).isNone then
    some (.error (.bugOrBroken "unreplace() without replace(): "), s)
  else some (.ok (), { s with replacements := s.replacements.filter fun r => r.1 ≠ value })

end Resolve

-- `ConfigDelayedMerge::make_replacement`
def makeReplacement (stack : List (Value ℕ)) (skipping : ℕ) : Make ℕ (Value ℕ) :=
  match stack.drop skipping with
  | [] => throw .notPossibleToResolve
  | v :: rest => rest.foldlM (withFallback .numbered) v

def storeReplacement (replacement : Value ℕ) : ResolveReplacer → ResolveReplacer
  | .delayedMerge stack skipping _ => .delayedMerge stack skipping (some replacement)
  | .cycle => .cycle

open Resolve

-- `ResolveSource::replacement`
def replacement (value : Value ℕ) : Resolve (Value ℕ) := do
  match (← get).replacements.lookup value with
  | none => return value
  | some .cycle => throw .notPossibleToResolve
  | some (.delayedMerge _ _ (some v)) => return v
  | some (.delayedMerge stack skipping none) => do
      let v ← fromMake (makeReplacement stack skipping)
      modify fun s => { s with
        replacements := s.replacements.map fun r =>
          if r.1 = value then (r.1, storeReplacement v r.2) else r }
      return v

-- The key of an object that may not be resolved yet. Only objects are asked.
mutual

def attemptPeekWithPartialResolve (key : Bytes) :
    Value ℕ → Except ConfigException (Option (Value ℕ))
  | .simpleConfigObject _ value _ => .ok (value.lookup key)
  | .configDelayedMergeObject _ stack => peekLayers key stack
  | _ => .error (.undefinedBehaviour "not an object")

-- The layers of a merge stack from the first on.
def peekLayers (key : Bytes) : List (Value ℕ) → Except ConfigException (Option (Value ℕ))
  | [] => .error (.bugOrBroken "_delayed merge stack does not contain any unmergeable values")
  | layer :: rest =>
      if layer.isObject then do
        match ← attemptPeekWithPartialResolve key layer with
        | some v => if v.ignoresFallbacks then return some v else peekLayers key rest
        | none =>
            if layer.isUnmergeable then
              .error (.bugOrBroken "should not be reached: unmergeable object returned null value")
            else peekLayers key rest
      else if layer.isUnmergeable then
        .error (.notResolved "_be sure to Config#resolve() before using a config object.")
      else if ¬layer.resolved then
        match layer with
        | .simpleConfigList _ _ => .ok none
        | _ => .error (.bugOrBroken "_expecting a list here, not ")
      else if ¬layer.ignoresFallbacks then
        .error (.bugOrBroken "resolved non-object should ignore fallbacks")
      else .ok none

end

-- `ConfigImpl::improve_not_resolved`
def improveNotResolved : ConfigException → ConfigException
  | .notResolved _ => .notResolved " has not been resolved, you need to call Config::resolve()"
  | e => e

-- `AbstractConfigObject::peek_path` without a context
def peekPath : Value ℕ → Path → Except ConfigException (Option (Value ℕ))
  | self, .newKey first => (attemptPeekWithPartialResolve first self).mapError improveNotResolved
  | self, .cons first next =>
      match attemptPeekWithPartialResolve first self with
      | .error e => .error (improveNotResolved e)
      | .ok none => .ok none
      | .ok (some v) =>
          if v.isObject then (peekPath v next).mapError improveNotResolved else .ok none

-- `ConfigImpl::env_variables_as_config_object`, made anew by each call from the
-- map of the variables.
def envStrings (environment : List (Bytes × Bytes)) : Make ℕ (Fields ℕ) :=
  environment.mapM fun entry => do
    return (entry.1, .configString (← Objects.numbered.new) entry.2)

def envVariablesAsConfigObject (environment : List (Bytes × Bytes)) : Make ℕ (Value ℕ) := do
  makeObject .numbered (← envStrings environment) true false

section

variable (environment : List (Bytes × Bytes)) (options : ConfigResolveOptions) (root : Value ℕ)
  (resolve : Option Path → Value ℕ → Resolve (Option (Value ℕ)))

-- `context->restrict(restrict_to)->resolve(value)`
def restrictAndResolve (context restrictTo : Option Path) (value : Value ℕ) :
    Resolve (Option (Value ℕ)) :=
  if restrictTo = context then resolve context value
  else inNewContext (resolve restrictTo value)

-- `ResolveSource::find_in_object`, which is `peek_path` with the context.
def findInObject (context : Option Path) (obj : Value ℕ) (path : Path) :
    Resolve (Option (Value ℕ)) :=
  tryCatch (do
    match ← restrictAndResolve resolve context (some path) obj with
    | none => throw (.undefinedBehaviour "null value")
    | some partiallyResolved =>
        if partiallyResolved.isObject then fromExcept (peekPath partiallyResolved path)
        else throw (.bugOrBroken "resolved object to non-object "))
    fun e => throw (improveNotResolved e)

-- The look-ups that follow when the full path is not there: relative to the root
-- file, and in the environment.
def lookupUnprefixed (context : Option Path) (subst : SubstitutionExpression) (prefixLength : ℕ) :
    Resolve (Option (Value ℕ)) := do
  match subst.path.subPath prefixLength with
  | none => throw (.undefinedBehaviour "null path")
  | some path =>
      untrace
      trace { subst with path := path }
      match ← (if 0 < prefixLength then findInObject resolve context root path
        else pure none) with
      | some v => return some v
      | none =>
          if options.useSystemEnvironment then
            let env ← fromMake (envVariablesAsConfigObject environment)
            findInObject resolve context env path
          else return none

def lookupSubst (context : Option Path) (subst : SubstitutionExpression) (prefixLength : ℕ) :
    Resolve (Option (Value ℕ)) := do
  trace subst
  finallyDo (do
    let result ← match ← findInObject resolve context root subst.path with
      | some v => pure (some v)
      | none => lookupUnprefixed environment options root resolve context subst prefixLength
    match result with
    | none => return none
    | some v => resolve context v) untrace

-- `ConfigReference::resolve_substitutions`
def resolveReference (context : Option Path) (self : Value ℕ) (expr : SubstitutionExpression)
    (prefixLength : ℕ) : Resolve (Option (Value ℕ)) := do
  replace self .cycle
  finallyDo (do
    let v ← tryCatch (lookupSubst environment options root resolve context expr prefixLength)
      fun e =>
        if e = .notPossibleToResolve then
          if expr.optional then return none
          else throw (.unresolvedSubstitution " was part of a cycle of substitutions involving ")
        else throw e
    if v.isNone && ¬expr.optional then throw (.unresolvedSubstitution "")
    return v) (unreplace self)

-- `merged` with the next value of a stack.
def mergeResolved : Option (Value ℕ) → Option (Value ℕ) → Make ℕ (Option (Value ℕ))
  | merged, none => return merged
  | none, some v => return some v
  | some merged, some v => do return some (← withFallback .numbered merged v)

-- A value of a merge stack; while a reference or a concatenation is resolved, the
-- merge itself stands for what is left of its stack.
def resolveLayer (context : Option Path) (self : Value ℕ) (stack : List (Value ℕ)) (count : ℕ)
    (v : Value ℕ) : Resolve (Option (Value ℕ)) := do
  if v.isDelayedMerge then
    throw (.bugOrBroken "_a delayed merge should not contain another one: ")
  if v.isUnmergeable then
    replace self (.delayedMerge stack (count + 1) none)
    finallyDo (resolve context v) (unreplace self)
  else resolve context v

def resolveStackLoop (context : Option Path) (self : Value ℕ) (stack : List (Value ℕ)) :
    List (Value ℕ) → ℕ → Option (Value ℕ) → Resolve (Option (Value ℕ))
  | [], _, merged => return merged
  | v :: rest, count, merged => do
      let resolved ← resolveLayer resolve context self stack count v
      let merged ← fromMake (mergeResolved merged resolved)
      resolveStackLoop context self stack rest (count + 1) merged

-- `ConfigDelayedMerge::resolve_substitutions`
def resolveStack (context : Option Path) (self : Value ℕ) (stack : List (Value ℕ)) :
    Resolve (Option (Value ℕ)) :=
  resolveStackLoop resolve context self stack stack 0 none

def resolvePieces (context : Option Path) : List (Value ℕ) → Resolve (List (Value ℕ))
  | [] => return []
  | p :: rest => do
      let r ← restrictAndResolve resolve context none p
      let resolved ← resolvePieces context rest
      return r.toList ++ resolved

-- `ConfigConcatenation::resolve_substitutions`
def resolveConcatenation (context : Option Path) (pieces : List (Value ℕ)) :
    Resolve (Option (Value ℕ)) := do
  let resolved ← resolvePieces resolve context pieces
  match ← fromMake (consolidate .numbered resolved) with
  | [v] => return some v
  | _ => throw (.bugOrBroken "_resolved list should always join to exactly one value, not ")

-- `SimpleConfigObjectModifier::modify_child_may_throw`
def modifyChild (context : Option Path) (key : Bytes) (v : Value ℕ) :
    Resolve (Option (Value ℕ)) :=
  match context with
  | none => resolve none v
  | some path =>
      if key = path.first then
        match path.remainder with
        | some remainder => restrictAndResolve resolve context (some remainder) v
        | none => return some v
      else return some v

-- The fields that stay, and whether one of them changed.
def modifyFields (context : Option Path) : List (Bytes × Value ℕ) → Resolve (Fields ℕ × Bool)
  | [] => return ([], false)
  | (key, v) :: rest => do
      let modified ← modifyChild resolve context key v
      let (fields, changed) ← modifyFields context rest
      return (modified.toList.map (key, ·) ++ fields, modified ≠ some v || changed)

-- `SimpleConfigObject::resolve_substitutions`
def resolveObject (context : Option Path) (self : Value ℕ) (value : Fields ℕ) (ignores : Bool) :
    Resolve (Option (Value ℕ)) := do
  if Value.resolvedFields value then return some self
  let (fields, changed) ← modifyFields resolve context value
  if changed then
    return some (← fromMake (makeObject .numbered fields (Value.resolvedFields fields) ignores))
  else return some self

def modifyElements : List (Value ℕ) → Resolve (List (Value ℕ) × Bool)
  | [] => return ([], false)
  | v :: rest => do
      let modified ← resolve none v
      let (elements, changed) ← modifyElements rest
      return (modified.toList ++ elements, modified ≠ some v || changed)

-- `SimpleConfigList::resolve_substitutions`
def resolveList (context : Option Path) (self : Value ℕ) (value : List (Value ℕ)) :
    Resolve (Option (Value ℕ)) := do
  if Value.resolvedAll value then return some self
  if context.isSome then return some self
  let (elements, changed) ← modifyElements resolve value
  if changed then return some (← fromMake (makeList .numbered elements true))
  else return some self

def resolveSubstitutions (context : Option Path) (self : Value ℕ) : Resolve (Option (Value ℕ)) :=
  match self with
  | .configReference _ expr prefixLength =>
      resolveReference environment options root resolve context self expr prefixLength
  | .configConcatenation _ pieces => resolveConcatenation resolve context pieces
  | .configDelayedMerge _ stack => resolveStack resolve context self stack
  | .configDelayedMergeObject _ stack => do
      match ← resolveStack resolve context self stack with
      | none => throw (.undefinedBehaviour "null value")
      | some merged =>
          if merged.isObject then return some merged
          else throw (.bugOrBroken "somehow brokenly merged an object and didn't get an object")
  | .simpleConfigObject _ value ignores => resolveObject resolve context self value ignores
  | .simpleConfigList _ value => resolveList resolve context self value
  | v => return some v

def resolveCheckingReplacement (context : Option Path) (original : Value ℕ) :
    Resolve (Option (Value ℕ)) := do
  let r ← replacement original
  if r ≠ original then resolve context r
  else resolveSubstitutions environment options root resolve context original

-- The entry for a result: under the full key when nothing is left to resolve.
def memoize (context : Option Path) (original : Value ℕ) (resolved : Option (Value ℕ)) :
    Resolve Unit :=
  if resolved.all Value.resolved then memoPut { value := original, restrictToChild := none } resolved
  else
    match context with
    | some path => memoPut { value := original, restrictToChild := some path } resolved
    | none => throw (.bugOrBroken "resolve_substitutions() did not give us a resolved object")

-- `ResolveContext::resolve` above the calls it makes.
def resolveMemoized (context : Option Path) (original : Value ℕ) :
    Resolve (Option (Value ℕ)) := do
  let cached ← match ← memoGet { value := original, restrictToChild := none } with
    | some v => pure (some v)
    | none =>
        if context.isSome then memoGet { value := original, restrictToChild := context }
        else pure none
  match cached with
  | some v => return some v
  | none =>
      let resolved ← resolveCheckingReplacement environment options root resolve context original
      memoize context original resolved
      return resolved

end

-- `ResolveContext::resolve`, where `context` is the path that it is restricted to.
-- The number bounds the depth of the recursion.
def resolve (environment : List (Bytes × Bytes)) (options : ConfigResolveOptions)
    (root : Value ℕ) : ℕ → Option Path → Value ℕ → Resolve (Option (Value ℕ))
  | 0, _, _ => fun _ => none
  | n + 1, context, original =>
      resolveMemoized environment options root (resolve environment options root n) context original

-- The static `ResolveContext::resolve`, which does not restrict the context.
def resolveOutermost (environment : List (Bytes × Bytes)) (options : ConfigResolveOptions)
    (root : Value ℕ) (n : ℕ) (value : Value ℕ) : Resolve (Option (Value ℕ)) :=
  tryCatch (resolve environment options root n none value) fun e =>
    if e = .notPossibleToResolve then
      throw (.bugOrBroken "NotPossibleToResolve was thrown from an outermost resolve")
    else throw e

-- The state of a new `ResolveContext`.
def ResolveState.new (nextId : ℕ) : ResolveState :=
  { nextId := nextId, memos := [], replacements := [], expressionTrace := [] }

end AsrServiceProxy.Config

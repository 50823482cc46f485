import AsrServiceProxy.Config.Loading
import AsrServiceProxy.Config.Parser.Progress

-- Loading ends whatever the files include, and leaves the stack as it was.
namespace AsrServiceProxy.Config

open CMemory Simulation

def toResult {ε σ α : Type} : Except ε α → σ → EStateM.Result ε σ α
  | .ok a, s => .ok a s
  | .error e, s => .error e s

-- The stack is what it was, and it never had more entries than it may have.
structure Kept (s s' : Statics) : Prop where
  parseStack : s'.parseStack = s.parseStack
  peak : s'.peak ≤ max s.peak MAX_INCLUDE_DEPTH

theorem Kept.refl (s : Statics) : Kept s s := ⟨rfl, le_max_left _ _⟩

theorem Kept.trans {s s' s'' : Statics} (h : Kept s s') (h' : Kept s' s'') : Kept s s'' := by
  refine ⟨h'.parseStack.trans h.parseStack, ?_⟩
  have hfirst := h.peak
  have hsecond := h'.peak
  omega

-- Whether a result, with the exceptions of the includes aside, is that of the parser.
def SameResult {α : Type} (raised : LoadException → Prop) :
    Except LoadException α → ParseContext → EStateM.Result ConfigException ParseContext α → Prop
  | .ok a, context, .ok b context' => a = b ∧ context = context'
  | .error x, _, .error e _ => x = .config e ∨ raised x
  | _, _, _ => False

def Concludes {α : Type} (post : α → Prop) (raised : LoadException → Prop) :
    Except LoadException α → Prop
  | .ok a => post a
  | .error x => raised x

-- From a given stack, and with enough levels for the includes, each loader of a family
-- has one and the same result.
def Settled {α : Type} (stack : List Parseable) (bound : ℕ) (post : α → Prop)
    (raised : LoadException → Prop) (m : ℕ → Loader α) : Prop :=
  ∃ r : Except LoadException α, Concludes post raised r ∧
    ∀ n, bound ≤ n → ∀ s : Statics, s.parseStack = stack →
      ∃ s', m n s = toResult r s' ∧ Kept s s'

-- The same of the parser over the stack, which does what the plain parser does.
def Simulates {α : Type} (stack : List Parseable) (bound : ℕ) (raised : LoadException → Prop)
    (m : ℕ → LoadParse α) (p : Parse α) : Prop :=
  ∀ context, ∃ (r : Except LoadException α) (context' : ParseContext),
    SameResult raised r context' (p context) ∧
    ∀ n, bound ≤ n → ∀ s : Statics, s.parseStack = stack →
      ∃ s', m n (context, s) = toResult r (context', s') ∧ Kept s s'

section

variable {α β : Type} {stack : List Parseable} {bound : ℕ} {raised : LoadException → Prop}

theorem Simulates.ofParse (p : Parse α) :
    Simulates stack bound raised (fun _ => Loading.ofParse p) p := by
  intro context
  cases h : p context with
  | ok a context' =>
      refine ⟨.ok a, context', ⟨rfl, rfl⟩, fun n _ s _ => ⟨s, ?_, Kept.refl s⟩⟩
      simp only [Loading.ofParse, h, toResult]
  | error e context' =>
      refine ⟨.error (.config e), context', Or.inl rfl, fun n _ s _ => ⟨s, ?_, Kept.refl s⟩⟩
      simp only [Loading.ofParse, h, toResult]

theorem Simulates.pure (a : α) :
    Simulates stack bound raised (fun _ => (Pure.pure a : LoadParse α)) (Pure.pure a) := fun context =>
  ⟨.ok a, context, ⟨rfl, rfl⟩, fun _ _ s _ => ⟨s, rfl, Kept.refl s⟩⟩

theorem Simulates.throw (e : ConfigException) :
    Simulates stack bound raised (fun _ => (MonadExcept.throw (.config e) : LoadParse α))
      (MonadExcept.throw e) := fun context =>
  ⟨.error (.config e), context, Or.inl rfl, fun _ _ s _ => ⟨s, rfl, Kept.refl s⟩⟩

theorem Simulates.bind {m : ℕ → LoadParse α} {p : Parse α} {f : ℕ → α → LoadParse β}
    {g : α → Parse β} (hm : Simulates stack bound raised m p)
    (hf : ∀ a, Simulates stack bound raised (fun n => f n a) (g a)) :
    Simulates stack bound raised (fun n => m n >>= f n) (p >>= g) := by
  intro context
  obtain ⟨r, context', hsame, hrun⟩ := hm context
  cases hp : p context with
  | ok b c =>
      rw [hp] at hsame
      cases r with
      | error x => exact hsame.elim
      | ok a =>
          obtain ⟨rfl, rfl⟩ := hsame
          obtain ⟨r', context'', hsame', hrun'⟩ := hf a context'
          refine ⟨r', context'', ?_, fun n hn s hs => ?_⟩
          · simpa only [Bind.bind, EStateM.bind, hp] using hsame'
          · obtain ⟨s', hm', hkept⟩ := hrun n hn s hs
            obtain ⟨s'', hf', hkept'⟩ := hrun' n hn s' (hkept.parseStack.trans hs)
            refine ⟨s'', ?_, hkept.trans hkept'⟩
            simpa only [Bind.bind, EStateM.bind, hm', toResult] using hf'
  | error e c =>
      rw [hp] at hsame
      cases r with
      | ok a => exact hsame.elim
      | error x =>
          refine ⟨.error x, context', ?_, fun n hn s hs => ?_⟩
          · simp only [Bind.bind, EStateM.bind, hp]
            exact hsame
          · obtain ⟨s', hm', hkept⟩ := hrun n hn s hs
            refine ⟨s', ?_, hkept⟩
            simp only [Bind.bind, EStateM.bind, hm', toResult]

theorem Simulates.ite {c : Prop} [Decidable c] {m m' : ℕ → LoadParse α} {p p' : Parse α}
    (hm : c → Simulates stack bound raised m p) (hm' : ¬c → Simulates stack bound raised m' p') :
    Simulates stack bound raised (fun n => if c then m n else m' n) (if c then p else p') := by
  by_cases h : c
  · simpa only [if_pos h] using hm h
  · simpa only [if_neg h] using hm' h

end

-- The values of the includes, and that each of them can be had.
structure LoadIncluder.Settled (stack : List Parseable) (bound : ℕ) (raised : LoadException → Prop)
    (includer : ℕ → LoadIncluder) (plain : Includer) : Prop where
  include_ : ∀ name, Simulates stack bound raised
    (fun n => Loading.ofLoader ((includer n).include_ name)) (ofExcept (plain.include_ name))
  includeFile : ∀ name, Simulates stack bound raised
    (fun n => Loading.ofLoader ((includer n).includeFile name)) (ofExcept (plain.includeFile name))

section

variable {stack : List Parseable} {bound : ℕ} {raised : LoadException → Prop}
  {flavor : ConfigSyntax} {includer : ℕ → LoadIncluder} {plain : Includer}

section

variable {read : ℕ → TokenWithComments → LoadParse (Value Unit)}
  {plainRead : TokenWithComments → Parse (Value Unit)}
  (hread : ∀ t, Simulates stack bound raised (fun n => read n t) (plainRead t))

include hread

theorem simulates_pieceOf (t : TokenWithComments) :
    Simulates stack bound raised (fun n => Loading.pieceOf (read n) t) (pieceOf plainRead t) := by
  unfold Loading.pieceOf pieceOf
  cases t.token with
  | value v => exact Simulates.pure _
  | unquotedText s => exact Simulates.pure _
  | substitution optional expression =>
      exact Simulates.bind (Simulates.ofParse _) fun path => Simulates.pure _
  | openCurly => exact Simulates.bind (hread t) fun v => Simulates.pure _
  | openSquare => exact Simulates.bind (hread t) fun v => Simulates.pure _
  | _ => exact Simulates.pure _

theorem simulates_piecesLoop (rounds : ℕ) (t : TokenWithComments) (values : List (Value Unit)) :
    Simulates stack bound raised (fun n => Loading.piecesLoop flavor (read n) rounds t values)
      (piecesLoop flavor plainRead rounds t values) := by
  induction rounds generalizing t values with
  | zero => exact Simulates.throw _
  | succ rounds ih =>
      refine Simulates.bind (simulates_pieceOf hread t) fun r => ?_
      cases r with
      | none => exact Simulates.bind (Simulates.ofParse _) fun _ => Simulates.pure _
      | some v => exact Simulates.bind (Simulates.ofParse _) fun next => ih next _

theorem simulates_consolidateValueTokens :
    Simulates stack bound raised (fun n => Loading.consolidateValueTokens flavor (read n))
      (consolidateValueTokens flavor plainRead) := by
  cases flavor with
  | JSON => exact Simulates.pure _
  | CONF =>
      refine Simulates.bind (Simulates.ofParse _) fun t => ?_
      refine Simulates.bind (Simulates.ofParse _) fun rounds => ?_
      refine Simulates.bind (simulates_piecesLoop hread rounds t []) fun values => ?_
      refine Simulates.ite (fun _ => Simulates.pure _) fun _ => ?_
      refine Simulates.bind (Simulates.ofParse _) fun r => ?_
      cases r with
      | none => exact Simulates.throw _
      | some v => exact Simulates.ofParse _

theorem simulates_parseFieldValue (afterKey : TokenWithComments) :
    Simulates stack bound raised (fun n => Loading.parseFieldValue flavor (read n) afterKey)
      (parseFieldValue flavor plainRead afterKey) := by
  have hvalue : Simulates stack bound raised
      (fun n => do
        Loading.consolidateValueTokens flavor (read n)
        read n (← Loading.ofParse (nextTokenIgnoringNewline flavor)))
      (do
        consolidateValueTokens flavor plainRead
        plainRead (← nextTokenIgnoringNewline flavor)) :=
    Simulates.bind (simulates_consolidateValueTokens hread) fun _ =>
      Simulates.bind (Simulates.ofParse _) fun t => hread t
  unfold Loading.parseFieldValue parseFieldValue
  cases flavor <;> cases afterKey.token with
  | colon => exact hvalue
  | equals => first | exact hvalue | exact Simulates.throw _
  | openCurly => first | exact hread afterKey | exact Simulates.throw _
  | plusEquals =>
      first
      | exact Simulates.throw _
      | exact Simulates.bind (simulates_consolidateValueTokens hread) fun _ =>
          Simulates.bind (Simulates.ofParse _) fun t =>
            Simulates.bind (hread t) fun v => Simulates.ofParse _
  | _ => exact Simulates.throw _

theorem simulates_parseField (flavor : ConfigSyntax) (values : Fields Unit)
    (keyToken : TokenWithComments) :
    Simulates stack bound raised (fun n => Loading.parseField flavor (read n) values keyToken)
      (parseField flavor plainRead values keyToken) := by
  refine Simulates.bind (Simulates.ofParse _) fun path => ?_
  refine Simulates.bind (Simulates.ofParse _) fun afterKey => ?_
  refine Simulates.bind (Simulates.ofParse _) fun _ => ?_
  refine Simulates.bind (simulates_parseFieldValue hread afterKey) fun newValue => ?_
  exact Simulates.bind (Simulates.ofParse _) fun _ => Simulates.ofParse _

theorem simulates_parseArrayLoop (rounds : ℕ) (values : List (Value Unit)) :
    Simulates stack bound raised (fun n => Loading.parseArrayLoop flavor (read n) rounds values)
      (parseArrayLoop flavor plainRead rounds values) := by
  induction rounds generalizing values with
  | zero => exact Simulates.throw _
  | succ rounds ih =>
      refine Simulates.bind (Simulates.ofParse _) fun separated => ?_
      refine Simulates.ite (fun _ => ?_) fun _ => ?_
      · refine Simulates.bind (simulates_consolidateValueTokens hread) fun _ => ?_
        refine Simulates.bind (Simulates.ofParse _) fun t => ?_
        refine Simulates.ite (fun _ => ?_) fun _ => ?_
        · exact Simulates.bind (hread t) fun v => ih _
        · refine Simulates.ite (fun _ => ?_) fun _ => Simulates.throw _
          exact Simulates.bind (Simulates.ofParse _) fun _ => ih values
      · refine Simulates.bind (Simulates.ofParse _) fun t => ?_
        exact Simulates.ite (fun _ => Simulates.pure _) fun _ => Simulates.throw _

theorem simulates_parseArray :
    Simulates stack bound raised (fun n => Loading.parseArray flavor (read n))
      (parseArray flavor plainRead) := by
  refine Simulates.bind (simulates_consolidateValueTokens hread) fun _ => ?_
  refine Simulates.bind (Simulates.ofParse _) fun t => ?_
  refine Simulates.ite (fun _ => Simulates.pure _) fun _ => ?_
  refine Simulates.ite (fun _ => ?_) fun _ => Simulates.throw _
  refine Simulates.bind (hread t) fun v => ?_
  refine Simulates.bind (Simulates.ofParse _) fun rounds => ?_
  exact Simulates.bind (simulates_parseArrayLoop hread rounds [v]) fun values => Simulates.pure _

end

def Loading.addIncludedObject (values : Fields Unit) : Value Unit → LoadParse (Fields Unit)
  | .simpleConfigObject _ fields _ => Loading.ofParse (addIncluded fields values)
  | _ => throw (.config (.notResolved "need to Config#resolve() before using this object"))

def Loading.finishDocument (flavor : ConfigSyntax) (result : Value Unit) :
    LoadParse (Value Unit) := do
  let t ← Loading.ofParse (nextTokenIgnoringNewline flavor)
  match t.token with
  | .end_ => return result
  | _ => throw (.config (.parse
      "_document has trailing tokens after first object or array: "))

variable (hincluder : LoadIncluder.Settled stack bound raised includer plain)

include hincluder

theorem simulates_parseInclude (flavor : ConfigSyntax) (values : Fields Unit) :
    Simulates stack bound raised (fun n => Loading.parseInclude flavor (includer n) values)
      (parseInclude flavor plain values) := by
  refine Simulates.bind (Simulates.ofParse _) ?_
  rintro ⟨name, file⟩
  have hload : Simulates stack bound raised
      (fun n => Loading.ofLoader
        (if file then (includer n).includeFile name else (includer n).include_ name))
      (ofExcept (if file then plain.includeFile name else plain.include_ name)) := by
    cases file with
    | true => exact hincluder.includeFile name
    | false => exact hincluder.include_ name
  refine Simulates.bind hload fun obj => ?_
  refine Simulates.bind (Simulates.ofParse _) fun context => ?_
  have hfields (obj : Value Unit) : Simulates stack bound raised
      (fun _ => Loading.addIncludedObject values obj) (addIncludedObject values obj) := by
    cases obj with
    | simpleConfigObject id fields ignores => exact Simulates.ofParse _
    | _ => exact Simulates.throw _
  cases pathsToConcat context.pathStack with
  | none => exact hfields obj
  | some path => exact hfields (relativized path obj)

section

variable {read : ℕ → TokenWithComments → LoadParse (Value Unit)}
  {plainRead : TokenWithComments → Parse (Value Unit)}
  (hread : ∀ t, Simulates stack bound raised (fun n => read n t) (plainRead t))

include hread

theorem simulates_parseObjectLoop (hadOpenCurly : Bool) (rounds : ℕ) (afterComma : Bool)
    (values : Fields Unit) :
    Simulates stack bound raised
      (fun n => Loading.parseObjectLoop flavor (includer n) (read n) hadOpenCurly rounds afterComma
        values)
      (parseObjectLoop flavor plain plainRead hadOpenCurly rounds afterComma values) := by
  induction rounds generalizing afterComma values with
  | zero => exact Simulates.throw _
  | succ rounds ih =>
      refine Simulates.bind (Simulates.ofParse _) fun t => ?_
      have hafter (values : Fields Unit) : Simulates stack bound raised
          (fun n => do
            if ← Loading.ofParse (closeField flavor hadOpenCurly) then
              Loading.parseObjectLoop flavor (includer n) (read n) hadOpenCurly rounds true values
            else return values)
          (do
            if ← closeField flavor hadOpenCurly then
              parseObjectLoop flavor plain plainRead hadOpenCurly rounds true values
            else return values) := by
        refine Simulates.bind (Simulates.ofParse _) fun more => ?_
        exact Simulates.ite (fun _ => ih true values) fun _ => Simulates.pure _
      have hinclude := Simulates.bind (simulates_parseInclude hincluder flavor values)
        hafter
      have hfield := Simulates.bind (simulates_parseField hread flavor values t) hafter
      have hclose (c c' : Prop) [Decidable c] [Decidable c'] (e e' : ConfigException) :
          Simulates stack bound raised
            (fun _ => if c then throw (.config e) else if c' then throw (.config e')
              else return values)
            (if c then throw e else if c' then throw e' else return values) :=
        Simulates.ite (fun _ => Simulates.throw _) fun _ =>
          Simulates.ite (fun _ => Simulates.throw _) fun _ => Simulates.pure _
      cases t.token <;> cases hadOpenCurly
      all_goals first
        | exact Simulates.ite (fun _ => hinclude) fun _ => hfield
        | exact hclose _ _ _ _
        | exact Simulates.bind (Simulates.ofParse _) fun _ => Simulates.pure _

theorem simulates_parseObject (flavor : ConfigSyntax) (hadOpenCurly : Bool) :
    Simulates stack bound raised
      (fun n => Loading.parseObject flavor (includer n) (read n) hadOpenCurly)
      (parseObject flavor plain plainRead hadOpenCurly) := by
  refine Simulates.bind (Simulates.ofParse _) fun rounds => ?_
  exact Simulates.bind (simulates_parseObjectLoop hincluder hread hadOpenCurly rounds false [])
    fun values => Simulates.pure _

end

theorem simulates_parseValue (flavor : ConfigSyntax) (depth : ℕ) (t : TokenWithComments) :
    Simulates stack bound raised (fun n => Loading.parseValue flavor (includer n) depth t)
      (parseValue flavor plain depth t) := by
  induction depth generalizing t with
  | zero => exact Simulates.throw _
  | succ depth ih =>
      unfold Loading.parseValue parseValue
      cases t.token with
      | value v => exact Simulates.pure v
      | openCurly => exact simulates_parseObject hincluder ih flavor true
      | openSquare => exact simulates_parseArray ih
      | _ => exact Simulates.throw _

theorem simulates_parseDocument (flavor : ConfigSyntax) :
    Simulates stack bound raised (fun n => Loading.parseDocument flavor (includer n))
      (parseDocument flavor plain) := by
  refine Simulates.bind (Simulates.ofParse _) fun depth => ?_
  refine Simulates.bind (Simulates.ofParse _) fun t => ?_
  have hvalue := simulates_parseValue hincluder flavor depth
  cases t.token
  case start =>
    refine Simulates.bind (Simulates.ofParse _) fun t => ?_
    have hafter (result : Value Unit) : Simulates stack bound raised
        (fun _ => Loading.finishDocument flavor result) (finishDocument flavor result) := by
      refine Simulates.bind (Simulates.ofParse _) fun t => ?_
      cases t.token with
      | end_ => exact Simulates.pure _
      | _ => exact Simulates.throw _
    have hbraces := Simulates.bind (hvalue t) hafter
    have hroot := Simulates.bind (Simulates.ofParse (putBackToken t)) fun _ =>
      Simulates.bind (simulates_parseObject hincluder hvalue flavor false) hafter
    cases t.token <;> cases flavor
    all_goals first
      | exact hbraces
      | exact hroot
      | exact Simulates.bind (Simulates.throw _) hafter
  all_goals exact Simulates.throw _

end

-- The rules for loaders.
section

variable {α β : Type} {stack : List Parseable} {bound : ℕ} {post : α → Prop} {next : β → Prop}
  {raised : LoadException → Prop} {m : ℕ → Loader α}

theorem Settled.pure {a : α} (h : post a) :
    Settled stack bound post raised fun _ => (Pure.pure a : Loader α) :=
  ⟨.ok a, h, fun _ _ s _ => ⟨s, rfl, Kept.refl s⟩⟩

theorem Settled.throw {x : LoadException} (h : raised x) :
    Settled stack bound post raised fun _ => (MonadExcept.throw x : Loader α) :=
  ⟨.error x, h, fun _ _ s _ => ⟨s, rfl, Kept.refl s⟩⟩

theorem Settled.bind {f : ℕ → α → Loader β} (hm : Settled stack bound post raised m)
    (hf : ∀ a, post a → Settled stack bound next raised fun n => f n a) :
    Settled stack bound next raised fun n => m n >>= f n := by
  obtain ⟨r, hr, hrun⟩ := hm
  cases r with
  | error x =>
      refine ⟨.error x, hr, fun n hn s hs => ?_⟩
      obtain ⟨s', hm', hkept⟩ := hrun n hn s hs
      exact ⟨s', by simp only [Bind.bind, EStateM.bind, hm', toResult], hkept⟩
  | ok a =>
      obtain ⟨r', hr', hrun'⟩ := hf a hr
      refine ⟨r', hr', fun n hn s hs => ?_⟩
      obtain ⟨s', hm', hkept⟩ := hrun n hn s hs
      obtain ⟨s'', hf', hkept'⟩ := hrun' n hn s' (hkept.parseStack.trans hs)
      refine ⟨s'', ?_, hkept.trans hkept'⟩
      simpa only [Bind.bind, EStateM.bind, hm', toResult] using hf'

theorem Settled.imp {post' : α → Prop} (hm : Settled stack bound post raised m)
    (himp : ∀ a, post a → post' a) : Settled stack bound post' raised m := by
  obtain ⟨r, hr, hrun⟩ := hm
  refine ⟨r, ?_, hrun⟩
  cases r with
  | ok a => exact himp a hr
  | error x => exact hr

theorem Settled.catchIo (hm : Settled stack bound post raised m) :
    Settled stack bound (fun r : Except Bytes α => ∀ a, r = .ok a → post a) raised
      fun n => Loader.catchIo (m n) := by
  obtain ⟨r, hr, hrun⟩ := hm
  have hcaught (r' : Except LoadException (Except Bytes α))
      (h : ∀ s, toResult r' s = Loader.catchIo (fun _ => toResult r s) s) :
      ∀ n, bound ≤ n → ∀ s : Statics, s.parseStack = stack →
        ∃ s', Loader.catchIo (m n) s = toResult r' s' ∧ Kept s s' := by
    intro n hn s hs
    obtain ⟨s', hm', hkept⟩ := hrun n hn s hs
    refine ⟨s', ?_, hkept⟩
    unfold Loader.catchIo
    rw [hm']
    exact (h s').symm
  rcases r with (e | message) | a
  · exact ⟨.error (.config e), hr, hcaught _ fun _ => rfl⟩
  · refine ⟨.ok (.error message), ?_, hcaught _ fun _ => rfl⟩
    rintro _ ⟨⟩
  · refine ⟨.ok (.ok a), ?_, hcaught _ fun _ => rfl⟩
    rintro _ ⟨⟩
    exact hr

theorem Settled.ofMake {make : Make Unit α} (h : Gives make post fun e => raised (.config e)) :
    Settled stack bound post raised fun _ => Loader.ofMake make := by
  have hmake := h ()
  cases hresult : make () with
  | ok a u =>
      rw [hresult] at hmake
      refine ⟨.ok a, hmake, fun _ _ s _ => ⟨s, ?_, Kept.refl s⟩⟩
      simp only [Loader.ofMake, hresult, toResult]
  | error e u =>
      rw [hresult] at hmake
      refine ⟨.error (.config e), hmake, fun _ _ s _ => ⟨s, ?_, Kept.refl s⟩⟩
      simp only [Loader.ofMake, hresult, toResult]

-- An included value as the plain parser is to be given it.
def plainResult : Except LoadException (Value Unit) → Except ConfigException (Value Unit)
  | .ok v => .ok v
  | .error _ => .error (.parse "include")

theorem Simulates.ofLoader {load : ℕ → Loader (Value Unit)}
    {r : Except LoadException (Value Unit)} (hr : ∀ x, r = .error x → raised x)
    (hrun : ∀ n, bound ≤ n → ∀ s : Statics, s.parseStack = stack →
      ∃ s', load n s = toResult r s' ∧ Kept s s') :
    Simulates stack bound raised (fun n => Loading.ofLoader (load n)) (ofExcept (plainResult r)) := by
  intro context
  refine ⟨r, context, ?_, fun n hn s hs => ?_⟩
  · cases r with
    | ok v => exact ⟨rfl, rfl⟩
    | error x => exact Or.inr (hr x rfl)
  · obtain ⟨s', hload, hkept⟩ := hrun n hn s hs
    refine ⟨s', ?_, hkept⟩
    simp only [Loading.ofLoader, hload]
    cases r <;> rfl

end

-- Loading was not cut short.
def Loaded (x : LoadException) : Prop := x ≠ .config .outOfFuel

def Made (v : Value Unit) : Prop := v.Forall Value.WellMade

theorem loaded_of_tolerable {wild : String → Prop} {e : ConfigException} (h : Tolerable wild e) :
    Loaded (.config e) := by
  rintro ⟨⟩
  exact h

theorem plainResult_made {r : Except LoadException (Value Unit)}
    (h : Concludes Made Loaded r) :
    (∀ v, plainResult r = .ok v → Made v) ∧ ∀ e, plainResult r = .error e → Tame e := by
  cases r with
  | ok v =>
      refine ⟨fun w hw => ?_, nofun⟩
      obtain rfl := Except.ok.inj hw
      exact h
  | error x =>
      refine ⟨nofun, fun e he => ?_⟩
      obtain rfl := Except.error.inj he
      exact trivial

-- A file is parsed with some result when each of its includes has one.
theorem settled_parse {stack : List Parseable} {bound : ℕ} (doubles : Doubles)
    {includer : ℕ → LoadIncluder} (flavor : ConfigSyntax) (input : Bytes)
    (hinclude : ∀ name, Settled stack bound Made Loaded fun n => (includer n).include_ name)
    (hfile : ∀ name, Settled stack bound Made Loaded fun n => (includer n).includeFile name) :
    Settled stack bound Piece Loaded fun n => Loading.parse doubles (includer n) flavor input := by
  choose r hr hrun using hinclude
  choose rfile hrfile hrunfile using hfile
  let plain : Includer :=
    { include_ := fun name => plainResult (r name)
      includeFile := fun name => plainResult (rfile name) }
  have hraised (name : Bytes) (x : LoadException) (hx : r name = .error x) : Loaded x := by
    have hname := hr name
    rw [hx] at hname
    exact hname
  have hraisedFile (name : Bytes) (x : LoadException) (hx : rfile name = .error x) : Loaded x := by
    have hname := hrfile name
    rw [hx] at hname
    exact hname
  have hsettled : LoadIncluder.Settled stack bound Loaded includer plain :=
    ⟨fun name => Simulates.ofLoader (hraised name) (hrun name),
      fun name => Simulates.ofLoader (hraisedFile name) (hrunfile name)⟩
  have hmade : plain.Made Tame :=
    ⟨fun name => (plainResult_made (hr name)).1, fun name => (plainResult_made (hrfile name)).1,
      fun name => (plainResult_made (hr name)).2, fun name => (plainResult_made (hrfile name)).2⟩
  have hgives := parse_gives doubles flavor input hmade
  obtain ⟨result, context, hsame, hresult⟩ := simulates_parseDocument hsettled flavor
    { tokens := tokenize doubles input flavor, buffer := [], pathStack := [] }
  unfold parse at hgives
  refine ⟨result, ?_, fun n hn s hs => ?_⟩
  · cases hdocument : parseDocument flavor plain
      { tokens := tokenize doubles input flavor, buffer := [], pathStack := [] } with
    | ok v c =>
        rw [hdocument] at hgives hsame
        cases result with
        | ok w => exact hsame.1 ▸ hgives
        | error x => exact hsame.elim
    | error e c =>
        rw [hdocument] at hgives hsame
        cases result with
        | ok w => exact hsame.elim
        | error x =>
            rcases hsame with rfl | hx
            · exact loaded_of_tolerable hgives
            · exact hx
  · obtain ⟨s', hdocument, hkept⟩ := hresult n hn s hs
    refine ⟨s', ?_, hkept⟩
    beta_reduce at hdocument ⊢
    unfold Loading.parse
    rw [hdocument]
    cases result with
    | ok v => rfl
    | error x => rfl

theorem made_empty : Made (.simpleConfigObject () [] false) :=
  ⟨⟨trivial, List.nodup_nil⟩, trivial⟩

theorem loaded_of_reader {fs : FileSystem} {p : Parseable} {x : LoadException}
    (h : p.reader fs = .error x) : Loaded x := by
  unfold Parseable.reader at h
  split at h
  · split at h
    · cases h
    · obtain rfl := Except.error.inj h
      exact nofun
  · cases h
  · cases h
  · obtain rfl := Except.error.inj h
    exact nofun

theorem settled_forceParsedToObject {stack : List Parseable} {bound : ℕ} {v : Value Unit}
    (hv : Made v) :
    Settled stack bound Made Loaded fun _ => forceParsedToObject v := by
  unfold forceParsedToObject
  split
  · exact Settled.pure hv
  · exact Settled.throw nofun

section

variable {stack : List Parseable} {bound : ℕ} {load : ℕ → Parseable → ConfigParseOptions →
  Loader (Value Unit)} (fs : FileSystem) (doubles : Doubles)
  (hload : ∀ p options, Settled stack bound Made Loaded fun n => load n p options)

include hload

theorem settled_parseCandidate (handle : Parseable) (wanted : Option ConfigSyntax)
    (flavor : ConfigSyntax) :
    Settled stack bound (fun r => ∀ v, r = some (.ok v) → Made v) Loaded
      fun n => parseCandidate (load n) handle wanted flavor := by
  by_cases h : (wanted = none || wanted = some flavor) = true
  · simp only [parseCandidate, h, if_true]
    refine Settled.bind (Settled.catchIo (hload _ _)) fun r hr => Settled.pure ?_
    intro v hv
    exact hr v (Option.some.inj hv)
  · simp only [parseCandidate, h, Bool.false_eq_true, if_false]
    exact Settled.pure nofun

theorem settled_fromBasename (source : Bytes → ConfigParseOptions → Parseable) (name : Bytes)
    (options : ConfigParseOptions) :
    Settled stack bound Made Loaded fun n => fromBasename (load n) source name options := by
  by_cases h : (endsWith name (ascii ".conf") || endsWith name (ascii ".json")) = true
  · simp only [fromBasename, h, if_true]
    exact hload _ _
  · simp only [fromBasename, h, Bool.false_eq_true, if_false]
    refine Settled.bind (settled_parseCandidate hload _ _ .CONF) fun conf hconf => ?_
    refine Settled.bind (settled_parseCandidate hload _ _ .JSON) fun json hjson => ?_
    have hobj : Made (firstCandidate conf) := by
      rcases conf with _ | message | v
      · exact made_empty
      · exact made_empty
      · exact hconf v rfl
    have hmerge : Settled stack bound Made Loaded
        fun _ => secondCandidate (firstCandidate conf) json := by
      rcases json with _ | message | v
      · exact Settled.pure hobj
      · exact Settled.pure hobj
      · have hgives : Gives (withFallback .plain (firstCandidate conf) v) Made Tame :=
          gives_withFallback_wellMade hobj (hjson v rfl)
        exact Settled.ofMake (Gives.raises hgives fun e he => loaded_of_tolerable he)
    refine Settled.bind hmerge fun obj hobj => ?_
    by_cases hmissing : (¬options.allowMissing && ¬(isFound conf || isFound json)) = true
    · simp only [hmissing, if_true]
      split
      · exact Settled.throw nofun
      · exact Settled.throw nofun
    · simp only [hmissing]
      exact Settled.pure hobj

theorem settled_parseValue (self : Parseable) (baseOptions : ConfigParseOptions) :
    Settled stack bound Made Loaded
      fun n => self.parseValue fs doubles (load n) baseOptions := by
  have hraw : Settled stack bound Made Loaded fun n =>
      self.rawParseValue fs doubles (load n) (fixupOptions self.kind baseOptions) := by
    unfold Parseable.rawParseValue
    cases hreader : self.reader fs with
    | error x => exact Settled.throw (loaded_of_reader hreader)
    | ok text =>
        apply Settled.imp _ fun v (hv : Piece v) => hv.made
        apply settled_parse
        · exact fun name => settled_fromBasename hload _ name _
        · exact fun name => settled_fromBasename hload _ name _
  refine Settled.bind (Settled.catchIo hraw) fun r hr => ?_
  rcases r with message | v
  · by_cases hallow : (fixupOptions self.kind baseOptions).allowMissing = true
    · simp only [hallow, if_true]
      exact Settled.pure made_empty
    · simp only [hallow]
      exact Settled.throw nofun
  · exact Settled.pure (hr v rfl)

theorem settled_parseInitial (self : Parseable) :
    Settled stack bound Made Loaded fun n => self.parseInitial fs doubles (load n) :=
  Settled.bind (settled_parseValue fs doubles hload self self.initialOptions) fun _ hv =>
    settled_forceParsedToObject hv

end

-- One more file on the stack, which is taken off whether it can be parsed or not.
theorem settled_parsePushed {stack : List Parseable} {bound : ℕ} {load : ℕ → Parseable →
      ConfigParseOptions → Loader (Value Unit)} (fs : FileSystem) (doubles : Doubles)
    (self : Parseable) (baseOptions : ConfigParseOptions)
    (hload : stack.length < MAX_INCLUDE_DEPTH → ∀ p options,
      Settled (self :: stack) bound Made Loaded fun n => load n p options) :
    Settled stack bound Made Loaded
      fun n => self.parsePushed fs doubles (load n) baseOptions := by
  by_cases hdepth : MAX_INCLUDE_DEPTH ≤ stack.length
  · refine ⟨.error (.config (.parse "include statements nested more than ")), nofun,
      fun n _ s hs => ⟨s, ?_, Kept.refl s⟩⟩
    simp only [Parseable.parsePushed, bind, EStateM.bind, get_run, hs, hdepth, if_true]
    rfl
  · rw [Nat.not_le] at hdepth
    have hbody : Settled (self :: stack) bound Made Loaded
        (fun n => do forceParsedToObject (← self.parseValue fs doubles (load n) baseOptions)) :=
      Settled.bind (settled_parseValue fs doubles (hload hdepth) self baseOptions) fun _ hv =>
        settled_forceParsedToObject hv
    obtain ⟨r, hr, hrun⟩ := hbody
    refine ⟨r, hr, fun n hn s hs => ?_⟩
    obtain ⟨s', hm, hkept⟩ := hrun n hn (self.push s) (congrArg (self :: ·) hs)
    refine ⟨s'.pop, ?_, ?_⟩
    · have hnot : ¬MAX_INCLUDE_DEPTH ≤ s.parseStack.length := by
        rw [hs]
        omega
      simp only [bind] at hm
      simp only [Parseable.parsePushed, bind, EStateM.bind, get_run, modify_run, hnot, if_false,
        Loader.finallyDo]
      simp only [EStateM.bind] at hm
      simp only [hm]
      cases r <;> rfl
    · refine ⟨?_, ?_⟩
      · rw [Statics.pop, hkept.parseStack]
        rfl
      · have hpeak := hkept.peak
        have hlength : (self.push s).peak = max s.peak (s.parseStack.length + 1) := rfl
        change s'.peak ≤ max s.peak MAX_INCLUDE_DEPTH
        rw [hs] at hlength
        omega

-- The induction is on the levels that are left: each include takes one, and a stack
-- that has its largest size needs no more of them.
theorem settled_parseLevels (fs : FileSystem) (doubles : Doubles) (levels : ℕ)
    {stack : List Parseable} (h : MAX_INCLUDE_DEPTH ≤ levels + stack.length) (self : Parseable)
    (baseOptions : ConfigParseOptions) :
    Settled stack levels Made Loaded fun n => Parseable.parse fs doubles (n + 1) self baseOptions := by
  induction levels generalizing stack self baseOptions with
  | zero =>
      apply settled_parsePushed
      intro hdepth
      omega
  | succ levels ih =>
      apply settled_parsePushed
      intro hdepth p options
      have hlength : MAX_INCLUDE_DEPTH ≤ levels + (self :: stack).length := by
        rw [List.length_cons]
        omega
      obtain ⟨r, hr, hrun⟩ := ih hlength p options
      refine ⟨r, hr, fun n hn s hs => ?_⟩
      obtain ⟨k, rfl⟩ := Nat.exists_eq_add_of_le' (Nat.le_trans (Nat.le_add_left 1 levels) hn)
      exact hrun k (by omega) s hs

-- Every load ends, with the stack as it was and never more than the largest number of
-- entries on it: with enough levels the result is one that does not depend on them
-- or on anything but the stack.
theorem parse_restores_parseStack (fs : FileSystem) (doubles : Doubles) (stack : List Parseable)
    (self : Parseable) (baseOptions : ConfigParseOptions) :
    (∃ r, r ≠ .error (.config .outOfFuel) ∧ ∀ n, MAX_INCLUDE_DEPTH < n →
      ∀ s : Statics, s.parseStack = stack →
        ∃ s', Parseable.parse fs doubles n self baseOptions s = toResult r s' ∧
          s'.parseStack = s.parseStack ∧ s'.peak ≤ max s.peak MAX_INCLUDE_DEPTH) ∧
    ∃ r, r ≠ .error (.config .outOfFuel) ∧ ∀ n, MAX_INCLUDE_DEPTH < n →
      ∀ s : Statics, s.parseStack = stack →
        ∃ s', self.parseInitial fs doubles (Parseable.parse fs doubles n) s = toResult r s' ∧
          s'.parseStack = s.parseStack ∧ s'.peak ≤ max s.peak MAX_INCLUDE_DEPTH := by
  have hlevels : MAX_INCLUDE_DEPTH ≤ MAX_INCLUDE_DEPTH + stack.length := Nat.le_add_right _ _
  have hload (p : Parseable) (options : ConfigParseOptions) :
      Settled stack (MAX_INCLUDE_DEPTH + 1) Made Loaded
        fun n => Parseable.parse fs doubles n p options := by
    obtain ⟨r, hr, hrun⟩ := settled_parseLevels fs doubles MAX_INCLUDE_DEPTH hlevels p options
    refine ⟨r, hr, fun n hn s hs => ?_⟩
    obtain ⟨k, rfl⟩ := Nat.exists_eq_add_of_le' (Nat.le_trans (Nat.le_add_left 1 _) hn)
    exact hrun k (by omega) s hs
  have hresult {m : ℕ → Loader (Value Unit)}
      (h : Settled stack (MAX_INCLUDE_DEPTH + 1) Made Loaded m) :
      ∃ r, r ≠ .error (.config .outOfFuel) ∧ ∀ n, MAX_INCLUDE_DEPTH < n →
        ∀ s : Statics, s.parseStack = stack → ∃ s', m n s = toResult r s' ∧
          s'.parseStack = s.parseStack ∧ s'.peak ≤ max s.peak MAX_INCLUDE_DEPTH := by
    obtain ⟨r, hr, hrun⟩ := h
    refine ⟨r, ?_, fun n hn s hs => ?_⟩
    · rintro rfl
      exact hr rfl
    · obtain ⟨s', hm, hkept⟩ := hrun n hn s hs
      exact ⟨s', hm, hkept.parseStack, hkept.peak⟩
  exact ⟨hresult (hload self baseOptions),
    hresult (settled_parseInitial fs doubles hload self)⟩

end AsrServiceProxy.Config

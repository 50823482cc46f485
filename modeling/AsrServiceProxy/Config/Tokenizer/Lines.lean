import AsrServiceProxy.Config.Tokenizer

-- The token stream with the line numbers of the origins that its tokens have.
namespace AsrServiceProxy.Config

open CMemory

-- `left` is what was left of the input at the first character of the token. The code
-- does not keep it.
structure Origin where
  lineNumber : Int32
  left : List ℤ
deriving DecidableEq, Repr

-- A token with the origins of the token objects in it: its own, and those inside a
-- substitution. Separators are shared objects without an origin.
structure LocatedToken where
  token : Token
  origins : List Origin

def LocatedToken.static (t : Token) : LocatedToken := { token := t, origins := [] }

def LocatedToken.single (t : Token) (origin : Origin) : LocatedToken :=
  { token := t, origins := [origin] }

inductive LocatedError where
  | problem (what : Bytes) (message : String) (suggestQuotes : Bool) (origin : Origin)
  | exception (e : ConfigException)

-- `line_origin_` has the same number as `line_number`. `firstBlank` is what was left
-- of the input at the first blank that the saver has, which the code does not keep.
structure LineStream where
  stream : TokenStream
  lineNumber : Int32
  firstBlank : List ℤ

abbrev PullAt := EStateM LocatedError LineStream

def TokenizerError.locate (origin : Origin) : TokenizerError → LocatedError
  | .problem what message suggestQuotes => .problem what message suggestQuotes origin
  | .exception e => .exception e

-- A pull function that leaves the line number alone.
def PullAt.lift {α : Type} (origin : Origin) (pull : Pull α) : PullAt α := fun s =>
  match pull s.stream with
  | .ok a stream => .ok a { s with stream := stream }
  | .error e stream => .error (e.locate origin) { s with stream := stream }

def PullAt.token (origin : Origin) (pull : Pull Token) : PullAt LocatedToken :=
  (LocatedToken.single · origin) <$> PullAt.lift origin pull

-- `next_char_after_whitespace`, with the origin of the token that starts there.
def skipBlanksAt : PullAt (ℤ × Origin) := fun s =>
  match nextCharAfterWhitespace s.stream with
  | .ok c stream =>
      .ok (c, { lineNumber := s.lineNumber, left := c :: stream.rest })
        { s with
          stream := stream
          firstBlank := if s.stream.saver.whitespace = [] then s.stream.rest else s.firstBlank }
  | .error e stream =>
      .error (e.locate { lineNumber := s.lineNumber, left := s.stream.rest })
        { s with stream := stream }

def advanceLine : PullAt Unit := fun s => .ok () { s with lineNumber := s.lineNumber + 1 }

def roundsAt : PullAt ℕ := fun s => .ok (s.stream.rest.length + 1) s

-- The blanks get the line number that is reached by now.
def checkWhitespaceAt (t : Token) : PullAt (Option LocatedToken) := fun s =>
  match checkWhitespace t s.stream with
  | .ok whitespace stream =>
      .ok (whitespace.map
        (LocatedToken.single · { lineNumber := s.lineNumber, left := s.firstBlank }))
        { s with stream := stream }
  | .error e stream =>
      .error (e.locate { lineNumber := s.lineNumber, left := s.firstBlank })
        { s with stream := stream }

def pullSubstitutionLoopAt (origin : Origin) (pullNext : PullAt LocatedToken) :
    ℕ → Bool → List LocatedToken → PullAt LocatedToken
  | 0, _, _ => throw (.exception .outOfFuel)
  | n + 1, optional, expression => do
      let t ← pullNext
      match t.token with
      | .closeCurly =>
          return { token := .substitution optional (expression.map LocatedToken.token)
                   origins := origin :: expression.flatMap LocatedToken.origins }
      | .end_ =>
          PullAt.lift origin (problem [] "_substitution $\x7b was not closed with a \x7d" false)
      | _ =>
          let whitespace ← checkWhitespaceAt t.token
          pullSubstitutionLoopAt origin pullNext n optional (expression ++ whitespace.toList ++ [t])

def withOwnSaverAt {α : Type} (pull : PullAt α) : PullAt α := fun s =>
  match pull { s with stream := { s.stream with saver := .makeInstance } } with
  | .ok a s' => .ok a { s' with
      stream := { s'.stream with saver := s.stream.saver }, firstBlank := s.firstBlank }
  | .error e s' => .error e { s' with
      stream := { s'.stream with saver := s.stream.saver }, firstBlank := s.firstBlank }

-- The start of a substitution behind the `$`: whether it is optional.
def startSubstitution : Pull Bool := do
  let c ← nextCharRaw
  if c ≠ 123 then
    problem (asString c) "'$' not followed by " true
  else
    let c ← nextCharRaw
    let optional := c = 63
    if ¬optional then putBack c
    return optional

-- The origin was taken before the substitution is read.
def pullSubstitutionAt (pullNext : PullAt LocatedToken) (origin : Origin) :
    PullAt LocatedToken := do
  let optional ← PullAt.lift origin startSubstitution
  withOwnSaverAt do pullSubstitutionLoopAt origin pullNext (← roundsAt) optional []

section

variable (doubles : Doubles) (allowComments : Bool)

def pullTokenAt (substitution : Origin → PullAt LocatedToken) : PullAt LocatedToken := do
  let (c, origin) ← skipBlanksAt
  if c = -1 then return .static .end_
  else if c = 10 then
    -- newline tokens have the just-ended line number
    advanceLine
    return .single .newline origin
  else if ← PullAt.lift origin (startOfComment allowComments c) then
    PullAt.token origin (pullComment c)
  else if c = 34 then PullAt.token origin pullQuotedString
  else if c = 36 then substitution origin
  else if c = 58 then return .static .colon
  else if c = 44 then return .static .comma
  else if c = 61 then return .static .equals
  else if c = 123 then return .static .openCurly
  else if c = 125 then return .static .closeCurly
  else if c = 91 then return .static .openSquare
  else if c = 93 then return .static .closeSquare
  else if c = 43 then LocatedToken.static <$> PullAt.lift origin pullPlusEquals
  else if firstNumberChars.contains (toChar c) then PullAt.token origin (pullNumber doubles c)
  else if notInUnquotedText.contains (toChar c) then
    PullAt.lift origin (problem (asString c) "_reserved character '" true)
  else
    PullAt.lift origin (putBack c)
    PullAt.token origin (pullUnquotedText allowComments)

def pullNextTokenAt : ℕ → PullAt LocatedToken
  | 0 => throw (.exception .outOfFuel)
  | depth + 1 => pullTokenAt doubles allowComments (pullSubstitutionAt (pullNextTokenAt depth))

def queueNextTokenAt : PullAt (Option LocatedToken × LocatedToken) := do
  let t ← pullNextTokenAt doubles allowComments (← roundsAt)
  let whitespace ← checkWhitespaceAt t.token
  return (whitespace, t)

def deliverAt : ℕ → LineStream → List LocatedToken
  | 0, _ => [.static (.thrown .outOfFuel)]
  | n + 1, s =>
      match queueNextTokenAt doubles allowComments s with
      | .ok (whitespace, t) s' =>
          match t.token with
          | .end_ => whitespace.toList ++ [t]
          | _ => whitespace.toList ++ t :: deliverAt n s'
      | .error (.problem what message suggestQuotes origin) s' =>
          .single (.problem what message suggestQuotes) origin :: deliverAt n s'
      | .error (.exception e) _ => [.static (.thrown e)]

end

def LineStream.ofString (input : Bytes) : LineStream :=
  { stream := .ofString input, lineNumber := 1, firstBlank := [] }

def tokenizeAt (doubles : Doubles) (input : Bytes) (flavor : ConfigSyntax) : List LocatedToken :=
  .static .start :: deliverAt doubles (flavor ≠ .JSON) (input.length + 1) (.ofString input)

-- Without the line numbers the stream is the one of `tokenize`.
section

variable {α β γ δ : Type}

def LocatedError.erase : LocatedError → TokenizerError
  | .problem what message suggestQuotes _ => .problem what message suggestQuotes
  | .exception e => .exception e

def eraseResult (f : α → β) :
    EStateM.Result LocatedError LineStream α → EStateM.Result TokenizerError TokenStream β
  | .ok a s => .ok (f a) s.stream
  | .error e s => .error e.erase s.stream

def Erases (f : α → β) (m : PullAt α) (m' : Pull β) : Prop :=
  ∀ s, eraseResult f (m s) = m' s.stream

theorem Erases.pure (f : α → β) (a : α) : Erases f (pure a) (pure (f a)) := fun _ => rfl

theorem Erases.bind {f : α → β} {g : γ → δ} {m : PullAt α} {m' : Pull β} {k : α → PullAt γ}
    {k' : β → Pull δ} (hm : Erases f m m') (hk : ∀ a, Erases g (k a) (k' (f a))) :
    Erases g (m >>= k) (m' >>= k') := by
  intro s
  have hs := hm s
  simp only [Bind.bind, EStateM.bind]
  cases hrun : m s with
  | ok a s' =>
      rw [hrun] at hs
      rw [← hs]
      exact hk a s'
  | error e s' =>
      rw [hrun] at hs
      rw [← hs]
      rfl

theorem Erases.ite {f : α → β} {c : Prop} [Decidable c] {m n : PullAt α} {m' n' : Pull β}
    (hm : Erases f m m') (hn : Erases f n n') :
    Erases f (if c then m else n) (if c then m' else n') := by
  by_cases h : c
  · rw [if_pos h, if_pos h]
    exact hm
  · rw [if_neg h, if_neg h]
    exact hn

theorem TokenizerError.erase_locate (e : TokenizerError) (origin : Origin) :
    (e.locate origin).erase = e := by
  cases e <;> rfl

theorem erases_lift (origin : Origin) (pull : Pull α) :
    Erases id (PullAt.lift origin pull) pull := by
  intro s
  unfold PullAt.lift
  cases pull s.stream with
  | ok a stream => rfl
  | error e stream => exact congrArg (EStateM.Result.error · stream) (e.erase_locate origin)

theorem Erases.map {f : α → β} {g : γ → β} {m : PullAt α} {m' : Pull β} (hm : Erases f m m')
    (k : α → γ) (hk : ∀ a, g (k a) = f a) : Erases g (k <$> m) m' := by
  intro s
  rw [← hm s]
  show eraseResult g (EStateM.map k m s) = _
  rw [EStateM.map]
  cases m s with
  | ok a s' => exact congrArg (EStateM.Result.ok · s'.stream) (hk a)
  | error e s' => rfl

theorem erases_token (origin : Origin) (pull : Pull Token) :
    Erases LocatedToken.token (PullAt.token origin pull) pull :=
  (erases_lift origin pull).map _ fun _ => rfl

theorem erases_skipBlanksAt : Erases Prod.fst skipBlanksAt nextCharAfterWhitespace := by
  intro s
  unfold skipBlanksAt
  cases nextCharAfterWhitespace s.stream with
  | ok c stream => rfl
  | error e stream => exact congrArg (EStateM.Result.error · stream) (e.erase_locate _)

theorem erases_checkWhitespaceAt (t : Token) :
    Erases (Option.map LocatedToken.token) (checkWhitespaceAt t) (checkWhitespace t) := by
  intro s
  unfold checkWhitespaceAt
  cases checkWhitespace t s.stream with
  | ok whitespace stream =>
      cases whitespace with
      | none => rfl
      | some w => rfl
  | error e stream => exact congrArg (EStateM.Result.error · stream) (e.erase_locate _)

theorem Erases.withOwnSaver {f : α → β} {m : PullAt α} {m' : Pull β} (hm : Erases f m m') :
    Erases f (withOwnSaverAt m) (withOwnSaver m') := by
  intro s
  have hs := hm { s with stream := { s.stream with saver := .makeInstance } }
  unfold withOwnSaverAt Config.withOwnSaver
  rw [← hs]
  cases m { s with stream := { s.stream with saver := .makeInstance } } with
  | ok a s' => rfl
  | error e s' => rfl

theorem erases_pullSubstitutionLoopAt (origin : Origin) {pullNext : PullAt LocatedToken}
    {pullNext' : Pull Token} (h : Erases LocatedToken.token pullNext pullNext') (n : ℕ)
    (optional : Bool) (expression : List LocatedToken) :
    Erases LocatedToken.token (pullSubstitutionLoopAt origin pullNext n optional expression)
      (pullSubstitutionLoop pullNext' n optional (expression.map LocatedToken.token)) := by
  induction n generalizing expression with
  | zero => exact fun _ => rfl
  | succ n ih =>
      rw [pullSubstitutionLoopAt, pullSubstitutionLoop]
      refine h.bind fun t => ?_
      obtain ⟨t, origins⟩ := t
      have hother : Erases LocatedToken.token (do
          let whitespace ← checkWhitespaceAt t
          pullSubstitutionLoopAt origin pullNext n optional
            (expression ++ whitespace.toList ++ [⟨t, origins⟩]))
          (do
            let whitespace ← checkWhitespace t
            pullSubstitutionLoop pullNext' n optional
              (expression.map LocatedToken.token ++ whitespace.toList ++ [t])) := by
        refine (erases_checkWhitespaceAt t).bind fun whitespace => ?_
        have hexpression : (expression ++ whitespace.toList ++ [⟨t, origins⟩] :
            List LocatedToken).map LocatedToken.token = expression.map LocatedToken.token ++
              (whitespace.map LocatedToken.token).toList ++ [t] := by
          cases whitespace <;> simp
        rw [← hexpression]
        exact ih _
      cases t with
      | closeCurly => exact Erases.pure _ _
      | end_ => exact fun _ => rfl
      | _ => exact hother

theorem pullSubstitution_eq (pullNext : Pull Token) :
    pullSubstitution pullNext = (do
      let optional ← startSubstitution
      withOwnSaver do pullSubstitutionLoop pullNext (← rounds) optional []) := by
  rw [pullSubstitution, startSubstitution, bind_assoc]
  refine bind_congr fun c => ?_
  by_cases hbrace : c ≠ 123
  · rw [if_pos hbrace, if_pos hbrace]
    rfl
  · rw [if_neg hbrace, if_neg hbrace, bind_assoc]
    refine bind_congr fun c => ?_
    by_cases hoptional : c = 63
    · simp [hoptional]
    · simp [hoptional]

theorem erases_pullSubstitutionAt {pullNext : PullAt LocatedToken} {pullNext' : Pull Token}
    (h : Erases LocatedToken.token pullNext pullNext') (origin : Origin) :
    Erases LocatedToken.token (pullSubstitutionAt pullNext origin)
      (pullSubstitution pullNext') := by
  rw [pullSubstitution_eq]
  refine (erases_lift origin startSubstitution).bind fun optional => ?_
  have hrounds : Erases id roundsAt rounds := fun _ => rfl
  refine Erases.withOwnSaver (hrounds.bind fun n => ?_)
  exact erases_pullSubstitutionLoopAt origin h n optional []

variable (doubles : Doubles) (allowComments : Bool)

theorem erases_pullTokenAt {substitution : Origin → PullAt LocatedToken}
    {substitution' : Pull Token}
    (h : ∀ origin, Erases LocatedToken.token (substitution origin) substitution') :
    Erases LocatedToken.token (pullTokenAt doubles allowComments substitution)
      (pullToken doubles allowComments substitution') := by
  refine erases_skipBlanksAt.bind ?_
  rintro ⟨c, origin⟩
  refine Erases.ite (Erases.pure _ _) (Erases.ite (fun _ => rfl) ?_)
  refine (erases_lift origin _).bind fun comment => ?_
  refine Erases.ite (erases_token origin _) (Erases.ite (erases_token origin _) ?_)
  refine Erases.ite (h origin) (Erases.ite (Erases.pure _ _) (Erases.ite (Erases.pure _ _) ?_))
  refine Erases.ite (Erases.pure _ _) (Erases.ite (Erases.pure _ _) ?_)
  refine Erases.ite (Erases.pure _ _) ?_
  refine Erases.ite (Erases.pure _ _) (Erases.ite (Erases.pure _ _) (Erases.ite ?_ ?_))
  · exact (erases_lift origin _).map _ fun _ => rfl
  refine Erases.ite (erases_token origin _) (Erases.ite (fun _ => rfl) ?_)
  exact (erases_lift origin _).bind fun _ => erases_token origin _

theorem erases_pullNextTokenAt (depth : ℕ) :
    Erases LocatedToken.token (pullNextTokenAt doubles allowComments depth)
      (pullNextToken doubles allowComments depth) := by
  induction depth with
  | zero => exact fun _ => rfl
  | succ depth ih => exact erases_pullTokenAt doubles allowComments (erases_pullSubstitutionAt ih)

theorem erases_queueNextTokenAt :
    Erases (fun r => (r.1.map LocatedToken.token, r.2.token))
      (queueNextTokenAt doubles allowComments) (queueNextToken doubles allowComments) := by
  have hrounds : Erases id roundsAt rounds := fun _ => rfl
  refine hrounds.bind fun n => ?_
  refine (erases_pullNextTokenAt doubles allowComments n).bind fun t => ?_
  refine (erases_checkWhitespaceAt t.token).bind fun whitespace => ?_
  exact fun _ => rfl

theorem deliverAt_erase (n : ℕ) (s : LineStream) :
    (deliverAt doubles allowComments n s).map LocatedToken.token =
      deliver doubles allowComments n s.stream := by
  induction n generalizing s with
  | zero => rfl
  | succ n ih =>
      have hqueue := erases_queueNextTokenAt doubles allowComments s
      have hwhitespace : ∀ whitespace : Option LocatedToken,
          whitespace.toList.map LocatedToken.token =
            (whitespace.map LocatedToken.token).toList := by
        intro whitespace
        cases whitespace <;> rfl
      rw [deliverAt, deliver, ← hqueue]
      cases hrun : queueNextTokenAt doubles allowComments s with
      | ok r s' =>
          obtain ⟨whitespace, t, origins⟩ := r
          cases t with
          | end_ => exact (List.map_append ..).trans (congrArg (· ++ _) (hwhitespace whitespace))
          | _ =>
              dsimp only [eraseResult]
              rw [List.map_append, List.map_cons, hwhitespace, ih s']
      | error e s' =>
          cases e with
          | problem what message suggestQuotes origin =>
              dsimp only [eraseResult, LocatedError.erase]
              rw [List.map_cons, ih s']
              rfl
          | exception e => rfl

theorem tokenizeAt_erase (input : Bytes) (flavor : ConfigSyntax) :
    (tokenizeAt doubles input flavor).map LocatedToken.token = tokenize doubles input flavor :=
  congrArg (Token.start :: ·) (deliverAt_erase doubles _ _ _)

end

end AsrServiceProxy.Config

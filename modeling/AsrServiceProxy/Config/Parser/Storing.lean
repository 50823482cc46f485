import AsrServiceProxy.Config.Parser
import AsrServiceProxy.Lib.Follows

-- The parser over what it does with a field whose path and value it has read, and the one
-- that stops where the path has an empty second key.
namespace AsrServiceProxy.Config

open CMemory Simulation

abbrev Store := Fields Unit → Path → Value Unit → Parse (Fields Unit)

section

variable (flavor : ConfigSyntax) (includer : Includer) (store : Store)

section

variable (parseValue : TokenWithComments → Parse (Value Unit))

def parseFieldWith (values : Fields Unit) (keyToken : TokenWithComments) :
    Parse (Fields Unit) := do
  let path ← parseKey flavor keyToken
  let afterKey ← nextTokenIgnoringNewline flavor
  pushPath path
  let newValue ← parseFieldValue flavor parseValue afterKey
  popPath
  store values path newValue

def parseObjectLoopWith (hadOpenCurly : Bool) : ℕ → Bool → Fields Unit → Parse (Fields Unit)
  | 0, _, _ => throw .outOfFuel
  | n + 1, afterComma, values => do
      let t ← nextTokenIgnoringNewline flavor
      match t.token, hadOpenCurly with
      | .closeCurly, _ =>
          if flavor = .JSON && afterComma then
            throw (.parse "expecting a field name after a comma, got a close brace \x7d instead")
          else if ¬hadOpenCurly then
            throw (.parse "unbalanced close brace '\x7d' with no open brace")
          else return values
      | .end_, false =>
          putBackToken t
          return values
      | _, _ =>
          let values ←
            if flavor ≠ .JSON && isIncludeKeyword t.token then parseInclude flavor includer values
            else parseFieldWith flavor store parseValue values t
          if ← closeField flavor hadOpenCurly then parseObjectLoopWith hadOpenCurly n true values
          else return values

def parseObjectWith (hadOpenCurly : Bool) : Parse (Value Unit) := do
  let values ← parseObjectLoopWith flavor includer store parseValue hadOpenCurly
    (← parseRounds) false []
  return .simpleConfigObject () values false

end

def parseValueWith : ℕ → TokenWithComments → Parse (Value Unit)
  | 0, _ => throw .outOfFuel
  | depth + 1, t => do
      match t.token with
      | .value v => return v
      | .openCurly => parseObjectWith flavor includer store (parseValueWith depth) true
      | .openSquare => parseArray flavor (parseValueWith depth)
      | _ => throw (.parse "_expecting a value but got wrong token: ")

def parseDocumentWith : Parse (Value Unit) := do
  let depth ← parseRounds
  let t ← nextTokenIgnoringNewline flavor
  match t.token with
  | .start =>
      let t ← nextTokenIgnoringNewline flavor
      let result ←
        match t.token, flavor with
        | .openCurly, _ | .openSquare, _ => parseValueWith flavor includer store depth t
        | .end_, .JSON => throw (.parse "_empty document")
        | _, .JSON => throw (.parse "_document must have an object or array at root")
        | _, .CONF => do
            putBackToken t
            parseObjectWith flavor includer store (parseValueWith flavor includer store depth) false
      let t ← nextTokenIgnoringNewline flavor
      match t.token with
      | .end_ => return result
      | _ => throw (.parse "_document has trailing tokens after first object or array: ")
  | _ => throw (.bugOrBroken "token stream did not begin with start, had ")

end

def parseWith (doubles : Doubles) (includer : Includer) (store : Store) (flavor : ConfigSyntax)
    (input : Bytes) : Except ConfigException (Value Unit) :=
  match parseDocumentWith flavor includer store
      { tokens := tokenize doubles input flavor, buffer := [], pathStack := [] } with
  | .ok v _ => .ok v
  | .error e _ => .error e

-- With `storeField` it is the parser.
section

variable (flavor : ConfigSyntax) (includer : Includer)
  {read : TokenWithComments → Parse (Value Unit)}

theorem parseObjectLoopWith_storeField (hadOpenCurly : Bool) (n : ℕ) (afterComma : Bool)
    (values : Fields Unit) :
    parseObjectLoopWith flavor includer (storeField flavor) read hadOpenCurly n afterComma values =
      parseObjectLoop flavor includer read hadOpenCurly n afterComma values := by
  induction n generalizing afterComma values with
  | zero => rfl
  | succ n ih =>
      simp only [parseObjectLoopWith, ih]
      rfl

theorem parseObjectWith_storeField (hadOpenCurly : Bool) :
    parseObjectWith flavor includer (storeField flavor) read hadOpenCurly =
      parseObject flavor includer read hadOpenCurly := by
  simp only [parseObjectWith, parseObject, parseObjectLoopWith_storeField]

theorem parseValueWith_storeField (depth : ℕ) :
    parseValueWith flavor includer (storeField flavor) depth = parseValue flavor includer depth := by
  induction depth with
  | zero => rfl
  | succ depth ih =>
      funext t
      simp only [parseValueWith, ih, parseObjectWith_storeField]
      rfl

theorem parseWith_storeField (doubles : Doubles) (input : Bytes) :
    parseWith doubles includer (storeField flavor) flavor input =
      parse doubles includer flavor input := by
  have hdocument : parseDocumentWith flavor includer (storeField flavor) =
      parseDocument flavor includer := by
    simp only [parseDocumentWith, parseValueWith_storeField, parseObjectWith_storeField]
    rfl
  rw [parseWith, hdocument]
  rfl

end

def secondKeyEmpty : ConfigException := .undefinedBehaviour "the second key is empty"

def noKeys : ConfigException := .undefinedBehaviour "rbegin of an empty vector"

-- `create_value_under_path` is not given a path that starts with an empty key.
def storeGuarded (flavor : ConfigSyntax) : Store := fun values path newValue =>
  if flavor = .CONF ∧ path.keys[1]? = some [] then throw secondKeyEmpty
  else storeField flavor values path newValue

-- The parser comes to a field whose path has an empty second key, and reads its value.
def ReachesEmptyKey (doubles : Doubles) (includer : Includer) (flavor : ConfigSyntax)
    (input : Bytes) : Prop :=
  parseWith doubles includer (storeGuarded flavor) flavor input = .error secondKeyEmpty

theorem createValueUnderPath_empty {path : Path} {v : Value Unit} (h : path.first = []) :
    createValueUnderPath path v = .error noKeys := by
  cases path with
  | newKey first | cons first remainder =>
      obtain rfl : first = [] := h
      rfl

theorem Path.keys_getElem_one {path remaining : Path} (h : path.remainder = some remaining) :
    path.keys[1]? = some remaining.first := by
  cases path with
  | newKey first => cases h
  | cons first remainder =>
      obtain rfl := Option.some.inj h
      cases remainder <;> rfl

-- Where the guard stops, `storeField` leaves the standard.
theorem agrees_storeGuarded (flavor : ConfigSyntax) (values : Fields Unit) (path : Path)
    (newValue : Value Unit) :
    Agrees secondKeyEmpty noKeys (storeGuarded flavor values path newValue)
      (storeField flavor values path newValue) := by
  intro s
  by_cases h : flavor = .CONF ∧ path.keys[1]? = some []
  · obtain ⟨rfl, hempty⟩ := h
    obtain ⟨remaining, hremainder⟩ : ∃ remaining, path.remainder = some remaining := by
      cases path with
      | newKey first => cases hempty
      | cons first remainder => exact ⟨remainder, rfl⟩
    have hfirst : remaining.first = [] := by
      rw [Path.keys_getElem_one hremainder] at hempty
      exact Option.some.inj hempty
    refine .inr ⟨⟨s, ?_⟩, s, ?_⟩
    · rw [storeGuarded, if_pos ⟨rfl, hempty⟩]
      rfl
    · unfold storeField
      rw [hremainder]
      simp only [createValueUnderPath_empty hfirst]
      rfl
  · rw [storeGuarded, if_neg h]
    exact .inl rfl

section

variable {stop trap : ConfigException} {flavor : ConfigSyntax} {includer : Includer}
  {read read' : TokenWithComments → Parse (Value Unit)}
  (hread : ∀ t, Agrees stop trap (read t) (read' t))

include hread

theorem agrees_pieceOf (t : TokenWithComments) :
    Agrees stop trap (pieceOf read t) (pieceOf read' t) := by
  unfold pieceOf
  cases t.token with
  | openCurly | openSquare => exact (hread t).bind fun _ => .refl _
  | _ => exact .refl _

theorem agrees_piecesLoop (n : ℕ) (t : TokenWithComments) (values : List (Value Unit)) :
    Agrees stop trap (piecesLoop flavor read n t values) (piecesLoop flavor read' n t values) := by
  induction n generalizing t values with
  | zero => exact .refl _
  | succ n ih =>
      refine (agrees_pieceOf hread t).bind fun r => ?_
      cases r with
      | none => exact .refl _
      | some v => exact .seq fun next => ih next _

theorem agrees_consolidateValueTokens :
    Agrees stop trap (consolidateValueTokens flavor read) (consolidateValueTokens flavor read') := by
  cases flavor with
  | JSON => exact .refl _
  | CONF =>
      refine .seq fun t => .seq fun rounds => ?_
      exact (agrees_piecesLoop hread rounds t []).bind fun values => .refl _

-- What is done with the token that a value starts with.
theorem agrees_valueThen {β : Type} {f f' : TokenWithComments → Parse β}
    (hf : ∀ t, Agrees stop trap (f t) (f' t)) :
    Agrees stop trap
      (do
        consolidateValueTokens flavor read
        let t ← nextTokenIgnoringNewline flavor
        f t)
      (do
        consolidateValueTokens flavor read'
        let t ← nextTokenIgnoringNewline flavor
        f' t) :=
  (agrees_consolidateValueTokens hread).bind fun _ => .seq hf

theorem agrees_parseFieldValue (afterKey : TokenWithComments) :
    Agrees stop trap (parseFieldValue flavor read afterKey)
      (parseFieldValue flavor read' afterKey) := by
  unfold parseFieldValue
  cases flavor <;> cases afterKey.token with
  | colon => exact agrees_valueThen hread hread
  | equals => first | exact agrees_valueThen hread hread | exact .refl _
  | openCurly => first | exact hread afterKey | exact .refl _
  | plusEquals =>
      first
      | exact .refl _
      | exact agrees_valueThen hread fun t => (hread t).bind fun v => .refl _
  | _ => exact .refl _

theorem agrees_parseArrayLoop (n : ℕ) (values : List (Value Unit)) :
    Agrees stop trap (parseArrayLoop flavor read n values) (parseArrayLoop flavor read' n values) := by
  induction n generalizing values with
  | zero => exact .refl _
  | succ n ih =>
      refine .seq fun separated => .ite (fun _ => ?_) fun _ => .refl _
      refine agrees_valueThen hread fun t => .ite (fun _ => ?_) fun _ => ?_
      · exact (hread t).bind fun v => ih _
      · exact .ite (fun _ => .seq fun _ => ih values) fun _ => .refl _

theorem agrees_parseArray :
    Agrees stop trap (parseArray flavor read) (parseArray flavor read') := by
  refine agrees_valueThen hread fun t => .ite (fun _ => .refl _) fun _ => ?_
  refine .ite (fun _ => (hread t).bind fun v => .seq fun n => ?_) fun _ => .refl _
  exact (agrees_parseArrayLoop hread n [v]).bind fun _ => .refl _

variable {store store' : Store}
  (hstore : ∀ values path v, Agrees stop trap (store values path v) (store' values path v))

include hstore

theorem agrees_parseFieldWith (values : Fields Unit) (keyToken : TokenWithComments) :
    Agrees stop trap (parseFieldWith flavor store read values keyToken)
      (parseFieldWith flavor store' read' values keyToken) := by
  refine .seq fun path => .seq fun afterKey => .seq fun _ => ?_
  exact (agrees_parseFieldValue hread afterKey).bind fun newValue => .seq fun _ =>
    hstore values path newValue

theorem agrees_parseObjectLoopWith (hadOpenCurly : Bool) (n : ℕ) (afterComma : Bool)
    (values : Fields Unit) :
    Agrees stop trap (parseObjectLoopWith flavor includer store read hadOpenCurly n afterComma values)
      (parseObjectLoopWith flavor includer store' read' hadOpenCurly n afterComma values) := by
  induction n generalizing afterComma values with
  | zero => exact .refl _
  | succ n ih =>
      refine .seq fun t => ?_
      have hafter (values : Fields Unit) : Agrees stop trap
          (do
            if ← closeField flavor hadOpenCurly then
              parseObjectLoopWith flavor includer store read hadOpenCurly n true values
            else return values)
          (do
            if ← closeField flavor hadOpenCurly then
              parseObjectLoopWith flavor includer store' read' hadOpenCurly n true values
            else return values) :=
        .seq fun _ => .ite (fun _ => ih true values) fun _ => .refl _
      dsimp only
      split
      · exact .refl _
      · exact .refl _
      · refine .ite (fun _ => .seq hafter) fun _ => ?_
        exact (agrees_parseFieldWith hread hstore values t).bind hafter

theorem agrees_parseObjectWith (hadOpenCurly : Bool) :
    Agrees stop trap (parseObjectWith flavor includer store read hadOpenCurly)
      (parseObjectWith flavor includer store' read' hadOpenCurly) :=
  .seq fun n => (agrees_parseObjectLoopWith hread hstore hadOpenCurly n false []).bind fun _ =>
    .refl _

end

section

variable {stop trap : ConfigException} {store store' : Store}
  (hstore : ∀ values path v, Agrees stop trap (store values path v) (store' values path v))

include hstore

theorem agrees_parseValueWith (flavor : ConfigSyntax) (includer : Includer) (depth : ℕ)
    (t : TokenWithComments) :
    Agrees stop trap (parseValueWith flavor includer store depth t)
      (parseValueWith flavor includer store' depth t) := by
  induction depth generalizing t with
  | zero => exact .refl _
  | succ depth ih =>
      unfold parseValueWith
      cases t.token with
      | openCurly => exact agrees_parseObjectWith ih hstore true
      | openSquare => exact agrees_parseArray ih
      | _ => exact .refl _

theorem agrees_parseDocumentWith (flavor : ConfigSyntax) (includer : Includer) :
    Agrees stop trap (parseDocumentWith flavor includer store)
      (parseDocumentWith flavor includer store') := by
  refine .seq fun depth => .seq fun t => ?_
  have hvalue := agrees_parseValueWith hstore flavor includer depth
  cases t.token with
  | start =>
      refine .seq fun t => ?_
      dsimp only
      split
      · exact (hvalue t).bind fun _ => .refl _
      · exact (hvalue t).bind fun _ => .refl _
      · exact .refl _
      · exact .refl _
      · exact .seq fun _ => (agrees_parseObjectWith hvalue hstore false).bind fun _ => .refl _
  | _ => exact .refl _

end

-- Without such a field the guard changes nothing; with one the parser leaves the standard.
theorem parse_guarded (doubles : Doubles) (includer : Includer) (flavor : ConfigSyntax)
    (input : Bytes) :
    parseWith doubles includer (storeGuarded flavor) flavor input =
        parse doubles includer flavor input ∨
      ReachesEmptyKey doubles includer flavor input ∧
        parse doubles includer flavor input = .error noKeys := by
  unfold ReachesEmptyKey
  rw [← parseWith_storeField]
  unfold parseWith
  rcases agrees_parseDocumentWith (agrees_storeGuarded flavor) flavor includer
    { tokens := tokenize doubles input flavor, buffer := [], pathStack := [] } with
    heq | ⟨⟨s, hstop⟩, s', htrap⟩
  · rw [heq]
    exact .inl rfl
  · rw [hstop, htrap]
    exact .inr ⟨rfl, rfl⟩

end AsrServiceProxy.Config

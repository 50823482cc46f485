import AsrServiceProxy.Config.Merge
import AsrServiceProxy.Config.Tokenizer

-- The parser of the config library. Origins are left out, and so is what only
-- ends up in the texts of errors.
namespace AsrServiceProxy.Config

open CMemory

structure TokenWithComments where
  token : Token
  comments : List Bytes

-- `tokens` is what the token stream is still to give, `pathStack` has the
-- innermost path at the front.
structure ParseContext where
  tokens : List Token
  buffer : List TokenWithComments
  pathStack : List Path

abbrev Parse := EStateM ConfigException ParseContext

-- What an included file holds, or the exception of the includer.
structure Includer where
  include_ : Bytes → Except ConfigException (Value Unit)
  includeFile : Bytes → Except ConfigException (Value Unit)

def Includer.none : Includer where
  include_ _ := .error (.parse "include")
  includeFile _ := .error (.parse "include")

def ofMake {α : Type} (m : Make Unit α) : Parse α := fun s =>
  match m () with
  | .ok a _ => .ok a s
  | .error e _ => .error e s

def ofExcept {α : Type} (m : Except ConfigException α) : Parse α := fun s =>
  match m with
  | .ok a => .ok a s
  | .error e => .error e s

-- `values[key] = value`
def putField (values : Fields Unit) (key : Bytes) (value : Value Unit) : Fields Unit :=
  if (values.lookup key).isSome then
    values.map fun field => if field.1 = key then (key, value) else field
  else values ++ [(key, value)]

-- `tokens->next()`; after the end the queue of the stream is empty.
def streamNext : Parse Token := fun s =>
  match s.tokens with
  | [] => .error (.undefinedBehaviour "front of an empty queue") s
  | .thrown e :: _ => .error e s
  | t :: rest => .ok t { s with tokens := rest }

def parseRounds : Parse ℕ := fun s => .ok (s.tokens.length + s.buffer.length + 1) s

-- The newlines and the comments that a comment is followed by, and the token
-- after them; a blank line drops the comments before it.
def commentBlockLoop : ℕ → Bool → ℕ → List Bytes → Token → Parse (ℕ × List Bytes × Token)
  | 0, _, _, _, _ => throw .outOfFuel
  | n + 1, previousNewline, newlines, comments, next => do
      match next with
      | .newline =>
          commentBlockLoop n true (newlines + 1) (if previousNewline then [] else comments)
            (← streamNext)
      | .comment text => commentBlockLoop n false newlines (comments ++ [text]) (← streamNext)
      | next => return (newlines, comments, next)

def consolidateCommentBlock (commentToken : Token) : Parse Unit := do
  let (newlines, comments, next) ←
    commentBlockLoop ((← parseRounds) + 1) false 0 [] commentToken
  modify fun s => { s with
    buffer := List.replicate newlines { token := .newline, comments := [] } ++
      { token := next, comments := comments } :: s.buffer }

def popBuffer : Parse TokenWithComments := fun s =>
  match s.buffer with
  | [] => .error (.undefinedBehaviour "front of an empty buffer") s
  | t :: rest => .ok t { s with buffer := rest }

def popToken : Parse TokenWithComments := do
  if (← get).buffer.isEmpty then
    match ← streamNext with
    | .comment text =>
        consolidateCommentBlock (.comment text)
        popBuffer
    | t => return { token := t, comments := [] }
  else popBuffer

def putBackToken (t : TokenWithComments) : Parse Unit := fun s =>
  .ok () { s with buffer := t :: s.buffer }

-- `parse_path_expression`: each element of the path with `can_be_empty`.
structure Element where
  element : Bytes
  canBeEmpty : Bool
deriving DecidableEq, Repr

-- `buf` without its last element, and the last one.
structure Elements where
  front : List Element
  current : Element
deriving DecidableEq, Repr

-- `add_path_text` outside quotes; each round takes a period.
def addUnquotedLoop : ℕ → Elements → Bytes → Elements
  | 0, buf, _ => buf
  | n + 1, buf, newText =>
      match newText.findIdx? (· = 46) with
      | none => { buf with current.element := buf.current.element ++ newText }
      | some i =>
          addUnquotedLoop n
            { front := buf.front ++
                [{ buf.current with element := buf.current.element ++ newText.take i }]
              current := { element := [], canBeEmpty := false } }
            (newText.drop (i + 1))

def addPathText (buf : Elements) (wasQuoted : Bool) (newText : Bytes) : Elements :=
  if wasQuoted then
    let element := buf.current.element ++ newText
    { buf with current :=
        { element := element, canBeEmpty := buf.current.canBeEmpty || element.isEmpty } }
  else addUnquotedLoop (newText.length + 1) buf newText

def addPathTokens : List Token → Elements → Except ConfigException Elements
  | [], buf => .ok buf
  | .value (.configString _ s) :: rest, buf => addPathTokens rest (addPathText buf true s)
  | .end_ :: rest, buf => addPathTokens rest buf
  | .value v :: rest, buf => addPathTokens rest (addPathText buf false v.transformToString)
  | .unquotedText s :: rest, buf => addPathTokens rest (addPathText buf false s)
  | _ :: _, _ => .error (.badPath "Token not allowed in path expression: ")

def parsePathExpression (expression : List Token) : Except ConfigException Path := do
  if expression.isEmpty then
    .error (.badPath "_expecting a field name or path here, but got nothing")
  let buf ← addPathTokens expression
    { front := [], current := { element := [], canBeEmpty := false } }
  let elements := buf.front ++ [buf.current]
  if elements.any fun e => e.element.isEmpty && ¬e.canBeEmpty then
    .error (.badPath "path has a leading, trailing, or two adjacent period '.'")
  match PathBuilder.result (elements.map Element.element) with
  | none => .error (.bugOrBroken "empty path")
  | some path => .ok path

-- The keys of a path up to the first empty one.
def keysUnderPath (path : Path) : List Bytes := path.keys.takeWhile (· ≠ [])

def createValueUnderPath (path : Path) (value : Value Unit) : Except ConfigException (Value Unit) :=
  match (keysUnderPath path).reverse with
  | [] => .error (.undefinedBehaviour "rbegin of an empty vector")
  | deepest :: rest =>
      .ok (rest.foldl (fun o key => .simpleConfigObject () [(key, o)] false)
        (.simpleConfigObject () [(deepest, value)] false))

-- `Path(VectorPath)` on the paths from the innermost out.
def pathsToConcat (paths : List Path) : Option Path := PathBuilder.result (paths.flatMap Path.keys)

-- `full_current_path`: each further path comes before the ones so far.
def fullCurrentPath : List Path → Option Path
  | [] => none
  | p :: rest => some (rest.foldl (fun full p => full.prepend p) p)

-- The contents that `relativized` gives.
mutual

def relativized (path : Path) : Value Unit → Value Unit
  | .configReference id expr prefixLength =>
      .configReference id { expr with path := expr.path.prepend path } (prefixLength + path.length)
  | .simpleConfigList id value => .simpleConfigList id (relativizedAll path value)
  | .simpleConfigObject id value ignores =>
      .simpleConfigObject id (relativizedFields path value) ignores
  | .configConcatenation id pieces => .configConcatenation id (relativizedAll path pieces)
  | .configDelayedMerge id stack => .configDelayedMerge id (relativizedAll path stack)
  | .configDelayedMergeObject id stack => .configDelayedMergeObject id (relativizedAll path stack)
  | v => v

def relativizedAll (path : Path) : List (Value Unit) → List (Value Unit)
  | [] => []
  | v :: rest => relativized path v :: relativizedAll path rest

def relativizedFields (path : Path) : List (Bytes × Value Unit) → List (Bytes × Value Unit)
  | [] => []
  | (key, v) :: rest => (key, relativized path v) :: relativizedFields path rest

end

def isUnquotedWhitespace : Token → Bool
  | .unquotedText s => s.all StringUtil.isspace
  | _ => false

section

variable (flavor : ConfigSyntax) (includer : Includer)

def nextToken : Parse TokenWithComments := do
  let withComments ← popToken
  match withComments.token with
  | .problem _ message _ => throw (.parse message)
  | .unquotedText _ =>
      if flavor = .JSON then throw (.parse "_token not allowed in valid JSON: '")
      else return withComments
  | .substitution _ _ =>
      if flavor = .JSON then throw (.parse "_substitutions syntax not allowed in JSON")
      else return withComments
  | _ => return withComments

def ignoringNewlineLoop : ℕ → Parse TokenWithComments
  | 0 => throw .outOfFuel
  | n + 1 => do
      let t ← nextToken flavor
      match t.token with
      | .newline => ignoringNewlineLoop n
      | _ => return t

def nextTokenIgnoringNewline : Parse TokenWithComments := do
  ignoringNewlineLoop flavor (← parseRounds)

def separatorLoop : ℕ → Bool → Parse Bool
  | 0, _ => throw .outOfFuel
  | n + 1, sawSeparatorOrNewline => do
      let t ← nextToken flavor
      match t.token with
      | .newline => separatorLoop n true
      | .comma => return true
      | _ =>
          putBackToken t
          return sawSeparatorOrNewline

def checkElementSeparator : Parse Bool := do
  match flavor with
  | .JSON =>
      let t ← nextTokenIgnoringNewline .JSON
      match t.token with
      | .comma => return true
      | _ =>
          putBackToken t
          return false
  | .CONF => separatorLoop .CONF (← parseRounds) false

section

variable (parseValue : TokenWithComments → Parse (Value Unit))

-- The value that a token stands for in a concatenation, if it does.
def pieceOf (t : TokenWithComments) : Parse (Option (Value Unit)) := do
  match t.token with
  | .value v => return some v
  | .unquotedText s => return some (.configString () s)
  | .substitution optional expression =>
      let path ← ofExcept (parsePathExpression expression)
      return some (.configReference () { path := path, optional := optional } 0)
  | .openCurly | .openSquare => return some (← parseValue t)
  | _ => return none

-- The loop of `consolidate_value_tokens` from token `t` on: the pieces, with
-- the token that ended them put back.
def piecesLoop : ℕ → TokenWithComments → List (Value Unit) → Parse (List (Value Unit))
  | 0, _, _ => throw .outOfFuel
  | n + 1, t, values => do
      match ← pieceOf parseValue t with
      | none =>
          putBackToken t
          return values
      | some v => piecesLoop n (← nextToken flavor) (values ++ [v])

def consolidateValueTokens : Parse Unit := do
  match flavor with
  | .JSON => return
  | .CONF =>
      let t ← nextTokenIgnoringNewline .CONF
      let values ← piecesLoop .CONF parseValue (← parseRounds) t []
      if values.isEmpty then return
      match ← ofMake (concatenate .plain values) with
      | none => throw (.undefinedBehaviour "null value")
      | some consolidated =>
          putBackToken { token := .value consolidated, comments := t.comments }

def keyLoop : ℕ → TokenWithComments → List Token → Parse (List Token)
  | 0, _, _ => throw .outOfFuel
  | n + 1, t, expression => do
      match t.token with
      | .value _ | .unquotedText _ =>
          keyLoop n (← nextToken flavor) (expression ++ [t.token])
      | _ =>
          if expression.isEmpty then
            throw (.parse "expecting a close brace or a field name here, got ")
          putBackToken t
          return expression

def parseKey (token : TokenWithComments) : Parse Path := do
  match flavor with
  | .JSON =>
      match token.token with
      | .value (.configString _ key) => return .newKey key
      | _ => throw (.parse "_expecting close brace \x7d or a field name here, got ")
  | .CONF =>
      let expression ← keyLoop .CONF ((← parseRounds) + 1) token []
      ofExcept (parsePathExpression expression)

def skipWhitespaceLoop : ℕ → TokenWithComments → Parse TokenWithComments
  | 0, _ => throw .outOfFuel
  | n + 1, t => do
      if isUnquotedWhitespace t.token then
        skipWhitespaceLoop n (← nextTokenIgnoringNewline flavor)
      else return t

-- `next_token_ignoring_newline`, and past whitespace.
def nextAfterWhitespace : Parse TokenWithComments := do
  let t ← nextTokenIgnoringNewline flavor
  skipWhitespaceLoop flavor ((← parseRounds) + 1) t

def addIncluded : List (Bytes × Value Unit) → Fields Unit → Parse (Fields Unit)
  | [], values => return values
  | (key, v) :: rest, values => do
      match values.lookup key with
      | none => addIncluded rest (putField values key v)
      | some existing =>
          let merged ← ofMake (withFallback .plain v existing)
          addIncluded rest (putField values key merged)

-- The name after `include`, and whether it stands in `file()`.
def includeName : Parse (Bytes × Bool) := do
  let t ← nextAfterWhitespace flavor
  match t.token with
  | .unquotedText kind =>
      if kind ≠ ascii "file(" then
        throw (.parse "expecting include parameter to be quoted filename, or file(). ")
      let t ← nextAfterWhitespace flavor
      match t.token with
      | .value (.configString _ name) =>
          let t ← nextAfterWhitespace flavor
          match t.token with
          | .unquotedText text =>
              if text = ascii ")" then return (name, true)
              else throw (.parse "expecting a close parentheses ')' here, not: ")
          | _ => throw (.parse "expecting a close parentheses ')' here, not: ")
      | _ => throw (.parse "expecting a quoted string inside file(), rather than: ")
  | .value (.configString _ name) => return (name, false)
  | _ => throw (.parse "include keyword is not followed by a quoted string, but by: ")

def parseInclude (values : Fields Unit) : Parse (Fields Unit) := do
  let (name, file) ← includeName flavor
  let obj ← ofExcept (if file then includer.includeFile name else includer.include_ name)
  let obj := match pathsToConcat (← get).pathStack with
    | none => obj
    | some path => relativized path obj
  match obj with
  | .simpleConfigObject _ fields _ => addIncluded fields values
  | _ => throw (.notResolved "need to Config#resolve() before using this object")

-- The value of `a += v`.
def plusEqualsValue (newValue : Value Unit) : Parse (Value Unit) := do
  match fullCurrentPath (← get).pathStack with
  | none => throw (.undefinedBehaviour "null path")
  | some path =>
      let previousRef : Value Unit := .configReference () { path := path, optional := true } 0
      match ← ofMake (concatenate .plain [previousRef, .simpleConfigList () [newValue]]) with
      | none => throw (.undefinedBehaviour "null value")
      | some v => return v

-- The value of a field, from the token after its key on.
def parseFieldValue (afterKey : TokenWithComments) : Parse (Value Unit) := do
  match flavor, afterKey.token with
  | .CONF, .openCurly => parseValue afterKey
  | _, .colon | .CONF, .equals =>
      consolidateValueTokens flavor parseValue
      parseValue (← nextTokenIgnoringNewline flavor)
  | .CONF, .plusEquals => do
      consolidateValueTokens flavor parseValue
      plusEqualsValue (← parseValue (← nextTokenIgnoringNewline flavor))
  | _, _ => throw (.parse "_key may not be followed by token: ")

-- A new value for a path in the fields read so far.
def storeField (values : Fields Unit) (path : Path) (newValue : Value Unit) :
    Parse (Fields Unit) := do
  match path.remainder with
  | none =>
      match values.lookup path.first with
      | none => return putField values path.first newValue
      | some existing =>
          if flavor = .JSON then throw (.parse "JSON does not allow duplicate fields: '")
          let merged ← ofMake (withFallback .plain newValue existing)
          return putField values path.first merged
  | some remaining =>
      if flavor = .JSON then
        throw (.bugOrBroken "somehow got multi-element path in JSON mode")
      let obj ← ofExcept (createValueUnderPath remaining newValue)
      match values.lookup path.first with
      | none => return putField values path.first obj
      | some existing =>
          let merged ← ofMake (withFallback .plain obj existing)
          return putField values path.first merged

def pushPath (path : Path) : Parse Unit := fun s =>
  .ok () { s with pathStack := path :: s.pathStack }

def popPath : Parse Unit := fun s => .ok () { s with pathStack := s.pathStack.tail }

def parseField (values : Fields Unit) (keyToken : TokenWithComments) : Parse (Fields Unit) := do
  let path ← parseKey flavor keyToken
  let afterKey ← nextTokenIgnoringNewline flavor
  pushPath path
  let newValue ← parseFieldValue flavor parseValue afterKey
  popPath
  storeField flavor values path newValue

def isIncludeKeyword : Token → Bool
  | .unquotedText s => s = ascii "include"
  | _ => false

-- The end of a round of `parse_object`: whether another one follows, and
-- whether it comes after a comma.
def closeField (hadOpenCurly : Bool) : Parse Bool := do
  if ← checkElementSeparator flavor then return true
  let t ← nextTokenIgnoringNewline flavor
  match t.token, hadOpenCurly with
  | .closeCurly, true => return false
  | .closeCurly, false => throw (.parse "unbalanced close brace '\x7d' with no open brace")
  | _, true => throw (.parse "_expecting close brace \x7d or a comma, got ")
  | .end_, false =>
      putBackToken t
      return false
  | _, false => throw (.parse "_expecting end of input or a comma, got ")

def parseObjectLoop (hadOpenCurly : Bool) : ℕ → Bool → Fields Unit → Parse (Fields Unit)
  | 0, _, _ => throw .outOfFuel
  | n + 1, afterComma, values => do
      let t ← nextTokenIgnoringNewline flavor
      match t.token, hadOpenCurly with
      | .closeCurly, _ =>
          if flavor = .JSON && afterComma then
            throw (.parse "expecting a field name after a comma, got a close brace \x7d instead")
          else if ¬hadOpenCurly then
            throw (.parse "unbalanced close brace '\x7d' with no open brace")
          else return values
      | .end_, false =>
          putBackToken t
          return values
      | _, _ =>
          let values ←
            if flavor ≠ .JSON && isIncludeKeyword t.token then parseInclude flavor includer values
            else parseField flavor parseValue values t
          if ← closeField flavor hadOpenCurly then parseObjectLoop hadOpenCurly n true values
          else return values

def parseObject (hadOpenCurly : Bool) : Parse (Value Unit) := do
  let values ←
    parseObjectLoop flavor includer parseValue hadOpenCurly (← parseRounds) false []
  return .simpleConfigObject () values false

-- Whether a token can start an element.
def startsElement : Token → Bool
  | .value _ | .openCurly | .openSquare => true
  | _ => false

def isCloseSquare : Token → Bool
  | .closeSquare => true
  | _ => false

-- The remaining elements.
def parseArrayLoop : ℕ → List (Value Unit) → Parse (List (Value Unit))
  | 0, _ => throw .outOfFuel
  | n + 1, values => do
      if ← checkElementSeparator flavor then
        consolidateValueTokens flavor parseValue
        let t ← nextTokenIgnoringNewline flavor
        if startsElement t.token then
          let v ← parseValue t
          parseArrayLoop n (values ++ [v])
        else if flavor ≠ .JSON && isCloseSquare t.token then
          -- one trailing comma is allowed
          putBackToken t
          parseArrayLoop n values
        else throw (.parse "_list should have had new element after a comma, instead had token: ")
      else
        let t ← nextTokenIgnoringNewline flavor
        if isCloseSquare t.token then return values
        else throw (.parse "_list should have ended with ] or had a comma, instead had token: ")

def parseArray : Parse (Value Unit) := do
  consolidateValueTokens flavor parseValue
  let t ← nextTokenIgnoringNewline flavor
  if isCloseSquare t.token then return .simpleConfigList () []
  else if startsElement t.token then
    let v ← parseValue t
    let values ← parseArrayLoop flavor parseValue (← parseRounds) [v]
    return .simpleConfigList () values
  else
    throw (.parse "_list should have ] or a first element after the open [, instead had token: ")

end

-- The first argument bounds the nesting of objects and lists.
def parseValue : ℕ → TokenWithComments → Parse (Value Unit)
  | 0, _ => throw .outOfFuel
  | depth + 1, t => do
      match t.token with
      | .value v => return v
      | .openCurly => parseObject flavor includer (parseValue depth) true
      | .openSquare => parseArray flavor (parseValue depth)
      | _ => throw (.parse "_expecting a value but got wrong token: ")

-- `ParseContext::parse`
def parseDocument : Parse (Value Unit) := do
  let depth ← parseRounds
  let t ← nextTokenIgnoringNewline flavor
  match t.token with
  | .start =>
      let t ← nextTokenIgnoringNewline flavor
      let result ←
        match t.token, flavor with
        | .openCurly, _ | .openSquare, _ => parseValue flavor includer depth t
        | .end_, .JSON => throw (.parse "_empty document")
        | _, .JSON => throw (.parse "_document must have an object or array at root")
        | _, .CONF => do
            putBackToken t
            parseObject flavor includer (parseValue flavor includer depth) false
      let t ← nextTokenIgnoringNewline flavor
      match t.token with
      | .end_ => return result
      | _ => throw (.parse "_document has trailing tokens after first object or array: ")
  | _ => throw (.bugOrBroken "token stream did not begin with start, had ")

end

-- `Parser::parse` on the tokens of a text.
def parse (doubles : Doubles) (includer : Includer) (flavor : ConfigSyntax) (input : Bytes) :
    Except ConfigException (Value Unit) :=
  match parseDocument flavor includer
      { tokens := tokenize doubles input flavor, buffer := [], pathStack := [] } with
  | .ok v _ => .ok v
  | .error e _ => .error e

end AsrServiceProxy.Config

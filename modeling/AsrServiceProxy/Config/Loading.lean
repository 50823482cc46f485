import AsrServiceProxy.Config.Parser

-- Files and their includes: `Parseable` with the static stack of the files that are
-- being parsed, and the parser once more for includes that use this stack.
namespace AsrServiceProxy.Config

open CMemory

-- What is known of the files: what the ones that can be opened hold, and the
-- functions on paths.
structure FileSystem where
  contents : Bytes → Option Bytes
  fileExists : Bytes → Bool
  hasRootDirectory : Bytes → Bool
  parentPath : Bytes → Bytes
  -- `parent /= filename`
  join : Bytes → Bytes → Bytes

-- `io` is `ConfigExceptionIO` with the exceptions derived from it.
inductive LoadException where
  | config (e : ConfigException)
  | io (message : Bytes)
deriving DecidableEq, Repr

-- No syntax is `ConfigSyntax::NONE`; the includer is always the default one.
structure ConfigParseOptions where
  configSyntax : Option ConfigSyntax
  allowMissing : Bool
deriving DecidableEq, Repr

inductive ParseableKind where
  | file (input : Bytes)
  | string (input : Bytes)
  | reader (text : Bytes)
  | notFound (message : Bytes)
deriving DecidableEq, Repr

structure Parseable where
  kind : ParseableKind
  initialOptions : ConfigParseOptions
deriving DecidableEq, Repr

def MAX_INCLUDE_DEPTH : ℕ := 50

-- The static stack, and the largest size it has had, which the code does not keep.
structure Statics where
  parseStack : List Parseable
  peak : ℕ
deriving DecidableEq, Repr

abbrev Loader := EStateM LoadException Statics

abbrev LoadParse := EStateM LoadException (ParseContext × Statics)

-- `includer` with `include_context`.
structure LoadIncluder where
  include_ : Bytes → Loader (Value Unit)
  includeFile : Bytes → Loader (Value Unit)

namespace Loading

def ofParse {α : Type} (m : Parse α) : LoadParse α := fun s =>
  match m s.1 with
  | .ok a context => .ok a (context, s.2)
  | .error e context => .error (.config e) (context, s.2)

def ofLoader {α : Type} (m : Loader α) : LoadParse α := fun s =>
  match m s.2 with
  | .ok a statics => .ok a (s.1, statics)
  | .error e statics => .error e (s.1, statics)

section

variable (flavor : ConfigSyntax) (includer : LoadIncluder)

section

variable (parseValue : TokenWithComments → LoadParse (Value Unit))

def pieceOf (t : TokenWithComments) : LoadParse (Option (Value Unit)) := do
  match t.token with
  | .value v => return some v
  | .unquotedText s => return some (.configString () s)
  | .substitution optional expression =>
      let path ← ofParse (ofExcept (parsePathExpression expression))
      return some (.configReference () { path := path, optional := optional } 0)
  | .openCurly | .openSquare => return some (← parseValue t)
  | _ => return none

def piecesLoop : ℕ → TokenWithComments → List (Value Unit) → LoadParse (List (Value Unit))
  | 0, _, _ => throw (.config .outOfFuel)
  | n + 1, t, values => do
      match ← pieceOf parseValue t with
      | none =>
          ofParse (putBackToken t)
          return values
      | some v => piecesLoop n (← ofParse (nextToken flavor)) (values ++ [v])

def consolidateValueTokens : LoadParse Unit := do
  match flavor with
  | .JSON => return
  | .CONF =>
      let t ← ofParse (nextTokenIgnoringNewline .CONF)
      let values ← piecesLoop .CONF parseValue (← ofParse parseRounds) t []
      if values.isEmpty then return
      match ← ofParse (ofMake (concatenate .plain values)) with
      | none => throw (.config (.undefinedBehaviour "null value"))
      | some consolidated =>
          ofParse (putBackToken { token := .value consolidated, comments := t.comments })

def parseInclude (values : Fields Unit) : LoadParse (Fields Unit) := do
  let (name, file) ← ofParse (includeName flavor)
  let obj ← ofLoader (if file then includer.includeFile name else includer.include_ name)
  let obj := match pathsToConcat (← ofParse get).pathStack with
    | none => obj
    | some path => relativized path obj
  match obj with
  | .simpleConfigObject _ fields _ => ofParse (addIncluded fields values)
  | _ => throw (.config (.notResolved "need to Config#resolve() before using this object"))

def parseFieldValue (afterKey : TokenWithComments) : LoadParse (Value Unit) := do
  match flavor, afterKey.token with
  | .CONF, .openCurly => parseValue afterKey
  | _, .colon | .CONF, .equals =>
      consolidateValueTokens flavor parseValue
      parseValue (← ofParse (nextTokenIgnoringNewline flavor))
  | .CONF, .plusEquals => do
      consolidateValueTokens flavor parseValue
      let v ← parseValue (← ofParse (nextTokenIgnoringNewline flavor))
      ofParse (plusEqualsValue v)
  | _, _ => throw (.config (.parse "_key may not be followed by token: "))

def parseField (values : Fields Unit) (keyToken : TokenWithComments) :
    LoadParse (Fields Unit) := do
  let path ← ofParse (parseKey flavor keyToken)
  let afterKey ← ofParse (nextTokenIgnoringNewline flavor)
  ofParse (pushPath path)
  let newValue ← parseFieldValue flavor parseValue afterKey
  ofParse popPath
  ofParse (storeField flavor values path newValue)

def parseObjectLoop (hadOpenCurly : Bool) : ℕ → Bool → Fields Unit → LoadParse (Fields Unit)
  | 0, _, _ => throw (.config .outOfFuel)
  | n + 1, afterComma, values => do
      let t ← ofParse (nextTokenIgnoringNewline flavor)
      match t.token, hadOpenCurly with
      | .closeCurly, _ =>
          if flavor = .JSON && afterComma then
            throw (.config (.parse
              "expecting a field name after a comma, got a close brace \x7d instead"))
          else if ¬hadOpenCurly then
            throw (.config (.parse "unbalanced close brace '\x7d' with no open brace"))
          else return values
      | .end_, false =>
          ofParse (putBackToken t)
          return values
      | _, _ =>
          let values ←
            if flavor ≠ .JSON && isIncludeKeyword t.token then parseInclude flavor includer values
            else parseField flavor parseValue values t
          if ← ofParse (closeField flavor hadOpenCurly) then
            parseObjectLoop hadOpenCurly n true values
          else return values

def parseObject (hadOpenCurly : Bool) : LoadParse (Value Unit) := do
  let values ← parseObjectLoop flavor includer parseValue hadOpenCurly
    (← ofParse parseRounds) false []
  return .simpleConfigObject () values false

def parseArrayLoop : ℕ → List (Value Unit) → LoadParse (List (Value Unit))
  | 0, _ => throw (.config .outOfFuel)
  | n + 1, values => do
      if ← ofParse (checkElementSeparator flavor) then
        consolidateValueTokens flavor parseValue
        let t ← ofParse (nextTokenIgnoringNewline flavor)
        if startsElement t.token then
          let v ← parseValue t
          parseArrayLoop n (values ++ [v])
        else if flavor ≠ .JSON && isCloseSquare t.token then
          ofParse (putBackToken t)
          parseArrayLoop n values
        else throw (.config (.parse
          "_list should have had new element after a comma, instead had token: "))
      else
        let t ← ofParse (nextTokenIgnoringNewline flavor)
        if isCloseSquare t.token then return values
        else throw (.config (.parse
          "_list should have ended with ] or had a comma, instead had token: "))

def parseArray : LoadParse (Value Unit) := do
  consolidateValueTokens flavor parseValue
  let t ← ofParse (nextTokenIgnoringNewline flavor)
  if isCloseSquare t.token then return .simpleConfigList () []
  else if startsElement t.token then
    let v ← parseValue t
    let values ← parseArrayLoop flavor parseValue (← ofParse parseRounds) [v]
    return .simpleConfigList () values
  else throw (.config (.parse
    "_list should have ] or a first element after the open [, instead had token: "))

end

def parseValue : ℕ → TokenWithComments → LoadParse (Value Unit)
  | 0, _ => throw (.config .outOfFuel)
  | depth + 1, t => do
      match t.token with
      | .value v => return v
      | .openCurly => parseObject flavor includer (parseValue depth) true
      | .openSquare => parseArray flavor (parseValue depth)
      | _ => throw (.config (.parse "_expecting a value but got wrong token: "))

def parseDocument : LoadParse (Value Unit) := do
  let depth ← ofParse parseRounds
  let t ← ofParse (nextTokenIgnoringNewline flavor)
  match t.token with
  | .start =>
      let t ← ofParse (nextTokenIgnoringNewline flavor)
      let result ←
        match t.token, flavor with
        | .openCurly, _ | .openSquare, _ => parseValue flavor includer depth t
        | .end_, .JSON => throw (.config (.parse "_empty document"))
        | _, .JSON =>
            throw (.config (.parse "_document must have an object or array at root"))
        | _, .CONF => do
            ofParse (putBackToken t)
            parseObject flavor includer (parseValue flavor includer depth) false
      let t ← ofParse (nextTokenIgnoringNewline flavor)
      match t.token with
      | .end_ => return result
      | _ => throw (.config (.parse
          "_document has trailing tokens after first object or array: "))
  | _ => throw (.config (.bugOrBroken "token stream did not begin with start, had "))

end

-- `Parser::parse` with an includer that loads.
def parse (doubles : Doubles) (includer : LoadIncluder) (flavor : ConfigSyntax) (input : Bytes) :
    Loader (Value Unit) := fun s =>
  match parseDocument flavor includer
      ({ tokens := tokenize doubles input flavor, buffer := [], pathStack := [] }, s) with
  | .ok v (_, s) => .ok v s
  | .error e (_, s) => .error e s

end Loading

-- `boost::ends_with`
def endsWith (name suffix : Bytes) : Bool := suffix.isSuffixOf name

-- `Parseable::syntax_from_extension`
def syntaxFromExtension (name : Bytes) : Option ConfigSyntax :=
  if endsWith name (ascii ".json") then some .JSON
  else if endsWith name (ascii ".conf") then some .CONF
  else none

def ParseableKind.guessSyntax : ParseableKind → Option ConfigSyntax
  | .file input => syntaxFromExtension input
  | _ => none

def fixupOptions (kind : ParseableKind) (baseOptions : ConfigParseOptions) : ConfigParseOptions :=
  { baseOptions with
    configSyntax := some ((baseOptions.configSyntax <|> kind.guessSyntax).getD .CONF) }

-- The constructor with `post_construct`.
def Parseable.new (kind : ParseableKind) (baseOptions : ConfigParseOptions) : Parseable :=
  { kind := kind, initialOptions := fixupOptions kind baseOptions }

def Parseable.newNotFound (message : Bytes) (options : ConfigParseOptions) : Parseable :=
  .new (.notFound message) options

section

variable (fs : FileSystem) (doubles : Doubles)

-- The static `Parseable::relative_to`; an empty path is none.
def relativeToFile (file filename : Bytes) : Bytes :=
  if fs.hasRootDirectory filename then []
  else if (fs.parentPath file).isEmpty then []
  else fs.join (fs.parentPath file) filename

-- `relative_to`; only a file can give the null pointer.
def Parseable.relativeTo (self : Parseable) (filename : Bytes) : Option Parseable :=
  let notFound := Parseable.newNotFound
    (ascii "filename was not found: '" ++ filename ++ ascii "'") self.initialOptions
  match self.kind with
  | .file input =>
      let sibling :=
        if fs.hasRootDirectory filename then filename else relativeToFile fs input filename
      if sibling.isEmpty then none
      else if fs.fileExists sibling then some (.new (.file sibling) self.initialOptions)
      else some notFound
  | _ => some notFound

-- `SimpleIncluder::clear_for_include`
def clearForInclude (options : ConfigParseOptions) : ConfigParseOptions :=
  { options with configSyntax := none, allowMissing := true }

-- `name_to_parseable` of the two sources of names.
def relativeNameSource (context : Parseable) (name : Bytes) (options : ConfigParseOptions) :
    Parseable :=
  (context.relativeTo fs name).getD
    (.newNotFound (ascii "include was not found: '" ++ name ++ ascii "'") options)

def fileNameSource (name : Bytes) (options : ConfigParseOptions) : Parseable :=
  .new (.file name) options

def Loader.ofMake {α : Type} (m : Make Unit α) : Loader α := fun s =>
  match m () with
  | .ok a _ => .ok a s
  | .error e _ => .error (.config e) s

-- The result or the message of a `ConfigExceptionIO`.
def Loader.catchIo {α : Type} (m : Loader α) : Loader (Except Bytes α) := fun s =>
  match m s with
  | .ok a s' => .ok (.ok a) s'
  | .error (.io message) s' => .ok (.error message) s'
  | .error e s' => .error e s'

-- `finally` as `parse` has it: `after` is done whether `m` returns or throws.
def Loader.finallyDo {α : Type} (m : Loader α) (after : Statics → Statics) : Loader α := fun s =>
  match m s with
  | .ok a s' => .ok a (after s')
  | .error e s' => .error e (after s')

section

variable (parse : Parseable → ConfigParseOptions → Loader (Value Unit))

-- One of the two files of a name without an extension, if its syntax is wanted.
def parseCandidate (handle : Parseable) (wanted : Option ConfigSyntax) (flavor : ConfigSyntax) :
    Loader (Option (Except Bytes (Value Unit))) := do
  if wanted = none || wanted = some flavor then
    return some (← Loader.catchIo (parse handle
      { handle.initialOptions with allowMissing := false, configSyntax := some flavor }))
  else return none

-- What the two files make of the object that was empty at first.
def firstCandidate : Option (Except Bytes (Value Unit)) → Value Unit
  | some (.ok parsed) => parsed
  | _ => .simpleConfigObject () [] false

def secondCandidate (obj : Value Unit) :
    Option (Except Bytes (Value Unit)) → Loader (Value Unit)
  | some (.ok parsed) => Loader.ofMake (withFallback .plain obj parsed)
  | _ => return obj

def isFound : Option (Except Bytes (Value Unit)) → Bool
  | some (.ok _) => true
  | _ => false

def failMessage : Option (Except Bytes (Value Unit)) → Option Bytes
  | some (.error message) => some message
  | _ => none

-- `SimpleIncluder::from_basename`
def fromBasename (source : Bytes → ConfigParseOptions → Parseable) (name : Bytes)
    (options : ConfigParseOptions) : Loader (Value Unit) := do
  if endsWith name (ascii ".conf") || endsWith name (ascii ".json") then
    let p := source name options
    parse p { p.initialOptions with allowMissing := options.allowMissing }
  else
    let confHandle := source (name ++ ascii ".conf") options
    let jsonHandle := source (name ++ ascii ".json") options
    let conf ← parseCandidate parse confHandle options.configSyntax .CONF
    let json ← parseCandidate parse jsonHandle options.configSyntax .JSON
    let obj ← secondCandidate (firstCandidate conf) json
    if ¬options.allowMissing && ¬(isFound conf || isFound json) then
      let messages := (failMessage conf).toList ++ (failMessage json).toList
      if messages.isEmpty then
        throw (.config (.bugOrBroken
          "should not be reached: nothing found but no exceptions thrown"))
      else throw (.io (List.intercalate (ascii ", ") messages))
    return obj

-- The default includer in the context of a file.
def simpleIncluder (context : Parseable) : LoadIncluder where
  include_ name := fromBasename parse (relativeNameSource fs context) name
    (clearForInclude context.initialOptions)
  includeFile file := fromBasename parse fileNameSource file
    (clearForInclude context.initialOptions)

-- What `reader()` gives to be read.
def Parseable.reader (self : Parseable) : Except LoadException Bytes :=
  match self.kind with
  | .file input =>
      match fs.contents input with
      | some text => .ok text
      | none => .error (.io (input ++ ascii " not found"))
  | .string input => .ok input
  | .reader text => .ok text
  | .notFound message => .error (.io (message ++ ascii " not found"))

def Parseable.rawParseValue (self : Parseable) (finalOptions : ConfigParseOptions) :
    Loader (Value Unit) :=
  match self.reader fs with
  | .error e => throw e
  | .ok text => Loading.parse doubles (simpleIncluder fs parse self)
      (finalOptions.configSyntax.getD .CONF) text

def Parseable.parseValue (self : Parseable) (baseOptions : ConfigParseOptions) :
    Loader (Value Unit) := do
  let options := fixupOptions self.kind baseOptions
  match ← Loader.catchIo (self.rawParseValue fs doubles parse options) with
  | .ok v => return v
  | .error message =>
      if options.allowMissing then return .simpleConfigObject () [] false
      else throw (.io message)

def forceParsedToObject (value : Value Unit) : Loader (Value Unit) :=
  if value.isObject then return value
  else throw (.config (.wrongType "object at file root"))

-- `parse()`, which does not use the stack itself.
def Parseable.parseInitial (self : Parseable) : Loader (Value Unit) := do
  forceParsedToObject (← self.parseValue fs doubles parse self.initialOptions)

def Parseable.push (self : Parseable) (s : Statics) : Statics where
  parseStack := self :: s.parseStack
  peak := max s.peak (s.parseStack.length + 1)

def Statics.pop (s : Statics) : Statics := { s with parseStack := s.parseStack.tail }

-- `parse(base_options)` above the calls that its includes make.
def Parseable.parsePushed (self : Parseable) (baseOptions : ConfigParseOptions) :
    Loader (Value Unit) := do
  if MAX_INCLUDE_DEPTH ≤ (← get).parseStack.length then
    throw (.config (.parse "include statements nested more than "))
  modify self.push
  Loader.finallyDo (do forceParsedToObject (← self.parseValue fs doubles parse baseOptions))
    Statics.pop

end

-- The number bounds the depth of the recursion.
def Parseable.parse : ℕ → Parseable → ConfigParseOptions → Loader (Value Unit)
  | 0, _, _ => throw (.config .outOfFuel)
  | n + 1, self, baseOptions => self.parsePushed fs doubles (Parseable.parse n) baseOptions

end

end AsrServiceProxy.Config

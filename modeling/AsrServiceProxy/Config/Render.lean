import AsrServiceProxy.Config.Value
import AsrServiceProxy.Utils.StringUtil

-- How the config library prints values, with both kinds of comments off.
namespace AsrServiceProxy.Config

open CMemory

-- The character classes of the C locale, which hold no byte above 127.
def iscntrl (b : UInt8) : Bool := b < 32 || b = 127

def isdigit (b : UInt8) : Bool := 48 ≤ b && b ≤ 57

def isalpha (b : UInt8) : Bool := (65 ≤ b && b ≤ 90) || (97 ≤ b && b ≤ 122)

structure ConfigRenderOptions where
  formatted : Bool
  json : Bool
deriving DecidableEq, Repr

-- A digit under `std::hex << std::nouppercase`.
def hexDigit (n : ℕ) : UInt8 := UInt8.ofNat (if n < 10 then 48 + n else 87 + n)

-- `std::setfill('0') << std::setw(4)` on a control character.
def renderHex (b : UInt8) : Bytes := [48, 48, hexDigit (b.toNat / 16), hexDigit (b.toNat % 16)]

-- One round of the loop of `render_json_string`.
def renderJsonChar (b : UInt8) : Bytes :=
  match b with
  | 34 => [92, 34]
  | 92 => [92, 92]
  | 10 => [92, 110]
  | 8 => [92, 98]
  | 12 => [92, 102]
  | 13 => [92, 114]
  | 9 => [92, 116]
  | b => if iscntrl b then [92, 117] ++ renderHex b else [b]

def renderJsonString (s : Bytes) : Bytes := [34] ++ s.flatMap renderJsonChar ++ [34]

-- The tests are the other way round from what the comment in the source wants:
-- a text that does not start with a digit is quoted, and so is one that has a
-- letter or digit.
def renderStringUnquotedIfPossible (s : Bytes) : Bytes :=
  match s with
  | [] => renderJsonString s
  | first :: _ =>
      if ¬isdigit first then renderJsonString s
      else if (ascii "include").isPrefixOf s || (ascii "true").isSuffixOf s ||
          (ascii "false").isSuffixOf s || (ascii "null").isSuffixOf s ||
          (StringUtil.find (ascii "//") s).isSome then
        renderJsonString s
      else if s.any fun c => isalpha c || isdigit c then renderJsonString s
      else s

-- `length` is a uint32_t: of a longer text only the first characters are looked at.
def Path.hasFunkyChars (s : Bytes) : Bool :=
  match s.take (s.length % 2 ^ 32) with
  | [] => false
  | first :: rest =>
      ¬isalpha first || rest.any fun c => ¬(isalpha c || isdigit c || c = 45 || c = 95)

-- `Path::append_to_stream` for one key.
def Path.renderKey (first : Bytes) : Bytes :=
  if Path.hasFunkyChars first || first.isEmpty then renderJsonString first else first

def Path.render : Path → Bytes
  | .newKey first => Path.renderKey first
  | .cons first remainder => Path.renderKey first ++ [46] ++ remainder.render

def SubstitutionExpression.toString (expr : SubstitutionExpression) : Bytes :=
  [36, 123] ++ (if expr.optional then [63] else []) ++ expr.path.render ++ [125]

-- `s.resize(s.length() - count)`
def chop (s : Bytes) (count : ℕ) : Bytes := s.take (s.length - count)

def indent (options : ConfigRenderOptions) (n : ℕ) : Bytes :=
  if options.formatted then List.replicate (4 * n) 32 else []

def newlineIfFormatted (options : ConfigRenderOptions) : Bytes :=
  if options.formatted then [10] else []

-- Where a value is rendered: as an element, through the overload without a
-- key; at the root, through the overload with a null key; or under a key.
inductive AtKey where
  | element
  | root
  | key (key : Bytes)
deriving DecidableEq, Repr

-- The key and what separates it from its value.
def renderAtKey (options : ConfigRenderOptions) (isObject : Bool) : AtKey → Bytes
  | .element | .root => []
  | .key key =>
      if options.json then
        renderJsonString key ++ (if options.formatted then [32, 58, 32] else [58])
      else
        renderStringUnquotedIfPossible key ++
          (if isObject then (if options.formatted then [32] else []) else [61])

-- The separator that is written after a field, of which the last is chopped.
def fieldSeparator (options : ConfigRenderOptions) : Bytes :=
  if options.formatted then (if options.json then [44, 10] else [10]) else [44]

-- A key in a delayed merge always has quotes and a colon.
def renderMergeKey (options : ConfigRenderOptions) : AtKey → Bytes
  | .element | .root => []
  | .key key => renderJsonString key ++ (if options.formatted then [32, 58, 32] else [58])

section

variable {ι : Type} (doubles : Doubles) (options : ConfigRenderOptions)

-- Each `render` appends to the text `s`.
mutual

def Value.renderTo : Value ι → AtKey → ℕ → Bytes → Except ConfigException Bytes
  | .configNull _, at_, _, s => .ok (s ++ renderAtKey options false at_ ++ ascii "null")
  | .configBoolean _ value, at_, _, s =>
      .ok (s ++ renderAtKey options false at_ ++ ascii (if value then "true" else "false"))
  | .configInt _ value _, at_, _, s =>
      .ok (s ++ renderAtKey options false at_ ++ lexicalString value.toInt)
  | .configInt64 _ value _, at_, _, s =>
      .ok (s ++ renderAtKey options false at_ ++ lexicalString value.toInt)
  | .configDouble _ originalText, at_, _, s =>
      .ok (s ++ renderAtKey options false at_ ++ doubles.print originalText)
  | .configString _ value, at_, _, s =>
      .ok (s ++ renderAtKey options false at_ ++
        if options.json then renderJsonString value else renderStringUnquotedIfPossible value)
  | .simpleConfigList _ value, at_, indent_, s => do
      let s := s ++ renderAtKey options false at_
      if value.isEmpty then
        return s ++ [91, 93]
      let s := s ++ [91] ++ newlineIfFormatted options
      let s ← renderElements value indent_ s
      let s := chop s 1
      let s := if options.formatted then chop s 1 ++ [10] ++ indent options indent_ else s
      return s ++ [93]
  | .simpleConfigObject _ value _, at_, indent_, s => do
      let s := s ++ renderAtKey options true at_
      if value.isEmpty then
        return s ++ [123, 125]
      let outerBraces := 0 < indent_ || options.json
      let s := s ++ (if outerBraces then [123] else []) ++ newlineIfFormatted options
      let s ← renderFields value indent_ s
      let s := chop s (fieldSeparator options).length
      let s := if options.formatted then s ++ [10] ++ indent options indent_ else s
      return s ++ (if outerBraces then [125] else [])
  | .configReference _ expr _, at_, _, s =>
      .ok (s ++ renderAtKey options false at_ ++ expr.toString)
  | .configConcatenation _ pieces, at_, indent_, s =>
      renderPieces pieces indent_ (s ++ renderAtKey options false at_)
  | .configDelayedMerge _ stack, at_, indent_, s =>
      if at_ = .element then
        .error (.notResolved "called unwrapped() on value with unresolved substitutions")
      else do
        let s ← renderStack stack at_ indent_ s
        let s := chop s 1
        return if options.formatted then chop s 1 ++ [10] else s
  | .configDelayedMergeObject _ stack, at_, indent_, s => do
      let s ← renderStack stack at_ indent_ s
      let s := chop s 1
      return if options.formatted then chop s 1 ++ [10] else s

-- The loop over the elements of a list.
def renderElements : List (Value ι) → ℕ → Bytes → Except ConfigException Bytes
  | [], _, s => .ok s
  | v :: rest, indent_, s => do
      let s := s ++ indent options (indent_ + 1)
      let s ← v.renderTo .element (indent_ + 1) s
      let s := s ++ [44] ++ newlineIfFormatted options
      renderElements rest indent_ s

-- The loop over the fields of an object.
def renderFields : List (Bytes × Value ι) → ℕ → Bytes → Except ConfigException Bytes
  | [], _, s => .ok s
  | (key, v) :: rest, indent_, s => do
      let s := s ++ indent options (indent_ + 1)
      let s ← v.renderTo (.key key) (indent_ + 1) s
      let s := s ++ fieldSeparator options
      renderFields rest indent_ s

def renderPieces : List (Value ι) → ℕ → Bytes → Except ConfigException Bytes
  | [], _, s => .ok s
  | p :: rest, indent_, s => do
      let s ← p.renderTo .element indent_ s
      renderPieces rest indent_ s

-- The loop over the reversed stack.
def renderStack : List (Value ι) → AtKey → ℕ → Bytes → Except ConfigException Bytes
  | [], _, _, s => .ok s
  | v :: rest, at_, indent_, s => do
      let s ← renderStack rest at_ indent_ s
      let s := s ++ indent options indent_ ++ renderMergeKey options at_
      let s ← v.renderTo .element indent_ s
      return s ++ [44] ++ newlineIfFormatted options

end

def Value.render (v : Value ι) : Except ConfigException Bytes :=
  v.renderTo doubles options .root 0 []

end

end AsrServiceProxy.Config

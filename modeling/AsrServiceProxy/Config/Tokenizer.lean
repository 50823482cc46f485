import AsrServiceProxy.Config.Render

-- The token stream of the config library. Origins (line numbers) are left out.
namespace AsrServiceProxy.Config

open CMemory

inductive Token where
  | start
  | end_
  | comma
  | equals
  | colon
  | openCurly
  | closeCurly
  | openSquare
  | closeSquare
  | plusEquals
  | value (v : Value Unit)
  | newline
  | unquotedText (s : Bytes)
  | problem (what : Bytes) (message : String) (suggestQuotes : Bool)
  | comment (text : Bytes)
  | substitution (optional : Bool) (expression : List Token)
  -- what `TokenStream::next` throws instead of giving a token
  | thrown (e : ConfigException)

-- `ConfigExceptionTokenizerProblem`, and what passes through it.
inductive TokenizerError where
  | problem (what : Bytes) (message : String) (suggestQuotes : Bool)
  | exception (e : ConfigException)
deriving DecidableEq, Repr

structure WhitespaceSaver where
  lastTokenWasSimpleValue : Bool
  whitespace : Bytes
deriving DecidableEq, Repr

def WhitespaceSaver.makeInstance : WhitespaceSaver :=
  { lastTokenWasSimpleValue := false, whitespace := [] }

-- `rest` is what `next_char_raw` is still to return before -1; its first
-- `buffered` characters are those that were put back. `saver` is the
-- whitespace saver in use.
structure TokenStream where
  rest : List ℤ
  buffered : ℕ
  saver : WhitespaceSaver
deriving DecidableEq, Repr

abbrev Pull := EStateM TokenizerError TokenStream

-- `StringReader::read` on a byte: a plain `char` is signed.
def readChar (b : UInt8) : ℤ := if b < 128 then b.toNat else b.toNat - 256

-- `static_cast<char>`
def toChar (c : ℤ) : UInt8 := UInt8.ofNat (c % 256).toNat

def asString (codepoint : ℤ) : Bytes :=
  let c := toChar codepoint
  if c = 10 then ascii "newline"
  else if c = 9 then ascii "tab"
  else if codepoint = -1 then ascii "end of file"
  else if iscntrl c then
    ascii "control character 0x" ++ [hexDigit (c.toNat / 16), hexDigit (c.toNat % 16)]
  else [c]

def problem {α : Type} (what : Bytes) (message : String) (suggestQuotes : Bool) : Pull α :=
  throw (.problem what message suggestQuotes)

def nextCharRaw : Pull ℤ := fun s =>
  match s.rest with
  | [] => .ok (-1) s
  | c :: rest => .ok c { s with rest := rest, buffered := s.buffered - 1 }

def putBack (c : ℤ) : Pull Unit := fun s =>
  if s.buffered > 2 then
    .error (.exception (.bugOrBroken "bug: put_back() three times, undesirable look-ahead")) s
  else .ok () { s with rest := c :: s.rest, buffered := s.buffered + 1 }

-- The number of rounds that a loop over the characters can take at most.
def rounds : Pull ℕ := fun s => .ok (s.rest.length + 1) s

def isWhitespace (c : ℤ) : Bool := c = 32 || (9 ≤ c && c ≤ 13)

def isWhitespaceNotNewline (c : ℤ) : Bool := c ≠ 10 && isWhitespace c

def firstNumberChars : Bytes := ascii "0123456789-"
def numberChars : Bytes := ascii "0123456789e_e+-."
def notInUnquotedText : Bytes := ascii "$\"\x7b\x7d[]:=,+#`^?!@*&\\"

section

variable (doubles : Doubles) (allowComments : Bool)

def startOfComment (c : ℤ) : Pull Bool :=
  if c = -1 then return false
  else if ¬allowComments then return false
  else if c = 35 then return true
  else if c = 47 then do
    let maybeSecondSlash ← nextCharRaw
    putBack maybeSecondSlash
    return maybeSecondSlash = 47
  else return false

def saveWhitespace (c : ℤ) : Pull Unit := fun s =>
  .ok () (if s.saver.lastTokenWasSimpleValue then
    { s with saver.whitespace := s.saver.whitespace ++ [toChar c] } else s)

def nextCharAfterWhitespaceLoop : ℕ → Pull ℤ
  | 0 => throw (.exception .outOfFuel)
  | n + 1 => do
      let c ← nextCharRaw
      if isWhitespaceNotNewline c then
        saveWhitespace c
        nextCharAfterWhitespaceLoop n
      else return c

def nextCharAfterWhitespace : Pull ℤ := do
  nextCharAfterWhitespaceLoop (← rounds)

def pullCommentLoop : ℕ → Bytes → Pull Token
  | 0, _ => throw (.exception .outOfFuel)
  | n + 1, s => do
      let c ← nextCharRaw
      if c = -1 || c = 10 then
        putBack c
        return .comment s
      else pullCommentLoop n (s ++ [toChar c])

def pullComment (firstChar : ℤ) : Pull Token := do
  if firstChar = 47 then
    let discard ← nextCharRaw
    if discard ≠ 47 then
      throw (.exception (.bugOrBroken "called pull_comment but // not seen"))
  pullCommentLoop (← rounds) []

-- The word that ends an unquoted text as soon as it is complete.
def wordToken (sb : Bytes) : Option Token :=
  if sb = ascii "true" then some (.value (.configBoolean () true))
  else if sb = ascii "null" then some (.value (.configNull ()))
  else if sb = ascii "false" then some (.value (.configBoolean () false))
  else none

def pullUnquotedTextLoop : ℕ → Bytes → ℤ → Pull Token
  | 0, _, _ => throw (.exception .outOfFuel)
  | n + 1, sb, c => do
      let stop ← if c = -1 || notInUnquotedText.contains (toChar c) || isWhitespace c then pure true
        else startOfComment allowComments c
      if stop then
        putBack c
        return .unquotedText sb
      let sb := sb ++ [toChar c]
      match wordToken sb with
      | some word => return word
      | none => pullUnquotedTextLoop n sb (← nextCharRaw)

def pullUnquotedText : Pull Token := do
  let c ← nextCharRaw
  pullUnquotedTextLoop allowComments ((← rounds) + 1) [] c

def numberToken (s : Bytes) (containedDecimalOrE : Bool) : Pull Token :=
  if containedDecimalOrE then
    match doubles.cast s with
    | none => problem s "_invalid number: " true
    | some none => return .value (.configDouble () s)
    | some (some n) => return .value (newNumber () n s)
  else
    match lexicalInt64 s with
    | none => problem s "_invalid number: " true
    | some n => return .value (newNumber () n s)

-- `'_e'` is a character constant of two characters, which no `c` equals.
def pullNumberLoop : ℕ → Bytes → Bool → ℤ → Pull Token
  | 0, _, _, _ => throw (.exception .outOfFuel)
  | n + 1, s, containedDecimalOrE, c =>
      if c ≠ -1 && numberChars.contains (toChar c) then do
        pullNumberLoop n (s ++ [toChar c]) (containedDecimalOrE || c = 46 || c = 101)
          (← nextCharRaw)
      else do
        putBack c
        numberToken doubles s containedDecimalOrE

def pullNumber (firstChar : ℤ) : Pull Token := do
  let c ← nextCharRaw
  pullNumberLoop doubles ((← rounds) + 1) [toChar firstChar] false c

-- The value of a hexadecimal digit.
def hexValue (b : UInt8) : Option ℕ :=
  if 48 ≤ b && b ≤ 57 then some (b.toNat - 48)
  else if 97 ≤ b && b ≤ 102 then some (b.toNat - 87)
  else if 65 ≤ b && b ≤ 70 then some (b.toNat - 55)
  else none

def hexNumber : Bytes → ℕ → ℕ
  | [], n => n
  | b :: rest, n =>
      match hexValue b with
      | none => n
      | some d => hexNumber rest (16 * n + d)

-- `strtol(digits, 0, 16)`: blanks, a sign and `0x` may come before the digits.
def strtol16 (digits : Bytes) : ℤ :=
  let text := (cstr digits).dropWhile StringUtil.isspace
  let negative := text.head? = some 45
  let text := if text.head? = some 45 || text.head? = some 43 then text.tail else text
  let text := match text with
    | 48 :: x :: d :: rest =>
        if (x = 120 || x = 88) && (hexValue d).isSome then d :: rest else text
    | text => text
  if negative then -(hexNumber text 0 : ℤ) else hexNumber text 0

-- The four characters after `\u`.
def pullDigits : ℕ → Bytes → Pull Bytes
  | 0, digits => return digits
  | n + 1, digits => do
      let c ← nextCharRaw
      if c = -1 then
        problem [] "_end of input but expecting 4 hex digits for \\u_x_x_x_x escape" false
      else pullDigits n (digits ++ [toChar c])

def pullEscapeSequence (s : Bytes) : Pull Bytes := do
  let escaped ← nextCharRaw
  if escaped = -1 then
    problem [] "_end of input but backslash in string had nothing after it" false
  else if escaped = 34 then return s ++ [34]
  else if escaped = 92 then return s ++ [92]
  else if escaped = 47 then return s ++ [47]
  else if escaped = 98 then return s ++ [8]
  else if escaped = 102 then return s ++ [12]
  else if escaped = 110 then return s ++ [10]
  else if escaped = 114 then return s ++ [13]
  else if escaped = 116 then return s ++ [9]
  else if escaped = 117 then
    let digits ← pullDigits 4 []
    return s ++ [toChar (strtol16 digits)]
  else problem (asString escaped) "backslash followed by " false

def appendTripleQuotedLoop : ℕ → Bytes → ℕ → Pull Bytes
  | 0, _, _ => throw (.exception .outOfFuel)
  | n + 1, s, consecutiveQuotes => do
      let c ← nextCharRaw
      if c = 34 then
        appendTripleQuotedLoop n (s ++ [toChar c]) (consecutiveQuotes + 1)
      else if 3 ≤ consecutiveQuotes then
        -- the last three quotes end the string and the others are kept
        putBack c
        return chop s 3
      else if c = -1 then
        problem [] "_end of input but triple-quoted string was still open" false
      else appendTripleQuotedLoop n (s ++ [toChar c]) 0

def pullQuotedLoop : ℕ → Bytes → Pull Bytes
  | 0, _ => throw (.exception .outOfFuel)
  | n + 1, s => do
      let c ← nextCharRaw
      if c = -1 then
        problem [] "_end of input but string quote was still open" false
      else if c = 92 then
        pullQuotedLoop n (← pullEscapeSequence s)
      else if c = 34 then return s
      else if iscntrl (toChar c) then
        problem (asString c) "JSON does not allow unescaped " false
      else pullQuotedLoop n (s ++ [toChar c])

def pullQuotedString : Pull Token := do
  let s ← pullQuotedLoop (← rounds) []
  if s.isEmpty then
    let third ← nextCharRaw
    if third = 34 then
      let s ← appendTripleQuotedLoop (← rounds) [] 0
      return .value (.configString () s)
    putBack third
  return .value (.configString () s)

def pullPlusEquals : Pull Token := do
  let c ← nextCharRaw
  if c ≠ 61 then
    problem (asString c) "'+' not followed by =, '" true
  else return .plusEquals

def isSimpleValue : Token → Bool
  | .substitution _ _ | .unquotedText _ | .value _ => true
  | _ => false

-- The whitespace token that comes before `t`, if any.
def checkWhitespace (t : Token) : Pull (Option Token) := fun s =>
  if isSimpleValue t then
    if s.saver.lastTokenWasSimpleValue then
      if s.saver.whitespace.isEmpty then .ok none s
      else .ok (some (.unquotedText s.saver.whitespace)) { s with saver.whitespace := [] }
    else .ok none { s with saver := { lastTokenWasSimpleValue := true, whitespace := [] } }
  else .ok none { s with saver := { lastTokenWasSimpleValue := false, whitespace := [] } }

def pullSubstitutionLoop (pullNext : Pull Token) : ℕ → Bool → List Token → Pull Token
  | 0, _, _ => throw (.exception .outOfFuel)
  | n + 1, optional, expression => do
      let t ← pullNext
      match t with
      | .closeCurly => return .substitution optional expression
      | .end_ => problem [] "_substitution $\x7b was not closed with a \x7d" false
      | t =>
          let whitespace ← checkWhitespace t
          pullSubstitutionLoop pullNext n optional (expression ++ whitespace.toList ++ [t])

-- A computation with a whitespace saver of its own.
def withOwnSaver {α : Type} (pull : Pull α) : Pull α := fun s =>
  match pull { s with saver := .makeInstance } with
  | .ok a s' => .ok a { s' with saver := s.saver }
  | .error e s' => .error e { s' with saver := s.saver }

def pullSubstitution (pullNext : Pull Token) : Pull Token := do
  let c ← nextCharRaw
  if c ≠ 123 then
    problem (asString c) "'$' not followed by " true
  else
    let c ← nextCharRaw
    let optional := c = 63
    if ¬optional then putBack c
    withOwnSaver do pullSubstitutionLoop pullNext (← rounds) optional []

-- `pull_next_token` with what it calls at a `$`.
def pullToken (substitution : Pull Token) : Pull Token := do
  let c ← nextCharAfterWhitespace
  if c = -1 then return .end_
  else if c = 10 then return .newline
  else if ← startOfComment allowComments c then pullComment c
  else if c = 34 then pullQuotedString
  else if c = 36 then substitution
  else if c = 58 then return .colon
  else if c = 44 then return .comma
  else if c = 61 then return .equals
  else if c = 123 then return .openCurly
  else if c = 125 then return .closeCurly
  else if c = 91 then return .openSquare
  else if c = 93 then return .closeSquare
  else if c = 43 then pullPlusEquals
  else if firstNumberChars.contains (toChar c) then pullNumber doubles c
  else if notInUnquotedText.contains (toChar c) then
    problem (asString c) "_reserved character '" true
  else
    putBack c
    pullUnquotedText allowComments

-- The first argument bounds the nesting of substitutions.
def pullNextToken : ℕ → Pull Token
  | 0 => throw (.exception .outOfFuel)
  | depth + 1 => pullToken doubles allowComments (pullSubstitution (pullNextToken depth))

-- The tokens that one call pushes to the queue.
def queueNextToken : Pull (Option Token × Token) := do
  let t ← pullNextToken doubles allowComments (← rounds)
  let whitespace ← checkWhitespace t
  return (whitespace, t)

-- What repeated calls of `next` give from here on.
def deliver : ℕ → TokenStream → List Token
  | 0, _ => [.thrown .outOfFuel]
  | n + 1, s =>
      match queueNextToken doubles allowComments s with
      | .ok (whitespace, .end_) _ => whitespace.toList ++ [.end_]
      | .ok (whitespace, t) s' => whitespace.toList ++ t :: deliver n s'
      | .error (.problem what message suggestQuotes) s' =>
          .problem what message suggestQuotes :: deliver n s'
      | .error (.exception e) _ => [.thrown e]

end

inductive ConfigSyntax where
  | JSON
  | CONF
deriving DecidableEq, Repr

def TokenStream.ofString (input : Bytes) : TokenStream :=
  { rest := input.map readChar, buffered := 0, saver := .makeInstance }

def tokenize (doubles : Doubles) (input : Bytes) (flavor : ConfigSyntax) : List Token :=
  .start :: deliver doubles (flavor ≠ .JSON) (input.length + 1) (.ofString input)

end AsrServiceProxy.Config

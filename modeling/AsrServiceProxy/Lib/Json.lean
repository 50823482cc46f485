import Mathlib.Data.Int.Notation
import Mathlib.Data.List.Basic

-- The grammar of JSON texts, RFC 8259, over bytes, and the trees that it gives. A tree
-- keeps its numbers and strings as they are written.
namespace JsonGrammar

abbrev Text := List UInt8

def isWs (b : UInt8) : Bool := b = 32 || b = 9 || b = 10 || b = 13

def Ws (text : Text) : Prop := ∀ b ∈ text, isWs b = true

def isDigit (b : UInt8) : Bool := 48 ≤ b && b ≤ 57

-- 1*DIGIT
structure Digits (text : Text) : Prop where
  ne_nil : text ≠ []
  all : ∀ b ∈ text, isDigit b = true

-- int = zero / ( digit1-9 *DIGIT ), with or without a minus
inductive IsInt : Text → Prop
  | zero : IsInt [48]
  | digits {b : UInt8} {rest : Text} (hb : 49 ≤ b ∧ b ≤ 57)
      (hrest : ∀ d ∈ rest, isDigit d = true) : IsInt (b :: rest)

inductive IsInteger : Text → Prop
  | plain {text : Text} (h : IsInt text) : IsInteger text
  | minus {text : Text} (h : IsInt text) : IsInteger (45 :: text)

inductive IsFrac : Text → Prop
  | mk {digits : Text} (h : Digits digits) : IsFrac (46 :: digits)

inductive IsExp : Text → Prop
  | mk {e : UInt8} {sign digits : Text} (he : e = 101 ∨ e = 69)
      (hsign : sign = [] ∨ sign = [43] ∨ sign = [45]) (h : Digits digits) :
      IsExp (e :: (sign ++ digits))

-- The number that an integer names.
def natValue (digits : Text) : ℕ := digits.foldl (fun n b => 10 * n + (b.toNat - 48)) 0

def intValue : Text → ℤ
  | 45 :: digits => -(natValue digits)
  | digits => natValue digits

-- A number with a fraction or an exponent.
inductive IsReal : Text → Prop
  | frac {int frac : Text} (hint : IsInteger int) (hfrac : IsFrac frac) : IsReal (int ++ frac)
  | exp {int exp : Text} (hint : IsInteger int) (hexp : IsExp exp) : IsReal (int ++ exp)
  | both {int frac exp : Text} (hint : IsInteger int) (hfrac : IsFrac frac) (hexp : IsExp exp) :
      IsReal (int ++ (frac ++ exp))

-- UTF8-tail
def isTail (b : UInt8) : Bool := 0x80 ≤ b && b ≤ 0xBF

-- unescaped = %x20-21 / %x23-5B / %x5D-10FFFF, in UTF-8
def isUnescaped : Text → Bool
  | [a] => 0x20 ≤ a && a < 0x80 && a ≠ 34 && a ≠ 92
  | [a, b] => 0xC2 ≤ a && a ≤ 0xDF && isTail b
  | [a, b, c] =>
      (a = 0xE0 && 0xA0 ≤ b && b ≤ 0xBF || 0xE1 ≤ a && a ≤ 0xEC && isTail b ||
        a = 0xED && 0x80 ≤ b && b ≤ 0x9F || 0xEE ≤ a && a ≤ 0xEF && isTail b) && isTail c
  | [a, b, c, d] =>
      (a = 0xF0 && 0x90 ≤ b && b ≤ 0xBF || 0xF1 ≤ a && a ≤ 0xF3 && isTail b ||
        a = 0xF4 && 0x80 ≤ b && b ≤ 0x8F) && isTail c && isTail d
  | _ => false

-- What a character after a backslash stands for.
def escapeChars : List (UInt8 × UInt8) :=
  [(34, 34), (92, 92), (47, 47), (98, 8), (102, 12), (110, 10), (114, 13), (116, 9)]

def isHexDigit (b : UInt8) : Bool := isDigit b || 65 ≤ b && b ≤ 70 || 97 ≤ b && b ≤ 102

-- The characters between two quotation marks.
inductive IsBody : Text → Prop
  | nil : IsBody []
  | char {c rest : Text} (hc : isUnescaped c = true) (h : IsBody rest) : IsBody (c ++ rest)
  | escape {e x : UInt8} {rest : Text} (he : (e, x) ∈ escapeChars) (h : IsBody rest) :
      IsBody (92 :: e :: rest)
  | unicode {digits rest : Text} (hlength : digits.length = 4)
      (hdigits : ∀ b ∈ digits, isHexDigit b = true) (h : IsBody rest) :
      IsBody (92 :: 117 :: (digits ++ rest))

def usesUnicode : Text → Bool
  | 92 :: e :: rest => e = 117 || usesUnicode rest
  | _ :: rest => usesUnicode rest
  | [] => false

-- The string that a body without such escapes stands for, in UTF-8.
def unescape : Text → Text
  | 92 :: e :: rest => (escapeChars.lookup e).getD e :: unescape rest
  | b :: rest => b :: unescape rest
  | [] => []

inductive Tree where
  | null
  | boolean (value : Bool)
  | integer (lexeme : Text)
  | real (lexeme : Text)
  | string (body : Text)
  | array (elements : List Tree)
  | object (members : List (Text × Tree))

-- A structural character with the whitespace around it.
def Structural (b : UInt8) (text : Text) : Prop :=
  ∃ before after, Ws before ∧ Ws after ∧ text = before ++ b :: after

mutual

inductive IsValue : Text → Tree → Prop
  | null : IsValue [110, 117, 108, 108] .null
  | true_ : IsValue [116, 114, 117, 101] (.boolean true)
  | false_ : IsValue [102, 97, 108, 115, 101] (.boolean false)
  | integer {lexeme : Text} (h : IsInteger lexeme) : IsValue lexeme (.integer lexeme)
  | real {lexeme : Text} (h : IsReal lexeme) : IsValue lexeme (.real lexeme)
  | string {body : Text} (h : IsBody body) : IsValue (34 :: (body ++ [34])) (.string body)
  | emptyArray {start stop : Text} (hstart : Structural 91 start) (hstop : Structural 93 stop) :
      IsValue (start ++ stop) (.array [])
  | array {start text stop : Text} {elements : List Tree} (hstart : Structural 91 start)
      (h : IsElements text elements) (hstop : Structural 93 stop) :
      IsValue (start ++ (text ++ stop)) (.array elements)
  | emptyObject {start stop : Text} (hstart : Structural 123 start) (hstop : Structural 125 stop) :
      IsValue (start ++ stop) (.object [])
  | object {start text stop : Text} {members : List (Text × Tree)} (hstart : Structural 123 start)
      (h : IsMembers text members) (hstop : Structural 125 stop) :
      IsValue (start ++ (text ++ stop)) (.object members)

-- value *( value-separator value )
inductive IsElements : Text → List Tree → Prop
  | single {text : Text} {v : Tree} (h : IsValue text v) : IsElements text [v]
  | cons {text separator rest : Text} {v : Tree} {elements : List Tree} (h : IsValue text v)
      (hseparator : Structural 44 separator) (hrest : IsElements rest elements) :
      IsElements (text ++ (separator ++ rest)) (v :: elements)

-- member *( value-separator member )
inductive IsMembers : Text → List (Text × Tree) → Prop
  | single {body separator text : Text} {v : Tree} (hbody : IsBody body)
      (hseparator : Structural 58 separator) (h : IsValue text v) :
      IsMembers (34 :: (body ++ 34 :: (separator ++ text))) [(body, v)]
  | cons {body colon text separator rest : Text} {v : Tree} {members : List (Text × Tree)}
      (hbody : IsBody body) (hcolon : Structural 58 colon) (h : IsValue text v)
      (hseparator : Structural 44 separator) (hrest : IsMembers rest members) :
      IsMembers (34 :: (body ++ 34 :: (colon ++ (text ++ (separator ++ rest)))))
        ((body, v) :: members)

end

-- JSON-text = ws value ws
inductive IsText : Text → Tree → Prop
  | mk {before text after : Text} {v : Tree} (hbefore : Ws before) (h : IsValue text v)
      (hafter : Ws after) : IsText (before ++ (text ++ after)) v

namespace Tree

def isContainer : Tree → Bool
  | .array _ | .object _ => true
  | _ => false

-- The numbers and strings of a tree, the names of members included, are of a kind.
section

variable (integer real string : Text → Bool)

mutual

def all : Tree → Bool
  | .null | .boolean _ => true
  | .integer lexeme => integer lexeme
  | .real lexeme => real lexeme
  | .string body => string body
  | .array elements => allElements elements
  | .object members => allMembers members

def allElements : List Tree → Bool
  | [] => true
  | v :: rest => v.all && allElements rest

def allMembers : List (Text × Tree) → Bool
  | [] => true
  | (body, v) :: rest => string body && v.all && allMembers rest

end

end

-- No object has two members of one name.
section

variable {α : Type} [DecidableEq α] (name : Text → α)

mutual

def distinct : Tree → Bool
  | .array elements => distinctElements elements
  | .object members => decide ((members.map fun member => name member.1).Nodup) &&
      distinctMembers members
  | _ => true

def distinctElements : List Tree → Bool
  | [] => true
  | v :: rest => v.distinct && distinctElements rest

def distinctMembers : List (Text × Tree) → Bool
  | [] => true
  | (_, v) :: rest => v.distinct && distinctMembers rest

end

end

-- In no object two names are one by `name` and two by `name'`.
section

variable {α β : Type} [DecidableEq α] [DecidableEq β] (name : Text → α) (name' : Text → β)

mutual

def agrees : Tree → Bool
  | .array elements => agreesElements elements
  | .object members =>
      members.all (fun a => members.all fun b => name a.1 ≠ name b.1 || name' a.1 = name' b.1) &&
        agreesMembers members
  | _ => true

def agreesElements : List Tree → Bool
  | [] => true
  | v :: rest => v.agrees && agreesElements rest

def agreesMembers : List (Text × Tree) → Bool
  | [] => true
  | (_, v) :: rest => v.agrees && agreesMembers rest

end

end

end Tree

def hexDigit (b : UInt8) : ℕ :=
  if b ≤ 57 then b.toNat - 48 else if b ≤ 70 then b.toNat - 55 else b.toNat - 87

-- The UTF-16 code units that a body stands for.
def codeUnits : Text → List ℕ
  | 92 :: 117 :: a :: b :: c :: d :: rest =>
      (((hexDigit a * 16 + hexDigit b) * 16 + hexDigit c) * 16 + hexDigit d) :: codeUnits rest
  | 92 :: e :: rest => ((escapeChars.lookup e).getD e).toNat :: codeUnits rest
  | a :: rest =>
      if a < 0x80 then a.toNat :: codeUnits rest
      else
        match rest with
        | b :: rest =>
            if a < 0xE0 then (a.toNat % 32 * 64 + b.toNat % 64) :: codeUnits rest
            else
              match rest with
              | c :: rest =>
                  if a < 0xF0 then
                    ((a.toNat % 16 * 64 + b.toNat % 64) * 64 + c.toNat % 64) :: codeUnits rest
                  else
                    match rest with
                    | d :: rest =>
                        let point :=
                          ((a.toNat % 8 * 64 + b.toNat % 64) * 64 + c.toNat % 64) * 64 + d.toNat % 64
                        (0xD800 + (point - 0x10000) / 1024) ::
                          (0xDC00 + (point - 0x10000) % 1024) :: codeUnits rest
                    | [] => []
              | [] => []
        | [] => []
  | [] => []

inductive Mark where
  | beginArray
  | beginObject
  | endArray
  | endObject
  | nameSeparator
  | valueSeparator
deriving DecidableEq

def Mark.byte : Mark → UInt8
  | .beginArray => 91
  | .beginObject => 123
  | .endArray => 93
  | .endObject => 125
  | .nameSeparator => 58
  | .valueSeparator => 44

-- What a text is made of besides whitespace.
inductive Lexeme where
  | mark (m : Mark)
  | null
  | boolean (value : Bool)
  | integer (lexeme : Text)
  | real (lexeme : Text)
  | string (body : Text)

namespace Lexeme

def text : Lexeme → Text
  | .mark m => [m.byte]
  | .null => [110, 117, 108, 108]
  | .boolean true => [116, 114, 117, 101]
  | .boolean false => [102, 97, 108, 115, 101]
  | .integer lexeme | .real lexeme => lexeme
  | .string body => 34 :: (body ++ [34])

def Valid : Lexeme → Prop
  | .integer lexeme => IsInteger lexeme
  | .real lexeme => IsReal lexeme
  | .string body => IsBody body
  | _ => True

def isMark : Lexeme → Bool
  | .mark _ => true
  | _ => false

def all (integer real string : Text → Bool) : Lexeme → Bool
  | .integer lexeme => integer lexeme
  | .real lexeme => real lexeme
  | .string body => string body
  | _ => true

end Lexeme

-- No value comes first.
def delimits : List Lexeme → Bool
  | [] => true
  | l :: _ => l.isMark

-- A text and its lexemes. A value is followed by a structural character, or by nothing.
inductive Cut : Text → List Lexeme → Prop
  | last {ws : Text} (h : Ws ws) : Cut ws []
  | cons {ws more : Text} {l : Lexeme} {ls : List Lexeme} (hws : Ws ws) (hl : l.Valid)
      (hnext : l.isMark = true ∨ delimits ls = true) (h : Cut more ls) :
      Cut (ws ++ (l.text ++ more)) (l :: ls)

namespace Tree

mutual

def lexemes : Tree → List Lexeme
  | .null => [.null]
  | .boolean value => [.boolean value]
  | .integer lexeme => [.integer lexeme]
  | .real lexeme => [.real lexeme]
  | .string body => [.string body]
  | .array [] => [.mark .beginArray, .mark .endArray]
  | .array (v :: rest) =>
      .mark .beginArray :: (v.lexemes ++ (moreElements rest ++ [.mark .endArray]))
  | .object [] => [.mark .beginObject, .mark .endObject]
  | .object ((body, v) :: rest) =>
      .mark .beginObject :: .string body :: .mark .nameSeparator ::
        (v.lexemes ++ (moreMembers rest ++ [.mark .endObject]))

-- The elements after the first, each behind its comma.
def moreElements : List Tree → List Lexeme
  | [] => []
  | v :: rest => .mark .valueSeparator :: (v.lexemes ++ moreElements rest)

def moreMembers : List (Text × Tree) → List Lexeme
  | [] => []
  | (body, v) :: rest =>
      .mark .valueSeparator :: .string body :: .mark .nameSeparator ::
        (v.lexemes ++ moreMembers rest)

end

end Tree

end JsonGrammar

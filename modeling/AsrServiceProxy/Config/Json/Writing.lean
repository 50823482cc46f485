import AsrServiceProxy.Config.Json.Theorems
import AsrServiceProxy.Config.RoundTrip.Theorems
import AsrServiceProxy.Lib.Json.Strings

-- What the printer writes as JSON is a JSON text, and the text stands for the data.
namespace AsrServiceProxy.Config

open CMemory JsonGrammar

-- The data that a tree stands for, by the meaning that JSON gives to its numbers and
-- strings.
mutual

inductive Holds : Tree → Data → Prop
  | null : Holds .null .null
  | boolean (b : Bool) : Holds (.boolean b) (.boolean b)
  | number {lexeme : Bytes} {n : Int64} (h : intValue lexeme = n.toInt) :
      Holds (.integer lexeme) (.number n)
  | string {body s : Bytes} (h : Signifies body s) : Holds (.string body) (.string s)
  | array {trees : List Tree} {elements : List Data} (h : HoldsAll trees elements) :
      Holds (.array trees) (.list elements)
  | object {members : List (Bytes × Tree)} {fields : List (Bytes × Data)}
      (h : HoldsMembers members fields) : Holds (.object members) (.object fields)

inductive HoldsAll : List Tree → List Data → Prop
  | nil : HoldsAll [] []
  | cons {tree : Tree} {d : Data} {trees : List Tree} {rest : List Data} (h : Holds tree d)
      (hrest : HoldsAll trees rest) : HoldsAll (tree :: trees) (d :: rest)

inductive HoldsMembers : List (Bytes × Tree) → List (Bytes × Data) → Prop
  | nil : HoldsMembers [] []
  | cons {body key : Bytes} {tree : Tree} {d : Data} {members : List (Bytes × Tree)}
      {rest : List (Bytes × Data)} (hkey : Signifies body key) (h : Holds tree d)
      (hrest : HoldsMembers members rest) :
      HoldsMembers ((body, tree) :: members) ((key, d) :: rest)

end

-- All strings and keys are in UTF-8.
mutual

def Data.Utf8 : Data → Prop
  | .string s => IsUtf8 s
  | .list elements => Utf8All elements
  | .object fields => Utf8Fields fields
  | _ => True

def Utf8All : List Data → Prop
  | [] => True
  | d :: rest => d.Utf8 ∧ Utf8All rest

def Utf8Fields : List (Bytes × Data) → Prop
  | [] => True
  | (key, d) :: rest => IsUtf8 key ∧ d.Utf8 ∧ Utf8Fields rest

end

-- The tree of what is written.
def jsonBody (s : Bytes) : Bytes := s.flatMap renderJsonChar

mutual

def Data.jsonTree : Data → Tree
  | .null => .null
  | .boolean b => .boolean b
  | .number n => .integer (lexicalString n.toInt)
  | .string s => .string (jsonBody s)
  | .list elements => .array (jsonTrees elements)
  | .object fields => .object (jsonMembers fields)

def jsonTrees : List Data → List Tree
  | [] => []
  | d :: rest => d.jsonTree :: jsonTrees rest

def jsonMembers : List (Bytes × Data) → List (Bytes × Tree)
  | [] => []
  | (key, d) :: rest => (jsonBody key, d.jsonTree) :: jsonMembers rest

end

-- A character of ASCII is written as itself, behind a backslash or by its number.
def writesAscii (b : UInt8) : Bool :=
  match renderJsonChar b with
  | [c] => c = b && isUnescaped [b]
  | [e, x] => e = 92 && escapeChars.contains (x, b)
  | [e, u, d, d', d'', d'''] =>
      e = 92 && u = 117 && [d, d', d'', d'''].all isHexDigit && codeUnit d d' d'' d''' = b.toNat
  | _ => false

theorem writesAscii_of_lt {b : UInt8} (hb : b < 0x80) : writesAscii b = true := by
  have hall : ∀ b : UInt8, b < 0x80 → writesAscii b = true := by
    apply forall_byte
    decide +kernel
  exact hall b hb

theorem signifies_ascii {b : UInt8} (hb : b < 0x80) {body s : Bytes} (h : Signifies body s) :
    Signifies (renderJsonChar b ++ body) (b :: s) := by
  have hwrites := writesAscii_of_lt hb
  rw [writesAscii] at hwrites
  split at hwrites
  · rename_i c hc
    rw [Bool.and_eq_true, decide_eq_true_iff] at hwrites
    obtain ⟨rfl, hunescaped⟩ := hwrites
    rw [hc]
    exact .char hunescaped h
  · rename_i e x hc
    rw [Bool.and_eq_true, decide_eq_true_iff, List.contains_iff_mem] at hwrites
    obtain ⟨rfl, hescape⟩ := hwrites
    rw [hc]
    exact .escape hescape h
  · rename_i e u d d' d'' d''' hc
    simp only [Bool.and_eq_true, decide_eq_true_iff, List.all_eq_true] at hwrites
    obtain ⟨⟨⟨rfl, rfl⟩, hdigits⟩, hunit⟩ := hwrites
    rw [hc]
    exact .unicode hdigits hunit hb h
  · cases hwrites

theorem renderJsonChar_wide {b : UInt8} (hb : 0x80 ≤ b.toNat) : renderJsonChar b = [b] := by
  have hall : ∀ b : UInt8, 0x80 ≤ b.toNat → renderJsonChar b = [b] := by
    apply forall_byte
    decide +kernel
  exact hall b hb

theorem signifies_jsonBody {s : Bytes} (h : IsUtf8 s) : Signifies (jsonBody s) s := by
  induction h with
  | nil => exact .nil
  | ascii hb _ ih => exact signifies_ascii hb ih
  | @wide c rest hc hlength _ ih =>
      have hsame : jsonBody c = c := by
        rw [jsonBody, List.flatMap_congr fun b hb =>
          renderJsonChar_wide (isUnescaped_wide hc hlength b hb)]
        exact List.flatMap_singleton' c
      have hsplit : jsonBody (c ++ rest) = c ++ jsonBody rest := by
        rw [jsonBody, List.flatMap_append, ← jsonBody, ← jsonBody, hsame]
      rw [hsplit]
      exact .char hc ih

-- The digits of a number do not start with a zero.
theorem isInt_decimal (n : ℕ) : IsInt (decimal n) := by
  by_cases hn : n = 0
  · rw [decimal, if_pos hn]
    exact .zero
  · have hne : Nat.digits 10 n ≠ [] := Nat.digits_ne_nil_iff_ne_zero.mpr hn
    have hlast := Nat.getLast_digit_ne_zero 10 hn
    have hlt : (Nat.digits 10 n).getLast hne < 10 :=
      Nat.digits_lt_base (by omega) (List.getLast_mem hne)
    have hall : ∀ b ∈ decimal n, isDigit b = true := by
      intro b hb
      obtain ⟨hlow, hup⟩ := isDigit_of_mem_decimal hb
      rw [isDigit, decide_eq_true hlow, decide_eq_true hup]
      rfl
    rw [decimal, if_neg hn] at hall ⊢
    rw [← List.dropLast_append_getLast hne, List.map_append, List.reverse_append] at hall ⊢
    refine .digits ?_ fun d hd => hall d (List.mem_append_right _ hd)
    have hdigit := digit_toNat hlt
    rw [UInt8.le_iff_toNat_le, UInt8.le_iff_toNat_le, hdigit]
    change 49 ≤ _ ∧ _ ≤ 57
    omega

theorem isInteger_lexicalString (n : ℤ) : IsInteger (lexicalString n) := by
  rw [lexicalString]
  split
  · exact .minus (isInt_decimal _)
  · exact .plain (isInt_decimal _)

theorem intValue_lexicalString (n : ℤ) : intValue (lexicalString n) = n := by
  have h := signedValue_of_isInteger (isInteger_lexicalString n)
  rw [signedValue_lexicalString, Option.some.injEq] at h
  exact h.symm

mutual

theorem holds_jsonTree : ∀ d : Data, d.Utf8 → Holds d.jsonTree d
  | .null, _ => .null
  | .boolean b, _ => .boolean b
  | .number n, _ => .number (intValue_lexicalString n.toInt)
  | .string _, h => .string (signifies_jsonBody h)
  | .list elements, h => .array (holdsAll_jsonTrees elements h)
  | .object fields, h => .object (holdsMembers_jsonMembers fields h)

theorem holdsAll_jsonTrees : ∀ elements : List Data, Utf8All elements →
    HoldsAll (jsonTrees elements) elements
  | [], _ => .nil
  | d :: rest, h => .cons (holds_jsonTree d h.1) (holdsAll_jsonTrees rest h.2)

theorem holdsMembers_jsonMembers : ∀ fields : List (Bytes × Data), Utf8Fields fields →
    HoldsMembers (jsonMembers fields) fields
  | [], _ => .nil
  | (_, d) :: rest, h =>
      .cons (signifies_jsonBody h.1) (holds_jsonTree d h.2.1) (holdsMembers_jsonMembers rest h.2.2)

end

section

variable (options : ConfigRenderOptions)

theorem ws_newlineIfFormatted : Ws (newlineIfFormatted options) := by
  unfold newlineIfFormatted
  split
  · intro b hb
    rw [List.mem_singleton.mp hb]
    rfl
  · exact Ws.nil

theorem ws_indent (n : ℕ) : Ws (indent options n) := by
  unfold indent
  split
  · intro b hb
    rw [List.eq_of_mem_replicate hb]
    rfl
  · exact Ws.nil

theorem structural_byte (b : UInt8) : Structural b [b] := ⟨[], [], Ws.nil, Ws.nil, rfl⟩

theorem cut_mark (m : Mark) {more : Bytes} {ls : List Lexeme} (h : Cut more ls) :
    Cut (m.byte :: more) (.mark m :: ls) := Cut.mark (structural_byte m.byte) h

-- What comes after the elements starts with a comma or a bracket.
theorem delimits_moreElements (trees : List Tree) {ls : List Lexeme} (h : delimits ls = true) :
    delimits (Tree.moreElements trees ++ ls) = true := by
  cases trees with
  | nil => exact h
  | cons tree trees => rfl

theorem delimits_moreMembers (members : List (Bytes × Tree)) {ls : List Lexeme}
    (h : delimits ls = true) : delimits (Tree.moreMembers members ++ ls) = true := by
  cases members with
  | nil => exact h
  | cons member members => rfl

variable {options}

theorem cut_key (hjson : options.json = true) {key more : Bytes} (hkey : IsUtf8 key)
    {ls : List Lexeme} (isObject : Bool) (h : Cut more ls) :
    Cut (renderAtKey options isObject (.key key) ++ more)
      (.string (jsonBody key) :: .mark .nameSeparator :: ls) := by
  have hcolon : Structural Mark.nameSeparator.byte
      (if options.formatted then [32, 58, 32] else [58]) := by
    have hspace : Ws [32] := by
      intro b hb
      rw [List.mem_singleton.mp hb]
      rfl
    split
    · exact ⟨[32], [32], hspace, hspace, rfl⟩
    · exact structural_byte _
  have hname : (Lexeme.string (jsonBody key)).Valid := (signifies_jsonBody hkey).isBody
  rw [renderAtKey, if_pos hjson, List.append_assoc]
  exact Cut.value hname rfl (Cut.mark hcolon h)

theorem cut_fieldSeparator (hjson : options.json = true) {more : Bytes} {ls : List Lexeme}
    (h : Cut more ls) :
    Cut (fieldSeparator options ++ more) (.mark .valueSeparator :: ls) := by
  refine Cut.mark ?_ h
  rw [fieldSeparator, if_pos hjson]
  split
  · refine ⟨[], [10], Ws.nil, ?_, rfl⟩
    intro b hb
    rw [List.mem_singleton.mp hb]
    rfl
  · exact structural_byte _

-- The lexemes of what is written are those of the tree, whatever comes behind.
mutual

theorem cut_text (hjson : options.json = true) : ∀ (d : Data) (level : ℕ), d.Utf8 →
    ∀ {more : Bytes} {ls : List Lexeme}, Cut more ls → delimits ls = true →
    Cut (d.text options level ++ more) (d.jsonTree.lexemes ++ ls)
  | .null, _, _, _, _, h, hnext => Cut.value (l := .null) trivial hnext h
  | .boolean true, _, _, _, _, h, hnext => Cut.value (l := .boolean true) trivial hnext h
  | .boolean false, _, _, _, _, h, hnext => Cut.value (l := .boolean false) trivial hnext h
  | .number n, _, _, _, _, h, hnext =>
      Cut.value (l := .integer (lexicalString n.toInt)) (isInteger_lexicalString n.toInt) hnext h
  | .string s, _, hs, _, _, h, hnext =>
      Cut.value (l := .string (jsonBody s)) (signifies_jsonBody hs).isBody hnext h
  | .list [], _, _, _, _, h, _ => by
      rw [Data.text, Data.jsonTree, jsonTrees, Tree.lexemes]
      exact cut_mark .beginArray (cut_mark .endArray h)
  | .list (d :: rest), level, hd, more, ls, h, _ => by
      have hclose : Cut (newlineIfFormatted options ++ (indent options level ++ (93 :: more)))
          (.mark .endArray :: ls) :=
        Cut.ws (ws_newlineIfFormatted options) (Cut.ws (ws_indent options level)
          (cut_mark .endArray h))
      have hopen := cut_mark .beginArray
        (Cut.ws (ws_newlineIfFormatted options)
          (cut_textElements hjson (d :: rest) level hd (by simp) hclose rfl))
      rw [Data.text, Data.jsonTree, Tree.lexemes_array]
      simpa [Mark.byte] using hopen
  | .object [], _, _, _, _, h, _ => by
      rw [Data.text, Data.jsonTree, jsonMembers, Tree.lexemes]
      exact cut_mark .beginObject (cut_mark .endObject h)
  | .object (field :: rest), level, hd, more, ls, h, _ => by
      have hclose : Cut (newlineIfFormatted options ++ (indent options level ++ (125 :: more)))
          (.mark .endObject :: ls) :=
        Cut.ws (ws_newlineIfFormatted options) (Cut.ws (ws_indent options level)
          (cut_mark .endObject h))
      have hopen := cut_mark .beginObject
        (Cut.ws (ws_newlineIfFormatted options)
          (cut_textFields hjson (field :: rest) level hd (by simp) hclose rfl))
      rw [Data.text, Data.jsonTree, Tree.lexemes_object]
      simpa [Mark.byte] using hopen

theorem cut_textElements (hjson : options.json = true) : ∀ (elements : List Data) (level : ℕ),
    Utf8All elements → elements ≠ [] → ∀ {more : Bytes} {ls : List Lexeme}, Cut more ls →
    delimits ls = true →
    Cut (textElements options elements level ++ more) (Tree.elements (jsonTrees elements) ++ ls)
  | [], _, _, hne, _, _, _, _ => absurd rfl hne
  | [d], level, hd, _, more, ls, h, hnext => by
      have hlast := Cut.ws (ws_indent options (level + 1))
        (cut_text hjson d (level + 1) hd.1 h hnext)
      rw [textElements, jsonTrees, jsonTrees, Tree.elements, Tree.moreElements]
      simpa using hlast
  | d :: next :: rest, level, hd, _, more, ls, h, hnext => by
      have hrest := cut_textElements hjson (next :: rest) level hd.2 (by simp) h hnext
      have hcomma : Cut (elementSeparator options ++ (textElements options (next :: rest) level ++
          more)) (.mark .valueSeparator :: (Tree.elements (jsonTrees (next :: rest)) ++ ls)) := by
        refine Cut.mark ?_ hrest
        exact ⟨[], newlineIfFormatted options, Ws.nil, ws_newlineIfFormatted options, rfl⟩
      have hfirst := Cut.ws (ws_indent options (level + 1))
        (cut_text hjson d (level + 1) hd.1 hcomma rfl)
      rw [textElements, jsonTrees, Tree.elements, Tree.moreElements_eq (by simp [jsonTrees])]
      simpa using hfirst

theorem cut_textFields (hjson : options.json = true) : ∀ (fields : List (Bytes × Data))
    (level : ℕ), Utf8Fields fields → fields ≠ [] → ∀ {more : Bytes} {ls : List Lexeme},
    Cut more ls → delimits ls = true →
    Cut (textFields options fields level ++ more) (Tree.members (jsonMembers fields) ++ ls)
  | [], _, _, hne, _, _, _, _ => absurd rfl hne
  | [(key, d)], level, hd, _, more, ls, h, hnext => by
      have hlast := Cut.ws (ws_indent options (level + 1)) (cut_key hjson hd.1 d.isObject
        (cut_text hjson d (level + 1) hd.2.1 h hnext))
      rw [textFields, jsonMembers, jsonMembers, Tree.members, Tree.moreMembers]
      simpa using hlast
  | (key, d) :: next :: rest, level, hd, _, more, ls, h, hnext => by
      have hrest := cut_textFields hjson (next :: rest) level hd.2.2 (by simp) h hnext
      have hfirst := Cut.ws (ws_indent options (level + 1)) (cut_key hjson hd.1 d.isObject
        (cut_text hjson d (level + 1) hd.2.1 (cut_fieldSeparator hjson hrest) rfl))
      rw [textFields, jsonMembers, Tree.members, Tree.moreMembers_eq (by simp [jsonMembers])]
      simpa using hfirst

end

theorem rootText_json (hjson : options.json = true) (fields : List (Bytes × Data)) :
    rootText options fields = (Data.object fields).text options 0 := by
  cases fields with
  | nil => rfl
  | cons field rest =>
      have hindent : indent options 0 = [] := by
        unfold indent
        split <;> rfl
      simp [rootText, Data.text, hjson, hindent]

end

-- A config of data in UTF-8 is rendered as a text of the JSON grammar, and the tree
-- of this text stands for the same data.
theorem render_isText {ι : Type} (doubles : Doubles) (options : ConfigRenderOptions)
    (hjson : options.json = true) (v : Value ι) (fields : List (Bytes × Data))
    (hdata : v.data = some (.object fields)) (hutf8 : (Data.object fields).Utf8) :
    ∃ text tree, v.render doubles options = .ok text ∧ IsText text tree ∧
      Holds tree (.object fields) := by
  refine ⟨_, (Data.object fields).jsonTree, render_eq doubles options v fields hdata, ?_,
    holds_jsonTree _ hutf8⟩
  have hcut := cut_text hjson (.object fields) 0 hutf8 (Cut.last Ws.nil) rfl
  rw [List.append_nil, List.append_nil] at hcut
  rw [rootText_json hjson]
  exact isText_iff_cut.mpr hcut

-- A key of two bytes, a control character and a quote, with the object laid out.
theorem render_isText_sample :
    ∃ text tree, (Value.simpleConfigObject () [([0xC3, 0xA9], .simpleConfigList ()
        [.configString () [127, 34], .configInt () (-5) []])] false).render noDoubles
        { formatted := true, json := true } = .ok text ∧ IsText text tree ∧
      Holds tree (.object [([0xC3, 0xA9], .list [.string [127, 34], .number (-5)])]) := by
  refine render_isText noDoubles { formatted := true, json := true } rfl _ _ rfl ?_
  have hkey : IsUtf8 [0xC3, 0xA9] := @IsUtf8.wide [0xC3, 0xA9] [] (by decide) (by decide) .nil
  refine ⟨hkey, ⟨?_, trivial, trivial⟩, trivial⟩
  exact .ascii (by decide) (.ascii (by decide) .nil)

end AsrServiceProxy.Config

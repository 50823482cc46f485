import AsrServiceProxy.Config.Json.Tokens
import AsrServiceProxy.Config.Tokenizer.Delivery
import AsrServiceProxy.Lib.Json.Theorems

-- The tokens of a text that is cut into JSON lexemes: each lexeme is one token, or the
-- tokenizer finds something there that JSON mode refuses.
namespace AsrServiceProxy.Config

open CMemory Simulation JsonGrammar

-- What the stream delivers besides newlines and comments.
def Shown (doubles : Doubles) (more : Bytes) (saver : WhitespaceSaver)
    (post : List Token → Prop) : Prop :=
  Streams doubles false more saver fun ts => post (withoutNewlines (significant ts))

set_option synthInstance.maxSize 400 in
-- What the bytes of the grammar are for the tokenizer.
theorem byte_classes (b : UInt8) :
    (isWs b = true → b = 10 ∨ isBlank b = true) ∧
    (isWs b = true → isNumberByte b = false ∧ b ≠ 34) ∧
    (isLiteral b = true → b ≠ 127 → b ≠ 255 ∧ b ≠ 92 ∧ b ≠ 34 ∧ iscntrl b = false) ∧
    (isHexDigit b = true → b ≠ 255 ∧ b ≠ 127) ∧
    (isDigit b = true → firstNumberChars.contains b = true ∧ isNumberByte b = true) ∧
    (isRealByte b = true → b ≠ 69 → isNumberByte b = true) := by
  revert b
  apply forall_byte
  decide +kernel

section

variable {b : UInt8}

theorem isWs_blank (h : isWs b = true) : b = 10 ∨ isBlank b = true := (byte_classes b).1 h

theorem isWs_delimits (h : isWs b = true) : isNumberByte b = false ∧ b ≠ 34 :=
  (byte_classes b).2.1 h

theorem isLiteral_quotable (h : isLiteral b = true) (hdelete : b ≠ 127) :
    b ≠ 255 ∧ b ≠ 92 ∧ b ≠ 34 ∧ iscntrl b = false := (byte_classes b).2.2.1 h hdelete

theorem isHexDigit_ne (h : isHexDigit b = true) : b ≠ 255 ∧ b ≠ 127 :=
  (byte_classes b).2.2.2.1 h

theorem isDigit_first (h : isDigit b = true) :
    firstNumberChars.contains b = true ∧ isNumberByte b = true := (byte_classes b).2.2.2.2.1 h

theorem isRealByte_number (h : isRealByte b = true) (hb : b ≠ 69) : isNumberByte b = true :=
  (byte_classes b).2.2.2.2.2 h hb

end

theorem dropWhile_blanks {blanks : Bytes} (h : ∀ b ∈ blanks, isBlank b = true) {b : UInt8}
    (hb : isBlank b = false) (more : Bytes) :
    (blanks ++ b :: more).dropWhile isBlank = b :: more := by
  rw [List.dropWhile_append_of_pos h, List.dropWhile_cons_of_neg (by rw [hb]; decide)]

theorem WhitespaceSaver.before_eq_none (saver : WhitespaceSaver) {t : Token}
    (h : isSimpleValue t = true → saver.lastTokenWasSimpleValue = false) (blanks : Bytes) :
    (saver.save blanks).before t = none := by
  unfold before
  cases hsimple : isSimpleValue t with
  | false => rfl
  | true =>
      have hlast := h hsimple
      have hsave : saver.save blanks = saver := if_neg (by rw [hlast]; decide)
      rw [hsave, hlast]
      rfl

section

variable {doubles : Doubles} {more rest : Bytes} {saver : WhitespaceSaver}
  {post : List Token → Prop}

-- Only blanks are left between the newlines.
theorem shown_ws {ws : Bytes} (hws : Ws ws)
    (h : ∀ (blanks : Bytes) (saver' : WhitespaceSaver), (∀ b ∈ blanks, isBlank b = true) →
      (saver.lastTokenWasSimpleValue = false → saver'.lastTokenWasSimpleValue = false) →
      Shown doubles (blanks ++ more) saver' post) :
    Shown doubles (ws ++ more) saver post := by
  suffices hall : ∀ blanks saver', (∀ b ∈ blanks, isBlank b = true) →
      (saver.lastTokenWasSimpleValue = false → saver'.lastTokenWasSimpleValue = false) →
      Shown doubles (blanks ++ (ws ++ more)) saver' post from hall [] saver nofun id
  induction ws with
  | nil => exact h
  | cons b ws ih =>
      have hb := hws b List.mem_cons_self
      have hrest : Ws ws := fun c hc => hws c (List.mem_cons_of_mem b hc)
      intro blanks saver' hblanks hsaver
      by_cases hnewline : b = 10
      · subst hnewline
        have hnext := ih hrest [] (.after .newline) nofun fun _ => rfl
        have hfirst : ∀ r rest',
            Lexes doubles false ((blanks ++ 10 :: (ws ++ more)).dropWhile isBlank) r rest' →
              r = .ok .newline ∧ rest' = ws ++ more := by
          intro r rest' hlexes
          rw [dropWhile_blanks hblanks (by decide)] at hlexes
          exact hlexes.of_punctuation .newline
        refine streams_token (t := .newline) (fun h => by cases h) hfirst ?_
        rw [saver'.before_eq_none (fun h => by cases h)]
        exact hnext
      · have hblank := (isWs_blank hb).resolve_left hnewline
        rw [List.cons_append, List.append_cons]
        refine ih hrest (blanks ++ [b]) saver' ?_ hsaver
        intro c hc
        rcases List.mem_append.mp hc with hc | hc
        · exact hblanks c hc
        · rw [List.mem_singleton.mp hc]
          exact hblank

theorem shown_last {ws : Bytes} (hws : Ws ws) (hpost : post [.end_]) :
    Shown doubles ws saver post := by
  rw [← List.append_nil ws]
  refine shown_ws hws ?_
  intro blanks saver' hblanks _
  rw [List.append_nil]
  refine streams_last ?_ hpost
  exact List.dropWhile_eq_nil_iff.mpr hblanks

-- A token that is known, behind whitespace.
theorem shown_token {ws : Bytes} (hws : Ws ws) {b : UInt8} (hb : isBlank b = false) {t : Token}
    (ht : t.isJson = true)
    (hsaver : isSimpleValue t = true → saver.lastTokenWasSimpleValue = false)
    (h : ∀ r rest', Lexes doubles false (b :: more) r rest' → r = .ok t ∧ rest' = rest)
    (hrest : Shown doubles rest (.after t) fun ts => post (t :: ts)) :
    Shown doubles (ws ++ b :: more) saver post := by
  refine shown_ws hws ?_
  intro blanks saver' hblanks hkeeps
  have hfirst : ∀ r rest', Lexes doubles false ((blanks ++ b :: more).dropWhile isBlank) r rest' →
      r = .ok t ∧ rest' = rest := by
    intro r rest' hlexes
    rw [dropWhile_blanks hblanks hb] at hlexes
    exact h r rest' hlexes
  have hkept : ∀ ts, withoutNewlines (significant (t :: ts)) =
      t :: withoutNewlines (significant ts) := by
    intro ts
    cases t with
    | comment | newline => cases ht
    | _ => rfl
  refine streams_token ?_ hfirst ?_
  · rintro rfl
    cases ht
  · rw [saver'.before_eq_none fun hsimple => hkeeps (hsaver hsimple)]
    intro n s hs hn
    have hpost : post (t :: withoutNewlines (significant (deliver doubles false n s))) :=
      hrest n s hs hn
    rw [← hkept] at hpost
    exact hpost

-- A problem is there, behind whitespace.
theorem shown_problem {ws : Bytes} (hws : Ws ws) {b : UInt8} (hb : isBlank b = false)
    (h : ∀ r rest', Lexes doubles false (b :: more) r rest' →
      ∃ what message suggestQuotes, r = .error (.problem what message suggestQuotes)) :
    Shown doubles (ws ++ b :: more) saver fun ts => ∃ t ∈ ts, t.isForeign = true := by
  refine shown_ws hws ?_
  intro blanks saver' hblanks _
  refine streams_problem ?_ ?_
  · intro r rest' hlexes
    rw [dropWhile_blanks hblanks hb] at hlexes
    exact h r rest' hlexes
  · intro what message suggestQuotes ts
    exact ⟨.problem what message suggestQuotes, List.mem_cons_self, rfl⟩

end

def markToken : Mark → Token
  | .beginArray => .openSquare
  | .beginObject => .openCurly
  | .endArray => .closeSquare
  | .endObject => .closeCurly
  | .nameSeparator => .colon
  | .valueSeparator => .comma

-- The string that a body is read as. Of a code unit the low byte is kept.
def readBody : Bytes → Bytes
  | 92 :: 117 :: a :: b :: c :: d :: rest => toChar (strtol16 [a, b, c, d]) :: readBody rest
  | 92 :: e :: rest => (escapes.lookup e).getD e :: readBody rest
  | b :: rest => b :: readBody rest
  | [] => []

-- The token of a lexeme, where the tokenizer gives one.
def lexemeToken (doubles : Doubles) : Lexeme → Option Token
  | .mark m => some (markToken m)
  | .null => some (.value (.configNull ()))
  | .boolean value => some (.value (.configBoolean () value))
  | .integer lexeme => (numberResult doubles lexeme false).toOption
  | .real lexeme => if 69 ∈ lexeme then none else (numberResult doubles lexeme true).toOption
  | .string body => if 127 ∈ body then none else some (.value (.configString () (readBody body)))

theorem readBody_cons {b : UInt8} (hb : b ≠ 92) (rest : Bytes) :
    readBody (b :: rest) = b :: readBody rest := by
  rw [readBody]
  · rintro _ _ _ _ _ rfl
    exact absurd rfl hb
  · rintro _ _ rfl
    exact absurd rfl hb

theorem readBody_escape {e : UInt8} (he : e ≠ 117) (rest : Bytes) :
    readBody (92 :: e :: rest) = (escapes.lookup e).getD e :: readBody rest := by
  rw [readBody]
  rintro a b c d rest' rfl
  exact absurd rfl he

theorem readBody_append {c : Bytes} (hc : ∀ b ∈ c, isLiteral b = true) (rest : Bytes) :
    readBody (c ++ rest) = c ++ readBody rest := by
  induction c with
  | nil => rfl
  | cons b c ih =>
      rw [List.forall_mem_cons] at hc
      have hb : b ≠ 92 := by
        rintro rfl
        cases hc.1
      rw [List.cons_append, readBody_cons hb, ih hc.2, List.cons_append]

theorem Quoted.append {c body text : Bytes} (hc : ∀ b ∈ c, isLiteral b = true)
    (hdelete : 127 ∉ c) (h : Quoted body text) : Quoted (c ++ body) (c ++ text) := by
  induction c with
  | nil => exact h
  | cons b c ih =>
      rw [List.forall_mem_cons] at hc
      rw [List.mem_cons, not_or] at hdelete
      exact .char (isLiteral_quotable hc.1 (Ne.symm hdelete.1)) (ih hc.2 hdelete.2)

theorem escape_single {e x : UInt8} (h : (e, x) ∈ escapeChars) :
    Escape [e] x ∧ e ≠ 117 ∧ e ≠ 127 ∧ escapes.lookup e = some x := by
  refine ⟨.single h, ?_⟩
  have hall : ∀ p ∈ escapeChars, p.1 ≠ 117 ∧ p.1 ≠ 127 ∧ escapes.lookup p.1 = some p.2 := by
    simp [escapeChars, escapes, List.lookup_cons]
  exact hall (e, x) h

theorem escape_unicode {digits : Bytes} (hlength : digits.length = 4)
    (hdigits : ∀ b ∈ digits, isHexDigit b = true) :
    Escape (117 :: digits) (toChar (strtol16 digits)) :=
  .unicode hlength fun h => (isHexDigit_ne (hdigits 255 h)).1 rfl

-- The tokenizer reads a body up to its quote, unless there is a delete character in it.
theorem quoted_of_isBody {body : Bytes} (h : IsBody body) (hdelete : 127 ∉ body) :
    Quoted (body ++ [34]) (readBody body) := by
  induction h with
  | nil => exact .close
  | @char c rest hc h ih =>
      rw [List.mem_append, not_or] at hdelete
      have hliteral := isUnescaped_isLiteral hc
      rw [readBody_append hliteral, List.append_assoc]
      exact (ih hdelete.2).append hliteral hdelete.1
  | @escape e x rest he h ih =>
      obtain ⟨hescape, hunicode, _, hlookup⟩ := escape_single he
      rw [readBody_escape hunicode, hlookup]
      have hrest : 127 ∉ rest := fun h => hdelete (by simp [h])
      have hquoted := Quoted.escape hescape (ih hrest)
      exact hquoted
  | @unicode digits rest hlength hdigits h ih =>
      have hescape := escape_unicode hlength hdigits
      obtain ⟨a, b, c, d, rfl⟩ : ∃ a b c d, digits = [a, b, c, d] := by
        rcases digits with _ | ⟨a, _ | ⟨b, _ | ⟨c, _ | ⟨d, _ | ⟨e, digits⟩⟩⟩⟩⟩ <;>
          first | exact ⟨a, b, c, d, rfl⟩ | simp at hlength
      have hrest : 127 ∉ rest := fun h => hdelete (by simp [h])
      have hquoted := Quoted.escape hescape (ih hrest)
      exact hquoted

theorem Quoted.peel {c : Bytes} (hc : ∀ b ∈ c, isLiteral b = true) {body text more rest : Bytes}
    (h : Quoted body text) (heq : body ++ more = c ++ rest) :
    127 ∉ c ∧ ∃ body' text', Quoted body' text' ∧ body' ++ more = rest := by
  induction c generalizing body text with
  | nil => exact ⟨nofun, body, text, h, heq⟩
  | cons b c ih =>
      rw [List.forall_mem_cons] at hc
      cases h with
      | close =>
          obtain ⟨rfl, _⟩ := List.cons.inj heq
          cases hc.1
      | char hb h =>
          obtain ⟨rfl, heq'⟩ := List.cons.inj heq
          obtain ⟨hdelete, hrest⟩ := ih hc.2 h heq'
          refine ⟨?_, hrest⟩
          rw [List.mem_cons, not_or]
          refine ⟨?_, hdelete⟩
          rintro rfl
          cases hb.2.2.2
      | escape =>
          obtain ⟨rfl, _⟩ := List.cons.inj heq
          cases hc.1

theorem Quoted.peel_escape {e body text more rest : Bytes} {c : UInt8} (he : Escape e c)
    (h : Quoted body text) (heq : body ++ more = 92 :: (e ++ rest)) :
    ∃ body' text', Quoted body' text' ∧ body' ++ more = rest := by
  cases h with
  | close => cases (List.cons.inj heq).1
  | char hb => exact absurd (List.cons.inj heq).1 hb.2.1
  | @escape e' c' body' text' he' h =>
      have htail : (e' ++ body') ++ more = e ++ rest := (List.cons.inj heq).2
      rw [List.append_assoc] at htail
      obtain ⟨rfl, _⟩ := he'.unique he htail
      exact ⟨body', text', h, List.append_cancel_left htail⟩

theorem not_quoted_of_isBody {body : Bytes} (h : IsBody body) (hdelete : 127 ∈ body)
    {body' text more more' : Bytes} (hquoted : Quoted body' text)
    (heq : body' ++ more' = body ++ more) : False := by
  induction h generalizing body' text with
  | nil => cases hdelete
  | char hc h ih =>
      rw [List.append_assoc] at heq
      obtain ⟨hplain, body'', text', hquoted', heq'⟩ :=
        hquoted.peel (isUnescaped_isLiteral hc) heq
      exact ih ((List.mem_append.mp hdelete).resolve_left hplain) hquoted' heq'
  | @escape e x rest he h ih =>
      obtain ⟨hescape, _, hne, _⟩ := escape_single he
      obtain ⟨body'', text', hquoted', heq'⟩ := hquoted.peel_escape hescape heq
      refine ih ?_ hquoted' heq'
      simpa [Ne.symm hne] using hdelete
  | @unicode digits rest hlength hdigits h ih =>
      have hescape := escape_unicode hlength hdigits
      have hassoc : body' ++ more' = 92 :: (117 :: digits ++ (rest ++ more)) := by
        rw [heq]
        simp
      obtain ⟨body'', text', hquoted', heq'⟩ := hquoted.peel_escape hescape hassoc
      have hplain : 127 ∉ digits := fun h => (isHexDigit_ne (hdigits 127 h)).2 rfl
      refine ih ?_ hquoted' heq'
      simpa [hplain] using hdelete

theorem isInteger_split {text : Bytes} (h : IsInteger text) :
    ∃ b digits, text = b :: digits ∧ firstNumberChars.contains b = true ∧
      ∀ d ∈ digits, isDigit d = true := by
  cases h with
  | plain h =>
      have hdigits := h.isDigits
      cases text with
      | nil => exact absurd rfl hdigits.ne_nil
      | cons b digits =>
          obtain ⟨hb, hrest⟩ := List.forall_mem_cons.mp hdigits.all
          exact ⟨b, digits, rfl, (isDigit_first hb).1, hrest⟩
  | @minus digits h => exact ⟨45, digits, rfl, by decide, h.isDigits.all⟩

section

variable {doubles : Doubles} {more : Bytes} {saver : WhitespaceSaver} {post : List Token → Prop}

theorem scanNumber_eq {b : UInt8} {digits : Bytes} (hdigits : ∀ d ∈ digits, isNumberByte d = true)
    (hmore : ∀ c ∈ more.head?, isNumberByte c = false) :
    scanNumber doubles b (digits ++ more) =
      (numberResult doubles (b :: digits) (digits.any fun b => b = 46 || b = 101), more) := by
  have hnone : more.takeWhile isNumberByte = [] ∧ more.dropWhile isNumberByte = more := by
    cases more with
    | nil => exact ⟨rfl, rfl⟩
    | cons c more =>
        have hc := hmore c rfl
        rw [List.takeWhile_cons_of_neg (by rw [hc]; decide),
          List.dropWhile_cons_of_neg (by rw [hc]; decide)]
        exact ⟨rfl, rfl⟩
  unfold scanNumber
  rw [List.takeWhile_append_of_pos hdigits, List.dropWhile_append_of_pos hdigits, hnone.1, hnone.2,
    List.append_nil]

theorem numberResult_value {s : Bytes} {containedDecimalOrE : Bool} {t : Token}
    (h : numberResult doubles s containedDecimalOrE = .ok t) : ∃ v, t = .value v := by
  unfold numberResult at h
  split at h
  · split at h <;> cases h
    · exact ⟨_, rfl⟩
    · exact ⟨_, rfl⟩
  · split at h <;> cases h
    exact ⟨_, rfl⟩

-- A number up to where the tokenizer ends it.
theorem shown_number {ws : Bytes} (hws : Ws ws) {b : UInt8}
    (hb : firstNumberChars.contains b = true) {digits : Bytes}
    (hdigits : ∀ d ∈ digits, isNumberByte d = true)
    (hmore : ∀ c ∈ more.head?, isNumberByte c = false)
    (hsaver : saver.lastTokenWasSimpleValue = false)
    (hok : ∀ v, numberResult doubles (b :: digits) (digits.any fun b => b = 46 || b = 101) =
        .ok (.value v) →
      Shown doubles more (.after (.value v)) fun ts => post (.value v :: ts))
    (herror : ∀ e, numberResult doubles (b :: digits) (digits.any fun b => b = 46 || b = 101) =
        .error e → ∀ ts, (∃ t ∈ ts, t.isForeign = true) → post ts) :
    Shown doubles (ws ++ b :: (digits ++ more)) saver post := by
  have hscan : ∀ r rest', Lexes doubles false (b :: (digits ++ more)) r rest' →
      r = numberResult doubles (b :: digits) (digits.any fun b => b = 46 || b = 101) ∧
        rest' = more := by
    intro r rest' hlexes
    have hnumber := hlexes.of_number hb
    rw [scanNumber_eq hdigits hmore] at hnumber
    exact hnumber
  have hblank := (firstNumberChars_plain hb).1
  cases hresult : numberResult doubles (b :: digits) (digits.any fun b => b = 46 || b = 101) with
  | ok t =>
      rw [hresult] at hscan hok
      obtain ⟨v, rfl⟩ := numberResult_value hresult
      exact shown_token hws hblank rfl (fun _ => hsaver) hscan (hok v rfl)
  | error e =>
      rw [hresult, numberResult_error hresult] at hscan
      have hproblem : Shown doubles (ws ++ b :: (digits ++ more)) saver fun ts =>
          ∃ t ∈ ts, t.isForeign = true :=
        shown_problem hws hblank fun r rest' hlexes => ⟨_, _, _, (hscan r rest' hlexes).1⟩
      intro n s hs hn
      exact herror e hresult _ (hproblem n s hs hn)

theorem scanUnquoted_capital (sb more : Bytes) :
    ∃ text, (scanUnquoted false (69 :: sb) more).1 = .unquotedText text := by
  induction more generalizing sb with
  | nil => exact ⟨_, rfl⟩
  | cons b more ih =>
      have hword : wordToken (69 :: sb ++ [b]) = none := by
        simp [wordToken, ascii]
      rw [scanUnquoted, hword]
      split
      · exact ⟨_, rfl⟩
      · exact ih (sb ++ [b])

-- What starts with a capital E is an unquoted text.
theorem shown_capital (more : Bytes) (saver : WhitespaceSaver) :
    Shown doubles (69 :: more) saver fun ts => ∃ t ∈ ts, t.isForeign = true := by
  obtain ⟨text, htext⟩ := scanUnquoted_capital [] more
  have hscan : ∀ r rest', Lexes doubles false ((69 :: more).dropWhile isBlank) r rest' →
      r = .ok (.unquotedText text) ∧ rest' = (scanUnquoted false [69] more).2 := by
    intro r rest' hlexes
    have hstart : scanUnquoted false [] (69 :: more) = scanUnquoted false [69] more := rfl
    have hunquoted := hlexes.of_unquoted (by decide) rfl (by decide)
    rw [hstart, htext] at hunquoted
    exact hunquoted
  refine streams_token (t := .unquotedText text) (fun h => by cases h) hscan ?_
  intro n s _ _
  refine ⟨.unquotedText text, ?_, rfl⟩
  simp [withoutNewlines, significant, Token.isNewline, Token.isComment]

theorem shown_integer {ws : Bytes} (hws : Ws ws) {lexeme : Bytes} (h : IsInteger lexeme)
    (hmore : ∀ c ∈ more.head?, isNumberByte c = false)
    (hsaver : saver.lastTokenWasSimpleValue = false)
    (hok : ∀ v, numberResult doubles lexeme false = .ok (.value v) →
      Shown doubles more (.after (.value v)) fun ts => post (.value v :: ts))
    (herror : ∀ e, numberResult doubles lexeme false = .error e →
      ∀ ts, (∃ t ∈ ts, t.isForeign = true) → post ts) :
    Shown doubles (ws ++ (lexeme ++ more)) saver post := by
  obtain ⟨b, digits, rfl, hb, hdigits⟩ := isInteger_split h
  have hnumber : ∀ d ∈ digits, isNumberByte d = true := fun d hd => (isDigit_first (hdigits d hd)).2
  have hplain : (digits.any fun b => b = 46 || b = 101) = false := by
    rw [List.any_eq_false]
    intro d hd
    have hdigit := hdigits d hd
    rw [Bool.or_eq_true, decide_eq_true_iff, decide_eq_true_iff]
    rintro (rfl | rfl) <;> cases hdigit
  refine shown_number hws hb hnumber hmore hsaver ?_ ?_
  · rw [hplain]
    exact hok
  · rw [hplain]
    exact herror

theorem shown_real {ws : Bytes} (hws : Ws ws) {lexeme : Bytes} (h : IsReal lexeme)
    (hcapital : 69 ∉ lexeme) (hmore : ∀ c ∈ more.head?, isNumberByte c = false)
    (hsaver : saver.lastTokenWasSimpleValue = false)
    (hok : ∀ v, numberResult doubles lexeme true = .ok (.value v) →
      Shown doubles more (.after (.value v)) fun ts => post (.value v :: ts))
    (herror : ∀ e, numberResult doubles lexeme true = .error e →
      ∀ ts, (∃ t ∈ ts, t.isForeign = true) → post ts) :
    Shown doubles (ws ++ (lexeme ++ more)) saver post := by
  obtain ⟨int, rest, rfl, hint, hrest, hmark⟩ := h.split
  obtain ⟨b, digits, rfl, hb, hdigits⟩ := isInteger_split hint
  rw [List.mem_append, not_or] at hcapital
  have hnumber : ∀ d ∈ digits ++ rest, isNumberByte d = true := by
    intro d hd
    rcases List.mem_append.mp hd with hd | hd
    · exact (isDigit_first (hdigits d hd)).2
    · refine isRealByte_number (hrest d hd) ?_
      rintro rfl
      exact hcapital.2 hd
  have hreal : ((digits ++ rest).any fun b => b = 46 || b = 101) = true := by
    rw [List.any_eq_true]
    rcases hmark with h | h | h
    · exact ⟨46, List.mem_append_right digits h, rfl⟩
    · exact ⟨101, List.mem_append_right digits h, rfl⟩
    · exact absurd h hcapital.2
  change Shown doubles (ws ++ b :: (digits ++ rest ++ more)) saver post
  refine shown_number hws hb hnumber hmore hsaver ?_ ?_
  · rw [hreal]
    exact hok
  · rw [hreal]
    exact herror

-- The number ends before the capital E, and the rest is an unquoted text.
theorem shown_real_capital {ws : Bytes} (hws : Ws ws) {lexeme : Bytes} (h : IsReal lexeme)
    (hcapital : 69 ∈ lexeme) (hsaver : saver.lastTokenWasSimpleValue = false) :
    Shown doubles (ws ++ (lexeme ++ more)) saver fun ts => ∃ t ∈ ts, t.isForeign = true := by
  obtain ⟨int, rest, rfl, hint, hrest, _⟩ := h.split
  obtain ⟨b, digits, rfl, hb, hdigits⟩ := isInteger_split hint
  have htail : 69 ∈ digits ++ rest := by
    rcases List.mem_cons.mp hcapital with h | h
    · exact absurd h.symm (firstNumberChars_plain hb).2.2.2.1
    · exact h
  obtain ⟨front, back, hsplit, hfront⟩ := List.eq_append_cons_of_mem htail
  have hnumber : ∀ d ∈ front, isNumberByte d = true := by
    intro d hd
    have hmem : d ∈ digits ++ rest := by
      rw [hsplit]
      exact List.mem_append_left _ hd
    rcases List.mem_append.mp hmem with hmem | hmem
    · exact (isDigit_first (hdigits d hmem)).2
    · refine isRealByte_number (hrest d hmem) ?_
      rintro rfl
      exact hfront hd
  change Shown doubles (ws ++ b :: (digits ++ rest ++ more)) saver _
  rw [hsplit, List.append_assoc, List.cons_append]
  refine shown_number hws hb hnumber ?_ hsaver ?_ fun _ _ ts h => h
  · rintro c ⟨⟩
    decide
  · intro v _ n s hs hn
    obtain ⟨t, ht, hforeign⟩ := shown_capital (back ++ more) (.after (.value v)) n s hs hn
    exact ⟨t, List.mem_cons_of_mem _ ht, hforeign⟩

theorem shown_string {ws : Bytes} (hws : Ws ws) {body : Bytes} (h : IsBody body)
    (hdelete : 127 ∉ body) (hmore : more.head? ≠ some 34)
    (hsaver : saver.lastTokenWasSimpleValue = false)
    (hrest : Shown doubles more (.after (.value (.configString () (readBody body)))) fun ts =>
      post (.value (.configString () (readBody body)) :: ts)) :
    Shown doubles (ws ++ (34 :: (body ++ [34]) ++ more)) saver post := by
  refine shown_token hws (by decide) rfl (fun _ => hsaver) ?_ hrest
  intro r rest' hlexes
  exact hlexes.of_string (quoted_of_isBody h hdelete) fun _ => hmore

theorem shown_string_delete {ws : Bytes} (hws : Ws ws) {body : Bytes} (h : IsBody body)
    (hdelete : 127 ∈ body) :
    Shown doubles (ws ++ (34 :: (body ++ [34]) ++ more)) saver fun ts =>
      ∃ t ∈ ts, t.isForeign = true := by
  refine shown_problem hws (by decide) ?_
  intro r rest' hlexes
  have hbody : ∀ {body' text more' : Bytes}, Quoted body' text →
      body' ++ more' ≠ body ++ [34] ++ more := by
    intro body' text more' hquoted heq
    rw [List.append_assoc] at heq
    exact not_quoted_of_isBody h hdelete hquoted heq
  generalize hleft : (34 : UInt8) :: List.append (body ++ [34]) more = left at hlexes
  cases hlexes with
  | problem _ what message suggestQuotes => exact ⟨what, message, suggestQuotes, rfl⟩
  | string hquoted => exact absurd (List.cons.inj hleft).2.symm (hbody hquoted)
  | tripleQuoted => exact absurd (List.cons.inj hleft).2.symm (hbody .close)
  | punctuation hb =>
      obtain ⟨rfl, _⟩ := List.cons.inj hleft
      cases hb
  | comment h =>
      obtain ⟨rfl, _⟩ := List.cons.inj hleft
      simp [startsComment] at h
  | number _ hb =>
      obtain ⟨rfl, _⟩ := List.cons.inj hleft
      cases hb
  | unquoted hb =>
      obtain ⟨rfl, _⟩ := List.cons.inj hleft
      cases hb
  | last => cases hleft
  | eof | plusEquals | substitution => cases (List.cons.inj hleft).1

-- The words that are values.
theorem lexes_word {b : UInt8} {more rest : Bytes} {t : Token} (hb : endsUnquoted b = false)
    (hnumber : firstNumberChars.contains b = false)
    (hword : scanUnquoted false [] (b :: more) = (t, rest)) {r : Except TokenizerError Token}
    {rest' : Bytes} (h : Lexes doubles false (b :: more) r rest') : r = .ok t ∧ rest' = rest := by
  have hscan := h.of_unquoted hb rfl hnumber
  rw [hword] at hscan
  exact hscan

theorem shown_mark {ws : Bytes} (hws : Ws ws) (m : Mark)
    (hrest : Shown doubles more (.after (markToken m)) fun ts => post (markToken m :: ts)) :
    Shown doubles (ws ++ m.byte :: more) saver post := by
  have hmark : Punctuation m.byte (markToken m) ∧ isBlank m.byte = false ∧
      (markToken m).isJson = true ∧ isSimpleValue (markToken m) = false := by
    cases m with
    | beginArray => exact ⟨.openSquare, by decide, rfl, rfl⟩
    | beginObject => exact ⟨.openCurly, by decide, rfl, rfl⟩
    | endArray => exact ⟨.closeSquare, by decide, rfl, rfl⟩
    | endObject => exact ⟨.closeCurly, by decide, rfl, rfl⟩
    | nameSeparator => exact ⟨.colon, by decide, rfl, rfl⟩
    | valueSeparator => exact ⟨.comma, by decide, rfl, rfl⟩
  obtain ⟨hpunctuation, hblank, hjson, hsimple⟩ := hmark
  refine shown_token hws hblank hjson ?_ ?_ hrest
  · intro h
    rw [hsimple] at h
    cases h
  · intro r rest' hlexes
    exact hlexes.of_punctuation hpunctuation

end

-- The tokens that the lexemes of a text give.
inductive Spelled (doubles : Doubles) : List Lexeme → List Token → Prop
  | last : Spelled doubles [] [.end_]
  | cons {l : Lexeme} {ls : List Lexeme} {t : Token} {ts : List Token}
      (h : lexemeToken doubles l = some t) (hrest : Spelled doubles ls ts) :
      Spelled doubles (l :: ls) (t :: ts)
  | refused {l : Lexeme} {ls : List Lexeme} {ts : List Token} (h : lexemeToken doubles l = none)
      (hforeign : ∃ t ∈ ts, t.isForeign = true) : Spelled doubles (l :: ls) ts

theorem delimits_head {more : Bytes} {ls : List Lexeme} (h : Cut more ls)
    (hls : delimits ls = true) :
    (∀ c ∈ more.head?, isNumberByte c = false) ∧ more.head? ≠ some 34 := by
  have hmark : ∀ m : Mark, isNumberByte m.byte = false ∧ m.byte ≠ 34 := by
    intro m
    cases m <;> decide
  have hall : ∀ c ∈ more.head?, isNumberByte c = false ∧ c ≠ 34 := by
    intro c hc
    cases h with
    | last hws => exact isWs_delimits (hws c (List.mem_of_mem_head? hc))
    | @cons ws more l ls hws =>
        cases ws with
        | nil =>
            cases l with
            | mark m =>
                obtain rfl : m.byte = c := Option.some.inj hc
                exact hmark m
            | _ => cases hls
        | cons b ws =>
            obtain rfl : b = c := Option.some.inj hc
            exact isWs_delimits (hws b List.mem_cons_self)
  exact ⟨fun c hc => (hall c hc).1, fun h => (hall 34 h).2 rfl⟩

theorem Shown.imp {doubles : Doubles} {more : Bytes} {saver : WhitespaceSaver}
    {post post' : List Token → Prop} (h : Shown doubles more saver post)
    (himp : ∀ ts, post ts → post' ts) : Shown doubles more saver post' :=
  fun n s hs hn => himp _ (h n s hs hn)

theorem shown_value {doubles : Doubles} {ws more : Bytes} {l : Lexeme} {ls : List Lexeme}
    (hws : Ws ws) (hl : l.Valid) (hvalue : l.isMark = false) (hcut : Cut more ls)
    (hls : delimits ls = true) {saver : WhitespaceSaver}
    (hsaver : saver.lastTokenWasSimpleValue = false)
    (hmore : ∀ saver, Shown doubles more saver (Spelled doubles ls)) :
    Shown doubles (ws ++ (l.text ++ more)) saver (Spelled doubles (l :: ls)) := by
  obtain ⟨hnumber, hquote⟩ := delimits_head hcut hls
  have hnext : ∀ t, lexemeToken doubles l = some t →
      Shown doubles more (.after t) fun ts => Spelled doubles (l :: ls) (t :: ts) :=
    fun t ht => (hmore (.after t)).imp fun ts => .cons ht
  cases l with
  | mark => cases hvalue
  | null =>
      exact shown_token hws (by decide) rfl (fun _ => hsaver)
        (fun r rest' => lexes_word (by decide) (by decide) rfl) (hnext _ rfl)
  | boolean value =>
      cases value with
      | true =>
          exact shown_token hws (by decide) rfl (fun _ => hsaver)
            (fun r rest' => lexes_word (by decide) (by decide) rfl) (hnext _ rfl)
      | false =>
          exact shown_token hws (by decide) rfl (fun _ => hsaver)
            (fun r rest' => lexes_word (by decide) (by decide) rfl) (hnext _ rfl)
  | integer lexeme =>
      refine shown_integer hws hl hnumber hsaver (fun v hresult => hnext _ ?_)
        fun e hresult ts => .refused ?_
      · exact congrArg Except.toOption hresult
      · exact congrArg Except.toOption hresult
  | real lexeme =>
      by_cases hcapital : 69 ∈ lexeme
      · refine (shown_real_capital hws hl hcapital hsaver).imp fun ts => .refused ?_
        rw [lexemeToken, if_pos hcapital]
      · refine shown_real hws hl hcapital hnumber hsaver (fun v hresult => hnext _ ?_)
          fun e hresult ts => .refused ?_
        · rw [lexemeToken, if_neg hcapital]
          exact congrArg Except.toOption hresult
        · rw [lexemeToken, if_neg hcapital]
          exact congrArg Except.toOption hresult
  | string body =>
      by_cases hdelete : 127 ∈ body
      · refine (shown_string_delete hws hl hdelete).imp fun ts => .refused ?_
        rw [lexemeToken, if_pos hdelete]
      · refine shown_string hws hl hdelete hquote hsaver (hnext _ ?_)
        rw [lexemeToken, if_neg hdelete]

theorem shown_cut {doubles : Doubles} {text : Bytes} {ls : List Lexeme} (h : Cut text ls)
    {saver : WhitespaceSaver} (hsaver : delimits ls = false → saver.lastTokenWasSimpleValue = false) :
    Shown doubles text saver (Spelled doubles ls) := by
  induction h generalizing saver with
  | last hws => exact shown_last hws .last
  | @cons ws more l ls hws hl hnext h ih =>
      cases hmark : l.isMark with
      | true =>
          cases l with
          | mark m =>
              refine shown_mark hws m ?_
              refine (ih fun _ => ?_).imp fun ts => .cons rfl
              cases m <;> rfl
          | _ => cases hmark
      | false =>
          rw [hmark] at hnext
          have hls : delimits ls = true := hnext.resolve_left Bool.false_ne_true
          refine shown_value hws hl hmark h hls (hsaver hmark) fun saver => ih ?_
          intro hfalse
          rw [hls] at hfalse
          cases hfalse

theorem spelled_jsonTokens {doubles : Doubles} {text : Bytes} {ls : List Lexeme}
    (h : Cut text ls) : Spelled doubles ls (JsonTokens doubles text) :=
  shown_cut h (fun _ => rfl) (text.length + 1) _ (TokenStream.ofString_at text)
    (Nat.lt_succ_self _)

section

variable {doubles : Doubles} {ls : List Lexeme} {tokens : List Token}

theorem Spelled.eq_of_map (h : Spelled doubles ls tokens) {ts : List Token}
    (hmap : ls.map (lexemeToken doubles) = ts.map some) : tokens = ts ++ [.end_] := by
  induction h generalizing ts with
  | last =>
      obtain rfl : ts = [] := by simpa using hmap
      rfl
  | cons ht _ ih =>
      cases ts with
      | nil => cases hmap
      | cons t ts =>
          obtain ⟨hfirst, hrest⟩ := List.cons.inj hmap
          rw [ht] at hfirst
          obtain rfl := Option.some.inj hfirst
          rw [ih hrest, List.cons_append]
  | refused hnone =>
      cases ts with
      | nil => cases hmap
      | cons t ts =>
          have hfirst := (List.cons.inj hmap).1
          rw [hnone] at hfirst
          cases hfirst

-- Where nothing is refused every lexeme has its token.
theorem Spelled.map_of_json (h : Spelled doubles ls tokens) {ts : List Token}
    (htokens : tokens = ts ++ [.end_]) (hts : ∀ t ∈ ts, t.isJson = true) :
    ls.map (lexemeToken doubles) = ts.map some := by
  induction h generalizing ts with
  | last =>
      cases ts with
      | nil => rfl
      | cons t ts =>
          have hlength := congrArg List.length htokens
          simp at hlength
  | @cons l ls t tokens ht h ih =>
      cases ts with
      | nil =>
          obtain ⟨rfl, rfl⟩ := List.cons.inj htokens
          cases h
          rename_i hforeign
          obtain ⟨t, hmem, _⟩ := hforeign
          cases hmem
      | cons t' ts =>
          obtain ⟨rfl, hrest⟩ := List.cons.inj htokens
          rw [List.forall_mem_cons] at hts
          rw [List.map_cons, List.map_cons, ht, ih hrest hts.2]
  | refused _ hforeign =>
      obtain ⟨t, ht, hforeign⟩ := hforeign
      rw [htokens] at ht
      rcases List.mem_append.mp ht with ht | ht
      · have hjson := hts t ht
        rw [Token.isJson, hforeign] at hjson
        simp at hjson
      · rw [List.mem_singleton.mp ht] at hforeign
        cases hforeign

end

end AsrServiceProxy.Config

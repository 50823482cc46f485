import AsrServiceProxy.Config.RoundTrip.Numbers

-- The token stream takes the printed text apart.
namespace AsrServiceProxy.Config

open CMemory

theorem pull_bind_ok {α β : Type} {m : Pull α} {f : α → Pull β} {s s' : TokenStream} {a : α}
    (h : m s = .ok a s') : (m >>= f) s = f a s' := by
  simp [bind, EStateM.bind, h]

@[simp] theorem toChar_readChar (b : UInt8) : toChar (readChar b) = b := by
  have hlt := b.toNat_lt
  by_cases hb : b < 128
  · have hmod : ((b.toNat : ℤ) % 256).toNat = b.toNat := by omega
    simp only [readChar, hb, ite_true, toChar, hmod, UInt8.ofNat_toNat]
  · have hmod : (((b.toNat : ℤ) - 256) % 256).toNat = b.toNat := by
      have hge : ¬b.toNat < 128 := fun h => hb (UInt8.lt_iff_toNat_lt.mpr h)
      omega
    simp only [readChar, hb, ite_false, toChar, hmod, UInt8.ofNat_toNat]

theorem readChar_inj {b c : UInt8} (h : readChar b = readChar c) : b = c := by
  rw [← toChar_readChar b, h, toChar_readChar]

-- The characters of the input that are still to come, when the last one may
-- have been read and put back as the end of the input.
def Left (more rest : List ℤ) : Prop := rest = more ∨ more = [] ∧ rest = [-1]

-- What follows a scalar: it ends a number, and is no quote.
def Stops (more : List ℤ) : Prop :=
  ∀ c rest, more = c :: rest → c ∈ ([10, 32, 44, 58, 61, 93, 123, 125] : List ℤ)

section

variable (doubles : Doubles) (allowComments : Bool)

theorem startOfComment_eq (c : ℤ) (s : TokenStream) (hash : c ≠ 35) (slash : c ≠ 47) :
    startOfComment allowComments c s = .ok false s := by
  by_cases he : c = -1
  · simp [startOfComment, he, pure, EStateM.pure]
  · by_cases ha : allowComments
    · simp [startOfComment, he, ha, hash, slash, pure, EStateM.pure]
    · simp [startOfComment, he, ha, pure, EStateM.pure]

-- Blanks before a token are skipped; the saver may keep them.
theorem nextCharAfterWhitespaceLoop_eq (count n : ℕ) (hn : count < n) (c : ℤ)
    (hc : isWhitespaceNotNewline c = false) (more : List ℤ) (s : TokenStream)
    (hrest : s.rest = List.replicate count 32 ++ c :: more) (hbuf : s.buffered ≤ 1) :
    ∃ s', nextCharAfterWhitespaceLoop n s = .ok c s' ∧ s'.rest = more ∧ s'.buffered = 0 ∧
      s'.saver.lastTokenWasSimpleValue = s.saver.lastTokenWasSimpleValue := by
  induction count generalizing n s with
  | zero =>
      obtain ⟨n, rfl⟩ : ∃ m, n = m + 1 := ⟨n - 1, by omega⟩
      have hread : nextCharRaw s = .ok c { s with rest := more, buffered := s.buffered - 1 } := by
        simp only [nextCharRaw, hrest, List.replicate_zero, List.nil_append]
      refine ⟨{ s with rest := more, buffered := s.buffered - 1 }, ?_, rfl, by simp; omega, rfl⟩
      simp [nextCharAfterWhitespaceLoop, pull_bind_ok hread, hc, pure, EStateM.pure]
  | succ count ih =>
      obtain ⟨n, rfl⟩ : ∃ m, n = m + 1 := ⟨n - 1, by omega⟩
      have hread : nextCharRaw s = .ok 32
          { s with rest := List.replicate count 32 ++ c :: more, buffered := s.buffered - 1 } := by
        simp only [nextCharRaw, hrest, List.replicate_succ, List.cons_append]
      have hblank : isWhitespaceNotNewline 32 = true := by decide
      simp only [nextCharAfterWhitespaceLoop, pull_bind_ok hread, hblank, ite_true]
      obtain ⟨s', hs', hrest', hbuf', hlast⟩ := ih n (by omega)
        { s with
          rest := List.replicate count 32 ++ c :: more
          buffered := s.buffered - 1
          saver := if s.saver.lastTokenWasSimpleValue then
            { s.saver with whitespace := s.saver.whitespace ++ [toChar 32] } else s.saver }
        rfl (by simp; omega)
      refine ⟨s', ?_, hrest', hbuf', ?_⟩
      · rw [← hs']
        simp only [saveWhitespace, bind, EStateM.bind]
        split <;> rfl
      · rw [hlast]
        split <;> rfl

theorem nextCharAfterWhitespace_eq (count : ℕ) (c : ℤ) (hc : isWhitespaceNotNewline c = false)
    (more : List ℤ) (s : TokenStream) (hrest : s.rest = List.replicate count 32 ++ c :: more)
    (hbuf : s.buffered ≤ 1) :
    ∃ s', nextCharAfterWhitespace s = .ok c s' ∧ s'.rest = more ∧ s'.buffered = 0 ∧
      s'.saver.lastTokenWasSimpleValue = s.saver.lastTokenWasSimpleValue := by
  obtain ⟨s', hs', h⟩ := nextCharAfterWhitespaceLoop_eq count (s.rest.length + 1)
    (by simp [hrest]) c hc more s hrest hbuf
  exact ⟨s', by simpa [nextCharAfterWhitespace, rounds, bind, EStateM.bind] using hs', h⟩

-- One token without whitespace before it.
def Steps (s : TokenStream) (t : Token) (s' : TokenStream) : Prop :=
  queueNextToken doubles allowComments s = .ok (none, t) s'

-- The bytes that are tokens of their own.
inductive Punctuation : UInt8 → Token → Prop where
  | newline : Punctuation 10 .newline
  | comma : Punctuation 44 .comma
  | colon : Punctuation 58 .colon
  | equals : Punctuation 61 .equals
  | openSquare : Punctuation 91 .openSquare
  | closeSquare : Punctuation 93 .closeSquare
  | openCurly : Punctuation 123 .openCurly
  | closeCurly : Punctuation 125 .closeCurly

-- A token that is no simple value, whatever came before it.
theorem steps_of_pull {s s' : TokenStream} {t : Token} (hsimple : isSimpleValue t = false)
    (hpull : ∀ substitution, pullToken doubles allowComments substitution s = .ok t s') :
    Steps doubles allowComments s t { s' with saver := .makeInstance } := by
  simp [Steps, queueNextToken, rounds, pullNextToken, bind, EStateM.bind, hpull, checkWhitespace,
    hsimple, pure, EStateM.pure, WhitespaceSaver.makeInstance]

-- A simple value that comes after another token.
theorem steps_of_pull_value {s s' : TokenStream} {v : Value Unit}
    (hlast : s'.saver.lastTokenWasSimpleValue = false)
    (hpull : ∀ substitution, pullToken doubles allowComments substitution s = .ok (.value v) s') :
    Steps doubles allowComments s (.value v)
      { s' with saver := { lastTokenWasSimpleValue := true, whitespace := [] } } := by
  simp [Steps, queueNextToken, rounds, pullNextToken, bind, EStateM.bind, hpull, checkWhitespace,
    isSimpleValue, hlast, pure, EStateM.pure]

theorem steps_punctuation {b : UInt8} {t : Token} (h : Punctuation b t) (count : ℕ)
    (more : List ℤ) (s : TokenStream)
    (hrest : s.rest = List.replicate count 32 ++ readChar b :: more) (hbuf : s.buffered ≤ 1) :
    ∃ s', Steps doubles allowComments s t s' ∧ s'.rest = more ∧ s'.buffered ≤ 1 ∧
      s'.saver.lastTokenWasSimpleValue = false := by
  have hblank : isWhitespaceNotNewline (readChar b) = false := by
    cases h <;> decide
  obtain ⟨s', hs', hrest', hbuf', _⟩ :=
    nextCharAfterWhitespace_eq count (readChar b) hblank more s hrest hbuf
  have hcomment := startOfComment_eq allowComments (readChar b) s' (by cases h <;> decide)
    (by cases h <;> decide)
  refine ⟨{ s' with saver := .makeInstance }, ?_, hrest', by simp [hbuf'], rfl⟩
  apply steps_of_pull
  · cases h <;> rfl
  · intro substitution
    rw [pullToken, pull_bind_ok hs']
    cases h with
    | newline => rfl
    | comma => rw [if_neg (by decide), if_neg (by decide), pull_bind_ok hcomment]; rfl
    | colon => rw [if_neg (by decide), if_neg (by decide), pull_bind_ok hcomment]; rfl
    | equals => rw [if_neg (by decide), if_neg (by decide), pull_bind_ok hcomment]; rfl
    | openSquare => rw [if_neg (by decide), if_neg (by decide), pull_bind_ok hcomment]; rfl
    | closeSquare => rw [if_neg (by decide), if_neg (by decide), pull_bind_ok hcomment]; rfl
    | openCurly => rw [if_neg (by decide), if_neg (by decide), pull_bind_ok hcomment]; rfl
    | closeCurly => rw [if_neg (by decide), if_neg (by decide), pull_bind_ok hcomment]; rfl

theorem nextCharRaw_cons (s : TokenStream) (c : ℤ) (more : List ℤ) :
    nextCharRaw { s with rest := c :: more, buffered := 0 } =
      .ok c { s with rest := more, buffered := 0 } := rfl

-- The four digits of a control character are read back.
theorem renderHex_digits (b : UInt8) :
    (255 : UInt8) ∉ renderHex b ∧ (iscntrl b = true → toChar (strtol16 (renderHex b)) = b) := by
  revert b
  apply forall_byte
  decide +kernel

theorem strtol16_renderHex (b : UInt8) (h : iscntrl b = true) :
    toChar (strtol16 (renderHex b)) = b := (renderHex_digits b).2 h

theorem renderHex_noEof (b : UInt8) : (255 : UInt8) ∉ renderHex b := (renderHex_digits b).1

theorem pullDigits_eq (digits : Bytes) (h : (255 : UInt8) ∉ digits) (acc : Bytes) (more : List ℤ)
    (s : TokenStream) :
    pullDigits digits.length acc { s with rest := digits.map readChar ++ more, buffered := 0 } =
      .ok (acc ++ digits) { s with rest := more, buffered := 0 } := by
  induction digits generalizing acc with
  | nil => simp [pullDigits, pure, EStateM.pure]
  | cons b digits ih =>
      have hb : readChar b ≠ -1 := by
        intro he
        have h255 : b = 255 := readChar_inj (by rw [he]; rfl)
        exact h (by simp [h255])
      rw [List.length_cons, List.map_cons, List.cons_append, pullDigits,
        pull_bind_ok (nextCharRaw_cons s _ _), if_neg hb, toChar_readChar,
        ih (fun hm => h (List.mem_cons_of_mem b hm)), List.append_assoc]
      rfl

-- One round of `pull_quoted_string` for each byte that was printed.
theorem pullQuotedLoop_char (b : UInt8) (hb : b ≠ 255) (n : ℕ) (acc : Bytes) (more : List ℤ)
    (s : TokenStream) :
    pullQuotedLoop (n + 1) acc
        { s with rest := (renderJsonChar b).map readChar ++ more, buffered := 0 } =
      pullQuotedLoop n (acc ++ [b]) { s with rest := more, buffered := 0 } := by
  unfold renderJsonChar
  split
  · rfl
  · rfl
  · rfl
  · rfl
  · rfl
  · rfl
  · rfl
  · rename_i hquote hbackslash _ _ _ _ _
    by_cases hc : iscntrl b
    · have hdigits := pullDigits_eq (renderHex b) (renderHex_noEof b) [] more s
      rw [show (renderHex b).length = 4 from rfl] at hdigits
      have hescape : pullEscapeSequence acc { s with
            rest := readChar 117 :: ((renderHex b).map readChar ++ more), buffered := 0 } =
          .ok (acc ++ [b]) { s with rest := more, buffered := 0 } := by
        rw [pullEscapeSequence, pull_bind_ok (nextCharRaw_cons s _ _)]
        simp only [show readChar 117 = 117 from rfl, Int.reduceEq, ite_false, ite_true,
          Int.reduceNeg]
        rw [pull_bind_ok hdigits, List.nil_append, strtol16_renderHex b hc]
        rfl
      rw [if_pos hc, List.map_append, List.append_assoc]
      rw [pullQuotedLoop, List.map_cons, List.cons_append, pull_bind_ok (nextCharRaw_cons s _ _)]
      simp only [show readChar 92 = 92 from rfl, Int.reduceEq, ite_false, ite_true, Int.reduceNeg]
      exact pull_bind_ok hescape
    · have heof : readChar b ≠ -1 := fun he => hb (readChar_inj (by rw [he]; rfl))
      have hslash : readChar b ≠ 92 := fun he => hbackslash (readChar_inj (by rw [he]; rfl))
      have hq : readChar b ≠ 34 := fun he => hquote (readChar_inj (by rw [he]; rfl))
      rw [if_neg hc, pullQuotedLoop, List.map_cons, List.cons_append,
        pull_bind_ok (nextCharRaw_cons s _ _), if_neg heof, if_neg hslash, if_neg hq,
        toChar_readChar, if_neg hc]
      rfl

theorem pullQuotedLoop_eq (text : Bytes) (h : (255 : UInt8) ∉ text) (n : ℕ) (hn : text.length < n)
    (acc : Bytes) (more : List ℤ) (s : TokenStream) :
    pullQuotedLoop n acc { s with
        rest := (text.flatMap renderJsonChar).map readChar ++ readChar 34 :: more, buffered := 0 } =
      .ok (acc ++ text) { s with rest := more, buffered := 0 } := by
  induction text generalizing n acc with
  | nil =>
      obtain ⟨n, rfl⟩ : ∃ m, n = m + 1 := ⟨n - 1, by omega⟩
      rw [List.append_nil]
      rfl
  | cons b text ih =>
      obtain ⟨n, rfl⟩ : ∃ m, n = m + 1 := ⟨n - 1, by omega⟩
      have hb : b ≠ 255 := fun he => h (by simp [he])
      rw [List.flatMap_cons, List.map_append, List.append_assoc, pullQuotedLoop_char b hb,
        ih (fun hm => h (List.mem_cons_of_mem b hm)) n (by simpa using hn), List.append_assoc]
      rfl

theorem putBack_eq (s : TokenStream) (c : ℤ) (more : List ℤ) :
    putBack c { s with rest := more, buffered := 0 } =
      .ok () { s with rest := c :: more, buffered := 1 } := rfl

-- The character after a scalar is looked at and put back.
theorem peek_eq (more : List ℤ) (s : TokenStream) :
    ∃ c more', nextCharRaw { s with rest := more, buffered := 0 } =
        .ok c { s with rest := more', buffered := 0 } ∧
      Left more (c :: more') ∧ (c = -1 ∨ more = c :: more') := by
  cases more with
  | nil => exact ⟨-1, [], rfl, .inr ⟨rfl, rfl⟩, .inl rfl⟩
  | cons c more => exact ⟨c, more, rfl, .inl rfl, .inr rfl⟩

theorem pullQuotedString_eq (text : Bytes) (h : (255 : UInt8) ∉ text) (more : List ℤ)
    (hstop : Stops more) (s : TokenStream) :
    ∃ s', pullQuotedString { s with
          rest := (text.flatMap renderJsonChar).map readChar ++ readChar 34 :: more
          buffered := 0 } = .ok (.value (.configString () text)) s' ∧
      Left more s'.rest ∧ s'.buffered ≤ 1 ∧ s'.saver = s.saver := by
  have hloop := pullQuotedLoop_eq text h
    (((text.flatMap renderJsonChar).map readChar ++ readChar 34 :: more).length + 1) ?_ [] more s
  · rw [List.nil_append] at hloop
    have hrounds : ∀ s : TokenStream, rounds s = .ok (s.rest.length + 1) s := fun _ => rfl
    by_cases ht : text = []
    · subst text
      obtain ⟨c, more', hread, hleft, hc⟩ := peek_eq more s
      have hquote : c ≠ 34 := by
        rcases hc with rfl | hc
        · decide
        · have hmem := hstop c more' hc
          rintro rfl
          exact absurd hmem (by decide)
      refine ⟨{ s with rest := c :: more', buffered := 1 }, ?_, hleft, le_rfl, rfl⟩
      rw [pullQuotedString, pull_bind_ok (hrounds _), pull_bind_ok hloop]
      simp only [List.isEmpty_nil, ite_true]
      rw [pull_bind_ok hread, if_neg hquote, pull_bind_ok (putBack_eq s c more')]
      rfl
    · refine ⟨{ s with rest := more, buffered := 0 }, ?_, .inl rfl, Nat.zero_le 1, rfl⟩
      have hne : text.isEmpty = false := by simpa using ht
      rw [pullQuotedString, pull_bind_ok (hrounds _), pull_bind_ok hloop]
      simp only [hne, Bool.false_eq_true, ite_false]
      rfl
  · have hlen : text.length ≤ (text.flatMap renderJsonChar).length := by
      clear h
      induction text with
      | nil => simp
      | cons b text ih =>
          have hb : 1 ≤ (renderJsonChar b).length := by
            unfold renderJsonChar
            split <;> try simp
            split <;> simp
          simp only [List.flatMap_cons, List.length_append, List.length_cons]
          omega
    simp only [List.length_append, List.length_map, List.length_cons]
    omega

set_option synthInstance.maxSize 400 in
theorem digit_classes (b : UInt8) : 48 ≤ b → b ≤ 57 →
    (numberChars.contains b = true ∧ b ∈ firstNumberChars) ∧
      readChar b ≠ -1 ∧ readChar b ≠ 46 ∧ readChar b ≠ 101 ∧ readChar b ≠ 10 ∧
      isWhitespaceNotNewline (readChar b) = false := by
  revert b
  apply forall_byte
  decide +kernel

theorem numberChars_contains {b : UInt8} (h : IsDigit b) : numberChars.contains b = true :=
  (digit_classes b h.1 h.2).1.1

theorem digit_first {b : UInt8} (h : IsDigit b) : b ∈ firstNumberChars :=
  (digit_classes b h.1 h.2).1.2

theorem stop_not_number (c : ℤ) (h : c ∈ ([10, 32, 44, 58, 61, 93, 123, 125] : List ℤ)) :
    numberChars.contains (toChar c) = false := by
  have hall : ∀ c ∈ ([10, 32, 44, 58, 61, 93, 123, 125] : List ℤ),
      numberChars.contains (toChar c) = false := by
    decide
  exact hall c h

-- A digit is neither the end of the input, nor a point or an exponent.
theorem digit_ne {b : UInt8} (h : IsDigit b) :
    readChar b ≠ -1 ∧ readChar b ≠ 46 ∧ readChar b ≠ 101 ∧ readChar b ≠ 10 ∧
      isWhitespaceNotNewline (readChar b) = false := (digit_classes b h.1 h.2).2

theorem pullNumberLoop_eq (digits : Bytes) (h : ∀ b ∈ digits, IsDigit b) (n : ℕ)
    (hn : digits.length < n) (acc : Bytes) (more : List ℤ) (hstop : Stops more)
    (s : TokenStream) (c : ℤ) (more' : List ℤ)
    (hread : nextCharRaw { s with rest := digits.map readChar ++ more, buffered := 0 } =
      .ok c { s with rest := more', buffered := 0 }) :
    ∃ s', pullNumberLoop doubles n acc false c { s with rest := more', buffered := 0 } =
        numberToken doubles (acc ++ digits) false s' ∧
      Left more s'.rest ∧ s'.buffered ≤ 1 ∧ s'.saver = s.saver := by
  induction digits generalizing n acc c more' with
  | nil =>
      obtain ⟨n, rfl⟩ : ∃ m, n = m + 1 := ⟨n - 1, by omega⟩
      obtain ⟨c', more'', hread', hleft, hc⟩ := peek_eq more s
      rw [List.map_nil, List.nil_append, hread'] at hread
      obtain ⟨rfl, heq⟩ := EStateM.Result.ok.inj hread
      obtain rfl : more'' = more' := congrArg TokenStream.rest heq
      have hno : (decide (c' ≠ -1) && numberChars.contains (toChar c')) = false := by
        rcases hc with rfl | hc
        · rfl
        · rw [stop_not_number c' (hstop c' more'' hc), Bool.and_false]
      refine ⟨{ s with rest := c' :: more'', buffered := 1 }, ?_, hleft, le_rfl, rfl⟩
      rw [pullNumberLoop, hno, if_neg (by decide), pull_bind_ok (putBack_eq s c' more''),
        List.append_nil]
  | cons b digits ih =>
      obtain ⟨n, rfl⟩ : ∃ m, n = m + 1 := ⟨n - 1, by omega⟩
      rw [List.map_cons, List.cons_append, nextCharRaw_cons] at hread
      obtain ⟨rfl, heq⟩ := EStateM.Result.ok.inj hread
      obtain rfl : digits.map readChar ++ more = more' := congrArg TokenStream.rest heq
      have hb := h b List.mem_cons_self
      obtain ⟨heof, hpoint, hexp, _⟩ := digit_ne hb
      have hnumber := numberChars_contains hb
      obtain ⟨c', more'', hread', _⟩ := peek_eq (digits.map readChar ++ more) s
      obtain ⟨s', hs', hleft⟩ := ih (fun b' hb' => h b' (List.mem_cons_of_mem b hb')) n
        (by simpa using hn) (acc ++ [b]) c' more'' hread'
      refine ⟨s', ?_, hleft⟩
      rw [pullNumberLoop, toChar_readChar, hnumber]
      simp only [heof, hpoint, hexp, ne_eq, not_false_eq_true, decide_true, Bool.and_self, ite_true,
        decide_false, Bool.or_self]
      rw [pull_bind_ok hread', hs', List.append_assoc]
      rfl

-- The printed integer: a sign or digit, and digits.
theorem lexicalString_cons (n : ℤ) :
    ∃ b digits, lexicalString n = b :: digits ∧ b ∈ firstNumberChars ∧ ∀ d ∈ digits, IsDigit d := by
  by_cases hneg : n < 0
  · refine ⟨45, decimal n.natAbs, by simp [lexicalString, hneg], by decide, ?_⟩
    intro d hd
    exact isDigit_of_mem_decimal hd
  · cases hd : decimal n.natAbs with
    | nil => exact absurd hd (decimal_ne_nil _)
    | cons b digits =>
        have hall : ∀ d ∈ b :: digits, IsDigit d := by
          intro d hmem
          exact isDigit_of_mem_decimal (by rw [hd]; exact hmem)
        have hfirst : b ∈ firstNumberChars := digit_first (hall b List.mem_cons_self)
        exact ⟨b, digits, by simp [lexicalString, hneg, hd], hfirst,
          fun d hmem => hall d (List.mem_cons_of_mem b hmem)⟩

theorem pullNumber_eq (n : Int64) (b : UInt8) (digits : Bytes)
    (htext : lexicalString n.toInt = b :: digits) (hdigits : ∀ d ∈ digits, IsDigit d)
    (more : List ℤ) (hstop : Stops more) (s : TokenStream) :
    ∃ s', pullNumber doubles (readChar b)
          { s with rest := digits.map readChar ++ more, buffered := 0 } =
        .ok (.value (newNumber () n (lexicalString n.toInt))) s' ∧
      Left more s'.rest ∧ s'.buffered ≤ 1 ∧ s'.saver = s.saver := by
  obtain ⟨c, more', hread, _, hc⟩ := peek_eq (digits.map readChar ++ more) s
  have hlen : digits.length < more'.length + 1 + 1 := by
    rcases hc with rfl | hc
    · -- only the end of the input is read as -1
      cases digits with
      | nil => exact Nat.succ_pos _
      | cons d digits =>
          rw [List.map_cons, List.cons_append, nextCharRaw_cons] at hread
          exact absurd (EStateM.Result.ok.inj hread).1 (digit_ne (hdigits d List.mem_cons_self)).1
    · have hl := congrArg List.length hc
      simp only [List.length_append, List.length_map, List.length_cons] at hl
      omega
  obtain ⟨s', hs', hleft⟩ := pullNumberLoop_eq doubles digits hdigits (more'.length + 1 + 1) hlen
    [b] more hstop s c more' hread
  refine ⟨s', ?_, hleft⟩
  have hrounds : rounds { s with rest := more', buffered := 0 } =
      .ok (more'.length + 1) { s with rest := more', buffered := 0 } := rfl
  rw [pullNumber, pull_bind_ok hread, pull_bind_ok hrounds, toChar_readChar, hs', htext]
  simp only [List.cons_append, List.nil_append, numberToken, ← htext, lexicalInt64_lexicalString,
    Bool.false_eq_true, ite_false]
  rfl

theorem firstNumberChars_classes : ∀ b ∈ firstNumberChars,
    readChar b ∉ ([-1, 10, 35, 47, 34, 36, 58, 44, 61, 123, 125, 91, 93, 43] : List ℤ) ∧
      isWhitespaceNotNewline (readChar b) = false := by
  decide +kernel

-- The first byte of a number sends `pull_next_token` to `pull_number`.
theorem pullToken_number (b : UInt8) (hb : b ∈ firstNumberChars) (substitution : Pull Token)
    (s s' : TokenStream) (hs : nextCharAfterWhitespace s = .ok (readChar b) s') :
    pullToken doubles allowComments substitution s = pullNumber doubles (readChar b) s' := by
  have hne := (firstNumberChars_classes b hb).1
  simp only [List.mem_cons, List.not_mem_nil, or_false, not_or] at hne
  obtain ⟨h1, h2, h3, h4, h5, h6, h7, h8, h9, h10, h11, h12, h13, h14⟩ := hne
  have hcomment := startOfComment_eq allowComments (readChar b) s' h3 h4
  have hnumber : firstNumberChars.contains b = true := by simpa using hb
  rw [pullToken, pull_bind_ok hs, if_neg h1, if_neg h2, pull_bind_ok hcomment]
  simp only [Bool.false_eq_true, ite_false, h5, h6, h7, h8, h9, h10, h11, h12, h13, h14,
    toChar_readChar, hnumber, ite_true]

-- The bytes that an unquoted text can have anywhere.
def unquotedByte (b : UInt8) : Bool :=
  readChar b ∉ ([-1, 10, 34, 36, 35, 43, 44, 47, 58, 61, 91, 93, 123, 125] : List ℤ) &&
    ¬notInUnquotedText.contains b && ¬firstNumberChars.contains b && ¬isWhitespace (readChar b)

theorem pullUnquotedTextLoop_byte (b : UInt8) (hb : unquotedByte b) (n : ℕ) (sb : Bytes)
    (s : TokenStream) :
    pullUnquotedTextLoop allowComments (n + 1) sb (readChar b) s =
      match wordToken (sb ++ [b]) with
      | some word => .ok word s
      | none => (nextCharRaw >>= pullUnquotedTextLoop allowComments n (sb ++ [b])) s := by
  simp only [unquotedByte, List.mem_cons, List.not_mem_nil, or_false, not_or, Bool.and_eq_true,
    decide_eq_true_eq, Bool.not_eq_true] at hb
  obtain ⟨⟨⟨⟨heof, _, _, _, hhash, _, _, hslash, _⟩, hreserved⟩, _⟩, hblank⟩ := hb
  have hcomment := startOfComment_eq allowComments (readChar b) s hhash hslash
  have hstop : (decide (readChar b = -1) || notInUnquotedText.contains b ||
      isWhitespace (readChar b)) = false := by
    simp only [heof, hreserved, hblank, decide_false, Bool.or_self]
  rw [pullUnquotedTextLoop, toChar_readChar, hstop, if_neg (by decide), pull_bind_ok hcomment]
  simp only [Bool.false_eq_true, ite_false]
  cases wordToken (sb ++ [b]) <;> rfl

theorem pullUnquotedTextLoop_word (rest : Bytes) (token : Token) (b : UInt8) (sb : Bytes)
    (hbytes : ∀ b' ∈ b :: rest, unquotedByte b')
    (hpre : ∀ k < rest.length, wordToken (sb ++ b :: rest.take k) = none)
    (hfull : wordToken (sb ++ b :: rest) = some token) (n : ℕ) (hn : rest.length < n)
    (more : List ℤ) (s : TokenStream) :
    pullUnquotedTextLoop allowComments n sb (readChar b)
        { s with rest := rest.map readChar ++ more, buffered := 0 } =
      .ok token { s with rest := more, buffered := 0 } := by
  induction rest generalizing b sb n with
  | nil =>
      obtain ⟨n, rfl⟩ : ∃ m, n = m + 1 := ⟨n - 1, by omega⟩
      rw [pullUnquotedTextLoop_byte allowComments b (hbytes b List.mem_cons_self), hfull]
      rfl
  | cons next rest ih =>
      obtain ⟨n, rfl⟩ : ∃ m, n = m + 1 := ⟨n - 1, by omega⟩
      have hnone : wordToken (sb ++ [b]) = none := hpre 0 (Nat.succ_pos _)
      rw [pullUnquotedTextLoop_byte allowComments b (hbytes b List.mem_cons_self), hnone]
      simp only [List.map_cons, List.cons_append]
      rw [pull_bind_ok (nextCharRaw_cons s _ _)]
      apply ih
      · intro b' hb'
        exact hbytes b' (List.mem_cons_of_mem b hb')
      · intro k hk
        have hk' := hpre (k + 1) (Nat.succ_lt_succ hk)
        simpa using hk'
      · simpa using hfull
      · simpa using hn

theorem pullToken_word (b : UInt8) (rest : Bytes) (token : Token)
    (hbytes : ∀ b' ∈ b :: rest, unquotedByte b')
    (hpre : ∀ k < rest.length, wordToken (b :: rest.take k) = none)
    (hfull : wordToken (b :: rest) = some token) (substitution : Pull Token)
    (more : List ℤ) (s s' : TokenStream)
    (hs : nextCharAfterWhitespace s =
      .ok (readChar b) { s' with rest := rest.map readChar ++ more, buffered := 0 }) :
    pullToken doubles allowComments substitution s =
      .ok token { s' with rest := more, buffered := 0 } := by
  have hb := hbytes b List.mem_cons_self
  simp only [unquotedByte, List.mem_cons, List.not_mem_nil, or_false, not_or, Bool.and_eq_true,
    decide_eq_true_eq, Bool.not_eq_true] at hb
  obtain ⟨⟨⟨⟨h1, h2, h3, h4, h5, h6, h7, h8, h9, h10, h11, h12, h13, h14⟩, hreserved⟩, hfirst⟩, _⟩ :=
    hb
  have hcomment := startOfComment_eq allowComments (readChar b)
    { s' with rest := rest.map readChar ++ more, buffered := 0 } h5 h8
  have hword := pullUnquotedTextLoop_word allowComments rest token b [] hbytes hpre hfull
    ((rest.map readChar ++ more).length + 1 + 1) (by simp; omega) more s'
  rw [pullToken, pull_bind_ok hs, if_neg h1, if_neg h2, pull_bind_ok hcomment]
  simp only [Bool.false_eq_true, ite_false, h3, h4, h6, h7, h9, h10, h11, h12, h13, h14,
    toChar_readChar, hreserved, hfirst]
  rw [pull_bind_ok (putBack_eq s' _ _)]
  exact hword

-- The data that is one token.
def Data.isScalar : Data → Bool
  | .null | .boolean _ | .number _ | .string _ => true
  | .list _ | .object _ => false

theorem pullToken_scalar (d : Data) (hd : d.isScalar) (hwf : d.WellFormed)
    (options : ConfigRenderOptions) (level count : ℕ) (more : List ℤ) (hstop : Stops more)
    (s : TokenStream)
    (hrest : s.rest = List.replicate count 32 ++ ((d.text options level).map readChar ++ more))
    (hbuf : s.buffered ≤ 1) :
    ∃ s', (∀ substitution, pullToken doubles allowComments substitution s = .ok (.value d.value) s') ∧
      Left more s'.rest ∧ s'.buffered ≤ 1 ∧
      s'.saver.lastTokenWasSimpleValue = s.saver.lastTokenWasSimpleValue := by
  -- a word, given by its bytes
  have hword : ∀ (b : UInt8) (rest : Bytes), d.text options level = b :: rest →
      (∀ b' ∈ b :: rest, unquotedByte b') →
      (∀ k < rest.length, wordToken (b :: rest.take k) = none) →
      wordToken (b :: rest) = some (.value d.value) →
      ∃ s', (∀ substitution, pullToken doubles allowComments substitution s =
          .ok (.value d.value) s') ∧ Left more s'.rest ∧ s'.buffered ≤ 1 ∧
        s'.saver.lastTokenWasSimpleValue = s.saver.lastTokenWasSimpleValue := by
    intro b rest htext hbytes hpre hfull
    have hblank : isWhitespaceNotNewline (readChar b) = false := by
      have hb := hbytes b List.mem_cons_self
      simp only [unquotedByte, Bool.and_eq_true, decide_eq_true_eq, Bool.not_eq_true] at hb
      rw [isWhitespaceNotNewline, hb.2, Bool.and_false]
    rw [htext, List.map_cons, List.cons_append] at hrest
    obtain ⟨s', hs', hrest', hbuf', hlast⟩ :=
      nextCharAfterWhitespace_eq count (readChar b) hblank _ s hrest hbuf
    refine ⟨{ s' with rest := more, buffered := 0 }, ?_, .inl rfl, Nat.zero_le 1, hlast⟩
    intro substitution
    have hstate : s' = { s' with rest := rest.map readChar ++ more, buffered := 0 } := by
      rw [← hrest', ← hbuf']
    rw [hstate] at hs'
    exact pullToken_word doubles allowComments b rest _ hbytes hpre hfull substitution more s s' hs'
  cases d with
  | null => exact hword 110 (ascii "ull") rfl (by decide +kernel) (by decide) rfl
  | boolean b =>
      cases b with
      | false => exact hword 102 (ascii "alse") rfl (by decide +kernel) (by decide) rfl
      | true => exact hword 116 (ascii "rue") rfl (by decide +kernel) (by decide) rfl
  | number n =>
      obtain ⟨b, digits, htext, hb, hdigits⟩ := lexicalString_cons n.toInt
      have hblank := (firstNumberChars_classes b hb).2
      rw [Data.text, htext, List.map_cons, List.cons_append] at hrest
      obtain ⟨s', hs', hrest', hbuf', hlast⟩ :=
        nextCharAfterWhitespace_eq count (readChar b) hblank _ s hrest hbuf
      obtain ⟨s'', hs'', hleft, hbuf'', hsaver⟩ :=
        pullNumber_eq doubles n b digits htext hdigits more hstop s'
      refine ⟨s'', ?_, hleft, hbuf'', by rw [hsaver, hlast]⟩
      intro substitution
      rw [pullToken_number doubles allowComments b hb substitution s s' hs']
      have hstate : s' = { s' with rest := digits.map readChar ++ more, buffered := 0 } := by
        rw [← hrest', ← hbuf']
      rw [hstate]
      exact hs''
  | string text =>
      have hquoted : (renderJsonString text).map readChar ++ more =
          readChar 34 :: ((text.flatMap renderJsonChar).map readChar ++ readChar 34 :: more) := by
        simp [renderJsonString]
      rw [Data.text, hquoted] at hrest
      obtain ⟨s', hs', hrest', hbuf', hlast⟩ :=
        nextCharAfterWhitespace_eq count (readChar 34) (by decide) _ s hrest hbuf
      obtain ⟨s'', hs'', hleft, hbuf'', hsaver⟩ := pullQuotedString_eq text hwf more hstop s'
      have hcomment := startOfComment_eq allowComments (readChar 34) s' (by decide) (by decide)
      refine ⟨s'', ?_, hleft, hbuf'', by rw [hsaver, hlast]⟩
      intro substitution
      have hstate : s' = { s' with
          rest := (text.flatMap renderJsonChar).map readChar ++ readChar 34 :: more
          buffered := 0 } := by
        rw [← hrest', ← hbuf']
      rw [pullToken, pull_bind_ok hs', if_neg (by decide), if_neg (by decide),
        pull_bind_ok hcomment]
      simp only [Bool.false_eq_true, ite_false, show readChar 34 = 34 from rfl, ite_true]
      rw [hstate]
      exact hs''
  | list elements => cases hd
  | object fields => cases hd

end

end AsrServiceProxy.Config

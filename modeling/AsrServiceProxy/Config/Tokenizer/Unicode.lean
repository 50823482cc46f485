import AsrServiceProxy.Config.Tokenizer.Delivery

-- The escape `\u` with the four characters behind it.
namespace AsrServiceProxy.Config

open CMemory Simulation

-- The number that hexadecimal digits stand for.
def codeUnit (digits : Bytes) : Option ℕ :=
  digits.foldlM (fun n b => (hexValue b).map (16 * n + ·)) 0

-- What was read behind an opening quote, and the string so far.
inductive InQuotes : Bytes → Bytes → Prop
  | opened : InQuotes [] []
  | char {b : UInt8} {front text : Bytes} (hb : b ≠ 255 ∧ b ≠ 92 ∧ b ≠ 34 ∧ iscntrl b = false)
      (h : InQuotes front text) : InQuotes (b :: front) (b :: text)
  | escape {e : Bytes} {c : UInt8} {front text : Bytes} (he : Escape e c) (h : InQuotes front text) :
      InQuotes (92 :: (e ++ front)) (c :: text)

-- The stream is before a string that has such an escape. `text` is what the string has
-- before the escape, and `more` is what comes after it.
def BeforeUnicode (s : TokenStream) (digits text more : Bytes) : Prop :=
  ∃ blanks front saver, (∀ b ∈ blanks, isBlank b = true) ∧ InQuotes front text ∧
    At s ⟨blanks ++ 34 :: (front ++ 92 :: 117 :: (digits ++ more)), 2, saver⟩

-- What the escape promises. A surrogate is no character.
structure ReadsUnicode (doubles : Doubles) (allowComments : Bool) (digits : Bytes) : Prop where
  encoded : ∀ c : Char, codeUnit digits = some c.toNat → ∀ input s,
    Reached doubles allowComments input s → ∀ text body text' rest, Quoted body text' →
      BeforeUnicode s digits text (body ++ rest) →
        ∃ whitespace s', queueNextToken doubles allowComments s = .ok (whitespace,
          .value (.configString () (text ++ (String.utf8EncodeChar c ++ text')))) s'
  refused : codeUnit digits = none → ∀ input s, Reached doubles allowComments input s →
    ∀ text more, BeforeUnicode s digits text more → ∃ what message suggestQuotes s',
      queueNextToken doubles allowComments s = .error (.problem what message suggestQuotes) s'

section

variable {front text body text' rest : Bytes}

theorem InQuotes.quoted (h : InQuotes front text) (hbody : Quoted body text') :
    Quoted (front ++ body) (text ++ text') := by
  induction h with
  | opened => exact hbody
  | char hb _ ih => exact .char hb ih
  | escape he _ ih =>
      rw [List.cons_append, List.append_assoc]
      exact .escape he ih

-- A string that starts with this text goes on behind it.
theorem InQuotes.behind (h : InQuotes front text) {more : Bytes} (hbody : Quoted body text')
    (heq : body ++ rest = front ++ more) :
    ∃ body' text'', Quoted body' text'' ∧ more = body' ++ rest := by
  induction h generalizing body text' with
  | opened => exact ⟨body, text', hbody, heq.symm⟩
  | char hb _ ih =>
      cases hbody with
      | close => exact absurd (List.cons.inj heq).1.symm hb.2.2.1
      | char _ hbody => exact ih hbody (List.cons.inj heq).2
      | escape => exact absurd (List.cons.inj heq).1.symm hb.2.1
  | @escape e c front text he h ih =>
      cases hbody with
      | close => cases (List.cons.inj heq).1
      | char hb => exact absurd (List.cons.inj heq).1 hb.2.1
      | @escape e' c' body' text'' he' hbody =>
          have htail : e' ++ body' ++ rest = e ++ front ++ more := (List.cons.inj heq).2
          rw [List.append_assoc, List.append_assoc] at htail
          obtain ⟨rfl, rfl⟩ := he'.unique he htail
          exact ih hbody (List.append_cancel_left htail)

end

-- A digit is no blank, no sign and no end of a C string.
theorem hexValue_plain {b : UInt8} (h : hexValue b ≠ none) :
    b ≠ 0 ∧ StringUtil.isspace b = false ∧ b ≠ 45 ∧ b ≠ 43 ∧ b ≠ 120 ∧ b ≠ 88 ∧ b ≠ 255 := by
  revert h
  revert b
  apply forall_byte
  decide +kernel

theorem hexNumber_eq {digits : Bytes} {n c : ℕ}
    (h : digits.foldlM (fun n b => (hexValue b).map (16 * n + ·)) n = some c) :
    hexNumber digits n = c ∧ ∀ b ∈ digits, hexValue b ≠ none := by
  induction digits generalizing n with
  | nil =>
      cases h
      exact ⟨rfl, nofun⟩
  | cons b rest ih =>
      rw [List.foldlM_cons] at h
      cases hb : hexValue b with
      | none =>
          rw [hb] at h
          cases h
      | some d =>
          rw [hb] at h
          obtain ⟨hnumber, hrest⟩ := ih h
          refine ⟨by rw [hexNumber, hb]; exact hnumber, ?_⟩
          exact List.forall_mem_cons.mpr ⟨by rw [hb]; exact Option.some_ne_none d, hrest⟩

theorem strtol16_eq {digits : Bytes} {c : ℕ} (h : codeUnit digits = some c) :
    strtol16 digits = c ∧ (255 : UInt8) ∉ digits := by
  obtain ⟨hnumber, hdigits⟩ := hexNumber_eq h
  have hplain := fun b hb => hexValue_plain (hdigits b hb)
  refine ⟨?_, fun hb => (hplain 255 hb).2.2.2.2.2.2 rfl⟩
  have hcstr : cstr digits = digits := (cstr_eq_self_iff digits).mpr fun hb => (hplain 0 hb).1 rfl
  have hspace : digits.dropWhile StringUtil.isspace = digits := by
    cases digits with
    | nil => rfl
    | cons b rest =>
        rw [List.dropWhile_cons, (hplain b List.mem_cons_self).2.1]
        rfl
  have hhead : digits.head? ≠ some 45 ∧ digits.head? ≠ some 43 := by
    constructor
    · exact fun hb => (hplain 45 (List.mem_of_head? hb)).2.2.1 rfl
    · exact fun hb => (hplain 43 (List.mem_of_head? hb)).2.2.2.1 rfl
  unfold strtol16
  simp only [hcstr, hspace, hhead, if_false, decide_false]
  split
  · rename_i x d rest heq
    subst heq
    have hx := hplain x (by simp)
    have hprefix : ¬((x = 120 || x = 88) && (hexValue d).isSome) = true := by
      simp [hx.2.2.2.2.1, hx.2.2.2.2.2.1]
    rw [if_neg hprefix]
    exact congrArg Int.ofNat hnumber
  · exact congrArg Int.ofNat hnumber

-- A character of the escape that is read as the end leaves no string.
theorem Quoted.not_unicode {digits body text more rest : Bytes} (hlength : digits.length = 4)
    (heof : (255 : UInt8) ∈ digits) (h : Quoted body text) :
    92 :: 117 :: (digits ++ more) ≠ body ++ rest := by
  intro heq
  cases h with
  | close => cases (List.cons.inj heq).1
  | char hb => exact hb.2.1 (List.cons.inj heq).1.symm
  | @escape e c body text he h =>
      have htail : 117 :: (digits ++ more) = e ++ body ++ rest := (List.cons.inj heq).2
      rw [List.append_assoc] at htail
      cases he with
      | single hb =>
          obtain ⟨rfl, _⟩ := List.cons.inj htail
          simp [escapes] at hb
      | unicode hlength' hdigits =>
          have hdigits' := (List.cons.inj htail).2
          obtain ⟨rfl, _⟩ := List.append_inj hdigits' (hlength.trans hlength'.symm)
          exact hdigits heof

theorem Lexes.of_unicode {doubles : Doubles} {allowComments : Bool} {front text digits more : Bytes}
    {r : Except TokenizerError Token} {rest : Bytes} (hfront : InQuotes front text)
    (hlength : digits.length = 4) (heof : (255 : UInt8) ∈ digits)
    (h : Lexes doubles allowComments (34 :: (front ++ 92 :: 117 :: (digits ++ more))) r rest) :
    ∃ what message suggestQuotes, r = .error (.problem what message suggestQuotes) := by
  generalize hleft : 34 :: (front ++ 92 :: 117 :: (digits ++ more)) = left at h
  cases h with
  | problem _ what message suggestQuotes => exact ⟨what, message, suggestQuotes, rfl⟩
  | string hquoted =>
      obtain ⟨body', text', hbody, heq⟩ := hfront.behind hquoted (List.cons.inj hleft).2.symm
      exact absurd heq (hbody.not_unicode hlength heof)
  | tripleQuoted text' hrest =>
      obtain ⟨body', text', hbody, heq⟩ := hfront.behind .close (List.cons.inj hleft).2.symm
      exact absurd heq (hbody.not_unicode hlength heof)
  | punctuation hb =>
      obtain ⟨rfl, _⟩ := List.cons.inj hleft
      cases hb
  | comment h =>
      obtain ⟨rfl, _⟩ := List.cons.inj hleft
      simp [startsComment] at h
  | number _ hb =>
      obtain ⟨rfl, _⟩ := List.cons.inj hleft
      cases hb
  | unquoted hb =>
      obtain ⟨rfl, _⟩ := List.cons.inj hleft
      cases hb
  | last => cases hleft
  | eof | plusEquals | substitution => cases (List.cons.inj hleft).1

section

variable {doubles : Doubles} {allowComments : Bool} {s : TokenStream} {digits text more : Bytes}

variable (doubles allowComments) in
-- Characters that are not read as the end give one byte, whatever they are.
theorem BeforeUnicode.read (hlength : digits.length = 4) (heof : (255 : UInt8) ∉ digits)
    {body text' rest : Bytes} (hbody : Quoted body text')
    (h : BeforeUnicode s digits text (body ++ rest)) :
    ∃ whitespace s', queueNextToken doubles allowComments s = .ok (whitespace,
      .value (.configString () (text ++ (toChar (strtol16 digits) :: text')))) s' := by
  obtain ⟨blanks, front, saver, hblanks, hfront, hat⟩ := h
  have hquoted := hfront.quoted (.escape (.unicode hlength heof) hbody)
  have hresult := results_queueNextToken doubles allowComments _ saver s hat
  have hskip : ∀ left : Bytes, (blanks ++ 34 :: left).dropWhile isBlank = 34 :: left := by
    intro left
    rw [List.dropWhile_append_of_pos hblanks]
    rfl
  have hleft : front ++ 92 :: 117 :: (digits ++ (body ++ rest)) =
      front ++ 92 :: (117 :: digits ++ body) ++ rest := by
    simp only [List.append_assoc, List.cons_append]
  have hlexes : ∀ r rest', Lexes doubles allowComments
      (34 :: (front ++ 92 :: (117 :: digits ++ body) ++ rest)) r rest' →
        r = .ok (.value (.configString () (text ++ (toChar (strtol16 digits) :: text')))) := by
    intro r rest' hlexes
    exact (hlexes.of_string hquoted (by simp)).1
  rw [hleft] at hresult
  cases hnext : queueNextToken doubles allowComments s with
  | ok result s' =>
      obtain ⟨whitespace, t⟩ := result
      rw [hnext] at hresult
      obtain ⟨g, _, hqueued, _⟩ := hresult
      rw [hskip] at hqueued
      obtain rfl := Except.ok.inj (hlexes _ _ hqueued)
      exact ⟨whitespace, s', rfl⟩
  | error e s' =>
      rw [hnext] at hresult
      obtain ⟨g, _, hqueued, _⟩ := hresult
      rw [hskip] at hqueued
      cases hlexes _ _ hqueued

-- One that is read as the end gives a problem.
theorem BeforeUnicode.refused (hlength : digits.length = 4) (heof : (255 : UInt8) ∈ digits)
    (h : BeforeUnicode s digits text more) :
    ∃ what message suggestQuotes s',
      queueNextToken doubles allowComments s = .error (.problem what message suggestQuotes) s' := by
  obtain ⟨blanks, front, saver, hblanks, hfront, hat⟩ := h
  have hresult := results_queueNextToken doubles allowComments _ saver s hat
  dsimp only [Queues] at hresult
  have hskip : (blanks ++ 34 :: (front ++ 92 :: 117 :: (digits ++ more))).dropWhile isBlank =
      34 :: (front ++ 92 :: 117 :: (digits ++ more)) := by
    rw [List.dropWhile_append_of_pos hblanks]
    rfl
  have hlexes : ∀ r rest', Lexes doubles allowComments
      (34 :: (front ++ 92 :: 117 :: (digits ++ more))) r rest' →
        ∃ what message suggestQuotes, r = .error (.problem what message suggestQuotes) := by
    intro r rest' hlexes
    exact hlexes.of_unicode hfront hlength heof
  cases hnext : queueNextToken doubles allowComments s with
  | ok result s' =>
      obtain ⟨whitespace, t⟩ := result
      rw [hnext] at hresult
      obtain ⟨g, _, hqueued, _⟩ := hresult
      rw [hskip] at hqueued
      obtain ⟨_, _, _, heq⟩ := hlexes _ _ hqueued
      cases heq
  | error e s' =>
      rw [hnext] at hresult
      obtain ⟨g, _, hqueued, _⟩ := hresult
      rw [hskip] at hqueued
      obtain ⟨what, message, suggestQuotes, heq⟩ := hlexes _ _ hqueued
      obtain rfl := Except.error.inj heq
      exact ⟨what, message, suggestQuotes, s', rfl⟩

end

-- The stream at the start of a string that is such an escape.
theorem beforeUnicode_start (digits : Bytes) :
    BeforeUnicode (.ofString (34 :: 92 :: 117 :: (digits ++ [34]))) digits [] ([34] ++ []) :=
  ⟨[], [], .makeInstance, nofun, .opened, TokenStream.ofString_at _⟩

theorem utf8EncodeChar_single {c : Char} (h : c.toNat < 128) :
    String.utf8EncodeChar c = [toChar (c.toNat : ℤ)] := by
  have hsize : c.utf8Size = 1 := by
    rw [Char.utf8Size_eq_one_iff, UInt32.le_iff_toNat_le]
    exact Nat.le_of_lt_succ h
  rw [String.utf8EncodeChar_eq_singleton hsize, toChar]
  congr 1
  apply UInt8.toNat.inj
  have hmod : ((c.toNat : ℤ) % 256).toNat = c.toNat := by omega
  rw [hmod]
  exact UInt32.toNat_toUInt8 c.val

section

variable {doubles : Doubles} {allowComments : Bool} {digits : Bytes}

theorem ReadsUnicode.ascii (h : ReadsUnicode doubles allowComments digits)
    (hlength : digits.length = 4) {c : Char} (hc : codeUnit digits = some c.toNat) :
    c.toNat < 128 := by
  obtain ⟨_, heof⟩ := strtol16_eq hc
  have hstart := beforeUnicode_start digits
  obtain ⟨_, _, hencoded⟩ := h.encoded c hc _ _ .start _ _ _ _ .close hstart
  obtain ⟨_, _, hread⟩ := hstart.read doubles allowComments hlength heof .close
  have heq : String.utf8EncodeChar c = [toChar (strtol16 digits)] := by
    have hboth := hencoded.symm.trans hread
    simp only [List.nil_append, List.append_nil, EStateM.Result.ok.injEq, Prod.mk.injEq,
      Token.value.injEq, Value.configString.injEq, true_and] at hboth
    exact hboth.1.2
  -- the code appends one byte
  have hsize := congrArg List.length heq
  rw [String.length_utf8EncodeChar, List.length_singleton, Char.utf8Size_eq_one_iff,
    UInt32.le_iff_toNat_le] at hsize
  exact Nat.lt_succ_of_le hsize

theorem ReadsUnicode.eof (h : ReadsUnicode doubles allowComments digits)
    (hlength : digits.length = 4) (hnone : codeUnit digits = none) : (255 : UInt8) ∈ digits := by
  by_contra heof
  have hstart := beforeUnicode_start digits
  obtain ⟨_, _, _, _, hrefused⟩ := h.refused hnone _ _ .start _ _ hstart
  obtain ⟨_, _, hread⟩ := hstart.read doubles allowComments hlength heof .close
  cases hrefused.symm.trans hread

end

-- The escapes of ASCII characters are read as they should be, and of the others with a
-- character that is no digit those where one is read as the end of the input.
theorem readsUnicode_iff (doubles : Doubles) (allowComments : Bool) (d₀ d₁ d₂ d₃ : UInt8) :
    ReadsUnicode doubles allowComments [d₀, d₁, d₂, d₃] ↔
      (∀ c : Char, codeUnit [d₀, d₁, d₂, d₃] = some c.toNat → c.toNat < 128) ∧
        (codeUnit [d₀, d₁, d₂, d₃] = none → (255 : UInt8) ∈ [d₀, d₁, d₂, d₃]) := by
  have hlength : [d₀, d₁, d₂, d₃].length = 4 := rfl
  generalize [d₀, d₁, d₂, d₃] = digits at hlength
  constructor
  · exact fun h => ⟨fun c hc => h.ascii hlength hc, fun hnone => h.eof hlength hnone⟩
  · rintro ⟨hascii, hnone⟩
    constructor
    · intro c hc input s _ text body text' rest hbody hbefore
      obtain ⟨hstrtol, heof⟩ := strtol16_eq hc
      rw [utf8EncodeChar_single (hascii c hc), ← hstrtol]
      exact hbefore.read doubles allowComments hlength heof hbody
    · intro h input s _ text more hbefore
      exact hbefore.refused hlength (hnone h)

-- `\u00e9` gives one byte, which is no UTF-8.
theorem not_readsUnicode_accent : ¬ReadsUnicode ⟨fun _ => none, id⟩ true (CMemory.ascii "00e9") := by
  intro h
  have hascii := h.ascii rfl (show codeUnit _ = some 'é'.toNat by decide)
  revert hascii
  decide

end AsrServiceProxy.Config

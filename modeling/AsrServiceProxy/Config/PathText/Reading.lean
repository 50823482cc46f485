import AsrServiceProxy.Config.PathText
import AsrServiceProxy.Config.Tokenizer.Delivery

-- How the text of a path outside quotes is cut into tokens: words, numbers and the rest.
-- All of them add their text to the keys, and a number that is none stops the reading.
namespace AsrServiceProxy.Config

open CMemory Simulation

-- What `add_path_text` does with one byte outside quotes.
def addByte (buf : Elements) (b : UInt8) : Elements :=
  if b = 46 then
    { front := buf.front ++ [buf.current], current := { element := [], canBeEmpty := false } }
  else { buf with current.element := buf.current.element ++ [b] }

theorem foldl_addByte_of_no_period (text : Bytes) (h : 46 ∉ text) (buf : Elements) :
    text.foldl addByte buf = { buf with current.element := buf.current.element ++ text } := by
  induction text generalizing buf with
  | nil => rw [List.foldl_nil, List.append_nil]
  | cons b text ih =>
      rw [List.mem_cons, not_or] at h
      have hb : ¬b = 46 := fun hb => h.1 hb.symm
      rw [List.foldl_cons, ih h.2, addByte, if_neg hb]
      simp only [List.append_assoc, List.singleton_append]

theorem addUnquotedLoop_eq (n : ℕ) (buf : Elements) (text : Bytes) (hn : text.length < n) :
    addUnquotedLoop n buf text = text.foldl addByte buf := by
  induction n generalizing buf text with
  | zero => omega
  | succ n ih =>
      rw [addUnquotedLoop]
      cases hfind : text.findIdx? (· = 46) with
      | none =>
          have hperiod : 46 ∉ text := by
            intro hmem
            have hnone := List.findIdx?_eq_none_iff.mp hfind 46 hmem
            simp at hnone
          exact (foldl_addByte_of_no_period text hperiod buf).symm
      | some i =>
          obtain ⟨hi, hperiod, hbefore⟩ := List.findIdx?_eq_some_iff_getElem.mp hfind
          have hsplit : text = text.take i ++ 46 :: text.drop (i + 1) := by
            conv_lhs => rw [← List.take_append_drop i text, List.drop_eq_getElem_cons hi]
            rw [of_decide_eq_true hperiod]
          have hclean : 46 ∉ text.take i := by
            intro hmem
            obtain ⟨j, hj, hget⟩ := List.mem_take_iff_getElem.mp hmem
            have hne := hbefore j (by omega)
            rw [hget] at hne
            exact hne (by decide)
          have hlength : (text.drop (i + 1)).length < n := by
            rw [List.length_drop]
            omega
          dsimp only
          rw [ih _ _ hlength]
          conv_rhs => rw [hsplit]
          rw [List.foldl_append, foldl_addByte_of_no_period _ hclean, List.foldl_cons, addByte,
            if_pos rfl]

theorem addPathText_unquoted (buf : Elements) (text : Bytes) :
    addPathText buf false text = text.foldl addByte buf :=
  addUnquotedLoop_eq _ buf text (Nat.lt_succ_self _)

-- The bytes of a path outside quotes.
def isPlainByte (b : UInt8) : Bool := isalpha b || isdigit b || b = 45 || b = 95 || b = 46

theorem isPlainByte_scan {b : UInt8} (h : isPlainByte b = true) :
    isBlank b = false ∧ endsUnquoted b = false ∧ b ≠ 35 ∧ b ≠ 47 := by
  revert h
  revert b
  apply forall_byte
  decide +kernel

theorem isPlainByte_startsComment {b : UInt8} (h : isPlainByte b = true) (allowComments : Bool)
    (more : Bytes) : startsComment allowComments (b :: more) = false := by
  obtain ⟨_, _, hhash, hslash⟩ := isPlainByte_scan h
  simp [startsComment, hhash, hslash]

-- The words that end an unquoted text.
def words : List Bytes := [ascii "true", ascii "null", ascii "false"]

-- The text is accepted as a number.
def castsNumber (doubles : Doubles) (text : Bytes) : Bool :=
  if text.any fun b => b = 46 || b = 101 then (doubles.cast text).isSome
  else (lexicalInt64 text).isSome

-- Where a token of a text outside quotes starts with a digit or a minus, the characters
-- of numbers from there on are a number. Tokens start at the beginning, after a word
-- that a token starts with, and after a number.
inductive NumbersCast (doubles : Doubles) : Bytes → Prop
  | nil : NumbersCast doubles []
  | word {word w : Bytes} (h : word ∈ words) (hw : NumbersCast doubles w) :
      NumbersCast doubles (word ++ w)
  | number {b : UInt8} {w : Bytes} (hb : firstNumberChars.contains b = true)
      (h : castsNumber doubles (b :: w.takeWhile isNumberByte) = true)
      (hw : NumbersCast doubles (w.dropWhile isNumberByte)) : NumbersCast doubles (b :: w)
  | other {b : UInt8} {w : Bytes} (hb : firstNumberChars.contains b = false)
      (h : ∀ word ∈ words, ¬word <+: b :: w) : NumbersCast doubles (b :: w)

theorem length_pos_of_mem_words {word : Bytes} (h : word ∈ words) : 0 < word.length := by
  have hall : ∀ word ∈ words, 0 < word.length := by
    decide +kernel
  exact hall word h

theorem mem_words_of_wordToken {sb : Bytes} {t : Token} (h : wordToken sb = some t) :
    sb ∈ words := by
  by_contra hsb
  simp only [words, List.mem_cons, List.not_mem_nil, or_false, not_or] at hsb
  rw [wordToken, if_neg hsb.1, if_neg hsb.2.1, if_neg hsb.2.2] at h
  cases h

-- What follows a text outside quotes.
def Closed (tail : Bytes) : Prop := tail = [] ∨ ∃ more, tail = 34 :: more

-- A byte follows, if any, that neither a text outside quotes nor a number has.
def EndsText (tail : Bytes) : Prop :=
  ∀ b more, tail = b :: more → endsUnquoted b = true ∧ isNumberByte b = false

theorem Closed.endsText {tail : Bytes} (h : Closed tail) : EndsText tail := by
  rintro b more rfl
  rcases h with h | ⟨more', h⟩
  · cases h
  · obtain ⟨rfl, _⟩ := List.cons.inj h
    decide

theorem scanUnquoted_whole {tail : Bytes} (htail : EndsText tail) (w sb : Bytes)
    (hw : ∀ b ∈ w, isPlainByte b = true)
    (hwords : ∀ u, u ≠ [] → u <+: w → wordToken (sb ++ u) = none) :
    scanUnquoted true sb (w ++ tail) = (.unquotedText (sb ++ w), tail) := by
  induction w generalizing sb with
  | nil =>
      rw [List.nil_append, List.append_nil]
      cases tail with
      | nil => rfl
      | cons b more => rw [scanUnquoted, (htail b more rfl).1, Bool.true_or, if_pos rfl]
  | cons b w ih =>
      rw [List.forall_mem_cons] at hw
      have hb := isPlainByte_scan hw.1
      have hnone : wordToken (sb ++ [b]) = none :=
        hwords [b] (List.cons_ne_nil b []) (List.prefix_append [b] w)
      rw [List.cons_append, scanUnquoted_cons hb.2.1 (isPlainByte_startsComment hw.1 true _), hnone]
      dsimp only
      rw [ih (sb ++ [b]) hw.2, List.append_assoc, List.singleton_append]
      intro u hu hprefix
      rw [List.append_assoc, List.singleton_append]
      exact hwords (b :: u) (List.cons_ne_nil b u) (List.cons_prefix_cons.mpr ⟨rfl, hprefix⟩)

theorem takeWhile_number {tail : Bytes} (htail : EndsText tail) (w : Bytes) :
    (w ++ tail).takeWhile isNumberByte = w.takeWhile isNumberByte ∧
      (w ++ tail).dropWhile isNumberByte = w.dropWhile isNumberByte ++ tail := by
  induction w with
  | nil =>
      cases tail with
      | nil => exact ⟨rfl, rfl⟩
      | cons b more =>
          have hb := Bool.eq_false_iff.mp (htail b more rfl).2
          rw [List.nil_append, List.takeWhile_cons_of_neg hb, List.dropWhile_cons_of_neg hb]
          exact ⟨rfl, rfl⟩
  | cons b w ih =>
      rw [List.cons_append]
      by_cases hb : isNumberByte b = true
      · rw [List.takeWhile_cons_of_pos hb, List.takeWhile_cons_of_pos hb,
          List.dropWhile_cons_of_pos hb, List.dropWhile_cons_of_pos hb, ih.1, ih.2]
        exact ⟨rfl, rfl⟩
      · rw [List.takeWhile_cons_of_neg hb, List.takeWhile_cons_of_neg hb,
          List.dropWhile_cons_of_neg hb, List.dropWhile_cons_of_neg hb]
        exact ⟨rfl, rfl⟩

section

variable {doubles : Doubles} {saver : WhitespaceSaver} {b : UInt8}

theorem takeWhile_isBlank {blanks : Bytes} (more : Bytes) (hblanks : ∀ x ∈ blanks, isBlank x = true)
    (hb : isBlank b = false) :
    (blanks ++ b :: more).takeWhile isBlank = blanks ∧
      (blanks ++ b :: more).dropWhile isBlank = b :: more := by
  have hneg := Bool.eq_false_iff.mp hb
  rw [List.takeWhile_append_of_pos hblanks, List.dropWhile_append_of_pos hblanks,
    List.takeWhile_cons_of_neg hneg, List.dropWhile_cons_of_neg hneg, List.append_nil]
  exact ⟨rfl, rfl⟩

-- None of the blanks before the token are kept.
theorem streams_behind_blanks (blanks : Bytes) {more : Bytes} (hblanks : ∀ x ∈ blanks, isBlank x = true)
    (rest : Bytes) {post : List Token → Prop} (t : Token)
    (hsaver : (saver.save blanks).whitespace = []) (ht : t ≠ .end_)
    (hb : isBlank b = false)
    (h : ∀ r rest', Lexes doubles true (b :: more) r rest' → r = .ok t ∧ rest' = rest)
    (hrest : Streams doubles true rest (.after t) fun ts => post (t :: ts)) :
    Streams doubles true (blanks ++ b :: more) saver post := by
  obtain ⟨htake, hdrop⟩ := takeWhile_isBlank more hblanks hb
  have hnone : (saver.save blanks).before t = none := by
    rw [WhitespaceSaver.before, hsaver]
    simp
  rw [← hdrop] at h
  refine streams_token ht h ?_
  rw [htake, hnone]
  exact hrest

-- No blanks were kept and none come before the token.
theorem streams_adjacent {more : Bytes} (rest : Bytes) {post : List Token → Prop} (t : Token)
    (hsaver : saver.whitespace = []) (ht : t ≠ .end_)
    (hb : isBlank b = false)
    (h : ∀ r rest', Lexes doubles true (b :: more) r rest' → r = .ok t ∧ rest' = rest)
    (hrest : Streams doubles true rest (.after t) fun ts => post (t :: ts)) :
    Streams doubles true (b :: more) saver post :=
  streams_behind_blanks [] nofun rest t (by rw [saver.save_nil]; exact hsaver) ht hb h hrest

theorem addPathTokens_word {word : Bytes} {t : Token} (h : wordToken word = some t)
    (ts : List Token) (buf : Elements) :
    addPathTokens (t :: ts) buf = addPathTokens ts (word.foldl addByte buf) := by
  have hword := mem_words_of_wordToken h
  simp only [words, List.mem_cons, List.not_mem_nil, or_false] at hword
  rcases hword with rfl | rfl | rfl
  all_goals
    obtain rfl := Option.some.inj h
    rw [addPathTokens, addPathText_unquoted]
    · rfl
    · rintro _ _ ⟨⟩

theorem transformToString_newNumber (n : Int64) {s : Bytes} (hs : s ≠ []) :
    (newNumber () n s).transformToString = s := by
  have hempty : s.isEmpty = false := by simpa using hs
  unfold newNumber
  split
  · rw [Value.transformToString, hempty]
    rfl
  · rw [Value.transformToString, hempty]
    rfl

theorem addPathTokens_number {s : Bytes} (hs : s ≠ []) {contained : Bool} {t : Token}
    (h : numberResult doubles s contained = .ok t) (ts : List Token) (buf : Elements) :
    addPathTokens (t :: ts) buf = addPathTokens ts (s.foldl addByte buf) := by
  have hnumber : ∀ n : Int64, addPathTokens (.value (newNumber () n s) :: ts) buf =
      addPathTokens ts (s.foldl addByte buf) := by
    intro n
    have htext := transformToString_newNumber n hs
    unfold newNumber at htext ⊢
    split
    · rename_i hsmall
      rw [if_pos hsmall] at htext
      rw [addPathTokens, addPathText_unquoted, htext]
      nofun
    · rename_i hsmall
      rw [if_neg hsmall] at htext
      rw [addPathTokens, addPathText_unquoted, htext]
      nofun
  unfold numberResult at h
  split at h
  · split at h <;> cases h
    · rw [addPathTokens, addPathText_unquoted]
      · rfl
      · nofun
    · exact hnumber _
  · split at h <;> cases h
    exact hnumber _

theorem numberResult_isOk {b : UInt8} (hb : firstNumberChars.contains b = true) (digits : Bytes) :
    (∃ t, numberResult doubles (b :: digits) (digits.any fun b => b = 46 || b = 101) = .ok t) ↔
      castsNumber doubles (b :: digits) = true := by
  obtain ⟨_, _, hpoint, _, hexponent⟩ := firstNumberChars_plain hb
  have hfirst : (decide (b = 46) || decide (b = 101)) = false := by
    simp [hpoint, hexponent]
  rw [castsNumber, List.any_cons, hfirst, Bool.false_or]
  unfold numberResult
  split
  · cases doubles.cast (b :: digits) with
    | none => simp
    | some result => cases result <;> simp
  · cases lexicalInt64 (b :: digits) with
    | none => simp
    | some n => simp

-- The text `w` outside quotes starts with a word, with a number or with neither.
theorem streams_word (blanks : Bytes) {word w tail : Bytes}
    (hblanks : ∀ x ∈ blanks, isBlank x = true) (hsaver : (saver.save blanks).whitespace = [])
    (h : word ∈ words)
    {buf : Elements} (post : Except ConfigException Elements → Prop)
    (hrest : ∀ saver : WhitespaceSaver, saver.whitespace = [] →
      Streams doubles true (w ++ tail) saver fun ts =>
        post (addPathTokens ts (word.foldl addByte buf))) :
    Streams doubles true (blanks ++ (word ++ w ++ tail)) saver fun ts =>
      post (addPathTokens ts buf) := by
  have hscan : ∃ t, t ≠ .end_ ∧ wordToken word = some t ∧
      scanUnquoted true [] (word ++ (w ++ tail)) = (t, w ++ tail) := by
    simp only [words, List.mem_cons, List.not_mem_nil, or_false] at h
    rcases h with rfl | rfl | rfl
    · exact ⟨.value (.configBoolean () true), by simp, rfl, rfl⟩
    · exact ⟨.value (.configNull ()), by simp, rfl, rfl⟩
    · exact ⟨.value (.configBoolean () false), by simp, rfl, rfl⟩
  have hfirst : ∃ b word', word = b :: word' ∧ isBlank b = false ∧ endsUnquoted b = false ∧
      firstNumberChars.contains b = false ∧ b ≠ 35 ∧ b ≠ 47 := by
    simp only [words, List.mem_cons, List.not_mem_nil, or_false] at h
    rcases h with rfl | rfl | rfl
    · exact ⟨_, _, rfl, by decide⟩
    · exact ⟨_, _, rfl, by decide⟩
    · exact ⟨_, _, rfl, by decide⟩
  obtain ⟨t, ht, hword, hscan⟩ := hscan
  obtain ⟨b, word', rfl, hblank, hends, hnumber, hhash, hslash⟩ := hfirst
  rw [List.append_assoc]
  refine streams_behind_blanks blanks hblanks (w ++ tail) t hsaver ht hblank ?_ ?_
  · intro r rest' hlexes
    have hcomment : startsComment true (b :: (word' ++ (w ++ tail))) = false := by
      simp [startsComment, hhash, hslash]
    have hunquoted := hlexes.of_unquoted hends hcomment hnumber
    rw [List.cons_append] at hscan
    rw [hscan] at hunquoted
    exact hunquoted
  · have hpost := hrest (.after t) rfl
    intro n s hs hn
    rw [addPathTokens_word hword]
    exact hpost n s hs hn

theorem streams_number (blanks : Bytes) {w tail : Bytes}
    (hblanks : ∀ x ∈ blanks, isBlank x = true) (htail : EndsText tail)
    (hsaver : (saver.save blanks).whitespace = [])
    (hb : firstNumberChars.contains b = true)
    (hcast : castsNumber doubles (b :: w.takeWhile isNumberByte) = true)
    {buf : Elements} (post : Except ConfigException Elements → Prop)
    (hrest : ∀ saver : WhitespaceSaver, saver.whitespace = [] →
      Streams doubles true (w.dropWhile isNumberByte ++ tail) saver fun ts =>
        post (addPathTokens ts ((b :: w.takeWhile isNumberByte).foldl addByte buf))) :
    Streams doubles true (blanks ++ (b :: w ++ tail)) saver fun ts =>
      post (addPathTokens ts buf) := by
  obtain ⟨hdigits, hleft⟩ := takeWhile_number htail w
  obtain ⟨t, ht⟩ := (numberResult_isOk hb _).mpr hcast
  have hinner := numberResult_isInner ht
  rw [List.cons_append]
  refine streams_behind_blanks blanks hblanks (w.dropWhile isNumberByte ++ tail) t hsaver ?_
    (firstNumberChars_plain hb).1 ?_ ?_
  · rintro rfl
    cases hinner
  · intro r rest' hlexes
    have hnumber := hlexes.of_number hb
    rw [scanNumber, hdigits, hleft] at hnumber
    exact ⟨hnumber.1.trans ht, hnumber.2⟩
  · have hpost := hrest (.after t) rfl
    intro n s hs hn
    rw [addPathTokens_number (List.cons_ne_nil _ _) ht]
    exact hpost n s hs hn

theorem streams_bad_number {w tail : Bytes} (htail : EndsText tail)
    (hb : firstNumberChars.contains b = true)
    (hcast : castsNumber doubles (b :: w.takeWhile isNumberByte) = false) {buf : Elements} :
    Streams doubles true (b :: w ++ tail) saver fun ts =>
      ∃ e, addPathTokens ts buf = .error e := by
  obtain ⟨hdigits, hleft⟩ := takeWhile_number htail w
  have hdrop : (b :: w ++ tail).dropWhile isBlank = b :: (w ++ tail) :=
    List.dropWhile_cons_of_neg (Bool.eq_false_iff.mp (firstNumberChars_plain hb).1)
  refine streams_problem ?_ ?_
  · rw [hdrop]
    intro r rest' hlexes
    obtain ⟨hr, _⟩ := hlexes.of_number hb
    rw [scanNumber, hdigits] at hr
    cases hresult : numberResult doubles (b :: w.takeWhile isNumberByte)
        ((w.takeWhile isNumberByte).any fun b => b = 46 || b = 101) with
    | ok t =>
        have hcasts := (numberResult_isOk hb _).mp ⟨t, hresult⟩
        rw [hcast] at hcasts
        cases hcasts
    | error e =>
        rw [numberResult_error hresult] at hresult
        exact ⟨_, _, _, hr.trans hresult⟩
  · intro what message suggestQuotes ts
    exact ⟨_, rfl⟩

-- No word and no number comes first, so that the text is one token.
theorem streams_other (blanks : Bytes) {w tail : Bytes}
    (hblanks : ∀ x ∈ blanks, isBlank x = true) (htail : EndsText tail)
    (hsaver : (saver.save blanks).whitespace = [])
    (hw : ∀ x ∈ b :: w, isPlainByte x = true) (hb : firstNumberChars.contains b = false)
    (hwords : ∀ word ∈ words, ¬word <+: b :: w)
    {buf : Elements} (post : Except ConfigException Elements → Prop)
    (hrest : ∀ saver : WhitespaceSaver, saver.whitespace = [] →
      Streams doubles true tail saver fun ts =>
        post (addPathTokens ts ((b :: w).foldl addByte buf))) :
    Streams doubles true (blanks ++ (b :: w ++ tail)) saver fun ts =>
      post (addPathTokens ts buf) := by
  have hplain := hw b List.mem_cons_self
  obtain ⟨hblank, hends, _⟩ := isPlainByte_scan hplain
  have hscan : scanUnquoted true [] (b :: w ++ tail) = (.unquotedText (b :: w), tail) := by
    apply scanUnquoted_whole htail (b :: w) [] hw
    intro u _ hprefix
    cases hword : wordToken u with
    | none => exact hword
    | some t => exact absurd hprefix (hwords u (mem_words_of_wordToken hword))
  rw [List.cons_append]
  refine streams_behind_blanks blanks hblanks tail (.unquotedText (b :: w)) hsaver nofun hblank ?_ ?_
  · intro r rest' hlexes
    have hunquoted := hlexes.of_unquoted hends (isPlainByte_startsComment hplain true _) hb
    rw [← List.cons_append, hscan] at hunquoted
    exact hunquoted
  · have hpost := hrest (.after (.unquotedText (b :: w))) rfl
    intro n s hs hn
    rw [addPathTokens, addPathText_unquoted]
    exact hpost n s hs hn

theorem NumbersCast.streams {w tail : Bytes} (h : NumbersCast doubles w) (htail : EndsText tail)
    (hw : ∀ b ∈ w, isPlainByte b = true) (hsaver : saver.whitespace = []) {buf : Elements}
    (post : Except ConfigException Elements → Prop)
    (hrest : ∀ saver : WhitespaceSaver, saver.whitespace = [] →
      Streams doubles true tail saver fun ts => post (addPathTokens ts (w.foldl addByte buf))) :
    Streams doubles true (w ++ tail) saver fun ts => post (addPathTokens ts buf) := by
  induction h generalizing saver buf with
  | nil => exact hrest saver hsaver
  | word h _ ih =>
      refine streams_word [] nofun (by rwa [saver.save_nil]) h post fun saver' hsaver' => ?_
      rw [List.foldl_append] at hrest
      exact ih (fun b hb => hw b (List.mem_append_right _ hb)) hsaver' hrest
  | @number b w hb h _ ih =>
      refine streams_number [] nofun htail (by rwa [saver.save_nil]) hb h post
        fun saver' hsaver' => ?_
      have hsplit : b :: w = (b :: w.takeWhile isNumberByte) ++ w.dropWhile isNumberByte := by
        rw [List.cons_append, List.takeWhile_append_dropWhile]
      rw [hsplit, List.foldl_append] at hrest
      refine ih (fun b hb => hw b (List.mem_cons_of_mem _ ?_)) hsaver' hrest
      exact (List.dropWhile_suffix isNumberByte).subset hb
  | other hb h =>
      exact streams_other [] nofun htail (by rwa [saver.save_nil]) hw hb h post hrest

-- Where a number is not accepted the reading stops.
theorem streams_error_of_not_numbersCast (length : ℕ) {w tail : Bytes} (hlength : w.length ≤ length)
    (h : ¬NumbersCast doubles w) (htail : EndsText tail) (hw : ∀ b ∈ w, isPlainByte b = true)
    (hsaver : saver.whitespace = []) {buf : Elements} :
    Streams doubles true (w ++ tail) saver fun ts => ∃ e, addPathTokens ts buf = .error e := by
  induction length generalizing w saver buf with
  | zero =>
      obtain rfl := List.length_eq_zero_iff.mp (Nat.le_zero.mp hlength)
      exact absurd .nil h
  | succ length ih =>
      cases w with
      | nil => exact absurd .nil h
      | cons b w =>
          rw [List.length_cons] at hlength
          by_cases hb : firstNumberChars.contains b = true
          · by_cases hcast : castsNumber doubles (b :: w.takeWhile isNumberByte) = true
            · refine streams_number [] nofun htail (by rwa [saver.save_nil]) hb hcast
                (fun r => ∃ e, r = .error e) fun saver' hsaver' => ?_
              have hsuffix := List.dropWhile_suffix (l := w) isNumberByte
              have hle := hsuffix.length_le
              refine ih (by omega) (fun hrest => h (.number hb hcast hrest)) ?_ hsaver'
              intro b' hb'
              exact hw b' (List.mem_cons_of_mem b (hsuffix.subset hb'))
            · exact streams_bad_number htail hb (Bool.eq_false_iff.mpr hcast)
          · by_cases hwords : ∃ word ∈ words, word <+: b :: w
            · obtain ⟨word, hword, w', hsplit⟩ := hwords
              rw [← hsplit] at h hw ⊢
              refine streams_word [] nofun (by rwa [saver.save_nil]) hword
                (fun r => ∃ e, r = .error e) fun saver' hsaver' => ?_
              have hlength' := congrArg List.length hsplit
              have hpositive := length_pos_of_mem_words hword
              rw [List.length_append, List.length_cons] at hlength'
              refine ih (by omega) (fun hrest => h (.word hword hrest)) ?_ hsaver'
              exact fun b' hb' => hw b' (List.mem_append_right _ hb')
            · refine absurd (.other (Bool.eq_false_iff.mpr hb) ?_) h
              intro word hword hprefix
              exact hwords ⟨word, hword, hprefix⟩

end

end AsrServiceProxy.Config

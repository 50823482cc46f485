import AsrServiceProxy.Config.PathText.Theorems

-- The fast parser of paths against the full one.
namespace AsrServiceProxy.Config

open CMemory Simulation

def Elements.all (buf : Elements) : List Element := buf.front ++ [buf.current]

-- Both parsers cut a text at its periods.
theorem appendPathString_elements (n : ℕ) (front : List Element) (canBeEmpty : Bool) (s : Bytes)
    (hn : s.length < n) :
    ((addUnquotedLoop n { front := front, current := ⟨[], canBeEmpty⟩ } s).all).map Element.element =
      appendPathString n (front.map Element.element) s := by
  induction n generalizing front canBeEmpty s with
  | zero => omega
  | succ n ih =>
      rw [addUnquotedLoop, appendPathString]
      cases hfind : s.findIdx? (· = 46) with
      | none => simp [Elements.all]
      | some i =>
          obtain ⟨hi, -, -⟩ := List.findIdx?_eq_some_iff_getElem.mp hfind
          have hlength : (s.drop (i + 1)).length < n := by
            rw [List.length_drop]
            omega
          have hrest := ih (front ++ [⟨s.take i, canBeEmpty⟩]) false (s.drop (i + 1)) hlength
          rw [List.map_append, List.map_singleton] at hrest
          exact hrest

-- The text has no empty element behind `current`: it does not start with a period
-- unless something comes before, it does not end with one, and no two are adjacent.
theorem elements_ne_nil (s : Bytes) (buf : Elements)
    (hfront : ∀ e ∈ buf.front, e.element ≠ [])
    (hcurrent : s = [] ∨ s.head? = some 46 → buf.current.element ≠ [])
    (hlast : s.getLast? ≠ some 46) (hdots : StringUtil.find (ascii "..") s = none) :
    ∀ e ∈ (s.foldl addByte buf).all, e.element ≠ [] := by
  induction s generalizing buf with
  | nil =>
      intro e he
      rcases List.mem_append.mp he with he | he
      · exact hfront e he
      · rw [List.mem_singleton.mp he]
        exact hcurrent (.inl rfl)
  | cons b s ih =>
      -- no period follows a period
      have hpair : b = 46 → s.head? ≠ some 46 := by
        rintro rfl hhead
        cases s with
        | nil => cases hhead
        | cons c s =>
            obtain rfl := Option.some.inj hhead
            cases hdots
      have hrest : StringUtil.find (ascii "..") s = none := by
        rw [StringUtil.find] at hdots
        split at hdots
        · cases hdots
        · exact Option.map_eq_none_iff.mp hdots
      rw [List.foldl_cons]
      by_cases hb : b = 46
      · rw [addByte, if_pos hb]
        have hs : s ≠ [] := by
          rintro rfl
          rw [hb] at hlast
          exact hlast rfl
        apply ih
        · intro e he
          rcases List.mem_append.mp he with he | he
          · exact hfront e he
          · rw [List.mem_singleton.mp he]
            apply hcurrent
            rw [hb]
            exact .inr rfl
        · rintro (hnil | hhead)
          · exact absurd hnil hs
          · exact absurd hhead (hpair hb)
        · rwa [List.getLast?_cons_of_ne_nil hs] at hlast
        · exact hrest
      · rw [addByte, if_neg hb]
        apply ih
        · exact hfront
        · intro _
          exact List.append_ne_nil_of_right_ne_nil _ (List.cons_ne_nil b [])
        · cases s with
          | nil => simp
          | cons c s => rwa [List.getLast?_cons_of_ne_nil (List.cons_ne_nil c s)] at hlast
        · exact hrest

theorem parsePathExpression_of_elements {ts : List Token} (hts : ts ≠ []) {buf : Elements}
    (h : addPathTokens ts .initial = .ok buf) (hne : ∀ e ∈ buf.all, e.element ≠ []) {path : Path}
    (hpath : PathBuilder.result (buf.all.map Element.element) = some path) :
    parsePathExpression ts = .ok path := by
  have hempty : ts.isEmpty = false := by simpa using hts
  have hfine : (buf.all.any fun e => e.element.isEmpty && ¬e.canBeEmpty) = false := by
    rw [List.any_eq_false]
    intro e he
    simp [hne e he]
  change addPathTokens ts { front := [], current := { element := [], canBeEmpty := false } } = _ at h
  rw [Elements.all] at hfine hpath
  rw [parsePathExpression, hempty, if_neg Bool.false_ne_true, h]
  simp only [bind, Except.bind, hfine, hpath, Bool.false_eq_true, if_false]

section

variable {doubles : Doubles} {saver : WhitespaceSaver}

-- Letters behind blanks that are not kept.
theorem NumbersCast.streams_behind_blanks {b : UInt8} {w tail : Bytes} (blanks : Bytes)
    (hblanks : ∀ x ∈ blanks, isBlank x = true) (h : NumbersCast doubles (b :: w))
    (htail : EndsText tail) (hw : ∀ x ∈ b :: w, isPlainByte x = true)
    (hsaver : (saver.save blanks).whitespace = []) {buf : Elements}
    (post : Except ConfigException Elements → Prop)
    (hrest : ∀ saver : WhitespaceSaver, saver.whitespace = [] →
      Streams doubles true tail saver fun ts =>
        post (addPathTokens ts ((b :: w).foldl addByte buf))) :
    Streams doubles true (blanks ++ (b :: w ++ tail)) saver fun ts =>
      post (addPathTokens ts buf) := by
  generalize hall : b :: w = all at h hw hrest
  cases h with
  | nil => cases hall
  | @word word w' hword hcast =>
      rw [List.foldl_append] at hrest
      refine streams_word blanks hblanks hsaver hword post fun saver' hsaver' => ?_
      exact hcast.streams htail (fun x hx => hw x (List.mem_append_right _ hx)) hsaver' post hrest
  | @number b' w' hb hnumber hcast =>
      refine streams_number blanks hblanks htail hsaver hb hnumber post fun saver' hsaver' => ?_
      have hsplit : b' :: w' = (b' :: w'.takeWhile isNumberByte) ++ w'.dropWhile isNumberByte := by
        rw [List.cons_append, List.takeWhile_append_dropWhile]
      rw [hsplit, List.foldl_append] at hrest
      refine hcast.streams htail (fun x hx => hw x (List.mem_cons_of_mem _ ?_)) hsaver' post hrest
      exact (List.dropWhile_suffix isNumberByte).subset hx
  | other hb hwords => exact streams_other blanks hblanks htail hsaver hw hb hwords post hrest

theorem streams_newline {more : Bytes} (blanks : Bytes) (hblanks : ∀ x ∈ blanks, isBlank x = true)
    {buf : Elements} :
    Streams doubles true (blanks ++ 10 :: more) saver fun ts =>
      ∃ e, addPathTokens ts buf = .error e := by
  obtain ⟨-, hdrop⟩ := takeWhile_isBlank more hblanks (b := 10) (by decide)
  have hnewline : ∀ r rest', Lexes doubles true ((blanks ++ 10 :: more).dropWhile isBlank) r rest' →
      r = .ok .newline ∧ rest' = more := by
    rw [hdrop]
    intro r rest' hlexes
    exact hlexes.of_punctuation .newline
  refine streams_token (t := .newline) nofun hnewline ?_
  intro n s _ _
  exact ⟨_, rfl⟩

end

-- What the fast parser takes: letters and periods between white space.
structure FastText (front body back : Bytes) : Prop where
  front_space : ∀ b ∈ front, StringUtil.isspace b = true
  back_space : ∀ b ∈ back, StringUtil.isspace b = true
  letters : ∀ b ∈ body, (isalpha b || b = 46) = true
  ne_nil : body ≠ []
  head : body.head? ≠ some 46
  last : body.getLast? ≠ some 46
  dots : StringUtil.find (ascii "..") body = none

theorem fastText_of_speculative {s : Bytes} {path : Path}
    (h : speculativeFastParsePath s = some path) :
    ∃ front body back, s = front ++ (body ++ back) ∧ FastText front body back ∧
      PathBuilder.result (appendPathString (body.length + 1) [] body) = some path := by
  unfold speculativeFastParsePath at h
  dsimp only at h
  split at h
  · cases h
  rename_i hempty
  split at h
  · cases h
  rename_i hunsafe
  split at h
  · cases h
  rename_i hperiods
  simp only [Bool.or_eq_true, decide_eq_true_eq, not_or, Bool.not_eq_true,
    Option.isSome_eq_false_iff, Option.isNone_iff_eq_none] at hperiods
  have hsplit : trimCopy s ++ ((s.dropWhile StringUtil.isspace).reverse.takeWhile
      StringUtil.isspace).reverse = s.dropWhile StringUtil.isspace := by
    rw [trimCopy, ← List.reverse_append, List.takeWhile_append_dropWhile, List.reverse_reverse]
  refine ⟨s.takeWhile StringUtil.isspace, trimCopy s,
    ((s.dropWhile StringUtil.isspace).reverse.takeWhile StringUtil.isspace).reverse, ?_,
    ⟨?_, ?_, ?_, ?_, ?_, ?_, ?_⟩, h⟩
  · rw [hsplit, List.takeWhile_append_dropWhile]
  · intro b hb
    exact List.mem_takeWhile_imp hb
  · intro b hb
    exact List.mem_takeWhile_imp (List.mem_reverse.mp hb)
  · intro b hb
    rw [Bool.not_eq_true, hasUnsafeChars, List.any_eq_false] at hunsafe
    by_contra hother
    exact hunsafe b hb (decide_eq_true hother)
  · simpa using hempty
  · exact hperiods.1.1
  · exact hperiods.1.2
  · exact hperiods.2

theorem isspace_bytes (b : UInt8) (h : StringUtil.isspace b = true) :
    (b ≠ 10 → isBlank b = true) ∧ endsUnquoted b = true ∧ isNumberByte b = false := by
  revert h b
  apply forall_byte
  decide +kernel

theorem letter_bytes (b : UInt8) (h : (isalpha b || b = 46) = true) :
    isPlainByte b = true ∧ firstNumberChars.contains b = false ∧ b ≠ 10 := by
  revert h b
  apply forall_byte
  decide +kernel

theorem blanks_of_spaces {l : Bytes} (h : ∀ b ∈ l, StringUtil.isspace b = true) (hl : 10 ∉ l) :
    ∀ b ∈ l, isBlank b = true := by
  intro b hb
  apply (isspace_bytes b (h b hb)).1
  rintro rfl
  exact hl hb

theorem spaces_split {l : Bytes} (h : ∀ b ∈ l, StringUtil.isspace b = true) (hl : 10 ∈ l) :
    ∃ blanks more, l = blanks ++ 10 :: more ∧ ∀ b ∈ blanks, isBlank b = true := by
  obtain ⟨blanks, more, rfl, hblanks⟩ := List.eq_append_cons_of_mem hl
  exact ⟨blanks, more, rfl, blanks_of_spaces (fun b hb => h b (List.mem_append_left _ hb)) hblanks⟩

section

variable {doubles : Doubles} {front body back : Bytes}

theorem FastText.endsText (h : FastText front body back) : EndsText back := by
  rintro b more rfl
  exact (isspace_bytes b (h.back_space b List.mem_cons_self)).2

theorem FastText.newline_mem (h : FastText front body back) :
    10 ∈ front ++ (body ++ back) ↔ 10 ∈ front ∨ 10 ∈ back := by
  have hbody : 10 ∉ body := fun hmem => (letter_bytes 10 (h.letters 10 hmem)).2.2 rfl
  simp [hbody]

-- The letters are read as they are, whatever comes of the rest.
theorem FastText.streams (h : FastText front body back) (hfront : 10 ∉ front)
    (post : Except ConfigException Elements → Prop)
    (hrest : ∀ saver : WhitespaceSaver, Streams doubles true back saver fun ts =>
      post (addPathTokens ts (body.foldl addByte .initial))) :
    Streams doubles true (front ++ (body ++ back)) .makeInstance fun ts =>
      post (addPathTokens ts .initial) := by
  obtain ⟨b, w, rfl⟩ := List.exists_cons_of_ne_nil h.ne_nil
  have hcast : NumbersCast doubles (b :: w) :=
    numbersCast_of_no_number _ le_rfl fun x hx => (letter_bytes x (h.letters x hx)).2.1
  exact hcast.streams_behind_blanks front (blanks_of_spaces h.front_space hfront) h.endsText
    (fun x hx => (letter_bytes x (h.letters x hx)).1) rfl post fun saver _ => hrest saver

theorem FastText.parses (h : FastText front body back) (hfront : 10 ∉ front) (hback : 10 ∉ back)
    {path : Path}
    (hpath : PathBuilder.result (appendPathString (body.length + 1) [] body) = some path) :
    parsePathExpression (tokenize doubles (front ++ (body ++ back)) .CONF).tail = .ok path := by
  have hstreams : Streams doubles true (front ++ (body ++ back)) .makeInstance fun ts =>
      addPathTokens ts .initial = .ok (body.foldl addByte .initial) := by
    refine h.streams hfront (fun r => r = .ok (body.foldl addByte .initial)) fun saver => ?_
    refine streams_last ?_ rfl
    rw [List.dropWhile_eq_nil_iff]
    exact blanks_of_spaces h.back_space hback
  have htokens := hstreams _ _ (TokenStream.ofString_at _) (Nat.lt_succ_self _)
  obtain ⟨ts, hts, before, hbefore, _⟩ := tokenize_ended doubles (front ++ (body ++ back)) .CONF
  have hne : (tokenize doubles (front ++ (body ++ back)) .CONF).tail ≠ [] := by
    rw [hts, List.tail_cons, hbefore]
    exact List.append_ne_nil_of_right_ne_nil _ (List.cons_ne_nil _ _)
  refine parsePathExpression_of_elements hne htokens ?_ ?_
  · apply elements_ne_nil
    · nofun
    · rintro (hnil | hhead)
      · exact absurd hnil h.ne_nil
      · exact absurd hhead h.head
    · exact h.last
    · exact h.dots
  · have hkeys := appendPathString_elements (body.length + 1) [] false body (Nat.lt_succ_self _)
    rw [addUnquotedLoop_eq _ _ _ (Nat.lt_succ_self _)] at hkeys
    rw [Elements.initial, hkeys]
    exact hpath

theorem FastText.refused (h : FastText front body back) (hnewline : 10 ∈ front ∨ 10 ∈ back) :
    ∃ e, parsePathExpression (tokenize doubles (front ++ (body ++ back)) .CONF).tail = .error e := by
  have hstreams : Streams doubles true (front ++ (body ++ back)) .makeInstance fun ts =>
      ∃ e, addPathTokens ts .initial = .error e := by
    by_cases hfront : 10 ∈ front
    · obtain ⟨blanks, more, rfl, hblanks⟩ := spaces_split h.front_space hfront
      rw [List.append_assoc, List.cons_append]
      exact streams_newline blanks hblanks
    · obtain ⟨blanks, more, rfl, hblanks⟩ :=
        spaces_split h.back_space (hnewline.resolve_left hfront)
      refine h.streams hfront (fun r => ∃ e, r = .error e) fun saver => ?_
      exact streams_newline blanks hblanks
  exact parsePathExpression_error_of_tokens
    (hstreams _ _ (TokenStream.ofString_at _) (Nat.lt_succ_self _))

end

-- Where the fast parser gives a path, the full one gives the same unless there is a
-- newline in the white space that the fast one takes off.
theorem speculativeFastParsePath_agrees_iff (doubles : Doubles) (s : Bytes) (path : Path)
    (h : speculativeFastParsePath s = some path) :
    parsePathExpression (tokenize doubles s .CONF).tail = .ok path ↔ 10 ∉ s := by
  obtain ⟨front, body, back, rfl, htext, hpath⟩ := fastText_of_speculative h
  rw [htext.newline_mem, not_or]
  constructor
  · intro hparse
    by_contra hnewline
    rw [not_and_or, not_not, not_not] at hnewline
    obtain ⟨e, he⟩ := htext.refused hnewline
    cases hparse.symm.trans he
  · rintro ⟨hfront, hback⟩
    exact htext.parses hfront hback hpath

theorem speculativeFastParsePath_agrees_blanks :
    parsePathExpression (tokenize ⟨fun _ => none, id⟩ (ascii "\t true.b ") .CONF).tail =
      .ok (.cons (ascii "true") (.newKey (ascii "b"))) :=
  (speculativeFastParsePath_agrees_iff _ _ _ (by decide)).mpr (by decide)

-- A line feed behind the path.
theorem speculativeFastParsePath_newline :
    speculativeFastParsePath (ascii "a\n") = some (.newKey (ascii "a")) ∧
      parsePathExpression (tokenize ⟨fun _ => none, id⟩ (ascii "a\n") .CONF).tail =
        .error (.badPath "Token not allowed in path expression: ") := by
  decide

end AsrServiceProxy.Config

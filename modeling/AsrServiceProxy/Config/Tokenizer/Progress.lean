import AsrServiceProxy.Config.Tokenizer.Scanning

-- Every token but the last takes at least a byte of the input.
namespace AsrServiceProxy.Config

open CMemory Simulation

-- A string starts after the quote, and not one in three quotes.
def StartsString (more : Bytes) : Prop :=
  ∃ body text rest, Quoted body text ∧ (text = [] → rest.head? ≠ some 34) ∧ more = body ++ rest

section

variable (doubles : Doubles) (allowComments : Bool)

-- What is read from bytes that do not start with a blank, and what is left of them.
inductive Lexes : Bytes → Except TokenizerError Token → Bytes → Prop
  | last : Lexes [] (.ok .end_) []
  -- this byte is read as the end of the input
  | eof (more : Bytes) : Lexes (255 :: more) (.ok .end_) more
  | punctuation {b : UInt8} {t : Token} (h : Punctuation b t) (more : Bytes) :
      Lexes (b :: more) (.ok t) more
  | plusEquals (more : Bytes) : Lexes (43 :: 61 :: more) (.ok .plusEquals) more
  | comment {b : UInt8} {more : Bytes} (h : startsComment allowComments (b :: more) = true)
      (text : Bytes) {rest : Bytes} (hrest : rest <:+ more) : Lexes (b :: more) (.ok (.comment text)) rest
  | string {body text more : Bytes} (h : Quoted body text) (hmore : text = [] → more.head? ≠ some 34) :
      Lexes (34 :: (body ++ more)) (.ok (.value (.configString () text))) more
  | tripleQuoted (text : Bytes) {more rest : Bytes} (hrest : rest <:+ more) :
      Lexes (34 :: 34 :: 34 :: more) (.ok (.value (.configString () text))) rest
  | number {b : UInt8} (more : Bytes) (hb : firstNumberChars.contains b = true) :
      Lexes (b :: more) (scanNumber doubles b more).1 (scanNumber doubles b more).2
  | unquoted {b : UInt8} {more : Bytes} (hb : endsUnquoted b = false)
      (hcomment : startsComment allowComments (b :: more) = false)
      (hnumber : firstNumberChars.contains b = false) :
      Lexes (b :: more) (.ok (scanUnquoted allowComments [] (b :: more)).1)
        (scanUnquoted allowComments [] (b :: more)).2
  | substitution (optional : Bool) (expression : List Token) {more rest : Bytes} (hrest : rest <:+ more) :
      Lexes (36 :: 123 :: more) (.ok (.substitution optional expression)) rest
  | problem {b : UInt8} (hb : notInUnquotedText.contains b = true) (what : Bytes) (message : String)
      (suggestQuotes : Bool) {more rest : Bytes} (hrest : rest <:+ more)
      (hother : ∀ t, ¬Punctuation b t) (hstring : b = 34 → ¬StartsString more) :
      Lexes (b :: more) (.error (.problem what message suggestQuotes)) rest

end

section

variable {doubles : Doubles} {allowComments : Bool}

theorem scanUnquoted_suffix (sb more : Bytes) : (scanUnquoted allowComments sb more).2 <:+ more := by
  induction more generalizing sb with
  | nil => exact List.suffix_rfl
  | cons b more ih =>
      rw [scanUnquoted]
      split
      · exact List.suffix_rfl
      · split
        · exact List.suffix_cons b more
        · exact (ih (sb ++ [b])).trans (List.suffix_cons b more)

theorem scanUnquoted_cons {b : UInt8} {more : Bytes} (hb : endsUnquoted b = false)
    (hcomment : startsComment allowComments (b :: more) = false) (sb : Bytes) :
    scanUnquoted allowComments sb (b :: more) = match wordToken (sb ++ [b]) with
      | some word => (word, more)
      | none => scanUnquoted allowComments (sb ++ [b]) more := by
  rw [scanUnquoted, hb, hcomment]
  rfl

theorem Lexes.suffix {more rest : Bytes} {r : Except TokenizerError Token}
    (h : Lexes doubles allowComments more r rest) : rest <:+ more.tail := by
  cases h with
  | last => exact List.suffix_rfl
  | eof => exact List.suffix_rfl
  | punctuation => exact List.suffix_rfl
  | plusEquals more => exact List.suffix_cons 61 rest
  | comment _ _ hrest => exact hrest
  | string => exact List.suffix_append _ rest
  | tripleQuoted _ hrest =>
      exact (hrest.trans (List.suffix_cons 34 _)).trans (List.suffix_cons 34 _)
  | number => exact List.dropWhile_suffix isNumberByte
  | @unquoted b more hb hcomment =>
      rw [scanUnquoted_cons hb hcomment, List.tail_cons]
      split
      · exact List.suffix_rfl
      · exact scanUnquoted_suffix _ more
  | substitution _ _ hrest => exact hrest.trans (List.suffix_cons 123 _)
  | problem _ _ _ _ hrest _ _ => exact hrest

variable (doubles allowComments)

-- What a call of `pull_next_token` does, with the blanks behind it.
def Lexing (more : Bytes) (saver : WhitespaceSaver) (r : Except TokenizerError Token) (g : Place) :
    Prop :=
  g.room ≤ 2 ∧ g.saver = saver ∧ Lexes doubles allowComments more r g.more

variable {doubles allowComments}

theorem Lexing.pure {more rest : Bytes} {room : ℕ} {saver : WhitespaceSaver} {t : Token}
    (h : Lexes doubles allowComments more (.ok t) rest) (hroom : room ≤ 2) :
    Results At (pure t : Pull Token) ⟨rest, room, saver⟩
      (Lexing doubles allowComments more saver) :=
  Results.pure ⟨hroom, rfl, h⟩

theorem results_pullComment {b : UInt8} {more : Bytes} (saver : WhitespaceSaver)
    (h : startsComment allowComments (b :: more) = true) :
    Results At (pullComment (readChar b)) ⟨more, 1, saver⟩
      (Lexing doubles allowComments (b :: more) saver) := by
  have hloop : ∀ more', more' <:+ more → Results At (do pullCommentLoop (← rounds) [])
      ⟨more', 1, saver⟩ (Lexing doubles allowComments (b :: more) saver) := by
    intro more' hmore
    refine results_rounds fun n hn => ?_
    intro s hs
    obtain ⟨s', hs', hat⟩ := runs_pullCommentLoop n [] more' saver hn s hs
    rw [hs']
    refine ⟨_, hat, le_rfl, rfl, .comment h _ ?_⟩
    exact (List.dropWhile_suffix _).trans hmore
  have hfirst : b = 35 ∨ b = 47 ∧ more.head? = some 47 := by
    simp only [startsComment, Bool.and_eq_true, Bool.or_eq_true, decide_eq_true_eq] at h
    exact h.2
  rcases hfirst with rfl | ⟨rfl, hhead⟩
  · exact hloop more List.suffix_rfl
  · obtain ⟨rest, rfl⟩ := List.head?_eq_some_iff.mp hhead
    refine Results.bind_runs (runs_next (47 :: rest) saver) ?_
    exact hloop rest (List.suffix_cons 47 rest)

theorem results_pullPlusEquals (more : Bytes) (saver : WhitespaceSaver) :
    Results At pullPlusEquals ⟨more, 1, saver⟩
      (Lexing doubles allowComments (43 :: more) saver) := by
  refine Results.bind_runs (runs_next more saver) ?_
  refine Results.ite (fun _ => ?_) fun hc => ?_
  · exact Results.throw ⟨by dsimp only; omega, rfl, .problem (by decide) _ _ _
      (List.tail_suffix more) nofun (fun h => absurd h (by decide))⟩
  · rw [not_not] at hc
    obtain ⟨b, rest, rfl, hb⟩ := peek_ne_eof more (by rw [hc]; decide)
    obtain rfl : b = 61 := readChar_inj (hb.symm.trans (hc.trans (by decide)))
    exact Lexing.pure (.plusEquals rest) (by omega)

theorem results_pullQuotedToken (more : Bytes) (saver : WhitespaceSaver) :
    Results At pullQuotedString ⟨more, 1, saver⟩
      (Lexing doubles allowComments (34 :: more) saver) := by
  by_cases hstarts : StartsString more
  · obtain ⟨body, text, rest, hquoted, hrest, rfl⟩ := hstarts
    intro s hs
    obtain ⟨s', hs', hat⟩ := runs_pullQuotedString hquoted hrest saver s hs
    rw [hs']
    exact ⟨_, hat, le_rfl, rfl, .string hquoted hrest⟩
  refine Results.imp (results_pullQuotedString more saver) fun r g h => ?_
  cases r with
  | ok t =>
      obtain ⟨hroom, hsaver, text, rfl, ⟨body, hquoted, rfl, hmore⟩ | ⟨rest, rfl, hrest⟩⟩ := h
      · exact ⟨hroom, hsaver, .string hquoted hmore⟩
      · exact ⟨hroom, hsaver, .tripleQuoted text hrest⟩
  | error e =>
      cases e with
      | problem what message suggestQuotes =>
          exact ⟨h.2.1, h.2.2, .problem (by decide) what message suggestQuotes h.1 nofun
            fun _ => hstarts⟩
      | exception => exact h.elim

theorem results_pullUnquotedText {b : UInt8} {more : Bytes} (saver : WhitespaceSaver)
    (hb : endsUnquoted b = false) (hcomment : startsComment allowComments (b :: more) = false)
    (hnumber : firstNumberChars.contains b = false) :
    Results At (pullUnquotedText allowComments) ⟨b :: more, 2, saver⟩
      (Lexing doubles allowComments (b :: more) saver) := by
  refine Results.bind_runs (runs_nextCharRaw (b :: more) 2 saver) ?_
  refine results_rounds fun n hn => ?_
  intro s hs
  obtain ⟨s', hs', hat⟩ := runs_pullUnquotedTextLoop allowComments (n + 1) [] (b :: more) saver
    (Nat.succ_lt_succ hn) s hs
  rw [hs']
  exact ⟨_, hat, le_rfl, rfl, .unquoted hb hcomment hnumber⟩

theorem results_pullToken (substitution : Pull Token) (more : Bytes) (saver : WhitespaceSaver)
    (hsubstitution : ∀ rest, more.dropWhile isBlank = 36 :: rest →
      Results At substitution ⟨rest, 1, saver.save (more.takeWhile isBlank)⟩
        (Lexing doubles allowComments (36 :: rest) (saver.save (more.takeWhile isBlank)))) :
    Results At (pullToken doubles allowComments substitution) ⟨more, 2, saver⟩
      (Lexing doubles allowComments (more.dropWhile isBlank)
        (saver.save (more.takeWhile isBlank))) := by
  refine Results.bind_runs (runs_nextCharAfterWhitespace more saver) ?_
  have hblank : ∀ b ∈ (more.dropWhile isBlank).head?, isBlank b = false := by
    intro b hb
    have hhead := List.head?_dropWhile_not isBlank more
    rwa [Option.mem_def.mp hb] at hhead
  generalize more.dropWhile isBlank = left at hsubstitution hblank ⊢
  generalize saver.save (more.takeWhile isBlank) = saver at hsubstitution ⊢
  cases left with
  | nil => exact Lexing.pure .last (by omega)
  | cons b left =>
      have hpunctuation : ∀ {x : UInt8} {t : Token}, Punctuation x t → readChar b = readChar x →
          Results At (pure t : Pull Token) ⟨left, 1, saver⟩
            (Lexing doubles allowComments (b :: left) saver) := by
        intro x t hx hb
        obtain rfl := readChar_inj hb
        exact Lexing.pure (.punctuation hx left) (by omega)
      refine Results.ite (fun hc => ?_) fun heof => ?_
      · obtain rfl := (readChar_eof_iff b).mp hc
        exact Lexing.pure (.eof left) (by omega)
      refine Results.ite (hpunctuation .newline) fun hnewline => ?_
      refine Results.bind_runs (runs_startOfComment allowComments (b :: left) saver) ?_
      refine Results.ite (results_pullComment saver) fun hcomment => ?_
      refine Results.ite (fun hc => ?_) fun hquote => ?_
      · obtain rfl : b = 34 := readChar_inj hc
        exact results_pullQuotedToken left saver
      refine Results.ite (fun hc => ?_) fun _ => ?_
      · obtain rfl : b = 36 := readChar_inj hc
        exact hsubstitution left rfl
      refine Results.ite (hpunctuation .colon) fun hcolon => ?_
      refine Results.ite (hpunctuation .comma) fun hcomma => ?_
      refine Results.ite (hpunctuation .equals) fun hequals => ?_
      refine Results.ite (hpunctuation .openCurly) fun hopenCurly => ?_
      refine Results.ite (hpunctuation .closeCurly) fun hcloseCurly => ?_
      refine Results.ite (hpunctuation .openSquare) fun hopenSquare => ?_
      refine Results.ite (hpunctuation .closeSquare) fun hcloseSquare => ?_
      refine Results.ite (fun hc => ?_) fun _ => ?_
      · obtain rfl : b = 43 := readChar_inj hc
        exact results_pullPlusEquals left saver
      rw [peek, toChar_readChar]
      refine Results.ite (fun hnumber => ?_) fun hnumber => ?_
      · exact results_pullNumber doubles b left saver ⟨le_rfl, rfl, .number left hnumber⟩
      refine Results.ite (fun hreserved => ?_) fun hreserved => ?_
      · have hother : ∀ t, ¬Punctuation b t := by
          intro t ht
          cases ht with
          | newline => exact hnewline rfl
          | comma => exact hcomma rfl
          | colon => exact hcolon rfl
          | equals => exact hequals rfl
          | openSquare => exact hopenSquare rfl
          | closeSquare => exact hcloseSquare rfl
          | openCurly => exact hopenCurly rfl
          | closeCurly => exact hcloseCurly rfl
        refine Results.throw ⟨by dsimp only; omega, rfl, .problem hreserved _ _ _ List.suffix_rfl
          hother ?_⟩
        rintro rfl
        exact absurd rfl hquote
      refine Results.bind_runs (runs_putBack (b :: left) saver (by omega)) ?_
      have hends : endsUnquoted b = false := by
        have hb := hblank b rfl
        have hspace : isWhitespace (readChar b) = false := by
          rw [isBlank, isWhitespaceNotNewline, decide_eq_true (p := readChar b ≠ 10) hnewline,
            Bool.true_and] at hb
          exact hb
        have h255 : decide (b = 255) = false := by
          rw [decide_eq_false_iff_not]
          exact fun h => heof ((readChar_eof_iff b).mpr h)
        rw [endsUnquoted, h255, Bool.eq_false_iff.mpr hreserved, hspace]
        rfl
      exact results_pullUnquotedText saver hends (Bool.eq_false_iff.mpr hcomment)
        (Bool.eq_false_iff.mpr hnumber)

-- The saver behind a token, and the token of blanks that comes before it.
def WhitespaceSaver.after (t : Token) : WhitespaceSaver :=
  { lastTokenWasSimpleValue := isSimpleValue t, whitespace := [] }

def WhitespaceSaver.before (saver : WhitespaceSaver) (t : Token) : Option Token :=
  if isSimpleValue t && saver.lastTokenWasSimpleValue && !saver.whitespace.isEmpty then
    some (.unquotedText saver.whitespace)
  else none

theorem runs_checkWhitespace (t : Token) (more : Bytes) (room : ℕ) (saver : WhitespaceSaver) :
    Runs At (checkWhitespace t) ⟨more, room, saver⟩ (saver.before t) ⟨more, room, .after t⟩ := by
  rintro ⟨rest, buffered, ⟨last, whitespace⟩⟩ ⟨hrest, hbuffered, hinside, rfl⟩
  have hat : At ⟨rest, buffered, .after t⟩ ⟨more, room, .after t⟩ :=
    ⟨hrest, hbuffered, hinside, rfl⟩
  refine ⟨⟨rest, buffered, .after t⟩, ?_, hat⟩
  unfold checkWhitespace WhitespaceSaver.before WhitespaceSaver.after
  cases isSimpleValue t with
  | false => rfl
  | true =>
      cases last with
      | false => rfl
      | true =>
          cases whitespace with
          | nil => rfl
          | cons b whitespace => rfl

theorem results_withOwnSaver {α : Type} {pull : Pull α} {more : Bytes} {room : ℕ}
    {saver : WhitespaceSaver} {post : Except TokenizerError α → Place → Prop}
    (h : Results At pull ⟨more, room, .makeInstance⟩ fun r g => post r { g with saver := saver }) :
    Results At (withOwnSaver pull) ⟨more, room, saver⟩ post := by
  rintro s ⟨hrest, hbuffered, hinside, hsaver⟩
  have hresult := h { s with saver := .makeInstance } ⟨hrest, hbuffered, hinside, rfl⟩
  unfold withOwnSaver
  cases hrun : pull { s with saver := .makeInstance } with
  | ok a s' =>
      rw [hrun] at hresult
      obtain ⟨g, hg, hpost⟩ := hresult
      exact ⟨{ g with saver := saver }, ⟨hg.rest, hg.buffered, hg.inside, hsaver⟩, hpost⟩
  | error e s' =>
      rw [hrun] at hresult
      obtain ⟨g, hg, hpost⟩ := hresult
      exact ⟨{ g with saver := saver }, ⟨hg.rest, hg.buffered, hg.inside, hsaver⟩, hpost⟩

theorem Lexes.length_lt {more rest : Bytes} {r : Except TokenizerError Token}
    (h : Lexes doubles allowComments more r rest) (hr : r ≠ .ok .end_) :
    rest.length < more.length := by
  have hle := h.suffix.length_le
  cases more with
  | nil =>
      cases h
      exact absurd rfl hr
  | cons b more =>
      rw [List.tail_cons] at hle
      rw [List.length_cons]
      omega

theorem numberResult_error {s : Bytes} {containedDecimalOrE : Bool} {e : TokenizerError}
    (h : numberResult doubles s containedDecimalOrE = .error e) :
    e = .problem s "_invalid number: " true := by
  unfold numberResult at h
  split at h
  · split at h <;> cases h
    rfl
  · split at h <;> cases h
    rfl

theorem Lexes.error_eq {more rest : Bytes} {e : TokenizerError}
    (h : Lexes doubles allowComments more (.error e) rest) :
    ∃ what message suggestQuotes, e = .problem what message suggestQuotes := by
  generalize hr : Except.error e = r at h
  cases h with
  | number => exact ⟨_, _, _, numberResult_error hr.symm⟩
  | problem _ what message suggestQuotes =>
      cases hr
      exact ⟨what, message, suggestQuotes, rfl⟩
  | _ => cases hr

theorem skip_suffix (more : Bytes) : (more.dropWhile isBlank).tail <:+ more :=
  (List.tail_suffix _).trans (List.dropWhile_suffix isBlank)

-- A substitution is closed, or the text up to where it ends is a problem.
def ClosesSubstitution (more : Bytes) : Except TokenizerError Token → Place → Prop
  | .ok t, g => g.more <:+ more ∧ g.room ≤ 2 ∧ ∃ optional expression, t = .substitution optional expression
  | .error (.problem _ _ _), g => g.more <:+ more ∧ g.room ≤ 2
  | .error (.exception _), _ => False

theorem ClosesSubstitution.trans {more more' : Bytes} {r : Except TokenizerError Token} {g : Place}
    (h : ClosesSubstitution more r g) (hmore : more <:+ more') : ClosesSubstitution more' r g := by
  cases r with
  | ok t => exact ⟨h.1.trans hmore, h.2⟩
  | error e =>
      cases e with
      | problem => exact ⟨h.1.trans hmore, h.2⟩
      | exception => exact h

theorem results_pullSubstitutionLoop {pullNext : Pull Token} {whole : Bytes}
    (hnext : ∀ more saver, more <:+ whole → Results At pullNext ⟨more, 2, saver⟩
      (Lexing doubles allowComments (more.dropWhile isBlank) (saver.save (more.takeWhile isBlank))))
    (n : ℕ) (optional : Bool) (expression : List Token) {more : Bytes} (hmore : more <:+ whole)
    (saver : WhitespaceSaver) (hn : more.length < n) :
    Results At (pullSubstitutionLoop pullNext n optional expression) ⟨more, 2, saver⟩
      (ClosesSubstitution more) := by
  induction n generalizing expression more saver with
  | zero => omega
  | succ n ih =>
      refine Results.bind (hnext more saver hmore) ?_ ?_
      · rintro t ⟨rest, room, saver'⟩ ⟨hroom, hsaver, hlexes⟩
        have hsuffix : rest <:+ more := hlexes.suffix.trans (skip_suffix more)
        have hother : t ≠ .end_ → Results At (do
              let whitespace ← checkWhitespace t
              pullSubstitutionLoop pullNext n optional (expression ++ whitespace.toList ++ [t]))
            ⟨rest, room, saver'⟩ (ClosesSubstitution more) := by
          intro ht
          have hlt := hlexes.length_lt (by simpa using ht)
          have hle := (List.dropWhile_suffix (l := more) isBlank).length_le
          dsimp only at hlt
          refine Results.bind_runs
            (runs_weaken (runs_checkWhitespace t rest room saver') hroom) ?_
          refine Results.imp (ih _ (hsuffix.trans hmore) _ (by omega)) fun r g h => ?_
          exact h.trans hsuffix
        cases t with
        | closeCurly => exact Results.pure ⟨hsuffix, hroom, optional, expression, rfl⟩
        | end_ => exact Results.throw ⟨hsuffix, hroom⟩
        | _ => exact hother nofun
      · rintro e ⟨rest, room, saver'⟩ ⟨hroom, hsaver, hlexes⟩
        obtain ⟨what, message, suggestQuotes, rfl⟩ := hlexes.error_eq
        exact ⟨hlexes.suffix.trans (skip_suffix more), hroom⟩

theorem results_pullSubstitution {pullNext : Pull Token} {more : Bytes}
    (hnext : ∀ more' saver, more' <:+ more → Results At pullNext ⟨more', 2, saver⟩
      (Lexing doubles allowComments (more'.dropWhile isBlank)
        (saver.save (more'.takeWhile isBlank)))) (saver : WhitespaceSaver) :
    Results At (pullSubstitution pullNext) ⟨more, 1, saver⟩
      (Lexing doubles allowComments (36 :: more) saver) := by
  refine Results.bind_runs (runs_next more saver) ?_
  refine Results.ite (fun _ => ?_) fun hc => ?_
  · exact Results.throw ⟨by dsimp only; omega, rfl, .problem (by decide) _ _ _
      (List.tail_suffix more) nofun (fun h => absurd h (by decide))⟩
  · rw [not_not] at hc
    obtain ⟨b, rest, rfl, hb⟩ := peek_ne_eof more (by rw [hc]; decide)
    obtain rfl : b = 123 := readChar_inj (hb.symm.trans (hc.trans (by decide)))
    have hloop : ∀ (optional : Bool) (rest' : Bytes), rest' <:+ rest → Results At
        (withOwnSaver do pullSubstitutionLoop pullNext (← rounds) optional [])
        ⟨rest', 2, saver⟩ (Lexing doubles allowComments (36 :: 123 :: rest) saver) := by
      intro optional rest' hrest
      refine results_withOwnSaver (results_rounds fun n hn => ?_)
      refine Results.imp (results_pullSubstitutionLoop hnext n optional []
        (hrest.trans (List.suffix_cons 123 rest)) _ hn) fun r g h => ?_
      cases r with
      | ok t =>
          obtain ⟨hsuffix, hroom, optional, expression, rfl⟩ := h
          exact ⟨hroom, rfl, .substitution optional expression (hsuffix.trans hrest)⟩
      | error e =>
          cases e with
          | problem what message suggestQuotes =>
              exact ⟨h.2, rfl, .problem (by decide) what message suggestQuotes
                ((h.1.trans hrest).trans (List.suffix_cons 123 rest)) nofun
                (fun h => absurd h (by decide))⟩
          | exception => exact h.elim
    refine Results.bind_runs (runs_next rest saver) ?_
    dsimp only
    by_cases hoptional : peek rest = 63
    · rw [if_neg (by simpa using hoptional)]
      have hweak := hloop (decide (peek rest = 63)) rest.tail (List.tail_suffix rest)
      exact fun s hs => hweak s (hs.weaken (Nat.le_succ 1))
    · rw [if_pos (by simpa using hoptional)]
      refine Results.bind_runs (runs_putBack rest saver (by omega)) ?_
      exact hloop (decide (peek rest = 63)) rest List.suffix_rfl

-- Each substitution takes two bytes, so that there are levels enough.
theorem results_pullNextToken (depth : ℕ) (more : Bytes) (saver : WhitespaceSaver)
    (hdepth : more.length < depth) :
    Results At (pullNextToken doubles allowComments depth) ⟨more, 2, saver⟩
      (Lexing doubles allowComments (more.dropWhile isBlank)
        (saver.save (more.takeWhile isBlank))) := by
  induction depth generalizing more saver with
  | zero => omega
  | succ depth ih =>
      refine results_pullToken _ more saver fun rest hrest => ?_
      refine results_pullSubstitution ?_ _
      intro more' saver' hmore
      have hlength := congrArg List.length hrest
      rw [List.length_cons] at hlength
      have hle := (List.dropWhile_suffix (l := more) isBlank).length_le
      have hle' := hmore.length_le
      exact ih more' saver' (by omega)

-- One call: the blanks are passed, and a token with what is left behind it is queued.
def Queues (doubles : Doubles) (allowComments : Bool) (more : Bytes) (saver : WhitespaceSaver) :
    Except TokenizerError (Option Token × Token) → Place → Prop
  | .ok (whitespace, t), g =>
      Lexes doubles allowComments (more.dropWhile isBlank) (.ok t) g.more ∧ g.room ≤ 2 ∧
        g.saver = .after t ∧ whitespace = (saver.save (more.takeWhile isBlank)).before t
  | .error e, g =>
      Lexes doubles allowComments (more.dropWhile isBlank) (.error e) g.more ∧ g.room ≤ 2

theorem results_queueNextToken (doubles : Doubles) (allowComments : Bool) (more : Bytes)
    (saver : WhitespaceSaver) :
    Results At (queueNextToken doubles allowComments) ⟨more, 2, saver⟩
      (Queues doubles allowComments more saver) := by
  refine results_rounds fun n hn => ?_
  refine Results.bind (results_pullNextToken n more saver hn) ?_ ?_
  · rintro t ⟨rest, room, saver'⟩ ⟨hroom, rfl, hlexes⟩
    refine Results.bind_runs (runs_checkWhitespace t rest room _) ?_
    exact Results.pure ⟨hlexes, hroom, rfl, rfl⟩
  · rintro e ⟨rest, room, saver'⟩ ⟨hroom, _, hlexes⟩
    exact ⟨hlexes, hroom⟩

end

-- A value that the token stream makes.
def Value.isScalar : Value Unit → Bool
  | .configNull _ | .configBoolean _ _ | .configInt _ _ _ | .configInt64 _ _ _
  | .configDouble _ _ | .configString _ _ => true
  | _ => false

-- A token before the end.
def Token.isInner : Token → Bool
  | .start | .end_ | .thrown _ => false
  | .value v => v.isScalar
  | _ => true

-- The bytes that were not read yet. -1 is no byte but the end of the input.
def TokenStream.unread (s : TokenStream) : ℕ := (s.rest.filter (· ≠ -1)).length

section

variable {doubles : Doubles} {allowComments : Bool}

theorem newNumber_isScalar (n : Int64) (s : Bytes) : (newNumber () n s).isScalar = true := by
  unfold newNumber
  split <;> rfl

theorem numberResult_isInner {s : Bytes} {containedDecimalOrE : Bool} {t : Token}
    (h : numberResult doubles s containedDecimalOrE = .ok t) : t.isInner = true := by
  unfold numberResult at h
  split at h
  · split at h <;> cases h
    · rfl
    · exact newNumber_isScalar _ s
  · split at h <;> cases h
    exact newNumber_isScalar _ s

theorem wordToken_isInner {sb : Bytes} {t : Token} (h : wordToken sb = some t) :
    t.isInner = true := by
  unfold wordToken at h
  split at h
  · cases h
    rfl
  · split at h
    · cases h
      rfl
    · split at h <;> cases h
      rfl

theorem scanUnquoted_isInner (sb more : Bytes) :
    (scanUnquoted allowComments sb more).1.isInner = true := by
  induction more generalizing sb with
  | nil => rfl
  | cons b more ih =>
      rw [scanUnquoted]
      split
      · rfl
      · split
        · rename_i word hword
          exact wordToken_isInner hword
        · exact ih (sb ++ [b])

theorem Lexes.isInner {more rest : Bytes} {t : Token}
    (h : Lexes doubles allowComments more (.ok t) rest) (ht : t ≠ .end_) : t.isInner = true := by
  generalize hr : Except.ok t = r at h
  cases h with
  | last | eof =>
      cases hr
      exact absurd rfl ht
  | punctuation h =>
      cases hr
      cases h <;> rfl
  | number => exact numberResult_isInner hr.symm
  | unquoted =>
      cases hr
      exact scanUnquoted_isInner _ _
  | plusEquals | comment | string | tripleQuoted | substitution =>
      cases hr
      rfl
  | problem => cases hr

theorem Lexes.head_ne {b : UInt8} {more rest : Bytes} {r : Except TokenizerError Token}
    (h : Lexes doubles allowComments (b :: more) r rest) (hr : r ≠ .ok .end_) : b ≠ 255 := by
  rintro rfl
  cases h with
  | eof => exact hr rfl
  | punctuation h => cases h
  | comment h => simp [startsComment] at h
  | number _ hb => cases hb
  | unquoted hb => cases hb
  | problem hb => cases hb

theorem At.unread_eq {s : TokenStream} {g : Place} (h : At s g) :
    s.unread = g.more.countP (· ≠ 255) := by
  obtain ⟨ends, hrest⟩ := h.rest
  have hends : (List.replicate ends (-1 : ℤ)).countP (· ≠ -1) = 0 := by
    rw [List.countP_eq_zero]
    intro c hc
    rw [List.eq_of_mem_replicate hc]
    decide
  rw [TokenStream.unread, ← List.countP_eq_length_filter, hrest, List.countP_append, hends,
    Nat.add_zero, List.countP_map]
  apply List.countP_congr
  intro b _
  simp [readChar_eof_iff]

theorem Lexes.countP_lt {more rest : Bytes} {r : Except TokenizerError Token}
    (h : Lexes doubles allowComments (more.dropWhile isBlank) r rest) (hr : r ≠ .ok .end_) :
    rest.countP (· ≠ 255) < more.countP (· ≠ 255) := by
  have hskip := (List.dropWhile_suffix (l := more) isBlank).sublist.countP_le (p := (· ≠ 255))
  have hle := h.suffix.sublist.countP_le (p := (· ≠ 255))
  generalize more.dropWhile isBlank = left at h hskip hle
  cases left with
  | nil =>
      cases h
      exact absurd rfl hr
  | cons b left =>
      have hb : decide (b ≠ 255) = true := decide_eq_true (h.head_ne hr)
      rw [List.countP_cons, hb, if_pos rfl] at hskip
      rw [List.tail_cons] at hle
      omega

variable (doubles allowComments)

-- The states that calls of `next` come to before the end was delivered.
inductive Reached (input : Bytes) : TokenStream → Prop
  | start : Reached input (.ofString input)
  | token {s s' : TokenStream} {whitespace : Option Token} {t : Token} (h : Reached input s)
      (hnext : queueNextToken doubles allowComments s = .ok (whitespace, t) s') (ht : t ≠ .end_) :
      Reached input s'
  | problem {s s' : TokenStream} {what : Bytes} {message : String} {suggestQuotes : Bool}
      (h : Reached input s) (hnext : queueNextToken doubles allowComments s =
        .error (.problem what message suggestQuotes) s') :
      Reached input s'

-- One call of `next` takes a byte for the token that it delivers, unless that is the end.
def Advances (s : TokenStream) : Prop :=
  match queueNextToken doubles allowComments s with
  | .ok (_, t) s' => t ≠ .end_ → s'.unread < s.unread
  | .error (.problem _ _ _) s' => s'.unread < s.unread
  | .error (.exception _) _ => False

variable {doubles allowComments}

theorem At.advances {s : TokenStream} {more : Bytes} {saver : WhitespaceSaver}
    (h : At s ⟨more, 2, saver⟩) : Advances doubles allowComments s := by
  have hresult := results_queueNextToken doubles allowComments more saver s h
  unfold Advances
  cases hnext : queueNextToken doubles allowComments s with
  | ok result s' =>
      obtain ⟨whitespace, t⟩ := result
      rw [hnext] at hresult
      obtain ⟨g, hg, hlexes, _⟩ := hresult
      intro ht
      rw [h.unread_eq, hg.unread_eq]
      exact hlexes.countP_lt (by simpa using ht)
  | error e s' =>
      rw [hnext] at hresult
      obtain ⟨g, hg, hlexes, _⟩ := hresult
      obtain ⟨what, message, suggestQuotes, rfl⟩ := hlexes.error_eq
      dsimp only
      rw [h.unread_eq, hg.unread_eq]
      exact hlexes.countP_lt nofun

theorem TokenStream.ofString_at (input : Bytes) :
    At (.ofString input) ⟨input, 2, .makeInstance⟩ := by
  refine ⟨⟨0, ?_⟩, Nat.zero_le 2, Nat.zero_le _, rfl⟩
  rw [List.replicate_zero, List.append_nil]
  rfl

-- What is left at a state is an end of the input.
theorem Reached.suffix {input : Bytes} {s : TokenStream} (h : Reached doubles allowComments input s) :
    ∃ more saver, At s ⟨more, 2, saver⟩ ∧ more <:+ input := by
  induction h with
  | start => exact ⟨input, .makeInstance, TokenStream.ofString_at input, List.suffix_rfl⟩
  | token h hnext ht ih =>
      obtain ⟨more, saver, hat, hmore⟩ := ih
      have hresult := results_queueNextToken doubles allowComments more saver _ hat
      rw [hnext] at hresult
      obtain ⟨⟨more', room', saver'⟩, hg, hlexes, hroom, _⟩ := hresult
      exact ⟨more', saver', hg.weaken hroom, hlexes.suffix.trans ((skip_suffix more).trans hmore)⟩
  | problem h hnext ih =>
      obtain ⟨more, saver, hat, hmore⟩ := ih
      have hresult := results_queueNextToken doubles allowComments more saver _ hat
      rw [hnext] at hresult
      obtain ⟨⟨more', room', saver'⟩, hg, hlexes, hroom⟩ := hresult
      exact ⟨more', saver', hg.weaken hroom, hlexes.suffix.trans ((skip_suffix more).trans hmore)⟩

-- The tokens from a place on: the end comes once, after all others.
def Ended (ts : List Token) : Prop :=
  ∃ front, ts = front ++ [.end_] ∧ ∀ t ∈ front, Token.isInner t = true

theorem Ended.append {ts : List Token} (h : Ended ts) {front : List Token}
    (hfront : ∀ t ∈ front, Token.isInner t = true) : Ended (front ++ ts) := by
  obtain ⟨front', rfl, hfront'⟩ := h
  refine ⟨front ++ front', by rw [List.append_assoc], ?_⟩
  intro t ht
  rcases List.mem_append.mp ht with ht | ht
  · exact hfront t ht
  · exact hfront' t ht

theorem Ended.cons {ts : List Token} (h : Ended ts) {t : Token} (ht : t.isInner = true) :
    Ended (t :: ts) := by
  obtain ⟨front, rfl, hfront⟩ := h
  exact ⟨t :: front, rfl, List.forall_mem_cons.mpr ⟨ht, hfront⟩⟩

theorem WhitespaceSaver.before_isInner (saver : WhitespaceSaver) (t : Token) :
    ∀ t' ∈ (saver.before t).toList, Token.isInner t' = true := by
  intro t' ht'
  unfold before at ht'
  split at ht'
  · obtain rfl := List.mem_singleton.mp ht'
    rfl
  · cases ht'

theorem deliver_ended (n : ℕ) {s : TokenStream} {more : Bytes} {saver : WhitespaceSaver}
    (h : At s ⟨more, 2, saver⟩) (hn : more.length < n) :
    Ended (deliver doubles allowComments n s) := by
  induction n generalizing s more saver with
  | zero => omega
  | succ n ih =>
      have hresult := results_queueNextToken doubles allowComments more saver s h
      have hle := (List.dropWhile_suffix (l := more) isBlank).length_le
      have hlast : ∀ whitespace : Option Token, (∀ t ∈ whitespace.toList, t.isInner = true) →
          Ended (whitespace.toList ++ [.end_]) := fun whitespace h => ⟨_, rfl, h⟩
      rw [deliver]
      cases hnext : queueNextToken doubles allowComments s with
      | ok result s' =>
          obtain ⟨whitespace, t⟩ := result
          rw [hnext] at hresult
          obtain ⟨⟨more', room', saver'⟩, hg, hlexes, hroom, _, rfl⟩ := hresult
          have hwhitespace := (saver.save (more.takeWhile isBlank)).before_isInner t
          have hother : t ≠ .end_ →
              Ended (((saver.save (more.takeWhile isBlank)).before t).toList ++
                t :: deliver doubles allowComments n s') := by
            intro ht
            have hlt := hlexes.length_lt (by simpa using ht)
            dsimp only at hlt
            have hrest := ih (hg.weaken hroom) (by omega)
            exact (hrest.cons (hlexes.isInner ht)).append hwhitespace
          cases t with
          | end_ => exact hlast _ hwhitespace
          | _ => exact hother nofun
      | error e s' =>
          rw [hnext] at hresult
          obtain ⟨⟨more', room', saver'⟩, hg, hlexes, hroom⟩ := hresult
          obtain ⟨what, message, suggestQuotes, rfl⟩ := hlexes.error_eq
          have hlt := hlexes.length_lt nofun
          dsimp only at hlt
          exact (ih (hg.weaken hroom) (by omega)).cons rfl

theorem tokenize_ended (doubles : Doubles) (input : Bytes) (flavor : ConfigSyntax) :
    ∃ ts, tokenize doubles input flavor = .start :: ts ∧ Ended ts :=
  ⟨_, rfl, deliver_ended (input.length + 1) (TokenStream.ofString_at input) (Nat.lt_succ_self _)⟩

end

end AsrServiceProxy.Config

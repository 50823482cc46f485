import AsrServiceProxy.Config.Tokenizer.Lines
import AsrServiceProxy.Lib.Runs

-- The newlines that the pull functions take from the input on their own, which the
-- line number does not count.
namespace AsrServiceProxy.Config

open CMemory Simulation

-- Where a quoted string is read. `digits n` is before the last `n + 1` characters of an
-- escape `\u`.
inductive StringMode where
  | inside
  | escaped
  | digits (n : ℕ)
  | finished

def StringMode.next : StringMode → ℤ → StringMode
  | inside, c =>
      if c = 92 then escaped else if c = -1 || c = 34 || iscntrl (toChar c) then finished else inside
  | escaped, c =>
      if c = 117 then digits 3
      else if [34, 92, 47, 98, 102, 110, 114, 116].contains c then inside else finished
  | digits 0, c => if c = -1 then finished else inside
  | digits (n + 1), c => if c = -1 then finished else digits n
  | finished, _ => finished

-- The characters that are read up to the end of the string, or up to a problem.
def StringMode.text : StringMode → List ℤ → List ℤ
  | finished, _ => []
  | _, [] => []
  | mode, c :: rest => c :: (mode.next c).text rest

-- The same between three quotes, with the quotes that were just read.
def tripleText : ℕ → List ℤ → List ℤ
  | _, [] => []
  | quotes, c :: rest =>
      if c = 34 then c :: tripleText (quotes + 1) rest
      else if 3 ≤ quotes then []
      else if c = -1 then [c]
      else c :: tripleText 0 rest

-- What is read behind an opening quote.
def stringText : List ℤ → List ℤ
  | 34 :: 34 :: rest => tripleText 0 rest
  | left => StringMode.inside.text left

-- The number of newlines left, and the saver in use.
def NewlinesLeft (n : ℕ) (saver : WhitespaceSaver) (s : TokenStream) : Prop :=
  s.rest.count 10 = n ∧ s.saver = saver

-- After a problem the reading goes on, and after another exception it does not.
def onProblem (post : TokenStream → Prop) : TokenizerError → TokenStream → Prop
  | .problem _ _ _, s => post s
  | .exception _, _ => True

-- A computation that takes no newline.
def KeepsLine {α : Type} (pull : Pull α) : Prop :=
  ∀ n saver s, NewlinesLeft n saver s →
    RunsTo pull s (fun _ => NewlinesLeft n saver) (onProblem (NewlinesLeft n saver))

-- `s'` is the stream behind the next character.
structure TakesNext (s : TokenStream) (c : ℤ) (s' : TokenStream) : Prop where
  saver : s'.saver = s.saver
  rest : s.rest = c :: s'.rest ∨ s.rest = [] ∧ c = -1 ∧ s'.rest = []

section

variable {α β : Type} {n : ℕ} {saver : WhitespaceSaver} {s s' : TokenStream} {c : ℤ}

theorem TakesNext.count (h : TakesNext s c s') : (c :: s'.rest).count 10 = s.rest.count 10 := by
  rcases h.rest with hrest | ⟨hrest, rfl, hrest'⟩
  · rw [hrest]
  · rw [hrest, hrest']
    rfl

theorem TakesNext.keeps (h : TakesNext s c s') (hs : NewlinesLeft n saver s) (hc : c ≠ 10) :
    NewlinesLeft n saver s' := by
  refine ⟨?_, h.saver.trans hs.2⟩
  rw [← hs.1, ← h.count, List.count_cons_of_ne hc]

theorem runsTo_next {f : ℤ → Pull β} {post : β → TokenStream → Prop}
    {raised : TokenizerError → TokenStream → Prop}
    (h : ∀ c s', TakesNext s c s' → RunsTo (f c) s' post raised) :
    RunsTo (nextCharRaw >>= f) s post raised := by
  obtain ⟨rest, buffered, saver⟩ := s
  cases rest with
  | nil => exact h (-1) _ ⟨rfl, .inr ⟨rfl, rfl, rfl⟩⟩
  | cons c rest => exact h c _ ⟨rfl, .inl rfl⟩

theorem putBack_runsTo (c : ℤ) (s : TokenStream) (keep : TokenStream → Prop) :
    RunsTo (putBack c) s (fun _ s' => s'.rest = c :: s.rest ∧ s'.saver = s.saver)
      (onProblem keep) := by
  unfold putBack RunsTo
  dsimp only
  by_cases hroom : s.buffered > 2
  · rw [if_pos hroom]
    trivial
  · rw [if_neg hroom]
    exact ⟨rfl, rfl⟩

-- The character that was read last is put back.
theorem runsTo_putBack {f : Unit → Pull β} {post : β → TokenStream → Prop}
    {keep : TokenStream → Prop} (h : ∀ s', s'.rest = c :: s.rest → s'.saver = s.saver →
      RunsTo (f ()) s' post (onProblem keep)) :
    RunsTo (putBack c >>= f) s post (onProblem keep) :=
  (putBack_runsTo c s keep).bind fun _ s' _ hs' => h s' hs'.1 hs'.2

theorem TakesNext.putBack (h : TakesNext s c s') (hs : NewlinesLeft n saver s) {s'' : TokenStream}
    (hrest : s''.rest = c :: s'.rest) (hsaver : s''.saver = s'.saver) : NewlinesLeft n saver s'' :=
  ⟨by rw [hrest, h.count, hs.1], hsaver.trans (h.saver.trans hs.2)⟩

theorem keepsLine_pure (a : α) : KeepsLine (pure a : Pull α) := fun _ _ _ hs => hs

theorem keepsLine_problem (what : Bytes) (message : String) (suggestQuotes : Bool) :
    KeepsLine (problem what message suggestQuotes : Pull α) := fun _ _ _ hs => hs

theorem keepsLine_rounds {f : ℕ → Pull β} (hf : ∀ n, KeepsLine (f n)) : KeepsLine (rounds >>= f) :=
  fun n saver s hs => hf (s.rest.length + 1) n saver s hs

theorem keepsLine_startOfComment (allowComments : Bool) (c : ℤ) :
    KeepsLine (startOfComment allowComments c) := by
  intro n saver s hs
  unfold startOfComment
  refine RunsTo.ite (fun _ => hs) fun _ => RunsTo.ite (fun _ => hs) fun _ => ?_
  refine RunsTo.ite (fun _ => hs) fun _ => RunsTo.ite (fun _ => ?_) fun _ => hs
  refine runsTo_next fun second s' hread => runsTo_putBack fun s'' hrest hsaver => ?_
  exact hread.putBack hs hrest hsaver

theorem keepsLine_pullCommentLoop (k : ℕ) (text : Bytes) : KeepsLine (pullCommentLoop k text) := by
  induction k generalizing text with
  | zero => exact fun _ _ _ _ => trivial
  | succ k ih =>
      intro n saver s hs
      rw [pullCommentLoop]
      refine runsTo_next fun c s' hread => RunsTo.ite (fun _ => ?_) fun hc => ?_
      · exact runsTo_putBack fun s'' hrest hsaver => hread.putBack hs hrest hsaver
      · rw [Bool.or_eq_true, not_or] at hc
        exact ih _ n saver s' (hread.keeps hs (by simpa using hc.2))

theorem keepsLine_pullComment (firstChar : ℤ) : KeepsLine (pullComment firstChar) := by
  have hloop : KeepsLine (do pullCommentLoop (← rounds) []) :=
    keepsLine_rounds fun k => keepsLine_pullCommentLoop k []
  intro n saver s hs
  unfold pullComment
  refine RunsTo.ite (fun _ => ?_) fun _ => hloop n saver s hs
  refine runsTo_next fun discard s' hread => RunsTo.ite (fun _ => trivial) fun hslash => ?_
  refine hloop n saver s' (hread.keeps hs ?_)
  rw [not_not] at hslash
  rw [hslash]
  decide

theorem ne_newline_of_not_isWhitespace (hc : ¬isWhitespace c = true) : c ≠ 10 := by
  rintro rfl
  exact hc (by decide)

-- The character that was read last is `c`.
theorem runsTo_pullUnquotedTextLoop (allowComments : Bool) (k : ℕ) (sb : Bytes) (c : ℤ)
    (hcount : (c :: s.rest).count 10 = n) (hsaver : s.saver = saver) :
    RunsTo (pullUnquotedTextLoop allowComments k sb c) s (fun _ => NewlinesLeft n saver)
      (onProblem (NewlinesLeft n saver)) := by
  induction k generalizing sb c s with
  | zero => trivial
  | succ k ih =>
      rw [pullUnquotedTextLoop]
      have hends : ∀ s', NewlinesLeft (s.rest.count 10) saver s' →
          RunsTo (do putBack c; return Token.unquotedText sb) s' (fun _ => NewlinesLeft n saver)
            (onProblem (NewlinesLeft n saver)) := by
        rintro s' ⟨hcount', hsaver'⟩
        refine runsTo_putBack fun s'' hrest hsaver'' => ?_
        refine ⟨?_, hsaver''.trans hsaver'⟩
        rw [hrest, ← hcount, List.count_cons, List.count_cons, hcount']
      refine RunsTo.ite (fun _ => hends s ⟨rfl, hsaver⟩) fun hc => ?_
      simp only [Bool.or_eq_true, not_or] at hc
      rw [List.count_cons_of_ne (ne_newline_of_not_isWhitespace hc.2)] at hcount
      have hcomment := keepsLine_startOfComment allowComments c n saver s ⟨hcount, hsaver⟩
      refine hcomment.bind fun stop s' _ hs' => RunsTo.ite (fun _ => ?_) fun _ => ?_
      · exact hends s' (hcount ▸ hs')
      · dsimp only
        cases wordToken (sb ++ [toChar c]) with
        | some word => exact hs'
        | none =>
            refine runsTo_next fun c s'' hread => ?_
            exact ih _ c (hread.count.trans hs'.1) (hread.saver.trans hs'.2)

theorem keepsLine_pullUnquotedText (allowComments : Bool) :
    KeepsLine (pullUnquotedText allowComments) := by
  intro n saver s hs
  unfold pullUnquotedText
  refine runsTo_next fun c s' hread => ?_
  exact runsTo_pullUnquotedTextLoop allowComments _ [] c (hread.count.trans hs.1)
    (hread.saver.trans hs.2)

theorem keepsLine_numberToken (doubles : Doubles) (text : Bytes) (containedDecimalOrE : Bool) :
    KeepsLine (numberToken doubles text containedDecimalOrE) := by
  unfold numberToken
  split
  · split
    · exact keepsLine_problem _ _ _
    · exact keepsLine_pure _
    · exact keepsLine_pure _
  · split
    · exact keepsLine_problem _ _ _
    · exact keepsLine_pure _

theorem runsTo_pullNumberLoop (doubles : Doubles) (k : ℕ) (text : Bytes)
    (containedDecimalOrE : Bool) (c : ℤ) (hcount : (c :: s.rest).count 10 = n) (hsaver : s.saver = saver) :
    RunsTo (pullNumberLoop doubles k text containedDecimalOrE c) s (fun _ => NewlinesLeft n saver)
      (onProblem (NewlinesLeft n saver)) := by
  induction k generalizing text containedDecimalOrE c s with
  | zero => trivial
  | succ k ih =>
      rw [pullNumberLoop]
      refine RunsTo.ite (fun hc => ?_) fun _ => ?_
      · have hnewline : c ≠ 10 := by
          rintro rfl
          exact absurd hc (by decide)
        rw [List.count_cons_of_ne hnewline] at hcount
        refine runsTo_next fun c s' hread => ?_
        exact ih _ _ c (hread.count.trans hcount) (hread.saver.trans hsaver)
      · refine runsTo_putBack fun s' hrest hsaver' => ?_
        exact keepsLine_numberToken doubles text containedDecimalOrE n saver s'
          ⟨by rw [hrest, hcount], hsaver'.trans hsaver⟩

theorem keepsLine_pullNumber (doubles : Doubles) (firstChar : ℤ) :
    KeepsLine (pullNumber doubles firstChar) := by
  intro n saver s hs
  unfold pullNumber
  refine runsTo_next fun c s' hread => ?_
  exact runsTo_pullNumberLoop doubles _ _ false c (hread.count.trans hs.1) (hread.saver.trans hs.2)

theorem TakesNext.clean {mode : StringMode} (h : TakesNext s c s')
    (hs : (10 : ℤ) ∉ mode.text s.rest) (hmode : mode ≠ .finished) :
    c ≠ 10 ∧ (10 : ℤ) ∉ (mode.next c).text s'.rest := by
  rcases h.rest with hrest | ⟨_, rfl, hrest'⟩
  · rw [hrest] at hs
    have hcons : mode.text (c :: s'.rest) = c :: (mode.next c).text s'.rest := by
      cases mode <;> first | rfl | exact absurd rfl hmode
    rw [hcons, List.mem_cons, not_or] at hs
    exact ⟨hs.1 ∘ Eq.symm, hs.2⟩
  · rw [hrest']
    refine ⟨by decide, ?_⟩
    cases mode.next (-1) <;> exact List.not_mem_nil

theorem runsTo_pullDigits (k : ℕ) (digits : Bytes) (hs : NewlinesLeft n saver s)
    (hclean : (10 : ℤ) ∉ (StringMode.digits k).text s.rest) :
    RunsTo (pullDigits (k + 1) digits) s
      (fun _ s' => NewlinesLeft n saver s' ∧ (10 : ℤ) ∉ StringMode.inside.text s'.rest)
      (onProblem (NewlinesLeft n saver)) := by
  induction k generalizing digits s with
  | zero =>
      rw [pullDigits]
      refine runsTo_next fun c s' hread => ?_
      obtain ⟨hc, hclean'⟩ := hread.clean hclean nofun
      refine RunsTo.ite (fun _ => hread.keeps hs hc) fun heof => ?_
      rw [StringMode.next, if_neg heof] at hclean'
      exact ⟨hread.keeps hs hc, hclean'⟩
  | succ k ih =>
      rw [pullDigits]
      refine runsTo_next fun c s' hread => ?_
      obtain ⟨hc, hclean'⟩ := hread.clean hclean nofun
      refine RunsTo.ite (fun _ => hread.keeps hs hc) fun heof => ?_
      rw [StringMode.next, if_neg heof] at hclean'
      exact ih _ (hread.keeps hs hc) hclean'

theorem runsTo_pullEscapeSequence (text : Bytes) (hs : NewlinesLeft n saver s)
    (hclean : (10 : ℤ) ∉ StringMode.escaped.text s.rest) :
    RunsTo (pullEscapeSequence text) s
      (fun result s' => result ≠ [] ∧ NewlinesLeft n saver s' ∧
        (10 : ℤ) ∉ StringMode.inside.text s'.rest)
      (onProblem (NewlinesLeft n saver)) := by
  unfold pullEscapeSequence
  refine runsTo_next fun c s' hread => ?_
  obtain ⟨hc, hclean'⟩ := hread.clean hclean nofun
  have hkeeps := hread.keeps hs hc
  have hletter : ∀ (b : ℤ) (b' : UInt8), [34, 92, 47, 98, 102, 110, 114, 116].contains b = true →
      b ≠ 117 → c = b → RunsTo (pure (text ++ [b'])) s' (fun result s' => result ≠ [] ∧
        NewlinesLeft n saver s' ∧ (10 : ℤ) ∉ StringMode.inside.text s'.rest)
        (onProblem (NewlinesLeft n saver)) := by
    rintro b b' hb hu rfl
    rw [StringMode.next, if_neg hu, if_pos hb] at hclean'
    exact ⟨by simp, hkeeps, hclean'⟩
  refine RunsTo.ite (fun _ => hkeeps) fun _ => ?_
  refine RunsTo.ite (hletter 34 34 (by decide) (by decide)) fun _ => ?_
  refine RunsTo.ite (hletter 92 92 (by decide) (by decide)) fun _ => ?_
  refine RunsTo.ite (hletter 47 47 (by decide) (by decide)) fun _ => ?_
  refine RunsTo.ite (hletter 98 8 (by decide) (by decide)) fun _ => ?_
  refine RunsTo.ite (hletter 102 12 (by decide) (by decide)) fun _ => ?_
  refine RunsTo.ite (hletter 110 10 (by decide) (by decide)) fun _ => ?_
  refine RunsTo.ite (hletter 114 13 (by decide) (by decide)) fun _ => ?_
  refine RunsTo.ite (hletter 116 9 (by decide) (by decide)) fun _ => ?_
  refine RunsTo.ite (fun hu => ?_) fun _ => hkeeps
  rw [hu] at hclean'
  refine (runsTo_pullDigits 3 [] hkeeps hclean').bind fun digits s'' _ hs'' => ?_
  exact ⟨by simp, hs''⟩

theorem runsTo_pullQuotedLoop (k : ℕ) (text : Bytes) (hs : NewlinesLeft n saver s)
    (hclean : (10 : ℤ) ∉ StringMode.inside.text s.rest) :
    RunsTo (pullQuotedLoop k text) s
      (fun result s' => NewlinesLeft n saver s' ∧
        (text ≠ [] ∨ s.rest.head? ≠ some 34 → result ≠ []))
      (onProblem (NewlinesLeft n saver)) := by
  induction k generalizing text s with
  | zero => trivial
  | succ k ih =>
      rw [pullQuotedLoop]
      refine runsTo_next fun c s' hread => ?_
      obtain ⟨hc, hclean'⟩ := hread.clean hclean nofun
      have hkeeps := hread.keeps hs hc
      refine RunsTo.ite (fun _ => hkeeps) fun heof => ?_
      refine RunsTo.ite (fun hescape => ?_) fun hescape => ?_
      · rw [StringMode.next, if_pos hescape] at hclean'
        refine (runsTo_pullEscapeSequence text hkeeps hclean').bind fun text s'' _ hs'' => ?_
        refine (ih text hs''.2.1 hs''.2.2).imp fun result _ hresult => ?_
        exact ⟨hresult.1, fun _ => hresult.2 (.inl hs''.1)⟩
      refine RunsTo.ite (fun hquote => ?_) fun hquote => ?_
      · refine ⟨hkeeps, fun htext => htext.elim id fun hhead => absurd ?_ hhead⟩
        rcases hread.rest with hrest | ⟨_, hend, _⟩
        · rw [hrest, hquote]
          rfl
        · exact absurd hend heof
      refine RunsTo.ite (fun _ => hkeeps) fun hcontrol => ?_
      rw [StringMode.next, if_neg hescape, if_neg (by simp [heof, hquote, hcontrol])] at hclean'
      refine (ih _ hkeeps hclean').imp fun result s'' hresult => ?_
      exact ⟨hresult.1, fun _ => hresult.2 (.inl (by simp))⟩

theorem runsTo_appendTripleQuotedLoop (k : ℕ) (text : Bytes) (quotes : ℕ)
    (hs : NewlinesLeft n saver s) (hclean : (10 : ℤ) ∉ tripleText quotes s.rest) :
    RunsTo (appendTripleQuotedLoop k text quotes) s (fun _ => NewlinesLeft n saver)
      (onProblem (NewlinesLeft n saver)) := by
  induction k generalizing text quotes s with
  | zero => trivial
  | succ k ih =>
      rw [appendTripleQuotedLoop]
      refine runsTo_next fun c s' hread => ?_
      refine RunsTo.ite (fun hc => ?_) fun hc => RunsTo.ite (fun _ => ?_) fun hquotes => ?_
      · refine ih _ _ (hread.keeps hs (by rw [hc]; decide)) ?_
        rcases hread.rest with hrest | ⟨_, hend, hrest'⟩
        · rw [hrest, tripleText, if_pos hc, List.mem_cons, not_or] at hclean
          exact hclean.2
        · rw [hrest']
          exact List.not_mem_nil
      · exact runsTo_putBack fun s'' hrest hsaver => hread.putBack hs hrest hsaver
      refine RunsTo.ite (fun heof => hread.keeps hs (by rw [heof]; decide)) fun heof => ?_
      rcases hread.rest with hrest | ⟨_, hend, _⟩
      · rw [hrest, tripleText, if_neg hc, if_neg hquotes, if_neg heof, List.mem_cons,
          not_or] at hclean
        exact ih _ _ (hread.keeps hs (hclean.1 ∘ Eq.symm)) hclean.2
      · exact absurd hend heof

theorem runsTo_rounds {f : ℕ → Pull β} {post : β → TokenStream → Prop}
    {raised : TokenizerError → TokenStream → Prop}
    (h : RunsTo (f (s.rest.length + 1)) s post raised) : RunsTo (rounds >>= f) s post raised := h

-- Behind the opening quote a second one is either the end of the string or the second of
-- three.
theorem runsTo_pullQuotedString (hs : NewlinesLeft n saver s)
    (hclean : (10 : ℤ) ∉ stringText s.rest) :
    RunsTo pullQuotedString s (fun _ => NewlinesLeft n saver)
      (onProblem (NewlinesLeft n saver)) := by
  unfold pullQuotedString
  by_cases hhead : s.rest.head? = some 34
  · have hempty : RunsTo (pullQuotedLoop (s.rest.length + 1) []) s
        (fun text s' => text = [] ∧ TakesNext s 34 s') (onProblem (NewlinesLeft n saver)) := by
      obtain ⟨rest, buffered, saver'⟩ := s
      obtain ⟨more, rfl⟩ := List.head?_eq_some_iff.mp hhead
      exact ⟨rfl, rfl, .inl rfl⟩
    refine runsTo_rounds (hempty.bind fun text s' _ hs' => ?_)
    obtain ⟨rfl, hread⟩ := hs'
    refine RunsTo.ite (fun _ => ?_) fun hsome => absurd rfl hsome
    have hkeeps := hread.keeps hs (by decide)
    refine runsTo_next fun third s'' hread' => ?_
    refine RunsTo.ite (fun hthird => ?_) fun _ => ?_
    · have hclean' : (10 : ℤ) ∉ tripleText 0 s''.rest := by
        subst hthird
        rcases hread.rest with hrest | ⟨_, hend, _⟩
        · rcases hread'.rest with hrest' | ⟨_, hend, _⟩
          · rw [hrest, hrest', stringText] at hclean
            exact hclean
          · exact absurd hend (by decide)
        · exact absurd hend (by decide)
      have hkeeps' := hread'.keeps hkeeps (by rw [hthird]; decide)
      refine runsTo_rounds ((runsTo_appendTripleQuotedLoop _ [] 0 hkeeps' hclean').bind ?_)
      exact fun text _ _ hs => hs
    · exact runsTo_putBack fun s''' hrest hsaver => hread'.putBack hkeeps hrest hsaver
  · have hinside : stringText s.rest = StringMode.inside.text s.rest := by
      unfold stringText
      split
      · rename_i rest hrest
        exact absurd (congrArg List.head? hrest) hhead
      · rfl
    rw [hinside] at hclean
    refine runsTo_rounds ((runsTo_pullQuotedLoop _ [] hs hclean).bind fun text s' _ hs' => ?_)
    refine RunsTo.ite (fun hempty => ?_) fun _ => hs'.1
    exact absurd (List.isEmpty_iff.mp hempty) (hs'.2 (.inr hhead))

theorem TakesNext.ne_newline (h : TakesNext s c s') (hhead : s.rest.head? ≠ some 10) : c ≠ 10 := by
  rcases h.rest with hrest | ⟨_, rfl, _⟩
  · rintro rfl
    rw [hrest] at hhead
    exact hhead rfl
  · decide

theorem runsTo_pullPlusEquals (hs : NewlinesLeft n saver s) (hhead : s.rest.head? ≠ some 10) :
    RunsTo pullPlusEquals s (fun _ => NewlinesLeft n saver) (onProblem (NewlinesLeft n saver)) := by
  unfold pullPlusEquals
  refine runsTo_next fun c s' hread => ?_
  have hkeeps := hread.keeps hs (hread.ne_newline hhead)
  exact RunsTo.ite (fun _ => hkeeps) fun _ => hkeeps

theorem runsTo_startSubstitution (hs : NewlinesLeft n saver s) (hhead : s.rest.head? ≠ some 10) :
    RunsTo startSubstitution s (fun _ => NewlinesLeft n saver)
      (onProblem (NewlinesLeft n saver)) := by
  unfold startSubstitution
  refine runsTo_next fun c s' hread => ?_
  have hkeeps := hread.keeps hs (hread.ne_newline hhead)
  refine RunsTo.ite (fun _ => hkeeps) fun _ => runsTo_next fun c s'' hread' => ?_
  refine RunsTo.ite (fun _ => ?_) fun hoptional => ?_
  · exact runsTo_putBack fun s''' hrest hsaver => hread'.putBack hkeeps hrest hsaver
  · refine hread'.keeps hkeeps ?_
    rintro rfl
    exact hoptional (by decide)

-- The blanks before `c` have no newline.
structure Skips (s : TokenStream) (c : ℤ) (s' : TokenStream) : Prop where
  left : s.rest.dropWhile isWhitespaceNotNewline = c :: s'.rest ∨
    s.rest.dropWhile isWhitespaceNotNewline = [] ∧ c = -1
  count : (c :: s'.rest).count 10 = s.rest.count 10

theorem runsTo_nextCharAfterWhitespaceLoop (k : ℕ) :
    RunsTo (nextCharAfterWhitespaceLoop k) s (Skips s) (onProblem fun _ => False) := by
  induction k generalizing s with
  | zero => trivial
  | succ k ih =>
      rw [nextCharAfterWhitespaceLoop]
      refine runsTo_next fun c s' hread => RunsTo.ite (fun hblank => ?_) fun hblank => ?_
      · have hnewline : c ≠ 10 := by
          rintro rfl
          exact absurd hblank (by decide)
        have hrest : s.rest = c :: s'.rest := by
          rcases hread.rest with hrest | ⟨_, rfl, _⟩
          · exact hrest
          · exact absurd hblank (by decide)
        have hsave : RunsTo (saveWhitespace c) s' (fun _ s'' => s''.rest = s'.rest)
            (onProblem fun _ => False) := by
          unfold saveWhitespace RunsTo
          dsimp only
          split <;> rfl
        refine hsave.bind fun _ s'' _ hs'' => ih.imp fun c' s''' h => ?_
        obtain ⟨hleft, hcount⟩ := h
        rw [hs''] at hleft hcount
        refine ⟨?_, ?_⟩
        · rw [hrest, List.dropWhile_cons_of_pos hblank]
          exact hleft
        · rw [hrest, hcount, List.count_cons_of_ne hnewline]
      · refine ⟨?_, hread.count⟩
        rcases hread.rest with hrest | ⟨hrest, hend, _⟩
        · rw [hrest, List.dropWhile_cons_of_neg hblank]
          exact .inl rfl
        · rw [hrest]
          exact .inr ⟨rfl, hend⟩

theorem runsTo_nextCharAfterWhitespace :
    RunsTo nextCharAfterWhitespace s (Skips s) (onProblem fun _ => False) :=
  runsTo_rounds (runsTo_nextCharAfterWhitespaceLoop _)

end

end AsrServiceProxy.Config

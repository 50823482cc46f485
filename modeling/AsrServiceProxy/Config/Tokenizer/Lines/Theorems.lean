import AsrServiceProxy.Config.Tokenizer.Lines.Newlines
import AsrServiceProxy.Config.Tokenizer.Progress

-- The line numbers of the origins, against the newlines before the tokens.
namespace AsrServiceProxy.Config

open CMemory Simulation

-- The origin of a token at `more`: its line number is one more than the newlines before it.
-- The end of the input may be in what is left, when it was put back.
def Origin.Right (input : Bytes) (o : Origin) : Prop :=
  ∃ before more ends, input = before ++ more ∧
    o.left = more.map readChar ++ List.replicate ends (-1) ∧
    o.lineNumber.toInt = 1 + before.count 10

-- Where `pull_next_token` is called: by `queue_next_token`, or for a substitution, with
-- whether blanks were saved before it or before one that it is inside of.
inductive Level where
  | top
  | inside (blanksBefore : Bool)

def Level.blanksBefore : Level → Bool
  | top => false
  | inside blanksBefore => blanksBefore

section

variable (doubles : Doubles) (allowComments : Bool) (input : Bytes)

-- The states in which `pull_next_token` is called.
inductive Called : Level → TokenStream → Prop
  | start : Called .top (.ofString input)
  | next {level : Level} {s s' s'' : TokenStream} {depth : ℕ} {t : Token}
      {whitespace : Option Token} (h : Called level s)
      (hnext : pullNextToken doubles allowComments depth s = .ok t s')
      (ht : t ≠ .end_) (hclose : level ≠ .top → t ≠ .closeCurly)
      (hcheck : checkWhitespace t s' = .ok whitespace s'') : Called level s''
  | problem {s s' : TokenStream} {depth : ℕ} {what : Bytes} {message : String}
      {suggestQuotes : Bool} (h : Called .top s) (hnext : pullNextToken doubles allowComments depth s =
        .error (.problem what message suggestQuotes) s') : Called .top s'
  | substitution {level : Level} {s s' s'' : TokenStream} {optional : Bool} (h : Called level s)
      (hskip : nextCharAfterWhitespace s = .ok 36 s')
      (hstart : startSubstitution s' = .ok optional s'') :
      Called (.inside (level.blanksBefore || s'.saver.whitespace ≠ []))
        { s'' with saver := .makeInstance }

end

-- The newlines that the line number does not count: in a quoted string or right behind
-- `$` or `+`, and, for the blanks before a substitution, inside the substitution. Behind the
-- line of the largest int32_t there is no number left.
structure NoHiddenNewline (input : Bytes) (level : Level) (s : TokenStream) : Prop where
  text : ∀ rest, s.rest.dropWhile isWhitespaceNotNewline = 34 :: rest → (10 : ℤ) ∉ stringText rest
  next : ∀ c rest, s.rest.dropWhile isWhitespaceNotNewline = c :: rest → c = 36 ∨ c = 43 →
    rest.head? ≠ some 10
  blanks : level.blanksBefore = true → (s.rest.dropWhile isWhitespaceNotNewline).head? ≠ some 10
  number : (s.rest.dropWhile isWhitespaceNotNewline).head? = some 10 →
    input.count 10 - s.rest.count 10 + 1 < 2 ^ 31 - 1

theorem count_map_readChar (more : Bytes) : (more.map readChar).count 10 = more.count 10 :=
  List.count_map_of_injective more readChar (fun _ _ h => readChar_inj h) 10

-- The line number against what is left, and for the blanks that were saved.
structure CountsLines (input : Bytes) (s : LineStream) : Prop where
  count : s.lineNumber.toInt + s.stream.rest.count 10 = 1 + input.count 10
  blank : s.stream.saver.whitespace ≠ [] → Origin.Right input ⟨s.lineNumber, s.firstBlank⟩

-- What a call at line `line` gives. Behind a newline the saved blanks are dropped.
structure Pulled (input : Bytes) (level : Level) (line : Int32) (t : LocatedToken)
    (s : LineStream) : Prop where
  origins : ∀ o ∈ t.origins, o.Right input
  count : s.lineNumber.toInt + s.stream.rest.count 10 = 1 + input.count 10
  blank : t.token ≠ .newline → s.stream.saver.whitespace ≠ [] →
    Origin.Right input ⟨s.lineNumber, s.firstBlank⟩
  same : level.blanksBefore = true → s.lineNumber = line

def Raised (input : Bytes) (level : Level) (line : Int32) : LocatedError → LineStream → Prop
  | .problem _ _ _ origin, s =>
      origin.Right input ∧ CountsLines input s ∧ (level.blanksBefore = true → s.lineNumber = line)
  | .exception _, _ => True

section

variable {input : Bytes} {more : Bytes} {saver : WhitespaceSaver}

theorem toInt_add_one {n : Int32} (h : n.toInt < 2 ^ 31 - 1) : (n + 1).toInt = n.toInt + 1 := by
  have hge := n.le_toInt
  rw [Int32.toInt_add]
  exact Int.bmod_eq_of_le (by simp; omega) (by simp; omega)

theorem Origin.Right.count {o : Origin} (h : o.Right input) :
    o.lineNumber.toInt + o.left.count 10 = 1 + input.count 10 := by
  obtain ⟨before, more, ends, rfl, hleft, hline⟩ := h
  rw [hleft, hline, List.count_append, List.count_append, count_map_readChar,
    List.count_eq_zero.mpr fun h => absurd (List.eq_of_mem_replicate h) (by decide)]
  omega

theorem Origin.right_of_count {o : Origin} (hmore : more <:+ input)
    (hleft : ∃ ends, o.left = more.map readChar ++ List.replicate ends (-1))
    (hcount : o.lineNumber.toInt + o.left.count 10 = 1 + input.count 10) : o.Right input := by
  obtain ⟨before, rfl⟩ := hmore
  obtain ⟨ends, hleft⟩ := hleft
  refine ⟨before, more, ends, rfl, hleft, ?_⟩
  rw [hleft, List.count_append, List.count_append, count_map_readChar,
    List.count_eq_zero.mpr fun h => absurd (List.eq_of_mem_replicate h) (by decide)] at hcount
  omega

-- What `next_char_after_whitespace` comes to.
structure Skipped (input more : Bytes) (s : LineStream) (c : ℤ) (origin : Origin)
    (s' : LineStream) : Prop where
  run : nextCharAfterWhitespace s.stream = .ok c s'.stream
  skips : Skips s.stream c s'.stream
  lineNumber : s'.lineNumber = s.lineNumber
  origin : c ≠ -1 → origin.Right input
  blank : s'.stream.saver.whitespace ≠ [] → Origin.Right input ⟨s'.lineNumber, s'.firstBlank⟩
  place : ∃ saver', At s'.stream ⟨(more.dropWhile isBlank).tail, 1, saver'⟩
  here : peek (more.dropWhile isBlank) = c

theorem runsTo_skipBlanksAt {s : LineStream} (hs : CountsLines input s)
    (hat : At s.stream ⟨more, 2, saver⟩) (hmore : more <:+ input)
    {raised : LocatedError → LineStream → Prop} :
    RunsTo skipBlanksAt s (fun r => Skipped input more s r.1 r.2) raised := by
  obtain ⟨s', hrun, hat'⟩ := runs_nextCharAfterWhitespace more saver s.stream hat
  have hskips := runsTo_nextCharAfterWhitespace.of_ok hrun
  unfold RunsTo skipBlanksAt
  rw [hrun]
  refine ⟨hrun, hskips, rfl, fun hc => ?_, fun hblank => ?_, ⟨_, hat'⟩, rfl⟩
  · obtain ⟨b, rest, hrest, hb⟩ := peek_ne_eof _ hc
    obtain ⟨ends, hleft⟩ := hat'.rest
    refine Origin.right_of_count ((List.dropWhile_suffix isBlank).trans hmore) ⟨ends, ?_⟩ ?_
    · show peek (more.dropWhile isBlank) :: s'.rest = _
      rw [hleft, hb, hrest]
      rfl
    · exact (congrArg (s.lineNumber.toInt + ↑·) hskips.count).trans hs.count
  · show Origin.Right input ⟨s.lineNumber, if s.stream.saver.whitespace = [] then s.stream.rest
      else s.firstBlank⟩
    by_cases hnone : s.stream.saver.whitespace = []
    · rw [if_pos hnone]
      exact Origin.right_of_count hmore hat.rest hs.count
    · rw [if_neg hnone]
      exact hs.blank hnone

-- A pull function that keeps the newlines leaves the numbers right.
def Keeping (s s' : LineStream) : Prop :=
  NewlinesLeft (s.stream.rest.count 10) s.stream.saver s'.stream ∧ s'.lineNumber = s.lineNumber ∧
    s'.firstBlank = s.firstBlank

theorem CountsLines.keeping {s s' : LineStream} (hs : CountsLines input s) (h : Keeping s s') :
    CountsLines input s' := by
  obtain ⟨⟨hcount, hsaver⟩, hline, hblank⟩ := h
  refine ⟨?_, ?_⟩
  · rw [hline, hcount]
    exact hs.count
  · rw [hline, hsaver, hblank]
    exact hs.blank

theorem runsTo_lift {α : Type} {pull : Pull α} {s : LineStream} {origin : Origin} {level : Level}
    (hpull : RunsTo pull s.stream (fun _ => NewlinesLeft (s.stream.rest.count 10) s.stream.saver)
      (onProblem (NewlinesLeft (s.stream.rest.count 10) s.stream.saver)))
    (hs : CountsLines input s) (horigin : origin.Right input) :
    RunsTo (PullAt.lift origin pull) s (fun _ => Keeping s) (Raised input level s.lineNumber) := by
  unfold RunsTo PullAt.lift
  unfold RunsTo at hpull
  cases hrun : pull s.stream with
  | ok a stream =>
      rw [hrun] at hpull
      exact ⟨hpull, rfl, rfl⟩
  | error e stream =>
      rw [hrun] at hpull
      cases e with
      | problem what message suggestQuotes =>
          exact ⟨horigin, hs.keeping ⟨hpull, rfl, rfl⟩, fun _ => rfl⟩
      | exception e => trivial

theorem runsTo_roundsAt {β : Type} {f : ℕ → PullAt β} {s : LineStream}
    {post : β → LineStream → Prop} {raised : LocatedError → LineStream → Prop}
    (h : RunsTo (f (s.stream.rest.length + 1)) s post raised) :
    RunsTo (roundsAt >>= f) s post raised := h

theorem CountsLines.pulled {s s' : LineStream} {level : Level} {t : LocatedToken}
    (hs : CountsLines input s) (h : Keeping s s') (ht : ∀ o ∈ t.origins, o.Right input) :
    Pulled input level s.lineNumber t s' :=
  ⟨ht, (hs.keeping h).count, fun _ => (hs.keeping h).blank, fun _ => h.2.1⟩

theorem runsTo_token {pull : Pull Token} {s : LineStream} {origin : Origin} {level : Level}
    (hpull : RunsTo pull s.stream (fun _ => NewlinesLeft (s.stream.rest.count 10) s.stream.saver)
      (onProblem (NewlinesLeft (s.stream.rest.count 10) s.stream.saver)))
    (hs : CountsLines input s) (horigin : origin.Right input) :
    RunsTo (PullAt.token origin pull) s (Pulled input level s.lineNumber)
      (Raised input level s.lineNumber) := by
  refine RunsTo.map ((runsTo_lift hpull hs horigin).imp fun t s' hs' => ?_)
  refine hs.pulled hs' fun o ho => ?_
  rw [List.mem_singleton.mp ho]
  exact horigin

theorem startOfComment_of_ne (allowComments : Bool) {c : ℤ} (hc : c ≠ 47) :
    ∃ comment, startOfComment allowComments c = pure comment := by
  unfold startOfComment
  rw [if_neg hc]
  split
  · exact ⟨_, rfl⟩
  split
  · exact ⟨_, rfl⟩
  split <;> exact ⟨_, rfl⟩

variable (doubles : Doubles) (allowComments : Bool)

theorem runsTo_pullTokenAt {substitution : Origin → PullAt LocatedToken} {s : LineStream}
    {level : Level} (hs : CountsLines input s) (hat : At s.stream ⟨more, 2, saver⟩)
    (hmore : more <:+ input) (hhidden : NoHiddenNewline input level s.stream)
    (hsubstitution : ∀ origin s', Skipped input more s 36 origin s' → CountsLines input s' →
      RunsTo (substitution origin) s' (Pulled input level s'.lineNumber)
        (Raised input level s'.lineNumber)) :
    RunsTo (pullTokenAt doubles allowComments substitution) s
      (Pulled input level s.lineNumber) (Raised input level s.lineNumber) := by
  refine (runsTo_skipBlanksAt hs hat hmore).bind fun r s₁ _ hskipped => ?_
  obtain ⟨c, origin⟩ := r
  dsimp only at hskipped ⊢
  rw [← hskipped.lineNumber]
  have hcount : s₁.lineNumber.toInt + (c :: s₁.stream.rest).count 10 = 1 + input.count 10 := by
    rw [hskipped.skips.count, hskipped.lineNumber]
    exact hs.count
  have hcounts : c ≠ 10 → CountsLines input s₁ := by
    intro hnewline
    rw [List.count_cons_of_ne hnewline] at hcount
    exact ⟨hcount, hskipped.blank⟩
  refine RunsTo.ite (fun hc => ?_) fun heof => ?_
  · exact (hcounts (by rw [hc]; decide)).pulled ⟨⟨rfl, rfl⟩, rfl, rfl⟩ nofun
  have horigin := hskipped.origin heof
  have hleft : s.stream.rest.dropWhile isWhitespaceNotNewline = c :: s₁.stream.rest :=
    hskipped.skips.left.resolve_right fun h => heof h.2
  refine RunsTo.ite (fun hc => ?_) fun hnewline => ?_
  · subst hc
    rw [List.count_cons_self] at hcount
    refine ⟨fun o ho => ?_, ?_, fun h => absurd rfl h, fun hblanks => ?_⟩
    · rw [List.mem_singleton.mp ho]
      exact horigin
    · have hnumber := hhidden.number (congrArg List.head? hleft)
      have hnext : (s₁.lineNumber + 1).toInt = s₁.lineNumber.toInt + 1 := by
        rw [← hskipped.skips.count, List.count_cons_self] at hnumber
        exact toInt_add_one (by omega)
      show (s₁.lineNumber + 1).toInt + s₁.stream.rest.count 10 = _
      rw [hnext]
      omega
    · exact absurd (congrArg List.head? hleft) (hhidden.blanks hblanks)
  have hs₁ := hcounts hnewline
  have hcomment := keepsLine_startOfComment allowComments c _ _ s₁.stream ⟨rfl, rfl⟩
  refine (runsTo_lift hcomment hs₁ horigin).bind fun comment s₂ hrun hs₂ => ?_
  have hsame : c ≠ 47 → s₂ = s₁ := by
    intro hc
    obtain ⟨comment', hpure⟩ := startOfComment_of_ne allowComments hc
    rw [hpure] at hrun
    cases hrun
    rfl
  rw [← hs₂.2.1]
  replace hs₂ := hs₁.keeping hs₂
  have hkeeping : ∀ {pull : Pull Token} {s : LineStream}, KeepsLine pull → CountsLines input s →
      RunsTo (PullAt.token origin pull) s (Pulled input level s.lineNumber)
        (Raised input level s.lineNumber) :=
    fun hpull hs => runsTo_token (hpull _ _ _ ⟨rfl, rfl⟩) hs horigin
  have hstatic : ∀ t, RunsTo (pure (.static t)) s₂ (Pulled input level s₂.lineNumber)
      (Raised input level s₂.lineNumber) :=
    fun t => hs₂.pulled ⟨⟨rfl, rfl⟩, rfl, rfl⟩ nofun
  refine RunsTo.ite (fun _ => hkeeping (keepsLine_pullComment c) hs₂) fun _ => ?_
  refine RunsTo.ite (fun hquote => ?_) fun _ => ?_
  · subst hquote
    obtain rfl := hsame (by decide)
    exact runsTo_token (runsTo_pullQuotedString ⟨rfl, rfl⟩ (hhidden.text _ hleft)) hs₁ horigin
  refine RunsTo.ite (fun hdollar => ?_) fun _ => ?_
  · subst hdollar
    obtain rfl := hsame (by decide)
    exact hsubstitution origin s₂ hskipped hs₂
  refine RunsTo.ite (fun _ => hstatic .colon) fun _ => ?_
  refine RunsTo.ite (fun _ => hstatic .comma) fun _ => ?_
  refine RunsTo.ite (fun _ => hstatic .equals) fun _ => ?_
  refine RunsTo.ite (fun _ => hstatic .openCurly) fun _ => ?_
  refine RunsTo.ite (fun _ => hstatic .closeCurly) fun _ => ?_
  refine RunsTo.ite (fun _ => hstatic .openSquare) fun _ => ?_
  refine RunsTo.ite (fun _ => hstatic .closeSquare) fun _ => ?_
  refine RunsTo.ite (fun hplus => ?_) fun _ => ?_
  · subst hplus
    obtain rfl := hsame (by decide)
    have hhead := hhidden.next 43 _ hleft (.inr rfl)
    refine RunsTo.map ((runsTo_lift (runsTo_pullPlusEquals ⟨rfl, rfl⟩ hhead) hs₂ horigin).imp ?_)
    exact fun t s' hs' => hs₂.pulled hs' nofun
  refine RunsTo.ite (fun _ => hkeeping (keepsLine_pullNumber doubles c) hs₂) fun _ => ?_
  refine RunsTo.ite (fun _ => ⟨horigin, hs₂, fun _ => rfl⟩) fun _ => ?_
  have hput : RunsTo (putBack c) s₂.stream
      (fun _ => NewlinesLeft (s₂.stream.rest.count 10) s₂.stream.saver)
      (onProblem (NewlinesLeft (s₂.stream.rest.count 10) s₂.stream.saver)) := by
    refine (putBack_runsTo c s₂.stream _).imp fun _ s' hs' => ⟨?_, hs'.2⟩
    rw [hs'.1, List.count_cons_of_ne hnewline]
  refine (runsTo_lift hput hs₂ horigin).bind fun _ s₃ _ hs₃ => ?_
  rw [← hs₃.2.1]
  exact hkeeping (keepsLine_pullUnquotedText allowComments) (hs₂.keeping hs₃)

-- Between two tokens no blanks are saved.
theorem runsTo_checkWhitespaceAt {s : LineStream} {level : Level} {line : Int32} {t : LocatedToken}
    (h : Pulled input level line t s) {raised : LocatedError → LineStream → Prop} :
    RunsTo (checkWhitespaceAt t.token) s
      (fun whitespace s' => (∀ o ∈ whitespace.toList.flatMap LocatedToken.origins, o.Right input) ∧
        CountsLines input s' ∧ s'.lineNumber = s.lineNumber) raised := by
  unfold RunsTo checkWhitespaceAt checkWhitespace
  by_cases hsimple : isSimpleValue t.token = true
  · rw [if_pos hsimple]
    by_cases hlast : s.stream.saver.lastTokenWasSimpleValue = true
    · rw [if_pos hlast]
      by_cases hnone : s.stream.saver.whitespace.isEmpty = true
      · rw [if_pos hnone]
        exact ⟨nofun, ⟨h.count, fun hsome => absurd (List.isEmpty_iff.mp hnone) hsome⟩, rfl⟩
      · rw [if_neg hnone]
        have hnewline : t.token ≠ .newline := by
          intro hnewline
          rw [hnewline] at hsimple
          cases hsimple
        refine ⟨fun o ho => ?_, ⟨h.count, fun hsome => absurd rfl hsome⟩, rfl⟩
        have ho' : o = ⟨s.lineNumber, s.firstBlank⟩ := by simpa [LocatedToken.single] using ho
        rw [ho']
        exact h.blank hnewline (hnone ∘ List.isEmpty_iff.mpr)
    · rw [if_neg hlast]
      exact ⟨nofun, ⟨h.count, fun hsome => absurd rfl hsome⟩, rfl⟩
  · rw [if_neg hsimple]
    exact ⟨nofun, ⟨h.count, fun hsome => absurd rfl hsome⟩, rfl⟩

theorem Erases.ok {α β : Type} {f : α → β} {m : PullAt α} {m' : Pull β} (h : Erases f m m')
    {s s' : LineStream} {a : α} (hrun : m s = .ok a s') : m' s.stream = .ok (f a) s'.stream := by
  rw [← h s, hrun]
  rfl

theorem Erases.error {α β : Type} {f : α → β} {m : PullAt α} {m' : Pull β} (h : Erases f m m')
    {s s' : LineStream} {e : LocatedError} (hrun : m s = .error e s') :
    m' s.stream = .error e.erase s'.stream := by
  rw [← h s, hrun]
  rfl

theorem results_startSubstitution (more : Bytes) (saver : WhitespaceSaver) :
    Results At startSubstitution ⟨more, 1, saver⟩
      (Finds more saver fun _ g => g.more <:+ more ∧ g.room ≤ 2) := by
  refine Results.bind_runs (runs_next more saver) (Results.ite (fun _ => ?_) fun _ => ?_)
  · exact results_problem _ _ _ (List.tail_suffix more) (by omega)
  have hsuffix := (List.tail_suffix more.tail).trans (List.tail_suffix more)
  refine Results.bind_runs (runs_next more.tail saver) (Results.ite (fun _ => ?_) fun _ => ?_)
  · refine Results.bind_runs (runs_putBack more.tail saver (by omega)) ?_
    exact Results.pure ⟨List.tail_suffix more, le_rfl⟩
  · exact Results.pure ⟨hsuffix, Nat.le_succ 1⟩

section

variable {doubles allowComments}

-- Behind a call less of the input is left.
theorem runsTo_place {s : TokenStream} {depth : ℕ} (hat : At s ⟨more, 2, saver⟩)
    (hdepth : more.length < depth) :
    RunsTo (pullNextToken doubles allowComments depth) s
      (fun _ s' => ∃ more' saver', At s' ⟨more', 2, saver'⟩ ∧ more' <:+ more)
      (fun _ s' => ∃ more' saver', At s' ⟨more', 2, saver'⟩ ∧ more' <:+ more) := by
  have hresult := @results_pullNextToken doubles allowComments depth more saver hdepth s hat
  unfold RunsTo
  cases hrun : pullNextToken doubles allowComments depth s with
  | ok t s' =>
      rw [hrun] at hresult
      obtain ⟨⟨rest, room, saver'⟩, hat', hroom, _, hlexes⟩ := hresult
      exact ⟨rest, saver', hat'.weaken hroom, hlexes.suffix.trans (skip_suffix more)⟩
  | error e s' =>
      rw [hrun] at hresult
      obtain ⟨⟨rest, room, saver'⟩, hat', hroom, _, hlexes⟩ := hresult
      exact ⟨rest, saver', hat'.weaken hroom, hlexes.suffix.trans (skip_suffix more)⟩

-- The state behind a token.
theorem Called.behind {level : Level} {s s' s'' : LineStream} {depth : ℕ} {t : LocatedToken}
    {whitespace : Option LocatedToken} (h : Called doubles allowComments input level s.stream)
    (hat : At s.stream ⟨more, 2, saver⟩) (hdepth : more.length < depth)
    (hrun : pullNextTokenAt doubles allowComments depth s = .ok t s') (ht : t.token ≠ .end_)
    (hclose : level ≠ .top → t.token ≠ .closeCurly)
    (hcheck : checkWhitespaceAt t.token s' = .ok whitespace s'') :
    Called doubles allowComments input level s''.stream ∧
      ∃ more' saver', At s''.stream ⟨more', 2, saver'⟩ ∧ more' <:+ more := by
  have hnext := (erases_pullNextTokenAt doubles allowComments depth).ok hrun
  have hcheck' := (erases_checkWhitespaceAt t.token).ok hcheck
  refine ⟨h.next hnext ht hclose hcheck', ?_⟩
  obtain ⟨rest, saver', hat', hrest⟩ := (runsTo_place hat hdepth).of_ok hnext
  obtain ⟨stream, hrun', hat''⟩ := runs_checkWhitespace t.token rest 2 saver' s'.stream hat'
  have hstream : stream = s''.stream := (EStateM.Result.ok.inj (hrun'.symm.trans hcheck')).2
  rw [hstream] at hat''
  exact ⟨rest, _, hat'', hrest⟩

variable (hlines : ∀ level s, Called doubles allowComments input level s → NoHiddenNewline input level s)

-- A call after which the line number was still `line`.
theorem Pulled.of_same {level : Level} {line line' : Int32} {t : LocatedToken} {s : LineStream}
    (h : Pulled input level line' t s) (hline : level.blanksBefore = true → line' = line) :
    Pulled input level line t s :=
  ⟨h.origins, h.count, h.blank, fun hblanks => (h.same hblanks).trans (hline hblanks)⟩

theorem Raised.of_same {level : Level} {line line' : Int32} {e : LocatedError} {s : LineStream}
    (h : Raised input level line' e s) (hline : level.blanksBefore = true → line' = line) :
    Raised input level line e s := by
  cases e with
  | problem => exact ⟨h.1, h.2.1, fun hblanks => (h.2.2 hblanks).trans (hline hblanks)⟩
  | exception => trivial

theorem runsTo_pullSubstitutionLoopAt {depth : ℕ}
    (hnext : ∀ {level s more saver}, Called doubles allowComments input level s.stream →
      CountsLines input s → At s.stream ⟨more, 2, saver⟩ → more <:+ input → more.length < depth →
      RunsTo (pullNextTokenAt doubles allowComments depth) s (Pulled input level s.lineNumber)
        (Raised input level s.lineNumber))
    {origin : Origin} (horigin : origin.Right input) (n : ℕ) (optional : Bool)
    (expression : List LocatedToken)
    (hexpression : ∀ o ∈ expression.flatMap LocatedToken.origins, o.Right input)
    {blanksBefore : Bool} {s : LineStream}
    (hcalled : Called doubles allowComments input (.inside blanksBefore) s.stream)
    (hs : CountsLines input s) (hat : At s.stream ⟨more, 2, saver⟩) (hmore : more <:+ input)
    (hdepth : more.length < depth) :
    RunsTo (pullSubstitutionLoopAt origin (pullNextTokenAt doubles allowComments depth) n optional
      expression) s (Pulled input (.inside blanksBefore) s.lineNumber)
      (Raised input (.inside blanksBefore) s.lineNumber) := by
  induction n generalizing expression s more saver with
  | zero => trivial
  | succ n ih =>
      rw [pullSubstitutionLoopAt]
      refine (hnext hcalled hs hat hmore hdepth).bind fun t s₁ hrun hpulled => ?_
      obtain ⟨t, origins⟩ := t
      have hother : t ≠ .end_ → t ≠ .closeCurly → RunsTo (do
          let whitespace ← checkWhitespaceAt t
          pullSubstitutionLoopAt origin (pullNextTokenAt doubles allowComments depth) n optional
            (expression ++ whitespace.toList ++ [⟨t, origins⟩]))
          s₁ (Pulled input (.inside blanksBefore) s.lineNumber)
          (Raised input (.inside blanksBefore) s.lineNumber) := by
        intro ht hclose
        refine (runsTo_checkWhitespaceAt hpulled).bind fun whitespace s₂ hcheck h => ?_
        obtain ⟨hwhitespace, hs₂, hline⟩ := h
        obtain ⟨hcalled', more', saver', hat', hmore'⟩ :=
          hcalled.behind hat hdepth hrun ht (fun _ => hclose) hcheck
        have hsame : (Level.inside blanksBefore).blanksBefore = true →
            s₂.lineNumber = s.lineNumber :=
          fun hblanks => hline.trans (hpulled.same hblanks)
        have hexpression' : ∀ o ∈ (expression ++ whitespace.toList ++ [⟨t, origins⟩] :
            List LocatedToken).flatMap LocatedToken.origins, o.Right input := by
          intro o ho
          rw [List.flatMap_append, List.flatMap_append, List.mem_append, List.mem_append] at ho
          rcases ho with (ho | ho) | ho
          · exact hexpression o ho
          · exact hwhitespace o ho
          · exact hpulled.origins o (by simpa using ho)
        have hrest := ih _ hexpression' hcalled' hs₂ hat' (hmore'.trans hmore)
          (hmore'.length_le.trans_lt hdepth)
        exact (hrest.imp fun t' s' h => h.of_same hsame).raises fun e s' h => h.of_same hsame
      cases t with
      | closeCurly =>
          refine ⟨fun o ho => ?_, hpulled.count, fun _ => hpulled.blank (by simp), hpulled.same⟩
          rcases List.mem_cons.mp ho with rfl | ho
          · exact horigin
          · exact hexpression o ho
      | end_ => exact ⟨horigin, ⟨hpulled.count, hpulled.blank (by simp)⟩, hpulled.same⟩
      | _ => exact hother (by simp) (by simp)

-- The saver before a substitution is in use again behind it.
theorem runsTo_withOwnSaverAt {pull : PullAt LocatedToken} {s : LineStream} {level : Level}
    (hs : CountsLines input s) {blanksBefore : Bool}
    (hblanks : (level.blanksBefore || s.stream.saver.whitespace ≠ []) = blanksBefore)
    (h : RunsTo pull { s with stream := { s.stream with saver := .makeInstance } }
      (Pulled input (.inside blanksBefore) s.lineNumber)
      (Raised input (.inside blanksBefore) s.lineNumber)) :
    RunsTo (withOwnSaverAt pull) s (Pulled input level s.lineNumber)
      (Raised input level s.lineNumber) := by
  have hlevel : level.blanksBefore = true → blanksBefore = true := by
    intro hlevel
    rw [← hblanks, hlevel, Bool.true_or]
  have hsaver : s.stream.saver.whitespace ≠ [] → blanksBefore = true := by
    intro hsome
    rw [← hblanks, decide_eq_true hsome, Bool.or_true]
  unfold RunsTo at h ⊢
  unfold withOwnSaverAt
  cases hrun : pull { s with stream := { s.stream with saver := .makeInstance } } with
  | ok t s' =>
      rw [hrun] at h
      refine ⟨h.origins, h.count, fun _ hsome => ?_, fun hblanks => h.same (hlevel hblanks)⟩
      have hline := h.same (hsaver hsome)
      dsimp only
      rw [hline]
      exact hs.blank hsome
  | error e s' =>
      rw [hrun] at h
      cases e with
      | exception => trivial
      | problem =>
          obtain ⟨horigin, hs', hsame⟩ := h
          refine ⟨horigin, ⟨hs'.count, fun hsome => ?_⟩, fun hblanks => hsame (hlevel hblanks)⟩
          have hline := hsame (hsaver hsome)
          dsimp only
          rw [hline]
          exact hs.blank hsome

theorem runsTo_pullSubstitutionAt {depth : ℕ}
    (hnext : ∀ {level s more saver}, Called doubles allowComments input level s.stream →
      CountsLines input s → At s.stream ⟨more, 2, saver⟩ → more <:+ input → more.length < depth →
      RunsTo (pullNextTokenAt doubles allowComments depth) s (Pulled input level s.lineNumber)
        (Raised input level s.lineNumber))
    {level : Level} {s s' : LineStream} {origin : Origin} (horigin : origin.Right input)
    (hcalled : Called doubles allowComments input level s.stream)
    (hskip : nextCharAfterWhitespace s.stream = .ok 36 s'.stream) (hs : CountsLines input s')
    (hhead : s'.stream.rest.head? ≠ some 10) (hat : At s'.stream ⟨more, 1, saver⟩)
    (hmore : more <:+ input) (hdepth : more.length < depth) :
    RunsTo (pullSubstitutionAt (pullNextTokenAt doubles allowComments depth) origin) s'
      (Pulled input level s'.lineNumber) (Raised input level s'.lineNumber) := by
  refine (runsTo_lift (runsTo_startSubstitution ⟨rfl, rfl⟩ hhead) hs horigin).bind ?_
  intro optional s₂ hrun hs₂
  have hstart := (erases_lift origin startSubstitution).ok hrun
  have hresult := results_startSubstitution more saver s'.stream hat
  rw [hstart] at hresult
  obtain ⟨⟨more', room, saver'⟩, hat', hmore', hroom⟩ := hresult
  have hcalled' := hcalled.substitution hskip hstart
  rw [← hs₂.1.2] at hcalled'
  rw [← hs₂.2.1]
  refine runsTo_withOwnSaverAt (hs.keeping hs₂) rfl ?_
  have hs₃ : CountsLines input { s₂ with stream := { s₂.stream with saver := .makeInstance } } :=
    ⟨(hs.keeping hs₂).count, fun hsome => absurd rfl hsome⟩
  exact runsTo_pullSubstitutionLoopAt hnext horigin _ optional [] nofun hcalled' hs₃
    ⟨hat'.rest, hat'.buffered.trans hroom, hat'.inside, rfl⟩ (hmore'.trans hmore)
    (hmore'.length_le.trans_lt hdepth)

include hlines

theorem runsTo_pullNextTokenAt (depth : ℕ) {level : Level} {s : LineStream}
    (hcalled : Called doubles allowComments input level s.stream) (hs : CountsLines input s)
    (hat : At s.stream ⟨more, 2, saver⟩) (hmore : more <:+ input) (hdepth : more.length < depth) :
    RunsTo (pullNextTokenAt doubles allowComments depth) s (Pulled input level s.lineNumber)
      (Raised input level s.lineNumber) := by
  induction depth generalizing level s more saver with
  | zero => trivial
  | succ depth ih =>
      have hhidden := hlines level s.stream hcalled
      refine runsTo_pullTokenAt doubles allowComments hs hat hmore hhidden ?_
      intro origin s' hskipped hs'
      have hleft := hskipped.skips.left.resolve_right fun h => absurd h.2 (by decide)
      obtain ⟨saver', hat'⟩ := hskipped.place
      refine runsTo_pullSubstitutionAt ih (hskipped.origin (by decide)) hcalled hskipped.run hs'
        (hhidden.next 36 _ hleft (.inl rfl)) hat' ((skip_suffix more).trans hmore) ?_
      obtain ⟨b, rest, hrest, _⟩ := peek_ne_eof _ (by rw [hskipped.here]; decide)
      have hle := (List.dropWhile_suffix (l := more) isBlank).length_le
      rw [hrest] at hle ⊢
      rw [List.length_cons] at hle
      rw [List.tail_cons]
      omega

-- A state between two calls of `next`.
structure Between (doubles : Doubles) (allowComments : Bool) (input : Bytes) (s : LineStream) :
    Prop where
  counts : CountsLines input s
  called : Called doubles allowComments input .top s.stream
  place : ∃ more saver, At s.stream ⟨more, 2, saver⟩ ∧ more <:+ input

theorem runsTo_queueNextTokenAt {s : LineStream} (hs : Between doubles allowComments input s) :
    RunsTo (queueNextTokenAt doubles allowComments) s
      (fun r s' => (∀ o ∈ (r.1.toList ++ [r.2]).flatMap LocatedToken.origins, o.Right input) ∧
        (r.2.token ≠ .end_ → Between doubles allowComments input s'))
      (fun e s' => ∀ what message suggestQuotes origin,
        e = .problem what message suggestQuotes origin →
          origin.Right input ∧ Between doubles allowComments input s') := by
  obtain ⟨hcounts, hcalled, more, saver, hat, hmore⟩ := hs
  have hdepth : more.length < s.stream.rest.length + 1 := by
    obtain ⟨ends, hrest⟩ := hat.rest
    dsimp only at hrest
    rw [hrest, List.length_append, List.length_map]
    omega
  have hnext : RunsTo (pullNextTokenAt doubles allowComments (s.stream.rest.length + 1)) s
      (Pulled input .top s.lineNumber)
      (fun e s' => ∀ what message suggestQuotes origin,
        e = .problem what message suggestQuotes origin →
          origin.Right input ∧ Between doubles allowComments input s') := by
    have hpull := runsTo_pullNextTokenAt hlines _ hcalled hcounts hat hmore hdepth
    unfold RunsTo
    cases hrun : pullNextTokenAt doubles allowComments (s.stream.rest.length + 1) s with
    | ok t s' => exact hpull.of_ok hrun
    | error e s' =>
        rintro what message suggestQuotes origin rfl
        obtain ⟨horigin, hs', _⟩ := hpull.of_error hrun
        have herror := (erases_pullNextTokenAt doubles allowComments _).error hrun
        obtain ⟨more', saver', hat', hmore'⟩ := (runsTo_place hat hdepth).of_error herror
        exact ⟨horigin, hs', hcalled.problem herror, more', saver', hat', hmore'.trans hmore⟩
  refine runsTo_roundsAt (hnext.bind fun t s₁ hrun hpulled => ?_)
  refine (runsTo_checkWhitespaceAt hpulled).bind fun whitespace s₂ hcheck h => ?_
  obtain ⟨hwhitespace, hs₂, _⟩ := h
  refine ⟨fun o ho => ?_, fun ht => ?_⟩
  · rw [List.flatMap_append, List.mem_append] at ho
    rcases ho with ho | ho
    · exact hwhitespace o ho
    · exact hpulled.origins o (by simpa using ho)
  · obtain ⟨hcalled', more', saver', hat', hmore'⟩ :=
      hcalled.behind hat hdepth hrun ht (fun h => absurd rfl h) hcheck
    exact ⟨hs₂, hcalled', more', saver', hat', hmore'.trans hmore⟩

-- Every token that is delivered behind a state whose numbers are right.
theorem deliverAt_right (n : ℕ) {s : LineStream} (hs : Between doubles allowComments input s) :
    ∀ o ∈ (deliverAt doubles allowComments n s).flatMap LocatedToken.origins, o.Right input := by
  induction n generalizing s with
  | zero => rintro _ ⟨⟩
  | succ n ih =>
      have hqueue := runsTo_queueNextTokenAt hlines hs
      rw [deliverAt]
      cases hrun : queueNextTokenAt doubles allowComments s with
      | ok r s' =>
          obtain ⟨whitespace, t⟩ := r
          obtain ⟨horigins, hnext⟩ := hqueue.of_ok hrun
          have hends : ∀ ts : List LocatedToken,
              (∀ o ∈ ts.flatMap LocatedToken.origins, o.Right input) →
              ∀ o ∈ (whitespace.toList ++ t :: ts).flatMap LocatedToken.origins,
                o.Right input := by
            intro ts hts o ho
            rw [List.append_cons, List.flatMap_append, List.mem_append] at ho
            exact ho.elim (horigins o) (hts o)
          dsimp only
          split
          · exact horigins
          · rename_i ht
            exact hends _ (ih (hnext ht))
      | error e s' =>
          cases e with
          | exception => rintro _ ⟨⟩
          | problem what message suggestQuotes origin =>
              obtain ⟨horigin, hnext⟩ := hqueue.of_error hrun what message suggestQuotes origin rfl
              intro o ho
              rcases List.mem_append.mp ho with ho | ho
              · rw [List.mem_singleton.mp ho]
                exact horigin
              · exact ih hnext o ho

end

theorem LineStream.ofString_between (input : Bytes) :
    Between doubles allowComments input (.ofString input) := by
  refine ⟨⟨?_, fun hsome => absurd rfl hsome⟩, .start, input, .makeInstance,
    TokenStream.ofString_at input, List.suffix_rfl⟩
  exact congrArg (fun n : ℕ => 1 + (n : ℤ)) (count_map_readChar input)

end

-- The states between the tokens of two lines with a word each.
def twoLines : List TokenStream :=
  [.ofString (ascii "a\nb"), { rest := [10, 98], buffered := 1, saver := ⟨true, []⟩ },
    { rest := [98], buffered := 0, saver := ⟨false, []⟩ },
    { rest := [-1], buffered := 1, saver := ⟨true, []⟩ }]

theorem twoLines_head : ∀ s ∈ twoLines,
    (s.rest.dropWhile isWhitespaceNotNewline).head? ∉ [some 34, some 36, some 43] := by
  decide

theorem twoLines_next (depth : ℕ) {s : TokenStream} (hs : s ∈ twoLines) :
    ∃ t s', pullNextToken ⟨fun _ => none, id⟩ true (depth + 1) s = .ok t s' ∧
      ∀ whitespace s'', t ≠ .end_ → checkWhitespace t s' = .ok whitespace s'' → s'' ∈ twoLines := by
  simp only [twoLines, List.mem_cons, List.not_mem_nil, or_false] at hs
  rcases hs with rfl | rfl | rfl | rfl
  · refine ⟨.unquotedText [97], ⟨[10, 98], 1, .makeInstance⟩, rfl, ?_⟩
    rintro whitespace s'' - ⟨⟩
    decide
  · refine ⟨.newline, ⟨[98], 0, ⟨true, []⟩⟩, rfl, ?_⟩
    rintro whitespace s'' - ⟨⟩
    decide
  · refine ⟨.unquotedText [98], ⟨[-1], 1, ⟨false, []⟩⟩, rfl, ?_⟩
    rintro whitespace s'' - ⟨⟩
    decide
  · exact ⟨.end_, ⟨[], 0, ⟨true, []⟩⟩, rfl, fun _ _ h => absurd rfl h⟩

theorem called_twoLines {level : Level} {s : TokenStream}
    (h : Called ⟨fun _ => none, id⟩ true (ascii "a\nb") level s) : level = .top ∧ s ∈ twoLines := by
  induction h with
  | start => exact ⟨rfl, List.mem_cons_self⟩
  | @next level s s' s'' depth t whitespace _ hnext ht _ hcheck ih =>
      cases depth with
      | zero => cases hnext
      | succ depth =>
          obtain ⟨t', s₁, hrun, hstep⟩ := twoLines_next depth ih.2
          cases hrun.symm.trans hnext
          exact ⟨ih.1, hstep whitespace s'' ht hcheck⟩
  | @problem s s' depth what message suggestQuotes _ hnext ih =>
      cases depth with
      | zero => cases hnext
      | succ depth =>
          obtain ⟨t', s₁, hrun, _⟩ := twoLines_next depth ih.2
          cases hrun.symm.trans hnext
  | @substitution level s s' s'' optional _ hskip _ ih =>
      have hhead := twoLines_head s ih.2
      rcases (runsTo_nextCharAfterWhitespace.of_ok hskip).left with hleft | ⟨_, hc⟩
      · rw [hleft] at hhead
        exact absurd (List.mem_cons_of_mem _ List.mem_cons_self) hhead
      · exact absurd hc (by decide)

end AsrServiceProxy.Config

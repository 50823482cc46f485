import AsrServiceProxy.Config.RoundTrip.Lexing
import AsrServiceProxy.Lib.Runs

-- The token stream as a function of the bytes that are left: what each of the pull
-- functions reads, and how much it puts back.
namespace AsrServiceProxy.Config

open CMemory Simulation

-- A place in the input, with a bound on the characters that were put back there.
structure Place where
  more : Bytes
  room : ℕ
  saver : WhitespaceSaver

-- The end of the input may have been put back as a character any number of times.
structure At (s : TokenStream) (g : Place) : Prop where
  rest : ∃ ends, s.rest = g.more.map readChar ++ List.replicate ends (-1)
  buffered : s.buffered ≤ g.room
  inside : s.buffered ≤ s.rest.length
  saver : s.saver = g.saver

-- The next character.
def peek : Bytes → ℤ
  | [] => -1
  | b :: _ => readChar b

theorem peek_ne_eof (more : Bytes) (h : peek more ≠ -1) :
    ∃ b rest, more = b :: rest ∧ peek more = readChar b := by
  cases more with
  | nil => exact absurd rfl h
  | cons b rest => exact ⟨b, rest, rfl, rfl⟩

section

variable {more : Bytes} {room : ℕ} {saver : WhitespaceSaver}

theorem At.weaken {s : TokenStream} {room' : ℕ} (h : At s ⟨more, room, saver⟩)
    (hroom : room ≤ room') : At s ⟨more, room', saver⟩ :=
  ⟨h.rest, h.buffered.trans hroom, h.inside, h.saver⟩

theorem runs_nextCharRaw (more : Bytes) (room : ℕ) (saver : WhitespaceSaver) :
    Runs At nextCharRaw ⟨more, room, saver⟩ (peek more) ⟨more.tail, room - 1, saver⟩ := by
  rintro ⟨rest, buffered, saver'⟩ ⟨⟨ends, hrest⟩, hbuffered, hinside, hsaver⟩
  dsimp only at hrest hbuffered hinside hsaver
  cases more with
  | nil =>
      cases ends with
      | zero =>
          obtain rfl : rest = [] := hrest
          rw [List.length_nil] at hinside
          exact ⟨_, rfl, ⟨0, rfl⟩, by dsimp only; omega, by dsimp only; omega, hsaver⟩
      | succ ends =>
          obtain rfl : rest = -1 :: List.replicate ends (-1) := hrest
          rw [List.length_cons] at hinside
          exact ⟨_, rfl, ⟨ends, rfl⟩, by dsimp only; omega, by dsimp only; omega, hsaver⟩
  | cons b more =>
      rw [List.map_cons, List.cons_append] at hrest
      subst hrest
      rw [List.length_cons] at hinside
      exact ⟨_, rfl, ⟨ends, rfl⟩, by dsimp only; omega, by dsimp only; omega, hsaver⟩

theorem runs_putBack (more : Bytes) (saver : WhitespaceSaver) (hroom : room ≤ 2) :
    Runs At (putBack (peek more)) ⟨more.tail, room, saver⟩ () ⟨more, room + 1, saver⟩ := by
  rintro ⟨rest, buffered, saver'⟩ ⟨⟨ends, hrest⟩, hbuffered, hinside, hsaver⟩
  dsimp only at hrest hbuffered hinside hsaver
  refine ⟨{ rest := peek more :: rest, buffered := buffered + 1, saver := saver' }, ?_, ?_, ?_, ?_,
    hsaver⟩
  · simp only [putBack, show ¬buffered > 2 by omega, ite_false]
  · cases more with
    | nil => exact ⟨ends + 1, by rw [hrest]; rfl⟩
    | cons b more => exact ⟨ends, by rw [hrest]; rfl⟩
  · dsimp only
    omega
  · dsimp only
    rw [List.length_cons]
    omega

theorem runs_weaken {α : Type} {m : Pull α} {pre : Place} {a : α} {room' : ℕ}
    (h : Runs At m pre a ⟨more, room, saver⟩) (hroom : room ≤ room') :
    Runs At m pre a ⟨more, room', saver⟩ := by
  intro s hs
  obtain ⟨s', hs', hat⟩ := h s hs
  exact ⟨s', hs', hat.weaken hroom⟩

-- The loops are given as many rounds as there are characters.
theorem results_rounds {β : Type} {f : ℕ → Pull β} {g : Place}
    {post : Except TokenizerError β → Place → Prop}
    (hf : ∀ n, g.more.length < n → Results At (f n) g post) : Results At (rounds >>= f) g post := by
  intro s hs
  obtain ⟨ends, hrest⟩ := hs.rest
  refine hf (s.rest.length + 1) ?_ s hs
  rw [hrest, List.length_append, List.length_map]
  omega

theorem runs_rounds {β : Type} {f : ℕ → Pull β} {g g' : Place} {b : β}
    (hf : ∀ n, g.more.length < n → Runs At (f n) g b g') : Runs At (rounds >>= f) g b g' := by
  intro s hs
  obtain ⟨ends, hrest⟩ := hs.rest
  refine hf (s.rest.length + 1) ?_ s hs
  rw [hrest, List.length_append, List.length_map]
  omega

end

-- What the pull functions find at a place.
section

variable (doubles : Doubles) (allowComments : Bool)

def startsComment : Bytes → Bool
  | b :: rest => allowComments && (b = 35 || b = 47 && rest.head? = some 47)
  | [] => false

def isBlank (b : UInt8) : Bool := isWhitespaceNotNewline (readChar b)

def endsComment (b : UInt8) : Bool := b = 255 || b = 10

-- A byte that ends an unquoted text wherever it stands.
def endsUnquoted (b : UInt8) : Bool :=
  b = 255 || notInUnquotedText.contains b || isWhitespace (readChar b)

def scanUnquoted : Bytes → Bytes → Token × Bytes
  | sb, [] => (.unquotedText sb, [])
  | sb, b :: more =>
      if endsUnquoted b || startsComment allowComments (b :: more) then
        (.unquotedText sb, b :: more)
      else
        match wordToken (sb ++ [b]) with
        | some word => (word, more)
        | none => scanUnquoted (sb ++ [b]) more

def isNumberByte (b : UInt8) : Bool := numberChars.contains b

def numberResult (s : Bytes) (containedDecimalOrE : Bool) : Except TokenizerError Token :=
  if containedDecimalOrE then
    match doubles.cast s with
    | none => .error (.problem s "_invalid number: " true)
    | some none => .ok (.value (.configDouble () s))
    | some (some n) => .ok (.value (newNumber () n s))
  else
    match lexicalInt64 s with
    | none => .error (.problem s "_invalid number: " true)
    | some n => .ok (.value (newNumber () n s))

-- The text of a number with the first byte `b`.
def scanNumber (b : UInt8) (more : Bytes) : Except TokenizerError Token × Bytes :=
  let digits := more.takeWhile isNumberByte
  (numberResult doubles (b :: digits) (digits.any fun b => b = 46 || b = 101),
    more.dropWhile isNumberByte)

end

-- The characters that stand for themselves after a backslash, or for another one.
def escapes : List (UInt8 × UInt8) :=
  [(34, 34), (92, 92), (47, 47), (98, 8), (102, 12), (110, 10), (114, 13), (116, 9)]

-- What may come after a backslash, and the byte that it gives.
inductive Escape : Bytes → UInt8 → Prop
  | single {b c : UInt8} (h : (b, c) ∈ escapes) : Escape [b] c
  | unicode {digits : Bytes} (hlength : digits.length = 4) (h : (255 : UInt8) ∉ digits) :
      Escape (117 :: digits) (toChar (strtol16 digits))

-- The text after an opening quote up to the closing one, and the string it is read as.
inductive Quoted : Bytes → Bytes → Prop
  | close : Quoted [34] []
  | char {b : UInt8} {body text : Bytes} (hb : b ≠ 255 ∧ b ≠ 92 ∧ b ≠ 34 ∧ iscntrl b = false)
      (h : Quoted body text) : Quoted (b :: body) (b :: text)
  | escape {e : Bytes} {c : UInt8} {body text : Bytes} (he : Escape e c) (h : Quoted body text) :
      Quoted (92 :: (e ++ body)) (c :: text)

theorem readChar_eq_iff {b c : UInt8} : readChar b = readChar c ↔ b = c :=
  ⟨readChar_inj, congrArg readChar⟩

theorem readChar_eof_iff (b : UInt8) : readChar b = -1 ↔ b = 255 :=
  readChar_eq_iff (c := 255)

-- What a pull function does from a place on: it returns, or it throws a problem
-- with a part of the text behind it. It never runs out of rounds or of room.
def Finds {α : Type} (more : Bytes) (saver : WhitespaceSaver) (post : α → Place → Prop) :
    Except TokenizerError α → Place → Prop
  | .ok a, g => post a g
  | .error (.problem _ _ _), g => g.more <:+ more ∧ g.room ≤ 2 ∧ g.saver = saver
  | .error (.exception _), _ => False

theorem Finds.imp {α : Type} {more more' : Bytes} {saver : WhitespaceSaver}
    {post post' : α → Place → Prop} (hmore : more <:+ more') (himp : ∀ a g, post a g → post' a g)
    {r : Except TokenizerError α} {g : Place} (h : Finds more saver post r g) :
    Finds more' saver post' r g := by
  cases r with
  | ok a => exact himp a g h
  | error e =>
      cases e with
      | problem => exact ⟨h.1.trans hmore, h.2⟩
      | exception => exact h

section

variable {α β : Type} {more more' : Bytes} {room : ℕ} {saver : WhitespaceSaver}
  {post : α → Place → Prop} {post' : β → Place → Prop} {m : Pull α} {f : α → Pull β}

theorem results_bind (hm : Results At m ⟨more, room, saver⟩ (Finds more saver post))
    (hmore : more <:+ more')
    (hok : ∀ a g, post a g → Results At (f a) g (Finds more' saver post')) :
    Results At (m >>= f) ⟨more, room, saver⟩ (Finds more' saver post') := by
  refine Results.bind hm hok ?_
  intro e g h
  cases e with
  | problem => exact ⟨h.1.trans hmore, h.2⟩
  | exception => exact h

theorem results_problem (what : Bytes) (message : String) (suggestQuotes : Bool)
    (hmore : more <:+ more') (hroom : room ≤ 2) :
    Results At (problem what message suggestQuotes : Pull α) ⟨more, room, saver⟩
      (Finds more' saver post) :=
  Results.throw ⟨hmore, hroom, rfl⟩

-- A character inside a token.
theorem runs_next (more : Bytes) (saver : WhitespaceSaver) :
    Runs At nextCharRaw ⟨more, 1, saver⟩ (peek more) ⟨more.tail, 1, saver⟩ :=
  runs_weaken (runs_nextCharRaw more 1 saver) (Nat.zero_le 1)

end

theorem results_pullDigits (n : ℕ) (digits more : Bytes) (saver : WhitespaceSaver) :
    Results At (pullDigits n digits) ⟨more, 1, saver⟩ (Finds more saver fun r g =>
      ∃ taken rest, r = digits ++ taken ∧ taken.length = n ∧ (255 : UInt8) ∉ taken ∧
        more = taken ++ rest ∧ g = ⟨rest, 1, saver⟩) := by
  induction n generalizing digits more with
  | zero => exact Results.pure ⟨[], more, by simp, rfl, by simp, rfl, rfl⟩
  | succ n ih =>
      refine Results.bind_runs (runs_next more saver) ?_
      refine Results.ite (fun _ => ?_) fun hc => ?_
      · exact results_problem _ _ _ (List.tail_suffix more) (by omega)
      · obtain ⟨b, rest, rfl, hpeek⟩ := peek_ne_eof _ hc
        rw [hpeek] at hc ⊢
        rw [toChar_readChar]
        refine Results.imp (ih (digits ++ [b]) rest) fun r g => Finds.imp (List.suffix_cons b rest) ?_
        rintro a g ⟨taken, rest', rfl, hlength, heof, rfl, rfl⟩
        refine ⟨b :: taken, rest', by simp, by simp [hlength], ?_, rfl, rfl⟩
        rw [List.mem_cons, not_or]
        exact ⟨fun h => hc ((readChar_eof_iff b).mpr h.symm), heof⟩

theorem results_pullEscapeSequence (s more : Bytes) (saver : WhitespaceSaver) :
    Results At (pullEscapeSequence s) ⟨more, 1, saver⟩ (Finds more saver fun r g =>
      ∃ e c rest, Escape e c ∧ r = s ++ [c] ∧ more = e ++ rest ∧ g = ⟨rest, 1, saver⟩) := by
  refine Results.bind_runs (runs_next more saver) ?_
  refine Results.ite (fun _ => ?_) fun hc => ?_
  · exact results_problem _ _ _ (List.tail_suffix more) (by omega)
  · obtain ⟨b, rest, rfl, hpeek⟩ := peek_ne_eof _ hc
    rw [hpeek] at hc ⊢
    have hsingle : ∀ x c : UInt8, (x, c) ∈ escapes → readChar b = readChar x →
        Results At (pure (s ++ [c]) : Pull Bytes) ⟨rest, 1, saver⟩ (Finds (b :: rest) saver
          fun r g => ∃ e c rest', Escape e c ∧ r = s ++ [c] ∧ b :: rest = e ++ rest' ∧
            g = ⟨rest', 1, saver⟩) := by
      intro x c hx hb
      obtain rfl := readChar_inj hb
      exact Results.pure ⟨[b], c, rest, .single hx, rfl, rfl, rfl⟩
    refine Results.ite (fun h => hsingle 34 34 (by decide) h) fun _ => ?_
    refine Results.ite (fun h => hsingle 92 92 (by decide) h) fun _ => ?_
    refine Results.ite (fun h => hsingle 47 47 (by decide) h) fun _ => ?_
    refine Results.ite (fun h => hsingle 98 8 (by decide) h) fun _ => ?_
    refine Results.ite (fun h => hsingle 102 12 (by decide) h) fun _ => ?_
    refine Results.ite (fun h => hsingle 110 10 (by decide) h) fun _ => ?_
    refine Results.ite (fun h => hsingle 114 13 (by decide) h) fun _ => ?_
    refine Results.ite (fun h => hsingle 116 9 (by decide) h) fun _ => ?_
    refine Results.ite (fun h => ?_) fun _ => ?_
    · obtain rfl : b = 117 := readChar_inj (h.trans (by decide))
      refine results_bind (results_pullDigits 4 [] rest saver) (List.suffix_cons 117 rest) ?_
      rintro digits _ ⟨taken, rest', hdigits, hlength, heof, rfl, rfl⟩
      obtain rfl : digits = taken := hdigits
      exact Results.pure ⟨117 :: digits, _, rest', .unicode hlength heof, rfl, rfl, rfl⟩
    · exact results_problem _ _ _ (List.suffix_cons b rest) (by omega)

theorem Escape.ne_nil {e : Bytes} {c : UInt8} (h : Escape e c) : e ≠ [] := by
  cases h <;> exact List.cons_ne_nil _ _

theorem results_pullQuotedLoop (n : ℕ) (s more : Bytes) (saver : WhitespaceSaver)
    (hn : more.length < n) :
    Results At (pullQuotedLoop n s) ⟨more, 1, saver⟩ (Finds more saver fun r g =>
      ∃ body text rest, Quoted body text ∧ r = s ++ text ∧ more = body ++ rest ∧
        g = ⟨rest, 1, saver⟩) := by
  induction n generalizing s more with
  | zero => omega
  | succ n ih =>
      refine Results.bind_runs (runs_next more saver) ?_
      refine Results.ite (fun _ => ?_) fun hc => ?_
      · exact results_problem _ _ _ (List.tail_suffix more) (by omega)
      · obtain ⟨b, rest, rfl, hpeek⟩ := peek_ne_eof _ hc
        rw [hpeek] at hc ⊢
        rw [List.length_cons] at hn
        refine Results.ite (fun h => ?_) fun hslash => Results.ite (fun h => ?_) fun hquote => ?_
        · obtain rfl : b = 92 := readChar_inj (h.trans (by decide))
          refine results_bind (results_pullEscapeSequence s rest saver) (List.suffix_cons 92 rest) ?_
          rintro _ _ ⟨e, c, rest', he, rfl, rfl, rfl⟩
          have hlength := List.length_pos_of_ne_nil he.ne_nil
          rw [List.length_append] at hn
          have hsuffix : rest' <:+ 92 :: (e ++ rest') :=
            (List.suffix_append e rest').trans (List.suffix_cons 92 _)
          refine Results.imp (ih (s ++ [c]) rest' (by omega)) fun r g => Finds.imp hsuffix ?_
          rintro _ _ ⟨body, text, rest'', hquoted, rfl, rfl, rfl⟩
          exact ⟨92 :: (e ++ body), c :: text, rest'', .escape he hquoted, by simp, by simp, rfl⟩
        · obtain rfl : b = 34 := readChar_inj (h.trans (by decide))
          exact Results.pure ⟨[34], [], rest, .close, by simp, rfl, rfl⟩
        · rw [toChar_readChar]
          refine Results.ite (fun _ => ?_) fun hcntrl => ?_
          · exact results_problem _ _ _ (List.suffix_cons b rest) (by omega)
          · refine Results.imp (ih (s ++ [b]) rest (by omega))
              fun r g => Finds.imp (List.suffix_cons b rest) ?_
            rintro _ _ ⟨body, text, rest', hquoted, rfl, rfl, rfl⟩
            refine ⟨b :: body, b :: text, rest', .char ⟨?_, ?_, ?_, ?_⟩ hquoted, by simp, rfl, rfl⟩
            · exact fun h => hc ((readChar_eof_iff b).mpr h)
            · rintro rfl
              exact hslash (by decide)
            · rintro rfl
              exact hquote (by decide)
            · simpa using hcntrl

theorem Quoted.eq_nil {body : Bytes} (h : Quoted body []) : body = [34] := by
  cases h
  rfl

theorem Quoted.ne_nil {body text : Bytes} (h : Quoted body text) : body ≠ [] := by
  cases h <;> exact List.cons_ne_nil _ _

theorem runs_pullDigits (taken : Bytes) (h : (255 : UInt8) ∉ taken) (digits more : Bytes)
    (saver : WhitespaceSaver) :
    Runs At (pullDigits taken.length digits) ⟨taken ++ more, 1, saver⟩ (digits ++ taken)
      ⟨more, 1, saver⟩ := by
  induction taken generalizing digits with
  | nil =>
      rw [List.append_nil]
      exact Runs.pure digits
  | cons b taken ih =>
      rw [List.mem_cons, not_or] at h
      refine Runs.bind (runs_next (b :: taken ++ more) saver) ?_
      have hb : ¬readChar b = -1 := fun hc => h.1 ((readChar_eof_iff b).mp hc).symm
      have hrest := ih h.2 (digits ++ [b])
      rw [List.append_assoc] at hrest
      rw [List.cons_append, peek, if_neg hb, toChar_readChar]
      exact hrest

theorem runs_pullEscapeSequence {e : Bytes} {c : UInt8} (h : Escape e c) (s more : Bytes)
    (saver : WhitespaceSaver) :
    Runs At (pullEscapeSequence s) ⟨e ++ more, 1, saver⟩ (s ++ [c]) ⟨more, 1, saver⟩ := by
  refine Runs.bind (runs_next (e ++ more) saver) ?_
  cases h with
  | single h =>
      simp only [escapes, List.mem_cons, List.not_mem_nil, or_false, Prod.mk.injEq] at h
      rcases h with ⟨rfl, rfl⟩ | ⟨rfl, rfl⟩ | ⟨rfl, rfl⟩ | ⟨rfl, rfl⟩ | ⟨rfl, rfl⟩ | ⟨rfl, rfl⟩ |
        ⟨rfl, rfl⟩ | ⟨rfl, rfl⟩
      all_goals exact Runs.pure _
  | @unicode digits hlength hdigits =>
      have hpull := runs_pullDigits digits hdigits [] more saver
      rw [hlength] at hpull
      exact Runs.bind hpull (Runs.pure _)

-- A text that is quoted is read as what it stands for.
theorem runs_pullQuotedLoop {body text : Bytes} (h : Quoted body text) (n : ℕ) (s more : Bytes)
    (saver : WhitespaceSaver) (hn : body.length ≤ n) :
    Runs At (pullQuotedLoop n s) ⟨body ++ more, 1, saver⟩ (s ++ text) ⟨more, 1, saver⟩ := by
  induction h generalizing n s with
  | close =>
      obtain ⟨n, rfl⟩ : ∃ m, n = m + 1 := ⟨n - 1, by rw [List.length_singleton] at hn; omega⟩
      rw [List.append_nil]
      exact Runs.bind (runs_next _ saver) (Runs.pure _)
  | @char b body text hb h ih =>
      rw [List.length_cons] at hn
      obtain ⟨n, rfl⟩ : ∃ m, n = m + 1 := ⟨n - 1, by omega⟩
      obtain ⟨heof, hslash, hquote, hcntrl⟩ := hb
      refine Runs.bind (runs_next _ saver) ?_
      have hrest := ih n (s ++ [b]) (by omega)
      rw [List.append_assoc] at hrest
      have heof' : ¬readChar b = -1 := fun hc => heof ((readChar_eof_iff b).mp hc)
      have hslash' : ¬readChar b = 92 := fun hc => hslash (readChar_inj (c := 92) hc)
      have hquote' : ¬readChar b = 34 := fun hc => hquote (readChar_inj (c := 34) hc)
      rw [List.cons_append, peek, if_neg heof', if_neg hslash', if_neg hquote', toChar_readChar,
        hcntrl, if_neg Bool.false_ne_true]
      exact hrest
  | @escape e c body text he h ih =>
      rw [List.length_cons, List.length_append] at hn
      obtain ⟨n, rfl⟩ : ∃ m, n = m + 1 := ⟨n - 1, by omega⟩
      refine Runs.bind (runs_next _ saver) ?_
      have hrest := ih n (s ++ [c]) (by omega)
      rw [List.append_assoc] at hrest
      have hescape := runs_pullEscapeSequence he s (body ++ more) saver
      rw [← List.append_assoc] at hescape
      exact Runs.bind hescape hrest

-- A string in three quotes ends somewhere in the text.
theorem results_appendTripleQuotedLoop (n : ℕ) (s : Bytes) (quotes : ℕ) (more : Bytes)
    (saver : WhitespaceSaver) (hn : more.length < n) :
    Results At (appendTripleQuotedLoop n s quotes) ⟨more, 1, saver⟩ (Finds more saver fun _ g =>
      g.more <:+ more ∧ g.room = 2 ∧ g.saver = saver) := by
  induction n generalizing s quotes more with
  | zero => omega
  | succ n ih =>
      have hnext : ∀ (s : Bytes) (quotes : ℕ), peek more ≠ -1 →
          Results At (appendTripleQuotedLoop n s quotes) ⟨more.tail, 1, saver⟩
            (Finds more saver fun _ g => g.more <:+ more ∧ g.room = 2 ∧ g.saver = saver) := by
        intro s quotes hc
        obtain ⟨b, rest, rfl, _⟩ := peek_ne_eof _ hc
        rw [List.length_cons] at hn
        refine Results.imp (ih s quotes rest (by omega))
          fun r g => Finds.imp (List.suffix_cons b rest) ?_
        rintro _ g ⟨hmore, hg⟩
        exact ⟨hmore.trans (List.suffix_cons b rest), hg⟩
      refine Results.bind_runs (runs_next more saver) ?_
      refine Results.ite (fun h => hnext _ _ (by rw [h]; decide)) fun _ => ?_
      refine Results.ite (fun _ => ?_) fun _ => Results.ite (fun _ => ?_) fun hc => hnext _ _ hc
      · refine Results.bind_runs (runs_putBack more saver (by omega)) ?_
        exact Results.pure ⟨List.suffix_rfl, rfl, rfl⟩
      · exact results_problem _ _ _ (List.tail_suffix more) (by omega)

-- The string that a quoted token starts with, unless three quotes open it.
def ReadsQuoted (more : Bytes) (saver : WhitespaceSaver) (t : Token) (g : Place) : Prop :=
  g.room ≤ 2 ∧ g.saver = saver ∧ ∃ text, t = .value (.configString () text) ∧
    ((∃ body, Quoted body text ∧ more = body ++ g.more ∧ (text = [] → g.more.head? ≠ some 34)) ∨
      ∃ rest, more = 34 :: 34 :: rest ∧ g.more <:+ rest)

theorem results_pullQuotedString (more : Bytes) (saver : WhitespaceSaver) :
    Results At pullQuotedString ⟨more, 1, saver⟩ (Finds more saver (ReadsQuoted more saver)) := by
  refine results_rounds fun n hn => ?_
  refine results_bind (results_pullQuotedLoop n [] more saver hn) List.suffix_rfl ?_
  rintro s _ ⟨body, text, rest, hquoted, hs, rfl, rfl⟩
  obtain rfl : s = text := hs
  refine Results.ite (fun hempty => ?_) fun hempty => ?_
  · obtain rfl : s = [] := List.isEmpty_iff.mp hempty
    obtain rfl := hquoted.eq_nil
    refine Results.bind_runs (runs_next rest saver) ?_
    refine Results.ite (fun hthird => ?_) fun hthird => ?_
    · obtain ⟨b, rest, rfl, hpeek⟩ := peek_ne_eof rest (by rw [hthird]; decide)
      obtain rfl : b = 34 := readChar_inj (hpeek.symm.trans (hthird.trans (by decide)))
      have hsuffix : rest <:+ [34] ++ 34 :: rest :=
        (List.suffix_cons 34 rest).trans (List.suffix_append [34] _)
      refine results_rounds fun n hn => ?_
      refine results_bind (results_appendTripleQuotedLoop n [] 0 rest saver hn) hsuffix ?_
      rintro s ⟨more', room', saver'⟩ ⟨hmore, hroom, hsaver⟩
      exact Results.pure ⟨hroom.le, hsaver, s, rfl, .inr ⟨rest, rfl, hmore⟩⟩
    · refine Results.bind_runs (runs_putBack rest saver (by omega)) ?_
      refine Results.pure ⟨le_rfl, rfl, [], rfl, .inl ⟨[34], .close, rfl, ?_⟩⟩
      intro _ hhead
      obtain ⟨rest', rfl⟩ := List.head?_eq_some_iff.mp hhead
      exact hthird rfl
  · refine Results.pure ⟨Nat.le_succ 1, rfl, s, rfl, .inl ⟨body, hquoted, rfl, ?_⟩⟩
    rintro rfl
    exact absurd rfl hempty

theorem runs_pullQuotedString {body text more : Bytes} (h : Quoted body text)
    (hmore : text = [] → more.head? ≠ some 34) (saver : WhitespaceSaver) :
    Runs At pullQuotedString ⟨body ++ more, 1, saver⟩ (.value (.configString () text))
      ⟨more, 2, saver⟩ := by
  refine runs_rounds fun n hn => ?_
  dsimp only at hn
  rw [List.length_append] at hn
  refine Runs.bind (runs_pullQuotedLoop h n [] more saver (by omega)) ?_
  rw [List.nil_append]
  by_cases hempty : text.isEmpty = true
  · rw [if_pos hempty]
    refine Runs.bind (runs_next more saver) ?_
    have hthird : ¬peek more = 34 := by
      intro hthird
      obtain ⟨b, rest, rfl, hpeek⟩ := peek_ne_eof more (by rw [hthird]; decide)
      obtain rfl : b = 34 := readChar_inj (hpeek.symm.trans hthird)
      exact hmore (List.isEmpty_iff.mp hempty) rfl
    rw [if_neg hthird]
    exact Runs.bind (runs_putBack more saver (by omega)) (Runs.pure _)
  · rw [if_neg hempty]
    exact runs_weaken (Runs.pure _) (Nat.le_succ 1)

section

variable (doubles : Doubles) (allowComments : Bool)

theorem numberToken_eq (s : Bytes) (containedDecimalOrE : Bool) (g : Place)
    {post : Except TokenizerError Token → Place → Prop}
    (h : post (numberResult doubles s containedDecimalOrE) g) :
    Results At (numberToken doubles s containedDecimalOrE) g post := by
  unfold numberResult at h
  refine Results.ite (fun hpoint => ?_) fun hpoint => ?_
  · rw [if_pos hpoint] at h
    rcases hcast : doubles.cast s with _ | _ | n
    · rw [hcast] at h
      exact Results.throw h
    · rw [hcast] at h
      exact Results.pure h
    · rw [hcast] at h
      exact Results.pure h
  · rw [if_neg hpoint] at h
    cases hcast : lexicalInt64 s with
    | none =>
        rw [hcast] at h
        exact Results.throw h
    | some n =>
        rw [hcast] at h
        exact Results.pure h

theorem results_pullNumberLoop (n : ℕ) (s : Bytes) (contained : Bool) (more : Bytes)
    (saver : WhitespaceSaver) (hn : more.length < n)
    {post : Except TokenizerError Token → Place → Prop}
    (h : post (numberResult doubles (s ++ more.takeWhile isNumberByte)
        (contained || (more.takeWhile isNumberByte).any fun b => b = 46 || b = 101))
      ⟨more.dropWhile isNumberByte, 2, saver⟩) :
    Results At (pullNumberLoop doubles n s contained (peek more)) ⟨more.tail, 1, saver⟩ post := by
  induction n generalizing s contained more with
  | zero => omega
  | succ n ih =>
      refine Results.ite (fun hc => ?_) fun hc => ?_
      · rw [Bool.and_eq_true, decide_eq_true_eq] at hc
        obtain ⟨b, rest, rfl, hpeek⟩ := peek_ne_eof _ hc.1
        rw [hpeek, toChar_readChar] at hc ⊢
        have hb : isNumberByte b = true := hc.2
        rw [List.length_cons] at hn
        refine Results.bind_runs (runs_next rest saver) ?_
        apply ih _ _ _ (by omega)
        rw [List.takeWhile_cons_of_pos hb, List.dropWhile_cons_of_pos hb, List.any_cons] at h
        rw [List.append_assoc, List.singleton_append, Bool.or_assoc, Bool.or_assoc]
        have hpoint : decide (readChar b = 46) = decide (b = 46) := by
          rw [decide_eq_decide]
          exact readChar_eq_iff (c := 46)
        have hexponent : decide (readChar b = 101) = decide (b = 101) := by
          rw [decide_eq_decide]
          exact readChar_eq_iff (c := 101)
        rw [hpoint, hexponent, ← Bool.or_assoc (decide (b = 46))]
        exact h
      · refine Results.bind_runs (runs_putBack more saver (by omega)) ?_
        apply numberToken_eq
        have hstop : more.takeWhile isNumberByte = [] ∧ more.dropWhile isNumberByte = more := by
          cases more with
          | nil => exact ⟨rfl, rfl⟩
          | cons b rest =>
              have hb : ¬isNumberByte b = true := by
                intro hb
                apply hc
                rw [Bool.and_eq_true, decide_eq_true_eq]
                refine ⟨?_, by rw [peek, toChar_readChar]; exact hb⟩
                intro heof
                obtain rfl := (readChar_eof_iff b).mp heof
                revert hb
                decide
              exact ⟨List.takeWhile_cons_of_neg hb, List.dropWhile_cons_of_neg hb⟩
        rw [hstop.1, hstop.2, List.append_nil, List.any_nil, Bool.or_false] at h
        exact h

-- The number with the first byte `b` is what comes up to the first other character.
theorem results_pullNumber (b : UInt8) (more : Bytes) (saver : WhitespaceSaver)
    {post : Except TokenizerError Token → Place → Prop}
    (h : post (scanNumber doubles b more).1 ⟨(scanNumber doubles b more).2, 2, saver⟩) :
    Results At (pullNumber doubles (readChar b)) ⟨more, 1, saver⟩ post := by
  refine Results.bind_runs (runs_next more saver) ?_
  refine results_rounds fun n hn => ?_
  rw [toChar_readChar]
  apply results_pullNumberLoop
  · rw [List.length_tail] at hn
    omega
  · rw [Bool.false_or]
    exact h

theorem runs_startOfComment (more : Bytes) (saver : WhitespaceSaver) :
    Runs At (startOfComment allowComments (peek more)) ⟨more.tail, 1, saver⟩
      (startsComment allowComments more) ⟨more.tail, 1, saver⟩ := by
  have hput : Runs At (do
        let maybeSecondSlash ← nextCharRaw
        putBack maybeSecondSlash
        return maybeSecondSlash = 47 : Pull Bool) ⟨more.tail, 1, saver⟩
      (decide (peek more.tail = 47)) ⟨more.tail, 1, saver⟩ := by
    refine Runs.bind (runs_nextCharRaw more.tail 1 saver) ?_
    exact Runs.bind (runs_putBack more.tail saver (by omega)) (Runs.pure _)
  have hpeek : decide (peek more.tail = 47) = decide (more.tail.head? = some 47) := by
    rw [decide_eq_decide]
    cases more.tail with
    | nil => decide
    | cons b rest =>
        rw [List.head?_cons, Option.some.injEq]
        exact readChar_eq_iff (c := 47)
  rw [hpeek] at hput
  unfold startOfComment
  split
  · rename_i heof
    have hnone : startsComment allowComments more = false := by
      cases more with
      | nil => rfl
      | cons b rest =>
          obtain rfl := (readChar_eof_iff b).mp heof
          simp [startsComment]
    rw [hnone]
    exact Runs.pure _
  · rename_i heof
    obtain ⟨b, rest, rfl, hb⟩ := peek_ne_eof _ heof
    have hhash : readChar b = 35 ↔ b = 35 := readChar_eq_iff (c := 35)
    have hslash : readChar b = 47 ↔ b = 47 := readChar_eq_iff (c := 47)
    rw [hb]
    simp only [hhash, hslash, startsComment]
    by_cases hallow : allowComments
    · by_cases h35 : b = 35
      · simp only [h35, hallow]
        exact Runs.pure _
      · by_cases h47 : b = 47
        · simp only [h47, hallow]
          exact hput
        · simp only [h35, h47, hallow]
          exact Runs.pure _
    · simp only [hallow]
      exact Runs.pure _

theorem peek_endsUnquoted (more : Bytes) :
    (peek more = -1 || notInUnquotedText.contains (toChar (peek more)) ||
      isWhitespace (peek more)) = more.head?.all endsUnquoted := by
  cases more with
  | nil => rfl
  | cons b rest =>
      have heof : decide (readChar b = -1) = decide (b = 255) := by
        rw [decide_eq_decide]
        exact readChar_eof_iff b
      rw [peek, toChar_readChar, heof]
      rfl

-- An unquoted text goes on to the first byte that ends it, or to a word.
theorem runs_pullUnquotedTextLoop (n : ℕ) (sb more : Bytes) (saver : WhitespaceSaver)
    (hn : more.length < n) :
    Runs At (pullUnquotedTextLoop allowComments n sb (peek more)) ⟨more.tail, 1, saver⟩
      (scanUnquoted allowComments sb more).1 ⟨(scanUnquoted allowComments sb more).2, 2, saver⟩ := by
  induction n generalizing sb more with
  | zero => omega
  | succ n ih =>
      have hputBack : Runs At (do
            putBack (peek more)
            return .unquotedText sb : Pull Token) ⟨more.tail, 1, saver⟩
          (.unquotedText sb) ⟨more, 2, saver⟩ :=
        Runs.bind (runs_putBack more saver (by omega)) (Runs.pure _)
      rw [pullUnquotedTextLoop, peek_endsUnquoted]
      cases more with
      | nil => exact Runs.bind (Runs.pure true) hputBack
      | cons b more =>
          rw [List.head?_cons, Option.all_some]
          rw [scanUnquoted]
          by_cases hends : endsUnquoted b = true
          · rw [if_pos hends, hends, Bool.true_or, if_pos rfl]
            exact Runs.bind (Runs.pure true) hputBack
          rw [if_neg hends, Bool.eq_false_iff.mpr hends, Bool.false_or]
          refine Runs.bind (runs_startOfComment allowComments (b :: more) saver) ?_
          beta_reduce
          by_cases hcomment : startsComment allowComments (b :: more) = true
          · rw [if_pos hcomment, if_pos hcomment]
            exact hputBack
          · rw [if_neg hcomment, if_neg hcomment, peek, toChar_readChar]
            dsimp only
            cases wordToken (sb ++ [b]) with
            | some word => exact runs_weaken (Runs.pure word) (Nat.le_succ 1)
            | none =>
                refine Runs.bind (runs_next more saver) ?_
                rw [List.length_cons] at hn
                exact ih (sb ++ [b]) more (by omega)

theorem runs_pullCommentLoop (n : ℕ) (s more : Bytes) (saver : WhitespaceSaver)
    (hn : more.length < n) :
    Runs At (pullCommentLoop n s) ⟨more, 1, saver⟩
      (.comment (s ++ more.takeWhile (!endsComment ·)))
      ⟨more.dropWhile (!endsComment ·), 2, saver⟩ := by
  induction n generalizing s more with
  | zero => omega
  | succ n ih =>
      have hputBack : Runs At (do
            putBack (peek more)
            return .comment s : Pull Token) ⟨more.tail, 1, saver⟩ (.comment s) ⟨more, 2, saver⟩ :=
        Runs.bind (runs_putBack more saver (by omega)) (Runs.pure _)
      refine Runs.bind (runs_next more saver) ?_
      cases more with
      | nil =>
          rw [List.takeWhile_nil, List.append_nil]
          exact hputBack
      | cons b more =>
          have hends : (decide (peek (b :: more) = -1) || decide (peek (b :: more) = 10)) =
              endsComment b := by
            rw [endsComment, peek, decide_eq_decide.mpr (readChar_eof_iff b)]
            exact congrArg _ (decide_eq_decide.mpr (readChar_eq_iff (c := 10)))
          rw [hends]
          by_cases hb : endsComment b = true
          · rw [if_pos hb, List.takeWhile_cons_of_neg (by simpa using hb),
              List.dropWhile_cons_of_neg (by simpa using hb), List.append_nil]
            exact hputBack
          · rw [if_neg hb, List.takeWhile_cons_of_pos (by simpa using hb),
              List.dropWhile_cons_of_pos (by simpa using hb), peek, toChar_readChar]
            rw [List.length_cons] at hn
            have hrest := ih (s ++ [b]) more (by omega)
            rw [List.append_assoc] at hrest
            exact hrest

end

-- The blanks before a token, where they are kept.
def WhitespaceSaver.save (saver : WhitespaceSaver) (blanks : Bytes) : WhitespaceSaver :=
  if saver.lastTokenWasSimpleValue then { saver with whitespace := saver.whitespace ++ blanks }
  else saver

theorem WhitespaceSaver.save_nil (saver : WhitespaceSaver) : saver.save [] = saver := by
  rw [save, List.append_nil, ite_id]

theorem WhitespaceSaver.save_append (saver : WhitespaceSaver) (blanks blanks' : Bytes) :
    saver.save (blanks ++ blanks') = (saver.save blanks).save blanks' := by
  by_cases h : saver.lastTokenWasSimpleValue
  · simp only [save, h, ite_true, List.append_assoc]
  · simp only [save, h, ite_false, Bool.false_eq_true]

theorem runs_saveWhitespace (b : UInt8) (more : Bytes) (room : ℕ) (saver : WhitespaceSaver) :
    Runs At (saveWhitespace (readChar b)) ⟨more, room, saver⟩ () ⟨more, room, saver.save [b]⟩ := by
  rintro ⟨rest, buffered, saver'⟩ ⟨hrest, hbuffered, hinside, rfl⟩
  refine ⟨_, rfl, ?_⟩
  rw [toChar_readChar, WhitespaceSaver.save]
  split
  · exact ⟨hrest, hbuffered, hinside, rfl⟩
  · exact ⟨hrest, hbuffered, hinside, rfl⟩

theorem runs_nextCharAfterWhitespaceLoop (n : ℕ) (more : Bytes) (saver : WhitespaceSaver)
    (hn : more.length < n) :
    Runs At (nextCharAfterWhitespaceLoop n) ⟨more, 2, saver⟩ (peek (more.dropWhile isBlank))
      ⟨(more.dropWhile isBlank).tail, 1, saver.save (more.takeWhile isBlank)⟩ := by
  induction n generalizing more saver with
  | zero => omega
  | succ n ih =>
      refine Runs.bind (runs_nextCharRaw more 2 saver) ?_
      cases more with
      | nil =>
          rw [List.takeWhile_nil, WhitespaceSaver.save_nil]
          exact Runs.pure _
      | cons b more =>
          rw [peek, ← isBlank]
          by_cases hb : isBlank b = true
          · rw [if_pos hb, List.dropWhile_cons_of_pos hb, List.takeWhile_cons_of_pos hb]
            rw [List.length_cons] at hn
            have hrest := ih more (saver.save [b]) (by omega)
            rw [← WhitespaceSaver.save_append] at hrest
            refine Runs.bind (runs_weaken (runs_saveWhitespace b more 1 saver) (Nat.le_succ 1)) ?_
            exact hrest
          · rw [if_neg hb, List.dropWhile_cons_of_neg hb, List.takeWhile_cons_of_neg hb,
              WhitespaceSaver.save_nil]
            exact Runs.pure _

theorem runs_nextCharAfterWhitespace (more : Bytes) (saver : WhitespaceSaver) :
    Runs At nextCharAfterWhitespace ⟨more, 2, saver⟩ (peek (more.dropWhile isBlank))
      ⟨(more.dropWhile isBlank).tail, 1, saver.save (more.takeWhile isBlank)⟩ :=
  runs_rounds fun n hn => runs_nextCharAfterWhitespaceLoop n more saver hn

end AsrServiceProxy.Config

import AsrServiceProxy.Config.Tokenizer.Progress

-- The tokens of a text, one after the other: where the first one is known, the text
-- behind it decides the others.
namespace AsrServiceProxy.Config

open CMemory Simulation

theorem Escape.unique {e e' more more' : Bytes} {c c' : UInt8} (h : Escape e c)
    (h' : Escape e' c') (heq : e ++ more = e' ++ more') : e = e' ∧ c = c' := by
  have hfirst : ∀ c : UInt8, ((117, c) : UInt8 × UInt8) ∉ escapes := by
    intro c hc
    simp [escapes] at hc
  have hfunctional : ∀ x ∈ escapes, ∀ y ∈ escapes, x.1 = y.1 → x.2 = y.2 := by
    simp [escapes]
  cases h with
  | single h =>
      cases h' with
      | single h' =>
          obtain ⟨rfl, _⟩ := List.cons.inj heq
          exact ⟨rfl, hfunctional _ h _ h' rfl⟩
      | unicode =>
          obtain ⟨rfl, _⟩ := List.cons.inj heq
          exact absurd h (hfirst c)
  | @unicode digits hlength =>
      cases h' with
      | single h' =>
          obtain ⟨rfl, _⟩ := List.cons.inj heq
          exact absurd h' (hfirst c')
      | @unicode digits' hlength' =>
          have hdigits := (List.cons.inj heq).2
          obtain ⟨rfl, _⟩ := List.append_inj hdigits (hlength.trans hlength'.symm)
          exact ⟨rfl, rfl⟩

theorem Quoted.unique {body body' text text' more more' : Bytes} (h : Quoted body text)
    (h' : Quoted body' text') (heq : body ++ more = body' ++ more') :
    body = body' ∧ text = text' := by
  induction h generalizing body' text' with
  | close =>
      cases h' with
      | close => exact ⟨rfl, rfl⟩
      | char hb => exact absurd (List.cons.inj heq).1.symm hb.2.2.1
      | escape => cases (List.cons.inj heq).1
  | @char b body text hb h ih =>
      cases h' with
      | close => exact absurd (List.cons.inj heq).1 hb.2.2.1
      | char _ h' =>
          obtain ⟨rfl, htail⟩ := List.cons.inj heq
          obtain ⟨rfl, rfl⟩ := ih h' htail
          exact ⟨rfl, rfl⟩
      | escape => exact absurd (List.cons.inj heq).1 hb.2.1
  | @escape e c body text he h ih =>
      cases h' with
      | close => cases (List.cons.inj heq).1
      | char hb => exact absurd (List.cons.inj heq).1.symm hb.2.1
      | @escape e' c' body' text' he' h' =>
          have htail : e ++ body ++ more = e' ++ body' ++ more' := (List.cons.inj heq).2
          rw [List.append_assoc, List.append_assoc] at htail
          obtain ⟨rfl, rfl⟩ := he.unique he' htail
          obtain ⟨rfl, rfl⟩ := ih h' (List.append_cancel_left htail)
          exact ⟨rfl, rfl⟩

section

variable {doubles : Doubles} {allowComments : Bool} {b : UInt8} {more rest : Bytes}
  {r : Except TokenizerError Token}

theorem Lexes.of_punctuation {t : Token} (hb : Punctuation b t)
    (h : Lexes doubles allowComments (b :: more) r rest) : r = .ok t ∧ rest = more := by
  cases h with
  | punctuation hb' =>
      cases hb <;> cases hb' <;> exact ⟨rfl, rfl⟩
  | comment h =>
      cases hb <;> simp [startsComment] at h
  | unquoted hb' =>
      cases hb <;> cases hb'
  | number _ hb' =>
      cases hb <;> cases hb'
  | problem _ _ _ _ _ hother => exact absurd hb (hother t)
  | eof | plusEquals | string | tripleQuoted | substitution => cases hb

theorem Lexes.of_string {body text : Bytes} (hquoted : Quoted body text)
    (hmore : text = [] → more.head? ≠ some 34)
    (h : Lexes doubles allowComments (34 :: (body ++ more)) r rest) :
    r = .ok (.value (.configString () text)) ∧ rest = more := by
  generalize hleft : 34 :: (body ++ more) = left at h
  cases h with
  | punctuation hb =>
      obtain ⟨rfl, _⟩ := List.cons.inj hleft
      cases hb
  | comment h =>
      obtain ⟨rfl, _⟩ := List.cons.inj hleft
      simp [startsComment] at h
  | string hquoted' =>
      have heq := (List.cons.inj hleft).2
      obtain ⟨rfl, rfl⟩ := hquoted.unique hquoted' heq
      exact ⟨rfl, (List.append_cancel_left heq).symm⟩
  | tripleQuoted text' hrest =>
      have heq := (List.cons.inj hleft).2
      obtain ⟨rfl, rfl⟩ := hquoted.unique Quoted.close heq
      have htail := List.append_cancel_left heq
      exact absurd (by rw [htail]; rfl) (hmore rfl)
  | number _ hb =>
      obtain ⟨rfl, _⟩ := List.cons.inj hleft
      cases hb
  | unquoted hb =>
      obtain ⟨rfl, _⟩ := List.cons.inj hleft
      cases hb
  | problem _ _ _ _ _ _ hstring =>
      obtain ⟨rfl, heq⟩ := List.cons.inj hleft
      exact absurd ⟨body, text, more, hquoted, hmore, heq.symm⟩ (hstring rfl)
  | last => cases hleft
  | eof | plusEquals | substitution => cases (List.cons.inj hleft).1

theorem firstNumberChars_plain {b : UInt8} (hb : firstNumberChars.contains b = true) :
    isBlank b = false ∧ notInUnquotedText.contains b = false ∧ b ≠ 46 ∧ b ≠ 69 ∧ b ≠ 101 := by
  have hall : ∀ b ∈ firstNumberChars, isBlank b = false ∧ notInUnquotedText.contains b = false ∧
      b ≠ 46 ∧ b ≠ 69 ∧ b ≠ 101 := by
    decide +kernel
  exact hall b (List.contains_iff_mem.mp hb)

theorem Lexes.of_number (hb : firstNumberChars.contains b = true)
    (h : Lexes doubles allowComments (b :: more) r rest) :
    r = (scanNumber doubles b more).1 ∧ rest = (scanNumber doubles b more).2 := by
  have hreserved := (firstNumberChars_plain hb).2.1
  cases h with
  | number => exact ⟨rfl, rfl⟩
  | punctuation h => cases h <;> cases hb
  | comment h =>
      simp only [startsComment, Bool.and_eq_true, Bool.or_eq_true, decide_eq_true_eq] at h
      rcases h.2 with rfl | ⟨rfl, _⟩ <;> cases hb
  | unquoted _ _ hnumber =>
      rw [hb] at hnumber
      cases hnumber
  | problem h =>
      rw [hreserved] at h
      cases h
  | eof | plusEquals | string | tripleQuoted | substitution => cases hb

theorem Lexes.of_unquoted (hb : endsUnquoted b = false)
    (hcomment : startsComment allowComments (b :: more) = false)
    (hnumber : firstNumberChars.contains b = false)
    (h : Lexes doubles allowComments (b :: more) r rest) :
    r = .ok (scanUnquoted allowComments [] (b :: more)).1 ∧
      rest = (scanUnquoted allowComments [] (b :: more)).2 := by
  cases h with
  | unquoted => exact ⟨rfl, rfl⟩
  | punctuation h => cases h <;> cases hb
  | comment h =>
      rw [hcomment] at h
      cases h
  | number _ h =>
      rw [hnumber] at h
      cases h
  | problem h =>
      rw [endsUnquoted, h, Bool.or_true, Bool.true_or] at hb
      cases hb
  | eof | plusEquals | string | tripleQuoted | substitution => cases hb

-- What the stream delivers from a place on.
def Streams (doubles : Doubles) (allowComments : Bool) (more : Bytes) (saver : WhitespaceSaver)
    (post : List Token → Prop) : Prop :=
  ∀ n s, At s ⟨more, 2, saver⟩ → more.length < n → post (deliver doubles allowComments n s)

variable {saver : WhitespaceSaver} {post : List Token → Prop}

theorem streams_last (h : more.dropWhile isBlank = []) (hpost : post [.end_]) :
    Streams doubles allowComments more saver post := by
  intro n s hs hn
  obtain ⟨n, rfl⟩ : ∃ m, n = m + 1 := ⟨n - 1, by omega⟩
  have hresult := results_queueNextToken doubles allowComments more saver s hs
  rw [deliver]
  cases hnext : queueNextToken doubles allowComments s with
  | ok result s' =>
      obtain ⟨whitespace, t⟩ := result
      rw [hnext] at hresult
      obtain ⟨⟨more', room', saver'⟩, _, hlexes, _, _, rfl⟩ := hresult
      rw [h] at hlexes
      generalize hr : Except.ok t = r at hlexes
      cases hlexes
      cases hr
      exact hpost
  | error e s' =>
      rw [hnext] at hresult
      obtain ⟨g, _, hlexes, _⟩ := hresult
      rw [h] at hlexes
      cases hlexes

-- The first token is known, and the blanks before it.
theorem streams_token {t : Token} (ht : t ≠ .end_)
    (h : ∀ r rest', Lexes doubles allowComments (more.dropWhile isBlank) r rest' →
      r = .ok t ∧ rest' = rest)
    (hrest : Streams doubles allowComments rest (.after t) fun ts =>
      post (((saver.save (more.takeWhile isBlank)).before t).toList ++ t :: ts)) :
    Streams doubles allowComments more saver post := by
  intro n s hs hn
  obtain ⟨n, rfl⟩ : ∃ m, n = m + 1 := ⟨n - 1, by omega⟩
  have hresult := results_queueNextToken doubles allowComments more saver s hs
  have hle := (List.dropWhile_suffix (l := more) isBlank).length_le
  rw [deliver]
  cases hnext : queueNextToken doubles allowComments s with
  | ok result s' =>
      obtain ⟨whitespace, t'⟩ := result
      rw [hnext] at hresult
      obtain ⟨⟨more', room', saver'⟩, hat, hlexes, hroom, rfl, rfl⟩ := hresult
      obtain ⟨heq, rfl⟩ := h _ _ hlexes
      obtain rfl : t' = t := Except.ok.inj heq
      have hlt := hlexes.length_lt (by simpa using ht)
      have hpost := hrest n s' (hat.weaken hroom) (by omega)
      cases t' with
      | end_ => exact absurd rfl ht
      | _ => exact hpost
  | error e s' =>
      rw [hnext] at hresult
      obtain ⟨g, _, hlexes, _⟩ := hresult
      cases (h _ _ hlexes).1

-- A problem comes first.
theorem streams_problem
    (h : ∀ r rest', Lexes doubles allowComments (more.dropWhile isBlank) r rest' →
      ∃ what message suggestQuotes, r = .error (.problem what message suggestQuotes))
    (hpost : ∀ what message suggestQuotes ts, post (.problem what message suggestQuotes :: ts)) :
    Streams doubles allowComments more saver post := by
  intro n s hs hn
  obtain ⟨n, rfl⟩ : ∃ m, n = m + 1 := ⟨n - 1, by omega⟩
  have hresult := results_queueNextToken doubles allowComments more saver s hs
  rw [deliver]
  cases hnext : queueNextToken doubles allowComments s with
  | ok result s' =>
      obtain ⟨whitespace, t⟩ := result
      rw [hnext] at hresult
      obtain ⟨g, _, hlexes, _⟩ := hresult
      obtain ⟨_, _, _, heq⟩ := h _ _ hlexes
      cases heq
  | error e s' =>
      rw [hnext] at hresult
      obtain ⟨g, _, hlexes, _⟩ := hresult
      obtain ⟨what, message, suggestQuotes, heq⟩ := h _ _ hlexes
      obtain rfl := Except.error.inj heq
      exact hpost what message suggestQuotes _

end

end AsrServiceProxy.Config

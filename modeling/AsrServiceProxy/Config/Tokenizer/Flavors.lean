import AsrServiceProxy.Config.Json.Tokens

-- The token stream is the same with and without comments, where no token comes that
-- JSON has no use for.
namespace AsrServiceProxy.Config

open CMemory

-- Where the first run gives a token of JSON, the second one gives it too.
def GivesAlike (m m' : Pull Token) : Prop :=
  ∀ s t s', m s = .ok t s' → t.isForeign = false → m' s = .ok t s'

def GivesForeign (m : Pull Token) : Prop :=
  ∀ s t s', m s = .ok t s' → t.isForeign = true

section

variable {α : Type} {m m' : Pull Token} {f f' : α → Pull Token}

theorem GivesAlike.refl (m : Pull Token) : GivesAlike m m := fun _ _ _ hrun _ => hrun

theorem GivesForeign.alike (h : GivesForeign m) : GivesAlike m m' := by
  intro s t s' hrun hjson
  rw [h s t s' hrun] at hjson
  cases hjson

theorem GivesAlike.bind (x : Pull α) (h : ∀ a, GivesAlike (f a) (f' a)) :
    GivesAlike (x >>= f) (x >>= f') := by
  intro s t s' hrun hjson
  simp only [Bind.bind, EStateM.bind] at hrun ⊢
  cases hx : x s with
  | ok a u =>
      simp only [hx] at hrun ⊢
      exact h a u t s' hrun hjson
  | error e u =>
      simp only [hx] at hrun
      cases hrun

theorem GivesForeign.bind (x : Pull α) (h : ∀ a, GivesForeign (f a)) :
    GivesForeign (x >>= f) := by
  intro s t s' hrun
  simp only [Bind.bind, EStateM.bind] at hrun
  cases hx : x s with
  | ok a u =>
      simp only [hx] at hrun
      exact h a u t s' hrun
  | error e u =>
      simp only [hx] at hrun
      cases hrun

theorem GivesAlike.ite {c : Prop} [Decidable c] {n n' : Pull Token} (h : c → GivesAlike m m')
    (hn : ¬c → GivesAlike n n') : GivesAlike (if c then m else n) (if c then m' else n') := by
  by_cases hc : c
  · rw [if_pos hc, if_pos hc]
    exact h hc
  · rw [if_neg hc, if_neg hc]
    exact hn hc

theorem GivesForeign.ite {c : Prop} [Decidable c] {n : Pull Token} (h : c → GivesForeign m)
    (hn : ¬c → GivesForeign n) : GivesForeign (if c then m else n) := by
  by_cases hc : c
  · rw [if_pos hc]
    exact h hc
  · rw [if_neg hc]
    exact hn hc

theorem GivesForeign.pure {t : Token} (h : t.isForeign = true) : GivesForeign (pure t) := by
  intro s t' s' hrun
  obtain ⟨rfl, rfl⟩ := EStateM.Result.ok.inj hrun
  exact h

theorem GivesForeign.throw {e : TokenizerError} : GivesForeign (throw e) := by
  intro s t s' hrun
  cases hrun

end

-- Outside `#` and `/` no comment starts.
theorem startOfComment_false {allowComments : Bool} {c : ℤ}
    (h : allowComments = false ∨ c ≠ 35 ∧ c ≠ 47) : startOfComment allowComments c = pure false := by
  unfold startOfComment
  rcases h with rfl | ⟨hhash, hslash⟩
  · simp
  · simp [hhash, hslash]

-- No word has a slash in it.
theorem wordToken_slash {sb : Bytes} (h : 47 ∈ sb) : wordToken sb = none := by
  have hne (word : Bytes) (hword : 47 ∉ word) : sb ≠ word := by
    rintro rfl
    exact hword h
  rw [wordToken, if_neg (hne _ (by decide)), if_neg (hne _ (by decide)),
    if_neg (hne _ (by decide))]

-- What is done with a character of an unquoted text, where a slash came before or is it.
theorem givesForeign_slash {n : ℕ} {sb : Bytes} {c : ℤ} (h : 47 ∈ sb ++ [toChar c]) :
    GivesForeign (pullUnquotedTextLoop false n sb c) := by
  induction n generalizing sb c with
  | zero => exact .throw
  | succ n ih =>
      have hnext (stop : Bool) : GivesForeign (if stop then do
            putBack c
            return .unquotedText sb
          else do pullUnquotedTextLoop false n (sb ++ [toChar c]) (← nextCharRaw)) :=
        .ite (fun _ => .bind _ fun _ => .pure rfl) fun _ =>
          .bind _ fun c' => ih (List.mem_append_left _ h)
      unfold pullUnquotedTextLoop
      simp only [wordToken_slash h]
      exact .ite (fun _ => .bind _ hnext) fun _ => .bind _ hnext

-- Where a comment would start, JSON comes to an unquoted text.
theorem givesForeign_slashes : GivesForeign (do
    putBack 47
    pullUnquotedText false) := by
  intro s t s' hrun
  by_cases hfull : s.buffered > 2
  · simp [Bind.bind, EStateM.bind, putBack, hfull] at hrun
  · simp only [Bind.bind, EStateM.bind, putBack, hfull, if_false, pullUnquotedText, nextCharRaw,
      rounds] at hrun
    exact givesForeign_slash (by decide) _ _ _ hrun

theorem givesAlike_pullUnquotedTextLoop (n : ℕ) (sb : Bytes) (c : ℤ) :
    GivesAlike (pullUnquotedTextLoop false n sb c) (pullUnquotedTextLoop true n sb c) := by
  induction n generalizing sb c with
  | zero => exact .refl _
  | succ n ih =>
      by_cases hslash : c = 47
      · -- the text is none of the words
        apply GivesForeign.alike
        apply givesForeign_slash
        rw [hslash]
        exact List.mem_append_right sb (List.mem_singleton.mpr (by decide))
      have hhash (hstop : ¬(c = -1 || notInUnquotedText.contains (toChar c) || isWhitespace c)) :
          c ≠ 35 := by
        rintro rfl
        exact hstop (by decide)
      unfold pullUnquotedTextLoop
      dsimp only
      cases hword : wordToken (sb ++ [toChar c]) with
      | some word =>
          refine .ite (fun _ => .refl _) fun hstop => ?_
          rw [startOfComment_false (.inl rfl), startOfComment_false (.inr ⟨hhash hstop, hslash⟩)]
          exact .refl _
      | none =>
          have hrest (stop : Bool) : GivesAlike
              (if stop then (do putBack c; return .unquotedText sb)
                else do pullUnquotedTextLoop false n (sb ++ [toChar c]) (← nextCharRaw))
              (if stop then (do putBack c; return .unquotedText sb)
                else do pullUnquotedTextLoop true n (sb ++ [toChar c]) (← nextCharRaw)) :=
            .ite (fun _ => .refl _) fun _ => .bind _ fun c' => ih _ c'
          refine .ite (fun _ => .bind _ hrest) fun hstop => ?_
          rw [startOfComment_false (.inl rfl), startOfComment_false (.inr ⟨hhash hstop, hslash⟩)]
          exact .bind _ hrest

theorem givesForeign_pullSubstitutionLoop (pullNext : Pull Token) (n : ℕ) (optional : Bool)
    (expression : List Token) :
    GivesForeign (pullSubstitutionLoop pullNext n optional expression) := by
  induction n generalizing expression with
  | zero => exact .throw
  | succ n ih =>
      unfold pullSubstitutionLoop
      refine .bind _ fun t => ?_
      have hrest : GivesForeign (do
          let whitespace ← checkWhitespace t
          pullSubstitutionLoop pullNext n optional (expression ++ whitespace.toList ++ [t])) :=
        .bind _ fun whitespace => ih _
      cases t with
      | closeCurly => exact .pure rfl
      | end_ => exact .throw
      | _ => exact hrest

theorem givesForeign_pullSubstitution (pullNext : Pull Token) :
    GivesForeign (pullSubstitution pullNext) := by
  have hown {m : Pull Token} (h : GivesForeign m) : GivesForeign (withOwnSaver m) := by
    intro s t s' hrun
    unfold withOwnSaver at hrun
    cases hm : m { s with saver := .makeInstance } with
    | ok t' u =>
        simp only [hm] at hrun
        obtain ⟨rfl, rfl⟩ := EStateM.Result.ok.inj hrun
        exact h _ _ _ hm
    | error e u =>
        simp only [hm] at hrun
        cases hrun
  have hloop (optional : Bool) : GivesForeign (withOwnSaver do
      pullSubstitutionLoop pullNext (← rounds) optional []) :=
    hown (.bind _ fun n => givesForeign_pullSubstitutionLoop pullNext n optional [])
  unfold pullSubstitution
  refine .bind _ fun c => .ite (fun _ => .throw) fun _ => .bind _ fun c' => ?_
  exact .ite (fun _ => .bind _ fun _ => hloop _) fun _ => hloop _

section

variable (doubles : Doubles)

theorem givesAlike_pullToken (pullNext pullNext' : Pull Token) :
    GivesAlike (pullToken doubles false (pullSubstitution pullNext))
      (pullToken doubles true (pullSubstitution pullNext')) := by
  unfold pullToken
  refine .bind _ fun c => .ite (fun _ => .refl _) fun _ => .ite (fun _ => .refl _) fun _ => ?_
  rw [startOfComment_false (.inl rfl), pure_bind, if_neg Bool.false_ne_true]
  by_cases hhash : c = 35
  · subst hhash
    exact GivesForeign.alike .throw
  by_cases hslash : c = 47
  · subst hslash
    exact givesForeign_slashes.alike
  rw [startOfComment_false (.inr ⟨hhash, hslash⟩), pure_bind, if_neg Bool.false_ne_true]
  refine .ite (fun _ => .refl _) fun _ => .ite (fun _ => ?_) fun _ => ?_
  · exact (givesForeign_pullSubstitution pullNext).alike
  iterate 8 refine .ite (fun _ => .refl _) fun _ => ?_
  refine .ite (fun _ => .refl _) fun _ => .ite (fun _ => .refl _) fun _ => .bind _ fun _ => ?_
  exact .bind _ fun c' => .bind _ fun n => givesAlike_pullUnquotedTextLoop _ [] c'

theorem givesAlike_pullNextToken (depth : ℕ) :
    GivesAlike (pullNextToken doubles false depth) (pullNextToken doubles true depth) := by
  cases depth with
  | zero => exact .refl _
  | succ depth => exact givesAlike_pullToken doubles _ _

-- What one call pushes to the queue.
theorem queueNextToken_alike {s s' : TokenStream} {whitespace : Option Token} {t : Token}
    (hrun : queueNextToken doubles false s = .ok (whitespace, t) s')
    (ht : t.isForeign = false) : queueNextToken doubles true s = .ok (whitespace, t) s' := by
  have hrounds (allowComments : Bool) : queueNextToken doubles allowComments s =
      (pullNextToken doubles allowComments (s.rest.length + 1) >>= fun t => do
        let whitespace ← checkWhitespace t
        return (whitespace, t)) s := rfl
  rw [hrounds] at hrun ⊢
  simp only [Bind.bind, EStateM.bind] at hrun ⊢
  cases hpull : pullNextToken doubles false (s.rest.length + 1) s with
  | error e u =>
      simp only [hpull] at hrun
      cases hrun
  | ok t' u =>
      simp only [hpull] at hrun
      have htoken : t' = t := by
        cases hcheck : checkWhitespace t' u with
        | ok w u' =>
            simp only [hcheck] at hrun
            exact (Prod.mk.inj (EStateM.Result.ok.inj hrun).1).2
        | error e u' =>
            simp only [hcheck] at hrun
            cases hrun
      subst htoken
      rw [givesAlike_pullNextToken doubles _ s t' u hpull ht]
      exact hrun

def Token.isRaised : Token → Bool
  | .thrown _ => true
  | _ => false

theorem deliver_alike (n : ℕ) (s : TokenStream)
    (h : ∀ t ∈ deliver doubles false n s, t.isForeign = false ∧ t.isRaised = false) :
    deliver doubles true n s = deliver doubles false n s := by
  induction n generalizing s with
  | zero => rfl
  | succ n ih =>
      cases hqueue : queueNextToken doubles false s with
      | ok r s' =>
          obtain ⟨whitespace, t⟩ := r
          cases t with
          | end_ =>
              have halike := queueNextToken_alike doubles hqueue rfl
              simp only [deliver, hqueue, halike]
          | _ =>
              simp only [deliver, hqueue] at h
              have ht := h _ (List.mem_append_right _ List.mem_cons_self)
              have halike := queueNextToken_alike doubles hqueue ht.1
              have hrest := ih s' fun t' ht' =>
                h t' (List.mem_append_right _ (List.mem_cons_of_mem _ ht'))
              simp only [deliver, hqueue, halike, hrest]
      | error e s' =>
          cases e with
          | problem what message suggestQuotes =>
              simp only [deliver, hqueue] at h
              have hforeign := (h _ List.mem_cons_self).1
              cases hforeign
          | exception e =>
              simp only [deliver, hqueue] at h
              have hraised := (h _ List.mem_cons_self).2
              cases hraised

end

theorem tokenize_alike (doubles : Doubles) (input : Bytes)
    (h : ∀ t ∈ tokenize doubles input .JSON, t.isForeign = false ∧ t.isRaised = false) :
    tokenize doubles input .CONF = tokenize doubles input .JSON := by
  unfold tokenize at h ⊢
  exact congrArg (Token.start :: ·)
    (deliver_alike doubles _ _ fun t ht => h t (List.mem_cons_of_mem _ ht))

end AsrServiceProxy.Config

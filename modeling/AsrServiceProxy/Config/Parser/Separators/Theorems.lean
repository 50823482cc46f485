import AsrServiceProxy.Config.Parser.Separators
import AsrServiceProxy.Config.Resolve

-- Two runs of the parser read the same value, when one list of tokens has a newline
-- where the other one has a comma.
namespace AsrServiceProxy.Config

open CMemory Simulation

section

variable {l l' : List Token} {p : List Path} {α : Type}

-- What is computed apart from the tokens comes out the same.
def Computes {α : Type} (pre pre' : List Token × List Path) (a : α) (g : List Token × List Path)
    (a' : α) (g' : List Token × List Path) : Prop :=
  a = a' ∧ pre = g ∧ pre' = g'

theorem follows_ofMake {lost : α → List Token × List Path → Prop} (m : Make Unit α)
    (pre pre' : List Token × List Path) :
    Follows Stands (ofMake m) (ofMake m) pre pre' (Computes pre pre') lost := by
  intro s s' hs hs' a u hrun
  cases hm : m () with
  | error e _ => simp [ofMake, hm] at hrun
  | ok b _ =>
      simp only [ofMake, hm] at hrun ⊢
      obtain ⟨rfl, rfl⟩ := EStateM.Result.ok.inj hrun
      exact .inr ⟨b, s', pre, pre', rfl, hs, hs', rfl, rfl, rfl⟩

theorem follows_ofExcept {lost : α → List Token × List Path → Prop}
    (m : Except ConfigException α) (pre pre' : List Token × List Path) :
    Follows Stands (ofExcept m) (ofExcept m) pre pre' (Computes pre pre') lost := by
  intro s s' hs hs' a u hrun
  cases m with
  | error e => exact absurd hrun nofun
  | ok b =>
      obtain ⟨rfl, rfl⟩ := EStateM.Result.ok.inj hrun
      exact .inr ⟨b, s', pre, pre', rfl, hs, hs', rfl, rfl, rfl⟩

theorem stands_putBack {t : TokenWithComments} {s : ParseContext} (hs : Stands s (l, p)) :
    Stands { s with buffer := t :: s.buffer } (t.token :: l, p) :=
  ⟨congrArg (t.token :: ·) hs.pending, hs.paths⟩

theorem follows_putBackToken {lost : Unit → List Token × List Path → Prop}
    (t t' : TokenWithComments) (l l' : List Token) (p p' : List Path) :
    Follows Stands (putBackToken t) (putBackToken t') (l, p) (l', p')
      (fun _ g _ g' => g = (t.token :: l, p) ∧ g' = (t'.token :: l', p')) lost := by
  intro s s' hs hs' _ u hrun
  obtain ⟨-, rfl⟩ := EStateM.Result.ok.inj hrun
  exact .inr ⟨(), _, _, _, rfl, stands_putBack hs, stands_putBack hs', rfl, rfl⟩

theorem follows_parseRounds {lost : ℕ → List Token × List Path → Prop} (l l' : List Token)
    (p p' : List Path) :
    Follows Stands parseRounds parseRounds (l, p) (l', p')
      (fun _ g n' g' => l'.length < n' ∧ g = (l, p) ∧ g' = (l', p')) lost := by
  intro s s' hs hs' n u hrun
  obtain ⟨-, rfl⟩ := EStateM.Result.ok.inj hrun
  exact .inr ⟨_, s', (l, p), (l', p'), rfl, hs, hs', length_lt_rounds hs', rfl, rfl⟩

theorem meets_parseRounds_same (g : List Token × List Path) :
    Meets Stands parseRounds g (fun _ g' => g' = g) fun _ => True :=
  fun _ hs => ⟨g, hs, rfl⟩

-- A token that ends the run, with nothing left to be compared.
def Fails {α : Type} (m : Parse α) (g : List Token × List Path) : Prop :=
  Meets Stands m g (fun _ _ => False) fun _ => True

theorem Fails.bind {β : Type} {m : Parse α} {f : α → Parse β} {g : List Token × List Path}
    (h : Fails m g) : Fails (m >>= f) g :=
  Meets.bind h fun _ _ => False.elim

theorem Fails.throw {e : ConfigException} {g : List Token × List Path} :
    Fails (throw e : Parse α) g :=
  Meets.throw trivial

theorem Fails.follows {m m' : Parse α} {g g' : List Token × List Path}
    {post : α → List Token × List Path → α → List Token × List Path → Prop}
    {lost : α → List Token × List Path → Prop} (h : Fails m g) :
    Follows Stands m m' g g' post lost := by
  intro s s' hs _ a u hrun
  have hnever := h s hs
  rw [hrun] at hnever
  obtain ⟨_, _, hfalse⟩ := hnever
  exact hfalse.elim

end

-- The two runs made the same thing of the tokens.
def Makes {α : Type} (p : List Path) (bound : ℕ) (a : α) (g : List Token × List Path) (a' : α)
    (g' : List Token × List Path) : Prop :=
  a = a' ∧ Twins p bound g g'

-- Readers of values that agree, the second one as deep as the tokens need it.
structure ReadsAlike (read read' : TokenWithComments → Parse (Value Unit)) (bound : ℕ) : Prop where
  follows (t t' : TokenWithComments) (l l' : List Token) (p : List Path)
    (htoken : t'.token = t.token) (hnear : Near l l') (hl : Regular (t.token :: l))
    (hlength : l'.length < bound) :
    Follows Stands (read t) (read' t') (l, p) (l', p) (Makes p l'.length) Nothing
  fails (t : TokenWithComments) (g : List Token × List Path) (ht : t.token = .comma) :
    Fails (read t) g

section

variable {l l' : List Token} {p : List Path} {read read' : TokenWithComments → Parse (Value Unit)}
  {bound : ℕ} (hread : ReadsAlike read read' bound)

include hread

-- What ends a value is left to both runs.
theorem follows_pieceOf {t t' : TokenWithComments} (hnear : Near (t.token :: l) (t'.token :: l'))
    (hl : Regular (t.token :: l)) (hlength : l'.length < bound) :
    Follows Stands (pieceOf read t) (pieceOf read' t') (l, p) (l', p)
      (fun r g r' g' => r = r' ∧ match r with
        | none => g = (l, p) ∧ g' = (l', p)
        | some _ => Twins p l'.length g g') Nothing := by
  obtain ⟨_, _, heq, ⟨rfl, hrest⟩ | ⟨hcomma, rfl, -⟩⟩ := hnear.head
  · obtain ⟨htoken, rfl⟩ := List.cons.inj heq
    have htwins (hne : t.token ≠ .end_) : Twins p l'.length (l, p) (l', p) :=
      ⟨hrest, (hl.tail hne).2, rfl, rfl, le_rfl⟩
    have hnested : Follows Stands (do return some (← read t) : Parse (Option (Value Unit)))
        (do return some (← read' t')) (l, p) (l', p)
        (fun r g r' g' => r = r' ∧ match r with
          | none => g = (l, p) ∧ g' = (l', p)
          | some _ => Twins p l'.length g g') Nothing := by
      refine Follows.seq (hread.follows t t' l l' p htoken hrest hl hlength) ?_
      rintro v g _ g' ⟨rfl, hg⟩
      exact Follows.pure ⟨rfl, hg⟩
    unfold pieceOf
    rw [htoken]
    cases ht : t.token with
    | value v => exact Follows.pure ⟨rfl, htwins (by rw [ht]; nofun)⟩
    | unquotedText text => exact Follows.pure ⟨rfl, htwins (by rw [ht]; nofun)⟩
    | substitution optional expression =>
        refine Follows.seq (follows_ofExcept _ _ _) ?_
        rintro path g _ g' ⟨rfl, rfl, rfl⟩
        exact Follows.pure ⟨rfl, htwins (by rw [ht]; nofun)⟩
    | openCurly => exact hnested
    | openSquare => exact hnested
    | _ => exact Follows.pure ⟨rfl, rfl, rfl⟩
  · obtain ⟨htoken, rfl⟩ := List.cons.inj heq
    unfold pieceOf
    rw [htoken, hcomma]
    exact Follows.pure ⟨rfl, rfl, rfl⟩

theorem follows_piecesLoop (n n' : ℕ) {t t' : TokenWithComments}
    (hnear : Near (t.token :: l) (t'.token :: l')) (hl : Regular (t.token :: l))
    (hlength : l'.length < bound) (hn' : l'.length < n') (values : List (Value Unit)) :
    Follows Stands (piecesLoop .CONF read n t values) (piecesLoop .CONF read' n' t' values)
      (l, p) (l', p)
      (fun vs g vs' g' => vs = vs' ∧
        (vs = values ∧ g = (t.token :: l, p) ∧ g' = (t'.token :: l', p) ∨
          vs ≠ [] ∧ Twins p l'.length g g')) Nothing := by
  induction n generalizing n' t t' l l' values with
  | zero => exact Follows.throw
  | succ n ih =>
      obtain ⟨n', rfl⟩ := Nat.exists_eq_succ_of_ne_zero (Nat.ne_of_gt (Nat.zero_lt_of_lt hn'))
      unfold piecesLoop
      refine Follows.seq (follows_pieceOf hread hnear hl hlength) ?_
      rintro r g _ g' ⟨rfl, hr⟩
      cases r with
      | none =>
          obtain ⟨rfl, rfl⟩ := hr
          refine Follows.seq (follows_putBackToken t t' l l' p p) ?_
          rintro _ _ _ _ ⟨rfl, rfl⟩
          exact Follows.pure ⟨rfl, .inl ⟨rfl, rfl, rfl⟩⟩
      | some v =>
          obtain ⟨l₁, p₁⟩ := g
          obtain ⟨l₁', p₁'⟩ := g'
          obtain ⟨hnear₁, hl₁, rfl, rfl, hle⟩ : Twins p l'.length (l₁, p₁) (l₁', p₁') := hr
          dsimp only at hnear₁ hl₁ hle
          cases l₁ with
          | nil => exact absurd rfl hl₁.ne_nil
          | cons x l₁ =>
              obtain ⟨x', l₁', rfl, -⟩ := hnear₁.head
              rw [List.length_cons] at hle
              refine Follows.seq (follows_nextToken hnear₁ hl₁) ?_
              rintro r _ r' _ ⟨rfl, rfl, rfl, rfl⟩
              refine Follows.imp (ih n' hnear₁ hl₁ (by omega) (by omega) (values ++ [v])) ?_
                fun _ _ => id
              rintro vs g _ g' ⟨rfl, ⟨rfl, rfl, rfl⟩ | ⟨hne, htwins⟩⟩
              · exact ⟨rfl, .inr ⟨by simp, hnear₁, hl₁, rfl, rfl, hle⟩⟩
              · refine ⟨rfl, .inr ⟨hne, { htwins with length_le := ?_ }⟩⟩
                exact htwins.length_le.trans (by omega)

omit hread in
theorem meets_putBack_comma {t : TokenWithComments} {g : List Token × List Path}
    (h : TookComma p t g) : Meets Stands (putBackToken t) g (fun _ => Lost p) fun _ => True := by
  intro s hs
  refine ⟨(t.token :: g.1, g.2), stands_putBack hs, ?_⟩
  rw [h.token]
  exact ⟨.comma g.1, .cons rfl h.regular, h.paths⟩

omit hread in
-- A comma is left where a value should start.
theorem meets_consolidate_comma (n : ℕ) {t : TokenWithComments} {g : List Token × List Path}
    (h : TookComma p t g) :
    Meets Stands (piecesLoop .CONF read n t []) g (fun vs g => vs = [] ∧ Lost p g)
      fun _ => True := by
  cases n with
  | zero => exact Meets.throw trivial
  | succ n =>
      have hpiece : pieceOf read t = pure none := by
        unfold pieceOf
        rw [h.token]
      rw [piecesLoop, hpiece, pure_bind]
      exact Meets.bind (meets_putBack_comma h) fun _ _ hlost => Meets.pure ⟨rfl, hlost⟩

omit hread in
theorem meets_consolidate_after {t : TokenWithComments} {g : List Token × List Path}
    (h : TookComma p t g) : Meets Stands (do
        let values ← piecesLoop .CONF read (← parseRounds) t []
        if values.isEmpty then return
        match ← ofMake (concatenate .plain values) with
        | none => throw (.undefinedBehaviour "null value")
        | some consolidated =>
            putBackToken { token := .value consolidated, comments := t.comments }) g
      (fun _ => Lost p) fun _ => True := by
  refine Meets.bind (meets_parseRounds_same g) ?_
  rintro n _ rfl
  refine Meets.bind (meets_consolidate_comma n h) ?_
  rintro _ g' ⟨rfl, hlost⟩
  exact Meets.pure hlost

omit hread in
theorem meets_consolidate_of_lost {g : List Token × List Path} (h : Lost p g) :
    Meets Stands (consolidateValueTokens .CONF read) g (fun _ => Lost p) fun _ => True := by
  refine Meets.bind (meets_next_of_lost h) fun t g' hcomma => ?_
  exact meets_consolidate_after hcomma

theorem follows_consolidateValueTokens (h : LikeAhead l l') (hlength : l'.length ≤ bound) :
    Follows Stands (consolidateValueTokens .CONF read) (consolidateValueTokens .CONF read')
      (l, p) (l', p) (fun _ g _ g' => Twins p l'.length g g') (fun _ => Lost p) := by
  unfold consolidateValueTokens
  refine Follows.bind (follows_nextTokenIgnoringNewline h) ?_ ?_
  · rintro t ⟨l₁, _⟩ t' ⟨l₁', _⟩ ⟨htoken, -, hnear, hl, rfl, rfl, hlt⟩
    dsimp only at hnear hl hlt
    refine Follows.seq (follows_parseRounds l₁ l₁' p p) ?_
    rintro n _ n' _ ⟨hn', rfl, rfl⟩
    have hnear' : Near (t.token :: l₁) (t'.token :: l₁') := by
      rw [htoken]
      exact .cons t.token hnear
    refine Follows.seq (follows_piecesLoop hread n n' hnear' hl (by omega) hn' []) ?_
    rintro vs g _ g' ⟨rfl, hvs⟩
    refine Follows.ite (fun hempty => ?_) fun hempty => ?_
    · rw [List.isEmpty_iff] at hempty
      rcases hvs with ⟨-, rfl, rfl⟩ | ⟨hne, -⟩
      · exact Follows.pure ⟨hnear', hl, rfl, rfl, hlt⟩
      · exact absurd hempty hne
    · rw [List.isEmpty_iff] at hempty
      have htwins : Twins p l₁'.length g g' := by
        rcases hvs with ⟨hnil, -⟩ | ⟨-, htwins⟩
        · exact absurd hnil hempty
        · exact htwins
      refine Follows.seq (follows_ofMake _ g g') ?_
      rintro v _ _ _ ⟨rfl, rfl, rfl⟩
      cases v with
      | none => exact Follows.throw
      | some v =>
          obtain ⟨l₂, p₂⟩ := g
          obtain ⟨l₂', p₂'⟩ := g'
          refine Follows.imp (follows_putBackToken _ _ l₂ l₂' p₂ p₂') ?_
            fun _ _ => id
          rintro _ _ _ _ ⟨rfl, rfl⟩
          exact ⟨.cons _ htwins.near, .cons rfl htwins.regular, htwins.paths, htwins.paths',
            Nat.lt_of_le_of_lt htwins.length_le hlt⟩
  · exact fun t g hcomma => meets_consolidate_after hcomma

end

section

variable {l l' : List Token} {p : List Path} {bound : ℕ}

theorem Twins.mono {bound' : ℕ} {g g' : List Token × List Path} (h : Twins p bound g g')
    (hle : bound ≤ bound') : Twins p bound' g g' :=
  { h with length_le := h.length_le.trans hle }

theorem follows_keyLoop (n n' : ℕ) {t t' : TokenWithComments}
    (hnear : Near (t.token :: l) (t'.token :: l')) (hl : Regular (t.token :: l))
    (hn' : l'.length < n') (expression : List Token) :
    Follows Stands (keyLoop .CONF n t expression) (keyLoop .CONF n' t' expression) (l, p) (l', p)
      (Makes p (l'.length + 1)) Nothing := by
  induction n generalizing n' t t' l l' expression with
  | zero => exact Follows.throw
  | succ n ih =>
      obtain ⟨n', rfl⟩ := Nat.exists_eq_succ_of_ne_zero (Nat.ne_of_gt (Nat.zero_lt_of_lt hn'))
      have hstop : Follows Stands (do
            if expression.isEmpty then
              throw (.parse "expecting a close brace or a field name here, got ")
            putBackToken t
            return expression : Parse (List Token)) (do
            if expression.isEmpty then
              throw (.parse "expecting a close brace or a field name here, got ")
            putBackToken t'
            return expression) (l, p) (l', p) (Makes p (l'.length + 1)) Nothing := by
        refine Follows.ite (fun _ => Follows.throw) fun _ => ?_
        refine Follows.seq (follows_putBackToken t t' l l' p p) ?_
        rintro _ _ _ _ ⟨rfl, rfl⟩
        exact Follows.pure ⟨rfl, hnear, hl, rfl, rfl, le_rfl⟩
      unfold keyLoop
      obtain ⟨_, _, heq, ⟨rfl, hrest⟩ | ⟨hcomma, rfl, -⟩⟩ := hnear.head
      · obtain ⟨htoken, rfl⟩ := List.cons.inj heq
        have hkey (hne : t.token ≠ .end_) : Follows Stands
            (do keyLoop .CONF n (← nextToken .CONF) (expression ++ [t.token]))
            (do keyLoop .CONF n' (← nextToken .CONF) (expression ++ [t.token])) (l, p) (l', p)
            (Makes p (l'.length + 1)) Nothing := by
          have hl₁ := (hl.tail hne).2
          cases l with
          | nil => exact absurd rfl hl₁.ne_nil
          | cons x l₁ =>
              obtain ⟨x', l₁', rfl, -⟩ := hrest.head
              refine Follows.seq (follows_nextToken hrest hl₁) ?_
              rintro r _ r' _ ⟨rfl, rfl, rfl, rfl⟩
              rw [List.length_cons] at hn' ⊢
              refine Follows.imp (ih n' hrest hl₁ (by omega) (expression ++ [t.token])) ?_
                fun _ _ => id
              rintro e g _ g' ⟨rfl, htwins⟩
              exact ⟨rfl, htwins.mono (by omega)⟩
        rw [htoken]
        cases ht : t.token with
        | value v =>
            rw [ht] at hkey
            exact hkey (by simp)
        | unquotedText text =>
            rw [ht] at hkey
            exact hkey (by simp)
        | _ => exact hstop
      · obtain ⟨htoken, rfl⟩ := List.cons.inj heq
        rw [htoken, hcomma]
        exact hstop

theorem follows_parseKey {t t' : TokenWithComments} (htoken : t'.token = t.token)
    (hnear : Near l l') (hl : Regular (t.token :: l)) :
    Follows Stands (parseKey .CONF t) (parseKey .CONF t') (l, p) (l', p)
      (Makes p (l'.length + 1)) Nothing := by
  unfold parseKey
  refine Follows.seq (follows_parseRounds l l' p p) ?_
  rintro n _ n' _ ⟨hn', rfl, rfl⟩
  have hnear' : Near (t.token :: l) (t'.token :: l') := by
    rw [htoken]
    exact .cons t.token hnear
  refine Follows.seq (follows_keyLoop (n + 1) (n' + 1) hnear' hl (by omega) []) ?_
  rintro expression g _ g' ⟨rfl, htwins⟩
  refine Follows.imp (follows_ofExcept _ g g') ?_ fun _ _ => id
  rintro path _ _ _ ⟨rfl, rfl, rfl⟩
  exact ⟨rfl, htwins⟩

-- No key starts with another token.
theorem fails_parseKey {t : TokenWithComments} (ht : t.token.isKey = false)
    (g : List Token × List Path) : Fails (parseKey .CONF t) g := by
  have hloop (n : ℕ) : keyLoop .CONF (n + 1) t [] =
      throw (.parse "expecting a close brace or a field name here, got ") := by
    unfold keyLoop
    cases htoken : t.token with
    | value v =>
        rw [htoken] at ht
        cases ht
    | unquotedText text =>
        rw [htoken] at ht
        cases ht
    | _ => rfl
  intro s hs
  simp only [parseKey, bind, EStateM.bind, parseRounds, hloop]
  trivial

theorem Agreed.mono {bound' : ℕ} {r r' : TokenWithComments} {g g' : List Token × List Path}
    (h : Agreed p bound r g r' g') (hle : bound ≤ bound') : Agreed p bound' r g r' g' :=
  { h with length_lt := h.length_lt.trans_le hle }

theorem Agreed.twins {r r' : TokenWithComments} {g g' : List Token × List Path}
    (h : Agreed p bound r g r' g') (hne : r.token ≠ .end_) : Twins p bound g g' :=
  ⟨h.near, (h.regular.tail hne).2, h.paths, h.paths', h.length_lt.le⟩

-- The blanks after a token; nothing is skipped after a comma.
theorem meets_skipWhitespace_comma {r : TokenWithComments} {g : List Token × List Path}
    (h : TookComma p r g) (n : ℕ) :
    Meets Stands (skipWhitespaceLoop .CONF n r) g (TookComma p) fun _ => True := by
  cases n with
  | zero => exact Meets.throw trivial
  | succ n =>
      unfold skipWhitespaceLoop
      rw [h.token]
      exact Meets.pure h

theorem follows_skipWhitespaceLoop (n n' : ℕ) {t t' : TokenWithComments}
    {g g' : List Token × List Path} (h : Agreed p bound t g t' g') (hn' : g'.1.length < n') :
    Follows Stands (skipWhitespaceLoop .CONF n t) (skipWhitespaceLoop .CONF n' t') g g'
      (Agreed p bound) (TookComma p) := by
  induction n generalizing n' t t' g g' with
  | zero => exact Follows.throw
  | succ n ih =>
      obtain ⟨n', rfl⟩ := Nat.exists_eq_succ_of_ne_zero (Nat.ne_of_gt (Nat.zero_lt_of_lt hn'))
      unfold skipWhitespaceLoop
      rw [h.token]
      refine Follows.ite (fun hblank => ?_) fun _ => Follows.pure h
      have htwins := h.twins (isUnquotedWhitespace_ne_end hblank)
      obtain ⟨l, _⟩ := g
      obtain ⟨l', _⟩ := g'
      obtain rfl := htwins.paths
      obtain rfl := htwins.paths'
      refine Follows.bind (follows_nextTokenIgnoringNewline htwins.likeAhead) ?_ ?_
      · intro r g₁ r' g₁' hagreed
        have hlt := hagreed.length_lt
        dsimp only at hn'
        exact ih n' (hagreed.mono h.length_lt.le) (by omega)
      · exact fun r g₁ hcomma => meets_skipWhitespace_comma hcomma n

theorem follows_nextAfterWhitespace (h : LikeAhead l l') :
    Follows Stands (nextAfterWhitespace .CONF) (nextAfterWhitespace .CONF) (l, p) (l', p)
      (Agreed p l'.length) (TookComma p) := by
  unfold nextAfterWhitespace
  refine Follows.bind (follows_nextTokenIgnoringNewline h) ?_ ?_
  · rintro t ⟨l₁, p₁⟩ t' ⟨l₁', p₁'⟩ hagreed
    refine Follows.seq (follows_parseRounds l₁ l₁' p₁ p₁') ?_
    rintro n _ n' _ ⟨hn', rfl, rfl⟩
    exact follows_skipWhitespaceLoop (n + 1) (n' + 1) hagreed (Nat.lt_succ_of_lt hn')
  · intro t g hcomma
    refine Meets.bind (meets_parseRounds_same g) ?_
    rintro n _ rfl
    exact meets_skipWhitespace_comma hcomma (n + 1)

theorem follows_includeName (h : LikeAhead l l') :
    Follows Stands (includeName .CONF) (includeName .CONF) (l, p) (l', p) (Makes p l'.length)
      Nothing := by
  unfold includeName
  refine Follows.bind (follows_nextAfterWhitespace h) ?_ ?_
  · rintro t ⟨l₁, p₁⟩ t' ⟨l₁', p₁'⟩ hagreed
    have htwins := hagreed.twins
    rw [hagreed.token]
    cases ht : t.token with
    | value v =>
        cases v with
        | configString id name => exact Follows.pure ⟨rfl, htwins (by rw [ht]; nofun)⟩
        | _ => exact Follows.throw
    | unquotedText kind =>
        have htwins := htwins (by rw [ht]; nofun)
        obtain rfl := htwins.paths
        obtain rfl := htwins.paths'
        refine Follows.ite (fun _ => Follows.throw) fun _ => ?_
        refine Follows.bind (follows_nextAfterWhitespace htwins.likeAhead) ?_ ?_
        · rintro t₁ ⟨l₂, p₂⟩ t₁' ⟨l₂', p₂'⟩ hagreed₁
          have htwins₁ := hagreed₁.twins
          rw [hagreed₁.token]
          cases ht₁ : t₁.token with
          | value v =>
              cases v with
              | configString id name =>
                  have htwins₁ := htwins₁ (by rw [ht₁]; nofun)
                  obtain rfl := htwins₁.paths
                  obtain rfl := htwins₁.paths'
                  refine Follows.bind (follows_nextAfterWhitespace htwins₁.likeAhead) ?_ ?_
                  · intro t₂ g t₂' g' hagreed₂
                    have htwins₂ := hagreed₂.twins
                    rw [hagreed₂.token]
                    cases ht₂ : t₂.token with
                    | unquotedText text =>
                        refine Follows.ite (fun _ => Follows.pure ⟨rfl, ?_⟩) fun _ => Follows.throw
                        exact (htwins₂ (by rw [ht₂]; nofun)).mono
                          (htwins₁.length_le.trans htwins.length_le)
                    | _ => exact Follows.throw
                  · intro t₂ g hcomma
                    rw [hcomma.token]
                    exact Fails.throw
              | _ => exact Follows.throw
          | _ => exact Follows.throw
        · intro t₁ g hcomma
          rw [hcomma.token]
          exact Fails.throw
    | _ => exact Follows.throw
  · intro t g hcomma
    rw [hcomma.token]
    exact Fails.throw

theorem follows_addIncluded (fields : List (Bytes × Value Unit)) (values : Fields Unit)
    (pre pre' : List Token × List Path) :
    Follows Stands (addIncluded fields values) (addIncluded fields values) pre pre'
      (Computes pre pre') Nothing := by
  induction fields generalizing values with
  | nil => exact Follows.pure ⟨rfl, rfl, rfl⟩
  | cons field rest ih =>
      obtain ⟨key, v⟩ := field
      unfold addIncluded
      cases values.lookup key with
      | none => exact ih (putField values key v)
      | some existing =>
          refine Follows.seq (follows_ofMake _ pre pre') ?_
          rintro merged _ _ _ ⟨rfl, rfl, rfl⟩
          exact ih (putField values key merged)

theorem follows_get (l l' : List Token) (p : List Path) :
    Follows Stands (get : Parse ParseContext) get (l, p) (l', p)
      (fun s g s' g' => s.pathStack = p ∧ s'.pathStack = p ∧ (l, p) = g ∧ (l', p) = g') Nothing := by
  intro s s' hs hs' _ u hrun
  obtain ⟨rfl, rfl⟩ := EStateM.Result.ok.inj hrun
  exact .inr ⟨s', s', (l, p), (l', p), rfl, hs, hs', hs.paths, hs'.paths, rfl, rfl⟩

theorem follows_parseInclude (includer : Includer) (h : LikeAhead l l') (values : Fields Unit) :
    Follows Stands (parseInclude .CONF includer values) (parseInclude .CONF includer values)
      (l, p) (l', p) (Makes p l'.length) Nothing := by
  unfold parseInclude
  refine Follows.seq (follows_includeName h) ?_
  rintro ⟨name, file⟩ ⟨l₁, p₁⟩ _ ⟨l₁', p₁'⟩ ⟨rfl, htwins⟩
  obtain rfl := htwins.paths
  obtain rfl := htwins.paths'
  refine Follows.seq (follows_ofExcept _ (l₁, p) (l₁', p)) ?_
  rintro obj _ _ _ ⟨rfl, rfl, rfl⟩
  refine Follows.seq (follows_get l₁ l₁' p) ?_
  rintro s _ s' _ ⟨hs, hs', rfl, rfl⟩
  rw [hs, hs']
  have hadd (obj : Value Unit) : Follows Stands (addIncludedObject values obj)
      (addIncludedObject values obj) (l₁, p) (l₁', p) (Makes p l'.length) Nothing := by
    cases obj with
    | simpleConfigObject id fields ignores =>
        refine Follows.imp (follows_addIncluded fields values (l₁, p) (l₁', p)) ?_ fun _ _ h => h
        rintro values' _ _ _ ⟨rfl, rfl, rfl⟩
        exact ⟨rfl, htwins⟩
    | _ => exact Follows.throw
  dsimp only
  cases pathsToConcat p with
  | none => exact hadd obj
  | some path => exact hadd (relativized path obj)

theorem follows_plusEqualsValue (v : Value Unit) (l l' : List Token) (p : List Path) :
    Follows Stands (plusEqualsValue v) (plusEqualsValue v) (l, p) (l', p)
      (Computes (l, p) (l', p)) Nothing := by
  unfold plusEqualsValue
  refine Follows.seq (follows_get l l' p) ?_
  rintro s _ s' _ ⟨hs, hs', rfl, rfl⟩
  rw [hs, hs']
  cases fullCurrentPath p with
  | none => exact Follows.throw
  | some path =>
      refine Follows.seq (follows_ofMake _ (l, p) (l', p)) ?_
      rintro w _ _ _ ⟨rfl, rfl, rfl⟩
      cases w with
      | none => exact Follows.throw
      | some w => exact Follows.pure ⟨rfl, rfl, rfl⟩

theorem follows_storeField (values : Fields Unit) (path : Path) (v : Value Unit)
    (pre pre' : List Token × List Path) :
    Follows Stands (storeField .CONF values path v) (storeField .CONF values path v) pre pre'
      (Computes pre pre') Nothing := by
  have hmerge (w existing : Value Unit) : Follows Stands (do
        let merged ← ofMake (withFallback .plain w existing)
        return putField values path.first merged) (do
        let merged ← ofMake (withFallback .plain w existing)
        return putField values path.first merged) pre pre' (Computes pre pre') Nothing := by
    refine Follows.seq (follows_ofMake _ pre pre') ?_
    rintro merged _ _ _ ⟨rfl, rfl, rfl⟩
    exact Follows.pure ⟨rfl, rfl, rfl⟩
  unfold storeField
  cases path.remainder with
  | none =>
      cases values.lookup path.first with
      | none => exact Follows.pure ⟨rfl, rfl, rfl⟩
      | some existing => exact hmerge v existing
  | some remaining =>
      refine Follows.seq (follows_ofExcept _ pre pre') ?_
      rintro obj _ _ _ ⟨rfl, rfl, rfl⟩
      cases values.lookup path.first with
      | none => exact Follows.pure ⟨rfl, rfl, rfl⟩
      | some existing => exact hmerge obj existing

end

section

variable {l l' : List Token} {p : List Path} {read read' : TokenWithComments → Parse (Value Unit)}
  {bound : ℕ} (hread : ReadsAlike read read' bound)

include hread

-- A value after a separator of its key.
theorem follows_valueAfter (hnear : Near l l') (hl : Regular l) (hlength : l'.length ≤ bound) :
    Follows Stands (do
        consolidateValueTokens .CONF read
        read (← nextTokenIgnoringNewline .CONF)) (do
        consolidateValueTokens .CONF read'
        read' (← nextTokenIgnoringNewline .CONF)) (l, p) (l', p) (Makes p l'.length) Nothing := by
  refine Follows.bind (follows_consolidateValueTokens hread (hnear.likeAhead hl) hlength) ?_ ?_
  · rintro _ ⟨l₁, p₁⟩ _ ⟨l₁', p₁'⟩ htwins
    obtain rfl := htwins.paths
    obtain rfl := htwins.paths'
    have hle := htwins.length_le
    dsimp only at hle
    refine Follows.bind (follows_nextTokenIgnoringNewline htwins.likeAhead) ?_ ?_
    · rintro t ⟨l₂, p₂⟩ t' ⟨l₂', p₂'⟩ ⟨htoken, -, hnear₂, hl₂, rfl, rfl, hlt⟩
      dsimp only at hlt
      refine Follows.imp (hread.follows t t' l₂ l₂' p htoken hnear₂ hl₂ (by omega)) ?_ fun _ _ => id
      rintro v g _ g' ⟨rfl, htwins₂⟩
      exact ⟨rfl, htwins₂.mono (by omega)⟩
    · exact fun t g hcomma => hread.fails t g hcomma.token
  · intro _ g hlost
    refine Meets.bind (meets_next_of_lost hlost) ?_
    exact fun t g hcomma => hread.fails t g hcomma.token

theorem follows_parseFieldValue {t t' : TokenWithComments} (htoken : t'.token = t.token)
    (hnear : Near l l') (hl : Regular (t.token :: l)) (hlength : l'.length < bound) :
    Follows Stands (parseFieldValue .CONF read t) (parseFieldValue .CONF read' t') (l, p) (l', p)
      (Makes p l'.length) Nothing := by
  unfold parseFieldValue
  rw [htoken]
  cases ht : t.token with
  | openCurly => exact hread.follows t t' l l' p htoken hnear hl hlength
  | colon =>
      rw [ht] at hl
      exact follows_valueAfter hread hnear (hl.tail nofun).2 hlength.le
  | equals =>
      rw [ht] at hl
      exact follows_valueAfter hread hnear (hl.tail nofun).2 hlength.le
  | plusEquals =>
      rw [ht] at hl
      have hplus (read : TokenWithComments → Parse (Value Unit)) : (do
            consolidateValueTokens .CONF read
            plusEqualsValue (← read (← nextTokenIgnoringNewline .CONF))) = (do
            consolidateValueTokens .CONF read
            read (← nextTokenIgnoringNewline .CONF)) >>= plusEqualsValue := by
        simp only [bind_assoc]
      simp only [hplus]
      refine Follows.seq (follows_valueAfter hread hnear (hl.tail nofun).2 hlength.le) ?_
      rintro v ⟨l₁, p₁⟩ _ ⟨l₁', p₁'⟩ ⟨rfl, htwins⟩
      obtain rfl := htwins.paths
      obtain rfl := htwins.paths'
      refine Follows.imp (follows_plusEqualsValue v l₁ l₁' p) ?_ fun _ _ h => h
      rintro w _ _ _ ⟨rfl, rfl, rfl⟩
      exact ⟨rfl, htwins⟩
  | _ => exact Follows.throw

omit hread in
theorem follows_pushPath (path : Path) (l l' : List Token) (p : List Path) :
    Follows Stands (pushPath path) (pushPath path) (l, p) (l', p)
      (fun _ g _ g' => g = (l, path :: p) ∧ g' = (l', path :: p)) Nothing := by
  intro s s' hs hs' _ u hrun
  obtain ⟨-, rfl⟩ := EStateM.Result.ok.inj hrun
  exact .inr ⟨(), _, (l, path :: p), (l', path :: p), rfl,
    ⟨hs.pending, congrArg (path :: ·) hs.paths⟩, ⟨hs'.pending, congrArg (path :: ·) hs'.paths⟩,
    rfl, rfl⟩

omit hread in
theorem follows_popPath (path : Path) (l l' : List Token) (p : List Path) :
    Follows Stands popPath popPath (l, path :: p) (l', path :: p)
      (fun _ g _ g' => g = (l, p) ∧ g' = (l', p)) Nothing := by
  intro s s' hs hs' _ u hrun
  obtain ⟨-, rfl⟩ := EStateM.Result.ok.inj hrun
  exact .inr ⟨(), _, (l, p), (l', p), rfl, ⟨hs.pending, congrArg List.tail hs.paths⟩,
    ⟨hs'.pending, congrArg List.tail hs'.paths⟩, rfl, rfl⟩

theorem follows_parseField (values : Fields Unit) {t t' : TokenWithComments}
    (htoken : t'.token = t.token) (hnear : Near l l') (hl : Regular (t.token :: l))
    (hlength : l'.length < bound) :
    Follows Stands (parseField .CONF read values t) (parseField .CONF read' values t')
      (l, p) (l', p) (Makes p l'.length) Nothing := by
  unfold parseField
  refine Follows.seq (follows_parseKey htoken hnear hl) ?_
  rintro path ⟨l₁, p₁⟩ _ ⟨l₁', p₁'⟩ ⟨rfl, htwins⟩
  obtain rfl := htwins.paths
  obtain rfl := htwins.paths'
  have hle := htwins.length_le
  dsimp only at hle
  refine Follows.bind (follows_nextTokenIgnoringNewline htwins.likeAhead) ?_ ?_
  · rintro afterKey ⟨l₂, p₂⟩ afterKey' ⟨l₂', p₂'⟩ ⟨htoken₂, -, hnear₂, hl₂, rfl, rfl, hlt⟩
    dsimp only at hlt
    refine Follows.seq (follows_pushPath path l₂ l₂' p) ?_
    rintro _ _ _ _ ⟨rfl, rfl⟩
    refine Follows.seq (follows_parseFieldValue hread htoken₂ hnear₂ hl₂ (by omega)) ?_
    rintro v ⟨l₃, p₃⟩ _ ⟨l₃', p₃'⟩ ⟨rfl, hnear₃, hl₃, rfl, rfl, hle₃⟩
    dsimp only at hle₃
    refine Follows.seq (follows_popPath path l₃ l₃' p) ?_
    rintro _ _ _ _ ⟨rfl, rfl⟩
    refine Follows.imp (follows_storeField values path v (l₃, p) (l₃', p)) ?_ fun _ _ h => h
    rintro values' _ _ _ ⟨rfl, rfl, rfl⟩
    exact ⟨rfl, hnear₃, hl₃, rfl, rfl, show l₃'.length ≤ l'.length by omega⟩
  · intro afterKey g hcomma
    have hpush : Meets Stands (pushPath path) g (fun _ _ => True) fun _ => True :=
      fun _ hs => ⟨(g.1, path :: g.2), ⟨hs.pending, congrArg (path :: ·) hs.paths⟩, trivial⟩
    refine Meets.bind hpush fun _ g' _ => Fails.bind ?_
    unfold parseFieldValue
    rw [hcomma.token]
    exact Fails.throw

omit hread in
theorem follows_closeField (hadOpenCurly : Bool) (hnear : Near l l') (hl : Regular l) :
    Follows Stands (closeField .CONF hadOpenCurly) (closeField .CONF hadOpenCurly) (l, p) (l', p)
      (Separated p l'.length) (LostAfterSeparator p) := by
  unfold closeField
  refine Follows.bind (follows_checkElementSeparator hnear hl) ?_ ?_
  · rintro saw ⟨l₁, p₁⟩ _ ⟨l₁', p₁'⟩ hseparated
    obtain ⟨rfl, hahead, hrest, rfl, rfl, hle, hlt⟩ := hseparated
    dsimp only at hahead hrest hle hlt
    cases saw with
    | true => exact Follows.pure ⟨rfl, hahead, nofun, rfl, rfl, hle, hlt⟩
    | false =>
        refine Follows.bind (follows_nextTokenIgnoringNewline hahead) ?_ ?_
        · rintro t ⟨l₂, p₂⟩ t' ⟨l₂', p₂'⟩ ⟨htoken, -, hnear₂, hl₂, rfl, rfl, hlt₂⟩
          dsimp only at hlt₂ hl₂ hnear₂
          have hdone (hne : t.token ≠ .end_) : Separated p l'.length false (l₂, p) false (l₂', p) :=
            ⟨rfl, hnear₂.likeAhead (hl₂.tail hne).2, fun _ => hnear₂, rfl, rfl,
              show l₂'.length ≤ l'.length by omega, nofun⟩
          rw [htoken]
          cases ht : t.token with
          | closeCurly =>
              cases hadOpenCurly with
              | true => exact Follows.pure (hdone (by rw [ht]; nofun))
              | false => exact Follows.throw
          | end_ =>
              cases hadOpenCurly with
              | true => exact Follows.throw
              | false =>
                  refine Follows.seq (follows_putBackToken t t' l₂ l₂' p p) ?_
                  rintro _ _ _ _ ⟨rfl, rfl⟩
                  rw [htoken]
                  have hback := Near.cons t.token hnear₂
                  exact Follows.pure ⟨rfl, hback.likeAhead hl₂, fun _ => hback, rfl, rfl,
                    show l₂'.length + 1 ≤ l'.length by omega, nofun⟩
          | _ => cases hadOpenCurly <;> exact Follows.throw
        · intro t g hcomma
          rw [hcomma.token]
          cases hadOpenCurly <;> exact Meets.throw trivial
  · rintro _ g ⟨rfl, hlost⟩
    exact Meets.pure ⟨rfl, hlost⟩

-- What is lost stays lost: the first run throws at the comma.
omit hread in
theorem fails_parseField (values : Fields Unit) {t : TokenWithComments}
    (ht : t.token.isKey = false) (g : List Token × List Path) : Fails (parseField .CONF read values t) g :=
  Fails.bind (fails_parseKey ht g)

omit hread in
theorem fails_parseField_comma (values : Fields Unit) {t : TokenWithComments}
    {g : List Token × List Path} (h : TookComma p t g) : Fails (parseField .CONF read values t) g :=
  fails_parseField values (by rw [h.token]; rfl) g

omit hread in
theorem fails_parseObjectLoop (includer : Includer) (hadOpenCurly : Bool) (n : ℕ)
    (afterComma : Bool) (values : Fields Unit) {g : List Token × List Path} (h : Lost p g) :
    Fails (parseObjectLoop .CONF includer read hadOpenCurly n afterComma values) g := by
  cases n with
  | zero => exact Fails.throw
  | succ n =>
      unfold parseObjectLoop
      refine Meets.bind (meets_next_of_lost h) fun t g' hcomma => ?_
      rw [hcomma.token]
      exact Fails.bind (fails_parseField_comma values hcomma)

theorem follows_parseObjectLoop (includer : Includer) (hadOpenCurly : Bool) (n n' : ℕ)
    (afterComma : Bool) (values : Fields Unit) (h : LikeAhead l l') (hlength : l'.length ≤ bound)
    (hn' : l'.length < n') :
    Follows Stands (parseObjectLoop .CONF includer read hadOpenCurly n afterComma values)
      (parseObjectLoop .CONF includer read' hadOpenCurly n' afterComma values) (l, p) (l', p)
      (Makes p l'.length) Nothing := by
  induction n generalizing n' l l' afterComma values with
  | zero => exact Follows.throw
  | succ n ih =>
      obtain ⟨n', rfl⟩ := Nat.exists_eq_succ_of_ne_zero (Nat.ne_of_gt (Nat.zero_lt_of_lt hn'))
      unfold parseObjectLoop
      refine Follows.bind (follows_nextTokenIgnoringNewline h) ?_ ?_
      · rintro t ⟨l₁, p₁⟩ t' ⟨l₁', p₁'⟩ hagreed
        obtain ⟨htoken, -, hnear₁, hl₁, rfl, rfl, hlt⟩ := hagreed
        dsimp only at hnear₁ hl₁ hlt
        -- a field or an include, and what follows it
        have hround (hne : t.token ≠ .end_) : Follows Stands (do
              let values ←
                if ConfigSyntax.CONF ≠ .JSON && isIncludeKeyword t.token then
                  parseInclude .CONF includer values
                else parseField .CONF read values t
              if ← closeField .CONF hadOpenCurly then
                parseObjectLoop .CONF includer read hadOpenCurly n true values
              else return values) (do
              let values ←
                if ConfigSyntax.CONF ≠ .JSON && isIncludeKeyword t.token then
                  parseInclude .CONF includer values
                else parseField .CONF read' values t'
              if ← closeField .CONF hadOpenCurly then
                parseObjectLoop .CONF includer read' hadOpenCurly n' true values
              else return values) (l₁, p) (l₁', p) (Makes p l'.length) Nothing := by
          have hclose (values : Fields Unit) (g g' : List Token × List Path)
              (htwins : Twins p l₁'.length g g') : Follows Stands (do
                if ← closeField .CONF hadOpenCurly then
                  parseObjectLoop .CONF includer read hadOpenCurly n true values
                else return values) (do
                if ← closeField .CONF hadOpenCurly then
                  parseObjectLoop .CONF includer read' hadOpenCurly n' true values
                else return values) g g' (Makes p l'.length) Nothing := by
            obtain ⟨l₂, p₂⟩ := g
            obtain ⟨l₂', p₂'⟩ := g'
            obtain ⟨hnear₂, hl₂, rfl, rfl, hle⟩ := htwins
            dsimp only at hnear₂ hl₂ hle
            refine Follows.bind (follows_closeField hadOpenCurly hnear₂ hl₂) ?_ ?_
            · rintro more ⟨l₃, p₃⟩ _ ⟨l₃', p₃'⟩ ⟨rfl, hahead, hnear₃, rfl, rfl, hle₃, hlt₃⟩
              dsimp only at hahead hnear₃ hle₃ hlt₃
              cases more with
              | true =>
                  refine Follows.imp (ih n' true values hahead (by omega) (by omega)) ?_
                    fun _ _ h => h
                  rintro values' g _ g' ⟨rfl, htwins⟩
                  exact ⟨rfl, htwins.mono (by omega)⟩
              | false =>
                  exact Follows.pure ⟨rfl, hnear₃ rfl, hahead.regular, rfl, rfl,
                    show l₃'.length ≤ l'.length by omega⟩
            · rintro _ g ⟨rfl, hlost⟩
              exact fails_parseObjectLoop includer hadOpenCurly n true values hlost
          refine Follows.ite (fun hinclude => ?_) fun _ => ?_
          · refine Follows.seq (follows_parseInclude includer
              (hnear₁.likeAhead (hl₁.tail hne).2) values) ?_
            rintro values' g _ g' ⟨rfl, htwins⟩
            exact hclose values' g g' htwins
          · refine Follows.seq (follows_parseField hread values htoken hnear₁ hl₁ (by omega)) ?_
            rintro values' g _ g' ⟨rfl, htwins⟩
            exact hclose values' g g' htwins
        rw [htoken]
        cases ht : t.token with
        | closeCurly =>
            cases hadOpenCurly with
            | true =>
                rw [ht] at hl₁
                exact Follows.pure ⟨rfl, hnear₁, (hl₁.tail nofun).2, rfl, rfl, hlt.le⟩
            | false => exact Follows.throw
        | end_ =>
            cases hadOpenCurly with
            | true =>
                have hkey : t.token.isKey = false := by
                  rw [ht]
                  rfl
                exact Fails.follows (Fails.bind (fails_parseField values hkey (l₁, p)))
            | false =>
                refine Follows.seq (follows_putBackToken t t' l₁ l₁' p p) ?_
                rintro _ _ _ _ ⟨rfl, rfl⟩
                rw [htoken]
                exact Follows.pure ⟨rfl, .cons t.token hnear₁, hl₁, rfl, rfl, hlt⟩
        | _ =>
            rw [ht] at hround
            exact hround nofun
      · intro t g hcomma
        rw [hcomma.token]
        exact Fails.bind (fails_parseField_comma values hcomma)

theorem follows_parseObject (includer : Includer) (hadOpenCurly : Bool) (hnear : Near l l')
    (hl : Regular l) (hlength : l'.length ≤ bound) :
    Follows Stands (parseObject .CONF includer read hadOpenCurly)
      (parseObject .CONF includer read' hadOpenCurly) (l, p) (l', p) (Makes p l'.length)
      Nothing := by
  unfold parseObject
  refine Follows.seq (follows_parseRounds l l' p p) ?_
  rintro n _ n' _ ⟨hn', rfl, rfl⟩
  refine Follows.seq (follows_parseObjectLoop hread includer hadOpenCurly n n' false []
    (hnear.likeAhead hl) hlength hn') ?_
  rintro values g _ g' ⟨rfl, htwins⟩
  exact Follows.pure ⟨rfl, htwins⟩

theorem follows_parseArrayLoop (n n' : ℕ) (values : List (Value Unit)) (hnear : Near l l')
    (hl : Regular l) (hlength : l'.length ≤ bound) (hn' : l'.length < n') :
    Follows Stands (parseArrayLoop .CONF read n values) (parseArrayLoop .CONF read' n' values)
      (l, p) (l', p) (Makes p l'.length) Nothing := by
  induction n generalizing n' l l' values with
  | zero => exact Follows.throw
  | succ n ih =>
      obtain ⟨n', rfl⟩ := Nat.exists_eq_succ_of_ne_zero (Nat.ne_of_gt (Nat.zero_lt_of_lt hn'))
      have hlostElement (values : List (Value Unit)) (g : List Token × List Path)
          (hlost : Lost p g) : Fails (do
            let t ← nextTokenIgnoringNewline .CONF
            if startsElement t.token then
              let v ← read t
              parseArrayLoop .CONF read n (values ++ [v])
            else if ConfigSyntax.CONF ≠ .JSON && isCloseSquare t.token then
              putBackToken t
              parseArrayLoop .CONF read n values
            else
              throw (.parse "_list should have had new element after a comma, instead had token: "))
            g := by
        refine Meets.bind (meets_next_of_lost hlost) fun t g' hcomma => ?_
        rw [hcomma.token]
        exact Fails.throw
      unfold parseArrayLoop
      refine Follows.bind (follows_checkElementSeparator hnear hl) ?_ ?_
      · rintro saw ⟨l₁, p₁⟩ _ ⟨l₁', p₁'⟩ ⟨rfl, hahead, hnear₁, rfl, rfl, hle, hlt⟩
        dsimp only at hahead hnear₁ hle hlt
        cases saw with
        | true =>
            have hlt := hlt rfl
            refine Follows.bind (follows_consolidateValueTokens hread hahead (by omega)) ?_ ?_
            · rintro _ ⟨l₂, p₂⟩ _ ⟨l₂', p₂'⟩ ⟨hnear₂, hl₂, rfl, rfl, hle₂⟩
              dsimp only at hnear₂ hl₂ hle₂
              refine Follows.bind (follows_nextTokenIgnoringNewline (hnear₂.likeAhead hl₂)) ?_ ?_
              · rintro t ⟨l₃, p₃⟩ t' ⟨l₃', p₃'⟩ ⟨htoken, -, hnear₃, hl₃, rfl, rfl, hlt₃⟩
                dsimp only at hnear₃ hl₃ hlt₃
                simp only [htoken]
                refine Follows.ite (fun helement => ?_) fun _ => ?_
                · refine Follows.seq (hread.follows t t' l₃ l₃' p htoken hnear₃ hl₃ (by omega)) ?_
                  rintro v ⟨l₄, p₄⟩ _ ⟨l₄', p₄'⟩ ⟨rfl, hnear₄, hl₄, rfl, rfl, hle₄⟩
                  dsimp only at hnear₄ hl₄ hle₄
                  refine Follows.imp (ih n' (values ++ [v]) hnear₄ hl₄ (by omega) (by omega)) ?_
                    fun _ _ h => h
                  rintro vs g _ g' ⟨rfl, htwins⟩
                  exact ⟨rfl, htwins.mono (by omega)⟩
                · refine Follows.ite (fun _ => ?_) fun _ => Follows.throw
                  refine Follows.seq (follows_putBackToken t t' l₃ l₃' p p) ?_
                  rintro _ _ _ _ ⟨rfl, rfl⟩
                  rw [htoken]
                  have hback : (t.token :: l₃').length ≤ l₂'.length := hlt₃
                  refine Follows.imp (ih n' values (.cons t.token hnear₃) hl₃ (by omega)
                    (by omega)) ?_ fun _ _ h => h
                  rintro vs g _ g' ⟨rfl, htwins⟩
                  exact ⟨rfl, htwins.mono (by omega)⟩
              · intro t g hcomma
                rw [hcomma.token]
                exact Fails.throw
            · intro _ g hlost
              exact hlostElement values g hlost
        | false =>
            refine Follows.bind (follows_nextTokenIgnoringNewline hahead) ?_ ?_
            · rintro t ⟨l₂, p₂⟩ t' ⟨l₂', p₂'⟩ ⟨htoken, -, hnear₂, hl₂, rfl, rfl, hlt₂⟩
              dsimp only at hnear₂ hl₂ hlt₂
              simp only [htoken]
              refine Follows.ite (fun hclose => ?_) fun _ => Follows.throw
              have hne : t.token ≠ .end_ := by
                intro hend
                rw [hend] at hclose
                exact absurd hclose nofun
              exact Follows.pure ⟨rfl, hnear₂, (hl₂.tail hne).2, rfl, rfl,
                show l₂'.length ≤ l'.length by omega⟩
            · intro t g hcomma
              rw [hcomma.token]
              exact Fails.throw
      · rintro _ g ⟨rfl, hlost⟩
        exact Meets.bind (meets_consolidate_of_lost hlost) fun _ g' => hlostElement values g'

theorem follows_parseArray (hnear : Near l l') (hl : Regular l) (hlength : l'.length ≤ bound) :
    Follows Stands (parseArray .CONF read) (parseArray .CONF read') (l, p) (l', p)
      (Makes p l'.length) Nothing := by
  unfold parseArray
  refine Follows.bind (follows_consolidateValueTokens hread (hnear.likeAhead hl) hlength) ?_ ?_
  · rintro _ ⟨l₁, p₁⟩ _ ⟨l₁', p₁'⟩ ⟨hnear₁, hl₁, rfl, rfl, hle₁⟩
    dsimp only at hnear₁ hl₁ hle₁
    refine Follows.bind (follows_nextTokenIgnoringNewline (hnear₁.likeAhead hl₁)) ?_ ?_
    · rintro t ⟨l₂, p₂⟩ t' ⟨l₂', p₂'⟩ ⟨htoken, -, hnear₂, hl₂, rfl, rfl, hlt₂⟩
      dsimp only at hnear₂ hl₂ hlt₂
      simp only [htoken]
      refine Follows.ite (fun hclose => ?_) fun _ => ?_
      · have hne : t.token ≠ .end_ := by
          intro hend
          rw [hend] at hclose
          exact absurd hclose nofun
        exact Follows.pure ⟨rfl, hnear₂, (hl₂.tail hne).2, rfl, rfl,
          show l₂'.length ≤ l'.length by omega⟩
      · refine Follows.ite (fun _ => ?_) fun _ => Follows.throw
        refine Follows.seq (hread.follows t t' l₂ l₂' p htoken hnear₂ hl₂ (by omega)) ?_
        rintro v ⟨l₃, p₃⟩ _ ⟨l₃', p₃'⟩ ⟨rfl, hnear₃, hl₃, rfl, rfl, hle₃⟩
        dsimp only at hnear₃ hl₃ hle₃
        refine Follows.seq (follows_parseRounds l₃ l₃' p p) ?_
        rintro n _ n' _ ⟨hn', rfl, rfl⟩
        refine Follows.seq (follows_parseArrayLoop hread n n' [v] hnear₃ hl₃ (by omega) hn') ?_
        rintro values g _ g' ⟨rfl, htwins⟩
        exact Follows.pure ⟨rfl, htwins.mono (by omega)⟩
    · intro t g hcomma
      rw [hcomma.token]
      exact Fails.throw
  · intro _ g hlost
    refine Meets.bind (meets_next_of_lost hlost) fun t g' hcomma => ?_
    rw [hcomma.token]
    exact Fails.throw

end

-- One level of nesting more in both runs.
theorem readsAlike_parseValue (includer : Includer) (depth depth' : ℕ) :
    ReadsAlike (parseValue .CONF includer depth) (parseValue .CONF includer depth') depth' := by
  induction depth generalizing depth' with
  | zero => exact ⟨fun _ _ _ _ _ _ _ _ _ => Follows.throw, fun _ _ _ => Fails.throw⟩
  | succ depth ih =>
      refine ⟨?_, ?_⟩
      · intro t t' l l' p htoken hnear hl hlength
        obtain ⟨depth', rfl⟩ :=
          Nat.exists_eq_succ_of_ne_zero (Nat.ne_of_gt (Nat.zero_lt_of_lt hlength))
        unfold parseValue
        rw [htoken]
        cases ht : t.token with
        | value v =>
            rw [ht] at hl
            exact Follows.pure ⟨rfl, hnear, (hl.tail (by simp)).2, rfl, rfl, le_rfl⟩
        | openCurly =>
            rw [ht] at hl
            exact follows_parseObject (ih depth') includer true hnear (hl.tail (by simp)).2
              (by omega)
        | openSquare =>
            rw [ht] at hl
            exact follows_parseArray (ih depth') hnear (hl.tail (by simp)).2 (by omega)
        | _ => exact Follows.throw
      · intro t g ht
        unfold parseValue
        rw [ht]
        exact Fails.throw

theorem follows_parseDocument (includer : Includer) {l l' : List Token} (hnear : Near l l')
    (hl : Regular l) :
    Follows Stands (parseDocument .CONF includer) (parseDocument .CONF includer) (l, []) (l', [])
      (fun v _ v' _ => v = v') Nothing := by
  unfold parseDocument
  refine Follows.seq (follows_parseRounds l l' [] []) ?_
  rintro depth _ depth' _ ⟨hdepth, rfl, rfl⟩
  have hread := readsAlike_parseValue includer depth depth'
  -- the end of the document
  have hend (v : Value Unit) (g g' : List Token × List Path) (bound : ℕ)
      (htwins : Twins [] bound g g') :
      Follows Stands (finishDocument .CONF v) (finishDocument .CONF v) g g'
      (fun v _ v' _ => v = v') Nothing := by
    obtain ⟨l₁, p₁⟩ := g
    obtain ⟨l₁', p₁'⟩ := g'
    obtain rfl := htwins.paths
    obtain rfl := htwins.paths'
    refine Follows.bind (follows_nextTokenIgnoringNewline htwins.likeAhead) ?_ ?_
    · intro t g t' g' hagreed
      rw [hagreed.token]
      cases ht : t.token with
      | end_ => exact Follows.pure rfl
      | _ => exact Follows.throw
    · intro t g hcomma
      rw [hcomma.token]
      exact Fails.throw
  refine Follows.bind (follows_nextTokenIgnoringNewline (hnear.likeAhead hl)) ?_ ?_
  · rintro t ⟨l₁, p₁⟩ t' ⟨l₁', p₁'⟩ ⟨htoken, -, hnear₁, hl₁, rfl, rfl, hlt₁⟩
    dsimp only at hnear₁ hl₁ hlt₁
    rw [htoken]
    cases ht : t.token with
    | start =>
        rw [ht] at hl₁
        refine Follows.bind (follows_nextTokenIgnoringNewline
          (hnear₁.likeAhead (hl₁.tail (by simp)).2)) ?_ ?_
        · rintro t₁ ⟨l₂, p₂⟩ t₁' ⟨l₂', p₂'⟩ ⟨htoken₁, -, hnear₂, hl₂, rfl, rfl, hlt₂⟩
          dsimp only at hnear₂ hl₂ hlt₂
          have hvalue := hread.follows t₁ t₁' l₂ l₂' [] htoken₁ hnear₂ hl₂ (by omega)
          have hback : (t₁.token :: l₂').length ≤ l₁'.length := hlt₂
          have hobject := follows_parseObject (p := []) hread includer false
            (.cons t₁.token hnear₂) hl₂ (by omega)
          rw [htoken₁]
          cases ht₁ : t₁.token with
          | openCurly =>
              refine Follows.seq hvalue ?_
              rintro v g _ g' ⟨rfl, htwins⟩
              exact hend v g g' _ htwins
          | openSquare =>
              refine Follows.seq hvalue ?_
              rintro v g _ g' ⟨rfl, htwins⟩
              exact hend v g g' _ htwins
          | _ =>
              refine Follows.seq (follows_putBackToken t₁ t₁' l₂ l₂' [] []) ?_
              rintro _ _ _ _ ⟨rfl, rfl⟩
              rw [htoken₁]
              refine Follows.seq hobject ?_
              rintro v g _ g' ⟨rfl, htwins⟩
              exact hend v g g' _ htwins
        · intro t₁ g hcomma
          rw [hcomma.token]
          refine Meets.bind (meets_putBack_comma hcomma) fun _ g' hlost => ?_
          refine Fails.bind (Meets.bind (meets_parseRounds_same g') ?_)
          rintro n _ rfl
          exact Fails.bind (fails_parseObjectLoop includer false n false [] hlost)
    | _ => exact Follows.throw
  · intro t g hcomma
    rw [hcomma.token]
    exact Fails.throw

-- In a document that is read, a comma was consumed between or after fields or
-- elements, as nothing else takes one; with a newline in its place the same is read.
theorem parseDocument_newline (includer : Includer) (before after : List Token)
    (h : Ended (before ++ .comma :: after)) {v : Value Unit} {s : ParseContext}
    (hparse : parseDocument .CONF includer
      { tokens := .start :: before ++ .comma :: after, buffer := [], pathStack := [] } = .ok v s) :
    ∃ s', parseDocument .CONF includer
      { tokens := .start :: before ++ .newline :: after, buffer := [], pathStack := [] } =
        .ok v s' := by
  have hnear : Near (significant (.start :: before ++ .comma :: after))
      (significant (.start :: before ++ .newline :: after)) := by
    simp only [significant, List.cons_append, List.filter_append, List.filter_cons]
    exact .cons .start ((Near.replaced _).append _)
  have hregular : Regular (significant (.start :: before ++ .comma :: after)) :=
    .cons rfl h.document.regular
  rcases follows_parseDocument includer hnear hregular _
      { tokens := .start :: before ++ .newline :: after, buffer := [], pathStack := [] }
      ⟨rfl, rfl⟩ ⟨rfl, rfl⟩ v s hparse with ⟨_, _, hlost⟩ | ⟨_, s', _, _, hparse', _, _, rfl⟩
  · exact hlost.elim
  · exact ⟨s', hparse'⟩

theorem ok_of_value {α : Type} {m : EStateM.Result ConfigException ParseContext α} {a : α}
    (h : (match m with
      | .ok v _ => some v
      | .error _ _ => none) = some a) : ∃ s, m = .ok a s := by
  cases m with
  | ok v s =>
      obtain rfl := Option.some.inj h
      exact ⟨s, rfl⟩
  | error => cases h

-- The fields `a : true` and `b : false`, with a newline for the comma between them.
theorem parseDocument_newline_fields :
    ∃ s', parseDocument .CONF .none
      { tokens := .start :: [.unquotedText (ascii "a"), .colon, .value (.configBoolean () true)] ++
          .newline :: [.unquotedText (ascii "b"), .colon, .value (.configBoolean () false), .end_]
        buffer := [], pathStack := [] } =
      .ok (.simpleConfigObject () [(ascii "a", .configBoolean () true),
        (ascii "b", .configBoolean () false)] false) s' := by
  have hended : Ended ([.unquotedText (ascii "a"), .colon, .value (.configBoolean () true)] ++
      .comma :: [.unquotedText (ascii "b"), .colon, .value (.configBoolean () false), .end_]) :=
    ⟨[.unquotedText (ascii "a"), .colon, .value (.configBoolean () true), .comma,
      .unquotedText (ascii "b"), .colon, .value (.configBoolean () false)], rfl,
      by simp [Token.isInner, Value.isScalar]⟩
  obtain ⟨s, hparse⟩ : ∃ s, parseDocument .CONF .none
      { tokens := .start :: [.unquotedText (ascii "a"), .colon, .value (.configBoolean () true)] ++
          .comma :: [.unquotedText (ascii "b"), .colon, .value (.configBoolean () false), .end_]
        buffer := [], pathStack := [] } =
      .ok (.simpleConfigObject () [(ascii "a", .configBoolean () true),
        (ascii "b", .configBoolean () false)] false) s :=
    ok_of_value (by decide +kernel)
  exact parseDocument_newline .none
    [.unquotedText (ascii "a"), .colon, .value (.configBoolean () true)]
    [.unquotedText (ascii "b"), .colon, .value (.configBoolean () false), .end_] hended hparse

end AsrServiceProxy.Config

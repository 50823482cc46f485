import AsrServiceProxy.Config.Parser.Progress
import AsrServiceProxy.Lib.Follows

-- A newline does what a comma does between fields and between elements: two runs of
-- the parser, on tokens that have a comma and tokens that have a newline in its place.
namespace AsrServiceProxy.Config

open CMemory Simulation

-- The same tokens, apart from at most one comma that is a newline in the second list.
inductive Near : List Token → List Token → Prop
  | same (l : List Token) : Near l l
  | replaced (l : List Token) : Near (.comma :: l) (.newline :: l)
  | cons (t : Token) {l l' : List Token} (h : Near l l') : Near (t :: l) (t :: l')

-- The same tokens, apart from newlines that the first list starts with.
def Trails (l l' : List Token) : Prop := ∃ count, l = List.replicate count .newline ++ l'

section

variable {l l' rest : List Token} {t : Token}

theorem Near.length_eq (h : Near l l') : l.length = l'.length := by
  induction h with
  | same => rfl
  | replaced => rfl
  | cons t h ih => rw [List.length_cons, List.length_cons, ih]

theorem Near.regular (h : Near l l') (hl : Regular l) : Regular l' := by
  induction h with
  | same => exact hl
  | replaced l => exact .cons rfl (hl.tail nofun).2
  | cons t h ih =>
      cases hl with
      | last =>
          cases h with
          | same => exact .last
      | cons ht hl => exact .cons ht (ih hl)

theorem Near.append (front : List Token) (h : Near l l') : Near (front ++ l) (front ++ l') := by
  induction front with
  | nil => exact h
  | cons t front ih => exact .cons t ih

theorem Trails.regular (h : Trails l l') (hl : Regular l) (hne : l' ≠ []) : Regular l' := by
  obtain ⟨count, rfl⟩ := h
  exact hl.suffix (List.suffix_append _ _) hne

theorem Trails.length_le (h : Trails l l') : l'.length ≤ l.length := by
  obtain ⟨count, rfl⟩ := h
  rw [List.length_append]
  exact Nat.le_add_left _ _

-- The first token of the second list is that of the first one, or the newline.
theorem Near.head (h : Near (t :: l) rest) :
    ∃ t' l', rest = t' :: l' ∧ (t' = t ∧ Near l l' ∨ t = .comma ∧ t' = .newline ∧ l' = l) := by
  cases h with
  | same => exact ⟨t, l, rfl, .inl ⟨rfl, .same l⟩⟩
  | replaced => exact ⟨.newline, l, rfl, .inr ⟨rfl, rfl, rfl⟩⟩
  | cons _ h => exact ⟨t, _, rfl, .inl ⟨rfl, h⟩⟩

theorem Reads.newline (h : Reads l t rest) : Reads (.newline :: l) t rest := by
  obtain ⟨⟨count, rfl⟩, hne⟩ := h
  exact ⟨⟨count + 1, rfl⟩, hne⟩

theorem Reads.of_ne (h : t ≠ .newline) (l : List Token) : Reads (t :: l) t l := ⟨⟨0, rfl⟩, h⟩

-- Past the newlines the two lists have the same token, unless it is the comma that the
-- second one does not have.
theorem Near.reads (h : Near l l') (hreads : Reads l t rest) :
    (∃ rest', Reads l' t rest' ∧ Near rest rest') ∨
      t = .comma ∧ ∃ count, l' = List.replicate (count + 1) .newline ++ rest := by
  obtain ⟨⟨count, rfl⟩, hne⟩ := hreads
  induction count generalizing l' with
  | zero =>
      obtain ⟨t', l', rfl, ⟨rfl, hrest⟩ | ⟨hcomma, rfl, rfl⟩⟩ := h.head
      · exact .inl ⟨l', .of_ne hne l', hrest⟩
      · exact .inr ⟨hcomma, 0, rfl⟩
  | succ count ih =>
      obtain ⟨t', l', rfl, ⟨rfl, hrest⟩ | ⟨hcomma, _⟩⟩ := h.head
      · rcases ih hrest with ⟨rest', hreads, hnear⟩ | ⟨hcomma, more, rfl⟩
        · exact .inl ⟨rest', hreads.newline, hnear⟩
        · exact .inr ⟨hcomma, more + 1, rfl⟩
      · exact absurd hcomma nofun

theorem Trails.reads (h : Trails l l') (hl : Regular l) (hreads : Reads l t rest) :
    Reads l' t rest := by
  obtain ⟨count, rfl⟩ := h
  induction count with
  | zero => exact hreads
  | succ count ih =>
      apply ih (hl.tail nofun).2
      obtain ⟨⟨more, hsplit⟩, hne⟩ := hreads
      cases more with
      | zero => exact absurd (List.cons.inj hsplit).1.symm hne
      | succ more => exact ⟨⟨more, (List.cons.inj hsplit).2⟩, hne⟩

theorem Regular.reads (h : Regular l) : ∃ t rest, Reads l t rest := by
  obtain ⟨count, t, rest, hsplit, hne⟩ := h.split
  exact ⟨t, rest, ⟨count, hsplit⟩, hne⟩

end

def Token.isProblem : Token → Bool
  | .problem _ _ _ => true
  | _ => false

-- What a reader does that comes to `t`: it throws at what the tokenizer could not read.
def Obtains {α : Type} (m : Parse α) (s : ParseContext) (t : Token)
    (post : α → ParseContext → Prop) : Prop :=
  if t.isProblem then ∃ e s', m s = .error e s' else ∃ a s', m s = .ok a s' ∧ post a s'

-- It takes the token.
def Taking (t : Token) (g : List Token × List Path) (r : TokenWithComments) (s : ParseContext) :
    Prop :=
  r.token = t ∧ Stands s g

section

variable {l rest : List Token} {t : Token} {p : List Path} {s : ParseContext} {α β : Type}
  {m : Parse α} {f : α → Parse β} {post : α → ParseContext → Prop} {target : β → ParseContext → Prop}

theorem Obtains.bind (h : Obtains m s t post)
    (hf : t.isProblem = false → ∀ a s', post a s' → ∃ b s'', f a s' = .ok b s'' ∧ target b s'') :
    Obtains (m >>= f) s t target := by
  unfold Obtains at h ⊢
  by_cases ht : t.isProblem
  · rw [if_pos ht] at h ⊢
    obtain ⟨e, s', hm⟩ := h
    refine ⟨e, s', ?_⟩
    simp only [Bind.bind, EStateM.bind, hm]
  · rw [if_neg ht] at h ⊢
    obtain ⟨a, s', hm, hpost⟩ := h
    obtain ⟨b, s'', hfa, htarget⟩ := hf (by simpa using ht) a s' hpost
    refine ⟨b, s'', ?_, htarget⟩
    simp only [Bind.bind, EStateM.bind, hm, hfa]

-- A first step at another token.
theorem Obtains.after {t' : Token} (h : Obtains m s t' post) (ht' : t'.isProblem = false)
    (hf : ∀ a s', post a s' → Obtains (f a) s' t target) : Obtains (m >>= f) s t target := by
  unfold Obtains at h
  rw [ht', if_neg Bool.false_ne_true] at h
  obtain ⟨a, s', hm, hpost⟩ := h
  have hrest := hf a s' hpost
  unfold Obtains at hrest ⊢
  simp only [Bind.bind, EStateM.bind, hm]
  exact hrest

theorem Obtains.of_ok {a : α} {s' : ParseContext} (h : Obtains m s t post) (hm : m s = .ok a s') :
    t.isProblem = false ∧ post a s' := by
  unfold Obtains at h
  rw [hm] at h
  by_cases ht : t.isProblem
  · rw [if_pos ht] at h
    obtain ⟨e, s'', heq⟩ := h
    exact absurd heq nofun
  · rw [if_neg ht] at h
    obtain ⟨b, s'', heq, hpost⟩ := h
    obtain ⟨rfl, rfl⟩ := EStateM.Result.ok.inj heq
    exact ⟨by simpa using ht, hpost⟩

theorem Obtains.ok (h : Obtains m s t post) (ht : t.isProblem = false) :
    ∃ a s', m s = .ok a s' ∧ post a s' := by
  unfold Obtains at h
  rw [ht, if_neg Bool.false_ne_true] at h
  exact h

theorem obtains_nextToken (h : Regular (t :: l)) (hs : Stands s (t :: l, p)) :
    Obtains (nextToken .CONF) s t (Taking t (l, p)) := by
  obtain ⟨r, s', hpop, hs', rfl⟩ := popToken_eq h hs
  have hnext : nextToken .CONF s = (match r.token with
      | .problem _ message _ => throw (.parse message)
      | _ => pure r : Parse TokenWithComments) s' := by
    simp only [nextToken, bind, EStateM.bind, hpop]
    cases r.token <;> rfl
  unfold Obtains
  rw [hnext]
  cases hr : r.token with
  | problem what message suggestion => exact ⟨_, _, rfl⟩
  | _ => exact ⟨r, s', rfl, hr, hs'⟩

theorem obtains_ignoringNewlineLoop (count : ℕ) (hne : t ≠ .newline)
    (h : Regular (List.replicate count .newline ++ t :: rest)) (n : ℕ) (hn : count < n)
    (hs : Stands s (List.replicate count .newline ++ t :: rest, p)) :
    Obtains (ignoringNewlineLoop .CONF n) s t (Taking t (rest, p)) := by
  induction count generalizing n s with
  | zero =>
      obtain ⟨n, rfl⟩ := Nat.exists_eq_succ_of_ne_zero (Nat.ne_of_gt hn)
      refine (obtains_nextToken h hs).bind ?_
      rintro - r s' ⟨rfl, hs'⟩
      refine ⟨r, s', ?_, rfl, hs'⟩
      cases htoken : r.token with
      | newline => exact absurd htoken hne
      | _ => rfl
  | succ count ih =>
      obtain ⟨n, rfl⟩ := Nat.exists_eq_succ_of_ne_zero (Nat.ne_of_gt (Nat.zero_lt_of_lt hn))
      refine (obtains_nextToken h hs).after rfl ?_
      rintro r s' ⟨hr, hs'⟩
      simp only [hr]
      exact ih (h.tail nofun).2 n (by omega) hs'

-- What is left of the stream is shorter than the number of rounds.
theorem length_lt_rounds {g : List Token × List Path} (hs : Stands s g) :
    g.1.length < s.tokens.length + s.buffer.length + 1 := by
  have hlength := congrArg List.length hs.pending
  have hfilter := List.length_filter_le (fun t => !t.isComment) s.tokens
  rw [ParseContext.pending, List.length_append, List.length_map] at hlength
  omega

theorem obtains_nextTokenIgnoringNewline (h : Regular l) (hreads : Reads l t rest)
    (hs : Stands s (l, p)) :
    Obtains (nextTokenIgnoringNewline .CONF) s t (Taking t (rest, p)) := by
  obtain ⟨⟨count, rfl⟩, hne⟩ := hreads
  have hn := length_lt_rounds hs
  rw [List.length_append, List.length_replicate] at hn
  exact obtains_ignoringNewlineLoop count hne h _ (by omega) hs

-- The separator at a token: a comma is consumed, another token is left.
def Separating (t : Token) (rest : List Token) (p : List Path) (newlines : Bool) (saw : Bool)
    (s : ParseContext) : Prop :=
  (t = .comma ∧ saw = true ∧ Stands s (rest, p)) ∨
    t ≠ .comma ∧ saw = newlines ∧ Stands s (t :: rest, p)

theorem Separating.comma {newlines saw : Bool} (h : Separating .comma rest p newlines saw s) :
    saw = true ∧ Stands s (rest, p) := by
  rcases h with ⟨_, hsaw, hs⟩ | ⟨hne, _⟩
  · exact ⟨hsaw, hs⟩
  · exact absurd rfl hne

theorem Separating.other {newlines saw : Bool} (h : Separating t rest p newlines saw s)
    (ht : t ≠ .comma) : saw = newlines ∧ Stands s (t :: rest, p) := by
  rcases h with ⟨hcomma, _⟩ | ⟨_, hsaw, hs⟩
  · exact absurd hcomma ht
  · exact ⟨hsaw, hs⟩

theorem obtains_separatorLoop (count : ℕ) (hne : t ≠ .newline)
    (h : Regular (List.replicate count .newline ++ t :: rest)) (n : ℕ) (hn : count < n)
    (hs : Stands s (List.replicate count .newline ++ t :: rest, p)) (saw : Bool) :
    Obtains (separatorLoop .CONF n saw) s t (Separating t rest p (saw || decide (0 < count))) := by
  induction count generalizing n s saw with
  | zero =>
      obtain ⟨n, rfl⟩ := Nat.exists_eq_succ_of_ne_zero (Nat.ne_of_gt hn)
      refine (obtains_nextToken h hs).bind ?_
      rintro - r s' ⟨rfl, hs'⟩
      by_cases hcomma : r.token = .comma
      · refine ⟨true, s', ?_, .inl ⟨hcomma, rfl, hs'⟩⟩
        simp only [hcomma]
        rfl
      · have hback : Stands { s' with buffer := r :: s'.buffer } (r.token :: rest, p) :=
          ⟨congrArg (r.token :: ·) hs'.pending, hs'.paths⟩
        refine ⟨saw, _, ?_, .inr ⟨hcomma, (Bool.or_false saw).symm, hback⟩⟩
        cases htoken : r.token with
        | newline => exact absurd htoken hne
        | comma => exact absurd htoken hcomma
        | _ => rfl
  | succ count ih =>
      obtain ⟨n, rfl⟩ := Nat.exists_eq_succ_of_ne_zero (Nat.ne_of_gt (Nat.zero_lt_of_lt hn))
      refine (obtains_nextToken h hs).after rfl ?_
      rintro r s' ⟨hr, hs'⟩
      simp only [hr]
      have hrest := ih (h.tail nofun).2 n (by omega) hs' true
      rw [Bool.true_or] at hrest
      rw [decide_eq_true (Nat.succ_pos count), Bool.or_true]
      exact hrest

-- Newlines have been passed over where what is left with the token is shorter.
theorem obtains_checkElementSeparator (h : Regular l) (hreads : Reads l t rest)
    (hs : Stands s (l, p)) :
    Obtains (checkElementSeparator .CONF) s t
      (Separating t rest p (decide (rest.length + 1 < l.length))) := by
  obtain ⟨⟨count, rfl⟩, hne⟩ := hreads
  have hn := length_lt_rounds hs
  rw [List.length_append, List.length_replicate] at hn
  have hcount : decide (rest.length + 1 <
      (List.replicate count Token.newline ++ t :: rest).length) = (false || decide (0 < count)) := by
    rw [Bool.false_or, decide_eq_decide, List.length_append, List.length_replicate,
      List.length_cons]
    omega
  rw [hcount]
  exact obtains_separatorLoop count hne h _ (by omega) hs false

end

-- What is left to the two runs after the same steps.
structure Twins (p : List Path) (bound : ℕ) (g g' : List Token × List Path) : Prop where
  near : Near g.1 g'.1
  regular : Regular g.1
  paths : p = g.2
  paths' : p = g'.2
  length_le : g'.1.length ≤ bound

-- What is left where only newlines are read differently before the next token.
structure LikeAhead (l l' : List Token) : Prop where
  lists : Near l l' ∨ Trails l l'
  regular : Regular l
  regular' : Regular l'

-- The two runs took the same token.
structure Agreed (p : List Path) (bound : ℕ) (r : TokenWithComments) (g : List Token × List Path)
    (r' : TokenWithComments) (g' : List Token × List Path) : Prop where
  token : r'.token = r.token
  ne_comma : r.token ≠ .comma
  near : Near g.1 g'.1
  regular : Regular (r.token :: g.1)
  paths : p = g.2
  paths' : p = g'.2
  length_lt : g'.1.length < bound

-- The first run took a comma; nothing that can follow takes one.
structure TookComma (p : List Path) (r : TokenWithComments) (g : List Token × List Path) : Prop where
  token : r.token = .comma
  regular : Regular g.1
  paths : p = g.2

-- Nothing is lost.
abbrev Nothing {α : Type} (_ : α) (_ : List Token × List Path) : Prop := False

section

variable {l l' : List Token} {p : List Path}

theorem Near.likeAhead (h : Near l l') (hl : Regular l) : LikeAhead l l' := ⟨.inl h, hl, h.regular hl⟩

theorem Twins.likeAhead {bound : ℕ} {g g' : List Token × List Path} (h : Twins p bound g g') :
    LikeAhead g.1 g'.1 :=
  h.near.likeAhead h.regular

theorem LikeAhead.reads {t : Token} {rest : List Token} (h : LikeAhead l l') (hreads : Reads l t rest)
    (ht : t ≠ .comma) : ∃ rest', Reads l' t rest' ∧ Near rest rest' := by
  rcases h.lists with hnear | htrails
  · rcases hnear.reads hreads with hfound | ⟨hcomma, _⟩
    · exact hfound
    · exact absurd hcomma ht
  · exact ⟨rest, htrails.reads h.regular hreads, .same rest⟩

theorem follows_nextTokenIgnoringNewline (h : LikeAhead l l') :
    Follows Stands (nextTokenIgnoringNewline .CONF) (nextTokenIgnoringNewline .CONF) (l, p) (l', p)
      (Agreed p l'.length) (TookComma p) := by
  intro s s' hs hs' r u hrun
  obtain ⟨t, rest, hreads⟩ := h.regular.reads
  obtain ⟨ht, rfl, hu⟩ := (obtains_nextTokenIgnoringNewline h.regular hreads hs).of_ok hrun
  by_cases hcomma : r.token = .comma
  · have hregular := hreads.regular h.regular
    rw [hcomma] at hregular
    exact .inl ⟨(rest, p), hu, hcomma, (hregular.tail nofun).2, rfl⟩
  · right
    obtain ⟨rest', hreads', hnear⟩ := h.reads hreads hcomma
    obtain ⟨r', u', hrun', hr', hu'⟩ :=
      (obtains_nextTokenIgnoringNewline h.regular' hreads' hs').ok ht
    exact ⟨r', u', (rest, p), (rest', p), hrun', hu, hu', hr', hcomma, hnear,
      hreads.regular h.regular, rfl, rfl, hreads'.length_lt⟩

theorem follows_nextToken {t t' : Token} (h : Near (t :: l) (t' :: l')) (hl : Regular (t :: l)) :
    Follows Stands (nextToken .CONF) (nextToken .CONF) (t :: l, p) (t' :: l', p)
      (fun r g r' g' => r.token = t ∧ g = (l, p) ∧ r'.token = t' ∧ g' = (l', p)) Nothing := by
  intro s s' hs hs' r u hrun
  obtain ⟨ht, rfl, hu⟩ := (obtains_nextToken hl hs).of_ok hrun
  have ht' : t'.isProblem = false := by
    obtain ⟨_, _, heq, ⟨rfl, -⟩ | ⟨-, rfl, -⟩⟩ := h.head
    · obtain ⟨rfl, -⟩ := List.cons.inj heq
      exact ht
    · obtain ⟨rfl, -⟩ := List.cons.inj heq
      rfl
  obtain ⟨r', u', hrun', hr', hu'⟩ := (obtains_nextToken (h.regular hl) hs').ok ht'
  exact .inr ⟨r', u', (l, p), (l', p), hrun', hu, hu', rfl, rfl, hr', rfl⟩

-- The first token that is no newline ends every later step of the first run.
def Blocked (l : List Token) : Prop :=
  ∃ t rest, Reads l t rest ∧ (t = .comma ∨ t.isProblem = true)

theorem Blocked.comma (l : List Token) : Blocked (.comma :: l) :=
  ⟨.comma, l, Reads.of_ne (t := .comma) nofun l, .inl rfl⟩

-- What is left is lost to the first run.
structure Lost (p : List Path) (g : List Token × List Path) : Prop where
  blocked : Blocked g.1
  regular : Regular g.1
  paths : p = g.2

theorem meets_next_of_lost {g : List Token × List Path} (h : Lost p g) :
    Meets Stands (nextTokenIgnoringNewline .CONF) g (TookComma p) fun _ => True := by
  intro s hs
  obtain ⟨⟨t, rest, hreads, ht⟩, hregular, rfl⟩ := h
  have hobtains := obtains_nextTokenIgnoringNewline hregular hreads hs
  cases hrun : nextTokenIgnoringNewline .CONF s with
  | error e u => trivial
  | ok r u =>
      obtain ⟨hproblem, rfl, hu⟩ := hobtains.of_ok hrun
      have hcomma : r.token = .comma := by
        rcases ht with hcomma | hproblem'
        · exact hcomma
        · rw [hproblem] at hproblem'
          exact absurd hproblem' Bool.false_ne_true
      have hrest := hreads.regular hregular
      rw [hcomma] at hrest
      exact ⟨(rest, g.2), hu, hcomma, (hrest.tail nofun).2, rfl⟩

-- What the two runs do at a separator.
structure Separated (p : List Path) (bound : ℕ) (saw : Bool) (g : List Token × List Path)
    (saw' : Bool) (g' : List Token × List Path) : Prop where
  same : saw = saw'
  likeAhead : LikeAhead g.1 g'.1
  near : saw = false → Near g.1 g'.1
  paths : p = g.2
  paths' : p = g'.2
  length_le : g'.1.length ≤ bound
  length_lt : saw = true → g'.1.length < bound

def LostAfterSeparator (p : List Path) (saw : Bool) (g : List Token × List Path) : Prop :=
  saw = true ∧ Lost p g

theorem follows_checkElementSeparator (h : Near l l') (hl : Regular l) :
    Follows Stands (checkElementSeparator .CONF) (checkElementSeparator .CONF) (l, p) (l', p)
      (Separated p l'.length) (LostAfterSeparator p) := by
  intro s s' hs hs' saw u hrun
  obtain ⟨t, rest, hreads⟩ := hl.reads
  obtain ⟨ht, hseparating⟩ := (obtains_checkElementSeparator hl hreads hs).of_ok hrun
  have hl' := h.regular hl
  have hlength := h.length_eq
  rcases h.reads hreads with ⟨rest', hreads', hnear⟩ | ⟨rfl, count, hsplit⟩
  · -- both lists have the token
    have hlt := hreads'.length_lt
    obtain ⟨saw', u', hrun', hseparating'⟩ :=
      (obtains_checkElementSeparator hl' hreads' hs').ok ht
    by_cases hcomma : t = .comma
    · subst hcomma
      obtain ⟨rfl, hu⟩ := hseparating.comma
      obtain ⟨rfl, hu'⟩ := hseparating'.comma
      have hregular : Regular rest := ((hreads.regular hl).tail nofun).2
      exact .inr ⟨true, u', (rest, p), (rest', p), hrun', hu, hu', rfl, hnear.likeAhead hregular,
        nofun, rfl, rfl, hlt.le, fun _ => hlt⟩
    · obtain ⟨rfl, hu⟩ := hseparating.other hcomma
      obtain ⟨rfl, hu'⟩ := hseparating'.other hcomma
      have hrest := Near.cons t hnear
      have hsame : decide (rest'.length + 1 < l'.length) = decide (rest.length + 1 < l.length) := by
        rw [hnear.length_eq, hlength]
      refine .inr ⟨_, u', (t :: rest, p), (t :: rest', p), hrun', hu, hu', hsame.symm,
        hrest.likeAhead (hreads.regular hl), fun _ => hrest, rfl, rfl, hlt, fun hsaw => ?_⟩
      rw [← hsame] at hsaw
      exact of_decide_eq_true hsaw
  · -- the second run passes the newline over and puts the next token back
    obtain ⟨rfl, hu⟩ := hseparating.comma
    have hregular : Regular rest := ((hreads.regular hl).tail nofun).2
    obtain ⟨x, more, hx⟩ := hregular.reads
    by_cases hblocked : x = .comma ∨ x.isProblem = true
    · exact .inl ⟨(rest, p), hu, rfl, ⟨x, more, hx, hblocked⟩, hregular, rfl⟩
    · obtain ⟨hcomma, hproblem⟩ := not_or.mp hblocked
      have hreads' : Reads l' x more := by
        obtain ⟨⟨newlines, rfl⟩, hne⟩ := hx
        refine ⟨⟨count + 1 + newlines, ?_⟩, hne⟩
        rw [hsplit, ← List.append_assoc, List.replicate_append_replicate]
      obtain ⟨saw', u', hrun', hseparating'⟩ :=
        (obtains_checkElementSeparator hl' hreads' hs').ok (by simpa using hproblem)
      obtain ⟨rfl, hu'⟩ := hseparating'.other hcomma
      have hlt : more.length + 1 < l'.length := by
        have hmore := hx.length_lt
        rw [hsplit, List.length_append, List.length_replicate]
        omega
      have htrails : Trails rest (x :: more) := hx.split
      exact .inr ⟨_, u', (rest, p), (x :: more, p), hrun', hu, hu', (decide_eq_true hlt).symm,
        ⟨.inr htrails, hregular, hx.regular hregular⟩, nofun, rfl, rfl, hlt.le, fun _ => hlt⟩

end

end AsrServiceProxy.Config

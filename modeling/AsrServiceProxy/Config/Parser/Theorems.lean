import AsrServiceProxy.Config.Parser.Reading
import AsrServiceProxy.Config.Parser.Storing

-- What the parser does on the tokens of any text: it stops at the end, the values it
-- makes keep the invariant, and the only access that the standard leaves open is to
-- the keys of a path whose second key is empty.
namespace AsrServiceProxy.Config

open CMemory Simulation

theorem Piece.of_scalar {v : Value Unit} (h : v.isScalar) : Piece v := by
  cases v with
  | configNull | configBoolean | configInt | configInt64 | configDouble | configString =>
      exact ⟨⟨trivial, trivial⟩, rfl, rfl⟩
  | _ => cases h

-- The tokens that a key is made of.
def Token.isKey : Token → Bool
  | .value _ | .unquotedText _ => true
  | _ => false

-- The tokens that a field can come after.
def Token.startsField : Token → Bool
  | .start | .newline | .comma | .openCurly => true
  | _ => false

def keyTokens (l : List Token) : List Token := l.takeWhile Token.isKey

-- The second key of a path is not empty.
def keyIsFine (expression : List Token) : Bool :=
  match parsePathExpression expression with
  | .ok path => path.keys[1]? ≠ some []
  | .error _ => true

-- The tokens between a key and its value.
def Token.separatesKey : Token → Bool
  | .openCurly | .colon | .equals | .plusEquals => true
  | _ => false

-- A key ends here.
def separated : List Token → Bool
  | .newline :: rest => separated rest
  | t :: _ => t.separatesKey
  | [] => false

-- No field has an empty second key.
def keysFine : List Token → Bool
  | [] => true
  | t :: rest =>
      (!t.startsField || !separated (rest.dropWhile Token.isKey) || keyIsFine (keyTokens rest)) &&
        keysFine rest

-- The place after a token that a field can come after.
def StartsField (all l : List Token) : Prop :=
  ∃ before t, Token.startsField t = true ∧ all = before ++ t :: l

theorem StartsField.suffix {all l : List Token} (h : StartsField all l) : l <:+ all := by
  obtain ⟨before, t, _, rfl⟩ := h
  exact ⟨before ++ [t], by simp⟩

theorem StartsField.fine {all l : List Token} (h : StartsField all l) (hfine : keysFine all)
    (hseparated : separated (l.dropWhile Token.isKey) = true) :
    keyIsFine (keyTokens l) = true := by
  obtain ⟨before, t, ht, rfl⟩ := h
  induction before with
  | nil =>
      rw [List.nil_append, keysFine, ht, hseparated, Bool.and_eq_true] at hfine
      exact hfine.1
  | cons x before ih =>
      rw [List.cons_append, keysFine, Bool.and_eq_true] at hfine
      exact ih hfine.2

-- After newlines a field can still start.
theorem StartsField.reads {all l l' : List Token} {t : Token} (h : StartsField all l)
    (hreads : Reads l t l') : StartsField all (t :: l') := by
  obtain ⟨before, x, hx, rfl⟩ := h
  obtain ⟨⟨count, rfl⟩, _⟩ := hreads
  cases count with
  | zero => exact ⟨before, x, hx, rfl⟩
  | succ count =>
      refine ⟨before ++ x :: List.replicate count .newline, .newline, rfl, ?_⟩
      rw [List.replicate_succ']
      simp

theorem Reads.separated {l l' : List Token} {t : Token} (h : Reads l t l')
    (ht : t.separatesKey = true) : Config.separated l = true := by
  obtain ⟨⟨count, rfl⟩, _⟩ := h
  induction count with
  | zero =>
      cases t with
      | openCurly | colon | equals | plusEquals => rfl
      | _ => cases ht
  | succ count ih => exact ih

-- A field may have an empty second key.
def Wild (flavor : ConfigSyntax) (all : List Token) : Prop :=
  flavor = .CONF ∧ keysFine all = false

section

variable {flavor : ConfigSyntax} {all : List Token} {l : List Token} {p : List Path}

theorem meets_ofMake {α : Type} {wild : String → Prop} {m : Make Unit α} {post : α → Prop}
    (h : Gives m post (Tolerable wild)) (l : List Token) (p : List Path) :
    Meets Stands (ofMake m) (l, p) (fun a g => post a ∧ g = (l, p)) (Tolerable wild) := by
  intro s hs
  have hm := h ()
  cases hr : m () with
  | ok a u =>
      rw [hr] at hm
      simp only [ofMake, hr]
      exact ⟨(l, p), hs, hm, rfl⟩
  | error e u =>
      rw [hr] at hm
      simp only [ofMake, hr]
      exact hm

theorem meets_ofExcept {α : Type} {wild : String → Prop} {m : Except ConfigException α}
    {post : α → Prop} (hok : ∀ a, m = .ok a → post a) (herror : ∀ e, m = .error e → Tolerable wild e)
    (l : List Token) (p : List Path) :
    Meets Stands (ofExcept m) (l, p) (fun a g => post a ∧ g = (l, p)) (Tolerable wild) := by
  intro s hs
  cases m with
  | ok a => exact ⟨(l, p), hs, hok a rfl, rfl⟩
  | error e => exact herror e rfl

theorem gives_withFallback_wellMade {wild : String → Prop} {a b : Value Unit}
    (ha : a.Forall Value.WellMade) (hb : b.Forall Value.WellMade) :
    Gives (withFallback .plain a b) (fun c => c.Forall Value.WellMade) (Tolerable wild) := by
  obtain ⟨heq, hmade⟩ := withFallback_wellMade ha hb
  intro s
  rw [heq]
  exact hmade

theorem meets_concatenate {wild : String → Prop} {pieces : List (Value Unit)}
    (h : ∀ v ∈ pieces, Piece v) (hne : pieces ≠ []) (l : List Token) (p : List Path) :
    Meets Stands (ofMake (concatenate .plain pieces)) (l, p)
      (fun r g => (∃ v, r = some v ∧ v.Forall Value.WellMade) ∧ g = (l, p)) (Tolerable wild) := by
  have hgives : Gives (concatenate .plain pieces)
      (fun r => ∃ v, r = some v ∧ v.Forall Value.WellMade) (Tolerable wild) := by
    refine (gives_concatenate h hne).raises ?_
    rintro _ ⟨message, rfl⟩
    trivial
  exact meets_ofMake hgives l p

theorem addPathTokens_error {expression : List Token} {buf : Elements} {e : ConfigException}
    (h : addPathTokens expression buf = .error e) : ∃ message, e = .badPath message := by
  fun_induction addPathTokens expression buf with
  | case1 => cases h
  | case2 buf id s rest ih => exact ih h
  | case3 buf rest ih => exact ih h
  | case4 buf v rest hother ih => exact ih h
  | case5 buf s rest ih => exact ih h
  | case6 =>
      cases h
      exact ⟨_, rfl⟩

theorem parsePathExpression_error {wild : String → Prop} {expression : List Token}
    {e : ConfigException} (h : parsePathExpression expression = .error e) : Tolerable wild e := by
  unfold parsePathExpression at h
  split at h
  · cases h
    trivial
  · cases hbuf : addPathTokens expression
        { front := [], current := { element := [], canBeEmpty := false } } with
    | error e' =>
        obtain ⟨message, rfl⟩ := addPathTokens_error hbuf
        rw [hbuf] at h
        cases h
        trivial
    | ok buf =>
        rw [hbuf] at h
        simp only [bind, Except.bind] at h
        split at h
        · cases h
          trivial
        · split at h
          · cases h
            exact (by decide : "empty path" ∉ checkMessages)
          · cases h

-- The tokens of the text, which end once, and the values among them.
structure Document (all : List Token) : Prop where
  regular : Regular all
  scalars : ∀ v, .value v ∈ all → Value.isScalar v = true

theorem Document.tail (h : Document all) {t : Token} (hsuffix : t :: l <:+ all) (ht : t ≠ .end_) :
    Regular l :=
  ((h.regular.suffix hsuffix (List.cons_ne_nil t l)).tail ht).2

-- What a value is read with: the token that it starts with, when `l` comes after it.
structure Startable (all : List Token) (t : Token) (l : List Token) : Prop where
  suffix : l <:+ all
  value : ∀ v, t = .value v → v.Forall Value.WellMade
  raw : (∀ v, t ≠ .value v) → t :: l <:+ all
  regular : t ≠ .end_ → Regular l

theorem Startable.opens (h : Startable all .openCurly l) : StartsField all l := by
  obtain ⟨before, hbefore⟩ := h.raw nofun
  exact ⟨before, .openCurly, rfl, hbefore.symm⟩

theorem Document.ready (h : Document all) {t : Token} (hsuffix : t :: l <:+ all) : Startable all t l where
  suffix := (List.suffix_cons t l).trans hsuffix
  value := by
    rintro v rfl
    exact (Piece.of_scalar (h.scalars v (hsuffix.subset List.mem_cons_self))).made
  raw := fun _ => hsuffix
  regular := h.tail hsuffix

-- What is left after a part of the text was read.
structure Rest (l : List Token) (p : List Path) (g : List Token × List Path) : Prop where
  suffix : g.1 <:+ l
  regular : Regular g.1
  paths : g.2 = p

theorem Rest.trans {l l' : List Token} {p : List Path} {g : List Token × List Path}
    (h : Rest l' p g) (hsuffix : l' <:+ l) : Rest l p g :=
  ⟨h.suffix.trans hsuffix, h.regular, h.paths⟩

end

-- What comes after `consolidate_value_tokens`: the next token is the one it was, or
-- a value that stands for tokens of the text.
def Consolidates (l l' : List Token) : Prop :=
  l' = l ∨ (∃ t rest, Reads l t rest ∧ l' = t :: rest) ∨
    ∃ v rest, l' = .value v :: rest ∧ v.Forall Value.WellMade ∧ rest <:+ l ∧ Regular rest ∧
      rest.length < l.length

-- A function that reads values of up to so many tokens, as `parse_value` is to.
def ReadsValue (wild : String → Prop) (all : List Token)
    (read : TokenWithComments → Parse (Value Unit)) (bound : ℕ) : Prop :=
  ∀ (t : TokenWithComments) (l : List Token) (p : List Path), Startable all t.token l →
    l.length < bound →
    Meets Stands (read t) (l, p)
      (fun v g => v.Forall Value.WellMade ∧ ((∀ w, t.token ≠ .value w) → Piece v) ∧ Rest l p g)
      (Tolerable wild)

section

variable {flavor : ConfigSyntax} {all : List Token} {l : List Token} {p : List Path}
  {wild : String → Prop} {read : TokenWithComments → Parse (Value Unit)} {bound : ℕ}
  (hall : Document all) (hread : ReadsValue wild all read bound)

include hall hread

-- A token of the text that is no piece is not touched.
theorem meets_pieceOf {t : TokenWithComments} (ht : t.token :: l <:+ all) (hl : l.length < bound) :
    Meets Stands (pieceOf read t) (l, p)
      (fun r g => match r with
        | none => g = (l, p)
        | some v => Piece v ∧ Rest l p g)
      (Tolerable wild) := by
  have hready := hall.ready ht
  unfold pieceOf
  cases htoken : t.token with
  | value v =>
      rw [htoken] at ht hready
      exact Meets.pure ⟨.of_scalar (hall.scalars v (ht.subset List.mem_cons_self)),
        List.suffix_rfl, hready.regular nofun, rfl⟩
  | unquotedText text =>
      rw [htoken] at hready
      exact Meets.pure ⟨⟨⟨trivial, trivial⟩, rfl, rfl⟩, List.suffix_rfl, hready.regular nofun, rfl⟩
  | substitution optional expression =>
      rw [htoken] at hready
      refine Meets.bind (meets_ofExcept (fun _ _ => trivial)
        (fun e he => parsePathExpression_error he) l p) ?_
      rintro path _ ⟨_, rfl⟩
      refine Meets.pure ⟨⟨⟨trivial, ?_⟩, rfl, rfl⟩, List.suffix_rfl, hready.regular nofun, rfl⟩
      change 0 < path.length
      cases path <;> exact Nat.succ_pos _
  | openCurly =>
      refine Meets.bind (hread t l p hready hl) ?_
      rintro v g ⟨_, hpiece, hrest⟩
      exact Meets.pure ⟨hpiece (by rw [htoken]; nofun), hrest⟩
  | openSquare =>
      refine Meets.bind (hread t l p hready hl) ?_
      rintro v g ⟨_, hpiece, hrest⟩
      exact Meets.pure ⟨hpiece (by rw [htoken]; nofun), hrest⟩
  | _ => exact Meets.pure rfl

-- The pieces from token `t` on: none, or some that are read from the text.
theorem meets_piecesLoop (n : ℕ) {t : TokenWithComments} (ht : t.token :: l <:+ all)
    (hl : l.length < bound) (hn : l.length < n) {values : List (Value Unit)}
    (hvalues : ∀ v ∈ values, Piece v) :
    Meets Stands (piecesLoop flavor read n t values) (l, p)
      (fun vs g => (∀ v ∈ vs, Piece v) ∧
        (vs = values ∧ g = (t.token :: l, p) ∨ vs ≠ [] ∧ Rest l p g))
      (Tolerable wild) := by
  induction n generalizing t l values with
  | zero => omega
  | succ n ih =>
      refine Meets.bind (meets_pieceOf hall hread ht hl) ?_
      intro r g hr
      cases r with
      | none =>
          obtain rfl : g = (l, p) := hr
          refine Meets.bind (meets_putBackToken t l p) ?_
          rintro _ _ rfl
          exact Meets.pure ⟨hvalues, .inl ⟨rfl, rfl⟩⟩
      | some v =>
          obtain ⟨hv, hrest⟩ := hr
          obtain ⟨l₁, p₁⟩ := g
          obtain rfl : p₁ = p := hrest.paths
          have hlength := hrest.suffix.length_le
          have hall₁ : l₁ <:+ all := hrest.suffix.trans ((List.suffix_cons _ l).trans ht)
          cases l₁ with
          | nil => exact absurd rfl hrest.regular.ne_nil
          | cons t₁ l₁ =>
              dsimp only at hlength
              rw [List.length_cons] at hlength
              refine Meets.bind (meets_nextToken flavor hrest.regular) ?_
              rintro r _ ⟨rfl, rfl⟩
              have hvalues' : ∀ w ∈ values ++ [v], Piece w := by
                intro w hw
                rcases List.mem_append.mp hw with hw | hw
                · exact hvalues w hw
                · rw [List.mem_singleton.mp hw]
                  exact hv
              refine Meets.imp (ih hall₁ (by omega) (by omega) hvalues') ?_
              rintro vs g ⟨hvs, ⟨rfl, rfl⟩ | ⟨hne, hrest'⟩⟩
              · exact ⟨hvs, .inr ⟨by simp, hrest⟩⟩
              · refine ⟨hvs, .inr ⟨hne, hrest'.trans ?_⟩⟩
                exact (List.suffix_cons _ l₁).trans hrest.suffix

theorem meets_consolidateValueTokens (hall' : l <:+ all) (hregular : Regular l)
    (hl : l.length ≤ bound) :
    Meets Stands (consolidateValueTokens flavor read) (l, p)
      (fun _ g => g.2 = p ∧ Consolidates l g.1) (Tolerable wild) := by
  cases flavor with
  | JSON => exact Meets.pure ⟨rfl, .inl rfl⟩
  | CONF =>
      refine Meets.bind (meets_nextTokenIgnoringNewline .CONF hregular) ?_
      rintro t ⟨l', p'⟩ ⟨hreads, rfl⟩
      have hlength : l'.length < l.length := hreads.length_lt
      refine Meets.bind (meets_parseRounds l' p') ?_
      rintro n _ ⟨hn, rfl⟩
      have hpieces : ∀ v ∈ ([] : List (Value Unit)), Piece v := nofun
      refine Meets.bind (meets_piecesLoop (l := l') hall hread n (hreads.suffix.trans hall')
        (by omega) hn hpieces) ?_
      rintro vs g ⟨hvs, hg⟩
      refine Meets.ite (fun hempty => ?_) fun hempty => ?_
      · rw [List.isEmpty_iff] at hempty
        rcases hg with ⟨_, rfl⟩ | ⟨hne, _⟩
        · exact Meets.pure ⟨rfl, .inr (.inl ⟨t.token, l', hreads, rfl⟩)⟩
        · exact absurd hempty hne
      · rw [List.isEmpty_iff] at hempty
        have hrest : Rest l' p' g := by
          rcases hg with ⟨hnil, _⟩ | ⟨_, hrest⟩
          · exact absurd hnil hempty
          · exact hrest
        obtain ⟨l₁, p₁⟩ := g
        obtain rfl : p₁ = p' := hrest.paths
        refine Meets.bind (meets_concatenate hvs hempty l₁ p₁) ?_
        rintro _ _ ⟨⟨v, rfl, hv⟩, rfl⟩
        refine Meets.imp (meets_putBackToken _ l₁ p₁) ?_
        rintro _ _ rfl
        have hle := hrest.suffix.length_le
        dsimp only at hle
        refine ⟨rfl, .inr (.inr ⟨v, l₁, rfl, hv, ?_, hrest.regular, by omega⟩)⟩
        exact hrest.suffix.trans ((List.suffix_cons _ l').trans hreads.suffix)

end

section

variable {flavor : ConfigSyntax} {all : List Token} {l : List Token} {p : List Path}
  {wild : String → Prop}

theorem Reads.of_cons {l l' : List Token} {t r : Token} (h : Reads (t :: l) r l')
    (ht : t ≠ .newline) : r = t ∧ l' = l := by
  obtain ⟨⟨count, hsplit⟩, _⟩ := h
  cases count with
  | zero => exact ⟨(List.cons.inj hsplit).1.symm, (List.cons.inj hsplit).2.symm⟩
  | succ count => exact absurd (List.cons.inj hsplit).1 ht

-- The token `t` is read, or is a value that stands for what is read.
structure Rereads (l : List Token) (t : Token) (l' : List Token) : Prop where
  suffix : l' <:+ l
  length_lt : l'.length < l.length
  raw : (∀ v, t ≠ .value v) → t :: l' <:+ l

-- The token that a value starts with.
theorem meets_nextValue (hall : Document all) (hall' : l <:+ all) (hregular : Regular l)
    {l' : List Token} (h : Consolidates l l') :
    Meets Stands (nextTokenIgnoringNewline flavor) (l', p)
      (fun t g => Startable all t.token g.1 ∧ Rereads l t.token g.1 ∧ g.2 = p) (Tolerable wild) := by
  have hreads : ∀ {t : Token} {rest : List Token}, Reads l t rest →
      Startable all t rest ∧ Rereads l t rest := by
    intro t rest h
    exact ⟨hall.ready (h.suffix.trans hall'), (List.suffix_cons t rest).trans h.suffix,
      h.length_lt, fun _ => h.suffix⟩
  rcases h with rfl | ⟨t, rest, ht, rfl⟩ | ⟨v, rest, rfl, hv, hsuffix, hrest, hlength⟩
  · refine Meets.imp (meets_nextTokenIgnoringNewline flavor hregular) ?_
    rintro r g ⟨hr, hp⟩
    obtain ⟨hready, hl⟩ := hreads hr
    exact ⟨hready, hl, hp⟩
  · refine Meets.imp (meets_nextTokenIgnoringNewline flavor (ht.regular hregular)) ?_
    rintro r g ⟨hr, hp⟩
    obtain ⟨hready, hl⟩ := hreads ht
    obtain ⟨hr, hg⟩ := hr.of_cons ht.ne_newline
    rw [hr, hg]
    exact ⟨hready, hl, hp⟩
  · refine Meets.imp (meets_nextTokenIgnoringNewline flavor (.cons rfl hrest)) ?_
    rintro r g ⟨hr, hp⟩
    obtain ⟨hr, hg⟩ := hr.of_cons nofun
    rw [hr, hg]
    have hvalue : ¬∀ w, Token.value v ≠ .value w := fun h => h v rfl
    refine ⟨⟨hsuffix.trans hall', ?_, fun h => absurd h hvalue, fun _ => hrest⟩,
      ⟨hsuffix, hlength, fun h => absurd h hvalue⟩, hp⟩
    rintro w ⟨⟩
    exact hv

theorem keyTokens_cons_of_key {t : Token} (ht : t.isKey = true) (l : List Token) :
    keyTokens (t :: l) = t :: keyTokens l :=
  List.takeWhile_cons_of_pos ht

theorem keyTokens_cons_of_not_key {t : Token} (ht : t.isKey = false) (l : List Token) :
    keyTokens (t :: l) = [] :=
  List.takeWhile_cons_of_neg (by rw [ht]; exact Bool.false_ne_true)

theorem Token.ne_end_of_isKey {t : Token} (h : t.isKey = true) : t ≠ .end_ := by
  rintro rfl
  cases h

-- The tokens of the key are read, and the one after them is put back.
theorem meets_keyLoop (n : ℕ) {t : TokenWithComments} (ht : Regular (t.token :: l))
    (hn : l.length < n) (expression : List Token) :
    Meets Stands (keyLoop flavor n t expression) (l, p)
      (fun e g => e = expression ++ keyTokens (t.token :: l) ∧
        g.1 = (t.token :: l).dropWhile Token.isKey ∧ Rest (t.token :: l) p g ∧
        (expression = [] → Rest l p g)) (Tolerable wild) := by
  induction n generalizing t l expression with
  | zero => omega
  | succ n ih =>
      have hkey : t.token.isKey = true → Meets Stands (do
            keyLoop flavor n (← nextToken flavor) (expression ++ [t.token])) (l, p)
          (fun e g => e = expression ++ keyTokens (t.token :: l) ∧
            g.1 = (t.token :: l).dropWhile Token.isKey ∧ Rest (t.token :: l) p g ∧
            (expression = [] → Rest l p g)) (Tolerable wild) := by
        intro hkey
        have hl := (ht.tail (Token.ne_end_of_isKey hkey)).2
        cases l with
        | nil => exact absurd rfl hl.ne_nil
        | cons t₁ l =>
            rw [List.length_cons] at hn
            refine Meets.bind (meets_nextToken flavor hl) ?_
            rintro r _ ⟨rfl, rfl⟩
            refine Meets.imp (ih hl (by omega) (expression ++ [t.token])) ?_
            rintro e g ⟨he, hafter, hrest, _⟩
            refine ⟨?_, ?_, hrest.trans (List.suffix_cons _ _), fun _ => hrest⟩
            · rw [he, keyTokens_cons_of_key hkey, List.append_assoc]
              rfl
            · rw [hafter, List.dropWhile_cons_of_pos hkey]
      have hother : t.token.isKey = false → Meets Stands (do
            if expression.isEmpty then
              throw (.parse "expecting a close brace or a field name here, got ")
            putBackToken t
            return expression) (l, p)
          (fun e g => e = expression ++ keyTokens (t.token :: l) ∧
            g.1 = (t.token :: l).dropWhile Token.isKey ∧ Rest (t.token :: l) p g ∧
            (expression = [] → Rest l p g)) (Tolerable wild) := by
        intro hkey
        refine Meets.ite (fun _ => Meets.throw trivial) fun hempty => ?_
        refine Meets.bind (meets_putBackToken t l p) ?_
        rintro _ _ rfl
        refine Meets.pure ⟨?_, ?_, ⟨List.suffix_rfl, ht, rfl⟩, ?_⟩
        · rw [keyTokens_cons_of_not_key hkey, List.append_nil]
        · rw [List.dropWhile_cons_of_neg (Bool.eq_false_iff.mp hkey)]
        · rintro rfl
          exact absurd rfl hempty
      unfold keyLoop
      cases htoken : t.token with
      | value v =>
          rw [htoken] at hkey
          exact hkey rfl
      | unquotedText text =>
          rw [htoken] at hkey
          exact hkey rfl
      | _ =>
          rw [htoken] at hother
          exact hother rfl

-- The path of a field. Its second key is empty only where the text has such a key.
theorem meets_parseKey (hall : Document all) {t : TokenWithComments}
    (ht : StartsField all (t.token :: l)) :
    Meets Stands (parseKey flavor t) (l, p)
      (fun path g => Rest l p g ∧
        (path.keys[1]? = some [] → separated g.1 = true → Wild flavor all) ∧
        (flavor = .JSON → path.remainder = none)) (Tolerable wild) := by
  have hregular : Regular (t.token :: l) :=
    hall.regular.suffix ht.suffix (List.cons_ne_nil _ _)
  unfold parseKey
  cases flavor with
  | JSON =>
      dsimp only
      split
      · rename_i key htoken
        rw [htoken] at hregular
        exact Meets.pure ⟨⟨List.suffix_rfl, (hregular.tail nofun).2, rfl⟩, nofun, fun _ => rfl⟩
      · exact Meets.throw trivial
  | CONF =>
      refine Meets.bind (meets_parseRounds l p) ?_
      rintro n _ ⟨hn, rfl⟩
      refine Meets.bind (meets_keyLoop (n + 1) hregular (by omega) []) ?_
      rintro expression ⟨l', p'⟩ ⟨rfl, hafter, _, hrest⟩
      have hkey : ∀ path, parsePathExpression ([] ++ keyTokens (t.token :: l)) = .ok path →
          path.keys[1]? = some [] → separated l' = true → Wild .CONF all := by
        intro path hpath hempty hseparated
        refine ⟨rfl, ?_⟩
        by_contra hfine
        rw [Bool.not_eq_false] at hfine
        dsimp only at hafter
        rw [hafter] at hseparated
        have hkey := ht.fine hfine hseparated
        rw [List.nil_append] at hpath
        rw [keyIsFine, hpath] at hkey
        simp [hempty] at hkey
      refine Meets.imp (meets_ofExcept hkey (fun e he => parsePathExpression_error he) l' p') ?_
      rintro path _ ⟨hwild, rfl⟩
      exact ⟨hrest rfl, hwild, nofun⟩

theorem isUnquotedWhitespace_ne_end {t : Token} (h : isUnquotedWhitespace t) : t ≠ .end_ := by
  rintro rfl
  cases h

-- The next token that is neither a newline nor whitespace.
theorem meets_skipWhitespaceLoop (n : ℕ) {t : TokenWithComments} (ht : Regular (t.token :: l))
    (hn : l.length < n) :
    Meets Stands (skipWhitespaceLoop flavor n t) (l, p)
      (fun r g => r.token :: g.1 <:+ t.token :: l ∧ g.2 = p) (Tolerable wild) := by
  induction n generalizing t l with
  | zero => omega
  | succ n ih =>
      refine Meets.ite (fun hblank => ?_) fun _ => Meets.pure ⟨List.suffix_rfl, rfl⟩
      have hl := (ht.tail (isUnquotedWhitespace_ne_end hblank)).2
      refine Meets.bind (meets_nextTokenIgnoringNewline flavor hl) ?_
      rintro r ⟨l', p'⟩ ⟨hreads, rfl⟩
      have hlength : l'.length < l.length := hreads.length_lt
      refine Meets.imp (ih (l := l') (hreads.regular hl) (by omega)) ?_
      rintro r' g ⟨hsuffix, hp⟩
      exact ⟨hsuffix.trans (hreads.suffix.trans (List.suffix_cons _ l)), hp⟩

theorem meets_nextAfterWhitespace (h : Regular l) :
    Meets Stands (nextAfterWhitespace flavor) (l, p)
      (fun r g => r.token :: g.1 <:+ l ∧ g.2 = p) (Tolerable wild) := by
  refine Meets.bind (meets_nextTokenIgnoringNewline flavor h) ?_
  rintro r ⟨l', p'⟩ ⟨hreads, rfl⟩
  refine Meets.bind (meets_parseRounds l' p') ?_
  rintro n _ ⟨hn, rfl⟩
  refine Meets.imp (meets_skipWhitespaceLoop (l := l') (n + 1) (hreads.regular h) (by omega)) ?_
  rintro r' g ⟨hsuffix, hp⟩
  exact ⟨hsuffix.trans hreads.suffix, hp⟩

-- What is left after a token that was read, unless it is the end.
theorem rest_of_suffix {t : Token} {g : List Token × List Path} (h : Regular l)
    (hsuffix : t :: g.1 <:+ l) (ht : t ≠ .end_) (hp : g.2 = p) : Rest l p g :=
  ⟨(List.suffix_cons t g.1).trans hsuffix,
    ((h.suffix hsuffix (List.cons_ne_nil _ _)).tail ht).2, hp⟩

theorem meets_includeName (h : Regular l) :
    Meets Stands (includeName flavor) (l, p) (fun _ g => Rest l p g) (Tolerable wild) := by
  refine Meets.bind (meets_nextAfterWhitespace h) ?_
  rintro r ⟨l₁, p₁⟩ ⟨hsuffix, rfl⟩
  split
  · rename_i kind htoken
    refine Meets.ite (fun _ => Meets.throw trivial) fun _ => ?_
    rw [htoken] at hsuffix
    have hrest : Rest l p₁ (l₁, p₁) := rest_of_suffix h hsuffix nofun rfl
    refine Meets.bind (meets_nextAfterWhitespace hrest.regular) ?_
    rintro r' ⟨l₂, p₂⟩ ⟨hsuffix', rfl⟩
    split
    · rename_i name htoken'
      rw [htoken'] at hsuffix'
      have hrest' : Rest l₁ p₂ (l₂, p₂) := rest_of_suffix hrest.regular hsuffix' nofun rfl
      refine Meets.bind (meets_nextAfterWhitespace hrest'.regular) ?_
      rintro r'' ⟨l₃, p₃⟩ ⟨hsuffix'', rfl⟩
      split
      · rename_i text htoken''
        rw [htoken''] at hsuffix''
        have hrest'' : Rest l₂ p₃ (l₃, p₃) := rest_of_suffix hrest'.regular hsuffix'' nofun rfl
        refine Meets.ite (fun _ => Meets.pure ?_) fun _ => Meets.throw trivial
        exact hrest''.trans (hrest'.suffix.trans hrest.suffix)
      · exact Meets.throw trivial
    · exact Meets.throw trivial
  · rename_i name htoken
    rw [htoken] at hsuffix
    exact Meets.pure (rest_of_suffix h hsuffix nofun rfl)
  · exact Meets.throw trivial

-- The fields of an object that keeps the invariant.
def FieldsMade (values : Fields Unit) : Prop :=
  (Value.simpleConfigObject () values false).Forall Value.WellMade

theorem FieldsMade.put {values : Fields Unit} (h : FieldsMade values) (key : Bytes)
    {v : Value Unit} (hv : v.Forall Value.WellMade) : FieldsMade (putField values key v) :=
  forall_putField h key hv

theorem FieldsMade.lookup {values : Fields Unit} (h : FieldsMade values) {key : Bytes}
    {v : Value Unit} (hlookup : values.lookup key = some v) : v.Forall Value.WellMade :=
  forall_of_lookup h.2 hlookup

-- `values[key]` becomes the value, with what it was before as its fallback.
theorem meets_mergeField {values : Fields Unit} (h : FieldsMade values) {key : Bytes}
    {v existing : Value Unit} (hv : v.Forall Value.WellMade)
    (hlookup : values.lookup key = some existing) :
    Meets Stands (ofMake (withFallback .plain v existing)) (l, p)
      (fun merged g => FieldsMade (putField values key merged) ∧ g = (l, p)) (Tolerable wild) := by
  refine Meets.imp (meets_ofMake (gives_withFallback_wellMade hv (h.lookup hlookup)) l p) ?_
  rintro merged g ⟨hmerged, hg⟩
  exact ⟨h.put key hmerged, hg⟩

theorem meets_addIncluded (fields : List (Bytes × Value Unit))
    (hfields : ForallFields Value.WellMade fields) {values : Fields Unit} (h : FieldsMade values) :
    Meets Stands (addIncluded fields values) (l, p)
      (fun values' g => FieldsMade values' ∧ g = (l, p)) (Tolerable wild) := by
  induction fields generalizing values with
  | nil => exact Meets.pure ⟨h, rfl⟩
  | cons field rest ih =>
      unfold addIncluded
      cases hlookup : values.lookup field.1 with
      | none => exact ih hfields.2 (h.put field.1 hfields.1)
      | some existing =>
          refine Meets.bind (meets_mergeField h hfields.1 hlookup) ?_
          rintro merged _ ⟨hmerged, rfl⟩
          exact ih hfields.2 hmerged

end

-- An includer that gives values which were made by the library, or throws.
structure Includer.Made (includer : Includer) (raised : ConfigException → Prop) : Prop where
  include_ : ∀ name v, includer.include_ name = .ok v → v.Forall Value.WellMade
  includeFile : ∀ name v, includer.includeFile name = .ok v → v.Forall Value.WellMade
  includeRaised : ∀ name e, includer.include_ name = .error e → raised e
  includeFileRaised : ∀ name e, includer.includeFile name = .error e → raised e

section

variable {flavor : ConfigSyntax} {all : List Token} {l : List Token} {p : List Path}
  {wild : String → Prop}

theorem meets_parseInclude {includer : Includer} (hincluder : includer.Made (Tolerable wild))
    (hl : Regular l) {values : Fields Unit} (h : FieldsMade values) :
    Meets Stands (parseInclude flavor includer values) (l, p)
      (fun values' g => FieldsMade values' ∧ Rest l p g) (Tolerable wild) := by
  refine Meets.bind (meets_includeName hl) ?_
  rintro ⟨name, file⟩ ⟨l', p'⟩ hrest
  have hok : ∀ v, (if file then includer.includeFile name else includer.include_ name) = .ok v →
      v.Forall Value.WellMade := by
    cases file with
    | true => exact hincluder.includeFile name
    | false => exact hincluder.include_ name
  have herror : ∀ e, (if file then includer.includeFile name else includer.include_ name) =
      .error e → Tolerable wild e := by
    cases file with
    | true => exact hincluder.includeFileRaised name
    | false => exact hincluder.includeRaised name
  refine Meets.bind (meets_ofExcept hok herror l' p') ?_
  rintro obj _ ⟨hobj, rfl⟩
  have hget : Meets Stands (get : Parse ParseContext) (l', p')
      (fun s g => g = (l', p')) (Tolerable wild) := fun s hs => ⟨(l', p'), hs, rfl⟩
  refine Meets.bind hget ?_
  rintro s _ rfl
  have hadd : ∀ obj : Value Unit, obj.Forall Value.WellMade → Meets Stands
      (addIncludedObject values obj) (l', p')
      (fun values' g => FieldsMade values' ∧ Rest l p g) (Tolerable wild) := by
    intro obj hobj
    cases obj with
    | simpleConfigObject id fields ignores =>
        refine Meets.imp (meets_addIncluded fields hobj.2 h) ?_
        rintro values' _ ⟨hvalues', rfl⟩
        exact ⟨hvalues', hrest⟩
    | _ => exact Meets.throw trivial
  dsimp only
  cases pathsToConcat s.pathStack with
  | none => exact hadd obj hobj
  | some path => exact hadd _ (forall_relativized path obj hobj)

-- The value of `a += v` refers to the path of the field that is being read.
theorem meets_plusEqualsValue {v : Value Unit} (hv : v.Forall Value.WellMade) (hp : p ≠ []) :
    Meets Stands (plusEqualsValue v) (l, p)
      (fun w g => w.Forall Value.WellMade ∧ g = (l, p)) (Tolerable wild) := by
  have hget : Meets Stands (get : Parse ParseContext) (l, p)
      (fun s g => s.pathStack = p ∧ g = (l, p)) (Tolerable wild) :=
    fun s hs => ⟨(l, p), hs, hs.paths, rfl⟩
  refine Meets.bind hget ?_
  rintro s _ ⟨rfl, rfl⟩
  cases hpaths : s.pathStack with
  | nil => exact absurd hpaths hp
  | cons path rest =>
      dsimp only [fullCurrentPath]
      generalize rest.foldl (fun full p => full.prepend p) path = full
      have href : Piece (.configReference () { path := full, optional := true } 0) := by
        refine ⟨⟨trivial, ?_⟩, rfl, rfl⟩
        change 0 < full.length
        cases full <;> exact Nat.succ_pos _
      have hlist : Piece (.simpleConfigList () [v]) :=
        ⟨⟨⟨trivial, trivial⟩, hv, trivial⟩, rfl, rfl⟩
      have hpieces : ∀ w ∈ [Value.configReference () { path := full, optional := true } 0,
          .simpleConfigList () [v]], Piece w := by
        intro w hw
        rcases List.mem_pair.mp hw with rfl | rfl
        · exact href
        · exact hlist
      refine Meets.bind (meets_concatenate hpieces (List.cons_ne_nil _ _) l _) ?_
      rintro _ _ ⟨⟨w, rfl, hw⟩, rfl⟩
      exact Meets.pure ⟨hw, rfl⟩

-- An object around the value for each key of the path up to the first empty one.
theorem createValueUnderPath_made {path : Path} {v : Value Unit} (hv : v.Forall Value.WellMade)
    {o : Value Unit} (h : createValueUnderPath path v = .ok o) : o.Forall Value.WellMade := by
  unfold createValueUnderPath at h
  cases hkeys : (keysUnderPath path).reverse with
  | nil =>
      rw [hkeys] at h
      cases h
  | cons deepest rest =>
      rw [hkeys] at h
      obtain rfl := Except.ok.inj h
      clear h hkeys
      have hstart := forall_single hv deepest false
      generalize Value.simpleConfigObject () [(deepest, v)] false = start at hstart
      induction rest generalizing start with
      | nil => exact hstart
      | cons key rest ih => exact ih _ (forall_single hstart key false)

theorem createValueUnderPath_error {path : Path} {v : Value Unit} {e : ConfigException}
    (h : createValueUnderPath path v = .error e) : path.first = [] ∧ e = noKeys := by
  unfold createValueUnderPath at h
  split at h
  · rename_i hkeys
    rw [List.reverse_eq_nil_iff] at hkeys
    refine ⟨?_, by cases h; rfl⟩
    by_contra hfirst
    cases path with
    | newKey first | cons first remainder =>
        change first ≠ [] at hfirst
        simp [keysUnderPath, Path.keys, hfirst] at hkeys
  · cases h

theorem meets_storeField {values : Fields Unit} (h : FieldsMade values) {path : Path}
    (hpath : flavor = .CONF → path.keys[1]? = some [] → Tolerable wild noKeys)
    {v : Value Unit} (hv : v.Forall Value.WellMade) :
    Meets Stands (storeField flavor values path v) (l, p)
      (fun values' g => FieldsMade values' ∧ g = (l, p)) (Tolerable wild) := by
  have hmerge : ∀ {w : Value Unit}, w.Forall Value.WellMade → ∀ existing,
      values.lookup path.first = some existing → Meets Stands (do
        let merged ← ofMake (withFallback .plain w existing)
        return putField values path.first merged) (l, p)
      (fun values' g => FieldsMade values' ∧ g = (l, p)) (Tolerable wild) := by
    intro w hw existing hlookup
    refine Meets.bind (meets_mergeField h hw hlookup) ?_
    rintro merged _ ⟨hmerged, rfl⟩
    exact Meets.pure ⟨hmerged, rfl⟩
  unfold storeField
  cases hremainder : path.remainder with
  | none =>
      cases hlookup : values.lookup path.first with
      | none => exact Meets.pure ⟨h.put path.first hv, rfl⟩
      | some existing =>
          exact Meets.ite (fun _ => Meets.throw trivial) fun _ => hmerge hv existing hlookup
  | some remaining =>
      have hmessage : "somehow got multi-element path in JSON mode" ∉ checkMessages := by decide
      refine Meets.ite (fun _ => Meets.throw hmessage) fun hflavor => ?_
      have hconf : flavor = .CONF := by
        cases flavor with
        | CONF => rfl
        | JSON => exact absurd rfl hflavor
      have herror : ∀ e, createValueUnderPath remaining v = .error e →
          Tolerable wild e := by
        intro e he
        obtain ⟨hfirst, rfl⟩ := createValueUnderPath_error he
        apply hpath hconf
        rw [Path.keys_getElem_one hremainder, hfirst]
      refine Meets.bind (meets_ofExcept (fun o ho => createValueUnderPath_made hv ho) herror l p) ?_
      rintro obj _ ⟨hobj, rfl⟩
      cases hlookup : values.lookup path.first with
      | none => exact Meets.pure ⟨h.put path.first hobj, rfl⟩
      | some existing => exact hmerge hobj existing hlookup

-- What is stored keeps the invariant; a path with an empty second key comes from a text
-- that has one.
def Stores (flavor : ConfigSyntax) (all : List Token) (wild : String → Prop) (store : Store) :
    Prop :=
  ∀ (values : Fields Unit) (path : Path) (v : Value Unit) (l : List Token) (p : List Path),
    FieldsMade values → (path.keys[1]? = some [] → Wild flavor all) → v.Forall Value.WellMade →
    Meets Stands (store values path v) (l, p) (fun values' g => FieldsMade values' ∧ g = (l, p))
      (Tolerable wild)

-- The exception is all that the text can lead to where it leaves the standard.
def WildAt (e : ConfigException) (flavor : ConfigSyntax) (all : List Token) (place : String) :
    Prop :=
  .undefinedBehaviour place = e ∧ Wild flavor all

theorem stores_storeField : Stores flavor all (WildAt noKeys flavor all) (storeField flavor) := by
  intro values path v l p h hpath hv
  have hwild : flavor = .CONF → path.keys[1]? = some [] →
      Tolerable (WildAt noKeys flavor all) noKeys := fun _ hempty => ⟨rfl, hpath hempty⟩
  exact meets_storeField h hwild hv

theorem stores_storeGuarded :
    Stores flavor all (WildAt secondKeyEmpty flavor all) (storeGuarded flavor) := by
  intro values path v l p h hpath hv
  refine Meets.ite (fun hguard => Meets.throw ⟨rfl, hpath hguard.2⟩) fun hguard => ?_
  exact meets_storeField h (fun hconf hempty => absurd ⟨hconf, hempty⟩ hguard) hv

theorem meets_pushPath (path : Path) (l : List Token) (p : List Path) :
    Meets Stands (pushPath path) (l, p) (fun _ g => g = (l, path :: p)) (Tolerable wild) :=
  fun _ hs => ⟨(l, path :: p), ⟨hs.pending, congrArg (path :: ·) hs.paths⟩, rfl⟩

theorem meets_popPath (path : Path) (l : List Token) (p : List Path) :
    Meets Stands popPath (l, path :: p) (fun _ g => g = (l, p)) (Tolerable wild) :=
  fun _ hs => ⟨(l, p), ⟨hs.pending, congrArg List.tail hs.paths⟩, rfl⟩

end

section

variable {flavor : ConfigSyntax} {all : List Token} {l : List Token} {p : List Path}

-- Another round after a separator starts where a field can start.
def Separates (all l : List Token) (p : List Path) (another : Bool) (g : List Token × List Path) :
    Prop :=
  Rest l p g ∧ (another = true → StartsField all g.1 ∧ g.1.length < l.length)

theorem meets_separatorLoop (n : ℕ) (hall' : l <:+ all) (hregular : Regular l) (hn : l.length ≤ n)
    {saw : Bool} (hsaw : saw = true → StartsField all l) {wild : String → Prop} :
    Meets Stands (separatorLoop flavor n saw) (l, p)
      (fun another g => Rest l p g ∧ (another = true → StartsField all g.1 ∧
        (saw = true ∨ g.1.length < l.length))) (Tolerable wild) := by
  induction n generalizing l saw with
  | zero => exact absurd (List.length_eq_zero_iff.mp (by omega)) hregular.ne_nil
  | succ n ih =>
      cases l with
      | nil => exact absurd rfl hregular.ne_nil
      | cons t l =>
          rw [List.length_cons] at hn
          refine Meets.bind (meets_nextToken flavor hregular) ?_
          rintro r _ ⟨rfl, rfl⟩
          obtain ⟨before, hbefore⟩ := hall'
          have hstarts : r.token.startsField = true → StartsField all l :=
            fun ht => ⟨before, r.token, ht, hbefore.symm⟩
          split
          · rename_i htoken
            rw [htoken] at hregular hstarts
            have hl := (hregular.tail nofun).2
            refine Meets.imp (ih ((hstarts rfl).suffix) hl (by omega) fun _ => hstarts rfl) ?_
            rintro another g ⟨hrest, hanother⟩
            refine ⟨hrest.trans (List.suffix_cons _ l), fun h => ⟨(hanother h).1, .inr ?_⟩⟩
            exact Nat.lt_succ_of_le hrest.suffix.length_le
          · rename_i htoken
            rw [htoken] at hregular hstarts
            exact Meets.pure ⟨⟨List.suffix_cons _ l, (hregular.tail nofun).2, rfl⟩,
              fun _ => ⟨hstarts rfl, .inr (Nat.lt_succ_self _)⟩⟩
          · refine Meets.bind (meets_putBackToken r l p) ?_
            rintro _ _ rfl
            exact Meets.pure ⟨⟨List.suffix_rfl, hregular, rfl⟩, fun h => ⟨hsaw h, .inl h⟩⟩

theorem meets_checkElementSeparator (hall' : l <:+ all) (hregular : Regular l) {wild : String → Prop} :
    Meets Stands (checkElementSeparator flavor) (l, p) (Separates all l p) (Tolerable wild) := by
  cases flavor with
  | JSON =>
      refine Meets.bind (meets_nextTokenIgnoringNewline .JSON hregular) ?_
      rintro r ⟨l', p'⟩ ⟨hreads, rfl⟩
      split
      · rename_i htoken
        rw [htoken] at hreads
        obtain ⟨before, hbefore⟩ := hreads.suffix.trans hall'
        exact Meets.pure ⟨rest_of_suffix hregular hreads.suffix nofun rfl,
          fun _ => ⟨⟨before, .comma, rfl, hbefore.symm⟩, hreads.length_lt⟩⟩
      · refine Meets.bind (meets_putBackToken r l' p') ?_
        rintro _ _ rfl
        exact Meets.pure ⟨⟨hreads.suffix, hreads.regular hregular, rfl⟩, nofun⟩
  | CONF =>
      refine Meets.bind (meets_parseRounds l p) ?_
      rintro n _ ⟨hn, rfl⟩
      have hsaw : false = true → StartsField all l := nofun
      refine Meets.imp (meets_separatorLoop n hall' hregular hn.le hsaw) ?_
      rintro another g ⟨hrest, hanother⟩
      exact ⟨hrest, fun h => ⟨(hanother h).1, (hanother h).2.resolve_left Bool.false_ne_true⟩⟩

-- The object ends with its brace, or with the text, whose end is put back.
theorem meets_closeField (hadOpenCurly : Bool) (hall' : l <:+ all) (hregular : Regular l)
    {wild : String → Prop} :
    Meets Stands (closeField flavor hadOpenCurly) (l, p) (Separates all l p) (Tolerable wild) := by
  refine Meets.bind (meets_checkElementSeparator hall' hregular) ?_
  rintro another ⟨l', p'⟩ ⟨hrest, hanother⟩
  refine Meets.ite (fun hsaw => Meets.pure ⟨hrest, fun _ => hanother hsaw⟩) fun _ => ?_
  obtain rfl : p' = p := hrest.paths
  refine Meets.bind (meets_nextTokenIgnoringNewline flavor hrest.regular) ?_
  rintro r ⟨l'', p''⟩ ⟨hreads, rfl⟩
  split
  · rename_i htoken
    rw [htoken] at hreads
    refine Meets.pure ⟨?_, nofun⟩
    exact (rest_of_suffix hrest.regular hreads.suffix nofun rfl).trans hrest.suffix
  · exact Meets.throw trivial
  · exact Meets.throw trivial
  · refine Meets.bind (meets_putBackToken r l'' p'') ?_
    rintro _ _ rfl
    refine Meets.pure ⟨⟨hreads.suffix.trans hrest.suffix, hreads.regular hrest.regular, rfl⟩, nofun⟩
  · exact Meets.throw trivial

end

section

variable {flavor : ConfigSyntax} {all : List Token} {l : List Token} {p : List Path}
  {wild : String → Prop} {read : TokenWithComments → Parse (Value Unit)} {bound : ℕ}
  (hall : Document all) (hread : ReadsValue wild all read bound)

include hall hread

-- What is done with the token that a value starts with, after a colon, an equals sign,
-- a comma or an open bracket.
theorem meets_valueThen {β : Type} (hall' : l <:+ all) (hregular : Regular l)
    (hl : l.length ≤ bound) {f : TokenWithComments → Parse β}
    {post : β → List Token × List Path → Prop}
    (hf : ∀ t l', Startable all t.token l' → Rereads l t.token l' →
      Meets Stands (f t) (l', p) post (Tolerable wild)) :
    Meets Stands (do
        consolidateValueTokens flavor read
        let t ← nextTokenIgnoringNewline flavor
        f t) (l, p) post (Tolerable wild) := by
  refine Meets.bind (meets_consolidateValueTokens hall hread hall' hregular hl) ?_
  rintro _ ⟨l', p'⟩ ⟨rfl, hl'⟩
  refine Meets.bind (meets_nextValue hall hall' hregular hl') ?_
  rintro t ⟨l'', p''⟩ ⟨hready, hl'', rfl⟩
  exact hf t l'' hready hl''

theorem meets_parseFieldValue {t : TokenWithComments} (ht : t.token :: l <:+ all)
    (hl : l.length < bound) (hp : p ≠ []) :
    Meets Stands (parseFieldValue flavor read t) (l, p)
      (fun v g => t.token.separatesKey = true ∧ v.Forall Value.WellMade ∧ Rest l p g)
      (Tolerable wild) := by
  have hready := hall.ready ht
  have hsuffix := hready.suffix
  have hvalue : t.token.separatesKey = true → ∀ t' l', Startable all t'.token l' →
      Rereads l t'.token l' → Meets Stands (read t') (l', p)
        (fun v g => t.token.separatesKey = true ∧ v.Forall Value.WellMade ∧ Rest l p g)
        (Tolerable wild) := by
    intro hseparates t' l' hready hl'
    refine Meets.imp (hread t' l' p hready (hl'.length_lt.trans hl)) ?_
    rintro v g ⟨hv, _, hrest⟩
    exact ⟨hseparates, hv, hrest.trans hl'.suffix⟩
  unfold parseFieldValue
  split
  · rename_i htoken
    refine Meets.imp (hread t l p hready hl) ?_
    rintro v g ⟨hv, _, hrest⟩
    exact ⟨by rw [htoken]; rfl, hv, hrest⟩
  · rename_i htoken
    rw [htoken] at hready
    exact meets_valueThen hall hread hsuffix (hready.regular nofun) hl.le
      (hvalue (by rw [htoken]; rfl))
  · rename_i htoken
    rw [htoken] at hready
    exact meets_valueThen hall hread hsuffix (hready.regular nofun) hl.le
      (hvalue (by rw [htoken]; rfl))
  · rename_i htoken
    rw [htoken] at hready
    refine meets_valueThen hall hread hsuffix (hready.regular nofun) hl.le ?_
    intro t' l' hready' hl'
    refine Meets.bind (hvalue (by rw [htoken]; rfl) t' l' hready' hl') ?_
    rintro v ⟨l'', p''⟩ ⟨hseparates, hv, hrest⟩
    obtain rfl : p'' = p := hrest.paths
    refine Meets.imp (meets_plusEqualsValue hv hp) ?_
    rintro w _ ⟨hw, rfl⟩
    exact ⟨hseparates, hw, hrest⟩
  · exact Meets.throw trivial

theorem meets_parseFieldWith {store : Store} (hstore : Stores flavor all wild store)
    {t : TokenWithComments} (ht : StartsField all (t.token :: l)) (hl : l.length < bound)
    {values : Fields Unit} (h : FieldsMade values) :
    Meets Stands (parseFieldWith flavor store read values t) (l, p)
      (fun values' g => FieldsMade values' ∧ Rest l p g) (Tolerable wild) := by
  refine Meets.bind (meets_parseKey hall ht) ?_
  rintro path ⟨l₁, p₁⟩ ⟨hrest, hpath, _⟩
  obtain rfl : p₁ = p := hrest.paths
  refine Meets.bind (meets_nextTokenIgnoringNewline flavor hrest.regular) ?_
  rintro afterKey ⟨l₂, p₂⟩ ⟨hreads, rfl⟩
  refine Meets.bind (meets_pushPath path l₂ p₂) ?_
  rintro _ _ rfl
  have hsuffix : l₂ <:+ l := (List.suffix_cons _ l₂).trans (hreads.suffix.trans hrest.suffix)
  have hall' : l₁ <:+ all := hrest.suffix.trans ((List.suffix_cons _ l).trans ht.suffix)
  have hlength := hsuffix.length_le
  refine Meets.bind (meets_parseFieldValue hall hread (l := l₂) (hreads.suffix.trans hall')
    (by omega) (List.cons_ne_nil path p₂)) ?_
  rintro v ⟨l₃, p₃⟩ ⟨hseparates, hv, hrest₃⟩
  obtain rfl : p₃ = path :: p₂ := hrest₃.paths
  refine Meets.bind (meets_popPath path l₃ p₂) ?_
  rintro _ _ rfl
  have hwild := fun hempty => hpath hempty (hreads.separated hseparates)
  refine Meets.imp (hstore values path v l₃ p₂ h hwild hv) ?_
  rintro values' _ ⟨hvalues', rfl⟩
  exact ⟨hvalues', hrest₃.suffix.trans hsuffix, hrest₃.regular, rfl⟩

end

section

variable {flavor : ConfigSyntax} {all : List Token} {l : List Token} {p : List Path}
  {wild : String → Prop} {includer : Includer} {store : Store}
  {read : TokenWithComments → Parse (Value Unit)} {bound : ℕ} (hall : Document all)
  (hincluder : includer.Made (Tolerable wild)) (hstore : Stores flavor all wild store)
  (hread : ReadsValue wild all read bound)

include hall hincluder hstore hread

theorem meets_parseObjectLoopWith (hadOpenCurly : Bool) (n : ℕ) (afterComma : Bool)
    (hl : StartsField all l) (hregular : Regular l) (hbound : l.length ≤ bound)
    (hn : l.length ≤ n) {values : Fields Unit} (h : FieldsMade values) :
    Meets Stands (parseObjectLoopWith flavor includer store read hadOpenCurly n afterComma values)
      (l, p) (fun values' g => FieldsMade values' ∧ Rest l p g) (Tolerable wild) := by
  induction n generalizing l afterComma values with
  | zero => exact absurd (List.length_eq_zero_iff.mp (by omega)) hregular.ne_nil
  | succ n ih =>
      refine Meets.bind (meets_nextTokenIgnoringNewline flavor hregular) ?_
      rintro t ⟨l', p'⟩ ⟨hreads, rfl⟩
      have hlength : l'.length < l.length := hreads.length_lt
      have hstarts := hl.reads hreads
      -- the rest of a round, after its field was read
      have hclose : ∀ values' g, FieldsMade values' ∧ Rest l p' g ∧ g.1.length ≤ l'.length →
          Meets Stands (do
            if ← closeField flavor hadOpenCurly then
              parseObjectLoopWith flavor includer store read hadOpenCurly n true values'
            else return values') g
          (fun values' g => FieldsMade values' ∧ Rest l p' g) (Tolerable wild) := by
        rintro values' ⟨l₁, p₁⟩ ⟨hvalues', hrest, hle⟩
        obtain rfl : p₁ = p' := hrest.paths
        refine Meets.bind (meets_closeField hadOpenCurly (hrest.suffix.trans hl.suffix)
          hrest.regular) ?_
        rintro another ⟨l₂, p₂⟩ ⟨hrest₂, hanother⟩
        obtain rfl : p₂ = p₁ := hrest₂.paths
        refine Meets.ite (fun hsaw => ?_) fun _ => Meets.pure ⟨hvalues', hrest₂.trans hrest.suffix⟩
        have hle₂ : l₂.length ≤ l₁.length := hrest₂.suffix.length_le
        dsimp only at hle
        refine Meets.imp (ih (l := l₂) true (hanother hsaw).1 hrest₂.regular (by omega)
          (by omega) hvalues') ?_
        rintro values'' g ⟨hvalues'', hrest₃⟩
        exact ⟨hvalues'', hrest₃.trans (hrest₂.suffix.trans hrest.suffix)⟩
      have hround : Meets Stands (do
            let values ←
              if flavor ≠ .JSON && isIncludeKeyword t.token then
                parseInclude flavor includer values
              else parseFieldWith flavor store read values t
            if ← closeField flavor hadOpenCurly then
              parseObjectLoopWith flavor includer store read hadOpenCurly n true values
            else return values) (l', p')
          (fun values' g => FieldsMade values' ∧ Rest l p' g) (Tolerable wild) := by
        have hfield : ∀ (values' : Fields Unit) (g : List Token × List Path),
            FieldsMade values' ∧ Rest l' p' g →
            FieldsMade values' ∧ Rest l p' g ∧ g.1.length ≤ l'.length := by
          rintro values' g ⟨hvalues', hrest⟩
          have hsuffix : l' <:+ l := (List.suffix_cons _ l').trans hreads.suffix
          exact ⟨hvalues', hrest.trans hsuffix, hrest.suffix.length_le⟩
        refine Meets.ite (fun hkeyword => ?_) fun _ => ?_
        · rw [Bool.and_eq_true] at hkeyword
          have hne : t.token ≠ .end_ := by
            intro hend
            rw [hend] at hkeyword
            cases hkeyword.2
          have hl' : Rest l p' (l', p') := rest_of_suffix hregular hreads.suffix hne rfl
          exact Meets.bind (Meets.imp (meets_parseInclude hincluder hl'.regular h) hfield) hclose
        · exact Meets.bind (Meets.imp (meets_parseFieldWith (l := l') hall hread hstore hstarts
            (by omega) h) hfield) hclose
      dsimp only
      split
      · rename_i htoken
        rw [htoken] at hreads
        refine Meets.ite (fun _ => Meets.throw trivial) fun _ => ?_
        refine Meets.ite (fun _ => Meets.throw trivial) fun _ => Meets.pure ⟨h, ?_⟩
        exact rest_of_suffix hregular hreads.suffix nofun rfl
      · refine Meets.bind (meets_putBackToken t l' p') ?_
        rintro _ _ rfl
        exact Meets.pure ⟨h, hreads.suffix, hreads.regular hregular, rfl⟩
      · exact hround

theorem meets_parseObjectWith (hadOpenCurly : Bool) (hl : StartsField all l) (hregular : Regular l)
    (hbound : l.length ≤ bound) :
    Meets Stands (parseObjectWith flavor includer store read hadOpenCurly) (l, p)
      (fun v g => Piece v ∧ Rest l p g) (Tolerable wild) := by
  refine Meets.bind (meets_parseRounds l p) ?_
  rintro n _ ⟨hn, rfl⟩
  have hnone : FieldsMade [] := ⟨⟨trivial, List.nodup_nil⟩, trivial⟩
  refine Meets.bind (meets_parseObjectLoopWith hall hincluder hstore hread hadOpenCurly n false hl
    hregular hbound hn.le hnone) ?_
  rintro values g ⟨hvalues, hrest⟩
  exact Meets.pure ⟨.of_simple hvalues rfl, hrest⟩

end

theorem isCloseSquare_iff {t : Token} (h : isCloseSquare t) : t = .closeSquare := by
  cases t with
  | closeSquare => rfl
  | _ => cases h

section

variable {flavor : ConfigSyntax} {all : List Token} {l : List Token} {p : List Path}
  {wild : String → Prop} {read : TokenWithComments → Parse (Value Unit)} {bound : ℕ}
  (hall : Document all) (hread : ReadsValue wild all read bound)

include hall hread

theorem meets_parseArrayLoop (n : ℕ) (hall' : l <:+ all) (hregular : Regular l)
    (hbound : l.length ≤ bound) (hn : l.length ≤ n) {values : List (Value Unit)}
    (h : ForallAll Value.WellMade values) :
    Meets Stands (parseArrayLoop flavor read n values) (l, p)
      (fun values' g => ForallAll Value.WellMade values' ∧ Rest l p g)
      (Tolerable wild) := by
  induction n generalizing l values with
  | zero => exact absurd (List.length_eq_zero_iff.mp (by omega)) hregular.ne_nil
  | succ n ih =>
      refine Meets.bind (meets_checkElementSeparator hall' hregular) ?_
      rintro another ⟨l₁, p₁⟩ ⟨hrest, hanother⟩
      obtain rfl : p₁ = p := hrest.paths
      have hle : l₁.length ≤ l.length := hrest.suffix.length_le
      refine Meets.ite (fun hsaw => ?_) fun _ => ?_
      · have hlt : l₁.length < l.length := (hanother hsaw).2
        -- the rest of the list, when `l₂` is left of it
        have hnext : ∀ {l₂ : List Token} {values' : List (Value Unit)}, l₂ <:+ l₁ → Regular l₂ →
            ForallAll Value.WellMade values' →
            Meets Stands (parseArrayLoop flavor read n values') (l₂, p₁)
              (fun values' g => ForallAll Value.WellMade values' ∧ Rest l p₁ g)
              (Tolerable wild) := by
          intro l₂ values' hsuffix hl₂ hvalues'
          have hle₂ := hsuffix.length_le
          have hsuffix' : l₂ <:+ l := hsuffix.trans hrest.suffix
          refine Meets.imp (ih (hsuffix'.trans hall') hl₂ (by omega) (by omega) hvalues') ?_
          rintro values'' g ⟨hvalues'', hrest'⟩
          exact ⟨hvalues'', hrest'.trans hsuffix'⟩
        refine meets_valueThen (l := l₁) hall hread (hrest.suffix.trans hall') hrest.regular
          (by omega) ?_
        intro t l₂ hready hl₂
        have hlength := hl₂.length_lt
        refine Meets.ite (fun hstarts => ?_) fun _ => ?_
        · refine Meets.bind (hread t l₂ p₁ hready (by omega)) ?_
          rintro v ⟨l₃, p₃⟩ ⟨hv, _, hrest₃⟩
          obtain rfl : p₃ = p₁ := hrest₃.paths
          exact hnext (hrest₃.suffix.trans hl₂.suffix) hrest₃.regular
            (forallAll_append h ⟨hv, trivial⟩)
        · refine Meets.ite (fun hclose => ?_) fun _ => Meets.throw trivial
          rw [Bool.and_eq_true] at hclose
          have ht := isCloseSquare_iff hclose.2
          refine Meets.bind (meets_putBackToken t l₂ p₁) ?_
          rintro _ _ rfl
          rw [ht] at hl₂ hready ⊢
          exact hnext (hl₂.raw nofun) (.cons rfl (hready.regular nofun)) h
      · refine Meets.bind (meets_nextTokenIgnoringNewline flavor hrest.regular) ?_
        rintro r ⟨l₂, p₂⟩ ⟨hreads, rfl⟩
        refine Meets.ite (fun hclose => Meets.pure ⟨h, ?_⟩) fun _ => Meets.throw trivial
        rw [isCloseSquare_iff hclose] at hreads
        exact (rest_of_suffix hrest.regular hreads.suffix nofun rfl).trans hrest.suffix

theorem meets_parseArray (hall' : l <:+ all) (hregular : Regular l) (hbound : l.length ≤ bound) :
    Meets Stands (parseArray flavor read) (l, p) (fun v g => Piece v ∧ Rest l p g)
      (Tolerable wild) := by
  have hlist : ∀ {values : List (Value Unit)}, ForallAll Value.WellMade values →
      Piece (.simpleConfigList () values) :=
    fun h => ⟨⟨⟨trivial, trivial⟩, h⟩, rfl, rfl⟩
  refine meets_valueThen hall hread hall' hregular hbound ?_
  intro t l₁ hready hl₁
  have hlength := hl₁.length_lt
  refine Meets.ite (fun hclose => Meets.pure ⟨hlist trivial, hl₁.suffix, ?_, rfl⟩) fun _ => ?_
  · rw [isCloseSquare_iff hclose] at hready
    exact hready.regular nofun
  · refine Meets.ite (fun _ => ?_) fun _ => Meets.throw trivial
    refine Meets.bind (hread t l₁ p hready (by omega)) ?_
    rintro v ⟨l₂, p₂⟩ ⟨hv, _, hrest⟩
    obtain rfl : p₂ = p := hrest.paths
    have hle : l₂.length ≤ l₁.length := hrest.suffix.length_le
    have hsuffix : l₂ <:+ l := hrest.suffix.trans hl₁.suffix
    refine Meets.bind (meets_parseRounds l₂ p₂) ?_
    rintro n _ ⟨hn, rfl⟩
    refine Meets.bind (meets_parseArrayLoop (l := l₂) hall hread n (hsuffix.trans hall')
      hrest.regular (by omega) hn.le ⟨hv, trivial⟩) ?_
    rintro values g ⟨hvalues, hrest'⟩
    exact Meets.pure ⟨hlist hvalues, hrest'.trans hsuffix⟩

end

section

variable {flavor : ConfigSyntax} {all : List Token} {wild : String → Prop} {includer : Includer}
  {store : Store} (hall : Document all) (hincluder : includer.Made (Tolerable wild))
  (hstore : Stores flavor all wild store)

include hall hincluder hstore

-- `parse_value` reads what is shorter than the levels it is given.
theorem readsValue_parseValueWith (depth : ℕ) :
    ReadsValue wild all (parseValueWith flavor includer store depth) depth := by
  induction depth with
  | zero =>
      intro t l p _ hl
      omega
  | succ depth ih =>
      intro t l p hready hl
      unfold parseValueWith
      cases htoken : t.token with
      | value v =>
          rw [htoken] at hready
          refine Meets.pure ⟨hready.value v rfl, fun h => absurd rfl (h v), ?_⟩
          exact ⟨List.suffix_rfl, hready.regular (fun h => by cases h), rfl⟩
      | openCurly =>
          rw [htoken] at hready
          refine Meets.imp (meets_parseObjectWith hall hincluder hstore ih true hready.opens
            (hready.regular fun h => by cases h) (by omega)) ?_
          rintro v g ⟨hv, hrest⟩
          exact ⟨hv.made, fun _ => hv, hrest⟩
      | openSquare =>
          rw [htoken] at hready
          refine Meets.imp (meets_parseArray hall ih hready.suffix (hready.regular fun h => by cases h)
            (by omega)) ?_
          rintro v g ⟨hv, hrest⟩
          exact ⟨hv.made, fun _ => hv, hrest⟩
      | _ => exact Meets.throw trivial

theorem meets_parseDocumentWith {l : List Token} (hstart : all = .start :: l) :
    Meets Stands (parseDocumentWith flavor includer store) (all, []) (fun v _ => Piece v)
      (Tolerable wild) := by
  refine Meets.bind (meets_parseRounds all []) ?_
  rintro depth _ ⟨hdepth, rfl⟩
  have hread := readsValue_parseValueWith hall hincluder hstore depth
  refine Meets.bind (meets_nextTokenIgnoringNewline flavor hall.regular) ?_
  rintro t ⟨l₁, p₁⟩ ⟨hreads, rfl⟩
  rw [hstart] at hreads
  obtain ⟨ht, rfl⟩ : t.token = .start ∧ l₁ = l := hreads.of_cons (by simp)
  simp only [ht]
  have hstarts : StartsField all l₁ := ⟨[], .start, rfl, hstart⟩
  have hregular : Regular l₁ := hall.tail (t := .start) (by rw [hstart]) (by simp)
  refine Meets.bind (meets_nextTokenIgnoringNewline flavor hregular) ?_
  rintro t' ⟨l₂, p₂⟩ ⟨hreads', rfl⟩
  have hready := hall.ready (hreads'.suffix.trans hstarts.suffix)
  have hlength : l₂.length < l₁.length := hreads'.length_lt
  have hle := hstarts.suffix.length_le
  -- after the value comes the end
  have hend : ∀ v g, Piece v ∧ Rest l₁ [] g → Meets Stands (finishDocument flavor v) g
      (fun v _ => Piece v) (Tolerable wild) := by
    rintro v ⟨l₃, p₃⟩ ⟨hv, hrest⟩
    refine Meets.bind (meets_nextTokenIgnoringNewline flavor hrest.regular) ?_
    rintro t'' g _
    split
    · exact Meets.pure hv
    · exact Meets.throw trivial
  have hvalue : (∀ w, t'.token ≠ .value w) →
      Meets Stands (parseValueWith flavor includer store depth t') (l₂, [])
        (fun v g => Piece v ∧ Rest l₁ [] g) (Tolerable wild) := by
    intro hother
    refine Meets.imp (hread t' l₂ [] hready (by omega)) ?_
    rintro v g ⟨_, hv, hrest⟩
    exact ⟨hv hother, hrest.trans ((List.suffix_cons _ l₂).trans hreads'.suffix)⟩
  split
  · rename_i htoken
    exact Meets.bind (hvalue (by simp [htoken])) hend
  · rename_i htoken
    exact Meets.bind (hvalue (by simp [htoken])) hend
  · exact Meets.throw trivial
  · exact Meets.throw trivial
  · refine Meets.bind (meets_putBackToken t' l₂ []) ?_
    rintro _ _ rfl
    refine Meets.bind (Meets.imp (meets_parseObjectWith hall hincluder hstore hread false
      (hstarts.reads hreads') (hreads'.regular hregular) ?_) ?_) hend
    · rw [List.length_cons]
      omega
    · rintro v g ⟨hv, hrest⟩
      exact ⟨hv, hrest.trans hreads'.suffix⟩

end

-- The tokens of a text without the comments.
def significant (ts : List Token) : List Token := ts.filter fun t => !t.isComment

-- A document that is read gives a value that keeps the invariant; otherwise the
-- parser throws, and no constructor refused a value.
theorem parseWith_outcome {flavor : ConfigSyntax} {includer : Includer} {store : Store}
    {wild : String → Prop} (doubles : Doubles) (input : Bytes) {l : List Token}
    (hall : Document (significant (tokenize doubles input flavor)))
    (hstart : significant (tokenize doubles input flavor) = .start :: l)
    (hincluder : includer.Made (Tolerable wild))
    (hstore : Stores flavor (significant (tokenize doubles input flavor)) wild store) :
    match parseWith doubles includer store flavor input with
    | .ok v => Piece v
    | .error e => Tolerable wild e := by
  have hstands : Stands { tokens := tokenize doubles input flavor, buffer := [], pathStack := [] }
      (significant (tokenize doubles input flavor), []) := ⟨rfl, rfl⟩
  have hmeets := meets_parseDocumentWith hall hincluder hstore hstart _ hstands
  unfold parseWith
  cases h : parseDocumentWith flavor includer store
      { tokens := tokenize doubles input flavor, buffer := [], pathStack := [] } with
  | ok v s =>
      rw [h] at hmeets
      obtain ⟨g, _, hv⟩ := hmeets
      exact hv
  | error e s =>
      rw [h] at hmeets
      exact hmeets

end AsrServiceProxy.Config

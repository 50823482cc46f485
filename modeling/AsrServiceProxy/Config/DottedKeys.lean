import AsrServiceProxy.Config.Including.Theorems

-- A document with one field: the object that its path names.
namespace AsrServiceProxy.Config

open CMemory Simulation

-- A path expression by its tokens, with the path that it is read as.
structure SpelledPath where
  tokens : List Token
  path : Path
  spells : parsePathExpression tokens = .ok path
  isKey : ∀ t ∈ tokens, t.isKey = true

-- At the start of a field the word `include` is a keyword.
def SpelledPath.startsInclude (key : SpelledPath) : Bool := key.tokens.head?.any isIncludeKeyword

-- The tokens of a resolved value. Wherever they stand after a separator, the parser
-- reads them as the value, and nothing of what ends it.
structure Literal where
  tokens : List Token
  value : Value Unit
  resolved : value.resolved = true
  reads : ∀ (includer : Includer) (depth : ℕ) (stop : Token) (rest : List Token) (p : List Path),
    tokens.length < depth → endsValue stop = true → Regular (tokens ++ stop :: rest) →
    Succeeds Stands (do
      consolidateValueTokens .CONF (parseValue .CONF includer depth)
      parseValue .CONF includer depth (← nextTokenIgnoringNewline .CONF))
      (tokens ++ stop :: rest, p) (fun w g => w = value ∧ g = (stop :: rest, p))

-- What may stand between a field and the end of the object.
inductive FieldEnd where
  | lines (n : ℕ)
  | comma (before after : ℕ)

def FieldEnd.tokens : FieldEnd → List Token
  | lines n => List.replicate n .newline
  | comma before after => List.replicate before .newline ++ .comma :: List.replicate after .newline

-- The empty lines of a document with one field, whose object may have braces.
inductive Layout where
  | bare (before : ℕ) (fieldEnd : FieldEnd)
  | braced (front before : ℕ) (fieldEnd : FieldEnd) (back : ℕ)

-- What stands behind the `=`.
def Literal.toEnd (literal : Literal) (fieldEnd : FieldEnd) (closing : List Token) : List Token :=
  literal.tokens ++ (fieldEnd.tokens ++ closing)

-- `path = v`, and what follows.
def soleField (key : SpelledPath) (literal : Literal) (fieldEnd : FieldEnd) (closing : List Token) :
    List Token :=
  key.tokens ++ .equals :: literal.toEnd fieldEnd closing

def fieldDocument (key : SpelledPath) (literal : Literal) : Layout → List Token
  | .bare before fieldEnd =>
      .start :: (List.replicate before .newline ++ soleField key literal fieldEnd [.end_])
  | .braced front before fieldEnd back =>
      .start :: (List.replicate front .newline ++ .openCurly :: (List.replicate before .newline ++
        soleField key literal fieldEnd (.closeCurly :: (List.replicate back .newline ++ [.end_]))))

section

variable {l rest tokens : List Token} {x : Token} {p : List Path}

-- After the last field: a comma or a newline starts another round, which finds the end.
theorem returns_lastField {includer : Includer} {read : TokenWithComments → Parse (Value Unit)}
    (fieldEnd : FieldEnd) {hadOpenCurly : Bool} {closer : Token}
    (hcloser : closer = if hadOpenCurly then .closeCurly else .end_) (h : Regular (closer :: rest))
    (values : Fields Unit) (n : ℕ) :
    Succeeds Stands (do
      if ← closeField .CONF hadOpenCurly then
        parseObjectLoop .CONF includer read hadOpenCurly (n + 1) true values
      else return values) (fieldEnd.tokens ++ closer :: rest, p)
      (fun vs g => vs = values ∧ g = (if hadOpenCurly then rest else closer :: rest, p)) := by
  obtain ⟨hne, hcomma, hproblem⟩ := closer_plain hadOpenCurly hcloser
  cases fieldEnd with
  | lines count =>
      cases count with
      | zero =>
          refine Succeeds.bind (returns_closeField hadOpenCurly hcloser h) ?_
          rintro _ _ ⟨rfl, rfl⟩
          exact Succeeds.pure ⟨rfl, rfl⟩
      | succ count =>
          have hlines := returns_separator_lines (p := p) (count + 1) hne hcomma hproblem h
          rw [decide_eq_true (Nat.succ_pos count)] at hlines
          refine Succeeds.bind (returns_closeField_separator hadOpenCurly hlines) ?_
          rintro _ _ ⟨rfl, rfl⟩
          exact returns_noField 0 n true hcloser h
  | comma before after =>
      have hseparator := returns_separator_comma (p := p) before (.cons rfl (h.lines after))
      have hsplit : (FieldEnd.comma before after).tokens ++ closer :: rest =
          List.replicate before .newline ++
            .comma :: (List.replicate after .newline ++ closer :: rest) := by
        rw [FieldEnd.tokens, List.append_assoc, List.cons_append]
      rw [hsplit]
      refine Succeeds.bind (returns_closeField_separator hadOpenCurly hseparator) ?_
      rintro _ _ ⟨rfl, rfl⟩
      exact returns_noField after n true hcloser h

-- Inside the key, before the separator.
def InKey (rest : List Token) (p : List Path) (g : List Token × List Path) : Prop :=
  ∃ key : List Token, (∀ t ∈ key, t.isKey = true) ∧ g = (key ++ .equals :: rest, p)

-- A token was taken inside the key, or it is the separator, where no include goes on.
def TakenInKey (rest : List Token) (p : List Path) (r : TokenWithComments)
    (g : List Token × List Path) : Prop :=
  r.token = .equals ∨ InKey rest p g

variable (h : Regular (.equals :: rest)) {g : List Token × List Path}

include h

theorem meets_next_inKey (hg : InKey rest p g) :
    Meets Stands (nextTokenIgnoringNewline .CONF) g (TakenInKey rest p) fun _ => True := by
  obtain ⟨key, hkey, rfl⟩ := hg
  cases key with
  | nil =>
      refine Meets.imp (Meets.of_succeeds (returns_next h nofun rfl)) ?_
      rintro r _ ⟨hr, -⟩
      exact .inl hr
  | cons t key =>
      obtain ⟨ht, hkey⟩ := List.forall_mem_cons.mp hkey
      have hregular : Regular (t :: (key ++ .equals :: rest)) :=
        .cons (Token.isRegular_of_isKey ht) (h.append_left fun t ht =>
          Token.isRegular_of_isKey (hkey t ht))
      have hne : t ≠ .newline := by
        rintro rfl
        exact absurd ht nofun
      refine Meets.imp (Meets.of_succeeds (returns_next hregular hne
        (Token.isProblem_of_isKey ht))) ?_
      rintro r _ ⟨-, rfl⟩
      exact .inr ⟨key, hkey, rfl⟩

theorem meets_skipWhitespace_inKey (n : ℕ) {r : TokenWithComments} (hr : TakenInKey rest p r g) :
    Meets Stands (skipWhitespaceLoop .CONF n r) g (TakenInKey rest p) fun _ => True := by
  induction n generalizing r g with
  | zero => exact Meets.throw trivial
  | succ n ih =>
      rw [skipWhitespaceLoop]
      by_cases hblank : isUnquotedWhitespace r.token = true
      · rw [if_pos hblank]
        rcases hr with hequals | hg
        · rw [hequals] at hblank
          cases hblank
        · refine Meets.bind (meets_next_inKey h hg) ?_
          intro r' g' hr'
          exact ih hr'
      · rw [if_neg hblank]
        exact Meets.pure hr

theorem meets_nextAfterWhitespace_inKey (hg : InKey rest p g) :
    Meets Stands (nextAfterWhitespace .CONF) g (TakenInKey rest p) fun _ => True := by
  unfold nextAfterWhitespace
  refine Meets.bind (meets_next_inKey h hg) ?_
  intro r g' hr
  refine Meets.bind (meets_parseRounds_same g') ?_
  rintro n _ rfl
  exact meets_skipWhitespace_inKey h (n + 1) hr

-- The name of an include is found inside the key or not at all.
theorem meets_includeName_inKey (hg : InKey rest p g) :
    Meets Stands (includeName .CONF) g (fun _ => InKey rest p) fun _ => True := by
  have hstep {α : Type} {f : TokenWithComments → Parse α} {post : α → List Token × List Path → Prop}
      {g : List Token × List Path} (hg : InKey rest p g)
      (hf : ∀ r g', InKey rest p g' → Meets Stands (f r) g' post fun _ => True)
      (hequals : ∀ r g', r.token = .equals → Meets Stands (f r) g' post fun _ => True) :
      Meets Stands (nextAfterWhitespace .CONF >>= f) g post fun _ => True := by
    refine Meets.bind (meets_nextAfterWhitespace_inKey h hg) ?_
    intro r g' hr
    rcases hr with hr | hg'
    · exact hequals r g' hr
    · exact hf r g' hg'
  unfold includeName
  refine hstep hg (fun r g hg => ?_) fun r g hr => ?_
  · split
    · rename_i kind htoken
      by_cases hkind : kind = ascii "file("
      · rw [if_neg (not_not.mpr hkind)]
        -- the argument of `file(`
        refine hstep hg (fun r g hg => ?_) fun r g hr => ?_
        · split
          · refine hstep hg (fun r g hg => ?_) fun r g hr => ?_
            · split
              · split
                · exact Meets.pure hg
                · exact Meets.throw trivial
              · exact Meets.throw trivial
            · simp only [hr]
              exact Meets.throw trivial
          · exact Meets.throw trivial
        · simp only [hr]
          exact Meets.throw trivial
      · rw [if_pos hkind]
        exact Meets.throw trivial
    · exact Meets.pure hg
    · exact Meets.throw trivial
  · simp only [hr]
    exact Meets.throw trivial

omit h in
theorem meets_addIncluded_same (fields : List (Bytes × Value Unit)) (values : Fields Unit) :
    Meets Stands (addIncluded fields values) g (fun _ g' => g' = g) fun _ => True := by
  induction fields generalizing values with
  | nil => exact Meets.pure rfl
  | cons field fields ih =>
      have hmake (v existing : Value Unit) :
          Meets Stands (ofMake (withFallback .plain v existing)) g (fun _ g' => g' = g)
            fun _ => True := by
        intro s hs
        unfold ofMake
        cases withFallback .plain v existing () with
        | ok merged _ => exact ⟨g, hs, rfl⟩
        | error e _ => trivial
      unfold addIncluded
      cases values.lookup field.1 with
      | none => exact ih _
      | some existing =>
          refine Meets.bind (hmake field.2 existing) ?_
          rintro merged _ rfl
          exact ih _

theorem meets_parseInclude_inKey (includer : Includer) (hg : InKey rest p g) :
    Meets Stands (parseInclude .CONF includer []) g (fun _ => InKey rest p) fun _ => True := by
  unfold parseInclude
  refine Meets.bind (meets_includeName_inKey h hg) ?_
  rintro ⟨name, file⟩ g' hg'
  have hobject : Meets Stands
      (ofExcept (if file then includer.includeFile name else includer.include_ name)) g'
      (fun _ g'' => g'' = g') fun _ => True := by
    intro s hs
    unfold ofExcept
    cases (if file then includer.includeFile name else includer.include_ name) with
    | ok obj => exact ⟨g', hs, rfl⟩
    | error e => trivial
  refine Meets.bind hobject ?_
  rintro obj g₁ rfl
  have hget : Meets Stands (get : Parse ParseContext) g₁ (fun _ g' => g' = g₁) fun _ => True :=
    fun s hs => ⟨g₁, hs, rfl⟩
  refine Meets.bind hget ?_
  rintro s g₂ rfl
  have hadd (obj : Value Unit) : Meets Stands (addIncludedObject [] obj) g₂
      (fun _ => InKey rest p) fun _ => True := by
    cases obj with
    | simpleConfigObject id fields ignores =>
        refine Meets.imp (meets_addIncluded_same fields []) ?_
        rintro values _ rfl
        exact hg'
    | _ => exact Meets.throw trivial
  dsimp only
  cases pathsToConcat s.pathStack with
  | none => exact hadd obj
  | some path => exact hadd (relativized path obj)

-- What is left of the key, or the separator, does not end a field.
theorem fails_closeField_inKey (hadOpenCurly : Bool) (hg : InKey rest p g) :
    Fails (closeField .CONF hadOpenCurly) g := by
  obtain ⟨key, hkey, rfl⟩ := hg
  obtain ⟨t, more, hsplit, hplain⟩ : ∃ t more, key ++ .equals :: rest = t :: more ∧
      t ≠ .newline ∧ t ≠ .comma ∧ t ≠ .closeCurly ∧ t ≠ .end_ ∧ t.isProblem = false := by
    cases key with
    | nil => exact ⟨.equals, rest, rfl, nofun, nofun, nofun, nofun, rfl⟩
    | cons t key =>
        have ht := hkey t (List.mem_cons_self ..)
        refine ⟨t, key ++ .equals :: rest, rfl, ?_, ?_, ?_, ?_, Token.isProblem_of_isKey ht⟩ <;>
          (rintro rfl; exact absurd ht nofun)
  obtain ⟨hne, hcomma, hclose, hend, hproblem⟩ := hplain
  have hregular : Regular (key ++ .equals :: rest) :=
    h.append_left fun t ht => Token.isRegular_of_isKey (hkey t ht)
  rw [hsplit] at hregular ⊢
  unfold closeField
  refine Meets.after (returns_separator_other hne hcomma hproblem hregular) ?_
  rintro _ _ ⟨rfl, rfl⟩
  refine Meets.after (returns_next hregular hne hproblem) ?_
  rintro r _ ⟨rfl, rfl⟩
  cases hadOpenCurly <;> cases htoken : r.token with
  | closeCurly => exact absurd htoken hclose
  | end_ => exact absurd htoken hend
  | _ => exact Fails.throw

-- An include is no field.
theorem fails_includedField {includer : Includer} {read : TokenWithComments → Parse (Value Unit)}
    (hadOpenCurly : Bool) (hg : InKey rest p g) (n : ℕ) :
    Fails (do
      let values ← parseInclude .CONF includer []
      if ← closeField .CONF hadOpenCurly then
        parseObjectLoop .CONF includer read hadOpenCurly n true values
      else return values) g := by
  refine Meets.bind (meets_parseInclude_inKey h includer hg) ?_
  intro values g' hg'
  exact Fails.bind (fails_closeField_inKey h hadOpenCurly hg')

end

theorem SpelledPath.exists_tokens (key : SpelledPath) :
    ∃ x tokens, key.tokens = x :: tokens ∧ x.isKey = true ∧
      key.startsInclude = isIncludeKeyword x := by
  cases htokens : key.tokens with
  | nil =>
      have hspells := key.spells
      rw [htokens] at hspells
      exact absurd hspells nofun
  | cons x tokens =>
      refine ⟨x, tokens, rfl, key.isKey x (by rw [htokens]; exact List.mem_cons_self ..), ?_⟩
      rw [SpelledPath.startsInclude, htokens]
      rfl

def SpelledPath.spelledKey (key : SpelledPath) (h : key.startsInclude = false) : SpelledKey where
  tokens := key.tokens
  path := key.path
  spells := key.spells
  isKey := key.isKey
  notInclude t ht := by
    rw [Option.mem_def] at ht
    rwa [SpelledPath.startsInclude, ht] at h

section

variable (includer : Includer) (key : SpelledPath) (literal : Literal) {fieldEnd : FieldEnd}
  {closer : Token} {rest tokens : List Token} {depth n : ℕ} (p : List Path)

-- The value ends with the first token behind it.
theorem FieldEnd.exists_endsValue (fieldEnd : FieldEnd) (hcloser : endsValue closer = true)
    (rest : List Token) : ∃ stop more, fieldEnd.tokens ++ closer :: rest = stop :: more ∧
      endsValue stop = true := by
  cases fieldEnd with
  | lines n =>
      cases n with
      | zero => exact ⟨closer, rest, rfl, hcloser⟩
      | succ n => exact ⟨.newline, _, rfl, rfl⟩
  | comma before after =>
      cases before with
      | zero => exact ⟨.comma, _, rfl, rfl⟩
      | succ before => exact ⟨.newline, _, rfl, rfl⟩

theorem soleField_eq {x : Token} {closing : List Token} (htokens : key.tokens = x :: tokens) :
    soleField key literal fieldEnd closing =
      x :: (tokens ++ .equals :: literal.toEnd fieldEnd closing) := by
  rw [soleField, htokens, List.cons_append]

theorem Regular.behind_key {closing : List Token}
    (h : Regular (soleField key literal fieldEnd closing)) :
    Regular (.equals :: literal.toEnd fieldEnd closing) :=
  h.suffix ⟨key.tokens, rfl⟩ (List.cons_ne_nil _ _)

theorem Regular.behind_field (h : Regular (soleField key literal fieldEnd (closer :: rest))) :
    Regular (closer :: rest) :=
  (h.behind_key key literal).suffix
    ⟨.equals :: (literal.tokens ++ fieldEnd.tokens), by simp [Literal.toEnd]⟩ (List.cons_ne_nil _ _)

theorem returns_fieldValue (h : Regular (soleField key literal fieldEnd (closer :: rest)))
    (hends : endsValue closer = true) (hdepth : literal.tokens.length < depth)
    (r : TokenWithComments) (hr : r.token = .equals) :
    Succeeds Stands (parseFieldValue .CONF (parseValue .CONF includer depth) r)
      (literal.toEnd fieldEnd (closer :: rest), p)
      (fun w g => w = literal.value ∧ g = (fieldEnd.tokens ++ closer :: rest, p)) := by
  obtain ⟨stop, more, hsplit, hstop⟩ := fieldEnd.exists_endsValue hends rest
  have hbehind := h.behind_key key literal
  unfold Literal.toEnd at hbehind ⊢
  rw [hsplit] at hbehind ⊢
  have hliteral : Regular (literal.tokens ++ stop :: more) := hbehind.of_cons (by simp)
  unfold parseFieldValue
  rw [hr]
  exact literal.reads includer depth stop more p hdepth hstop hliteral

-- The field, from the token its key starts with.
theorem parseField_sole (h : Regular (soleField key literal fieldEnd (closer :: rest)))
    (hends : endsValue closer = true) (hdepth : literal.tokens.length < depth)
    (hinclude : key.startsInclude = false) {r : TokenWithComments}
    (htokens : key.tokens = r.token :: tokens) :
    (key.path.isStorable →
      Succeeds Stands (parseField .CONF (parseValue .CONF includer depth) [] r)
        (tokens ++ .equals :: literal.toEnd fieldEnd (closer :: rest), p)
        (fun vs g => .simpleConfigObject () vs false = chain (storedKeys key.path) literal.value ∧
          g = (fieldEnd.tokens ++ closer :: rest, p))) ∧
    (¬key.path.isStorable →
      Fails (parseField .CONF (parseValue .CONF includer depth) [] r)
        (tokens ++ .equals :: literal.toEnd fieldEnd (closer :: rest), p)) := by
  have htaken : r.token :: (tokens ++ .equals :: literal.toEnd fieldEnd (closer :: rest)) =
      (key.spelledKey hinclude).tokens ++ .equals :: literal.toEnd fieldEnd (closer :: rest) := by
    show _ = key.tokens ++ _
    rw [htokens, List.cons_append]
  have hbehind := h.behind_key key literal
  exact parseField_key (key.spelledKey hinclude) rfl rfl (by simp) hbehind htaken
    (returns_fieldValue includer key literal (key.path :: p) h hends hdepth)

-- One round of the loop reads the field, and what is left has no other.
theorem parseObjectLoop_field {hadOpenCurly : Bool}
    (hcloser : closer = if hadOpenCurly then .closeCurly else .end_) (front : ℕ)
    (h : Regular (soleField key literal fieldEnd (closer :: rest)))
    (hdepth : literal.tokens.length < depth) (hn : 0 < n) :
    (key.startsInclude = false ∧ key.path.isStorable →
      Succeeds Stands (parseObjectLoop .CONF includer (parseValue .CONF includer depth) hadOpenCurly
        (n + 1) false [])
        (List.replicate front .newline ++ soleField key literal fieldEnd (closer :: rest), p)
        (fun vs g => .simpleConfigObject () vs false = chain (storedKeys key.path) literal.value ∧
          g = (if hadOpenCurly then rest else closer :: rest, p))) ∧
    (¬(key.startsInclude = false ∧ key.path.isStorable) →
      Fails (parseObjectLoop .CONF includer (parseValue .CONF includer depth) hadOpenCurly (n + 1)
        false [])
        (List.replicate front .newline ++ soleField key literal fieldEnd (closer :: rest), p)) := by
  obtain ⟨x, tokens, htokens, hx, hstarts⟩ := key.exists_tokens
  obtain ⟨n, rfl⟩ : ∃ m, n = m + 1 := ⟨n - 1, by omega⟩
  have hends : endsValue closer = true := by
    rw [hcloser]
    cases hadOpenCurly with
    | true => rfl
    | false => rfl
  have hbehind := h.behind_key key literal
  have hclosing := h.behind_field key literal
  have hsplit : soleField key literal fieldEnd (closer :: rest) = _ :=
    soleField_eq key literal htokens
  have hfirst := h
  rw [hsplit] at hfirst ⊢
  constructor
  · intro ⟨hinclude, hstorable⟩
    apply returns_round front (n + 1) false hfirst hx
    intro r hr
    rw [readField, hr, ← hstarts, hinclude]
    rw [← hr] at htokens
    have hfield := (parseField_sole includer key literal p h hends hdepth hinclude htokens).1
      hstorable
    apply Succeeds.bind hfield
    rintro vs _ ⟨hvs, rfl⟩
    apply Succeeds.imp (returns_lastField fieldEnd hcloser hclosing vs n)
    rintro _ _ ⟨rfl, rfl⟩
    exact ⟨hvs, rfl⟩
  · intro hnot
    apply fails_round front (n + 1) false hfirst hx
    intro r hr
    rw [readField, hr, ← hstarts]
    cases hinclude : key.startsInclude with
    | true =>
        have hinside : InKey (literal.toEnd fieldEnd (closer :: rest)) p
            (tokens ++ .equals :: literal.toEnd fieldEnd (closer :: rest), p) :=
          ⟨tokens, fun t ht => key.isKey t (by rw [htokens]; exact List.mem_cons_of_mem _ ht), rfl⟩
        exact fails_includedField hbehind hadOpenCurly hinside (n + 1)
    | false =>
        rw [← hr] at htokens
        have hfails := (parseField_sole includer key literal p h hends hdepth hinclude htokens).2
          fun hstorable => hnot ⟨hinclude, hstorable⟩
        exact Fails.bind hfails

-- The object by its fields, with braces and without.
theorem parseObject_field {hadOpenCurly : Bool}
    (hcloser : closer = if hadOpenCurly then .closeCurly else .end_) (front : ℕ)
    (h : Regular (soleField key literal fieldEnd (closer :: rest)))
    (hdepth : literal.tokens.length < depth) :
    (key.startsInclude = false ∧ key.path.isStorable →
      Succeeds Stands (parseObject .CONF includer (parseValue .CONF includer depth) hadOpenCurly)
        (List.replicate front .newline ++ soleField key literal fieldEnd (closer :: rest), p)
        (fun v g => v = chain (storedKeys key.path) literal.value ∧
          g = (if hadOpenCurly then rest else closer :: rest, p))) ∧
    (¬(key.startsInclude = false ∧ key.path.isStorable) →
      Fails (parseObject .CONF includer (parseValue .CONF includer depth) hadOpenCurly)
        (List.replicate front .newline ++ soleField key literal fieldEnd (closer :: rest), p)) := by
  have hrounds {n : ℕ} (hn : (List.replicate front Token.newline ++
      soleField key literal fieldEnd (closer :: rest)).length ≤ n) : 0 < n := by
    simp only [soleField, List.length_append, List.length_cons] at hn
    omega
  have hloop (n : ℕ) (hn : 0 < n) :=
    parseObjectLoop_field includer key literal p hcloser front h hdepth hn
  constructor
  · intro hgood
    exact returns_parseObject fun n hn => (hloop n (hrounds hn)).1 hgood
  · intro hbad
    exact fails_parseObject fun n hn => (hloop n (hrounds hn)).2 hbad

-- A document without braces starts with the key.
theorem parseDocument_bare (before : ℕ) (h : Regular (soleField key literal fieldEnd [.end_])) :
    (key.startsInclude = false ∧ key.path.isStorable →
      Succeeds Stands (parseDocument .CONF includer)
        (fieldDocument key literal (.bare before fieldEnd), p)
        (fun v _ => v = chain (storedKeys key.path) literal.value)) ∧
    (¬(key.startsInclude = false ∧ key.path.isStorable) →
      Fails (parseDocument .CONF includer)
        (fieldDocument key literal (.bare before fieldEnd), p)) := by
  obtain ⟨x, tokens, htokens, hx, -⟩ := key.exists_tokens
  have hend : Token.end_ = if false then .closeCurly else .end_ := rfl
  have hobject (depth : ℕ) (hdepth : literal.tokens.length < depth) :=
    parseObject_field includer key literal p hend 0 h hdepth
  have hsplit : soleField key literal fieldEnd [.end_] = _ := soleField_eq key literal htokens
  have hshort {depth : ℕ}
      (hd : (tokens ++ .equals :: literal.toEnd fieldEnd [.end_]).length < depth) :
      literal.tokens.length < depth := by
    simp only [Literal.toEnd, List.length_append, List.length_cons] at hd
    omega
  have hne := ne_newline_of_isKey hx
  have hproblem := Token.isProblem_of_isKey hx
  rw [fieldDocument]
  rw [hsplit] at h hobject ⊢
  constructor
  · intro hgood
    exact returns_parseDocument before 0 h hne hproblem fun depth r hd hr =>
      returns_parseRoot hx hr ((hobject depth (hshort hd)).1 hgood)
  · intro hbad
    exact fails_parseDocument before h hne hproblem fun depth r hd hr =>
      fails_parseRoot hx hr ((hobject depth (hshort hd)).2 hbad)

theorem parseDocument_braced (front before back : ℕ)
    (h : Regular (soleField key literal fieldEnd
      (.closeCurly :: (List.replicate back .newline ++ [.end_])))) :
    (key.startsInclude = false ∧ key.path.isStorable →
      Succeeds Stands (parseDocument .CONF includer)
        (fieldDocument key literal (.braced front before fieldEnd back), p)
        (fun v _ => v = chain (storedKeys key.path) literal.value)) ∧
    (¬(key.startsInclude = false ∧ key.path.isStorable) →
      Fails (parseDocument .CONF includer)
        (fieldDocument key literal (.braced front before fieldEnd back), p)) := by
  have hopen : Regular (.openCurly :: (List.replicate before .newline ++
      soleField key literal fieldEnd (.closeCurly :: (List.replicate back .newline ++ [.end_])))) :=
    .cons rfl (h.lines before)
  have hroot (depth : ℕ) (r : TokenWithComments) (hr : r.token = .openCurly) :
      parseRoot includer (depth + 1) r =
        parseObject .CONF includer (parseValue .CONF includer depth) true := by
    rw [parseRoot, hr, parseValue, hr]
  have hclose : Token.closeCurly = if true then .closeCurly else .end_ := rfl
  have hobject (depth : ℕ) (hdepth : literal.tokens.length < depth) :=
    parseObject_field includer key literal p hclose before h hdepth
  have hdeep {depth : ℕ} (hd : (List.replicate before Token.newline ++
      soleField key literal fieldEnd
        (.closeCurly :: (List.replicate back .newline ++ [.end_]))).length < depth) :
      ∃ d, depth = d + 1 ∧ literal.tokens.length < d := by
    simp only [soleField, Literal.toEnd, List.length_append, List.length_cons] at hd
    exact ⟨depth - 1, by omega, by omega⟩
  constructor
  · intro hgood
    refine returns_parseDocument front back hopen (by simp) rfl fun depth r hd hr => ?_
    obtain ⟨depth, rfl, hdepth⟩ := hdeep hd
    rw [hroot depth r hr]
    exact (hobject depth hdepth).1 hgood
  · intro hbad
    refine fails_parseDocument front hopen (by simp) rfl fun depth r hd hr => ?_
    obtain ⟨depth, rfl, hdepth⟩ := hdeep hd
    rw [hroot depth r hr]
    exact (hobject depth hdepth).2 hbad

theorem parseDocument_field (layout : Layout) (h : Regular (fieldDocument key literal layout)) :
    (key.startsInclude = false ∧ key.path.isStorable →
      Succeeds Stands (parseDocument .CONF includer) (fieldDocument key literal layout, p)
        (fun v _ => v = chain (storedKeys key.path) literal.value)) ∧
    (¬(key.startsInclude = false ∧ key.path.isStorable) →
      Fails (parseDocument .CONF includer) (fieldDocument key literal layout, p)) := by
  have hne (fieldEnd : FieldEnd) (closing : List Token) :
      soleField key literal fieldEnd closing ≠ [] := by
    simp [soleField]
  cases layout with
  | bare before fieldEnd =>
      exact parseDocument_bare includer key literal p before
        (h.suffix ⟨.start :: List.replicate before .newline, rfl⟩ (hne _ _))
  | braced front before fieldEnd back =>
      have hinner := h.suffix ⟨.start :: List.replicate front .newline, rfl⟩ (List.cons_ne_nil _ _)
      exact parseDocument_braced includer key literal p front before back
        (hinner.suffix ⟨.openCurly :: List.replicate before .newline, rfl⟩ (hne _ _))

end

end AsrServiceProxy.Config

import AsrServiceProxy.Config.Parser.Separators.Theorems

-- What the parts of the parser return where the tokens that are left are known.
namespace AsrServiceProxy.Config

open CMemory Simulation

section

variable {l rest : List Token} {t : Token} {p : List Path}

theorem Token.isProblem_of_isKey (h : t.isKey = true) : t.isProblem = false := by
  cases t <;> first | rfl | exact absurd h nofun

theorem Token.isRegular_of_isKey (h : t.isKey = true) : t.isRegular = true := by
  cases t <;> first | rfl | exact absurd h nofun

theorem Regular.append_left {front : List Token} (hfront : ∀ t ∈ front, t.isRegular = true)
    (h : Regular l) : Regular (front ++ l) := by
  induction front with
  | nil => exact h
  | cons t front ih =>
      have ⟨ht, hfront⟩ := List.forall_mem_cons.mp hfront
      exact .cons ht (ih hfront)

theorem Regular.lines (h : Regular l) (n : ℕ) : Regular (List.replicate n .newline ++ l) := by
  apply h.append_left
  intro t ht
  rw [List.eq_of_mem_replicate ht]
  rfl

theorem returns_nextToken (h : Regular (t :: l)) (ht : t.isProblem = false) :
    Succeeds Stands (nextToken .CONF) (t :: l, p) (fun r g => r.token = t ∧ g = (l, p)) := by
  intro s hs
  obtain ⟨r, s', hrun, hr, hs'⟩ := (obtains_nextToken h hs).ok ht
  exact ⟨r, s', (l, p), hrun, hs', hr, rfl⟩

-- The newlines before it are skipped.
theorem returns_nextAfterLines (n : ℕ) (h : Regular (t :: l)) (hne : t ≠ .newline)
    (ht : t.isProblem = false) :
    Succeeds Stands (nextTokenIgnoringNewline .CONF) (List.replicate n .newline ++ t :: l, p)
      (fun r g => r.token = t ∧ g = (l, p)) := by
  intro s hs
  obtain ⟨r, s', hrun, hr, hs'⟩ :=
    (obtains_nextTokenIgnoringNewline (h.lines n) ⟨⟨n, rfl⟩, hne⟩ hs).ok ht
  exact ⟨r, s', (l, p), hrun, hs', hr, rfl⟩

theorem returns_next (h : Regular (t :: l)) (hne : t ≠ .newline) (ht : t.isProblem = false) :
    Succeeds Stands (nextTokenIgnoringNewline .CONF) (t :: l, p)
      (fun r g => r.token = t ∧ g = (l, p)) :=
  returns_nextAfterLines 0 h hne ht

theorem returns_putBackToken (r : TokenWithComments) (l : List Token) (p : List Path) :
    Succeeds Stands (putBackToken r) (l, p) (fun _ g => g = (r.token :: l, p)) := by
  intro s hs
  exact ⟨(), _, (r.token :: l, p), rfl, stands_putBack hs, rfl⟩

theorem returns_parseRounds (l : List Token) (p : List Path) :
    Succeeds Stands parseRounds (l, p) (fun n g => l.length < n ∧ g = (l, p)) := by
  intro s hs
  exact ⟨_, s, (l, p), rfl, hs, length_lt_rounds hs, rfl⟩

theorem returns_ofExcept {α : Type} {m : Except ConfigException α} {a : α} (h : m = .ok a)
    (g : List Token × List Path) : Succeeds Stands (ofExcept m) g (fun b g' => b = a ∧ g' = g) := by
  intro s hs
  exact ⟨a, s, g, by rw [h]; rfl, hs, rfl, rfl⟩

theorem returns_pushPath (path : Path) (l : List Token) (p : List Path) :
    Succeeds Stands (pushPath path) (l, p) (fun _ g => g = (l, path :: p)) := by
  intro s hs
  exact ⟨(), _, (l, path :: p), rfl, ⟨hs.pending, congrArg (path :: ·) hs.paths⟩, rfl⟩

theorem returns_popPath (path : Path) (l : List Token) (p : List Path) :
    Succeeds Stands popPath (l, path :: p) (fun _ g => g = (l, p)) := by
  intro s hs
  exact ⟨(), _, (l, p), rfl, ⟨hs.pending, congrArg List.tail hs.paths⟩, rfl⟩

-- Newlines and then a comma, which is consumed.
theorem returns_separator_comma (n : ℕ) (h : Regular (.comma :: l)) :
    Succeeds Stands (checkElementSeparator .CONF) (List.replicate n .newline ++ .comma :: l, p)
      (fun saw g => saw = true ∧ g = (l, p)) := by
  intro s hs
  obtain ⟨saw, s', hrun, hseparating⟩ :=
    (obtains_checkElementSeparator (h.lines n) ⟨⟨n, rfl⟩, nofun⟩ hs).ok rfl
  obtain ⟨hsaw, hs'⟩ := hseparating.comma
  exact ⟨saw, s', (l, p), hrun, hs', hsaw, rfl⟩

-- Newlines and then another token, which is left.
theorem returns_separator_lines (n : ℕ) (hne : t ≠ .newline) (hcomma : t ≠ .comma)
    (hproblem : t.isProblem = false) (h : Regular (t :: l)) :
    Succeeds Stands (checkElementSeparator .CONF) (List.replicate n .newline ++ t :: l, p)
      (fun saw g => saw = decide (0 < n) ∧ g = (t :: l, p)) := by
  intro s hs
  obtain ⟨saw, s', hrun, hseparating⟩ :=
    (obtains_checkElementSeparator (h.lines n) ⟨⟨n, rfl⟩, hne⟩ hs).ok hproblem
  obtain ⟨hsaw, hs'⟩ := hseparating.other hcomma
  refine ⟨saw, s', (t :: l, p), hrun, hs', ?_, rfl⟩
  rw [hsaw, decide_eq_decide, List.length_append, List.length_replicate, List.length_cons]
  omega

theorem returns_separator_other (hne : t ≠ .newline) (hcomma : t ≠ .comma)
    (hproblem : t.isProblem = false) (h : Regular (t :: l)) :
    Succeeds Stands (checkElementSeparator .CONF) (t :: l, p)
      (fun saw g => saw = false ∧ g = (t :: l, p)) :=
  returns_separator_lines 0 hne hcomma hproblem h

theorem closer_plain (hadOpenCurly : Bool) {closer : Token}
    (hcloser : closer = if hadOpenCurly then .closeCurly else .end_) :
    closer ≠ .newline ∧ closer ≠ .comma ∧ closer.isProblem = false := by
  rw [hcloser]
  cases hadOpenCurly with
  | true => exact ⟨nofun, nofun, rfl⟩
  | false => exact ⟨nofun, nofun, rfl⟩

-- After a field: a brace that closes the object, or the end.
theorem returns_closeField (hadOpenCurly : Bool) {closer : Token}
    (hcloser : closer = if hadOpenCurly then .closeCurly else .end_) (h : Regular (closer :: rest)) :
    Succeeds Stands (closeField .CONF hadOpenCurly) (closer :: rest, p)
      (fun more g => more = false ∧ g = (if hadOpenCurly then rest else closer :: rest, p)) := by
  obtain ⟨hne, hcomma, hproblem⟩ := closer_plain hadOpenCurly hcloser
  unfold closeField
  refine Succeeds.bind (returns_separator_other hne hcomma hproblem h) ?_
  rintro _ _ ⟨rfl, rfl⟩
  refine Succeeds.bind (returns_next h hne hproblem) ?_
  rintro r _ ⟨hr, rfl⟩
  cases hadOpenCurly with
  | true =>
      rw [hr, hcloser]
      exact Succeeds.pure ⟨rfl, rfl⟩
  | false =>
      have hend : r.token = .end_ := hr.trans hcloser
      simp only [hend]
      refine Succeeds.bind (returns_putBackToken r rest p) ?_
      rintro _ _ rfl
      rw [hr]
      exact Succeeds.pure ⟨rfl, rfl⟩

-- A comma or a newline after a field: another round follows.
theorem returns_closeField_separator (hadOpenCurly : Bool) {l' : List Token}
    (h : Succeeds Stands (checkElementSeparator .CONF) (l, p)
      (fun saw g => saw = true ∧ g = (l', p))) :
    Succeeds Stands (closeField .CONF hadOpenCurly) (l, p)
      (fun more g => more = true ∧ g = (l', p)) := by
  unfold closeField
  refine Succeeds.bind h ?_
  rintro _ _ ⟨rfl, rfl⟩
  exact Succeeds.pure ⟨rfl, rfl⟩

-- The end of a document, with empty lines before it.
theorem returns_documentEnd (v : Value Unit) (n : ℕ) :
    Succeeds Stands (finishDocument .CONF v)
      (List.replicate n .newline ++ [.end_], p) (fun w _ => w = v) := by
  refine Succeeds.bind (returns_nextAfterLines n .last nofun rfl) ?_
  rintro r _ ⟨hr, rfl⟩
  rw [hr]
  exact Succeeds.pure rfl

-- One round of the loop over the fields, from the token it starts with.
def readField (includer : Includer) (read : TokenWithComments → Parse (Value Unit))
    (values : Fields Unit) (t : TokenWithComments) : Parse (Fields Unit) :=
  if isIncludeKeyword t.token then parseInclude .CONF includer values
  else parseField .CONF read values t

section

variable {includer : Includer} {read : TokenWithComments → Parse (Value Unit)} {hadOpenCurly : Bool}
  {values : Fields Unit}

variable (includer read) in
-- A round that starts with a key or the word `include` is one of these.
theorem exists_round (n : ℕ) (afterComma : Bool) :
    ∃ round : TokenWithComments → Parse (Fields Unit),
      parseObjectLoop .CONF includer read hadOpenCurly (n + 1) afterComma values =
        nextTokenIgnoringNewline .CONF >>= round ∧
      ∀ r, r.token.isKey = true → round r = (do
        let values ← readField includer read values r
        if ← closeField .CONF hadOpenCurly then
          parseObjectLoop .CONF includer read hadOpenCurly n true values
        else return values) := by
  refine ⟨_, rfl, fun r hr => ?_⟩
  unfold readField
  cases htoken : r.token with
  | value v => rfl
  | unquotedText text =>
      cases isIncludeKeyword (.unquotedText text) with
      | true => rfl
      | false => rfl
  | _ =>
      rw [htoken] at hr
      cases hr

theorem ne_newline_of_isKey (ht : t.isKey = true) : t ≠ .newline := by
  intro hnewline
  rw [hnewline] at ht
  cases ht

theorem returns_round (front n : ℕ) (afterComma : Bool) (h : Regular (t :: l))
    (ht : t.isKey = true) {post : Fields Unit → List Token × List Path → Prop}
    (hround : ∀ r : TokenWithComments, r.token = t → Succeeds Stands (do
      let values ← readField includer read values r
      if ← closeField .CONF hadOpenCurly then
        parseObjectLoop .CONF includer read hadOpenCurly n true values
      else return values) (l, p) post) :
    Succeeds Stands (parseObjectLoop .CONF includer read hadOpenCurly (n + 1) afterComma values)
      (List.replicate front .newline ++ t :: l, p) post := by
  obtain ⟨round, hloop, heq⟩ := exists_round includer read n afterComma
  rw [hloop]
  refine Succeeds.bind (returns_nextAfterLines front h (ne_newline_of_isKey ht)
    (Token.isProblem_of_isKey ht)) ?_
  rintro r _ ⟨hr, rfl⟩
  rw [heq r (by rw [hr, ht])]
  exact hround r hr

theorem fails_round (front n : ℕ) (afterComma : Bool) (h : Regular (t :: l)) (ht : t.isKey = true)
    (hround : ∀ r : TokenWithComments, r.token = t → Fails (do
      let values ← readField includer read values r
      if ← closeField .CONF hadOpenCurly then
        parseObjectLoop .CONF includer read hadOpenCurly n true values
      else return values) (l, p)) :
    Fails (parseObjectLoop .CONF includer read hadOpenCurly (n + 1) afterComma values)
      (List.replicate front .newline ++ t :: l, p) := by
  obtain ⟨round, hloop, heq⟩ := exists_round includer read n afterComma
  rw [hloop]
  refine Meets.after (returns_nextAfterLines front h (ne_newline_of_isKey ht)
    (Token.isProblem_of_isKey ht)) ?_
  rintro r _ ⟨hr, rfl⟩
  rw [heq r (by rw [hr, ht])]
  exact hround r hr

-- What closes the object, found where a field could start.
theorem returns_noField (front n : ℕ) (afterComma : Bool) {closer : Token}
    (hcloser : closer = if hadOpenCurly then .closeCurly else .end_) (h : Regular (closer :: rest)) :
    Succeeds Stands (parseObjectLoop .CONF includer read hadOpenCurly (n + 1) afterComma values)
      (List.replicate front .newline ++ closer :: rest, p)
      (fun vs g => vs = values ∧ g = (if hadOpenCurly then rest else closer :: rest, p)) := by
  obtain ⟨hne, -, hproblem⟩ := closer_plain hadOpenCurly hcloser
  unfold parseObjectLoop
  refine Succeeds.bind (returns_nextAfterLines front h hne hproblem) ?_
  rintro r _ ⟨hr, rfl⟩
  cases hadOpenCurly with
  | true =>
      rw [hr, hcloser]
      exact Succeeds.pure ⟨rfl, rfl⟩
  | false =>
      have hend : r.token = .end_ := hr.trans hcloser
      simp only [hend]
      refine Succeeds.bind (returns_putBackToken r rest p) ?_
      rintro _ _ rfl
      rw [hr]
      exact Succeeds.pure ⟨rfl, rfl⟩

end

-- What the loop over the fields decides about an object.
theorem returns_parseObject {includer : Includer} {read : TokenWithComments → Parse (Value Unit)}
    {hadOpenCurly : Bool} {g : List Token × List Path} {root : Value Unit}
    (hloop : ∀ n, l.length ≤ n →
      Succeeds Stands (parseObjectLoop .CONF includer read hadOpenCurly (n + 1) false []) (l, p)
      (fun vs g' => .simpleConfigObject () vs false = root ∧ g' = g)) :
    Succeeds Stands (parseObject .CONF includer read hadOpenCurly) (l, p)
      (fun v g' => v = root ∧ g' = g) := by
  unfold parseObject
  refine Succeeds.bind (returns_parseRounds l p) ?_
  rintro n _ ⟨hn, rfl⟩
  obtain ⟨n, rfl⟩ : ∃ m, n = m + 1 := ⟨n - 1, by omega⟩
  refine Succeeds.bind (hloop n (by omega)) ?_
  rintro vs _ ⟨hvs, rfl⟩
  exact Succeeds.pure ⟨hvs, rfl⟩

theorem fails_parseObject {includer : Includer} {read : TokenWithComments → Parse (Value Unit)}
    {hadOpenCurly : Bool}
    (hloop : ∀ n, l.length ≤ n →
      Fails (parseObjectLoop .CONF includer read hadOpenCurly (n + 1) false []) (l, p)) :
    Fails (parseObject .CONF includer read hadOpenCurly) (l, p) := by
  unfold parseObject
  refine Meets.after (returns_parseRounds l p) ?_
  rintro n _ ⟨hn, rfl⟩
  obtain ⟨n, rfl⟩ : ∃ m, n = m + 1 := ⟨n - 1, by omega⟩
  exact Fails.bind (hloop n (by omega))

-- The root of a document by its first token.
def parseRoot (includer : Includer) (depth : ℕ) (t : TokenWithComments) : Parse (Value Unit) :=
  match t.token with
  | .openCurly | .openSquare => parseValue .CONF includer depth t
  | _ => do
      putBackToken t
      parseObject .CONF includer (parseValue .CONF includer depth) false

-- A root that starts with a key is an object without braces.
theorem returns_parseRoot {includer : Includer} {depth : ℕ} {r : TokenWithComments}
    (ht : t.isKey = true) (hr : r.token = t) {post : Value Unit → List Token × List Path → Prop}
    (hobject : Succeeds Stands (parseObject .CONF includer (parseValue .CONF includer depth) false)
      (t :: l, p) post) :
    Succeeds Stands (parseRoot includer depth r) (l, p) post := by
  have hback := returns_putBackToken r l p
  rw [hr] at hback
  have hroot : Succeeds Stands (do
      putBackToken r
      parseObject .CONF includer (parseValue .CONF includer depth) false) (l, p) post := by
    refine Succeeds.bind hback ?_
    rintro _ _ rfl
    exact hobject
  unfold parseRoot
  rw [hr]
  cases t with
  | value v => exact hroot
  | unquotedText text => exact hroot
  | _ => cases ht

theorem fails_parseRoot {includer : Includer} {depth : ℕ} {r : TokenWithComments}
    (ht : t.isKey = true) (hr : r.token = t)
    (hobject : Fails (parseObject .CONF includer (parseValue .CONF includer depth) false)
      (t :: l, p)) :
    Fails (parseRoot includer depth r) (l, p) := by
  have hback := returns_putBackToken r l p
  rw [hr] at hback
  have hroot : Fails (do
      putBackToken r
      parseObject .CONF includer (parseValue .CONF includer depth) false) (l, p) := by
    refine Meets.after hback ?_
    rintro _ _ rfl
    exact hobject
  unfold parseRoot
  rw [hr]
  cases t with
  | value v => exact hroot
  | unquotedText text => exact hroot
  | _ => cases ht

theorem returns_parseDocument {includer : Includer} {root : Value Unit} (front back : ℕ)
    (h : Regular (t :: l)) (hne : t ≠ .newline) (ht : t.isProblem = false)
    (hroot : ∀ depth r, l.length < depth → r.token = t →
      Succeeds Stands (parseRoot includer depth r) (l, p)
        (fun v g => v = root ∧ g = (List.replicate back .newline ++ [.end_], p))) :
    Succeeds Stands (parseDocument .CONF includer)
      (.start :: (List.replicate front .newline ++ t :: l), p) (fun v _ => v = root) := by
  unfold parseDocument
  refine Succeeds.bind (returns_parseRounds _ _) ?_
  rintro depth _ ⟨hdepth, rfl⟩
  simp only [List.length_cons, List.length_append] at hdepth
  refine Succeeds.bind (returns_next (.cons rfl (h.lines front)) nofun rfl) ?_
  rintro r _ ⟨hr, rfl⟩
  rw [hr]
  refine Succeeds.bind (returns_nextAfterLines front h hne ht) ?_
  rintro r' _ ⟨hr', rfl⟩
  have hdocument : Succeeds Stands (parseRoot includer depth r' >>= finishDocument .CONF)
      (l, p) (fun v _ => v = root) := by
    refine Succeeds.bind (hroot depth r' (by omega) hr') ?_
    rintro v _ ⟨rfl, rfl⟩
    exact returns_documentEnd v back
  unfold parseRoot at hdocument
  rw [hr'] at hdocument ⊢
  cases t with
  | openCurly => exact hdocument
  | openSquare => exact hdocument
  | _ =>
      rw [bind_assoc] at hdocument
      exact hdocument

theorem fails_parseDocument {includer : Includer} (front : ℕ) (h : Regular (t :: l))
    (hne : t ≠ .newline) (ht : t.isProblem = false)
    (hroot : ∀ depth r, l.length < depth → r.token = t → Fails (parseRoot includer depth r) (l, p)) :
    Fails (parseDocument .CONF includer)
      (.start :: (List.replicate front .newline ++ t :: l), p) := by
  unfold parseDocument
  refine Meets.after (returns_parseRounds _ _) ?_
  rintro depth _ ⟨hdepth, rfl⟩
  simp only [List.length_cons, List.length_append] at hdepth
  refine Meets.after (returns_next (.cons rfl (h.lines front)) nofun rfl) ?_
  rintro r _ ⟨hr, rfl⟩
  rw [hr]
  refine Meets.after (returns_nextAfterLines front h hne ht) ?_
  rintro r' _ ⟨hr', rfl⟩
  have hfails := hroot depth r' (by omega) hr'
  unfold parseRoot at hfails
  rw [hr'] at hfails ⊢
  cases t with
  | openCurly => exact Fails.bind hfails
  | openSquare => exact Fails.bind hfails
  | _ =>
      have hdocument := Fails.bind (f := finishDocument .CONF) hfails
      rw [bind_assoc] at hdocument
      exact hdocument

-- A run that fails returns nothing.
theorem Fails.not_ok {α : Type} {m : Parse α} {g : List Token × List Path} {s : ParseContext}
    (h : Fails m g) (hs : Stands s g) (a : α) (s' : ParseContext) : m s ≠ .ok a s' := by
  intro hrun
  have hnever := h s hs
  rw [hrun] at hnever
  obtain ⟨_, _, hfalse⟩ := hnever
  exact hfalse

end

end AsrServiceProxy.Config

import AsrServiceProxy.Config.DottedKeys.Literals
import AsrServiceProxy.Config.Json.Theorems
import AsrServiceProxy.Config.Tokenizer.Flavors

-- CONF reads every document that JSON reads, as the same value: newlines between its
-- tokens separate nothing there.
namespace AsrServiceProxy.Config

open CMemory Simulation

section

variable {l rest : List Token} {t : Token} {p : List Path} {s : ParseContext}

theorem Token.isNewline_eq_false (h : t ≠ .newline) : t.isNewline = false := by
  cases t <;> first | rfl | exact absurd rfl h

theorem Token.isProblem_of_isForeign (h : t.isForeign = false) : t.isProblem = false := by
  cases t <;> first | rfl | cases h

theorem Regular.remaining (h : Regular (t :: l)) : l = [] ∨ Regular l := by
  cases h with
  | last => exact .inl rfl
  | cons _ h => exact .inr h

theorem withoutNewlines_reads (h : Reads l t rest) :
    withoutNewlines l = t :: withoutNewlines rest := by
  obtain ⟨⟨count, rfl⟩, hne⟩ := h
  induction count with
  | zero => exact withoutNewlines_cons (Token.isNewline_eq_false hne) rest
  | succ count ih => exact ih

-- The token that is shown first comes after the newlines.
theorem Shows.reads (hs : Shows s (t :: l)) (hl : Regular (t :: l)) :
    ∃ rest, Reads s.pending t rest ∧ withoutNewlines rest = l := by
  obtain ⟨t', rest, hreads⟩ := (hs.regular_pending hl).reads
  obtain ⟨rfl, hrest⟩ := List.cons.inj ((withoutNewlines_reads hreads).symm.trans hs.pending)
  exact ⟨rest, hreads, hrest⟩

theorem Shows.first (hs : Shows s (t :: l)) (hl : Regular (t :: l)) :
    ∃ first rest, s.pending = first :: rest ∧ (first = .newline ∨ first = t) := by
  obtain ⟨rest, ⟨⟨count, hsplit⟩, -⟩, -⟩ := hs.reads hl
  cases count with
  | zero => exact ⟨t, rest, hsplit, .inr rfl⟩
  | succ count => exact ⟨.newline, _, hsplit, .inl rfl⟩

theorem Stands.shows (hs : Stands s (l, p)) (hl : l = [] ∨ Regular l) :
    Shows s (withoutNewlines l) := by
  have hpending : s.pending = l := hs.pending
  exact ⟨by rw [hpending]; exact hl, by rw [hpending]⟩

-- A step that leaves the tokens where they are.
theorem Shows.unchanged {α : Type} {m : Parse α} {a : α} (hs : Shows s (t :: l))
    (hl : Regular (t :: l)) (h : Succeeds Stands m (s.pending, s.pathStack)
      (fun b g => b = a ∧ g = (s.pending, s.pathStack))) :
    ∃ s', m s = .ok a s' ∧ Shows s' (t :: l) := by
  obtain ⟨_, s', _, hrun, hs', rfl, rfl⟩ := h s ⟨rfl, rfl⟩
  have hshows := hs'.shows (.inr (hs.regular_pending hl))
  rw [hs.pending] at hshows
  exact ⟨s', hrun, hshows⟩

theorem lenient_next (hl : Regular (t :: l)) (ht : t.isForeign = false) :
    Meets Shows (nextTokenIgnoringNewline .CONF) (t :: l)
      (fun r l' => r.token = t ∧ l' = l) NoError := by
  intro s hs
  obtain ⟨rest, hreads, rfl⟩ := hs.reads hl
  have hpending := hs.regular_pending hl
  have hobtains := obtains_nextTokenIgnoringNewline (p := s.pathStack) hpending hreads ⟨rfl, rfl⟩
  obtain ⟨r, s', hrun, hr, hs'⟩ := hobtains.ok (Token.isProblem_of_isForeign ht)
  rw [hrun]
  exact ⟨_, hs'.shows (hreads.regular hpending).remaining, hr, rfl⟩

theorem lenient_comma (hl : Regular l) :
    Meets Shows (checkElementSeparator .CONF) (.comma :: l)
      (fun saw l' => saw = true ∧ l' = l) NoError := by
  intro s hs
  have hcomma : Regular (.comma :: l) := .cons rfl hl
  obtain ⟨rest, hreads, rfl⟩ := hs.reads hcomma
  have hpending := hs.regular_pending hcomma
  have hobtains := obtains_checkElementSeparator (p := s.pathStack) hpending hreads ⟨rfl, rfl⟩
  obtain ⟨saw, s', hrun, hseparating⟩ := hobtains.ok rfl
  obtain ⟨rfl, hs'⟩ := hseparating.comma
  rw [hrun]
  exact ⟨_, hs'.shows (hreads.regular hpending).remaining, rfl, rfl⟩

-- Another token is left, whether a newline comes before it or not.
theorem lenient_other (hl : Regular (t :: l)) (ht : t.isForeign = false) (hcomma : t ≠ .comma) :
    Meets Shows (checkElementSeparator .CONF) (t :: l) (fun _ l' => l' = t :: l) NoError := by
  intro s hs
  obtain ⟨rest, hreads, rfl⟩ := hs.reads hl
  have hpending := hs.regular_pending hl
  have hobtains := obtains_checkElementSeparator (p := s.pathStack) hpending hreads ⟨rfl, rfl⟩
  obtain ⟨saw, s', hrun, hseparating⟩ := hobtains.ok (Token.isProblem_of_isForeign ht)
  have hshows := (hseparating.other hcomma).2.shows (.inr (hreads.regular hpending))
  rw [withoutNewlines_cons (Token.isNewline_eq_false hreads.ne_newline)] at hshows
  rw [hrun]
  exact ⟨_, hshows, rfl⟩

end

section

variable {l : List Token} {t : Token} {read : TokenWithComments → Parse (Value Unit)} {bound : ℕ}

-- After a piece nothing follows but what ends the value.
theorem lenient_noPiece (hstop : endsValue t = true) (hl : Regular (t :: l)) (n : ℕ)
    (values : List (Value Unit)) :
    Meets Shows (do piecesLoop .CONF read (n + 1) (← nextToken .CONF) values) (t :: l)
      (fun vs l' => vs = values ∧ l' = t :: l) NoError := by
  intro s hs
  have hpieces : Succeeds Stands (do piecesLoop .CONF read (n + 1) (← nextToken .CONF) values)
      (s.pending, s.pathStack) (fun vs g => vs = values ∧ g = (s.pending, s.pathStack)) := by
    have hregular := hs.regular_pending hl
    obtain ⟨first, rest, hsplit, hfirst⟩ := hs.first hl
    have hends : endsValue first = true := by
      rcases hfirst with rfl | rfl
      · rfl
      · exact hstop
    rw [hsplit] at hregular ⊢
    refine Succeeds.bind (returns_nextToken hregular (endsValue_next hends)) ?_
    rintro r _ ⟨rfl, rfl⟩
    unfold piecesLoop
    rw [pieceOf_endsValue hends, pure_bind]
    refine Succeeds.bind (returns_putBackToken r rest _) ?_
    rintro _ _ rfl
    exact Succeeds.pure ⟨rfl, rfl⟩
  obtain ⟨s', hrun, hs'⟩ := hs.unchanged hl hpieces
  rw [hrun]
  exact ⟨_, hs', rfl, rfl⟩

theorem lenient_piece {r : TokenWithComments} {ts : List Token} {v : Value Unit}
    (h : TokenValue (r.token :: ts) v)
    (hread : Meets Shows (read r) (ts ++ l) (fun v' l' => v' = v ∧ l' = l) NoError) :
    Meets Shows (pieceOf read r) (ts ++ l) (fun piece l' => piece = some v ∧ l' = l) NoError := by
  have hopen : Meets Shows (do return some (← read r) : Parse (Option (Value Unit))) (ts ++ l)
      (fun piece l' => piece = some v ∧ l' = l) NoError := by
    refine Meets.bind hread ?_
    rintro _ _ ⟨rfl, rfl⟩
    exact Meets.pure ⟨rfl, rfl⟩
  unfold pieceOf
  generalize r.token = token at h
  cases h with
  | scalar => exact Meets.pure ⟨rfl, rfl⟩
  | emptyList | list | emptyObject | object => exact hopen

theorem startsElement_isForeign (h : startsElement t = true) : t.isForeign = false := by
  cases t <;> first | rfl | cases h

-- A value in the place of its tokens.
theorem lenient_consolidate (hread : AcceptsJson read bound) {ts : List Token} {v : Value Unit}
    (h : TokenValue ts v) (hbound : ts.length ≤ bound) (hstop : endsValue t = true)
    (hl : Regular (t :: l)) :
    Meets Shows (consolidateValueTokens .CONF read) (ts ++ t :: l)
      (fun _ l' => l' = .value v :: t :: l) NoError := by
  have hall : Regular (ts ++ t :: l) := .append h.isJson hl
  obtain ⟨head, tail, rfl, hstarts, -, hvalue⟩ := accepts_value hread h hbound hl
  rw [List.cons_append] at hall ⊢
  unfold consolidateValueTokens
  refine Meets.bind (lenient_next hall (startsElement_isForeign hstarts)) ?_
  rintro r _ ⟨rfl, rfl⟩
  refine Meets.bind (accepts_parseRounds _) ?_
  rintro n _ ⟨hn, rfl⟩
  have hpieces : Meets Shows (piecesLoop .CONF read n r []) (tail ++ t :: l)
      (fun vs l' => vs = [v] ∧ l' = t :: l) NoError := by
    rw [List.length_append, List.length_cons] at hn
    obtain ⟨n, rfl⟩ : ∃ m, n = m + 2 := ⟨n - 2, by omega⟩
    unfold piecesLoop
    refine Meets.bind (lenient_piece h (hvalue r rfl)) ?_
    rintro _ _ ⟨rfl, rfl⟩
    exact lenient_noPiece hstop hl n [v]
  refine Meets.bind hpieces ?_
  rintro _ _ ⟨rfl, rfl⟩
  have hmake : Meets Shows (ofMake (concatenate .plain [v])) (t :: l)
      (fun w l' => w = some v ∧ l' = t :: l) NoError := fun s hs => ⟨_, hs, rfl, rfl⟩
  refine Meets.bind hmake ?_
  rintro _ _ ⟨rfl, rfl⟩
  exact meets_putBackJson (.cons rfl hl) rfl

-- A value and the read of it, where it has been consolidated.
theorem lenient_value (hread : AcceptsJson read bound) {v : Value Unit} (hbound : 0 < bound)
    (hl : Regular l) {r : TokenWithComments} (hr : r.token = .value v) :
    Meets Shows (read r) l (fun v' l' => v' = v ∧ l' = l) NoError := by
  have hv : TokenValue (r.token :: []) v := by
    rw [hr]
    exact .scalar v
  exact hread hv hbound hl

theorem lenient_consolidate_close (hl : Regular l) :
    Meets Shows (consolidateValueTokens .CONF read) (.closeSquare :: l)
      (fun _ l' => l' = .closeSquare :: l) NoError := by
  have hclosed : Regular (.closeSquare :: l) := .cons rfl hl
  unfold consolidateValueTokens
  refine Meets.bind (lenient_next hclosed rfl) ?_
  rintro r l' ⟨hr, hl'⟩
  rw [hl']
  refine Meets.bind (accepts_parseRounds l) ?_
  rintro n l'' ⟨hn, hl''⟩
  rw [hl'']
  obtain ⟨n, rfl⟩ : ∃ m, n = m + 1 := ⟨n - 1, by omega⟩
  have hends : endsValue r.token = true := by
    rw [hr]
    rfl
  have hback : Meets Shows (putBackToken r) l (fun _ l' => l' = .closeSquare :: l) NoError := by
    rw [← hr] at hclosed ⊢
    exact meets_putBackJson hclosed (by rw [hr]; rfl)
  have hpieces : Meets Shows (piecesLoop .CONF read (n + 1) r []) l
      (fun vs l' => vs = [] ∧ l' = .closeSquare :: l) NoError := by
    unfold piecesLoop
    rw [pieceOf_endsValue hends, pure_bind]
    refine Meets.bind hback ?_
    rintro _ _ rfl
    exact Meets.pure ⟨rfl, rfl⟩
  refine Meets.bind hpieces ?_
  rintro _ _ ⟨rfl, rfl⟩
  exact Meets.pure rfl

-- The end of a list. A newline before it is read as a separator, of which one is allowed.
theorem returns_arrayClosed {rest : List Token} {p : List Path} (values : List (Value Unit))
    (count n : ℕ) (h : Regular (.closeSquare :: rest)) :
    Succeeds Stands (parseArrayLoop .CONF read (n + 2) values)
      (List.replicate count .newline ++ .closeSquare :: rest, p)
      (fun vs g => vs = values ∧ g = (rest, p)) := by
  unfold parseArrayLoop
  refine Succeeds.bind (returns_separator_lines count (by simp) (by simp) rfl h) ?_
  rintro saw _ ⟨-, rfl⟩
  cases saw with
  | false =>
      refine Succeeds.bind (returns_next h (by simp) rfl) ?_
      rintro r _ ⟨hr, rfl⟩
      rw [hr]
      exact Succeeds.pure ⟨rfl, rfl⟩
  | true =>
      refine Succeeds.bind (returns_consolidate_none rfl (by simp) h) ?_
      rintro _ _ rfl
      refine Succeeds.bind (returns_next h (by simp) rfl) ?_
      rintro r _ ⟨hr, rfl⟩
      have hstarts : startsElement r.token = false := by rw [hr]; rfl
      have hclose : isCloseSquare r.token = true := by rw [hr]; rfl
      rw [hstarts, if_neg Bool.false_ne_true, hclose, if_pos (by decide)]
      refine Succeeds.bind (returns_putBackToken r rest p) ?_
      rintro _ _ rfl
      rw [hr]
      exact returns_arrayEnd values n h

theorem lenient_arrayEnd (values : List (Value Unit)) (n : ℕ) (hl : Regular l) :
    Meets Shows (parseArrayLoop .CONF read (n + 2) values) (.closeSquare :: l)
      (fun vs l' => vs = values ∧ l' = l) NoError := by
  intro s hs
  have hclosed : Regular (.closeSquare :: l) := .cons rfl hl
  obtain ⟨rest, hreads, rfl⟩ := hs.reads hclosed
  have hregular := hreads.regular (hs.regular_pending hclosed)
  obtain ⟨⟨count, hsplit⟩, -⟩ := hreads
  have hreturns : Succeeds Stands (parseArrayLoop .CONF read (n + 2) values)
      (List.replicate count .newline ++ .closeSquare :: rest, s.pathStack)
      (fun vs g => vs = values ∧ g = (rest, s.pathStack)) :=
    returns_arrayClosed values count n hregular
  obtain ⟨_, s', _, hrun, hs', rfl, rfl⟩ := hreturns s ⟨hsplit, rfl⟩
  rw [hrun]
  exact ⟨_, hs'.shows hregular.remaining, rfl, rfl⟩

theorem lenient_parseArrayLoop (hread : AcceptsJson read bound) (n : ℕ) {ts : List Token}
    {vs : List (Value Unit)} (h : TokenElements ts vs) (hn : ts.length + 1 < n)
    (hbound : ts.length ≤ bound) (hl : Regular l) (values : List (Value Unit)) :
    Meets Shows (parseArrayLoop .CONF read n values) (ts ++ .closeSquare :: l)
      (fun values' l' => values' = values ++ vs ∧ l' = l) NoError := by
  induction n generalizing ts vs values with
  | zero => omega
  | succ n ih =>
      cases h with
      | nil =>
          obtain ⟨n, rfl⟩ : ∃ m, n = m + 1 := ⟨n - 1, by rw [List.length_nil] at hn; omega⟩
          rw [List.append_nil]
          exact lenient_arrayEnd values n hl
      | @cons ts rest v vs hv hrest =>
          rw [List.length_cons, List.length_append] at hn hbound
          obtain ⟨stop, tail, hsplit, hstop⟩ := hrest.stop l
          have hmore : Regular (rest ++ .closeSquare :: l) := .append hrest.isJson (.cons rfl hl)
          have hall : Regular (ts ++ (rest ++ .closeSquare :: l)) := .append hv.isJson hmore
          have hconsolidate : Meets Shows (consolidateValueTokens .CONF read)
              (ts ++ (rest ++ .closeSquare :: l))
              (fun _ l' => l' = .value v :: (rest ++ .closeSquare :: l)) NoError := by
            rw [hsplit] at hmore ⊢
            exact lenient_consolidate hread hv (by omega) hstop hmore
          rw [List.cons_append, List.append_assoc]
          unfold parseArrayLoop
          refine Meets.bind (lenient_comma hall) ?_
          rintro _ _ ⟨rfl, rfl⟩
          refine Meets.bind hconsolidate ?_
          rintro _ _ rfl
          refine Meets.bind (lenient_next (.cons rfl hmore) rfl) ?_
          rintro r _ ⟨hr, rfl⟩
          have hstarts : startsElement r.token = true := by rw [hr]; rfl
          rw [hstarts, if_pos rfl]
          refine Meets.bind (lenient_value hread (by omega) hmore hr) ?_
          rintro _ _ ⟨rfl, rfl⟩
          refine Meets.imp (ih hrest (by omega) (by omega) _) ?_
          rintro _ _ ⟨rfl, rfl⟩
          exact ⟨by rw [List.append_assoc]; rfl, rfl⟩

theorem lenient_list (hread : AcceptsJson read bound) {ts rest : List Token} {v : Value Unit}
    {vs : List (Value Unit)} (hv : TokenValue ts v) (hrest : TokenElements rest vs)
    (hbound : ts.length + rest.length < bound) (hl : Regular l) :
    Meets Shows (parseArray .CONF read) (ts ++ (rest ++ .closeSquare :: l))
      (fun v' l' => v' = .simpleConfigList () (v :: vs) ∧ l' = l) NoError := by
  obtain ⟨stop, tail, hsplit, hstop⟩ := hrest.stop l
  have hmore : Regular (rest ++ .closeSquare :: l) := .append hrest.isJson (.cons rfl hl)
  have hconsolidate : Meets Shows (consolidateValueTokens .CONF read)
      (ts ++ (rest ++ .closeSquare :: l))
      (fun _ l' => l' = .value v :: (rest ++ .closeSquare :: l)) NoError := by
    rw [hsplit] at hmore ⊢
    exact lenient_consolidate hread hv (by omega) hstop hmore
  unfold parseArray
  refine Meets.bind hconsolidate ?_
  rintro _ _ rfl
  refine Meets.bind (lenient_next (.cons rfl hmore) rfl) ?_
  rintro r _ ⟨hr, rfl⟩
  have hclose : isCloseSquare r.token = false := by rw [hr]; rfl
  have hstarts : startsElement r.token = true := by rw [hr]; rfl
  rw [hclose, if_neg Bool.false_ne_true, hstarts, if_pos rfl]
  refine Meets.bind (lenient_value hread (by omega) hmore hr) ?_
  rintro _ _ ⟨rfl, rfl⟩
  refine Meets.bind (accepts_parseRounds _) ?_
  rintro n _ ⟨hn, rfl⟩
  rw [List.length_append, List.length_cons] at hn
  refine Meets.bind (lenient_parseArrayLoop hread n hrest (by omega) (by omega) hl [_]) ?_
  rintro _ _ ⟨rfl, rfl⟩
  exact Meets.pure ⟨rfl, rfl⟩

theorem lenient_emptyList (hl : Regular l) :
    Meets Shows (parseArray .CONF read) (.closeSquare :: l)
      (fun v' l' => v' = .simpleConfigList () [] ∧ l' = l) NoError := by
  unfold parseArray
  refine Meets.bind (lenient_consolidate_close hl) ?_
  rintro _ _ rfl
  refine Meets.bind (lenient_next (.cons rfl hl) rfl) ?_
  rintro r _ ⟨hr, rfl⟩
  rw [hr]
  exact Meets.pure ⟨rfl, rfl⟩

-- A quoted key is a path of one element.
theorem lenient_parseKey {key : Bytes} {r : TokenWithComments}
    (hr : r.token = .value (.configString () key)) (hl : Regular (.colon :: l)) :
    Meets Shows (parseKey .CONF r) (.colon :: l)
      (fun path l' => path = .newKey key ∧ l' = .colon :: l) NoError := by
  intro s hs
  have hkey : Succeeds Stands (parseKey .CONF r) (s.pending, s.pathStack)
      (fun path g => path = .newKey key ∧ g = (s.pending, s.pathStack)) := by
    have hregular := hs.regular_pending hl
    obtain ⟨first, rest, hsplit, hfirst⟩ := hs.first hl
    have hstop : first.isKey = false ∧ first.isProblem = false := by
      rcases hfirst with rfl | rfl
      · exact ⟨rfl, rfl⟩
      · exact ⟨rfl, rfl⟩
    rw [hsplit] at hregular ⊢
    exact returns_parseKey (.quoted key) first hstop.1 hstop.2 hregular (by rw [hr]; rfl)
  obtain ⟨s', hrun, hs'⟩ := hs.unchanged hl hkey
  rw [hrun]
  exact ⟨_, hs', rfl, rfl⟩

-- A member is put behind the fields that are there.
theorem lenient_parseField (hread : AcceptsJson read bound) {values : Fields Unit} {key : Bytes}
    {v : Value Unit} (hkey : key ∉ values.map Prod.fst) {ts : List Token} (hv : TokenValue ts v)
    (hbound : ts.length < bound) (hstop : endsValue t = true) (hl : Regular (t :: l))
    {r : TokenWithComments} (hr : r.token = .value (.configString () key)) :
    Meets Shows (parseField .CONF read values r) (.colon :: (ts ++ t :: l))
      (fun values' l' => values' = values ++ [(key, v)] ∧ l' = t :: l) NoError := by
  have hcolon : Regular (.colon :: (ts ++ t :: l)) := .cons rfl (.append hv.isJson hl)
  unfold parseField
  refine Meets.bind (lenient_parseKey hr hcolon) ?_
  rintro _ _ ⟨rfl, rfl⟩
  refine Meets.bind (lenient_next hcolon rfl) ?_
  rintro afterKey _ ⟨hafter, rfl⟩
  have hpush : Meets Shows (pushPath (.newKey key)) (ts ++ t :: l)
      (fun _ l' => l' = ts ++ t :: l) NoError :=
    fun s hs => ⟨_, ⟨hs.regular, hs.pending⟩, rfl⟩
  refine Meets.bind hpush ?_
  rintro _ _ rfl
  have hfield : Meets Shows (parseFieldValue .CONF read afterKey) (ts ++ t :: l)
      (fun v' l' => v' = v ∧ l' = t :: l) NoError := by
    unfold parseFieldValue
    rw [hafter]
    refine Meets.bind (lenient_consolidate hread hv (by omega) hstop hl) ?_
    rintro _ _ rfl
    refine Meets.bind (lenient_next (.cons rfl hl) rfl) ?_
    rintro r' _ ⟨hr', rfl⟩
    exact lenient_value hread (by omega) hl hr'
  refine Meets.bind hfield ?_
  rintro v' _ ⟨hv', rfl⟩
  have hpop : Meets Shows popPath (t :: l) (fun _ l' => l' = t :: l) NoError :=
    fun s hs => ⟨_, ⟨hs.regular, hs.pending⟩, rfl⟩
  refine Meets.bind hpop ?_
  rintro _ _ rfl
  obtain ⟨hlookup, hput⟩ := putField_new hkey v
  have hstore : storeField .CONF values (.newKey key) v = pure (values ++ [(key, v)]) := by
    simp [storeField, Path.remainder, Path.first, hlookup, hput]
  rw [hv', hstore]
  exact Meets.pure ⟨rfl, rfl⟩

theorem lenient_closeField_comma (hl : Regular l) :
    Meets Shows (closeField .CONF true) (.comma :: l)
      (fun more l' => more = true ∧ l' = l) NoError := by
  unfold closeField
  refine Meets.bind (lenient_comma hl) ?_
  rintro _ _ ⟨rfl, rfl⟩
  exact Meets.pure ⟨rfl, rfl⟩

-- After a newline the brace is left to another round.
theorem lenient_closeField_curly (hl : Regular l) :
    Meets Shows (closeField .CONF true) (.closeCurly :: l)
      (fun more l' => l' = if more then .closeCurly :: l else l) NoError := by
  have hclosed : Regular (.closeCurly :: l) := .cons rfl hl
  unfold closeField
  refine Meets.bind (lenient_other hclosed rfl (by simp)) ?_
  rintro saw _ rfl
  refine Meets.ite (fun _ => Meets.pure rfl) fun _ => ?_
  refine Meets.bind (lenient_next hclosed rfl) ?_
  rintro r _ ⟨hr, rfl⟩
  rw [hr]
  exact Meets.pure rfl

section

variable (includer : Includer)

theorem lenient_noField (n : ℕ) (afterComma : Bool) (values : Fields Unit) (hl : Regular l) :
    Meets Shows (parseObjectLoop .CONF includer read true (n + 1) afterComma values)
      (.closeCurly :: l) (fun vs l' => vs = values ∧ l' = l) NoError := by
  unfold parseObjectLoop
  refine Meets.bind (lenient_next (.cons rfl hl) rfl) ?_
  rintro r _ ⟨hr, rfl⟩
  rw [hr]
  exact Meets.pure ⟨rfl, rfl⟩

theorem lenient_parseObjectLoop (hread : AcceptsJson read bound) (n : ℕ) (afterComma : Bool)
    {values : Fields Unit} {key : Bytes} {v : Value Unit} {fields : Fields Unit}
    {ts rest : List Token} (hv : TokenValue ts v) (hrest : TokenMembers rest fields)
    (hkeys : ((values ++ (key, v) :: fields).map Prod.fst).Nodup) (hn : rest.length + 1 < n)
    (hbound : ts.length + rest.length < bound) (hl : Regular l) :
    Meets Shows (parseObjectLoop .CONF includer read true n afterComma values)
      (.value (.configString () key) :: .colon :: (ts ++ (rest ++ .closeCurly :: l)))
      (fun values' l' => values' = values ++ (key, v) :: fields ∧ l' = l) NoError := by
  induction n generalizing afterComma values key v fields ts rest with
  | zero => omega
  | succ n ih =>
      obtain ⟨stop, tail, hsplit, hstop⟩ := hrest.stop l
      have hmore : Regular (rest ++ .closeCurly :: l) := .append hrest.isJson (.cons rfl hl)
      have hall : Regular (.colon :: (ts ++ (rest ++ .closeCurly :: l))) :=
        .cons rfl (.append hv.isJson hmore)
      have hkey : key ∉ values.map Prod.fst := by
        rw [List.map_append, List.nodup_append] at hkeys
        intro hmem
        exact hkeys.2.2 key hmem key (List.mem_map_of_mem List.mem_cons_self) rfl
      obtain ⟨round, hloop, heq⟩ := exists_round includer read n afterComma
      rw [hloop]
      refine Meets.bind (lenient_next (.cons rfl hall) rfl) ?_
      rintro r _ ⟨hr, rfl⟩
      have hkeyword : isIncludeKeyword r.token = false := by rw [hr]; rfl
      have hfield : Meets Shows (parseField .CONF read values r)
          (.colon :: (ts ++ (rest ++ .closeCurly :: l)))
          (fun values' l' => values' = values ++ [(key, v)] ∧ l' = rest ++ .closeCurly :: l)
          NoError := by
        rw [hsplit] at hmore ⊢
        exact lenient_parseField hread hkey hv (by omega) hstop hmore hr
      rw [heq r (by rw [hr]; rfl), readField, hkeyword, if_neg Bool.false_ne_true]
      refine Meets.bind hfield ?_
      rintro _ _ ⟨rfl, rfl⟩
      cases hrest with
      | nil =>
          refine Meets.bind (lenient_closeField_curly hl) ?_
          rintro more _ rfl
          cases more with
          | false => exact Meets.pure ⟨rfl, rfl⟩
          | true =>
              obtain ⟨n, rfl⟩ : ∃ m, n = m + 1 := ⟨n - 1, by omega⟩
              exact lenient_noField includer n true _ hl
      | @cons ts' rest' key' v' fields' hv' hrest' =>
          have hnext : Regular (.value (.configString () key') :: .colon ::
              (ts' ++ (rest' ++ .closeCurly :: l))) :=
            .cons rfl (.cons rfl (.append hv'.isJson (.append hrest'.isJson (.cons rfl hl))))
          simp only [List.length_cons, List.length_append] at hn hbound
          simp only [List.cons_append, List.append_assoc]
          refine Meets.bind (lenient_closeField_comma hnext) ?_
          rintro _ _ ⟨rfl, rfl⟩
          have hkeys' : ((values ++ [(key, v)] ++ (key', v') :: fields').map Prod.fst).Nodup := by
            rw [List.append_assoc]
            exact hkeys
          refine Meets.imp (ih true hv' hrest' hkeys' (by omega) (by omega)) ?_
          rintro _ _ ⟨rfl, rfl⟩
          exact ⟨by rw [List.append_assoc]; rfl, rfl⟩

theorem lenient_object (hread : AcceptsJson read bound) {ts rest : List Token} {key : Bytes}
    {v : Value Unit} {fields : Fields Unit} (hv : TokenValue ts v)
    (hrest : TokenMembers rest fields) (hkeys : (((key, v) :: fields).map Prod.fst).Nodup)
    (hbound : ts.length + rest.length < bound) (hl : Regular l) :
    Meets Shows (parseObject .CONF includer read true)
      (.value (.configString () key) :: .colon :: (ts ++ (rest ++ .closeCurly :: l)))
      (fun v' l' => v' = .simpleConfigObject () ((key, v) :: fields) false ∧ l' = l) NoError := by
  unfold parseObject
  refine Meets.bind (accepts_parseRounds _) ?_
  rintro n _ ⟨hn, rfl⟩
  simp only [List.length_cons, List.length_append] at hn
  have hkeys' : ((([] : Fields Unit) ++ (key, v) :: fields).map Prod.fst).Nodup := hkeys
  refine Meets.bind (lenient_parseObjectLoop includer hread n false hv hrest hkeys' (by omega)
    hbound hl) ?_
  rintro _ _ ⟨rfl, rfl⟩
  exact Meets.pure ⟨rfl, rfl⟩

theorem lenient_emptyObject (hl : Regular l) :
    Meets Shows (parseObject .CONF includer read true) (.closeCurly :: l)
      (fun v' l' => v' = .simpleConfigObject () [] false ∧ l' = l) NoError := by
  unfold parseObject
  refine Meets.bind (accepts_parseRounds _) ?_
  rintro n _ ⟨hn, rfl⟩
  obtain ⟨n, rfl⟩ : ∃ m, n = m + 1 := ⟨n - 1, by omega⟩
  refine Meets.bind (lenient_noField includer n false [] hl) ?_
  rintro _ _ ⟨rfl, rfl⟩
  exact Meets.pure ⟨rfl, rfl⟩

theorem acceptsJson_conf (depth : ℕ) : AcceptsJson (parseValue .CONF includer depth) depth := by
  induction depth with
  | zero =>
      intro t ts v l h hbound
      omega
  | succ depth ih =>
      intro t ts v l h hbound hl
      unfold parseValue
      generalize t.token = token at h
      cases h with
      | scalar v => exact Meets.pure ⟨rfl, rfl⟩
      | emptyList => exact lenient_emptyList hl
      | list hv hrest =>
          simp only [List.length_append, List.length_singleton] at hbound
          simp only [List.append_assoc, List.singleton_append]
          exact lenient_list ih hv hrest (by omega) hl
      | emptyObject => exact lenient_emptyObject includer hl
      | object hv hrest hkeys =>
          simp only [List.length_cons, List.length_append, List.length_nil] at hbound
          simp only [List.cons_append, List.append_assoc, List.nil_append]
          exact lenient_object includer ih hv hrest hkeys (by omega) hl

theorem lenient_parseDocument {ts : List Token} {v : Value Unit} (h : TokenValue ts v)
    (hcontainer : ∀ w, ts.head? ≠ some (.value w)) :
    Meets Shows (parseDocument .CONF includer) (.start :: (ts ++ [.end_])) (fun v' _ => v' = v)
      NoError := by
  have hl : Regular (ts ++ [.end_]) := .append h.isJson .last
  unfold parseDocument
  refine Meets.bind (accepts_parseRounds _) ?_
  rintro depth _ ⟨hdepth, rfl⟩
  simp only [List.length_cons, List.length_append, List.length_nil] at hdepth
  obtain ⟨t, rest, rfl, hstarts, -, hvalue⟩ :=
    accepts_value (acceptsJson_conf includer depth) h (by omega) .last
  refine Meets.bind (lenient_next (.cons rfl hl) rfl) ?_
  rintro r _ ⟨hr, rfl⟩
  rw [hr]
  refine Meets.bind (lenient_next hl (startsElement_isForeign hstarts)) ?_
  rintro r' _ ⟨hr', rfl⟩
  have hrest : Meets Shows (parseValue .CONF includer depth r' >>= finishDocument .CONF)
      (rest ++ [.end_]) (fun v' _ => v' = v) NoError := by
    refine Meets.bind (hvalue r' hr') ?_
    rintro _ _ ⟨rfl, rfl⟩
    refine Meets.bind (lenient_next .last rfl) ?_
    rintro r'' _ ⟨hr'', rfl⟩
    rw [hr'']
    exact Meets.pure rfl
  rw [hr']
  cases t with
  | value w => exact absurd rfl (hcontainer w)
  | openCurly => exact hrest
  | openSquare => exact hrest
  | _ => cases hstarts

end

end

-- No token of a document that JSON reads is one that CONF would read differently.
theorem tokenize_json {doubles : Doubles} {input : Bytes} {ts : List Token} {v : Value Unit}
    (h : TokenValue ts v) (hts : JsonTokens doubles input = ts ++ [.end_]) :
    ∀ t ∈ tokenize doubles input .JSON, t.isForeign = false ∧ t.isRaised = false := by
  intro t ht
  by_cases hcomment : t.isComment = true
  · cases t with
    | comment text => exact ⟨rfl, rfl⟩
    | _ => cases hcomment
  by_cases hnewline : t.isNewline = true
  · cases t with
    | newline => exact ⟨rfl, rfl⟩
    | _ => cases hnewline
  obtain ⟨-, l, hl⟩ := tokenize_document doubles input .JSON
  have hmem : t ∈ significant (tokenize doubles input .JSON) :=
    List.mem_filter.mpr ⟨ht, by simpa using hcomment⟩
  rw [hl] at hmem
  rcases List.mem_cons.mp hmem with rfl | hmem
  · exact ⟨rfl, rfl⟩
  have hshown : t ∈ JsonTokens doubles input := by
    rw [JsonTokens, hl]
    exact List.mem_filter.mpr ⟨hmem, by simpa using hnewline⟩
  rw [hts] at hshown
  rcases List.mem_append.mp hshown with hvalue | hend
  · have hjson := h.isJson t hvalue
    cases t with
    | thrown => cases hjson
    | problem | unquotedText | substitution => cases hjson
    | _ => exact ⟨rfl, rfl⟩
  · rw [List.mem_singleton.mp hend]
    exact ⟨rfl, rfl⟩

-- Only scalars are tokens.
theorem scalar_of_jsonTokens {doubles : Doubles} {input : Bytes} {v : Value Unit}
    (h : .value v ∈ JsonTokens doubles input) : v.isScalar = true := by
  obtain ⟨hdocument, l, hl⟩ := tokenize_document doubles input .JSON
  apply hdocument.scalars
  rw [JsonTokens, hl] at h
  rw [hl]
  exact List.mem_cons_of_mem _ (List.mem_of_mem_filter h)

-- Every document that is read as JSON is read as CONF, with the same value.
theorem parse_superset {doubles : Doubles} {includer : Includer} (includer' : Includer)
    {input : Bytes} {v : Value Unit} (h : parse doubles includer .JSON input = .ok v) :
    parse doubles includer' .CONF input = .ok v := by
  obtain ⟨hcontainer, ts, hv, hts⟩ := parse_json_tokens h
  have hhead : ∀ w, ts.head? ≠ some (.value w) := by
    intro w hw
    obtain ⟨rest, rfl⟩ := List.head?_eq_some_iff.mp hw
    cases hv with
    | scalar =>
        have hscalar := scalar_of_jsonTokens (by rw [hts]; exact List.mem_cons_self)
        cases v with
        | simpleConfigList | simpleConfigObject => cases hscalar
        | _ => cases hcontainer
  have hshows := (tokenize_shows doubles input).2
  rw [hts] at hshows
  have hmeets := lenient_parseDocument includer' hv hhead _ hshows
  unfold parse
  rw [tokenize_alike doubles input (tokenize_json hv hts)]
  split
  · rename_i v' s' hrun
    rw [hrun] at hmeets
    obtain ⟨_, _, rfl⟩ := hmeets
    rfl
  · rename_i e s' hrun
    rw [hrun] at hmeets
    exact hmeets.elim

-- An object over several lines, with a newline before every bracket.
theorem parse_superset_lines :
    let input := ascii "\x7b\n\"a\"\n:\n[1,\n\"x\"\n]\n\x7d\n"
    ∃ v, parse noDoubles .none .JSON input = .ok v ∧ parse noDoubles .none .CONF input = .ok v := by
  intro input
  obtain ⟨v, hv⟩ : ∃ v, parse noDoubles .none .JSON input = .ok v :=
    exists_of_isOk (by decide +kernel)
  exact ⟨v, hv, parse_superset .none hv⟩

end AsrServiceProxy.Config

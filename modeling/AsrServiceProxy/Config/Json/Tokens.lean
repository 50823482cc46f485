import AsrServiceProxy.Lib.Entries
import AsrServiceProxy.Config.Parser.Progress

-- The parser in JSON mode: the token lists that it accepts, newlines apart, are those of
-- a grammar.
namespace AsrServiceProxy.Config

open CMemory Simulation

-- The tokens that JSON has no use for.
def Token.isForeign : Token → Bool
  | .problem _ _ _ | .unquotedText _ | .substitution _ _ => true
  | _ => false

def Token.isNewline : Token → Bool
  | .newline => true
  | _ => false

def withoutNewlines (ts : List Token) : List Token := ts.filter fun t => !t.isNewline

theorem withoutNewlines_cons {t : Token} (h : t.isNewline = false) (ts : List Token) :
    withoutNewlines (t :: ts) = t :: withoutNewlines ts :=
  List.filter_cons_of_pos (by rw [h]; rfl)

-- A context with these tokens to come besides newlines.
structure Shows (s : ParseContext) (l : List Token) : Prop where
  regular : s.pending = [] ∨ Regular s.pending
  pending : withoutNewlines s.pending = l

theorem nextToken_json {t : Token} {l : List Token} (h : Regular (t :: l)) {s : ParseContext}
    (hs : s.pending = t :: l) :
    if t.isForeign then ∃ e s', nextToken .JSON s = .error e s'
    else ∃ r s', nextToken .JSON s = .ok r s' ∧ s'.pending = l ∧ r.token = t := by
  obtain ⟨r, s', hpop, hstands, hr⟩ := popToken_eq (p := s.pathStack) h ⟨hs, rfl⟩
  cases t with
  | problem what message suggestQuotes =>
      refine ⟨.parse message, s', ?_⟩
      simp only [nextToken, bind, EStateM.bind, hpop, hr]
      rfl
  | unquotedText =>
      refine ⟨.parse "_token not allowed in valid JSON: '", s', ?_⟩
      simp only [nextToken, bind, EStateM.bind, hpop, hr]
      rfl
  | substitution =>
      refine ⟨.parse "_substitutions syntax not allowed in JSON", s', ?_⟩
      simp only [nextToken, bind, EStateM.bind, hpop, hr]
      rfl
  | _ =>
      refine ⟨r, s', ?_, hstands.pending, hr⟩
      simp only [nextToken, bind, EStateM.bind, hpop, hr]
      rfl

theorem ignoringNewlineLoop_json (n : ℕ) {s : ParseContext} (h : Regular s.pending)
    (hn : s.pending.length ≤ n) :
    ∃ t l, withoutNewlines s.pending = t :: l ∧ t.isNewline = false ∧
      if t.isForeign then ∃ e s', ignoringNewlineLoop .JSON n s = .error e s'
      else ∃ r s', ignoringNewlineLoop .JSON n s = .ok r s' ∧ r.token = t ∧ Shows s' l := by
  induction n generalizing s with
  | zero => exact absurd (List.length_eq_zero_iff.mp (by omega)) h.ne_nil
  | succ n ih =>
      cases hpending : s.pending with
      | nil => exact absurd hpending h.ne_nil
      | cons t l =>
          rw [hpending] at h hn
          rw [List.length_cons] at hn
          have hread := nextToken_json h hpending
          by_cases hnewline : t = .newline
          · obtain ⟨r, s', hnext, hs', hr⟩ : ∃ r s', nextToken .JSON s = .ok r s' ∧
                s'.pending = l ∧ r.token = .newline := by
              rw [hnewline] at hread
              exact hread
            have hl : Regular s'.pending := by
              rw [hs']
              exact (h.tail (by rw [hnewline]; nofun)).2
            obtain ⟨t', l', hstripped, hne, houtcome⟩ := ih hl (by rw [hs']; omega)
            have hloop : ignoringNewlineLoop .JSON (n + 1) s = ignoringNewlineLoop .JSON n s' := by
              simp only [ignoringNewlineLoop, bind, EStateM.bind, hnext, hr]
            rw [hs'] at hstripped
            refine ⟨t', l', ?_, hne, ?_⟩
            · rw [hnewline]
              exact hstripped
            · rw [hloop]
              exact houtcome
          · have hother : t.isNewline = false := by
              cases t with
              | newline => exact absurd rfl hnewline
              | _ => rfl
            refine ⟨t, withoutNewlines l, withoutNewlines_cons hother l, hother, ?_⟩
            split
            · rename_i hforeign
              rw [if_pos hforeign] at hread
              obtain ⟨e, s', hnext⟩ := hread
              exact ⟨e, s', by simp only [ignoringNewlineLoop, bind, EStateM.bind, hnext]⟩
            · rename_i hforeign
              rw [if_neg hforeign] at hread
              obtain ⟨r, s', hnext, hs', hr⟩ := hread
              refine ⟨r, s', ?_, hr, ⟨?_, by rw [hs']⟩⟩
              · simp only [ignoringNewlineLoop, bind, EStateM.bind, hnext, hr]
                cases t with
                | newline => exact absurd rfl hnewline
                | _ => rfl
              · rw [hs']
                cases h with
                | last => exact .inl rfl
                | cons _ hl => exact .inr hl

theorem Regular.withoutNewlines {l : List Token} (h : Regular l) :
    Regular (Config.withoutNewlines l) := by
  induction h with
  | last => exact .last
  | @cons t l ht h ih =>
      by_cases hnewline : t.isNewline = true
      · have hdrop : Config.withoutNewlines (t :: l) = Config.withoutNewlines l :=
          List.filter_cons_of_neg (by rw [hnewline]; decide)
        rw [hdrop]
        exact ih
      · rw [withoutNewlines_cons (Bool.eq_false_iff.mpr hnewline)]
        exact .cons ht ih

theorem Shows.regular_pending {s : ParseContext} {l : List Token} (h : Shows s l)
    (hl : Regular l) : Regular s.pending := by
  rcases h.regular with hnil | hregular
  · have hpending := h.pending
    rw [hnil] at hpending
    exact absurd hpending.symm hl.ne_nil
  · exact hregular

-- The next token besides newlines. Only a foreign one is refused.
theorem meets_nextJson {l : List Token} (hl : Regular l) :
    Meets Shows (nextTokenIgnoringNewline .JSON) l
      (fun r l' => l = r.token :: l' ∧ r.token.isForeign = false ∧ r.token.isNewline = false)
      (fun _ => ∃ t l', l = t :: l' ∧ t.isForeign = true) := by
  intro s hs
  have hregular := hs.regular_pending hl
  have hrounds : nextTokenIgnoringNewline .JSON s =
      ignoringNewlineLoop .JSON (s.tokens.length + s.buffer.length + 1) s := rfl
  rw [hrounds]
  have hlength : s.pending.length ≤ s.tokens.length + s.buffer.length + 1 := by
    have hfilter := List.length_filter_le (fun t => !t.isComment) s.tokens
    rw [ParseContext.pending, List.length_append, List.length_map]
    omega
  obtain ⟨t, l', hstripped, hnewline, houtcome⟩ := ignoringNewlineLoop_json _ hregular hlength
  rw [hs.pending] at hstripped
  split at houtcome
  · rename_i hforeign
    obtain ⟨e, s', hrun⟩ := houtcome
    rw [hrun]
    exact ⟨t, l', hstripped, hforeign⟩
  · rename_i hforeign
    obtain ⟨r, s', hrun, rfl, hshows⟩ := houtcome
    rw [hrun]
    exact ⟨l', hshows, hstripped, Bool.eq_false_iff.mpr hforeign, hnewline⟩

theorem meets_putBackJson {t : TokenWithComments} {l : List Token} (hl : Regular (t.token :: l))
    (hnewline : t.token.isNewline = false) {raised : ConfigException → Prop} :
    Meets Shows (putBackToken t) l (fun _ l' => l' = t.token :: l) raised := by
  rintro s hs
  refine ⟨t.token :: l, ⟨.inr ?_, ?_⟩, rfl⟩
  · change Regular (t.token :: s.pending)
    generalize t.token = token at hl
    cases hl with
    | last =>
        rcases hs.regular with hnil | hregular
        · rw [hnil]
          exact .last
        · exact absurd hs.pending hregular.withoutNewlines.ne_nil
    | cons ht h => exact .cons ht (hs.regular_pending h)
  · change withoutNewlines (t.token :: s.pending) = _
    rw [withoutNewlines_cons hnewline, hs.pending]

-- The token lists of values.
mutual

inductive TokenValue : List Token → Value Unit → Prop
  | scalar (v : Value Unit) : TokenValue [.value v] v
  | emptyList : TokenValue [.openSquare, .closeSquare] (.simpleConfigList () [])
  | list {ts rest : List Token} {v : Value Unit} {vs : List (Value Unit)} (h : TokenValue ts v)
      (hrest : TokenElements rest vs) :
      TokenValue (.openSquare :: (ts ++ (rest ++ [.closeSquare]))) (.simpleConfigList () (v :: vs))
  | emptyObject : TokenValue [.openCurly, .closeCurly] (.simpleConfigObject () [] false)
  | object {ts rest : List Token} {key : Bytes} {v : Value Unit} {fields : Fields Unit}
      (h : TokenValue ts v) (hrest : TokenMembers rest fields)
      (hkeys : (((key, v) :: fields).map Prod.fst).Nodup) :
      TokenValue (.openCurly :: .value (.configString () key) :: .colon ::
        (ts ++ (rest ++ [.closeCurly]))) (.simpleConfigObject () ((key, v) :: fields) false)

-- The elements after the first, each behind its comma.
inductive TokenElements : List Token → List (Value Unit) → Prop
  | nil : TokenElements [] []
  | cons {ts rest : List Token} {v : Value Unit} {vs : List (Value Unit)} (h : TokenValue ts v)
      (hrest : TokenElements rest vs) : TokenElements (.comma :: (ts ++ rest)) (v :: vs)

inductive TokenMembers : List Token → Fields Unit → Prop
  | nil : TokenMembers [] []
  | cons {ts rest : List Token} {key : Bytes} {v : Value Unit} {fields : Fields Unit}
      (h : TokenValue ts v) (hrest : TokenMembers rest fields) :
      TokenMembers (.comma :: .value (.configString () key) :: .colon :: (ts ++ rest))
        ((key, v) :: fields)

end

-- What is accepted is a value. The exceptions do not matter here.
section

def AnyError : ConfigException → Prop := fun _ => True

theorem reads_nextJson {l : List Token} (hl : Regular l) :
    Meets Shows (nextTokenIgnoringNewline .JSON) l
      (fun r l' => l = r.token :: l' ∧ r.token.isForeign = false ∧ r.token.isNewline = false)
      AnyError :=
  Meets.raises (meets_nextJson hl) fun _ _ => trivial

theorem reads_checkElementSeparator {l : List Token} (hl : Regular l) :
    Meets Shows (checkElementSeparator .JSON) l
      (fun another l' => if another then l = .comma :: l' else l' = l) AnyError := by
  refine Meets.bind (reads_nextJson hl) ?_
  rintro t l' ⟨rfl, _, hnewline⟩
  have hputBack : Meets Shows (do
        putBackToken t
        return false : Parse Bool) l'
      (fun another l'' => if another then t.token :: l' = .comma :: l'' else l'' = t.token :: l')
      AnyError := by
    refine Meets.bind (meets_putBackJson hl hnewline) ?_
    rintro _ _ rfl
    exact Meets.pure rfl
  cases htoken : t.token with
  | comma => exact Meets.pure rfl
  | _ =>
      rw [htoken] at hputBack
      exact hputBack

-- `read` gives the value that starts with a token.
def ReadsJson (read : TokenWithComments → Parse (Value Unit)) : Prop :=
  ∀ t l, Regular (t.token :: l) → Meets Shows (read t) l
    (fun v l' => Regular l' ∧ ∃ ts, TokenValue ts v ∧ t.token :: l = ts ++ l') AnyError

-- In JSON there is nothing to concatenate.
theorem meets_consolidateJson (read : TokenWithComments → Parse (Value Unit)) (l : List Token)
    {raised : ConfigException → Prop} :
    Meets Shows (consolidateValueTokens .JSON read) l (fun _ l' => l' = l) raised :=
  Meets.pure rfl

variable {read : TokenWithComments → Parse (Value Unit)} (hread : ReadsJson read)

include hread

theorem reads_parseArrayLoop (n : ℕ) {l : List Token} (hl : Regular l) (values : List (Value Unit)) :
    Meets Shows (parseArrayLoop .JSON read n values) l
      (fun values' l' => Regular l' ∧ ∃ ts vs, TokenElements ts vs ∧ values' = values ++ vs ∧
        l = ts ++ .closeSquare :: l') AnyError := by
  induction n generalizing l values with
  | zero => exact Meets.throw trivial
  | succ n ih =>
      refine Meets.bind (reads_checkElementSeparator hl) ?_
      intro another l₁ hanother
      refine Meets.ite (fun hsaw => ?_) fun hsaw => ?_
      · rw [hsaw, if_pos rfl] at hanother
        subst hanother
        refine Meets.bind (meets_consolidateJson read l₁) ?_
        rintro _ _ rfl
        have hl₁ := (hl.tail nofun).2
        refine Meets.bind (reads_nextJson hl₁) ?_
        rintro t l₂ ⟨rfl, _⟩
        refine Meets.ite (fun _ => ?_) fun _ => Meets.ite (fun hjson => ?_) fun _ => Meets.throw trivial
        · refine Meets.bind (hread t l₂ hl₁) ?_
          rintro v l₃ ⟨hl₃, ts, hv, hsplit⟩
          refine Meets.imp (ih hl₃ (values ++ [v])) ?_
          rintro values' l' ⟨hl', ts', vs, hvs, rfl, rfl⟩
          refine ⟨hl', .comma :: (ts ++ ts'), v :: vs, .cons hv hvs, by simp, ?_⟩
          rw [hsplit]
          simp
        · cases hjson
      · rw [Bool.not_eq_true] at hsaw
        rw [hsaw, if_neg Bool.false_ne_true] at hanother
        subst hanother
        refine Meets.bind (reads_nextJson hl) ?_
        rintro t l' ⟨rfl, _⟩
        refine Meets.ite (fun hclose => Meets.pure ?_) fun _ => Meets.throw trivial
        have hsquare := isCloseSquare_iff hclose
        rw [hsquare] at hl ⊢
        exact ⟨(hl.tail nofun).2, [], [], .nil, by rw [List.append_nil], rfl⟩

theorem reads_parseArray {l : List Token} (hl : Regular l) :
    Meets Shows (parseArray .JSON read) l
      (fun v l' => Regular l' ∧ ∃ ts, TokenValue ts v ∧ .openSquare :: l = ts ++ l') AnyError := by
  refine Meets.bind (meets_consolidateJson read l) ?_
  rintro _ _ rfl
  refine Meets.bind (reads_nextJson hl) ?_
  rintro t l₁ ⟨rfl, _⟩
  refine Meets.ite (fun hclose => Meets.pure ?_) fun _ => ?_
  · have hsquare := isCloseSquare_iff hclose
    rw [hsquare] at hl ⊢
    exact ⟨(hl.tail nofun).2, _, .emptyList, rfl⟩
  · refine Meets.ite (fun _ => ?_) fun _ => Meets.throw trivial
    refine Meets.bind (hread t l₁ hl) ?_
    rintro v l₂ ⟨hl₂, ts, hv, hsplit⟩
    have hrounds : Meets Shows parseRounds l₂ (fun _ l' => l' = l₂) AnyError :=
      fun s hs => ⟨l₂, hs, rfl⟩
    refine Meets.bind hrounds ?_
    rintro n _ rfl
    refine Meets.bind (reads_parseArrayLoop hread n hl₂ [v]) ?_
    rintro values l' ⟨hl', rest, vs, hvs, rfl, rfl⟩
    refine Meets.pure ⟨hl', _, .list hv hvs, ?_⟩
    rw [hsplit]
    simp

-- The colon and the value of a field.
theorem reads_parseFieldValue {t : TokenWithComments} {l : List Token} (hl : Regular (t.token :: l)) :
    Meets Shows (parseFieldValue .JSON read t) l
      (fun v l' => Regular l' ∧ ∃ ts, TokenValue ts v ∧ t.token :: l = .colon :: (ts ++ l'))
      AnyError := by
  unfold parseFieldValue
  cases htoken : t.token with
  | colon =>
      rw [htoken] at hl
      refine Meets.bind (meets_consolidateJson read l) ?_
      rintro _ _ rfl
      have hl' := (hl.tail nofun).2
      refine Meets.bind (reads_nextJson hl') ?_
      rintro t' l₁ ⟨rfl, _⟩
      refine Meets.imp (hread t' l₁ hl') ?_
      rintro v l' ⟨hl'', ts, hv, hsplit⟩
      exact ⟨hl'', ts, hv, by rw [hsplit]⟩
  | _ => exact Meets.throw trivial

theorem reads_parseField {values : Fields Unit} (hvalues : (values.map Prod.fst).Nodup)
    {t : TokenWithComments} {l : List Token} (hl : Regular (t.token :: l)) :
    Meets Shows (parseField .JSON read values t) l
      (fun values' l' => Regular l' ∧ (values'.map Prod.fst).Nodup ∧ ∃ key v ts, TokenValue ts v ∧
        values' = values ++ [(key, v)] ∧
        t.token :: l = .value (.configString () key) :: .colon :: (ts ++ l')) AnyError := by
  -- only a string is a key
  have hkey : Meets Shows (parseKey .JSON t) l (fun path l' => l' = l ∧ ∃ key, path = .newKey key ∧
      t.token = .value (.configString () key)) AnyError := by
    unfold parseKey
    dsimp only
    split
    · rename_i key htoken
      exact Meets.pure ⟨rfl, key, rfl, htoken⟩
    · exact Meets.throw trivial
  refine Meets.bind hkey ?_
  rintro _ _ ⟨rfl, key, rfl, htoken⟩
  rw [htoken] at hl ⊢
  have hl' := (hl.tail nofun).2
  refine Meets.bind (reads_nextJson hl') ?_
  rintro t' l₁ ⟨rfl, _⟩
  have hpush : Meets Shows (pushPath (.newKey key)) l₁ (fun _ l' => l' = l₁) AnyError :=
    fun s hs => ⟨l₁, ⟨hs.regular, hs.pending⟩, rfl⟩
  refine Meets.bind hpush ?_
  rintro _ _ rfl
  refine Meets.bind (reads_parseFieldValue hread hl') ?_
  rintro v l' ⟨hl'', ts, hv, hsplit⟩
  have hpop : Meets Shows popPath l' (fun _ l'' => l'' = l') AnyError :=
    fun s hs => ⟨l', ⟨hs.regular, hs.pending⟩, rfl⟩
  refine Meets.bind hpop ?_
  rintro _ _ rfl
  unfold storeField
  dsimp only [Path.remainder, Path.first]
  cases hlookup : values.lookup key with
  | some existing => exact Meets.throw trivial
  | none =>
      have hput : putField values key v = values ++ [(key, v)] := by
        rw [putField, hlookup]
        rfl
      refine Meets.pure ⟨hl'', nodup_putField hvalues key v, key, v, ts, hv, hput, ?_⟩
      rw [hsplit]

omit hread in
theorem reads_closeField {l : List Token} (hl : Regular l) :
    Meets Shows (closeField .JSON true) l
      (fun another l' => Regular l' ∧
        if another then l = .comma :: l' else l = .closeCurly :: l') AnyError := by
  refine Meets.bind (reads_checkElementSeparator hl) ?_
  intro another l₁ hanother
  refine Meets.ite (fun hsaw => Meets.pure ?_) fun hsaw => ?_
  · rw [hsaw, if_pos rfl] at hanother
    subst hanother
    exact ⟨(hl.tail nofun).2, rfl⟩
  · rw [Bool.not_eq_true] at hsaw
    rw [hsaw, if_neg Bool.false_ne_true] at hanother
    subst hanother
    refine Meets.bind (reads_nextJson hl) ?_
    rintro t l' ⟨rfl, _⟩
    cases htoken : t.token with
    | closeCurly =>
        rw [htoken] at hl
        exact Meets.pure ⟨(hl.tail nofun).2, rfl⟩
    | _ => exact Meets.throw trivial

theorem reads_parseObjectLoop (includer : Includer) (n : ℕ) (afterComma : Bool) {l : List Token}
    (hl : Regular l) {values : Fields Unit} (hvalues : (values.map Prod.fst).Nodup) :
    Meets Shows (parseObjectLoop .JSON includer read true n afterComma values) l
      (fun values' l' => Regular l' ∧ (values'.map Prod.fst).Nodup ∧
        ((afterComma = false ∧ values' = values ∧ l = .closeCurly :: l') ∨
          ∃ key v fields ts rest, TokenValue ts v ∧ TokenMembers rest fields ∧
            values' = values ++ (key, v) :: fields ∧
            l = .value (.configString () key) :: .colon :: (ts ++ (rest ++ .closeCurly :: l'))))
      AnyError := by
  induction n generalizing l afterComma values with
  | zero => exact Meets.throw trivial
  | succ n ih =>
      refine Meets.bind (reads_nextJson hl) ?_
      rintro t l₁ ⟨rfl, _⟩
      have hround : Meets Shows (do
            let values ←
              if ConfigSyntax.JSON ≠ .JSON && isIncludeKeyword t.token then
                parseInclude .JSON includer values
              else parseField .JSON read values t
            if ← closeField .JSON true then parseObjectLoop .JSON includer read true n true values
            else return values) l₁
          (fun values' l' => Regular l' ∧ (values'.map Prod.fst).Nodup ∧
            ((afterComma = false ∧ values' = values ∧ t.token :: l₁ = .closeCurly :: l') ∨
              ∃ key v fields ts rest, TokenValue ts v ∧ TokenMembers rest fields ∧
                values' = values ++ (key, v) :: fields ∧
                t.token :: l₁ = .value (.configString () key) :: .colon ::
                  (ts ++ (rest ++ .closeCurly :: l')))) AnyError := by
        refine Meets.bind (reads_parseField hread hvalues hl) ?_
        rintro _ l₂ ⟨hl₂, hnodup, key, v, ts, hv, rfl, hsplit⟩
        refine Meets.bind (reads_closeField hl₂) ?_
        rintro another l₃ ⟨hl₃, hanother⟩
        refine Meets.ite (fun hsaw => ?_) fun hsaw => ?_
        · rw [hsaw, if_pos rfl] at hanother
          subst hanother
          refine Meets.imp (ih true hl₃ hnodup) ?_
          rintro values' l' ⟨hl', hnodup', ⟨hfalse, _⟩ | ⟨key', v', fields, ts', rest, hv', hrest,
            rfl, rfl⟩⟩
          · cases hfalse
          · refine ⟨hl', hnodup', .inr ⟨key, v, (key', v') :: fields, ts, _, hv, .cons hv' hrest,
              ?_, ?_⟩⟩
            · rw [List.append_assoc]
              rfl
            · rw [hsplit]
              simp
        · rw [Bool.not_eq_true] at hsaw
          rw [hsaw, if_neg Bool.false_ne_true] at hanother
          subst hanother
          exact Meets.pure ⟨hl₃, hnodup, .inr ⟨key, v, [], ts, [], hv, .nil, rfl, hsplit⟩⟩
      cases htoken : t.token with
      | closeCurly =>
          refine Meets.ite (fun _ => Meets.throw trivial) fun hafter => ?_
          refine Meets.ite (fun _ => Meets.throw trivial) fun _ => Meets.pure ?_
          rw [htoken] at hl
          refine ⟨(hl.tail nofun).2, hvalues, .inl ⟨?_, rfl, rfl⟩⟩
          simpa using hafter
      | _ =>
          rw [htoken] at hround
          exact hround

theorem reads_parseObject (includer : Includer) {l : List Token} (hl : Regular l) :
    Meets Shows (parseObject .JSON includer read true) l
      (fun v l' => Regular l' ∧ ∃ ts, TokenValue ts v ∧ .openCurly :: l = ts ++ l') AnyError := by
  have hrounds : Meets Shows parseRounds l (fun _ l' => l' = l) AnyError :=
    fun s hs => ⟨l, hs, rfl⟩
  refine Meets.bind hrounds ?_
  rintro n _ rfl
  refine Meets.bind (reads_parseObjectLoop hread includer n false hl List.nodup_nil) ?_
  rintro values l' ⟨hl', hnodup, ⟨_, rfl, rfl⟩ | ⟨key, v, fields, ts, rest, hv, hrest, rfl, rfl⟩⟩
  · exact Meets.pure ⟨hl', _, .emptyObject, rfl⟩
  · exact Meets.pure ⟨hl', _, .object hv hrest hnodup, by simp⟩

omit hread in
theorem readsJson_parseValue (includer : Includer) (depth : ℕ) :
    ReadsJson (parseValue .JSON includer depth) := by
  induction depth with
  | zero => exact fun _ _ _ => Meets.throw trivial
  | succ depth ih =>
      intro t l hl
      unfold parseValue
      cases htoken : t.token with
      | value v =>
          rw [htoken] at hl
          exact Meets.pure ⟨(hl.tail (by simp)).2, _, .scalar v, rfl⟩
      | openCurly =>
          rw [htoken] at hl
          exact reads_parseObject ih includer (hl.tail (by simp)).2
      | openSquare =>
          rw [htoken] at hl
          exact reads_parseArray ih (hl.tail (by simp)).2
      | _ => exact Meets.throw trivial

end

-- The tokens of a document, newlines and comments apart.
def JsonTokens (doubles : Doubles) (input : Bytes) : List Token :=
  withoutNewlines (significant (tokenize doubles input .JSON)).tail

-- A value that starts with a bracket.
def Value.isContainer : Value Unit → Bool
  | .simpleConfigList _ _ | .simpleConfigObject _ _ _ => true
  | _ => false

theorem TokenValue.isContainer {t : Token} {ts : List Token} {v : Value Unit}
    (h : TokenValue (t :: ts) v) (ht : ∀ w, t ≠ .value w) : v.isContainer = true := by
  cases h with
  | scalar v => exact absurd rfl (ht v)
  | _ => rfl

theorem reads_parseDocument (includer : Includer) {l : List Token} (hl : Regular l) :
    Meets Shows (parseDocument .JSON includer) (.start :: l)
      (fun v _ => v.isContainer = true ∧ ∃ ts, TokenValue ts v ∧ l = ts ++ [.end_]) AnyError := by
  have hrounds : Meets Shows parseRounds (.start :: l) (fun _ l' => l' = .start :: l) AnyError :=
    fun s hs => ⟨_, hs, rfl⟩
  refine Meets.bind hrounds ?_
  rintro depth _ rfl
  have hread := readsJson_parseValue includer depth
  refine Meets.bind (reads_nextJson (.cons rfl hl)) ?_
  rintro t l₁ ⟨hsplit, _⟩
  obtain ⟨htoken, rfl⟩ := List.cons.inj hsplit
  simp only [← htoken]
  refine Meets.bind (reads_nextJson hl) ?_
  rintro t' l₂ ⟨rfl, _⟩
  -- the end comes after the value
  have hvalue : (∀ w, t'.token ≠ .value w) → Meets Shows
      (parseValue .JSON includer depth t' >>= finishDocument .JSON) l₂
      (fun v _ => v.isContainer = true ∧ ∃ ts, TokenValue ts v ∧ t'.token :: l₂ = ts ++ [.end_])
      AnyError := by
    intro hother
    refine Meets.bind (hread t' l₂ hl) ?_
    rintro v l₃ ⟨hl₃, ts, hv, hsplit⟩
    refine Meets.bind (reads_nextJson hl₃) ?_
    rintro t'' l₄ ⟨rfl, _⟩
    cases htoken : t''.token with
    | end_ =>
        rw [htoken] at hl₃ hsplit
        have hl₄ : l₄ = [] := by
          cases hl₃ with
          | last => rfl
          | cons h => cases h
        subst hl₄
        refine Meets.pure ⟨?_, ts, hv, hsplit⟩
        cases ts with
        | nil => cases hv
        | cons x ts =>
            obtain ⟨rfl, _⟩ := List.cons.inj hsplit
            exact hv.isContainer hother
    | _ => exact Meets.throw trivial
  cases htoken : t'.token with
  | openCurly =>
      rw [htoken] at hvalue
      exact hvalue (by simp)
  | openSquare =>
      rw [htoken] at hvalue
      exact hvalue (by simp)
  | _ => exact Meets.throw trivial

-- The tokens of a value are none that is refused.
def Token.isJson (t : Token) : Bool := t.isRegular && !t.isForeign && !t.isNewline

mutual

theorem TokenValue.isJson : ∀ {ts : List Token} {v : Value Unit}, TokenValue ts v →
    ∀ t ∈ ts, t.isJson = true
  | _, _, .scalar v => by simp [Token.isJson, Token.isRegular, Token.isForeign, Token.isNewline]
  | _, _, .emptyList => by decide
  | _, _, .list h hrest => by
      have hts := h.isJson
      have hmore := hrest.isJson
      intro t ht
      simp only [List.mem_cons, List.mem_append, List.not_mem_nil, or_false] at ht
      rcases ht with rfl | ht | ht | rfl
      · rfl
      · exact hts t ht
      · exact hmore t ht
      · rfl
  | _, _, .emptyObject => by decide
  | _, _, .object h hrest _ => by
      have hts := h.isJson
      have hmore := hrest.isJson
      intro t ht
      simp only [List.mem_cons, List.mem_append, List.not_mem_nil, or_false] at ht
      rcases ht with rfl | rfl | rfl | ht | ht | rfl
      · rfl
      · rfl
      · rfl
      · exact hts t ht
      · exact hmore t ht
      · rfl

theorem TokenElements.isJson : ∀ {ts : List Token} {vs : List (Value Unit)}, TokenElements ts vs →
    ∀ t ∈ ts, t.isJson = true
  | _, _, .nil => by nofun
  | _, _, .cons h hrest => by
      have hts := h.isJson
      have hmore := hrest.isJson
      intro t ht
      simp only [List.mem_cons, List.mem_append] at ht
      rcases ht with rfl | ht | ht
      · rfl
      · exact hts t ht
      · exact hmore t ht

theorem TokenMembers.isJson : ∀ {ts : List Token} {fields : Fields Unit}, TokenMembers ts fields →
    ∀ t ∈ ts, t.isJson = true
  | _, _, .nil => by nofun
  | _, _, .cons h hrest => by
      have hts := h.isJson
      have hmore := hrest.isJson
      intro t ht
      simp only [List.mem_cons, List.mem_append] at ht
      rcases ht with rfl | rfl | rfl | ht | ht
      · rfl
      · rfl
      · rfl
      · exact hts t ht
      · exact hmore t ht

end

theorem Regular.append {ts l : List Token} (hts : ∀ t ∈ ts, t.isJson = true) (hl : Regular l) :
    Regular (ts ++ l) := by
  induction ts with
  | nil => exact hl
  | cons t ts ih =>
      rw [List.forall_mem_cons] at hts
      have ht : t.isRegular = true := by
        have hjson := hts.1
        rw [Token.isJson, Bool.and_eq_true, Bool.and_eq_true] at hjson
        exact hjson.1.1
      exact .cons ht (ih hts.2)

-- What is a value is accepted.
section

def NoError : ConfigException → Prop := fun _ => False

theorem accepts_nextJson {t : Token} {l : List Token} (hl : Regular (t :: l))
    (ht : t.isForeign = false) :
    Meets Shows (nextTokenIgnoringNewline .JSON) (t :: l)
      (fun r l' => r.token = t ∧ l' = l ∧ r.token.isNewline = false) NoError := by
  refine Meets.raises (Meets.imp (meets_nextJson hl) ?_) ?_
  · rintro r l' ⟨hsplit, _, hnewline⟩
    obtain ⟨rfl, rfl⟩ := List.cons.inj hsplit
    exact ⟨rfl, rfl, hnewline⟩
  · rintro _ ⟨t', l', hsplit, hforeign⟩
    obtain ⟨rfl, _⟩ := List.cons.inj hsplit
    rw [ht] at hforeign
    cases hforeign

theorem accepts_comma {l : List Token} (hl : Regular l) :
    Meets Shows (checkElementSeparator .JSON) (.comma :: l)
      (fun another l' => another = true ∧ l' = l) NoError := by
  refine Meets.bind (accepts_nextJson (.cons rfl hl) rfl) ?_
  rintro t l' ⟨ht, rfl, _⟩
  simp only [ht]
  exact Meets.pure ⟨rfl, rfl⟩

-- A bracket is no separator.
theorem accepts_close {t : Token} (ht : t = .closeSquare ∨ t = .closeCurly) {l : List Token}
    (hl : Regular l) :
    Meets Shows (checkElementSeparator .JSON) (t :: l)
      (fun another l' => another = false ∧ l' = t :: l) NoError := by
  have hregular : Regular (t :: l) := by
    rcases ht with rfl | rfl
    · exact .cons rfl hl
    · exact .cons rfl hl
  have hforeign : t.isForeign = false := by
    rcases ht with rfl | rfl <;> rfl
  refine Meets.bind (accepts_nextJson hregular hforeign) ?_
  rintro r l' ⟨rfl, rfl, hnewline⟩
  have hputBack : Meets Shows (do
        putBackToken r
        return false : Parse Bool) l' (fun another l'' => another = false ∧ l'' = r.token :: l')
      NoError := by
    refine Meets.bind (meets_putBackJson hregular hnewline) ?_
    rintro _ _ rfl
    exact Meets.pure ⟨rfl, rfl⟩
  rcases ht with htoken | htoken
  · rw [htoken] at hputBack ⊢
    exact hputBack
  · rw [htoken] at hputBack ⊢
    exact hputBack

-- `read` takes every value of less than `bound` tokens.
def AcceptsJson (read : TokenWithComments → Parse (Value Unit)) (bound : ℕ) : Prop :=
  ∀ {t : TokenWithComments} {ts : List Token} {v : Value Unit} {l : List Token},
    TokenValue (t.token :: ts) v → ts.length < bound → Regular l →
    Meets Shows (read t) (ts ++ l) (fun v' l' => v' = v ∧ l' = l) NoError

theorem TokenValue.split {ts : List Token} {v : Value Unit} (h : TokenValue ts v) :
    ∃ t rest, ts = t :: rest ∧ startsElement t = true ∧ isCloseSquare t = false := by
  cases h <;> exact ⟨_, _, rfl, rfl, rfl⟩

variable {read : TokenWithComments → Parse (Value Unit)} {bound : ℕ}
  (hread : AcceptsJson read bound)

include hread

-- The first token of a value, and the value.
theorem accepts_value {ts : List Token} {v : Value Unit} (h : TokenValue ts v)
    (hbound : ts.length ≤ bound) {l : List Token} (hl : Regular l) :
    ∃ t rest, ts = t :: rest ∧ startsElement t = true ∧ isCloseSquare t = false ∧
      ∀ r : TokenWithComments, r.token = t →
        Meets Shows (read r) (rest ++ l) (fun v' l' => v' = v ∧ l' = l) NoError := by
  obtain ⟨t, rest, rfl, hstarts, hclose⟩ := h.split
  refine ⟨t, rest, rfl, hstarts, hclose, ?_⟩
  rintro r rfl
  rw [List.length_cons] at hbound
  exact hread h (by omega) hl

theorem accepts_parseArrayLoop (n : ℕ) {ts : List Token} {vs : List (Value Unit)}
    (h : TokenElements ts vs) (hn : ts.length < n) (hbound : ts.length ≤ bound) {l : List Token}
    (hl : Regular l) (values : List (Value Unit)) :
    Meets Shows (parseArrayLoop .JSON read n values) (ts ++ .closeSquare :: l)
      (fun values' l' => values' = values ++ vs ∧ l' = l) NoError := by
  induction n generalizing ts vs values with
  | zero => omega
  | succ n ih =>
      have hclosed : Regular (.closeSquare :: l) := .cons rfl hl
      cases h with
      | nil =>
          refine Meets.bind (accepts_close (.inl rfl) hl) ?_
          rintro _ _ ⟨rfl, rfl⟩
          refine Meets.bind (accepts_nextJson hclosed rfl) ?_
          rintro t l' ⟨ht, rfl, _⟩
          rw [ht]
          exact Meets.pure ⟨by rw [List.append_nil], rfl⟩
      | @cons ts rest v vs hv hrest =>
          rw [List.length_cons, List.length_append] at hn hbound
          have hmore : Regular (rest ++ .closeSquare :: l) := .append hrest.isJson hclosed
          obtain ⟨t, ts, rfl, hstarts, _, hvalue⟩ := accepts_value hread hv (by omega) hmore
          have hall : Regular (t :: ts ++ (rest ++ .closeSquare :: l)) := .append hv.isJson hmore
          rw [List.cons_append, List.append_assoc]
          refine Meets.bind (accepts_comma hall) ?_
          rintro _ _ ⟨rfl, rfl⟩
          refine Meets.bind (meets_consolidateJson read _) ?_
          rintro _ _ rfl
          refine Meets.bind (accepts_nextJson hall ?_) ?_
          · cases t <;> first | rfl | cases hstarts
          · rintro r _ ⟨hr, rfl, _⟩
            rw [hr, hstarts]
            refine Meets.bind (hvalue r hr) ?_
            rintro _ _ ⟨rfl, rfl⟩
            rw [List.length_cons] at hn hbound
            refine Meets.imp (ih hrest (by omega) (by omega) _) ?_
            rintro values' l' ⟨rfl, rfl⟩
            exact ⟨by rw [List.append_assoc]; rfl, rfl⟩

omit hread in
theorem accepts_parseRounds (l : List Token) :
    Meets Shows parseRounds l (fun n l' => l.length < n ∧ l' = l) NoError := by
  intro s hs
  refine ⟨l, hs, ?_, rfl⟩
  have hpending := congrArg List.length hs.pending
  have hnewlines := List.length_filter_le (fun t : Token => !t.isNewline) s.pending
  have hcomments := List.length_filter_le (fun t => !t.isComment) s.tokens
  have hlength : s.pending.length ≤ s.buffer.length + s.tokens.length := by
    rw [ParseContext.pending, List.length_append, List.length_map]
    omega
  rw [withoutNewlines] at hpending
  omega

theorem accepts_list {ts rest : List Token} {v : Value Unit} {vs : List (Value Unit)}
    (hv : TokenValue ts v) (hrest : TokenElements rest vs)
    (hbound : ts.length + rest.length ≤ bound) {l : List Token} (hl : Regular l) :
    Meets Shows (parseArray .JSON read) (ts ++ (rest ++ .closeSquare :: l))
      (fun v' l' => v' = .simpleConfigList () (v :: vs) ∧ l' = l) NoError := by
  have hclosed : Regular (.closeSquare :: l) := .cons rfl hl
  have hmore : Regular (rest ++ .closeSquare :: l) := .append hrest.isJson hclosed
  obtain ⟨t, ts, rfl, hstarts, hclose, hvalue⟩ := accepts_value hread hv (by omega) hmore
  have hall : Regular (t :: ts ++ (rest ++ .closeSquare :: l)) := .append hv.isJson hmore
  refine Meets.bind (meets_consolidateJson read _) ?_
  rintro _ _ rfl
  refine Meets.bind (accepts_nextJson hall ?_) ?_
  · cases t <;> first | rfl | cases hstarts
  · rintro r _ ⟨hr, rfl, _⟩
    rw [hr, hstarts, hclose]
    refine Meets.bind (hvalue r hr) ?_
    rintro _ _ ⟨rfl, rfl⟩
    refine Meets.bind (accepts_parseRounds _) ?_
    rintro n _ ⟨hn, rfl⟩
    rw [List.length_append] at hn
    refine Meets.bind (accepts_parseArrayLoop hread n hrest (by omega) (by omega) hl [_]) ?_
    rintro _ _ ⟨rfl, rfl⟩
    exact Meets.pure ⟨rfl, rfl⟩

omit hread in
theorem accepts_emptyList {l : List Token} (hl : Regular l) :
    Meets Shows (parseArray .JSON read) (.closeSquare :: l)
      (fun v' l' => v' = .simpleConfigList () [] ∧ l' = l) NoError := by
  refine Meets.bind (meets_consolidateJson read _) ?_
  rintro _ _ rfl
  refine Meets.bind (accepts_nextJson (.cons rfl hl) rfl) ?_
  rintro r _ ⟨hr, rfl, _⟩
  rw [hr]
  exact Meets.pure ⟨rfl, rfl⟩

-- A member is put behind the fields that are there.
theorem accepts_parseField {values : Fields Unit} {key : Bytes} {v : Value Unit}
    (hkey : key ∉ values.map Prod.fst) {ts : List Token} (hv : TokenValue ts v)
    (hbound : ts.length ≤ bound) {l : List Token} (hl : Regular l) {r : TokenWithComments}
    (hr : r.token = .value (.configString () key)) :
    Meets Shows (parseField .JSON read values r) (.colon :: (ts ++ l))
      (fun values' l' => values' = values ++ [(key, v)] ∧ l' = l) NoError := by
  obtain ⟨t, ts, rfl, hstarts, _, hvalue⟩ := accepts_value hread hv hbound hl
  have hall : Regular (t :: ts ++ l) := .append hv.isJson hl
  have hparseKey : parseKey .JSON r = pure (.newKey key) := by
    simp only [parseKey, hr]
  unfold parseField
  rw [hparseKey, pure_bind]
  refine Meets.bind (accepts_nextJson (.cons rfl hall) rfl) ?_
  rintro colon _ ⟨hcolon, rfl, _⟩
  have hpush : Meets Shows (pushPath (.newKey key)) (t :: ts ++ l)
      (fun _ l' => l' = t :: ts ++ l) NoError :=
    fun s hs => ⟨_, ⟨hs.regular, hs.pending⟩, rfl⟩
  refine Meets.bind hpush ?_
  rintro _ _ rfl
  have hfield : Meets Shows (parseFieldValue .JSON read colon) (t :: ts ++ l)
      (fun v' l' => v' = v ∧ l' = l) NoError := by
    unfold parseFieldValue
    rw [hcolon]
    refine Meets.bind (meets_consolidateJson read _) ?_
    rintro _ _ rfl
    refine Meets.bind (accepts_nextJson hall ?_) ?_
    · cases t <;> first | rfl | cases hstarts
    · rintro r' _ ⟨hr', rfl, _⟩
      exact hvalue r' hr'
  refine Meets.bind hfield ?_
  rintro v' l' ⟨hv', hl'⟩
  rw [hv', hl']
  have hpop : Meets Shows popPath l (fun _ l' => l' = l) NoError :=
    fun s hs => ⟨l, ⟨hs.regular, hs.pending⟩, rfl⟩
  refine Meets.bind hpop ?_
  rintro _ _ rfl
  have hlookup : values.lookup key = none := Entries.lookup_eq_none_iff.mpr hkey
  have hput : putField values key v = values ++ [(key, v)] := by
    rw [putField, hlookup]
    rfl
  unfold storeField
  dsimp only [Path.remainder, Path.first]
  rw [hlookup]
  exact Meets.pure ⟨hput, rfl⟩

omit hread in
theorem accepts_closeField_comma {l : List Token} (hl : Regular l) :
    Meets Shows (closeField .JSON true) (.comma :: l)
      (fun another l' => another = true ∧ l' = l) NoError := by
  refine Meets.bind (accepts_comma hl) ?_
  rintro _ _ ⟨rfl, rfl⟩
  exact Meets.pure ⟨rfl, rfl⟩

omit hread in
theorem accepts_closeField_curly {l : List Token} (hl : Regular l) :
    Meets Shows (closeField .JSON true) (.closeCurly :: l)
      (fun another l' => another = false ∧ l' = l) NoError := by
  refine Meets.bind (accepts_close (.inr rfl) hl) ?_
  rintro _ _ ⟨rfl, rfl⟩
  refine Meets.bind (accepts_nextJson (.cons rfl hl) rfl) ?_
  rintro r _ ⟨hr, rfl, _⟩
  rw [hr]
  exact Meets.pure ⟨rfl, rfl⟩

theorem accepts_parseObjectLoop (includer : Includer) (n : ℕ) (afterComma : Bool)
    {values : Fields Unit} {key : Bytes} {v : Value Unit} {fields : Fields Unit}
    {ts rest : List Token} (hv : TokenValue ts v) (hrest : TokenMembers rest fields)
    (hkeys : ((values ++ (key, v) :: fields).map Prod.fst).Nodup) (hn : rest.length < n)
    (hbound : ts.length + rest.length ≤ bound) {l : List Token} (hl : Regular l) :
    Meets Shows (parseObjectLoop .JSON includer read true n afterComma values)
      (.value (.configString () key) :: .colon :: (ts ++ (rest ++ .closeCurly :: l)))
      (fun values' l' => values' = values ++ (key, v) :: fields ∧ l' = l) NoError := by
  induction n generalizing afterComma values key v fields ts rest with
  | zero => omega
  | succ n ih =>
      have hclosed : Regular (.closeCurly :: l) := .cons rfl hl
      have hmore : Regular (rest ++ .closeCurly :: l) := .append hrest.isJson hclosed
      have hall : Regular (.colon :: (ts ++ (rest ++ .closeCurly :: l))) :=
        .cons rfl (.append hv.isJson hmore)
      have hkey : key ∉ values.map Prod.fst := by
        rw [List.map_append, List.nodup_append] at hkeys
        intro hmem
        exact hkeys.2.2 key hmem key (List.mem_map_of_mem List.mem_cons_self) rfl
      refine Meets.bind (accepts_nextJson (.cons rfl hall) rfl) ?_
      rintro r _ ⟨hr, rfl, _⟩
      rw [hr]
      refine Meets.bind (accepts_parseField hread hkey hv (by omega) hmore hr) ?_
      rintro _ _ ⟨rfl, rfl⟩
      cases hrest with
      | nil =>
          refine Meets.bind (accepts_closeField_curly hl) ?_
          rintro _ _ ⟨rfl, rfl⟩
          exact Meets.pure ⟨rfl, rfl⟩
      | @cons ts' rest' key' v' fields' hv' hrest' =>
          have hnext : Regular (.value (.configString () key') :: .colon ::
              (ts' ++ (rest' ++ .closeCurly :: l))) :=
            .cons rfl (.cons rfl (.append hv'.isJson (.append hrest'.isJson hclosed)))
          simp only [List.length_cons, List.length_append] at hn hbound
          simp only [List.cons_append, List.append_assoc]
          refine Meets.bind (accepts_closeField_comma hnext) ?_
          rintro _ _ ⟨rfl, rfl⟩
          have hkeys' : ((values ++ [(key, v)] ++ (key', v') :: fields').map Prod.fst).Nodup := by
            rw [List.append_assoc]
            exact hkeys
          refine Meets.imp (ih true hv' hrest' hkeys' (by omega) (by omega)) ?_
          rintro _ _ ⟨rfl, rfl⟩
          exact ⟨by rw [List.append_assoc]; rfl, rfl⟩

theorem accepts_object (includer : Includer) {ts rest : List Token} {key : Bytes} {v : Value Unit}
    {fields : Fields Unit} (hv : TokenValue ts v) (hrest : TokenMembers rest fields)
    (hkeys : (((key, v) :: fields).map Prod.fst).Nodup) (hbound : ts.length + rest.length ≤ bound)
    {l : List Token} (hl : Regular l) :
    Meets Shows (parseObject .JSON includer read true)
      (.value (.configString () key) :: .colon :: (ts ++ (rest ++ .closeCurly :: l)))
      (fun v' l' => v' = .simpleConfigObject () ((key, v) :: fields) false ∧ l' = l) NoError := by
  refine Meets.bind (accepts_parseRounds _) ?_
  rintro n _ ⟨hn, rfl⟩
  simp only [List.length_cons, List.length_append] at hn
  have hkeys' : ((([] : Fields Unit) ++ (key, v) :: fields).map Prod.fst).Nodup := hkeys
  refine Meets.bind (accepts_parseObjectLoop hread includer n false hv hrest hkeys' (by omega)
    hbound hl) ?_
  rintro _ _ ⟨rfl, rfl⟩
  exact Meets.pure ⟨rfl, rfl⟩

omit hread in
theorem accepts_emptyObject (includer : Includer) {l : List Token} (hl : Regular l) :
    Meets Shows (parseObject .JSON includer read true) (.closeCurly :: l)
      (fun v' l' => v' = .simpleConfigObject () [] false ∧ l' = l) NoError := by
  refine Meets.bind (accepts_parseRounds _) ?_
  rintro n _ ⟨hn, rfl⟩
  have hloop : Meets Shows (parseObjectLoop .JSON includer read true n false []) (.closeCurly :: l)
      (fun values l' => values = [] ∧ l' = l) NoError := by
    cases n with
    | zero => omega
    | succ n =>
        refine Meets.bind (accepts_nextJson (.cons rfl hl) rfl) ?_
        rintro r _ ⟨hr, rfl, _⟩
        rw [hr]
        exact Meets.pure ⟨rfl, rfl⟩
  refine Meets.bind hloop ?_
  rintro _ _ ⟨rfl, rfl⟩
  exact Meets.pure ⟨rfl, rfl⟩

omit hread in
theorem acceptsJson_parseValue (includer : Includer) (depth : ℕ) :
    AcceptsJson (parseValue .JSON includer depth) depth := by
  induction depth with
  | zero =>
      intro t ts v l h hbound
      omega
  | succ depth ih =>
      intro t ts v l h hbound hl
      unfold parseValue
      generalize t.token = token at h
      cases h with
      | scalar v => exact Meets.pure ⟨rfl, rfl⟩
      | emptyList => exact accepts_emptyList hl
      | list hv hrest =>
          simp only [List.length_append, List.length_singleton] at hbound
          simp only [List.append_assoc, List.singleton_append]
          exact accepts_list ih hv hrest (by omega) hl
      | emptyObject => exact accepts_emptyObject includer hl
      | object hv hrest hkeys =>
          simp only [List.length_cons, List.length_append, List.length_nil] at hbound
          simp only [List.cons_append, List.append_assoc, List.nil_append]
          exact accepts_object ih includer hv hrest hkeys (by omega) hl

end

theorem accepts_parseDocument (includer : Includer) {ts : List Token} {v : Value Unit}
    (h : TokenValue ts v) (hcontainer : ∀ w, ts.head? ≠ some (.value w)) :
    Meets Shows (parseDocument .JSON includer) (.start :: (ts ++ [.end_])) (fun v' _ => v' = v)
      NoError := by
  have hl : Regular (ts ++ [.end_]) := .append h.isJson .last
  refine Meets.bind (accepts_parseRounds _) ?_
  rintro depth _ ⟨hdepth, rfl⟩
  simp only [List.length_cons, List.length_append, List.length_nil] at hdepth
  obtain ⟨t, rest, rfl, hstarts, _, hvalue⟩ :=
    accepts_value (acceptsJson_parseValue includer depth) h (by omega) .last
  refine Meets.bind (accepts_nextJson (.cons rfl hl) rfl) ?_
  rintro r _ ⟨hr, rfl, _⟩
  simp only [hr]
  refine Meets.bind (accepts_nextJson hl ?_) ?_
  · cases t <;> first | rfl | cases hstarts
  · rintro r' _ ⟨hr', rfl, _⟩
    have hrest : Meets Shows (parseValue .JSON includer depth r' >>= finishDocument .JSON)
        (rest ++ [.end_]) (fun v' _ => v' = v) NoError := by
      refine Meets.bind (hvalue r' hr') ?_
      rintro _ _ ⟨rfl, rfl⟩
      refine Meets.bind (accepts_nextJson .last rfl) ?_
      rintro r'' _ ⟨hr'', rfl, _⟩
      rw [hr'']
      exact Meets.pure rfl
    rw [hr']
    cases t with
    | value w => exact absurd rfl (hcontainer w)
    | openCurly => exact hrest
    | openSquare => exact hrest
    | _ => cases hstarts

section

variable (doubles : Doubles) (includer : Includer) (input : Bytes)

theorem tokenize_shows : Regular (JsonTokens doubles input) ∧
    Shows { tokens := tokenize doubles input .JSON, buffer := [], pathStack := [] }
      (.start :: JsonTokens doubles input) := by
  obtain ⟨hdocument, l, hl⟩ := tokenize_document doubles input .JSON
  have hregular := hdocument.regular
  rw [hl] at hregular
  have htail : JsonTokens doubles input = withoutNewlines l := by
    rw [JsonTokens, hl, List.tail_cons]
  rw [htail]
  refine ⟨(hregular.tail nofun).2.withoutNewlines, .inr hdocument.regular, ?_⟩
  have hpending : ParseContext.pending
      { tokens := tokenize doubles input .JSON, buffer := [], pathStack := [] } = .start :: l := hl
  rw [hpending]
  exact withoutNewlines_cons rfl l

variable {doubles includer input}

-- What is parsed is the value of the tokens, up to the end.
theorem parse_json_tokens {v : Value Unit} (h : parse doubles includer .JSON input = .ok v) :
    v.isContainer = true ∧ ∃ ts, TokenValue ts v ∧ JsonTokens doubles input = ts ++ [.end_] := by
  obtain ⟨hregular, hshows⟩ := tokenize_shows doubles input
  have hmeets := reads_parseDocument includer hregular _ hshows
  unfold parse at h
  split at h
  · rename_i v' s' hrun
    obtain rfl := Except.ok.inj h
    rw [hrun] at hmeets
    obtain ⟨_, _, hresult⟩ := hmeets
    exact hresult
  · cases h

theorem parse_json_of_tokens {ts : List Token} {v : Value Unit} (h : TokenValue ts v)
    (hcontainer : ∀ w, ts.head? ≠ some (.value w)) (hts : JsonTokens doubles input = ts ++ [.end_]) :
    parse doubles includer .JSON input = .ok v := by
  have hshows := (tokenize_shows doubles input).2
  rw [hts] at hshows
  have hmeets := accepts_parseDocument includer h hcontainer _ hshows
  unfold parse
  split
  · rename_i v' s' hrun
    rw [hrun] at hmeets
    obtain ⟨_, _, rfl⟩ := hmeets
    rfl
  · rename_i e s' hrun
    rw [hrun] at hmeets
    exact hmeets.elim

end

end AsrServiceProxy.Config

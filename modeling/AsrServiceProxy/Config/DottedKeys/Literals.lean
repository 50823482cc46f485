import AsrServiceProxy.Config.DottedKeys
import AsrServiceProxy.Config.Json.Tokens

-- The literals: values and texts next to one another, and lists and objects as JSON
-- writes them.
namespace AsrServiceProxy.Config

open CMemory Simulation

-- What a value or some text is in a concatenation.
def Token.piece : Token → Value Unit
  | .value v => v
  | .unquotedText text => .configString () text
  | _ => .configNull ()

section

variable {l rest : List Token} {p : List Path} {read : TokenWithComments → Parse (Value Unit)}

theorem returns_piecesLoop (pieces : List Token) (hpieces : ∀ t ∈ pieces, t.isKey = true)
    {stop : Token} (hstop : endsValue stop = true) (h : Regular (stop :: rest))
    {r : TokenWithComments} (hr : r.token :: l = pieces ++ stop :: rest) (n : ℕ)
    (hn : pieces.length < n) (values : List (Value Unit)) :
    Succeeds Stands (piecesLoop .CONF read n r values) (l, p)
      (fun vs g => vs = values ++ pieces.map Token.piece ∧ g = (stop :: rest, p)) := by
  induction pieces generalizing r l n values with
  | nil =>
      obtain ⟨rfl, rfl⟩ := List.cons.inj hr
      obtain ⟨n, rfl⟩ : ∃ m, n = m + 1 := ⟨n - 1, by omega⟩
      have hnone : pieceOf read r = pure none := by
        unfold pieceOf
        cases htoken : r.token <;> first | rfl | (rw [htoken] at hstop; cases hstop)
      unfold piecesLoop
      rw [hnone, pure_bind]
      refine Succeeds.bind (returns_putBackToken r l p) ?_
      rintro _ _ rfl
      exact Succeeds.pure ⟨(List.append_nil values).symm, rfl⟩
  | cons t pieces ih =>
      obtain ⟨rfl, rfl⟩ := List.cons.inj hr
      obtain ⟨ht, hpieces⟩ := List.forall_mem_cons.mp hpieces
      rw [List.length_cons] at hn
      obtain ⟨n, rfl⟩ : ∃ m, n = m + 1 := ⟨n - 1, by omega⟩
      have hpiece : pieceOf read r = pure (some r.token.piece) := by
        unfold pieceOf
        cases htoken : r.token <;> first | rfl | (rw [htoken] at ht; cases ht)
      have hregular : Regular (pieces ++ stop :: rest) :=
        h.append_left fun t ht => Token.isRegular_of_isKey (hpieces t ht)
      obtain ⟨y, l', hsplit, hy⟩ : ∃ y l', pieces ++ stop :: rest = y :: l' ∧
          y.isProblem = false := by
        cases pieces with
        | nil => exact ⟨stop, rest, rfl, by cases stop <;> first | rfl | cases hstop⟩
        | cons y pieces =>
            exact ⟨y, _, rfl, Token.isProblem_of_isKey (hpieces y (List.mem_cons_self ..))⟩
      unfold piecesLoop
      rw [hpiece, pure_bind]
      have hnext : Succeeds Stands (nextToken .CONF) (pieces ++ stop :: rest, p)
          (fun r g => r.token :: l' = pieces ++ stop :: rest ∧ g = (l', p)) := by
        rw [hsplit] at hregular ⊢
        refine Succeeds.imp (returns_nextToken hregular hy) ?_
        rintro r' _ ⟨rfl, rfl⟩
        exact ⟨rfl, rfl⟩
      refine Succeeds.bind hnext ?_
      rintro r' _ ⟨hr', rfl⟩
      refine Succeeds.imp (ih hpieces hr' n (by omega) (values ++ [r.token.piece])) ?_
      rintro vs g ⟨hvs, hg⟩
      exact ⟨by rw [hvs, List.append_assoc]; rfl, hg⟩

end

-- The value that was put back is read.
theorem returns_consolidated {includer : Includer} {depth : ℕ} (hdepth : 0 < depth)
    {l rest : List Token} {v : Value Unit} {stop : Token} {p : List Path}
    (h : Regular (stop :: rest))
    (hconsolidate : Succeeds Stands (consolidateValueTokens .CONF (parseValue .CONF includer depth))
      (l, p) (fun _ g => g = (.value v :: stop :: rest, p))) :
    Succeeds Stands (do
      consolidateValueTokens .CONF (parseValue .CONF includer depth)
      parseValue .CONF includer depth (← nextTokenIgnoringNewline .CONF)) (l, p)
      (fun w g => w = v ∧ g = (stop :: rest, p)) := by
  obtain ⟨depth, rfl⟩ : ∃ d, depth = d + 1 := ⟨depth - 1, by omega⟩
  refine Succeeds.bind hconsolidate ?_
  rintro _ _ rfl
  refine Succeeds.bind (returns_next (.cons rfl h) nofun rfl) ?_
  rintro r _ ⟨hr, rfl⟩
  rw [parseValue, hr]
  exact Succeeds.pure ⟨rfl, rfl⟩

-- Values and texts next to one another are their concatenation.
def Literal.ofPieces (pieces : List Token) (v : Value Unit) (hne : pieces ≠ [])
    (hpieces : ∀ t ∈ pieces, t.isKey = true) (hresolved : v.resolved = true)
    (hv : concatenate .plain (pieces.map Token.piece) () = .ok (some v) ()) : Literal where
  tokens := pieces
  value := v
  resolved := hresolved
  reads := by
    intro includer depth stop rest p hdepth hstop h
    obtain ⟨x, more, rfl⟩ := List.exists_cons_of_ne_nil hne
    have hx := hpieces x (List.mem_cons_self ..)
    have hend : Regular (stop :: rest) := h.suffix ⟨x :: more, rfl⟩ (List.cons_ne_nil _ _)
    have hne : x ≠ .newline := by
      rintro rfl
      exact absurd hx nofun
    have hconsolidate : Succeeds Stands
        (consolidateValueTokens .CONF (parseValue .CONF includer depth))
        (x :: more ++ stop :: rest, p) (fun _ g => g = (.value v :: stop :: rest, p)) := by
      unfold consolidateValueTokens
      refine Succeeds.bind (returns_next h hne (Token.isProblem_of_isKey hx)) ?_
      rintro r _ ⟨hr, rfl⟩
      refine Succeeds.bind (returns_parseRounds _ _) ?_
      rintro n _ ⟨hn, rfl⟩
      have hlength : (x :: more).length < n := by
        change (more ++ stop :: rest).length < n at hn
        simp only [List.length_append, List.length_cons] at hn ⊢
        omega
      refine Succeeds.bind (returns_piecesLoop (x :: more) hpieces hstop hend
        (by rw [hr]; rfl) n hlength []) ?_
      rintro vs _ ⟨rfl, rfl⟩
      have hmake : Succeeds Stands (ofMake (concatenate .plain ((x :: more).map Token.piece)))
          (stop :: rest, p) (fun w g => w = some v ∧ g = (stop :: rest, p)) := by
        intro s hs
        exact ⟨some v, s, _, by rw [ofMake, hv], hs, rfl, rfl⟩
      refine Succeeds.bind hmake ?_
      rintro _ _ ⟨rfl, rfl⟩
      exact returns_putBackToken _ _ _
    exact returns_consolidated (Nat.zero_lt_of_lt hdepth) hend hconsolidate

-- The tokens are one piece of a concatenation, from their first one on.
def ReadsPiece (read : TokenWithComments → Parse (Value Unit)) (ts : List Token)
    (v : Value Unit) : Prop :=
  ∃ head tail, ts = head :: tail ∧ startsElement head = true ∧
    ∀ (r : TokenWithComments) (rest : List Token) (p : List Path), r.token = head →
      Regular (ts ++ rest) →
      Succeeds Stands (pieceOf read r) (tail ++ rest, p) (fun w g => w = some v ∧ g = (rest, p))

theorem startsElement_next {t : Token} (h : startsElement t = true) :
    t ≠ .newline ∧ t.isProblem = false := by
  cases t <;> first | (cases h; done) | exact ⟨nofun, rfl⟩

theorem endsValue_next {t : Token} (h : endsValue t = true) : t.isProblem = false := by
  cases t <;> first | (cases h; done) | rfl

theorem pieceOf_endsValue {read : TokenWithComments → Parse (Value Unit)} {r : TokenWithComments}
    (h : endsValue r.token = true) : pieceOf read r = pure none := by
  unfold pieceOf
  cases htoken : r.token <;> first | rfl | (rw [htoken] at h; cases h)

section

variable {read : TokenWithComments → Parse (Value Unit)} {ts rest : List Token} {v : Value Unit}
  {stop : Token} {p : List Path}

theorem readsPiece_value (v : Value Unit) : ReadsPiece read [.value v] v := by
  refine ⟨.value v, [], rfl, rfl, ?_⟩
  intro r rest p hr h
  rw [pieceOf, hr]
  exact Succeeds.pure ⟨rfl, rfl⟩

-- The value that is put back instead of the tokens.
theorem returns_consolidate (hread : ReadsPiece read ts v) (hstop : endsValue stop = true)
    (h : Regular (ts ++ stop :: rest)) :
    Succeeds Stands (consolidateValueTokens .CONF read) (ts ++ stop :: rest, p)
      (fun _ g => g = (.value v :: stop :: rest, p)) := by
  obtain ⟨head, tail, rfl, hstarts, hread⟩ := hread
  obtain ⟨hne, hproblem⟩ := startsElement_next hstarts
  have hend : Regular (stop :: rest) := h.suffix ⟨head :: tail, rfl⟩ (List.cons_ne_nil _ _)
  unfold consolidateValueTokens
  refine Succeeds.bind (returns_next h hne hproblem) ?_
  rintro r _ ⟨hr, rfl⟩
  refine Succeeds.bind (returns_parseRounds _ _) ?_
  rintro n _ ⟨hn, rfl⟩
  have hpieces : Succeeds Stands (piecesLoop .CONF read n r []) (tail ++ stop :: rest, p)
      (fun vs g => vs = [v] ∧ g = (stop :: rest, p)) := by
    change (tail ++ stop :: rest).length < n at hn
    rw [List.length_append, List.length_cons] at hn
    obtain ⟨n, rfl⟩ : ∃ m, n = m + 2 := ⟨n - 2, by omega⟩
    unfold piecesLoop
    refine Succeeds.bind (hread r (stop :: rest) p hr h) ?_
    rintro _ _ ⟨rfl, rfl⟩
    refine Succeeds.bind (returns_nextToken hend (endsValue_next hstop)) ?_
    rintro r' _ ⟨rfl, rfl⟩
    unfold piecesLoop
    rw [pieceOf_endsValue hstop, pure_bind]
    refine Succeeds.bind (returns_putBackToken r' rest p) ?_
    rintro _ _ rfl
    exact Succeeds.pure ⟨rfl, rfl⟩
  refine Succeeds.bind hpieces ?_
  rintro _ _ ⟨rfl, rfl⟩
  have hmake : Succeeds Stands (ofMake (concatenate .plain [v])) (stop :: rest, p)
      (fun w g => w = some v ∧ g = (stop :: rest, p)) :=
    fun s hs => ⟨some v, s, _, rfl, hs, rfl, rfl⟩
  refine Succeeds.bind hmake ?_
  rintro _ _ ⟨rfl, rfl⟩
  exact returns_putBackToken _ _ _

-- A bracket or a brace that is no value is left where it is.
theorem returns_consolidate_none (hstop : endsValue stop = true) (hne : stop ≠ .newline)
    (h : Regular (stop :: rest)) :
    Succeeds Stands (consolidateValueTokens .CONF read) (stop :: rest, p)
      (fun _ g => g = (stop :: rest, p)) := by
  unfold consolidateValueTokens
  refine Succeeds.bind (returns_next h hne (endsValue_next hstop)) ?_
  rintro r _ ⟨rfl, rfl⟩
  refine Succeeds.bind (returns_parseRounds _ _) ?_
  rintro n _ ⟨hn, rfl⟩
  obtain ⟨n, rfl⟩ : ∃ m, n = m + 1 := ⟨n - 1, by omega⟩
  have hpieces : Succeeds Stands (piecesLoop .CONF read (n + 1) r []) (rest, p)
      (fun vs g => vs = [] ∧ g = (r.token :: rest, p)) := by
    unfold piecesLoop
    rw [pieceOf_endsValue hstop, pure_bind]
    refine Succeeds.bind (returns_putBackToken r rest p) ?_
    rintro _ _ rfl
    exact Succeeds.pure ⟨rfl, rfl⟩
  refine Succeeds.bind hpieces ?_
  rintro _ _ ⟨rfl, rfl⟩
  exact Succeeds.pure rfl

variable (hvalue : ∀ (r : TokenWithComments) (v : Value Unit), r.token = .value v → read r = pure v)

theorem returns_arrayEnd (values : List (Value Unit)) (n : ℕ) (h : Regular (.closeSquare :: rest)) :
    Succeeds Stands (parseArrayLoop .CONF read (n + 1) values) (.closeSquare :: rest, p)
      (fun vs g => vs = values ∧ g = (rest, p)) := by
  unfold parseArrayLoop
  refine Succeeds.bind (returns_separator_other (by simp) (by simp) rfl h) ?_
  rintro _ _ ⟨rfl, rfl⟩
  refine Succeeds.bind (returns_next h (by simp) rfl) ?_
  rintro r _ ⟨hr, rfl⟩
  rw [hr]
  exact Succeeds.pure ⟨rfl, rfl⟩

include hvalue

-- An element with its comma, and the rest of the list.
theorem returns_arrayElement (hread : ReadsPiece read ts v) (hstop : endsValue stop = true)
    (h : Regular (.comma :: (ts ++ stop :: rest))) (values : List (Value Unit)) (n : ℕ)
    {post : List (Value Unit) → List Token × List Path → Prop}
    (hrest : Succeeds Stands (parseArrayLoop .CONF read n (values ++ [v])) (stop :: rest, p) post) :
    Succeeds Stands (parseArrayLoop .CONF read (n + 1) values) (.comma :: (ts ++ stop :: rest), p)
      post := by
  have hinner := (h.tail (by simp)).2
  have hend : Regular (stop :: rest) := hinner.suffix ⟨ts, rfl⟩ (List.cons_ne_nil _ _)
  unfold parseArrayLoop
  refine Succeeds.bind (returns_separator_comma 0 h) ?_
  rintro _ _ ⟨rfl, rfl⟩
  refine Succeeds.bind (returns_consolidate hread hstop hinner) ?_
  rintro _ _ rfl
  refine Succeeds.bind (returns_next (.cons rfl hend) (by simp) rfl) ?_
  rintro r _ ⟨hr, rfl⟩
  have hstarts : startsElement r.token = true := by rw [hr]; rfl
  rw [hstarts, hvalue r v hr, if_pos rfl, pure_bind]
  exact hrest

theorem returns_array (hread : ReadsPiece read ts v) (hstop : endsValue stop = true)
    (h : Regular (ts ++ stop :: rest)) {vs : List (Value Unit)} {g : List Token × List Path}
    (hrest : ∀ n, (stop :: rest).length < n →
      Succeeds Stands (parseArrayLoop .CONF read n [v]) (stop :: rest, p)
        (fun w g' => w = vs ∧ g' = g)) :
    Succeeds Stands (parseArray .CONF read) (ts ++ stop :: rest, p)
      (fun w g' => w = .simpleConfigList () vs ∧ g' = g) := by
  have hend : Regular (stop :: rest) := h.suffix ⟨ts, rfl⟩ (List.cons_ne_nil _ _)
  unfold parseArray
  refine Succeeds.bind (returns_consolidate hread hstop h) ?_
  rintro _ _ rfl
  refine Succeeds.bind (returns_next (.cons rfl hend) nofun rfl) ?_
  rintro r _ ⟨hr, rfl⟩
  have hclose : isCloseSquare r.token = false := by rw [hr]; rfl
  have hstarts : startsElement r.token = true := by rw [hr]; rfl
  rw [hclose, if_neg Bool.false_ne_true, hstarts, if_pos rfl, hvalue r v hr, pure_bind]
  refine Succeeds.bind (returns_parseRounds _ _) ?_
  rintro n _ ⟨hn, rfl⟩
  refine Succeeds.bind (hrest n hn) ?_
  rintro _ _ ⟨rfl, rfl⟩
  exact Succeeds.pure ⟨rfl, rfl⟩

omit hvalue in
theorem returns_emptyArray (h : Regular (.closeSquare :: rest)) :
    Succeeds Stands (parseArray .CONF read) (.closeSquare :: rest, p)
      (fun w g => w = .simpleConfigList () [] ∧ g = (rest, p)) := by
  unfold parseArray
  refine Succeeds.bind (returns_consolidate_none rfl nofun h) ?_
  rintro _ _ rfl
  refine Succeeds.bind (returns_next h nofun rfl) ?_
  rintro r _ ⟨hr, rfl⟩
  rw [hr]
  exact Succeeds.pure ⟨rfl, rfl⟩

end

def SpelledKey.quoted (key : Bytes) : SpelledKey where
  tokens := [.value (.configString () key)]
  path := .newKey key
  spells := parsePathExpression_key key
  isKey := by simp [Token.isKey]
  notInclude := by simp [isIncludeKeyword]

section

variable {includer : Includer} {read : TokenWithComments → Parse (Value Unit)}
  {ts rest : List Token} {v : Value Unit} {stop : Token} {p : List Path}

-- A member with a new key, and the rest of the object.
theorem returns_member
    (hvalue : ∀ (r : TokenWithComments) (v : Value Unit), r.token = .value v → read r = pure v)
    (hread : ReadsPiece read ts v) (hstop : endsValue stop = true) {key : Bytes}
    (h : Regular (.value (.configString () key) :: .colon :: (ts ++ stop :: rest)))
    {values : Fields Unit} (hnew : key ∉ values.map Prod.fst) (afterComma : Bool) (n : ℕ)
    {post : Fields Unit → List Token × List Path → Prop}
    (hrest : Succeeds Stands (do
      if ← closeField .CONF true then
        parseObjectLoop .CONF includer read true n true (values ++ [(key, v)])
      else return values ++ [(key, v)]) (stop :: rest, p) post) :
    Succeeds Stands (parseObjectLoop .CONF includer read true (n + 1) afterComma values)
      (.value (.configString () key) :: .colon :: (ts ++ stop :: rest), p) post := by
  have hcolon := (h.tail nofun).2
  have hinner := (hcolon.tail nofun).2
  have hend : Regular (stop :: rest) := hinner.suffix ⟨ts, rfl⟩ (List.cons_ne_nil _ _)
  have hvalue' (r : TokenWithComments) (hr : r.token = .colon) :
      Succeeds Stands (parseFieldValue .CONF read r)
        (ts ++ stop :: rest, (SpelledKey.quoted key).path :: p)
        (fun w g => w = v ∧ g = (stop :: rest, (SpelledKey.quoted key).path :: p)) := by
    unfold parseFieldValue
    rw [hr]
    refine Succeeds.bind (returns_consolidate hread hstop hinner) ?_
    rintro _ _ rfl
    refine Succeeds.bind (returns_next (.cons rfl hend) nofun rfl) ?_
    rintro r' _ ⟨hr', rfl⟩
    rw [hvalue r' v hr']
    exact Succeeds.pure ⟨rfl, rfl⟩
  have hstore : Succeeds Stands (storeField .CONF values (SpelledKey.quoted key).path v)
      (stop :: rest, p) (fun vs g => vs = values ++ [(key, v)] ∧ g = (stop :: rest, p)) := by
    obtain ⟨hlookup, hput⟩ := putField_new hnew v
    have heq : storeField .CONF values (SpelledKey.quoted key).path v =
        pure (values ++ [(key, v)]) := by
      simp [storeField, SpelledKey.quoted, Path.remainder, Path.first, hlookup, hput]
    rw [heq]
    exact Succeeds.pure ⟨rfl, rfl⟩
  apply returns_round 0 n afterComma h rfl
  intro r hr
  have htaken : r.token :: .colon :: (ts ++ stop :: rest) =
      (SpelledKey.quoted key).tokens ++ .colon :: (ts ++ stop :: rest) := by
    rw [hr]
    rfl
  have hkeyword : isIncludeKeyword r.token = false := by
    rw [hr]
    rfl
  rw [readField, hkeyword]
  refine Succeeds.bind (returns_parseField (.quoted key) rfl rfl (by simp) hcolon htaken hvalue'
    hstore) ?_
  rintro _ _ ⟨rfl, rfl⟩
  exact hrest

theorem returns_emptyObject (h : Regular (.closeCurly :: rest)) :
    Succeeds Stands (parseObject .CONF includer read true) (.closeCurly :: rest, p)
      (fun w g => w = .simpleConfigObject () [] false ∧ g = (rest, p)) := by
  apply returns_parseObject
  intro n _
  refine Succeeds.imp (returns_noField 0 n false rfl h) ?_
  rintro _ _ ⟨rfl, rfl⟩
  exact ⟨rfl, rfl⟩

end

-- What comes after an element or a member.
theorem TokenElements.stop {more : List Token} {vs : List (Value Unit)} (h : TokenElements more vs)
    (rest : List Token) :
    ∃ stop tail, more ++ .closeSquare :: rest = stop :: tail ∧ endsValue stop = true := by
  cases h with
  | nil => exact ⟨.closeSquare, rest, rfl, rfl⟩
  | cons => exact ⟨.comma, _, rfl, rfl⟩

theorem TokenMembers.stop {more : List Token} {fields : Fields Unit} (h : TokenMembers more fields)
    (rest : List Token) :
    ∃ stop tail, more ++ .closeCurly :: rest = stop :: tail ∧ endsValue stop = true := by
  cases h with
  | nil => exact ⟨.closeCurly, rest, rfl, rfl⟩
  | cons => exact ⟨.comma, _, rfl, rfl⟩

theorem parseValue_value (includer : Includer) (depth : ℕ) (r : TokenWithComments) (v : Value Unit)
    (h : r.token = .value v) : parseValue .CONF includer (depth + 1) r = pure v := by
  rw [parseValue, h]

-- A list or an object is a piece when its parts are.
theorem readsPiece_open {includer : Includer} {depth : ℕ} {head : Token} {tail : List Token}
    {v : Value Unit} (hopen : head = .openSquare ∨ head = .openCurly)
    (hread : ∀ (r : TokenWithComments) (rest : List Token) (p : List Path), r.token = head →
      Regular (head :: tail ++ rest) →
      Succeeds Stands (parseValue .CONF includer depth r) (tail ++ rest, p)
        (fun w g => w = v ∧ g = (rest, p))) :
    ReadsPiece (parseValue .CONF includer depth) (head :: tail) v := by
  refine ⟨head, tail, rfl, by rcases hopen with rfl | rfl <;> rfl, ?_⟩
  intro r rest p hr h
  have hpiece : pieceOf (parseValue .CONF includer depth) r =
      (do return some (← parseValue .CONF includer depth r)) := by
    rcases hopen with rfl | rfl <;> simp only [pieceOf, hr]
  rw [hpiece]
  refine Succeeds.bind (hread r rest p hr h) ?_
  rintro v _ ⟨rfl, rfl⟩
  exact Succeeds.pure ⟨rfl, rfl⟩

section

variable (includer : Includer)

mutual

theorem readsPiece_tokenValue : ∀ {ts : List Token} {v : Value Unit}, TokenValue ts v →
    ∀ depth, ts.length ≤ depth → ReadsPiece (parseValue .CONF includer depth) ts v
  | _, _, .scalar v, _, _ => readsPiece_value v
  | _, _, .emptyList, depth, hdepth => by
      obtain ⟨depth, rfl⟩ : ∃ d, depth = d + 1 := ⟨depth - 1, by simp at hdepth; omega⟩
      refine readsPiece_open (.inl rfl) ?_
      intro r rest p hr h
      rw [parseValue, hr]
      exact returns_emptyArray (h.tail nofun).2
  | _, _, @TokenValue.list ts more v vs hv hvs, depth, hdepth => by
      simp only [List.length_cons, List.length_append, List.length_nil] at hdepth
      obtain ⟨depth, rfl⟩ : ∃ d, depth = d + 2 := ⟨depth - 2, by omega⟩
      refine readsPiece_open (.inl rfl) ?_
      intro r rest p hr h
      have hfirst := readsPiece_tokenValue hv (depth + 1) (by omega)
      obtain ⟨stop, tail, hsplit, hstop⟩ := hvs.stop rest
      have hlist : ts ++ (more ++ [.closeSquare]) ++ rest = ts ++ stop :: tail := by
        rw [← hsplit]
        simp
      have hinner : Regular (ts ++ (more ++ [.closeSquare]) ++ rest) := (h.tail nofun).2
      rw [hlist] at hinner ⊢
      have hmore := hinner.suffix ⟨ts, rfl⟩ (List.cons_ne_nil _ _)
      rw [parseValue, hr]
      refine returns_array (parseValue_value includer depth) hfirst hstop hinner ?_
      intro n hn
      rw [← hsplit] at hn hmore ⊢
      refine returns_elements hvs (depth + 1) (by omega) (by omega) n [v] rest p ?_ hmore
      rw [List.length_append] at hn
      omega
  | _, _, .emptyObject, depth, hdepth => by
      obtain ⟨depth, rfl⟩ : ∃ d, depth = d + 1 := ⟨depth - 1, by simp at hdepth; omega⟩
      refine readsPiece_open (.inr rfl) ?_
      intro r rest p hr h
      rw [parseValue, hr]
      exact returns_emptyObject (h.tail nofun).2
  | _, _, @TokenValue.object ts more key v fields hv hfields hkeys, depth, hdepth => by
      simp only [List.length_cons, List.length_append, List.length_nil] at hdepth
      obtain ⟨depth, rfl⟩ : ∃ d, depth = d + 2 := ⟨depth - 2, by omega⟩
      refine readsPiece_open (.inr rfl) ?_
      intro r rest p hr h
      have hfirst := readsPiece_tokenValue hv (depth + 1) (by omega)
      obtain ⟨stop, tail, hsplit, hstop⟩ := hfields.stop rest
      have hlist : .value (.configString () key) :: .colon :: (ts ++ (more ++ [.closeCurly])) ++
          rest = .value (.configString () key) :: .colon :: (ts ++ stop :: tail) := by
        rw [← hsplit]
        simp
      have hinner : Regular (.value (.configString () key) :: .colon ::
        (ts ++ (more ++ [.closeCurly])) ++ rest) := (h.tail nofun).2
      rw [hlist] at hinner ⊢
      have hmore := ((hinner.tail nofun).2.tail nofun).2.suffix ⟨ts, rfl⟩ (List.cons_ne_nil _ _)
      rw [parseValue, hr]
      refine Succeeds.bind (returns_parseRounds _ _) ?_
      rintro n _ ⟨hn, rfl⟩
      obtain ⟨n, rfl⟩ : ∃ m, n = m + 1 := ⟨n - 1, by omega⟩
      have hrest := returns_members hfields (depth + 1) (by omega) (by omega) n [(key, v)] rest p
      rw [hsplit] at hrest
      have hlength : more.length < n := by
        have hlength := congrArg List.length hsplit
        simp only [List.length_append, List.length_cons] at hn hlength
        omega
      refine Succeeds.bind (returns_member (parseValue_value includer depth) hfirst hstop hinner
        List.not_mem_nil false n (hrest hlength hkeys hmore)) ?_
      rintro _ _ ⟨rfl, rfl⟩
      exact Succeeds.pure ⟨rfl, rfl⟩

theorem returns_elements : ∀ {ts : List Token} {vs : List (Value Unit)}, TokenElements ts vs →
    ∀ depth, ts.length ≤ depth → 0 < depth → ∀ (n : ℕ) (values : List (Value Unit))
    (rest : List Token) (p : List Path), ts.length < n → Regular (ts ++ .closeSquare :: rest) →
    Succeeds Stands (parseArrayLoop .CONF (parseValue .CONF includer depth) n values)
      (ts ++ .closeSquare :: rest, p) (fun w g => w = values ++ vs ∧ g = (rest, p))
  | _, _, .nil, depth, _, _, n, values, rest, p, hn, h => by
      obtain ⟨n, rfl⟩ : ∃ m, n = m + 1 := ⟨n - 1, by omega⟩
      rw [List.append_nil]
      exact returns_arrayEnd values n h
  | _, _, @TokenElements.cons ts more v vs hv hvs, depth, hdepth, hpos, n, values, rest, p, hn,
      h => by
      simp only [List.length_cons, List.length_append] at hdepth hn
      obtain ⟨n, rfl⟩ : ∃ m, n = m + 1 := ⟨n - 1, by omega⟩
      obtain ⟨depth, rfl⟩ : ∃ d, depth = d + 1 := ⟨depth - 1, by omega⟩
      have hread := readsPiece_tokenValue hv (depth + 1) (by omega)
      obtain ⟨stop, tail, hsplit, hstop⟩ := hvs.stop rest
      have hlist : .comma :: (ts ++ more) ++ .closeSquare :: rest =
          Token.comma :: (ts ++ stop :: tail) := by
        rw [← hsplit]
        simp
      rw [hlist] at h ⊢
      have hmore := (h.tail nofun).2.suffix ⟨ts, rfl⟩ (List.cons_ne_nil _ _)
      refine returns_arrayElement (parseValue_value includer depth) hread hstop h values n ?_
      rw [← hsplit] at hmore ⊢
      refine Succeeds.imp (returns_elements hvs (depth + 1) (by omega) hpos n (values ++ [v]) rest p
        (by omega) hmore) ?_
      rintro w g ⟨hw, hg⟩
      exact ⟨by rw [hw, List.append_assoc]; rfl, hg⟩

theorem returns_members : ∀ {ts : List Token} {fields : Fields Unit}, TokenMembers ts fields →
    ∀ depth, ts.length ≤ depth → 0 < depth → ∀ (n : ℕ) (values : Fields Unit)
    (rest : List Token) (p : List Path), ts.length < n →
    ((values ++ fields).map Prod.fst).Nodup → Regular (ts ++ .closeCurly :: rest) →
    Succeeds Stands (do
      if ← closeField .CONF true then
        parseObjectLoop .CONF includer (parseValue .CONF includer depth) true n true values
      else return values)
      (ts ++ .closeCurly :: rest, p) (fun w g => w = values ++ fields ∧ g = (rest, p))
  | _, _, .nil, depth, _, _, n, values, rest, p, _, _, h => by
      refine Succeeds.bind (returns_closeField true rfl h) ?_
      rintro _ _ ⟨rfl, rfl⟩
      exact Succeeds.pure ⟨(List.append_nil values).symm, rfl⟩
  | _, _, @TokenMembers.cons ts more key v fields hv hfields, depth, hdepth, hpos, n, values, rest,
      p, hn, hnodup, h => by
      simp only [List.length_cons, List.length_append] at hdepth hn
      obtain ⟨n, rfl⟩ : ∃ m, n = m + 1 := ⟨n - 1, by omega⟩
      obtain ⟨depth, rfl⟩ : ∃ d, depth = d + 1 := ⟨depth - 1, by omega⟩
      have hread := readsPiece_tokenValue hv (depth + 1) (by omega)
      obtain ⟨stop, tail, hsplit, hstop⟩ := hfields.stop rest
      have hlist : .comma :: .value (.configString () key) :: .colon :: (ts ++ more) ++
          .closeCurly :: rest =
          Token.comma :: .value (.configString () key) :: .colon :: (ts ++ stop :: tail) := by
        rw [← hsplit]
        simp
      have hsplitValues : values ++ (key, v) :: fields = (values ++ [(key, v)]) ++ fields := by
        rw [List.append_assoc]
        rfl
      have hnew : key ∉ values.map Prod.fst := by
        intro hkey
        rw [List.map_append, List.nodup_append] at hnodup
        exact hnodup.2.2 key hkey key (List.mem_cons_self ..) rfl
      rw [hlist] at h ⊢
      have hinner := (h.tail nofun).2
      have hmore := ((hinner.tail nofun).2.tail nofun).2.suffix ⟨ts, rfl⟩ (List.cons_ne_nil _ _)
      have hrest := returns_members hfields (depth + 1) (by omega) hpos n (values ++ [(key, v)])
        rest p (by omega) (by rwa [hsplitValues] at hnodup)
      rw [hsplit] at hrest
      have hcomma := returns_closeField_separator true (returns_separator_comma (p := p) 0 h)
      refine Succeeds.bind hcomma ?_
      rintro _ _ ⟨rfl, rfl⟩
      rw [hsplitValues]
      exact returns_member (parseValue_value includer depth) hread hstop hinner hnew true n
        (hrest hmore)

end

end

-- The values that JSON can write, as it writes them.
def Literal.ofTokens {ts : List Token} {v : Value Unit} (h : TokenValue ts v)
    (hresolved : v.resolved = true) : Literal where
  tokens := ts
  value := v
  resolved := hresolved
  reads := by
    intro includer depth stop rest p hdepth hstop hregular
    have hread := readsPiece_tokenValue includer h depth (by omega)
    have hend : Regular (stop :: rest) := hregular.suffix ⟨ts, rfl⟩ (List.cons_ne_nil _ _)
    exact returns_consolidated (Nat.zero_lt_of_lt hdepth) hend
      (returns_consolidate hread hstop hregular)

end AsrServiceProxy.Config

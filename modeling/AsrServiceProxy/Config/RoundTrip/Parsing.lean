import AsrServiceProxy.Config.RoundTrip.Tokens
import AsrServiceProxy.Lib.Runs

-- The parser makes the data of the tokens of a printed document.
namespace AsrServiceProxy.Config

open CMemory Simulation

-- The tokens that a context is still to give, none of them with comments.
def Offers (st : ParseContext) (offer : List Path × List Token) : Prop :=
  st.pathStack = offer.1 ∧ st.buffer.map TokenWithComments.token ++ st.tokens = offer.2 ∧
    ∀ t ∈ st.buffer, t.comments = []

abbrev Takes {α : Type} (m : Parse α) (paths : List Path) (ts : List Token) (a : α)
    (ts' : List Token) : Prop :=
  Runs Offers m (paths, ts) a (paths, ts')

-- A token as it is when no comment comes before it.
def bare (t : Token) : TokenWithComments := { token := t, comments := [] }

-- The tokens that no syntax rejects and no comment hides.
def isPlain : Token → Bool
  | .thrown _ | .problem _ _ _ | .comment _ | .unquotedText _ | .substitution _ _ => false
  | _ => true

def isNewline : Token → Bool
  | .newline => true
  | _ => false

section

variable (flavor : ConfigSyntax) (paths : List Path)

theorem takes_nextToken {t : Token} (h : isPlain t) (ts : List Token) :
    Takes (nextToken flavor) paths (t :: ts) (bare t) ts := by
  rintro ⟨tokens, buffer, pathStack⟩ ⟨hpaths, htokens, hcomments⟩
  cases buffer with
  | nil =>
      obtain rfl : tokens = t :: ts := htokens
      refine ⟨{ tokens := ts, buffer := [], pathStack := pathStack }, ?_, hpaths, rfl, by simp⟩
      cases t <;> first | rfl | cases h
  | cons first rest =>
      obtain ⟨token, comments⟩ := first
      obtain ⟨rfl, hrest⟩ := List.cons.inj htokens
      obtain rfl : comments = [] := hcomments _ List.mem_cons_self
      refine ⟨{ tokens := tokens, buffer := rest, pathStack := pathStack }, ?_, hpaths, hrest, ?_⟩
      · cases token <;> first | rfl | cases h
      · intro t ht
        exact hcomments t (List.mem_cons_of_mem _ ht)

theorem takes_putBack (t : Token) (ts : List Token) :
    Takes (putBackToken (bare t)) paths ts () (t :: ts) := by
  rintro ⟨tokens, buffer, pathStack⟩ ⟨hpaths, htokens, hcomments⟩
  refine ⟨{ tokens := tokens, buffer := bare t :: buffer, pathStack := pathStack }, rfl, hpaths,
    ?_, ?_⟩
  · simpa [bare] using htokens
  · intro t' ht'
    rcases List.mem_cons.mp ht' with rfl | ht'
    · rfl
    · exact hcomments t' ht'

theorem takes_rounds (ts : List Token) : Takes parseRounds paths ts (ts.length + 1) ts := by
  rintro ⟨tokens, buffer, pathStack⟩ ⟨hpaths, htokens, hcomments⟩
  refine ⟨_, ?_, hpaths, htokens, hcomments⟩
  have hlen := congrArg List.length htokens
  simp only [List.length_append, List.length_map] at hlen
  simp only [parseRounds, ← hlen, Nat.add_comm]

-- Newlines before a token are passed over.
theorem takes_ignoringNewlineLoop {t : Token} (h : isPlain t) (hline : isNewline t = false)
    (newlines : List Token) (hnew : ∀ x ∈ newlines, x = .newline) (n : ℕ)
    (hn : newlines.length < n) (ts : List Token) :
    Takes (ignoringNewlineLoop flavor n) paths (newlines ++ t :: ts) (bare t) ts := by
  induction newlines generalizing n with
  | nil =>
      obtain ⟨n, rfl⟩ : ∃ m, n = m + 1 := ⟨n - 1, by omega⟩
      refine Runs.bind (takes_nextToken flavor paths h ts) ?_
      cases t <;> first | exact Runs.pure _ | cases hline
  | cons first newlines ih =>
      obtain ⟨n, rfl⟩ : ∃ m, n = m + 1 := ⟨n - 1, by omega⟩
      obtain rfl := hnew first List.mem_cons_self
      refine Runs.bind (takes_nextToken flavor paths (t := .newline) rfl _) ?_
      exact ih (fun x hx => hnew x (List.mem_cons_of_mem _ hx)) n (by simpa using hn)

theorem takes_ignoringNewline {t : Token} (h : isPlain t) (hline : isNewline t = false)
    (newlines : List Token) (hnew : ∀ x ∈ newlines, x = .newline) (ts : List Token) :
    Takes (nextTokenIgnoringNewline flavor) paths (newlines ++ t :: ts) (bare t) ts := by
  refine Runs.bind (takes_rounds paths _) ?_
  apply takes_ignoringNewlineLoop flavor paths h hline newlines hnew
  simp only [List.length_append, List.length_cons]
  omega

-- The next token is no newline.
theorem takes_next {t : Token} (h : isPlain t) (hline : isNewline t = false) (ts : List Token) :
    Takes (nextTokenIgnoringNewline flavor) paths (t :: ts) (bare t) ts :=
  takes_ignoringNewline flavor paths h hline [] nofun ts

-- The tokens that come after a value.
def endsValue : Token → Bool
  | .comma | .newline | .closeCurly | .closeSquare | .end_ => true
  | _ => false

theorem takes_separator_comma (ts : List Token) :
    Takes (checkElementSeparator flavor) paths (.comma :: ts) true ts := by
  cases flavor with
  | JSON =>
      refine Runs.bind (takes_next .JSON paths (t := .comma) rfl rfl ts) ?_
      exact Runs.pure true
  | CONF =>
      refine Runs.bind (takes_rounds paths _) ?_
      refine Runs.bind (takes_nextToken .CONF paths (t := .comma) rfl ts) ?_
      exact Runs.pure true

-- Neither a comma nor a newline.
def isOther : Token → Bool
  | .comma | .newline => false
  | _ => true

theorem takes_separator_newline {t : Token} (h : isPlain t) (hother : isOther t) (ts : List Token) :
    Takes (checkElementSeparator .CONF) paths (.newline :: t :: ts) true (t :: ts) := by
  refine Runs.bind (takes_rounds paths _) ?_
  refine Runs.bind (takes_nextToken .CONF paths (t := .newline) rfl _) ?_
  refine Runs.bind (takes_nextToken .CONF paths h ts) ?_
  cases t with
  | comma => cases hother
  | newline => cases hother
  | _ => exact Runs.bind (takes_putBack paths _ ts) (Runs.pure true)

theorem takes_separator_other {t : Token} (h : isPlain t) (hother : isOther t) (ts : List Token) :
    Takes (checkElementSeparator flavor) paths (t :: ts) false (t :: ts) := by
  cases flavor with
  | JSON =>
      have hline : isNewline t = false := by
        cases t <;> first | rfl | cases hother
      refine Runs.bind (takes_next .JSON paths h hline ts) ?_
      cases t with
      | comma => cases hother
      | _ => exact Runs.bind (takes_putBack paths _ ts) (Runs.pure false)
  | CONF =>
      refine Runs.bind (takes_rounds paths _) ?_
      refine Runs.bind (takes_nextToken .CONF paths h ts) ?_
      cases t with
      | comma => cases hother
      | newline => cases hother
      | _ => exact Runs.bind (takes_putBack paths _ ts) (Runs.pure false)

-- In JSON a newline separates nothing.
theorem takes_separator_json {t : Token} (h : isPlain t) (hother : isOther t) (ts : List Token) :
    Takes (checkElementSeparator .JSON) paths (.newline :: t :: ts) false (t :: ts) := by
  have hline : isNewline t = false := by
    cases t <;> first | rfl | cases hother
  refine Runs.bind (takes_ignoringNewline .JSON paths h hline [.newline] (by simp) ts) ?_
  cases t with
  | comma => cases hother
  | _ => exact Runs.bind (takes_putBack paths _ ts) (Runs.pure false)

end

-- `read` reads the data from its first token on.
def ReadsData (options : ConfigRenderOptions) (read : TokenWithComments → Parse (Value Unit))
    (d : Data) : Prop :=
  ∀ paths ts, ∃ head tail, d.tokens options = head :: tail ∧ startsElement head ∧
    Takes (read (bare head)) paths (tail ++ ts) d.value ts

-- A value that was read before is taken as it is.
def ReadsValues (read : TokenWithComments → Parse (Value Unit)) : Prop :=
  ∀ v paths ts, Takes (read (bare (.value v))) paths ts v ts

theorem startsElement_plain {t : Token} (h : startsElement t) :
    isPlain t ∧ isNewline t = false ∧ isCloseSquare t = false ∧ isOther t := by
  cases t <;> first | exact ⟨rfl, rfl, rfl, rfl⟩ | cases h

theorem endsValue_plain {t : Token} (h : endsValue t) : isPlain t := by
  cases t <;> first | rfl | cases h

section

variable {options : ConfigRenderOptions} {read : TokenWithComments → Parse (Value Unit)}

theorem takes_piece {t : Token} (h : startsElement t) (hvalue : ReadsValues read)
    {paths : List Path} {ts ts' : List Token} {v : Value Unit}
    (hread : Takes (read (bare t)) paths ts v ts') :
    Takes (pieceOf read (bare t)) paths ts (some v) ts' := by
  cases t with
  | value w =>
      intro st hst
      obtain ⟨st', hst', hoffers⟩ := hread st hst
      obtain ⟨st'', hst'', hoffers'⟩ := hvalue w paths ts st hst
      rw [hst'] at hst''
      obtain ⟨rfl, rfl⟩ := EStateM.Result.ok.inj hst''
      -- reading a value does not move
      refine ⟨st, rfl, ?_⟩
      have hsame : ts' = ts := hoffers.2.1.symm.trans hoffers'.2.1
      rw [hsame]
      exact hst
  | openCurly => exact Runs.bind hread (Runs.pure _)
  | openSquare => exact Runs.bind hread (Runs.pure _)
  | _ => cases h

theorem takes_consolidate {d : Data} (hread : ReadsData options read d) (hvalue : ReadsValues read)
    (paths : List Path) (newlines : List Token) (hnew : ∀ x ∈ newlines, x = .newline)
    {f : Token} (hf : endsValue f) (ts : List Token) :
    Takes (consolidateValueTokens .CONF read) paths (newlines ++ (d.tokens options ++ f :: ts)) ()
      (.value d.value :: f :: ts) := by
  obtain ⟨head, tail, htokens, hstarts, htail⟩ := hread paths (f :: ts)
  obtain ⟨hplain, hline, _, _⟩ := startsElement_plain hstarts
  rw [htokens, List.cons_append]
  refine Runs.bind (takes_ignoringNewline .CONF paths hplain hline newlines hnew _) ?_
  refine Runs.bind (takes_rounds paths _) ?_
  -- one round for the value and one for what ends it
  have hpieces : Takes (piecesLoop .CONF read ((tail ++ f :: ts).length + 1) (bare head) []) paths
      (tail ++ f :: ts) [d.value] (f :: ts) := by
    have hlen : (tail ++ f :: ts).length = (tail.length + ts.length) + 1 := by
      simp only [List.length_append, List.length_cons]
      omega
    rw [hlen]
    refine Runs.bind (takes_piece hstarts hvalue htail) ?_
    refine Runs.bind (takes_nextToken .CONF paths (endsValue_plain hf) ts) ?_
    have hnone : Takes (pieceOf read (bare f)) paths ts none ts := by
      cases f <;> first | exact Runs.pure none | cases hf
    refine Runs.bind hnone ?_
    exact Runs.bind (takes_putBack paths f ts) (Runs.pure _)
  refine Runs.bind hpieces ?_
  refine Runs.bind (Runs.of_same fun _ => rfl) ?_
  exact takes_putBack paths (.value d.value) (f :: ts)

theorem takes_element (flavor : ConfigSyntax) {d : Data} (hread : ReadsData options read d)
    (hvalue : ReadsValues read) (paths : List Path) (newlines : List Token)
    (hnew : ∀ x ∈ newlines, x = .newline) {f : Token} (hf : endsValue f) (ts : List Token) :
    ∃ mid head rest, Takes (consolidateValueTokens flavor read) paths
        (newlines ++ (d.tokens options ++ f :: ts)) () mid ∧
      Takes (nextTokenIgnoringNewline flavor) paths mid (bare head) rest ∧ startsElement head ∧
      Takes (read (bare head)) paths rest d.value (f :: ts) := by
  cases flavor with
  | JSON =>
      obtain ⟨head, tail, htokens, hstarts, htail⟩ := hread paths (f :: ts)
      obtain ⟨hplain, hline, _, _⟩ := startsElement_plain hstarts
      refine ⟨newlines ++ (d.tokens options ++ f :: ts), head, tail ++ f :: ts, Runs.pure _, ?_,
        hstarts, htail⟩
      rw [htokens, List.cons_append]
      exact takes_ignoringNewline .JSON paths hplain hline newlines hnew _
  | CONF =>
      exact ⟨.value d.value :: f :: ts, .value d.value, f :: ts,
        takes_consolidate hread hvalue paths newlines hnew hf ts,
        takes_next .CONF paths rfl rfl (f :: ts), rfl, hvalue d.value paths (f :: ts)⟩

theorem newlineToken_newline (options : ConfigRenderOptions) :
    ∀ x ∈ newlineToken options, x = .newline := by
  by_cases hf : options.formatted <;> simp [newlineToken, hf]

-- The elements after the first, each with its separator.
def restElements (options : ConfigRenderOptions) (ds : List Data) : List Token :=
  ds.flatMap fun d => elementSeparatorTokens options ++ d.tokens options

theorem tokensElements_cons (d : Data) (rest : List Data) :
    tokensElements options (d :: rest) = d.tokens options ++ restElements options rest := by
  induction rest generalizing d with
  | nil => simp [tokensElements, restElements]
  | cons next rest ih =>
      rw [tokensElements, ih next]
      simp [restElements]

theorem valueAll_eq_map (ds : List Data) : valueAll ds = ds.map Data.value := by
  induction ds with
  | nil => rfl
  | cons d rest ih => rw [valueAll, ih, List.map_cons]

theorem length_le_restElements (options : ConfigRenderOptions) (ds : List Data) :
    ds.length ≤ (restElements options ds).length := by
  induction ds with
  | nil => exact Nat.zero_le _
  | cons d ds ih =>
      rw [restElements, List.flatMap_cons, ← restElements, elementSeparatorTokens]
      simp only [List.length_append, List.length_cons]
      omega

-- What comes after an element.
theorem restElements_head (options : ConfigRenderOptions) (ds : List Data) (ts : List Token) :
    ∃ f rest, restElements options ds ++ (newlineToken options ++ .closeSquare :: ts) = f :: rest ∧
      endsValue f := by
  cases ds with
  | nil =>
      by_cases hf : options.formatted
      · exact ⟨.newline, .closeSquare :: ts, by simp [restElements, newlineToken, hf], rfl⟩
      · exact ⟨.closeSquare, ts, by simp [restElements, newlineToken, hf], rfl⟩
  | cons d ds => exact ⟨.comma, _, rfl, rfl⟩

-- A closing bracket is no value to consolidate.
theorem takes_consolidate_none (flavor : ConfigSyntax) (paths : List Path) (ts : List Token) :
    Takes (consolidateValueTokens flavor read) paths (.closeSquare :: ts) ()
      (.closeSquare :: ts) := by
  cases flavor with
  | JSON => exact Runs.pure ()
  | CONF =>
      refine Runs.bind (takes_next .CONF paths (t := .closeSquare) rfl rfl ts) ?_
      refine Runs.bind (takes_rounds paths ts) ?_
      have hpieces : Takes (piecesLoop .CONF read (ts.length + 1) (bare .closeSquare) []) paths
          ts [] (.closeSquare :: ts) := by
        refine Runs.bind (Runs.pure none) ?_
        exact Runs.bind (takes_putBack paths .closeSquare ts) (Runs.pure _)
      exact Runs.bind hpieces (Runs.pure ())

-- A list that is over, with the separator that a newline is.
theorem takes_arrayEnd (flavor : ConfigSyntax) (values : List (Value Unit)) (paths : List Path)
    (n : ℕ) (hn : 2 ≤ n) (ts : List Token) :
    Takes (parseArrayLoop flavor read n values) paths (newlineToken options ++ .closeSquare :: ts)
      values ts := by
  obtain ⟨n, rfl⟩ : ∃ m, n = m + 2 := ⟨n - 2, by omega⟩
  have hclose : ∀ (flavor : ConfigSyntax) (k : ℕ), Takes (parseArrayLoop flavor read (k + 1) values)
      paths (.closeSquare :: ts) values ts := by
    intro flavor k
    refine Runs.bind (takes_separator_other flavor paths (t := .closeSquare) rfl rfl ts) ?_
    refine Runs.bind (takes_next flavor paths (t := .closeSquare) rfl rfl ts) ?_
    exact Runs.pure values
  by_cases hf : options.formatted
  · simp only [newlineToken, hf, ite_true, List.cons_append, List.nil_append]
    cases flavor with
    | JSON =>
        refine Runs.bind (takes_separator_json paths (t := .closeSquare) rfl rfl ts) ?_
        refine Runs.bind (takes_next .JSON paths (t := .closeSquare) rfl rfl ts) ?_
        exact Runs.pure values
    | CONF =>
        refine Runs.bind (takes_separator_newline paths (t := .closeSquare) rfl rfl ts) ?_
        refine Runs.bind (takes_consolidate_none .CONF paths ts) ?_
        refine Runs.bind (takes_next .CONF paths (t := .closeSquare) rfl rfl ts) ?_
        refine Runs.bind (takes_putBack paths .closeSquare ts) ?_
        exact hclose .CONF n
  · simp only [newlineToken, hf, Bool.false_eq_true, ite_false, List.nil_append]
    exact hclose flavor (n + 1)

theorem takes_arrayLoop (flavor : ConfigSyntax) (hvalue : ReadsValues read) (ds : List Data)
    (hread : ∀ d ∈ ds, ReadsData options read d) (values : List (Value Unit)) (paths : List Path)
    (n : ℕ) (hn : ds.length + 2 ≤ n) (ts : List Token) :
    Takes (parseArrayLoop flavor read n values) paths
      (restElements options ds ++ (newlineToken options ++ .closeSquare :: ts))
      (values ++ ds.map Data.value) ts := by
  induction ds generalizing values n with
  | nil =>
      rw [List.map_nil, List.append_nil]
      exact takes_arrayEnd flavor values paths n (by simpa using hn) ts
  | cons d ds ih =>
      obtain ⟨n, rfl⟩ : ∃ m, n = m + 1 := ⟨n - 1, by omega⟩
      obtain ⟨f, rest, hrest, hf⟩ := restElements_head options ds ts
      have hsplit : restElements options (d :: ds) ++ (newlineToken options ++ .closeSquare :: ts) =
          .comma :: (newlineToken options ++ (d.tokens options ++ f :: rest)) := by
        rw [← hrest]
        simp [restElements, elementSeparatorTokens]
      rw [hsplit]
      obtain ⟨mid, head, rest', hconsolidate, hnext, hstarts, htake⟩ := takes_element flavor
        (hread d List.mem_cons_self) hvalue paths (newlineToken options)
        (newlineToken_newline options) hf rest
      have hloop := ih (fun d' hd' => hread d' (List.mem_cons_of_mem d hd')) (values ++ [d.value]) n
        (by simp only [List.length_cons] at hn; omega)
      rw [hrest, List.append_assoc, List.singleton_append] at hloop
      refine Runs.bind (takes_separator_comma flavor paths _) ?_
      refine Runs.bind hconsolidate ?_
      refine Runs.bind hnext ?_
      simp only [bare, hstarts, ite_true]
      exact Runs.bind htake hloop

theorem takes_array (flavor : ConfigSyntax) (hvalue : ReadsValues read) (ds : List Data)
    (hread : ∀ d ∈ ds, ReadsData options read d) (paths : List Path) (ts : List Token) :
    ∃ tail, (Data.list ds).tokens options = .openSquare :: tail ∧
      Takes (parseArray flavor read) paths (tail ++ ts) (Data.list ds).value ts := by
  cases ds with
  | nil =>
      refine ⟨[.closeSquare], rfl, ?_⟩
      refine Runs.bind (takes_consolidate_none flavor paths ts) ?_
      refine Runs.bind (takes_next flavor paths (t := .closeSquare) rfl rfl ts) ?_
      exact Runs.pure _
  | cons d ds =>
      obtain ⟨f, rest, hrest, hf⟩ := restElements_head options ds ts
      refine ⟨newlineToken options ++ (d.tokens options ++ restElements options ds) ++
        (newlineToken options ++ [.closeSquare]), ?_, ?_⟩
      · simp [Data.tokens, tokensElements_cons]
      · have hsplit : newlineToken options ++ (d.tokens options ++ restElements options ds) ++
            (newlineToken options ++ [.closeSquare]) ++ ts =
            newlineToken options ++ (d.tokens options ++ f :: rest) := by
          rw [← hrest]
          simp
        rw [hsplit]
        obtain ⟨mid, head, rest', hconsolidate, hnext, hstarts, htake⟩ := takes_element flavor
          (hread d List.mem_cons_self) hvalue paths (newlineToken options)
          (newlineToken_newline options) hf rest
        obtain ⟨_, _, hopen, _⟩ := startsElement_plain hstarts
        have hlen : ds.length + 2 ≤ (f :: rest).length + 1 := by
          have hcount := length_le_restElements options ds
          rw [← hrest]
          simp only [List.length_append, List.length_cons]
          omega
        have hloop := takes_arrayLoop flavor hvalue ds
          (fun d' hd' => hread d' (List.mem_cons_of_mem d hd')) [d.value] paths _ hlen ts
        rw [hrest] at hloop
        refine Runs.bind hconsolidate ?_
        refine Runs.bind hnext ?_
        simp only [bare, hopen, hstarts, Bool.false_eq_true, ite_false, ite_true]
        refine Runs.bind htake ?_
        refine Runs.bind (takes_rounds paths (f :: rest)) ?_
        refine Runs.bind hloop ?_
        rw [Data.value, valueAll, valueAll_eq_map]
        exact Runs.pure _

end

end AsrServiceProxy.Config

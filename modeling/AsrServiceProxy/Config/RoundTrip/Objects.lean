import AsrServiceProxy.Lib.Entries
import AsrServiceProxy.Config.RoundTrip.Parsing

-- The parser makes the fields of the tokens of a printed object.
namespace AsrServiceProxy.Config

open CMemory Simulation

def fieldTokens (options : ConfigRenderOptions) (field : Bytes × Data) : List Token :=
  .value (.configString () field.1) ::
    (keySeparatorTokens options field.2.isObject ++ field.2.tokens options)

-- The fields after the first, each with its separator.
def restFields (options : ConfigRenderOptions) (fields : List (Bytes × Data)) : List Token :=
  fields.flatMap fun field => fieldSeparatorTokens options ++ fieldTokens options field

-- The token after the fields, which stays where it is when it is the end of the document.
def closeToken (hadOpenCurly : Bool) : Token :=
  if hadOpenCurly then .closeCurly else .end_

def afterClose (hadOpenCurly : Bool) (ts : List Token) : List Token :=
  if hadOpenCurly then ts else .end_ :: ts

-- The tokens that may come between a key and its value.
def isAfterKey : Token → Bool
  | .colon | .equals | .openCurly => true
  | _ => false

theorem isAfterKey_plain {t : Token} (h : isAfterKey t) : isPlain t ∧ isNewline t = false := by
  cases t <;> first | exact ⟨rfl, rfl⟩ | cases h

theorem parsePathExpression_key (key : Bytes) :
    parsePathExpression [.value (.configString () key)] = .ok (.newKey key) := by
  have htext : addPathText { front := [], current := { element := [], canBeEmpty := false } } true
      key = { front := [], current := { element := key, canBeEmpty := key.isEmpty } } := by
    simp [addPathText]
  cases key <;> simp [parsePathExpression, addPathTokens, htext, PathBuilder.result, bind,
    Except.bind]

theorem closeToken_plain (hadOpenCurly : Bool) :
    isPlain (closeToken hadOpenCurly) ∧ isNewline (closeToken hadOpenCurly) = false ∧
      isOther (closeToken hadOpenCurly) ∧ endsValue (closeToken hadOpenCurly) := by
  cases hadOpenCurly <;> exact ⟨rfl, rfl, rfl, rfl⟩

theorem putField_new {values : Fields Unit} {key : Bytes} (h : key ∉ values.map Prod.fst)
    (v : Value Unit) : values.lookup key = none ∧ putField values key v = values ++ [(key, v)] := by
  have hlookup : values.lookup key = none := Entries.lookup_eq_none_iff.mpr h
  exact ⟨hlookup, by simp [putField, hlookup]⟩

section

variable {options : ConfigRenderOptions} {read : TokenWithComments → Parse (Value Unit)}

theorem tokensFields_cons (field : Bytes × Data) (rest : List (Bytes × Data)) :
    tokensFields options (field :: rest) = fieldTokens options field ++ restFields options rest := by
  induction rest generalizing field with
  | nil => simp [tokensFields, restFields, fieldTokens]
  | cons next rest ih =>
      rw [tokensFields, ih next]
      simp [restFields, fieldTokens]

theorem length_le_restFields (options : ConfigRenderOptions) (fields : List (Bytes × Data)) :
    fields.length ≤ (restFields options fields).length := by
  induction fields with
  | nil => exact Nat.zero_le _
  | cons field fields ih =>
      rw [restFields, List.flatMap_cons, ← restFields, fieldTokens]
      simp only [List.length_append, List.length_cons]
      omega

-- What comes after a field.
theorem restFields_head (options : ConfigRenderOptions) (hadOpenCurly : Bool)
    (fields : List (Bytes × Data)) (ts : List Token) :
    ∃ f rest, restFields options fields ++
        (newlineToken options ++ closeToken hadOpenCurly :: ts) = f :: rest ∧ endsValue f := by
  obtain ⟨_, _, _, hclose⟩ := closeToken_plain hadOpenCurly
  cases fields with
  | nil =>
      by_cases hf : options.formatted
      · exact ⟨.newline, _, by simp [restFields, newlineToken, hf]; rfl, rfl⟩
      · exact ⟨closeToken hadOpenCurly, ts, by simp [restFields, newlineToken, hf], hclose⟩
  | cons field fields =>
      by_cases hf : options.formatted
      · by_cases hj : options.json
        · exact ⟨.comma, _, by simp [restFields, fieldSeparatorTokens, hf, hj]; rfl, rfl⟩
        · exact ⟨.newline, _, by simp [restFields, fieldSeparatorTokens, hf, hj]; rfl, rfl⟩
      · exact ⟨.comma, _, by simp [restFields, fieldSeparatorTokens, hf]; rfl, rfl⟩

theorem takes_key (flavor : ConfigSyntax) (key : Bytes) (paths : List Path) {t : Token}
    (ht : isAfterKey t) (ts : List Token) :
    Takes (parseKey flavor (bare (.value (.configString () key)))) paths (t :: ts) (.newKey key)
      (t :: ts) := by
  cases flavor with
  | JSON => exact Runs.pure _
  | CONF =>
      refine Runs.bind (takes_rounds paths _) ?_
      have hloop : Takes (keyLoop .CONF ((t :: ts).length + 1 + 1)
          (bare (.value (.configString () key))) []) paths (t :: ts)
          [.value (.configString () key)] (t :: ts) := by
        refine Runs.bind (takes_nextToken .CONF paths (isAfterKey_plain ht).1 ts) ?_
        cases t with
        | colon => exact Runs.bind (takes_putBack paths _ ts) (Runs.pure _)
        | equals => exact Runs.bind (takes_putBack paths _ ts) (Runs.pure _)
        | openCurly => exact Runs.bind (takes_putBack paths _ ts) (Runs.pure _)
        | _ => cases ht
      refine Runs.bind hloop ?_
      rw [parsePathExpression_key]
      exact Runs.of_same fun _ => rfl

-- The value of a field after a separator token.
theorem takes_separatedValue (flavor : ConfigSyntax) {d : Data} (hread : ReadsData options read d)
    (hvalue : ReadsValues read) (paths : List Path) {f : Token} (hf : endsValue f)
    (ts : List Token) :
    Takes (do
      consolidateValueTokens flavor read
      read (← nextTokenIgnoringNewline flavor)) paths (d.tokens options ++ f :: ts) d.value
      (f :: ts) := by
  obtain ⟨mid, head, rest, hconsolidate, hnext, _, htake⟩ :=
    takes_element flavor hread hvalue paths [] nofun hf ts
  exact Runs.bind hconsolidate (Runs.bind hnext htake)

theorem takes_fieldValue (flavor : ConfigSyntax) (hjson : flavor = .JSON → options.json) {d : Data}
    (hread : ReadsData options read d) (hvalue : ReadsValues read) (paths : List Path) {f : Token}
    (hf : endsValue f) (ts : List Token) :
    ∃ afterKey rest, keySeparatorTokens options d.isObject ++ (d.tokens options ++ f :: ts) =
        afterKey :: rest ∧ isAfterKey afterKey ∧
      Takes (parseFieldValue flavor read (bare afterKey)) paths rest d.value (f :: ts) := by
  have hseparated := takes_separatedValue flavor hread hvalue paths hf ts
  by_cases hj : options.json
  · refine ⟨.colon, d.tokens options ++ f :: ts, by simp [keySeparatorTokens, hj], rfl, ?_⟩
    cases flavor <;> exact hseparated
  · obtain rfl : flavor = .CONF := by
      cases flavor with
      | JSON => exact absurd (hjson rfl) hj
      | CONF => rfl
    cases d with
    | object fields =>
        obtain ⟨head, tail, htokens, _, htake⟩ := hread paths (f :: ts)
        obtain rfl : head = .openCurly := by
          cases fields <;> exact (List.cons.inj htokens).1.symm
        refine ⟨.openCurly, tail ++ f :: ts, ?_, rfl, htake⟩
        simp [keySeparatorTokens, hj, Data.isObject, htokens]
    | _ =>
        refine ⟨.equals, _, ?_, rfl, hseparated⟩
        simp [keySeparatorTokens, hj, Data.isObject]

theorem takes_pushPath (path : Path) (paths : List Path) (ts : List Token) :
    Runs Offers (pushPath path) (paths, ts) () (path :: paths, ts) := by
  rintro ⟨tokens, buffer, pathStack⟩ ⟨hpaths, htokens, hcomments⟩
  exact ⟨_, rfl, by simpa using hpaths, htokens, hcomments⟩

theorem takes_popPath (path : Path) (paths : List Path) (ts : List Token) :
    Runs Offers popPath (path :: paths, ts) () (paths, ts) := by
  rintro ⟨tokens, buffer, pathStack⟩ ⟨hpaths, htokens, hcomments⟩
  obtain rfl : pathStack = path :: paths := hpaths
  exact ⟨_, rfl, rfl, htokens, hcomments⟩

theorem takes_field (flavor : ConfigSyntax) (hjson : flavor = .JSON → options.json) {key : Bytes}
    {d : Data} (hread : ReadsData options read d) (hvalue : ReadsValues read)
    {values : Fields Unit} (hnew : key ∉ values.map Prod.fst) (paths : List Path) {f : Token}
    (hf : endsValue f) (ts : List Token) :
    Takes (parseField flavor read values (bare (.value (.configString () key)))) paths
      (keySeparatorTokens options d.isObject ++ (d.tokens options ++ f :: ts))
      (values ++ [(key, d.value)]) (f :: ts) := by
  obtain ⟨afterKey, rest, htokens, hafter, htake⟩ :=
    takes_fieldValue flavor hjson hread hvalue (.newKey key :: paths) hf ts
  obtain ⟨hplain, hline⟩ := isAfterKey_plain hafter
  obtain ⟨hlookup, hput⟩ := putField_new hnew d.value
  rw [htokens]
  refine Runs.bind (takes_key flavor key paths hafter rest) ?_
  refine Runs.bind (takes_next flavor paths hplain hline rest) ?_
  refine Runs.bind (takes_pushPath (.newKey key) paths rest) ?_
  refine Runs.bind htake ?_
  refine Runs.bind (takes_popPath (.newKey key) paths (f :: ts)) ?_
  -- the key is new, so the value is stored as it is
  have hstore : storeField flavor values (.newKey key) d.value =
      pure (values ++ [(key, d.value)]) := by
    simp [storeField, Path.remainder, Path.first, hlookup, hput]
  rw [hstore]
  exact Runs.pure _

-- Between two fields.
theorem takes_fieldSeparator (flavor : ConfigSyntax) (hjson : flavor = .JSON → options.json)
    (hadOpenCurly : Bool) (paths : List Path) (v : Value Unit) (ts : List Token) :
    ∃ newlines, (∀ x ∈ newlines, x = .newline) ∧
      Takes (closeField flavor hadOpenCurly) paths
        (fieldSeparatorTokens options ++ .value v :: ts) true (newlines ++ .value v :: ts) := by
  by_cases hf : options.formatted
  · by_cases hj : options.json
    · simp only [fieldSeparatorTokens, hf, hj, ite_true]
      refine ⟨[.newline], by simp, ?_⟩
      exact Runs.bind (takes_separator_comma flavor paths _) (Runs.pure true)
    · obtain rfl : flavor = .CONF := by
        cases flavor with
        | JSON => exact absurd (hjson rfl) hj
        | CONF => rfl
      simp only [fieldSeparatorTokens, hf, hj, Bool.false_eq_true, ite_true, ite_false]
      refine ⟨[], by simp, ?_⟩
      exact Runs.bind (takes_separator_newline paths (t := .value v) rfl rfl ts) (Runs.pure true)
  · simp only [fieldSeparatorTokens, hf, Bool.false_eq_true, ite_false]
    refine ⟨[], by simp, ?_⟩
    exact Runs.bind (takes_separator_comma flavor paths _) (Runs.pure true)

-- The end of an object, found where a field could start.
theorem takes_closeToken (includer : Includer) (hadOpenCurly afterComma : Bool)
    (values : Fields Unit) (paths : List Path) (n : ℕ) (ts : List Token) :
    Takes (parseObjectLoop .CONF includer read hadOpenCurly (n + 1) afterComma values) paths
      (closeToken hadOpenCurly :: ts) values (afterClose hadOpenCurly ts) := by
  obtain ⟨hplain, hline, _, _⟩ := closeToken_plain hadOpenCurly
  refine Runs.bind (takes_next .CONF paths hplain hline ts) ?_
  cases hadOpenCurly with
  | false => exact Runs.bind (takes_putBack paths .end_ ts) (Runs.pure values)
  | true => exact Runs.pure values

-- The end of an object, found after a field.
theorem takes_closeField (flavor : ConfigSyntax) (hadOpenCurly : Bool) (paths : List Path)
    (newlines : List Token) (ts : List Token)
    (hseparator : Takes (checkElementSeparator flavor) paths
      (newlines ++ closeToken hadOpenCurly :: ts) false (closeToken hadOpenCurly :: ts)) :
    Takes (closeField flavor hadOpenCurly) paths (newlines ++ closeToken hadOpenCurly :: ts) false
      (afterClose hadOpenCurly ts) := by
  obtain ⟨hplain, hline, _, _⟩ := closeToken_plain hadOpenCurly
  refine Runs.bind hseparator ?_
  refine Runs.bind (takes_next flavor paths hplain hline ts) ?_
  cases hadOpenCurly with
  | false => exact Runs.bind (takes_putBack paths .end_ ts) (Runs.pure false)
  | true => exact Runs.pure false

theorem takes_lastField (flavor : ConfigSyntax) (includer : Includer) (hadOpenCurly : Bool)
    (values : Fields Unit) (paths : List Path) (n : ℕ) (ts : List Token) :
    Takes (do
      if ← closeField flavor hadOpenCurly then
        parseObjectLoop flavor includer read hadOpenCurly (n + 1) true values
      else return values) paths (newlineToken options ++ closeToken hadOpenCurly :: ts) values
      (afterClose hadOpenCurly ts) := by
  obtain ⟨hplain, _, hother, _⟩ := closeToken_plain hadOpenCurly
  by_cases hf : options.formatted
  · simp only [newlineToken, hf, ite_true]
    cases flavor with
    | JSON =>
        have hseparator := takes_separator_json paths hplain hother ts
        refine Runs.bind (takes_closeField .JSON hadOpenCurly paths [.newline] ts hseparator) ?_
        exact Runs.pure values
    | CONF =>
        refine Runs.bind (Runs.bind (takes_separator_newline paths hplain hother ts)
          (Runs.pure true)) ?_
        exact takes_closeToken includer hadOpenCurly true values paths n ts
  · simp only [newlineToken, hf, Bool.false_eq_true, ite_false]
    have hseparator := takes_separator_other flavor paths hplain hother ts
    refine Runs.bind (takes_closeField flavor hadOpenCurly paths [] ts hseparator) ?_
    exact Runs.pure values

-- One round of the loop: a field, and what `rest` starts with.
theorem takes_objectRound (flavor : ConfigSyntax) (hjson : flavor = .JSON → options.json)
    (includer : Includer) (hadOpenCurly : Bool) (hvalue : ReadsValues read) {key : Bytes} {d : Data}
    (hread : ReadsData options read d) {values : Fields Unit}
    (hfresh : key ∉ values.map Prod.fst) {paths : List Path} {newlines : List Token}
    (hnew : ∀ x ∈ newlines, x = .newline) (afterComma : Bool) {n : ℕ} {f : Token}
    (hf : endsValue f) {rest after : List Token} {result : Fields Unit}
    (hclose : Takes (do
      if ← closeField flavor hadOpenCurly then
        parseObjectLoop flavor includer read hadOpenCurly n true (values ++ [(key, d.value)])
      else return values ++ [(key, d.value)]) paths (f :: rest) result after) :
    Takes (parseObjectLoop flavor includer read hadOpenCurly (n + 1) afterComma values) paths
      (newlines ++ (fieldTokens options (key, d) ++ f :: rest)) result after := by
  rw [fieldTokens, List.cons_append, List.append_assoc]
  refine Runs.bind (takes_ignoringNewline flavor paths (t := .value (.configString () key)) rfl
    rfl newlines hnew _) ?_
  simp only [bare, isIncludeKeyword, Bool.and_false, Bool.false_eq_true, ite_false]
  exact Runs.bind (takes_field flavor hjson hread hvalue hfresh paths hf rest) hclose

theorem takes_objectLoop (flavor : ConfigSyntax) (hjson : flavor = .JSON → options.json)
    (includer : Includer) (hadOpenCurly : Bool) (hvalue : ReadsValues read)
    (field : Bytes × Data) (fields : List (Bytes × Data))
    (hread : ∀ g ∈ field :: fields, ReadsData options read g.2) (values : Fields Unit)
    (hnodup : (values.map Prod.fst ++ (field :: fields).map Prod.fst).Nodup) (paths : List Path)
    (newlines : List Token) (hnew : ∀ x ∈ newlines, x = .newline) (afterComma : Bool) (n : ℕ)
    (hn : fields.length + 2 ≤ n) (ts : List Token) :
    Takes (parseObjectLoop flavor includer read hadOpenCurly n afterComma values) paths
      (newlines ++ (fieldTokens options field ++ (restFields options fields ++
        (newlineToken options ++ closeToken hadOpenCurly :: ts))))
      (values ++ valueFields (field :: fields)) (afterClose hadOpenCurly ts) := by
  induction fields generalizing field values newlines afterComma n with
  | nil =>
      obtain ⟨n, rfl⟩ : ∃ m, n = m + 2 := ⟨n - 2, by simp at hn; omega⟩
      obtain ⟨key, d⟩ := field
      have hfresh : key ∉ values.map Prod.fst := by
        intro hkey
        exact (List.nodup_append.mp hnodup).2.2 key hkey key (by simp) rfl
      obtain ⟨f, rest, hrest, hf⟩ := restFields_head options hadOpenCurly [] ts
      rw [hrest]
      apply takes_objectRound flavor hjson includer hadOpenCurly hvalue
        (hread (key, d) List.mem_cons_self) hfresh hnew afterComma hf
      rw [← hrest]
      exact takes_lastField flavor includer hadOpenCurly (values ++ [(key, d.value)]) paths n ts
  | cons next fields ih =>
      obtain ⟨n, rfl⟩ : ∃ m, n = m + 1 := ⟨n - 1, by omega⟩
      obtain ⟨key, d⟩ := field
      have hfresh : key ∉ values.map Prod.fst := by
        intro hkey
        exact (List.nodup_append.mp hnodup).2.2 key hkey key (by simp) rfl
      obtain ⟨f, rest, hrest, hf⟩ := restFields_head options hadOpenCurly (next :: fields) ts
      obtain ⟨newlines', hnew', hseparator⟩ := takes_fieldSeparator flavor hjson hadOpenCurly paths
        (.configString () next.1) (keySeparatorTokens options next.2.isObject ++
          next.2.tokens options ++ (restFields options fields ++
            (newlineToken options ++ closeToken hadOpenCurly :: ts)))
      have hloop := ih next (fun g hg => hread g (List.mem_cons_of_mem _ hg))
        (values ++ [(key, d.value)]) (by simpa using hnodup) newlines' hnew' true n
        (by simp only [List.length_cons] at hn; omega)
      have hsplit : f :: rest = fieldSeparatorTokens options ++ (fieldTokens options next ++
          (restFields options fields ++
            (newlineToken options ++ closeToken hadOpenCurly :: ts))) := by
        rw [← hrest]
        simp [restFields]
      rw [hrest]
      apply takes_objectRound flavor hjson includer hadOpenCurly hvalue
        (hread (key, d) List.mem_cons_self) hfresh hnew afterComma hf
      rw [hsplit]
      rw [List.append_assoc, List.singleton_append] at hloop
      exact Runs.bind hseparator hloop

-- The fields of an object up to its end.
theorem takes_fields (flavor : ConfigSyntax) (hjson : flavor = .JSON → options.json)
    (includer : Includer) (hadOpenCurly : Bool) (hvalue : ReadsValues read)
    (field : Bytes × Data) (fields : List (Bytes × Data))
    (hread : ∀ g ∈ field :: fields, ReadsData options read g.2)
    (hnodup : ((field :: fields).map Prod.fst).Nodup) (paths : List Path)
    (newlines : List Token) (hnew : ∀ x ∈ newlines, x = .newline) (ts : List Token) :
    Takes (parseObject flavor includer read hadOpenCurly) paths
      (newlines ++ (tokensFields options (field :: fields) ++
        (newlineToken options ++ closeToken hadOpenCurly :: ts)))
      (Data.object (field :: fields)).value (afterClose hadOpenCurly ts) := by
  have hlen := length_le_restFields options fields
  rw [tokensFields_cons, List.append_assoc]
  refine Runs.bind (takes_rounds paths _) ?_
  refine Runs.bind (takes_objectLoop flavor hjson includer hadOpenCurly hvalue field fields hread []
    hnodup paths newlines hnew false _ ?_ ts) ?_
  · simp only [List.length_append, List.length_cons, fieldTokens]
    omega
  · exact Runs.pure _

theorem takes_object (flavor : ConfigSyntax) (hjson : flavor = .JSON → options.json)
    (includer : Includer) (hvalue : ReadsValues read) (fields : List (Bytes × Data))
    (hread : ∀ g ∈ fields, ReadsData options read g.2) (hnodup : (fields.map Prod.fst).Nodup)
    (paths : List Path) (ts : List Token) :
    ∃ tail, (Data.object fields).tokens options = .openCurly :: tail ∧
      Takes (parseObject flavor includer read true) paths (tail ++ ts) (Data.object fields).value
        ts := by
  cases fields with
  | nil =>
      refine ⟨[.closeCurly], rfl, ?_⟩
      have hloop : Takes (parseObjectLoop flavor includer read true (ts.length + 1 + 1) false [])
          paths (.closeCurly :: ts) [] ts := by
        refine Runs.bind (takes_next flavor paths (t := .closeCurly) rfl rfl ts) ?_
        cases flavor <;> exact Runs.pure []
      exact Runs.bind (takes_rounds paths _) (Runs.bind hloop (Runs.pure _))
  | cons field fields =>
      have hfields := takes_fields flavor hjson includer true hvalue field fields hread hnodup paths
        (newlineToken options) (newlineToken_newline options) ts
      refine ⟨newlineToken options ++ (tokensFields options (field :: fields) ++
        (newlineToken options ++ [.closeCurly])), by simp [Data.tokens], ?_⟩
      simpa only [closeToken, afterClose, ite_true, List.append_assoc, List.singleton_append]
        using hfields

end

end AsrServiceProxy.Config

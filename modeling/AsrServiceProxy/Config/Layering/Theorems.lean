import AsrServiceProxy.Config.DottedKeys.Theorems
import AsrServiceProxy.Config.Layering

-- A document of many fields is read as its layers on top of one another.
namespace AsrServiceProxy.Config

open CMemory Simulation

mutual

theorem relativized_of_resolved (path : Path) : ∀ v : Value Unit, v.resolved →
    relativized path v = v
  | .configNull _, _ | .configBoolean _ _, _ | .configInt _ _ _, _ | .configInt64 _ _ _, _
  | .configDouble _ _, _ | .configString _ _, _ => rfl
  | .simpleConfigList id value, h =>
      congrArg (Value.simpleConfigList id) (relativizedAll_of_resolved path value h)
  | .simpleConfigObject id value ignores, h =>
      congrArg (Value.simpleConfigObject id · ignores) (relativizedFields_of_resolved path value h)

theorem relativizedAll_of_resolved (path : Path) : ∀ vs : List (Value Unit),
    Value.resolvedAll vs → relativizedAll path vs = vs
  | [], _ => rfl
  | v :: rest, h => by
      rw [Value.resolvedAll, Bool.and_eq_true] at h
      rw [relativizedAll, relativized_of_resolved path v h.1,
        relativizedAll_of_resolved path rest h.2]

theorem relativizedFields_of_resolved (path : Path) : ∀ fields : List (Bytes × Value Unit),
    Value.resolvedFields fields → relativizedFields path fields = fields
  | [], _ => rfl
  | (key, v) :: rest, h => by
      rw [Value.resolvedFields, Bool.and_eq_true] at h
      rw [relativizedFields, relativized_of_resolved path v h.1,
        relativizedFields_of_resolved path rest h.2]

end

section

variable {values : Fields Unit} {rest : List Token} {p : List Path}

-- A value is merged with the one that is there.
theorem returns_merged (hvalues : Value.resolvedFields values = true) {v : Value Unit}
    (hv : v.resolved = true) {key : Bytes} {existing : Value Unit}
    (hexisting : values.lookup key = some existing) (g : List Token × List Path) :
    Succeeds Stands (ofMake (withFallback .plain v existing)) g
      (fun merged g' => putField values key merged = lay values key v ∧ g' = g) := by
  have hresolved : existing.resolved = true := resolved_of_lookup hvalues hexisting
  have hrun := withFallback_eq (v.constructed_of_resolved hv)
    (existing.constructed_of_resolved hresolved)
  intro s hs
  refine ⟨fallback v existing, s, g, ?_, hs, ?_, rfl⟩
  · rw [ofMake, hrun]
  · rw [lay, hexisting]
    rfl

theorem returns_assign (hvalues : Value.resolvedFields values = true) {path : Path}
    (hpath : path.isStorable) {v : Value Unit} (hv : v.resolved = true)
    (g : List Token × List Path) :
    Succeeds Stands (storeField .CONF values path v) g
      (fun vs g' => vs = assign values path v ∧ g' = g) := by
  have hstore {key : Bytes} {v : Value Unit} (hv : v.resolved = true)
      (h : values.lookup key = none) : putField values key v = lay values key v := by
    rw [lay, h]
    rfl
  unfold storeField
  cases path with
  | newKey first =>
      cases hlookup : values.lookup first with
      | none =>
          simp only [Path.remainder, Path.first, hlookup]
          exact Succeeds.pure ⟨hstore hv hlookup, rfl⟩
      | some existing =>
          simp only [Path.remainder, Path.first, hlookup]
          refine Succeeds.bind (returns_merged hvalues hv hlookup g) ?_
          rintro merged _ ⟨hmerged, rfl⟩
          exact Succeeds.pure ⟨hmerged, rfl⟩
  | cons first remainder =>
      have hfirst : remainder.first ≠ [] := by
        intro hempty
        apply hpath
        cases remainder with
        | newKey key | cons key rest => exact congrArg some hempty
      have hobj : (chain (keysUnderPath remainder) v).resolved = true := by
        rw [resolved_chain, hv]
      refine Succeeds.bind (returns_ofExcept (createValueUnderPath_eq remainder v hfirst) g) ?_
      rintro _ _ ⟨rfl, rfl⟩
      cases hlookup : values.lookup first with
      | none =>
          simp only [Path.first, hlookup]
          exact Succeeds.pure ⟨hstore hobj hlookup, rfl⟩
      | some existing =>
          simp only [Path.first, hlookup]
          refine Succeeds.bind (returns_merged hvalues hobj hlookup _) ?_
          rintro merged _ ⟨hmerged, rfl⟩
          exact Succeeds.pure ⟨hmerged, rfl⟩

theorem returns_layAll {fields : Fields Unit} (hfields : Value.resolvedFields fields = true)
    (hvalues : Value.resolvedFields values = true) (g : List Token × List Path) :
    Succeeds Stands (addIncluded fields values) g
      (fun vs g' => vs = layAll values fields ∧ g' = g) := by
  induction fields generalizing values with
  | nil => exact Succeeds.pure ⟨rfl, rfl⟩
  | cons field fields ih =>
      obtain ⟨key, v⟩ := field
      rw [Value.resolvedFields, Bool.and_eq_true] at hfields
      have hrest := ih hfields.2 (resolvedFields_lay hvalues key hfields.1)
      unfold addIncluded
      cases hlookup : values.lookup key with
      | none =>
          rw [lay, hlookup] at hrest
          rw [layAll, List.foldl_cons, lay, hlookup]
          exact hrest
      | some existing =>
          refine Succeeds.bind (returns_merged hvalues hfields.1 hlookup g) ?_
          rintro merged _ ⟨hmerged, rfl⟩
          rw [hmerged]
          exact hrest

-- References are all that an include changes, and there are none.
theorem returns_inclusion (file : IncludedFile includer)
    (hvalues : Value.resolvedFields values = true) (h : Regular rest) :
    Succeeds Stands (parseInclude .CONF includer values)
      (file.inclusion.tokens.tail ++ rest, p)
      (fun vs g => vs = layAll values file.fields ∧ g = (rest, p)) := by
  unfold parseInclude
  refine Succeeds.bind (returns_includeName file.inclusion file.isBlank h) ?_
  rintro _ _ ⟨rfl, rfl⟩
  refine Succeeds.bind (returns_ofExcept ((file.inclusion.include_eq includer).trans file.included) _) ?_
  rintro _ _ ⟨rfl, rfl⟩
  have hget : Succeeds Stands (get : Parse ParseContext) (rest, p)
      (fun _ g => g = (rest, p)) := fun s hs => ⟨s, s, (rest, p), rfl, hs, rfl⟩
  refine Succeeds.bind hget ?_
  rintro s _ rfl
  have hfields := returns_layAll file.resolved hvalues (rest, p)
  dsimp only
  cases pathsToConcat s.pathStack with
  | none => exact hfields
  | some path =>
      have hsame := relativized_of_resolved path (.simpleConfigObject () file.fields false)
        file.resolved
      dsimp only
      rw [hsame]
      exact hfields

-- A field, from the token its key starts with: its value is stored.
theorem returns_readKey {read : TokenWithComments → Parse (Value Unit)} (key : StoredKey)
    {next : Token} (hkey : next.isKey = false) (hproblem : next.isProblem = false)
    (hne : next ≠ .newline) {behind tokens left : List Token} (h : Regular (next :: behind))
    {r : TokenWithComments} (hr : r.token :: tokens = key.tokens ++ next :: behind)
    (hvalues : Value.resolvedFields values = true) {v : Value Unit} (hv : v.resolved = true)
    (hvalue : ∀ r : TokenWithComments, r.token = next →
      Succeeds Stands (parseFieldValue .CONF read r) (behind, key.path :: p)
        (fun w g => w = v ∧ g = (left, key.path :: p))) :
    Succeeds Stands (readField includer read values r) (tokens, p)
      (fun vs g => vs = assign values key.path v ∧ g = (left, p)) := by
  have hkeyword : isIncludeKeyword r.token = false := by
    obtain ⟨x, more, htokens⟩ := List.exists_cons_of_ne_nil key.tokens_ne_nil
    apply key.notInclude
    rw [htokens, List.cons_append] at hr
    rw [htokens, (List.cons.inj hr).1]
    rfl
  rw [readField, hkeyword]
  exact returns_parseField key.toSpelledKey hkey hproblem hne h hr hvalue
    (returns_assign hvalues key.storable hv (left, p))

end

theorem FieldSeparator.plain (separator : FieldSeparator) :
    separator.token.isKey = false ∧ separator.token.isProblem = false ∧
      separator.token ≠ .newline := by
  cases separator <;> exact ⟨rfl, rfl, by simp [FieldSeparator.token]⟩

-- The value behind a separator, from the token after the separator on.
theorem FieldSeparator.parseFieldValue_eq (separator : FieldSeparator)
    (read : TokenWithComments → Parse (Value Unit)) {r : TokenWithComments}
    (hr : r.token = separator.token) : parseFieldValue .CONF read r = (do
      consolidateValueTokens .CONF read
      read (← nextTokenIgnoringNewline .CONF)) := by
  unfold parseFieldValue
  rw [hr]
  cases separator <;> rfl

theorem Gap.exists_endsValue (gap : Gap) (l : List Token) :
    ∃ stop more, gap.fieldEnd.tokens ++ l = stop :: more ∧ endsValue stop = true := by
  cases gap with
  | lines more => exact ⟨.newline, _, rfl, rfl⟩
  | comma before after =>
      cases before with
      | zero => exact ⟨.comma, _, rfl, rfl⟩
      | succ before => exact ⟨.newline, _, rfl, rfl⟩

-- Another round follows, maybe after some empty lines.
theorem Gap.returns_closeField (gap : Gap) (hadOpenCurly : Bool) {t : Token} {l : List Token}
    {p : List Path} (hne : t ≠ .newline) (hcomma : t ≠ .comma) (hproblem : t.isProblem = false)
    (h : Regular (t :: l)) :
    ∃ after, Succeeds Stands (closeField .CONF hadOpenCurly) (gap.fieldEnd.tokens ++ t :: l, p)
      (fun more g => more = true ∧ g = (List.replicate after .newline ++ t :: l, p)) := by
  cases gap with
  | lines more =>
      have hlines := returns_separator_lines (p := p) (more + 1) hne hcomma hproblem h
      rw [decide_eq_true (Nat.succ_pos more)] at hlines
      exact ⟨0, returns_closeField_separator hadOpenCurly hlines⟩
  | comma before after =>
      have hseparator := returns_separator_comma (p := p) before (.cons rfl (h.lines after))
      have hsplit : (Gap.comma before after).fieldEnd.tokens ++ t :: l =
          List.replicate before .newline ++ .comma :: (List.replicate after .newline ++ t :: l) := by
        rw [Gap.fieldEnd, FieldEnd.tokens, List.append_assoc, List.cons_append]
      rw [hsplit]
      exact ⟨after, returns_closeField_separator hadOpenCurly hseparator⟩

theorem StoredKey.exists_tokens (key : StoredKey) (behind : List Token) :
    ∃ x tokens, key.tokens ++ behind = x :: tokens ∧ x.isKey = true := by
  obtain ⟨x, more, htokens⟩ := List.exists_cons_of_ne_nil key.tokens_ne_nil
  refine ⟨x, more ++ behind, by rw [htokens]; rfl, key.isKey x ?_⟩
  rw [htokens]
  exact List.mem_cons_self ..

theorem Entry.exists_tokens (entry : Entry includer) :
    ∃ x tokens, entry.tokens = x :: tokens ∧ x.isKey = true := by
  cases entry with
  | field key separator literal => exact key.exists_tokens _
  | block key separator before body =>
      cases separator with
      | none => exact key.exists_tokens _
      | some separator => exact key.exists_tokens _
  | inclusion file => exact ⟨_, _, file.inclusion.tokens_eq, rfl⟩

-- What a body starts with, or what comes after it.
theorem Body.exists_next (body : Body includer) (closer : Token) (rest : List Token) :
    ∃ t l, body.tokens ++ closer :: rest = t :: l ∧ (t.isKey = true ∨ t = closer) := by
  have hentry (entry : Entry includer) (behind : List Token) :
      ∃ t l, entry.tokens ++ behind = t :: l ∧ (t.isKey = true ∨ t = closer) := by
    obtain ⟨x, tokens, htokens, hx⟩ := entry.exists_tokens
    exact ⟨x, tokens ++ behind, by rw [htokens]; rfl, .inl hx⟩
  cases body with
  | nil => exact ⟨closer, rest, rfl, .inr rfl⟩
  | last entry fieldEnd =>
      rw [Body.tokens, List.append_assoc]
      exact hentry entry _
  | more entry gap more =>
      rw [Body.tokens, List.append_assoc]
      exact hentry entry _

theorem next_plain {t closer : Token} (h : t.isKey = true ∨ t = closer)
    (hcloser : closer ≠ .newline ∧ closer ≠ .comma ∧ closer.isProblem = false) :
    t ≠ .newline ∧ t ≠ .comma ∧ t.isProblem = false := by
  rcases h with hkey | rfl
  · refine ⟨ne_newline_of_isKey hkey, ?_, Token.isProblem_of_isKey hkey⟩
    rintro rfl
    cases hkey
  · exact hcloser

-- From its first token on the entry is read and stored, where a field may end behind it.
def Entry.IsRead (entry : Entry includer) : Prop :=
  ∀ {depth : ℕ} {values : Fields Unit} {stop : Token} {rest tokens : List Token} {p : List Path}
    {r : TokenWithComments}, entry.tokens = r.token :: tokens → entry.tokens.length < depth →
    Value.resolvedFields values = true → endsValue stop = true →
    Regular (entry.tokens ++ stop :: rest) →
    Succeeds Stands (readField includer (parseValue .CONF includer depth) values r)
      (tokens ++ stop :: rest, p) (fun vs g => vs = entry.store values ∧ g = (stop :: rest, p))

-- The rounds of the loop read the body up to what closes the object.
def Body.IsRead (body : Body includer) : Prop :=
  ∀ {depth n front : ℕ} {afterComma hadOpenCurly : Bool} {closer : Token} {values : Fields Unit}
    {rest : List Token} {p : List Path}, (closer = if hadOpenCurly then .closeCurly else .end_) →
    Regular (body.tokens ++ closer :: rest) → body.tokens.length ≤ n → body.tokens.length < depth →
    Value.resolvedFields values = true →
    Succeeds Stands (parseObjectLoop .CONF includer (parseValue .CONF includer depth) hadOpenCurly
      (n + 1) afterComma values)
      (List.replicate front .newline ++ (body.tokens ++ closer :: rest), p)
      (fun vs g => vs = body.store values ∧
        g = (if hadOpenCurly then rest else closer :: rest, p))

theorem Entry.isRead_field (key : StoredKey) (separator : FieldSeparator) (literal : Literal) :
    (Entry.field key separator literal : Entry includer).IsRead := by
  intro depth values stop rest tokens p r htokens hdepth hvalues hstop h
  obtain ⟨hkey, hproblem, hne⟩ := separator.plain
  have hsplit : (Entry.field key separator literal : Entry includer).tokens ++ stop :: rest =
      key.tokens ++ separator.token :: (literal.tokens ++ stop :: rest) := by
    rw [Entry.tokens, List.append_assoc, List.cons_append]
  rw [hsplit] at h
  have hbehind := h.suffix ⟨key.tokens, rfl⟩ (List.cons_ne_nil _ _)
  have hliteral : literal.tokens.length < depth := by
    simp only [Entry.tokens, List.length_append, List.length_cons] at hdepth
    omega
  rw [htokens, List.cons_append] at hsplit
  apply returns_readKey key hkey hproblem hne hbehind hsplit hvalues literal.resolved
  intro r hr
  rw [separator.parseFieldValue_eq _ hr]
  exact literal.reads includer depth stop rest _ hliteral hstop
    (hbehind.suffix ⟨[separator.token], rfl⟩ (by simp))

section

variable {body : Body includer} {before : ℕ}

-- The object in the braces, wherever they stand.
theorem Body.IsRead.returns_braces (hbody : body.IsRead) {depth : ℕ}
    (hdepth : (braces before body.tokens).length < depth) {r : TokenWithComments} {rest : List Token}
    {p : List Path} (hr : r.token = .openCurly) (h : Regular (braces before body.tokens ++ rest)) :
    Succeeds Stands (parseValue .CONF includer depth r)
      (List.replicate before .newline ++ (body.tokens ++ [.closeCurly]) ++ rest, p)
      (fun w g => w = .simpleConfigObject () (body.store []) false ∧ g = (rest, p)) := by
  simp only [braces, List.length_cons, List.length_append] at hdepth
  obtain ⟨depth, rfl⟩ : ∃ d, depth = d + 1 := ⟨depth - 1, by omega⟩
  have hvalue : parseValue .CONF includer (depth + 1) r =
      parseObject .CONF includer (parseValue .CONF includer depth) true := by
    rw [parseValue, hr]
  have hsplit : List.replicate before .newline ++ (body.tokens ++ [.closeCurly]) ++ rest =
      List.replicate before .newline ++ (body.tokens ++ .closeCurly :: rest) := by
    simp
  have hinner : Regular (body.tokens ++ .closeCurly :: rest) :=
    h.suffix ⟨.openCurly :: List.replicate before .newline, by simp [braces]⟩ (by simp)
  rw [hvalue, hsplit]
  apply returns_parseObject
  intro n hn
  simp only [List.length_append, List.length_cons] at hn
  refine Succeeds.imp (hbody rfl hinner (by omega) (by omega) rfl) ?_
  rintro _ _ ⟨rfl, rfl⟩
  exact ⟨rfl, rfl⟩

theorem Body.resolved_store (body : Body includer) :
    (Value.simpleConfigObject () (body.store []) false).resolved = true :=
  body.resolvedFields_store rfl

theorem Entry.isRead_block (key : StoredKey) (hbody : body.IsRead) :
    (Entry.block key none before body).IsRead := by
  intro depth values stop rest tokens p r htokens hdepth hvalues hstop h
  have hsplit : (Entry.block key none before body).tokens ++ stop :: rest =
      key.tokens ++ (braces before body.tokens ++ stop :: rest) := by
    rw [Entry.tokens, List.append_assoc]
  rw [hsplit] at h
  have hbehind := h.suffix ⟨key.tokens, rfl⟩ (by simp [braces])
  have hbraces : (braces before body.tokens).length < depth := by
    rw [Entry.tokens, List.length_append] at hdepth
    omega
  rw [htokens, List.cons_append] at hsplit
  apply returns_readKey key rfl rfl (by simp) hbehind hsplit hvalues body.resolved_store
  intro r hr
  have hfield : parseFieldValue .CONF (parseValue .CONF includer depth) r =
      parseValue .CONF includer depth r := by
    unfold parseFieldValue
    rw [hr]
  rw [hfield]
  exact hbody.returns_braces hbraces hr hbehind

theorem Entry.isRead_assigned (key : StoredKey) (separator : FieldSeparator)
    (hbody : body.IsRead) : (Entry.block key (some separator) before body).IsRead := by
  intro depth values stop rest tokens p r htokens hdepth hvalues hstop h
  obtain ⟨hkey, hproblem, hne⟩ := separator.plain
  have hsplit : (Entry.block key (some separator) before body).tokens ++ stop :: rest =
      key.tokens ++ separator.token :: (braces before body.tokens ++ stop :: rest) := by
    rw [Entry.tokens, List.append_assoc, List.cons_append]
  rw [hsplit] at h
  have hbehind := h.suffix ⟨key.tokens, rfl⟩ (List.cons_ne_nil _ _)
  have hinner := hbehind.suffix ⟨[separator.token], rfl⟩ (by simp)
  have hend : Regular (stop :: rest) :=
    hinner.suffix ⟨braces before body.tokens, rfl⟩ (List.cons_ne_nil _ _)
  have hbraces : (braces before body.tokens).length < depth := by
    rw [Entry.tokens, List.length_append, List.length_cons] at hdepth
    omega
  rw [htokens, List.cons_append] at hsplit
  apply returns_readKey key hkey hproblem hne hbehind hsplit hvalues body.resolved_store
  intro r hr
  rw [separator.parseFieldValue_eq _ hr]
  -- the object is put together with nothing and put back as a value
  have hpiece : ReadsPiece (parseValue .CONF includer depth) (braces before body.tokens)
      (.simpleConfigObject () (body.store []) false) := by
    apply readsPiece_open (.inr rfl)
    intro r rest p hr h
    exact hbody.returns_braces hbraces hr h
  exact returns_consolidated (Nat.zero_lt_of_lt hbraces) hend
    (returns_consolidate hpiece hstop hinner)

end

theorem Entry.isRead_inclusion (file : IncludedFile includer) : (Entry.inclusion file).IsRead := by
  intro depth values stop rest tokens p r htokens hdepth hvalues hstop h
  have hend : Regular (stop :: rest) := h.suffix ⟨_, rfl⟩ (List.cons_ne_nil _ _)
  rw [Entry.tokens, file.inclusion.tokens_eq] at htokens
  obtain ⟨hr, rfl⟩ := List.cons.inj htokens
  have hkeyword : isIncludeKeyword r.token = true := by
    rw [← hr]
    rfl
  rw [readField, hkeyword]
  exact returns_inclusion file hvalues hend

theorem Body.isRead_nil : (Body.nil : Body includer).IsRead := by
  intro depth n front afterComma hadOpenCurly closer values rest p hcloser h hn hdepth hvalues
  exact returns_noField front n afterComma hcloser h

section

variable {entry : Entry includer}

-- A round of the loop stores the entry; what closes the field behind it comes next.
theorem Entry.IsRead.returns_stored (hentry : entry.IsRead) {depth : ℕ}
    (hdepth : entry.tokens.length < depth) {values : Fields Unit}
    (hvalues : Value.resolvedFields values = true) {stop : Token} (hstop : endsValue stop = true)
    {behind : List Token} (h : Regular (entry.tokens ++ stop :: behind)) (front n : ℕ)
    (afterComma : Bool) {hadOpenCurly : Bool} {p : List Path}
    {post : Fields Unit → List Token × List Path → Prop}
    (hclose : Succeeds Stands (do
      if ← closeField .CONF hadOpenCurly then
        parseObjectLoop .CONF includer (parseValue .CONF includer depth) hadOpenCurly n true
          (entry.store values)
      else return entry.store values) (stop :: behind, p) post) :
    Succeeds Stands (parseObjectLoop .CONF includer (parseValue .CONF includer depth) hadOpenCurly
      (n + 1) afterComma values)
      (List.replicate front .newline ++ (entry.tokens ++ stop :: behind), p) post := by
  obtain ⟨x, tokens, htokens, hx⟩ := entry.exists_tokens
  have hread := h
  rw [htokens, List.cons_append] at h ⊢
  apply returns_round front n afterComma h hx
  intro r hr
  rw [← hr] at htokens
  refine Succeeds.bind (hentry htokens hdepth hvalues hstop hread) ?_
  rintro _ _ ⟨rfl, rfl⟩
  exact hclose

theorem Entry.length_pos (entry : Entry includer) : 0 < entry.tokens.length := by
  obtain ⟨x, tokens, htokens, -⟩ := entry.exists_tokens
  rw [htokens]
  exact Nat.succ_pos _

theorem Body.isRead_last (hentry : entry.IsRead) (fieldEnd : FieldEnd) :
    (Body.last entry fieldEnd).IsRead := by
  intro depth n front afterComma hadOpenCurly closer values rest p hcloser h hn hdepth hvalues
  have hends : endsValue closer = true := by
    rw [hcloser]
    cases hadOpenCurly <;> rfl
  obtain ⟨stop, more, hstop, hendsValue⟩ := fieldEnd.exists_endsValue hends rest
  rw [Body.tokens, List.append_assoc] at h ⊢
  rw [Body.tokens, List.length_append] at hn hdepth
  have hclosing : Regular (closer :: rest) :=
    h.suffix ⟨entry.tokens ++ fieldEnd.tokens, by simp⟩ (List.cons_ne_nil _ _)
  have hpos := entry.length_pos
  obtain ⟨n, rfl⟩ : ∃ m, n = m + 1 := ⟨n - 1, by omega⟩
  rw [hstop] at h ⊢
  apply hentry.returns_stored (by omega) hvalues hendsValue h front (n + 1) afterComma
  rw [← hstop]
  exact returns_lastField fieldEnd hcloser hclosing (entry.store values) n

theorem Body.isRead_more (hentry : entry.IsRead) (gap : Gap) {rest : Body includer}
    (hrest : rest.IsRead) : (Body.more entry gap rest).IsRead := by
  intro depth n front afterComma hadOpenCurly closer values behind p hcloser h hn hdepth hvalues
  obtain ⟨t, l, hnext, ht⟩ := rest.exists_next closer behind
  obtain ⟨hne, hcomma, hproblem⟩ := next_plain ht (closer_plain hadOpenCurly hcloser)
  obtain ⟨stop, more, hstop, hendsValue⟩ := gap.exists_endsValue (rest.tokens ++ closer :: behind)
  rw [Body.tokens, List.append_assoc, List.append_assoc] at h ⊢
  rw [Body.tokens, List.length_append, List.length_append] at hn hdepth
  have hinner : Regular (rest.tokens ++ closer :: behind) :=
    h.suffix ⟨entry.tokens ++ gap.fieldEnd.tokens, by simp⟩ (by simp)
  have hpos := entry.length_pos
  obtain ⟨n, rfl⟩ : ∃ m, n = m + 1 := ⟨n - 1, by omega⟩
  have hlength : rest.tokens.length ≤ n := by omega
  rw [hstop] at h ⊢
  apply hentry.returns_stored (by omega) hvalues hendsValue h front (n + 1) afterComma
  have hloop (after : ℕ) : Succeeds Stands (parseObjectLoop .CONF includer
      (parseValue .CONF includer depth) hadOpenCurly (n + 1) true (entry.store values))
      (List.replicate after .newline ++ (rest.tokens ++ closer :: behind), p)
      (fun vs g => vs = rest.store (entry.store values) ∧
        g = (if hadOpenCurly then behind else closer :: behind, p)) :=
    hrest hcloser hinner hlength (by omega) (entry.resolvedFields_store hvalues)
  rw [← hstop]
  rw [hnext] at hinner hloop ⊢
  obtain ⟨after, hclose⟩ := gap.returns_closeField hadOpenCurly hne hcomma hproblem hinner
  refine Succeeds.bind hclose ?_
  rintro _ _ ⟨rfl, rfl⟩
  exact hloop after

end

mutual

theorem Entry.isRead : ∀ entry : Entry includer, entry.IsRead
  | .field key separator literal => Entry.isRead_field key separator literal
  | .block key none _ body => Entry.isRead_block key body.isRead
  | .block key (some separator) _ body => Entry.isRead_assigned key separator body.isRead
  | .inclusion file => Entry.isRead_inclusion file

theorem Body.isRead : ∀ body : Body includer, body.IsRead
  | .nil => Body.isRead_nil
  | .last entry fieldEnd => Body.isRead_last entry.isRead fieldEnd
  | .more entry gap rest => Body.isRead_more entry.isRead gap rest.isRead

end

-- A root without braces, also an empty one.
theorem returns_bareRoot {depth : ℕ} {t : Token} {l : List Token} {p : List Path}
    (ht : t.isKey = true ∨ t = .end_) {r : TokenWithComments} (hr : r.token = t)
    {post : Value Unit → List Token × List Path → Prop}
    (hobject : Succeeds Stands (parseObject .CONF includer (parseValue .CONF includer depth) false)
      (t :: l, p) post) : Succeeds Stands (parseRoot includer depth r) (l, p) post := by
  rcases ht with hkey | rfl
  · exact returns_parseRoot hkey hr hobject
  · have hback := returns_putBackToken r l p
    rw [hr] at hback
    unfold parseRoot
    rw [hr]
    refine Succeeds.bind hback ?_
    rintro _ _ rfl
    exact hobject

theorem returns_bareDocument (body : Body includer) (before : ℕ) {p : List Path}
    (h : Regular (body.tokens ++ [.end_])) :
    Succeeds Stands (parseDocument .CONF includer)
      (.start :: (List.replicate before .newline ++ (body.tokens ++ [.end_])), p)
      (fun v _ => v = .simpleConfigObject () (body.store []) false) := by
  obtain ⟨t, l, hnext, ht⟩ := body.exists_next .end_ []
  obtain ⟨hne, -, hproblem⟩ := next_plain ht (closer_plain false rfl)
  have hlength : body.tokens.length ≤ l.length := by
    have hlength := congrArg List.length hnext
    simp only [List.length_append, List.length_cons, List.length_nil] at hlength
    omega
  have hobject {depth : ℕ} (hdepth : l.length < depth) :
      Succeeds Stands (parseObject .CONF includer (parseValue .CONF includer depth) false)
        (t :: l, p) (fun v g => v = .simpleConfigObject () (body.store []) false ∧
          g = (List.replicate 0 .newline ++ [.end_], p)) := by
    apply returns_parseObject
    intro n hn
    rw [List.length_cons] at hn
    rw [← hnext]
    have hread : Succeeds Stands (parseObjectLoop .CONF includer (parseValue .CONF includer depth)
        false (n + 1) false []) (List.replicate 0 .newline ++ (body.tokens ++ [.end_]), p)
        (fun vs g => vs = body.store [] ∧ g = ([.end_], p)) :=
      body.isRead rfl h (by omega) (by omega) rfl
    refine Succeeds.imp hread ?_
    rintro _ _ ⟨rfl, rfl⟩
    exact ⟨rfl, rfl⟩
  rw [hnext] at h ⊢
  exact returns_parseDocument before 0 h hne hproblem fun depth r hdepth hr =>
    returns_bareRoot ht hr (hobject hdepth)

theorem LayeredDocument.isRead (document : LayeredDocument includer) {p : List Path}
    (h : Regular document.tokens) :
    Succeeds Stands (parseDocument .CONF includer) (document.tokens, p)
      (fun v _ => v = .simpleConfigObject () (document.body.store []) false) := by
  cases document with
  | bare before body =>
      exact returns_bareDocument body before
        (h.suffix ⟨.start :: List.replicate before .newline, rfl⟩ (by simp))
  | braced front before body back =>
      have hroot : Regular (braces before body.tokens ++
          (List.replicate back .newline ++ [.end_])) :=
        h.suffix ⟨.start :: List.replicate front .newline, rfl⟩ (by simp)
      apply returns_parseDocument front back hroot (by simp) rfl
      intro depth r hdepth hr
      have hbraces : (braces before body.tokens).length < depth := by
        change (List.replicate before Token.newline ++ (body.tokens ++ [Token.closeCurly]) ++
          (List.replicate back Token.newline ++ [Token.end_])).length < depth at hdepth
        simp only [braces, List.length_append, List.length_cons] at hdepth ⊢
        omega
      have hvalue : parseRoot includer depth r = parseValue .CONF includer depth r := by
        rw [parseRoot, hr]
      rw [hvalue]
      exact Body.IsRead.returns_braces body.isRead hbraces hr hroot

theorem parse_stored (doubles : Doubles) (document : LayeredDocument includer) (text : Bytes)
    (h : significant (tokenize doubles text .CONF) = document.tokens) :
    parse doubles includer .CONF text =
      .ok (.simpleConfigObject () (document.body.store []) false) := by
  obtain ⟨hdocument, -⟩ := tokenize_document doubles text .CONF
  have hregular : Regular document.tokens := h ▸ hdocument.regular
  have hstands : Stands { tokens := tokenize doubles text .CONF, buffer := [], pathStack := [] }
      (document.tokens, []) := ⟨h, rfl⟩
  obtain ⟨_, s, _, hrun, _, rfl⟩ := document.isRead hregular _ hstands
  rw [parse, hrun]

theorem descend_of_shape (keys : List Bytes) {v w : Value Unit} (h : v.shape = w.shape) :
    (v.descend keys).map Value.shape = (w.descend keys).map Value.shape := by
  induction keys generalizing v w with
  | nil => exact congrArg some h
  | cons key keys ih =>
      have hnone {v : Value Unit} (hv : v.isSimpleObject = false) :
          v.descend (key :: keys) = none := by
        rw [Value.descend_cons, Value.child_eq_none hv]
        rfl
      by_cases hsimple : v.isSimpleObject
      · obtain ⟨value, ignores, rfl⟩ := Value.eq_object hsimple
        obtain ⟨others, rfl, hfields⟩ := eq_of_shape_object h
        have hkey := hfields key
        rw [Value.descend_cons, Value.descend_cons, Value.child, Value.child]
        cases hv : value.lookup key with
        | none =>
            rw [hv, Option.map_none, eq_comm, Option.map_eq_none_iff] at hkey
            rw [hkey]
        | some v =>
            rw [hv, Option.map_some, eq_comm, Option.map_eq_some_iff] at hkey
            obtain ⟨w, hw, hshape⟩ := hkey
            rw [hw]
            exact ih hshape.symm
      · rw [Bool.not_eq_true] at hsimple
        have hother : w.isSimpleObject = false := by
          rw [Bool.eq_false_iff]
          intro hobject
          rw [isObject_of_shape h.symm hobject] at hsimple
          cases hsimple
        rw [hnone hsimple, hnone hother]

theorem keptOnTop_shape {value : Value Unit} (hvalue : value.isSimpleObject = false) :
    KeptOnTop fun v => v.shape = value.shape := by
  have hobject {v : Value Unit} (hv : v.isSimpleObject) : v.shape ≠ value.shape := by
    intro heq
    rw [isObject_of_shape heq hv] at hvalue
    cases hvalue
  intro a b ha hb
  by_cases h : a.isSimpleObject
  · have hmerged : (fallback a b).isSimpleObject = true := by
      obtain ⟨fields, ignores, rfl⟩ := Value.eq_object h
      have hkind := isObject_fallback ha hb rfl
      obtain ⟨_, _, _, heq⟩ := Value.eq_simpleConfigObject hkind (resolved_fallback _ _ ha hb)
      rw [heq]
      rfl
    simp only [hobject h, hobject hmerged]
  · rw [Bool.not_eq_true] at h
    rw [fallback_of_resolved ha h]

theorem supplies_congr {keys : List Bytes} {p : Value Unit → Prop}
    {top bottom bottom' : List (Value Unit)} (h : Supplies keys p bottom ↔ Supplies keys p bottom') :
    Supplies keys p (top ++ bottom) ↔ Supplies keys p (top ++ bottom') := by
  induction top with
  | nil => exact h
  | cons layer top ih => rw [List.cons_append, List.cons_append, Supplies, Supplies, ih]

-- What is found in a stack is what its layers supply, from the last one down.
theorem descend_stacked {keys : List Bytes} {p : Value Unit → Prop} (hp : KeptOnTop p)
    {layers : List (Value Unit)} {below : Value Unit}
    (hlayers : ∀ layer ∈ layers, layer.resolved = true) (hbelow : below.resolved = true) :
    (∃ v, (stacked layers below).descend keys = some v ∧ p v) ↔
      Supplies keys p (layers.reverse ++ [below]) := by
  induction layers generalizing below with
  | nil => simp [stacked, Supplies]
  | cons layer rest ih =>
      obtain ⟨hlayer, hrest⟩ := List.forall_mem_cons.mp hlayers
      have hmerged := resolved_fallback layer below hlayer hbelow
      refine (ih hrest hmerged).trans ?_
      rw [List.reverse_cons, List.append_assoc]
      exact supplies_congr (supplies_fallback hp hlayer hbelow [])

theorem supplies_emptyObject {keys : List Bytes} {p : Value Unit → Prop}
    (hp : ¬p .emptyObject) : ¬Supplies keys p [.emptyObject] := by
  simp only [Supplies, and_false, or_false]
  rintro ⟨v, hv, hpv⟩
  cases keys with
  | nil =>
      obtain rfl := Option.some.inj hv
      exact hp hpv
  | cons key keys => cases hv

theorem setting_stacked {layers : List (Value Unit)}
    (hlayers : ∀ layer ∈ layers, layer.resolved = true) (keys : List Bytes) {value : Value Unit}
    (hvalue : value.isSimpleObject = false) :
    (∃ v, (stacked layers .emptyObject).descend keys = some v ∧ v.shape = value.shape) ↔
      ∃ earlier layer later v, layers = earlier ++ layer :: later ∧
        layer.descend keys = some v ∧ v.shape = value.shape ∧
        ∀ other ∈ later, other.descend keys = none ∧ other.opens keys = true := by
  have hempty : Value.emptyObject.shape ≠ value.shape := by
    intro heq
    rw [isObject_of_shape heq rfl] at hvalue
    cases hvalue
  have hbottom : Supplies keys (fun v => v.shape = value.shape) [.emptyObject] ↔
      Supplies keys (fun v => v.shape = value.shape) [] :=
    iff_of_false (supplies_emptyObject hempty) id
  rw [descend_stacked (keptOnTop_shape hvalue) hlayers rfl, supplies_congr hbottom,
    List.append_nil, supplies_iff]
  constructor
  · rintro ⟨above, layer, below, v, heq, hv, hsame, habove⟩
    refine ⟨below.reverse, layer, above.reverse, v, ?_, hv, hsame, ?_⟩
    · rw [List.reverse_eq_iff] at heq
      simpa using heq
    · simpa using habove
  · rintro ⟨earlier, layer, later, v, heq, hv, hsame, hlater⟩
    refine ⟨later.reverse, layer, earlier.reverse, v, ?_, hv, hsame, ?_⟩
    · rw [heq]
      simp
    · simpa using hlater

-- A setting of a document is that of the last entry with something at its path, unless
-- a later one has a value in the way.
theorem parse_layers (doubles : Doubles) (document : LayeredDocument includer) (text : Bytes)
    (h : significant (tokenize doubles text .CONF) = document.tokens) :
    ∃ root : Value Unit, parse doubles includer .CONF text = .ok root ∧ root.resolved = true ∧
      root.shape = (stacked document.body.layers .emptyObject).shape ∧
      ∀ (keys : List Bytes) (value : Value Unit), value.isSimpleObject = false →
        ((∃ v, root.descend keys = some v ∧ v.shape = value.shape) ↔
          ∃ earlier layer later v, document.body.layers = earlier ++ layer :: later ∧
            layer.descend keys = some v ∧ v.shape = value.shape ∧
            ∀ other ∈ later, other.descend keys = none ∧ other.opens keys = true) := by
  have hresolved := document.body.resolved_store
  have hshape : (Value.simpleConfigObject () (document.body.store []) false).shape =
      (stacked document.body.layers .emptyObject).shape := document.body.shape_store rfl
  refine ⟨_, parse_stored doubles document text h, hresolved, hshape, ?_⟩
  intro keys value hvalue
  have hdescend := descend_of_shape keys hshape
  have hroot : (∃ v, (Value.simpleConfigObject () (document.body.store []) false).descend keys =
      some v ∧ v.shape = value.shape) ↔
      ∃ v, (stacked document.body.layers .emptyObject).descend keys = some v ∧
        v.shape = value.shape := by
    rw [← Option.map_eq_some_iff, ← Option.map_eq_some_iff, hdescend]
  rw [hroot]
  exact setting_stacked document.body.resolved_layers keys hvalue

-- A test for equality that tells the braces, the commas and the colons, too.
def Token.coincides : Token → Token → Bool
  | .openCurly, .openCurly | .closeCurly, .closeCurly | .comma, .comma | .colon, .colon => true
  | t, t' => t.matches t'

theorem Token.eq_of_coincides {t t' : Token} (h : t.coincides t' = true) : t = t' := by
  unfold Token.coincides at h
  split at h
  · rfl
  · rfl
  · rfl
  · rfl
  · exact Token.eq_of_matches h

theorem eq_of_coincide {ts ts' : List Token} (h : List.isEqv ts ts' Token.coincides = true) :
    ts = ts' := by
  induction ts generalizing ts' with
  | nil =>
      cases ts' with
      | nil => rfl
      | cons => cases h
  | cons t ts ih =>
      cases ts' with
      | nil => cases h
      | cons t' ts' =>
          obtain ⟨hhead, htail⟩ := Bool.and_eq_true_iff.mp h
          rw [Token.eq_of_coincides hhead, ih htail]

def Literal.int (n : Int32) (text : Bytes) : Literal :=
  .ofTokens (.scalar (.configInt () n text)) rfl

-- `a { c = 5 }`
def moreSettings : Fields Unit :=
  [(ascii "a", .simpleConfigObject () [(ascii "c", .configInt () 5 (ascii "5"))] false)]

def moreSettingsFile : IncludedFile (.ofFields moreSettings) where
  inclusion := .plain [.unquotedText (ascii " ")] (ascii "more")
  fields := moreSettings
  isBlank := by decide
  included := rfl
  resolved := rfl
  nodup := by decide

theorem dotted_plain : SpelledPath.dotted.startsInclude = false := rfl

theorem dotted_storable : SpelledPath.dotted.path.isStorable := by
  unfold Path.isStorable
  decide

def StoredKey.dotted : StoredKey where
  toSpelledKey := SpelledPath.dotted.spelledKey dotted_plain
  storable := dotted_storable

theorem storable_newKey (letter : Bytes) : (Path.newKey letter).isStorable := by
  simp [Path.isStorable, Path.keys]

-- The text is a key by itself.
def IsPlainKey (letter : Bytes) : Prop :=
  parsePathExpression [.unquotedText letter] = .ok (.newKey letter) ∧ letter ≠ ascii "include"

def StoredKey.plain (letter : Bytes) (h : IsPlainKey letter) : StoredKey where
  toSpelledKey := .ofLetter letter h.1 h.2
  storable := storable_newKey letter

theorem isPlainKey_a : IsPlainKey (ascii "a") := ⟨by decide +kernel, by decide⟩

theorem isPlainKey_b : IsPlainKey (ascii "b") := ⟨by decide +kernel, by decide⟩

theorem isPlainKey_c : IsPlainKey (ascii "c") := ⟨by decide +kernel, by decide⟩

def threeLayers : Bytes := ascii "a.b = 1\na \x7b c : 2, b = 3 \x7d\ninclude \"more\"\n"

def threeLayersDocument : LayeredDocument (.ofFields moreSettings) :=
  let one := Entry.field .dotted .equals (.int 1 (ascii "1"))
  let two := Entry.field (.plain (ascii "c") isPlainKey_c) .colon (.int 2 (ascii "2"))
  let three := Entry.field (.plain (ascii "b") isPlainKey_b) .equals (.int 3 (ascii "3"))
  let block := Entry.block (.plain (ascii "a") isPlainKey_a) none 0
    (.more two (.comma 0 0) (.last three (.lines 0)))
  let file := Entry.inclusion moreSettingsFile
  .bare 0 (.more one (.lines 0) (.more block (.lines 0) (.last file (.lines 1))))

-- The block is over the dotted key, and the file over the block.
theorem parse_layers_three :
    ∃ root : Value Unit, parse noDoubles (.ofFields moreSettings) .CONF threeLayers = .ok root ∧
      (∃ v, root.descend [ascii "a", ascii "b"] = some v ∧
        v.shape = (Value.configInt () 3 (ascii "3")).shape) ∧
      ∃ v, root.descend [ascii "a", ascii "c"] = some v ∧
        v.shape = (Value.configInt () 5 (ascii "5")).shape := by
  have htokens : significant (tokenize noDoubles threeLayers .CONF) =
      threeLayersDocument.tokens := eq_of_coincide (by decide +kernel)
  obtain ⟨root, hparse, -, -, hsettings⟩ :=
    parse_layers noDoubles threeLayersDocument threeLayers htokens
  refine ⟨root, hparse, (hsettings _ _ rfl).mpr ?_, (hsettings _ _ rfl).mpr ?_⟩
  · refine ⟨[_], _, [_], _, rfl, rfl, rfl, ?_⟩
    intro other hother
    rw [List.mem_singleton.mp hother]
    exact ⟨rfl, rfl⟩
  · exact ⟨[_, _], _, [], _, rfl, rfl, rfl, by simp⟩

end AsrServiceProxy.Config

import AsrServiceProxy.Config.Including
import AsrServiceProxy.Config.Parser.Returns
import AsrServiceProxy.Config.Resolve.Merging

-- What the parser makes of an include in nested fields.
namespace AsrServiceProxy.Config

open CMemory Simulation

section

variable {l rest : List Token} {t : Token} {p : List Path}

-- The tokens of a key, up to one that is not part of it.
theorem returns_keyLoop (key : List Token) (hkey : ∀ t ∈ key, t.isKey = true) {stop : Token}
    (hstop : stop.isKey = false) (hproblem : stop.isProblem = false)
    (hl : Regular (stop :: rest)) {r : TokenWithComments} (hr : r.token :: l = key ++ stop :: rest)
    (n : ℕ) (hn : key.length < n) (expression : List Token) (hne : expression ++ key ≠ []) :
    Succeeds Stands (keyLoop .CONF n r expression) (l, p)
      (fun e g => e = expression ++ key ∧ g = (stop :: rest, p)) := by
  induction key generalizing r l n expression with
  | nil =>
      obtain ⟨rfl, rfl⟩ := List.cons.inj hr
      obtain ⟨n, rfl⟩ := Nat.exists_eq_succ_of_ne_zero (Nat.ne_of_gt hn)
      rw [List.append_nil] at hne
      have hback : Succeeds Stands (do
            if expression.isEmpty then
              throw (.parse "expecting a close brace or a field name here, got ")
            putBackToken r
            return expression : Parse (List Token)) (l, p)
          (fun e g => e = expression ++ [] ∧ g = (r.token :: l, p)) := by
        have hempty : ¬expression.isEmpty := by
          rwa [List.isEmpty_iff]
        rw [if_neg hempty]
        refine Succeeds.bind (returns_putBackToken r l p) ?_
        rintro _ _ rfl
        exact Succeeds.pure ⟨(List.append_nil _).symm, rfl⟩
      unfold keyLoop
      cases htoken : r.token with
      | value v =>
          rw [htoken] at hstop
          cases hstop
      | unquotedText text =>
          rw [htoken] at hstop
          cases hstop
      | _ =>
          rw [htoken] at hback
          exact hback
  | cons x key ih =>
      obtain ⟨rfl, rfl⟩ := List.cons.inj hr
      obtain ⟨hx, hkey⟩ := List.forall_mem_cons.mp hkey
      rw [List.length_cons] at hn
      obtain ⟨n, rfl⟩ := Nat.exists_eq_succ_of_ne_zero (Nat.ne_of_gt (Nat.zero_lt_of_lt hn))
      have hregular : Regular (key ++ stop :: rest) :=
        Regular.append_left (fun t ht => Token.isRegular_of_isKey (hkey t ht)) hl
      obtain ⟨y, l', hsplit, hy⟩ : ∃ y l', key ++ stop :: rest = y :: l' ∧ y.isProblem = false := by
        cases key with
        | nil => exact ⟨stop, rest, rfl, hproblem⟩
        | cons y key =>
            exact ⟨y, _, rfl, Token.isProblem_of_isKey (hkey y (List.mem_cons_self ..))⟩
      have hmore : Succeeds Stands
          (do keyLoop .CONF n (← nextToken .CONF) (expression ++ [r.token]))
          (key ++ stop :: rest, p)
          (fun e g => e = expression ++ r.token :: key ∧ g = (stop :: rest, p)) := by
        rw [hsplit] at hregular ⊢
        refine Succeeds.bind (returns_nextToken hregular hy) ?_
        rintro r' _ ⟨rfl, rfl⟩
        refine Succeeds.imp (ih hkey hsplit.symm n (by omega) (expression ++ [r.token]) (by simp)) ?_
        rintro e g ⟨he, hg⟩
        exact ⟨by rw [he, List.append_assoc]; rfl, hg⟩
      unfold keyLoop
      cases htoken : r.token with
      | value v =>
          rw [htoken] at hmore
          exact hmore
      | unquotedText text =>
          rw [htoken] at hmore
          exact hmore
      | _ =>
          rw [htoken] at hx
          cases hx

theorem SpelledKey.tokens_ne_nil (key : SpelledKey) : key.tokens ≠ [] := by
  intro hnil
  have hspells := key.spells
  rw [hnil] at hspells
  exact absurd hspells nofun

theorem returns_parseKey (key : SpelledKey) (stop : Token) (hstop : stop.isKey = false)
    (hproblem : stop.isProblem = false) (hl : Regular (stop :: rest)) {r : TokenWithComments}
    (hr : r.token :: l = key.tokens ++ stop :: rest) :
    Succeeds Stands (parseKey .CONF r) (l, p)
      (fun path g => path = key.path ∧ g = (stop :: rest, p)) := by
  have hlength : key.tokens.length < l.length + 1 := by
    have hlength := congrArg List.length hr
    simp only [List.length_cons, List.length_append] at hlength
    omega
  unfold parseKey
  refine Succeeds.bind (returns_parseRounds l p) ?_
  rintro n _ ⟨hn, rfl⟩
  refine Succeeds.bind (returns_keyLoop key.tokens key.isKey hstop hproblem hl hr (n + 1) (by omega)
    [] key.tokens_ne_nil) ?_
  rintro _ _ ⟨rfl, rfl⟩
  exact returns_ofExcept key.spells _

theorem isUnquotedWhitespace_plain (h : isUnquotedWhitespace t = true) :
    t ≠ .newline ∧ t.isProblem = false ∧ t.isRegular = true := by
  cases t with
  | unquotedText text => exact ⟨nofun, rfl, rfl⟩
  | _ => exact absurd h nofun

-- The blanks and the token after them.
theorem returns_nextAfterWhitespace (blanks : List Token)
    (hblanks : ∀ t ∈ blanks, isUnquotedWhitespace t = true) (h : Regular (t :: rest))
    (hne : t ≠ .newline) (hproblem : t.isProblem = false) (hblank : isUnquotedWhitespace t = false) :
    Succeeds Stands (nextAfterWhitespace .CONF) (blanks ++ t :: rest, p)
      (fun r g => r.token = t ∧ g = (rest, p)) := by
  have hskip (n : ℕ) (blanks : List Token) (hn : blanks.length < n)
      (hblanks : ∀ t ∈ blanks, isUnquotedWhitespace t = true) (r : TokenWithComments)
      (l : List Token) (hr : r.token :: l = blanks ++ t :: rest) :
      Succeeds Stands (skipWhitespaceLoop .CONF n r) (l, p)
        (fun r g => r.token = t ∧ g = (rest, p)) := by
    induction n generalizing blanks r l with
    | zero => omega
    | succ n ih =>
        cases blanks with
        | nil =>
            obtain ⟨rfl, rfl⟩ := List.cons.inj hr
            rw [skipWhitespaceLoop, hblank, if_neg Bool.false_ne_true]
            exact Succeeds.pure ⟨rfl, rfl⟩
        | cons x blanks =>
            obtain ⟨rfl, rfl⟩ := List.cons.inj hr
            obtain ⟨hx, hblanks⟩ := List.forall_mem_cons.mp hblanks
            rw [skipWhitespaceLoop, hx, if_pos rfl]
            rw [List.length_cons] at hn
            have hregular : Regular (blanks ++ t :: rest) :=
              h.append_left fun t ht => (isUnquotedWhitespace_plain (hblanks t ht)).2.2
            cases blanks with
            | nil =>
                refine Succeeds.bind (returns_next h hne hproblem) ?_
                rintro r' _ ⟨rfl, rfl⟩
                exact ih [] (by omega) (by simp) r' rest rfl
            | cons y blanks =>
                obtain ⟨hy, hyproblem, -⟩ :=
                  isUnquotedWhitespace_plain (hblanks y (List.mem_cons_self ..))
                refine Succeeds.bind (returns_next hregular hy hyproblem) ?_
                rintro r' _ ⟨rfl, rfl⟩
                exact ih (r'.token :: blanks) (by omega) hblanks r' _ rfl
  have hregular : Regular (blanks ++ t :: rest) :=
    h.append_left fun t ht => (isUnquotedWhitespace_plain (hblanks t ht)).2.2
  have hrest (r : TokenWithComments) (l : List Token) (hr : r.token :: l = blanks ++ t :: rest) :
      Succeeds Stands (do skipWhitespaceLoop .CONF ((← parseRounds) + 1) r) (l, p)
        (fun r g => r.token = t ∧ g = (rest, p)) := by
    have hlength := congrArg List.length hr
    simp only [List.length_cons, List.length_append] at hlength
    refine Succeeds.bind (returns_parseRounds l p) ?_
    rintro n _ ⟨hn, rfl⟩
    exact hskip (n + 1) blanks (by omega) hblanks r l hr
  unfold nextAfterWhitespace
  cases blanks with
  | nil =>
      refine Succeeds.bind (returns_next h hne hproblem) ?_
      rintro r _ ⟨rfl, rfl⟩
      exact hrest r rest rfl
  | cons y blanks =>
      obtain ⟨hy, hyproblem, -⟩ := isUnquotedWhitespace_plain (hblanks y (List.mem_cons_self ..))
      refine Succeeds.bind (returns_next hregular hy hyproblem) ?_
      rintro r _ ⟨rfl, rfl⟩
      exact hrest r _ rfl

-- The name that an inclusion gives, from the token after `include` on.
theorem returns_includeName (inclusion : Inclusion)
    (hblanks : ∀ t ∈ inclusion.blanks, isUnquotedWhitespace t = true) (h : Regular rest) :
    Succeeds Stands (includeName .CONF) (inclusion.tokens.tail ++ rest, p)
      (fun r g => r = inclusion.name ∧ g = (rest, p)) := by
  unfold includeName
  cases inclusion with
  | plain blanks name =>
      have htokens : (Inclusion.plain blanks name).tokens.tail ++ rest =
          blanks ++ .value (.configString () name) :: rest := List.append_assoc ..
      rw [htokens]
      refine Succeeds.bind (returns_nextAfterWhitespace blanks hblanks (.cons rfl h)
        (fun hnewline => by cases hnewline) rfl rfl) ?_
      rintro r _ ⟨hr, rfl⟩
      rw [hr]
      exact Succeeds.pure ⟨rfl, rfl⟩
  | inFile blanks front back name =>
      have htokens : (Inclusion.inFile blanks front back name).tokens.tail ++ rest =
          blanks ++ .unquotedText (ascii "file(") :: (front ++ .value (.configString () name) ::
            (back ++ .unquotedText (ascii ")") :: rest)) := by
        simp [Inclusion.tokens]
      simp only [Inclusion.blanks, List.mem_append, or_imp, forall_and] at hblanks
      have hplain {blanks : List Token} (hb : ∀ t ∈ blanks, isUnquotedWhitespace t = true)
          {l : List Token} (hl : Regular l) : Regular (blanks ++ l) :=
        hl.append_left fun t ht => (isUnquotedWhitespace_plain (hb t ht)).2.2
      have hclose : Regular (.unquotedText (ascii ")") :: rest) := .cons rfl h
      have hname := hplain hblanks.1.2 (Regular.cons (t := .value (.configString () name)) rfl
        (hplain hblanks.2 hclose))
      rw [htokens]
      refine Succeeds.bind (returns_nextAfterWhitespace blanks hblanks.1.1 (.cons rfl hname)
        (fun hnewline => by cases hnewline) rfl (by decide)) ?_
      rintro r _ ⟨hr, rfl⟩
      rw [hr]
      dsimp only
      rw [if_neg (not_not_intro rfl)]
      refine Succeeds.bind (returns_nextAfterWhitespace front hblanks.1.2
        (.cons rfl (hplain hblanks.2 hclose)) (fun hnewline => by cases hnewline) rfl rfl) ?_
      rintro r _ ⟨hr, rfl⟩
      rw [hr]
      refine Succeeds.bind (returns_nextAfterWhitespace back hblanks.2 hclose
        (fun hnewline => by cases hnewline) rfl (by decide)) ?_
      rintro r _ ⟨hr, rfl⟩
      rw [hr]
      dsimp only
      rw [if_pos rfl]
      exact Succeeds.pure ⟨rfl, rfl⟩

theorem returns_addIncluded (fields values : Fields Unit)
    (hnodup : ((values ++ fields).map Prod.fst).Nodup) (g : List Token × List Path) :
    Succeeds Stands (addIncluded fields values) g (fun vs g' => vs = values ++ fields ∧ g' = g) := by
  induction fields generalizing values with
  | nil => exact Succeeds.pure ⟨(List.append_nil values).symm, rfl⟩
  | cons field fields ih =>
      obtain ⟨key, v⟩ := field
      have hnew : values.lookup key = none := by
        rw [Entries.lookup_eq_none_iff]
        intro hmem
        rw [List.map_append, List.nodup_append] at hnodup
        exact hnodup.2.2 key hmem key List.mem_cons_self rfl
      unfold addIncluded
      rw [hnew, putField, hnew, Option.isSome_none, if_neg Bool.false_ne_true]
      have hstep : values ++ (key, v) :: fields = (values ++ [(key, v)]) ++ fields := by
        rw [List.append_assoc]
        rfl
      rw [hstep] at hnodup ⊢
      exact ih (values ++ [(key, v)]) hnodup

theorem Inclusion.include_eq (includer : Includer) (inclusion : Inclusion) :
    (if inclusion.name.2 then includer.includeFile inclusion.name.1
      else includer.include_ inclusion.name.1) = inclusion.included includer := by
  cases inclusion <;> rfl

-- The fields of a file where it is included.
def includedFields (paths : List Path) (fields : Fields Unit) : Fields Unit :=
  match pathsToConcat paths with
  | none => fields
  | some path => relativizedFields path fields

theorem returns_parseInclude (includer : Includer) (inclusion : Inclusion)
    (hblanks : ∀ t ∈ inclusion.blanks, isUnquotedWhitespace t = true) {fields : Fields Unit}
    (hnodup : (fields.map Prod.fst).Nodup)
    (hinclude : inclusion.included includer = .ok (.simpleConfigObject () fields false))
    (h : Regular rest) :
    Succeeds Stands (parseInclude .CONF includer []) (inclusion.tokens.tail ++ rest, p)
      (fun vs g => vs = includedFields p fields ∧ g = (rest, p)) := by
  unfold parseInclude
  refine Succeeds.bind (returns_includeName inclusion hblanks h) ?_
  rintro _ _ ⟨rfl, rfl⟩
  refine Succeeds.bind (returns_ofExcept ((inclusion.include_eq includer).trans hinclude) _) ?_
  rintro _ _ ⟨rfl, rfl⟩
  have hget : Succeeds Stands (get : Parse ParseContext) (rest, p)
      (fun s g => s.pathStack = p ∧ g = (rest, p)) :=
    fun s hs => ⟨s, s, (rest, p), rfl, hs, hs.paths, rfl⟩
  refine Succeeds.bind hget ?_
  rintro s _ ⟨hs, rfl⟩
  rw [hs, includedFields]
  cases pathsToConcat p with
  | none => exact returns_addIncluded fields [] hnodup _
  | some path =>
      have hkeys : ((relativizedFields path fields).map Prod.fst).Nodup := by
        rw [relativizedFields_eq, List.map_map]
        exact hnodup
      exact returns_addIncluded (relativizedFields path fields) [] hkeys _

-- Objects in one another with a field each.
def chain (keys : List Bytes) (v : Value Unit) : Value Unit :=
  keys.foldr (fun key o => .simpleConfigObject () [(key, o)] false) v

-- The keys that a value is stored under: up to the first empty one after the first key.
def storedKeys (path : Path) : List Bytes := path.first :: path.keys.tail.takeWhile (· ≠ [])

theorem createValueUnderPath_eq (path : Path) (v : Value Unit) (h : path.first ≠ []) :
    createValueUnderPath path v = .ok (chain (keysUnderPath path) v) := by
  have hne : keysUnderPath path ≠ [] := by
    cases path with
    | newKey first | cons first remainder =>
        change first ≠ [] at h
        simp [keysUnderPath, Path.keys, h]
  unfold createValueUnderPath
  cases hkeys : (keysUnderPath path).reverse with
  | nil => exact absurd (List.reverse_eq_nil_iff.mp hkeys) hne
  | cons deepest above =>
      have hsplit : keysUnderPath path = above.reverse ++ [deepest] := by
        rw [← List.reverse_cons, ← hkeys, List.reverse_reverse]
      rw [hsplit, chain, List.foldr_append, List.foldr_reverse]
      rfl

-- A value with a path can be stored when the second key is not empty.
def Path.isStorable (path : Path) : Prop := path.keys[1]? ≠ some []

theorem returns_storeField (path : Path) (v : Value Unit) (h : path.isStorable)
    (g : List Token × List Path) :
    Succeeds Stands (storeField .CONF [] path v) g
      (fun vs g' => .simpleConfigObject () vs false = chain (storedKeys path) v ∧ g' = g) := by
  unfold storeField
  cases path with
  | newKey first => exact Succeeds.pure ⟨rfl, rfl⟩
  | cons first remainder =>
      have hfirst : remainder.first ≠ [] := by
        intro hempty
        apply h
        cases remainder with
        | newKey key | cons key rest => exact congrArg some hempty
      refine Succeeds.bind (returns_ofExcept (createValueUnderPath_eq remainder v hfirst) g) ?_
      rintro _ _ ⟨rfl, rfl⟩
      exact Succeeds.pure ⟨rfl, rfl⟩

theorem fails_storeField (path : Path) (v : Value Unit) (h : ¬path.isStorable)
    (g : List Token × List Path) : Fails (storeField .CONF [] path v) g := by
  have hempty : path.keys[1]? = some [] := not_not.mp h
  unfold storeField
  cases path with
  | newKey first => exact absurd hempty nofun
  | cons first remainder =>
      have hkeys : keysUnderPath remainder = [] := by
        cases remainder with
        | newKey key | cons key rest =>
            obtain rfl := Option.some.inj hempty
            simp [keysUnderPath, Path.keys]
      have herror : createValueUnderPath remainder v =
          .error (.undefinedBehaviour "rbegin of an empty vector") := by
        rw [createValueUnderPath, hkeys]
        rfl
      have hfails : Fails (ofExcept (createValueUnderPath remainder v)) g := by
        rw [herror]
        exact fun s hs => trivial
      exact Fails.bind hfails

-- The object that holds what is included.
def nestObject (fields : Fields Unit) : List SpelledKey → List Path → Value Unit
  | [], paths => .simpleConfigObject () (includedFields paths fields) false
  | key :: rest, paths => chain (storedKeys key.path) (nestObject fields rest (key.path :: paths))

theorem isRegular_of_mem_inclusion (inclusion : Inclusion)
    (hblanks : ∀ t ∈ inclusion.blanks, isUnquotedWhitespace t = true) :
    ∀ t ∈ inclusion.tokens, t.isRegular = true := by
  have hplain (t : Token) (ht : t ∈ inclusion.blanks) : t.isRegular = true :=
    (isUnquotedWhitespace_plain (hblanks t ht)).2.2
  cases inclusion with
  | plain blanks name =>
      simp only [Inclusion.tokens, List.mem_append, List.mem_cons]
      rintro t (rfl | ht | rfl | ht)
      · rfl
      · exact hplain t ht
      · rfl
      · cases ht
  | inFile blanks front back name =>
      simp only [Inclusion.blanks, List.mem_append] at hplain
      simp only [Inclusion.tokens, List.mem_append, List.mem_cons]
      rintro t (rfl | ht | rfl | ht | rfl | ht | rfl | ht)
      · rfl
      · exact hplain t (.inl (.inl ht))
      · rfl
      · exact hplain t (.inl (.inr ht))
      · rfl
      · exact hplain t (.inr ht)
      · rfl
      · cases ht

theorem Inclusion.tokens_eq (inclusion : Inclusion) :
    inclusion.tokens = .unquotedText (ascii "include") :: inclusion.tokens.tail := by
  cases inclusion <;> rfl

theorem regular_nestTokens (inclusion : Inclusion)
    (hblanks : ∀ t ∈ inclusion.blanks, isUnquotedWhitespace t = true)
    (keys : List SpelledKey) (h : Regular rest) :
    Regular (nestTokens inclusion.tokens keys ++ rest) := by
  induction keys generalizing rest with
  | nil => exact Regular.append_left (isRegular_of_mem_inclusion inclusion hblanks) h
  | cons key keys ih =>
      rw [nestTokens, List.append_assoc, List.append_assoc, List.cons_append]
      apply Regular.append_left fun t ht => Token.isRegular_of_isKey (key.isKey t ht)
      exact .cons rfl (by simpa using ih (.cons rfl h))

-- A field whose value is read from the token after its key on, and then stored.
theorem returns_parseField {read : TokenWithComments → Parse (Value Unit)} {values : Fields Unit}
    (key : SpelledKey) {stop : Token} (hstop : stop.isKey = false) (hproblem : stop.isProblem = false)
    (hne : stop ≠ .newline) (h : Regular (stop :: rest)) {r : TokenWithComments}
    (hr : r.token :: l = key.tokens ++ stop :: rest) {v : Value Unit} {l' : List Token}
    (hvalue : ∀ r : TokenWithComments, r.token = stop →
      Succeeds Stands (parseFieldValue .CONF read r) (rest, key.path :: p)
        (fun w g => w = v ∧ g = (l', key.path :: p)))
    {post : Fields Unit → List Token × List Path → Prop}
    (hstore : Succeeds Stands (storeField .CONF values key.path v) (l', p) post) :
    Succeeds Stands (parseField .CONF read values r) (l, p) post := by
  unfold parseField
  refine Succeeds.bind (returns_parseKey key stop hstop hproblem h hr) ?_
  rintro _ _ ⟨rfl, rfl⟩
  refine Succeeds.bind (returns_next h hne hproblem) ?_
  rintro r' _ ⟨hr', rfl⟩
  refine Succeeds.bind (returns_pushPath key.path rest p) ?_
  rintro _ _ rfl
  refine Succeeds.bind (hvalue r' hr') ?_
  rintro _ _ ⟨rfl, rfl⟩
  refine Succeeds.bind (returns_popPath key.path l' p) ?_
  rintro _ _ rfl
  exact hstore

-- It is stored when its path can be, and otherwise not.
theorem parseField_key {read : TokenWithComments → Parse (Value Unit)} (key : SpelledKey)
    {stop : Token} (hstop : stop.isKey = false) (hproblem : stop.isProblem = false)
    (hne : stop ≠ .newline) (h : Regular (stop :: rest)) {r : TokenWithComments}
    (hr : r.token :: l = key.tokens ++ stop :: rest) {v : Value Unit} {l' : List Token}
    (hvalue : ∀ r : TokenWithComments, r.token = stop →
      Succeeds Stands (parseFieldValue .CONF read r) (rest, key.path :: p)
        (fun w g => w = v ∧ g = (l', key.path :: p))) :
    (key.path.isStorable → Succeeds Stands (parseField .CONF read [] r) (l, p)
      (fun vs g => .simpleConfigObject () vs false = chain (storedKeys key.path) v ∧
        g = (l', p))) ∧
    (¬key.path.isStorable → Fails (parseField .CONF read [] r) (l, p)) := by
  constructor
  · intro hstorable
    exact returns_parseField key hstop hproblem hne h hr hvalue
      (returns_storeField key.path v hstorable (l', p))
  · intro hstorable
    unfold parseField
    refine Meets.after (returns_parseKey key stop hstop hproblem h hr) ?_
    rintro _ _ ⟨rfl, rfl⟩
    refine Meets.after (returns_next h hne hproblem) ?_
    rintro r' _ ⟨hr', rfl⟩
    refine Meets.after (returns_pushPath key.path rest p) ?_
    rintro _ _ rfl
    refine Meets.after (hvalue r' hr') ?_
    rintro _ _ ⟨rfl, rfl⟩
    refine Meets.after (returns_popPath key.path l' p) ?_
    rintro _ _ rfl
    exact fails_storeField key.path _ hstorable (l', p)

-- No field is read where its value is not.
theorem fails_parseField_value {read : TokenWithComments → Parse (Value Unit)} (key : SpelledKey)
    {stop : Token} (hstop : stop.isKey = false) (hproblem : stop.isProblem = false)
    (hne : stop ≠ .newline) (h : Regular (stop :: rest)) {r : TokenWithComments}
    (hr : r.token :: l = key.tokens ++ stop :: rest)
    (hvalue : ∀ r : TokenWithComments, r.token = stop →
      Fails (parseFieldValue .CONF read r) (rest, key.path :: p)) :
    Fails (parseField .CONF read [] r) (l, p) := by
  unfold parseField
  refine Meets.after (returns_parseKey key stop hstop hproblem h hr) ?_
  rintro _ _ ⟨rfl, rfl⟩
  refine Meets.after (returns_next h hne hproblem) ?_
  rintro r' _ ⟨hr', rfl⟩
  refine Meets.after (returns_pushPath key.path rest p) ?_
  rintro _ _ rfl
  exact Fails.bind (hvalue r' hr')

end

theorem Regular.significant {l : List Token} (h : Regular l) :
    l.filter (fun t => !t.isComment) = l := by
  rw [List.filter_eq_self]
  intro t ht
  induction h with
  | last =>
      obtain rfl := List.mem_singleton.mp ht
      rfl
  | @cons x l hx h ih =>
      rcases List.mem_cons.mp ht with rfl | ht
      · cases t <;> first | rfl | exact absurd hx nofun
      · exact ih ht

theorem length_le_nestTokens (inclusion : List Token) (keys : List SpelledKey) :
    keys.length ≤ (nestTokens inclusion keys).length := by
  induction keys with
  | nil => exact Nat.zero_le _
  | cons key keys ih =>
      simp only [nestTokens, List.length_append, List.length_cons]
      omega

section

variable {includer : Includer} {inclusion : Inclusion} {fields : Fields Unit}
  (hblanks : ∀ t ∈ inclusion.blanks, isUnquotedWhitespace t = true)
  (hnodup : (fields.map Prod.fst).Nodup)
  (hinclude : inclusion.included includer = .ok (.simpleConfigObject () fields false))

include hblanks hnodup hinclude

-- The nested fields are read when each of them can be stored, and otherwise not.
theorem parseObjectLoop_nest (keys : List SpelledKey) {depth : ℕ} (hdepth : keys.length ≤ depth)
    (hadOpenCurly : Bool) (closer : Token)
    (hcloser : closer = if hadOpenCurly then .closeCurly else .end_) {rest : List Token}
    (h : Regular (closer :: rest)) (n : ℕ) (afterComma : Bool) (p : List Path) :
    ((∀ key ∈ keys, key.path.isStorable) →
      Succeeds Stands (parseObjectLoop .CONF includer (parseValue .CONF includer depth) hadOpenCurly
          (n + 1) afterComma []) (nestTokens inclusion.tokens keys ++ closer :: rest, p)
        (fun vs g => .simpleConfigObject () vs false = nestObject fields keys p ∧
          g = (if hadOpenCurly then rest else closer :: rest, p))) ∧
    ((∃ key ∈ keys, ¬key.path.isStorable) →
      Fails (parseObjectLoop .CONF includer (parseValue .CONF includer depth) hadOpenCurly
          (n + 1) afterComma [])
        (nestTokens inclusion.tokens keys ++ closer :: rest, p)) := by
  induction keys generalizing depth hadOpenCurly closer rest n afterComma p with
  | nil =>
      refine ⟨fun _ => ?_, fun hkey => absurd hkey (by simp)⟩
      have hregular := regular_nestTokens inclusion hblanks [] h
      have hlist : nestTokens inclusion.tokens [] ++ closer :: rest =
          .unquotedText (ascii "include") :: (inclusion.tokens.tail ++ closer :: rest) := by
        rw [nestTokens, ← List.cons_append, ← inclusion.tokens_eq]
      rw [hlist] at hregular ⊢
      apply returns_round 0 n afterComma hregular rfl
      intro r hr
      have hkeyword : isIncludeKeyword r.token = true := by rw [hr]; decide
      rw [readField, if_pos hkeyword]
      refine Succeeds.bind (returns_parseInclude includer inclusion hblanks hnodup hinclude h) ?_
      rintro _ _ ⟨rfl, rfl⟩
      refine Succeeds.bind (returns_closeField hadOpenCurly hcloser h) ?_
      rintro _ _ ⟨rfl, rfl⟩
      exact Succeeds.pure ⟨rfl, rfl⟩
  | cons key keys ih =>
      rw [List.length_cons] at hdepth
      obtain ⟨depth, rfl⟩ : ∃ d, depth = d + 1 := ⟨depth - 1, by omega⟩
      have hdepth : keys.length ≤ depth := by omega
      have hinner : Regular (.closeCurly :: closer :: rest) := .cons rfl h
      have hnewline : Token.openCurly ≠ .newline := nofun
      have hopen : Regular (.openCurly :: (nestTokens inclusion.tokens keys ++
          .closeCurly :: closer :: rest)) :=
        .cons rfl (regular_nestTokens inclusion hblanks keys hinner)
      obtain ⟨x, tokens, htokens⟩ := List.exists_cons_of_ne_nil key.tokens_ne_nil
      have hx : x.isKey = true := key.isKey x (by rw [htokens]; exact List.mem_cons_self ..)
      have hkeyword : isIncludeKeyword x = false := key.notInclude x (by rw [htokens]; rfl)
      have hlist : nestTokens inclusion.tokens (key :: keys) ++ closer :: rest =
          x :: (tokens ++ .openCurly ::
            (nestTokens inclusion.tokens keys ++ .closeCurly :: closer :: rest)) := by
        simp [nestTokens, htokens]
      have hall := regular_nestTokens inclusion hblanks (key :: keys) h
      rw [hlist] at hall ⊢
      have htaken {r : TokenWithComments} (hr : r.token = x) : r.token :: (tokens ++ .openCurly ::
          (nestTokens inclusion.tokens keys ++ .closeCurly :: closer :: rest)) =
          key.tokens ++ .openCurly ::
            (nestTokens inclusion.tokens keys ++ .closeCurly :: closer :: rest) := by
        rw [hr, htokens]
        rfl
      -- the object that the braces hold
      have hinside (n' : ℕ) := ih hdepth true .closeCurly rfl hinner n' false (key.path :: p)
      have hobject {r : TokenWithComments} (hr : r.token = .openCurly) :
          parseFieldValue .CONF (parseValue .CONF includer (depth + 1)) r =
            parseObject .CONF includer (parseValue .CONF includer depth) true := by
        unfold parseFieldValue
        rw [hr, parseValue, hr]
      have hread (hkeys : ∀ key ∈ keys, key.path.isStorable) (r : TokenWithComments)
          (hr : r.token = .openCurly) :
          Succeeds Stands (parseFieldValue .CONF (parseValue .CONF includer (depth + 1)) r)
            (nestTokens inclusion.tokens keys ++ .closeCurly :: closer :: rest,
              key.path :: p)
            (fun w g => w = nestObject fields keys (key.path :: p) ∧
              g = (closer :: rest, key.path :: p)) := by
        rw [hobject hr]
        exact returns_parseObject fun n' _ => (hinside n').1 hkeys
      have hunread (hkeys : ∃ key ∈ keys, ¬key.path.isStorable) (r : TokenWithComments)
          (hr : r.token = .openCurly) :
          Fails (parseFieldValue .CONF (parseValue .CONF includer (depth + 1)) r)
            (nestTokens inclusion.tokens keys ++ .closeCurly :: closer :: rest,
              key.path :: p) := by
        rw [hobject hr]
        exact fails_parseObject fun n' _ => (hinside n').2 hkeys
      constructor
      · intro hstorable
        obtain ⟨hkey, hkeys⟩ := List.forall_mem_cons.mp hstorable
        apply returns_round 0 n afterComma hall hx
        intro r hr
        rw [readField, hr, hkeyword]
        have hfield := (parseField_key (p := p) key rfl rfl hnewline hopen (htaken hr)
          (hread hkeys)).1 hkey
        refine Succeeds.bind hfield ?_
        rintro vs _ ⟨hvs, rfl⟩
        refine Succeeds.bind (returns_closeField hadOpenCurly hcloser h) ?_
        rintro _ _ ⟨rfl, rfl⟩
        exact Succeeds.pure ⟨hvs, rfl⟩
      · intro hstorable
        apply fails_round 0 n afterComma hall hx
        intro r hr
        rw [readField, hr, hkeyword]
        apply Fails.bind
        by_cases hkeys : ∀ key ∈ keys, key.path.isStorable
        · have hfield := parseField_key (p := p) key rfl rfl hnewline hopen (htaken hr) (hread hkeys)
          apply hfield.2
          intro hkey
          obtain ⟨bad, hbad, hnot⟩ := hstorable
          rcases List.mem_cons.mp hbad with rfl | hbad
          · exact hnot hkey
          · exact hnot (hkeys bad hbad)
        · apply fails_parseField_value key rfl rfl hnewline hopen (htaken hr)
          apply hunread
          simpa using hkeys

theorem parseDocument_nest (keys : List SpelledKey) :
    ((∀ key ∈ keys, key.path.isStorable) → ∃ s, parseDocument .CONF includer
        { tokens := .start :: nestTokens inclusion.tokens keys ++ [.end_]
          buffer := [], pathStack := [] } = .ok (nestObject fields keys []) s) ∧
    ((∃ key ∈ keys, ¬key.path.isStorable) → ∀ root s, parseDocument .CONF includer
        { tokens := .start :: nestTokens inclusion.tokens keys ++ [.end_]
          buffer := [], pathStack := [] } ≠ .ok root s) := by
  have hregular := regular_nestTokens inclusion hblanks keys Regular.last
  have hstands : Stands
      { tokens := .start :: nestTokens inclusion.tokens keys ++ [.end_]
        buffer := [], pathStack := [] }
      (.start :: (nestTokens inclusion.tokens keys ++ [.end_]), []) :=
    ⟨(Regular.cons (t := Token.start) rfl hregular).significant, rfl⟩
  obtain ⟨x, tokens, hsplit, hx⟩ :
      ∃ x tokens, nestTokens inclusion.tokens keys ++ [.end_] = x :: tokens ∧
        x.isKey = true := by
    cases keys with
    | nil =>
        refine ⟨.unquotedText (ascii "include"), inclusion.tokens.tail ++ [.end_], ?_, rfl⟩
        rw [nestTokens, ← List.cons_append, ← inclusion.tokens_eq]
    | cons key keys =>
        obtain ⟨x, tokens, htokens⟩ := List.exists_cons_of_ne_nil key.tokens_ne_nil
        refine ⟨x, tokens ++ .openCurly :: nestTokens inclusion.tokens keys ++
          [.closeCurly] ++ [.end_], ?_, key.isKey x (by rw [htokens]; exact List.mem_cons_self ..)⟩
        rw [nestTokens, htokens]
        rfl
  have hlength : keys.length < (x :: tokens).length := by
    rw [← hsplit, List.length_append]
    exact Nat.lt_succ_of_le (length_le_nestTokens _ keys)
  rw [List.length_cons] at hlength
  have hloop (depth n : ℕ) (hdepth : tokens.length < depth) :=
    parseObjectLoop_nest hblanks hnodup hinclude keys (show keys.length ≤ depth by omega) false .end_
      rfl Regular.last n false []
  rw [hsplit] at hregular hstands hloop
  constructor
  · intro hstorable
    have hdocument := returns_parseDocument (p := []) 0 0 hregular (ne_newline_of_isKey hx)
      (Token.isProblem_of_isKey hx) fun depth r hdepth hr => returns_parseRoot hx hr
        (returns_parseObject fun n _ => (hloop depth n hdepth).1 hstorable)
    obtain ⟨v, s, _, hrun, _, rfl⟩ := hdocument _ hstands
    exact ⟨s, hrun⟩
  · intro hstorable
    have hdocument := fails_parseDocument (p := []) 0 hregular (ne_newline_of_isKey hx)
      (Token.isProblem_of_isKey hx) fun depth r hdepth hr => fails_parseRoot hx hr
        (fails_parseObject fun n _ => (hloop depth n hdepth).2 hstorable)
    exact hdocument.not_ok hstands

end

theorem descend_chain (keys more : List Bytes) (v : Value Unit) :
    (chain keys v).descend (keys ++ more) = v.descend more := by
  induction keys with
  | nil => rfl
  | cons key keys ih =>
      rw [List.cons_append, Value.descend_cons, chain, List.foldr_cons, Value.child,
        Entries.lookup_cons, if_pos rfl]
      exact ih

-- Past the keys of the chain there are only parts of the value in it.
theorem descend_chain_of_lt (keys path : List Bytes) (v : Value Unit)
    (h : keys.length < path.length) :
    (chain keys v).descend path = none ∨
      ∃ key rest, (chain keys v).descend path = v.descend (key :: rest) := by
  induction keys generalizing path with
  | nil =>
      obtain ⟨key, rest, rfl⟩ := List.exists_cons_of_length_pos (Nat.zero_lt_of_lt h)
      exact .inr ⟨key, rest, rfl⟩
  | cons key keys ih =>
      cases path with
      | nil => exact absurd h (Nat.not_lt_zero _)
      | cons key' path =>
          rw [Value.descend_cons, chain, List.foldr_cons, Value.child,
            Entries.lookup_cons, List.lookup_nil]
          by_cases hkey : key' = key
          · rw [if_pos hkey]
            exact ih path (Nat.lt_of_succ_lt_succ h)
          · rw [if_neg hkey]
            exact .inl rfl

theorem nestObject_eq (fields : Fields Unit) (keys : List SpelledKey) (paths : List Path) :
    nestObject fields keys paths =
      chain (keys.flatMap fun key => storedKeys key.path)
        (.simpleConfigObject () (includedFields ((keys.map SpelledKey.path).reverse ++ paths) fields)
          false) := by
  induction keys generalizing paths with
  | nil => rfl
  | cons key keys ih =>
      rw [nestObject, ih, List.flatMap_cons, List.map_cons, List.reverse_cons, List.append_assoc,
        List.singleton_append, chain, chain, chain, List.foldr_append]

-- No key of a path is empty after the first one.
def Path.fullyNamed (path : Path) : Prop := [] ∉ path.keys.tail

theorem Path.keys_eq_first_tail (path : Path) : path.keys = path.first :: path.keys.tail := by
  cases path <;> rfl

theorem storedKeys_of_fullyNamed {path : Path} (h : path.fullyNamed) :
    storedKeys path = path.keys := by
  have htake : path.keys.tail.takeWhile (· ≠ []) = path.keys.tail := by
    rw [List.takeWhile_eq_self_iff]
    intro key hkey
    rw [decide_eq_true_eq]
    rintro rfl
    exact h hkey
  rw [storedKeys, htake]
  exact path.keys_eq_first_tail.symm

theorem length_storedKeys_lt {path : Path} (h : ¬path.fullyNamed) :
    (storedKeys path).length < path.keys.length := by
  have hmem : [] ∈ path.keys.tail := not_not.mp h
  rw [storedKeys, path.keys_eq_first_tail, List.length_cons, List.length_cons, List.tail_cons]
  apply Nat.succ_lt_succ
  refine lt_of_le_of_ne (List.takeWhile_prefix _).length_le fun heq => ?_
  have hself := (List.takeWhile_prefix (p := (· ≠ [])) (l := path.keys.tail)).eq_of_length heq
  rw [List.takeWhile_eq_self_iff] at hself
  exact absurd (hself [] hmem) (by simp)

theorem length_storedKeys_le (path : Path) : (storedKeys path).length ≤ path.keys.length := by
  by_cases h : path.fullyNamed
  · rw [storedKeys_of_fullyNamed h]
  · exact (length_storedKeys_lt h).le

theorem Path.isStorable_of_fullyNamed {path : Path} (h : path.fullyNamed) : path.isStorable := by
  intro hempty
  apply h
  rw [path.keys_eq_first_tail, List.getElem?_cons_succ] at hempty
  exact List.mem_of_getElem? hempty

theorem length_flatMap_storedKeys_lt (keys : List SpelledKey)
    (h : ∃ key ∈ keys, ¬key.path.fullyNamed) :
    (keys.flatMap fun key => storedKeys key.path).length < (placeKeys keys).length := by
  have hle (keys : List SpelledKey) :
      (keys.flatMap fun key => storedKeys key.path).length ≤ (placeKeys keys).length := by
    induction keys with
    | nil => exact le_rfl
    | cons key keys ih =>
        rw [placeKeys, List.flatMap_cons, List.flatMap_cons, List.length_append, List.length_append]
        exact Nat.add_le_add (length_storedKeys_le key.path) ih
  induction keys with
  | nil =>
      obtain ⟨key, hkey, -⟩ := h
      exact absurd hkey List.not_mem_nil
  | cons key keys ih =>
      rw [placeKeys, List.flatMap_cons, List.flatMap_cons, List.length_append, List.length_append]
      by_cases hkey : key.path.fullyNamed
      · obtain ⟨bad, hbad, hnot⟩ := h
        have hrest : ∃ key ∈ keys, ¬key.path.fullyNamed := by
          rcases List.mem_cons.mp hbad with rfl | hbad
          · exact absurd hkey hnot
          · exact ⟨bad, hbad, hnot⟩
        exact Nat.add_lt_add_of_le_of_lt (length_storedKeys_le key.path) (ih hrest)
      · exact Nat.add_lt_add_of_lt_of_le (length_storedKeys_lt hkey) (hle keys)

-- The values of an included file where it is included.
theorem descend_included (paths : List Path) (fields : Fields Unit) (path : List Bytes)
    {v : Value Unit} (h : (Value.simpleConfigObject () fields false).descend path = some v) :
    ∃ w, (Value.simpleConfigObject () (includedFields paths fields) false).descend path = some w ∧
      w.withoutPaths = v.withoutPaths ∧
      w.lookUps = v.lookUps.map (LookUps.below (paths.flatMap Path.keys)) := by
  unfold includedFields pathsToConcat
  by_cases hnil : paths.flatMap Path.keys = []
  · rw [hnil]
    refine ⟨v, h, rfl, ?_⟩
    have hbelow : LookUps.below [] = id := rfl
    rw [hbelow, List.map_id]
  · obtain ⟨front, hfront, hkeys⟩ := PathBuilder.result_keys _ hnil
    rw [hfront, ← hkeys]
    refine ⟨relativized front v, ?_, withoutPaths_relativized front v, lookUps_relativized front v⟩
    have hdescend := descend_relativized front path (.simpleConfigObject () fields false)
    rw [h] at hdescend
    exact hdescend

-- The paths of the nested fields from the innermost out, as `parse_include` joins them.
def joinedKeys (keys : List SpelledKey) : List Bytes := keys.reverse.flatMap fun key => key.path.keys

theorem flatMap_paths (keys : List SpelledKey) :
    (keys.map SpelledKey.path).reverse.flatMap Path.keys = joinedKeys keys := by
  rw [← List.map_reverse, List.flatMap_map]
  rfl

theorem looksUpRelative_of_joinedKeys {keys : List SpelledKey}
    (hnamed : ∀ key ∈ keys, key.path.fullyNamed) (hjoined : joinedKeys keys = placeKeys keys) :
    LooksUpRelative keys := by
  intro includer inclusion fields hblanks hnodup hinclude
  have hstorable : ∀ key ∈ keys, key.path.isStorable :=
    fun key hkey => Path.isStorable_of_fullyNamed (hnamed key hkey)
  obtain ⟨s, hparse⟩ := (parseDocument_nest hblanks hnodup hinclude keys).1 hstorable
  have hstored : (keys.flatMap fun key => storedKeys key.path) = placeKeys keys :=
    List.flatMap_congr fun key hkey => storedKeys_of_fullyNamed (hnamed key hkey)
  have hplace {path : List Bytes} {v : Value Unit}
      (hv : (Value.simpleConfigObject () fields false).descend path = some v) :
      ∃ w, (nestObject fields keys []).descend (placeKeys keys ++ path) = some w ∧
        w.withoutPaths = v.withoutPaths ∧
        w.lookUps = v.lookUps.map (LookUps.below (placeKeys keys)) := by
    obtain ⟨w, hw, hvalue, hlookUps⟩ :=
      descend_included (keys.map SpelledKey.path).reverse fields path hv
    refine ⟨w, ?_, hvalue, ?_⟩
    · rw [nestObject_eq, List.append_nil, hstored, descend_chain]
      exact hw
    · rw [hlookUps, flatMap_paths, hjoined]
  refine ⟨_, s, hparse, fun path v hv => ?_⟩
  obtain ⟨w, hw, hvalue, hlookUps⟩ := hplace hv
  refine ⟨w, hw, hvalue, hlookUps, fun l _ target htarget => ?_⟩
  obtain ⟨found, hfound, hsame, -⟩ := hplace htarget
  exact ⟨found, hfound, hsame⟩

-- A file with two references, so that its object has more look-ups than any part of it.
def twoReferences : Fields Unit :=
  [(ascii "x", .configReference () { path := .newKey (ascii "x"), optional := false } 0),
    (ascii "y", .configReference () { path := .newKey (ascii "y"), optional := false } 0)]

def Includer.ofFields (fields : Fields Unit) : Includer where
  include_ _ := .ok (.simpleConfigObject () fields false)
  includeFile _ := .ok (.simpleConfigObject () fields false)

theorem length_lookUps_twoReferences (paths : List Path) (key : Bytes) (path : List Bytes)
    {w : Value Unit}
    (h : (Value.simpleConfigObject () (includedFields paths twoReferences) false).descend
      (key :: path) = some w) : w.lookUps.length = 1 := by
  have hchild : ∀ v, (Value.simpleConfigObject () (includedFields paths twoReferences) false).child
      key = some v → ∃ expr n, v = .configReference () expr n := by
    intro v hv
    have hmem := Entries.mem_of_lookup hv
    unfold includedFields at hmem
    cases hpaths : pathsToConcat paths with
    | none | some front =>
        rw [hpaths] at hmem
        rcases List.mem_cons.mp hmem with heq | hmem
        · exact ⟨_, _, congrArg Prod.snd heq⟩
        · exact ⟨_, _, congrArg Prod.snd (List.mem_singleton.mp hmem)⟩
  rw [Value.descend_cons] at h
  obtain ⟨v, hv, hrest⟩ := Option.bind_eq_some_iff.mp h
  obtain ⟨expr, n, rfl⟩ := hchild v hv
  cases path with
  | nil =>
      obtain rfl := Option.some.inj hrest
      rfl
  | cons key path => exact absurd hrest nofun

theorem joinedKeys_of_looksUpRelative {keys : List SpelledKey} (h : LooksUpRelative keys) :
    (∀ key ∈ keys, key.path.fullyNamed) ∧ joinedKeys keys = placeKeys keys := by
  have hnodup : (twoReferences.map Prod.fst).Nodup := by decide
  have hinclude : (Inclusion.plain [] []).included (Includer.ofFields twoReferences) =
      .ok (.simpleConfigObject () twoReferences false) := rfl
  have hblanks : ∀ t ∈ (Inclusion.plain [] []).blanks, isUnquotedWhitespace t = true := nofun
  obtain ⟨root, s, hparse, hplace⟩ := h _ _ twoReferences hblanks hnodup hinclude
  have hnest := parseDocument_nest hblanks hnodup hinclude keys
  have hstorable : ∀ key ∈ keys, key.path.isStorable := by
    by_contra hnot
    exact hnest.2 (by simpa using hnot) root s hparse
  obtain ⟨s', hparse'⟩ := hnest.1 hstorable
  have hroot : root = nestObject twoReferences keys [] := by
    rw [hparse] at hparse'
    cases hparse'
    rfl
  obtain ⟨w, hw, -, hlookUps, -⟩ := hplace [] _ rfl
  rw [hroot, nestObject_eq, List.append_nil, List.append_nil] at hw
  have htwo : w.lookUps.length = 2 := by
    rw [hlookUps, List.length_map]
    rfl
  have hnamed : ∀ key ∈ keys, key.path.fullyNamed := by
    by_contra hnot
    -- the object stands above the place, which holds a part of it at most
    rcases descend_chain_of_lt _ _ _ (length_flatMap_storedKeys_lt keys (by simpa using hnot)) with
      hnone | ⟨key, rest, hpart⟩
    · rw [hnone] at hw
      cases hw
    · rw [hpart] at hw
      have hone := length_lookUps_twoReferences _ key rest hw
      omega
  refine ⟨hnamed, ?_⟩
  have hstored : (keys.flatMap fun key => storedKeys key.path) = placeKeys keys :=
    List.flatMap_congr fun key hkey => storedKeys_of_fullyNamed (hnamed key hkey)
  obtain ⟨v, hv, -, hjoined⟩ :=
    descend_included (keys.map SpelledKey.path).reverse twoReferences [] (v := _) rfl
  have hdescend := descend_chain (placeKeys keys) []
    (.simpleConfigObject () (includedFields (keys.map SpelledKey.path).reverse twoReferences) false)
  rw [List.append_nil, hv] at hdescend
  rw [hstored, hdescend] at hw
  obtain rfl := Option.some.inj hw
  rw [hlookUps, flatMap_paths] at hjoined
  have hfirst := congrArg LookUps.full (List.cons.inj hjoined).1
  exact (List.append_cancel_right hfirst).symm

-- What is included is looked up relative to its place exactly when the paths give the
-- same keys from the innermost out and from the outermost in, and only the first key of
-- each is empty at most.
theorem looksUpRelative_iff (keys : List SpelledKey) :
    LooksUpRelative keys ↔
      (∀ key ∈ keys, key.path.fullyNamed) ∧ joinedKeys keys = placeKeys keys :=
  ⟨joinedKeys_of_looksUpRelative, fun h => looksUpRelative_of_joinedKeys h.1 h.2⟩

def SpelledKey.ofLetter (letter : Bytes) (h : parsePathExpression [.unquotedText letter] =
    .ok (.newKey letter)) (hinclude : letter ≠ ascii "include") : SpelledKey where
  tokens := [.unquotedText letter]
  path := .newKey letter
  spells := h
  isKey := by simp [Token.isKey]
  notInclude := by simpa [isIncludeKeyword] using hinclude

-- `a { b { include "f" } }`: what `f` refers to is looked up below `b.a`.
theorem not_looksUpRelative_ab :
    ¬LooksUpRelative [SpelledKey.ofLetter (ascii "a") (by decide +kernel) (by decide),
      SpelledKey.ofLetter (ascii "b") (by decide +kernel) (by decide)] := by
  intro h
  have hjoined := (joinedKeys_of_looksUpRelative h).2
  exact absurd hjoined (by decide)

end AsrServiceProxy.Config

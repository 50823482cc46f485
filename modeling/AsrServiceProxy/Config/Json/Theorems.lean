import AsrServiceProxy.Config.Json.Lexing
import AsrServiceProxy.Config.RoundTrip.Theorems

-- JSON mode against the grammar of JSON: which texts are read as the trees that they
-- denote, and which texts are taken that are none of JSON.
namespace AsrServiceProxy.Config

open CMemory JsonGrammar

def Value.isNumber : Value Unit → Bool
  | .configInt _ _ _ | .configInt64 _ _ _ | .configDouble _ _ => true
  | _ => false

-- The value of a tree. A number that is no integer is some number.
mutual

inductive Denotes : Tree → Value Unit → Prop
  | null : Denotes .null (.configNull ())
  | boolean (value : Bool) : Denotes (.boolean value) (.configBoolean () value)
  | integer {lexeme : Bytes} {n : Int64} {v : Value Unit} (hn : n.toInt = intValue lexeme)
      (h : v.data = some (.number n)) : Denotes (.integer lexeme) v
  | real {lexeme : Bytes} {v : Value Unit} (h : v.isNumber = true) : Denotes (.real lexeme) v
  | string (body : Bytes) : Denotes (.string body) (.configString () (unescape body))
  | array {trees : List Tree} {values : List (Value Unit)} (h : DenotesAll trees values) :
      Denotes (.array trees) (.simpleConfigList () values)
  | object {members : List (Bytes × Tree)} {fields : Fields Unit} (h : DenotesFields members fields) :
      Denotes (.object members) (.simpleConfigObject () fields false)

inductive DenotesAll : List Tree → List (Value Unit) → Prop
  | nil : DenotesAll [] []
  | cons {tree : Tree} {trees : List Tree} {v : Value Unit} {values : List (Value Unit)}
      (h : Denotes tree v) (hrest : DenotesAll trees values) :
      DenotesAll (tree :: trees) (v :: values)

inductive DenotesFields : List (Bytes × Tree) → Fields Unit → Prop
  | nil : DenotesFields [] []
  | cons (body : Bytes) {tree : Tree} {members : List (Bytes × Tree)} {v : Value Unit}
      {fields : Fields Unit} (h : Denotes tree v) (hrest : DenotesFields members fields) :
      DenotesFields ((body, tree) :: members) ((unescape body, v) :: fields)

end

def fitsInt64 (lexeme : Bytes) : Bool := -2 ^ 63 ≤ intValue lexeme && intValue lexeme < 2 ^ 63

theorem digitsValue_of_digits {digits : Bytes} (h : Digits digits) :
    digitsValue digits = some (natValue digits) := by
  cases digits with
  | nil => exact absurd rfl h.ne_nil
  | cons b rest =>
      have hall : ((b :: rest).all fun b => 48 ≤ b && b ≤ 57) = true := List.all_eq_true.mpr h.all
      rw [digitsValue, if_pos hall]
      · rfl
      · exact List.cons_ne_nil b rest

theorem signedValue_of_isInteger {lexeme : Bytes} (h : IsInteger lexeme) :
    signedValue lexeme = some (intValue lexeme) := by
  cases h with
  | minus h => rw [signedValue, digitsValue_of_digits h.isDigits, intValue, Option.map_some]
  | plain h =>
      have hdigits := h.isDigits
      have hsign : ∀ rest, lexeme ≠ 45 :: rest ∧ lexeme ≠ 43 :: rest := by
        intro rest
        constructor
        · rintro rfl
          cases hdigits.all 45 List.mem_cons_self
        · rintro rfl
          cases hdigits.all 43 List.mem_cons_self
      rw [signedValue.eq_3 lexeme (fun rest => (hsign rest).1) (fun rest => (hsign rest).2),
        digitsValue_of_digits hdigits, intValue.eq_2 lexeme (fun rest => (hsign rest).1),
        Option.map_some]

-- How the tokenizer reads a lexeme of a tree without `\u`.
def Fine (doubles : Doubles) : Lexeme → Prop
  | .integer lexeme => ∃ v, lexemeToken doubles (.integer lexeme) = some (.value v) ∧
      Denotes (.integer lexeme) v
  | .real lexeme => ∃ v, lexemeToken doubles (.real lexeme) = some (.value v) ∧
      Denotes (.real lexeme) v
  | .string body => lexemeToken doubles (.string body) =
      some (.value (.configString () (unescape body)))
  | _ => True

theorem fine_integer {doubles : Doubles} {lexeme : Bytes} (h : IsInteger lexeme)
    (hfits : fitsInt64 lexeme = true) : Fine doubles (.integer lexeme) := by
  rw [fitsInt64, Bool.and_eq_true, decide_eq_true_iff, decide_eq_true_iff] at hfits
  have hcast : lexicalInt64 lexeme = some (Int64.ofInt (intValue lexeme)) := by
    rw [lexicalInt64, signedValue_of_isInteger h]
    exact if_pos hfits
  have hback : (Int64.ofInt (intValue lexeme)).toInt = intValue lexeme :=
    Int64.toInt_ofInt_of_le hfits.1 hfits.2
  refine ⟨newNumber () (Int64.ofInt (intValue lexeme)) lexeme, ?_, .integer hback ?_⟩
  · rw [lexemeToken, numberResult, if_neg Bool.false_ne_true, hcast]
    rfl
  · exact newNumber_data () _ lexeme

theorem newNumber_isNumber (n : Int64) (text : Bytes) : (newNumber () n text).isNumber = true := by
  unfold newNumber
  split <;> rfl

theorem fine_real {doubles : Doubles} {lexeme : Bytes} (hcast : (doubles.cast lexeme).isSome = true)
    (hcapital : 69 ∉ lexeme) : Fine doubles (.real lexeme) := by
  obtain ⟨result, hresult⟩ := Option.isSome_iff_exists.mp hcast
  have htoken : lexemeToken doubles (.real lexeme) = (numberResult doubles lexeme true).toOption := by
    rw [lexemeToken, if_neg hcapital]
  cases result with
  | none =>
      refine ⟨.configDouble () lexeme, ?_, .real rfl⟩
      rw [htoken, numberResult, if_pos rfl, hresult]
      rfl
  | some n =>
      refine ⟨newNumber () n lexeme, ?_, .real (newNumber_isNumber n lexeme)⟩
      rw [htoken, numberResult, if_pos rfl, hresult]
      rfl

theorem unescape_cons {b : UInt8} (hb : b ≠ 92) (rest : Bytes) :
    unescape (b :: rest) = b :: unescape rest := by
  rw [unescape]
  rintro _ _ rfl
  exact absurd rfl hb

theorem usesUnicode_cons {b : UInt8} (hb : b ≠ 92) (rest : Bytes) :
    usesUnicode (b :: rest) = usesUnicode rest := by
  rw [usesUnicode]
  rintro _ _ rfl
  exact absurd rfl hb

theorem unescape_append {c : Bytes} (hc : ∀ b ∈ c, isLiteral b = true) (rest : Bytes) :
    unescape (c ++ rest) = c ++ unescape rest ∧ usesUnicode (c ++ rest) = usesUnicode rest := by
  induction c with
  | nil => exact ⟨rfl, rfl⟩
  | cons b c ih =>
      rw [List.forall_mem_cons] at hc
      have hb : b ≠ 92 := by
        rintro rfl
        cases hc.1
      obtain ⟨hunescape, huses⟩ := ih hc.2
      rw [List.cons_append, unescape_cons hb, usesUnicode_cons hb, hunescape, huses,
        List.cons_append]
      exact ⟨rfl, rfl⟩

theorem readBody_eq_unescape {body : Bytes} (h : IsBody body) (huses : usesUnicode body = false) :
    readBody body = unescape body := by
  induction h with
  | nil => rfl
  | @char c rest hc h ih =>
      have hliteral := isUnescaped_isLiteral hc
      obtain ⟨hunescape, hsame⟩ := unescape_append hliteral rest
      rw [hsame] at huses
      rw [hunescape, readBody_append hliteral, ih huses]
  | @escape e x rest he h ih =>
      obtain ⟨_, hunicode, _, _⟩ := escape_single he
      rw [usesUnicode, Bool.or_eq_false_iff] at huses
      rw [readBody_escape hunicode, unescape, ih huses.2]
      rfl
  | unicode =>
      rw [usesUnicode] at huses
      cases huses

theorem fine_string {doubles : Doubles} {body : Bytes} (h : IsBody body)
    (huses : usesUnicode body = false) (hdelete : 127 ∉ body) : Fine doubles (.string body) := by
  rw [Fine, lexemeToken, if_neg hdelete, readBody_eq_unescape h huses]

-- The tokens of a tree are those of a value that it denotes.
section

variable {doubles : Doubles}

theorem lexemeToken_mark (m : Mark) : lexemeToken doubles (.mark m) = some (markToken m) := rfl

theorem forall_mem_lexemes_array {tree : Tree} {rest : List Tree} {p : Lexeme → Prop}
    (h : ∀ l ∈ (Tree.array (tree :: rest)).lexemes, p l) :
    (∀ l ∈ tree.lexemes, p l) ∧ ∀ l ∈ Tree.moreElements rest, p l := by
  rw [Tree.lexemes] at h
  exact ⟨fun l hl => h l (by simp [hl]), fun l hl => h l (by simp [hl])⟩

theorem forall_mem_lexemes_object {name : Bytes} {tree : Tree} {rest : List (Bytes × Tree)}
    {p : Lexeme → Prop} (h : ∀ l ∈ (Tree.object ((name, tree) :: rest)).lexemes, p l) :
    p (.string name) ∧ (∀ l ∈ tree.lexemes, p l) ∧ ∀ l ∈ Tree.moreMembers rest, p l := by
  rw [Tree.lexemes] at h
  exact ⟨h _ (by simp), fun l hl => h l (by simp [hl]), fun l hl => h l (by simp [hl])⟩

mutual

theorem tree_tokens : ∀ (tree : Tree), (∀ l ∈ tree.lexemes, Fine doubles l) →
    tree.distinct unescape = true →
    ∃ ts v, TokenValue ts v ∧ Denotes tree v ∧ tree.lexemes.map (lexemeToken doubles) = ts.map some
  | .null, _, _ => ⟨_, _, .scalar _, .null, rfl⟩
  | .boolean value, _, _ => ⟨_, _, .scalar _, .boolean value, rfl⟩
  | .integer lexeme, hfine, _ => by
      obtain ⟨v, htoken, hdenotes⟩ := hfine (.integer lexeme) List.mem_cons_self
      exact ⟨[.value v], v, .scalar v, hdenotes, congrArg (fun t => [t]) htoken⟩
  | .real lexeme, hfine, _ => by
      obtain ⟨v, htoken, hdenotes⟩ := hfine (.real lexeme) List.mem_cons_self
      exact ⟨[.value v], v, .scalar v, hdenotes, congrArg (fun t => [t]) htoken⟩
  | .string body, hfine, _ => by
      have htoken := hfine (.string body) List.mem_cons_self
      exact ⟨[.value _], _, .scalar _, .string body, congrArg (fun t => [t]) htoken⟩
  | .array [], _, _ => ⟨_, _, .emptyList, .array .nil, rfl⟩
  | .array (tree :: rest), hfine, hdistinct => by
      obtain ⟨hfirst, hmore⟩ := forall_mem_lexemes_array hfine
      rw [Tree.distinct, Tree.distinctElements, Bool.and_eq_true] at hdistinct
      obtain ⟨ts, v, hv, hdenotes, hmap⟩ := tree_tokens tree hfirst hdistinct.1
      obtain ⟨ts', vs, hvs, hdenotes', hmap'⟩ := elements_tokens rest hmore hdistinct.2
      refine ⟨_, _, .list hv hvs, .array (.cons hdenotes hdenotes'), ?_⟩
      simp [Tree.lexemes, hmap, hmap', lexemeToken_mark, markToken]
  | .object [], _, _ => ⟨_, _, .emptyObject, .object .nil, rfl⟩
  | .object ((name, tree) :: rest), hfine, hdistinct => by
      obtain ⟨hname, hfirst, hmore⟩ := forall_mem_lexemes_object hfine
      rw [Tree.distinct, Tree.distinctMembers, Bool.and_eq_true, Bool.and_eq_true,
        decide_eq_true_iff] at hdistinct
      obtain ⟨ts, v, hv, hdenotes, hmap⟩ := tree_tokens tree hfirst hdistinct.2.1
      obtain ⟨ts', fields, hfields, hdenotes', hkeys, hmap'⟩ :=
        members_tokens rest hmore hdistinct.2.2
      have hnodup : (((unescape name, v) :: fields).map Prod.fst).Nodup := by
        rw [List.map_cons, hkeys]
        exact hdistinct.1
      refine ⟨_, _, .object hv hfields hnodup, .object (.cons name hdenotes hdenotes'), ?_⟩
      rw [Fine] at hname
      simp [Tree.lexemes, hname, hmap, hmap', lexemeToken_mark, markToken]

theorem elements_tokens : ∀ (trees : List Tree), (∀ l ∈ Tree.moreElements trees, Fine doubles l) →
    Tree.distinctElements unescape trees = true →
    ∃ ts vs, TokenElements ts vs ∧ DenotesAll trees vs ∧
      (Tree.moreElements trees).map (lexemeToken doubles) = ts.map some
  | [], _, _ => ⟨_, _, .nil, .nil, rfl⟩
  | tree :: rest, hfine, hdistinct => by
      rw [Tree.moreElements] at hfine
      rw [Tree.distinctElements, Bool.and_eq_true] at hdistinct
      obtain ⟨ts, v, hv, hdenotes, hmap⟩ :=
        tree_tokens tree (fun l hl => hfine l (by simp [hl])) hdistinct.1
      obtain ⟨ts', vs, hvs, hdenotes', hmap'⟩ :=
        elements_tokens rest (fun l hl => hfine l (by simp [hl])) hdistinct.2
      refine ⟨_, _, .cons hv hvs, .cons hdenotes hdenotes', ?_⟩
      simp [Tree.moreElements, hmap, hmap', lexemeToken_mark, markToken]

theorem members_tokens : ∀ (members : List (Bytes × Tree)),
    (∀ l ∈ Tree.moreMembers members, Fine doubles l) →
    Tree.distinctMembers unescape members = true →
    ∃ ts fields, TokenMembers ts fields ∧ DenotesFields members fields ∧
      fields.map Prod.fst = members.map (fun member => unescape member.1) ∧
      (Tree.moreMembers members).map (lexemeToken doubles) = ts.map some
  | [], _, _ => ⟨_, _, .nil, .nil, rfl, rfl⟩
  | (name, tree) :: rest, hfine, hdistinct => by
      rw [Tree.moreMembers] at hfine
      rw [Tree.distinctMembers, Bool.and_eq_true] at hdistinct
      obtain ⟨ts, v, hv, hdenotes, hmap⟩ :=
        tree_tokens tree (fun l hl => hfine l (by simp [hl])) hdistinct.1
      obtain ⟨ts', fields, hfields, hdenotes', hkeys, hmap'⟩ :=
        members_tokens rest (fun l hl => hfine l (by simp [hl])) hdistinct.2
      have hname : Fine doubles (.string name) := hfine _ (by simp)
      rw [Fine] at hname
      refine ⟨_, _, .cons hv hfields, .cons name hdenotes hdenotes', ?_, ?_⟩
      · rw [List.map_cons, List.map_cons, hkeys]
      · simp [Tree.moreMembers, hname, hmap, hmap', lexemeToken_mark, markToken]

end

-- The other way, from the tokens of a value to a tree.
theorem numberResult_isNumber {s : Bytes} {containedDecimalOrE : Bool} {v : Value Unit}
    (h : (numberResult doubles s containedDecimalOrE).toOption = some (.value v)) :
    v.isNumber = true := by
  unfold numberResult at h
  split at h
  · split at h <;> cases h
    · rfl
    · exact newNumber_isNumber _ s
  · split at h <;> cases h
    exact newNumber_isNumber _ s

theorem lexemeToken_value_isContainer {l : Lexeme} {v : Value Unit}
    (h : lexemeToken doubles l = some (.value v)) : l.isMark = false ∧ v.isContainer = false := by
  have hnumber : v.isNumber = true → v.isContainer = false := by
    intro h
    cases v <;> first | rfl | cases h
  cases l with
  | mark m => cases m <;> cases h
  | null | boolean => cases h; exact ⟨rfl, rfl⟩
  | integer lexeme => exact ⟨rfl, hnumber (numberResult_isNumber h)⟩
  | real lexeme =>
      rw [lexemeToken] at h
      split at h
      · cases h
      · exact ⟨rfl, hnumber (numberResult_isNumber h)⟩
  | string body =>
      rw [lexemeToken] at h
      split at h
      · cases h
      · cases h
        exact ⟨rfl, rfl⟩

theorem lexemeToken_name {l : Lexeme} {key : Bytes}
    (h : lexemeToken doubles l = some (.value (.configString () key))) :
    ∃ body, l = .string body ∧ readBody body = key := by
  cases l with
  | mark m => cases m <;> cases h
  | null | boolean => cases h
  | integer lexeme => cases numberResult_isNumber h
  | real lexeme =>
      rw [lexemeToken] at h
      split at h
      · cases h
      · cases numberResult_isNumber h
  | string body =>
      rw [lexemeToken] at h
      split at h
      · cases h
      · cases h
        exact ⟨body, rfl, rfl⟩

theorem lexemeToken_eq_mark {l : Lexeme} {m : Mark}
    (h : lexemeToken doubles l = some (markToken m)) : l = .mark m := by
  have hvalue : ∀ v, markToken m ≠ .value v := by
    intro v
    cases m <;> nofun
  have hnumber : ∀ {s : Bytes} {containedDecimalOrE : Bool},
      (numberResult doubles s containedDecimalOrE).toOption ≠ some (markToken m) := by
    intro s containedDecimalOrE h
    cases hresult : numberResult doubles s containedDecimalOrE with
    | ok t =>
        rw [hresult] at h
        obtain ⟨v, rfl⟩ := numberResult_value hresult
        exact hvalue v (Option.some.inj h).symm
    | error e =>
        rw [hresult] at h
        cases h
  cases l with
  | mark m' =>
      have hsame := Option.some.inj h
      cases m <;> cases m' <;> first | rfl | cases hsame
  | null | boolean => exact absurd (Option.some.inj h).symm (hvalue _)
  | integer lexeme => exact absurd h hnumber
  | real lexeme =>
      rw [lexemeToken] at h
      split at h
      · cases h
      · exact absurd h hnumber
  | string body =>
      rw [lexemeToken] at h
      split at h
      · cases h
      · exact absurd (Option.some.inj h).symm (hvalue _)

mutual

theorem tokenValue_tree : ∀ {ts : List Token} {v : Value Unit}, TokenValue ts v →
    ∀ {ls : List Lexeme}, ls.map (lexemeToken doubles) = ts.map some →
    ∃ tree : Tree, tree.lexemes = ls ∧ tree.distinct readBody = true ∧
      tree.isContainer = v.isContainer
  | _, _, .scalar v, _, h => by
      obtain ⟨l, rfl, hl⟩ := List.map_eq_singleton_iff.mp h
      obtain ⟨hmark, hcontainer⟩ := lexemeToken_value_isContainer hl
      rw [hcontainer]
      cases l with
      | mark => cases hmark
      | null => exact ⟨.null, rfl, rfl, rfl⟩
      | boolean value => exact ⟨.boolean value, rfl, rfl, rfl⟩
      | integer lexeme => exact ⟨.integer lexeme, rfl, rfl, rfl⟩
      | real lexeme => exact ⟨.real lexeme, rfl, rfl, rfl⟩
      | string body => exact ⟨.string body, rfl, rfl, rfl⟩
  | _, _, .emptyList, _, h => by
      obtain ⟨l, _, rfl, hl, h⟩ := List.map_eq_cons_iff.mp h
      obtain ⟨l', rfl, hl'⟩ := List.map_eq_singleton_iff.mp h
      obtain rfl := lexemeToken_eq_mark (m := .beginArray) hl
      obtain rfl := lexemeToken_eq_mark (m := .endArray) hl'
      exact ⟨.array [], rfl, rfl, rfl⟩
  | _, _, .list hv hvs, _, h => by
      rw [List.map_cons, List.map_append, List.map_append] at h
      obtain ⟨l, _, rfl, hl, h⟩ := List.map_eq_cons_iff.mp h
      obtain ⟨ls, _, rfl, hls, h⟩ := List.map_eq_append_iff.mp h
      obtain ⟨ls', _, rfl, hls', h⟩ := List.map_eq_append_iff.mp h
      obtain ⟨l', rfl, hl'⟩ := List.map_eq_singleton_iff.mp h
      obtain rfl := lexemeToken_eq_mark (m := .beginArray) hl
      obtain rfl := lexemeToken_eq_mark (m := .endArray) hl'
      obtain ⟨tree, rfl, hdistinct, _⟩ := tokenValue_tree hv hls
      obtain ⟨trees, rfl, hdistinct'⟩ := tokenElements_trees hvs hls'
      refine ⟨.array (tree :: trees), rfl, ?_, rfl⟩
      rw [Tree.distinct, Tree.distinctElements, hdistinct, hdistinct']
      rfl
  | _, _, .emptyObject, _, h => by
      obtain ⟨l, _, rfl, hl, h⟩ := List.map_eq_cons_iff.mp h
      obtain ⟨l', rfl, hl'⟩ := List.map_eq_singleton_iff.mp h
      obtain rfl := lexemeToken_eq_mark (m := .beginObject) hl
      obtain rfl := lexemeToken_eq_mark (m := .endObject) hl'
      exact ⟨.object [], rfl, rfl, rfl⟩
  | _, _, .object hv hfields hkeys, _, h => by
      rw [List.map_cons, List.map_cons, List.map_cons, List.map_append, List.map_append] at h
      obtain ⟨l, _, rfl, hl, h⟩ := List.map_eq_cons_iff.mp h
      obtain ⟨name, _, rfl, hname, h⟩ := List.map_eq_cons_iff.mp h
      obtain ⟨colon, _, rfl, hcolon, h⟩ := List.map_eq_cons_iff.mp h
      obtain ⟨ls, _, rfl, hls, h⟩ := List.map_eq_append_iff.mp h
      obtain ⟨ls', _, rfl, hls', h⟩ := List.map_eq_append_iff.mp h
      obtain ⟨l', rfl, hl'⟩ := List.map_eq_singleton_iff.mp h
      obtain rfl := lexemeToken_eq_mark (m := .beginObject) hl
      obtain rfl := lexemeToken_eq_mark (m := .endObject) hl'
      obtain rfl := lexemeToken_eq_mark (m := .nameSeparator) hcolon
      obtain ⟨body, rfl, hbody⟩ := lexemeToken_name hname
      obtain ⟨tree, rfl, hdistinct, _⟩ := tokenValue_tree hv hls
      obtain ⟨members, rfl, hdistinct', hnames⟩ := tokenMembers_members hfields hls'
      refine ⟨.object ((body, tree) :: members), rfl, ?_, rfl⟩
      rw [List.map_cons, ← hnames, ← hbody] at hkeys
      rw [Tree.distinct, Tree.distinctMembers, hdistinct, hdistinct', Bool.and_eq_true,
        decide_eq_true_iff]
      exact ⟨hkeys, rfl⟩

theorem tokenElements_trees : ∀ {ts : List Token} {vs : List (Value Unit)}, TokenElements ts vs →
    ∀ {ls : List Lexeme}, ls.map (lexemeToken doubles) = ts.map some →
    ∃ trees : List Tree, Tree.moreElements trees = ls ∧
      Tree.distinctElements readBody trees = true
  | _, _, .nil, _, h => by
      obtain rfl := List.map_eq_nil_iff.mp h
      exact ⟨[], rfl, rfl⟩
  | _, _, .cons hv hvs, _, h => by
      rw [List.map_cons, List.map_append] at h
      obtain ⟨l, _, rfl, hl, h⟩ := List.map_eq_cons_iff.mp h
      obtain ⟨ls, ls', rfl, hls, hls'⟩ := List.map_eq_append_iff.mp h
      obtain rfl := lexemeToken_eq_mark (m := .valueSeparator) hl
      obtain ⟨tree, rfl, hdistinct, _⟩ := tokenValue_tree hv hls
      obtain ⟨trees, rfl, hdistinct'⟩ := tokenElements_trees hvs hls'
      refine ⟨tree :: trees, rfl, ?_⟩
      rw [Tree.distinctElements, hdistinct, hdistinct']
      rfl

theorem tokenMembers_members : ∀ {ts : List Token} {fields : Fields Unit}, TokenMembers ts fields →
    ∀ {ls : List Lexeme}, ls.map (lexemeToken doubles) = ts.map some →
    ∃ members : List (Bytes × Tree), Tree.moreMembers members = ls ∧
      Tree.distinctMembers readBody members = true ∧
      members.map (fun member => readBody member.1) = fields.map Prod.fst
  | _, _, .nil, _, h => by
      obtain rfl := List.map_eq_nil_iff.mp h
      exact ⟨[], rfl, rfl, rfl⟩
  | _, _, .cons hv hfields, _, h => by
      rw [List.map_cons, List.map_cons, List.map_cons, List.map_append] at h
      obtain ⟨l, _, rfl, hl, h⟩ := List.map_eq_cons_iff.mp h
      obtain ⟨name, _, rfl, hname, h⟩ := List.map_eq_cons_iff.mp h
      obtain ⟨colon, _, rfl, hcolon, h⟩ := List.map_eq_cons_iff.mp h
      obtain ⟨ls, ls', rfl, hls, hls'⟩ := List.map_eq_append_iff.mp h
      obtain rfl := lexemeToken_eq_mark (m := .valueSeparator) hl
      obtain rfl := lexemeToken_eq_mark (m := .nameSeparator) hcolon
      obtain ⟨body, rfl, hbody⟩ := lexemeToken_name hname
      obtain ⟨tree, rfl, hdistinct, _⟩ := tokenValue_tree hv hls
      obtain ⟨members, rfl, hdistinct', hnames⟩ := tokenMembers_members hfields hls'
      refine ⟨(body, tree) :: members, rfl, ?_, ?_⟩
      · rw [Tree.distinctMembers, hdistinct, hdistinct']
        rfl
      · rw [List.map_cons, List.map_cons, hnames, hbody]

end

end

section

variable {doubles : Doubles} {includer : Includer} {text : Bytes} {tree : Tree}

-- A text that is taken is spelled by its lexemes, each with its token.
theorem parse_lexemes {ls : List Lexeme} (h : Cut text ls) {v : Value Unit}
    (hparse : parse doubles includer .JSON text = .ok v) :
    v.isContainer = true ∧ ∃ ts, TokenValue ts v ∧
      ls.map (lexemeToken doubles) = ts.map some := by
  obtain ⟨hcontainer, ts, hts, htokens⟩ := parse_json_tokens hparse
  exact ⟨hcontainer, ts, hts, (spelled_jsonTokens h).map_of_json htokens hts.isJson⟩

theorem head_ne_value (hcontainer : tree.isContainer = true) {ts : List Token}
    (hmap : tree.lexemes.map (lexemeToken doubles) = ts.map some) (w : Value Unit) :
    ts.head? ≠ some (.value w) := by
  intro hhead
  obtain ⟨rest, rfl⟩ := List.head?_eq_some_iff.mp hhead
  cases tree with
  | array trees =>
      rw [Tree.lexemes_array] at hmap
      cases (List.cons.inj hmap).1
  | object members =>
      rw [Tree.lexemes_object] at hmap
      cases (List.cons.inj hmap).1
  | _ => cases hcontainer

-- What the tokenizer can read of the numbers and the strings of a tree.
def readable (tree : Tree) : Bool :=
  tree.all (fun _ => true) (fun lexeme => !lexeme.contains 69) (fun body => !body.contains 127)

theorem fine_lexemes (hcast : ∀ lexeme, IsReal lexeme → (doubles.cast lexeme).isSome = true)
    {ls : List Lexeme} (h : Cut text ls)
    (hplain : ls.all (Lexeme.all fitsInt64 (fun _ => true) fun body => !usesUnicode body) = true)
    (hreadable : ls.all (Lexeme.all (fun _ => true) (fun lexeme => !lexeme.contains 69)
      fun body => !body.contains 127) = true) : ∀ l ∈ ls, Fine doubles l := by
  intro l hl
  have hvalid := h.valid l hl
  have hlplain := List.all_eq_true.mp hplain l hl
  have hlreadable := List.all_eq_true.mp hreadable l hl
  cases l with
  | integer lexeme => exact fine_integer hvalid hlplain
  | real lexeme =>
      refine fine_real (hcast lexeme hvalid) ?_
      rw [← List.contains_iff_mem]
      simpa [Lexeme.all] using hlreadable
  | string body =>
      refine fine_string hvalid ?_ ?_
      · simpa [Lexeme.all] using hlplain
      · rw [← List.contains_iff_mem]
        simpa [Lexeme.all] using hlreadable
  | mark | null | boolean => trivial

theorem readable_of_tokens {ls : List Lexeme} {ts : List Token}
    (hmap : ls.map (lexemeToken doubles) = ts.map some) :
    ls.all (Lexeme.all (fun _ => true) (fun lexeme => !lexeme.contains 69)
      fun body => !body.contains 127) = true := by
  rw [List.all_eq_true]
  intro l hl
  have htoken : lexemeToken doubles l ≠ none := by
    intro hnone
    have hmem : none ∈ ts.map some := by
      rw [← hmap, ← hnone]
      exact List.mem_map_of_mem hl
    simp at hmem
  cases l with
  | real lexeme =>
      rw [lexemeToken] at htoken
      split at htoken
      · exact absurd rfl htoken
      · rename_i hcapital
        simpa [Lexeme.all] using hcapital
  | string body =>
      rw [lexemeToken] at htoken
      split at htoken
      · exact absurd rfl htoken
      · rename_i hdelete
        simpa [Lexeme.all] using hdelete
  | mark | null | boolean | integer => rfl

theorem parse_isText_iff (hcast : ∀ lexeme, IsReal lexeme → (doubles.cast lexeme).isSome = true)
    (h : IsText text tree) (hcontainer : tree.isContainer = true)
    (hdistinct : tree.distinct unescape = true)
    (hplain : tree.all fitsInt64 (fun _ => true) (fun body => !usesUnicode body) = true) :
    (∃ v, parse doubles includer .JSON text = .ok v ∧ Denotes tree v) ↔ readable tree = true := by
  have hcut := h.cut
  rw [Tree.all_eq] at hplain
  rw [readable, Tree.all_eq]
  constructor
  · rintro ⟨v, hparse, _⟩
    obtain ⟨_, ts, _, hmap⟩ := parse_lexemes hcut hparse
    exact readable_of_tokens hmap
  · intro hreadable
    have hfine := fine_lexemes hcast hcut hplain hreadable
    obtain ⟨ts, v, hv, hdenotes, hmap⟩ := tree_tokens tree hfine hdistinct
    have htokens := (spelled_jsonTokens hcut).eq_of_map hmap
    exact ⟨v, parse_json_of_tokens hv (head_ne_value hcontainer hmap) htokens, hdenotes⟩

end

-- Every text is cast to a double that is no integer.
def anyDouble : Doubles where
  cast _ := some none
  print text := text

-- `{"a": [1.5, -7]}`
def numbersText : Bytes :=
  [123, 34, 97, 34, 58, 32, 91, 49, 46, 53, 44, 32, 45, 55, 93, 125]

def numbersTree : Tree := .object [([97], .array [.real [49, 46, 53], .integer [45, 55]])]

theorem isText_numbers : IsText numbersText numbersTree := by
  have hreal : IsReal [49, 46, 53] :=
    @IsReal.frac [49] [46, 53] (.plain (.digits (by decide) nofun))
      (.mk ⟨nofun, List.forall_mem_singleton.mpr rfl⟩)
  have hinteger : IsInteger [45, 55] := .minus (.digits (by decide) nofun)
  have hname : IsBody [97] := @IsBody.char [97] [] rfl .nil
  have hspace : Ws [32] := by
    intro b hb
    rw [List.mem_singleton.mp hb]
    rfl
  have hmember := @IsMembers.single [97] [58, 32] _ _ hname ⟨[], [32], Ws.nil, hspace, rfl⟩
    (@IsValue.array [91] _ [93] _ ⟨[], [], Ws.nil, Ws.nil, rfl⟩
      (@IsElements.cons _ [44, 32] _ _ _ (.real hreal) ⟨[], [32], Ws.nil, hspace, rfl⟩
        (.single (.integer hinteger))) ⟨[], [], Ws.nil, Ws.nil, rfl⟩)
  exact @IsText.mk [] _ [] _ Ws.nil (@IsValue.object [123] _ [125] _
    ⟨[], [], Ws.nil, Ws.nil, rfl⟩ hmember ⟨[], [], Ws.nil, Ws.nil, rfl⟩) Ws.nil

theorem parse_numbers :
    ∃ v, parse anyDouble .none .JSON numbersText = .ok v ∧ Denotes numbersTree v :=
  (parse_isText_iff (fun _ _ => rfl) isText_numbers rfl (by decide +kernel)
    (by decide +kernel)).mpr (by decide +kernel)

-- The number `1E5` of `[1E5]` is cut before its exponent.
theorem parse_capital_exponent :
    (∃ tree, IsText [91, 49, 69, 53, 93] tree ∧ tree.isContainer = true ∧
      tree.distinct unescape = true ∧
      tree.all fitsInt64 (fun _ => true) (fun body => !usesUnicode body) = true) ∧
    (∀ lexeme, IsReal lexeme → (anyDouble.cast lexeme).isSome = true) ∧
    ∀ v, parse anyDouble .none .JSON [91, 49, 69, 53, 93] ≠ .ok v := by
  have hreal : IsReal [49, 69, 53] :=
    @IsReal.exp [49] [69, 53] (.plain (.digits (by decide) nofun))
      (@IsExp.mk 69 [] [53] (.inr rfl) (.inl rfl) ⟨nofun, List.forall_mem_singleton.mpr rfl⟩)
  have hvalue : IsValue [91, 49, 69, 53, 93] (.array [.real [49, 69, 53]]) :=
    @IsValue.array [91] [49, 69, 53] [93] _ ⟨[], [], Ws.nil, Ws.nil, rfl⟩ (.single (.real hreal))
      ⟨[], [], Ws.nil, Ws.nil, rfl⟩
  refine ⟨⟨_, @IsText.mk [] _ [] _ Ws.nil hvalue Ws.nil, rfl, by decide +kernel,
    by decide +kernel⟩, fun _ _ => rfl, ?_⟩
  intro v hparse
  have herror : (parse anyDouble .none .JSON [91, 49, 69, 53, 93]).isOk = false := by
    decide +kernel
  rw [hparse] at herror
  cases herror

section

variable {doubles : Doubles} {includer : Includer} {text : Bytes}

-- A JSON text, as the parser should take it.
def IsJson (text : Bytes) : Prop :=
  ∃ tree, IsText text tree ∧ tree.isContainer = true ∧ tree.distinct codeUnits = true

theorem parse_isJson_iff {v : Value Unit} (h : parse doubles includer .JSON text = .ok v) :
    IsJson text ↔ ∃ ls, Cut text ls ∧
      ∀ tree : Tree, tree.lexemes = ls → tree.agrees codeUnits readBody = true := by
  constructor
  · rintro ⟨tree, htext, _, hdistinct⟩
    refine ⟨tree.lexemes, htext.cut, ?_⟩
    intro tree' hlexemes
    obtain ⟨rfl, _⟩ := Tree.lexemes_inj tree' tree (congrArg (· ++ []) hlexemes)
    exact Tree.agrees_of_distinct hdistinct
  · rintro ⟨ls, hcut, hagrees⟩
    obtain ⟨hcontainer, ts, hts, hmap⟩ := parse_lexemes hcut h
    obtain ⟨tree, hlexemes, hdistinct, hsame⟩ := tokenValue_tree hts hmap
    rw [← hlexemes] at hcut
    refine ⟨tree, isText_iff_cut.mpr hcut, hsame.trans hcontainer, ?_⟩
    exact Tree.distinct_of_agrees (hagrees tree hlexemes) hdistinct

end

theorem exists_of_isOk {ε α : Type} {r : Except ε α} (h : r.isOk = true) : ∃ a, r = .ok a := by
  cases r with
  | ok a => exact ⟨a, rfl⟩
  | error e => cases h

theorem isJson_numbers : IsJson numbersText := by
  obtain ⟨v, hparse⟩ : ∃ v, parse anyDouble .none .JSON numbersText = .ok v :=
    exists_of_isOk (by decide +kernel)
  refine (parse_isJson_iff hparse).mpr ⟨numbersTree.lexemes, isText_numbers.cut, ?_⟩
  intro tree hlexemes
  obtain ⟨rfl, _⟩ := Tree.lexemes_inj tree numbersTree (congrArg (· ++ []) hlexemes)
  decide +kernel

theorem isBody_head {b : UInt8} {rest : Bytes} (h : IsBody (b :: rest)) : b ≠ 34 := by
  generalize htext : b :: rest = text at h
  rintro rfl
  cases h with
  | nil => cases htext
  | @char c rest hc =>
      cases c with
      | nil => cases hc
      | cons c cs =>
          obtain ⟨rfl, _⟩ := List.cons.inj htext
          cases isUnescaped_isLiteral hc 34 List.mem_cons_self
  | escape => cases (List.cons.inj htext).1
  | unicode => cases (List.cons.inj htext).1

theorem valid_number_head {l : Lexeme} (hl : l.Valid)
    (hnumber : (∃ x, l = .integer x) ∨ ∃ x, l = .real x) :
    ∃ b rest, l.text = b :: rest ∧ firstNumberChars.contains b = true := by
  rcases hnumber with ⟨x, rfl⟩ | ⟨x, rfl⟩
  · obtain ⟨b, digits, rfl, hb, _⟩ := isInteger_split hl
    exact ⟨b, digits, rfl, hb⟩
  · obtain ⟨int, rest, rfl, hint, _⟩ := IsReal.split hl
    obtain ⟨b, digits, rfl, hb, _⟩ := isInteger_split hint
    exact ⟨b, digits ++ rest, rfl, hb⟩

theorem not_number_of_head {l : Lexeme} (hl : l.Valid) {b : UInt8} {rest more : Bytes}
    (hb : firstNumberChars.contains b = false) (heq : b :: rest = l.text ++ more) :
    ¬((∃ x, l = .integer x) ∨ ∃ x, l = .real x) := by
  intro hnumber
  obtain ⟨c, tail, htext, hc⟩ := valid_number_head hl hnumber
  rw [htext] at heq
  obtain ⟨rfl, _⟩ := List.cons.inj heq
  rw [hb] at hc
  cases hc

-- The lexeme that starts with a bracket, and the one that starts with a quote.
theorem Cut.of_bracket {rest : Bytes} {ls : List Lexeme} (h : Cut (91 :: rest) ls) :
    ∃ ls', Cut rest ls' := by
  obtain ⟨l, more, ls', _, hl, _, hmore, heq⟩ := Cut.of_cons h rfl
  have hnumber := not_number_of_head hl rfl heq
  cases l with
  | mark m =>
      obtain ⟨_, rfl⟩ := List.cons.inj heq
      exact ⟨ls', hmore⟩
  | boolean value => cases value <;> cases (List.cons.inj heq).1
  | null | string => cases (List.cons.inj heq).1
  | integer x => exact absurd (.inl ⟨x, rfl⟩) hnumber
  | real x => exact absurd (.inr ⟨x, rfl⟩) hnumber

theorem Cut.of_quotes {rest : Bytes} {ls : List Lexeme} (h : Cut (34 :: 34 :: rest) ls) :
    rest.head? ≠ some 34 := by
  obtain ⟨l, more, ls', _, hl, hnext, hmore, heq⟩ := Cut.of_cons h rfl
  have hnumber := not_number_of_head hl rfl heq
  cases l with
  | mark m => cases m <;> cases (List.cons.inj heq).1
  | boolean value => cases value <;> cases (List.cons.inj heq).1
  | null => cases (List.cons.inj heq).1
  | integer x => exact absurd (.inl ⟨x, rfl⟩) hnumber
  | real x => exact absurd (.inr ⟨x, rfl⟩) hnumber
  | string body =>
      have htail : 34 :: rest = body ++ [34] ++ more := (List.cons.inj heq).2
      cases body with
      | nil =>
          obtain ⟨_, rfl⟩ := List.cons.inj htail
          exact (delimits_head hmore (hnext.resolve_left Bool.false_ne_true)).2
      | cons b body =>
          obtain ⟨rfl, _⟩ := List.cons.inj htail
          exact absurd rfl (isBody_head hl)

-- `["""a"""]` is taken, and is no JSON text.
theorem parse_triple_quoted :
    (∃ v, parse anyDouble .none .JSON [91, 34, 34, 34, 97, 34, 34, 34, 93] = .ok v) ∧
      ¬IsJson [91, 34, 34, 34, 97, 34, 34, 34, 93] := by
  constructor
  · exact exists_of_isOk (by decide +kernel)
  · rintro ⟨tree, htext, _⟩
    obtain ⟨ls, hls⟩ := Cut.of_bracket htext.cut
    exact Cut.of_quotes hls rfl

end AsrServiceProxy.Config

import AsrServiceProxy.Config.DottedKeys.Literals

-- Which documents with one field are read as the object that its path names.
namespace AsrServiceProxy.Config

open CMemory Simulation

theorem chain_append (keys more : List Bytes) (v : Value Unit) :
    chain (keys ++ more) v = chain keys (chain more v) := List.foldr_append ..

theorem chain_injective (keys : List Bytes) {v w : Value Unit} (h : chain keys v = chain keys w) :
    v = w := by
  induction keys with
  | nil => exact h
  | cons key keys ih =>
      apply ih
      obtain ⟨-, hfields, -⟩ := Value.simpleConfigObject.inj h
      exact congrArg Prod.snd (List.cons.inj hfields).1

theorem sizeOf_le_chain (keys : List Bytes) (v : Value Unit) : sizeOf v ≤ sizeOf (chain keys v) := by
  induction keys with
  | nil => exact le_rfl
  | cons key keys ih =>
      refine le_trans ih ?_
      show sizeOf (chain keys v) ≤
        sizeOf (Value.simpleConfigObject () [(key, chain keys v)] false)
      simp only [Value.simpleConfigObject.sizeOf_spec, List.cons.sizeOf_spec, Prod.mk.sizeOf_spec]
      omega

-- A value does not stand inside itself.
theorem chain_ne_self (key : Bytes) (keys : List Bytes) (v : Value Unit) :
    chain (key :: keys) v ≠ v := by
  intro h
  have hle := sizeOf_le_chain keys v
  have hsize : sizeOf (Value.simpleConfigObject () [(key, chain keys v)] false) = sizeOf v :=
    congrArg sizeOf h
  simp only [Value.simpleConfigObject.sizeOf_spec, List.cons.sizeOf_spec, Prod.mk.sizeOf_spec]
    at hsize
  omega

-- The value stands at all keys of the path only when none after the first is empty.
theorem chain_storedKeys_iff (path : Path) (v : Value Unit) :
    chain (storedKeys path) v = chain path.keys v ↔ path.fullyNamed := by
  constructor
  · intro h
    by_contra hnot
    have hlt := length_storedKeys_lt hnot
    have hsplit : path.keys = storedKeys path ++ path.keys.tail.dropWhile (· ≠ []) := by
      rw [storedKeys, List.cons_append, List.takeWhile_append_dropWhile]
      exact path.keys_eq_first_tail
    cases hmore : path.keys.tail.dropWhile (· ≠ []) with
    | nil =>
        rw [hmore, List.append_nil] at hsplit
        rw [← hsplit] at hlt
        exact absurd hlt (lt_irrefl _)
    | cons key more =>
        rw [hsplit, hmore, chain_append] at h
        exact chain_ne_self key more v (chain_injective _ h).symm
  · intro h
    rw [storedKeys_of_fullyNamed h]

section

variable (doubles : Doubles) (includer : Includer) {key : SpelledPath} {literal : Literal}
  {layout : Layout} {text : Bytes}
  (h : significant (tokenize doubles text .CONF) = fieldDocument key literal layout)

include h

theorem stands_field :
    Regular (fieldDocument key literal layout) ∧
      Stands { tokens := tokenize doubles text .CONF, buffer := [], pathStack := [] }
        (fieldDocument key literal layout, []) := by
  obtain ⟨hdocument, -⟩ := tokenize_document doubles text .CONF
  refine ⟨?_, h, rfl⟩
  rw [← h]
  exact hdocument.regular

-- The value is stored under the keys up to the first empty one.
theorem parse_field (hgood : key.startsInclude = false ∧ key.path.isStorable) :
    parse doubles includer .CONF text = .ok (chain (storedKeys key.path) literal.value) := by
  obtain ⟨hregular, hstands⟩ := stands_field doubles h
  have hparse := parseDocument_field includer key literal [] layout hregular
  obtain ⟨v, s, _, hrun, _, rfl⟩ := hparse.1 hgood _ hstands
  unfold parse
  rw [hrun]

end

theorem parse_field_iff (doubles : Doubles) (includer : Includer) (key : SpelledPath)
    (literal : Literal) (layout : Layout) (text : Bytes)
    (h : significant (tokenize doubles text .CONF) = fieldDocument key literal layout) :
    parse doubles includer .CONF text = .ok (chain key.path.keys literal.value) ↔
      key.startsInclude = false ∧ key.path.fullyNamed := by
  by_cases hgood : key.startsInclude = false ∧ key.path.isStorable
  · rw [parse_field doubles includer h hgood, Except.ok.injEq, chain_storedKeys_iff]
    exact (and_iff_right hgood.1).symm
  · obtain ⟨hregular, hstands⟩ := stands_field doubles h
    have hfails := ((parseDocument_field includer key literal [] layout hregular).2 hgood).not_ok hstands
    apply iff_of_false
    · unfold parse
      intro hok
      cases hrun : parseDocument .CONF includer
          { tokens := tokenize doubles text .CONF, buffer := [], pathStack := [] } with
      | error e s =>
          rw [hrun] at hok
          cases hok
      | ok root s => exact hfails root s hrun
    · intro ⟨hinclude, hnamed⟩
      exact hgood ⟨hinclude, Path.isStorable_of_fullyNamed hnamed⟩

-- A test for equality that tells the tokens of numbers, strings and separators.
def Token.matches : Token → Token → Bool
  | .start, .start | .end_, .end_ | .newline, .newline | .equals, .equals => true
  | .unquotedText text, .unquotedText text' => text = text'
  | .value (.configInt _ n text), .value (.configInt _ n' text') => n = n' && text = text'
  | .value (.configString _ text), .value (.configString _ text') => text = text'
  | _, _ => false

theorem Token.eq_of_matches {t t' : Token} (h : t.matches t' = true) : t = t' := by
  unfold Token.matches at h
  split at h
  · rfl
  · rfl
  · rfl
  · rfl
  · rw [of_decide_eq_true h]
  · obtain ⟨hn, htext⟩ := Bool.and_eq_true_iff.mp h
    rw [of_decide_eq_true hn, of_decide_eq_true htext]
  · rw [of_decide_eq_true h]
  · cases h

def matchTokens : List Token → List Token → Bool
  | [], [] => true
  | t :: ts, t' :: ts' => t.matches t' && matchTokens ts ts'
  | _, _ => false

theorem eq_of_matchTokens : ∀ {ts ts' : List Token}, matchTokens ts ts' = true → ts = ts'
  | [], [], _ => rfl
  | t :: ts, t' :: ts', h => by
      obtain ⟨hhead, htail⟩ := Bool.and_eq_true_iff.mp h
      rw [Token.eq_of_matches hhead, eq_of_matchTokens htail]

-- `a.b`
def SpelledPath.dotted : SpelledPath where
  tokens := [.unquotedText (ascii "a.b")]
  path := .cons (ascii "a") (.newKey (ascii "b"))
  spells := by decide +kernel
  isKey := by simp [Token.isKey]

-- `one two`
def Literal.words : Literal :=
  .ofPieces [.unquotedText (ascii "one"), .unquotedText (ascii " "), .unquotedText (ascii "two")]
    (.configString () (ascii "one two")) (List.cons_ne_nil _ _) (by simp [Token.isKey]) rfl rfl

theorem parse_field_dotted :
    parse noDoubles .none .CONF (ascii "a.b = one two\n") =
        .ok (chain SpelledPath.dotted.path.keys Literal.words.value) ↔
      SpelledPath.dotted.startsInclude = false ∧ SpelledPath.dotted.path.fullyNamed :=
  parse_field_iff noDoubles .none .dotted .words (.bare 0 (.lines 1)) (ascii "a.b = one two\n")
    (eq_of_matchTokens (by decide +kernel))

-- `a.b.""`
def SpelledPath.emptyEnd : SpelledPath where
  tokens := [.unquotedText (ascii "a.b."), .value (.configString () [])]
  path := .cons (ascii "a") (.cons (ascii "b") (.newKey []))
  spells := by decide +kernel
  isKey := by simp [Token.isKey]

def Literal.one : Literal := .ofTokens (.scalar (.configInt () 1 (ascii "1"))) rfl

-- The last key is lost, and the value stands at `a.b`.
theorem not_parse_field :
    significant (tokenize noDoubles (ascii "a.b.\"\" = 1") .CONF) =
        fieldDocument .emptyEnd .one (.bare 0 (.lines 0)) ∧
      parse noDoubles .none .CONF (ascii "a.b.\"\" = 1") ≠
        .ok (chain SpelledPath.emptyEnd.path.keys Literal.one.value) := by
  refine ⟨eq_of_matchTokens (by decide +kernel), fun hparse => ?_⟩
  have hlost : ((parse noDoubles .none .CONF (ascii "a.b.\"\" = 1")).toOption.bind fun root =>
      root.descend SpelledPath.emptyEnd.path.keys).isSome = false := by
    decide +kernel
  rw [hparse] at hlost
  have hstands := descend_chain SpelledPath.emptyEnd.path.keys [] Literal.one.value
  rw [List.append_nil] at hstands
  change (Value.descend _ (chain _ _)).isSome = false at hlost
  rw [hstands] at hlost
  cases hlost

end AsrServiceProxy.Config

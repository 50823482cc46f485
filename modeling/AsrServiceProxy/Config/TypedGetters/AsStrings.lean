import AsrServiceProxy.Config.RoundTrip.Numbers
import AsrServiceProxy.Config.Tokenizer.Scanning
import AsrServiceProxy.Config.TypedGetters
import AsrServiceProxy.Lib.Entries.Matching
import AsrServiceProxy.Lib.Outcome

-- A config whose scalars are written as strings reads the same: the getters convert a
-- string to what they are asked for.
namespace AsrServiceProxy.Config

open CMemory Entries Simulation

-- The strings that stand for a boolean.
def booleanWords : List Bytes :=
  [ascii "true", ascii "yes", ascii "on", ascii "false", ascii "no", ascii "off"]

-- What the getters rely on of floating point: a double that equals an integer is cast to
-- it, and no word for a boolean is a number.
structure CastsDoubles (doubles : Doubles) (products : DoubleProduct) : Prop where
  whole : ∀ text n, doubles.cast text = some (some n) → products text 1 = some n
  words : ∀ word ∈ booleanWords, doubles.cast word = none

section

variable (doubles : Doubles)

-- The number is the one that its text names; without a text it is printed.
def SpelledAs (text : Bytes) (n : Int64) : Prop :=
  text = [] ∨ lexicalInt64 text = some n ∨
    lexicalInt64 text = none ∧ doubles.cast text = some (some n)

-- A scalar that may be written as a string, which a null may not.
def Value.Spelled {ι : Type} : Value ι → Prop
  | .configBoolean _ _ | .configString _ _ => True
  | .configInt _ value text => SpelledAs doubles text value.toInt64
  | .configInt64 _ value text => SpelledAs doubles text value
  | .configDouble _ text => lexicalInt64 text = none ∧ (doubles.cast text).isSome
  | _ => False

-- `w` is the resolved value `v` with some of its scalars written as strings, at any depth.
mutual

def AsStrings : Value ℕ → Value ℕ → Prop
  | .simpleConfigList _ vs, w => ∃ id ws, w = .simpleConfigList id ws ∧ AsStringsAll vs ws
  | .simpleConfigObject _ fields _, w =>
      ∃ id others ignores, w = .simpleConfigObject id others ignores ∧
        AsStringsFields fields others
  | v, w => v.resolved ∧ w = v ∨ v.Spelled doubles ∧ ∃ id, w = .configString id v.transformToString

def AsStringsAll : List (Value ℕ) → List (Value ℕ) → Prop
  | [], ws => ws = []
  | v :: rest, ws => ∃ w others, ws = w :: others ∧ AsStrings v w ∧ AsStringsAll rest others

def AsStringsFields : List (Bytes × Value ℕ) → List (Bytes × Value ℕ) → Prop
  | [], others => others = []
  | (key, v) :: rest, fields =>
      ∃ w others, fields = (key, w) :: others ∧ AsStrings v w ∧ AsStringsFields rest others

end

variable {doubles}

theorem digitsValue_of_mem {digits : Bytes} {c : UInt8} (h : c ∈ digits)
    (hc : ¬(48 ≤ c ∧ c ≤ 57)) : digitsValue digits = none := by
  cases digits with
  | nil => rfl
  | cons b rest =>
      have hall : ¬((b :: rest).all fun b => 48 ≤ b && b ≤ 57) := by
        intro hall
        have hdigit := List.all_eq_true.mp hall c h
        simp only [Bool.and_eq_true, decide_eq_true_eq] at hdigit
        exact hc hdigit
      simp only [digitsValue, if_neg hall]

theorem lexicalInt64_of_point {s : Bytes} {c : UInt8} (h : c ∈ s) (hc : c = 46 ∨ c = 101) :
    lexicalInt64 s = none := by
  have hdigit : ¬(48 ≤ c ∧ c ≤ 57) := by
    rcases hc with rfl | rfl <;> decide
  have hsign : c ≠ 45 ∧ c ≠ 43 := by
    rcases hc with rfl | rfl <;> decide
  have hsigned : signedValue s = none := by
    unfold signedValue
    split
    next digits =>
      have hmem := (List.mem_cons.mp h).resolve_left hsign.1
      rw [digitsValue_of_mem hmem hdigit]
      rfl
    next digits =>
      have hmem := (List.mem_cons.mp h).resolve_left hsign.2
      rw [digitsValue_of_mem hmem hdigit]
      rfl
    next =>
      rw [digitsValue_of_mem h hdigit]
      rfl
  rw [lexicalInt64, hsigned]

theorem spelled_newNumber {ι : Type} (id : ι) {n : Int64} {s : Bytes}
    (h : SpelledAs doubles s n) : (newNumber id n s).Spelled doubles := by
  have hdata := newNumber_data id n s
  by_cases hn : n ≤ Int32.maxValue.toInt64 ∧ Int32.minValue.toInt64 ≤ n
  · rw [newNumber, if_pos hn, Value.data, Option.some.injEq, Data.number.injEq] at hdata
    rw [newNumber, if_pos hn, Value.Spelled, hdata]
    exact h
  · rw [newNumber, if_neg hn]
    exact h

-- The numbers of the tokenizer are spelled.
theorem spelled_scanNumber {b : UInt8} {more : Bytes} {v : Value Unit}
    (h : (scanNumber doubles b more).1 = .ok (.value v)) : v.Spelled doubles := by
  simp only [scanNumber, numberResult] at h
  generalize hs : b :: more.takeWhile isNumberByte = s at h
  split_ifs at h with hpoint
  · obtain ⟨c, hc, hpoint⟩ := List.any_eq_true.mp hpoint
    rw [Bool.or_eq_true, decide_eq_true_eq, decide_eq_true_eq] at hpoint
    have hnone : lexicalInt64 s = none := by
      rw [← hs]
      exact lexicalInt64_of_point (List.mem_cons_of_mem b hc) hpoint
    rcases hcast : doubles.cast s with _ | _ | n
    · rw [hcast] at h
      cases h
    · rw [hcast] at h
      cases h
      exact ⟨hnone, by simp [hcast]⟩
    · rw [hcast] at h
      cases h
      exact spelled_newNumber () (.inr (.inr ⟨hnone, hcast⟩))
  · cases hint : lexicalInt64 s with
    | none =>
        rw [hint] at h
        cases h
    | some n =>
        rw [hint] at h
        cases h
        exact spelled_newNumber () (.inr (.inl hint))

theorem asStringsAll_iff {vs ws : List (Value ℕ)} :
    AsStringsAll doubles vs ws ↔ List.Forall₂ (AsStrings doubles) vs ws := by
  induction vs generalizing ws with
  | nil => rw [AsStringsAll, List.forall₂_nil_left_iff]
  | cons v rest ih =>
      rw [AsStringsAll, List.forall₂_cons_left_iff]
      constructor
      · rintro ⟨w, others, rfl, hv, hrest⟩
        exact ⟨w, others, hv, ih.mp hrest, rfl⟩
      · rintro ⟨w, others, hv, hrest, rfl⟩
        exact ⟨w, others, rfl, hv, ih.mpr hrest⟩

theorem asStringsFields_iff {fields others : Fields ℕ} :
    AsStringsFields doubles fields others ↔ Matching (AsStrings doubles) fields others := by
  induction fields generalizing others with
  | nil => rw [AsStringsFields, Matching, List.forall₂_nil_left_iff]
  | cons field rest ih =>
      obtain ⟨key, v⟩ := field
      rw [AsStringsFields, Matching, List.forall₂_cons_left_iff]
      constructor
      · rintro ⟨w, more, rfl, hv, hrest⟩
        exact ⟨(key, w), more, ⟨rfl, hv⟩, ih.mp hrest, rfl⟩
      · rintro ⟨⟨key', w⟩, more, ⟨hkey, hv⟩, hrest, rfl⟩
        cases hkey
        exact ⟨w, more, rfl, hv, ih.mpr hrest⟩

mutual

theorem AsStrings.refl : ∀ v : Value ℕ, v.resolved → AsStrings doubles v v
  | .simpleConfigList id vs, h => ⟨id, vs, rfl, AsStringsAll.refl vs h⟩
  | .simpleConfigObject id fields ignores, h =>
      ⟨id, fields, ignores, rfl, AsStringsFields.refl fields h⟩
  | .configNull _, _ | .configBoolean _ _, _ | .configInt _ _ _, _ | .configInt64 _ _ _, _
  | .configDouble _ _, _ | .configString _ _, _ => .inl ⟨rfl, rfl⟩
  | .configReference _ _ _, h | .configConcatenation _ _, h | .configDelayedMerge _ _, h
  | .configDelayedMergeObject _ _, h => by cases h

theorem AsStringsAll.refl : ∀ vs : List (Value ℕ), Value.resolvedAll vs →
    AsStringsAll doubles vs vs
  | [], _ => rfl
  | v :: rest, h => by
      rw [Value.resolvedAll, Bool.and_eq_true] at h
      exact ⟨v, rest, rfl, AsStrings.refl v h.1, AsStringsAll.refl rest h.2⟩

theorem AsStringsFields.refl : ∀ fields : Fields ℕ, Value.resolvedFields fields →
    AsStringsFields doubles fields fields
  | [], _ => rfl
  | (key, v) :: rest, h => by
      rw [Value.resolvedFields, Bool.and_eq_true] at h
      exact ⟨v, rest, rfl, AsStrings.refl v h.1, AsStringsFields.refl rest h.2⟩

end

-- Both values are resolved.
mutual

theorem AsStrings.resolved : ∀ v w : Value ℕ, AsStrings doubles v w → v.resolved ∧ w.resolved
  | .simpleConfigList id vs, w, h => by
      obtain ⟨id', ws, rfl, hall⟩ := h
      exact AsStringsAll.resolved vs ws hall
  | .simpleConfigObject id fields ignores, w, h => by
      obtain ⟨id', others, ignores', rfl, hall⟩ := h
      exact AsStringsFields.resolved fields others hall
  | .configNull _, w, h | .configBoolean _ _, w, h | .configInt _ _ _, w, h
  | .configInt64 _ _ _, w, h | .configDouble _ _, w, h | .configString _ _, w, h => by
      rcases h with ⟨hv, rfl⟩ | ⟨-, id, rfl⟩
      · exact ⟨hv, hv⟩
      · exact ⟨rfl, rfl⟩
  | .configReference _ _ _, w, h | .configConcatenation _ _, w, h | .configDelayedMerge _ _, w, h
  | .configDelayedMergeObject _ _, w, h => by
      rcases h with ⟨hv, -⟩ | ⟨hv, -⟩
      · cases hv
      · exact hv.elim

theorem AsStringsAll.resolved : ∀ vs ws : List (Value ℕ), AsStringsAll doubles vs ws →
    Value.resolvedAll vs ∧ Value.resolvedAll ws
  | [], ws, h => by
      cases h
      exact ⟨rfl, rfl⟩
  | v :: rest, ws, h => by
      obtain ⟨w, others, rfl, hv, hrest⟩ := h
      have hhead := AsStrings.resolved v w hv
      have htail := AsStringsAll.resolved rest others hrest
      rw [Value.resolvedAll, Value.resolvedAll, Bool.and_eq_true, Bool.and_eq_true]
      exact ⟨⟨hhead.1, htail.1⟩, hhead.2, htail.2⟩

theorem AsStringsFields.resolved : ∀ fields others : Fields ℕ,
    AsStringsFields doubles fields others →
      Value.resolvedFields fields ∧ Value.resolvedFields others
  | [], others, h => by
      cases h
      exact ⟨rfl, rfl⟩
  | (key, v) :: rest, fields, h => by
      obtain ⟨w, others, rfl, hv, hrest⟩ := h
      have hhead := AsStrings.resolved v w hv
      have htail := AsStringsFields.resolved rest others hrest
      rw [Value.resolvedFields, Value.resolvedFields, Bool.and_eq_true, Bool.and_eq_true]
      exact ⟨⟨hhead.1, htail.1⟩, hhead.2, htail.2⟩

end

end

-- What a getter that asks for `expected` takes from the two values is the same.
structure TakenAlike (doubles : Doubles) (products : DoubleProduct)
    (expected : ConfigValueType) (v w : Value ℕ) : Prop where
  resolved : v.resolved ∧ w.resolved
  types : v.valueType = .ok expected ∧ w.valueType = .ok expected
  number : expected = .NUMBER → v.int64 products = w.int64 products
  scalar : expected = .BOOLEAN ∨ expected = .STRING →
    ∀ walk, v.plain walk = w.plain walk
  nested : expected = .LIST ∨ expected = .OBJECT → AsStrings doubles v w

-- Neither value has the type that is asked for; both are null or neither is.
structure RefusedAlike (expected : ConfigValueType) (v w : Value ℕ) : Prop where
  types : ∃ t t', v.valueType = .ok t ∧ w.valueType = .ok t' ∧ t ≠ expected ∧ t' ≠ expected ∧
    (t = .NONE ↔ t' = .NONE)

def Converts (doubles : Doubles) (products : DoubleProduct) (expected : ConfigValueType)
    (v w : Value ℕ) : Prop :=
  TakenAlike doubles products expected v w ∨ RefusedAlike expected v w

section

variable {doubles : Doubles} {products : DoubleProduct} {walk : EntryWalk} {newId : ℕ}
  {expected : ConfigValueType} {v w : Value ℕ}

theorem RefusedAlike.of_string {t : ConfigValueType} {id : ℕ} {s : Bytes}
    (ht : v.valueType = .ok t) (hne : t ≠ expected) (hnull : t ≠ .NONE)
    (hstring : expected ≠ .STRING) : RefusedAlike expected v (.configString id s) :=
  ⟨t, .STRING, ht, rfl, hne, hstring.symm, by simp [hnull]⟩

theorem transform_of_ne {t : ConfigValueType} (ht : v.valueType = .ok t) (hstring : t ≠ .STRING)
    (h : expected ≠ .STRING ∨ t ≠ .NUMBER ∧ t ≠ .BOOLEAN) :
    DefaultTransformer.transform doubles newId v expected = .ok v := by
  simp only [DefaultTransformer.transform, ht, bind, Except.bind, pure, Except.pure]
  rw [if_neg hstring, if_neg]
  rintro hboth
  simp only [Bool.and_eq_true, Bool.or_eq_true, decide_eq_true_eq] at hboth
  tauto

theorem exists_transform (newId : ℕ) (h : v.resolved) (expected : ConfigValueType) :
    ∃ v', DefaultTransformer.transform doubles newId v expected = .ok v' ∧ v'.resolved := by
  obtain ⟨t, ht, -⟩ := Value.valueType_of_resolved h
  cases hv : DefaultTransformer.transform doubles newId v expected with
  | ok v' => exact ⟨v', rfl, DefaultTransformer.resolved_transform doubles newId h hv⟩
  | error e =>
      simp only [DefaultTransformer.transform, ht, bind, Except.bind, pure, Except.pure] at hv
      split_ifs at hv

theorem Converts.refl (h : v.resolved) : Converts doubles products expected v v := by
  obtain ⟨t, ht, -⟩ := Value.valueType_of_resolved h
  by_cases he : t = expected
  · rw [he] at ht
    exact .inl ⟨⟨h, h⟩, ⟨ht, ht⟩, fun _ => rfl, fun _ _ => rfl, fun _ => AsStrings.refl v h⟩
  · exact .inr ⟨t, t, ht, ht, he, he, Iff.rfl⟩

-- Lists and objects are never converted.
theorem AsStrings.converts_nested {t : ConfigValueType} (h : AsStrings doubles v w)
    (ht : v.valueType = .ok t ∧ w.valueType = .ok t) (hnested : t = .LIST ∨ t = .OBJECT) :
    DefaultTransformer.transform doubles newId v expected = .ok v ∧
      DefaultTransformer.transform doubles newId w expected = .ok w ∧
      Converts doubles products expected v w := by
  have hstring : t ≠ .STRING := by rintro rfl; simp at hnested
  have hnumber : t ≠ .NUMBER := by rintro rfl; simp at hnested
  have hboolean : t ≠ .BOOLEAN := by rintro rfl; simp at hnested
  refine ⟨transform_of_ne ht.1 hstring (.inr ⟨hnumber, hboolean⟩),
    transform_of_ne ht.2 hstring (.inr ⟨hnumber, hboolean⟩), ?_⟩
  by_cases he : t = expected
  · subst he
    refine .inl ⟨AsStrings.resolved v w h, ht, fun hn => absurd hn hnumber, fun hs => ?_,
      fun _ => h⟩
    exact (hs.elim hboolean hstring).elim
  · exact .inr ⟨t, t, ht.1, ht.2, he, he, Iff.rfl⟩

theorem lexicalInt64_words : ∀ word ∈ booleanWords, lexicalInt64 word = none := by decide

theorem transform_boolean_of_not_mem {s : Bytes} (h : s ∉ booleanWords) :
    DefaultTransformer.transformString doubles newId v s .BOOLEAN = v := by
  simp only [booleanWords, List.mem_cons, List.not_mem_nil, or_false, not_or] at h
  simp [DefaultTransformer.transformString, h]

-- The text is read as the number when it is cast.
def NamesNumber (doubles : Doubles) (products : DoubleProduct) (s : Bytes) (n : ℤ) : Prop :=
  (∃ m, lexicalInt64 s = some m ∧ m.toInt = n) ∨
    lexicalInt64 s = none ∧ (doubles.cast s).isSome ∧
      ((products s 1).map Int64.toInt).getD 0 = n

theorem SpelledAs.names {text : Bytes} {n : Int64} (hcasts : CastsDoubles doubles products)
    (h : SpelledAs doubles text n) :
    NamesNumber doubles products (if text.isEmpty then lexicalString n.toInt else text)
      n.toInt := by
  cases text with
  | nil => exact .inl ⟨n, lexicalInt64_lexicalString n, rfl⟩
  | cons b rest =>
      rw [List.isEmpty_cons, if_neg Bool.false_ne_true]
      rcases h with hnil | htext | ⟨hnone, hcast⟩
      · cases hnil
      · exact .inl ⟨n, htext, rfl⟩
      · refine .inr ⟨hnone, by simp [hcast], ?_⟩
        rw [hcasts.whole _ _ hcast]
        rfl

theorem Value.Spelled.names (hcasts : CastsDoubles doubles products) (h : v.Spelled doubles)
    (ht : v.valueType = .ok .NUMBER) :
    NamesNumber doubles products v.transformToString (v.int64 products) := by
  cases v with
  | configInt id value text =>
      have hnames := SpelledAs.names hcasts h
      rw [Int32.toInt_toInt64] at hnames
      exact hnames
  | configInt64 id value text => exact SpelledAs.names hcasts h
  | configDouble id text => exact .inr ⟨h.1, h.2, rfl⟩
  | _ => cases ht

theorem NamesNumber.not_word {s : Bytes} {n : ℤ} (hcasts : CastsDoubles doubles products)
    (h : NamesNumber doubles products s n) : s ∉ booleanWords := by
  intro hword
  rcases h with ⟨m, hm, -⟩ | ⟨-, hcast, -⟩
  · rw [lexicalInt64_words s hword] at hm
    cases hm
  · rw [hcasts.words s hword] at hcast
    cases hcast

theorem NamesNumber.transform {s : Bytes} {n : ℤ} (h : NamesNumber doubles products s n)
    (newId : ℕ) (w : Value ℕ) :
    ∃ u, DefaultTransformer.transformString doubles newId w s .NUMBER = u ∧
      u.valueType = .ok .NUMBER ∧ u.resolved ∧ u.int64 products = n := by
  rcases h with ⟨m, hm, hn⟩ | ⟨hnone, hcast, hn⟩
  · exact ⟨.configInt64 newId m s, by simp only [DefaultTransformer.transformString, hm], rfl, rfl,
      hn⟩
  · exact ⟨.configDouble newId s,
      by simp only [DefaultTransformer.transformString, hnone, hcast, if_true], rfl, rfl, hn⟩

theorem transform_configString (id : ℕ) (s : Bytes) (expected : ConfigValueType) :
    DefaultTransformer.transform doubles newId (.configString id s) expected =
      .ok (DefaultTransformer.transformString doubles newId (.configString id s) s expected) := rfl

-- A number and its text.
theorem Value.Spelled.converts_number (hcasts : CastsDoubles doubles products)
    (h : v.Spelled doubles) (ht : v.valueType = .ok .NUMBER) (hv : v.resolved) (id : ℕ)
    (he : expected ≠ .NONE) :
    ∃ v' w', DefaultTransformer.transform doubles newId v expected = .ok v' ∧
      DefaultTransformer.transform doubles newId (.configString id v.transformToString) expected =
        .ok w' ∧ Converts doubles products expected v' w' := by
  have hnames := h.names hcasts ht
  have hkept : expected ≠ .STRING →
      DefaultTransformer.transform doubles newId v expected = .ok v := fun hne =>
    transform_of_ne ht (by decide) (.inl hne)
  rw [transform_configString]
  cases expected with
  | NONE => exact absurd rfl he
  | NUMBER =>
      obtain ⟨u, hu, htype, hresolved, hint⟩ :=
        hnames.transform newId (.configString id v.transformToString)
      refine ⟨v, u, hkept (by decide), by rw [hu], .inl ⟨⟨hv, hresolved⟩, ⟨ht, htype⟩, ?_, ?_, ?_⟩⟩
      · exact fun _ => hint.symm
      · simp
      · simp
  | BOOLEAN =>
      rw [transform_boolean_of_not_mem (hnames.not_word hcasts)]
      exact ⟨v, _, hkept (by decide), rfl, .inr (.of_string ht (by decide) (by decide) (by decide))⟩
  | STRING =>
      have hstring : DefaultTransformer.transform doubles newId v .STRING =
          .ok (.configString newId v.transformToString) := by
        simp [DefaultTransformer.transform, ht, bind, Except.bind, pure, Except.pure]
      exact ⟨_, _, hstring, rfl, .inl ⟨⟨rfl, rfl⟩, ⟨rfl, rfl⟩, by simp, fun _ _ => rfl, by simp⟩⟩
  | LIST =>
      exact ⟨v, _, hkept (by decide), rfl, .inr (.of_string ht (by decide) (by decide) (by decide))⟩
  | OBJECT =>
      exact ⟨v, _, hkept (by decide), rfl, .inr (.of_string ht (by decide) (by decide) (by decide))⟩

-- A boolean and its word.
theorem converts_boolean (hcasts : CastsDoubles doubles products) (id id' : ℕ) (b : Bool)
    (he : expected ≠ .NONE) :
    ∃ v' w', DefaultTransformer.transform doubles newId (.configBoolean id b) expected = .ok v' ∧
      DefaultTransformer.transform doubles newId
        (.configString id' (Value.configBoolean id b).transformToString) expected = .ok w' ∧
      Converts doubles products expected v' w' := by
  have hkept : expected ≠ .STRING →
      DefaultTransformer.transform doubles newId (.configBoolean id b) expected =
        .ok (.configBoolean id b) := fun hne => transform_of_ne rfl (by decide) (.inl hne)
  have hword : (Value.configBoolean id b).transformToString ∈ booleanWords := by
    cases b <;> simp [Value.transformToString, booleanWords]
  rw [transform_configString]
  cases expected with
  | NONE => exact absurd rfl he
  | NUMBER =>
      have hstays : DefaultTransformer.transformString doubles newId
          (.configString id' (Value.configBoolean id b).transformToString)
          (Value.configBoolean id b).transformToString .NUMBER =
          .configString id' (Value.configBoolean id b).transformToString := by
        simp [DefaultTransformer.transformString, lexicalInt64_words _ hword, hcasts.words _ hword]
      rw [hstays]
      exact ⟨_, _, hkept (by decide), rfl,
        .inr (.of_string rfl (by decide) (by decide) (by decide))⟩
  | BOOLEAN =>
      refine ⟨_, .configBoolean newId b, hkept (by decide), ?_,
        .inl ⟨⟨rfl, rfl⟩, ⟨rfl, rfl⟩, by simp, fun _ _ => rfl, by simp⟩⟩
      cases b <;> rfl
  | STRING =>
      have hstring : DefaultTransformer.transform doubles newId (.configBoolean id b) .STRING =
          .ok (.configString newId (Value.configBoolean id b).transformToString) := rfl
      exact ⟨_, _, hstring, rfl, .inl ⟨⟨rfl, rfl⟩, ⟨rfl, rfl⟩, by simp, fun _ _ => rfl, by simp⟩⟩
  | LIST =>
      exact ⟨_, _, hkept (by decide), rfl,
        .inr (.of_string rfl (by decide) (by decide) (by decide))⟩
  | OBJECT =>
      exact ⟨_, _, hkept (by decide), rfl,
        .inr (.of_string rfl (by decide) (by decide) (by decide))⟩

-- Two strings of the same text.
theorem converts_string (id id' : ℕ) (s : Bytes) :
    ∃ v' w', DefaultTransformer.transform doubles newId (.configString id s) expected = .ok v' ∧
      DefaultTransformer.transform doubles newId (.configString id' s) expected = .ok w' ∧
      Converts doubles products expected v' w' := by
  have hsame : AsStrings doubles (.configString id s) (.configString id' s) :=
    .inr ⟨trivial, id', rfl⟩
  have hstay : Converts doubles products expected (.configString id s)
      (.configString id' s) := by
    by_cases he : expected = .STRING
    · rw [he]
      exact .inl ⟨⟨rfl, rfl⟩, ⟨rfl, rfl⟩, by simp, fun _ _ => rfl, by simp⟩
    · exact .inr ⟨.STRING, .STRING, rfl, rfl, fun h => he h.symm, fun h => he h.symm, Iff.rfl⟩
  have hnew : ∀ u : Value ℕ, u.resolved → Converts doubles products expected u u :=
    fun u hu => Converts.refl hu
  refine ⟨_, _, transform_configString id s expected, transform_configString id' s expected, ?_⟩
  unfold DefaultTransformer.transformString
  cases expected with
  | NUMBER =>
      dsimp only
      cases lexicalInt64 s with
      | some n => exact hnew _ rfl
      | none =>
          by_cases hcast : (doubles.cast s).isSome
          · rw [if_pos hcast, if_pos hcast]
            exact hnew _ rfl
          · rw [if_neg hcast, if_neg hcast]
            exact hstay
  | NONE =>
      by_cases hnull : s = ascii "null"
      · simp only [hnull, if_true]
        exact hnew _ rfl
      · simp only [hnull, if_false]
        exact hstay
  | BOOLEAN =>
      dsimp only
      split_ifs
      · exact hnew _ rfl
      · exact hnew _ rfl
      · exact hstay
  | LIST | OBJECT | STRING => exact hstay

-- One conversion, of a value and of the value that is written with strings.
theorem AsStrings.converts (newId : ℕ) (hcasts : CastsDoubles doubles products)
    (h : AsStrings doubles v w) (he : expected ≠ .NONE) :
    ∃ v' w', DefaultTransformer.transform doubles newId v expected = .ok v' ∧
      DefaultTransformer.transform doubles newId w expected = .ok w' ∧
      Converts doubles products expected v' w' := by
  have hboth := AsStrings.resolved v w h
  have hscalar : v.resolved ∧ w = v ∨
      v.Spelled doubles ∧ (∃ id, w = .configString id v.transformToString) →
      ∃ v' w', DefaultTransformer.transform doubles newId v expected = .ok v' ∧
        DefaultTransformer.transform doubles newId w expected = .ok w' ∧
        Converts doubles products expected v' w' := by
    rintro (⟨hv, rfl⟩ | ⟨hspelled, id, rfl⟩)
    · obtain ⟨v', hv', hresolved⟩ := exists_transform newId hv expected
      exact ⟨v', v', hv', hv', .refl hresolved⟩
    · cases v with
      | configBoolean id' b => exact converts_boolean hcasts id' id b he
      | configString id' s => exact converts_string id' id s
      | configInt | configInt64 | configDouble =>
          exact hspelled.converts_number hcasts rfl rfl id he
      | _ => exact hspelled.elim
  cases v with
  | simpleConfigList id vs =>
      obtain ⟨id', ws, rfl, hall⟩ := h
      exact ⟨_, _, AsStrings.converts_nested ⟨id', ws, rfl, hall⟩ ⟨rfl, rfl⟩ (.inl rfl)⟩
  | simpleConfigObject id fields ignores =>
      obtain ⟨id', others, ignores', rfl, hall⟩ := h
      exact ⟨_, _, AsStrings.converts_nested ⟨id', others, ignores', rfl, hall⟩ ⟨rfl, rfl⟩
        (.inr rfl)⟩
  | _ => exact hscalar h

end

-- The same exception, but for the type that the message of a wrong type says the value has:
-- the path that it names and the type that was asked for are the same.
def LookupException.Alike (e e' : LookupException) : Prop :=
  e = e' ∨ ∃ path expected actual actual', e = .ofWrongType path expected actual ∧
    e' = .ofWrongType path expected actual'

def ListException.Alike : ListException → ListException → Prop
  | .lookup e, .lookup e' => e.Alike e'
  | e, e' => e = e'

def GetterException.Alike : GetterException → GetterException → Prop
  | .lookup e, .lookup e' => e.Alike e'
  | e, e' => e = e'

section

variable {doubles : Doubles} {products : DoubleProduct} {walk : EntryWalk} (newId : ℕ)
  {expected : ConfigValueType} {v w object object' : Value ℕ}

theorem LookupException.Alike.improve {e e' : LookupException} (h : e.Alike e') :
    e.improveNotResolved.Alike e'.improveNotResolved := by
  rcases h with rfl | ⟨path, expected, actual, actual', rfl, rfl⟩
  · exact .inl rfl
  · exact .inr ⟨path, expected, actual, actual', rfl, rfl⟩

theorem alike_ofWrongType (path expected actual actual' : Bytes) :
    (LookupException.ofWrongType path expected actual).Alike
      (.ofWrongType path expected actual') :=
  .inr ⟨path, expected, actual, actual', rfl, rfl⟩

theorem AsStrings.isObject (h : AsStrings doubles v w) (hv : v.isObject) : w.isObject := by
  have hresolved := (AsStrings.resolved v w h).1
  obtain ⟨id, fields, ignores, rfl⟩ := Value.eq_simpleConfigObject hv hresolved
  obtain ⟨id', others, ignores', rfl, -⟩ := h
  rfl

theorem AsStrings.child (h : AsStrings doubles v w) (hv : v.isObject) (key : Bytes) :
    Option.Rel (AsStrings doubles) (v.child key) (w.child key) := by
  have hresolved := (AsStrings.resolved v w h).1
  obtain ⟨id, fields, ignores, rfl⟩ := Value.eq_simpleConfigObject hv hresolved
  obtain ⟨id', others, ignores', rfl, hfields⟩ := h
  exact (asStringsFields_iff.mp hfields).lookup key

-- One key of a path.
theorem AsStrings.findKey (hcasts : CastsDoubles doubles products) (h : AsStrings doubles v w)
    (hv : v.isObject) (he : expected ≠ .NONE) (key : Bytes) (path : Path) :
    Corresponds LookupException.Alike (TakenAlike doubles products expected)
      (SimpleConfig.findKey doubles newId v key expected (some path))
      (SimpleConfig.findKey doubles newId w key expected (some path)) := by
  have hboth := AsStrings.resolved v w h
  simp only [SimpleConfig.findKey, attemptPeek_eq_child hv hboth.1,
    attemptPeek_eq_child (h.isObject hv) hboth.2, Except.mapError, bind, Except.bind, ne_eq, he,
    not_false_eq_true, if_true, renderOriginal]
  have hchild := h.child hv key
  generalize v.child key = x at hchild
  generalize w.child key = y at hchild
  cases hchild with
  | none => exact .error (.inl rfl)
  | @some a b hab =>
      obtain ⟨a', b', ha, hb, htaken | hrefused⟩ :=
        hab.converts newId hcasts he
      · simp only [ha, hb, htaken.types.1, htaken.types.2, he, if_false, decide_true, not_true,
          decide_false, Bool.and_false, Bool.false_eq_true]
        exact .ok htaken
      · obtain ⟨t, t', ht, ht', hne, hne', hnull⟩ := hrefused.types
        by_cases hn : t = .NONE
        · simp only [ha, hb, ht, ht', hn, hnull.mp hn, if_true]
          exact .error (.inl rfl)
        · have hn' : t' ≠ .NONE := mt hnull.mpr hn
          simp only [ha, hb, ht, ht', hn, hn', if_false, hne, hne', not_false_eq_true, decide_true,
            Bool.and_self, if_true]
          exact .error (alike_ofWrongType ..)

-- The induction is on what is left of the path; `front` are the keys already taken.
theorem AsStrings.find (hcasts : CastsDoubles doubles products) (he : expected ≠ .NONE)
    (path rest : Path) (front : List Bytes) (hkeys : path.keys = front ++ rest.keys)
    (h : AsStrings doubles v w) (hv : v.isObject) :
    Corresponds LookupException.Alike (TakenAlike doubles products expected)
      (SimpleConfig.find doubles newId expected path rest v)
      (SimpleConfig.find doubles newId expected path rest w) := by
  induction rest generalizing front v w with
  | newKey key =>
      rw [SimpleConfig.find, SimpleConfig.find]
      exact (h.findKey newId hcasts hv he key path).mapError fun _ _ => .improve
  | cons key next ih =>
      have hnext : path.keys = (front ++ [key]) ++ next.keys := by
        rw [hkeys, Path.keys, List.append_assoc, List.singleton_append]
      obtain ⟨parent, hparent⟩ := Path.subPathBetween_front (by simp) hnext
      rw [SimpleConfig.find, SimpleConfig.find, hparent]
      have hobject : Corresponds LookupException.Alike (TakenAlike doubles products .OBJECT)
          (SimpleConfig.findKey doubles newId v key .OBJECT (some parent))
          (SimpleConfig.findKey doubles newId w key .OBJECT (some parent)) :=
        h.findKey newId hcasts hv (by decide) key parent
      refine Corresponds.mapError (hobject.bind fun o o' ho => ?_) fun _ _ => .improve
      exact ih _ hnext (ho.nested (.inr rfl)) (Value.isObject_of_valueType ho.types.1)

theorem AsStrings.findExpression (hcasts : CastsDoubles doubles products) (he : expected ≠ .NONE)
    (h : AsStrings doubles object object') (hobject : object.isObject) (path : Bytes) :
    Corresponds LookupException.Alike (TakenAlike doubles products expected)
      (SimpleConfig.findExpression doubles newId object path expected)
      (SimpleConfig.findExpression doubles newId object' path expected) := by
  have hparse : Corresponds LookupException.Alike Eq
      ((parsePath doubles path).mapError .config) ((parsePath doubles path).mapError .config) :=
    .refl (fun _ => rfl) (fun _ => .inl rfl) _
  refine hparse.bind ?_
  rintro parsed _ rfl
  exact h.find newId hcasts he parsed parsed [] rfl hobject

theorem TakenAlike.unwrapped (h : TakenAlike doubles products expected v w) (walk : EntryWalk) :
    v.unwrapped walk = .ok (v.plain walk) ∧ w.unwrapped walk = .ok (w.plain walk) :=
  ⟨v.unwrapped_of_resolved walk h.resolved.1, w.unwrapped_of_resolved walk h.resolved.2⟩

theorem TakenAlike.intValueRangeChecked (h : TakenAlike doubles products .NUMBER v w)
    (path : Bytes) :
    v.intValueRangeChecked products path = w.intValueRangeChecked products path := by
  rw [Value.intValueRangeChecked, Value.intValueRangeChecked, h.number rfl]

theorem TakenAlike.text (h : TakenAlike doubles products .STRING v w) :
    v.transformToString = w.transformToString := by
  have htypes := h.types
  have hplain := h.scalar (.inr rfl) ⟨id, fun _ => .refl _⟩
  cases v with
  | configString id s =>
      cases w with
      | configString id' s' =>
          rw [Value.plain, Value.plain, ConfigVariant.string.injEq] at hplain
          rw [Value.transformToString, Value.transformToString, hplain]
      | _ => cases htypes.2
  | _ => cases htypes.1

theorem Corresponds.lookup {α β : Type} {post : α → β → Prop} {m : Except LookupException α}
    {m' : Except LookupException β} (h : Corresponds LookupException.Alike post m m') :
    Corresponds ListException.Alike post (m.mapError .lookup) (m'.mapError .lookup) :=
  h.mapError fun _ _ he => he

theorem sameOutcome_self {α : Type} (m : Except ListException α) :
    Corresponds ListException.Alike Eq m m := by
  refine .refl (fun _ => rfl) (fun e => ?_) m
  cases e with
  | lookup e => exact .inl rfl
  | badGet => rfl

theorem AsStrings.getUnwrapped (hcasts : CastsDoubles doubles products)
    (h : AsStrings doubles object object') (hobject : object.isObject) {α : Type}
    (variantGet : ConfigVariant → Except ListException α)
    (he : expected = .BOOLEAN ∨ expected = .STRING) (path : Bytes) :
    Corresponds ListException.Alike Eq
      (SimpleConfig.getUnwrapped doubles newId walk variantGet expected object path)
      (SimpleConfig.getUnwrapped doubles newId walk variantGet expected object' path) := by
  have hne : expected ≠ .NONE := by
    rcases he with rfl | rfl <;> decide
  have hfind : Corresponds LookupException.Alike (TakenAlike doubles products expected)
      (SimpleConfig.findExpression doubles newId object path expected)
      (SimpleConfig.findExpression doubles newId object' path expected) :=
    h.findExpression newId hcasts hne hobject path
  refine (Corresponds.lookup hfind).bind fun v w hvw => ?_
  rw [(hvw.unwrapped walk).1, (hvw.unwrapped walk).2, hvw.scalar he walk]
  exact sameOutcome_self _

theorem AsStrings.getInt (hcasts : CastsDoubles doubles products)
    (h : AsStrings doubles object object') (hobject : object.isObject) (path : Bytes) :
    Corresponds LookupException.Alike Eq
      (SimpleConfig.getInt doubles products newId object path)
      (SimpleConfig.getInt doubles products newId object' path) := by
  refine (h.findExpression newId hcasts (by decide) hobject path).bind
    fun v w hvw => ?_
  rw [hvw.intValueRangeChecked path]
  exact .refl (fun _ => rfl) (fun _ => .inl rfl) _

theorem AsStrings.getInt64 (hcasts : CastsDoubles doubles products)
    (h : AsStrings doubles object object') (hobject : object.isObject) (path : Bytes) :
    Corresponds LookupException.Alike Eq
      (SimpleConfig.getInt64 doubles products newId object path)
      (SimpleConfig.getInt64 doubles products newId object' path) :=
  (h.findExpression newId hcasts (by decide) hobject path).map
    fun _ _ hvw => hvw.number rfl

theorem AsStrings.parseAt (hcasts : CastsDoubles doubles products)
    (h : AsStrings doubles object object') (hobject : object.isObject)
    (parse : Bytes → Bytes → Except GetterException UInt64) (path : Bytes) :
    Corresponds GetterException.Alike Eq (SimpleConfig.parseAt doubles newId parse object path)
      (SimpleConfig.parseAt doubles newId parse object' path) := by
  have hfind : Corresponds LookupException.Alike (TakenAlike doubles products .STRING)
      (SimpleConfig.findExpression doubles newId object path .STRING)
      (SimpleConfig.findExpression doubles newId object' path .STRING) :=
    h.findExpression newId hcasts (by decide) hobject path
  unfold SimpleConfig.parseAt
  generalize SimpleConfig.findExpression doubles newId object path .STRING = m at hfind
  generalize SimpleConfig.findExpression doubles newId object' path .STRING = m' at hfind
  cases hfind with
  | @ok v w hvw =>
      change Corresponds _ _ (parse v.transformToString path) (parse w.transformToString path)
      rw [hvw.text]
      cases parse w.transformToString path with
      | ok n => exact .ok rfl
      | error e =>
          refine .error ?_
          cases e with
          | lookup e => exact .inl rfl
          | badValue message => rfl
          | undefinedBehaviour message => rfl
  | error he => exact .error he

theorem sameOutcome_units (m : Except GetterException UInt64) :
    Corresponds GetterException.Alike Eq m m := by
  refine .refl (fun _ => rfl) (fun e => ?_) m
  cases e with
  | lookup e => exact .inl rfl
  | badValue message => rfl
  | undefinedBehaviour message => rfl

-- A number, or else a string with a unit.
def orString (size : ℤ → Except GetterException UInt64) (parsed : Except GetterException UInt64) :
    Except LookupException ℤ → Except GetterException UInt64
  | .ok n => size n
  | .error (.wrongType _) | .error (.config (.wrongType _)) => parsed
  | .error e => .error (.lookup e)

theorem Corresponds.orString {size : ℤ → Except GetterException UInt64}
    {parsed parsed' : Except GetterException UInt64} {m m' : Except LookupException ℤ}
    (h : Corresponds LookupException.Alike Eq m m')
    (hparsed : Corresponds GetterException.Alike Eq parsed parsed') :
    Corresponds GetterException.Alike Eq (orString size parsed m) (orString size parsed' m') := by
  cases h with
  | ok hn =>
      subst hn
      exact sameOutcome_units _
  | error he =>
      rcases he with rfl | ⟨_, _, _, _, rfl, rfl⟩
      · rename_i e
        cases e with
        | missing message => exact .error (.inl rfl)
        | null message => exact .error (.inl rfl)
        | wrongType message => exact hparsed
        | config e =>
            cases e with
            | wrongType message => exact hparsed
            | _ => exact .error (.inl rfl)
      · exact hparsed

theorem getBytes_eq (object : Value ℕ) (path : Bytes) :
    SimpleConfig.getBytes doubles products newId object path =
      orString (fun size => .ok (Int64.ofInt size).toUInt64)
        (SimpleConfig.parseAt doubles newId (SimpleConfig.parseBytes products) object path)
        (SimpleConfig.getInt64 doubles products newId object path) := by
  unfold SimpleConfig.getBytes Config.orString
  rfl

theorem getNanoseconds_eq (object : Value ℕ) (path : Bytes) :
    SimpleConfig.getNanoseconds doubles products newId object path =
      orString (fun millis =>
          match signed 64 (millis * 1000000) with
          | some size => .ok (Int64.ofInt size).toUInt64
          | none => .error (.undefinedBehaviour "signed overflow"))
        (SimpleConfig.parseAt doubles newId (SimpleConfig.parseDuration products) object path)
        (SimpleConfig.getInt64 doubles products newId object path) := by
  unfold SimpleConfig.getNanoseconds Config.orString
  rfl

theorem AsStrings.getList (hcasts : CastsDoubles doubles products)
    (h : AsStrings doubles object object') (hobject : object.isObject) (path : Bytes) :
    Corresponds LookupException.Alike (List.Forall₂ (AsStrings doubles))
      (SimpleConfig.getList doubles newId object path)
      (SimpleConfig.getList doubles newId object' path) := by
  refine (h.findExpression newId hcasts (by decide) hobject path).bind fun v w hvw => ?_
  cases v with
  | simpleConfigList id vs =>
      obtain ⟨id', ws, rfl, hall⟩ := hvw.nested (.inl rfl)
      exact .ok (asStringsAll_iff.mp hall)
  | _ => cases hvw.types.1

-- The walkers of a list take the same from both lists.
theorem AsStrings.homogeneousList {α : Type} {keep : Value ℕ → Except ConfigException α}
    {kept : Value ℕ → α} {goal : α → α → Prop} (hcasts : CastsDoubles doubles products)
    (he : expected ≠ .NONE) (hkeep : ∀ v : Value ℕ, v.resolved → keep v = .ok (kept v))
    (hgoal : ∀ v w, TakenAlike doubles products expected v w → goal (kept v) (kept w))
    (path : Bytes) {vs ws : List (Value ℕ)} (h : List.Forall₂ (AsStrings doubles) vs ws) :
    Corresponds LookupException.Alike (List.Forall₂ goal)
      (SimpleConfig.homogeneousList doubles newId keep path expected vs)
      (SimpleConfig.homogeneousList doubles newId keep path expected ws) := by
  induction h with
  | nil => exact .ok .nil
  | @cons v w vs ws hvw _ ih =>
      obtain ⟨v', w', hv, hw, htaken | hrefused⟩ := hvw.converts newId hcasts he
      · simp only [SimpleConfig.homogeneousList, ne_eq, he, not_false_eq_true, if_true, hv, hw,
          Except.mapError, bind, Except.bind, htaken.types.1, htaken.types.2, not_true, if_false,
          hkeep v' htaken.resolved.1, hkeep w' htaken.resolved.2]
        exact ih.bind fun as bs hab => .ok (.cons (hgoal v' w' htaken) hab)
      · obtain ⟨t, t', ht, ht', hne, hne', -⟩ := hrefused.types
        simp only [SimpleConfig.homogeneousList, ne_eq, he, not_false_eq_true, if_true, hv, hw,
          Except.mapError, bind, Except.bind, ht, ht', hne, hne']
        exact .error (alike_ofWrongType ..)

theorem variantInt64_plain (walk : EntryWalk) (h : v.valueType = .ok .NUMBER) :
    variantInt64 products (v.plain walk) = v.int64 products := by
  cases v with
  | configInt | configInt64 | configDouble => rfl
  | _ => cases h

theorem AsStrings.unwrappedList (hcasts : CastsDoubles doubles products)
    (h : AsStrings doubles object object') (hobject : object.isObject) (he : expected ≠ .NONE)
    {goal : ConfigVariant → ConfigVariant → Prop}
    (hgoal : ∀ v w : Value ℕ, TakenAlike doubles products expected v w →
      goal (v.plain walk) (w.plain walk)) (path : Bytes) :
    Corresponds LookupException.Alike (List.Forall₂ goal)
      (SimpleConfig.getHomogeneousUnwrappedList doubles newId walk object path expected)
      (SimpleConfig.getHomogeneousUnwrappedList doubles newId walk object' path expected) :=
  (h.getList newId hcasts hobject path).bind fun _ _ hlists =>
    AsStrings.homogeneousList newId hcasts he (fun v hv => v.unwrapped_of_resolved walk hv) hgoal
      path hlists

-- The getters for lists of booleans and of strings.
theorem AsStrings.scalarList {α : Type} {variantGet : ConfigVariant → Except ListException α}
    (hcasts : CastsDoubles doubles products) (h : AsStrings doubles object object')
    (hobject : object.isObject) (he : expected = .BOOLEAN ∨ expected = .STRING) (path : Bytes) :
    Corresponds ListException.Alike Eq
      ((SimpleConfig.getHomogeneousUnwrappedList doubles newId walk object path
        expected).mapError ListException.lookup >>= fun list => list.mapM variantGet)
      ((SimpleConfig.getHomogeneousUnwrappedList doubles newId walk object' path
        expected).mapError ListException.lookup >>= fun list => list.mapM variantGet) := by
  have hne : expected ≠ .NONE := by
    rcases he with rfl | rfl <;> decide
  have hlists : Corresponds LookupException.Alike (List.Forall₂ Eq)
      (SimpleConfig.getHomogeneousUnwrappedList doubles newId walk object path expected)
      (SimpleConfig.getHomogeneousUnwrappedList doubles newId walk object' path expected) :=
    h.unwrappedList newId hcasts hobject hne (fun v w hvw => hvw.scalar he walk) path
  refine (Corresponds.lookup hlists).bind fun list list' hlist => ?_
  rw [List.forall₂_eq_eq_eq] at hlist
  rw [hlist]
  exact sameOutcome_self _

theorem AsStrings.getInt64List (hcasts : CastsDoubles doubles products)
    (h : AsStrings doubles object object') (hobject : object.isObject) (path : Bytes) :
    Corresponds LookupException.Alike Eq
      (SimpleConfig.getInt64List doubles products newId walk object path)
      (SimpleConfig.getInt64List doubles products newId walk object' path) := by
  have hlists : Corresponds LookupException.Alike
      (List.Forall₂ fun x y => variantInt64 products x = variantInt64 products y)
      (SimpleConfig.getHomogeneousUnwrappedList doubles newId walk object path .NUMBER)
      (SimpleConfig.getHomogeneousUnwrappedList doubles newId walk object' path .NUMBER) := by
    refine h.unwrappedList newId hcasts hobject (by decide) (fun v w hvw => ?_) path
    rw [variantInt64_plain walk hvw.types.1, variantInt64_plain walk hvw.types.2,
      hvw.number rfl]
  refine hlists.bind fun list list' hlist => .ok ?_
  induction hlist with
  | nil => rfl
  | cons hx _ ih => rw [List.map_cons, List.map_cons, hx, ih]

theorem AsStrings.getIntList (hcasts : CastsDoubles doubles products)
    (h : AsStrings doubles object object') (hobject : object.isObject) (path : Bytes) :
    Corresponds LookupException.Alike Eq
      (SimpleConfig.getIntList doubles products newId object path)
      (SimpleConfig.getIntList doubles products newId object' path) := by
  have hlists : Corresponds LookupException.Alike
      (List.Forall₂ (TakenAlike doubles products .NUMBER))
      (SimpleConfig.getHomogeneousWrappedList doubles newId object path .NUMBER)
      (SimpleConfig.getHomogeneousWrappedList doubles newId object' path .NUMBER) :=
    (h.getList newId hcasts hobject path).bind fun _ _ hlists =>
      AsStrings.homogeneousList newId hcasts (by decide) (fun _ _ => rfl) (fun _ _ hvw => hvw)
        path hlists
  refine hlists.bind fun list list' hlist => ?_
  have hchecked : Corresponds LookupException.Alike (List.Forall₂ Eq)
      (list.mapM (Value.intValueRangeChecked products path))
      (list'.mapM (Value.intValueRangeChecked products path)) := by
    refine .mapM hlist fun v w hvw => ?_
    rw [hvw.intValueRangeChecked path]
    exact .refl (fun _ => rfl) (fun _ => .inl rfl) _
  refine hchecked.imp fun xs ys hxs => ?_
  rw [List.forall₂_eq_eq_eq] at hxs
  exact hxs

end

-- What the getters make of the setting at a path in the one config and in the other.
structure GettersAlike (doubles : Doubles) (products : DoubleProduct) (newId : ℕ)
    (walk : EntryWalk) (object object' : Value ℕ) (path : Bytes) : Prop where
  boolean : Corresponds ListException.Alike Eq
    (SimpleConfig.getBoolean doubles newId walk object path)
    (SimpleConfig.getBoolean doubles newId walk object' path)
  string : Corresponds ListException.Alike Eq
    (SimpleConfig.getString doubles newId walk object path)
    (SimpleConfig.getString doubles newId walk object' path)
  int : Corresponds LookupException.Alike Eq
    (SimpleConfig.getInt doubles products newId object path)
    (SimpleConfig.getInt doubles products newId object' path)
  int64 : Corresponds LookupException.Alike Eq
    (SimpleConfig.getInt64 doubles products newId object path)
    (SimpleConfig.getInt64 doubles products newId object' path)
  bytes : Corresponds GetterException.Alike Eq
    (SimpleConfig.getBytes doubles products newId object path)
    (SimpleConfig.getBytes doubles products newId object' path)
  nanoseconds : Corresponds GetterException.Alike Eq
    (SimpleConfig.getNanoseconds doubles products newId object path)
    (SimpleConfig.getNanoseconds doubles products newId object' path)
  milliseconds : Corresponds GetterException.Alike Eq
    (SimpleConfig.getMilliseconds doubles products newId object path)
    (SimpleConfig.getMilliseconds doubles products newId object' path)
  booleanList : Corresponds ListException.Alike Eq
    (SimpleConfig.getBooleanList doubles newId walk object path)
    (SimpleConfig.getBooleanList doubles newId walk object' path)
  stringList : Corresponds ListException.Alike Eq
    (SimpleConfig.getStringList doubles newId walk object path)
    (SimpleConfig.getStringList doubles newId walk object' path)
  intList : Corresponds LookupException.Alike Eq
    (SimpleConfig.getIntList doubles products newId object path)
    (SimpleConfig.getIntList doubles products newId object' path)
  int64List : Corresponds LookupException.Alike Eq
    (SimpleConfig.getInt64List doubles products newId walk object path)
    (SimpleConfig.getInt64List doubles products newId walk object' path)

theorem getters_asStrings {doubles : Doubles} {products : DoubleProduct} {object object' : Value ℕ}
    (hcasts : CastsDoubles doubles products) (h : AsStrings doubles object object')
    (hobject : object.isObject) (newId : ℕ) (walk : EntryWalk) (path : Bytes) :
    GettersAlike doubles products newId walk object object' path := by
  have hint64 := h.getInt64 newId hcasts hobject path
  have hnanoseconds : Corresponds GetterException.Alike Eq
      (SimpleConfig.getNanoseconds doubles products newId object path)
      (SimpleConfig.getNanoseconds doubles products newId object' path) := by
    rw [getNanoseconds_eq, getNanoseconds_eq]
    exact Corresponds.orString hint64 (h.parseAt newId hcasts hobject _ path)
  refine ⟨h.getUnwrapped newId hcasts hobject _ (.inl rfl) path,
    h.getUnwrapped newId hcasts hobject _ (.inr rfl) path, h.getInt newId hcasts hobject path,
    hint64, ?_, hnanoseconds, hnanoseconds.map fun _ _ hn => by rw [hn],
    h.scalarList newId hcasts hobject (.inl rfl) path,
    h.scalarList newId hcasts hobject (.inr rfl) path, h.getIntList newId hcasts hobject path,
    h.getInt64List newId hcasts hobject path⟩
  rw [getBytes_eq, getBytes_eq]
  exact Corresponds.orString hint64 (h.parseAt newId hcasts hobject _ path)

-- The double of the one text with a point in it below.
private def twoPointZero (text : Bytes) : Option Int64 := if text = ascii "2.0" then some 2 else none

private def withScalars : Value ℕ :=
  .simpleConfigObject 0 [(ascii "n", .configInt 1 2 (ascii "2.0")),
    (ascii "l", .simpleConfigList 2 [.configBoolean 3 true, .configBoolean 4 false])] false

private def withStrings : Value ℕ :=
  .simpleConfigObject 5 [(ascii "n", .configString 6 (ascii "2.0")),
    (ascii "l", .simpleConfigList 7 [.configString 8 (ascii "true"), .configBoolean 4 false])] false

-- `n = 2.0, l = [true, false]` and `n = "2.0", l = ["true", false]`
theorem getters_asStrings_point :
    SimpleConfig.getInt ⟨fun text => (twoPointZero text).map some, id⟩
        (fun text _ => twoPointZero text) 9 withStrings (ascii "n") = .ok 2 ∧
    GettersAlike ⟨fun text => (twoPointZero text).map some, id⟩ (fun text _ => twoPointZero text) 9
      ⟨id, fun _ => .refl _⟩ withScalars withStrings (ascii "l") := by
  have hcasts : CastsDoubles ⟨fun text => (twoPointZero text).map some, id⟩
      (fun text _ => twoPointZero text) :=
    ⟨fun text n h => by simpa using h, by decide⟩
  have hscalars : AsStrings ⟨fun text => (twoPointZero text).map some, id⟩ withScalars
      withStrings := by
    refine ⟨5, _, false, rfl, _, _, rfl, .inr ⟨.inr (.inr ?_), 6, rfl⟩, _, _, rfl,
      ⟨7, _, rfl, _, _, rfl, .inr ⟨trivial, 8, rfl⟩, _, _, rfl, .inl ⟨rfl, rfl⟩, rfl⟩, rfl⟩
    exact ⟨by decide, by decide⟩
  have halike := getters_asStrings hcasts hscalars rfl 9 ⟨id, fun _ => .refl _⟩
  refine ⟨?_, halike (ascii "l")⟩
  have hint := (halike (ascii "n")).int
  have htwo : SimpleConfig.getInt ⟨fun text => (twoPointZero text).map some, id⟩
      (fun text _ => twoPointZero text) 9 withScalars (ascii "n") = .ok 2 := by
    decide
  rw [htwo] at hint
  generalize SimpleConfig.getInt ⟨fun text => (twoPointZero text).map some, id⟩
    (fun text _ => twoPointZero text) 9 withStrings (ascii "n") = m at hint
  cases hint with
  | ok h => rw [← h]

end AsrServiceProxy.Config

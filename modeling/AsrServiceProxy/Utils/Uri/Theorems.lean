import AsrServiceProxy.Utils.Uri

namespace AsrServiceProxy.StringUtil

open CMemory IndexLoop

-- The elements of a text, read from its front.
def factor : Bytes → Option (List UriElement)
  | [] => some []
  | 37 :: high :: low :: rest =>
      if isHexChar high && isHexChar low then (factor rest).map (.escape high low :: ·) else none
  | c :: rest =>
      if UriElement.isUnreserved c then (factor rest).map (.unreserved c :: ·) else none

theorem isUnreserved_percent : UriElement.isUnreserved 37 = false := by decide

theorem ne_percent_of_isUnreserved {c : UInt8} (h : UriElement.isUnreserved c = true) : c ≠ 37 := by
  rintro rfl
  rw [isUnreserved_percent] at h
  cases h

theorem factor_cons_unreserved {c : UInt8} (h : UriElement.isUnreserved c = true) (rest : Bytes) :
    factor (c :: rest) = (factor rest).map (.unreserved c :: ·) := by
  have hne := ne_percent_of_isUnreserved h
  rw [factor, if_pos h]
  rintro high low more rfl
  exact absurd rfl hne

theorem factor_flatMap {elements : List UriElement} (h : ∀ e ∈ elements, e.wellFormed = true) :
    factor (elements.flatMap UriElement.text) = some elements := by
  induction elements with
  | nil => rfl
  | cons e rest ih =>
      have he := h e List.mem_cons_self
      have hrest := ih fun e' he' => h e' (List.mem_cons_of_mem e he')
      rw [List.flatMap_cons]
      cases e with
      | unreserved c =>
          rw [UriElement.text, List.singleton_append, factor_cons_unreserved he, hrest]
          rfl
      | escape high low =>
          show factor (37 :: high :: low :: rest.flatMap UriElement.text) = _
          rw [UriElement.wellFormed] at he
          rw [factor, if_pos he, hrest]
          rfl

theorem factors_of_factor {input : Bytes} {elements : List UriElement}
    (h : factor input = some elements) : Factors elements input := by
  fun_induction factor input generalizing elements with
  | case1 =>
      cases h
      exact ⟨nofun, rfl⟩
  | case2 high low rest hhex ih =>
      obtain ⟨more, hmore, rfl⟩ := Option.map_eq_some_iff.mp h
      obtain ⟨hformed, htext⟩ := ih hmore
      refine ⟨?_, by rw [List.flatMap_cons, htext]; rfl⟩
      intro e he
      rcases List.mem_cons.mp he with rfl | he
      · exact hhex
      · exact hformed e he
  | case3 => cases h
  | case4 c rest _ hunreserved ih =>
      obtain ⟨more, hmore, rfl⟩ := Option.map_eq_some_iff.mp h
      obtain ⟨hformed, htext⟩ := ih hmore
      refine ⟨?_, by rw [List.flatMap_cons, htext]; rfl⟩
      intro e he
      rcases List.mem_cons.mp he with rfl | he
      · exact hunreserved
      · exact hformed e he
  | case5 => cases h

theorem factors_iff (elements : List UriElement) (input : Bytes) :
    Factors elements input ↔ factor input = some elements := by
  constructor
  · rintro ⟨hformed, rfl⟩
    exact factor_flatMap hformed
  · exact factors_of_factor

-- The byte that the decoder makes of an element.
def UriElement.decoded : UriElement → UInt8
  | .unreserved c => c
  | .escape _ low => toBin low

abbrev uriAdvance : UriDecoder → UInt8 → UriDecoder :=
  advance (fun d : UriDecoder => d.state = .errorState) uriDecodeRound

-- The decoder after a text.
def uriRun (input : Bytes) : UriDecoder :=
  input.foldl uriAdvance { state := .normalState, ss := [] }

theorem foldl_uriAdvance_of_error {d : UriDecoder} (h : d.state = .errorState) (input : Bytes) :
    input.foldl uriAdvance d = d := by
  apply foldl_advance_of_stop
  simpa using h

theorem uriAdvance_error (ss input : Bytes) :
    input.foldl uriAdvance { state := .errorState, ss := ss } =
      { state := .errorState, ss := ss } :=
  foldl_uriAdvance_of_error rfl input

theorem uriAdvance_unreserved {c : UInt8} (h : UriElement.isUnreserved c = true) (ss : Bytes) :
    uriAdvance { state := .normalState, ss := ss } c =
      { state := .normalState, ss := ss ++ [c] } := by
  have hne := ne_percent_of_isUnreserved h
  rw [UriElement.isUnreserved] at h
  simp [uriAdvance, advance, uriDecodeRound, hne, h]

theorem uriAdvance_reserved {c : UInt8} (h : UriElement.isUnreserved c = false) (hne : c ≠ 37)
    (ss : Bytes) :
    uriAdvance { state := .normalState, ss := ss } c = { state := .errorState, ss := ss } := by
  rw [UriElement.isUnreserved] at h
  simp [uriAdvance, advance, uriDecodeRound, hne, h]

theorem uriAdvance_percent (ss : Bytes) :
    uriAdvance { state := .normalState, ss := ss } 37 =
      { state := .percentAppearState, ss := ss } := by
  simp [uriAdvance, advance, uriDecodeRound]

theorem uriAdvance_high (c : UInt8) (ss : Bytes) :
    uriAdvance { state := .percentAppearState, ss := ss } c =
      { state := if isHexChar c then .percentAndHexCharAppearState else .errorState, ss := ss } := by
  cases h : isHexChar c <;> simp [uriAdvance, advance, uriDecodeRound, h]

theorem uriAdvance_low (c : UInt8) (ss : Bytes) :
    uriAdvance { state := .percentAndHexCharAppearState, ss := ss } c =
      if isHexChar c then { state := .normalState, ss := ss ++ [toBin c] }
      else { state := .errorState, ss := ss } := by
  cases h : isHexChar c <;> simp [uriAdvance, advance, uriDecodeRound, h]

-- From the normal state the decoder comes back to it exactly after a text of elements.
theorem foldl_uriAdvance (input ss : Bytes) :
    match factor input with
    | some elements => input.foldl uriAdvance { state := .normalState, ss := ss } =
        { state := .normalState, ss := ss ++ elements.map UriElement.decoded }
    | none => (input.foldl uriAdvance { state := .normalState, ss := ss }).state ≠ .normalState := by
  fun_induction factor input generalizing ss with
  | case1 => simp
  | case2 high low rest hhex ih =>
      rw [Bool.and_eq_true] at hhex
      have hrun : (37 :: high :: low :: rest).foldl uriAdvance { state := .normalState, ss := ss } =
          rest.foldl uriAdvance { state := .normalState, ss := ss ++ [toBin low] } := by
        simp only [List.foldl_cons, uriAdvance_percent, uriAdvance_high, hhex.1, ite_true,
          uriAdvance_low, hhex.2]
      have hrest := ih (ss ++ [toBin low])
      rw [hrun]
      cases hfactor : factor rest with
      | none =>
          rw [hfactor] at hrest
          exact hrest
      | some elements =>
          rw [hfactor] at hrest
          simpa [UriElement.decoded] using hrest
  | case3 high low rest hhex =>
      simp only [List.foldl_cons, uriAdvance_percent, uriAdvance_high, ne_eq]
      by_cases hhigh : isHexChar high = true
      · have hlow : isHexChar low = false := by simpa [hhigh] using hhex
        simp only [hhigh, ite_true, uriAdvance_low, hlow, Bool.false_eq_true, ite_false,
          uriAdvance_error]
        nofun
      · simp only [hhigh, ite_false, Bool.false_eq_true]
        have herror : uriAdvance { state := .errorState, ss := ss } low =
            { state := .errorState, ss := ss } := rfl
        rw [herror, uriAdvance_error]
        nofun
  | case4 c rest _ hunreserved ih =>
      have hrest := ih (ss ++ [c])
      rw [List.foldl_cons, uriAdvance_unreserved hunreserved]
      cases hfactor : factor rest with
      | none =>
          rw [hfactor] at hrest
          exact hrest
      | some elements =>
          rw [hfactor] at hrest
          simpa [UriElement.decoded] using hrest
  | case5 c rest hshape hreserved =>
      rw [Bool.not_eq_true] at hreserved
      by_cases hpercent : c = 37
      · -- an escape that the text ends in
        subst hpercent
        rcases rest with _ | ⟨high, _ | ⟨low, rest⟩⟩
        · simp only [List.foldl_cons, List.foldl_nil, uriAdvance_percent]
          nofun
        · simp only [List.foldl_cons, List.foldl_nil, uriAdvance_percent, uriAdvance_high]
          split <;> nofun
        · exact absurd rfl (hshape high low rest rfl)
      · rw [List.foldl_cons, uriAdvance_reserved hreserved hpercent, uriAdvance_error]
        nofun

theorem uriRun_of_factors {input : Bytes} {elements : List UriElement} (h : Factors elements input) :
    uriRun input = { state := .normalState, ss := elements.map UriElement.decoded } := by
  have hrun := foldl_uriAdvance input []
  rw [(factors_iff elements input).mp h] at hrun
  exact hrun

theorem isUriText_iff (input : Bytes) : IsUriText input ↔ (uriRun input).state = .normalState := by
  constructor
  · rintro ⟨elements, h⟩
    rw [uriRun_of_factors h]
  · intro h
    have hrun := foldl_uriAdvance input []
    cases hfactor : factor input with
    | some elements => exact ⟨elements, factors_of_factor hfactor⟩
    | none =>
        rw [hfactor] at hrun
        exact absurd h hrun

-- A text that can still become one of elements.
def BeginsUriText (input : Bytes) : Prop := ∃ more, IsUriText (input ++ more)

theorem beginsUriText_iff (input : Bytes) :
    BeginsUriText input ↔ (uriRun input).state ≠ .errorState := by
  have happend : ∀ more, uriRun (input ++ more) = more.foldl uriAdvance (uriRun input) := by
    intro more
    rw [uriRun, List.foldl_append, uriRun]
  constructor
  · rintro ⟨more, hmore⟩ herror
    rw [isUriText_iff, happend, foldl_uriAdvance_of_error herror, herror] at hmore
    cases hmore
  · intro h
    -- digits complete an escape
    have hdigit : isHexChar 48 = true := by decide
    obtain ⟨state, ss, hrun⟩ : ∃ state ss, uriRun input = { state := state, ss := ss } :=
      ⟨_, _, rfl⟩
    rw [hrun] at h
    cases state with
    | normalState => exact ⟨[], by rw [isUriText_iff, happend, hrun]; rfl⟩
    | percentAppearState =>
        refine ⟨[48, 48], ?_⟩
        rw [isUriText_iff, happend, hrun]
        simp only [List.foldl_cons, List.foldl_nil, uriAdvance_high, hdigit, ite_true, uriAdvance_low]
    | percentAndHexCharAppearState =>
        refine ⟨[48], ?_⟩
        rw [isUriText_iff, happend, hrun]
        simp only [List.foldl_cons, List.foldl_nil, hdigit, ite_true, uriAdvance_low]
    | errorState => exact absurd rfl h

-- What the call comes to, once the loop has ended.
def uriResult (d : UriDecoder) (out : Bytes) : ℤ × Bytes :=
  if d.state ≠ .normalState then (-1, out) else (0, d.ss)

theorem uriDecode_of_lt {input : Bytes} (h : input.length < 2 ^ 32) (out : Bytes) :
    uriDecode (input.length + 1) input out = some (uriResult (uriRun input) out) := by
  rw [uriDecode, uriDecodeLoop, loop_of_lt h (by omega) (Nat.zero_le _), List.drop_zero]
  rfl

theorem uriDecode_unique {input out : Bytes} {n m : ℕ} {r r' : ℤ × Bytes}
    (h : uriDecode n input out = some r) (h' : uriDecode m input out = some r') : r = r' := by
  obtain ⟨d, hd, rfl⟩ := Option.map_eq_some_iff.mp h
  obtain ⟨d', hd', rfl⟩ := Option.map_eq_some_iff.mp h'
  rw [loop_unique hd hd']

-- The bytes that a longer input shows to an index that starts again.
def repeated (input : Bytes) (k : ℕ) : Bytes := (List.replicate k (input.take (2 ^ 32))).flatten

-- On a longer input the loop ends only in the error state.
theorem uriDecode_of_le {input : Bytes} (h : 2 ^ 32 ≤ input.length) {n : ℕ} {out : Bytes}
    {r : ℤ × Bytes} (hr : uriDecode n input out = some r) :
    r = (-1, out) ∧ ∃ k, ¬BeginsUriText (repeated input k) := by
  obtain ⟨d, hd, rfl⟩ := Option.map_eq_some_iff.mp hr
  obtain ⟨hstop, hrun⟩ := stop_of_loop h (Nat.two_pow_pos 32) hd
  have herror : d.state = .errorState := by simpa using hstop
  refine ⟨by simp [herror], n, ?_⟩
  -- all the bytes that were read are among those of `n` rounds of the index
  have hle : n ≤ n * 2 ^ 32 := Nat.le_mul_of_pos_right n (Nat.two_pow_pos 32)
  have hsplit := upcoming_add n (n * 2 ^ 32 - n) h (Nat.two_pow_pos 32)
  rw [Nat.add_sub_of_le hle, upcoming_rounds h] at hsplit
  have hend : uriRun (repeated input n) = d := by
    rw [repeated, uriRun, hsplit, List.foldl_append, ← hrun, foldl_uriAdvance_of_error herror]
  rw [beginsUriText_iff, hend, herror]
  exact fun hne => hne rfl

theorem uriDecode_of_error {input : Bytes} (h : 2 ^ 32 ≤ input.length) {k : ℕ}
    (hk : ¬BeginsUriText (repeated input k)) (out : Bytes) :
    ∃ n, uriDecode n input out = some (-1, out) := by
  rw [beginsUriText_iff, not_not, repeated, ← upcoming_rounds h] at hk
  have hloop : uriDecodeLoop (k * 2 ^ 32 + 1) input = some (uriRun (upcoming 32 input (k * 2 ^ 32) 0)) :=
    loop_of_stop h (Nat.two_pow_pos 32) (decide_eq_true hk)
  refine ⟨k * 2 ^ 32 + 1, ?_⟩
  rw [uriDecode, hloop, Option.map_some, hk]
  rfl

-- The call returns: 0 for a text of elements, with one byte for each, and else -1
-- with `*out` as it was.
def DecodesElements (input out : Bytes) : Prop :=
  ∃ rounds ret out', uriDecode rounds input out = some (ret, out') ∧
    (ret = 0 ↔ IsUriText input) ∧
    (∀ elements, Factors elements input →
      out'.length = elements.length ∧ ∀ others, Factors others input → others = elements) ∧
    (¬IsUriText input → ret = -1 ∧ out' = out)

theorem factors_unique {input : Bytes} {elements others : List UriElement}
    (h : Factors elements input) (h' : Factors others input) : others = elements := by
  rw [factors_iff] at h h'
  rw [h] at h'
  exact (Option.some.inj h').symm

theorem decodesElements_of_refused {input out : Bytes} {rounds : ℕ} (htext : ¬IsUriText input)
    (h : uriDecode rounds input out = some (-1, out)) : DecodesElements input out := by
  refine ⟨rounds, -1, out, h, iff_of_false (by decide) htext, ?_, fun _ => ⟨rfl, rfl⟩⟩
  intro elements helements
  exact absurd ⟨elements, helements⟩ htext

theorem decodesElements_of_lt {input : Bytes} (h : input.length < 2 ^ 32) (out : Bytes) :
    DecodesElements input out := by
  have hdecode := uriDecode_of_lt h out
  by_cases htext : IsUriText input
  · obtain ⟨elements, hfactors⟩ := htext
    rw [uriRun_of_factors hfactors] at hdecode
    refine ⟨_, 0, _, hdecode, iff_of_true rfl ⟨elements, hfactors⟩, ?_, ?_⟩
    · intro others hothers
      obtain rfl := factors_unique hfactors hothers
      exact ⟨List.length_map _, fun _ h => factors_unique hfactors h⟩
    · intro hnot
      exact absurd ⟨elements, hfactors⟩ hnot
  · have hstate : (uriRun input).state ≠ .normalState := by
      rwa [ne_eq, ← isUriText_iff]
    rw [uriResult, if_pos hstate] at hdecode
    exact decodesElements_of_refused htext hdecode

-- The decoder and the grammar agree unless the input is as long as the index can
-- count: then no text of elements is accepted, and another one is refused only if an
-- error is found in what the index comes to.
theorem decodesElements_iff (input out : Bytes) :
    DecodesElements input out ↔ input.length < 2 ^ 32 ∨
      ¬IsUriText input ∧ ∃ k, ¬BeginsUriText (repeated input k) := by
  constructor
  · rintro ⟨rounds, ret, out', hdecode, hzero, -, -⟩
    by_cases hlength : input.length < 2 ^ 32
    · exact .inl hlength
    · obtain ⟨hret, hk⟩ := uriDecode_of_le (by omega) hdecode
      refine .inr ⟨?_, hk⟩
      intro htext
      rw [Prod.mk.injEq, hzero.mpr htext] at hret
      cases hret.1
  · rintro (hlength | ⟨htext, k, hk⟩)
    · exact decodesElements_of_lt hlength out
    · by_cases hlength : input.length < 2 ^ 32
      · exact decodesElements_of_lt hlength out
      · obtain ⟨n, hn⟩ := uriDecode_of_error (by omega) hk out
        exact decodesElements_of_refused htext hn

-- Letters alone, as many as the index can count.
theorem decodesElements_letters : ¬DecodesElements (List.replicate (2 ^ 32) 97) [] := by
  have hfactors : Factors (List.replicate (2 ^ 32) (.unreserved 97)) (List.replicate (2 ^ 32) 97) := by
    refine ⟨?_, ?_⟩
    · intro e he
      rw [List.eq_of_mem_replicate he]
      rfl
    · rw [List.flatMap_replicate]
      exact List.flatten_replicate_singleton
  rintro ⟨rounds, ret, out', hdecode, hzero, -, -⟩
  obtain ⟨hret, -⟩ := uriDecode_of_le (by rw [List.length_replicate]) hdecode
  rw [Prod.mk.injEq, hzero.mpr ⟨_, hfactors⟩] at hret
  cases hret.1

-- Whether a character is written as it is.
def isKept (encodeSlash : Bool) (c : UInt8) : Bool :=
  isalnum c || c = 95 || c = 45 || c = 126 || c = 46 || (c = 47 && !encodeSlash)

def encodedElement (encodeSlash : Bool) (c : UInt8) : UriElement :=
  if isKept encodeSlash c then .unreserved c
  else .escape (hexChars.getD (c >>> 4).toNat 0) (hexChars.getD (c &&& 0xf).toNat 0)

theorem uriEncodeChar_eq (encodeSlash : Bool) (c : UInt8) :
    uriEncodeChar encodeSlash c = (encodedElement encodeSlash c).text := by
  rw [uriEncodeChar, encodedElement, isKept]
  by_cases hkept : (isalnum c || c = 95 || c = 45 || c = 126 || c = 46) = true
  · rw [if_pos hkept, hkept, Bool.true_or, if_pos rfl]
    rfl
  · rw [if_neg hkept, Bool.not_eq_true] at *
    rw [hkept, Bool.false_or]
    by_cases hslash : c = 47
    · cases encodeSlash <;> simp [hslash, UriElement.text, toHex]
    · simp [hslash, UriElement.text, toHex]

-- An escape loses its first digit.
theorem encodedElement_classes (encodeSlash : Bool) (c : UInt8) :
    (encodedElement encodeSlash c).wellFormed = true ∧
      ((encodedElement encodeSlash c).decoded = c ↔ isKept encodeSlash c = true ∨ c < 16) := by
  revert c
  apply forall_byte
  cases encodeSlash <;> decide +kernel

theorem factors_encoded (encodeSlash : Bool) (s : Bytes) :
    Factors (s.map (encodedElement encodeSlash)) (s.flatMap (uriEncodeChar encodeSlash)) := by
  refine ⟨?_, ?_⟩
  · intro e he
    obtain ⟨c, -, rfl⟩ := List.mem_map.mp he
    exact (encodedElement_classes encodeSlash c).1
  · rw [List.flatMap_map]
    apply List.flatMap_congr
    intro c _
    exact (uriEncodeChar_eq encodeSlash c).symm

theorem foldl_append_flatMap (f : UInt8 → Bytes) (input ss : Bytes) :
    input.foldl (advance (fun _ => false) fun ss c => ss ++ f c) ss = ss ++ input.flatMap f := by
  induction input generalizing ss with
  | nil => rw [List.foldl_nil, List.flatMap_nil, List.append_nil]
  | cons c rest ih =>
      rw [List.foldl_cons, ih, List.flatMap_cons, advance, if_neg Bool.false_ne_true,
        List.append_assoc]

theorem uriEncode_of_lt {input : Bytes} (h : input.length < 2 ^ 32) (encodeSlash : Bool) :
    uriEncode (input.length + 1) input encodeSlash =
      some (input.flatMap (uriEncodeChar encodeSlash)) := by
  rw [uriEncode, loop_of_lt h (by omega) (Nat.zero_le _), List.drop_zero, foldl_append_flatMap,
    List.nil_append]

theorem uriEncode_of_le {input : Bytes} (h : 2 ^ 32 ≤ input.length) (encodeSlash : Bool) (n : ℕ)
    (text : Bytes) : uriEncode n input encodeSlash ≠ some text := by
  intro htext
  cases (stop_of_loop h (Nat.two_pow_pos 32) htext).1

-- The encoder ends with some text, and the decoder with 0 and what was encoded.
def UriRoundTrips (s : Bytes) (encodeSlash : Bool) (out : Bytes) : Prop :=
  ∃ rounds text rounds', uriEncode rounds s encodeSlash = some text ∧
    uriDecode rounds' text out = some (0, s)

-- The number of characters that are written for one.
def encodedWidth (encodeSlash : Bool) (c : UInt8) : ℕ := if isKept encodeSlash c then 1 else 3

theorem length_encoded (encodeSlash : Bool) (s : Bytes) :
    (s.flatMap (uriEncodeChar encodeSlash)).length = (s.map (encodedWidth encodeSlash)).sum := by
  rw [List.length_flatMap]
  congr 1
  apply List.map_congr_left
  intro c _
  rw [uriEncodeChar_eq, encodedElement, encodedWidth]
  split <;> rfl

theorem length_le_sum_encodedWidth (encodeSlash : Bool) (s : Bytes) :
    s.length ≤ (s.map (encodedWidth encodeSlash)).sum := by
  induction s with
  | nil => exact Nat.le_refl 0
  | cons c rest ih =>
      have hpos : 1 ≤ encodedWidth encodeSlash c := by
        rw [encodedWidth]
        split <;> omega
      rw [List.length_cons, List.map_cons, List.sum_cons]
      omega

theorem map_eq_self_iff {f : UInt8 → UInt8} (s : Bytes) : s.map f = s ↔ ∀ c ∈ s, f c = c := by
  induction s with
  | nil => simp
  | cons c rest ih => simp [ih]

-- What is decoded is what was encoded when every character that is escaped fits
-- into the second digit, and the index can count the encoded text.
theorem uriRoundTrips_iff (s : Bytes) (encodeSlash : Bool) (out : Bytes) :
    UriRoundTrips s encodeSlash out ↔
      (∀ c ∈ s, isKept encodeSlash c = true ∨ c < 16) ∧
        (s.map (encodedWidth encodeSlash)).sum < 2 ^ 32 := by
  have hfactors := factors_encoded encodeSlash s
  have hle := length_le_sum_encodedWidth encodeSlash s
  have hlength := length_encoded encodeSlash s
  -- what the decoder makes of the whole text
  have hdecoded : (s.map (encodedElement encodeSlash)).map UriElement.decoded = s ↔
      ∀ c ∈ s, isKept encodeSlash c = true ∨ c < 16 := by
    rw [List.map_map, map_eq_self_iff]
    simp only [Function.comp_apply, (encodedElement_classes _ _).2]
  constructor
  · rintro ⟨rounds, text, rounds', hencode, hdecode⟩
    have hshort : s.length < 2 ^ 32 := by
      by_contra hlong
      exact uriEncode_of_le (by omega) encodeSlash rounds text hencode
    obtain rfl : text = s.flatMap (uriEncodeChar encodeSlash) :=
      loop_unique hencode (uriEncode_of_lt hshort encodeSlash)
    have htext : (s.flatMap (uriEncodeChar encodeSlash)).length < 2 ^ 32 := by
      by_contra hlong
      obtain ⟨hret, -⟩ := uriDecode_of_le (by omega) hdecode
      cases hret
    have hresult := uriDecode_unique hdecode (uriDecode_of_lt htext out)
    rw [uriRun_of_factors hfactors] at hresult
    exact ⟨hdecoded.mp (Prod.mk.inj hresult).2.symm, by omega⟩
  · rintro ⟨hkept, hsum⟩
    refine ⟨_, _, _, uriEncode_of_lt (by omega) encodeSlash, uriDecode_of_lt (by omega) out |>.trans ?_⟩
    rw [uriRun_of_factors hfactors, hdecoded.mpr hkept]
    rfl

-- A blank comes back as a NUL.
theorem uriRoundTrips_blank : ¬UriRoundTrips [32] true [] := by
  rintro ⟨rounds, text, rounds', hencode, hdecode⟩
  have hblank : uriEncode 2 [32] true = some [37, 50, 48] := by decide +kernel
  have hnul : uriDecode 4 [37, 50, 48] [] = some (0, [0]) := by decide +kernel
  obtain rfl := loop_unique hencode hblank
  cases uriDecode_unique hdecode hnul

end AsrServiceProxy.StringUtil

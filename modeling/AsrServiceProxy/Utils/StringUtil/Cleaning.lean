import AsrServiceProxy.Utils.StringUtil.Lemmas

-- `is_empty`, `trim`, `replace` and `to_bool`, with the functions of the C library
-- that they use.
namespace AsrServiceProxy.StringUtil

open CMemory

-- The size is looked at as an `int`, the bytes up to the first NUL and without their
-- highest bit.
def isEmpty (src : Bytes) : Bool :=
  intOfSize src.length = 0 || (cstr src).all fun b => isspace (b &&& 0x7f)

def trimStops (b : UInt8) : Bool := b &&& 0x80 ≠ 0 || !isspace b

-- The bounds and the count are `int`s, and a count that is negative is no size of a
-- string.
def trim (src : Bytes) : Except Exn Bytes :=
  let length := intOfSize src.length
  let last := intOfSize (sizeT (src.length + (2 ^ 64 - 1)))
  let start := (src.take length.toNat).findIdx trimStops
  let body := (src.take (last + 1).toNat).drop start
  let kept := body.take (body.length - body.reverse.findIdx trimStops)
  if kept.length < 2 ^ 31 then .ok kept else .error (.stdLogicError "basic_string::_M_create")

def isdigit (b : UInt8) : Bool := 48 ≤ b && b ≤ 57

def tolower (b : UInt8) : UInt8 := if 65 ≤ b && b ≤ 90 then b + 32 else b

def toLower (src : Bytes) : Bytes := src.map tolower

def numeralValue (digits : Bytes) : ℕ := digits.foldl (fun n d => 10 * n + (d.toNat - 48)) 0

-- A `long` that is converted to an `int`.
@[irreducible] def intOfLong (n : ℤ) : ℤ := n.bmod (2 ^ 32)

-- `atoi`, a `strtol` of base ten that stops at the bounds of a `long`.
def atoi (text : Bytes) : ℤ :=
  match (cstr text).dropWhile isspace with
  | 45 :: rest => intOfLong (max (-2 ^ 63) (-numeralValue (rest.takeWhile isdigit)))
  | 43 :: rest => intOfLong (min (2 ^ 63 - 1) (numeralValue (rest.takeWhile isdigit)))
  | rest => intOfLong (min (2 ^ 63 - 1) (numeralValue (rest.takeWhile isdigit)))

-- `s_trues`
def trues : List Bytes :=
  [ascii "yes", ascii "y", ascii "sure", ascii "true", ascii "t", ascii "ok", ascii "1"]

-- The text is a program argument, which is no longer than `space_trim` can count.
def toBool (sval : Bytes) : Bool :=
  let lval := toLower (Strip.strip isspace (cstr sval))
  lval ∈ trues || atoi lval ≠ 0

def replace (src : Bytes) (s d : UInt8) : Bytes := src.map fun b => if b = s then d else b

theorem isEmpty_nil : isEmpty [] = true := by
  rw [isEmpty, Bool.or_eq_true]
  exact .inr rfl

theorem isEmpty_eq_false_iff {src : Bytes} (h : src.length < 2 ^ 32) :
    isEmpty src = false ↔ ∃ b ∈ cstr src, isspace (b &&& 0x7f) = false := by
  rw [isEmpty, Bool.or_eq_false_iff, List.all_eq_false, decide_eq_false_iff_not]
  simp only [Bool.not_eq_true]
  constructor
  · exact fun hboth => hboth.2
  · rintro ⟨b, hb, hspace⟩
    have hpos : 0 < src.length := List.length_pos_of_mem (List.takeWhile_sublist _ |>.mem hb)
    exact ⟨intOfSize_ne_zero hpos h, b, hb, hspace⟩

theorem byte_classes (b : UInt8) : (!trimStops b) = isspace b ∧
    (isdigit b = true → isspace b = false ∧ b ≠ 0 ∧ b ≠ 43 ∧ b ≠ 45) := by
  revert b
  apply forall_byte
  decide +kernel

theorem not_trimStops (b : UInt8) : (!trimStops b) = isspace b := (byte_classes b).1

theorem drop_findIdx_trimStops (src : Bytes) :
    src.drop (src.findIdx trimStops) = src.dropWhile isspace := by
  induction src with
  | nil => rfl
  | cons b rest ih =>
      have hb := not_trimStops b
      rw [List.findIdx_cons, List.dropWhile_cons, ← hb]
      cases trimStops b with
      | true => rfl
      | false => exact ih

-- Without the white space at its ends.
def stripped (src : Bytes) : Bytes := (src.dropWhile isspace).rdropWhile isspace

theorem length_stripped_le (src : Bytes) : (stripped src).length ≤ src.length :=
  Strip.length_strip_le isspace src

-- `trim` sees as much of the text as an `int` counts, and forgets the white space in
-- front when its length has become the lowest `int`.
theorem trim_eq (src : Bytes) :
    trim src =
      if src.length % 2 ^ 32 < 2 ^ 31 then .ok (stripped (src.take (src.length % 2 ^ 32)))
      else if src.length % 2 ^ 32 = 2 ^ 31 then
        if ((src.take (2 ^ 31)).rdropWhile isspace).length < 2 ^ 31 then
          .ok ((src.take (2 ^ 31)).rdropWhile isspace)
        else .error (.stdLogicError "basic_string::_M_create")
      else .ok [] := by
  have hkept (body : Bytes) : body.take (body.length - body.reverse.findIdx trimStops) =
      body.rdropWhile isspace := by
    rw [List.rdropWhile, ← drop_findIdx_trimStops, List.reverse_drop, List.reverse_reverse,
      List.length_reverse]
  -- the length and the last index as `int`s
  have hlength : (intOfSize src.length).toNat =
      if src.length % 2 ^ 32 < 2 ^ 31 then src.length % 2 ^ 32 else 0 := by
    rw [intOfSize_eq]
    split <;> omega
  have hlast : (intOfSize (sizeT (src.length + (2 ^ 64 - 1))) + 1).toNat =
      if src.length % 2 ^ 32 ≤ 2 ^ 31 then src.length % 2 ^ 32 else 0 := by
    rw [intOfSize_eq, sizeT]
    split <;> split <;> omega
  unfold trim
  dsimp only
  rw [hkept, hlength, hlast]
  generalize src.length % 2 ^ 32 = m
  by_cases hlt : m < 2 ^ 31
  · have hle : m ≤ 2 ^ 31 := by omega
    have hlength := (length_stripped_le (src.take m)).trans (List.length_take_le m src)
    rw [if_pos hlt, if_pos hle, drop_findIdx_trimStops, if_pos hlt, ← stripped,
      if_pos (hlength.trans_lt hlt)]
  · rw [if_neg hlt, if_neg hlt, List.take_zero, List.findIdx_nil, List.drop_zero]
    by_cases heq : m = 2 ^ 31
    · rw [if_pos heq.le, if_pos heq, heq]
    · have hgt : ¬m ≤ 2 ^ 31 := by omega
      rw [if_neg hgt, if_neg heq, List.take_zero]
      rfl

theorem trim_of_lt {src : Bytes} (h : src.length < 2 ^ 31) : trim src = .ok (stripped src) := by
  rw [trim_eq, Nat.mod_eq_of_lt (by omega), if_pos h, List.take_length]

-- Behind a character that is kept nothing in front is lost.
theorem prefix_of_trim {b : UInt8} {rest text : Bytes} (hb : isspace b = false)
    (h : trim (b :: rest) = .ok text) : text <+: b :: rest := by
  have hhead : ¬isspace b = true := by simp [hb]
  have hstripped (m : ℕ) : stripped ((b :: rest).take m) = ((b :: rest).take m).rdropWhile isspace := by
    cases m with
    | zero => rfl
    | succ m => rw [stripped, List.take_succ_cons, List.dropWhile_cons_of_neg hhead]
  have hbegins (m : ℕ) : ((b :: rest).take m).rdropWhile isspace <+: b :: rest :=
    (List.rdropWhile_prefix isspace _).trans (List.take_prefix m _)
  rw [trim_eq, hstripped] at h
  split at h
  · rw [← Except.ok.inj h]
    exact hbegins _
  · split at h
    · split at h
      · rw [← Except.ok.inj h]
        exact hbegins _
      · cases h
    · rw [← Except.ok.inj h]
      exact List.nil_prefix

theorem stripped_of_ends {src : Bytes} (hhead : ∀ b ∈ src.head?, isspace b = false)
    (hlast : ∀ b ∈ src.getLast?, isspace b = false) : stripped src = src :=
  Strip.strip_of_ends hhead hlast

-- Without overflow a numeral has its value.
theorem atoi_of_digits {digits : Bytes} (hne : digits ≠ []) (h : ∀ b ∈ digits, isdigit b = true)
    (hle : numeralValue digits ≤ 2147483647) : atoi digits = numeralValue digits := by
  have hclasses (b : UInt8) : isdigit b = true → isspace b = false ∧ b ≠ 0 ∧ b ≠ 43 ∧ b ≠ 45 :=
    (byte_classes b).2
  have hz : 0 ∉ digits := fun hmem => (hclasses 0 (h 0 hmem)).2.1 rfl
  have hint : intOfLong (numeralValue digits) = numeralValue digits := by
    unfold intOfLong
    apply Int.bmod_eq_of_le_mul_two <;> omega
  have hmin : min (2 ^ 63 - 1) (numeralValue digits : ℤ) = numeralValue digits := by omega
  have htake : digits.takeWhile isdigit = digits := List.takeWhile_eq_self_iff.mpr h
  cases digits with
  | nil => exact absurd rfl hne
  | cons b rest =>
      obtain ⟨hspace, -, hplus, hminus⟩ := hclasses b (h b List.mem_cons_self)
      have hdrop : (b :: rest).dropWhile isspace = b :: rest :=
        List.dropWhile_cons_of_neg (by simp [hspace])
      rw [atoi, (cstr_eq_self_iff _).mpr hz, hdrop]
      split
      next heq => exact absurd (List.cons.inj heq).1 hminus
      next heq => exact absurd (List.cons.inj heq).1 hplus
      next => rw [htake, hmin, hint]

end AsrServiceProxy.StringUtil

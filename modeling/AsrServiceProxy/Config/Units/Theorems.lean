import AsrServiceProxy.Config.PathText.Theorems
import AsrServiceProxy.Config.Units

-- For which numbers and units the durations and sizes are exact.
namespace AsrServiceProxy.Config

open CMemory

-- The units of `parse_duration`, in nanoseconds.
def durationTable : List (Bytes × ℕ) :=
  [([], 1000000), (ascii "ms", 1000000), (ascii "millisecond", 1000000),
    (ascii "milliseconds", 1000000), (ascii "us", 1000), (ascii "microsecond", 1000),
    (ascii "microseconds", 1000), (ascii "ns", 1), (ascii "nanosecond", 1),
    (ascii "nanoseconds", 1), (ascii "s", 1000000000), (ascii "sec", 1000000000),
    (ascii "secs", 1000000000), (ascii "second", 1000000000), (ascii "seconds", 1000000000),
    (ascii "m", 60000000000), (ascii "min", 60000000000), (ascii "mins", 60000000000),
    (ascii "minute", 60000000000), (ascii "minutes", 60000000000), (ascii "h", 3600000000000),
    (ascii "hrs", 3600000000000), (ascii "hour", 3600000000000), (ascii "hours", 3600000000000),
    (ascii "d", 86400000000000), (ascii "day", 86400000000000), (ascii "days", 86400000000000)]

-- The units of HOCON, in bytes: with each prefix the names of its powers of
-- 1000, and those of its powers of 1024.
def decimalSizes : List (Bytes × ℕ) :=
  [("kilo", "k", 1), ("mega", "M", 2), ("giga", "G", 3), ("tera", "T", 4), ("peta", "P", 5),
    ("exa", "E", 6), ("zetta", "Z", 7), ("yotta", "Y", 8)].flatMap fun (name, symbol, power) =>
      [(ascii symbol ++ ascii "B", 1000 ^ power), (ascii name ++ ascii "byte", 1000 ^ power),
        (ascii name ++ ascii "bytes", 1000 ^ power)]

def binarySizes : List (Bytes × ℕ) :=
  [("kibi", "k", "K", 1), ("mebi", "m", "M", 2), ("gibi", "g", "G", 3), ("tebi", "t", "T", 4),
    ("pebi", "p", "P", 5), ("exbi", "e", "E", 6), ("zebi", "z", "Z", 7),
    ("yobi", "y", "Y", 8)].flatMap fun (name, lower, upper, power) =>
      [(ascii lower, 1024 ^ power), (ascii upper, 1024 ^ power),
        (ascii upper ++ ascii "i", 1024 ^ power), (ascii upper ++ ascii "iB", 1024 ^ power),
        (ascii name ++ ascii "byte", 1024 ^ power), (ascii name ++ ascii "bytes", 1024 ^ power)]

def sizeTable : List (Bytes × ℕ) :=
  [(ascii "B", 1), (ascii "b", 1), (ascii "byte", 1), (ascii "bytes", 1)] ++ decimalSizes ++
    binarySizes

-- The exact value, or `ConfigExceptionBadValue` where it does not fit.
def ExactOrThrows (exact : ℕ) (result : Except GetterException UInt64) : Prop :=
  if exact < 2 ^ 64 then ∃ value, result = .ok value ∧ value.toNat = exact
  else ∃ message, result = .error (.badValue message)

def Blank (s : Bytes) : Prop := ∀ b ∈ s, StringUtil.isspace b = true

theorem blank_nil : Blank [] := nofun

def endsWithB (unit : Bytes) : Bool := unit.getLast? = some 66

theorem durationTable_units : ∀ e ∈ durationTable, e.1.all isalpha = true ∧
    durationUnits (plural e.1) = some (UInt64.ofNat e.2) ∧ e.2 < 2 ^ 64 := by
  have hall : durationTable.all (fun e => e.1.all isalpha &&
      (durationUnits (plural e.1) == some (UInt64.ofNat e.2) && decide (e.2 < 2 ^ 64))) = true := by
    decide +kernel
  intro e he
  have h := List.all_eq_true.mp hall e he
  simpa using h

-- The names that end in B are entered with `_b` in the place of B.
theorem sizeTable_units : ∀ e ∈ sizeTable, e.1.all isalpha = true ∧
    (MemoryUnit.parseUnit e.1).map (fun unit => unit.bytes.toNat) =
      if endsWithB e.1 then none else some (e.2 % 2 ^ 64) := by
  have hall : sizeTable.all (fun e => e.1.all isalpha &&
      decide ((MemoryUnit.parseUnit e.1).map (fun unit => unit.bytes.toNat) =
        if endsWithB e.1 then none else some (e.2 % 2 ^ 64))) = true := by
    decide +kernel
  intro e he
  have h := List.all_eq_true.mp hall e he
  simpa using h

section

variable {s core lead mid trail digits unit : Bytes} {b : UInt8} {n factor : ℕ} {units : UInt64}
  {doubles : DoubleProduct} {message : Bytes}

theorem letter_not_space (h : isalpha b = true) : StringUtil.isspace b = false := by
  simp only [isalpha, StringUtil.isspace, Bool.or_eq_true, Bool.and_eq_true, decide_eq_true_eq,
    Bool.or_eq_false_iff, Bool.and_eq_false_iff, decide_eq_false_iff_not, UInt8.le_iff_toNat_le,
    ← UInt8.toNat_inj, UInt8.reduceToNat] at h ⊢
  omega

theorem digit_not_letter (h : (48 ≤ b && b ≤ 57) = true) :
    StringUtil.isspace b = false ∧ isalpha b = false ∧ b ≠ 43 ∧ b ≠ 45 := by
  simp only [isalpha, StringUtil.isspace, Bool.and_eq_true, decide_eq_true_eq, ne_eq,
    Bool.or_eq_false_iff, Bool.and_eq_false_iff, decide_eq_false_iff_not, UInt8.le_iff_toNat_le,
    ← UInt8.toNat_inj, UInt8.reduceToNat] at h ⊢
  omega

theorem space_not_letter (h : StringUtil.isspace b = true) : isalpha b = false := by
  by_contra hne
  rw [letter_not_space (Bool.eq_true_of_not_eq_false hne)] at h
  cases h

theorem digitsValue_spec (h : digitsValue digits = some n) :
    digits ≠ [] ∧ ∀ b ∈ digits, (48 ≤ b && b ≤ 57) = true := by
  cases digits with
  | nil => cases h
  | cons b rest =>
      rw [digitsValue] at h
      split at h
      next hall => exact ⟨List.cons_ne_nil b rest, List.all_eq_true.mp hall⟩
      next => cases h
      · rintro ⟨⟩

theorem lexicalInt64_digits (h : digitsValue digits = some n) :
    lexicalInt64 digits = if n < 2 ^ 63 then some (Int64.ofInt n) else none := by
  obtain ⟨hne, hdigits⟩ := digitsValue_spec h
  have hsigned : signedValue digits = some (n : ℤ) := by
    cases digits with
    | nil => exact absurd rfl hne
    | cons b rest =>
        have hb := digit_not_letter (hdigits b List.mem_cons_self)
        rw [signedValue, h]
        · rfl
        · exact fun _ heq => hb.2.2.2 (List.cons.inj heq).1
        · exact fun _ heq => hb.2.2.1 (List.cons.inj heq).1
  rw [lexicalInt64, hsigned]
  by_cases hn : n < 2 ^ 63
  · rw [if_pos hn]
    exact if_pos (by omega)
  · rw [if_neg hn]
    exact if_neg (by omega)

-- The product is taken modulo 2^64 when the number itself fits.
theorem scaled_digits (doubles : DoubleProduct) (h : digitsValue digits = some n)
    (hunits : units.toNat = factor % 2 ^ 64) :
    (scaled doubles digits units).map UInt64.toNat =
      if n < 2 ^ 63 then some (n * factor % 2 ^ 64) else none := by
  have hall : digits.all (fun b => 48 ≤ b && b ≤ 57) = true :=
    List.all_eq_true.mpr (digitsValue_spec h).2
  rw [scaled, if_pos hall, lexicalInt64_digits h]
  by_cases hn : n < 2 ^ 63
  · rw [if_pos hn, if_pos hn, Option.map_some, Option.map_some, UInt64.toNat_mul, hunits]
    have hcast : (Int64.ofInt n).toUInt64.toNat = n := by
      rw [Int64.ofInt_eq_ofNat, Int64.toUInt64_ofNat', UInt64.toNat_ofNat', Nat.mod_eq_of_lt]
      omega
    rw [hcast, Nat.mul_mod_mod]
  · rw [if_neg hn, if_neg hn]
    rfl

-- The result for a number and a unit: exact as long as nothing is cut off, and
-- an exception when the number alone does not fit.
theorem exactOrThrows_scaled_iff (h : digitsValue digits = some n)
    (hunits : units.toNat = factor % 2 ^ 64) :
    ExactOrThrows (n * factor)
        (match scaled doubles digits units with
        | some value => .ok value
        | none => .error (.badValue message)) ↔
      (n < 2 ^ 63 ↔ n * factor < 2 ^ 64) := by
  have hscaled := scaled_digits doubles h hunits
  rw [ExactOrThrows]
  by_cases hn : n < 2 ^ 63
  · rw [if_pos hn] at hscaled
    obtain ⟨value, hvalue, hnat⟩ := Option.map_eq_some_iff.mp hscaled
    rw [hvalue]
    by_cases hfit : n * factor < 2 ^ 64
    · rw [if_pos hfit]
      rw [Nat.mod_eq_of_lt hfit] at hnat
      exact iff_of_true ⟨value, rfl, hnat⟩ (iff_of_true hn hfit)
    · rw [if_neg hfit]
      exact iff_of_false nofun fun hiff => hfit (hiff.mp hn)
  · rw [if_neg hn] at hscaled
    rw [Option.map_eq_none_iff.mp hscaled]
    by_cases hfit : n * factor < 2 ^ 64
    · rw [if_pos hfit]
      exact iff_of_false nofun fun hiff => hn (hiff.mpr hfit)
    · rw [if_neg hfit]
      exact iff_of_true ⟨message, rfl⟩ (iff_of_false hn hfit)

theorem trimCopy_pad (hlead : Blank lead) (htrail : Blank trail)
    (hfront : ∀ b ∈ core.head?, StringUtil.isspace b = false)
    (hback : ∀ b ∈ core.getLast?, StringUtil.isspace b = false) (hne : core ≠ []) :
    trimCopy (lead ++ core ++ trail) = core := by
  obtain ⟨first, rest, hcore⟩ := List.exists_cons_of_ne_nil hne
  obtain ⟨init, last, hlast⟩ := List.eq_nil_or_concat' core |>.resolve_left hne
  have hf : ¬StringUtil.isspace first = true := by
    rw [hfront first (by rw [hcore]; rfl)]
    exact Bool.false_ne_true
  have hl : ¬StringUtil.isspace last = true := by
    rw [hback last (by rw [hlast, List.getLast?_append]; rfl)]
    exact Bool.false_ne_true
  have hdrop : (lead ++ core ++ trail).dropWhile StringUtil.isspace = core ++ trail := by
    rw [List.append_assoc, List.dropWhile_append_of_pos hlead, hcore, List.cons_append,
      List.dropWhile_cons_of_neg hf]
  rw [trimCopy, hdrop, List.reverse_append,
    List.dropWhile_append_of_pos fun b hb => htrail b (List.mem_reverse.mp hb), hlast,
    List.reverse_append]
  show (List.dropWhile _ (last :: init.reverse)).reverse = _
  rw [List.dropWhile_cons_of_neg hl, List.reverse_cons, List.reverse_reverse]

-- The letters at the end are the unit when what is before them ends in none.
theorem getUnits_append (hunit : unit.all isalpha = true)
    (hlast : ∀ b ∈ s.getLast?, isalpha b = false) :
    SimpleConfig.getUnits (s ++ unit) = unit := by
  have hrest : s.reverse.takeWhile isalpha = [] := by
    rcases List.eq_nil_or_concat' s with rfl | ⟨init, last, rfl⟩
    · rfl
    · rw [List.reverse_append]
      have hneg : ¬isalpha last = true := by
        rw [hlast last (by rw [List.getLast?_append]; rfl)]
        exact Bool.false_ne_true
      exact List.takeWhile_cons_of_neg hneg
  have hall : ∀ b ∈ unit.reverse, isalpha b = true :=
    fun b hb => List.all_eq_true.mp hunit b (List.mem_reverse.mp hb)
  rw [SimpleConfig.getUnits, List.reverse_append, List.takeWhile_append_of_pos hall, hrest,
    List.append_nil, List.reverse_reverse]

theorem digits_ends (hd : ∀ b ∈ digits, (48 ≤ b && b ≤ 57) = true) :
    (∀ b ∈ digits.head?, StringUtil.isspace b = false) ∧
      ∀ b ∈ digits.getLast?, StringUtil.isspace b = false ∧ isalpha b = false := by
  constructor
  · intro b hb
    exact (digit_not_letter (hd b (List.mem_of_mem_head? hb))).1
  · intro b hb
    have hclass := digit_not_letter (hd b (List.mem_of_mem_getLast? hb))
    exact ⟨hclass.1, hclass.2.1⟩

theorem splitUnit_of_trimmed {input : Bytes} (front : Bytes)
    (htrim : trimCopy input = front ++ unit) (hunit : unit.all isalpha = true)
    (hlast : ∀ b ∈ front.getLast?, isalpha b = false)
    (hfront : trimCopy front = digits) : splitUnit input = (digits, unit) := by
  have htake : (front ++ unit).take ((front ++ unit).length - unit.length) = front := by
    rw [List.length_append, Nat.add_sub_cancel, List.take_left]
  rw [splitUnit, htrim, getUnits_append hunit hlast, htake, hfront]

-- White space around the number and at the ends does not count.
theorem splitUnit_eq (h : digitsValue digits = some n) (hlead : Blank lead) (hmid : Blank mid)
    (htrail : Blank trail) (hunit : unit.all isalpha = true) :
    splitUnit (lead ++ digits ++ mid ++ unit ++ trail) = (digits, unit) := by
  obtain ⟨hne, hd⟩ := digitsValue_spec h
  obtain ⟨hhead, hlast⟩ := digits_ends hd
  have hback : ∀ b ∈ digits.getLast?, StringUtil.isspace b = false := fun b hb => (hlast b hb).1
  by_cases hu : unit = []
  · subst hu
    have hspace : Blank (mid ++ trail) := by
      intro b hb
      exact (List.mem_append.mp hb).elim (hmid b) (htrail b)
    have htrim := trimCopy_pad hlead hspace hhead hback hne
    have hself := trimCopy_pad blank_nil blank_nil hhead hback hne
    rw [List.nil_append, List.append_nil] at hself
    refine splitUnit_of_trimmed digits ?_ hunit (fun b hb => (hlast b hb).2) hself
    rw [List.append_nil, List.append_nil, List.append_assoc _ mid trail]
    exact htrim
  · have hfront : trimCopy (digits ++ mid) = digits := trimCopy_pad blank_nil hmid hhead hback hne
    have hends : ∀ b ∈ (digits ++ mid).getLast?, isalpha b = false := by
      intro b hb
      rw [List.getLast?_append, Option.mem_def, Option.or_eq_some_iff] at hb
      rcases hb with hb | ⟨-, hb⟩
      · exact space_not_letter (hmid b (List.mem_of_mem_getLast? hb))
      · exact (hlast b hb).2
    have hcore : ∀ b ∈ (digits ++ mid ++ unit).getLast?, StringUtil.isspace b = false := by
      intro b hb
      rw [List.getLast?_append, Option.mem_def, Option.or_eq_some_iff] at hb
      rcases hb with hb | ⟨hnone, -⟩
      · exact letter_not_space (List.all_eq_true.mp hunit b (List.mem_of_mem_getLast? hb))
      · exact absurd (List.getLast?_eq_none_iff.mp hnone) hu
    have hheads : ∀ b ∈ (digits ++ mid ++ unit).head?, StringUtil.isspace b = false := by
      intro b hb
      obtain ⟨first, rest, rfl⟩ := List.exists_cons_of_ne_nil hne
      exact hhead b hb
    have htrim := trimCopy_pad hlead htrail hheads hcore (by simp [hne])
    refine splitUnit_of_trimmed (digits ++ mid) ?_ hunit hends hfront
    rw [← htrim]
    simp only [List.append_assoc]

theorem parseDuration_exact_iff (hlead : Blank lead) (h : digitsValue digits = some n)
    (hmid : Blank mid) (hunit : (unit, factor) ∈ durationTable) (path : Bytes) :
    ExactOrThrows (n * factor)
        (SimpleConfig.parseDuration doubles (lead ++ digits ++ mid ++ unit) path) ↔
      (n < 2 ^ 63 ↔ n * factor < 2 ^ 64) := by
  obtain ⟨halpha, hunits, hfactor⟩ := durationTable_units _ hunit
  have hsplit := splitUnit_eq h hlead hmid blank_nil halpha
  rw [List.append_nil] at hsplit
  rw [SimpleConfig.parseDuration, hsplit]
  simp only
  rw [if_neg (digitsValue_spec h).1, hunits]
  exact exactOrThrows_scaled_iff h UInt64.toNat_ofNat'

-- The exact number of nanoseconds, or an exception.
def MillisExact (millis : ℤ) (result : Except GetterException UInt64) : Prop :=
  (∃ value, result = .ok value ∧ (value.toNat : ℤ) = millis * 1000000) ∨
    ∃ e, result = .error e ∧ ∀ message, e ≠ .undefinedBehaviour message

theorem getNanoseconds_exact_iff {casts : Doubles} {newId : ℕ} {object : Value ℕ} {path : Bytes}
    {millis : ℤ} (h : SimpleConfig.getInt64 casts doubles newId object path = .ok millis) :
    MillisExact millis (SimpleConfig.getNanoseconds casts doubles newId object path) ↔
      0 ≤ millis ∧ millis * 1000000 < 2 ^ 63 := by
  unfold SimpleConfig.getNanoseconds
  rw [h]
  dsimp only [bind, Except.bind]
  by_cases hfit : 0 ≤ millis ∧ millis * 1000000 < 2 ^ 63
  · rw [signed_some (by omega)]
    refine iff_of_true (.inl ⟨_, rfl, ?_⟩) hfit
    obtain ⟨n, hn⟩ := Int.eq_ofNat_of_zero_le (show 0 ≤ millis * 1000000 by omega)
    rw [hn, Int64.ofInt_eq_ofNat, Int64.toUInt64_ofNat', UInt64.toNat_ofNat', Nat.mod_eq_of_lt]
    omega
  · refine iff_of_false (fun hexact => ?_) hfit
    by_cases hsigned : -2 ^ 63 ≤ millis * 1000000 ∧ millis * 1000000 < 2 ^ 63
    · rw [signed_some hsigned] at hexact
      rcases hexact with ⟨value, -, hvalue⟩ | ⟨e, he, -⟩
      · omega
      · cases he
    · rw [signed, if_neg hsigned] at hexact
      rcases hexact with ⟨value, hvalue, -⟩ | ⟨e, he, hne⟩
      · cases hvalue
      · cases he
        exact hne _ rfl

theorem durations_exact_iff (casts : Doubles) (doubles : DoubleProduct) (path : Bytes) :
    (∀ lead digits mid unit n factor, Blank lead → digitsValue digits = some n → Blank mid →
      (unit, factor) ∈ durationTable →
      (ExactOrThrows (n * factor)
          (SimpleConfig.parseDuration doubles (lead ++ digits ++ mid ++ unit) path) ↔
        (n < 2 ^ 63 ↔ n * factor < 2 ^ 64))) ∧
    ∀ newId object millis, SimpleConfig.getInt64 casts doubles newId object path = .ok millis →
      (MillisExact millis (SimpleConfig.getNanoseconds casts doubles newId object path) ↔
        0 ≤ millis ∧ millis * 1000000 < 2 ^ 63) := by
  constructor
  · intro lead digits mid unit n factor hlead h hmid hunit
    exact parseDuration_exact_iff hlead h hmid hunit path
  · intro newId object millis h
    exact getNanoseconds_exact_iff h

theorem parseBytes_exact_iff (hlead : Blank lead) (h : digitsValue digits = some n)
    (hmid : Blank mid) (hunit : (unit, factor) ∈ sizeTable) (htrail : Blank trail) (path : Bytes) :
    ExactOrThrows (n * factor)
        (SimpleConfig.parseBytes doubles (lead ++ digits ++ mid ++ unit ++ trail) path) ↔
      if endsWithB unit then 2 ^ 64 ≤ n * factor else (n < 2 ^ 63 ↔ n * factor < 2 ^ 64) := by
  obtain ⟨halpha, hunits⟩ := sizeTable_units _ hunit
  rw [SimpleConfig.parseBytes, splitUnit_eq h hlead hmid htrail halpha]
  simp only
  rw [if_neg (digitsValue_spec h).1]
  by_cases hb : endsWithB unit = true
  · rw [if_pos hb] at hunits
    rw [if_pos hb, Option.map_eq_none_iff.mp hunits, ExactOrThrows]
    by_cases hfit : n * factor < 2 ^ 64
    · rw [if_pos hfit]
      exact iff_of_false nofun (Nat.not_le.mpr hfit)
    · rw [if_neg hfit]
      exact iff_of_true ⟨_, rfl⟩ (Nat.not_lt.mp hfit)
  · rw [if_neg hb] at hunits
    obtain ⟨units, hparse, hnat⟩ := Option.map_eq_some_iff.mp hunits
    rw [if_neg hb, hparse]
    exact exactOrThrows_scaled_iff h hnat

end

-- A config with the one field `a`, and no floating point.
def oneNumber (millis : Int32) : Value ℕ :=
  .simpleConfigObject 0 [(ascii "a", .configInt 1 millis [])] false

def noCasts : Doubles := ⟨fun _ => none, id⟩

def noProducts : DoubleProduct := fun _ _ => none

theorem durations_exact_iff_seconds :
    (ExactOrThrows (20 * 1000000000) (SimpleConfig.parseDuration noProducts
        ([32] ++ ascii "20" ++ [32] ++ ascii "s") (ascii "a")) ↔
      (20 < 2 ^ 63 ↔ 20 * 1000000000 < 2 ^ 64)) ∧
    (MillisExact 5 (SimpleConfig.getNanoseconds noCasts noProducts 2 (oneNumber 5) (ascii "a")) ↔
      0 ≤ (5 : ℤ) ∧ (5 : ℤ) * 1000000 < 2 ^ 63) := by
  have hblank : Blank [32] := List.forall_mem_singleton.mpr rfl
  have hunit : (ascii "s", 1000000000) ∈ durationTable := by decide
  obtain ⟨hparse, hget⟩ := durations_exact_iff noCasts noProducts (ascii "a")
  exact ⟨hparse [32] (ascii "20") [32] (ascii "s") 20 1000000000 hblank rfl hblank hunit,
    hget 2 (oneNumber 5) 5 rfl⟩

-- 2 * 10^19 nanoseconds are cut to 64 bits, and -1 millisecond is converted to
-- an unsigned number.
theorem not_durations_exact :
    ¬ExactOrThrows (20000000000 * 1000000000)
        (SimpleConfig.parseDuration noProducts (ascii "20000000000s") (ascii "a")) ∧
      ¬MillisExact (-1)
        (SimpleConfig.getNanoseconds noCasts noProducts 2 (oneNumber (-1)) (ascii "a")) := by
  constructor
  · have hunit : (ascii "s", 1000000000) ∈ durationTable := by decide
    have hdigits : digitsValue (ascii "20000000000") = some 20000000000 := rfl
    intro h
    have hfits := (parseDuration_exact_iff blank_nil hdigits blank_nil hunit (ascii "a")).mp h
    exact absurd hfits (by decide)
  · rw [getNanoseconds_exact_iff (show SimpleConfig.getInt64 noCasts noProducts 2 (oneNumber (-1))
      (ascii "a") = .ok (-1) from rfl)]
    decide

theorem parseBytes_exact_iff_kilobytes :
    ExactOrThrows (12 * 1000) (SimpleConfig.parseBytes noProducts
        ([] ++ ascii "12" ++ [32] ++ ascii "kilobytes" ++ []) (ascii "a")) ↔
      if endsWithB (ascii "kilobytes") then 2 ^ 64 ≤ 12 * 1000
      else (12 < 2 ^ 63 ↔ 12 * 1000 < 2 ^ 64) := by
  have hunit : (ascii "kilobytes", 1000) ∈ sizeTable := by decide
  exact parseBytes_exact_iff blank_nil rfl (List.forall_mem_singleton.mpr rfl) hunit blank_nil
    (ascii "a")

-- `5MB` is refused, and 2^34 times 2^30 bytes are cut to 0.
theorem not_parseBytes_exact :
    ¬ExactOrThrows (5 * 1000 ^ 2) (SimpleConfig.parseBytes noProducts (ascii "5MB") (ascii "a")) ∧
      ¬ExactOrThrows (17179869184 * 1024 ^ 3)
        (SimpleConfig.parseBytes noProducts (ascii "17179869184G") (ascii "a")) := by
  constructor
  · intro h
    rw [ExactOrThrows, if_pos (by decide)] at h
    obtain ⟨value, hvalue, -⟩ := h
    have hrefused : (SimpleConfig.parseBytes noProducts (ascii "5MB") (ascii "a")).isOk = false :=
      rfl
    rw [hvalue] at hrefused
    cases hrefused
  · intro h
    rw [ExactOrThrows, if_neg (by decide)] at h
    obtain ⟨message, hmessage⟩ := h
    have hcut : SimpleConfig.parseBytes noProducts (ascii "17179869184G") (ascii "a") = .ok 0 := rfl
    rw [hcut] at hmessage
    cases hmessage

end AsrServiceProxy.Config

import AsrServiceProxy.Config.Data

-- An integer that is printed is read back.
namespace AsrServiceProxy.Config

open CMemory

-- The byte of a decimal digit.
def IsDigit (b : UInt8) : Prop := 48 ≤ b ∧ b ≤ 57

theorem digit_toNat {d : ℕ} (h : d < 10) : (UInt8.ofNat (48 + d)).toNat = 48 + d := by
  rw [UInt8.toNat_ofNat']
  omega

theorem isDigit_digit {d : ℕ} (h : d < 10) : IsDigit (UInt8.ofNat (48 + d)) := by
  have hd := digit_toNat h
  constructor
  · rw [UInt8.le_iff_toNat_le, hd]
    exact Nat.le_add_right 48 d
  · rw [UInt8.le_iff_toNat_le, hd]
    show 48 + d ≤ 57
    omega

theorem decimal_ne_nil (n : ℕ) : decimal n ≠ [] := by
  by_cases hn : n = 0
  · simp [decimal, hn]
  · simp [decimal, hn, Nat.digits_ne_nil_iff_ne_zero]

theorem isDigit_of_mem_decimal {n : ℕ} {b : UInt8} (h : b ∈ decimal n) : IsDigit b := by
  by_cases hn : n = 0
  · obtain rfl : b = 48 := by simpa [decimal, hn] using h
    exact ⟨by decide, by decide⟩
  · obtain ⟨d, hd, rfl⟩ : ∃ d ∈ Nat.digits 10 n, UInt8.ofNat (48 + d) = b := by
      simpa [decimal, hn] using h
    exact isDigit_digit (Nat.digits_lt_base (by omega) hd)

-- The digits are read from the most significant one on.
theorem foldl_digits (digits : List ℕ) (h : ∀ d ∈ digits, d < 10) :
    ((digits.map fun d => UInt8.ofNat (48 + d)).reverse).foldl
      (fun n b => 10 * n + (b.toNat - 48)) 0 = Nat.ofDigits 10 digits := by
  rw [List.foldl_reverse]
  induction digits with
  | nil => rfl
  | cons d rest ih =>
      have hd := digit_toNat (h d List.mem_cons_self)
      have hrest := ih fun d' hd' => h d' (List.mem_cons_of_mem d hd')
      rw [List.map_cons, List.foldr_cons, hrest, hd, Nat.ofDigits_cons]
      omega

theorem digitsValue_decimal (n : ℕ) : digitsValue (decimal n) = some n := by
  have hall : (decimal n).all (fun b => decide (48 ≤ b) && decide (b ≤ 57)) = true := by
    rw [List.all_eq_true]
    intro b hb
    obtain ⟨hlo, hhi⟩ := isDigit_of_mem_decimal hb
    simp [hlo, hhi]
  have hval : (decimal n).foldl (fun n b => 10 * n + (b.toNat - 48)) 0 = n := by
    by_cases hn : n = 0
    · subst n
      rfl
    · rw [decimal, if_neg hn, foldl_digits _ fun d hd => Nat.digits_lt_base (by omega) hd,
        Nat.ofDigits_digits]
  cases hd : decimal n with
  | nil => exact absurd hd (decimal_ne_nil n)
  | cons b rest =>
      rw [hd] at hall hval
      simp only [digitsValue, hall, ite_true, hval]

-- No digit is a sign.
theorem signedValue_decimal (n : ℕ) : signedValue (decimal n) = some (n : ℤ) := by
  have hsign : ∀ b rest, decimal n = b :: rest → b ≠ 45 ∧ b ≠ 43 := by
    intro b rest heq
    have hb : IsDigit b := isDigit_of_mem_decimal (by rw [heq]; exact List.mem_cons_self)
    constructor
    · rintro rfl
      exact absurd hb.1 (by decide)
    · rintro rfl
      exact absurd hb.1 (by decide)
  have hvalue := digitsValue_decimal n
  cases hd : decimal n with
  | nil => exact absurd hd (decimal_ne_nil n)
  | cons b rest =>
      obtain ⟨hminus, hplus⟩ := hsign b rest hd
      rw [hd] at hvalue
      rw [signedValue.eq_3 (b :: rest) (fun _ h => hminus (List.cons.inj h).1)
        (fun _ h => hplus (List.cons.inj h).1), hvalue]
      rfl

theorem signedValue_lexicalString (n : ℤ) : signedValue (lexicalString n) = some n := by
  by_cases hneg : n < 0
  · have habs : -(n.natAbs : ℤ) = n := by omega
    simp only [lexicalString, hneg, ite_true, signedValue, digitsValue_decimal, Option.map_some,
      habs]
  · have habs : (n.natAbs : ℤ) = n := by omega
    simp only [lexicalString, hneg, ite_false, signedValue_decimal, habs]

theorem lexicalInt64_lexicalString (n : Int64) :
    lexicalInt64 (lexicalString n.toInt) = some n := by
  simp only [lexicalInt64, signedValue_lexicalString]
  rw [if_pos ⟨n.le_toInt, n.toInt_lt⟩, Int64.ofInt_toInt]

theorem newNumber_data {ι : Type} (id : ι) (n : Int64) (text : Bytes) :
    (newNumber id n text).data = some (.number n) := by
  by_cases hn : n ≤ Int32.maxValue.toInt64 ∧ Int32.minValue.toInt64 ≤ n
  · have hback : n.toInt32.toInt64 = n := by
      obtain ⟨hhi, hlo⟩ := hn
      rw [Int64.le_iff_toInt_le] at hhi hlo
      rw [← Int64.toInt_inj, Int32.toInt_toInt64, Int64.toInt_toInt32]
      have hmax : Int32.maxValue.toInt64.toInt = 2147483647 := by decide
      have hmin : Int32.minValue.toInt64.toInt = -2147483648 := by decide
      rw [hmax] at hhi
      rw [hmin] at hlo
      apply Int.bmod_eq_of_le
      · omega
      · omega
    rw [newNumber, if_pos hn, Value.data, hback]
  · rw [newNumber, if_neg hn, Value.data]

mutual

-- What the parser makes of data holds the data.
theorem value_data (d : Data) : d.value.data = some d := by
  cases d with
  | null => rfl
  | boolean b => rfl
  | number n => exact newNumber_data () n _
  | string s => rfl
  | list elements => simp [Data.value, Value.data, valueAll_data elements]
  | object fields => simp [Data.value, Value.data, valueFields_data fields]

theorem valueAll_data (ds : List Data) : dataAll (valueAll ds) = some ds := by
  match ds with
  | [] => rfl
  | d :: rest => simp [valueAll, dataAll, value_data d, valueAll_data rest]

theorem valueFields_data (fields : List (Bytes × Data)) :
    dataFields (valueFields fields) = some fields := by
  match fields with
  | [] => rfl
  | (key, d) :: rest => simp [valueFields, dataFields, value_data d, valueFields_data rest]

end

end AsrServiceProxy.Config

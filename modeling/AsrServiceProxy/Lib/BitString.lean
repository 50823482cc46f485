import Mathlib.Algebra.GroupWithZero.Nat
import Mathlib.Tactic.Ring

-- Strings of bits: numbers of a fixed width one after the other, the most significant
-- bit first, and the numbers that such a string is cut into.
namespace BitString

def bits : ℕ → ℕ → List Bool
  | 0, _ => []
  | width + 1, n => (n / 2 ^ width % 2 = 1) :: bits width n

def number (string : List Bool) : ℕ := string.foldl (fun n bit => 2 * n + bit.toNat) 0

-- The first `count` numbers of the string.
def numbers (width : ℕ) : ℕ → List Bool → List ℕ
  | 0, _ => []
  | count + 1, string => number (string.take width) :: numbers width count (string.drop width)

@[simp] theorem length_bits (width n : ℕ) : (bits width n).length = width := by
  induction width with
  | zero => rfl
  | succ width ih => rw [bits, List.length_cons, ih]

@[simp] theorem length_numbers (width count : ℕ) (string : List Bool) :
    (numbers width count string).length = count := by
  induction count generalizing string with
  | zero => rfl
  | succ count ih => rw [numbers, List.length_cons, ih]

-- Bits above the width do not matter.
theorem bits_add_mul (width n m : ℕ) : bits width (m * 2 ^ width + n) = bits width n := by
  have hhigh (extra m : ℕ) : bits width (m * 2 ^ (width + extra) + n) = bits width n := by
    induction width generalizing extra with
    | zero => rfl
    | succ width ih =>
        have hpow : 2 ^ (width + 1 + extra) = 2 ^ width * (2 * 2 ^ extra) := by ring
        have hdiv : (m * 2 ^ (width + 1 + extra) + n) / 2 ^ width =
            2 * (m * 2 ^ extra) + n / 2 ^ width := by
          have hmul : m * 2 ^ (width + 1 + extra) = 2 ^ width * (2 * (m * 2 ^ extra)) := by
            rw [hpow]
            ring
          rw [hmul, Nat.mul_add_div (Nat.two_pow_pos width)]
        rw [bits, bits, hdiv, Nat.mul_add_mod, Nat.add_right_comm, Nat.add_assoc, ih]
  exact hhigh 0 m

-- The bits of two numbers after one another.
theorem bits_append (high low n m : ℕ) (hm : m < 2 ^ low) :
    bits high n ++ bits low m = bits (high + low) (n * 2 ^ low + m) := by
  induction high with
  | zero =>
      rw [Nat.zero_add, bits_add_mul]
      rfl
  | succ high ih =>
      have hdiv : (n * 2 ^ low + m) / 2 ^ (high + low) = n / 2 ^ high := by
        rw [Nat.add_comm high low, pow_add, ← Nat.div_div_eq_div_mul, Nat.mul_comm n,
          Nat.mul_add_div (Nat.two_pow_pos low), Nat.div_eq_of_lt hm, Nat.add_zero]
      rw [bits, List.cons_append, ih, Nat.succ_add, bits, hdiv]

theorem bits_split (high low n : ℕ) :
    bits (high + low) n = bits high (n / 2 ^ low) ++ bits low (n % 2 ^ low) := by
  rw [bits_append _ _ _ _ (Nat.mod_lt n (Nat.two_pow_pos low)), Nat.div_add_mod']

theorem number_append (front back : List Bool) :
    number (front ++ back) = number front * 2 ^ back.length + number back := by
  have hfold (n : ℕ) : back.foldl (fun n bit => 2 * n + bit.toNat) n =
      n * 2 ^ back.length + number back := by
    induction back generalizing n with
    | nil => rw [List.foldl_nil, List.length_nil, pow_zero, Nat.mul_one]; rfl
    | cons bit back ih =>
        have hnumber : number (bit :: back) = bit.toNat * 2 ^ back.length + number back :=
          (ih (2 * 0 + bit.toNat)).trans (by rw [Nat.mul_zero, Nat.zero_add])
        rw [List.foldl_cons, ih, hnumber, List.length_cons, pow_succ]
        ring
  rw [number, List.foldl_append]
  exact hfold _

theorem number_lt (string : List Bool) : number string < 2 ^ string.length := by
  induction string with
  | nil => exact Nat.one_pos
  | cons bit string ih =>
      rw [← List.singleton_append, number_append, List.length_append, List.length_singleton,
        pow_add, pow_one]
      have hbit : number [bit] ≤ 1 := by cases bit <;> decide
      have hmul := Nat.mul_le_mul_right (2 ^ string.length) hbit
      omega

theorem bits_number (string : List Bool) : bits string.length (number string) = string := by
  induction string with
  | nil => rfl
  | cons bit string ih =>
      have hsplit : number (bit :: string) =
          number [bit] * 2 ^ string.length + number string := number_append [bit] string
      have hdiv : number (bit :: string) / 2 ^ string.length = number [bit] := by
        rw [hsplit, Nat.mul_comm, Nat.mul_add_div (Nat.two_pow_pos _),
          Nat.div_eq_of_lt (number_lt string), Nat.add_zero]
      have hbit : decide (number [bit] % 2 = 1) = bit := by cases bit <;> decide
      rw [List.length_cons, bits, hdiv, hbit, hsplit, bits_add_mul, ih]

theorem number_bits (width n : ℕ) : number (bits width n) = n % 2 ^ width := by
  induction width with
  | zero => rw [pow_zero, Nat.mod_one]; rfl
  | succ width ih =>
      rw [bits, ← List.singleton_append, number_append, ih, length_bits, pow_succ, Nat.mod_mul]
      have hbit : number [decide (n / 2 ^ width % 2 = 1)] = n / 2 ^ width % 2 := by
        rcases Nat.mod_two_eq_zero_or_one (n / 2 ^ width) with h | h <;> rw [h] <;> rfl
      rw [hbit]
      ring

theorem numbers_append {width count : ℕ} {string : List Bool} (h : width * count ≤ string.length)
    (rest : List Bool) : numbers width count (string ++ rest) = numbers width count string := by
  induction count generalizing string with
  | zero => rfl
  | succ count ih =>
      rw [Nat.mul_succ] at h
      have hdrop : width * count ≤ (string.drop width).length := by
        rw [List.length_drop]
        omega
      rw [numbers, numbers, List.take_append_of_le_length (by omega),
        List.drop_append_of_le_length (by omega), ih hdrop]

theorem numbers_bits (width count n : ℕ) (rest : List Bool) :
    numbers width (count + 1) (bits width n ++ rest) =
      n % 2 ^ width :: numbers width count rest := by
  have hlength := length_bits width n
  rw [numbers, List.take_left' hlength, List.drop_left' hlength, number_bits]

theorem numbers_bits_of_lt {width n : ℕ} (h : n < 2 ^ width) (count : ℕ) (rest : List Bool) :
    numbers width (count + 1) (bits width n ++ rest) = n :: numbers width count rest := by
  rw [numbers_bits, Nat.mod_eq_of_lt h]

-- Cutting the string again gives the numbers back.
theorem numbers_flatMap {width : ℕ} (values : List ℕ) (h : ∀ n ∈ values, n < 2 ^ width)
    (count : ℕ) (rest : List Bool) :
    numbers width (values.length + count) (values.flatMap (bits width) ++ rest) =
      values ++ numbers width count rest := by
  induction values with
  | nil =>
      rw [List.length_nil, Nat.zero_add]
      rfl
  | cons n values ih =>
      have ⟨hn, hvalues⟩ := List.forall_mem_cons.mp h
      rw [List.length_cons, Nat.succ_add, List.flatMap_cons, List.append_assoc,
        numbers_bits_of_lt hn, ih hvalues, List.cons_append]

theorem take_numbers (width count more : ℕ) (string : List Bool) :
    (numbers width (count + more) string).take count = numbers width count string := by
  induction count generalizing string with
  | zero => rfl
  | succ count ih => rw [Nat.succ_add, numbers, numbers, List.take_succ_cons, ih]

theorem numbers_lt {width count : ℕ} {string : List Bool} (h : width * count ≤ string.length) :
    ∀ n ∈ numbers width count string, n < 2 ^ width := by
  induction count generalizing string with
  | zero => nofun
  | succ count ih =>
      rw [Nat.mul_succ] at h
      have htake : (string.take width).length = width := by
        rw [List.length_take]
        omega
      have hdrop : width * count ≤ (string.drop width).length := by
        rw [List.length_drop]
        omega
      have hfirst := number_lt (string.take width)
      rw [htake] at hfirst
      rw [numbers]
      exact List.forall_mem_cons.mpr ⟨hfirst, ih hdrop⟩

-- A string of full width is the bits of its numbers.
theorem flatMap_numbers (width count : ℕ) (string : List Bool)
    (h : string.length = width * count) :
    (numbers width count string).flatMap (bits width) = string := by
  induction count generalizing string with
  | zero => exact (List.length_eq_zero_iff.mp h).symm
  | succ count ih =>
      rw [Nat.mul_succ] at h
      have htake : (string.take width).length = width := by
        rw [List.length_take]
        omega
      have hdrop : (string.drop width).length = width * count := by
        rw [List.length_drop]
        omega
      have hfirst := bits_number (string.take width)
      rw [htake] at hfirst
      rw [numbers, List.flatMap_cons, hfirst, ih _ hdrop, List.take_append_drop]

end BitString

import AsrServiceProxy.Utils.StringUtil.Cleaning

-- `trim` with the reads that it makes, index by index, against `space_trim`.
namespace AsrServiceProxy.StringUtil

open CMemory Strip

-- The bytes that `std::string(c_str + start, count)` copies.
def copyAt (src : Bytes) (start count : ℤ) : Except Fault Bytes :=
  if 0 ≤ start ∧ 0 ≤ count ∧ start + count ≤ src.length then
    .ok ((src.drop start.toNat).take count.toNat)
  else .error (.outside start)

-- The loops of `trim` do not leave the range of `int`, in which their bounds are.
def trimStart (src : Bytes) (length start : ℤ) : Except Fault ℤ :=
  if start < length then do
    let c ← charAt src start
    if trimStops c then return start else trimStart src length (start + 1)
  else return start
termination_by (length - start).toNat

def trimEnd (src : Bytes) (start last : ℤ) : Except Fault ℤ :=
  if start ≤ last then do
    let c ← charAt src last
    if trimStops c then return last else trimEnd src start (last - 1)
  else return last
termination_by (last + 1 - start).toNat

def trimAt (src : Bytes) : Except Fault Bytes := do
  let last := intOfSize (sizeT (src.length + (2 ^ 64 - 1)))
  let length := intOfSize src.length
  let start ← trimStart src length 0
  let last ← trimEnd src start last
  if last < start then return []
  else copyAt src start (← int ((← int (last - start)) + 1))

section

variable {src : Bytes}

theorem trimStart_eq {i : ℕ} (h : i ≤ src.length) :
    trimStart src src.length i = .ok (i + ((src.drop i).takeWhile isspace).length : ℕ) := by
  induction hn : src.length - i generalizing i with
  | zero =>
      have hi : i = src.length := by omega
      rw [trimStart, if_neg (by omega), hi, List.drop_length]
      simp [pure, Except.pure]
  | succ n ih =>
      have hlt : i < src.length := by omega
      have hnext := ih (i := i + 1) (by omega) (by omega)
      have hstops := not_trimStops src[i]
      rw [trimStart, if_pos (by omega), charAt_eq hlt, List.drop_eq_getElem_cons hlt,
        List.takeWhile_cons, ← hstops]
      cases hstop : trimStops src[i] with
      | true => simp [bind, Except.bind, pure, Except.pure, hstop]
      | false =>
          push_cast at hnext
          simp [bind, Except.bind, hstop, hnext]
          omega

-- Downwards from behind the index `i + n`.
theorem trimEnd_eq (src : Bytes) {i n : ℕ} (h : i + n ≤ src.length) :
    trimEnd src i ((i + n : ℕ) - 1) =
      .ok ((i + (((src.drop i).take n).rdropWhile isspace).length : ℕ) - 1) := by
  induction n with
  | zero =>
      rw [trimEnd, if_neg (by omega)]
      simp [pure, Except.pure]
  | succ n ih =>
      have hlt : i + n < src.length := by omega
      have hstops := not_trimStops src[i + n]
      have hlast : ((i + (n + 1) : ℕ) : ℤ) - 1 = (i + n : ℕ) := by omega
      have htake : (src.drop i).take (n + 1) = (src.drop i).take n ++ [src[i + n]] := by
        rw [List.take_succ_eq_append_getElem (by rw [List.length_drop]; omega), List.getElem_drop]
      rw [trimEnd, if_pos (by omega), hlast, charAt_eq hlt, htake, List.rdropWhile_concat, ← hstops]
      cases hstop : trimStops src[i + n] with
      | true =>
          have hmin : min n (src.length - i) = n := by omega
          simp [bind, Except.bind, pure, Except.pure, hstop, hmin]
          omega
      | false => simpa [bind, Except.bind, hstop] using ih (by omega)

theorem lastIndex_eq {n : ℕ} (h : n < 2 ^ 31) :
    intOfSize (sizeT (n + (2 ^ 64 - 1))) = (n : ℤ) - 1 := by
  rw [intOfSize_eq, sizeT]
  split <;> omega

theorem trimAt_of_lt (h : src.length < 2 ^ 31) : trimAt src = .ok (strip isspace src) := by
  have hlength := intOfSize_of_lt h
  have hlast := lastIndex_eq h
  have hfront : (src.takeWhile isspace).length ≤ src.length :=
    (List.takeWhile_prefix isspace).length_le
  have hstart := trimStart_eq (Nat.zero_le src.length)
  have hend := trimEnd_eq src (i := (src.takeWhile isspace).length)
    (n := src.length - (src.takeWhile isspace).length) (by omega)
  have hstrip : (src.dropWhile isspace).rdropWhile isspace = strip isspace src := by rfl
  have hprefix : strip isspace src <+: src.dropWhile isspace := List.rdropWhile_prefix isspace _
  have hle := length_takeWhile_add_strip_le isspace src
  rw [drop_takeWhile_length, List.take_of_length_le (by simp [← drop_takeWhile_length]), hstrip,
    show (src.takeWhile isspace).length + (src.length - (src.takeWhile isspace).length) = src.length
      by omega] at hend
  rw [Nat.cast_zero, List.drop_zero, Nat.zero_add] at hstart
  rw [trimAt, hlast, hlength]
  simp only [hstart, hend, bind, Except.bind]
  split
  · have hnil : strip isspace src = [] := List.length_eq_zero_iff.mp (by omega)
    rw [hnil]
    simp [pure, Except.pure]
  · rw [int_eq (by omega) (by omega)]
    simp only
    rw [int_eq (by omega) (by omega)]
    simp only
    rw [copyAt, if_pos (by omega), Int.toNat_natCast, drop_takeWhile_length,
      List.prefix_iff_eq_take.mp hprefix]
    congr 2
    rw [← List.prefix_iff_eq_take.mp hprefix]
    omega

-- The two models of `trim` agree as well.
theorem trimAt_eq (h : src.length < 2 ^ 31) : trimAt src = (trim src).mapError .thrown := by
  rw [trimAt_of_lt h, trim_of_lt h]
  simp [stripped, strip, Except.mapError]

-- Both return the string without the white space at its ends, and return it again.
theorem trims_alike (h : src.length < 2 ^ 31) :
    ∃ trimmed, Strips isspace src trimmed ∧
      spaceTrimAt src = .ok trimmed ∧ trimAt src = .ok trimmed ∧
      spaceTrimAt trimmed = .ok trimmed ∧ trimAt trimmed = .ok trimmed := by
  have hagain : (strip isspace src).length < 2 ^ 31 := (length_strip_le isspace src).trans_lt h
  have hspaceTrim := spaceTrimAt_of_lt hagain
  have htrim := trimAt_of_lt hagain
  rw [strip_strip] at hspaceTrim htrim
  exact ⟨strip isspace src, strips_strip isspace src, spaceTrimAt_of_lt h, trimAt_of_lt h,
    hspaceTrim, htrim⟩

-- A NUL between blanks, and a byte above 0x7f.
theorem trims_alike_bytes :
    ∃ trimmed, Strips isspace [32, 9, 0, 200, 10, 32] trimmed ∧
      spaceTrimAt [32, 9, 0, 200, 10, 32] = .ok trimmed ∧
      trimAt [32, 9, 0, 200, 10, 32] = .ok trimmed ∧
      spaceTrimAt trimmed = .ok trimmed ∧ trimAt trimmed = .ok trimmed :=
  trims_alike (by decide)

end

end AsrServiceProxy.StringUtil

import AsrServiceProxy.Lib.CTime

-- Times as text: `strftime` and `strptime` with the conversions for numbers.
namespace CTime

open CMemory

-- What `strftime` prints for a conversion and at least how wide, and between
-- which bounds and in how many digits `strptime` reads it back.
structure Conversion where
  value : Tm → ℤ
  width : ℕ
  low : ℕ
  high : ℕ
  digits : ℕ
  set : Tm → ℕ → Tm

def conversion : UInt8 → Option Conversion
  | 89 => some
      { value := fun tm => tm.year + 1900, width := 1, low := 0, high := 9999, digits := 4
        set := fun tm n => { tm with year := n - 1900 } }
  | 109 => some
      { value := fun tm => tm.mon + 1, width := 2, low := 1, high := 12, digits := 2
        set := fun tm n => { tm with mon := n - 1 } }
  | 100 => some
      { value := fun tm => tm.mday, width := 2, low := 1, high := 31, digits := 2
        set := fun tm n => { tm with mday := n } }
  | 72 => some
      { value := fun tm => tm.hour, width := 2, low := 0, high := 23, digits := 2
        set := fun tm n => { tm with hour := n } }
  | 77 => some
      { value := fun tm => tm.min, width := 2, low := 0, high := 59, digits := 2
        set := fun tm n => { tm with min := n } }
  | 83 => some
      { value := fun tm => tm.sec, width := 2, low := 0, high := 61, digits := 2
        set := fun tm n => { tm with sec := n } }
  | _ => none

def digit (n : ℕ) : UInt8 := UInt8.ofNat (48 + n)

def isdigit (b : UInt8) : Bool := 48 ≤ b && b ≤ 57

-- `isspace` of the C locale.
def isspace (b : UInt8) : Bool := b = 32 || (9 ≤ b && b ≤ 13)

def decimal (n : ℕ) : Bytes := (Nat.toDigits 10 n).map fun c => UInt8.ofNat c.toNat

def number (width : ℕ) (n : ℤ) : Bytes :=
  (if n < 0 then [45] else []) ++
    List.replicate (width - (decimal n.natAbs).length) 48 ++ decimal n.natAbs

def formatText : Bytes → Tm → Bytes
  | 37 :: c :: format, tm =>
      match conversion c with
      | some conv => number conv.width (conv.value tm) ++ formatText format tm
      | none => formatText format tm
  | b :: format, tm => b :: formatText format tm
  | [], _ => []

-- Nothing is stored when the text and its terminator do not fit.
def strftime (max : ℕ) (format : Bytes) (tm : Tm) : Bytes :=
  if (formatText format tm).length < max then formatText format tm else []

-- At most `digits` digits, and no more once a further one must exceed `high`.
def takeDigits (high : ℕ) : ℕ → ℕ → Bytes → ℕ × Bytes
  | 0, val, s => (val, s)
  | _ + 1, val, [] => (val, [])
  | digits + 1, val, b :: s =>
      if isdigit b ∧ val * 10 ≤ high then takeDigits high digits (val * 10 + (b.toNat - 48)) s
      else (val, b :: s)

def getNumber (low high digits : ℕ) (s : Bytes) : Option (ℕ × Bytes) :=
  match s.dropWhile isspace with
  | [] => none
  | b :: rest =>
      let (val, rest) := takeDigits high digits 0 (b :: rest)
      if isdigit b ∧ low ≤ val ∧ val ≤ high then some (val, rest) else none

-- The members that are read, over those that are in `tm`, and the text behind.
def scan : Bytes → Bytes → Tm → Option (Tm × Bytes)
  | 37 :: c :: format, s, tm =>
      match conversion c with
      | some conv => (getNumber conv.low conv.high conv.digits s).bind fun read =>
          scan format read.2 (conv.set tm read.1)
      | none => none
  | b :: format, s, tm =>
      if isspace b then scan format (s.dropWhile isspace) tm
      else
        match s with
        | c :: s => if c = b then scan format s tm else none
        | [] => none
  | [], s, tm => some (tm, s)

-- The day of the week and of the year follow from the date.
def Tm.complete (tm : Tm) : Tm :=
  { tm with wday := ((tm.days + 4) % 7).toNat, yday := tm.dayOfYear }

def strptime (format s : Bytes) (tm : Tm) : Option (Tm × Bytes) :=
  (scan format s tm).map fun read => (read.1.complete, read.2)

section

variable {n high low digits val : ℕ} {c : UInt8} {conv : Conversion} {format s rest : Bytes}
  {tm : Tm}

theorem digit_spec (h : n < 10) :
    isdigit (digit n) = true ∧ (digit n).toNat - 48 = n ∧ isspace (digit n) = false := by
  have hall : ∀ n < 10, isdigit (digit n) = true ∧ (digit n).toNat - 48 = n ∧
      isspace (digit n) = false := by decide
  exact hall n h

theorem decimal_of_lt (h : n < 10) : decimal n = [digit n] := by
  have hall : ∀ n < 10, UInt8.ofNat n.digitChar.toNat = digit n := by decide
  rw [decimal, Nat.toDigits_of_lt_base h, List.map_singleton, hall n h]

theorem decimal_of_le (h : 10 ≤ n) : decimal n = decimal (n / 10) ++ [digit (n % 10)] := by
  have hlast := decimal_of_lt (Nat.mod_lt n (by decide : 0 < 10))
  rw [decimal, Nat.toDigits_of_lt_base (Nat.mod_lt n (by decide))] at hlast
  rw [decimal, Nat.toDigits_of_base_le (by decide) h, List.map_append, hlast]
  rfl

theorem number_two (h : n < 100) : number 2 n = [digit (n / 10), digit (n % 10)] := by
  have hneg : ¬(n : ℤ) < 0 := by omega
  rw [number, if_neg hneg, Int.natAbs_natCast]
  by_cases hten : n < 10
  · rw [decimal_of_lt hten, Nat.div_eq_of_lt hten, Nat.mod_eq_of_lt hten]
    rfl
  · rw [decimal_of_le (by omega), decimal_of_lt (by omega)]
    rfl

theorem number_four (hlow : 1000 ≤ n) (hhigh : n < 10000) : number 1 n =
    [digit (n / 1000), digit (n / 100 % 10), digit (n / 10 % 10), digit (n % 10)] := by
  have hneg : ¬(n : ℤ) < 0 := by omega
  rw [number, if_neg hneg, Int.natAbs_natCast, decimal_of_le (by omega),
    decimal_of_le (n := n / 10) (by omega), decimal_of_le (n := n / 10 / 10) (by omega),
    decimal_of_lt (n := n / 10 / 10 / 10) (by omega)]
  have hhundred : n / 10 / 10 = n / 100 := Nat.div_div_eq_div_mul n 10 10
  have hthousand : n / 100 / 10 = n / 1000 := Nat.div_div_eq_div_mul n 100 10
  rw [hhundred, hthousand]
  rfl

theorem takeDigits_digit {d : ℕ} (hd : d < 10) (hval : val * 10 ≤ high) :
    takeDigits high (n + 1) val (digit d :: s) = takeDigits high n (val * 10 + d) s := by
  obtain ⟨hdigit, hsub, -⟩ := digit_spec hd
  rw [takeDigits, if_pos ⟨hdigit, hval⟩, hsub]

theorem getNumber_digits {d : ℕ} (hd : d < 10) (s : Bytes) :
    getNumber low high digits (digit d :: s) =
      let read := takeDigits high digits 0 (digit d :: s)
      if low ≤ read.1 ∧ read.1 ≤ high then some read else none := by
  obtain ⟨hdigit, -, hspace⟩ := digit_spec hd
  rw [getNumber, List.dropWhile_cons_of_neg (by simp [hspace])]
  simp only [hdigit, true_and]

theorem getNumber_number_two (hlow : low ≤ n) (hhigh : n ≤ high) (h : high < 100) (rest : Bytes) :
    getNumber low high 2 (number 2 n ++ rest) = some (n, rest) := by
  have hn : 0 * 10 + n / 10 = n / 10 := by omega
  have hval : n / 10 * 10 + n % 10 = n := by omega
  rw [number_two (by omega), List.cons_append, List.singleton_append, getNumber_digits (by omega),
    takeDigits_digit (by omega) (by omega), hn, takeDigits_digit (by omega) (by omega), hval]
  exact if_pos ⟨hlow, hhigh⟩

theorem getNumber_number_four (hlow : 1000 ≤ n) (hhigh : n ≤ 9999) (rest : Bytes) :
    getNumber 0 9999 4 (number 1 n ++ rest) = some (n, rest) := by
  have hn : 0 * 10 + n / 1000 = n / 1000 := by omega
  have hhundreds : n / 1000 * 10 + n / 100 % 10 = n / 100 := by omega
  have htens : n / 100 * 10 + n / 10 % 10 = n / 10 := by omega
  have hval : n / 10 * 10 + n % 10 = n := by omega
  rw [number_four hlow (by omega), List.cons_append, List.cons_append, List.cons_append,
    List.singleton_append, getNumber_digits (by omega), takeDigits_digit (by omega) (by omega), hn,
    takeDigits_digit (by omega) (by omega), hhundreds, takeDigits_digit (by omega) (by omega),
    htens, takeDigits_digit (by omega) (by omega), hval]
  exact if_pos ⟨Nat.zero_le n, hhigh⟩

theorem number_two_text (h : n < 100) :
    (number 2 n).length = 2 ∧ ∀ b ∈ number 2 n, isdigit b = true := by
  rw [number_two h]
  refine ⟨rfl, fun b hb => ?_⟩
  simp only [List.mem_cons, List.not_mem_nil, or_false] at hb
  rcases hb with rfl | rfl
  · exact (digit_spec (by omega)).1
  · exact (digit_spec (by omega)).1

theorem number_four_text (hlow : 1000 ≤ n) (hhigh : n ≤ 9999) :
    (number 1 n).length = 4 ∧ ∀ b ∈ number 1 n, isdigit b = true := by
  rw [number_four hlow (by omega)]
  refine ⟨rfl, fun b hb => ?_⟩
  simp only [List.mem_cons, List.not_mem_nil, or_false] at hb
  rcases hb with rfl | rfl | rfl | rfl
  · exact (digit_spec (by omega)).1
  · exact (digit_spec (by omega)).1
  · exact (digit_spec (by omega)).1
  · exact (digit_spec (by omega)).1

theorem scan_conversion (hc : conversion c = some conv)
    (hread : getNumber conv.low conv.high conv.digits s = some (n, rest)) (format : Bytes) :
    scan (37 :: c :: format) s tm = scan format rest (conv.set tm n) := by
  rw [scan, hc]
  show (getNumber _ _ _ s).bind _ = _
  rw [hread]
  rfl

-- A number of two digits between the bounds is read back.
theorem scan_two (low high : ℕ) {value : Tm → ℤ} {set : Tm → ℕ → Tm}
    (hc : conversion c = some { value, width := 2, low, high, digits := 2, set })
    (hn : low ≤ n ∧ n ≤ high) (hmax : high < 100) (format rest : Bytes) :
    scan (37 :: c :: format) (number 2 n ++ rest) tm = scan format rest (set tm n) :=
  scan_conversion hc (getNumber_number_two hn.1 hn.2 hmax rest) format

theorem scan_four (hn : 1000 ≤ n ∧ n ≤ 9999) (format rest : Bytes) :
    scan (37 :: 89 :: format) (number 1 n ++ rest) tm =
      scan format rest { tm with year := n - 1900 } := by
  have hc : conversion 89 = some
      { value := fun tm => tm.year + 1900, width := 1, low := 0, high := 9999, digits := 4
        set := fun tm n => { tm with year := n - 1900 } } := rfl
  exact scan_conversion hc (getNumber_number_four hn.1 hn.2 rest) format

theorem scan_literal {b : UInt8} (hb : b ≠ 37 ∧ isspace b = false) (format s : Bytes) :
    scan (b :: format) (b :: s) tm = scan format s tm := by
  rw [scan, if_neg (by simp [hb.2])]
  · exact if_pos rfl
  · intro c format' h
    exact absurd h hb.1

theorem scan_blank {b : UInt8} (hs : isspace b = false) (format s : Bytes) :
    scan (32 :: format) (32 :: b :: s) tm = scan format (b :: s) tm := by
  rw [scan]
  · show (if true = true then _ else _) = _
    rw [if_pos rfl, List.dropWhile_cons_of_pos rfl, List.dropWhile_cons_of_neg (by simp [hs])]
  · nofun

end

end CTime

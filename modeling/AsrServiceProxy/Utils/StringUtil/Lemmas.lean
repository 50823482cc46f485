import AsrServiceProxy.Lib.Entries
import AsrServiceProxy.Lib.Strip
import AsrServiceProxy.Utils.StringUtil

namespace AsrServiceProxy.StringUtil

open CMemory Strip

variable {str line space : Bytes} {d : UInt8}

theorem splitLoop_eq {fuel : ℕ} (hfuel : str.length ≤ fuel) (result : List Bytes) :
    splitLoop d fuel str result = result ++ str.splitOn d := by
  induction fuel generalizing str result with
  | zero =>
      have hnil := List.length_eq_zero_iff.mp (Nat.le_zero.mp hfuel)
      subst hnil
      rfl
  | succ fuel ih =>
      rw [splitLoop]
      split
      next hnone =>
        have hnot : d ∉ str := by
          intro hmem
          have hall := List.findIdx?_eq_none_iff.mp hnone d hmem
          simp at hall
        rw [List.splitOn_eq_singleton hnot]
      next pos hsome =>
        obtain ⟨hlt, hpos, hbefore⟩ := List.findIdx?_eq_some_iff_getElem.mp hsome
        have hd : str[pos] = d := by simpa using hpos
        have hnot : d ∉ str.take pos := by
          intro hmem
          obtain ⟨i, hi, hget⟩ := List.mem_take_iff_getElem.mp hmem
          have hne := hbefore i (by omega)
          simp only [hget] at hne
          simp at hne
        have hstr : str = str.take pos ++ d :: str.drop (pos + 1) := by
          rw [← hd, List.getElem_cons_drop, List.take_append_drop]
        rw [ih (by rw [List.length_drop]; omega)]
        conv_rhs => rw [hstr, List.splitOn_append_cons_self_of_not_mem hnot]
        rw [List.append_assoc, List.singleton_append]

theorem split_eq_splitOn (str : Bytes) (d : UInt8) : split str d = str.splitOn d := by
  rw [split, splitLoop_eq (Nat.le_refl _), List.nil_append]

theorem rdropWhile_eq_take (p : UInt8 → Bool) (src : Bytes) :
    src.rdropWhile p = src.take (src.length - (src.reverse.takeWhile p).length) := by
  rw [List.rdropWhile, ← Strip.drop_takeWhile_length, List.reverse_drop, List.reverse_reverse,
    List.length_reverse]

theorem charAt_eq {i : ℕ} (h : i < str.length) : charAt str i = .ok str[i] := by
  simp [charAt, h]

theorem int_eq {x : ℤ} (hlow : -2 ^ 31 ≤ x) (hhigh : x < 2 ^ 31) : int x = .ok x := by
  rw [int, signed_some ⟨by simpa using hlow, by simpa using hhigh⟩]
  simp

theorem int_eq_overflow {x : ℤ} (h : x < -2 ^ 31 ∨ 2 ^ 31 ≤ x) : int x = .error .overflow := by
  rw [int, signed, if_neg (by simp; omega)]
  rfl

theorem intOfSize_range (n : ℕ) : -2 ^ 31 ≤ intOfSize n ∧ intOfSize n < 2 ^ 31 := by
  rw [intOfSize_eq]
  split <;> omega

-- Upwards from `i`, as long as the start and the length are `int`s.
theorem spaceTrimFront_eq {i left : ℕ} (hi : i + left = str.length) (hstart : i < 2 ^ 31)
    (length : ℤ) (hlow : -2 ^ 31 ≤ length) (hhigh : length < 2 ^ 31) :
    spaceTrimFront str left i length =
      if i + ((str.drop i).takeWhile isspace).length < 2 ^ 31 ∧
          -2 ^ 31 ≤ length - ((str.drop i).takeWhile isspace).length then
        .ok ((i + ((str.drop i).takeWhile isspace).length : ℕ),
          length - ((str.drop i).takeWhile isspace).length)
      else .error .overflow := by
  induction left generalizing i length with
  | zero =>
      rw [spaceTrimFront, List.drop_eq_nil_of_le (by omega), if_pos (by simp; omega)]
      simp
  | succ left ih =>
      have hlt : i < str.length := by omega
      have hplace : (str.length : ℤ) - (left + 1) = i := by omega
      rw [spaceTrimFront, hplace, charAt_eq hlt, List.drop_eq_getElem_cons hlt, List.takeWhile_cons]
      cases hspace : isspace str[i] with
      | false =>
          rw [if_neg Bool.false_ne_true, if_pos (by simp; omega)]
          simp [bind, Except.bind, pure, Except.pure, hspace]
      | true =>
          rw [if_pos rfl, List.length_cons]
          by_cases hfits : (i : ℤ) + 1 < 2 ^ 31 ∧ -2 ^ 31 ≤ length - 1
          · have hnext := ih (i := i + 1) (by omega) (by omega) (length - 1) hfits.2 (by omega)
            rw [int_eq (by omega) hfits.1, int_eq hfits.2 (by omega)]
            simp only [bind, Except.bind, hspace, Bool.not_true, Bool.false_eq_true, if_false]
            rw [← Nat.cast_succ, hnext]
            push_cast
            rw [sub_sub, add_assoc, add_assoc, add_comm 1, add_comm 1]
          · rw [if_neg (by omega)]
            rcases not_and_or.mp hfits with hstart | hlength
            · rw [int_eq_overflow (.inr (by omega))]
              simp [bind, Except.bind, hspace]
            · rw [int_eq_overflow (x := length - 1) (.inl (by omega))]
              unfold int
              cases signed 32 ((i : ℤ) + 1) <;> simp [bind, Except.bind, hspace]

-- Downwards from `base`, as long as there is an `int` for it.
theorem spaceTrimBack_eq {base : ℕ} (hbase : base ≤ str.length) (length : ℤ)
    (hlow : -2 ^ 31 ≤ length) (hhigh : length < 2 ^ 31) :
    spaceTrimBack str base length =
      if -2 ^ 31 ≤ length - ((str.take base).rtakeWhile isspace).length then
        .ok (length - ((str.take base).rtakeWhile isspace).length)
      else .error .overflow := by
  induction base generalizing length with
  | zero =>
      rw [spaceTrimBack]
      simpa using hlow
  | succ base ih =>
      have hlt : base < str.length := by omega
      rw [spaceTrimBack, charAt_eq hlt, List.take_succ_eq_append_getElem hlt]
      cases hspace : isspace str[base] with
      | false =>
          rw [List.rtakeWhile_concat_neg _ _ _ (by simp [hspace])]
          simpa [bind, Except.bind, pure, Except.pure, hspace] using hlow
      | true =>
          rw [List.rtakeWhile_concat_pos _ _ _ hspace, List.length_append, List.length_singleton]
          by_cases hfits : -2 ^ 31 ≤ length - 1
          · have hnext := ih (by omega) (length - 1) hfits (by omega)
            rw [int_eq hfits (by omega)]
            simp only [bind, Except.bind, hspace, Bool.not_true, Bool.false_eq_true, if_false, hnext,
              Nat.cast_add, Nat.cast_one]
            rw [sub_sub, add_comm (1 : ℤ)]
          · rw [int_eq_overflow (.inl (by omega)), if_neg (by omega)]
            simp [bind, Except.bind, hspace]

-- The `length` that the loops of `space_trim` come to. The white space of a text that has
-- nothing else is taken away twice.
def keptLength (src : Bytes) : ℤ :=
  intOfSize src.length - (src.takeWhile isspace).length - (src.rtakeWhile isspace).length

-- Neither `start_pos` nor `length` leaves the range of `int`.
def Fits (src : Bytes) : Prop :=
  (src.takeWhile isspace).length < 2 ^ 31 ∧ -2 ^ 31 ≤ keptLength src

instance (src : Bytes) : Decidable (Fits src) :=
  inferInstanceAs (Decidable (_ ∧ _))

theorem spaceTrimAt_eq (src : Bytes) :
    spaceTrimAt src =
      if Fits src then .ok ((src.dropWhile isspace).take (sizeOfInt (keptLength src)))
      else .error .overflow := by
  obtain ⟨hlow, hhigh⟩ := intOfSize_range src.length
  have hfront := spaceTrimFront_eq (Nat.zero_add src.length) (by decide) _ hlow hhigh
  rw [List.drop_zero, Nat.zero_add, Nat.cast_zero] at hfront
  rw [spaceTrimAt, hfront]
  by_cases hstart : (src.takeWhile isspace).length < 2 ^ 31 ∧
      -2 ^ 31 ≤ intOfSize src.length - (src.takeWhile isspace).length
  · rw [if_pos hstart]
    simp only [bind, Except.bind]
    rw [spaceTrimBack_eq le_rfl _ hstart.2 (by omega), List.take_length, ← keptLength]
    by_cases hfits : -2 ^ 31 ≤ keptLength src
    · have hpos : sizeOfInt (src.takeWhile isspace).length = (src.takeWhile isspace).length := by
        unfold sizeOfInt
        omega
      have hle := (List.takeWhile_prefix isspace (l := src)).length_le
      have hall : Fits src := ⟨hstart.1, hfits⟩
      rw [if_pos hfits, if_pos hall]
      dsimp only
      rw [hpos, substr, if_neg (by omega), drop_takeWhile_length]
      rfl
    · have hnot : ¬Fits src := fun h => hfits h.2
      rw [if_neg hfits, if_neg hnot]
  · have hnot : ¬Fits src := by
      unfold Fits keptLength
      omega
    rw [if_neg hstart, if_neg hnot]
    rfl

theorem spaceTrimAt_ok_iff (src : Bytes) : (∃ trimmed, spaceTrimAt src = .ok trimmed) ↔ Fits src := by
  rw [spaceTrimAt_eq]
  split
  next h => exact iff_of_true ⟨_, rfl⟩ h
  next h => exact iff_of_false (fun ⟨_, herror⟩ => by cases herror) h

theorem Fits.of_lt (h : str.length < 2 ^ 31) : Fits str := by
  have hhead := (List.takeWhile_prefix isspace (l := str)).length_le
  have htail := (List.rtakeWhile_suffix isspace str).length_le
  rw [Fits, keptLength, intOfSize_of_lt h]
  omega

-- Behind the first byte that is no white space the length has no white space to take twice.
theorem take_keptLength (h : str.length < 2 ^ 31) :
    (str.dropWhile isspace).take (sizeOfInt (keptLength str)) = strip isspace str := by
  have hsrc := List.takeWhile_append_dropWhile (p := isspace) (l := str)
  rw [strip]
  cases hbody : str.dropWhile isspace with
  | nil => simp
  | cons b body =>
      have hb : ¬isspace b := by
        have hhead := List.head_dropWhile_not isspace (l := str) (by simp [hbody])
        simpa [hbody] using hhead
      rw [hbody] at hsrc
      have htrail : (str.rtakeWhile isspace).length =
          ((b :: body).reverse.takeWhile isspace).length := by
        have hnot : ((b :: body).reverse.takeWhile isspace).length ≠ (b :: body).reverse.length := by
          intro heq
          have hall := (List.takeWhile_sublist isspace).eq_of_length heq
          rw [List.takeWhile_eq_self_iff] at hall
          exact hb (hall b (by simp))
        rw [List.rtakeWhile, List.length_reverse]
        conv_lhs => rw [← hsrc, List.reverse_append]
        rw [List.takeWhile_append, if_neg hnot]
      have hlen := congrArg List.length hsrc
      rw [List.length_append] at hlen
      have hle : ((b :: body).reverse.takeWhile isspace).length ≤ (b :: body).length := by
        simpa using (List.takeWhile_sublist isspace (l := (b :: body).reverse)).length_le
      rw [rdropWhile_eq_take, keptLength, htrail, intOfSize_of_lt h]
      congr 1
      unfold sizeOfInt
      omega

theorem spaceTrimAt_of_lt (h : str.length < 2 ^ 31) :
    spaceTrimAt str = .ok (strip isspace str) := by
  rw [spaceTrimAt_eq, if_pos (.of_lt h), take_keptLength h]

-- A text without white space in front keeps its front.
theorem spaceTrimAt_cons {b : UInt8} (hb : isspace b = false) (rest : Bytes) :
    spaceTrimAt (b :: rest) =
      if -2 ^ 31 ≤ keptLength (b :: rest) then
        .ok ((b :: rest).take (sizeOfInt (keptLength (b :: rest))))
      else .error .overflow := by
  have hfront : (b :: rest).takeWhile isspace = [] := List.takeWhile_cons_of_neg (by simp [hb])
  have hfits : Fits (b :: rest) ↔ -2 ^ 31 ≤ keptLength (b :: rest) := by
    rw [Fits, hfront]
    exact and_iff_right (by decide)
  rw [spaceTrimAt_eq, List.dropWhile_cons_of_neg (by simp [hb])]
  simp only [hfits]

-- From 2^31 bytes on the length is negative, and the white space at the end is kept.
theorem spaceTrimAt_of_long {b : UInt8} (hb : isspace b = false) {rest : Bytes}
    (hlong : 2 ^ 31 ≤ (b :: rest).length) (hshort : (b :: rest).length < 2 ^ 32) {trimmed : Bytes}
    (h : spaceTrimAt (b :: rest) = .ok trimmed) : trimmed = b :: rest := by
  have hint : intOfSize (b :: rest).length = ((b :: rest).length : ℤ) - 2 ^ 32 := by
    rw [intOfSize_eq, Nat.mod_eq_of_lt hshort, if_neg (by omega)]
  have hfront : (b :: rest).takeWhile isspace = [] := List.takeWhile_cons_of_neg (by simp [hb])
  rw [spaceTrimAt_cons hb] at h
  split at h
  next hfits =>
    rw [← Except.ok.inj h, List.take_of_length_le]
    rw [keptLength, hfront] at hfits ⊢
    unfold sizeOfInt
    omega
  next => cases h

-- White space at the end does not count.
theorem strip_append (hspace : ∀ b ∈ space, isspace b) :
    strip isspace (str ++ space) = strip isspace str := by
  have hnil : space.dropWhile isspace = [] := List.dropWhile_eq_nil_iff.mpr hspace
  rw [strip, strip, List.dropWhile_append]
  split
  next hempty => rw [hnil, List.isEmpty_iff.mp hempty]
  next => exact rdropWhile_append hspace

-- A string that starts with something else than white space loses only its end.
theorem strip_cons {b : UInt8} (hb : isspace b = false) (rest : Bytes) :
    strip isspace (b :: rest) = (b :: rest).rdropWhile isspace := by
  rw [strip, List.dropWhile_cons_of_neg (by simp [hb])]

theorem length_substr_le {pos count : Option ℕ} {part : Bytes}
    (h : substr str pos count = .ok part) : part.length ≤ str.length := by
  cases pos with
  | none => cases h
  | some start =>
      simp only [substr] at h
      split at h
      next => cases h
      next =>
        split at h
        · rw [← Except.ok.inj h, List.length_drop]
          exact Nat.sub_le _ _
        · rw [← Except.ok.inj h, List.length_take, List.length_drop]
          omega

theorem find_le {pattern : Bytes} {pos : ℕ} (h : find pattern str = some pos) :
    pos ≤ str.length := by
  induction str generalizing pos with
  | nil =>
      simp only [find] at h
      split_ifs at h
      cases h
      exact Nat.le_refl _
  | cons b rest ih =>
      simp only [find] at h
      split_ifs at h
      · cases h
        exact Nat.zero_le _
      · obtain ⟨j, hj, rfl⟩ := Option.map_eq_some_iff.mp h
        exact Nat.succ_le_succ (ih hj)

theorem find_eq_none_iff {pattern : Bytes} : find pattern str = none ↔ ¬pattern <:+: str := by
  induction str with
  | nil => simp [find, List.infix_nil]
  | cons b rest ih =>
      rw [find, List.infix_cons_iff, not_or, ← List.isPrefixOf_iff_prefix]
      by_cases hp : pattern.isPrefixOf (b :: rest)
      · simp [hp]
      · rw [if_neg hp, Option.map_eq_none_iff, ih]
        exact (and_iff_right hp).symm

-- A pattern cannot lie across a border that is followed by a byte which the
-- pattern has at most as its first.
theorem prefix_of_border {c h : UInt8} {tail front back : Bytes} (hh : h ∉ tail)
    (hfront : front ≠ []) (hp : c :: tail <+: front ++ h :: back) : c :: tail <+: front := by
  rcases List.prefix_or_prefix_of_prefix hp (List.prefix_append front (h :: back)) with
    hpre | ⟨x, hx⟩
  · exact hpre
  · cases x with
    | nil => exact ⟨[], by rw [List.append_nil, ← hx, List.append_nil]⟩
    | cons b x =>
        obtain ⟨a, front', rfl⟩ := List.exists_cons_of_ne_nil hfront
        rw [← hx, List.prefix_append_right_inj] at hp
        have hb : b = h := (List.cons_prefix_cons.mp hp).1
        have htail : tail = front' ++ b :: x := (List.cons.inj hx).2.symm
        exact absurd (by simp [htail, hb]) hh

theorem find_append {c h : UInt8} {tail front : Bytes} (hh : h ∉ tail)
    (hfront : ¬c :: tail <:+: front) (back : Bytes) :
    find (c :: tail) (front ++ h :: back) =
      (find (c :: tail) (h :: back)).map (· + front.length) := by
  induction front with
  | nil => exact Option.map_id'.symm
  | cons b front ih =>
      rw [List.infix_cons_iff, not_or] at hfront
      have hp : ¬(c :: tail).isPrefixOf (b :: (front ++ h :: back)) := by
        intro hp
        exact hfront.1 (prefix_of_border hh (List.cons_ne_nil b front)
          (List.isPrefixOf_iff_prefix.mp hp))
      rw [List.cons_append, find, if_neg hp, ih hfront.2, Option.map_map]
      rfl

-- The name is what stands before the first delimiter, the value what stands behind it.
def entry (d : UInt8) (line : Bytes) : Bytes × Bytes :=
  (strip isspace (line.takeWhile (· ≠ d)), strip isspace ((line.dropWhile (· ≠ d)).drop 1))

theorem splitOn_takeWhile (line : Bytes) (d : UInt8) :
    (d ∉ line ∧ line.splitOn d = [line]) ∨
    (line = line.takeWhile (· ≠ d) ++ d :: (line.dropWhile (· ≠ d)).drop 1 ∧
      line.splitOn d = line.takeWhile (· ≠ d) :: ((line.dropWhile (· ≠ d)).drop 1).splitOn d) := by
  by_cases hmem : d ∈ line
  · have hne : line.dropWhile (· ≠ d) ≠ [] := by
      intro hnil
      have hall := List.dropWhile_eq_nil_iff.mp hnil d hmem
      simp at hall
    have hhead : (line.dropWhile (· ≠ d)).head hne = d := by
      have hnot := List.head_dropWhile_not (· ≠ d) hne
      simpa using hnot
    have hdrop : line.dropWhile (· ≠ d) = d :: (line.dropWhile (· ≠ d)).drop 1 := by
      rw [List.drop_one]
      conv_lhs => rw [← List.cons_head_tail hne, hhead]
    have hline : line = line.takeWhile (· ≠ d) ++ d :: (line.dropWhile (· ≠ d)).drop 1 := by
      rw [← hdrop, List.takeWhile_append_dropWhile]
    have hnot : d ∉ line.takeWhile (· ≠ d) := by
      intro hd
      have hp := List.mem_takeWhile_imp hd
      simp at hp
    refine .inr ⟨hline, ?_⟩
    conv_lhs => rw [hline, List.splitOn_append_cons_self_of_not_mem hnot]
  · exact .inl ⟨hmem, List.splitOn_eq_singleton hmem⟩

-- Every line has an entry, whose two parts are trimmed one after the other.
theorem splitLine_trims (line : Bytes) (d : UInt8) :
    splitLine d true line = do
      let name ← spaceTrimAt (line.takeWhile (· ≠ d))
      let value ← spaceTrimAt ((line.dropWhile (· ≠ d)).drop 1)
      return some (name, value) := by
  unfold splitLine
  rw [split_eq_splitOn]
  rcases splitOn_takeWhile line d with ⟨hnot, hsplit⟩ | ⟨hline, hsplit⟩
  · have hall : ∀ b ∈ line, (fun b => decide (b ≠ d)) b = true := by
      intro b hb
      have hne : b ≠ d := fun he => hnot (he ▸ hb)
      simpa using hne
    have hnil : spaceTrimAt [] = .ok [] := spaceTrimAt_of_lt (by decide)
    rw [hsplit, List.takeWhile_eq_self_iff.mpr hall, List.dropWhile_eq_nil_iff.mpr hall,
      List.drop_nil, hnil]
    rfl
  · rw [hsplit]
    generalize (line.dropWhile (· ≠ d)).drop 1 = rest
    rcases splitOn_takeWhile rest d with ⟨-, hsplit'⟩ | ⟨-, hsplit'⟩
    · rw [hsplit']
    · rw [hsplit']
      cases hlast : (List.drop 1 (List.dropWhile (· ≠ d) rest)).splitOn d with
      | nil => exact absurd hlast (List.splitOn_ne_nil _ _)
      | cons => rfl

theorem splitLine_eq (h : line.length < 2 ^ 31) (d : UInt8) :
    splitLine d true line = .ok (some (entry d line)) := by
  have hname : (line.takeWhile (· ≠ d)).length < 2 ^ 31 :=
    (List.takeWhile_prefix _).length_le.trans_lt h
  have hvalue : ((line.dropWhile (· ≠ d)).drop 1).length < 2 ^ 31 :=
    ((List.drop_suffix 1 _).length_le.trans (List.dropWhile_suffix _).length_le).trans_lt h
  rw [splitLine_trims, spaceTrimAt_of_lt hname, spaceTrimAt_of_lt hvalue]
  rfl

theorem Map.lookup_insert (map : Map) (name value key : Bytes) :
    (map.insert name value).lookup key =
      (map.lookup key).or (if key = name then some value else none) := by
  unfold Map.insert
  cases hold : map.lookup name with
  | none => rw [List.lookup_append, Entries.lookup_cons, List.lookup_nil]
  | some old =>
      by_cases hkey : key = name
      · subst hkey
        rw [hold]
        rfl
      · rw [if_neg hkey, Option.or_none]

-- The first entry with a name is the one that stays.
theorem lookup_foldl_insert (entries : List (Bytes × Bytes)) (map : Map) (key : Bytes) :
    (entries.foldl (fun map e => Map.insert map e.1 e.2) map).lookup key =
      (map.lookup key).or (entries.lookup key) := by
  induction entries generalizing map with
  | nil => simp
  | cons e rest ih =>
      rw [List.foldl_cons, ih, Map.lookup_insert, Option.or_assoc, Entries.lookup_cons]
      split <;> rfl

theorem splitLines_eq {lines : List Bytes} (h : ∀ line ∈ lines, line.length < 2 ^ 31) (d : UInt8)
    (map : Map) : splitLines d true lines map =
      .ok (some ((lines.map (entry d)).foldl (fun map e => Map.insert map e.1 e.2) map)) := by
  induction lines generalizing map with
  | nil => rfl
  | cons line rest ih =>
      rw [List.forall_mem_cons] at h
      rw [splitLines, splitLine_eq h.1]
      exact ih h.2 _

-- The lines that a text is split into: one more than its bytes at most, and none longer.
theorem splitLoop_sizes (fuel : ℕ) (str : Bytes) (result : List Bytes) :
    (splitLoop d fuel str result).length ≤ result.length + str.length + 1 ∧
      ∀ line ∈ splitLoop d fuel str result, line ∈ result ∨ line.length ≤ str.length := by
  have hends (str : Bytes) (result : List Bytes) :
      (result ++ [str]).length ≤ result.length + str.length + 1 ∧
        ∀ line ∈ result ++ [str], line ∈ result ∨ line.length ≤ str.length := by
    refine ⟨by simp, fun line hline => (List.mem_append.mp hline).imp_right fun h => ?_⟩
    rw [List.mem_singleton.mp h]
  induction fuel generalizing str result with
  | zero => exact hends str result
  | succ fuel ih =>
      rw [splitLoop]
      split
      next => exact hends str result
      next pos hpos =>
        obtain ⟨hlt, -⟩ := List.findIdx?_eq_some_iff_getElem.mp hpos
        obtain ⟨hlength, hlines⟩ := ih (str.drop (pos + 1)) (result ++ [str.take pos])
        rw [List.length_append, List.length_singleton, List.length_drop] at hlength
        refine ⟨by omega, fun line hline => ?_⟩
        rcases hlines line hline with hmem | hle
        · refine (List.mem_append.mp hmem).imp_right fun h => ?_
          rw [List.mem_singleton.mp h, List.length_take]
          exact Nat.min_le_right _ _
        · rw [List.length_drop] at hle
          exact .inr (by omega)

theorem split_sizes (str : Bytes) (d : UInt8) :
    (split str d).length ≤ str.length + 1 ∧ ∀ line ∈ split str d, line.length ≤ str.length := by
  obtain ⟨hcount, hlines⟩ := splitLoop_sizes str.length str [] (d := d)
  rw [List.length_nil, Nat.zero_add] at hcount
  exact ⟨hcount, fun line hline => (hlines line hline).resolve_left List.not_mem_nil⟩

theorem splitMap_eq (h : str.length < 2 ^ 31) (major minor : UInt8) :
    splitMap str major minor true = .ok (some (((split str major).map (entry minor)).foldl
      (fun map e => Map.insert map e.1 e.2) [])) := by
  obtain ⟨hcount, hlines⟩ := split_sizes str major
  have hcount : (split str major).length < 2 ^ 32 := by omega
  have hshort : ∀ line ∈ split str major, line.length < 2 ^ 31 := fun line hline =>
    (hlines line hline).trans_lt h
  rw [splitMap, List.take_of_length_le (by omega), splitLines_eq hshort]
  exact if_pos hcount

-- Every line that is gone through has its name in the map.
theorem isSome_of_splitLines {lines : List Bytes} {map r : Map} {name value : Bytes}
    (h : splitLines d true lines map = .ok (some r))
    (hthere : (map.lookup name).isSome ∨
      ∃ line ∈ lines, splitLine d true line = .ok (some (name, value))) :
    (r.lookup name).isSome := by
  induction lines generalizing map with
  | nil =>
      rw [← Option.some.inj (Except.ok.inj h)]
      exact hthere.resolve_right fun ⟨_, hnone, _⟩ => List.not_mem_nil hnone
  | cons line rest ih =>
      obtain ⟨entry, hentry, h⟩ := except_bind_ok h
      cases entry with
      | none => cases h
      | some entry =>
          refine ih h ?_
          rcases hthere with hmap | ⟨line', hline', hsplit⟩
          · exact .inl (by rw [Map.lookup_insert, Option.isSome_or, hmap, Bool.true_or])
          · rcases List.mem_cons.mp hline' with rfl | hrest
            · rw [hentry, Except.ok.injEq, Option.some.injEq] at hsplit
              rw [hsplit]
              exact .inl (by rw [Map.lookup_insert, if_pos rfl, Option.isSome_or]; simp)
            · exact .inr ⟨line', hrest, hsplit⟩

theorem splitLine_ne_none (line : Bytes) (d : UInt8) : splitLine d true line ≠ .ok none := by
  rw [splitLine_trims]
  intro h
  obtain ⟨_, -, h⟩ := except_bind_ok h
  obtain ⟨_, -, h⟩ := except_bind_ok h
  cases h

theorem splitLines_ne_none (lines : List Bytes) (d : UInt8) (map : Map) :
    splitLines d true lines map ≠ .ok none := by
  induction lines generalizing map with
  | nil => nofun
  | cons line rest ih =>
      intro h
      obtain ⟨entry, hentry, h⟩ := except_bind_ok h
      cases entry with
      | none => exact splitLine_ne_none line d hentry
      | some entry => exact ih _ h

-- An empty line gives an entry without a name.
theorem isSome_of_splitMap {major minor : UInt8} {r : Option Map}
    (h : splitMap str major minor true = .ok r) (hempty : [] ∈ split str major) :
    ∃ map, r = some map ∧ (map.lookup []).isSome := by
  obtain ⟨lines, hlines, h⟩ := except_bind_ok h
  cases lines with
  | none => exact absurd hlines (splitLines_ne_none _ minor [])
  | some map =>
      dsimp only at h
      split at h
      next hshort =>
        refine ⟨map, (Except.ok.inj h).symm, ?_⟩
        rw [List.take_of_length_le hshort.le] at hlines
        have hentry : splitLine minor true [] = .ok (some ([], [])) :=
          splitLine_eq (by decide) minor
        exact isSome_of_splitLines hlines (.inr ⟨[], hempty, hentry⟩)
      next => cases h

-- Both parts of a line are trimmed within the range of `int`.
def EntryFits (d : UInt8) (line : Bytes) : Prop :=
  Fits (line.takeWhile (· ≠ d)) ∧ Fits ((line.dropWhile (· ≠ d)).drop 1)

theorem EntryFits.of_lt (h : line.length < 2 ^ 31) : EntryFits d line :=
  ⟨.of_lt ((List.takeWhile_prefix _).length_le.trans_lt h),
    .of_lt (((List.drop_suffix 1 _).length_le.trans
      (List.dropWhile_suffix _).length_le).trans_lt h)⟩

theorem splitLine_ok_iff (line : Bytes) (d : UInt8) :
    (∃ entry, splitLine d true line = .ok (some entry)) ↔ EntryFits d line := by
  rw [splitLine_trims, EntryFits, ← spaceTrimAt_ok_iff, ← spaceTrimAt_ok_iff]
  constructor
  · rintro ⟨entry, h⟩
    obtain ⟨name, hname, h⟩ := except_bind_ok h
    obtain ⟨value, hvalue, -⟩ := except_bind_ok h
    exact ⟨⟨name, hname⟩, ⟨value, hvalue⟩⟩
  · rintro ⟨⟨name, hname⟩, ⟨value, hvalue⟩⟩
    rw [hname, hvalue]
    exact ⟨(name, value), rfl⟩

theorem splitLines_ok_iff (lines : List Bytes) (d : UInt8) (map : Map) :
    (∃ r, splitLines d true lines map = .ok r) ↔ ∀ line ∈ lines, EntryFits d line := by
  induction lines generalizing map with
  | nil => exact iff_of_true ⟨_, rfl⟩ nofun
  | cons line rest ih =>
      rw [List.forall_mem_cons, ← splitLine_ok_iff]
      constructor
      · rintro ⟨r, h⟩
        obtain ⟨entry, hentry, h⟩ := except_bind_ok h
        cases entry with
        | none => exact absurd hentry (splitLine_ne_none line d)
        | some entry => exact ⟨⟨entry, hentry⟩, (ih _).mp ⟨r, h⟩⟩
      · rintro ⟨⟨entry, hentry⟩, hrest⟩
        rw [splitLines, hentry]
        exact (ih _).mpr hrest

-- The map overload returns when the lines can be counted and every one of them be trimmed.
theorem splitMap_ok_iff (str : Bytes) (major minor : UInt8) :
    (∃ r, splitMap str major minor true = .ok r) ↔
      (split str major).length < 2 ^ 32 ∧ ∀ line ∈ split str major, EntryFits minor line := by
  constructor
  · rintro ⟨r, h⟩
    obtain ⟨lines, hlines, h⟩ := except_bind_ok h
    cases lines with
    | none => exact absurd hlines (splitLines_ne_none _ minor [])
    | some map =>
        dsimp only at h
        split at h
        next hcount =>
          rw [List.take_of_length_le hcount.le] at hlines
          exact ⟨hcount, (splitLines_ok_iff _ minor []).mp ⟨_, hlines⟩⟩
        next => cases h
  · rintro ⟨hcount, hlines⟩
    obtain ⟨lines, hlines⟩ := (splitLines_ok_iff _ minor []).mpr hlines
    rw [splitMap, List.take_of_length_le hcount.le, hlines]
    cases lines with
    | none => exact ⟨none, rfl⟩
    | some map => exact ⟨some map, if_pos hcount⟩

end AsrServiceProxy.StringUtil

import AsrServiceProxy.Utils.StringUtil.Lemmas
import Mathlib.Data.Finset.Dedup
import Mathlib.Data.Finset.Lattice.Lemmas

-- The vector and the set overload of `split` find the same pieces.
namespace AsrServiceProxy.StringUtil

open CMemory

-- `std::getline` on what a stream has left: the item and what is left behind it.
-- It fails where there is nothing to read.
def getline (delimiter : UInt8) (left : Bytes) : Option (Bytes × Bytes) :=
  if left.isEmpty then none
  else some (left.takeWhile (· ≠ delimiter), (left.dropWhile (· ≠ delimiter)).drop 1)

-- The loop of the set overload of `split`; every pass removes a byte.
def splitSetLoop (delimiter : UInt8) : ℕ → Bytes → Finset Bytes → Finset Bytes
  | 0, _, result => result
  | fuel + 1, left, result =>
      match getline delimiter left with
      | none => result
      | some (item, left) => splitSetLoop delimiter fuel left (insert item result)

def splitSet (str : Bytes) (delimiter : UInt8) : Finset Bytes :=
  splitSetLoop delimiter str.length str ∅

-- The pieces that `getline` finds.
def withoutFinalEmpty (pieces : List Bytes) : List Bytes :=
  if pieces.getLast? = some [] then pieces.dropLast else pieces

variable {str left piece : Bytes} {d : UInt8}

theorem notMem_of_mem_splitOn (h : piece ∈ str.splitOn d) : d ∉ piece := by
  induction str generalizing piece with
  | nil =>
      rw [List.splitOn_nil, List.mem_singleton] at h
      rw [h]
      exact List.not_mem_nil
  | cons b rest ih =>
      rw [List.splitOn_cons_eq_if_modifyHead] at h
      by_cases hb : b = d
      · rw [if_pos (by simpa using hb)] at h
        rcases List.mem_cons.mp h with hnil | hrest
        · rw [hnil]
          exact List.not_mem_nil
        · exact ih hrest
      · rw [if_neg (by simpa using hb)] at h
        obtain ⟨first, others, hsplit⟩ := List.exists_cons_of_ne_nil (List.splitOn_ne_nil d rest)
        rw [hsplit, List.modifyHead_cons] at h
        rcases List.mem_cons.mp h with hfirst | hothers
        · have hnot : d ∉ first := ih (by rw [hsplit]; exact List.mem_cons_self)
          rw [hfirst, List.mem_cons, not_or]
          exact ⟨Ne.symm hb, hnot⟩
        · exact ih (by rw [hsplit]; exact List.mem_cons_of_mem _ hothers)

theorem length_splitOn (str : Bytes) (d : UInt8) : (str.splitOn d).length = str.count d + 1 := by
  induction str with
  | nil => rfl
  | cons b rest ih =>
      rw [List.splitOn_cons_eq_if_modifyHead, List.count_cons]
      by_cases hb : b == d
      · rw [if_pos hb, if_pos hb, List.length_cons, ih]
      · rw [if_neg hb, if_neg hb, List.length_modifyHead, ih, Nat.add_zero]

theorem withoutFinalEmpty_cons {pieces : List Bytes} (hne : pieces ≠ []) (piece : Bytes) :
    withoutFinalEmpty (piece :: pieces) = piece :: withoutFinalEmpty pieces := by
  unfold withoutFinalEmpty
  rw [List.getLast?_cons, List.dropLast_cons_of_ne_nil hne]
  obtain ⟨last, hlast⟩ := Option.isSome_iff_exists.mp (List.getLast?_isSome.mpr hne)
  rw [hlast, Option.getD_some]
  split
  · rfl
  · rfl

-- One pass takes the first piece off, unless it is the last one and empty.
theorem withoutFinalEmpty_splitOn (hne : left ≠ []) :
    withoutFinalEmpty (left.splitOn d) = left.takeWhile (· ≠ d) ::
      withoutFinalEmpty (((left.dropWhile (· ≠ d)).drop 1).splitOn d) := by
  rcases splitOn_takeWhile left d with ⟨hnot, hsplit⟩ | ⟨-, hsplit⟩
  · have hall : ∀ b ∈ left, (fun b => decide (b ≠ d)) b = true := by
      intro b hb
      have hbd : b ≠ d := fun he => hnot (he ▸ hb)
      simpa using hbd
    rw [hsplit, List.takeWhile_eq_self_iff.mpr hall, List.dropWhile_eq_nil_iff.mpr hall]
    unfold withoutFinalEmpty
    rw [if_neg (by simpa using hne)]
    rfl
  · rw [hsplit, withoutFinalEmpty_cons (List.splitOn_ne_nil _ _)]

theorem splitSetLoop_eq {fuel : ℕ} (hfuel : left.length ≤ fuel) (result : Finset Bytes) :
    splitSetLoop d fuel left result =
      result ∪ (withoutFinalEmpty (left.splitOn d)).toFinset := by
  induction fuel generalizing left result with
  | zero =>
      have hnil := List.length_eq_zero_iff.mp (Nat.le_zero.mp hfuel)
      subst hnil
      rw [splitSetLoop, List.splitOn_nil]
      exact (Finset.union_empty result).symm
  | succ fuel ih =>
      rw [splitSetLoop, getline]
      by_cases hempty : left = []
      · subst hempty
        rw [List.splitOn_nil]
        exact (Finset.union_empty result).symm
      · rw [if_neg (by simpa using hempty)]
        have hpos := List.length_pos_of_ne_nil hempty
        have hlen := (List.dropWhile_sublist (fun b => decide (b ≠ d)) (l := left)).length_le
        show splitSetLoop d fuel _ _ = _
        rw [ih (by rw [List.length_drop]; omega), withoutFinalEmpty_splitOn hempty,
          List.toFinset_cons, Finset.insert_union, Finset.union_insert]

-- The pieces hold no delimiter, are one more than the delimiters, give the string back when
-- they are joined, and are what the set overload finds but for an empty piece at the end.
theorem split_pieces (str : Bytes) (d : UInt8) :
    (∀ piece ∈ split str d, d ∉ piece) ∧ (split str d).length = str.count d + 1 ∧
      [d].intercalate (split str d) = str ∧
      splitSet str d = (withoutFinalEmpty (split str d)).toFinset := by
  rw [split_eq_splitOn]
  refine ⟨fun _ => notMem_of_mem_splitOn, length_splitOn str d, List.intercalate_splitOn d, ?_⟩
  rw [splitSet, splitSetLoop_eq (Nat.le_refl _), Finset.empty_union]

example : splitSet (ascii ",a,") 44 = {[], ascii "a"} := by decide

end AsrServiceProxy.StringUtil

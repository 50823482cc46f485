import Mathlib.Algebra.BigOperators.Group.Finset.Basic
import Mathlib.Algebra.GroupWithZero.Nat
import Mathlib.Data.Fintype.BigOperators

-- Weights summed over the threads of a system, and how they change when one
-- thread moves.
namespace Counting

variable {ι α : Type*}

def total (f : α → ℕ) (threads : List α) : ℕ := (threads.map f).sum

@[simp] theorem total_nil (f : α → ℕ) : total f [] = 0 := rfl

@[simp] theorem total_cons (f : α → ℕ) (a : α) (threads : List α) :
    total f (a :: threads) = f a + total f threads := by
  simp [total]

@[simp] theorem total_append (f : α → ℕ) (xs ys : List α) :
    total f (xs ++ ys) = total f xs + total f ys := by
  simp [total]

-- Stated as a sum on both sides, so that nothing is subtracted.
theorem total_set (f : α → ℕ) (threads : List α) (i : ℕ) (old new : α)
    (h : threads[i]? = some old) :
    total f (threads.set i new) + f old = total f threads + f new := by
  induction threads generalizing i with
  | nil => simp at h
  | cons a rest ih =>
      cases i with
      | zero =>
          simp only [List.getElem?_cons_zero, Option.some.injEq] at h
          subst h
          simp only [List.set_cons_zero, total_cons]
          omega
      | succ i =>
          have hr := ih i (by simpa using h)
          simp only [List.set_cons_succ, total_cons]
          omega

theorem total_eq_zero (f : α → ℕ) (threads : List α) (h : ∀ a ∈ threads, f a = 0) :
    total f threads = 0 := by
  induction threads with
  | nil => rfl
  | cons a rest ih =>
      have ha := h a (by simp)
      have hr := ih fun b hb => h b (by simp [hb])
      simp only [total_cons]
      omega

theorem le_total (f : α → ℕ) (threads : List α) (i : ℕ) (a : α) (h : threads[i]? = some a) :
    f a ≤ total f threads := by
  induction threads generalizing i with
  | nil => simp at h
  | cons b rest ih =>
      cases i with
      | zero =>
          simp only [List.getElem?_cons_zero, Option.some.injEq] at h
          subst h
          simp
      | succ i =>
          have hr := ih i (by simpa using h)
          simp only [total_cons]
          omega

theorem exists_of_total_pos (f : α → ℕ) (threads : List α) (h : 0 < total f threads) :
    ∃ (i : ℕ) (a : α), threads[i]? = some a ∧ 0 < f a := by
  by_contra hnone
  rw [total_eq_zero f threads] at h
  · exact Nat.lt_irrefl 0 h
  · intro a ha
    obtain ⟨i, hi, rfl⟩ := List.getElem_of_mem ha
    by_contra hne
    exact hnone ⟨i, _, List.getElem?_eq_getElem hi, Nat.pos_of_ne_zero hne⟩

theorem total_ite (p : α → Prop) [DecidablePred p] (threads : List α) :
    total (fun a => if p a then 1 else 0) threads = threads.countP p := by
  induction threads with
  | nil => rfl
  | cons a rest ih =>
      rw [total_cons, ih, List.countP_cons]
      by_cases ha : p a <;> simp [ha, Nat.add_comm]

theorem sum_update_mem [DecidableEq ι] (f : α → ℕ) (threads : ι → α) {i : ι} {busy : Finset ι}
    (hi : i ∈ busy) (new : α) :
    (∑ t ∈ busy, f (Function.update threads i new t)) + f (threads i) =
      (∑ t ∈ busy, f (threads t)) + f new := by
  have hnew := Finset.add_sum_erase busy (fun t => f (Function.update threads i new t)) hi
  have hold := Finset.add_sum_erase busy (fun t => f (threads t)) hi
  have hrest : ∑ t ∈ busy.erase i, f (Function.update threads i new t) =
      ∑ t ∈ busy.erase i, f (threads t) := by
    apply Finset.sum_congr rfl
    intro t ht
    rw [Function.update_of_ne (Finset.ne_of_mem_erase ht)]
  simp only [Function.update_self] at hnew
  omega

theorem sum_update [Fintype ι] [DecidableEq ι] (f : α → ℕ) (threads : ι → α) (i : ι) (new : α) :
    (∑ t, f (Function.update threads i new t)) + f (threads i) = (∑ t, f (threads t)) + f new :=
  sum_update_mem f threads (Finset.mem_univ i) new

end Counting

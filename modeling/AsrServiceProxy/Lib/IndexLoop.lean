import Mathlib.Algebra.GroupWithZero.Nat
import Mathlib.Data.List.Basic

-- Loops over the elements of a list with an index of a fixed width: after the
-- last index that the width allows comes the first one again.
namespace IndexLoop

variable {α σ : Type}

-- The loop ends past the last element, or before a round when `stop` holds.
-- `none` is a loop that was given too few rounds.
def loop (width : ℕ) (stop : σ → Bool) (step : σ → α → σ) (input : List α) :
    ℕ → ℕ → σ → Option σ
  | 0, _, _ => none
  | n + 1, i, s =>
      match input[i]? with
      | none => some s
      | some a =>
          if stop s then some s
          else loop width stop step input n ((i + 1) % 2 ^ width) (step s a)

-- A round, or none when the loop has stopped.
def advance (stop : σ → Bool) (step : σ → α → σ) (s : σ) (a : α) : σ :=
  if stop s then s else step s a

-- The next elements that the index comes to.
def upcoming (width : ℕ) (input : List α) : ℕ → ℕ → List α
  | 0, _ => []
  | n + 1, i =>
      match input[i]? with
      | none => []
      | some a => a :: upcoming width input n ((i + 1) % 2 ^ width)

variable {width : ℕ} {stop : σ → Bool} {step : σ → α → σ} {input : List α}

theorem foldl_advance_of_stop {s : σ} (h : stop s = true) (elements : List α) :
    elements.foldl (advance stop step) s = s := by
  induction elements with
  | nil => rfl
  | cons a rest ih =>
      rw [List.foldl_cons, advance, if_pos h]
      exact ih

theorem loop_mono {n m i : ℕ} {s t : σ} (h : loop width stop step input n i s = some t)
    (hle : n ≤ m) : loop width stop step input m i s = some t := by
  induction n generalizing m i s with
  | zero => cases h
  | succ n ih =>
      obtain ⟨m, rfl⟩ : ∃ k, m = k + 1 := ⟨m - 1, by omega⟩
      rw [loop] at h ⊢
      cases hget : input[i]? with
      | none =>
          rw [hget] at h
          exact h
      | some a =>
          rw [hget] at h
          dsimp only at h ⊢
          by_cases hstop : stop s = true
          · rw [if_pos hstop] at h ⊢
            exact h
          · rw [if_neg hstop] at h ⊢
            exact ih h (by omega)

theorem loop_unique {n m i : ℕ} {s t u : σ} (h : loop width stop step input n i s = some t)
    (h' : loop width stop step input m i s = some u) : t = u := by
  have hn := loop_mono h (Nat.le_max_left n m)
  have hm := loop_mono h' (Nat.le_max_right n m)
  rw [hn] at hm
  exact Option.some.inj hm

-- An index that is wide enough goes through the list once.
theorem loop_of_lt (hlength : input.length < 2 ^ width) {n i : ℕ} (hn : input.length < n + i)
    (hi : i ≤ input.length) (s : σ) :
    loop width stop step input n i s = some ((input.drop i).foldl (advance stop step) s) := by
  induction n generalizing i s with
  | zero => omega
  | succ n ih =>
      rw [loop]
      by_cases hlast : i = input.length
      · rw [hlast, List.getElem?_length, List.drop_length]
        rfl
      · have hlt : i < input.length := by omega
        rw [List.getElem?_eq_getElem hlt, List.drop_eq_getElem_cons hlt, List.foldl_cons, advance]
        dsimp only
        by_cases hstop : stop s = true
        · rw [if_pos hstop, if_pos hstop, foldl_advance_of_stop hstop]
        · rw [if_neg hstop, if_neg hstop, Nat.mod_eq_of_lt (by omega)]
          exact ih (by omega) (by omega) (step s input[i])

-- With one that is not, the loop ends only when it is stopped.
theorem stop_of_loop (hlength : 2 ^ width ≤ input.length) {n i : ℕ} (hi : i < 2 ^ width) {s t : σ}
    (h : loop width stop step input n i s = some t) :
    stop t = true ∧ t = (upcoming width input n i).foldl (advance stop step) s := by
  induction n generalizing i s with
  | zero => cases h
  | succ n ih =>
      have hlt : i < input.length := by omega
      have hnext : (i + 1) % 2 ^ width < 2 ^ width := Nat.mod_lt _ (Nat.two_pow_pos width)
      rw [loop, List.getElem?_eq_getElem hlt] at h
      rw [upcoming, List.getElem?_eq_getElem hlt]
      dsimp only at h ⊢
      rw [List.foldl_cons, advance]
      by_cases hstop : stop s = true
      · rw [if_pos hstop, Option.some.injEq] at h
        subst h
        rw [if_pos hstop, foldl_advance_of_stop hstop]
        exact ⟨hstop, rfl⟩
      · rw [if_neg hstop] at h
        rw [if_neg hstop]
        exact ih hnext h

theorem loop_of_stop (hlength : 2 ^ width ≤ input.length) {n i : ℕ} (hi : i < 2 ^ width) {s : σ}
    (h : stop ((upcoming width input n i).foldl (advance stop step) s) = true) :
    loop width stop step input (n + 1) i s =
      some ((upcoming width input n i).foldl (advance stop step) s) := by
  induction n generalizing i s with
  | zero =>
      have hlt : i < input.length := by omega
      rw [loop, List.getElem?_eq_getElem hlt]
      exact if_pos h
  | succ n ih =>
      have hlt : i < input.length := by omega
      have hnext : (i + 1) % 2 ^ width < 2 ^ width := Nat.mod_lt _ (Nat.two_pow_pos width)
      rw [upcoming, List.getElem?_eq_getElem hlt] at h ⊢
      dsimp only at h ⊢
      rw [List.foldl_cons, advance] at h ⊢
      rw [loop, List.getElem?_eq_getElem hlt]
      dsimp only
      by_cases hstop : stop s = true
      · rw [if_pos hstop, if_pos hstop, foldl_advance_of_stop hstop]
      · rw [if_neg hstop] at h ⊢
        rw [if_neg hstop]
        exact ih hnext h

theorem upcoming_add (n m : ℕ) {i : ℕ} (hlength : 2 ^ width ≤ input.length) (hi : i < 2 ^ width) :
    upcoming width input (n + m) i =
      upcoming width input n i ++ upcoming width input m ((i + n) % 2 ^ width) := by
  induction n generalizing i with
  | zero => rw [Nat.zero_add, Nat.add_zero, Nat.mod_eq_of_lt hi, upcoming, List.nil_append]
  | succ n ih =>
      have hlt : i < input.length := by omega
      have hnext : (i + 1) % 2 ^ width < 2 ^ width := Nat.mod_lt _ (Nat.two_pow_pos width)
      rw [Nat.succ_add, upcoming, upcoming, List.getElem?_eq_getElem hlt]
      dsimp only
      rw [ih hnext, Nat.mod_add_mod, List.cons_append, show i + 1 + n = i + (n + 1) by omega]

-- Up to the last index nothing is repeated.
theorem upcoming_eq_take (hlength : 2 ^ width ≤ input.length) {n i : ℕ} (h : i + n ≤ 2 ^ width) :
    upcoming width input n i = (input.drop i).take n := by
  induction n generalizing i with
  | zero => rfl
  | succ n ih =>
      have hlt : i < input.length := by omega
      rw [upcoming, List.getElem?_eq_getElem hlt, List.drop_eq_getElem_cons hlt, List.take_succ_cons]
      dsimp only
      by_cases hlast : i + 1 = 2 ^ width
      · obtain rfl : n = 0 := by omega
        rw [upcoming, List.take_zero]
      · rw [Nat.mod_eq_of_lt (by omega), ih (by omega)]

-- Whole rounds of the index go through the same elements again and again.
theorem upcoming_rounds (hlength : 2 ^ width ≤ input.length) (k : ℕ) :
    upcoming width input (k * 2 ^ width) 0 =
      (List.replicate k (input.take (2 ^ width))).flatten := by
  induction k with
  | zero => rw [Nat.zero_mul, upcoming, List.replicate_zero, List.flatten_nil]
  | succ k ih =>
      rw [Nat.succ_mul, Nat.add_comm, upcoming_add _ _ hlength (Nat.two_pow_pos width),
        upcoming_eq_take hlength (Nat.le_of_eq (Nat.zero_add _)), Nat.zero_add, Nat.mod_self, ih,
        List.replicate_succ, List.flatten_cons, List.drop_zero]

end IndexLoop

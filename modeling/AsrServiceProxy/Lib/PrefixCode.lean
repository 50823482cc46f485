import Mathlib.Data.List.Basic

-- Codes whose words can be told apart from the left: a text of such words up to a
-- stop can be read in one way only.
namespace PrefixCode

variable {α β : Type*}

-- The first word of a text, and what comes after it, are determined by the text.
def Instantaneous (word : α → List β) : Prop :=
  ∀ a b s t, word a ++ s = word b ++ t → a = b ∧ s = t

-- A symbol that no word starts with.
def Delimits (word : α → List β) (stop : β) : Prop := ∀ a s t, word a ++ s ≠ stop :: t

theorem Instantaneous.of_read {word : α → List β} (read : List β → Option (α × List β))
    (h : ∀ a s, read (word a ++ s) = some (a, s)) : Instantaneous word := by
  intro a b s t heq
  have hread := (h a s).symm.trans ((congrArg read heq).trans (h b t))
  exact Prod.ext_iff.mp (Option.some.inj hread)

theorem Instantaneous.flatMap {word : α → List β} (h : Instantaneous word) {stop : β}
    (hstop : Delimits word stop) {xs ys : List α} {s t : List β}
    (heq : xs.flatMap word ++ stop :: s = ys.flatMap word ++ stop :: t) : xs = ys ∧ s = t := by
  induction xs generalizing ys with
  | nil =>
      cases ys with
      | nil => exact ⟨rfl, (List.cons.inj heq).2⟩
      | cons y ys =>
          rw [List.flatMap_cons, List.append_assoc] at heq
          exact absurd heq.symm (hstop y _ _)
  | cons x xs ih =>
      cases ys with
      | nil =>
          rw [List.flatMap_cons, List.append_assoc] at heq
          exact absurd heq (hstop x _ _)
      | cons y ys =>
          rw [List.flatMap_cons, List.flatMap_cons, List.append_assoc, List.append_assoc] at heq
          obtain ⟨rfl, hrest⟩ := h x y _ _ heq
          obtain ⟨rfl, hst⟩ := ih hrest
          exact ⟨rfl, hst⟩

end PrefixCode

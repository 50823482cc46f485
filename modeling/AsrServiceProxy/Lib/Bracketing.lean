import Mathlib.Data.List.Basic

-- The ways to put brackets around the elements of a list.
namespace Bracketing

variable {α β ε : Type*}

inductive Brackets (α : Type*) where
  | leaf (a : α)
  | node (left right : Brackets α)

namespace Brackets

def leaves : Brackets α → List α
  | leaf a => [a]
  | node left right => left.leaves ++ right.leaves

-- The elements put together as the brackets say, by an operation that can fail.
def eval (op : α → α → Except ε α) : Brackets α → Except ε α
  | leaf a => .ok a
  | node left right => do
      let a ← left.eval op
      let b ← right.eval op
      op a b

end Brackets

section

variable {op : β → β → β} [Std.Associative op]

-- All of a list that is not empty.
def fold (op : β → β → β) : List β → Option β
  | [] => none
  | b :: rest => some (rest.foldl op b)

theorem fold_append {l r : List β} {a b : β} (hl : fold op l = some a) (hr : fold op r = some b) :
    fold op (l ++ r) = some (op a b) := by
  cases l with
  | nil => simp [fold] at hl
  | cons x l =>
      cases r with
      | nil => simp [fold] at hr
      | cons y r =>
          simp only [fold, Option.some.injEq] at hl hr
          simp [fold, hl, ← hr, List.foldl_assoc]

theorem fold_append_congr {r r' : List β} {b : β} (hr : fold op r = some b)
    (hr' : fold op r' = some b) (l : List β) : fold op (l ++ r) = fold op (l ++ r') := by
  cases l with
  | nil => rw [List.nil_append, List.nil_append, hr, hr']
  | cons a l =>
      have hl : fold op (a :: l) = some (l.foldl op a) := by rfl
      rw [fold_append hl hr, fold_append hl hr']

-- Where the elements are seen through a function that takes one operation to an
-- associative other one, the brackets are not seen.
theorem eval_fold {merge : α → α → Except ε α} {f : α → β} {Good : α → Prop}
    (hmerge : ∀ a b, Good a → Good b → ∃ c, merge a b = .ok c ∧ Good c ∧ f c = op (f a) (f b))
    (t : Brackets α) (hgood : ∀ a ∈ t.leaves, Good a) :
    ∃ c, t.eval merge = .ok c ∧ Good c ∧ fold op (t.leaves.map f) = some (f c) := by
  induction t with
  | leaf a => exact ⟨a, by rfl, hgood a (by simp [Brackets.leaves]), by rfl⟩
  | node left right ihl ihr =>
      obtain ⟨a, ha, hgooda, hfolda⟩ := ihl fun x hx => hgood x (by simp [Brackets.leaves, hx])
      obtain ⟨b, hb, hgoodb, hfoldb⟩ := ihr fun x hx => hgood x (by simp [Brackets.leaves, hx])
      obtain ⟨c, hc, hgoodc, hfc⟩ := hmerge a b hgooda hgoodb
      refine ⟨c, ?_, hgoodc, ?_⟩
      · simp [Brackets.eval, ha, hb, hc, bind, Except.bind]
      · rw [Brackets.leaves, List.map_append, fold_append hfolda hfoldb, hfc]

end

end Bracketing

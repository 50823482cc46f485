import Mathlib.Data.List.Forall2

-- Two computations that may fail, side by side: both return and the results are related,
-- or both fail alike.
namespace Simulation

variable {ε ε' α α' β β' : Type}

inductive Corresponds (raised : ε → ε' → Prop) (post : α → α' → Prop) :
    Except ε α → Except ε' α' → Prop
  | ok {a : α} {a' : α'} : post a a' → Corresponds raised post (.ok a) (.ok a')
  | error {e : ε} {e' : ε'} : raised e e' → Corresponds raised post (.error e) (.error e')

variable {raised : ε → ε' → Prop} {post : α → α' → Prop} {goal : β → β' → Prop}
  {m : Except ε α} {m' : Except ε' α'}

theorem Corresponds.bind {f : α → Except ε β} {f' : α' → Except ε' β'}
    (hm : Corresponds raised post m m')
    (hf : ∀ a a', post a a' → Corresponds raised goal (f a) (f' a')) :
    Corresponds raised goal (m >>= f) (m' >>= f') := by
  cases hm with
  | ok h => exact hf _ _ h
  | error h => exact .error h

theorem Corresponds.map {f : α → β} {f' : α' → β'} (hm : Corresponds raised post m m')
    (hf : ∀ a a', post a a' → goal (f a) (f' a')) :
    Corresponds raised goal (m.map f) (m'.map f') := by
  cases hm with
  | ok h => exact .ok (hf _ _ h)
  | error h => exact .error h

theorem Corresponds.mapError {δ δ' : Type} {thrown : δ → δ' → Prop} {f : ε → δ} {f' : ε' → δ'}
    (hm : Corresponds raised post m m') (hf : ∀ e e', raised e e' → thrown (f e) (f' e')) :
    Corresponds thrown post (m.mapError f) (m'.mapError f') := by
  cases hm with
  | ok h => exact .ok h
  | error h => exact .error (hf _ _ h)

theorem Corresponds.imp {post' : α → α' → Prop} (hm : Corresponds raised post m m')
    (h : ∀ a a', post a a' → post' a a') : Corresponds raised post' m m' := by
  cases hm with
  | ok ha => exact .ok (h _ _ ha)
  | error he => exact .error he

theorem Corresponds.refl {post : α → α → Prop} {raised : ε → ε → Prop} (hpost : ∀ a, post a a)
    (hraised : ∀ e, raised e e) (m : Except ε α) : Corresponds raised post m m := by
  cases m with
  | ok a => exact .ok (hpost a)
  | error e => exact .error (hraised e)

theorem Corresponds.mapM {f : α → Except ε β} {f' : α' → Except ε' β'} {xs : List α}
    {xs' : List α'} (h : List.Forall₂ post xs xs')
    (hf : ∀ a a', post a a' → Corresponds raised goal (f a) (f' a')) :
    Corresponds raised (List.Forall₂ goal) (xs.mapM f) (xs'.mapM f') := by
  induction h with
  | nil => exact .ok .nil
  | cons hhead _ ih =>
      rw [List.mapM_cons, List.mapM_cons]
      refine (hf _ _ hhead).bind fun b b' hb => ih.bind fun bs bs' hbs => ?_
      exact .ok (.cons hb hbs)

end Simulation

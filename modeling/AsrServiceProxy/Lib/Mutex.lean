import Mathlib.Logic.Basic

-- A lock records its owner. Its invariant is that the owner is the one thread
-- inside the section that the lock guards.
namespace Mutex

variable {ω : Type*} {lock lock' : Option ω} {inside inside' : ω → Prop}

def Owned (lock : Option ω) (inside : ω → Prop) : Prop := ∀ o, inside o ↔ lock = some o

-- What one step of the thread `me` may do to a lock: nothing, take it when it
-- is free on entering the section, or give it back on leaving.
inductive Move (me : ω) (before after : Prop) (lock : Option ω) : Option ω → Prop
  | keep (h : after ↔ before) : Move me before after lock lock
  | enter (hfree : lock = none) (h : after) : Move me before after lock (some me)
  | leave (hin : before) (hout : ¬after) : Move me before after lock none

theorem Owned.exclusive (h : Owned lock inside) {a b : ω} (ha : inside a) (hb : inside b) :
    a = b := by
  have hab := ((h a).mp ha).symm.trans ((h b).mp hb)
  exact Option.some.inj hab

theorem Owned.not_inside (h : Owned lock inside) {a b : ω} (hl : lock = some a) (hab : b ≠ a) :
    ¬inside b := by
  intro hb
  exact hab (h.exclusive hb ((h a).mpr hl))

theorem Owned.not_inside_of_free (h : Owned lock inside) (hl : lock = none) (o : ω) :
    ¬inside o := by
  intro ho
  have hs := (h o).mp ho
  rw [hl] at hs
  cases hs

theorem Owned.move (h : Owned lock inside) {me : ω} {after : Prop}
    (hm : Move me (inside me) after lock lock') (hme : inside' me ↔ after)
    (hothers : ∀ o, o ≠ me → (inside' o ↔ inside o)) : Owned lock' inside' := by
  intro o
  cases hm with
  | keep hk =>
      by_cases ho : o = me
      · rw [ho, hme, hk]
        exact h me
      · rw [hothers o ho]
        exact h o
  | enter hfree ha =>
      by_cases ho : o = me
      · rw [ho]
        exact ⟨fun _ => rfl, fun _ => hme.mpr ha⟩
      · rw [hothers o ho]
        refine ⟨fun hi => absurd hi (h.not_inside_of_free hfree o), fun he => ?_⟩
        exact absurd (Option.some.inj he).symm ho
  | leave hin hout =>
      refine ⟨fun hi => ?_, fun he => by cases he⟩
      by_cases ho : o = me
      · rw [ho] at hi
        exact absurd (hme.mp hi) hout
      · exact absurd (h.exclusive ((hothers o ho).mp hi) hin) ho

end Mutex

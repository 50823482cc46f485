import AsrServiceProxy.Lib.Transition

-- Systems that come to rest when they are left alone: no schedule of their own steps
-- goes on for ever, as each step lowers a rank.
namespace Transition.System

variable {σ α : Type*} (S : System σ α)

-- No action of the kind can be taken any more.
def Resting (inner : α → Prop) (s : σ) : Prop := ∀ a, inner a → S.step s a = none

-- Every schedule of such actions ends after so many steps, and every one that has not
-- come to rest can be continued.
structure Settles (inner : α → Prop) (s : σ) : Prop where
  bounded : ∃ bound, ∀ actions t, (∀ a ∈ actions, inner a) → S.run s actions = some t →
    actions.length ≤ bound
  rests : ∀ actions t, (∀ a ∈ actions, inner a) → S.run s actions = some t →
    ∃ more u, (∀ a ∈ more, inner a) ∧ S.run t more = some u ∧ S.Resting inner u

variable {S} {inner : α → Prop} {I : σ → Prop} {rank : σ → ℕ} {s t : σ}

theorem run_lowers (hstep : ∀ s a t, I s → inner a → S.step s a = some t → I t ∧ rank t < rank s)
    (h : I s) {actions : List α} (hinner : ∀ a ∈ actions, inner a)
    (hr : S.run s actions = some t) : I t ∧ actions.length + rank t ≤ rank s := by
  induction actions generalizing s with
  | nil =>
      cases hr
      exact ⟨h, by simp⟩
  | cons a rest ih =>
      obtain ⟨u, hu, hr⟩ := Option.bind_eq_some_iff.mp hr
      obtain ⟨ha, hrest⟩ := List.forall_mem_cons.mp hinner
      obtain ⟨hi, hlt⟩ := hstep s a u h ha hu
      obtain ⟨ht, hle⟩ := ih hi hrest hr
      refine ⟨ht, ?_⟩
      rw [List.length_cons]
      omega

theorem exists_resting (hstep : ∀ s a t, I s → inner a → S.step s a = some t → I t ∧ rank t < rank s)
    (h : I s) : ∃ actions t, (∀ a ∈ actions, inner a) ∧ S.run s actions = some t ∧
      S.Resting inner t := by
  induction hn : rank s using Nat.strong_induction_on generalizing s with
  | h n ih =>
      by_cases hrest : S.Resting inner s
      · exact ⟨[], s, by simp, rfl, hrest⟩
      · obtain ⟨a, ha⟩ := not_forall.mp hrest
        obtain ⟨hinner, hne⟩ := Classical.not_imp.mp ha
        obtain ⟨t, ht⟩ := Option.ne_none_iff_exists'.mp hne
        obtain ⟨hi, hlt⟩ := hstep s a t h hinner ht
        obtain ⟨actions, u, hall, hr, hu⟩ := ih (rank t) (by omega) hi rfl
        refine ⟨a :: actions, u, List.forall_mem_cons.mpr ⟨hinner, hall⟩, ?_, hu⟩
        rw [System.run, ht]
        exact hr

theorem Settles.of_rank
    (hstep : ∀ s a t, I s → inner a → S.step s a = some t → I t ∧ rank t < rank s) (h : I s) :
    S.Settles inner s where
  bounded := by
    refine ⟨rank s, fun actions t hinner hr => ?_⟩
    have hle := (run_lowers hstep h hinner hr).2
    omega
  rests _ _ hinner hr := exists_resting hstep (run_lowers hstep h hinner hr).1

end Transition.System

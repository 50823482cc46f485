import Mathlib.Init

-- Computations with a state and exceptions, seen through what the state stands for.
namespace Simulation

variable {ε σ α β γ : Type}

-- From every state that stands for `pre`, `m` returns `a` in a state that stands for `post`.
def Runs (stands : σ → γ → Prop) (m : EStateM ε σ α) (pre : γ) (a : α) (post : γ) : Prop :=
  ∀ s, stands s pre → ∃ s', m s = .ok a s' ∧ stands s' post

variable {stands : σ → γ → Prop} {pre mid post : γ}

theorem Runs.pure (a : α) : Runs stands (pure a : EStateM ε σ α) pre a pre := by
  intro s hs
  exact ⟨s, rfl, hs⟩

theorem Runs.bind {m : EStateM ε σ α} {f : α → EStateM ε σ β} {a : α} {b : β}
    (hm : Runs stands m pre a mid) (hf : Runs stands (f a) mid b post) :
    Runs stands (m >>= f) pre b post := by
  intro s hs
  obtain ⟨s', hs', hmid⟩ := hm s hs
  obtain ⟨s'', hs'', hpost⟩ := hf s' hmid
  exact ⟨s'', by simp [Bind.bind, EStateM.bind, hs', hs''], hpost⟩

theorem get_run (s : σ) : (get : EStateM ε σ σ) s = .ok s s := rfl

theorem modify_run (f : σ → σ) (s : σ) : (modify f : EStateM ε σ PUnit) s = .ok ⟨⟩ (f s) := rfl

-- A computation that does not touch the state.
theorem Runs.of_same {m : EStateM ε σ α} {a : α} (h : ∀ s, m s = .ok a s) :
    Runs stands m pre a pre := by
  intro s hs
  exact ⟨s, h s, hs⟩

-- From every state that stands for `pre`, `m` returns, and what it returns meets `post`
-- together with what the state after it stands for.
def Succeeds (stands : σ → γ → Prop) (m : EStateM ε σ α) (pre : γ) (post : α → γ → Prop) : Prop :=
  ∀ s, stands s pre → ∃ a s' g, m s = .ok a s' ∧ stands s' g ∧ post a g

section

variable {m : EStateM ε σ α} {f : α → EStateM ε σ β} {goal goal' : α → γ → Prop}
  {target : β → γ → Prop}

theorem Succeeds.pure {a : α} (h : goal a pre) :
    Succeeds stands (pure a : EStateM ε σ α) pre goal := by
  intro s hs
  exact ⟨a, s, pre, rfl, hs, h⟩

theorem Succeeds.bind (hm : Succeeds stands m pre goal)
    (hf : ∀ a g, goal a g → Succeeds stands (f a) g target) :
    Succeeds stands (m >>= f) pre target := by
  intro s hs
  obtain ⟨a, s', g, hrun, hs', hgoal⟩ := hm s hs
  obtain ⟨b, s'', g', hrun', hs'', htarget⟩ := hf a g hgoal s' hs'
  exact ⟨b, s'', g', by simp [Bind.bind, EStateM.bind, hrun, hrun'], hs'', htarget⟩

theorem Succeeds.imp (h : Succeeds stands m pre goal) (himp : ∀ a g, goal a g → goal' a g) :
    Succeeds stands m pre goal' := by
  intro s hs
  obtain ⟨a, s', g, hrun, hs', hgoal⟩ := h s hs
  exact ⟨a, s', g, hrun, hs', himp a g hgoal⟩

end

-- Whatever `m` returns meets `post`, and whatever it throws meets `raised`.
def Gives (m : EStateM ε σ α) (post : α → Prop) (raised : ε → Prop) : Prop :=
  ∀ s, match m s with
    | .ok a _ => post a
    | .error e _ => raised e

variable {raised : ε → Prop}

theorem Gives.pure {post : α → Prop} {a : α} (h : post a) :
    Gives (pure a : EStateM ε σ α) post raised := fun _ => h

theorem Gives.throw {post : α → Prop} {e : ε} (h : raised e) :
    Gives (throw e : EStateM ε σ α) post raised := fun _ => h

theorem Gives.bind {mid : α → Prop} {post : β → Prop} {m : EStateM ε σ α}
    {f : α → EStateM ε σ β} (hm : Gives m mid raised) (hf : ∀ a, mid a → Gives (f a) post raised) :
    Gives (m >>= f) post raised := by
  intro s
  have hs := hm s
  simp only [Bind.bind, EStateM.bind]
  cases h : m s with
  | ok a s' =>
      rw [h] at hs
      exact hf a hs s'
  | error e s' =>
      rw [h] at hs
      exact hs

theorem Gives.ite {c : Prop} [Decidable c] {post : α → Prop} {m m' : EStateM ε σ α}
    (hm : c → Gives m post raised) (hm' : ¬c → Gives m' post raised) :
    Gives (if c then m else m') post raised := by
  by_cases h : c
  · rw [if_pos h]
    exact hm h
  · rw [if_neg h]
    exact hm' h

theorem Gives.imp {post post' : α → Prop} {m : EStateM ε σ α} (h : Gives m post raised)
    (himp : ∀ a, post a → post' a) : Gives m post' raised := by
  intro s
  have hs := h s
  cases hm : m s with
  | ok a s' =>
      rw [hm] at hs
      exact himp a hs
  | error e s' =>
      rw [hm] at hs
      exact hs

theorem Gives.raises {post : α → Prop} {raised' : ε → Prop} {m : EStateM ε σ α}
    (h : Gives m post raised) (himp : ∀ e, raised e → raised' e) : Gives m post raised' := by
  intro s
  have hs := h s
  cases hm : m s with
  | ok a s' =>
      rw [hm] at hs
      exact hs
  | error e s' =>
      rw [hm] at hs
      exact himp e hs

-- From every state that stands for `pre`, what `m` returns meets `post` together with
-- what the state after it stands for, and what it throws meets `raised`.
def Meets (stands : σ → γ → Prop) (m : EStateM ε σ α) (pre : γ) (post : α → γ → Prop)
    (raised : ε → Prop) : Prop :=
  ∀ s, stands s pre → match m s with
    | .ok a s' => ∃ g, stands s' g ∧ post a g
    | .error e _ => raised e

section

variable {stands : σ → γ → Prop} {pre : γ} {m m' : EStateM ε σ α} {f : α → EStateM ε σ β}
  {post post' : α → γ → Prop} {target : β → γ → Prop} {raised : ε → Prop}

theorem Meets.pure {a : α} (h : post a pre) :
    Meets stands (pure a : EStateM ε σ α) pre post raised := fun _ hs => ⟨pre, hs, h⟩

theorem Meets.throw {e : ε} (h : raised e) :
    Meets stands (throw e : EStateM ε σ α) pre post raised := fun _ _ => h

theorem Meets.bind (hm : Meets stands m pre post raised)
    (hf : ∀ a g, post a g → Meets stands (f a) g target raised) :
    Meets stands (m >>= f) pre target raised := by
  intro s hs
  have hfirst := hm s hs
  simp only [Bind.bind, EStateM.bind]
  cases h : m s with
  | ok a s' =>
      rw [h] at hfirst
      obtain ⟨g, hs', hpost⟩ := hfirst
      exact hf a g hpost s' hs'
  | error e s' =>
      rw [h] at hfirst
      exact hfirst

-- A first step that returns.
theorem Meets.after (hm : Succeeds stands m pre post)
    (hf : ∀ a g, post a g → Meets stands (f a) g target raised) :
    Meets stands (m >>= f) pre target raised := by
  intro s hs
  obtain ⟨a, s', g, hrun, hs', hpost⟩ := hm s hs
  simp only [Bind.bind, EStateM.bind, hrun]
  exact hf a g hpost s' hs'

theorem Meets.of_succeeds (h : Succeeds stands m pre post) : Meets stands m pre post raised := by
  intro s hs
  obtain ⟨a, s', g, hrun, hs', hpost⟩ := h s hs
  simp only [hrun]
  exact ⟨g, hs', hpost⟩

theorem Meets.imp (h : Meets stands m pre post raised) (himp : ∀ a g, post a g → post' a g) :
    Meets stands m pre post' raised := by
  intro s hs
  have hresult := h s hs
  cases hm : m s with
  | ok a s' =>
      rw [hm] at hresult
      obtain ⟨g, hs', hpost⟩ := hresult
      exact ⟨g, hs', himp a g hpost⟩
  | error e s' =>
      rw [hm] at hresult
      exact hresult

theorem Meets.raises {raised' : ε → Prop} (h : Meets stands m pre post raised)
    (himp : ∀ e, raised e → raised' e) : Meets stands m pre post raised' := by
  intro s hs
  have hresult := h s hs
  cases hm : m s with
  | ok a s' =>
      rw [hm] at hresult
      exact hresult
  | error e s' =>
      rw [hm] at hresult
      exact himp e hresult

theorem Meets.ite {c : Prop} [Decidable c] (hm : c → Meets stands m pre post raised)
    (hm' : ¬c → Meets stands m' pre post raised) :
    Meets stands (if c then m else m') pre post raised := by
  by_cases h : c
  · rw [if_pos h]
    exact hm h
  · rw [if_neg h]
    exact hm' h

end

-- The same where the state is known after an exception too.
def Results (stands : σ → γ → Prop) (m : EStateM ε σ α) (pre : γ) (post : Except ε α → γ → Prop) :
    Prop :=
  ∀ s, stands s pre → match m s with
    | .ok a s' => ∃ g, stands s' g ∧ post (.ok a) g
    | .error e s' => ∃ g, stands s' g ∧ post (.error e) g

section

variable {stands : σ → γ → Prop} {pre : γ} {m m' : EStateM ε σ α} {f : α → EStateM ε σ β}
  {post post' : Except ε α → γ → Prop} {target : Except ε β → γ → Prop}

theorem Results.pure {a : α} (h : post (.ok a) pre) :
    Results stands (pure a : EStateM ε σ α) pre post := fun _ hs => ⟨pre, hs, h⟩

theorem Results.throw {e : ε} (h : post (.error e) pre) :
    Results stands (throw e : EStateM ε σ α) pre post := fun _ hs => ⟨pre, hs, h⟩

theorem Results.bind (hm : Results stands m pre post)
    (hok : ∀ a g, post (.ok a) g → Results stands (f a) g target)
    (herror : ∀ e g, post (.error e) g → target (.error e) g) :
    Results stands (m >>= f) pre target := by
  intro s hs
  have hfirst := hm s hs
  simp only [Bind.bind, EStateM.bind]
  cases h : m s with
  | ok a s' =>
      rw [h] at hfirst
      obtain ⟨g, hs', hpost⟩ := hfirst
      exact hok a g hpost s' hs'
  | error e s' =>
      rw [h] at hfirst
      obtain ⟨g, hs', hpost⟩ := hfirst
      exact ⟨g, hs', herror e g hpost⟩

-- A first step that returns.
theorem Results.bind_runs {a : α} {mid : γ} (hm : Runs stands m pre a mid)
    (hf : Results stands (f a) mid target) : Results stands (m >>= f) pre target := by
  intro s hs
  obtain ⟨s', hs', hmid⟩ := hm s hs
  have hrest := hf s' hmid
  simp only [Bind.bind, EStateM.bind, hs']
  exact hrest

theorem Results.imp (h : Results stands m pre post) (himp : ∀ r g, post r g → post' r g) :
    Results stands m pre post' := by
  intro s hs
  have hresult := h s hs
  cases hm : m s with
  | ok a s' =>
      rw [hm] at hresult
      obtain ⟨g, hs', hpost⟩ := hresult
      exact ⟨g, hs', himp _ g hpost⟩
  | error e s' =>
      rw [hm] at hresult
      obtain ⟨g, hs', hpost⟩ := hresult
      exact ⟨g, hs', himp _ g hpost⟩

theorem Results.ite {c : Prop} [Decidable c] (hm : c → Results stands m pre post)
    (hm' : ¬c → Results stands m' pre post) :
    Results stands (if c then m else m') pre post := by
  by_cases h : c
  · rw [if_pos h]
    exact hm h
  · rw [if_neg h]
    exact hm' h

end

-- What the run of `m` from one state ends with.
def RunsTo (m : EStateM ε σ α) (s : σ) (post : α → σ → Prop) (raised : ε → σ → Prop) : Prop :=
  match m s with
  | .ok a s' => post a s'
  | .error e s' => raised e s'

section

variable {m m' : EStateM ε σ α} {f : α → EStateM ε σ β} {s : σ} {goal goal' : α → σ → Prop}
  {target : β → σ → Prop} {raised : ε → σ → Prop}

-- The run of the first step is at hand for the second one.
theorem RunsTo.bind (hm : RunsTo m s goal raised)
    (hf : ∀ a s', m s = .ok a s' → goal a s' → RunsTo (f a) s' target raised) :
    RunsTo (m >>= f) s target raised := by
  unfold RunsTo at hm ⊢
  simp only [Bind.bind, EStateM.bind]
  cases hrun : m s with
  | ok a s' =>
      rw [hrun] at hm
      exact hf a s' hrun hm
  | error e s' =>
      rw [hrun] at hm
      exact hm

theorem RunsTo.imp (h : RunsTo m s goal raised) (himp : ∀ a s', goal a s' → goal' a s') :
    RunsTo m s goal' raised := by
  unfold RunsTo at h ⊢
  cases hrun : m s with
  | ok a s' =>
      rw [hrun] at h
      exact himp a s' h
  | error e s' =>
      rw [hrun] at h
      exact h

theorem RunsTo.raises {raised' : ε → σ → Prop} (h : RunsTo m s goal raised)
    (himp : ∀ e s', raised e s' → raised' e s') : RunsTo m s goal raised' := by
  unfold RunsTo at h ⊢
  cases hrun : m s with
  | ok a s' =>
      rw [hrun] at h
      exact h
  | error e s' =>
      rw [hrun] at h
      exact himp e s' h

theorem RunsTo.map {g : α → β} (h : RunsTo m s (fun a s' => target (g a) s') raised) :
    RunsTo (g <$> m) s target raised := by
  unfold RunsTo at h ⊢
  simp only [Functor.map, EStateM.map]
  cases hrun : m s with
  | ok a s' =>
      rw [hrun] at h
      exact h
  | error e s' =>
      rw [hrun] at h
      exact h

theorem RunsTo.of_ok {a : α} {s' : σ} (h : RunsTo m s goal raised) (hrun : m s = .ok a s') :
    goal a s' := by
  unfold RunsTo at h
  rw [hrun] at h
  exact h

theorem RunsTo.of_error {e : ε} {s' : σ} (h : RunsTo m s goal raised) (hrun : m s = .error e s') :
    raised e s' := by
  unfold RunsTo at h
  rw [hrun] at h
  exact h

theorem RunsTo.ite {c : Prop} [Decidable c] (hm : c → RunsTo m s goal raised)
    (hm' : ¬c → RunsTo m' s goal raised) : RunsTo (if c then m else m') s goal raised := by
  by_cases h : c
  · rw [if_pos h]
    exact hm h
  · rw [if_neg h]
    exact hm' h

end

end Simulation

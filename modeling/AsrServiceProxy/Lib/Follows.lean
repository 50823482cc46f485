import AsrServiceProxy.Lib.Runs

-- Two computations side by side: where the first one returns, the second one does too.
namespace Simulation

variable {ε σ α α' β β' γ : Type}

-- From states that stand for `pre` and `pre'`, what `m` returns is `lost`, or `m'`
-- returns as well and the two results meet `post`.
def Follows (stands : σ → γ → Prop) (m : EStateM ε σ α) (m' : EStateM ε σ α') (pre pre' : γ)
    (post : α → γ → α' → γ → Prop) (lost : α → γ → Prop) : Prop :=
  ∀ s s', stands s pre → stands s' pre' → ∀ a t, m s = .ok a t →
    (∃ g, stands t g ∧ lost a g) ∨
      ∃ a' t' g g', m' s' = .ok a' t' ∧ stands t g ∧ stands t' g' ∧ post a g a' g'

variable {stands : σ → γ → Prop} {m : EStateM ε σ α} {m' : EStateM ε σ α'} {pre pre' : γ}
  {f : α → EStateM ε σ β} {f' : α' → EStateM ε σ β'} {post post' : α → γ → α' → γ → Prop}
  {target : β → γ → β' → γ → Prop} {lost lost' : α → γ → Prop} {astray : β → γ → Prop}

theorem Follows.pure {a : α} {a' : α'} (h : post a pre a' pre') :
    Follows stands (pure a : EStateM ε σ α) (pure a' : EStateM ε σ α') pre pre' post lost := by
  intro s s' hs hs' b t hm
  obtain ⟨rfl, rfl⟩ := EStateM.Result.ok.inj hm
  exact .inr ⟨a', s', pre, pre', rfl, hs, hs', h⟩

theorem Follows.throw {e : ε} :
    Follows stands (throw e : EStateM ε σ α) m' pre pre' post lost := by
  intro s s' _ _ a t hm
  exact absurd hm nofun

-- What is lost after the first steps is lost after the second ones, too.
theorem Follows.bind (hm : Follows stands m m' pre pre' post lost)
    (hf : ∀ a g a' g', post a g a' g' → Follows stands (f a) (f' a') g g' target astray)
    (hlost : ∀ a g, lost a g → Meets stands (f a) g astray fun _ => True) :
    Follows stands (m >>= f) (m' >>= f') pre pre' target astray := by
  intro s s' hs hs' b t hrun
  simp only [Bind.bind, EStateM.bind] at hrun
  cases h : m s with
  | error e u =>
      rw [h] at hrun
      exact absurd hrun nofun
  | ok a u =>
      rw [h] at hrun
      rcases hm s s' hs hs' a u h with ⟨g, hu, hg⟩ | ⟨a', u', g, g', h', hu, hu', hpost⟩
      · left
        have hrest := hlost a g hg u hu
        dsimp only at hrun
        rw [hrun] at hrest
        exact hrest
      · simp only [Bind.bind, EStateM.bind, h']
        exact hf a g a' g' hpost u u' hu hu' b t hrun

-- First steps that lose nothing.
theorem Follows.seq (hm : Follows stands m m' pre pre' post fun _ _ => False)
    (hf : ∀ a g a' g', post a g a' g' → Follows stands (f a) (f' a') g g' target astray) :
    Follows stands (m >>= f) (m' >>= f') pre pre' target astray :=
  Follows.bind hm hf fun _ _ => False.elim

theorem Follows.imp (h : Follows stands m m' pre pre' post lost)
    (himp : ∀ a g a' g', post a g a' g' → post' a g a' g')
    (hlost : ∀ a g, lost a g → lost' a g) : Follows stands m m' pre pre' post' lost' := by
  intro s s' hs hs' a t hrun
  rcases h s s' hs hs' a t hrun with ⟨g, ht, hg⟩ | ⟨a', t', g, g', hrun', ht, ht', hpost⟩
  · exact .inl ⟨g, ht, hlost a g hg⟩
  · exact .inr ⟨a', t', g, g', hrun', ht, ht', himp a g a' g' hpost⟩

theorem Follows.ite {c : Prop} [Decidable c] {n : EStateM ε σ α} {n' : EStateM ε σ α'}
    (hm : c → Follows stands m m' pre pre' post lost)
    (hn : ¬c → Follows stands n n' pre pre' post lost) :
    Follows stands (if c then m else n) (if c then m' else n') pre pre' post lost := by
  by_cases h : c
  · rw [if_pos h, if_pos h]
    exact hm h
  · rw [if_neg h, if_neg h]
    exact hn h

section

variable {n n' : EStateM ε σ α} {g g' : α → EStateM ε σ β} {stop trap : ε}

-- The runs from one state are the same, or the first one stops where the second one is
-- trapped.
def Agrees (stop trap : ε) (n n' : EStateM ε σ α) : Prop :=
  ∀ s, n s = n' s ∨ (∃ t, n s = .error stop t) ∧ ∃ t, n' s = .error trap t

theorem Agrees.refl (n : EStateM ε σ α) : Agrees stop trap n n := fun _ => .inl rfl

theorem Agrees.bind (hn : Agrees stop trap n n') (hg : ∀ a, Agrees stop trap (g a) (g' a)) :
    Agrees stop trap (n >>= g) (n' >>= g') := by
  intro s
  simp only [Bind.bind, EStateM.bind]
  rcases hn s with heq | ⟨⟨t, hstop⟩, ⟨t', htrap⟩⟩
  · rw [heq]
    cases n' s with
    | ok a u => exact hg a u
    | error e u => exact .inl rfl
  · rw [hstop, htrap]
    exact .inr ⟨⟨t, rfl⟩, ⟨t', rfl⟩⟩

-- First steps that are the same.
theorem Agrees.seq (hg : ∀ a, Agrees stop trap (g a) (g' a)) :
    Agrees stop trap (n >>= g) (n >>= g') :=
  (Agrees.refl n).bind hg

theorem Agrees.ite {c : Prop} [Decidable c] {k k' : EStateM ε σ α} (hn : c → Agrees stop trap n n')
    (hk : ¬c → Agrees stop trap k k') :
    Agrees stop trap (if c then n else k) (if c then n' else k') := by
  by_cases h : c
  · rw [if_pos h, if_pos h]
    exact hn h
  · rw [if_neg h, if_neg h]
    exact hk h

end

end Simulation

import Mathlib.Order.Lattice

-- Recursion that is cut off at a depth: a computation is a family, one for each
-- depth, of state transformers that may throw, and `none` is a cut.
namespace Fuel

variable {ε σ α β : Type}

-- From some depth on the computation has one outcome, and that meets `post`.
def Ends (m : ℕ → ExceptT ε (StateT σ Option) α) (s : σ) (post : Except ε α → σ → Prop) : Prop :=
  ∃ n r s', (∀ k, n ≤ k → m k s = some (r, s')) ∧ post r s'

variable {m : ℕ → ExceptT ε (StateT σ Option) α} {f : ℕ → α → ExceptT ε (StateT σ Option) β}
  {s : σ} {mid post : Except ε α → σ → Prop} {post' : Except ε β → σ → Prop}

-- A computation without recursion.
theorem Ends.of_eq {m : ExceptT ε (StateT σ Option) α} {r : Except ε α} {s' : σ}
    (h : m s = some (r, s')) (hpost : post r s') : Ends (fun _ => m) s post :=
  ⟨0, r, s', fun _ _ => h, hpost⟩

theorem Ends.imp (h : Ends m s mid) (himp : ∀ r s', mid r s' → post r s') : Ends m s post := by
  obtain ⟨n, r, s', heq, hmid⟩ := h
  exact ⟨n, r, s', heq, himp r s' hmid⟩

-- One level of the recursion.
theorem Ends.of_succ (h : Ends (fun n => m (n + 1)) s post) : Ends m s post := by
  obtain ⟨n, r, s', heq, hpost⟩ := h
  refine ⟨n + 1, r, s', ?_, hpost⟩
  intro k hk
  obtain ⟨k, rfl⟩ : ∃ j, k = j + 1 := ⟨k - 1, by omega⟩
  exact heq k (by omega)

theorem Ends.bind (hm : Ends m s mid)
    (hok : ∀ a s', mid (.ok a) s' → Ends (fun n => f n a) s' post')
    (herror : ∀ e s', mid (.error e) s' → post' (.error e) s') :
    Ends (fun n => m n >>= f n) s post' := by
  obtain ⟨n, r, s', heq, hmid⟩ := hm
  cases r with
  | error e =>
      refine ⟨n, .error e, s', ?_, herror e s' hmid⟩
      intro k hk
      exact congrArg (fun x => x >>= _) (heq k hk)
  | ok a =>
      obtain ⟨n', r', s'', heq', hpost⟩ := hok a s' hmid
      refine ⟨max n n', r', s'', ?_, hpost⟩
      intro k hk
      have hfirst := heq k ((le_max_left n n').trans hk)
      have hrest := heq' k ((le_max_right n n').trans hk)
      exact (congrArg (fun x => x >>= _) hfirst).trans hrest

-- A first step without recursion.
theorem Ends.bind_of_eq {m : ExceptT ε (StateT σ Option) α} {a : α} {s' : σ}
    (h : m s = some (.ok a, s')) (hf : Ends (fun n => f n a) s' post') :
    Ends (fun n => m >>= f n) s post' := by
  obtain ⟨n, r, s'', heq, hpost⟩ := hf
  refine ⟨n, r, s'', ?_, hpost⟩
  intro k hk
  exact (congrArg (fun x => x >>= _) h).trans (heq k hk)

theorem Ends.tryCatch {handler : ℕ → ε → ExceptT ε (StateT σ Option) α} (hm : Ends m s mid)
    (hok : ∀ a s', mid (.ok a) s' → post (.ok a) s')
    (herror : ∀ e s', mid (.error e) s' → Ends (fun n => handler n e) s' post) :
    Ends (fun n => tryCatch (m n) (handler n)) s post := by
  obtain ⟨n, r, s', heq, hmid⟩ := hm
  cases r with
  | ok a =>
      refine ⟨n, .ok a, s', ?_, hok a s' hmid⟩
      intro k hk
      exact congrArg (fun x => x >>= _) (heq k hk)
  | error e =>
      obtain ⟨n', r', s'', heq', hpost⟩ := herror e s' hmid
      refine ⟨max n n', r', s'', ?_, hpost⟩
      intro k hk
      have hfirst := heq k ((le_max_left n n').trans hk)
      have hrest := heq' k ((le_max_right n n').trans hk)
      exact (congrArg (fun x => x >>= _) hfirst).trans hrest

-- Whatever outcome the computation has at one depth meets `post`.
def Always (m : ExceptT ε (StateT σ Option) α) (s : σ) (post : Except ε α → σ → Prop) : Prop :=
  ∀ r s', m s = some (r, s') → post r s'

section

variable {m : ExceptT ε (StateT σ Option) α} {f : α → ExceptT ε (StateT σ Option) β}

theorem bind_eq_of_ok {a : α} {s' : σ} (h : m s = some (.ok a, s')) : (m >>= f) s = f a s' :=
  congrArg (fun x => x >>= _) h

theorem Always.of_eq {r : Except ε α} {s' : σ} (h : m s = some (r, s')) (hpost : post r s') :
    Always m s post := by
  intro r' s'' h'
  rw [h, Option.some.injEq, Prod.mk.injEq] at h'
  obtain ⟨rfl, rfl⟩ := h'
  exact hpost

theorem Always.imp (h : Always m s mid) (himp : ∀ r s', mid r s' → post r s') :
    Always m s post := by
  intro r s' heq
  exact himp r s' (h r s' heq)

theorem Always.bind (hm : Always m s mid) (hok : ∀ a s', mid (.ok a) s' → Always (f a) s' post')
    (herror : ∀ e s', mid (.error e) s' → post' (.error e) s') : Always (m >>= f) s post' := by
  intro r s' heq
  cases hrun : m s with
  | none =>
      have hcut : (m >>= f) s = none := congrArg (fun x => x >>= _) hrun
      rw [hcut] at heq
      cases heq
  | some result =>
      obtain ⟨first, s₁⟩ := result
      have hmid := hm first s₁ hrun
      cases first with
      | error e =>
          have hthrown : (m >>= f) s = some (.error e, s₁) := congrArg (fun x => x >>= _) hrun
          rw [hthrown, Option.some.injEq, Prod.mk.injEq] at heq
          obtain ⟨rfl, rfl⟩ := heq
          exact herror e s₁ hmid
      | ok a =>
          rw [bind_eq_of_ok hrun] at heq
          exact hok a s₁ hmid r s' heq

theorem Always.bind_of_eq {a : α} {s' : σ} (h : m s = some (.ok a, s'))
    (hf : Always (f a) s' post') : Always (m >>= f) s post' := by
  intro r s'' heq
  rw [bind_eq_of_ok h] at heq
  exact hf r s'' heq

theorem Always.tryCatch {handler : ε → ExceptT ε (StateT σ Option) α} (hm : Always m s mid)
    (hok : ∀ a s', mid (.ok a) s' → post (.ok a) s')
    (herror : ∀ e s', mid (.error e) s' → Always (handler e) s' post) :
    Always (tryCatch m handler) s post := by
  intro r s' heq
  cases hrun : m s with
  | none =>
      have hcut : (MonadExcept.tryCatch m handler) s = none := congrArg (fun x => x >>= _) hrun
      rw [hcut] at heq
      cases heq
  | some result =>
      obtain ⟨first, s₁⟩ := result
      have hmid := hm first s₁ hrun
      cases first with
      | ok a =>
          have hdone : (MonadExcept.tryCatch m handler) s = some (.ok a, s₁) :=
            congrArg (fun x => x >>= _) hrun
          rw [hdone, Option.some.injEq, Prod.mk.injEq] at heq
          obtain ⟨rfl, rfl⟩ := heq
          exact hok a s₁ hmid
      | error e =>
          have hnext : (MonadExcept.tryCatch m handler) s = handler e s₁ :=
            congrArg (fun x => x >>= _) hrun
          rw [hnext] at heq
          exact herror e s₁ hmid r s' heq

theorem Always.ite {c : Prop} [Decidable c] {m' : ExceptT ε (StateT σ Option) α}
    (hm : c → Always m s post) (hm' : ¬c → Always m' s post) :
    Always (if c then m else m') s post := by
  by_cases h : c
  · rw [if_pos h]
    exact hm h
  · rw [if_neg h]
    exact hm' h

-- From every state with `inv` the computation comes to one with `inv`; what it
-- returns meets `post` and what it throws `raised`.
def Maintains (inv : σ → Prop) (m : ExceptT ε (StateT σ Option) α) (post : α → Prop)
    (raised : ε → Prop) : Prop :=
  ∀ s, inv s → Always m s fun r s' =>
    inv s' ∧ (∀ a, r = .ok a → post a) ∧ ∀ e, r = .error e → raised e

variable {inv : σ → Prop} {goal goal' : α → Prop} {target : β → Prop} {raised raised' : ε → Prop}

theorem Maintains.pure {a : α} (h : goal a) :
    Maintains inv (pure a : ExceptT ε (StateT σ Option) α) goal raised := by
  intro s hs
  refine Always.of_eq rfl ⟨hs, ?_, nofun⟩
  rintro _ ⟨⟩
  exact h

theorem Maintains.throw {e : ε} (h : raised e) :
    Maintains inv (throw e : ExceptT ε (StateT σ Option) α) goal raised := by
  intro s hs
  have hrun : (MonadExcept.throw e : ExceptT ε (StateT σ Option) α) s = some (.error e, s) := rfl
  refine Always.of_eq hrun ⟨hs, nofun, ?_⟩
  rintro _ ⟨⟩
  exact h

theorem Maintains.imp (h : Maintains inv m goal raised) (himp : ∀ a, goal a → goal' a) :
    Maintains inv m goal' raised := by
  intro s hs
  refine Always.imp (h s hs) ?_
  rintro r s' ⟨hs', hok, herror⟩
  exact ⟨hs', fun a ha => himp a (hok a ha), herror⟩

theorem Maintains.bind (hm : Maintains inv m goal raised)
    (hf : ∀ a, goal a → Maintains inv (f a) target raised) : Maintains inv (m >>= f) target raised := by
  intro s hs
  refine Always.bind (hm s hs) ?_ ?_
  · rintro a s' ⟨hs', hok, _⟩
    exact hf a (hok a rfl) s' hs'
  · rintro e s' ⟨hs', _, herror⟩
    refine ⟨hs', nofun, ?_⟩
    rintro _ ⟨⟩
    exact herror e rfl

theorem Maintains.tryCatch {handler : ε → ExceptT ε (StateT σ Option) α}
    (hm : Maintains inv m goal raised')
    (hhandler : ∀ e, raised' e → Maintains inv (handler e) goal raised) :
    Maintains inv (tryCatch m handler) goal raised := by
  intro s hs
  refine Always.tryCatch (hm s hs) ?_ ?_
  · rintro a s' ⟨hs', hok, _⟩
    refine ⟨hs', ?_, nofun⟩
    rintro _ ⟨⟩
    exact hok a rfl
  · rintro e s' ⟨hs', _, herror⟩
    exact hhandler e (herror e rfl) s' hs'

theorem Maintains.ite {c : Prop} [Decidable c] {m' : ExceptT ε (StateT σ Option) α}
    (hm : c → Maintains inv m goal raised) (hm' : ¬c → Maintains inv m' goal raised) :
    Maintains inv (if c then m else m') goal raised :=
  fun s hs => Always.ite (fun h => hm h s hs) fun h => hm' h s hs

end

end Fuel

import AsrServiceProxy.Config.Resolve.Weight
import AsrServiceProxy.Lib.Entries
import AsrServiceProxy.Lib.Fuel

-- Properties of a resolution that hold of every entry of its two tables, and how
-- each operation on the tables keeps them.
namespace AsrServiceProxy.Config

open CMemory Simulation Fuel

structure Tables (memo : MemoKey → Value ℕ → Prop) (entry : Value ℕ → ResolveReplacer → Prop)
    (s : ResolveState) : Prop where
  memos : ∀ key w, (key, some w) ∈ s.memos → memo key w
  replacements : ∀ v replacer, (v, replacer) ∈ s.replacements → entry v replacer

-- Whatever `m` returns meets `post`, and it keeps the tables in order also when it throws.
abbrev KeepsTables {α : Type} (memo : MemoKey → Value ℕ → Prop)
    (entry : Value ℕ → ResolveReplacer → Prop) (m : Resolve α) (post : α → Prop) : Prop :=
  Maintains (Tables memo entry) m post fun _ => True

section

variable {α : Type} {memo : MemoKey → Value ℕ → Prop} {entry : Value ℕ → ResolveReplacer → Prop}
  {m : Resolve α} {post : α → Prop}

theorem KeepsTables.of_run (h : ∀ s, ∃ r s', m s = some (r, s') ∧ s'.memos = s.memos ∧
      s'.replacements = s.replacements ∧ ∀ a, r = .ok a → post a) :
    KeepsTables memo entry m post := by
  intro s hs
  obtain ⟨r, s', hrun, hmemos, hreplacements, hpost⟩ := h s
  refine Always.of_eq hrun ⟨⟨?_, ?_⟩, hpost, fun _ _ => trivial⟩
  · rw [hmemos]
    exact hs.memos
  · rw [hreplacements]
    exact hs.replacements

theorem KeepsTables.fromMake {make : Make ℕ α} (h : Gives make post fun _ => True) :
    KeepsTables memo entry (Resolve.fromMake make) post := by
  refine .of_run fun s => ?_
  have hgives := h s.nextId
  cases hrun : make s.nextId with
  | ok a n =>
      rw [hrun] at hgives
      refine ⟨.ok a, { s with nextId := n }, by simp [Resolve.fromMake, hrun], rfl, rfl, ?_⟩
      rintro _ ⟨⟩
      exact hgives
  | error e n =>
      exact ⟨.error e, { s with nextId := n }, by simp [Resolve.fromMake, hrun], rfl, rfl, by simp⟩

theorem KeepsTables.fromExcept {r : Except ConfigException α} (h : ∀ a, r = .ok a → post a) :
    KeepsTables memo entry (Resolve.fromExcept r) post :=
  .of_run fun s => ⟨r, s, rfl, rfl, rfl, h⟩

theorem KeepsTables.any (h : KeepsTables memo entry m post) :
    KeepsTables memo entry m fun _ => True :=
  h.imp fun _ _ => trivial

theorem KeepsTables.inNewContext (h : KeepsTables memo entry m post) :
    KeepsTables memo entry (Resolve.inNewContext m) post := by
  intro s hs r s' heq
  simp only [Resolve.inNewContext, Option.map_eq_some_iff] at heq
  obtain ⟨⟨r', s₁⟩, hrun, heq⟩ := heq
  obtain ⟨rfl, rfl⟩ := heq
  obtain ⟨hs₁, hpost⟩ := h s hs r' s₁ hrun
  exact ⟨⟨hs₁.memos, hs₁.replacements⟩, hpost⟩

theorem KeepsTables.finallyDo (hm : KeepsTables memo entry m post) {after : Resolve Unit}
    (hafter : KeepsTables memo entry after fun _ => True) :
    KeepsTables memo entry (Resolve.finallyDo m after) post := by
  have hlift : KeepsTables memo entry (ExceptT.lift m.run : Resolve (Except ConfigException α))
      fun result => ∀ a, result = .ok a → post a := by
    intro s hs r s' heq
    cases hrun : m.run s with
    | none => simp [ExceptT.lift, ExceptT.mk, Functor.map, StateT.map, hrun] at heq
    | some result =>
        simp only [ExceptT.lift, ExceptT.mk, Functor.map, StateT.map, hrun] at heq
        obtain ⟨hs', hok, _⟩ := hm s hs result.1 result.2 hrun
        cases heq
        refine ⟨hs', ?_, by simp⟩
        rintro _ ⟨⟩
        exact hok
  exact Maintains.bind hlift fun _ hresult => Maintains.bind hafter fun _ _ =>
    KeepsTables.fromExcept hresult

theorem KeepsTables.memoGet (key : MemoKey) : KeepsTables memo entry (Resolve.memoGet key)
    fun r => ∀ w, r = some w → memo key w := by
  intro s hs
  have hrun : Resolve.memoGet key s = some (.ok (s.memos.lookup key).join, s) := rfl
  refine Always.of_eq hrun ⟨hs, ?_, by simp⟩
  rintro _ ⟨⟩ w hw
  rw [Option.join_eq_some_iff] at hw
  exact hs.memos key w (Entries.mem_of_lookup hw)

theorem KeepsTables.memoPut {key : MemoKey} {r : Option (Value ℕ)}
    (h : ∀ w, r = some w → memo key w) :
    KeepsTables memo entry (Resolve.memoPut key r) fun _ => True := by
  intro s hs
  have hrun : Resolve.memoPut key r s = some (.ok (), { s with memos := (key, r) :: s.memos }) := rfl
  refine Always.of_eq hrun ⟨⟨fun key' w hmem => ?_, hs.replacements⟩, fun _ _ => trivial, by simp⟩
  rcases List.mem_cons.mp hmem with heq | hmem
  · cases heq
    exact h w rfl
  · exact hs.memos key' w hmem

theorem KeepsTables.trace (expr : SubstitutionExpression) :
    KeepsTables memo entry (Resolve.trace expr) fun _ => True :=
  .of_run fun s => ⟨.ok (), { s with expressionTrace := expr :: s.expressionTrace }, rfl, rfl, rfl,
    fun _ _ => trivial⟩

theorem KeepsTables.untrace : KeepsTables memo entry Resolve.untrace fun _ => True := by
  refine .of_run fun s => ?_
  cases htrace : s.expressionTrace with
  | nil => exact ⟨_, s, by rw [Resolve.untrace, htrace], rfl, rfl, fun _ _ => trivial⟩
  | cons expr rest =>
      exact ⟨_, { s with expressionTrace := rest }, by rw [Resolve.untrace, htrace], rfl, rfl,
        fun _ _ => trivial⟩

theorem KeepsTables.replace {v : Value ℕ} {replacer : ResolveReplacer} (h : entry v replacer) :
    KeepsTables memo entry (Resolve.replace v replacer) fun _ => True := by
  intro s hs r s' heq
  unfold Resolve.replace at heq
  split at heq
  · cases heq
    exact ⟨hs, fun _ _ => trivial, fun _ _ => trivial⟩
  · cases heq
    refine ⟨⟨hs.memos, fun v' replacer' hmem => ?_⟩, fun _ _ => trivial, fun _ _ => trivial⟩
    rcases List.mem_cons.mp hmem with heq | hmem
    · cases heq
      exact h
    · exact hs.replacements v' replacer' hmem

theorem KeepsTables.unreplace (v : Value ℕ) :
    KeepsTables memo entry (Resolve.unreplace v) fun _ => True := by
  intro s hs r s' heq
  unfold Resolve.unreplace at heq
  split at heq
  · cases heq
    exact ⟨hs, fun _ _ => trivial, fun _ _ => trivial⟩
  · cases heq
    refine ⟨⟨hs.memos, fun v' replacer hmem => ?_⟩, fun _ _ => trivial, fun _ _ => trivial⟩
    exact hs.replacements v' replacer (List.mem_filter.mp hmem).1

end

end AsrServiceProxy.Config

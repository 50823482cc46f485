import AsrServiceProxy.App.Token

namespace AsrServiceProxy.App.Token

open CMemory Transition

theorem current_cons_of_keeps {e : Event} (h : e.KeepsToken) (rest : List Event) :
    current (e :: rest) = current rest := by
  cases e <;> simp_all [current, Event.KeepsToken]

theorem exists_commit_of_current {history : List Event} {body token : Bytes}
    (h : current history = some (body, token)) :
    ∃ since older, history = since ++ .committed body token :: older ∧
      ∀ e ∈ since, e.KeepsToken := by
  induction history with
  | nil => simp [current] at h
  | cons e rest ih =>
      by_cases hk : e.KeepsToken
      · rw [current_cons_of_keeps hk] at h
        obtain ⟨since, older, rfl, hs⟩ := ih h
        refine ⟨e :: since, older, rfl, ?_⟩
        intro x hx
        rcases List.mem_cons.mp hx with rfl | hx
        · exact hk
        · exact hs x hx
      · cases e with
        | committed b t =>
            simp only [current, Option.some.injEq, Prod.mk.injEq] at h
            obtain ⟨rfl, rfl⟩ := h
            exact ⟨[], rest, rfl, by simp⟩
        | cleared => simp [current] at h
        | failed _ | urlBuilt _ _ _ | tokenEmpty _ => exact absurd trivial hk

-- `handle_response` returns RETURN_OK for a response with both texts only.
theorem handleResponse_ok {reader : Json.Reader} {mem token scopes token' scopes' : Bytes}
    (h : handleResponse reader (some mem) token scopes = .ok (.RETURN_OK, token', scopes')) :
    Grants reader (cstr mem) token' := by
  simp only [handleResponse, stdString, loadJson] at h
  obtain ⟨raw, hraw, h⟩ := except_bind_ok h
  cases hraw
  cases hr : reader (cstr mem) with
  | none => simp [hr, pure, Except.pure] at h
  | some root =>
      simp only [hr] at h
      obtain ⟨access, ha, h⟩ := except_bind_ok h
      obtain ⟨text, ht, h⟩ := except_bind_ok h
      split_ifs at h with htoken
      · simp [pure, Except.pure] at h
      obtain ⟨scope, hm, h⟩ := except_bind_ok h
      obtain ⟨scopeText, hs, h⟩ := except_bind_ok h
      split_ifs at h with hscope
      · simp [pure, Except.pure] at h
      simp only [pure, Except.pure, Except.ok.injEq, Prod.mk.injEq, true_and] at h
      obtain ⟨rfl, rfl⟩ := h
      refine ⟨root, scopeText, hr, ?_, ?_, by simpa using htoken, by simpa using hscope⟩
      · simp only [ha]
        exact ht
      · simp only [hm]
        exact hs

theorem grants_of_request {reader : Json.Reader} {transfer : Transfer} {token scopes : Bytes}
    (h : request reader transfer = .ok (.RETURN_OK, token, scopes)) :
    Grants reader (body transfer) token := by
  unfold request at h
  split_ifs at h with hc
  · simp at h
  cases hb : received transfer.2 with
  | none =>
      rw [hb] at h
      obtain ⟨_, hraw, _⟩ := except_bind_ok h
      cases hraw
  | some block =>
      have hbody : body transfer = cstr block.mem := by simp [body, hb]
      rw [hb] at h
      exact hbody ▸ handleResponse_ok h

section

variable {reader : Json.Reader} {conf : Config}

-- What a step that records `e` does to the token.
def Records (conf : Config) (s : State) (e : Event) (t : State) : Prop :=
  match e with
  | .committed body token => s.loop = .assigning body token ∧ t.asrToken = token
  | .cleared => t.asrToken = []
  | .urlBuilt _ token url =>
      token = s.asrToken ∧ token ≠ [] ∧ url = requestUrl conf token ∧ t.asrToken = s.asrToken
  | .failed _ | .tokenEmpty _ => t.asrToken = s.asrToken

-- A token that a step leaves pending was pending before or comes from a
-- response that grants it.
def Pending (s : State) (body token : Bytes) : Prop :=
  s.loop = .assign body token ∨ s.loop = .assigning body token

-- All that one step does to the token, the pending token and the history.
structure Effect (reader : Json.Reader) (conf : Config) (s : State) (a : Action) (t : State) :
    Prop where
  recorded : (t.history = s.history ∧ t.asrToken = s.asrToken) ∨
    ∃ e, t.history = e :: s.history ∧ Records conf s e t
  pending : ∀ body token, Pending t body token → Pending s body token ∨ Grants reader body token
  writes : t.asrToken = s.asrToken ∨ a = .assign ∨ a = .clear

theorem stepLoop_effect {s t : State} {a : Action} (h : stepLoop reader conf s a = some t) :
    Effect reader conf s a t := by
  cases a with
  | perform server =>
      simp only [stepLoop] at h
      split_ifs at h with hl
      split at h
      · cases h
        exact ⟨.inl ⟨rfl, rfl⟩, by simp [Pending], .inl rfl⟩
      · rename_i token scopes hr
        cases h
        refine ⟨.inl ⟨rfl, rfl⟩, ?_, .inl rfl⟩
        intro b tok hp
        simp only [Pending, Loop.assign.injEq, reduceCtorEq, or_false] at hp
        obtain ⟨rfl, rfl⟩ := hp
        exact .inr (grants_of_request hr)
      · cases h
        exact ⟨.inr ⟨_, rfl, rfl⟩, by simp [Pending], .inl rfl⟩
  | retry =>
      simp only [stepLoop] at h
      split_ifs at h
      cases h
      exact ⟨.inl ⟨rfl, rfl⟩, by simp [Pending], .inl rfl⟩
  | lockAssign =>
      simp only [stepLoop] at h
      split at h
      · rename_i b tok hl hm
        cases h
        refine ⟨.inl ⟨rfl, rfl⟩, ?_, .inl rfl⟩
        intro b' tok' hp
        simp only [Pending, Loop.assigning.injEq, reduceCtorEq, false_or] at hp
        obtain ⟨rfl, rfl⟩ := hp
        exact .inl (.inl hl)
      · cases h
  | assign =>
      simp only [stepLoop] at h
      split at h
      · rename_i b tok hl
        cases h
        exact ⟨.inr ⟨_, rfl, hl, rfl⟩, by simp [Pending], .inr (.inl rfl)⟩
      · cases h
  | expire =>
      simp only [stepLoop] at h
      split_ifs at h
      cases h
      exact ⟨.inl ⟨rfl, rfl⟩, by simp [Pending], .inl rfl⟩
  | lockClear =>
      simp only [stepLoop] at h
      split_ifs at h
      cases h
      exact ⟨.inl ⟨rfl, rfl⟩, by simp [Pending], .inl rfl⟩
  | clear =>
      simp only [stepLoop] at h
      split_ifs at h
      cases h
      exact ⟨.inr ⟨_, rfl, rfl⟩, by simp [Pending], .inr (.inr rfl)⟩
  | call _ | lockCall _ | buildUrl _ => cases h

theorem stepCall_effect {s t : State} {a : Action} (h : stepCall conf s a = some t) :
    Effect reader conf s a t := by
  cases a with
  | call c =>
      simp only [stepCall] at h
      split_ifs at h
      cases h
      exact ⟨.inl ⟨rfl, rfl⟩, fun _ _ hp => .inl hp, .inl rfl⟩
  | lockCall c =>
      simp only [stepCall] at h
      split_ifs at h
      cases h
      exact ⟨.inl ⟨rfl, rfl⟩, fun _ _ hp => .inl hp, .inl rfl⟩
  | buildUrl c =>
      simp only [stepCall] at h
      split_ifs at h with hl
      by_cases he : s.asrToken = []
      · simp only [buildUrl, he, List.isEmpty_nil, ite_true, Option.some.injEq] at h
        subst h
        exact ⟨.inr ⟨_, rfl, he.symm⟩, fun _ _ hp => .inl hp, .inl he.symm⟩
      · simp only [buildUrl, List.isEmpty_iff, he, ite_false, Option.some.injEq] at h
        subst h
        exact ⟨.inr ⟨_, rfl, rfl, he, rfl, rfl⟩, fun _ _ hp => .inl hp, .inl rfl⟩
  | perform _ | retry | lockAssign | assign | expire | lockClear | clear => cases h

theorem step_effect {s t : State} {a : Action} (h : step reader conf s a = some t) :
    Effect reader conf s a t := by
  unfold step at h
  split_ifs at h
  rcases Option.or_eq_some_iff.mp h with hl | ⟨_, hc⟩
  · exact stepLoop_effect hl
  · exact stepCall_effect hc

-- Every entry of the history is backed by the entries before it.
def Justified (reader : Json.Reader) (conf : Config) : List Event → Prop
  | [] => True
  | .committed body token :: rest => Grants reader body token ∧ Justified reader conf rest
  | .urlBuilt _ token url :: rest =>
      (token ≠ [] ∧ url = requestUrl conf token ∧ ∃ body, current rest = some (body, token)) ∧
        Justified reader conf rest
  | _ :: rest => Justified reader conf rest

theorem Justified.of_append {before rest : List Event}
    (h : Justified reader conf (before ++ rest)) : Justified reader conf rest := by
  induction before with
  | nil => exact h
  | cons e before ih =>
      cases e with
      | committed | urlBuilt => exact ih h.2
      | failed | cleared | tokenEmpty => exact ih h

structure Valid (reader : Json.Reader) (conf : Config) (s : State) : Prop where
  token : s.asrToken = ((current s.history).map Prod.snd).getD []
  pending : ∀ body token, Pending s body token → Grants reader body token
  history : Justified reader conf s.history

theorem initial_valid : Valid reader conf initial :=
  ⟨rfl, by simp [Pending, initial], trivial⟩

theorem step_valid {s t : State} {a : Action} (hv : Valid reader conf s)
    (h : step reader conf s a = some t) : Valid reader conf t := by
  obtain ⟨hrec, hpend, _⟩ := step_effect h
  have hp : ∀ body token, Pending t body token → Grants reader body token := by
    intro body token ht
    rcases hpend body token ht with hs | hg
    · exact hv.pending body token hs
    · exact hg
  rcases hrec with ⟨hh, ht⟩ | ⟨e, hh, he⟩
  · exact ⟨by rw [ht, hh]; exact hv.token, hp, hh ▸ hv.history⟩
  · refine ⟨?_, hp, ?_⟩ <;> rw [hh]
    · cases e with
      | committed body token => exact he.2
      | cleared => exact he
      | urlBuilt c token url => exact he.2.2.2.trans hv.token
      | failed | tokenEmpty => exact he.trans hv.token
    · cases e with
      | committed body token => exact ⟨hv.pending body token (.inr he.1), hv.history⟩
      | urlBuilt c token url =>
          obtain ⟨rfl, hne, hu, _⟩ := he
          refine ⟨⟨hne, hu, ?_⟩, hv.history⟩
          have ht := hv.token
          cases hc : current s.history with
          | none => exact absurd (by simpa [hc] using ht) hne
          | some pair => exact ⟨pair.1, by simp [ht, hc]⟩
      | cleared | failed | tokenEmpty => exact hv.history

theorem reachable_valid {s : State} (h : (system reader conf).Reachable s) :
    Valid reader conf s := by
  refine System.Reachable.invariant (S := system reader conf) ?_ ?_ h
  · rintro _ rfl
    exact initial_valid
  · intro s a t hv hs
    exact step_valid hv hs

end

-- Every URL that a `call` built comes from the token of the last commit, with
-- no clearing since; the token is written by a commit or a clearing only, and
-- a pass of the loop that got no token goes back to sleep.
theorem token_use_valid (reader : Json.Reader) (conf : Config) {s : State}
    (h : (system reader conf).Reachable s) :
    (∀ before c token url earlier, s.history = before ++ .urlBuilt c token url :: earlier →
      token ≠ [] ∧ url = requestUrl conf token ∧
        ∃ since body older, earlier = since ++ .committed body token :: older ∧
          (∀ e ∈ since, e.KeepsToken) ∧ Grants reader body token) ∧
    (∀ a t, step reader conf s a = some t →
      t.asrToken = s.asrToken ∨ a = .assign ∨ a = .clear) ∧
    (∀ server t, step reader conf s (.perform server) = some t →
      (∀ token scopes, request reader (server (tokenUrl conf)) ≠ .ok (.RETURN_OK, token, scopes)) →
      t.asrToken = s.asrToken ∧ (t.loop = .retrySleep ∨ t.loop = .terminated)) := by
  have hv := reachable_valid h
  refine ⟨?_, fun a t hs => (step_effect hs).writes, ?_⟩
  · intro before c token url earlier hh
    have hj := (hh ▸ hv.history).of_append
    obtain ⟨⟨hne, hu, body, hc⟩, hrest⟩ := hj
    obtain ⟨since, older, rfl, hk⟩ := exists_commit_of_current hc
    exact ⟨hne, hu, since, body, older, rfl, hk, hrest.of_append.1⟩
  · intro server t hs hfail
    have hw := (step_effect hs).writes
    simp only [reduceCtorEq, or_false] at hw
    refine ⟨hw, ?_⟩
    unfold step at hs
    split_ifs at hs
    simp only [stepLoop, stepCall, Option.or_none] at hs
    split_ifs at hs
    split at hs
    · cases hs
      exact .inr rfl
    · rename_i token scopes hr
      exact absurd hr (hfail token scopes)
    · cases hs
      exact .inl rfl

-- A server that grants the token `t`, and an application without settings.
def grantingReader : Json.Reader := fun _ => some (.objectValue
  [(ascii "access_token", .stringValue (ascii "t")), (ascii "scope", .stringValue (ascii "s"))])

def grantingServer : Bytes → Transfer := fun _ =>
  (.CURLE_OK, [⟨fun n => some (List.replicate n 0), ascii "x"⟩])

def plainConf : Config :=
  { appKey := [], appSecretKey := [], asrServer := [], audioFormat := [], audioType := 1537 }

-- One commit and one request with the committed token.
def grantedRun : Option State :=
  (system grantingReader plainConf).run initial
    [.perform grantingServer, .lockAssign, .assign, .call 7, .lockCall 7, .buildUrl 7]

theorem token_use_valid_after_commit :
    ∃ s, grantedRun = some s ∧
      s.history = [.urlBuilt 7 (ascii "t") (requestUrl plainConf (ascii "t")),
        .committed (ascii "x") (ascii "t")] ∧
      ∃ body, Grants grantingReader body (ascii "t") := by
  obtain ⟨s, hs⟩ : ∃ s, grantedRun = some s := ⟨_, rfl⟩
  have hh : s.history = [.urlBuilt 7 (ascii "t") (requestUrl plainConf (ascii "t")),
      .committed (ascii "x") (ascii "t")] := by
    cases hs
    rfl
  obtain ⟨_, _, _, body, _, _, _, hg⟩ :=
    (token_use_valid grantingReader plainConf (System.Reachable.run (.init rfl) hs)).1 [] _ _ _ _ hh
  exact ⟨s, hs, hh, body, hg⟩

end AsrServiceProxy.App.Token

import AsrServiceProxy.Config.Parser.Comments
import AsrServiceProxy.Config.Tokenizer.Progress

-- What the parser sees of a token stream: its tokens without the comments, each with the
-- comments that go with it.
namespace AsrServiceProxy.Config.Comments

open CMemory Transition

section

variable {τ : Type} (kind : τ → Kind)

def kindAt (stream : List τ) (i : ℕ) : Option Kind := stream[i]?.map kind

-- The comment at `c` is kept until the token at `k`: no token comes between them, and no
-- two newlines in a row.
structure Waits (stream : List τ) (c k : ℕ) : Prop where
  before : c < k
  comment : kindAt kind stream c = some .comment
  between : ∀ i, c < i → i < k → kindAt kind stream i ≠ some .other
  noBlankLine : ∀ i, c < i → i + 1 < k →
    ¬(kindAt kind stream i = some .newline ∧ kindAt kind stream (i + 1) = some .newline)

-- The comment at `c` goes with the token at `k`.
structure GoesWith (stream : List τ) (c k : ℕ) : Prop where
  waits : Waits kind stream c k
  token : kindAt kind stream k = some .other

-- The places of the tokens that are no comments.
def places (stream : List τ) : List ℕ :=
  (List.range stream.length).filter fun i => kindAt kind stream i ≠ some .comment

-- What is delivered for the token at `k`: it and the comments that go with it, in order.
structure Delivers (stream : List τ) (delivered : TokenWithComments τ) (k : ℕ) : Prop where
  token : stream[k]? = some delivered.token
  comments : ∃ cs : List ℕ, cs.Pairwise (· < ·) ∧ (∀ c, c ∈ cs ↔ GoesWith kind stream c k) ∧
    delivered.comments.map some = cs.map fun c => stream[c]?

-- The last token of a stream is its end.
def Ended (stream : List τ) : Prop := stream.getLast?.map kind = some .other

-- What is still to be delivered of a stream, with the comments that were read and whether
-- a newline was read last.
def attached (pending : List τ) (afterNewline : Bool) : List τ → List (TokenWithComments τ)
  | [] => []
  | t :: rest =>
      match kind t with
      | .newline => { token := t, comments := [] } ::
          attached (if afterNewline then [] else pending) true rest
      | .comment => attached (pending ++ [t]) false rest
      | .other => { token := t, comments := pending } :: attached [] false rest

variable {kind} {stream : List τ}

theorem GoesWith.unique {c k k' : ℕ} (h : GoesWith kind stream c k)
    (h' : GoesWith kind stream c k') : k = k' := by
  by_contra hne
  rcases Nat.lt_or_gt_of_ne hne with hlt | hlt
  · exact h'.waits.between k h.waits.before hlt h.token
  · exact h.waits.between k' h'.waits.before hlt h'.token

theorem waits_succ {c k : ℕ} :
    Waits kind stream c (k + 1) ↔
      (Waits kind stream c k ∧ kindAt kind stream k ≠ some .other ∧
        ∀ i, c < i → i + 1 = k →
          ¬(kindAt kind stream i = some .newline ∧ kindAt kind stream k = some .newline)) ∨
      c = k ∧ kindAt kind stream k = some .comment := by
  constructor
  · intro h
    by_cases hc : c = k
    · exact .inr ⟨hc, hc ▸ h.comment⟩
    · have hlt : c < k := by
        have hbefore := h.before
        omega
      refine .inl ⟨⟨hlt, h.comment, ?_, ?_⟩, h.between k hlt (by omega), ?_⟩
      · intro i hi hik
        exact h.between i hi (by omega)
      · intro i hi hik
        exact h.noBlankLine i hi (by omega)
      · intro i hi hik
        subst hik
        exact h.noBlankLine i hi (by omega)
  · intro h
    rcases h with ⟨h, hother, hblank⟩ | ⟨hc, hcomment⟩
    · have hbefore := h.before
      refine ⟨by omega, h.comment, ?_, ?_⟩
      · intro i hi hik
        by_cases hlast : i = k
        · rwa [hlast]
        · exact h.between i hi (by omega)
      · intro i hi hik
        by_cases hlast : i + 1 = k
        · rw [hlast]
          exact hblank i hi hlast
        · exact h.noBlankLine i hi (by omega)
    · subst hc
      exact ⟨by omega, hcomment, by omega, by omega⟩

-- The comments that were read are those that wait.
structure Pending (kind : τ → Kind) (stream : List τ) (k : ℕ) (pending : List τ) : Prop where
  comments : ∃ cs : List ℕ, cs.Pairwise (· < ·) ∧ (∀ c, c ∈ cs ↔ Waits kind stream c k) ∧
    pending.map some = cs.map fun c => stream[c]?

theorem Pending.none {k : ℕ} (h : ∀ c, ¬Waits kind stream c k) : Pending kind stream k [] :=
  ⟨[], by simp, by simpa using h, by simp⟩

theorem kindAt_length (before : List τ) (t : τ) (rest : List τ) :
    kindAt kind (before ++ t :: rest) before.length = some (kind t) := by
  simp [kindAt]

-- A newline drops what waits when it comes behind another one.
theorem Pending.newline {k : ℕ} {pending : List τ} (h : Pending kind stream k pending)
    (hk : kindAt kind stream k = some .newline) (afterNewline : Bool)
    (hafter : ∀ i, i + 1 = k → (afterNewline = true ↔ kindAt kind stream i = some .newline)) :
    Pending kind stream (k + 1) (if afterNewline then [] else pending) := by
  obtain ⟨cs, hsorted, hcs, hpending⟩ := h.comments
  cases hnewline : afterNewline with
  | true =>
      refine .none fun c hc => ?_
      rcases waits_succ.mp hc with ⟨hwaits, -, hblank⟩ | ⟨-, hcomment⟩
      · have hbefore := hwaits.before
        obtain ⟨i, hi⟩ : ∃ i, i + 1 = k := ⟨k - 1, by omega⟩
        have hprevious := (hafter i hi).mp hnewline
        have hne : c ≠ i := by
          intro heq
          have hcomment := hwaits.comment
          rw [heq, hprevious] at hcomment
          simp at hcomment
        exact hblank i (by omega) hi ⟨hprevious, hk⟩
      · simp [hk] at hcomment
  | false =>
      refine ⟨cs, hsorted, fun c => ?_, by simpa using hpending⟩
      rw [hcs, waits_succ]
      constructor
      · intro hwaits
        refine .inl ⟨hwaits, by simp [hk], fun i _ hi hboth => ?_⟩
        have hprevious := (hafter i hi).mpr hboth.1
        simp [hnewline] at hprevious
      · intro h
        rcases h with ⟨hwaits, -, -⟩ | ⟨-, hcomment⟩
        · exact hwaits
        · simp [hk] at hcomment

theorem Pending.comment {k : ℕ} {pending : List τ} (h : Pending kind stream k pending) {t : τ}
    (ht : stream[k]? = some t) (hk : kindAt kind stream k = some .comment) :
    Pending kind stream (k + 1) (pending ++ [t]) := by
  obtain ⟨cs, hsorted, hcs, hpending⟩ := h.comments
  refine ⟨cs ++ [k], ?_, fun c => ?_, by simp [hpending, ht]⟩
  · rw [List.pairwise_append]
    refine ⟨hsorted, by simp, fun c hc other hother => ?_⟩
    rw [List.mem_singleton.mp hother]
    exact ((hcs c).mp hc).before
  · rw [List.mem_append, hcs, List.mem_singleton, waits_succ]
    simp [hk]

theorem Pending.other {k : ℕ} (hk : kindAt kind stream k = some .other) :
    Pending kind stream (k + 1) [] := by
  refine .none fun c hc => ?_
  rcases waits_succ.mp hc with ⟨-, hother, -⟩ | ⟨-, hcomment⟩
  · exact hother hk
  · simp [hk] at hcomment

theorem Pending.delivers {k : ℕ} {pending : List τ} (h : Pending kind stream k pending) {t : τ}
    (ht : stream[k]? = some t) (hk : kindAt kind stream k = some .other) :
    Delivers kind stream { token := t, comments := pending } k := by
  obtain ⟨cs, hsorted, hcs, hpending⟩ := h.comments
  refine ⟨ht, cs, hsorted, fun c => ?_, hpending⟩
  rw [hcs]
  exact ⟨fun hwaits => ⟨hwaits, hk⟩, GoesWith.waits⟩

theorem delivers_newline {k : ℕ} {t : τ} (ht : stream[k]? = some t)
    (hk : kindAt kind stream k = some .newline) :
    Delivers kind stream { token := t, comments := [] } k := by
  refine ⟨ht, [], by simp, fun c => ?_, by simp⟩
  constructor
  · simp
  · intro h
    have hother := h.token
    simp [hk] at hother

theorem attached_delivers {before rest pending : List τ} (hstream : stream = before ++ rest)
    (hpending : Pending kind stream before.length pending) (afterNewline : Bool)
    (hafter : ∀ i, i + 1 = before.length →
      (afterNewline = true ↔ kindAt kind stream i = some .newline)) :
    List.Forall₂ (Delivers kind stream) (attached kind pending afterNewline rest)
      ((List.range' before.length rest.length).filter fun i =>
        kindAt kind stream i ≠ some .comment) := by
  induction rest generalizing before pending afterNewline with
  | nil => simp [attached]
  | cons t rest ih =>
      have ht : stream[before.length]? = some t := by simp [hstream]
      have hk : kindAt kind stream before.length = some (kind t) := by
        rw [hstream, kindAt_length]
      have hnext : stream = (before ++ [t]) ++ rest := by simp [hstream]
      have hlength : (before ++ [t]).length = before.length + 1 := by simp
      -- the kind of `t` for the step behind it
      have hlast : ∀ i, i + 1 = (before ++ [t]).length → kindAt kind stream i = some (kind t) := by
        intro i hi
        rw [← hk]
        congr 1
        omega
      rw [List.length_cons, List.range'_succ, attached]
      cases hkind : kind t with
      | newline =>
          rw [hkind] at hk hlast
          have hrest := ih hnext (hlength ▸ hpending.newline hk afterNewline hafter) true
            (fun i hi => by simp [hlast i hi])
          rw [hlength] at hrest
          rw [List.filter_cons_of_pos (by simp [hk])]
          exact .cons (delivers_newline ht hk) hrest
      | comment =>
          rw [hkind] at hk hlast
          have hrest := ih hnext (hlength ▸ hpending.comment ht hk) false
            (fun i hi => by simp [hlast i hi])
          rw [hlength] at hrest
          rwa [List.filter_cons_of_neg (by simp [hk])]
      | other =>
          rw [hkind] at hk hlast
          have hrest := ih hnext (hlength ▸ Pending.other hk) false
            (fun i hi => by simp [hlast i hi])
          rw [hlength] at hrest
          rw [List.filter_cons_of_pos (by simp [hk])]
          exact .cons (hpending.delivers ht hk) hrest

theorem forall₂_delivers (stream : List τ) :
    List.Forall₂ (Delivers kind stream) (attached kind [] false stream) (places kind stream) := by
  have hnone : Pending kind stream ([] : List τ).length [] :=
    .none fun c hc => absurd hc.before (by simp)
  have h := attached_delivers (List.nil_append stream).symm hnone false (by simp)
  rwa [List.length_nil, ← List.range_eq_range'] at h

-- Without a comment that waits a newline changes nothing.
theorem attached_nil (afterNewline : Bool) (rest : List τ) :
    attached kind [] afterNewline rest = attached kind [] false rest := by
  cases rest with
  | nil => simp [attached]
  | cons t rest => cases hkind : kind t <;> simp [attached, hkind]

-- The newlines and the token behind them are what is delivered for the block.
theorem blockLoop_attached {previous : Option τ} {newlines comments tokens : List τ} {next : τ}
    {block : Block τ} (h : blockLoop kind previous newlines comments next tokens = some block) :
    newlines.map (fun t => { token := t, comments := [] }) ++
        attached kind comments (previous.map kind = some .newline) (next :: tokens) =
      block.newlines.map (fun t => { token := t, comments := [] }) ++
        { token := block.next, comments := block.comments } ::
          attached kind [] false block.tokens := by
  induction tokens generalizing previous newlines comments next with
  | nil =>
      unfold blockLoop at h
      cases hkind : kind next with
      | other =>
          rw [hkind] at h
          simp only [Option.some.injEq] at h
          simp [← h, attached, hkind]
      | _ => simp [hkind] at h
  | cons t tokens ih =>
      unfold blockLoop at h
      rw [attached]
      cases hkind : kind next with
      | newline =>
          rw [hkind] at h
          have hrest := ih h
          simpa [hkind] using hrest
      | comment =>
          rw [hkind] at h
          have hrest := ih h
          simpa [hkind] using hrest
      | other =>
          rw [hkind] at h
          simp only [Option.some.injEq] at h
          simp [← h]

theorem foldl_pushFront (newlines : List τ) (context : ParseContext τ) :
    newlines.reverse.foldl
        (fun context t => context.pushFront { token := t, comments := [] }) context =
      { context with
        buffer := newlines.map (fun t => { token := t, comments := [] }) ++ context.buffer } := by
  induction newlines with
  | nil => simp
  | cons t newlines ih =>
      rw [List.reverse_cons, List.foldl_append, ih]
      simp [ParseContext.pushFront]

-- What is to come, in the buffer and in the stream.
def upcoming (kind : τ → Kind) (context : ParseContext τ) : List (TokenWithComments τ) :=
  context.buffer ++ attached kind [] false context.tokens

theorem popFront_some {context context' : ParseContext τ} {token : TokenWithComments τ}
    (h : context.popFront = some (token, context')) : context = context'.pushFront token := by
  obtain ⟨tokens, buffer⟩ := context
  cases buffer with
  | nil => simp [ParseContext.popFront] at h
  | cons first buffer =>
      simp only [ParseContext.popFront, Option.some.injEq, Prod.mk.injEq] at h
      simp [← h.1, ← h.2, ParseContext.pushFront]

-- What is popped was in the buffer, or is read, or comes behind a block of comments.
theorem popToken_cases {context context' : ParseContext τ} {token : TokenWithComments τ}
    (h : popToken kind context = some (token, context')) :
    context = context'.pushFront token ∨
      ∃ t tokens, context = { tokens := t :: tokens, buffer := [] } ∧
        (kind t ≠ .comment ∧ token = { token := t, comments := [] } ∧
            context' = { tokens := tokens, buffer := [] } ∨
          kind t = .comment ∧ consolidateCommentBlock kind { tokens := tokens, buffer := [] } t =
            some (context'.pushFront token)) := by
  obtain ⟨tokens, buffer⟩ := context
  cases buffer with
  | cons first buffer => exact .inl (popFront_some (by simpa [popToken] using h))
  | nil =>
      cases tokens with
      | nil => simp [popToken] at h
      | cons t tokens =>
          refine .inr ⟨t, tokens, by rfl, ?_⟩
          by_cases ht : kind t = .comment
          · simp only [popToken, List.isEmpty_nil, ht, if_true] at h
            obtain ⟨consolidated, hblock, hpop⟩ := Option.bind_eq_some_iff.mp h
            exact .inr ⟨ht, by rw [hblock, popFront_some hpop]⟩
          · simp only [popToken, List.isEmpty_nil, ht, if_true, if_false, Option.some.injEq,
              Prod.mk.injEq] at h
            exact .inl ⟨ht, h.1.symm, h.2.symm⟩

theorem consolidateCommentBlock_upcoming {context context' : ParseContext τ} {t : τ}
    (hbuffer : context.buffer = []) (h : consolidateCommentBlock kind context t = some context') :
    upcoming kind context' = attached kind [] false (t :: context.tokens) := by
  obtain ⟨block, hblock, hcontext⟩ := Option.bind_eq_some_iff.mp h
  have hattached := blockLoop_attached hblock
  rw [← Option.some.inj hcontext, foldl_pushFront, upcoming]
  simp [ParseContext.pushFront, hbuffer, ← hattached]

theorem popToken_upcoming {context context' : ParseContext τ} {token : TokenWithComments τ}
    (h : popToken kind context = some (token, context')) :
    upcoming kind context = token :: upcoming kind context' := by
  rcases popToken_cases h with rfl | ⟨t, tokens, rfl, ⟨ht, rfl, rfl⟩ | ⟨ht, hblock⟩⟩
  · simp [upcoming, ParseContext.pushFront]
  · cases hkind : kind t with
    | comment => exact absurd hkind ht
    | newline => simp [upcoming, attached, hkind, attached_nil true]
    | other => simp [upcoming, attached, hkind]
  · have hupcoming := consolidateCommentBlock_upcoming (by rfl) hblock
    simpa [upcoming, ParseContext.pushFront] using hupcoming.symm

theorem blockLoop_suffix {previous : Option τ} {newlines comments tokens : List τ} {next : τ}
    {block : Block τ} (h : blockLoop kind previous newlines comments next tokens = some block) :
    block.tokens <:+ tokens := by
  induction tokens generalizing previous newlines comments next with
  | nil =>
      unfold blockLoop at h
      cases hkind : kind next with
      | other =>
          rw [hkind] at h
          simp only [Option.some.injEq] at h
          simp [← h]
      | _ => simp [hkind] at h
  | cons t tokens ih =>
      unfold blockLoop at h
      cases hkind : kind next with
      | other =>
          rw [hkind] at h
          simp only [Option.some.injEq] at h
          simp [← h]
      | _ =>
          rw [hkind] at h
          exact (ih h).trans (List.suffix_cons t tokens)

theorem blockLoop_isSome {next : τ} {tokens : List τ} (hended : Ended kind (next :: tokens))
    (previous : Option τ) (newlines comments : List τ) :
    ∃ block, blockLoop kind previous newlines comments next tokens = some block := by
  induction tokens generalizing previous newlines comments next with
  | nil =>
      have hkind : kind next = .other := by simpa [Ended] using hended
      unfold blockLoop
      simp [hkind]
  | cons t tokens ih =>
      have hended' : Ended kind (t :: tokens) := by simpa [Ended] using hended
      have hrest := ih hended'
      unfold blockLoop
      cases hkind : kind next with
      | newline => exact hrest _ _ _
      | comment => exact hrest _ _ _
      | other => simp

theorem consolidateCommentBlock_suffix {context context' : ParseContext τ} {t : τ}
    (h : consolidateCommentBlock kind context t = some context') :
    context'.tokens <:+ context.tokens := by
  obtain ⟨block, hblock, hcontext⟩ := Option.bind_eq_some_iff.mp h
  rw [← Option.some.inj hcontext, foldl_pushFront]
  exact blockLoop_suffix hblock

theorem popToken_suffix {context context' : ParseContext τ} {token : TokenWithComments τ}
    (h : popToken kind context = some (token, context')) : context'.tokens <:+ context.tokens := by
  rcases popToken_cases h with rfl | ⟨t, tokens, rfl, ⟨ht, rfl, rfl⟩ | ⟨ht, hblock⟩⟩
  · exact List.suffix_rfl
  · exact List.suffix_cons t tokens
  · have hsuffix : context'.tokens <:+ tokens := consolidateCommentBlock_suffix hblock
    exact hsuffix.trans (List.suffix_cons t tokens)

-- As long as something is to come, it is delivered.
theorem popToken_isSome {context : ParseContext τ}
    (htokens : context.tokens = [] ∨ Ended kind context.tokens)
    (hupcoming : upcoming kind context ≠ []) : ∃ popped, popToken kind context = some popped := by
  unfold popToken
  by_cases hbuffer : context.buffer = []
  · rw [if_pos (by simp [hbuffer])]
    cases hstream : context.tokens with
    | nil => simp [upcoming, hbuffer, hstream, attached] at hupcoming
    | cons t tokens =>
        dsimp only
        rw [hstream] at htokens
        by_cases ht : kind t = .comment
        · obtain ⟨block, hblock⟩ :=
            blockLoop_isSome (htokens.resolve_left (by simp)) none [] []
          rw [if_pos ht]
          cases hnewlines : block.newlines <;>
            simp [consolidateCommentBlock, hblock, ParseContext.popFront, ParseContext.pushFront,
              hnewlines]
        · simp [ht]
  · rw [if_neg (by simp [hbuffer])]
    cases hstream : context.buffer with
    | nil => exact absurd hstream hbuffer
    | cons t buffer => simp [ParseContext.popFront, hstream]

-- The invariant of the sessions.
structure Transparent (kind : τ → Kind) (stream : List τ) (s : Session τ) : Prop where
  sequence : s.out.reverse ++ upcoming kind s.context = attached kind [] false stream
  tokens : s.context.tokens <:+ stream

theorem Transparent.step {s t : Session τ} (h : Transparent kind stream s) {action : Action}
    (hstep : s.step kind action = some t) : Transparent kind stream t := by
  cases action with
  | pop =>
      obtain ⟨popped, hpop, ht⟩ := Option.bind_eq_some_iff.mp hstep
      rw [← Option.some.inj ht]
      refine ⟨?_, (popToken_suffix hpop).trans h.tokens⟩
      rw [← h.sequence, popToken_upcoming hpop]
      simp
  | putBack =>
      unfold Session.step at hstep
      cases hout : s.out with
      | nil => simp [hout] at hstep
      | cons token out =>
          rw [hout] at hstep
          simp only [Option.some.injEq] at hstep
          rw [← hstep]
          refine ⟨?_, h.tokens⟩
          rw [← h.sequence, hout]
          simp [upcoming, putBack, ParseContext.pushFront]

theorem transparent {s : Session τ} (h : (sessions kind stream).Reachable s) :
    Transparent kind stream s := by
  refine h.invariant (fun s hs => ?_) fun s a t hs hstep => hs.step hstep
  rw [show s = start stream from hs]
  exact ⟨by simp [start, upcoming], by simp [start]⟩

theorem Ended.of_suffix (h : Ended kind stream) {tokens : List τ} (hsuffix : tokens <:+ stream) :
    tokens = [] ∨ Ended kind tokens := by
  obtain ⟨front, rfl⟩ := hsuffix
  cases tokens with
  | nil => simp
  | cons t tokens => simpa [Ended] using h

-- What was popped and not put back are the first tokens of the stream that are no comments,
-- each with the comments that go with it, and the next one can be popped.
theorem popped_delivers {s : Session τ} (h : (sessions kind stream).Reachable s) :
    List.Forall₂ (Delivers kind stream) s.out.reverse ((places kind stream).take s.out.length) ∧
      (Ended kind stream → s.out.length < (places kind stream).length →
        ∃ t, s.step kind .pop = some t) ∧
      ∀ c k k', GoesWith kind stream c k → GoesWith kind stream c k' → k = k' := by
  have hs := transparent h
  have hall : List.Forall₂ (Delivers kind stream) _ _ := forall₂_delivers stream
  have hlength := hall.length_eq
  have hout : s.out.reverse = (attached kind [] false stream).take s.out.length := by
    rw [← hs.sequence, ← List.length_reverse, List.take_left]
  refine ⟨?_, fun hended hlt => ?_, fun c k k' => GoesWith.unique⟩
  · rw [hout]
    exact List.forall₂_take _ hall
  · have hupcoming : upcoming kind s.context ≠ [] := by
      intro hnone
      have hsequence := congrArg List.length hs.sequence
      rw [hnone, List.append_nil, List.length_reverse] at hsequence
      omega
    obtain ⟨popped, hpop⟩ := popToken_isSome (hended.of_suffix hs.tokens) hupcoming
    simp [Session.step, hpop]

end

section

-- Tokens as numbers, of which 0 is a newline and 1 a comment.
def numberKind (n : ℕ) : Kind := if n = 0 then .newline else if n = 1 then .comment else .other

-- The newline of the second block is put back.
def newlinePutBack : Session ℕ where
  context := { tokens := [], buffer := [⟨0, []⟩, ⟨6, [1]⟩] }
  out := [⟨5, []⟩]

theorem popped_delivers_putBack :
    List.Forall₂ (Delivers numberKind [5, 1, 0, 6]) newlinePutBack.out.reverse
        ((places numberKind [5, 1, 0, 6]).take newlinePutBack.out.length) ∧
      (Ended numberKind [5, 1, 0, 6] →
        newlinePutBack.out.length < (places numberKind [5, 1, 0, 6]).length →
          ∃ t, newlinePutBack.step numberKind .pop = some t) ∧
      ∀ c k k', GoesWith numberKind [5, 1, 0, 6] c k → GoesWith numberKind [5, 1, 0, 6] c k' →
        k = k' :=
  have hrun : (sessions numberKind [5, 1, 0, 6]).run (start [5, 1, 0, 6]) [.pop, .pop, .putBack] =
      some newlinePutBack := by rfl
  popped_delivers (System.Reachable.run (.init (by rfl)) hrun)

end

section

-- `Tokens::is_newline` and `Tokens::is_comment`.
def tokenKind : Token → Kind
  | .newline => .newline
  | .comment _ => .comment
  | _ => .other

def commentText : Token → Option Bytes
  | .comment text => some text
  | _ => none

-- The parser keeps the texts of the comments.
def TokenWithComments.texts (t : TokenWithComments Token) : Config.TokenWithComments :=
  { token := t.token, comments := t.comments.filterMap commentText }

-- The state of the parser; the path stack is left alone.
def ParseContext.parser (context : ParseContext Token) (pathStack : List Path) :
    Config.ParseContext :=
  { tokens := context.tokens, buffer := context.buffer.map TokenWithComments.texts,
    pathStack := pathStack }

variable {pathStack : List Path} {buffer : List Config.TokenWithComments}

theorem eq_newline_of_kind {t : Token} (h : tokenKind t = .newline) : t = .newline := by
  cases t <;> simp [tokenKind] at h ⊢

theorem eq_comment_of_kind {t : Token} (h : tokenKind t = .comment) :
    ∃ text, t = .comment text := by
  cases t <;> simp [tokenKind] at h ⊢

theorem streamNext_run {t : Token} {tokens : List Token} (h : ∀ e, .thrown e ∉ t :: tokens) :
    streamNext { tokens := t :: tokens, buffer := buffer, pathStack := pathStack } =
      .ok t { tokens := tokens, buffer := buffer, pathStack := pathStack } := by
  cases t with
  | thrown e => exact absurd List.mem_cons_self (h e)
  | _ => rfl

theorem commentBlockLoop_other {n : ℕ} {next : Token} (h : tokenKind next = .other)
    (previous : Bool) (newlines : ℕ) (comments : List Bytes) :
    commentBlockLoop (n + 1) previous newlines comments next =
      pure (newlines, comments, next) := by
  cases next <;> simp [tokenKind] at h <;> rfl

-- The loop of the parser counts the newlines that the other one collects.
theorem commentBlockLoop_run {n : ℕ} {previous : Option Token}
    {newlines comments tokens : List Token} {next : Token} {block : Block Token}
    (hn : tokens.length < n) (hthrown : ∀ e, .thrown e ∉ tokens)
    (hnewlines : ∀ t ∈ newlines, t = .newline)
    (h : blockLoop tokenKind previous newlines comments next tokens = some block) :
    commentBlockLoop n (previous.map tokenKind = some .newline) newlines.length
        (comments.filterMap commentText) next
        { tokens := tokens, buffer := buffer, pathStack := pathStack } =
      .ok (block.newlines.length, block.comments.filterMap commentText, block.next)
        { tokens := block.tokens, buffer := buffer, pathStack := pathStack } ∧
      ∀ t ∈ block.newlines, t = .newline := by
  induction n generalizing previous newlines comments next tokens with
  | zero => omega
  | succ n ih =>
      unfold blockLoop at h
      cases hkind : tokenKind next with
      | other =>
          rw [hkind] at h
          simp only [Option.some.injEq] at h
          rw [commentBlockLoop_other hkind, ← h]
          exact ⟨by rfl, hnewlines⟩
      | newline =>
          obtain rfl := eq_newline_of_kind hkind
          rw [hkind] at h
          cases tokens with
          | nil => simp at h
          | cons t tokens =>
              have hnewlines' : ∀ t ∈ newlines ++ [Token.newline], t = .newline := by
                simpa [or_imp] using hnewlines
              have hrest := ih (by simpa using hn) (fun e he => hthrown e (by simp [he]))
                hnewlines' h
              rw [commentBlockLoop]
              simp only [bind, EStateM.bind, streamNext_run hthrown]
              simpa [apply_ite (List.filterMap commentText), hkind] using hrest
      | comment =>
          obtain ⟨text, rfl⟩ := eq_comment_of_kind hkind
          rw [hkind] at h
          cases tokens with
          | nil => simp at h
          | cons t tokens =>
              have hrest := ih (by simpa using hn) (fun e he => hthrown e (by simp [he]))
                hnewlines h
              rw [commentBlockLoop]
              simp only [bind, EStateM.bind, streamNext_run hthrown]
              simpa [commentText, hkind] using hrest

theorem get_run (s : Config.ParseContext) : (get : Parse Config.ParseContext) s = .ok s s := rfl

theorem modify_run (f : Config.ParseContext → Config.ParseContext) (s : Config.ParseContext) :
    (modify f : Parse PUnit) s = .ok ⟨⟩ (f s) := rfl

theorem parser_popFront (context : ParseContext Token) (t : TokenWithComments Token) :
    popBuffer ((context.pushFront t).parser pathStack) =
      .ok t.texts (context.parser pathStack) := by
  simp [ParseContext.pushFront, ParseContext.parser, popBuffer]

theorem parser_consolidateCommentBlock {text : Bytes} {context context' : ParseContext Token}
    (pathStack : List Path) (hthrown : ∀ e, .thrown e ∉ context.tokens)
    (h : consolidateCommentBlock tokenKind context (.comment text) = some context') :
    Config.consolidateCommentBlock (.comment text) (context.parser pathStack) =
      .ok () (context'.parser pathStack) := by
  obtain ⟨block, hblock, hcontext⟩ := Option.bind_eq_some_iff.mp h
  have hrun : commentBlockLoop (context.tokens.length + context.buffer.length + 1 + 1) false 0 []
      (.comment text) (context.parser pathStack) =
      .ok (block.newlines.length, block.comments.filterMap commentText, block.next)
        (ParseContext.parser { context with tokens := block.tokens } pathStack) ∧
      ∀ t ∈ block.newlines, t = .newline :=
    commentBlockLoop_run (by omega) hthrown (by simp) hblock
  have hnewlines : (block.newlines.map fun t => { token := t, comments := [] }).map
      TokenWithComments.texts = List.replicate block.newlines.length ⟨.newline, []⟩ := by
    rw [List.eq_replicate_iff]
    simpa [TokenWithComments.texts] using hrun.2
  have hrounds : parseRounds (context.parser pathStack) =
      .ok (context.tokens.length + context.buffer.length + 1) (context.parser pathStack) := by
    simp [parseRounds, ParseContext.parser]
  rw [← Option.some.inj hcontext, foldl_pushFront]
  simp only [Config.consolidateCommentBlock, bind, EStateM.bind, hrounds, hrun.1]
  simp only [modify_run, ParseContext.parser, ParseContext.pushFront, List.map_append,
    List.map_cons, hnewlines]
  simp [TokenWithComments.texts]

-- The parser pops the same tokens.
theorem parser_popToken {context context' : ParseContext Token} {t : TokenWithComments Token}
    (hthrown : ∀ e, .thrown e ∉ context.tokens)
    (h : popToken tokenKind context = some (t, context')) :
    Config.popToken (context.parser pathStack) = .ok t.texts (context'.parser pathStack) := by
  rcases popToken_cases h with rfl | ⟨first, tokens, rfl, hfirst⟩
  · have hfull : ((context'.pushFront t).parser pathStack).buffer.isEmpty = false := by
      simp [ParseContext.parser, ParseContext.pushFront]
    simp only [Config.popToken, bind, EStateM.bind, get_run, hfull]
    exact parser_popFront context' t
  · have hnext : streamNext (ParseContext.parser { tokens := first :: tokens, buffer := [] }
        pathStack) = .ok first (ParseContext.parser { tokens := tokens, buffer := [] } pathStack) :=
      streamNext_run hthrown
    have hempty : (ParseContext.parser { tokens := first :: tokens, buffer := [] }
        pathStack).buffer.isEmpty = true := by
      simp [ParseContext.parser]
    simp only [Config.popToken, bind, EStateM.bind, get_run, hempty, if_true, hnext]
    rcases hfirst with ⟨hkind, rfl, rfl⟩ | ⟨hkind, hblock⟩
    · cases first <;> first | rfl | simp [tokenKind] at hkind
    · obtain ⟨text, rfl⟩ := eq_comment_of_kind hkind
      have hconsolidated := parser_consolidateCommentBlock pathStack
        (fun e he => hthrown e (List.mem_cons_of_mem _ he)) hblock
      have hpopped : (Config.consolidateCommentBlock (.comment text) >>= fun _ => popBuffer)
          (ParseContext.parser { tokens := tokens, buffer := [] } pathStack) =
          .ok t.texts (context'.parser pathStack) := by
        simp only [bind, EStateM.bind, hconsolidated]
        exact parser_popFront context' t
      exact hpopped

theorem parser_putBack (context : ParseContext Token) (t : TokenWithComments Token) :
    putBackToken t.texts (context.parser pathStack) =
      .ok () ((putBack context t).parser pathStack) := by
  simp [putBackToken, putBack, ParseContext.pushFront, ParseContext.parser]

-- The streams of the tokenizer have an end and throw nothing.
theorem ended_tokenize (doubles : Doubles) (input : Bytes) (flavor : ConfigSyntax) :
    Ended tokenKind (tokenize doubles input flavor) ∧
      ∀ e, .thrown e ∉ tokenize doubles input flavor := by
  obtain ⟨ts, hstream, front, rfl, hinner⟩ := tokenize_ended doubles input flavor
  rw [hstream]
  refine ⟨?_, fun e he => ?_⟩
  · rw [Ended, ← List.cons_append, List.getLast?_concat]
    simp [tokenKind]
  have hmem : .thrown e ∈ front := by simpa using he
  have hthrown := hinner _ hmem
  simp [Token.isInner] at hthrown

end

end AsrServiceProxy.Config.Comments

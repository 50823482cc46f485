import AsrServiceProxy.Config.Operations.Theorems
import AsrServiceProxy.Config.Tokenizer.Progress

-- How the parser takes tokens from the stream: what it is still to see is a list
-- without comments that has one end, and each read takes the front of it.
namespace AsrServiceProxy.Config

open CMemory Simulation

def Token.isComment : Token → Bool
  | .comment _ => true
  | _ => false

-- A token before the end, other than a comment.
def Token.isRegular : Token → Bool
  | .end_ | .thrown _ | .comment _ => false
  | _ => true

-- The tokens up to the end.
inductive Regular : List Token → Prop
  | last : Regular [.end_]
  | cons {t : Token} {l : List Token} (ht : t.isRegular = true) (h : Regular l) : Regular (t :: l)

theorem Regular.ne_nil {l : List Token} (h : Regular l) : l ≠ [] := by
  cases h <;> exact List.cons_ne_nil _ _

theorem Regular.tail {t : Token} {l : List Token} (h : Regular (t :: l)) (ht : t ≠ .end_) :
    t.isRegular = true ∧ Regular l := by
  cases h with
  | last => exact absurd rfl ht
  | cons ht h => exact ⟨ht, h⟩

theorem Regular.of_cons {t : Token} {l : List Token} (h : Regular (t :: l)) (hne : l ≠ []) :
    Regular l := by
  cases h with
  | last => exact absurd rfl hne
  | cons ht h => exact h

theorem Regular.suffix {l l' : List Token} (h : Regular l) (hsuffix : l' <:+ l) (hne : l' ≠ []) :
    Regular l' := by
  obtain ⟨front, rfl⟩ := hsuffix
  induction front with
  | nil => exact h
  | cons t front ih => exact ih (h.of_cons (List.append_ne_nil_of_right_ne_nil front hne))

-- The newlines at the front and the token after them.
theorem Regular.split {l : List Token} (h : Regular l) :
    ∃ count t more, l = List.replicate count .newline ++ t :: more ∧ t ≠ .newline := by
  induction h with
  | last => exact ⟨0, .end_, [], rfl, nofun⟩
  | @cons t l ht h ih =>
      by_cases hnewline : t = .newline
      · obtain ⟨count, t', more, rfl, hne⟩ := ih
        exact ⟨count + 1, t', more, by rw [hnewline]; rfl, hne⟩
      · exact ⟨0, t, l, rfl, hnewline⟩

-- The tokens that the parser is still to see, with those it has put back.
def ParseContext.pending (s : ParseContext) : List Token :=
  s.buffer.map TokenWithComments.token ++ s.tokens.filter fun t => !t.isComment

-- A context with these tokens to come, inside these paths.
structure Stands (s : ParseContext) (g : List Token × List Path) : Prop where
  pending : s.pending = g.1
  paths : s.pathStack = g.2

-- The messages of the checks that constructors make.
def checkMessages : List String :=
  ["SimpleConfigObject created with wrong resolve status",
    "SimpleConfigList created with wrong resolve status",
    "creating empty delayed merge value",
    "placed nested _delayed_merge in a ConfigDelayedMerge",
    "creating empty delayed merge object",
    "created a delayed merge object not guaranteed to be an object",
    "placed nested _delayed_merge in a ConfigDelayedMergeObject",
    "_created concatenation with less than 2 items: ",
    "ConfigConcatenation should never be nested: ",
    "_created concatenation without an unmergeable in it: "]

-- What the parser may throw. How it leaves what the standard defines is left to `wild`.
def Tolerable (wild : String → Prop) : ConfigException → Prop
  | .outOfFuel => False
  | .undefinedBehaviour place => wild place
  | .bugOrBroken message => message ∉ checkMessages
  | _ => True

-- It does not leave it at all.
abbrev Tame : ConfigException → Prop := Tolerable fun _ => False

theorem Tolerable.mono {wild wild' : String → Prop} (himp : ∀ place, wild place → wild' place)
    {e : ConfigException} (h : Tolerable wild e) : Tolerable wild' e := by
  cases e with
  | undefinedBehaviour place => exact himp place h
  | _ => exact h

-- The end of `parseInclude`: the fields of the object that was included.
def addIncludedObject (values : Fields Unit) : Value Unit → Parse (Fields Unit)
  | .simpleConfigObject _ fields _ => addIncluded fields values
  | _ => throw (.notResolved "need to Config#resolve() before using this object")

-- The end of `parseDocument`, when its value has been read.
def finishDocument (flavor : ConfigSyntax) (result : Value Unit) : Parse (Value Unit) := do
  let t ← nextTokenIgnoringNewline flavor
  match t.token with
  | .end_ => return result
  | _ => throw (.parse "_document has trailing tokens after first object or array: ")

section

variable {wild : String → Prop} {l : List Token} {p : List Path}

theorem meets_parseRounds (l : List Token) (p : List Path) :
    Meets Stands parseRounds (l, p) (fun n g => l.length < n ∧ g = (l, p)) (Tolerable wild) := by
  intro s hs
  refine ⟨(l, p), hs, ?_, rfl⟩
  have hlength := congrArg List.length hs.pending
  have hfilter := List.length_filter_le (fun t => !t.isComment) s.tokens
  rw [ParseContext.pending, List.length_append, List.length_map] at hlength
  dsimp only at hlength ⊢
  omega

theorem meets_putBackToken (t : TokenWithComments) (l : List Token) (p : List Path) :
    Meets Stands (putBackToken t) (l, p) (fun _ g => g = (t.token :: l, p)) (Tolerable wild) := by
  intro s hs
  refine ⟨(t.token :: l, p), ⟨?_, hs.paths⟩, rfl⟩
  exact congrArg (t.token :: ·) hs.pending

theorem popBuffer_eq {t : Token} {s : ParseContext} (h : Stands s (t :: l, p))
    (hbuffer : s.buffer ≠ []) :
    ∃ r s', popBuffer s = .ok r s' ∧ Stands s' (l, p) ∧ r.token = t := by
  obtain ⟨tokens, buffer, pathStack⟩ := s
  cases buffer with
  | nil => exact absurd rfl hbuffer
  | cons first rest =>
      obtain ⟨hfirst, hrest⟩ := List.cons.inj h.pending
      exact ⟨first, _, rfl, ⟨hrest, h.paths⟩, hfirst⟩

-- The list that the comments are dropped from starts with newlines and then `t`.
def Leads (raw : List Token) (count : ℕ) (t : Token) (more : List Token) : Prop :=
  raw.filter (fun t => !t.isComment) = List.replicate count .newline ++ t :: more

theorem streamNext_eq {raw : List Token} {count : ℕ} {t : Token} {more : List Token}
    (h : Leads raw count t more) (hthrown : ∀ e, t ≠ .thrown e) (buffer : List TokenWithComments) :
    ∃ next raw', raw = next :: raw' ∧
      streamNext { tokens := raw, buffer := buffer, pathStack := p } =
        .ok next { tokens := raw', buffer := buffer, pathStack := p } := by
  cases raw with
  | nil =>
      have hnil : List.replicate count .newline ++ t :: more = [] := h.symm
      simp at hnil
  | cons next raw' =>
      refine ⟨next, raw', rfl, ?_⟩
      cases next with
      | thrown e =>
          have hhead : Token.thrown e :: raw'.filter (fun t => !t.isComment) =
            List.replicate count .newline ++ t :: more := h
          cases count with
          | zero => exact absurd (List.cons.inj hhead).1.symm (hthrown e)
          | succ count => cases (List.cons.inj hhead).1
      | _ => rfl

theorem Leads.newline {raw : List Token} {count : ℕ} {t : Token} {more : List Token}
    (h : Leads (.newline :: raw) count t more) (hne : t ≠ .newline) :
    ∃ count', count = count' + 1 ∧ Leads raw count' t more := by
  cases count with
  | zero => exact absurd (List.cons.inj h).1.symm hne
  | succ count => exact ⟨count, rfl, (List.cons.inj h).2⟩

theorem Leads.other {next : Token} {raw : List Token} {count : ℕ} {t : Token} {more : List Token}
    (h : Leads (next :: raw) count t more) (hcomment : next.isComment = false)
    (hnewline : next ≠ .newline) :
    count = 0 ∧ next = t ∧ raw.filter (fun t => !t.isComment) = more := by
  have hhead : next :: raw.filter (fun t => !t.isComment) =
      List.replicate count .newline ++ t :: more := by
    rw [← h, List.filter_cons, hcomment]
    rfl
  cases count with
  | zero => exact ⟨rfl, (List.cons.inj hhead).1, (List.cons.inj hhead).2⟩
  | succ count => exact absurd (List.cons.inj hhead).1 hnewline

-- The stream is read up to the first token that is neither a comment nor a newline.
theorem commentBlockLoop_eq {t : Token} {more : List Token} (hne : t ≠ .newline)
    (hthrown : ∀ e, t ≠ .thrown e) (buffer : List TokenWithComments) (n : ℕ) (next : Token)
    (raw : List Token) (hn : raw.length < n) (previousNewline : Bool) (newlines : ℕ)
    (comments : List Bytes) (count : ℕ) (hraw : Leads (next :: raw) count t more) :
    ∃ comments' raw', commentBlockLoop n previousNewline newlines comments next
        { tokens := raw, buffer := buffer, pathStack := p } =
      .ok (newlines + count, comments', t) { tokens := raw', buffer := buffer, pathStack := p } ∧
      raw'.filter (fun t => !t.isComment) = more := by
  induction n generalizing next raw previousNewline newlines comments count with
  | zero => omega
  | succ n ih =>
      -- one more token of the stream
      have hread : ∀ (count : ℕ) (previousNewline : Bool) (newlines : ℕ) (comments : List Bytes),
          Leads raw count t more → ∃ comments' raw',
            (streamNext >>= fun next => commentBlockLoop n previousNewline newlines comments next)
              { tokens := raw, buffer := buffer, pathStack := p } =
            .ok (newlines + count, comments', t)
              { tokens := raw', buffer := buffer, pathStack := p } ∧
            raw'.filter (fun t => !t.isComment) = more := by
        intro count previousNewline newlines comments hraw
        obtain ⟨x, raw', rfl, hx⟩ := streamNext_eq (p := p) hraw hthrown buffer
        rw [List.length_cons] at hn
        obtain ⟨comments', raw'', heq, hmore⟩ :=
          ih x raw' (by omega) previousNewline newlines comments count hraw
        refine ⟨comments', raw'', ?_, hmore⟩
        rw [← heq]
        simp only [bind, EStateM.bind, hx]
      cases next with
      | newline =>
          obtain ⟨count, rfl, hrest⟩ := hraw.newline hne
          obtain ⟨comments', raw', heq, hmore⟩ :=
            hread count true (newlines + 1) (if previousNewline then [] else comments) hrest
          refine ⟨comments', raw', ?_, hmore⟩
          rw [commentBlockLoop, heq]
          congr 2
          omega
      | comment text =>
          obtain ⟨comments', raw', heq, hmore⟩ :=
            hread count false newlines (comments ++ [text]) hraw
          exact ⟨comments', raw', heq, hmore⟩
      | _ =>
          obtain ⟨rfl, rfl, hmore⟩ := hraw.other rfl nofun
          exact ⟨comments, raw, rfl, hmore⟩

-- The comments that come next are read, and the tokens up to the first other one are
-- put into the buffer.
theorem consolidateCommentBlock_eq (text : Bytes) (raw : List Token) {count : ℕ} {t : Token}
    {more : List Token} (hraw : Leads raw count t more) (hne : t ≠ .newline)
    (hthrown : ∀ e, t ≠ .thrown e) :
    ∃ s', consolidateCommentBlock (.comment text)
        { tokens := raw, buffer := [], pathStack := p } = .ok () s' ∧
      Stands s' (List.replicate count .newline ++ t :: more, p) ∧ s'.buffer ≠ [] := by
  obtain ⟨comments, raw', heq, hmore⟩ := commentBlockLoop_eq (p := p) hne hthrown []
    (raw.length + 0 + 1 + 1) (.comment text) raw (by omega) false 0 [] count hraw
  rw [Nat.zero_add] at heq
  refine ⟨{ tokens := raw', buffer := List.replicate count { token := .newline, comments := [] } ++
    [{ token := t, comments := comments }], pathStack := p }, ?_, ⟨?_, rfl⟩, by simp⟩
  · rw [consolidateCommentBlock]
    simp only [bind, EStateM.bind, parseRounds, List.length_nil, heq]
    rfl
  · simp [ParseContext.pending, hmore]

theorem Regular.not_thrown {l : List Token} (h : Regular l) (e : ConfigException) :
    .thrown e ∉ l := by
  induction h with
  | last => simp
  | @cons t l ht h ih =>
      intro hmem
      rcases List.mem_cons.mp hmem with rfl | hmem
      · cases ht
      · exact ih hmem

-- The next token, whether it was put back, comes from the stream or after comments.
theorem popToken_eq {t : Token} (h : Regular (t :: l)) {s : ParseContext}
    (hs : Stands s (t :: l, p)) :
    ∃ r s', popToken s = .ok r s' ∧ Stands s' (l, p) ∧ r.token = t := by
  by_cases hbuffer : s.buffer = []
  · obtain ⟨tokens, buffer, pathStack⟩ := s
    dsimp only at hbuffer
    subst hbuffer
    have hfilter : tokens.filter (fun t => !t.isComment) = t :: l := hs.pending
    obtain rfl : pathStack = p := hs.paths
    obtain ⟨count, t', more, hsplit, hne⟩ := h.split
    have hthrown : ∀ e, t' ≠ .thrown e := by
      rintro e rfl
      exact h.not_thrown e (by rw [hsplit]; simp)
    have hleads : Leads tokens count t' more := hfilter.trans hsplit
    obtain ⟨next, raw, rfl, hnext⟩ := streamNext_eq (p := pathStack) hleads hthrown []
    by_cases hcomment : next.isComment
    · -- what is read after a comment goes through the buffer
      obtain ⟨text, rfl⟩ : ∃ text, next = .comment text := by
        cases next with
        | comment text => exact ⟨text, rfl⟩
        | _ => cases hcomment
      obtain ⟨s', hblock, hstands, hbuffer⟩ :=
        consolidateCommentBlock_eq (p := pathStack) text raw hleads hne hthrown
      rw [← hsplit] at hstands
      obtain ⟨r, s'', hpop, hresult⟩ := popBuffer_eq hstands hbuffer
      refine ⟨r, s'', ?_, hresult⟩
      rw [← hpop]
      simp only [popToken, bind, EStateM.bind, get_run, hnext,
        hblock, List.isEmpty_nil, ite_true]
    · have hkeep : next :: raw.filter (fun t => !t.isComment) = t :: l := by
        rw [← hfilter, List.filter_cons, if_pos (by simpa using hcomment)]
      obtain ⟨rfl, hrest⟩ := List.cons.inj hkeep
      refine ⟨{ token := next, comments := [] },
        { tokens := raw, buffer := [], pathStack := pathStack }, ?_, ⟨hrest, rfl⟩, rfl⟩
      simp only [popToken, bind, EStateM.bind, get_run, hnext,
        List.isEmpty_nil, ite_true]
      cases next with
      | comment text => exact absurd rfl hcomment
      | _ => rfl
  · obtain ⟨r, s', hpop, hresult⟩ := popBuffer_eq hs hbuffer
    refine ⟨r, s', ?_, hresult⟩
    have hempty : s.buffer.isEmpty = false := by simpa using hbuffer
    rw [← hpop]
    simp only [popToken, bind, EStateM.bind, get_run, hempty,
      Bool.false_eq_true, ite_false]

theorem meets_popToken {t : Token} (h : Regular (t :: l)) :
    Meets Stands popToken (t :: l, p) (fun r g => r.token = t ∧ g = (l, p)) (Tolerable wild) := by
  intro s hs
  obtain ⟨r, s', hpop, hstands, ht⟩ := popToken_eq h hs
  rw [hpop]
  exact ⟨(l, p), hstands, ht, rfl⟩

theorem meets_nextToken (flavor : ConfigSyntax) {t : Token} (h : Regular (t :: l)) :
    Meets Stands (nextToken flavor) (t :: l, p) (fun r g => r.token = t ∧ g = (l, p))
      (Tolerable wild) := by
  refine Meets.bind (meets_popToken h) ?_
  rintro r _ ⟨ht, rfl⟩
  split
  · exact Meets.throw trivial
  · exact Meets.ite (fun _ => Meets.throw trivial) fun _ => Meets.pure ⟨ht, rfl⟩
  · exact Meets.ite (fun _ => Meets.throw trivial) fun _ => Meets.pure ⟨ht, rfl⟩
  · exact Meets.pure ⟨ht, rfl⟩

-- The next token that is no newline, and what comes after it.
structure Reads (l : List Token) (t : Token) (l' : List Token) : Prop where
  split : ∃ count, l = List.replicate count .newline ++ t :: l'
  ne_newline : t ≠ .newline

theorem Reads.suffix {l l' : List Token} {t : Token} (h : Reads l t l') : t :: l' <:+ l := by
  obtain ⟨count, rfl⟩ := h.split
  exact ⟨_, rfl⟩

theorem Reads.length_lt {l l' : List Token} {t : Token} (h : Reads l t l') :
    l'.length < l.length := by
  have hle := h.suffix.length_le
  rw [List.length_cons] at hle
  omega

theorem Reads.regular {l l' : List Token} {t : Token} (h : Reads l t l') (hl : Regular l) :
    Regular (t :: l') :=
  hl.suffix h.suffix (List.cons_ne_nil _ _)

theorem meets_ignoringNewlineLoop (flavor : ConfigSyntax) (h : Regular l) (n : ℕ)
    (hn : l.length ≤ n) :
    Meets Stands (ignoringNewlineLoop flavor n) (l, p)
      (fun r g => Reads l r.token g.1 ∧ g.2 = p) (Tolerable wild) := by
  induction n generalizing l with
  | zero => exact absurd (List.length_eq_zero_iff.mp (by omega)) h.ne_nil
  | succ n ih =>
      cases l with
      | nil => exact absurd rfl h.ne_nil
      | cons t l =>
          refine Meets.bind (meets_nextToken flavor h) ?_
          rintro r _ ⟨rfl, rfl⟩
          split
          · rename_i hnewline
            rw [hnewline] at h
            rw [List.length_cons] at hn
            refine Meets.imp (ih (h.tail nofun).2 (by omega)) ?_
            rintro r' g ⟨⟨⟨count, hsplit⟩, hne⟩, hg⟩
            refine ⟨⟨⟨count + 1, ?_⟩, hne⟩, hg⟩
            rw [hnewline, hsplit]
            rfl
          · rename_i hnewline
            exact Meets.pure ⟨⟨⟨0, rfl⟩, hnewline⟩, rfl⟩

theorem meets_nextTokenIgnoringNewline (flavor : ConfigSyntax) (h : Regular l) :
    Meets Stands (nextTokenIgnoringNewline flavor) (l, p)
      (fun r g => Reads l r.token g.1 ∧ g.2 = p) (Tolerable wild) := by
  refine Meets.bind (meets_parseRounds l p) ?_
  rintro n _ ⟨hn, rfl⟩
  exact meets_ignoringNewlineLoop flavor h n hn.le

end

end AsrServiceProxy.Config

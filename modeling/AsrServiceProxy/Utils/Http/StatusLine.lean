import AsrServiceProxy.Utils.Http.Headers

-- What the two searches of `get_statusline_from_str` make of any header text.
namespace AsrServiceProxy.Http

open CMemory StringUtil Strip

variable {str p line rest : Bytes}

-- The line with the first `HTTP` of a text, ended by its first line break.
structure HasLine (str p line rest : Bytes) : Prop where
  text : str = p ++ line ++ [13, 10] ++ rest
  front : ¬ascii "HTTP" <:+: p ∧ ¬[13, 10] <:+: p
  start : ascii "HTTP" <+: line
  whole : ¬[13, 10] <:+: line

structure ReadsStatus (str : Bytes) : Prop where
  line : ∀ p line rest, HasLine str p line rest →
    getStatuslineFromStr str = .ok (strip isspace line)
  noThrow : ¬ascii "HTTP" <:+: str → ∃ status, getStatuslineFromStr str = .ok status

-- The count passed to `substr` is the position of the line break, which is too
-- much by as many bytes as stand before the line.
def HasLine.surplus (p rest : Bytes) : Bytes := ([13, 10] ++ rest).take p.length

theorem HasLine.exists_cons (h : HasLine str p line rest) :
    ∃ l, line = 72 :: l ∧ ascii "HTTP" <+: 72 :: l := by
  obtain ⟨l, hl⟩ := h.start
  exact ⟨ascii "TTP" ++ l, hl.symm, ⟨l, rfl⟩⟩

theorem HasLine.find_http (h : HasLine str p line rest) :
    find (ascii "HTTP") str = some p.length := by
  obtain ⟨l, rfl, hstart⟩ := h.exists_cons
  have hbehind : find (ascii "HTTP") (72 :: (l ++ [13, 10] ++ rest)) = some 0 := by
    obtain ⟨x, hx⟩ := hstart
    have htext : 72 :: (l ++ [13, 10] ++ rest) = ascii "HTTP" ++ (x ++ [13, 10] ++ rest) := by
      rw [← List.cons_append, ← List.cons_append, ← hx, List.append_assoc, List.append_assoc,
        List.append_assoc]
    rw [htext]
    exact find_prefix _
  have hfind : find (72 :: ascii "TTP") (p ++ 72 :: (l ++ [13, 10] ++ rest)) = _ :=
    find_append (by decide) h.front.1 _
  rw [h.text, List.append_assoc, List.append_assoc, List.cons_append, ← List.append_assoc]
  show find (72 :: ascii "TTP") _ = _
  rw [hfind]
  show (find (ascii "HTTP") _).map _ = _
  rw [hbehind, Option.map_some, Nat.zero_add]

theorem HasLine.find_break (h : HasLine str p line rest) :
    find [13, 10] str = some (p.length + line.length) := by
  obtain ⟨l, rfl, -⟩ := h.exists_cons
  rw [h.text, List.append_assoc, List.append_assoc, List.cons_append,
    find_append (by decide) h.front.2, ← List.cons_append]
  show (find [13, 10] ((72 :: l) ++ 13 :: 10 :: rest)).map _ = _
  rw [find_append (by decide) h.whole]
  have hhere : find [13, 10] (13 :: 10 :: rest) = some 0 := rfl
  rw [hhere, Option.map_some, Option.map_some, Nat.zero_add, Nat.add_comm]

theorem HasLine.getStatusline_eq (h : HasLine str p line rest) :
    getStatuslineFromStr str = spaceTrimAt (line ++ HasLine.surplus p rest) := by
  have hdrop : str.drop p.length = line ++ ([13, 10] ++ rest) := by
    rw [h.text, List.append_assoc, List.append_assoc, List.drop_left]
  have htake : (line ++ ([13, 10] ++ rest)).take (p.length + line.length) =
      line ++ HasLine.surplus p rest := by
    rw [Nat.add_comm, List.take_length_add_append, HasLine.surplus]
  have hle : ¬str.length < p.length := Nat.not_lt.mpr (find_le h.find_http)
  rw [getStatuslineFromStr, h.find_http, h.find_break, substr, if_neg hle, hdrop]
  show spaceTrimAt _ = _
  rw [htake]

-- What is behind the line is lost in the trimming only when it is white space.
theorem strip_append_iff {b : UInt8} (hb : isspace b = false) (l x : Bytes) :
    strip isspace (b :: l ++ x) = strip isspace (b :: l) ↔ ∀ c ∈ x, isspace c := by
  constructor
  · intro heq
    by_contra hnot
    have hex : ∃ c ∈ x, ¬isspace c := by
      push Not at hnot
      exact hnot
    have hkeep : x.rdropWhile isspace ≠ [] := by
      obtain ⟨c, hc, hspace⟩ := hex
      intro hnil
      exact hspace (List.rdropWhile_eq_nil_iff.mp hnil c hc)
    have hshort := (List.rdropWhile_prefix isspace (b :: l)).length_le
    rw [List.cons_append, strip_cons hb, strip_cons hb, ← List.cons_append,
      rdropWhile_append_of_exists _ hex] at heq
    rw [← heq, List.length_append] at hshort
    have hpos := List.length_pos_of_ne_nil hkeep
    omega
  · exact strip_append

-- The trimming of the line and of what is behind it comes to the trimmed line. From 2^31
-- bytes on the count is a number that has nothing to do with the length.
def TrimsTo (line behind : Bytes) : Prop :=
  if (line ++ behind).length < 2 ^ 31 then ∀ b ∈ behind, isspace b
  else -2 ^ 31 ≤ keptLength (line ++ behind) ∧
    min (sizeOfInt (keptLength (line ++ behind))) (line ++ behind).length =
      (strip isspace line).length

theorem spaceTrimAt_append_iff {b : UInt8} (hb : isspace b = false) (l x : Bytes) :
    spaceTrimAt (b :: l ++ x) = .ok (strip isspace (b :: l)) ↔ TrimsTo (b :: l) x := by
  unfold TrimsTo
  split
  next hshort =>
    rw [spaceTrimAt_of_lt hshort, ← strip_append_iff hb l x]
    exact ⟨Except.ok.inj, congrArg Except.ok⟩
  next =>
    have hprefix : strip isspace (b :: l) <+: b :: l ++ x := by
      rw [strip_cons hb]
      exact (List.rdropWhile_prefix isspace _).trans (List.prefix_append _ x)
    rw [List.cons_append] at hprefix ⊢
    rw [spaceTrimAt_cons hb, ← List.length_take]
    generalize keptLength (b :: (l ++ x)) = kept
    constructor
    · intro h
      split at h
      next hfits => exact ⟨hfits, congrArg List.length (Except.ok.inj h)⟩
      next => cases h
    · rintro ⟨hfits, hlength⟩
      rw [if_pos hfits]
      -- Both are the prefix of one length.
      exact congrArg Except.ok
        ((List.prefix_of_prefix_length_le (List.take_prefix _ _) hprefix hlength.le).eq_of_length
          hlength)

theorem HasLine.reads_iff (h : HasLine str p line rest) :
    getStatuslineFromStr str = .ok (strip isspace line) ↔ TrimsTo line (HasLine.surplus p rest) := by
  rw [h.getStatusline_eq]
  obtain ⟨l, rfl, -⟩ := h.exists_cons
  exact spaceTrimAt_append_iff rfl l _

theorem getStatusline_error (h : ¬ascii "HTTP" <:+: str) :
    getStatuslineFromStr str = .error (.thrown (.stdOutOfRange "basic_string::substr")) := by
  rw [getStatuslineFromStr, find_eq_none_iff.mpr h]
  rfl

theorem readsStatus_iff (str : Bytes) : ReadsStatus str ↔
    ascii "HTTP" <:+: str ∧
      ∀ p line rest, HasLine str p line rest → TrimsTo line (HasLine.surplus p rest) := by
  constructor
  · intro h
    refine ⟨?_, fun p line rest hl => hl.reads_iff.mp (h.line p line rest hl)⟩
    by_contra hnot
    obtain ⟨status, hok⟩ := h.noThrow hnot
    rw [getStatusline_error hnot] at hok
    cases hok
  · rintro ⟨hhttp, htrims⟩
    exact
      { line := fun p line rest hl => hl.reads_iff.mpr (htrims p line rest hl)
        noThrow := fun hnot => absurd hhttp hnot }

-- The count that is too large, and headers with no status line, which make
-- `talk` throw after a transfer that succeeded.
theorem not_readsStatus_empty :
    ¬ReadsStatus (ascii "via HTTP/1.1 200\r\nv: 1") ∧ ¬ReadsStatus [] ∧
      (talk true (fun _ => { callbacks := [], code := .CURLE_OK, httpCode := 200 })
        { method := .METHOD_GET, headers := [], body := [] } .empty).outcome =
          .error (.thrown (.stdOutOfRange "basic_string::substr")) := by
  refine ⟨fun h => ?_, fun h => ?_, by decide +kernel⟩
  · have hl : HasLine (ascii "via HTTP/1.1 200\r\nv: 1") (ascii "via ") (ascii "HTTP/1.1 200")
        (ascii "v: 1") :=
      { text := rfl
        front := ⟨find_eq_none_iff.mp rfl, find_eq_none_iff.mp rfl⟩
        start := ⟨ascii "/1.1 200", rfl⟩
        whole := find_eq_none_iff.mp rfl }
    have htrims := hl.reads_iff.mp (h.line _ _ _ hl)
    rw [TrimsTo, if_pos (by decide)] at htrims
    have hletter := htrims 118 (.tail _ (.tail _ (.head _)))
    cases hletter
  · obtain ⟨status, hok⟩ := h.noThrow (find_eq_none_iff.mp rfl)
    cases hok

end AsrServiceProxy.Http

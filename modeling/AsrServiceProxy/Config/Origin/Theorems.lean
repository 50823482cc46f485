import AsrServiceProxy.Config.Origin
import AsrServiceProxy.Lib.Bracketing
import Mathlib.Order.Bounds.Basic

-- The lines of merged origins that are described alike.
namespace AsrServiceProxy.Config

open CMemory Bracketing

structure LineRange where
  startLine : ℤ
  endLine : ℤ

def LineRange.merge (r s : LineRange) : LineRange where
  startLine := SimpleConfigOrigin.mergedStartLine r.startLine s.startLine
  endLine := max r.endLine s.endLine

theorem mergedStartLine_assoc (a b c : ℤ) :
    SimpleConfigOrigin.mergedStartLine (SimpleConfigOrigin.mergedStartLine a b) c =
      SimpleConfigOrigin.mergedStartLine a (SimpleConfigOrigin.mergedStartLine b c) := by
  unfold SimpleConfigOrigin.mergedStartLine
  split_ifs <;> omega

instance : Std.Associative LineRange.merge where
  assoc r s t := by
    simp [LineRange.merge, mergedStartLine_assoc, max_assoc]

namespace SimpleConfigOrigin

def range (o : SimpleConfigOrigin) : LineRange where
  startLine := o.lineNumber
  endLine := o.endLineNumber

variable {description : Bytes}

theorem mergeTwo_range (hplain : mergeOfPrefix.isPrefixOf description = false)
    {a b : SimpleConfigOrigin} (ha : a.description = description)
    (hb : b.description = description) :
    ∃ merged, mergeTwo a b = .ok merged ∧ merged.description = description ∧
      merged.range = a.range.merge b.range := by
  have hne : description ≠ [] := ha ▸ a.description_ne_nil
  simp [mergeTwo, withoutMergeOf, ha, hb, hplain, makeInstance, hne, range, LineRange.merge]

-- Both ways to put the brackets.
theorem mergeThree_range (hplain : mergeOfPrefix.isPrefixOf description = false)
    {a b c : SimpleConfigOrigin} (ha : a.description = description)
    (hb : b.description = description) (hc : c.description = description) :
    ∃ merged, mergeThree a b c = .ok merged ∧ merged.description = description ∧
      merged.range = (a.range.merge b.range).merge c.range := by
  unfold mergeThree
  split
  · obtain ⟨left, hleft, hdescription, hrange⟩ := mergeTwo_range hplain ha hb
    obtain ⟨merged, hmerged, hdescription', hrange'⟩ := mergeTwo_range hplain hdescription hc
    exact ⟨merged, by simp [hleft, hmerged, bind, Except.bind], hdescription',
      by rw [hrange', hrange]⟩
  · obtain ⟨right, hright, hdescription, hrange⟩ := mergeTwo_range hplain hb hc
    obtain ⟨merged, hmerged, hdescription', hrange'⟩ := mergeTwo_range hplain ha hdescription
    refine ⟨merged, by simp [hright, hmerged, bind, Except.bind], hdescription', ?_⟩
    rw [hrange', hrange]
    exact (Std.Associative.assoc a.range b.range c.range).symm

theorem mergeLoop_range (hplain : mergeOfPrefix.isPrefixOf description = false)
    {remaining : List SimpleConfigOrigin}
    (hcommon : ∀ o ∈ remaining, o.description = description) :
    ∃ result, mergeLoop remaining = .ok result ∧ result.length ≤ 2 ∧
      (∀ o ∈ result, o.description = description) ∧
      fold LineRange.merge (result.reverse.map range) =
        fold LineRange.merge (remaining.reverse.map range) := by
  induction hn : remaining.length using Nat.strong_induction_on generalizing remaining with
  | h n ih =>
      rcases remaining with _ | ⟨c, _ | ⟨b, _ | ⟨a, remaining⟩⟩⟩
      · exact ⟨[], by simp [mergeLoop], by simp, by simp, by simp⟩
      · exact ⟨[c], by simp [mergeLoop], by simp, hcommon, by simp⟩
      · exact ⟨[c, b], by simp [mergeLoop], by simp, hcommon, by simp⟩
      · obtain ⟨merged, hmerged, hdescription, hrange⟩ :=
          mergeThree_range hplain (hcommon a (by simp)) (hcommon b (by simp)) (hcommon c (by simp))
        have hcommon' : ∀ o ∈ merged :: remaining, o.description = description := by
          intro o ho
          cases List.mem_cons.mp ho with
          | inl ho => rw [ho, hdescription]
          | inr ho => exact hcommon o (by simp [ho])
        have hlt : (merged :: remaining).length < n := by
          simp only [List.length_cons] at hn ⊢
          omega
        obtain ⟨result, hresult, hlength, hall, hfold⟩ := ih _ hlt hcommon' (by rfl)
        refine ⟨result, ?_, hlength, hall, hfold.trans ?_⟩
        · rw [mergeLoop, hmerged]
          exact hresult
        · have hthree : fold LineRange.merge [a.range, b.range, c.range] = some merged.range := by
            rw [hrange]
            rfl
          have hone : fold LineRange.merge [merged.range] = some merged.range := by rfl
          have hcongr := fold_append_congr hone hthree (remaining.reverse.map range)
          simpa using hcongr

theorem mergeShort_range (hplain : mergeOfPrefix.isPrefixOf description = false)
    {stack : List SimpleConfigOrigin} (hlength : stack.length ≤ 2) (hne : stack ≠ [])
    (hcommon : ∀ o ∈ stack, o.description = description) :
    ∃ merged, mergeShort stack = .ok merged ∧ merged.description = description ∧
      fold LineRange.merge (stack.map range) = some merged.range := by
  rcases stack with _ | ⟨a, _ | ⟨b, _ | ⟨c, rest⟩⟩⟩
  · exact absurd (by rfl) hne
  · exact ⟨a, by rfl, hcommon a (by simp), by rfl⟩
  · obtain ⟨merged, hmerged, hdescription, hrange⟩ :=
      mergeTwo_range hplain (hcommon a (by simp)) (hcommon b (by simp))
    exact ⟨merged, hmerged, hdescription, by rw [hrange]; rfl⟩
  · simp at hlength

theorem mergeOrigins_fold (hplain : mergeOfPrefix.isPrefixOf description = false)
    {stack : List SimpleConfigOrigin} (hne : stack ≠ [])
    (hcommon : ∀ o ∈ stack, o.description = description) :
    ∃ merged, mergeOrigins stack = .ok merged ∧ merged.description = description ∧
      fold LineRange.merge (stack.map range) = some merged.range := by
  unfold mergeOrigins
  split
  next hlength => exact mergeShort_range hplain hlength hne hcommon
  next =>
    have hreverse : ∀ o ∈ stack.reverse, o.description = description := by simpa using hcommon
    obtain ⟨remaining, hremaining, hlength, hall, hfold⟩ := mergeLoop_range hplain hreverse
    rw [List.reverse_reverse] at hfold
    have hremaining_ne : remaining.reverse ≠ [] := by
      intro hnil
      obtain ⟨o, rest, rfl⟩ := List.exists_cons_of_ne_nil hne
      simp [hnil, fold] at hfold
    obtain ⟨merged, hmerged, hdescription, hmergedFold⟩ :=
      mergeShort_range hplain (by simpa using hlength) hremaining_ne (by simpa using hall)
    refine ⟨merged, ?_, hdescription, by rw [← hfold, hmergedFold]⟩
    simp [hremaining, hmerged, bind, Except.bind]

-- The start lines that are known, and the end lines.
def knownLines (stack : List SimpleConfigOrigin) : Set ℤ :=
  {line | 0 ≤ line ∧ ∃ o ∈ stack, o.lineNumber = line}

def endLines (stack : List SimpleConfigOrigin) : Set ℤ :=
  {line | ∃ o ∈ stack, o.endLineNumber = line}

variable {stack : List SimpleConfigOrigin} {o : SimpleConfigOrigin}

theorem endLines_concat : endLines (stack ++ [o]) = endLines stack ∪ {o.endLineNumber} := by
  ext line
  simp [endLines, or_and_right, exists_or, eq_comm, or_comm]

theorem knownLines_concat (h : 0 ≤ o.lineNumber) :
    knownLines (stack ++ [o]) = knownLines stack ∪ {o.lineNumber} := by
  ext line
  simp only [knownLines, List.mem_append, List.mem_singleton, Set.mem_ofPred_eq, Set.mem_union,
    Set.mem_singleton_iff]
  grind

theorem knownLines_concat_of_neg (h : o.lineNumber < 0) :
    knownLines (stack ++ [o]) = knownLines stack := by
  ext line
  simp only [knownLines, List.mem_append, List.mem_singleton, Set.mem_ofPred_eq]
  grind

-- The range of the lines of a list of origins. Without a known start line it has that of
-- the last origin.
structure Lines (stack : List SimpleConfigOrigin) (r : LineRange) : Prop where
  known : (knownLines stack).Nonempty → IsLeast (knownLines stack) r.startLine
  unknown : knownLines stack = ∅ → ∀ o ∈ stack.getLast?, r.startLine = o.lineNumber
  last : IsGreatest (endLines stack) r.endLine

theorem Lines.nonneg_iff {r : LineRange} (h : Lines stack r) (hne : stack ≠ []) :
    0 ≤ r.startLine ↔ (knownLines stack).Nonempty := by
  constructor
  · intro hpos
    by_contra hnone
    have hlast :=
      h.unknown (Set.not_nonempty_iff_eq_empty.mp hnone) _ (List.getLast_mem_getLast? hne)
    exact hnone ⟨r.startLine, hpos, _, List.getLast_mem hne, hlast.symm⟩
  · intro hknown
    exact (h.known hknown).1.1

theorem Lines.single (o : SimpleConfigOrigin) : Lines [o] o.range where
  known h := by
    obtain ⟨line, hpos, hmem⟩ := h
    obtain rfl : o.lineNumber = line := by simpa using hmem
    have hone : knownLines ([] ++ [o]) = knownLines [] ∪ {o.lineNumber} := knownLines_concat hpos
    rw [List.nil_append, show knownLines [] = ∅ by simp [knownLines], Set.empty_union] at hone
    rw [hone]
    exact isLeast_singleton
  unknown _ := by simp [range]
  last := by simp [endLines, range, IsGreatest, upperBounds]

theorem Lines.concat {r : LineRange} (h : Lines stack r) (hne : stack ≠ [])
    (o : SimpleConfigOrigin) : Lines (stack ++ [o]) (r.merge o.range) := by
  have hstart := h.nonneg_iff hne
  refine ⟨fun hknown => ?_, fun hnone => ?_, ?_⟩
  · by_cases ho : 0 ≤ o.lineNumber
    · rw [knownLines_concat ho]
      by_cases hr : 0 ≤ r.startLine
      · have hmin : (r.merge o.range).startLine = min r.startLine o.lineNumber := by
          simp [LineRange.merge, range, mergedStartLine, not_lt.mpr hr, not_lt.mpr ho]
        rw [hmin]
        exact (h.known (hstart.mp hr)).union isLeast_singleton
      · have hsame : (r.merge o.range).startLine = o.lineNumber := by
          simp [LineRange.merge, range, mergedStartLine, not_le.mp hr]
        rw [hsame, Set.not_nonempty_iff_eq_empty.mp (hstart.not.mp hr), Set.empty_union]
        exact isLeast_singleton
    · rw [knownLines_concat_of_neg (not_le.mp ho)] at hknown ⊢
      have hr := hstart.mpr hknown
      have hsame : (r.merge o.range).startLine = r.startLine := by
        simp [LineRange.merge, range, mergedStartLine, not_lt.mpr hr, not_le.mp ho]
      rw [hsame]
      exact h.known hknown
  · have ho : o.lineNumber < 0 := by
      by_contra hpos
      rw [knownLines_concat (not_lt.mp hpos)] at hnone
      exact Set.singleton_ne_empty _ (Set.union_empty_iff.mp hnone).2
    rw [knownLines_concat_of_neg ho] at hnone
    have hr : r.startLine < 0 := by
      rw [← not_le, hstart, hnone]
      simp
    simp [LineRange.merge, range, mergedStartLine, hr]
  · rw [endLines_concat]
    exact h.last.union isGreatest_singleton

theorem lines_foldl {r : LineRange} (h : Lines stack r) (hne : stack ≠ [])
    (rest : List SimpleConfigOrigin) :
    Lines (stack ++ rest) ((rest.map range).foldl LineRange.merge r) := by
  induction rest generalizing stack r with
  | nil => simpa using h
  | cons o rest ih => simpa using ih (h.concat hne o) (by simp)

theorem lines_of_fold {r : LineRange} (h : fold LineRange.merge (stack.map range) = some r) :
    Lines stack r := by
  cases stack with
  | nil => simp [fold] at h
  | cons o rest =>
      simp only [List.map_cons, fold, Option.some.injEq] at h
      rw [← h]
      exact lines_foldl (.single o) (by simp) rest

theorem Lines.eq_neg_one {r : LineRange} (h : Lines stack r) (hne : stack ≠ [])
    (hlow : ∀ o ∈ stack, -1 ≤ o.lineNumber) (hnone : knownLines stack = ∅) : r.startLine = -1 := by
  have hlast := h.unknown hnone _ (List.getLast_mem_getLast? hne)
  have hbound := hlow _ (List.getLast_mem hne)
  have hneg : ¬0 ≤ r.startLine := by
    rw [h.nonneg_iff hne, hnone]
    simp
  omega

-- The least start line that is known and the greatest end line, whatever the brackets.
theorem mergeOrigins_lines (hne : stack ≠ [])
    (hcommon : ∀ o ∈ stack, o.description = description)
    (hplain : mergeOfPrefix.isPrefixOf description = false) :
    ∃ merged, mergeOrigins stack = .ok merged ∧ merged.description = description ∧
      Lines stack merged.range ∧
      ((∀ o ∈ stack, -1 ≤ o.lineNumber) → knownLines stack = ∅ → merged.lineNumber = -1) ∧
      ∀ t : Brackets SimpleConfigOrigin, t.leaves = stack → ∃ other, t.eval mergeTwo = .ok other ∧
        other.description = description ∧ other.range = merged.range := by
  obtain ⟨merged, hmerged, hdescription, hfold⟩ := mergeOrigins_fold hplain hne hcommon
  have hlines := lines_of_fold hfold
  refine ⟨merged, hmerged, hdescription, hlines, hlines.eq_neg_one hne, fun t ht => ?_⟩
  obtain ⟨other, hother, hdescription', hfold'⟩ :=
    eval_fold (fun a b ha hb => mergeTwo_range hplain ha hb) t (ht ▸ hcommon)
  rw [ht, hfold, Option.some.injEq] at hfold'
  exact ⟨other, hother, hdescription', hfold'.symm⟩

def atLine (lineNumber : ℤ) : SimpleConfigOrigin where
  description := ascii "a.conf"
  lineNumber := lineNumber
  endLineNumber := lineNumber
  originType := .FILE
  commentsOrNull := []
  description_ne_nil := by decide

theorem mergeOrigins_lines_three :
    ∃ merged, mergeOrigins [atLine 5, atLine (-1), atLine 3] = .ok merged ∧
      merged.description = ascii "a.conf" ∧
      Lines [atLine 5, atLine (-1), atLine 3] merged.range ∧
      ((∀ o ∈ [atLine 5, atLine (-1), atLine 3], -1 ≤ o.lineNumber) →
        knownLines [atLine 5, atLine (-1), atLine 3] = ∅ → merged.lineNumber = -1) ∧
      ∀ t : Brackets SimpleConfigOrigin, t.leaves = [atLine 5, atLine (-1), atLine 3] →
        ∃ other, t.eval mergeTwo = .ok other ∧ other.description = ascii "a.conf" ∧
          other.range = merged.range :=
  mergeOrigins_lines (by simp) (by simp [atLine]) (by decide)

-- One origin is returned as it is.
theorem not_mergeOrigins_neg_one :
    ¬∀ (stack : List SimpleConfigOrigin) (description : Bytes), stack ≠ [] →
      (∀ o ∈ stack, o.description = description) → mergeOfPrefix.isPrefixOf description = false →
      ∃ merged, mergeOrigins stack = .ok merged ∧ merged.description = description ∧
        ((knownLines stack).Nonempty → IsLeast (knownLines stack) merged.lineNumber) ∧
        (knownLines stack = ∅ → merged.lineNumber = -1) ∧
        IsGreatest (endLines stack) merged.endLineNumber := by
  intro h
  obtain ⟨merged, hmerged, -, -, hline, -⟩ :=
    h [atLine (-2)] (ascii "a.conf") (by simp) (by simp [atLine]) (by decide)
  have hone : mergeOrigins [atLine (-2)] = .ok (atLine (-2)) := by simp [mergeOrigins, mergeShort]
  rw [hone, Except.ok.injEq] at hmerged
  have hnone : knownLines [atLine (-2)] = ∅ := by
    ext line
    simp [knownLines, atLine]
    omega
  have hfalse := hline hnone
  rw [← hmerged] at hfalse
  simp [atLine] at hfalse

end SimpleConfigOrigin

end AsrServiceProxy.Config

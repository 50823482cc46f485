import Mathlib.Data.List.DropRight

-- Lists without the longest ends on which a predicate holds.
namespace Strip

variable {α : Type*} {p : α → Bool} {s t : List α}

def strip (p : α → Bool) (s : List α) : List α := (s.dropWhile p).rdropWhile p

-- Only such ends are gone, and no more of them can go.
structure Strips (p : α → Bool) (s t : List α) : Prop where
  parts : ∃ front back, s = front ++ t ++ back ∧ (∀ a ∈ front, p a = true) ∧
    ∀ a ∈ back, p a = true
  head : ∀ a ∈ t.head?, p a = false
  last : ∀ a ∈ t.getLast?, p a = false

theorem head_dropWhile (p : α → Bool) (s : List α) : ∀ a ∈ (s.dropWhile p).head?, p a = false := by
  intro a ha
  cases hs : s.dropWhile p with
  | nil => simp [hs] at ha
  | cons b rest =>
      have hhead := List.head_dropWhile_not p (l := s) (by simp [hs])
      simp [hs] at ha hhead
      rwa [← ha]

theorem last_rdropWhile (p : α → Bool) (s : List α) :
    ∀ a ∈ (s.rdropWhile p).getLast?, p a = false := by
  intro a ha
  obtain ⟨hne, hlast⟩ := List.mem_getLast?_eq_getLast ha
  have hnot := List.rdropWhile_last_not p s hne
  rw [← hlast] at hnot
  simpa using hnot

-- A prefix that is not empty begins with the same element.
theorem head_of_front (h : t <+: s) : ∀ a ∈ t.head?, a ∈ s.head? := by
  intro a ha
  obtain ⟨more, rfl⟩ := h
  cases t with
  | nil => simp at ha
  | cons b rest => simpa using ha

theorem strips_strip (p : α → Bool) (s : List α) : Strips p s (strip p s) where
  parts := by
    refine ⟨s.takeWhile p, (s.dropWhile p).rtakeWhile p, ?_, ?_, ?_⟩
    · rw [strip, List.append_assoc, List.rdropWhile_append_rtakeWhile,
        List.takeWhile_append_dropWhile]
    · intro a ha
      exact List.mem_takeWhile_imp ha
    · intro a ha
      exact List.mem_rtakeWhile_imp ha
  head := by
    intro a ha
    exact head_dropWhile p s a (head_of_front (List.rdropWhile_prefix p _) a ha)
  last := last_rdropWhile p _

-- The front that is taken off and what is left.
theorem length_takeWhile_add_strip_le (p : α → Bool) (s : List α) :
    (s.takeWhile p).length + (strip p s).length ≤ s.length := by
  have hparts := congrArg List.length (List.takeWhile_append_dropWhile (p := p) (l := s))
  have hbody := (List.rdropWhile_prefix p (s.dropWhile p)).length_le
  rw [List.length_append] at hparts
  rw [strip]
  omega

theorem dropWhile_eq_self (h : ∀ a ∈ s.head?, p a = false) : s.dropWhile p = s := by
  cases s with
  | nil => simp
  | cons b rest => simp [h b (by simp)]

theorem rdropWhile_eq_self (h : ∀ a ∈ s.getLast?, p a = false) : s.rdropWhile p = s := by
  rw [List.rdropWhile_eq_self_iff]
  intro hne
  simp [h _ (List.getLast_mem_getLast? hne)]

theorem rdropWhile_append (h : ∀ a ∈ t, p a = true) : (s ++ t).rdropWhile p = s.rdropWhile p := by
  rw [List.rdropWhile, List.rdropWhile, List.reverse_append, List.dropWhile_append_of_pos]
  simpa using h

theorem strip_of_ends (hhead : ∀ a ∈ s.head?, p a = false) (hlast : ∀ a ∈ s.getLast?, p a = false) :
    strip p s = s := by
  rw [strip, dropWhile_eq_self hhead, rdropWhile_eq_self hlast]

-- There is one such list.
theorem Strips.eq_strip (h : Strips p s t) : t = strip p s := by
  obtain ⟨front, back, rfl, hfront, hback⟩ := h.parts
  have hdrop : (front ++ t ++ back).dropWhile p = (t ++ back).dropWhile p := by
    rw [List.append_assoc, List.dropWhile_append_of_pos hfront]
  rw [strip, hdrop]
  cases t with
  | nil =>
      have hnil : back.dropWhile p = [] := List.dropWhile_eq_nil_iff.mpr hback
      simp [hnil]
  | cons b rest =>
      have hb : p b = false := h.head b (by simp)
      rw [List.cons_append, List.dropWhile_cons_of_neg (by simp [hb]), ← List.cons_append,
        rdropWhile_append hback, rdropWhile_eq_self h.last]

theorem strip_strip (p : α → Bool) (s : List α) : strip p (strip p s) = strip p s :=
  strip_of_ends (strips_strip p s).head (strips_strip p s).last

theorem length_strip_le (p : α → Bool) (s : List α) : (strip p s).length ≤ s.length :=
  ((List.rdropWhile_prefix p _).length_le).trans (List.dropWhile_suffix p).length_le

theorem drop_takeWhile_length (p : α → Bool) (s : List α) :
    s.drop (s.takeWhile p).length = s.dropWhile p := by
  induction s with
  | nil => simp
  | cons a rest ih =>
      by_cases ha : p a = true
      · simpa [ha] using ih
      · simp [ha]

end Strip

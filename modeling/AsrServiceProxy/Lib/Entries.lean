import Mathlib.Data.List.Basic

-- Lists of entries as maps: what is found under a key.
namespace Entries

variable {α β γ : Type*} [BEq α]

theorem lookup_map (f : β → γ) (entries : List (α × β)) (key : α) :
    (entries.map fun entry => (entry.1, f entry.2)).lookup key = (entries.lookup key).map f := by
  induction entries with
  | nil => rfl
  | cons entry rest ih =>
      rw [List.map_cons, List.lookup_cons, List.lookup_cons, ih]
      cases key == entry.1 <;> rfl

variable [LawfulBEq α] {key : α} {value : β} {entries : List (α × β)}

theorem lookup_eq_none_iff : entries.lookup key = none ↔ key ∉ entries.map Prod.fst := by
  rw [List.lookup_eq_none_iff]
  constructor
  · intro h hmem
    obtain ⟨entry, hentry, rfl⟩ := List.mem_map.mp hmem
    exact (bne_iff_ne.mp (h entry hentry)) rfl
  · intro h entry hentry
    rw [bne_iff_ne]
    rintro rfl
    exact h (List.mem_map_of_mem hentry)

theorem isSome_lookup_iff : (entries.lookup key).isSome ↔ key ∈ entries.map Prod.fst := by
  rw [← not_iff_not, Option.not_isSome_iff_eq_none, lookup_eq_none_iff]

theorem mem_of_lookup (h : entries.lookup key = some value) : (key, value) ∈ entries := by
  obtain ⟨front, back, rfl, _⟩ := List.lookup_eq_some_iff.mp h
  exact List.mem_append_right front List.mem_cons_self

-- Each entry is found when no key comes twice.
theorem lookup_of_mem (h : (entries.map Prod.fst).Nodup) {entry : α × β} (hentry : entry ∈ entries) :
    entries.lookup entry.1 = some entry.2 := by
  obtain ⟨front, back, rfl⟩ := List.append_of_mem hentry
  rw [List.lookup_eq_some_iff]
  refine ⟨front, back, rfl, fun other hother => ?_⟩
  rw [List.map_append, List.map_cons, List.nodup_append] at h
  rw [bne_iff_ne]
  exact fun heq => h.2.2 other.1 (List.mem_map_of_mem hother) entry.1 List.mem_cons_self heq.symm

theorem lookup_cons (entry : α × β) (rest : List (α × β)) (key : α) [Decidable (key = entry.1)] :
    (entry :: rest).lookup key = if key = entry.1 then some entry.2 else rest.lookup key := by
  rw [List.lookup_cons]
  by_cases h : key = entry.1
  · rw [if_pos h, h, beq_self_eq_true]
  · rw [if_neg h, beq_eq_false_iff_ne.mpr h]

theorem lookup_filter (p : α → Bool) (entries : List (α × β)) (key : α) :
    (entries.filter fun entry => p entry.1).lookup key =
      if p key then entries.lookup key else none := by
  classical
  induction entries with
  | nil => exact (ite_self none).symm
  | cons entry rest ih =>
      rw [List.filter_cons, lookup_cons]
      by_cases hkey : key = entry.1
      · subst hkey
        by_cases hp : p entry.1
        · rw [if_pos hp, if_pos hp, if_pos rfl, lookup_cons, if_pos rfl]
        · rw [if_neg hp, if_neg hp, ih, if_neg hp]
      · rw [if_neg hkey, ← ih]
        split
        · rw [lookup_cons, if_neg hkey]
        · rfl

end Entries

import AsrServiceProxy.Lib.Entries
import Mathlib.Data.List.Forall2

-- Two lists of entries with the same keys in the same order and related values.
namespace Entries

variable {α β γ δ : Type*}

def Matching (R : β → γ → Prop) (entries : List (α × β)) (others : List (α × γ)) : Prop :=
  List.Forall₂ (fun entry other => entry.1 = other.1 ∧ R entry.2 other.2) entries others

variable {R : β → γ → Prop} {entries : List (α × β)} {others : List (α × γ)}

theorem matching_iff_zip : Matching R entries others ↔ entries.length = others.length ∧
    (∀ entry other, (entry, other) ∈ entries.zip others → entry.1 = other.1) ∧
    ∀ entry other, (entry, other) ∈ entries.zip others → R entry.2 other.2 := by
  rw [Matching, List.forall₂_iff_zip]
  constructor
  · rintro ⟨hlength, h⟩
    exact ⟨hlength, fun _ _ hmem => (h hmem).1, fun _ _ hmem => (h hmem).2⟩
  · rintro ⟨hlength, hkeys, h⟩
    exact ⟨hlength, fun hmem => ⟨hkeys _ _ hmem, h _ _ hmem⟩⟩

theorem Matching.imp {S : β → γ → Prop} (h : Matching R entries others)
    (himp : ∀ x y, R x y → S x y) : Matching S entries others :=
  List.Forall₂.imp (fun _ _ hentry => ⟨hentry.1, himp _ _ hentry.2⟩) h

theorem Matching.refl {R : β → β → Prop} (h : ∀ entry ∈ entries, R entry.2 entry.2) :
    Matching R entries entries :=
  List.forall₂_same.mpr fun entry hentry => ⟨rfl, h entry hentry⟩

theorem Matching.trans {S : γ → δ → Prop} {T : β → δ → Prop} {last : List (α × δ)}
    (htrans : ∀ x y z, R x y → S y z → T x z) (h : Matching R entries others)
    (h' : Matching S others last) : Matching T entries last := by
  induction h generalizing last with
  | nil =>
      cases h'
      exact .nil
  | cons hentry _ ih =>
      cases h' with
      | cons hother hrest =>
          exact .cons ⟨hentry.1.trans hother.1, htrans _ _ _ hentry.2 hother.2⟩ (ih hrest)

theorem Matching.eq {others : List (α × β)} (h : Matching (fun x y => x = y) entries others) :
    entries = others := by
  induction h with
  | nil => rfl
  | cons hentry _ ih => rw [ih, Prod.ext hentry.1 hentry.2]

-- Where each element of a list has an image, so has each element of a related list.
theorem exists_images {ε : Type*} {S : β → δ → Prop} {T : δ → ε → Prop} {U : γ → ε → Prop}
    {xs : List β} {ys : List γ} {zs : List δ} (hlength : xs.length = ys.length)
    (hxs : List.Forall₂ S xs zs)
    (h : ∀ x y z, (x, y) ∈ xs.zip ys → z ∈ zs → S x z → ∃ w, T z w ∧ U y w) :
    ∃ ws, List.Forall₂ T zs ws ∧ List.Forall₂ U ys ws := by
  induction hxs generalizing ys with
  | nil =>
      rw [List.eq_nil_of_length_eq_zero hlength.symm]
      exact ⟨[], .nil, .nil⟩
  | @cons x z xs zs hx _ ih =>
      cases ys with
      | nil => cases hlength
      | cons y ys =>
          obtain ⟨w, hzw, hyw⟩ := h x y z List.mem_cons_self List.mem_cons_self hx
          obtain ⟨ws, hzs, hys⟩ := ih (Nat.succ.inj hlength) fun x' y' z' hmem hz =>
            h x' y' z' (List.mem_cons_of_mem _ hmem) (List.mem_cons_of_mem _ hz)
          exact ⟨w :: ws, .cons hzw hzs, .cons hyw hys⟩

theorem Matching.keys (h : Matching R entries others) :
    entries.map Prod.fst = others.map Prod.fst := by
  induction h with
  | nil => rfl
  | cons hentry _ ih => rw [List.map_cons, List.map_cons, hentry.1, ih]

theorem rel_imp {S : β → γ → Prop} {x : Option β} {y : Option γ} (h : Option.Rel R x y)
    (himp : ∀ x y, R x y → S x y) : Option.Rel S x y := by
  cases h with
  | none => exact .none
  | some h => exact .some (himp _ _ h)

variable [BEq α]

theorem Matching.lookup (h : Matching R entries others) (key : α) :
    Option.Rel R (entries.lookup key) (others.lookup key) := by
  induction h with
  | nil => exact .none
  | @cons entry other _ _ hentry _ ih =>
      rw [List.lookup_cons, List.lookup_cons, hentry.1]
      cases key == other.1 with
      | true => exact .some hentry.2
      | false => exact ih

end Entries

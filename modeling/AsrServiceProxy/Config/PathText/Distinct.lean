import AsrServiceProxy.Config.PathText.Theorems
import AsrServiceProxy.Config.Peek
import AsrServiceProxy.Lib.PrefixCode

-- Two paths have the same text only if they have the same keys.
namespace AsrServiceProxy.Config

open CMemory PrefixCode

-- The character that a text in quotes starts with.
def readJsonChar : Bytes → Option (UInt8 × Bytes)
  | 92 :: 117 :: rest => some (toChar (strtol16 (rest.take 4)), rest.drop 4)
  | 92 :: 110 :: rest => some (10, rest)
  | 92 :: 98 :: rest => some (8, rest)
  | 92 :: 102 :: rest => some (12, rest)
  | 92 :: 114 :: rest => some (13, rest)
  | 92 :: 116 :: rest => some (9, rest)
  | 92 :: b :: rest => some (b, rest)
  | b :: rest => some (b, rest)
  | [] => none

theorem readJsonChar_render (b : UInt8) (s : Bytes) :
    readJsonChar (renderJsonChar b ++ s) = some (b, s) := by
  unfold renderJsonChar
  split
  · rfl
  · rfl
  · rfl
  · rfl
  · rfl
  · rfl
  · rfl
  · rename_i hslash _ _ _ _ _
    by_cases hcntrl : iscntrl b = true
    · rw [if_pos hcntrl]
      have hdigits := strtol16_renderHex b hcntrl
      rw [renderHex] at hdigits ⊢
      simp [readJsonChar, hdigits]
    · rw [if_neg hcntrl, List.singleton_append]
      unfold readJsonChar
      split <;> simp_all

theorem instantaneous_renderJsonChar : Instantaneous renderJsonChar :=
  .of_read readJsonChar readJsonChar_render

theorem delimits_renderJsonChar : Delimits renderJsonChar 34 := by
  intro a s t h
  unfold renderJsonChar at h
  split at h
  all_goals try (simp at h; done)
  rename_i hquote _ _ _ _ _ _
  by_cases hcntrl : iscntrl a = true
  · simp [if_pos hcntrl] at h
  · rw [if_neg hcntrl] at h
    exact hquote (List.cons.inj h).1

theorem renderJsonString_injective {a b s t : Bytes}
    (h : renderJsonString a ++ s = renderJsonString b ++ t) : a = b ∧ s = t := by
  rw [renderJsonString, renderJsonString] at h
  simp only [List.append_assoc, List.singleton_append] at h
  exact instantaneous_renderJsonChar.flatMap delimits_renderJsonChar (List.cons.inj h).2

-- What may follow a key: nothing, or the period before the next one.
theorem dotted_cases (keys : List Bytes) : dotted keys = [] ∨ ∃ rest, dotted keys = 46 :: rest := by
  cases keys with
  | nil => exact .inl rfl
  | cons key keys => exact .inr ⟨_, rfl⟩

theorem takeWhile_plain {key : Bytes} (h : isPlainKey key = true) (keys : List Bytes) :
    (key ++ dotted keys).takeWhile (· ≠ 46) = key := by
  have hkey : ∀ b ∈ key, (decide (b ≠ 46)) = true := by
    intro b hb
    exact decide_eq_true (isPlainKey_bytes h b hb).2
  rw [List.takeWhile_append_of_pos hkey]
  rcases dotted_cases keys with hnil | ⟨rest, hrest⟩
  · rw [hnil, List.takeWhile_nil, List.append_nil]
  · rw [hrest, List.takeWhile_cons_of_neg (by simp), List.append_nil]

-- The quote is no byte of a plain key.
theorem plain_ne_quoted {key : Bytes} (h : isPlainKey key = true) (s text t : Bytes) :
    key ++ s ≠ renderJsonString text ++ t := by
  cases key with
  | nil => cases h
  | cons first rest =>
      intro heq
      have hquote : first = 34 := (List.cons.inj heq).1
      subst hquote
      have hplain := (isPlainKey_bytes h 34 List.mem_cons_self).1
      exact absurd hplain (by decide)

theorem writeKey_injective {key other : Bytes} {keys others : List Bytes}
    (h : writeKey key ++ dotted keys = writeKey other ++ dotted others) :
    key = other ∧ dotted keys = dotted others := by
  by_cases hkey : isPlainKey key
  · by_cases hother : isPlainKey other
    · rw [writeKey_of_plain hkey, writeKey_of_plain hother] at h
      have heq : key = other := by
        rw [← takeWhile_plain hkey keys, h, takeWhile_plain hother]
      subst heq
      exact ⟨rfl, List.append_cancel_left h⟩
    · rw [Bool.not_eq_true] at hother
      rw [writeKey_of_plain hkey, writeKey_of_not_plain hother] at h
      exact absurd h (plain_ne_quoted hkey _ _ _)
  · rw [Bool.not_eq_true] at hkey
    by_cases hother : isPlainKey other
    · rw [writeKey_of_not_plain hkey, writeKey_of_plain hother] at h
      exact absurd h.symm (plain_ne_quoted hother _ _ _)
    · rw [Bool.not_eq_true] at hother
      rw [writeKey_of_not_plain hkey, writeKey_of_not_plain hother] at h
      exact renderJsonString_injective h

theorem dotted_injective {keys others : List Bytes} (h : dotted keys = dotted others) :
    keys = others := by
  induction keys generalizing others with
  | nil =>
      cases others with
      | nil => rfl
      | cons other others => cases h
  | cons key keys ih =>
      cases others with
      | nil => cases h
      | cons other others =>
          obtain ⟨rfl, hrest⟩ := writeKey_injective (List.cons.inj h).2
          rw [ih hrest]

theorem Path.render_injective {p q : Path} (hp : ∀ key ∈ p.keys, key.length < 2 ^ 32)
    (hq : ∀ key ∈ q.keys, key.length < 2 ^ 32) (h : p.render = q.render) : p = q := by
  apply Path.keys_injective
  obtain ⟨key, keys, hkeys⟩ := List.exists_cons_of_ne_nil p.keys_ne_nil
  obtain ⟨other, others, hothers⟩ := List.exists_cons_of_ne_nil q.keys_ne_nil
  rw [render_eq_dotted p hkeys fun key hkey => renderKey_eq (hp key hkey),
    render_eq_dotted q hothers fun key hkey => renderKey_eq (hq key hkey)] at h
  obtain ⟨rfl, hrest⟩ := writeKey_injective h
  rw [hkeys, hothers, dotted_injective hrest]

end AsrServiceProxy.Config

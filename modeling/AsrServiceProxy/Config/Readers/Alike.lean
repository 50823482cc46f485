import AsrServiceProxy.Config.Readers

-- A reader of a file against one of a string with the same bytes.
namespace AsrServiceProxy.Config

open CMemory

-- The same values are returned, and past the last byte nothing but the end.
structure ReadersAgree (bytes buffer : Bytes) : Prop where
  same : ∀ n, nthRead FileReader.read (.new bytes buffer) n =
    nthRead StringReader.read (.new bytes) n
  ended : ∀ n, bytes.length ≤ n → nthRead FileReader.read (.new bytes buffer) n = READER_EOF

-- The position comes back to the first byte after 2^32 of them.
theorem StringReader.nthRead_wraps {str : Bytes} (h : 2 ^ 32 ≤ str.length) (n : ℕ)
    (hn : n % 2 ^ 32 < str.length) :
    nthRead read (.new str) n = readChar str[n % 2 ^ 32] := by
  have hrun : (fun r => (read r).2)^[n] (.new str) = { str := str, position := .ofNat n } := by
    induction n with
    | zero => simp [new]
    | succ n ih =>
        have hlt := Nat.mod_lt n (Nat.two_pow_pos 32)
        have hposition : (UInt32.ofNat n).toNat < str.length := by
          rw [UInt32.toNat_ofNat']
          omega
        rw [Function.iterate_succ_apply', ih (by omega), read, dif_pos hposition]
        simp [UInt32.ofNat_add]
  have hposition : (UInt32.ofNat n).toNat < str.length := by rwa [UInt32.toNat_ofNat']
  rw [nthRead, hrun, read, dif_pos hposition]
  simp

theorem FileReader.nthRead_of_le {bytes buffer : Bytes} {n : ℕ} (h : bytes.length ≤ n) :
    nthRead read (.new bytes buffer) n = READER_EOF := by
  rw [nthRead_eq, List.drop_eq_nil_of_le h]
  simp [peek, READER_EOF]

theorem FileReader.nthRead_of_lt {bytes buffer : Bytes} {n : ℕ} (h : n < bytes.length) :
    nthRead read (.new bytes buffer) n = readChar bytes[n] := by
  rw [nthRead_eq, List.drop_eq_getElem_cons h, peek]

theorem readersAgree_iff (bytes buffer : Bytes) :
    ReadersAgree bytes buffer ↔ bytes.length < 2 ^ 32 ∨ ∀ b ∈ bytes, b = 255 := by
  constructor
  · intro h
    by_contra hnot
    rw [not_or, not_lt] at hnot
    obtain ⟨hlength, hnot⟩ := hnot
    -- what the string reader returns is the end past the last byte, and so before it
    have hwrap (n : ℕ) (hn : n < 2 ^ 32) (hbyte : n < bytes.length) : bytes[n] = 255 := by
      have hlate : bytes.length ≤ n + bytes.length * 2 ^ 32 :=
        (Nat.le_mul_of_pos_right _ (Nat.two_pow_pos 32)).trans (Nat.le_add_left _ _)
      have hmod : (n + bytes.length * 2 ^ 32) % 2 ^ 32 = n := by
        rw [Nat.add_mul_mod_self_right, Nat.mod_eq_of_lt hn]
      have hsame := h.same (n + bytes.length * 2 ^ 32)
      rw [FileReader.nthRead_of_le hlate, StringReader.nthRead_wraps hlength _ (by omega)] at hsame
      simp only [hmod] at hsame
      exact (readChar_eof_iff _).mp hsame.symm
    refine hnot fun b hb => ?_
    obtain ⟨n, hn, rfl⟩ := List.getElem_of_mem hb
    have hlt := Nat.mod_lt n (Nat.two_pow_pos 32)
    have hsame := h.same n
    rw [FileReader.nthRead_of_lt hn, StringReader.nthRead_wraps hlength n (by omega),
      hwrap _ hlt (hlt.trans_le hlength)] at hsame
    exact (readChar_eof_iff _).mp hsame
  · intro h
    refine ⟨fun n => ?_, fun n => FileReader.nthRead_of_le⟩
    by_cases hlength : bytes.length < 2 ^ 32
    · rw [FileReader.nthRead_eq, StringReader.nthRead_eq hlength]
    · have hall := h.resolve_left hlength
      have hlt := Nat.mod_lt n (Nat.two_pow_pos 32)
      have hstring : nthRead StringReader.read (.new bytes) n = READER_EOF := by
        rw [StringReader.nthRead_wraps (by omega) n (by omega)]
        exact (readChar_eof_iff _).mpr (hall _ (List.getElem_mem _))
      rw [hstring]
      by_cases hn : n < bytes.length
      · rw [FileReader.nthRead_of_lt hn]
        exact (readChar_eof_iff _).mpr (hall _ (List.getElem_mem _))
      · exact FileReader.nthRead_of_le (by omega)

-- With 2^32 bytes the string reader begins again.
theorem not_readersAgree_letters : ¬ReadersAgree (List.replicate (2 ^ 32) 97) [] := by
  intro h
  have hlength : (List.replicate (2 ^ 32) (97 : UInt8)).length = 2 ^ 32 := List.length_replicate
  have hsame := h.same (2 ^ 32)
  rw [FileReader.nthRead_of_le hlength.le, StringReader.nthRead_wraps hlength.ge _ (by omega),
    List.getElem_replicate] at hsame
  exact absurd hsame (by decide)

end AsrServiceProxy.Config

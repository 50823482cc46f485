import AsrServiceProxy.App.Writefunc
import Mathlib.Data.List.Induction

namespace AsrServiceProxy.App

open CMemory

-- An allocator that never fails and hands out zeroed blocks.
def zeroed : Allocator := fun n => some (List.replicate n 0)

theorem zeroed_succeeds : zeroed.Succeeds := fun n => ⟨List.replicate n 0, rfl, by simp⟩

theorem sizeT_lt (n : ℕ) : sizeT n < 2 ^ 64 := Nat.mod_lt _ (by decide)

-- The first chunk gets a block with room for the terminator, unless the
-- length plus one wraps to zero.
theorem writefunc_first_inBounds_iff {heap : Allocator} (h : heap.Succeeds) (chunk : Bytes) :
    (writefunc heap chunk none).InBounds ↔ sizeT chunk.length ≠ 2 ^ 64 - 1 := by
  obtain ⟨bytes, _, hm⟩ := malloc_of_succeeds h (sizeT (sizeT chunk.length + 1))
  have hlt := sizeT_lt chunk.length
  simp only [writefunc, hm, Written.InBounds, Option.some.injEq, forall_eq', Block.poke_size,
    List.mem_append, List.mem_range'_1, List.mem_singleton]
  constructor
  · intro hb he
    have hlast := hb _ (Or.inr rfl)
    rw [he] at hlast
    simp [sizeT] at hlast
  · intro hne i hi
    have hsize : sizeT (sizeT chunk.length + 1) = sizeT chunk.length + 1 :=
      Nat.mod_eq_of_lt (by omega)
    omega

-- Every further chunk writes its terminator at the index that equals the size
-- of the block just reallocated.
theorem writefunc_append_not_inBounds {heap : Allocator} (h : heap.Succeeds) (chunk : Bytes)
    (block : Block) : ¬(writefunc heap chunk (some block)).InBounds := by
  obtain ⟨tail, hr⟩ :=
    realloc_of_succeeds h block (sizeT (sizeT chunk.length + strlen block.mem))
  intro hb
  simp only [writefunc, hr, Written.InBounds, Option.some.injEq, forall_eq', Block.poke_size] at hb
  exact Nat.lt_irrefl _ (hb _ (by simp))

theorem writefunc_result_isSome {heap : Allocator} (h : heap.Succeeds) (chunk : Bytes)
    (result : Option Block) : ∃ block, (writefunc heap chunk result).result = some block := by
  cases result with
  | none =>
      obtain ⟨bytes, _, hm⟩ := malloc_of_succeeds h (sizeT (sizeT chunk.length + 1))
      simp [writefunc, hm]
  | some block =>
      obtain ⟨tail, hr⟩ :=
        realloc_of_succeeds h block (sizeT (sizeT chunk.length + strlen block.mem))
      simp [writefunc, hr]

-- A transfer stays inside its blocks exactly when it is over after one chunk.
theorem transfer_inBounds_iff (chunks : List Chunk) (hs : ∀ c ∈ chunks, c.heap.Succeeds) :
    (∀ written ∈ transfer chunks none, written.InBounds) ↔
      chunks.length ≤ 1 ∧ ∀ c ∈ chunks, sizeT c.bytes.length ≠ 2 ^ 64 - 1 := by
  match chunks with
  | [] => simp [transfer]
  | [c] =>
      have hf := writefunc_first_inBounds_iff (hs c (by simp)) c.bytes
      simpa [transfer] using hf
  | c :: d :: rest =>
      obtain ⟨block, hb⟩ := writefunc_result_isSome (hs c (by simp)) c.bytes none
      have hd := writefunc_append_not_inBounds (hs d (by simp)) d.bytes block
      constructor
      · intro hall
        exact absurd (hall _ (by simp [transfer, hb])) hd
      · intro hlen
        simp at hlen

theorem transfer_inBounds_one_chunk :
    (transfer [⟨zeroed, ascii "ok"⟩] none).length = 1 ∧
      ∀ written ∈ transfer [⟨zeroed, ascii "ok"⟩] none, written.InBounds :=
  ⟨rfl, (transfer_inBounds_iff [⟨zeroed, ascii "ok"⟩] (by simp [zeroed_succeeds])).mpr
    ⟨by simp, by simp [sizeT, ascii]⟩⟩

-- Two one-byte chunks: the second call writes index 2 of a two-byte block.
theorem transfer_out_of_bounds :
    ¬∀ chunks : List Chunk, (∀ c ∈ chunks, c.heap.Succeeds) →
      ∀ written ∈ transfer chunks none, written.InBounds := by
  intro hall
  have hsecond := hall [⟨zeroed, ascii "a"⟩, ⟨zeroed, ascii "b"⟩] (by simp [zeroed_succeeds])
    { result := some { size := 2, mem := [97, 98, 0] }, returned := 1, indices := [1, 2] }
    (by decide)
  exact absurd (hsecond _ rfl 2 (by decide)) (by decide)

-- The C string in the block is the text, which lies inside the block's size but
-- for the terminator.
def Holds (block : Block) (text : Bytes) : Prop :=
  0 ∉ text ∧ text.length ≤ block.size ∧ ∃ rest, block.mem = text ++ 0 :: rest

theorem Holds.cstr_eq {block : Block} {text : Bytes} (h : Holds block text) :
    cstr block.mem = text := by
  obtain ⟨hz, _, rest, hmem⟩ := h
  rw [hmem, cstr_append_nul hz]

theorem poke_terminated {mem text : Bytes} (chunk : Bytes) (h : ∃ rest, mem = text ++ rest) :
    ∃ rest, poke (poke mem text.length chunk) (text.length + chunk.length) [0] =
      text ++ chunk ++ 0 :: rest := by
  obtain ⟨rest, rfl⟩ := h
  rw [poke_of_le (by simp) chunk, List.take_left, poke_of_le (by simp) [0]]
  have hlen : text.length + chunk.length = (text ++ chunk).length := by simp
  rw [hlen, List.take_left]
  exact ⟨_, List.append_assoc _ _ _⟩

theorem holds_of_written {block : Block} {text chunk : Bytes} (hz : 0 ∉ text)
    (hlen : text.length + chunk.length ≤ block.size)
    (hmem : ∃ rest, block.mem = text ++ chunk ++ 0 :: rest) : Holds block (text ++ cstr chunk) := by
  obtain ⟨rest, hmem⟩ := hmem
  obtain ⟨more, hm⟩ := append_nul_eq_cstr chunk rest
  refine ⟨?_, ?_, more, ?_⟩
  · simp [hz, zero_notMem_cstr]
  · have hcut := cstr_length_le chunk
    rw [List.length_append]
    omega
  · rw [hmem, List.append_assoc, hm, List.append_assoc]

-- The block that `*result` points to holds the text gathered so far.
def Gathers : Option Block → Option Bytes → Prop
  | none, none => True
  | some block, some text => Holds block text
  | _, _ => False

theorem writefunc_first_gathers (heap : Allocator) {chunk : Bytes}
    (hlen : chunk.length + 1 < 2 ^ 64) :
    Gathers (writefunc heap chunk none).result (Chunk.gather ⟨heap, chunk⟩ none) := by
  have hsize : sizeT chunk.length = chunk.length := Nat.mod_eq_of_lt (by omega)
  have hsize' : sizeT (chunk.length + 1) = chunk.length + 1 := Nat.mod_eq_of_lt hlen
  cases hb : heap (chunk.length + 1) with
  | none => simp [writefunc, malloc, hsize, hsize', Chunk.gather, hb, Gathers]
  | some bytes =>
      obtain ⟨rest, hr⟩ := poke_terminated chunk ⟨bytes, (List.nil_append bytes).symm⟩
      simp only [writefunc, malloc, hsize, hsize', Chunk.gather, hb, Option.map_some,
        List.take_length]
      show Holds _ ([] ++ cstr chunk)
      refine holds_of_written (by simp) (by simp) ⟨rest, ?_⟩
      simpa [Block.poke] using hr

theorem writefunc_append_gathers (heap : Allocator) {chunk text : Bytes} {block : Block}
    (hb : Holds block text) (hlen : text.length + chunk.length < 2 ^ 64) :
    Gathers (writefunc heap chunk (some block)).result
      (Chunk.gather ⟨heap, chunk⟩ (some text)) := by
  have hstr : strlen block.mem = text.length := congrArg List.length hb.cstr_eq
  obtain ⟨hz, hle, rest, hmem⟩ := hb
  have hsize : sizeT chunk.length = chunk.length := Nat.mod_eq_of_lt (by omega)
  have hsize' : sizeT (chunk.length + text.length) = chunk.length + text.length :=
    Nat.mod_eq_of_lt (by omega)
  cases hh : heap (chunk.length + text.length) with
  | none => simp [writefunc, realloc, hsize, hstr, hsize', Chunk.gather, hh, Gathers]
  | some bytes =>
      -- the bytes that `realloc` keeps include the text
      have hkeep : ∃ more, block.mem.take (min block.size (chunk.length + text.length)) ++
          bytes.drop (min block.size (chunk.length + text.length)) = text ++ more := by
        have hmin : text.length ≤ min block.size (chunk.length + text.length) := by omega
        rw [hmem, List.take_append, List.take_of_length_le hmin, List.append_assoc]
        exact ⟨_, rfl⟩
      obtain ⟨more, hp⟩ := poke_terminated chunk hkeep
      rw [Nat.add_comm text.length chunk.length] at hp
      simp only [writefunc, realloc, hsize, hstr, hsize', Chunk.gather, hh, Option.map_some,
        List.take_length]
      refine holds_of_written hz ?_ ⟨more, ?_⟩
      · simp only [Block.poke_size]
        omega
      · simpa [Block.poke] using hp

theorem received_append (chunks : List Chunk) (c : Chunk) :
    received (chunks ++ [c]) = (writefunc c.heap c.bytes (received chunks)).result := by
  simp [received]

theorem gathered_append (chunks : List Chunk) (c : Chunk) :
    gathered (chunks ++ [c]) = c.gather (gathered chunks) := by
  simp [gathered]

theorem delivered_append (chunks : List Chunk) (c : Chunk) :
    delivered (chunks ++ [c]) = delivered chunks ++ c.bytes := by
  simp [delivered]

theorem gather_length_le {chunk : Chunk} {before : Option Bytes} {text : Bytes} {n : ℕ}
    (hn : ∀ old, before = some old → old.length ≤ n) (h : chunk.gather before = some text) :
    text.length ≤ n + chunk.bytes.length := by
  have hcut := cstr_length_le chunk.bytes
  cases before with
  | none =>
      obtain ⟨_, _, rfl⟩ := Option.map_eq_some_iff.mp h
      omega
  | some old =>
      obtain ⟨_, _, rfl⟩ := Option.map_eq_some_iff.mp h
      have hold := hn old rfl
      rw [List.length_append]
      omega

theorem gathered_length_le (chunks : List Chunk) :
    ∀ text, gathered chunks = some text → text.length ≤ (delivered chunks).length := by
  induction chunks using List.reverseRecOn with
  | nil =>
      intro text h
      cases h
  | append_singleton chunks c ih =>
      intro text h
      rw [gathered_append] at h
      rw [delivered_append, List.length_append]
      exact gather_length_le ih h

-- What lies in `*result` after a transfer is what its chunks say.
theorem received_gathers (chunks : List Chunk) (hlen : (delivered chunks).length + 1 < 2 ^ 64) :
    Gathers (received chunks) (gathered chunks) := by
  induction chunks using List.reverseRecOn with
  | nil => trivial
  | append_singleton chunks c ih =>
      rw [delivered_append, List.length_append] at hlen
      have hg := ih (by omega)
      have hle := gathered_length_le chunks
      rw [received_append, gathered_append]
      cases hr : received chunks with
      | none =>
          rw [hr] at hg
          cases ht : gathered chunks with
          | none => exact writefunc_first_gathers c.heap (by omega)
          | some text =>
              rw [ht] at hg
              exact hg.elim
      | some block =>
          rw [hr] at hg
          cases ht : gathered chunks with
          | none =>
              rw [ht] at hg
              exact hg.elim
          | some text =>
              rw [ht] at hg
              have hold := hle text ht
              exact writefunc_append_gathers c.heap hg (by omega)

-- Without failed allocations a body that has no NUL bytes is gathered whole.
theorem gathered_of_plain (chunks : List Chunk) (hne : chunks ≠ [])
    (hs : ∀ c ∈ chunks, c.heap.Succeeds) (hz : 0 ∉ delivered chunks) :
    gathered chunks = some (delivered chunks) := by
  induction chunks using List.reverseRecOn with
  | nil => exact absurd rfl hne
  | append_singleton chunks c ih =>
      rw [delivered_append, List.mem_append, not_or] at hz
      have hplain : cstr c.bytes = c.bytes := (cstr_eq_self_iff _).mpr hz.2
      rw [gathered_append, delivered_append]
      by_cases hnil : chunks = []
      · subst hnil
        obtain ⟨bytes, hb, _⟩ := hs c (by simp) (c.bytes.length + 1)
        simp [gathered, delivered, Chunk.gather, hb, hplain]
      · rw [ih hnil (fun d hd => hs d (by simp [hd])) hz.1]
        obtain ⟨bytes, hb, _⟩ := hs c (by simp) (c.bytes.length + (delivered chunks).length)
        simp [Chunk.gather, hb, hplain]

end AsrServiceProxy.App

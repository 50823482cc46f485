import Mathlib.Algebra.GroupWithZero.Nat
import Mathlib.Algebra.Ring.Int.Defs
import Mathlib.Data.List.TakeWhile

-- Bytes, C strings and heap blocks as the C library functions treat them.
namespace CMemory

abbrev Bytes := List UInt8

def ascii (s : String) : Bytes := s.toList.map fun c => UInt8.ofNat c.toNat

theorem forall_byte {p : UInt8 → Prop} (h : ∀ n < 256, p (UInt8.ofNat n)) (b : UInt8) : p b := by
  have hb := h b.toNat b.toNat_lt
  rwa [UInt8.ofNat_toNat] at hb

-- Arithmetic on `size_t` is modulo 2^64.
def sizeT (n : ℕ) : ℕ := n % 2 ^ 64

-- The result of an operation on signed integers; `none` when it overflows.
def signed (bits : ℕ) (x : ℤ) : Option ℤ :=
  if -2 ^ (bits - 1) ≤ x ∧ x < 2 ^ (bits - 1) then some x else none

theorem signed_some {bits : ℕ} {x : ℤ} (h : -2 ^ (bits - 1) ≤ x ∧ x < 2 ^ (bits - 1)) :
    signed bits x = some x := if_pos h

theorem signed_none {bits : ℕ} {x : ℤ} (h : 2 ^ (bits - 1) ≤ x) : signed bits x = none :=
  if_neg fun hx => absurd hx.2 (Int.not_lt.mpr h)

-- A size that is converted to an `int`.
@[irreducible] def intOfSize (n : ℕ) : ℤ := (n : ℤ).bmod (2 ^ 32)

theorem intOfSize_eq (n : ℕ) :
    intOfSize n =
      if n % 2 ^ 32 < 2 ^ 31 then ((n % 2 ^ 32 : ℕ) : ℤ) else ((n % 2 ^ 32 : ℕ) : ℤ) - 2 ^ 32 := by
  unfold intOfSize
  have hmodulus : ((2 ^ 32 : ℕ) : ℤ) = 4294967296 := by omega
  have hhalf : (((2 ^ 32 : ℕ) : ℤ) + 1) / 2 = 2147483648 := by omega
  rw [Int.bmod, hhalf, hmodulus]
  split <;> split <;> omega

theorem intOfSize_of_lt {n : ℕ} (h : n < 2 ^ 31) : intOfSize n = n := by
  rw [intOfSize_eq, Nat.mod_eq_of_lt (by omega), if_pos h]

theorem intOfSize_ne_zero {n : ℕ} (hpos : 0 < n) (h : n < 2 ^ 32) : intOfSize n ≠ 0 := by
  rw [intOfSize_eq, Nat.mod_eq_of_lt h]
  split <;> omega

-- The bytes before the first NUL.
def cstr (mem : Bytes) : Bytes := mem.takeWhile (· ≠ 0)

def strlen (mem : Bytes) : ℕ := (cstr mem).length

-- Copy `bytes` to offset `off`. Bytes that were never written read as zero.
def poke (mem : Bytes) (off : ℕ) (bytes : Bytes) : Bytes :=
  mem.take off ++ List.replicate (off - mem.length) 0 ++ bytes ++ mem.drop (off + bytes.length)

-- `size` is what was asked of the allocator. `mem` is what lies from the
-- block's address on: a write past `size` lands there too.
structure Block where
  size : ℕ
  mem : Bytes
deriving DecidableEq, Repr

-- An allocator gives the indeterminate bytes of a new block, or NULL.
abbrev Allocator := ℕ → Option Bytes

def Allocator.Succeeds (heap : Allocator) : Prop :=
  ∀ n, ∃ bytes, heap n = some bytes ∧ bytes.length = n

def malloc (heap : Allocator) (n : ℕ) : Option Block :=
  (heap n).map fun bytes => { size := n, mem := bytes }

-- The bytes up to the smaller of the two sizes are kept.
def realloc (heap : Allocator) (block : Block) (n : ℕ) : Option Block :=
  (heap n).map fun bytes =>
    { size := n
      mem := block.mem.take (min block.size n) ++ bytes.drop (min block.size n) }

def Block.poke (block : Block) (off : ℕ) (bytes : Bytes) : Block :=
  { block with mem := CMemory.poke block.mem off bytes }

@[simp] theorem Block.poke_size (block : Block) (off : ℕ) (bytes : Bytes) :
    (block.poke off bytes).size = block.size := rfl

theorem cstr_eq_self_iff (mem : Bytes) : cstr mem = mem ↔ 0 ∉ mem := by
  unfold cstr
  rw [List.takeWhile_eq_self_iff]
  constructor
  · intro h hz
    simpa using h 0 hz
  · intro h b hb
    simp only [decide_eq_true_eq]
    rintro rfl
    exact h hb

theorem malloc_of_succeeds {heap : Allocator} (h : heap.Succeeds) (n : ℕ) :
    ∃ bytes, bytes.length = n ∧ malloc heap n = some { size := n, mem := bytes } := by
  obtain ⟨bytes, he, hl⟩ := h n
  exact ⟨bytes, hl, by simp [malloc, he]⟩

theorem realloc_of_succeeds {heap : Allocator} (h : heap.Succeeds) (block : Block) (n : ℕ) :
    ∃ tail, realloc heap block n =
      some { size := n, mem := block.mem.take (min block.size n) ++ tail } := by
  obtain ⟨bytes, he, _⟩ := h n
  simp [realloc, he]

theorem cstr_append_nul {text : Bytes} (h : 0 ∉ text) (rest : Bytes) :
    cstr (text ++ 0 :: rest) = text := by
  unfold cstr
  induction text with
  | nil => simp
  | cons b text ih =>
      have hb : b ≠ 0 := fun he => h (by simp [he])
      have ht := ih fun hm => h (by simp [hm])
      rw [List.cons_append, List.takeWhile_cons_of_pos (by simpa using hb), ht]

theorem cstr_length_le (mem : Bytes) : (cstr mem).length ≤ mem.length :=
  (List.takeWhile_prefix _).length_le

theorem zero_notMem_cstr (mem : Bytes) : 0 ∉ cstr mem := by
  intro hm
  simpa using List.mem_takeWhile_imp hm

-- Past its first NUL, a terminated text is no longer seen.
theorem append_nul_eq_cstr (text rest : Bytes) :
    ∃ more, text ++ 0 :: rest = cstr text ++ 0 :: more := by
  unfold cstr
  induction text with
  | nil => exact ⟨rest, rfl⟩
  | cons b text ih =>
      by_cases hb : b = 0
      · exact ⟨text ++ 0 :: rest, by simp [hb]⟩
      · obtain ⟨more, hm⟩ := ih
        refine ⟨more, ?_⟩
        rw [List.cons_append, hm, List.takeWhile_cons_of_pos (by simpa using hb), List.cons_append]

theorem poke_of_le {mem : Bytes} {off : ℕ} (h : off ≤ mem.length) (bytes : Bytes) :
    poke mem off bytes = mem.take off ++ bytes ++ mem.drop (off + bytes.length) := by
  have hz : off - mem.length = 0 := Nat.sub_eq_zero_of_le h
  simp [poke, hz]

end CMemory

import AsrServiceProxy.App.Config.Theorems

-- `clean_opt` on the memory that its argument points into.
namespace AsrServiceProxy.App

open CMemory StringUtil Strip

-- The bytes of the memory, and the addresses that were read or written.
structure Memory where
  byte : ℤ → UInt8
  touched : List ℤ

-- `none` is a loop that was given too few rounds.
abbrev Access := StateT Memory Option

def load (address : ℤ) : Access UInt8 := fun memory =>
  some (memory.byte address, { memory with touched := memory.touched ++ [address] })

def store (address : ℤ) (b : UInt8) : Access Unit := fun memory =>
  some ((), { byte := Function.update memory.byte address b
              touched := memory.touched ++ [address] })

def outOfRounds {α : Type} : Access α := fun _ => none

-- `isblank` of the C locale.
def isblank (b : UInt8) : Bool := b = 32 || b = 9

-- The condition of both loops.
def isCleaned (b : UInt8) : Bool := isspace b || isblank b || b = 34 || b = 39

def skipFront : ℕ → ℤ → Access ℤ
  | 0, _ => outOfRounds
  | n + 1, opt => do
      let c ← load opt
      if c ≠ 0 && isCleaned c then skipFront n (opt + 1) else return opt

def strlenLoop : ℕ → ℤ → ℤ → Access ℤ
  | 0, _, _ => outOfRounds
  | n + 1, str, length => do
      if (← load (str + length)) = 0 then return length else strlenLoop n str (length + 1)

def skipBack : ℕ → ℤ → ℤ → Access ℤ
  | 0, _, _ => outOfRounds
  | n + 1, opt, end_ => do
      if opt < end_ then
        if isCleaned (← load end_) then skipBack n opt (end_ - 1) else return end_
      else return end_

-- A null pointer is `none`.
def cleanOptAt (rounds : ℕ) : Option ℤ → Access (Option ℤ)
  | none => return none
  | some opt => do
      let opt ← skipFront rounds opt
      let end_ ← skipBack rounds opt (opt + (← strlenLoop rounds opt 0) - 1)
      store (end_ + 1) 0
      return some opt

-- The argument with its terminator.
structure StringAt (byte : ℤ → UInt8) (address : ℤ) (argument : Bytes) : Prop where
  bytes : ∀ (i : ℕ) (h : i < argument.length), byte (address + i) = argument[i]
  terminator : byte (address + argument.length) = 0
  plain : 0 ∉ argument

-- Nothing outside of the argument and its terminator is read or written.
structure Within (address : ℤ) (argument : Bytes) (memory memory' : Memory) : Prop where
  touched : ∃ addresses, memory'.touched = memory.touched ++ addresses ∧
    ∀ a ∈ addresses, address ≤ a ∧ a ≤ address + argument.length
  outside : ∀ a, a < address ∨ address + argument.length < a → memory'.byte a = memory.byte a

-- What only reads.
structure Reads (address : ℤ) (argument : Bytes) (memory memory' : Memory) : Prop where
  within : Within address argument memory memory'
  byte : memory'.byte = memory.byte

section

variable {memory memory' memory'' : Memory} {address : ℤ} {argument : Bytes}

theorem Within.refl (memory : Memory) : Within address argument memory memory where
  touched := ⟨[], by simp⟩
  outside _ _ := by simp

theorem Within.trans (h : Within address argument memory memory')
    (h' : Within address argument memory' memory'') : Within address argument memory memory'' where
  touched := by
    obtain ⟨addresses, htouched, hall⟩ := h.touched
    obtain ⟨addresses', htouched', hall'⟩ := h'.touched
    refine ⟨addresses ++ addresses', by rw [htouched', htouched, List.append_assoc], ?_⟩
    intro a ha
    cases List.mem_append.mp ha with
    | inl ha => exact hall a ha
    | inr ha => exact hall' a ha
  outside a ha := (h'.outside a ha).trans (h.outside a ha)

theorem Reads.refl (memory : Memory) : Reads address argument memory memory :=
  ⟨.refl memory, by simp⟩

theorem Reads.trans (h : Reads address argument memory memory')
    (h' : Reads address argument memory' memory'') : Reads address argument memory memory'' :=
  ⟨h.within.trans h'.within, h'.byte.trans h.byte⟩

theorem StringAt.load_eq (_ : StringAt memory.byte address argument) {a : ℤ} (hlow : address ≤ a)
    (hhigh : a ≤ address + argument.length) :
    ∃ memory', load a memory = some (memory.byte a, memory') ∧
      Reads address argument memory memory' := by
  refine ⟨{ memory with touched := memory.touched ++ [a] }, by simp [load], ?_, by simp⟩
  exact ⟨⟨[a], by simp, by simpa using ⟨hlow, hhigh⟩⟩, by simp⟩

theorem StringAt.store_eq (_ : StringAt memory.byte address argument) {a : ℤ} (hlow : address ≤ a)
    (hhigh : a ≤ address + argument.length) (b : UInt8) :
    ∃ memory', store a b memory = some ((), memory') ∧
      memory'.byte = Function.update memory.byte a b ∧ Within address argument memory memory' := by
  refine ⟨⟨Function.update memory.byte a b, memory.touched ++ [a]⟩, by simp [store], by simp, ?_⟩
  refine ⟨⟨[a], by simp, by simpa using ⟨hlow, hhigh⟩⟩, ?_⟩
  intro other hother
  have hne : other ≠ a := by omega
  simp [hne]

theorem StringAt.reads (h : StringAt memory.byte address argument)
    (hreads : Reads address argument memory memory') : StringAt memory'.byte address argument := by
  rwa [hreads.byte]

theorem pure_run {α : Type} (a : α) (memory : Memory) :
    (pure a : Access α) memory = some (a, memory) := rfl

theorem bind_of_eq {α β : Type} {m : Access α} {f : α → Access β} {a : α}
    (h : m memory = some (a, memory')) : (m >>= f) memory = f a memory' := by
  simp [bind, StateT.bind, h]

theorem skipFront_eq {n i : ℕ} (h : StringAt memory.byte address argument)
    (hi : i ≤ argument.length) (hn : argument.length < n + i) :
    ∃ memory', skipFront n (address + i) memory =
        some (address + (i + ((argument.drop i).takeWhile isCleaned).length : ℕ), memory') ∧
      Reads address argument memory memory' := by
  induction n generalizing i memory with
  | zero => omega
  | succ n ih =>
      obtain ⟨memory', hload, hreads⟩ :=
        h.load_eq (a := address + i) (by omega) (by omega)
      rw [skipFront, bind_of_eq hload]
      by_cases hend : i = argument.length
      · rw [hend, h.terminator]
        exact ⟨memory', by simp [pure_run], hreads⟩
      · have hlt : i < argument.length := by omega
        have hbyte := h.bytes i hlt
        have hne : argument[i] ≠ 0 := fun hzero => h.plain (hzero ▸ List.getElem_mem hlt)
        rw [hbyte, List.drop_eq_getElem_cons hlt, List.takeWhile_cons]
        cases hc : isCleaned argument[i] with
        | false => exact ⟨memory', by simp [pure_run], hreads⟩
        | true =>
            obtain ⟨memory'', hskip, hreads'⟩ :=
              ih (i := i + 1) (h.reads hreads) (by omega) (by omega)
            refine ⟨memory'', ?_, hreads.trans hreads'⟩
            have hnext : address + i + 1 = address + (i + 1 : ℕ) := by omega
            rw [if_pos (by simp [hne]), hnext, hskip]
            simp
            omega

theorem strlenLoop_eq {n i j : ℕ} (h : StringAt memory.byte address argument)
    (hi : i + j ≤ argument.length) (hn : argument.length < n + i + j) :
    ∃ memory', strlenLoop n (address + i) j memory =
        some (((argument.length - i : ℕ) : ℤ), memory') ∧
      Reads address argument memory memory' := by
  induction n generalizing j memory with
  | zero => omega
  | succ n ih =>
      obtain ⟨memory', hload, hreads⟩ :=
        h.load_eq (a := address + i + j) (by omega) (by omega)
      rw [strlenLoop, bind_of_eq hload]
      by_cases hend : i + j = argument.length
      · have hzero : memory.byte (address + i + j) = 0 := by
          rw [← h.terminator, ← hend]
          push_cast
          rw [add_assoc]
        refine ⟨memory', ?_, hreads⟩
        rw [hzero, if_pos (by simp)]
        simp [pure_run]
        omega
      · have hlt : i + j < argument.length := by omega
        have hbyte := h.bytes (i + j) hlt
        have hne : argument[i + j] ≠ 0 := fun hzero => h.plain (hzero ▸ List.getElem_mem hlt)
        push_cast at hbyte
        rw [add_assoc, hbyte, if_neg hne]
        obtain ⟨memory'', hrest, hreads'⟩ := ih (j := j + 1) (h.reads hreads) (by omega) (by omega)
        push_cast at hrest
        exact ⟨memory'', hrest, hreads.trans hreads'⟩

-- From the end of `k` characters, the first of which stays.
theorem skipBack_eq {n i k : ℕ} (h : StringAt memory.byte address argument)
    (hhead : ∀ b ∈ (argument.drop i).head?, isCleaned b = false) (hk : i + k ≤ argument.length)
    (hn : k < n) :
    ∃ memory', skipBack n (address + i) (address + i + k - 1) memory =
        some (address + i + (((argument.drop i).take k).rdropWhile isCleaned).length - 1, memory') ∧
      Reads address argument memory memory' := by
  induction n generalizing k memory with
  | zero => omega
  | succ n ih =>
      rw [skipBack]
      cases k with
      | zero =>
          rw [if_neg (by omega)]
          exact ⟨memory, by simp [pure_run], .refl memory⟩
      | succ k =>
          have hlt : i + k < argument.length := by omega
          have hlast : address + i + (k + 1 : ℕ) - 1 = address + (i + k : ℕ) := by
            push_cast
            omega
          have hdrop : k < (argument.drop i).length := by
            rw [List.length_drop]
            omega
          have htake : (argument.drop i).take (k + 1) =
              (argument.drop i).take k ++ [argument[i + k]] := by
            rw [List.take_succ_eq_append_getElem hdrop, List.getElem_drop]
          rw [hlast, htake, List.rdropWhile_concat]
          by_cases hfirst : k = 0
          · subst hfirst
            have hdrop := hhead argument[i + 0] (by simp [List.head?_drop])
            rw [if_neg (by omega), hdrop]
            exact ⟨memory, by simp [pure_run], .refl memory⟩
          · obtain ⟨memory', hload, hreads⟩ :=
              h.load_eq (a := address + (i + k : ℕ)) (by omega) (by omega)
            rw [if_pos (by push_cast; omega), bind_of_eq hload, h.bytes _ hlt]
            cases hc : isCleaned argument[i + k] with
            | false =>
                refine ⟨memory', ?_, hreads⟩
                simp [pure_run, Nat.min_eq_left (show k ≤ argument.length - i by omega)]
                omega
            | true =>
                obtain ⟨memory'', hskip, hreads'⟩ :=
                  ih (k := k) (h.reads hreads) (by omega) (by omega)
                refine ⟨memory'', ?_, hreads.trans hreads'⟩
                rw [show address + (i + k : ℕ) - 1 = address + i + k - 1 by push_cast; omega]
                simpa using hskip

-- The one byte that is written lies in the argument, or is its terminator.
theorem cleanOptAt_eq {rounds : ℕ} (h : StringAt memory.byte address argument)
    (hrounds : argument.length < rounds) :
    ∃ memory', cleanOptAt rounds (some address) memory =
        some (some (address + (argument.takeWhile isCleaned).length), memory') ∧
      memory'.byte = Function.update memory.byte
        (address + (argument.takeWhile isCleaned).length + (strip isCleaned argument).length) 0 ∧
      Within address argument memory memory' := by
  have hparts := length_takeWhile_add_strip_le isCleaned argument
  obtain ⟨memory₁, hfront, hreads₁⟩ := skipFront_eq (i := 0) h (Nat.zero_le _) hrounds
  rw [List.drop_zero, Nat.zero_add, Nat.cast_zero, add_zero] at hfront
  obtain ⟨memory₂, hlength, hreads₂⟩ :=
    strlenLoop_eq (n := rounds) (i := (argument.takeWhile isCleaned).length) (j := 0)
      (h.reads hreads₁) (by omega) (by omega)
  rw [Nat.cast_zero] at hlength
  have hhead : ∀ b ∈ (argument.drop (argument.takeWhile isCleaned).length).head?,
      isCleaned b = false := by
    rw [drop_takeWhile_length]
    exact head_dropWhile isCleaned argument
  have hreads := hreads₁.trans hreads₂
  obtain ⟨memory₃, hback, hreads₃⟩ :=
    skipBack_eq (n := rounds) (k := argument.length - (argument.takeWhile isCleaned).length)
      (h.reads hreads) hhead (by omega) (by omega)
  have hend : ((argument.drop (argument.takeWhile isCleaned).length).take
      (argument.length - (argument.takeWhile isCleaned).length)).rdropWhile isCleaned =
      strip isCleaned argument := by
    rw [drop_takeWhile_length, List.take_of_length_le (by simp [← drop_takeWhile_length]), strip]
  rw [hend] at hback
  have hreads' := hreads.trans hreads₃
  have hlast (a : ℤ) : a - 1 + 1 = a := by omega
  obtain ⟨memory', hstore, hbyte, hwithin⟩ :=
    (h.reads hreads').store_eq
      (a := address + (argument.takeWhile isCleaned).length + (strip isCleaned argument).length)
      (by omega) (by omega) 0
  refine ⟨memory', ?_, by rw [hbyte, hreads'.byte], hreads'.within.trans hwithin⟩
  rw [cleanOptAt, bind_of_eq hfront, bind_of_eq hlength, bind_of_eq hback, hlast, bind_of_eq hstore]
  simp [pure_run]

theorem StringAt.cleaned (h : StringAt memory.byte address argument)
    (hbyte : memory'.byte = Function.update memory.byte
      (address + (argument.takeWhile isCleaned).length + (strip isCleaned argument).length) 0) :
    StringAt memory'.byte (address + (argument.takeWhile isCleaned).length)
      (strip isCleaned argument) := by
  have hfront : strip isCleaned argument <+: argument.dropWhile isCleaned :=
    List.rdropWhile_prefix isCleaned _
  refine ⟨?_, by rw [hbyte, Function.update_self], ?_⟩
  · intro i hi
    have hdrop : i < (argument.dropWhile isCleaned).length := hi.trans_le hfront.length_le
    rw [← drop_takeWhile_length, List.length_drop] at hdrop
    have hold := h.bytes ((argument.takeWhile isCleaned).length + i) (by omega)
    push_cast at hold
    rw [hbyte, Function.update_of_ne (by omega), add_assoc, hold, hfront.getElem hi]
    simp [← drop_takeWhile_length]
  · intro hzero
    exact h.plain ((List.dropWhile_suffix isCleaned).mem (hfront.mem hzero))

-- A string without such ends is left as it is.
theorem cleanOptAt_again {rounds : ℕ} {opt : ℤ} {text : Bytes}
    (h : StringAt memory.byte opt (strip isCleaned text))
    (hrounds : (strip isCleaned text).length < rounds) :
    ∃ memory', cleanOptAt rounds (some opt) memory = some (some opt, memory') ∧
      memory'.byte = memory.byte := by
  obtain ⟨memory', hrun, hbyte, -⟩ := cleanOptAt_eq h hrounds
  have hnone : (strip isCleaned text).takeWhile isCleaned = [] := by
    have hparts := List.takeWhile_append_dropWhile (p := isCleaned) (l := strip isCleaned text)
    rw [dropWhile_eq_self (strips_strip isCleaned text).head] at hparts
    simpa using hparts
  rw [hnone, strip_strip, List.length_nil, Nat.cast_zero, add_zero] at hbyte
  rw [hnone, List.length_nil, Nat.cast_zero, add_zero] at hrun
  exact ⟨memory', hrun, by rw [hbyte, ← h.terminator, Function.update_eq_self]⟩

-- What comes back is the argument without its ends; a second call changes nothing.
theorem cleanOptAt_cleans {rounds : ℕ} (h : StringAt memory.byte address argument)
    (hrounds : argument.length < rounds) :
    ∃ opt text memory', cleanOptAt rounds (some address) memory = some (some opt, memory') ∧
      Strips isCleaned argument text ∧ StringAt memory'.byte opt text ∧
      Within address argument memory memory' ∧
      ∃ memory'', cleanOptAt rounds (some opt) memory' = some (some opt, memory'') ∧
        memory''.byte = memory'.byte := by
  obtain ⟨memory', hrun, hbyte, hwithin⟩ := cleanOptAt_eq h hrounds
  have hcleaned := h.cleaned hbyte
  exact ⟨_, _, memory', hrun, strips_strip isCleaned argument, hcleaned, hwithin,
    cleanOptAt_again hcleaned ((length_strip_le isCleaned argument).trans_lt hrounds)⟩

end

-- A blank and a quote are all of the argument.
theorem cleanOptAt_cleans_quote :
    ∃ opt text memory',
      cleanOptAt 3 (some 1000) ⟨fun a => if a = 1000 then 32 else if a = 1001 then 34 else 0, []⟩ =
        some (some opt, memory') ∧
      Strips isCleaned [32, 34] text ∧ StringAt memory'.byte opt text ∧
      Within 1000 [32, 34] ⟨fun a => if a = 1000 then 32 else if a = 1001 then 34 else 0, []⟩
        memory' ∧
      ∃ memory'', cleanOptAt 3 (some opt) memory' = some (some opt, memory'') ∧
        memory''.byte = memory'.byte :=
  cleanOptAt_cleans ⟨by decide, by decide, by decide⟩ (by decide)

theorem isCleaned_eq : isCleaned = isMark := by
  funext b
  simp only [isCleaned, isblank, isMark, isspace]
  grind

-- The argument that the options get.
theorem cleanOpt_eq_strip {argument : Bytes} (h : 0 ∉ argument) :
    cleanOpt argument = strip isCleaned argument := by
  rw [cleanOpt_eq h, isCleaned_eq, cleaned, strip]

end AsrServiceProxy.App

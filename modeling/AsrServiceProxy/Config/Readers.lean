import AsrServiceProxy.Config.Tokenizer.Delivery

-- The readers that the token stream takes its characters from.
namespace AsrServiceProxy.Config

open CMemory Simulation

def READER_EOF : ℤ := -1

structure StringReader where
  str : Bytes
  position : UInt32

def StringReader.new (str : Bytes) : StringReader := { str := str, position := 0 }

def StringReader.read (r : StringReader) : ℤ × StringReader :=
  if h : r.position.toNat < r.str.length then
    (readChar r.str[r.position.toNat], { r with position := r.position + 1 })
  else (READER_EOF, r)

-- `std::ifstream`: what is left of the file, and whether a read asked for more than that.
structure IfStream where
  rest : Bytes
  eof : Bool

def IfStream.read (file : IfStream) (n : ℕ) : Bytes × IfStream :=
  if file.eof then ([], file)
  else (file.rest.take n, { rest := file.rest.drop n, eof := file.rest.length < n })

def BUFFER_SIZE : ℕ := 8096

-- `size` and `position` are never above `BUFFER_SIZE`.
structure FileReader where
  file : IfStream
  buffer : Bytes
  size : ℕ
  position : ℕ

-- The buffer holds anything before it is filled.
def FileReader.new (bytes buffer : Bytes) : FileReader :=
  { file := { rest := bytes, eof := false }, buffer := buffer, size := 0, position := BUFFER_SIZE }

-- `READER_EOF` is no zero, so that it is returned as `true`.
def FileReader.fillBuffer (r : FileReader) : Bool × FileReader :=
  if r.file.eof then (READER_EOF ≠ 0, r)
  else
    let (taken, file) := r.file.read BUFFER_SIZE
    (0 < taken.length,
      { file := file, buffer := taken ++ r.buffer.drop taken.length, size := taken.length, position := 0 })

def FileReader.readBuffered (r : FileReader) : ℤ × FileReader :=
  if r.size ≤ r.position then (READER_EOF, r)
  else (readChar (r.buffer.getD r.position 0), { r with position := r.position + 1 })

def FileReader.read (r : FileReader) : ℤ × FileReader :=
  if BUFFER_SIZE ≤ r.position then
    let (filled, r) := r.fillBuffer
    if filled then r.readBuffered else (READER_EOF, r)
  else r.readBuffered

section

variable {σ : Type} (read : σ → ℤ × σ)

-- What a call of `read` returns after some others.
def nthRead (s : σ) (n : ℕ) : ℤ := (read ((fun s => (read s).2)^[n] s)).1

-- The calls before one that returns the end have returned all the bytes.
def EofAfterAll (s : σ) (bytes : Bytes) : Prop :=
  ∀ n, nthRead read s n = READER_EOF →
    bytes.map readChar <+: (List.range n).map (nthRead read s)

variable {read}

-- A reader that follows a list of bytes: `left` is what it has still to return.
theorem nthRead_eq (left : σ → Bytes) (Inv : σ → Prop)
    (hstep : ∀ s, Inv s → (read s).1 = peek (left s) ∧ left (read s).2 = (left s).tail ∧
      Inv (read s).2) {s : σ} (hs : Inv s) (n : ℕ) :
    nthRead read s n = peek ((left s).drop n) := by
  have hrun : ∀ n, Inv ((fun s => (read s).2)^[n] s) ∧
      left ((fun s => (read s).2)^[n] s) = (left s).drop n := by
    intro n
    induction n with
    | zero => exact ⟨hs, rfl⟩
    | succ n ih =>
        obtain ⟨_, hleft, hinv⟩ := hstep _ ih.1
        rw [Function.iterate_succ_apply']
        refine ⟨hinv, hleft.trans ?_⟩
        rw [ih.2, List.tail_drop]
  obtain ⟨hinv, hleft⟩ := hrun n
  rw [nthRead, (hstep _ hinv).1, hleft]

theorem eofAfterAll_of_peek {s : σ} {bytes : Bytes} (h : ∀ n, nthRead read s n = peek (bytes.drop n))
    (heof : (255 : UInt8) ∉ bytes) : EofAfterAll read s bytes := by
  intro n hn
  have hall : bytes.length ≤ n := by
    by_contra hlt
    rw [h, List.drop_eq_getElem_cons (by omega), peek, READER_EOF, readChar_eof_iff] at hn
    exact heof (hn ▸ List.getElem_mem _)
  rw [List.prefix_iff_eq_take, List.length_map, ← List.map_take, List.take_range,
    Nat.min_eq_left hall]
  apply List.ext_getElem (by simp)
  intro i hi _
  rw [List.length_map] at hi
  rw [List.getElem_map, List.getElem_map, List.getElem_range, h, List.drop_eq_getElem_cons hi, peek]

-- A byte that is returned as the end comes before the end.
theorem not_eofAfterAll_of_peek {s : σ} {bytes : Bytes}
    (h : ∀ n, nthRead read s n = peek (bytes.drop n)) (heof : (255 : UInt8) ∈ bytes) :
    ¬EofAfterAll read s bytes := by
  intro hafter
  obtain ⟨n, hn, hbyte⟩ := List.getElem_of_mem heof
  have hread : nthRead read s n = READER_EOF := by
    rw [h, List.drop_eq_getElem_cons hn, hbyte]
    rfl
  have hlength := (hafter n hread).length_le
  rw [List.length_map, List.length_map, List.length_range] at hlength
  omega

end

namespace StringReader

variable {r : StringReader} {str : Bytes}

-- What is left of the string.
def left (r : StringReader) : Bytes := r.str.drop r.position.toNat

theorem read_step (h : r.str.length < 2 ^ 32) : r.read.1 = peek r.left ∧ r.read.2.left = r.left.tail ∧
    r.read.2.str = r.str := by
  unfold read left
  split
  · rename_i hposition
    have hnext : (r.position + 1).toNat = r.position.toNat + 1 := by
      rw [UInt32.toNat_add]
      exact Nat.mod_eq_of_lt (by simpa using by omega)
    refine ⟨?_, ?_, rfl⟩
    · rw [List.drop_eq_getElem_cons hposition]
      rfl
    · rw [List.tail_drop]
      exact congrArg (List.drop · r.str) hnext
  · rename_i hposition
    rw [List.drop_eq_nil_of_le (by omega)]
    exact ⟨rfl, rfl, rfl⟩

-- The position cannot leave a string of 2^32 bytes or more.
theorem read_ne_eof (hlength : 2 ^ 32 ≤ str.length) (heof : (255 : UInt8) ∉ str) (hr : r.str = str) :
    r.read.1 ≠ READER_EOF ∧ r.read.2.str = str := by
  subst hr
  have hposition : r.position.toNat < r.str.length := r.position.toNat_lt.trans_le hlength
  rw [read, dif_pos hposition]
  refine ⟨?_, rfl⟩
  intro h
  rw [READER_EOF, readChar_eof_iff] at h
  exact heof (h ▸ List.getElem_mem _)

theorem nthRead_eq (h : str.length < 2 ^ 32) (n : ℕ) :
    nthRead read (.new str) n = peek (str.drop n) := by
  have hstep : ∀ r : StringReader, r.str.length < 2 ^ 32 → r.read.1 = peek r.left ∧
      r.read.2.left = r.left.tail ∧ r.read.2.str.length < 2 ^ 32 := by
    intro r hr
    obtain ⟨hread, hleft, hstr⟩ := read_step hr
    exact ⟨hread, hleft, hstr ▸ hr⟩
  exact Config.nthRead_eq left (fun r => r.str.length < 2 ^ 32) hstep h n

theorem nthRead_ne_eof (hlength : 2 ^ 32 ≤ str.length) (heof : (255 : UInt8) ∉ str) (n : ℕ) :
    nthRead read (.new str) n ≠ READER_EOF := by
  have hrun : ((fun r => (read r).2)^[n] (.new str)).str = str := by
    induction n with
    | zero => rfl
    | succ n ih =>
        rw [Function.iterate_succ_apply']
        exact (read_ne_eof hlength heof ih).2
  exact (read_ne_eof hlength heof hrun).1

theorem eofAfterAll (heof : (255 : UInt8) ∉ str) : EofAfterAll read (.new str) str := by
  by_cases hlength : str.length < 2 ^ 32
  · exact eofAfterAll_of_peek (nthRead_eq hlength) heof
  · exact fun n hn => absurd hn (nthRead_ne_eof (by omega) heof n)

end StringReader

namespace FileReader

-- What is left of the buffer, and of the file behind it.
def left (r : FileReader) : Bytes := (r.buffer.take r.size).drop r.position ++ r.file.rest

-- A buffer that is not full has the end of the file.
structure WellFormed (r : FileReader) : Prop where
  size : r.size ≤ r.buffer.length
  bound : r.size ≤ BUFFER_SIZE
  eof : r.file.eof = true → r.file.rest = []
  full : r.position < BUFFER_SIZE → r.file.rest ≠ [] → r.size = BUFFER_SIZE

def Steps (r : FileReader) (result : ℤ × FileReader) : Prop :=
  result.1 = peek r.left ∧ result.2.left = r.left.tail ∧ result.2.WellFormed

variable {r : FileReader}

theorem readBuffered_step (h : r.WellFormed) (hleft : r.size ≤ r.position → r.file.rest = []) :
    r.Steps r.readBuffered := by
  unfold readBuffered
  split
  · rename_i hposition
    have hnone : r.left = [] := by
      rw [left, hleft hposition, List.drop_eq_nil_of_le (by simpa using by omega)]
      rfl
    rw [Steps, hnone]
    exact ⟨rfl, rfl, h⟩
  · rename_i hposition
    have hsize := h.size
    have hinside : r.position < (r.buffer.take r.size).length := by
      rw [List.length_take]
      omega
    have hcons : r.left = r.buffer.getD r.position 0 ::
        ((r.buffer.take r.size).drop (r.position + 1) ++ r.file.rest) := by
      rw [left, List.drop_eq_getElem_cons hinside, List.getElem_take,
        List.getD_eq_getElem?_getD, List.getElem?_eq_getElem (by omega), List.cons_append]
      rfl
    rw [Steps, hcons]
    refine ⟨rfl, rfl, h.size, h.bound, h.eof, fun hnext hrest =>
      h.full (by dsimp only at hnext; omega) hrest⟩

theorem fillBuffer_filled (heof : r.file.eof = false) :
    (r.fillBuffer.1 = true ↔ r.file.rest ≠ []) ∧ r.fillBuffer.2.left = r.file.rest ∧
      r.fillBuffer.2.WellFormed ∧ r.fillBuffer.2.position = 0 ∧
      r.fillBuffer.2.size = min BUFFER_SIZE r.file.rest.length := by
  have hread : r.file.read BUFFER_SIZE = (r.file.rest.take BUFFER_SIZE,
      { rest := r.file.rest.drop BUFFER_SIZE, eof := decide (r.file.rest.length < BUFFER_SIZE) }) := by
    rw [IfStream.read, heof]
    rfl
  have hfill : r.fillBuffer = (decide (0 < (r.file.rest.take BUFFER_SIZE).length),
      { file := ⟨r.file.rest.drop BUFFER_SIZE, decide (r.file.rest.length < BUFFER_SIZE)⟩
        buffer := r.file.rest.take BUFFER_SIZE ++ r.buffer.drop (r.file.rest.take BUFFER_SIZE).length
        size := (r.file.rest.take BUFFER_SIZE).length
        position := 0 }) := by
    rw [fillBuffer, heof, hread]
    rfl
  rw [hfill]
  refine ⟨?_, ?_, ⟨?_, ?_, ?_, ?_⟩, rfl, List.length_take⟩
  · simp [BUFFER_SIZE, List.length_pos_iff]
  · rw [left, List.take_left, List.drop_zero, List.take_append_drop]
  · simp
  · simp
  · intro h
    exact List.drop_eq_nil_of_le (by simpa using (of_decide_eq_true h).le)
  · intro _ hrest
    dsimp only at hrest ⊢
    rw [ne_eq, List.drop_eq_nil_iff] at hrest
    rw [List.length_take]
    omega

theorem read_step (h : r.WellFormed) : r.Steps r.read := by
  unfold read
  split
  · rename_i hposition
    have hsize := h.bound
    have hbuffer : r.left = r.file.rest := by
      rw [left, List.drop_eq_nil_of_le (by rw [List.length_take]; omega), List.nil_append]
    cases heof : r.file.eof with
    | true =>
        -- the read before this one has found the end
        have hfill : r.fillBuffer = (true, r) := by
          rw [fillBuffer, heof]
          rfl
        rw [hfill]
        exact readBuffered_step h fun _ => h.eof heof
    | false =>
        obtain ⟨hfilled, hleft, hwf, hposition', hsize'⟩ := fillBuffer_filled heof
        cases hfill : r.fillBuffer with
        | mk filled r' =>
            rw [hfill] at hfilled hleft hwf hposition' hsize'
            dsimp only at hfilled hleft hwf hposition' hsize' ⊢
            cases filled with
            | true =>
                have hne := hfilled.mp rfl
                have hstep := readBuffered_step hwf fun hle => by
                  have hpos := List.length_pos_iff.mpr hne
                  rw [hposition', hsize', BUFFER_SIZE] at hle
                  omega
                rw [Steps, hleft] at hstep
                rw [Steps, hbuffer]
                exact hstep
            | false =>
                have hnone : r.file.rest = [] := by
                  by_contra hne
                  exact Bool.false_ne_true (hfilled.mpr hne)
                rw [Steps, hbuffer, hnone]
                exact ⟨rfl, hleft.trans hnone, hwf⟩
  · rename_i hposition
    refine readBuffered_step h fun hle => ?_
    by_contra hne
    have hsize := h.full (by omega) hne
    omega

theorem nthRead_eq (bytes buffer : Bytes) (n : ℕ) :
    nthRead read (.new bytes buffer) n = peek (bytes.drop n) := by
  have hstart : (FileReader.new bytes buffer).WellFormed :=
    ⟨Nat.zero_le _, Nat.zero_le _, nofun, fun h => absurd h (lt_irrefl BUFFER_SIZE)⟩
  have hleft : (FileReader.new bytes buffer).left = bytes := by
    simp [left, new]
  have hread := Config.nthRead_eq left WellFormed (fun _ h => read_step h) hstart n
  rwa [hleft] at hread

end FileReader

-- `next_char_raw` as a reader.
def TokenStream.read (s : TokenStream) : ℤ × TokenStream :=
  match nextCharRaw s with
  | .ok c s' => (c, s')
  | .error _ s' => (READER_EOF, s')

-- A stream of the model has the characters that the readers return.
theorem TokenStream.nthRead_eq (input buffer : Bytes) (n : ℕ) :
    nthRead TokenStream.read (.ofString input) n =
      nthRead FileReader.read (.new input buffer) n := by
  rw [FileReader.nthRead_eq]
  have hrun : ∀ n, ((fun s => (TokenStream.read s).2)^[n] (.ofString input)).rest =
      (input.drop n).map readChar := by
    intro n
    induction n with
    | zero => rfl
    | succ n ih =>
        rw [Function.iterate_succ_apply', ← List.tail_drop]
        generalize (fun s => (TokenStream.read s).2)^[n] (.ofString input) = s at ih
        obtain ⟨rest, buffered, saver⟩ := s
        obtain rfl : rest = (input.drop n).map readChar := ih
        cases input.drop n with
        | nil => rfl
        | cons b rest => rfl
  specialize hrun n
  rw [nthRead]
  generalize (fun s => (TokenStream.read s).2)^[n] (.ofString input) = s at hrun
  obtain ⟨rest, buffered, saver⟩ := s
  obtain rfl : rest = (input.drop n).map readChar := hrun
  cases input.drop n with
  | nil => rfl
  | cons b rest => rfl

section

variable {doubles : Doubles} {allowComments : Bool}

-- The end is delivered where nothing is left, or at a byte that is read as the end.
theorem Lexes.of_end {more rest : Bytes} (h : Lexes doubles allowComments more (.ok .end_) rest) :
    more = [] ∧ rest = [] ∨ more = 255 :: rest := by
  generalize hr : (Except.ok .end_ : Except TokenizerError Token) = r at h
  cases h with
  | last => exact .inl ⟨rfl, rfl⟩
  | eof => exact .inr rfl
  | number => cases numberResult_isInner hr.symm
  | @unquoted b more =>
      have hinner : (scanUnquoted allowComments [] (b :: more)).1.isInner = true :=
        scanUnquoted_isInner [] (b :: more)
      rw [← Except.ok.inj hr] at hinner
      cases hinner
  | punctuation h =>
      cases hr
      cases h
  | _ => cases hr

theorem Reached.end_at {input : Bytes} {s s' : TokenStream} {whitespace : Option Token}
    (h : Reached doubles allowComments input s) (heof : (255 : UInt8) ∉ input)
    (hnext : queueNextToken doubles allowComments s = .ok (whitespace, .end_) s') :
    ∃ saver, At s' ⟨[], 2, saver⟩ := by
  obtain ⟨more, saver, hat, hmore⟩ := h.suffix
  have hresult := results_queueNextToken doubles allowComments more saver s hat
  rw [hnext] at hresult
  obtain ⟨⟨more', room', saver'⟩, hg, hlexes, hroom, _⟩ := hresult
  rcases hlexes.of_end with ⟨_, rfl⟩ | hbyte
  · exact ⟨saver', hg.weaken hroom⟩
  · have hsuffix := (List.dropWhile_suffix isBlank).trans hmore
    rw [hbyte] at hsuffix
    exact absurd (hsuffix.subset List.mem_cons_self) heof

variable (doubles allowComments)

-- What the end of the input promises, for both readers and for the token stream.
structure EofIsEnd (input : Bytes) : Prop where
  string : EofAfterAll StringReader.read (.new input) input
  file : ∀ buffer, EofAfterAll FileReader.read (.new input buffer) input
  tokens : ∀ s, Reached doubles allowComments input s → ∀ whitespace s',
    queueNextToken doubles allowComments s = .ok (whitespace, .end_) s' → ∃ saver, At s' ⟨[], 2, saver⟩

theorem eofIsEnd_iff (doubles : Doubles) (allowComments : Bool) (input : Bytes) :
    EofIsEnd doubles allowComments input ↔ (255 : UInt8) ∉ input := by
  constructor
  · intro h heof
    exact not_eofAfterAll_of_peek (FileReader.nthRead_eq input []) heof (h.file [])
  · intro heof
    refine ⟨StringReader.eofAfterAll heof, fun buffer => ?_, ?_⟩
    · exact eofAfterAll_of_peek (FileReader.nthRead_eq input buffer) heof
    · exact fun s hs whitespace s' hnext => hs.end_at heof hnext

end

-- The token stream ends at this byte, with a byte behind it.
theorem not_eofIsEnd_byte : ¬EofIsEnd ⟨fun _ => none, id⟩ true [255, 97] := by
  intro h
  obtain ⟨saver, hat⟩ := h.tokens _ .start none ⟨[97], 0, .makeInstance⟩ rfl
  obtain ⟨ends, hrest⟩ := hat.rest
  cases ends with
  | zero => cases hrest
  | succ ends => cases (List.cons.inj hrest).1

end AsrServiceProxy.Config

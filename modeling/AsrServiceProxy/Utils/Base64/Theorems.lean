import AsrServiceProxy.Utils.Base64
import Mathlib.Data.List.Basic
import Mathlib.Data.List.GetD
import Mathlib.Data.List.Nodup

-- The encoder writes the padded encoding, and the decoder reads the whole bytes of the
-- longest prefix that is made of digits.
namespace AsrServiceProxy.Base64

open BitString CMemory

section

variable (a b c d : UInt8)

-- The parts of a byte that the groups are made of, and those of a digit.
theorem parts :
    (((a &&& 0xfc) >>> 2).toNat = a.toNat / 4 ∧
      ((a &&& 0x03) <<< 4).toNat = a.toNat % 4 * 16 ∧
      ((a &&& 0xf0) >>> 4).toNat = a.toNat / 16 ∧
      ((a &&& 0x0f) <<< 2).toNat = a.toNat % 16 * 4 ∧
      ((a &&& 0xc0) >>> 6).toNat = a.toNat / 64 ∧
      (a &&& 0x3f).toNat = a.toNat % 64) ∧
    (a <<< 2).toNat = a.toNat % 64 * 4 ∧
    ((a &&& 0x30) >>> 4).toNat = a.toNat / 16 % 4 ∧
    ((a &&& 0xf) <<< 4).toNat = a.toNat % 16 * 16 ∧
    ((a &&& 0x3c) >>> 2).toNat = a.toNat / 4 % 16 ∧
    ((a &&& 0x3) <<< 6).toNat = a.toNat % 4 * 64 := by
  revert a
  apply forall_byte
  decide +kernel

theorem encodeGroup_toNat :
    (encodeGroup a b c).map UInt8.toNat =
      [a.toNat / 4, a.toNat % 4 * 16 + b.toNat / 16, b.toNat % 16 * 4 + c.toNat / 64,
        c.toNat % 64] := by
  obtain ⟨ha, ha', -, -, -, -⟩ := (parts a).1
  obtain ⟨-, -, hb, hb', -, -⟩ := (parts b).1
  obtain ⟨-, -, -, -, hc, hc'⟩ := (parts c).1
  have hblt := b.toNat_lt
  have hclt := c.toNat_lt
  have hsecond : a.toNat % 4 * 16 + b.toNat / 16 < 2 ^ 8 := by omega
  have hthird : b.toNat % 16 * 4 + c.toNat / 64 < 2 ^ 8 := by omega
  simp only [encodeGroup, List.map_cons, List.map_nil, UInt8.toNat_add, ha, ha', hb, hb', hc, hc']
  rw [Nat.mod_eq_of_lt hsecond, Nat.mod_eq_of_lt hthird]

-- The digits of a group have the bits of its bytes.
theorem bits_encodeGroup :
    ((encodeGroup a b c).map UInt8.toNat).flatMap (bits 6) =
      bits 8 a.toNat ++ (bits 8 b.toNat ++ bits 8 c.toNat) := by
  have hb : b.toNat / 16 < 2 ^ 4 := by
    have hlt := b.toNat_lt
    omega
  have hc : c.toNat / 64 < 2 ^ 2 := by
    have hlt := c.toNat_lt
    omega
  have hsecond : bits 6 (a.toNat % 4 * 16 + b.toNat / 16) =
      bits 2 (a.toNat % 4) ++ bits 4 (b.toNat / 16) := (bits_append 2 4 _ _ hb).symm
  have hthird : bits 6 (b.toNat % 16 * 4 + c.toNat / 64) =
      bits 4 (b.toNat % 16) ++ bits 2 (c.toNat / 64) := (bits_append 4 2 _ _ hc).symm
  rw [encodeGroup_toNat, bits_split 6 2 a.toNat, bits_split 4 4 b.toNat, bits_split 2 6 c.toNat]
  simp only [List.flatMap_cons, List.flatMap_nil, List.append_nil, List.append_assoc, hsecond,
    hthird]
  rfl

theorem encodeGroup_lt : ∀ n ∈ (encodeGroup a b c).map UInt8.toNat, n < 2 ^ 6 := by
  have ha := a.toNat_lt
  have hb := b.toNat_lt
  have hc := c.toNat_lt
  rw [encodeGroup_toNat]
  simp only [List.forall_mem_cons]
  refine ⟨by omega, by omega, by omega, by omega, nofun⟩

-- The first digits of a group are those of any string that its bits begin with.
theorem numbers_encodeGroup {count : ℕ} (hcount : count ≤ 4) {string tail : List Bool}
    (h : bits 8 a.toNat ++ (bits 8 b.toNat ++ bits 8 c.toNat) = string ++ tail)
    (hlength : string.length = 6 * count) :
    numbers 6 count string = ((encodeGroup a b c).map UInt8.toNat).take count := by
  have hall := numbers_flatMap _ (encodeGroup_lt a b c) 0 []
  rw [bits_encodeGroup, List.append_nil, h] at hall
  have htake := take_numbers 6 count (4 - count) (string ++ tail)
  have hfour : count + (4 - count) = ((encodeGroup a b c).map UInt8.toNat).length + 0 := by
    have hlen : ((encodeGroup a b c).map UInt8.toNat).length = 4 := rfl
    omega
  rw [hfour, hall, numbers_append hlength.ge] at htake
  rw [← htake, numbers, List.append_nil]

end

theorem map_base64Char (digits : List UInt8) :
    (digits.map UInt8.toNat).map (fun digit => base64Chars.getD digit 0) =
      digits.map base64Char := by
  rw [List.map_map]
  apply List.map_congr_left
  intro digit _
  rw [base64Char, Function.comp_apply]

theorem rfc4648_group (a b c : UInt8) (bytes : Bytes) :
    rfc4648 (a :: b :: c :: bytes) = (encodeGroup a b c).map base64Char ++ rfc4648 bytes := by
  unfold rfc4648
  generalize hstring : bytes.flatMap (fun b => bits 8 b.toNat) = string
  have hbits : (a :: b :: c :: bytes).flatMap (fun b => bits 8 b.toNat) =
      ((encodeGroup a b c).map UInt8.toNat).flatMap (bits 6) ++ string := by
    rw [bits_encodeGroup, ← hstring]
    simp only [List.flatMap_cons, List.append_assoc]
  have hlength : (((encodeGroup a b c).map UInt8.toNat).flatMap (bits 6) ++ string).length =
      24 + string.length := by
    rw [bits_encodeGroup]
    simp only [List.length_append, length_bits]
  have hcount : (24 + string.length + 5) / 6 =
      ((encodeGroup a b c).map UInt8.toNat).length + (string.length + 5) / 6 := by
    have hfour : ((encodeGroup a b c).map UInt8.toNat).length = 4 := rfl
    omega
  dsimp only
  rw [hbits, hlength, hcount, List.append_assoc, numbers_flatMap _ (encodeGroup_lt a b c),
    List.map_append, map_base64Char, List.append_assoc]
  have hfour : ((encodeGroup a b c).map UInt8.toNat).length = 4 := rfl
  have hzeros : 6 * (4 + (string.length + 5) / 6) - (24 + string.length) =
      6 * ((string.length + 5) / 6) - string.length := by omega
  rw [hfour, hzeros, Nat.add_mod_left]

-- One or two bytes at the end: the bits are filled up with zeros.
theorem rfc4648_rest {group : List UInt8} (a b c : UInt8) (i count : ℕ) (zeros : List Bool)
    (hbits : bits 8 a.toNat ++ (bits 8 b.toNat ++ bits 8 c.toNat) =
      (group.flatMap (fun b => bits 8 b.toNat) ++ List.replicate (6 * count - 8 * i) false) ++ zeros)
    (hi : group.length = i) (hcount : (8 * i + 5) / 6 = count) (hle : count ≤ 4) :
    rfc4648 group = ((encodeGroup a b c).take count).map base64Char ++
      List.replicate ((4 - count % 4) % 4) 61 := by
  have hlength : (group.flatMap (fun b => bits 8 b.toNat)).length = 8 * i := by
    simp [hi, Nat.mul_comm]
  have hfull : (group.flatMap (fun b => bits 8 b.toNat) ++
      List.replicate (6 * count - 8 * i) false).length = 6 * count := by
    rw [List.length_append, hlength, List.length_replicate]
    omega
  unfold rfc4648
  dsimp only
  rw [hlength, hcount, numbers_encodeGroup a b c hle hbits hfull, ← List.map_take, map_base64Char]

-- What is left of the encoder is fed three bytes at a time.
theorem encodeRest_foldl : ∀ (bytes dst : Bytes),
    encodeRest (bytes.foldl encodeRound { group := [], dst := dst }) = dst ++ rfc4648 bytes
  | [], dst => (List.append_nil dst).symm
  | [a], dst => by
      have hbits : bits 8 a.toNat ++ (bits 8 0 ++ bits 8 0) =
          ([a].flatMap (fun b => bits 8 b.toNat) ++ List.replicate 4 false) ++
            List.replicate 12 false := by
        rw [List.flatMap_singleton, List.append_assoc]
        rfl
      rw [rfc4648_rest a 0 0 1 2 _ hbits rfl rfl (by decide), ← List.append_assoc]
      rfl
  | [a, b], dst => by
      have hbits : bits 8 a.toNat ++ (bits 8 b.toNat ++ bits 8 0) =
          ([a, b].flatMap (fun b => bits 8 b.toNat) ++ List.replicate 2 false) ++
            List.replicate 6 false := by
        rw [List.flatMap_cons, List.flatMap_singleton, List.append_assoc, List.append_assoc]
        rfl
      rw [rfc4648_rest a b 0 2 3 _ hbits rfl rfl (by decide), ← List.append_assoc]
      rfl
  | a :: b :: c :: bytes, dst => by
      have hrounds : (a :: b :: c :: bytes).foldl encodeRound { group := [], dst := dst } =
          bytes.foldl encodeRound
            { group := [], dst := dst ++ (encodeGroup a b c).map base64Char } := rfl
      rw [hrounds, encodeRest_foldl bytes, rfc4648_group, List.append_assoc]

theorem base64Encode_eq (bytes : Bytes) : base64Encode bytes = rfc4648 bytes :=
  encodeRest_foldl bytes []

-- The codes of the alphabet: three ranges and two single ones.
theorem codes_base64Chars : base64Chars.map UInt8.toNat =
    List.range' 65 26 ++ (List.range' 97 26 ++ (List.range' 48 10 ++ [43, 47])) := by
  decide +kernel

theorem length_base64Chars : base64Chars.length = 64 := by
  have hcodes := congrArg List.length codes_base64Chars
  simp only [List.length_map, List.length_append, List.length_range', List.length_cons,
    List.length_nil] at hcodes
  exact hcodes

theorem mem_base64Chars (c : UInt8) : c ∈ base64Chars ↔ isBase64 c = true := by
  have hcodes : c ∈ base64Chars ↔ c.toNat ∈ base64Chars.map UInt8.toNat :=
    (List.mem_map_of_injective fun a b h => UInt8.toNat_inj.mp h).symm
  rw [hcodes, codes_base64Chars]
  simp only [List.mem_append, List.mem_range'_1, List.mem_cons, List.not_mem_nil, or_false, isBase64,
    StringUtil.isalnum, Bool.or_eq_true, Bool.and_eq_true, decide_eq_true_iff,
    UInt8.le_iff_toNat_le, ← UInt8.toNat_inj, UInt8.toNat_ofNat]
  omega

theorem nodup_base64Chars : base64Chars.Nodup := by
  apply List.Nodup.of_map UInt8.toNat
  rw [codes_base64Chars, List.nodup_append', List.nodup_append']
  refine ⟨List.nodup_range', ⟨List.nodup_range', by decide, ?_⟩, ?_⟩
  · intro n hn hmem
    simp only [List.mem_append, List.mem_range'_1, List.mem_cons, List.not_mem_nil, or_false] at hn hmem
    omega
  · intro n hn hmem
    simp only [List.mem_append, List.mem_range'_1, List.mem_cons, List.not_mem_nil, or_false] at hn hmem
    omega

-- The alphabet: its characters are those that the decoder takes, and each has the
-- place it stands at.
theorem alphabet_classes (c : UInt8) :
    (base64Chars.contains c = true ↔ c ≠ 61 ∧ isBase64 c = true) ∧
      (base64Chars.contains c = true →
        base64Chars.idxOf c < 64 ∧ (base64Find c).toNat = base64Chars.idxOf c) := by
  constructor
  · rw [List.contains_iff_mem, mem_base64Chars]
    refine ⟨fun h => ⟨?_, h⟩, fun h => h.2⟩
    rintro rfl
    cases h
  · intro h
    have hmem := List.contains_iff_mem.mp h
    have hlt := List.idxOf_lt_length_of_mem hmem
    rw [length_base64Chars] at hlt
    have hfind : base64Chars.findIdx? (· = c) = some (base64Chars.idxOf c) :=
      List.findIdx?_eq_some_of_exists ⟨c, hmem, decide_eq_true rfl⟩
    have hsize : base64Chars.idxOf c < UInt8.size := by
      show base64Chars.idxOf c < 256
      omega
    rw [base64Find, hfind]
    exact ⟨hlt, UInt8.toNat_ofNat_of_lt' hsize⟩

-- The digits of some characters, and the whole bytes in their bits.
def digits (chars : List UInt8) : List ℕ := chars.map fun c => base64Chars.idxOf c

def wholeBytes (chars : List UInt8) : Bytes :=
  (numbers 8 (6 * chars.length / 8) ((digits chars).flatMap (bits 6))).map UInt8.ofNat

theorem wholeBytes_eq {chars : List UInt8} (length count : ℕ) (hlength : chars.length = length)
    (hcount : 6 * length / 8 = count) :
    wholeBytes chars = (numbers 8 count ((digits chars).flatMap (bits 6))).map UInt8.ofNat := by
  rw [wholeBytes, hlength, hcount]

theorem prefixBytes_eq (encoded : Bytes) :
    prefixBytes encoded = wholeBytes (alphabetPrefix encoded) := by
  unfold prefixBytes wholeBytes digits
  dsimp only
  rw [List.length_map]

section

variable {a b c d : UInt8} {x y z w : ℕ}

theorem decodeGroup_eq (ha : a.toNat = x) (hb : b.toNat = y) (hx : x < 64) (hy : y < 64) :
    (a <<< 2) + ((b &&& 0x30) >>> 4) = UInt8.ofNat (x * 4 + y / 16) := by
  obtain ⟨hleft, -⟩ := (parts a).2
  obtain ⟨-, hright, -⟩ := (parts b).2
  apply UInt8.toNat_inj.mp
  rw [UInt8.toNat_add, hleft, hright, ha, hb, UInt8.toNat_ofNat']
  congr 1
  omega

theorem decodeGroup_eq_second (hb : b.toNat = y) (hc : c.toNat = z) (hz : z < 64) :
    ((b &&& 0xf) <<< 4) + ((c &&& 0x3c) >>> 2) = UInt8.ofNat (y % 16 * 16 + z / 4) := by
  obtain ⟨-, -, hleft, -⟩ := (parts b).2
  obtain ⟨-, -, -, hright, -⟩ := (parts c).2
  apply UInt8.toNat_inj.mp
  rw [UInt8.toNat_add, hleft, hright, hb, hc, UInt8.toNat_ofNat']
  congr 1
  omega

theorem decodeGroup_eq_third (hc : c.toNat = z) (hd : d.toNat = w) :
    ((c &&& 0x3) <<< 6) + d = UInt8.ofNat (z % 4 * 64 + w) := by
  obtain ⟨-, -, -, -, hleft⟩ := (parts c).2
  apply UInt8.toNat_inj.mp
  rw [UInt8.toNat_add, hleft, hc, hd, UInt8.toNat_ofNat']

theorem first_lt (hx : x < 64) (hy : y < 64) : x * 4 + y / 16 < 2 ^ 8 := by omega

theorem second_lt (hz : z < 64) : y % 16 * 16 + z / 4 < 2 ^ 8 := by omega

theorem third_lt (hw : w < 64) : z % 4 * 64 + w < 2 ^ 8 := by omega

-- Two digits make a byte, with bits of the second one left over.
theorem bits_first (hy : y < 64) (rest : List Bool) :
    bits 6 x ++ (bits 6 y ++ rest) = bits 8 (x * 4 + y / 16) ++ (bits 4 (y % 16) ++ rest) := by
  have hlt : y / 16 < 2 ^ 2 := by omega
  have hsplit := bits_split 2 4 y
  have hjoin := bits_append 6 2 x (y / 16) hlt
  rw [show 8 = 6 + 2 from rfl, show x * 4 = x * 2 ^ 2 from rfl, ← hjoin, hsplit]
  simp only [List.append_assoc]
  rfl

theorem bits_second (hz : z < 64) (rest : List Bool) :
    bits 4 y ++ (bits 6 z ++ rest) = bits 8 (y * 16 + z / 4) ++ (bits 2 (z % 4) ++ rest) := by
  have hlt : z / 4 < 2 ^ 4 := by omega
  have hsplit := bits_split 4 2 z
  have hjoin := bits_append 4 4 y (z / 4) hlt
  rw [show 8 = 4 + 4 from rfl, show y * 16 = y * 2 ^ 4 from rfl, ← hjoin, hsplit]
  simp only [List.append_assoc]
  rfl

theorem bits_third (hw : w < 64) (rest : List Bool) :
    bits 2 z ++ (bits 6 w ++ rest) = bits 8 (z * 64 + w) ++ rest := by
  have hjoin := bits_append 2 6 z w hw
  rw [show 8 = 2 + 6 from rfl, show z * 64 = z * 2 ^ 6 from rfl, ← hjoin, List.append_assoc]

end

theorem wholeBytes_group {a b c e : UInt8} {chars : List UInt8}
    (h : ∀ x ∈ [a, b, c, e], base64Chars.contains x = true) :
    wholeBytes (a :: b :: c :: e :: chars) =
      decodeGroup (base64Find a) (base64Find b) (base64Find c) (base64Find e) ++
        wholeBytes chars := by
  obtain ⟨ha, hfa⟩ := (alphabet_classes a).2 (h a (by simp))
  obtain ⟨hb, hfb⟩ := (alphabet_classes b).2 (h b (by simp))
  obtain ⟨hc, hfc⟩ := (alphabet_classes c).2 (h c (by simp))
  obtain ⟨he, hfe⟩ := (alphabet_classes e).2 (h e (by simp))
  have hcount : 6 * (a :: b :: c :: e :: chars).length / 8 = 6 * chars.length / 8 + 1 + 1 + 1 := by
    simp only [List.length_cons]
    omega
  unfold wholeBytes decodeGroup
  rw [hcount, decodeGroup_eq hfa hfb ha hb, decodeGroup_eq_second hfb hfc hc,
    decodeGroup_eq_third hfc hfe]
  simp only [digits, List.map_cons, List.flatMap_cons]
  rw [bits_first hb, bits_second hc, bits_third he, numbers_bits_of_lt (first_lt ha hb),
    numbers_bits_of_lt (second_lt hc), numbers_bits_of_lt (third_lt he)]
  rfl

-- What the decoder does with the digits that do not fill a group.
theorem decodeRest_eq (d : Decoder) (hlength : d.group.length < 4)
    (h : ∀ x ∈ d.group, base64Chars.contains x = true) :
    decodeRest d = d.ret ++ wholeBytes d.group := by
  obtain ⟨inLen, in_, group, ret, read⟩ := d
  match group, hlength with
  | [], _ =>
      have hbytes : wholeBytes [] = [] := rfl
      rw [hbytes, List.append_nil]
      rfl
  | [a], _ =>
      rw [wholeBytes_eq 1 0 rfl rfl]
      rfl
  | [a, b], _ =>
      obtain ⟨ha, hfa⟩ := (alphabet_classes a).2 (h a (by simp))
      obtain ⟨hb, hfb⟩ := (alphabet_classes b).2 (h b (by simp))
      have hrest : decodeRest ⟨inLen, in_, [a, b], ret, read⟩ =
          ret ++ [(base64Find a <<< 2) + ((base64Find b &&& 0x30) >>> 4)] := rfl
      have hbytes : wholeBytes [a, b] =
          (numbers 8 1 (bits 6 (base64Chars.idxOf a) ++ (bits 6 (base64Chars.idxOf b) ++ []))).map
            UInt8.ofNat := wholeBytes_eq 2 1 rfl rfl
      rw [hrest, hbytes, decodeGroup_eq hfa hfb ha hb, bits_first hb,
        numbers_bits_of_lt (first_lt ha hb)]
      rfl
  | [a, b, c], _ =>
      obtain ⟨ha, hfa⟩ := (alphabet_classes a).2 (h a (by simp))
      obtain ⟨hb, hfb⟩ := (alphabet_classes b).2 (h b (by simp))
      obtain ⟨hc, hfc⟩ := (alphabet_classes c).2 (h c (by simp))
      have hrest : decodeRest ⟨inLen, in_, [a, b, c], ret, read⟩ =
          ret ++ [(base64Find a <<< 2) + ((base64Find b &&& 0x30) >>> 4),
            ((base64Find b &&& 0xf) <<< 4) + ((base64Find c &&& 0x3c) >>> 2)] := rfl
      have hbytes : wholeBytes [a, b, c] =
          (numbers 8 2 (bits 6 (base64Chars.idxOf a) ++ (bits 6 (base64Chars.idxOf b) ++
            (bits 6 (base64Chars.idxOf c) ++ [])))).map UInt8.ofNat := wholeBytes_eq 3 2 rfl rfl
      rw [hrest, hbytes, decodeGroup_eq hfa hfb ha hb, decodeGroup_eq_second hfb hfc hc,
        bits_first hb, bits_second hc, numbers_bits_of_lt (first_lt ha hb),
        numbers_bits_of_lt (second_lt hc)]
      rfl

theorem decodeRound_frame (d : Decoder) (c : UInt8) :
    (decodeRound d c).inLen = d.inLen ∧ (decodeRound d c).in_ = d.in_ + 1 ∧
      (decodeRound d c).read = d.read := by
  unfold decodeRound
  dsimp only
  split <;> exact ⟨rfl, rfl, rfl⟩

-- A round moves a digit from what is left to the group, or ends the group.
theorem decodeRound_group (d : Decoder) (c : UInt8) (chars : List UInt8)
    (hlength : d.group.length < 4) (h : ∀ x ∈ d.group ++ [c], base64Chars.contains x = true) :
    (decodeRound d c).group.length < 4 ∧
      (∀ x ∈ (decodeRound d c).group, base64Chars.contains x = true) ∧
      (decodeRound d c).ret ++ wholeBytes ((decodeRound d c).group ++ chars) =
        d.ret ++ wholeBytes (d.group ++ c :: chars) := by
  obtain ⟨inLen, in_, group, ret, read⟩ := d
  match group, hlength with
  | [], _ => exact ⟨show 1 < 4 by decide, h, rfl⟩
  | [a], _ => exact ⟨show 2 < 4 by decide, h, rfl⟩
  | [a, b], _ => exact ⟨show 3 < 4 by decide, h, rfl⟩
  | [a, b, e], _ =>
      refine ⟨show 0 < 4 by decide, nofun, ?_⟩
      have hgroup : wholeBytes ([a, b, e] ++ c :: chars) = _ := wholeBytes_group h
      rw [hgroup, ← List.append_assoc]
      rfl

-- The loop reads the digits that come first and nothing behind the input.
theorem decodeLoop_eq (encoded front : Bytes) : ∀ (rest : Bytes) (d : Decoder),
    encoded = front ++ rest → d.inLen = rest.length → d.in_ = front.length →
    d.group.length < 4 → (∀ x ∈ d.group, base64Chars.contains x = true) →
    (∀ i ∈ d.read, i < encoded.length) →
    ∃ d', decodeLoop encoded (rest.length + 1) d = some d' ∧
      decodeRest d' = d.ret ++ wholeBytes (d.group ++ alphabetPrefix rest) ∧
      ∀ i ∈ d'.read, i < encoded.length := by
  intro rest
  induction rest generalizing front with
  | nil =>
      intro d hencoded hinLen hin hlength hgroup hread
      refine ⟨{ d with inLen := d.inLen - 1 }, if_pos hinLen, ?_, hread⟩
      rw [alphabetPrefix, List.takeWhile_nil, List.append_nil]
      exact decodeRest_eq _ hlength hgroup
  | cons c rest ih =>
      intro d hencoded hinLen hin hlength hgroup hread
      rw [List.length_cons] at hinLen
      have hne : d.inLen ≠ 0 := by omega
      have hchar : encoded.getD d.in_ 0 = c := by
        rw [hencoded, hin]
        simp
      have hbound : d.in_ < encoded.length := by
        rw [hencoded, hin, List.length_append, List.length_cons]
        omega
      have hread' : ∀ i ∈ d.read ++ [d.in_], i < encoded.length := by
        intro i hi
        rcases List.mem_append.mp hi with hi | hi
        · exact hread i hi
        · rwa [List.mem_singleton.mp hi]
      rw [decodeLoop, if_neg hne]
      dsimp only
      rw [hchar]
      by_cases hc : base64Chars.contains c = true
      · rw [if_pos ((alphabet_classes c).1.mp hc)]
        have hall : ∀ x ∈ d.group ++ [c], base64Chars.contains x = true := by
          intro x hx
          rcases List.mem_append.mp hx with hx | hx
          · exact hgroup x hx
          · rwa [List.mem_singleton.mp hx]
        obtain ⟨hinLen', hin', hkept⟩ := decodeRound_frame
          { d with inLen := d.inLen - 1, read := d.read ++ [d.in_] } c
        obtain ⟨hlength', hgroup', hbytes⟩ := decodeRound_group
          { d with inLen := d.inLen - 1, read := d.read ++ [d.in_] } c (alphabetPrefix rest) hlength
          hall
        have hsplit : encoded = (front ++ [c]) ++ rest := by
          rw [hencoded, List.append_assoc]
          rfl
        have hnext : (front ++ [c]).length = d.in_ + 1 := by
          rw [List.length_append, List.length_singleton, hin]
        obtain ⟨d', hloop, hrest, hread''⟩ := ih (front ++ [c]) _ hsplit
          (by rw [hinLen']; dsimp only; omega) (by rw [hin', hnext]) hlength' hgroup'
          (by rw [hkept]; exact hread')
        refine ⟨d', hloop, ?_, hread''⟩
        rw [hrest, hbytes, alphabetPrefix, alphabetPrefix, List.takeWhile_cons_of_pos hc]
      · rw [if_neg fun htaken => hc ((alphabet_classes c).1.mpr htaken)]
        refine ⟨_, rfl, ?_, hread'⟩
        rw [alphabetPrefix, List.takeWhile_cons_of_neg hc, List.append_nil]
        exact decodeRest_eq _ hlength hgroup

theorem base64Decode_reads {encoded : Bytes} (h : encoded.length < 2 ^ 31) :
    base64Decode (encoded.length + 1) encoded = some (prefixBytes encoded) ∧
      ∃ d, decodeLoop encoded (encoded.length + 1) (decodeStart encoded) = some d ∧
        ∀ i ∈ d.read, i < encoded.length := by
  have hinLen : (decodeStart encoded).inLen = encoded.length := by
    unfold decodeStart
    rw [intOfSize_of_lt h]
  obtain ⟨d, hloop, hrest, hread⟩ := decodeLoop_eq encoded [] encoded (decodeStart encoded) rfl hinLen
    rfl (show 0 < 4 by decide) nofun nofun
  refine ⟨?_, d, hloop, hread⟩
  rw [base64Decode, hloop, Option.map_some, hrest, prefixBytes_eq]
  rfl

-- For any text: what the decoder gives are the whole bytes of the digits that come first.
theorem base64Decode_eq (encoded : Bytes) (h : encoded.length < 2 ^ 31) :
    base64Decode (encoded.length + 1) encoded = some (prefixBytes encoded) ∧
      ∃ d, decodeLoop encoded (encoded.length + 1) (decodeStart encoded) = some d ∧
        ∀ i ∈ d.read, i < encoded.length := base64Decode_reads h

-- Five digits, and text behind a character that is no digit.
theorem base64Decode_eq_malformed :
    base64Decode 9 (ascii "TWFuT!aa") = some (ascii "Man") ∧
      ∃ d, decodeLoop (ascii "TWFuT!aa") 9 (decodeStart (ascii "TWFuT!aa")) = some d ∧
        ∀ i ∈ d.read, i < 8 := by
  have hbegins : prefixBytes (ascii "TWFuT!aa") = ascii "Man" := by decide +kernel
  have hlength : (ascii "TWFuT!aa").length = 8 := by decide
  have hlt : (ascii "TWFuT!aa").length < 2 ^ 31 := by omega
  have h := base64Decode_eq (ascii "TWFuT!aa") hlt
  rwa [hlength, hbegins] at h

theorem alphabet_digit : ∀ n < 64, base64Chars.contains (base64Chars.getD n 0) = true ∧
    base64Chars.idxOf (base64Chars.getD n 0) = n := by
  intro n hn
  rw [← length_base64Chars] at hn
  rw [List.getD_eq_getElem _ _ hn, List.contains_iff_mem]
  exact ⟨List.getElem_mem hn, nodup_base64Chars.idxOf_getElem n hn⟩

-- The characters in front of the padding are those of the digits.
theorem alphabetPrefix_digits {values : List ℕ} (h : ∀ n ∈ values, n < 64) (padding : ℕ) :
    alphabetPrefix (values.map (fun digit => base64Chars.getD digit 0) ++
        List.replicate padding 61) =
      values.map fun digit => base64Chars.getD digit 0 := by
  have hchars : ∀ c ∈ values.map (fun digit => base64Chars.getD digit 0),
      base64Chars.contains c = true := by
    intro c hc
    obtain ⟨n, hn, rfl⟩ := List.mem_map.mp hc
    exact (alphabet_digit n (h n hn)).1
  have hpadding : ¬base64Chars.contains 61 = true := fun hc => ((alphabet_classes 61).1.mp hc).1 rfl
  unfold alphabetPrefix
  rw [List.takeWhile_append_of_pos hchars]
  cases padding with
  | zero => exact List.append_nil _
  | succ padding => rw [List.replicate_succ, List.takeWhile_cons_of_neg hpadding, List.append_nil]

theorem digits_map {values : List ℕ} (h : ∀ n ∈ values, n < 64) :
    digits (values.map fun digit => base64Chars.getD digit 0) = values := by
  unfold digits
  rw [List.map_map]
  conv_rhs => rw [← List.map_id values]
  exact List.map_congr_left fun n hn => (alphabet_digit n (h n hn)).2

section

variable (bytes : Bytes)

theorem length_flatMap_bits : (bytes.flatMap fun b => bits 8 b.toNat).length = 8 * bytes.length := by
  simp [Nat.mul_comm]

-- The bits of the padded encoding are those of the bytes.
theorem prefixBytes_rfc4648 : prefixBytes (rfc4648 bytes) = bytes := by
  unfold rfc4648
  dsimp only
  rw [length_flatMap_bits]
  generalize hcount : (8 * bytes.length + 5) / 6 = count
  generalize hstring : (bytes.flatMap fun b => bits 8 b.toNat) ++
    List.replicate (6 * count - 8 * bytes.length) false = string
  have hlength : string.length = 6 * count := by
    rw [← hstring, List.length_append, length_flatMap_bits, List.length_replicate]
    omega
  have hlt := numbers_lt hlength.ge
  rw [prefixBytes_eq, alphabetPrefix_digits hlt, wholeBytes, digits_map hlt,
    flatMap_numbers 6 count string hlength, List.length_map, length_numbers, ← hstring]
  have hwhole : 6 * count / 8 = (bytes.map UInt8.toNat).length + 0 := by
    rw [List.length_map]
    omega
  have hbits : (bytes.flatMap fun b => bits 8 b.toNat) =
      (bytes.map UInt8.toNat).flatMap (bits 8) := by
    rw [List.flatMap_map]
  have hbyte : ∀ n ∈ bytes.map UInt8.toNat, n < 2 ^ 8 := by
    intro n hn
    obtain ⟨b, -, rfl⟩ := List.mem_map.mp hn
    exact b.toNat_lt
  rw [hwhole, hbits, numbers_flatMap _ hbyte, numbers, List.append_nil, List.map_map]
  conv_rhs => rw [← List.map_id bytes]
  exact List.map_congr_left fun b _ => UInt8.ofNat_toNat

theorem length_rfc4648 : (rfc4648 bytes).length = 4 * ((bytes.length + 2) / 3) := by
  unfold rfc4648
  dsimp only
  rw [length_flatMap_bits, List.length_append, List.length_map, length_numbers,
    List.length_replicate]
  omega

end

-- What is encoded is the padded encoding, and it is read back.
theorem base64_roundTrip (bytes : Bytes) (h : (base64Encode bytes).length < 2 ^ 31) :
    base64Encode bytes = rfc4648 bytes ∧
      (base64Encode bytes).length = 4 * ((bytes.length + 2) / 3) ∧
      base64Decode ((base64Encode bytes).length + 1) (base64Encode bytes) = some bytes := by
  have hdecode := (base64Decode_reads h).1
  rw [base64Encode_eq] at hdecode ⊢
  exact ⟨rfl, length_rfc4648 bytes, by rw [hdecode, prefixBytes_rfc4648]⟩

theorem base64_roundTrip_two_bytes :
    base64Encode (ascii "Ma") = rfc4648 (ascii "Ma") ∧ (base64Encode (ascii "Ma")).length = 4 ∧
      base64Decode ((base64Encode (ascii "Ma")).length + 1) (base64Encode (ascii "Ma")) =
        some (ascii "Ma") :=
  base64_roundTrip (ascii "Ma") (by decide)

end AsrServiceProxy.Base64

import AsrServiceProxy.Lib.Json

-- What the characters between two quotation marks stand for, when it is written in
-- UTF-8.
namespace JsonGrammar

-- UTF8-octets of RFC 3629: the characters of a string, the longer ones octet by octet.
inductive IsUtf8 : Text → Prop
  | nil : IsUtf8 []
  | ascii {b : UInt8} {rest : Text} (hb : b < 0x80) (h : IsUtf8 rest) : IsUtf8 (b :: rest)
  | wide {c rest : Text} (hc : isUnescaped c = true) (hlength : 1 < c.length) (h : IsUtf8 rest) :
      IsUtf8 (c ++ rest)

def codeUnit (a b c d : UInt8) : ℕ :=
  ((hexDigit a * 16 + hexDigit b) * 16 + hexDigit c) * 16 + hexDigit d

-- A body stands for a string. Of the characters that are written by their number only
-- those of ASCII are looked at.
inductive Signifies : Text → Text → Prop
  | nil : Signifies [] []
  | char {c body s : Text} (hc : isUnescaped c = true) (h : Signifies body s) :
      Signifies (c ++ body) (c ++ s)
  | escape {e x : UInt8} {body s : Text} (he : (e, x) ∈ escapeChars) (h : Signifies body s) :
      Signifies (92 :: e :: body) (x :: s)
  | unicode {a b c d x : UInt8} {body s : Text}
      (hdigits : ∀ h ∈ [a, b, c, d], isHexDigit h = true)
      (hx : codeUnit a b c d = x.toNat) (hascii : x < 0x80) (h : Signifies body s) :
      Signifies (92 :: 117 :: a :: b :: c :: d :: body) (x :: s)

theorem Signifies.isBody {body s : Text} (h : Signifies body s) : IsBody body := by
  induction h with
  | nil => exact .nil
  | char hc _ ih => exact .char hc ih
  | escape he _ ih => exact .escape he ih
  | @unicode a b c d x body s hdigits _ _ _ ih =>
      exact @IsBody.unicode [a, b, c, d] _ rfl hdigits ih

theorem isUnescaped_wide {c : Text} (h : isUnescaped c = true) (hlength : 1 < c.length) :
    ∀ b ∈ c, 0x80 ≤ b.toNat := by
  rcases c with _ | ⟨a, _ | ⟨b, _ | ⟨c, _ | ⟨d, _ | ⟨e, rest⟩⟩⟩⟩⟩
  · cases hlength
  · exact absurd hlength (Nat.lt_irrefl 1)
  · simp only [isUnescaped, isTail, Bool.and_eq_true, decide_eq_true_iff,
      UInt8.le_iff_toNat_le, UInt8.reduceToNat] at h
    simp only [List.mem_cons, List.not_mem_nil, or_false, forall_eq_or_imp, forall_eq]
    omega
  · simp only [isUnescaped, isTail, Bool.and_eq_true, Bool.or_eq_true, decide_eq_true_iff,
      UInt8.le_iff_toNat_le, ← UInt8.toNat_inj, UInt8.reduceToNat] at h
    simp only [List.mem_cons, List.not_mem_nil, or_false, forall_eq_or_imp, forall_eq]
    omega
  · simp only [isUnescaped, isTail, Bool.and_eq_true, Bool.or_eq_true, decide_eq_true_iff,
      UInt8.le_iff_toNat_le, ← UInt8.toNat_inj, UInt8.reduceToNat] at h
    simp only [List.mem_cons, List.not_mem_nil, or_false, forall_eq_or_imp, forall_eq]
    omega
  · cases h

end JsonGrammar

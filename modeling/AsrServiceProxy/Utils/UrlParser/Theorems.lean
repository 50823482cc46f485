import AsrServiceProxy.Utils.UrlParser
import Mathlib.Data.List.Infix

-- URLs with all their parts: what the parser makes of them, and of a text that is cut.
namespace AsrServiceProxy.UrlParser

open CMemory StringUtil

-- A scheme, a host, a port and a path, with white space around them.
structure ExplicitUrl where
  front : Bytes
  scheme : Bytes
  host : Bytes
  port : Bytes
  path : Bytes
  back : Bytes
  front_isspace : ∀ b ∈ front, isspace b = true
  scheme_eq : toLower scheme = ascii "http" ∨ toLower scheme = ascii "https"
  host_ne_nil : host ≠ []
  host_plain : ∀ b ∈ host, b ≠ 0 ∧ isSeparator b = false
  host_ends : (∀ b ∈ host.head?, isspace b = false) ∧ ∀ b ∈ host.getLast?, isspace b = false
  port_ne_nil : port ≠ []
  port_isdigit : ∀ b ∈ port, isdigit b = true
  port_le : numeralValue port ≤ 2147483647
  path_head : path.head? = some 47
  path_plain : 0 ∉ path
  path_last : ∀ b ∈ path.getLast?, isspace b = false
  back_isspace : ∀ b ∈ back, isspace b = true

namespace ExplicitUrl

variable (u : ExplicitUrl)

-- The host and the port behind the slashes.
def authority : Bytes := [47, 47] ++ u.host ++ 58 :: u.port

def core : Bytes := u.scheme ++ 58 :: u.authority ++ u.path

def text : Bytes := u.front ++ u.core ++ u.back

def parsed : UrlParser :=
  { proto := toLower u.scheme, host := u.host, uri := u.path, port := numeralValue u.port }

end ExplicitUrl

-- What is left for the uri.
def uriText (parser : UrlParser) (text : Bytes) : Bytes :=
  (readPort parser.port
    (((readProto parser.proto (cstr text)).2.dropWhile isSeparator).dropWhile
      fun b => !isSeparator b)).2

theorem sublist_of_trim {src text : Bytes} (h : trim src = .ok text) : text.Sublist src := by
  have hright (src : Bytes) : (src.rdropWhile isspace).Sublist src :=
    (List.rdropWhile_prefix isspace src).sublist
  have hboth (src : Bytes) : (stripped src).Sublist src :=
    (hright _).trans (List.dropWhile_sublist isspace)
  rw [trim_eq] at h
  split at h
  · rw [← Except.ok.inj h]
    exact (hboth _).trans (List.take_sublist _ src)
  · split at h
    · split at h
      · rw [← Except.ok.inj h]
        exact (hright _).trans (List.take_sublist _ src)
      · cases h
    · rw [← Except.ok.inj h]
      exact List.nil_sublist src

theorem uri_sublist {parser p : UrlParser} {text : Bytes} (h : parser.parseText text = .ok p) :
    p.uri.Sublist (parser.uriText text) := by
  obtain ⟨host, -, h⟩ := except_bind_ok h
  obtain ⟨uri, huri, h⟩ := except_bind_ok h
  rw [← Except.ok.inj h]
  exact sublist_of_trim huri

theorem readPort_suffix (port : ℤ) (text : Bytes) : (readPort port text).2 <:+ text := by
  unfold readPort
  split
  · exact (List.dropWhile_suffix _).trans (List.suffix_cons _ _)
  · exact List.suffix_refl _

theorem mem_of_mem_uriText {parser : UrlParser} {text : Bytes} {b : UInt8}
    (h : b ∈ parser.uriText text) :
    b ∈ (readProto parser.proto (cstr text)).2.dropWhile isSeparator :=
  (List.dropWhile_sublist _).subset ((readPort_suffix _ _).subset h)

theorem readProto_suffix (proto text : Bytes) : (readProto proto text).2 <:+ text := by
  unfold readProto
  split
  · exact List.drop_suffix 5 text
  · split
    · exact List.drop_suffix 4 text
    · exact List.suffix_refl text

-- Letters, digits and white space, none of which is a separator or NUL.
theorem char_classes (b : UInt8) :
    (97 ≤ tolower b ∧ tolower b ≤ 122 → isspace b = false ∧ isSeparator b = false ∧ b ≠ 0) ∧
      (isdigit b = true → isspace b = false ∧ isSeparator b = false ∧ b ≠ 0) ∧
      (isspace b = true → tolower b ≠ 104 ∧ isSeparator b = false ∧ b ≠ 0) := by
  revert b
  apply forall_byte
  decide +kernel

theorem letter_classes (b : UInt8) (h : 97 ≤ tolower b ∧ tolower b ≤ 122) :
    isspace b = false ∧ isSeparator b = false ∧ b ≠ 0 := (char_classes b).1 h

theorem digit_classes (b : UInt8) (h : isdigit b = true) :
    isspace b = false ∧ isSeparator b = false ∧ b ≠ 0 := (char_classes b).2.1 h

theorem blank_classes (b : UInt8) (h : isspace b = true) :
    tolower b ≠ 104 ∧ isSeparator b = false ∧ b ≠ 0 := (char_classes b).2.2 h

theorem scheme_classes {scheme : Bytes}
    (h : toLower scheme = ascii "http" ∨ toLower scheme = ascii "https") :
    ∀ b ∈ scheme, isspace b = false ∧ isSeparator b = false ∧ b ≠ 0 := by
  intro b hb
  apply letter_classes
  have hmem : tolower b ∈ toLower scheme := List.mem_map_of_mem hb
  have hall : ∀ c ∈ toLower scheme, (97 ≤ c && c ≤ 122) = true := by
    rcases h with h | h <;> rw [h] <;> exact List.all_eq_true.mp rfl
  simpa using hall _ hmem

theorem readProto_scheme {scheme : Bytes}
    (h : toLower scheme = ascii "http" ∨ toLower scheme = ascii "https") (proto text : Bytes) :
    readProto proto (scheme ++ 58 :: text) = (toLower scheme, 58 :: text) := by
  have hlength : scheme.length = (toLower scheme).length := (List.length_map _).symm
  rcases h with h | h
  · have hfour : scheme.length = 4 := by
      rw [hlength, h]
      rfl
    have htake : (scheme ++ 58 :: text).take 5 = scheme ++ [58] := by
      rw [List.take_append, hfour, List.take_of_length_le (by omega)]
      rfl
    have hhttps : ¬beginsWith (ascii "https") (scheme ++ 58 :: text) = true := by
      show ¬decide (toLower ((scheme ++ 58 :: text).take 5) = ascii "https") = true
      rw [htake, toLower, List.map_append, ← toLower, h]
      decide
    have hhttp : beginsWith (ascii "http") (scheme ++ 58 :: text) = true := by
      show decide (toLower ((scheme ++ 58 :: text).take 4) = ascii "http") = true
      rw [List.take_left' hfour, h]
      exact decide_eq_true rfl
    rw [readProto, if_neg hhttps, if_pos hhttp, List.drop_left' hfour, h]
  · have hfive : scheme.length = 5 := by
      rw [hlength, h]
      rfl
    have hhttps : beginsWith (ascii "https") (scheme ++ 58 :: text) = true := by
      show decide (toLower ((scheme ++ 58 :: text).take 5) = ascii "https") = true
      rw [List.take_left' hfive, h]
      exact decide_eq_true rfl
    rw [readProto, if_pos hhttps, List.drop_left' hfive, h]

section

variable {p : UInt8 → Bool} {front back : Bytes}

-- The bytes up to the first one that the test fails on.
theorem takeWhile_append_stop (hfront : ∀ b ∈ front, p b = true)
    (hback : ∀ b ∈ back.head?, p b = false) : (front ++ back).takeWhile p = front := by
  rw [List.takeWhile_append_of_pos hfront]
  cases back with
  | nil => exact List.append_nil front
  | cons b back =>
      rw [List.takeWhile_cons_of_neg (by simp [hback b rfl])]
      exact List.append_nil front

theorem marks_isSeparator : ∀ b ∈ ([58, 47, 47] : Bytes), isSeparator b = true :=
  List.all_eq_true.mp rfl

theorem dropWhile_append_stop (hfront : ∀ b ∈ front, p b = true)
    (hback : ∀ b ∈ back.head?, p b = false) : (front ++ back).dropWhile p = back := by
  rw [List.dropWhile_append_of_pos hfront]
  cases back with
  | nil => rfl
  | cons b back => exact List.dropWhile_cons_of_neg (by simp [hback b rfl])

end

namespace ExplicitUrl

variable (u : ExplicitUrl)

theorem scheme_plain : ∀ b ∈ u.scheme, isspace b = false ∧ isSeparator b = false ∧ b ≠ 0 :=
  scheme_classes u.scheme_eq

theorem host_head : ∀ b ∈ (u.host ++ 58 :: u.port).head?, isSeparator b = false := by
  intro b hb
  rw [List.head?_append_of_ne_nil _ u.host_ne_nil] at hb
  exact (u.host_plain b (List.mem_of_mem_head? hb)).2

theorem zero_notMem_authority : 0 ∉ u.authority := by
  intro hmem
  rcases List.mem_append.mp hmem with hmem | hmem
  · rcases List.mem_append.mp hmem with hmem | hmem
    · cases List.mem_pair.mp hmem <;> contradiction
    · exact (u.host_plain 0 hmem).1 rfl
  · rcases List.mem_cons.mp hmem with heq | hmem
    · cases heq
    · exact (digit_classes 0 (u.port_isdigit 0 hmem)).2.2 rfl

-- The parser cuts the URL at the right places, with any part of the path.
theorem readPort_tail {tail : Bytes} (htail : ∀ b ∈ tail.head?, b = 47) (port : ℤ) :
    (58 :: u.authority ++ tail).dropWhile isSeparator = u.host ++ 58 :: (u.port ++ tail) ∧
      (u.host ++ 58 :: (u.port ++ tail)).takeWhile (fun b => !isSeparator b) = u.host ∧
      (u.host ++ 58 :: (u.port ++ tail)).dropWhile (fun b => !isSeparator b) =
        58 :: (u.port ++ tail) ∧
      readPort port (58 :: (u.port ++ tail)) = ((numeralValue u.port : ℤ), tail) := by
  have hhost : ∀ b ∈ u.host, (!isSeparator b) = true := by
    intro b hb
    rw [(u.host_plain b hb).2]
    rfl
  have hcolon : ∀ b ∈ (58 :: (u.port ++ tail)).head?, (!isSeparator b) = false := by
    intro b hb
    rw [← Option.some.inj hb]
    rfl
  have hport : ∀ b ∈ u.port, (!isSeparator b) = true := by
    intro b hb
    rw [(digit_classes b (u.port_isdigit b hb)).2.1]
    rfl
  have hslash : ∀ b ∈ tail.head?, (!isSeparator b) = false := by
    intro b hb
    rw [htail b hb]
    rfl
  refine ⟨?_, takeWhile_append_stop hhost hcolon, dropWhile_append_stop hhost hcolon, ?_⟩
  · have hsplit : 58 :: u.authority ++ tail = [58, 47, 47] ++ (u.host ++ 58 :: (u.port ++ tail)) := by
      simp [authority]
    rw [hsplit]
    refine dropWhile_append_stop marks_isSeparator ?_
    intro b hb
    rw [List.head?_append_of_ne_nil _ u.host_ne_nil] at hb
    exact (u.host_plain b (List.mem_of_mem_head? hb)).2
  · rw [readPort, takeWhile_append_stop hport hslash, dropWhile_append_stop hport hslash,
      List.filter_eq_self.mpr u.port_isdigit, if_neg u.port_ne_nil,
      atoi_of_digits u.port_ne_nil u.port_isdigit u.port_le]

theorem zero_notMem_head : 0 ∉ u.scheme ++ 58 :: u.authority := by
  intro hmem
  rcases List.mem_append.mp hmem with hmem | hmem
  · exact (u.scheme_plain 0 hmem).2.2 rfl
  · rcases List.mem_cons.mp hmem with heq | hmem
    · cases heq
    · exact u.zero_notMem_authority hmem

theorem parseText_tail {tail : Bytes} (htail : ∀ b ∈ tail.head?, b = 47) (hz : 0 ∉ tail)
    (parser : UrlParser) :
    parser.parseText (u.scheme ++ 58 :: u.authority ++ tail) = (do
        let host ← trim u.host
        let uri ← trim tail
        .ok { proto := toLower u.scheme, host := host, uri := uri, port := numeralValue u.port }) ∧
      parser.uriText (u.scheme ++ 58 :: u.authority ++ tail) = tail := by
  have hcstr : cstr (u.scheme ++ 58 :: u.authority ++ tail) = u.scheme ++ 58 :: u.authority ++ tail := by
    rw [cstr_eq_self_iff, List.mem_append, not_or]
    exact ⟨u.zero_notMem_head, hz⟩
  have hproto : readProto parser.proto (u.scheme ++ 58 :: u.authority ++ tail) =
      (toLower u.scheme, 58 :: u.authority ++ tail) := by
    rw [List.append_assoc]
    exact readProto_scheme u.scheme_eq _ _
  obtain ⟨hskip, hhost, hrest, hport⟩ := u.readPort_tail htail parser.port
  constructor
  · unfold parseText
    rw [hcstr, hproto]
    dsimp only
    rw [hskip, hhost, hrest, hport]
  · rw [uriText, hcstr, hproto]
    dsimp only
    rw [hskip, hrest, hport]

-- A URL that is cut in front of its path leaves no slash for the uri.
theorem slash_notMem_uriText {k : ℕ} (parser : UrlParser) :
    47 ∉ parser.uriText ((u.scheme ++ 58 :: u.authority).take k) := by
  intro hmem
  have hz : 0 ∉ (u.scheme ++ 58 :: u.authority).take k :=
    fun hzero => u.zero_notMem_head (List.mem_of_mem_take hzero)
  have hmem := mem_of_mem_uriText hmem
  rw [(cstr_eq_self_iff _).mpr hz] at hmem
  by_cases hk : k ≤ u.scheme.length
  · rw [List.take_append_of_le_length hk] at hmem
    have hscheme := List.mem_of_mem_take
      ((readProto_suffix _ _).subset ((List.dropWhile_sublist _).subset hmem))
    cases (u.scheme_plain 47 hscheme).2.1
  · -- what is left of the colon, the slashes, the host and the port
    obtain ⟨j, hj⟩ : ∃ j, k - u.scheme.length = j + 1 := ⟨k - u.scheme.length - 1, by omega⟩
    have hsplit : 58 :: u.authority = [58, 47, 47] ++ (u.host ++ 58 :: u.port) := by
      simp [authority]
    have htake : (u.scheme ++ 58 :: u.authority).take k =
        u.scheme ++ 58 :: u.authority.take j := by
      rw [List.take_append, List.take_of_length_le (by omega), hj, List.take_succ_cons]
    have hcut : 58 :: u.authority.take j =
        [58, 47, 47].take (j + 1) ++ (u.host ++ 58 :: u.port).take (j + 1 - 3) := by
      rw [← List.take_succ_cons, hsplit, List.take_append]
      rfl
    have hmarks : ∀ b ∈ ([58, 47, 47] : Bytes).take (j + 1), isSeparator b = true :=
      fun b hb => marks_isSeparator b (List.mem_of_mem_take hb)
    have hhead : ∀ b ∈ ((u.host ++ 58 :: u.port).take (j + 1 - 3)).head?, isSeparator b = false := by
      intro b hb
      rw [List.head?_take] at hb
      split at hb
      · cases hb
      · exact u.host_head b hb
    rw [htake, readProto_scheme u.scheme_eq, hcut, dropWhile_append_stop hmarks hhead] at hmem
    rcases List.mem_append.mp (List.mem_of_mem_take hmem) with hmem | hmem
    · cases (u.host_plain 47 hmem).2
    · rcases List.mem_cons.mp hmem with heq | hmem
      · cases heq
      · cases u.port_isdigit 47 hmem

theorem slash_mem_path : 47 ∈ u.path := List.mem_of_mem_head? u.path_head

-- A URL that is cut before its end loses its path.
theorem uri_ne_of_take {k : ℕ} (hk : k < u.core.length) {parser p : UrlParser}
    (h : parser.parseText (u.core.take k) = .ok p) : p.uri ≠ u.path := by
  have huri := uri_sublist h
  rw [core] at hk huri
  rw [List.length_append] at hk
  intro heq
  rw [heq, List.take_append] at huri
  by_cases hle : (u.scheme ++ 58 :: u.authority).length ≤ k
  · have hhead : ∀ b ∈ (u.path.take (k - (u.scheme ++ 58 :: u.authority).length)).head?, b = 47 := by
      intro b hb
      rw [List.head?_take] at hb
      split at hb
      · cases hb
      · rw [u.path_head] at hb
        exact (Option.some.inj hb).symm
    have hz : 0 ∉ u.path.take (k - (u.scheme ++ 58 :: u.authority).length) :=
      fun hzero => u.path_plain (List.mem_of_mem_take hzero)
    rw [List.take_of_length_le hle, (u.parseText_tail hhead hz parser).2] at huri
    have hlength := huri.length_le
    rw [List.length_take] at hlength
    omega
  · rw [show k - (u.scheme ++ 58 :: u.authority).length = 0 by omega, List.take_zero,
      List.append_nil] at huri
    exact u.slash_notMem_uriText parser (huri.subset u.slash_mem_path)

-- The whole URL is parsed as it should.
theorem parseText_core (hlength : u.core.length < 2 ^ 31) (parser : UrlParser) :
    parser.parseText u.core = .ok u.parsed := by
  have hhead : ∀ b ∈ u.path.head?, b = 47 := by
    intro b hb
    rw [u.path_head] at hb
    exact (Option.some.inj hb).symm
  have hspace : ∀ b ∈ u.path.head?, isspace b = false := by
    intro b hb
    rw [hhead b hb]
    rfl
  rw [core, authority] at hlength
  simp only [List.length_append, List.length_cons] at hlength
  have hhost : trim u.host = .ok u.host := by
    rw [trim_of_lt (by omega), stripped_of_ends u.host_ends.1 u.host_ends.2]
  have hpath : trim u.path = .ok u.path := by
    rw [trim_of_lt (by omega), stripped_of_ends hspace u.path_last]
  rw [core, (u.parseText_tail hhead u.path_plain parser).1, hhost, hpath]
  rfl

end ExplicitUrl

end AsrServiceProxy.UrlParser

import AsrServiceProxy.Utils.UrlParser.Theorems

-- Which URLs with all their parts come through `trim`, whose bounds are `int`s.
namespace AsrServiceProxy.UrlParser

open CMemory StringUtil

theorem ok_bind {ε α β : Type} (a : α) (next : α → Except ε β) :
    (Except.ok a >>= next) = next a := rfl

-- A list that goes on with itself behind a front has no other elements than the front.
theorem mem_of_prefix_append {α : Type} {front back whole : List α} (hfront : front ≠ [])
    (hback : back <+: whole) (h : whole <+: front ++ back) : ∀ b ∈ whole, b ∈ front := by
  have hpos := List.length_pos_iff.mpr hfront
  have hat : ∀ i (hi : i < whole.length), whole[i] ∈ front := by
    intro i
    induction i using Nat.strong_induction_on with
    | h i ih =>
        intro hi
        rw [h.getElem hi]
        by_cases hlt : i < front.length
        · rw [List.getElem_append_left hlt]
          exact List.getElem_mem hlt
        · have hle := h.length_le
          rw [List.length_append] at hle
          have hshort : i - front.length < back.length := by omega
          rw [List.getElem_append_right (by omega), hback.getElem hshort]
          exact ih (i - front.length) (by omega) _
  intro b hb
  obtain ⟨i, hi, rfl⟩ := List.getElem_of_mem hb
  exact hat i hi

theorem rdropWhile_append_blank {text blank : Bytes} (h : ∀ b ∈ blank, isspace b = true) :
    (text ++ blank).rdropWhile isspace = text.rdropWhile isspace := by
  rw [List.rdropWhile, List.rdropWhile, List.reverse_append, List.dropWhile_append_of_pos]
  exact fun b hb => h b (List.mem_reverse.mp hb)

-- White space that stays in front hides the scheme.
theorem readProto_blank {text : Bytes} (h : ∀ b ∈ text.head?, isspace b = true) (proto : Bytes) :
    readProto proto text = (proto, text) := by
  have hnot (rest : Bytes) : ¬beginsWith (104 :: rest) text = true := by
    intro hbegins
    have heq := of_decide_eq_true hbegins
    cases text with
    | nil => cases heq
    | cons b text => exact (blank_classes b (h b rfl)).1 (List.cons.inj heq).1
  have hhttps : ¬beginsWith (ascii "https") text = true := hnot (ascii "ttps")
  have hhttp : ¬beginsWith (ascii "http") text = true := hnot (ascii "ttp")
  rw [readProto, if_neg hhttps, if_neg hhttp]

namespace ExplicitUrl

variable (u : ExplicitUrl)

theorem scheme_ne_nil : u.scheme ≠ [] := by
  intro hnil
  have heq := u.scheme_eq
  rw [hnil] at heq
  rcases heq with heq | heq <;> cases heq

theorem path_ne_nil : u.path ≠ [] := List.ne_nil_of_mem u.slash_mem_path

theorem core_ne_nil : u.core ≠ [] := List.append_ne_nil_of_right_ne_nil _ u.path_ne_nil

theorem core_head : ∀ b ∈ u.core.head?, isspace b = false := by
  intro b hb
  rw [core, List.append_assoc, List.head?_append_of_ne_nil _ u.scheme_ne_nil] at hb
  exact (u.scheme_plain b (List.mem_of_mem_head? hb)).1

theorem core_last : ∀ b ∈ u.core.getLast?, isspace b = false := by
  intro b hb
  rw [core, List.getLast?_append_of_ne_nil _ u.path_ne_nil] at hb
  exact u.path_last b hb

-- What the second loop of `trim` leaves of the URL.
theorem rdropWhile_take (i : ℕ) :
    ((u.core ++ u.back).take i).rdropWhile isspace = u.core ∧ u.core.length ≤ i ∨
      i < u.core.length ∧ ∃ k, k < u.core.length ∧
        ((u.core ++ u.back).take i).rdropWhile isspace = u.core.take k := by
  rw [List.take_append, rdropWhile_append_blank fun b hb =>
    u.back_isspace b (List.mem_of_mem_take hb)]
  by_cases hle : u.core.length ≤ i
  · rw [List.take_of_length_le hle, Strip.rdropWhile_eq_self u.core_last]
    exact .inl ⟨rfl, hle⟩
  · have hbegins : (u.core.take i).rdropWhile isspace <+: u.core :=
      (List.rdropWhile_prefix isspace _).trans (List.take_prefix i u.core)
    have hlength := (List.rdropWhile_prefix isspace (u.core.take i)).length_le
    rw [List.length_take] at hlength
    exact .inr ⟨by omega, _, by omega, List.prefix_iff_eq_take.mp hbegins⟩

theorem stripped_take (m : ℕ) :
    stripped (u.text.take m) =
      ((u.core ++ u.back).take (m - u.front.length)).rdropWhile isspace := by
  have hfront : ∀ b ∈ u.front.take m, isspace b = true :=
    fun b hb => u.front_isspace b (List.mem_of_mem_take hb)
  rw [text, List.append_assoc, List.take_append, stripped, List.dropWhile_append_of_pos hfront]
  congr 1
  apply Strip.dropWhile_eq_self
  intro b hb
  rw [List.head?_take] at hb
  split at hb
  · cases hb
  · rw [List.head?_append_of_ne_nil _ u.core_ne_nil] at hb
    exact u.core_head b hb

-- What `trim` makes of the whole text, as long as it drops the white space in front.
theorem parsed_of_stripped {m : ℕ} (hm : m < 2 ^ 31) (parser : UrlParser) :
    parser.parseText (stripped (u.text.take m)) = .ok u.parsed ↔
      u.front.length + u.core.length ≤ m := by
  rw [u.stripped_take]
  have hpos := List.length_pos_iff.mpr u.core_ne_nil
  rcases u.rdropWhile_take (m - u.front.length) with ⟨heq, hle⟩ | ⟨hlt, k, hk, heq⟩
  · rw [heq]
    exact iff_of_true (u.parseText_core (by omega) parser) (by omega)
  · rw [heq]
    exact iff_of_false (fun hparsed => u.uri_ne_of_take hk hparsed rfl) (by omega)

theorem zero_notMem_text : 0 ∉ u.text := by
  intro hmem
  rcases List.mem_append.mp hmem with hmem | hmem
  · rcases List.mem_append.mp hmem with hmem | hmem
    · exact (blank_classes 0 (u.front_isspace 0 hmem)).2.2 rfl
    · rcases List.mem_append.mp hmem with hmem | hmem
      · exact u.zero_notMem_head hmem
      · exact u.path_plain hmem
  · exact (blank_classes 0 (u.back_isspace 0 hmem)).2.2 rfl

-- Without white space in front of the URL the scheme stands first; with it, what is
-- read of the text up to the colon is taken for the host.
theorem parseText_blank {rest : Bytes} (hrest : ∀ b ∈ rest.head?, b = 47) (hz : 0 ∉ rest)
    (hfront : u.front ≠ []) :
    initial.parseText (u.front ++ u.scheme ++ 58 :: rest) = (do
        let host ← trim (u.front ++ u.scheme)
        let uri ← trim rest
        .ok { proto := ascii "http", host := host, uri := uri, port := 80 }) := by
  have hplain : ∀ b ∈ u.front ++ u.scheme, isSeparator b = false ∧ b ≠ 0 := by
    intro b hb
    rcases List.mem_append.mp hb with hb | hb
    · exact (blank_classes b (u.front_isspace b hb)).2
    · exact (u.scheme_plain b hb).2
  have hcstr : cstr (u.front ++ u.scheme ++ 58 :: rest) = u.front ++ u.scheme ++ 58 :: rest := by
    rw [cstr_eq_self_iff, List.mem_append, not_or]
    refine ⟨fun hmem => (hplain 0 hmem).2 rfl, fun hmem => ?_⟩
    rcases List.mem_cons.mp hmem with heq | hmem
    · cases heq
    · exact hz hmem
  have hblank : ∀ b ∈ (u.front ++ u.scheme ++ 58 :: rest).head?, isspace b = true := by
    intro b hb
    rw [List.append_assoc, List.head?_append_of_ne_nil _ hfront] at hb
    exact u.front_isspace b (List.mem_of_mem_head? hb)
  have hskip : (u.front ++ u.scheme ++ 58 :: rest).dropWhile isSeparator =
      u.front ++ u.scheme ++ 58 :: rest := by
    cases htext : u.front ++ u.scheme ++ 58 :: rest with
    | nil => rfl
    | cons b text =>
        rw [htext] at hblank
        exact List.dropWhile_cons_of_neg (by simp [(blank_classes b (hblank b rfl)).2.1])
  have hhost : ∀ b ∈ u.front ++ u.scheme, (!isSeparator b) = true := by
    intro b hb
    rw [(hplain b hb).1]
    rfl
  have hcolon : ∀ b ∈ (58 :: rest).head?, (!isSeparator b) = false := by
    intro b hb
    rw [← Option.some.inj hb]
    rfl
  have hslash : ∀ b ∈ rest.head?, (!isSeparator b) = false := by
    intro b hb
    rw [hrest b hb]
    rfl
  have hport : readPort initial.port (58 :: rest) = (80, rest) := by
    have hdigits : ([] ++ rest).takeWhile (fun b => !isSeparator b) = [] :=
      takeWhile_append_stop nofun hslash
    have hleft : ([] ++ rest).dropWhile (fun b => !isSeparator b) = rest :=
      dropWhile_append_stop nofun hslash
    rw [List.nil_append] at hdigits hleft
    rw [readPort, hdigits, hleft]
    rfl
  unfold parseText
  rw [hcstr, readProto_blank hblank]
  dsimp only
  rw [hskip, takeWhile_append_stop hhost hcolon, dropWhile_append_stop hhost hcolon, hport]
  rfl

theorem text_eq : u.text = u.front ++ u.scheme ++ 58 :: (u.authority ++ u.path ++ u.back) := by
  simp [text, core]

-- A part of the text that leaves a slash for the uri has all of the scheme.
theorem eq_of_prefix_text {kept : Bytes} (hkept : kept <+: u.text)
    (hslash : 47 ∈ initial.uriText kept) : ∃ rest, kept = u.front ++ u.scheme ++ 58 :: rest := by
  have hz : 0 ∉ kept := fun hzero => u.zero_notMem_text (hkept.subset hzero)
  have hmem := mem_of_mem_uriText hslash
  rw [(cstr_eq_self_iff _).mpr hz] at hmem
  have hslash := (readProto_suffix _ _).subset ((List.dropWhile_sublist _).subset hmem)
  have hlong : (u.front ++ u.scheme).length < kept.length := by
    by_contra hshort
    rw [u.text_eq] at hkept
    have hfront := List.prefix_of_prefix_length_le hkept (List.prefix_append _ _) (by omega)
    rcases List.mem_append.mp (hfront.subset hslash) with hmem | hmem
    · cases u.front_isspace 47 hmem
    · cases (u.scheme_plain 47 hmem).2.1
  have hcolon : u.front ++ u.scheme ++ [58] <+: u.text := by
    rw [u.text_eq]
    exact ⟨u.authority ++ u.path ++ u.back, by simp⟩
  have hlength : (u.front ++ u.scheme ++ [58]).length ≤ kept.length := by
    rw [List.length_append, List.length_singleton]
    omega
  obtain ⟨rest, hrest⟩ := List.prefix_of_prefix_length_le hcolon hkept hlength
  exact ⟨rest, by rw [← hrest]; simp⟩

-- A path that goes on behind itself goes on with characters of the host and the port.
theorem not_prefix_of_isspace (hhost : u.scheme = u.host) {c : UInt8} (hc : isspace c = true) :
    ¬u.path ++ [c] <+: u.authority ++ u.path ++ u.back := by
  intro hbegins
  have hne : u.authority ≠ [] := by simp [authority]
  have hpos := List.length_pos_iff.mpr hne
  have hlength : (u.path ++ [c]).length ≤ (u.authority ++ u.path).length := by
    rw [List.length_append, List.length_append, List.length_singleton]
    omega
  have hfits := List.prefix_of_prefix_length_le hbegins (List.prefix_append _ _) hlength
  have hlast : c ∈ u.path ++ [c] := List.mem_append_right _ (List.mem_singleton_self c)
  have hmem := mem_of_prefix_append hne (List.prefix_append u.path [c]) hfits c hlast
  have hplain : isspace c = false := by
    rcases List.mem_append.mp hmem with hmem | hmem
    · rcases List.mem_append.mp hmem with hmem | hmem
      · rcases List.mem_pair.mp hmem with rfl | rfl <;> rfl
      · rw [← hhost] at hmem
        exact (u.scheme_plain c hmem).1
    · rcases List.mem_cons.mp hmem with rfl | hmem
      · rfl
      · exact (digit_classes c (u.port_isdigit c hmem)).1
  rw [hc] at hplain
  cases hplain

theorem stripped_blank_scheme : stripped (u.front ++ u.scheme) = u.scheme := by
  have hplain : ∀ b ∈ u.scheme, isspace b = false := fun b hb => (u.scheme_plain b hb).1
  rw [stripped, List.dropWhile_append_of_pos u.front_isspace]
  exact stripped_of_ends (fun b hb => hplain b (List.mem_of_mem_head? hb))
    fun b hb => hplain b (List.mem_of_mem_getLast? hb)

-- With white space in front that is not dropped, the path would have to be what follows
-- the first colon, up to white space.
theorem parseText_ne_of_blank (hfront : u.front ≠ []) {kept : Bytes} {c : UInt8}
    (hlt : kept.length < 2 ^ 31) (hc : isspace c = true) (hbegins : kept ++ [c] <+: u.text)
    (hlast : ∀ b ∈ kept.getLast?, isspace b = false) :
    initial.parseText kept ≠ .ok u.parsed := by
  intro hparsed
  have huri : u.path.Sublist (initial.uriText kept) := uri_sublist hparsed
  have hkept : kept <+: u.text := (List.prefix_append kept [c]).trans hbegins
  obtain ⟨rest, rfl⟩ := u.eq_of_prefix_text hkept (huri.subset u.slash_mem_path)
  have hnext : rest ++ [c] <+: u.authority ++ u.path ++ u.back := by
    rw [u.text_eq, List.append_assoc, List.prefix_append_right_inj, List.cons_append,
      List.cons_prefix_cons] at hbegins
    exact hbegins.2
  have hslash : ∀ b ∈ rest.head?, b = 47 := by
    intro b hb
    cases rest with
    | nil => cases hb
    | cons d rest =>
        rw [← Option.some.inj hb]
        exact (List.cons_prefix_cons.mp hnext).1
  have hhead : ∀ b ∈ rest.head?, isspace b = false := by
    intro b hb
    rw [hslash b hb]
    rfl
  have hend : ∀ b ∈ rest.getLast?, isspace b = false := by
    intro b hb
    have hne : rest ≠ [] := List.ne_nil_of_mem (List.mem_of_mem_getLast? hb)
    apply hlast
    rw [List.getLast?_append_of_ne_nil _ (List.cons_ne_nil _ _), List.getLast?_cons_of_ne_nil hne]
    exact hb
  have hz : 0 ∉ rest := by
    intro hzero
    exact u.zero_notMem_text
      (hkept.subset (List.mem_append_right _ (List.mem_cons_of_mem _ hzero)))
  rw [List.length_append, List.length_cons] at hlt
  have hhosttrim : trim (u.front ++ u.scheme) = .ok u.scheme := by
    rw [trim_of_lt (by omega), u.stripped_blank_scheme]
  have huritrim : trim rest = .ok rest := by
    rw [trim_of_lt (by omega), stripped_of_ends hhead hend]
  rw [u.parseText_blank hslash hz hfront, hhosttrim, huritrim] at hparsed
  have heq := Except.ok.inj hparsed
  have hhost : u.scheme = u.host := congrArg UrlParser.host heq
  have hpath : rest = u.path := congrArg UrlParser.uri heq
  rw [hpath] at hnext
  exact u.not_prefix_of_isspace hhost hc hnext

-- The lowest `int` as a length: only white space behind the URL is dropped.
theorem parsed_of_rdropWhile (hlong : 2 ^ 31 ≤ u.text.length) :
    (((u.text.take (2 ^ 31)).rdropWhile isspace).length < 2 ^ 31 ∧
      initial.parseText ((u.text.take (2 ^ 31)).rdropWhile isspace) = .ok u.parsed) ↔
        u.front = [] ∧ u.core.length < 2 ^ 31 := by
  by_cases hfront : u.front = []
  · have htext : u.text = u.core ++ u.back := by
      rw [text, hfront, List.nil_append]
    rw [htext]
    rcases u.rdropWhile_take (2 ^ 31) with ⟨heq, hle⟩ | ⟨hlt, k, hk, heq⟩
    · rw [heq]
      constructor
      · exact fun hboth => ⟨hfront, hboth.1⟩
      · exact fun hboth => ⟨hboth.2, u.parseText_core hboth.2 initial⟩
    · rw [heq]
      refine iff_of_false (fun hboth => u.uri_ne_of_take hk hboth.2 rfl) ?_
      intro hboth
      omega
  · refine iff_of_false ?_ fun hboth => hfront hboth.1
    rintro ⟨hlt, hparsed⟩
    have hcut := List.rdropWhile_append_rtakeWhile (p := isspace) (l := u.text.take (2 ^ 31))
    have hwhole : (u.text.take (2 ^ 31)).length = 2 ^ 31 := by
      rw [List.length_take]
      omega
    have hlast : ∀ b ∈ ((u.text.take (2 ^ 31)).rdropWhile isspace).getLast?, isspace b = false := by
      intro b hb
      obtain ⟨hne, rfl⟩ := List.mem_getLast?_eq_getLast hb
      simpa using List.rdropWhile_last_not isspace _ hne
    -- something is dropped, since an `int` counts what is kept
    cases hblank : (u.text.take (2 ^ 31)).rtakeWhile isspace with
    | nil =>
        rw [hblank, List.append_nil] at hcut
        rw [hcut] at hlt
        omega
    | cons c blank =>
        have hc : isspace c = true :=
          List.mem_rtakeWhile_imp (by rw [hblank]; exact List.mem_cons_self)
        have hbegins : (u.text.take (2 ^ 31)).rdropWhile isspace ++ [c] <+: u.text := by
          refine List.IsPrefix.trans ?_ (List.take_prefix (2 ^ 31) u.text)
          rw [hblank] at hcut
          exact ⟨blank, by rw [List.append_assoc]; exact hcut⟩
        exact u.parseText_ne_of_blank hfront hlt hc hbegins hlast hparsed

-- The length of the whole text is counted by an `int`.
theorem ofUrl_iff :
    ofUrl u.text = .ok u.parsed ↔
      u.text.length % 2 ^ 32 < 2 ^ 31 ∧
          u.front.length + u.core.length ≤ u.text.length % 2 ^ 32 ∨
        u.text.length % 2 ^ 32 = 2 ^ 31 ∧ u.front = [] ∧ u.core.length < 2 ^ 31 := by
  have hstep {text : Bytes} (h : trim u.text = .ok text) :
      ofUrl u.text = initial.parseText text := by
    rw [ofUrl, parse, h, ok_bind]
  have htrim := trim_eq u.text
  by_cases hlt : u.text.length % 2 ^ 32 < 2 ^ 31
  · have hne : ¬u.text.length % 2 ^ 32 = 2 ^ 31 := by omega
    rw [if_pos hlt] at htrim
    rw [hstep htrim, u.parsed_of_stripped hlt, and_iff_right hlt, or_iff_left fun h => hne h.1]
  rw [if_neg hlt] at htrim
  by_cases heq : u.text.length % 2 ^ 32 = 2 ^ 31
  · have hlong : 2 ^ 31 ≤ u.text.length := heq ▸ Nat.mod_le _ _
    rw [if_pos heq] at htrim
    rw [or_iff_right fun h => hlt h.1, and_iff_right heq, ← u.parsed_of_rdropWhile hlong]
    by_cases hkept : ((u.text.take (2 ^ 31)).rdropWhile isspace).length < 2 ^ 31
    · rw [if_pos hkept] at htrim
      rw [hstep htrim, and_iff_right hkept]
    · rw [if_neg hkept] at htrim
      refine iff_of_false ?_ fun hboth => hkept hboth.1
      rw [ofUrl, parse, htrim]
      nofun
  · rw [if_neg heq] at htrim
    rw [hstep htrim]
    refine iff_of_false (fun hparsed => ?_) (by omega)
    have hnil : u.core.take 0 = [] := rfl
    rw [← hnil] at hparsed
    exact u.uri_ne_of_take (List.length_pos_iff.mpr u.core_ne_nil) hparsed rfl

-- `http://h:1/` and blanks behind it.
def blanks (n : ℕ) : ExplicitUrl :=
  { front := []
    scheme := ascii "http"
    host := [104]
    port := [49]
    path := [47]
    back := List.replicate n 32
    front_isspace := nofun
    scheme_eq := .inl rfl
    host_ne_nil := List.cons_ne_nil _ _
    host_plain := List.forall_mem_singleton.mpr (by decide)
    host_ends := ⟨fun b hb => Option.some.inj hb ▸ rfl, fun b hb => Option.some.inj hb ▸ rfl⟩
    port_ne_nil := List.cons_ne_nil _ _
    port_isdigit := List.all_eq_true.mp rfl
    port_le := by decide
    path_head := rfl
    path_plain := by decide
    path_last := fun b hb => Option.some.inj hb ▸ rfl
    back_isspace := by
      intro b hb
      rw [List.eq_of_mem_replicate hb]
      rfl }

-- So many blanks that the length becomes negative.
theorem not_ofUrl_blanks : ¬∀ u : ExplicitUrl, ofUrl u.text = .ok u.parsed := by
  intro hall
  have hparsed := hall (blanks (2 ^ 31))
  have hlength (n : ℕ) : (blanks n).text.length = n + 11 := by
    have hcore : (blanks n).core.length = 11 := rfl
    have hback : (blanks n).back.length = n := List.length_replicate
    rw [text, List.length_append, List.length_append, hcore, hback]
    show 0 + 11 + n = n + 11
    omega
  have htrim : trim (blanks (2 ^ 31)).text = .ok [] := by
    have hsize := hlength (2 ^ 31)
    rw [trim_eq, if_neg (by omega), if_neg (by omega)]
  rw [ofUrl, parse, htrim, ok_bind, ← List.take_zero (l := (blanks (2 ^ 31)).core)] at hparsed
  exact uri_ne_of_take _ (List.length_pos_iff.mpr (core_ne_nil _)) hparsed rfl

end ExplicitUrl

end AsrServiceProxy.UrlParser

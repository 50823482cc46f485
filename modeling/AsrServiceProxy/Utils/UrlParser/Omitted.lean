import AsrServiceProxy.Utils.UrlParser.Explicit

-- URLs without a scheme or a port: the defaults that are kept.
namespace AsrServiceProxy.UrlParser

open CMemory StringUtil

-- What the defaults should come to.
def OmittedParts (host path : Bytes) : Prop :=
  (∃ p, ofUrl (host ++ path) = .ok p ∧ p.proto = ascii "http" ∧ p.host = host ∧ p.port = 80) ∧
  (∃ p, ofUrl (ascii "https://" ++ host ++ path) = .ok p ∧ p.host = host ∧ p.port = 443) ∧
  ∀ url, url = host ++ path ∨ url = ascii "https://" ++ host ++ path →
    ∃ p, ofUrl url = .ok p ∧ p.uri = if path = [] then [47] else path

theorem readPort_of_head {text : Bytes} (h : ∀ b ∈ text.head?, b ≠ 58) (port : ℤ) :
    readPort port text = (port, text) := by
  unfold readPort
  split
  · exact absurd rfl (h 58 rfl)
  · rfl

theorem port_of_parseText {parser p : UrlParser} {text : Bytes}
    (h : parser.parseText text = .ok p) :
    p.port = (readPort parser.port
      (((readProto parser.proto (cstr text)).2.dropWhile isSeparator).dropWhile
        fun b => !isSeparator b)).1 := by
  obtain ⟨host, -, h⟩ := except_bind_ok h
  obtain ⟨uri, -, h⟩ := except_bind_ok h
  exact (congrArg UrlParser.port (Except.ok.inj h)).symm

section

variable {host path rest : Bytes}

theorem host_stops (hhost : ∀ b ∈ host, isspace b = false ∧ isSeparator b = false)
    (hpath : ∀ b ∈ path.head?, b = 47) :
    (host ++ path).takeWhile (fun b => !isSeparator b) = host ∧
      (host ++ path).dropWhile (fun b => !isSeparator b) = path := by
  have hplain : ∀ b ∈ host, (!isSeparator b) = true := by
    intro b hb
    rw [(hhost b hb).2]
    rfl
  have hslash : ∀ b ∈ path.head?, (!isSeparator b) = false := by
    intro b hb
    rw [hpath b hb]
    rfl
  exact ⟨takeWhile_append_stop hplain hslash, dropWhile_append_stop hplain hslash⟩

theorem head_take {p : UInt8 → Prop} {text : Bytes} (h : ∀ b ∈ text.head?, p b) (k : ℕ) :
    ∀ b ∈ (text.take k).head?, p b := by
  intro b hb
  rw [List.head?_take] at hb
  split at hb
  · cases hb
  · exact h b hb

theorem readProto_https (proto text : Bytes) :
    readProto proto (ascii "https" ++ text) = (ascii "https", text) := by
  have hhttps : beginsWith (ascii "https") (ascii "https" ++ text) = true := by
    show decide (toLower ((ascii "https" ++ text).take (ascii "https").length) = ascii "https") = true
    rw [List.take_left]
    decide
  rw [readProto, if_pos hhttps]
  rfl

theorem dropWhile_slashes {tail : Bytes} (h : ∀ b ∈ tail.head?, isSeparator b = false) (i : ℕ) :
    (([58, 47, 47] : Bytes).take i ++ tail).dropWhile isSeparator = tail := by
  refine dropWhile_append_stop (fun b hb => ?_) h
  exact marks_isSeparator b (List.mem_of_mem_take hb)

theorem head_append (hhost : ∀ b ∈ host, isspace b = false ∧ isSeparator b = false)
    (hne : host ≠ []) : ∀ b ∈ (host ++ path).head?, isspace b = false ∧ isSeparator b = false := by
  intro b hb
  rw [List.head?_append_of_ne_nil _ hne] at hb
  exact hhost b (List.mem_of_mem_head? hb)

theorem https_eq : ascii "https://" ++ host ++ path =
    ascii "https" ++ ([58, 47, 47] ++ (host ++ path)) := by
  rw [List.append_assoc]
  rfl

-- However the text is cut, there is no colon behind the host.
theorem uriText_https (hhost : ∀ b ∈ host, isspace b = false ∧ isSeparator b = false)
    (hpath : ∀ b ∈ path.head?, b = 47) (hne : host ≠ []) (k : ℕ) (proto : Bytes) :
    ∃ i, (((readProto proto ((ascii "https://" ++ host ++ path).take k)).2.dropWhile
      isSeparator).dropWhile fun b => !isSeparator b) = path.take i := by
  have hlength : (ascii "https").length = 5 := rfl
  rw [https_eq, List.take_append, hlength]
  by_cases hk : k < 5
  · -- letters of the scheme
    have hletters : ∀ b ∈ (ascii "https").take k, (!isSeparator b) = true := by
      intro b hb
      have hall : ∀ b ∈ ascii "https", (!isSeparator b) = true := List.all_eq_true.mp rfl
      exact hall b (List.mem_of_mem_take hb)
    refine ⟨0, ?_⟩
    rw [show k - 5 = 0 by omega, List.take_zero, List.append_nil, List.take_zero,
      List.dropWhile_eq_nil_iff]
    intro b hb
    exact hletters b ((readProto_suffix _ _).subset ((List.dropWhile_sublist _).subset hb))
  · refine ⟨k - 5 - 3 - host.length, ?_⟩
    rw [List.take_of_length_le (by omega), readProto_https, List.take_append,
      dropWhile_slashes (head_take (fun b hb => (head_append hhost hne b hb).2) _),
      List.take_append]
    exact (host_stops (fun b hb => hhost b (List.mem_of_mem_take hb)) (head_take hpath _)).2

-- The port stays the one of http.
theorem port_https (hhost : ∀ b ∈ host, isspace b = false ∧ isSeparator b = false)
    (hpath : ∀ b ∈ path.head?, b = 47) (hne : host ≠ []) {p : UrlParser}
    (h : ofUrl (ascii "https://" ++ host ++ path) = .ok p) : p.port = 80 := by
  obtain ⟨clean, hclean, h⟩ := except_bind_ok h
  have hbegins : cstr clean <+: ascii "https://" ++ host ++ path :=
    (List.takeWhile_prefix _).trans (prefix_of_trim (b := 104) rfl hclean)
  have hport := port_of_parseText h
  obtain ⟨i, hi⟩ := uriText_https hhost hpath hne (cstr clean).length initial.proto
  have hhead : ∀ b ∈ (path.take i).head?, b ≠ 58 := by
    apply head_take
    intro b hb
    rw [hpath b hb]
    decide
  rw [List.prefix_iff_eq_take.mp hbegins] at hport
  rw [hport, hi, readPort_of_head hhead]
  rfl

-- What the parser makes of a text with a host and a path behind the scheme.
theorem parseText_plain {parser : UrlParser} {text proto : Bytes} (hz : 0 ∉ text)
    (hproto : readProto parser.proto text = (proto, rest))
    (hskip : rest.dropWhile isSeparator = host ++ path)
    (hhost : ∀ b ∈ host, isspace b = false ∧ isSeparator b = false)
    (hpath : ∀ b ∈ path.head?, b = 47) (hlast : ∀ b ∈ path.getLast?, isspace b = false)
    (hlength : host.length + path.length < 2 ^ 31) :
    parser.parseText text =
      .ok { proto := proto, host := host, uri := path, port := parser.port } := by
  obtain ⟨htake, hdrop⟩ := host_stops hhost hpath
  have hcolon : ∀ b ∈ path.head?, b ≠ 58 := by
    intro b hb
    rw [hpath b hb]
    decide
  have hspace : ∀ b ∈ path.head?, isspace b = false := by
    intro b hb
    rw [hpath b hb]
    rfl
  have htrim : trim host = .ok host := by
    rw [trim_of_lt (by omega), stripped_of_ends]
    · exact fun b hb => (hhost b (List.mem_of_mem_head? hb)).1
    · exact fun b hb => (hhost b (List.mem_of_mem_getLast? hb)).1
  have huri : trim path = .ok path := by
    rw [trim_of_lt (by omega), stripped_of_ends hspace hlast]
  unfold parseText
  rw [(cstr_eq_self_iff text).mpr hz, hproto]
  dsimp only
  rw [hskip, htake, hdrop, htrim, ok_bind, readPort_of_head hcolon]
  dsimp only
  rw [huri, ok_bind]

-- The scheme may be omitted when the host does not begin like one, the port is always
-- the one of http, and no path leaves no uri.
theorem ofUrl_of_omitted (hne : host ≠ []) (hz : 0 ∉ host ++ path)
    (hhost : ∀ b ∈ host, isspace b = false ∧ isSeparator b = false)
    (hpath : ∀ b ∈ path.head?, b = 47) (hlast : ∀ b ∈ path.getLast?, isspace b = false)
    (hlength : host.length + path.length + 8 < 2 ^ 31) :
    ofUrl (ascii "https://" ++ host ++ path) =
        .ok { proto := ascii "https", host := host, uri := path, port := 80 } ∧
      (beginsWith (ascii "http") (host ++ path) = false →
        ofUrl (host ++ path) =
          .ok { proto := ascii "http", host := host, uri := path, port := 80 }) := by
  have hhead : ∀ b ∈ (host ++ path).head?, isspace b = false ∧ isSeparator b = false :=
    head_append hhost hne
  have hend : ∀ b ∈ (host ++ path).getLast?, isspace b = false := by
    intro b hb
    by_cases hnil : path = []
    · rw [hnil, List.append_nil] at hb
      exact (hhost b (List.mem_of_mem_getLast? hb)).1
    · rw [List.getLast?_append_of_ne_nil _ hnil] at hb
      exact hlast b hb
  have hof {url : Bytes} (hlt : url.length < 2 ^ 31) (hhead : ∀ b ∈ url.head?, isspace b = false)
      (hlast : ∀ b ∈ url.getLast?, isspace b = false) : ofUrl url = initial.parseText url := by
    rw [ofUrl, parse, trim_of_lt hlt, ok_bind, stripped_of_ends hhead hlast]
  constructor
  · have hlt : (ascii "https://" ++ host ++ path).length < 2 ^ 31 := by
      have height : (ascii "https://").length = 8 := rfl
      rw [List.length_append, List.length_append, height]
      omega
    have hnul : 0 ∉ ascii "https://" ++ host ++ path := by
      rw [List.append_assoc, List.mem_append, not_or]
      exact ⟨by decide, hz⟩
    have hletter : ∀ b ∈ (ascii "https://" ++ host ++ path).head?, isspace b = false := by
      intro b hb
      rw [← Option.some.inj hb]
      rfl
    have hfull : host ++ path ≠ [] := List.append_ne_nil_of_left_ne_nil hne path
    rw [hof hlt hletter (by rwa [List.append_assoc, List.getLast?_append_of_ne_nil _ hfull])]
    refine parseText_plain hnul ?_ (dropWhile_slashes (fun b hb => (hhead b hb).2) 3) hhost hpath
      hlast (by omega)
    rw [https_eq]
    exact readProto_https _ _
  · intro hhttp
    have hlt : (host ++ path).length < 2 ^ 31 := by
      rw [List.length_append]
      omega
    have hhttps : ¬beginsWith (ascii "https") (host ++ path) = true := by
      intro hbegins
      have hfour := congrArg (List.take 4) (of_decide_eq_true hbegins)
      rw [toLower, ← List.map_take, List.take_take] at hfour
      have hshort : beginsWith (ascii "http") (host ++ path) = true := decide_eq_true hfour
      rw [hhttp] at hshort
      cases hshort
    rw [hof hlt (fun b hb => (hhead b hb).1) hend]
    refine parseText_plain hz ?_ (dropWhile_slashes (fun b hb => (hhead b hb).2) 0) hhost hpath
      hlast (by omega)
    rw [readProto, if_neg hhttps, if_neg (by simp [hhttp])]
    rfl

end

-- With https the port is never 443.
theorem not_omittedParts (host path : Bytes) (hne : host ≠ [])
    (hhost : ∀ b ∈ host, isspace b = false ∧ isSeparator b = false)
    (hpath : path = [] ∨ path.head? = some 47) : ¬OmittedParts host path := by
  rintro ⟨-, ⟨p, hp, -, hport⟩, -⟩
  have hhead : ∀ b ∈ path.head?, b = 47 := by
    intro b hb
    rcases hpath with rfl | hslash
    · cases hb
    · rw [hslash] at hb
      exact (Option.some.inj hb).symm
  have hdefault := port_https hhost hhead hne hp
  omega

-- `https://h/`
theorem not_forall_omittedParts : ¬∀ host path : Bytes, host ≠ [] →
    (∀ b ∈ host, isspace b = false ∧ isSeparator b = false) →
    (path = [] ∨ path.head? = some 47) → OmittedParts host path := by
  intro hall
  have hplain : ∀ b ∈ ([104] : Bytes), isspace b = false ∧ isSeparator b = false :=
    List.forall_mem_singleton.mpr ⟨rfl, rfl⟩
  have hslash : ∀ b ∈ ([47] : Bytes).head?, b = 47 := fun b hb => (Option.some.inj hb).symm
  obtain ⟨-, ⟨p, hp, -, hport⟩, -⟩ := hall [104] [47] (List.cons_ne_nil _ _) hplain (.inr rfl)
  have hdefault := port_https hplain hslash (List.cons_ne_nil _ _) hp
  omega

theorem not_omittedParts_host : ¬OmittedParts [104] [47] := by
  refine not_omittedParts [104] [47] (List.cons_ne_nil _ _) ?_ (.inr rfl)
  exact List.forall_mem_singleton.mpr ⟨rfl, rfl⟩

end AsrServiceProxy.UrlParser

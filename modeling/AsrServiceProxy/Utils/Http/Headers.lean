import AsrServiceProxy.Utils.Http.Theorems
import AsrServiceProxy.Utils.StringUtil.Lemmas

-- The header lines that libcurl passes to `read_headers`, one block for each
-- response of a chain of redirects, and what `talk` makes of them.
namespace AsrServiceProxy.Http

open CMemory StringUtil Strip

inductive HttpVersion where
  | HTTP_1_0
  | HTTP_1_1
  | HTTP_2
deriving DecidableEq, Repr

def HttpVersion.text : HttpVersion → Bytes
  | .HTTP_1_0 => ascii "HTTP/1.0"
  | .HTTP_1_1 => ascii "HTTP/1.1"
  | .HTTP_2 => ascii "HTTP/2"

structure Field where
  name : Bytes
  value : Bytes
deriving DecidableEq, Repr

structure Block where
  version : HttpVersion
  code : ℕ
  reason : Option Bytes
  fields : List Field
deriving DecidableEq, Repr

def digit (n : ℕ) : UInt8 := UInt8.ofNat (48 + n % 10)

def Block.statusLine (b : Block) : Bytes :=
  b.version.text ++ [32, digit (b.code / 100), digit (b.code / 10), digit b.code] ++
    match b.reason with
    | some reason => 32 :: reason
    | none => []

def Field.line (f : Field) : Bytes := f.name ++ 58 :: f.value

-- The lines before the empty line.
def Block.content (b : Block) : List Bytes := b.statusLine :: b.fields.map Field.line

def Block.lines (b : Block) : List Bytes := b.content ++ [[]]

def wire (lines : List Bytes) : Bytes := (lines.map (· ++ [13, 10])).flatten

-- A character of a `token`, which a field name is.
def isTchar (b : UInt8) : Bool :=
  (48 ≤ b && b ≤ 57) || (65 ≤ b && b ≤ 90) || (97 ≤ b && b ≤ 122) ||
    (ascii "!#$%&'*+-.^_`|~").contains b

def NoBreak (bytes : Bytes) : Prop := ∀ b ∈ bytes, b ≠ 13 ∧ b ≠ 10

structure Block.WellFormed (b : Block) : Prop where
  code : 100 ≤ b.code ∧ b.code < 1000
  reason : ∀ reason, b.reason = some reason → NoBreak reason
  name : ∀ f ∈ b.fields, f.name ≠ [] ∧ ∀ c ∈ f.name, isTchar c
  value : ∀ f ∈ b.fields, NoBreak f.value
  distinct : (b.fields.map Field.name).Nodup

-- The name under which the status line gets into the map.
def Block.statusName (b : Block) : Bytes := (entry 58 b.statusLine).1

-- What a caller of `talk` relies on.
structure Metadata (t : Talk) (last : Block) : Prop where
  headers : ∀ name, t.response.headers.lookup name =
    (last.fields.map fun f => (strip isspace f.name, strip isspace f.value)).lookup name
  status : t.response.status = strip isspace last.statusLine
  code : t.outcome = .ok last.code

section

variable {l space : Bytes} {init lines : List Bytes}

theorem entry_append (hspace : ∀ b ∈ space, isspace b) (line : Bytes) :
    entry 58 (line ++ space) = entry 58 line := by
  have hcolon : ∀ b ∈ space, (fun b : UInt8 => decide (b ≠ 58)) b = true := by
    intro b hb
    have hs := hspace b hb
    by_contra hne
    simp only [ne_eq, decide_not, Bool.not_eq_true', decide_eq_false_iff_not, not_not] at hne
    subst hne
    exact absurd hs (by decide)
  unfold entry
  rw [List.takeWhile_append, List.dropWhile_append]
  by_cases hall : line.dropWhile (· ≠ 58) = []
  · have hself : line.takeWhile (· ≠ 58) = line :=
      List.takeWhile_eq_self_iff.mpr (List.dropWhile_eq_nil_iff.mp hall)
    rw [hself, if_pos rfl, hall, List.takeWhile_eq_self_iff.mpr hcolon,
      List.dropWhile_eq_nil_iff.mpr hcolon, strip_append hspace]
    rfl
  · have hne : (line.takeWhile (· ≠ 58)).length ≠ line.length := by
      intro heq
      have hself := (List.takeWhile_sublist _).eq_of_length heq
      exact hall (List.dropWhile_eq_nil_iff.mpr (List.takeWhile_eq_self_iff.mp hself))
    rw [if_neg hne, if_neg (by simpa using hall)]
    rw [List.drop_append_of_le_length (List.length_pos_of_ne_nil hall), strip_append hspace]

theorem rdropWhile_append_of_exists (x : Bytes) (h : ∃ b ∈ l, ¬isspace b) :
    (x ++ l).rdropWhile isspace = x ++ l.rdropWhile isspace := by
  have hne : l.reverse.dropWhile isspace ≠ [] := by
    intro hnil
    obtain ⟨b, hb, hs⟩ := h
    exact hs (List.dropWhile_eq_nil_iff.mp hnil b (List.mem_reverse.mpr hb))
  rw [List.rdropWhile, List.rdropWhile, List.reverse_append, List.dropWhile_append,
    if_neg (by simpa using hne), List.reverse_append, List.reverse_reverse]

theorem wire_concat (lines : List Bytes) (line : Bytes) :
    wire (lines ++ [line]) = wire lines ++ (line ++ [13, 10]) := by
  simp [wire]

theorem splitOn_wire (hinit : ∀ i ∈ init, 10 ∉ i) (hl : 10 ∉ l) :
    (wire init ++ l).splitOn 10 = init.map (· ++ [13]) ++ [l] := by
  induction init with
  | nil => simpa [wire] using List.splitOn_eq_singleton hl
  | cons i rest ih =>
      rw [List.forall_mem_cons] at hinit
      have hnot : (10 : UInt8) ∉ i ++ [13] := by
        simpa using hinit.1
      have hsplit := List.splitOn_append_cons_self_of_not_mem hnot (wire rest ++ l)
      rw [ih hinit.2] at hsplit
      simpa [wire] using hsplit

-- The map has for each name the first line with that name, unless the name
-- contains `HTTP/1.1`.
theorem buildHeaders_lookup (hlines : ∀ i ∈ init ++ [l], 10 ∉ i)
    (hhead : ∃ rest, wire (init ++ [l]) = 72 :: rest) (hlast : ∃ b ∈ l, ¬isspace b)
    (hlength : (wire (init ++ [l] ++ [[]])).length < 2 ^ 31) :
    ∃ headers, buildHeadersFromStr (wire (init ++ [l] ++ [[]])) = .ok headers ∧ ∀ key,
      headers.lookup key =
        if (find (ascii "HTTP/1.1") key).isNone then ((init ++ [l]).map (entry 58)).lookup key
        else none := by
  have hspace : ∀ b ∈ ([13, 10, 13, 10] : Bytes), isspace b := List.all_eq_true.mp rfl
  have hwire : wire (init ++ [l] ++ [[]]) = (wire init ++ l) ++ [13, 10, 13, 10] := by
    rw [wire_concat, wire_concat]
    simp
  have htrim : strip isspace (wire (init ++ [l] ++ [[]])) =
      wire init ++ l.rdropWhile isspace := by
    rw [hwire, strip_append hspace, ← rdropWhile_append_of_exists _ hlast]
    obtain ⟨rest, hrest⟩ := hhead
    rw [wire_concat, ← List.append_assoc] at hrest
    cases hfront : wire init ++ l with
    | nil =>
        rw [hfront] at hrest
        cases hrest
    | cons b front =>
        rw [hfront, List.cons_append] at hrest
        cases hrest
        exact strip_cons rfl front
  have hcut := List.rdropWhile_append_rtakeWhile (p := isspace) (l := l)
  have hrest : ∀ b ∈ l.rtakeWhile isspace, isspace b := fun b => List.mem_rtakeWhile_imp
  have hentry : entry 58 (l.rdropWhile isspace) = entry 58 l := by
    conv_rhs => rw [← hcut, entry_append hrest]
  have hl : (10 : UInt8) ∉ l.rdropWhile isspace := by
    intro hmem
    exact hlines l (by simp) ((List.rdropWhile_prefix isspace l).mem hmem)
  have hinit : ∀ i ∈ init, (10 : UInt8) ∉ i :=
    fun i hi => hlines i (List.mem_append_left _ hi)
  have hcr : ∀ b ∈ ([13] : Bytes), isspace b := List.all_eq_true.mp rfl
  have hentries : ((wire init ++ l.rdropWhile isspace).splitOn 10).map (entry 58) =
      (init ++ [l]).map (entry 58) := by
    rw [splitOn_wire hinit hl, List.map_append, List.map_append, List.map_map, List.map_singleton,
      List.map_singleton, hentry]
    congr 1
    exact List.map_congr_left fun i _ => entry_append hcr i
  have hkept := (length_strip_le isspace (wire (init ++ [l] ++ [[]]))).trans_lt hlength
  rw [htrim] at hkept
  rw [buildHeadersFromStr, spaceTrimAt_of_lt hlength, htrim]
  simp only [bind, Except.bind]
  rw [splitMap_eq hkept, split_eq_splitOn, hentries]
  refine ⟨_, rfl, fun key => ?_⟩
  rw [Entries.lookup_filter (fun name => (find (ascii "HTTP/1.1") name).isNone), lookup_foldl_insert]
  rfl

-- A text of 2^31 bytes or more keeps its empty line, which gets into the map.
theorem buildHeaders_empty_name (hlines : ∀ i ∈ init ++ [l], 10 ∉ i)
    (hhead : ∃ rest, wire (init ++ [l]) = 72 :: rest)
    (hlong : 2 ^ 31 ≤ (wire (init ++ [l] ++ [[]])).length)
    (hlength : (wire (init ++ [l] ++ [[]])).length < 2 ^ 32) {headers : Map}
    (h : buildHeadersFromStr (wire (init ++ [l] ++ [[]])) = .ok headers) :
    (headers.lookup []).isSome := by
  have hsplit : [] ∈ split (wire (init ++ [l] ++ [[]])) 10 := by
    have hall : ∀ i ∈ init ++ [l] ++ [[]], (10 : UInt8) ∉ i := by
      intro i hi
      rcases List.mem_append.mp hi with hi | hi
      · exact hlines i hi
      · rw [List.mem_singleton.mp hi]
        exact List.not_mem_nil
    have hwire := splitOn_wire hall (l := []) List.not_mem_nil
    rw [List.append_nil] at hwire
    rw [split_eq_splitOn, hwire]
    exact List.mem_append_right _ List.mem_cons_self
  obtain ⟨rest, hrest⟩ := hhead
  rw [wire_concat (init ++ [l]), hrest, List.cons_append] at h hsplit hlong hlength
  obtain ⟨trimmed, htrimmed, h⟩ := except_bind_ok h
  obtain rfl := spaceTrimAt_of_long rfl hlong hlength htrimmed
  obtain ⟨result, hresult, h⟩ := except_bind_ok h
  obtain ⟨map, rfl, hmap⟩ := isSome_of_splitMap hresult hsplit
  rw [← Except.ok.inj h, Entries.lookup_filter (fun name => (find (ascii "HTTP/1.1") name).isNone)]
  exact hmap

end

section

variable {pattern str rest : Bytes} {key : Bytes}

theorem mem_of_find {i : ℕ} (h : find pattern str = some i) : ∀ b ∈ pattern, b ∈ str := by
  induction str generalizing i with
  | nil =>
      simp only [find] at h
      split_ifs at h with hp
      subst hp
      exact fun b hb => hb
  | cons c rest ih =>
      simp only [find] at h
      split_ifs at h with hp
      · exact fun b hb => (List.isPrefixOf_iff_prefix.mp hp).mem hb
      · obtain ⟨j, hj, -⟩ := Option.map_eq_some_iff.mp h
        exact fun b hb => List.mem_cons_of_mem _ (ih hj b hb)

-- The end of the first line.
theorem find_break (h : 13 ∉ str) (rest : Bytes) :
    find [13, 10] (str ++ 13 :: 10 :: rest) = some str.length := by
  induction str with
  | nil => simp [find]
  | cons b str ih =>
      simp only [List.mem_cons, not_or] at h
      have hne : ([13, 10] : Bytes).isPrefixOf (b :: (str ++ 13 :: 10 :: rest)) = false := by
        have hb : ((13 : UInt8) == b) = false := by simpa using h.1
        simp [List.isPrefixOf, hb]
      rw [List.cons_append, find, hne, ih h.2]
      rfl

theorem find_prefix (rest : Bytes) : find pattern (pattern ++ rest) = some 0 := by
  cases hp : pattern ++ rest with
  | nil =>
      obtain ⟨rfl, -⟩ := List.append_eq_nil_iff.mp hp
      rfl
  | cons b str =>
      have hprefix : pattern.isPrefixOf (b :: str) = true := by
        rw [← hp]
        exact List.isPrefixOf_iff_prefix.mpr (List.prefix_append _ _)
      rw [find, hprefix]
      rfl

theorem getStatusline_eq (hhttp : ∃ tail, str = ascii "HTTP" ++ tail) (hstr : 13 ∉ str)
    (hlength : str.length < 2 ^ 31) :
    getStatuslineFromStr (str ++ 13 :: 10 :: rest) = .ok (strip isspace str) := by
  obtain ⟨tail, rfl⟩ := hhttp
  have hstart : find (ascii "HTTP") (ascii "HTTP" ++ tail ++ 13 :: 10 :: rest) = some 0 := by
    rw [List.append_assoc]
    exact find_prefix _
  have htake : (ascii "HTTP" ++ tail ++ 13 :: 10 :: rest).take (ascii "HTTP" ++ tail).length =
      ascii "HTTP" ++ tail := List.take_left
  rw [getStatuslineFromStr, hstart, find_break hstr]
  simp only [substr, Nat.not_lt_zero, if_false, List.drop_zero, htake]
  exact spaceTrimAt_of_lt hlength

theorem strip_eq_self (h : ∀ b ∈ str, ¬isspace b) : strip isspace str = str := by
  apply strip_of_ends
  · intro b hb
    simpa using h b (List.mem_of_head? hb)
  · intro b hb
    simpa using h b (List.mem_of_getLast? hb)

end

section

variable {b last : Block} {f : Field}

theorem isspace_cases {c : UInt8} (h : isspace c) : c ∈ ([9, 10, 11, 12, 13, 32] : Bytes) := by
  simp only [isspace, Bool.or_eq_true, Bool.and_eq_true, decide_eq_true_eq,
    UInt8.le_iff_toNat_le, ← UInt8.toNat_inj] at h
  simp only [List.mem_cons, List.not_mem_nil, or_false, ← UInt8.toNat_inj]
  simp only [UInt8.reduceToNat] at h ⊢
  omega

theorem isTchar_plain {c : UInt8} (h : isTchar c) : c ≠ 58 ∧ c ≠ 47 ∧ ¬isspace c := by
  refine ⟨?_, ?_, ?_⟩
  · rintro rfl
    exact absurd h (by decide)
  · rintro rfl
    exact absurd h (by decide)
  · intro hs
    have hnone : ∀ d ∈ ([9, 10, 11, 12, 13, 32] : Bytes), (!isTchar d) = true :=
      List.all_eq_true.mp rfl
    have hc := hnone c (isspace_cases hs)
    rw [h] at hc
    cases hc

theorem Block.statusLine_http (b : Block) : ∃ tail, b.statusLine = ascii "HTTP/" ++ tail := by
  unfold Block.statusLine
  cases b.version with
  | HTTP_1_0 => exact ⟨ascii "1.0" ++ _, rfl⟩
  | HTTP_1_1 => exact ⟨ascii "1.1" ++ _, rfl⟩
  | HTTP_2 => exact ⟨ascii "2" ++ _, rfl⟩

theorem digit_noBreak (n : ℕ) : digit n ≠ 13 ∧ digit n ≠ 10 := by
  have hlt : n % 10 < 10 := Nat.mod_lt _ (by omega)
  have hall : ∀ m < 10, UInt8.ofNat (48 + m) ≠ 13 ∧ UInt8.ofNat (48 + m) ≠ 10 := by decide
  exact hall _ hlt

theorem Block.WellFormed.statusLine (h : b.WellFormed) : NoBreak b.statusLine := by
  intro c hc
  unfold Block.statusLine at hc
  rcases List.mem_append.mp hc with hc | hc
  · rcases List.mem_append.mp hc with hc | hc
    · have hversion : ∀ c ∈ b.version.text, c ≠ 13 ∧ c ≠ 10 := by
        cases b.version <;> decide +kernel
      exact hversion c hc
    · simp only [List.mem_cons, List.not_mem_nil, or_false] at hc
      rcases hc with rfl | rfl | rfl | rfl
      · decide
      · exact digit_noBreak _
      · exact digit_noBreak _
      · exact digit_noBreak _
  · cases hreason : b.reason with
    | none =>
        rw [hreason] at hc
        cases hc
    | some reason =>
        rw [hreason] at hc
        rcases List.mem_cons.mp hc with rfl | hc
        · decide
        · exact h.reason reason hreason c hc

theorem Block.WellFormed.line (h : b.WellFormed) (hf : f ∈ b.fields) : 10 ∉ f.line := by
  intro hc
  unfold Field.line at hc
  rcases List.mem_append.mp hc with hc | hc
  · exact (isTchar_plain ((h.name f hf).2 10 hc)).2.2 (by decide)
  · rcases List.mem_cons.mp hc with hc | hc
    · exact absurd hc (by decide)
    · exact (h.value f hf 10 hc).2 rfl

theorem Block.WellFormed.lines (h : b.WellFormed) : ∀ line ∈ b.lines, 10 ∉ line := by
  intro line hline
  unfold Block.lines Block.content at hline
  simp only [List.cons_append, List.mem_cons, List.mem_append, List.mem_map, List.not_mem_nil,
    or_false] at hline
  rcases hline with rfl | ⟨f, hf, rfl⟩ | rfl
  · exact fun hc => (h.statusLine 10 hc).2 rfl
  · exact h.line hf
  · exact List.not_mem_nil

-- Every line before the empty line has something else than white space.
theorem Block.content_visible (b : Block) : ∀ line ∈ b.content, ∃ c ∈ line, ¬isspace c := by
  intro line hline
  rcases List.mem_cons.mp hline with rfl | hline
  · obtain ⟨tail, htail⟩ := b.statusLine_http
    refine ⟨72, ?_, by decide⟩
    rw [htail]
    exact List.mem_append_left _ (by decide)
  · obtain ⟨f, -, rfl⟩ := List.mem_map.mp hline
    exact ⟨58, by simp [Field.line], by decide⟩

theorem Block.WellFormed.entry_line (h : b.WellFormed) (hf : f ∈ b.fields) :
    entry 58 f.line = (f.name, strip isspace f.value) := by
  have hname : ∀ c ∈ f.name, (fun c : UInt8 => decide (c ≠ 58)) c = true := by
    intro c hc
    simpa using (isTchar_plain ((h.name f hf).2 c hc)).1
  have hspace : ∀ c ∈ f.name, ¬isspace c := fun c hc => (isTchar_plain ((h.name f hf).2 c hc)).2.2
  unfold entry Field.line
  rw [List.takeWhile_append_of_pos hname, List.dropWhile_append_of_pos hname]
  simp [strip_eq_self hspace]

-- The lines of a chain of responses: the first one is a status line, the last one is empty,
-- and `l` in front of it is of the last response.
theorem exists_chain_lines {blocks : List Block} (hblocks : ∀ b ∈ blocks, b.WellFormed)
    (hlast : last.WellFormed) :
    ∃ (init : List Bytes) (l : Bytes),
      (blocks ++ [last]).flatMap Block.lines = init ++ [l] ++ [[]] ∧
      blocks.flatMap Block.lines ++ last.content = init ++ [l] ∧ l ∈ last.content ∧
      (∀ i ∈ init ++ [l], 10 ∉ i) ∧ ∃ rest, wire (init ++ [l]) = 72 :: rest := by
  have hne : last.content ≠ [] := List.cons_ne_nil _ _
  obtain ⟨front, l, hcontent⟩ := (List.eq_nil_or_concat last.content).resolve_left hne
  have hsplit : blocks.flatMap Block.lines ++ last.content =
      (blocks.flatMap Block.lines ++ front) ++ [l] := by
    rw [hcontent, List.concat_eq_append, List.append_assoc]
  refine ⟨_, l, ?_, hsplit, ?_, ?_, ?_⟩
  · rw [List.flatMap_append, List.flatMap_singleton, ← hsplit, List.append_assoc]
    rfl
  · rw [hcontent, List.concat_eq_append]
    exact List.mem_append_right _ List.mem_cons_self
  · intro i hi
    rw [← hsplit] at hi
    rcases List.mem_append.mp hi with hi | hi
    · obtain ⟨b, hb, hi⟩ := List.mem_flatMap.mp hi
      exact (hblocks b hb).lines i hi
    · exact hlast.lines i (List.mem_append_left _ hi)
  · have hfirst : ∃ (b : Block) (tail : List Bytes),
        blocks.flatMap Block.lines ++ last.content = b.statusLine :: tail := by
      cases blocks with
      | nil => exact ⟨last, _, rfl⟩
      | cons b rest => exact ⟨b, _, rfl⟩
    obtain ⟨b, tail, htail⟩ := hfirst
    obtain ⟨text, htext⟩ := b.statusLine_http
    rw [← hsplit, htail, wire, List.map_cons, List.flatten_cons, htext]
    exact ⟨_, rfl⟩

-- The map that `talk` makes of a chain of responses.
theorem chain_lookup {blocks : List Block} (hblocks : ∀ b ∈ blocks, b.WellFormed)
    (hlast : last.WellFormed)
    (hshort : (wire ((blocks ++ [last]).flatMap Block.lines)).length < 2 ^ 31) :
    ∃ headers, buildHeadersFromStr (wire ((blocks ++ [last]).flatMap Block.lines)) = .ok headers ∧
      ∀ key, headers.lookup key =
        if (find (ascii "HTTP/1.1") key).isNone then
          ((blocks.flatMap Block.lines ++ last.content).map (entry 58)).lookup key
        else none := by
  obtain ⟨init, l, hall, hsplit, hl, hlines, hhead⟩ := exists_chain_lines hblocks hlast
  rw [hall] at hshort ⊢
  rw [hsplit]
  exact buildHeaders_lookup hlines hhead (last.content_visible l hl) hshort

theorem chain_empty_name {blocks : List Block} (hblocks : ∀ b ∈ blocks, b.WellFormed)
    (hlast : last.WellFormed)
    (hlong : 2 ^ 31 ≤ (wire ((blocks ++ [last]).flatMap Block.lines)).length)
    (hlength : (wire ((blocks ++ [last]).flatMap Block.lines)).length < 2 ^ 32) {headers : Map}
    (h : buildHeadersFromStr (wire ((blocks ++ [last]).flatMap Block.lines)) = .ok headers) :
    (headers.lookup []).isSome := by
  obtain ⟨init, l, hall, -, -, hlines, hhead⟩ := exists_chain_lines hblocks hlast
  rw [hall] at hlong hlength h
  exact buildHeaders_empty_name hlines hhead hlong hlength h

theorem slash_mem_statusName (b : Block) : 47 ∈ b.statusName := by
  obtain ⟨tail, htail⟩ := b.statusLine_http
  have htake : b.statusLine.takeWhile (· ≠ 58) = ascii "HTTP/" ++ tail.takeWhile (· ≠ 58) := by
    rw [htail, List.takeWhile_append_of_pos (List.all_eq_true.mp rfl)]
  unfold Block.statusName entry
  simp only
  rw [htake]
  have hcut := List.rdropWhile_append_rtakeWhile (p := isspace)
    (l := ascii "HTTP/" ++ tail.takeWhile (· ≠ 58))
  have hmem : (47 : UInt8) ∈ ascii "HTTP/" ++ tail.takeWhile (· ≠ 58) :=
    List.mem_append_left _ (by decide)
  rw [← hcut] at hmem
  have htrim : strip isspace (ascii "HTTP/" ++ tail.takeWhile (· ≠ 58)) =
      (ascii "HTTP/" ++ tail.takeWhile (· ≠ 58)).rdropWhile isspace := strip_cons rfl _
  rw [htrim]
  rcases List.mem_append.mp hmem with hmem | hmem
  · exact hmem
  · exact absurd (List.mem_rtakeWhile_imp hmem) (by decide)

-- The fields of a block, as they should be in the map.
theorem Block.WellFormed.fieldMap (h : b.WellFormed) :
    (b.fields.map Field.line).map (entry 58) =
      b.fields.map fun f => (strip isspace f.name, strip isspace f.value) := by
  rw [List.map_map]
  refine List.map_congr_left fun f hf => ?_
  have hspace : ∀ c ∈ f.name, ¬isspace c := fun c hc => (isTchar_plain ((h.name f hf).2 c hc)).2.2
  rw [Function.comp, h.entry_line hf, strip_eq_self hspace]

theorem Block.WellFormed.fieldMap_lookup_none (h : b.WellFormed) {key : Bytes}
    (hkey : key = [] ∨ 47 ∈ key) :
    (b.fields.map fun f => (strip isspace f.name, strip isspace f.value)).lookup key = none := by
  rw [Entries.lookup_eq_none_iff, List.map_map]
  intro hmem
  obtain ⟨f, hf, rfl⟩ := List.mem_map.mp hmem
  have hspace : ∀ c ∈ f.name, ¬isspace c := fun c hc => (isTchar_plain ((h.name f hf).2 c hc)).2.2
  simp only [Function.comp_apply, strip_eq_self hspace] at hkey
  rcases hkey with hempty | hslash
  · exact (h.name f hf).1 hempty
  · exact (isTchar_plain ((h.name f hf).2 47 hslash)).2.1 rfl

end

section

variable {attempts : ℕ → Attempt} {request : HttpRequest} {k : ℕ}

theorem talk_eq_finish (response : HttpResponse) (hm : Supported request.method)
    (hk : SucceedsAt attempts k) (hlt : k < 3) :
    ∃ ops, talk true attempts request response =
      finish (sessionBefore attempts (start request response) (k + 1)).response ops
        (attempts k).httpCode := by
  have hloop := talkLoop_of_succeeds attempts (start request response) hk 3 0 (by omega) (by omega)
  simp only [sessionBefore] at hloop
  simp only [talk, hm, hloop, hk.1, not_true_eq_false, ite_false, ite_true, sessionBefore]
  exact ⟨_, rfl⟩

theorem finish_of_ok {response : HttpResponse} {headers : Map} {status : Bytes}
    (hheaders : buildHeadersFromStr response.strHeaders = .ok headers)
    (hstatus : getStatuslineFromStr response.strHeaders = .ok status) (ops : List CurlOp)
    (httpCode : ℤ) :
    finish response ops httpCode =
      { response := { response with headers := headers, status := status }
        ops := ops ++ [.slistFreeAll, .easyCleanup]
        outcome := .ok httpCode } := by
  rw [finish, hheaders]
  dsimp only
  rw [hstatus]

-- Without a fault the map is the one of the header text.
theorem headers_of_finish {response : HttpResponse} {ops : List CurlOp} {httpCode code : ℤ}
    (h : (finish response ops httpCode).outcome = .ok code) :
    buildHeadersFromStr response.strHeaders =
      .ok (finish response ops httpCode).response.headers := by
  unfold finish at h ⊢
  cases hheaders : buildHeadersFromStr response.strHeaders with
  | error e =>
      rw [hheaders] at h
      cases h
  | ok headers =>
      dsimp only
      cases getStatuslineFromStr response.strHeaders <;> rfl

theorem Block.WellFormed.getStatusline {last : Block} (hlast : last.WellFormed)
    (hlength : (wire last.lines).length < 2 ^ 31) :
    getStatuslineFromStr (wire last.lines) = .ok (strip isspace last.statusLine) := by
  have hfirst : wire last.lines =
      last.statusLine ++ 13 :: 10 :: wire (last.fields.map Field.line ++ [[]]) := by
    simp [wire, Block.lines, Block.content]
  have hhead : ∃ tail, last.statusLine = ascii "HTTP" ++ tail := by
    obtain ⟨tail, htail⟩ := last.statusLine_http
    exact ⟨ascii "/" ++ tail, htail⟩
  rw [hfirst, List.length_append] at hlength
  rw [hfirst]
  exact getStatusline_eq hhead (fun hc => (hlast.statusLine 13 hc).1 rfl) (by omega)

end

def okBlock : Block :=
  { version := .HTTP_1_1
    code := 200
    reason := some (ascii "OK")
    fields := [{ name := ascii "Content-Length", value := ascii " 4" }] }

def movedBlock : Block :=
  { version := .HTTP_1_1
    code := 302
    reason := some (ascii "Found")
    fields := [{ name := ascii "Location", value := ascii " /asr" }] }

theorem redirect_wellFormed : ∀ b ∈ [movedBlock, okBlock], b.WellFormed := by
  intro b hb
  simp only [List.mem_cons, List.not_mem_nil, or_false] at hb
  rcases hb with rfl | rfl
  · refine ⟨by decide, ?_, by decide +kernel, by unfold NoBreak; decide +kernel, by decide⟩
    intro reason hreason
    cases hreason
    unfold NoBreak
    decide +kernel
  · refine ⟨by decide, ?_, by decide +kernel, by unfold NoBreak; decide +kernel, by decide⟩
    intro reason hreason
    cases hreason
    unfold NoBreak
    decide +kernel

def getRequest : HttpRequest := { method := .METHOD_GET, headers := [], body := [] }

-- One attempt that passes the lines of the blocks.
def chainAttempt (blocks : List Block) (httpCode : ℤ) : Attempt :=
  { callbacks := (blocks.flatMap Block.lines).map fun line => .readHeaders (line ++ [13, 10])
    code := .CURLE_OK
    httpCode := httpCode }

end AsrServiceProxy.Http

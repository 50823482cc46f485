import AsrServiceProxy.Utils.FileUtil

-- The parts of a path, and what `normalize_file_path` makes of them.
namespace AsrServiceProxy.FileUtil

open CMemory StringUtil

theorem notMem_slashed (path : Bytes) : 92 ∉ slashed path ∧ 0 ∉ slashed path := by
  have hz := zero_notMem_cstr path
  constructor <;> intro hmem <;> obtain ⟨b, hb, heq⟩ := List.mem_map.mp hmem
  · split at heq
    · cases heq
    · contradiction
  · split at heq
    · cases heq
    · rw [heq] at hb
      exact hz hb

-- A string without backslashes is read as it is.
theorem slashed_eq_cstr {path : Bytes} (h : 92 ∉ cstr path) : slashed path = cstr path := by
  rw [slashed, replace]
  conv_rhs => rw [← List.map_id (cstr path)]
  apply List.map_congr_left
  intro b hb
  have hne : b ≠ 92 := by
    rintro rfl
    exact h hb
  exact if_neg hne

theorem slashed_eq_self {path : Bytes} (hz : 0 ∉ path) (h : 92 ∉ path) : slashed path = path := by
  have hcstr := (cstr_eq_self_iff path).mpr hz
  have heq : 92 ∉ cstr path → slashed path = cstr path := slashed_eq_cstr
  rw [hcstr] at heq
  exact heq h

theorem head_slashed (path : Bytes) : (slashed path).head? =
    (cstr path).head?.map fun b => if b = 92 then 47 else b := List.head?_map

theorem isAbsolute_of_slashed {path : Bytes} (h : isAbsolute (slashed path) = false) :
    isAbsolute (cstr path) = false := by
  rw [isAbsolute, decide_eq_false_iff_not] at h ⊢
  intro hhead
  rw [head_slashed, hhead] at h
  exact h rfl

theorem foldl_joinRound (parts : List Bytes) (dir : Bytes) :
    parts.foldl joinRound (false, dir) =
      (false, dir ++ (parts.filter (· ≠ [])).flatMap (· ++ [47])) := by
  induction parts generalizing dir with
  | nil => rw [List.foldl_nil, List.filter_nil, List.flatMap_nil, List.append_nil]
  | cons part parts ih =>
      rw [List.foldl_cons, joinRound]
      by_cases hpart : part = []
      · subst hpart
        exact ih dir
      · simp [hpart, ih]

theorem intercalate_concat (first : Bytes) (names : List Bytes) :
    [47].intercalate (first :: names) ++ [47] = first ++ [47] ++ names.flatMap (· ++ [47]) := by
  induction names generalizing first with
  | nil => simp
  | cons name names ih =>
      rw [List.intercalate_cons_cons, List.append_assoc, ih, List.flatMap_cons, List.append_assoc]

theorem joinParts_cons (first : Bytes) (rest : List Bytes) :
    joinParts (first :: rest) = [47].intercalate (first :: rest.filter (· ≠ [])) ++ [47] := by
  rw [joinParts, List.foldl_cons, intercalate_concat]
  show (rest.foldl joinRound (false, [] ++ first ++ [47])).2 = _
  rw [foldl_joinRound, List.nil_append]

variable {path first : Bytes} {rest : List Bytes}

-- The parts between the slashes.
theorem mem_splitOn {d : UInt8} {text name : Bytes} (h : name ∈ text.splitOn d) :
    d ∉ name ∧ name ⊆ text := by
  induction text generalizing name with
  | nil =>
      rw [List.splitOn_nil, List.mem_singleton] at h
      rw [h]
      exact ⟨List.not_mem_nil, List.Subset.refl _⟩
  | cons b text ih =>
      rw [List.splitOn_cons_eq_if_modifyHead] at h
      split at h
      · rcases List.mem_cons.mp h with rfl | h
        · exact ⟨List.not_mem_nil, List.nil_subset _⟩
        · exact ⟨(ih h).1, List.subset_cons_of_subset b (ih h).2⟩
      next hb =>
        obtain ⟨first, rest, heq⟩ := List.exists_cons_of_ne_nil (List.splitOn_ne_nil d text)
        rw [heq] at h ih
        rcases List.mem_cons.mp h with rfl | h
        · obtain ⟨hnot, hsubset⟩ := ih List.mem_cons_self
          refine ⟨fun hmem => ?_, List.cons_subset_cons b hsubset⟩
          rcases List.mem_cons.mp hmem with rfl | hmem
          · exact hb BEq.rfl
          · exact hnot hmem
        · obtain ⟨hnot, hsubset⟩ := ih (List.mem_cons_of_mem first h)
          exact ⟨hnot, List.subset_cons_of_subset b hsubset⟩

theorem exists_component {b : UInt8} (h : b ∈ path) (hne : b ≠ 47) :
    ∃ name ∈ components path, b ∈ name := by
  obtain ⟨first, rest, hsplit⟩ := List.exists_cons_of_ne_nil (List.splitOn_ne_nil 47 path)
  have hmem : b ∈ path ++ [47] := List.mem_append_left _ h
  have hpath : [47].intercalate (path.splitOn 47) = path := List.intercalate_splitOn 47
  rw [← hpath, hsplit, intercalate_concat] at hmem
  have hname : ∃ name ∈ path.splitOn 47, b ∈ name := by
    rw [hsplit]
    simp only [List.mem_append, List.mem_flatMap, List.mem_singleton, hne, or_false] at hmem
    rcases hmem with hmem | ⟨name, hname, hmem⟩
    · exact ⟨first, List.mem_cons_self, hmem⟩
    · exact ⟨name, List.mem_cons_of_mem first hname, hmem⟩
  obtain ⟨name, hname, hmem⟩ := hname
  refine ⟨name, List.mem_filter.mpr ⟨hname, decide_eq_true ?_⟩, hmem⟩
  exact List.ne_nil_of_mem hmem

theorem isAbsolute_iff (h : path.splitOn 47 = first :: rest) :
    isAbsolute path = true ↔ first = [] ∧ rest ≠ [] := by
  rw [isAbsolute, decide_eq_true_iff]
  cases path with
  | nil =>
      rw [List.splitOn_nil] at h
      obtain ⟨rfl, rfl⟩ := List.cons.inj h
      exact iff_of_false nofun fun hboth => hboth.2 rfl
  | cons b path =>
      rw [List.splitOn_cons_eq_if_modifyHead] at h
      by_cases hb : b = 47
      · rw [if_pos (beq_iff_eq.mpr hb)] at h
        obtain ⟨rfl, rfl⟩ := List.cons.inj h
        exact iff_of_true (congrArg some hb) ⟨rfl, List.splitOn_ne_nil 47 path⟩
      · rw [if_neg (by simpa using hb)] at h
        obtain ⟨name, names, heq⟩ := List.exists_cons_of_ne_nil (List.splitOn_ne_nil 47 path)
        rw [heq] at h
        refine iff_of_false (fun hsome => hb (Option.some.inj hsome)) fun hboth => ?_
        rw [hboth.1] at h
        cases h

theorem components_eq_nil_iff : components path = [] ↔ ∀ b ∈ path, b = 47 := by
  induction path with
  | nil => exact iff_of_true rfl nofun
  | cons b path ih =>
      rw [components, List.splitOn_cons_eq_if_modifyHead, List.forall_mem_cons]
      by_cases hb : b = 47
      · rw [if_pos (beq_iff_eq.mpr hb), and_iff_right hb, ← ih]
        rfl
      · rw [if_neg (by simpa using hb)]
        obtain ⟨name, names, heq⟩ := List.exists_cons_of_ne_nil (List.splitOn_ne_nil 47 path)
        rw [heq]
        refine iff_of_false (fun hnil => ?_) fun hboth => hb hboth.1
        cases hnil

theorem splitOn_joined (h : path.splitOn 47 = first :: rest) :
    ([47].intercalate (first :: rest.filter (· ≠ []))).splitOn 47 =
      first :: rest.filter (· ≠ []) := by
  refine List.splitOn_intercalate 47 (fun name hname => ?_) (List.cons_ne_nil _ _)
  have hmem : name ∈ path.splitOn 47 := by
    rw [h]
    rcases List.mem_cons.mp hname with rfl | hname
    · exact List.mem_cons_self
    · exact List.mem_cons_of_mem first (List.mem_of_mem_filter hname)
  exact (mem_splitOn hmem).1

theorem normalizeFilePath_eq (h : (slashed path).splitOn 47 = first :: rest) :
    normalizeFilePath path = [47].intercalate (first :: rest.filter (· ≠ [])) := by
  rw [normalizeFilePath, split_eq_splitOn, h, joinParts_cons, List.dropLast_concat]

-- The names are the same, the separators single, and a normal path stays one.
def Normalizes (path : Bytes) : Prop :=
  components (normalizeFilePath path) = components (slashed path) ∧
    92 ∉ normalizeFilePath path ∧
    ¬[47, 47] <:+: normalizeFilePath path ∧
    ((normalizeFilePath path).getLast? = some 47 → normalizeFilePath path = [47]) ∧
    isAbsolute (normalizeFilePath path) = isAbsolute (slashed path) ∧
    normalizeFilePath (normalizeFilePath path) = normalizeFilePath path

section

variable (h : (slashed path).splitOn 47 = first :: rest)

include h

theorem splitOn_normalizeFilePath :
    (normalizeFilePath path).splitOn 47 = first :: rest.filter (· ≠ []) := by
  rw [normalizeFilePath_eq h, splitOn_joined h]

theorem mem_normalizeFilePath {b : UInt8} (hb : b ∈ normalizeFilePath path) :
    b = 47 ∨ b ∈ slashed path := by
  have hparts {name : Bytes} (hname : name ∈ first :: rest) : name ⊆ slashed path := by
    rw [← h] at hname
    exact (mem_splitOn hname).2
  rw [normalizeFilePath_eq h] at hb
  have hmem := List.mem_append_left [47] hb
  rw [intercalate_concat] at hmem
  simp only [List.mem_append, List.mem_flatMap, List.mem_singleton] at hmem
  rcases hmem with (hmem | rfl) | ⟨name, hname, hmem | rfl⟩
  · exact .inr (hparts List.mem_cons_self hmem)
  · exact .inl rfl
  · exact .inr (hparts (List.mem_cons_of_mem first (List.mem_of_mem_filter hname)) hmem)
  · exact .inl rfl

theorem slashed_normalizeFilePath : slashed (normalizeFilePath path) = normalizeFilePath path := by
  obtain ⟨hback, hz⟩ := notMem_slashed path
  apply slashed_eq_self <;> intro hmem <;> rcases mem_normalizeFilePath h hmem with heq | hmem
  · cases heq
  · exact hz hmem
  · cases heq
  · exact hback hmem

-- Behind the first part of a normal path no part is empty.
theorem nil_notMem_of_split {front back : Bytes} (hsplit : normalizeFilePath path = front ++ 47 :: back) :
    [] ∉ back.splitOn 47 := by
  intro hmem
  have hparts := splitOn_normalizeFilePath h
  rw [hsplit, List.splitOn_append_cons_self] at hparts
  obtain ⟨name, names, heq⟩ := List.exists_cons_of_ne_nil (List.splitOn_ne_nil 47 front)
  rw [heq, List.cons_append] at hparts
  have hrest := (List.cons.inj hparts).2
  have hfilter : [] ∈ rest.filter (· ≠ []) := by
    rw [← hrest]
    exact List.mem_append_right names hmem
  simpa using List.of_mem_filter hfilter

-- All but the conjunct about absolute paths holds of every path.
theorem normalizes_iff_isAbsolute :
    Normalizes path ↔ isAbsolute (normalizeFilePath path) = isAbsolute (slashed path) := by
  constructor
  · exact fun hall => hall.2.2.2.2.1
  intro habsolute
  have hparts := splitOn_normalizeFilePath h
  have hnames : components (normalizeFilePath path) = components (slashed path) := by
    rw [components, components, hparts, h, List.filter_cons, List.filter_cons, List.filter_filter]
    simp only [Bool.and_self]
  have hback : 92 ∉ normalizeFilePath path := by
    intro hmem
    rcases mem_normalizeFilePath h hmem with heq | hmem
    · cases heq
    · exact (notMem_slashed path).1 hmem
  have hsingle : ¬[47, 47] <:+: normalizeFilePath path := by
    rintro ⟨front, back, heq⟩
    have hsplit : normalizeFilePath path = front ++ 47 :: (47 :: back) := by
      rw [← heq]
      simp
    apply nil_notMem_of_split h hsplit
    rw [List.splitOn_cons_eq_if_modifyHead]
    exact List.mem_cons_self
  have hend : (normalizeFilePath path).getLast? ≠ some 47 := by
    intro hlast
    obtain ⟨front, hsplit⟩ := List.getLast?_eq_some_iff.mp hlast
    apply nil_notMem_of_split h hsplit
    exact List.mem_singleton_self []
  have hagain : normalizeFilePath (normalizeFilePath path) = normalizeFilePath path := by
    have hsame : (slashed (normalizeFilePath path)).splitOn 47 =
        first :: rest.filter (· ≠ []) := by
      rw [slashed_normalizeFilePath h, hparts]
    rw [normalizeFilePath_eq hsame, List.filter_filter, normalizeFilePath_eq h]
    simp only [Bool.and_self]
  exact ⟨hnames, hback, hsingle, fun hlast => absurd hlast hend, habsolute, hagain⟩

end

theorem mem_slashed_iff : (∃ b ∈ slashed path, b ≠ 47) ↔ ∃ b ∈ cstr path, b ≠ 47 ∧ b ≠ 92 := by
  constructor
  · rintro ⟨b, hb, hne⟩
    obtain ⟨c, hc, rfl⟩ := List.mem_map.mp hb
    by_cases hback : c = 92
    · exact absurd (if_pos hback) hne
    · rw [if_neg hback] at hne
      exact ⟨c, hc, hne, hback⟩
  · rintro ⟨b, hb, hne, hback⟩
    exact ⟨b, List.mem_map.mpr ⟨b, hb, if_neg hback⟩, hne⟩

-- The root and its spellings lose their slash; every other path is normalized.
theorem normalizes_iff (path : Bytes) :
    Normalizes path ↔ cstr path = [] ∨ ∃ b ∈ cstr path, b ≠ 47 ∧ b ≠ 92 := by
  obtain ⟨first, rest, h⟩ := List.exists_cons_of_ne_nil (List.splitOn_ne_nil 47 (slashed path))
  have hnames : components (slashed path) = [] ↔ first = [] ∧ rest.filter (· ≠ []) = [] := by
    rw [components, h, List.filter_cons]
    by_cases hfirst : first = [] <;> simp [hfirst]
  have hempty : cstr path = [] ↔ slashed path = [] := (List.map_eq_nil_iff).symm
  rw [normalizes_iff_isAbsolute h, Bool.eq_iff_iff, isAbsolute_iff (splitOn_normalizeFilePath h),
    isAbsolute_iff h, ← mem_slashed_iff, hempty]
  by_cases hall : ∀ b ∈ slashed path, b = 47
  · -- only slashes: the path is absolute, and what is left of it is not
    obtain ⟨rfl, hrest⟩ := hnames.mp (components_eq_nil_iff.mpr hall)
    have hnone : ¬∃ b ∈ slashed path, b ≠ 47 := fun ⟨b, hb, hne⟩ => hne (hall b hb)
    have hnil : rest = [] ↔ slashed path = [] := by
      constructor
      · rintro rfl
        have hpath : slashed path = [47].intercalate ((slashed path).splitOn 47) :=
          (List.intercalate_splitOn 47).symm
        rw [h] at hpath
        exact hpath
      · intro hpath
        rw [hpath, List.splitOn_nil] at h
        exact (List.cons.inj h).2.symm
    rw [or_iff_left hnone, ← hnil, hrest]
    simp
  · have hnot : ¬(first = [] ∧ rest.filter (· ≠ []) = []) :=
      fun hboth => hall (components_eq_nil_iff.mp (hnames.mpr hboth))
    push Not at hall
    refine iff_of_true ?_ (.inr hall)
    constructor
    · rintro ⟨hfirst, hne⟩
      refine ⟨hfirst, ?_⟩
      rintro rfl
      exact hne rfl
    · rintro ⟨hfirst, -⟩
      exact ⟨hfirst, fun hnil => hnot ⟨hfirst, hnil⟩⟩

-- `/` becomes the empty path.
theorem not_normalizes_root : ¬∀ path : Bytes, Normalizes path := by
  intro hall
  have hroot : normalizeFilePath [47] = [] := by decide
  have habsolute := (hall [47]).2.2.2.2.1
  rw [hroot] at habsolute
  have hslash : isAbsolute (slashed [47]) = true := by decide
  rw [hslash] at habsolute
  cases habsolute

end AsrServiceProxy.FileUtil

import AsrServiceProxy.Utils.FileUtil.Paths

-- Paths that are put together from names, and where the file system looks for them.
namespace AsrServiceProxy.FileUtil

open CMemory StringUtil

-- The start of a path that is put together again: the root, or nothing, and names.
def spelled (absolute : Bool) (names : List Bytes) : Bytes :=
  (if absolute then [47] else []) ++ names.flatMap (· ++ [47])

structure IsName (name : Bytes) : Prop where
  ne_nil : name ≠ []
  slash : 47 ∉ name
  backslash : 92 ∉ name
  nul : 0 ∉ name

section

variable {absolute : Bool} {names : List Bytes} {tail : Bytes}

theorem splitOn_spelled (absolute : Bool) (hnames : ∀ name ∈ names, IsName name) (htail : 47 ∉ tail) :
    (spelled absolute names ++ tail).splitOn 47 =
      (if absolute then [[]] else []) ++ (names ++ [tail]) := by
  have hrelative : (names.flatMap (· ++ [47]) ++ tail).splitOn 47 = names ++ [tail] := by
    induction names with
    | nil => exact List.splitOn_eq_singleton htail
    | cons name names ih =>
        obtain ⟨hname, hrest⟩ := List.forall_mem_cons.mp hnames
        rw [List.flatMap_cons, List.append_assoc, List.append_assoc, List.singleton_append,
          List.splitOn_append_cons_self, List.splitOn_eq_singleton hname.slash, ih hrest,
          List.singleton_append, List.cons_append]
  rw [spelled, List.append_assoc]
  cases absolute
  · exact hrelative
  · show (47 :: (names.flatMap (· ++ [47]) ++ tail)).splitOn 47 = [] :: (names ++ [tail])
    rw [List.splitOn_cons_eq_if_modifyHead, if_pos BEq.rfl, hrelative]

theorem components_spelled (absolute : Bool) (hnames : ∀ name ∈ names, IsName name) (htail : 47 ∉ tail) :
    components (spelled absolute names ++ tail) = names ++ [tail].filter (· ≠ []) := by
  have hself : names.filter (· ≠ []) = names :=
    List.filter_eq_self.mpr fun name hname => decide_eq_true (hnames name hname).ne_nil
  rw [components, splitOn_spelled absolute hnames htail, List.filter_append, List.filter_append,
    hself]
  cases absolute <;> rfl

theorem isAbsolute_spelled (absolute : Bool) (hnames : ∀ name ∈ names, IsName name) (htail : 47 ∉ tail) :
    isAbsolute (spelled absolute names ++ tail) = absolute := by
  have hsplit := splitOn_spelled absolute hnames htail
  cases absolute with
  | true =>
      apply (isAbsolute_iff hsplit).mpr
      exact ⟨rfl, List.concat_ne_nil _ _⟩
  | false =>
      apply Bool.eq_false_iff.mpr
      intro htrue
      cases names with
      | nil => exact ((isAbsolute_iff hsplit).mp htrue).2 rfl
      | cons name names =>
          have hname := hnames name List.mem_cons_self
          exact hname.ne_nil ((isAbsolute_iff hsplit).mp htrue).1

theorem parts_spelled (absolute : Bool) (hnames : ∀ name ∈ names, IsName name) :
    (spelled absolute names).splitOn 47 = (if absolute then [[]] else []) ++ (names ++ [[]]) ∧
      isAbsolute (spelled absolute names) = absolute ∧
      components (spelled absolute names) = names := by
  have hsplit := splitOn_spelled absolute hnames List.not_mem_nil
  have habsolute := isAbsolute_spelled absolute hnames List.not_mem_nil
  have hcomponents := components_spelled absolute hnames List.not_mem_nil
  rw [List.append_nil] at hsplit habsolute hcomponents
  rw [List.filter_cons_of_neg (by simp), List.filter_nil, List.append_nil] at hcomponents
  exact ⟨hsplit, habsolute, hcomponents⟩

theorem slashed_spelled (absolute : Bool) (hnames : ∀ name ∈ names, IsName name) :
    cstr (spelled absolute names) = spelled absolute names ∧
      slashed (spelled absolute names) = spelled absolute names := by
  have hnot : 0 ∉ spelled absolute names ∧ 92 ∉ spelled absolute names := by
    constructor <;> intro hmem <;> rcases List.mem_append.mp hmem with hmem | hmem
    · cases absolute <;> simp at hmem
    · obtain ⟨name, hname, hmem⟩ := List.mem_flatMap.mp hmem
      exact (hnames name hname).nul (by simpa using hmem)
    · cases absolute <;> simp at hmem
    · obtain ⟨name, hname, hmem⟩ := List.mem_flatMap.mp hmem
      exact (hnames name hname).backslash (by simpa using hmem)
  exact ⟨(cstr_eq_self_iff _).mpr hnot.1, slashed_eq_self hnot.1 hnot.2⟩

end

namespace FileSystem

-- The directory that the names of a path are looked for in.
def base (fs : FileSystem) (absolute : Bool) : List Bytes := if absolute then [] else fs.cwd

theorem dir_base (fs : FileSystem) (absolute : Bool) :
    fs.tree.entry (fs.base absolute) = some .dir := by
  cases absolute
  · exact fs.cwd_dir
  · exact fs.tree.root_dir

theorem locate_eq (fs : FileSystem) (path : Bytes) :
    fs.locate path = fs.base (isAbsolute path) ++ components path := by
  rw [locate, base]
  split <;> rfl

theorem locate_of_cwd {fs fs' : FileSystem} (h : fs'.cwd = fs.cwd) (path : Bytes) :
    fs'.locate path = fs.locate path := by
  rw [locate, locate, h]

end FileSystem

theorem stat_of_dir {fs : FileSystem} {path : Bytes} (hne : path ≠ [])
    (h : fs.tree.entry (fs.locate path) = some .dir) : fs.stat path = some .dir := by
  rw [FileSystem.stat, if_neg hne, h]

theorem stat_of_none {fs : FileSystem} {path : Bytes}
    (h : fs.tree.entry (fs.locate path) = none) : fs.stat path = none := by
  rw [FileSystem.stat, h]
  exact ite_self none

theorem mkdir_eq_some {fs fs' : FileSystem} {path : Bytes} (h : fs.mkdir path = some fs') :
    fs.tree.mkdir (fs.locate path) = some fs'.tree ∧ fs'.cwd = fs.cwd := by
  unfold FileSystem.mkdir at h
  split at h
  · cases h
  · split at h
    · cases h
    next tree hmkdir =>
      rw [← Option.some.inj h]
      exact ⟨hmkdir, rfl⟩

theorem makeDir_cases (parent : Bool × FileSystem) (path : Bytes) :
    makeDir parent path = (false, parent.2) ∨
      parent.1 = true ∧ ∃ fs', parent.2.mkdir path = some fs' ∧ makeDir parent path = (true, fs') := by
  unfold makeDir
  split
  next hret =>
    cases hmkdir : parent.2.mkdir path with
    | none => exact .inl rfl
    | some fs' => exact .inr ⟨hret, fs', rfl, rfl⟩
  next => exact .inl rfl

theorem mkdir_of_free (fs : FileSystem) {path : Bytes} (hne : path ≠ [])
    (hfree : fs.tree.entry (fs.locate path) = none)
    (hparent : fs.tree.entry (fs.locate path).dropLast = some .dir) :
    ∃ fs', fs.mkdir path = some fs' := by
  obtain ⟨tree', hmkdir⟩ := FileTree.mkdir_of_free hfree hparent
  unfold FileSystem.mkdir
  rw [if_neg hne]
  split
  next hnone =>
    rw [hmkdir] at hnone
    cases hnone
  next => exact ⟨_, rfl⟩

-- With a slash at the end only a directory is found.
theorem stat_spelled (fs : FileSystem) {absolute : Bool} {names : List Bytes}
    (hnames : ∀ name ∈ names, IsName name) (hne : spelled absolute names ≠ []) :
    fs.stat (spelled absolute names) =
      if fs.tree.entry (fs.base absolute ++ names) = some .dir then some .dir else none := by
  have hlocate : fs.locate (spelled absolute names) = fs.base absolute ++ names := by
    obtain ⟨-, habsolute, hcomponents⟩ := parts_spelled absolute hnames
    rw [FileSystem.locate_eq, habsolute, hcomponents]
  have hlast : (spelled absolute names).getLast? = some 47 := by
    cases names using List.reverseRecOn with
    | nil =>
        cases absolute
        · contradiction
        · rfl
    | append_singleton names name _ =>
        rw [spelled, List.flatMap_append, List.flatMap_singleton]
        simp
  rw [FileSystem.stat, if_neg hne, hlocate]
  cases fs.tree.entry (fs.base absolute ++ names) with
  | none => rfl
  | some kind =>
      cases kind
      · rfl
      · exact if_pos hlast

end AsrServiceProxy.FileUtil

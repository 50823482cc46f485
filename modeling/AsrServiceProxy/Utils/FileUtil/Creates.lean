import AsrServiceProxy.Utils.FileUtil.Directories

-- Which paths `create_dir_if_not_exist` makes directories of.
namespace AsrServiceProxy.FileUtil

open CMemory StringUtil

variable {fs fs' : FileSystem} {path dirName : Bytes} {front blanks : List Bytes} {n : ℕ}

-- The call returns, keeps what there is, and does not return true without the directory;
-- then a second call returns true as well.
def Creates (fs : FileSystem) (path : Bytes) : Prop :=
  ∃ rounds ret fs', createDirIfNotExist rounds fs path = some (ret, fs') ∧
    (ret = true → fs'.stat (slashed path) = some .dir) ∧
    fs.tree.Extends fs'.tree ∧
    (ret = true → ∃ rounds' fs'', createDirIfNotExist rounds' fs' path = some (true, fs''))

-- The call returns true without making a directory.
def FindsDir (fs : FileSystem) (path : Bytes) : Prop :=
  fs.stat (cstr path) = some .dir ∨
    fs.stat (cstr path) = none ∧ ∀ part ∈ (slashed path).splitOn 47, isEmpty part = true

-- Nothing is at the path, nor at the place of the directory, and the ones above are there
-- or can be made.
def MakesDirectory (fs : FileSystem) (path : Bytes) (front : List Bytes) (dirName : Bytes) : Prop :=
  fs.stat (cstr path) = none ∧
    fs.Makeable (isAbsolute (slashed path)) (front.filter (· ≠ [])) ∧
    fs.tree.entry (fs.locate (joinParts front ++ dirName)) = none

theorem createDir_of_findsDir (h : FindsDir fs path) {made : Bool × FileSystem}
    (hcall : createDirIfNotExist n fs path = some made) : made = (true, fs) := by
  cases n with
  | zero => cases hcall
  | succ n =>
      rcases h with hstat | ⟨hstat, hblank⟩
      · rw [createDir_of_stat hstat] at hcall
        exact (Option.some.inj hcall).symm
      · rw [createDir_of_blank hstat hblank] at hcall
        exact (Option.some.inj hcall).symm

namespace PathParts

variable (hparts : PathParts path front dirName blanks)

include hparts

theorem call (hstat : fs.stat (cstr path) = none) {made : Bool × FileSystem}
    (hcall : createDirIfNotExist n fs path = some made) :
    Made fs (fs.locate (joinParts front ++ dirName))
      (fs.Makeable (isAbsolute (slashed path)) (front.filter (· ≠ []))) made := by
  exact callMakes n fs path front dirName blanks made hparts hstat hcall

variable {makeable : Prop}

-- The new directory is the path with slashes when no blank name stands behind it.
theorem stat_slashed_iff {made : FileSystem}
    (hmade : Made fs (fs.locate (joinParts front ++ dirName)) makeable (true, made)) :
    made.stat (slashed path) = some .dir ↔ ∀ blank ∈ blanks, blank = [] := by
  have hne : slashed path ≠ [] := by
    intro hnil
    have hcomponents := hparts.components_eq
    rw [hnil] at hcomponents
    exact List.append_ne_nil_of_right_ne_nil _ (List.cons_ne_nil _ _) hcomponents.symm
  have hlocate : made.locate (slashed path) =
      fs.locate (joinParts front ++ dirName) ++ blanks.filter (· ≠ []) := by
    rw [FileSystem.locate_of_cwd hmade.cwd, hparts.locate_dir, FileSystem.locate_eq,
      hparts.components_eq]
    simp
  constructor
  · intro hstat
    by_contra hblanks
    have hkept : blanks.filter (· ≠ []) ≠ [] := by
      intro hnil
      apply hblanks
      intro blank hmem
      simpa using List.filter_eq_nil_iff.mp hnil blank hmem
    have hnone : made.stat (slashed path) = none := by
      apply stat_of_none
      rw [hlocate, hmade.same _ fun hbegins => ?_]
      · exact fs.tree.none_of_above (hmade.made_iff.mp rfl).2
      · have hlength := hbegins.length_le
        have hpos := List.length_pos_of_ne_nil hkept
        rw [List.length_append] at hlength
        omega
    rw [hnone] at hstat
    cases hstat
  · intro hblanks
    have hkept : blanks.filter (· ≠ []) = [] :=
      List.filter_eq_nil_iff.mpr fun blank hmem => by simp [hblanks blank hmem]
    apply stat_of_dir hne
    rw [hlocate, hkept, List.append_nil]
    exact hmade.dir rfl

-- A name with a backslash is not among the directories that are made.
theorem stat_of_backslash {made : Bool × FileSystem} (hback : 92 ∈ cstr path)
    (hmade : Made fs (fs.locate (joinParts front ++ dirName)) makeable made) :
    made.2.stat (cstr path) = fs.stat (cstr path) := by
  obtain ⟨name, hname, hmem⟩ := exists_component hback (by decide)
  have hnot : name ∉ front.filter (· ≠ []) ++ [dirName] := by
    intro hin
    rcases List.mem_append.mp hin with hin | hin
    · exact (hparts.isName_front name hin).backslash hmem
    · rw [List.mem_singleton.mp hin] at hmem
      exact hparts.isName_dirName.backslash hmem
  have hlocate := FileSystem.locate_of_cwd hmade.cwd (cstr path)
  have hentry : made.2.tree.entry (fs.locate (cstr path)) = fs.tree.entry (fs.locate (cstr path)) := by
    apply hmade.same
    intro hbegins
    rw [hparts.locate_dir, FileSystem.locate_eq] at hbegins
    cases hslashed : isAbsolute (slashed path) with
    | true =>
        rw [hslashed] at hbegins
        exact hnot (hbegins.subset (List.mem_append_right _ hname))
    | false =>
        rw [isAbsolute_of_slashed hslashed, hslashed] at hbegins
        exact hnot (((List.prefix_append_right_inj _).mp hbegins).subset hname)
  rw [FileSystem.stat, FileSystem.stat, hlocate, hentry]

end PathParts

theorem exists_parts_of_true (hfound : ¬FindsDir fs path)
    (hcall : createDirIfNotExist n fs path = some (true, fs')) :
    ∃ front dirName blanks, PathParts path front dirName blanks ∧
      MakesDirectory fs path front dirName ∧ Made fs (fs.locate (joinParts front ++ dirName))
        (fs.Makeable (isAbsolute (slashed path)) (front.filter (· ≠ []))) (true, fs') := by
  cases hstat : fs.stat (cstr path) with
  | some kind =>
      cases n with
      | zero => cases hcall
      | succ n =>
          rw [createDir_of_stat hstat] at hcall
          have hkind := congrArg Prod.fst (Option.some.inj hcall)
          rw [of_decide_eq_true hkind] at hstat
          exact absurd (.inl hstat) hfound
  | none =>
      rcases pathParts_or_blank path with hblank | ⟨front, dirName, blanks, hparts⟩
      · exact absurd (.inr ⟨hstat, hblank⟩) hfound
      · have hmade := hparts.call hstat hcall
        exact ⟨front, dirName, blanks, hparts, ⟨hstat, hmade.made_iff.mp rfl⟩, hmade⟩

theorem creates_of (hfinds : FindsDir fs path → fs.stat (slashed path) = some .dir)
    (hmakes : ∀ front dirName blanks, PathParts path front dirName blanks →
      MakesDirectory fs path front dirName → 92 ∉ cstr path ∧ ∀ blank ∈ blanks, blank = []) :
    Creates fs path := by
  obtain ⟨rounds, ⟨ret, fs'⟩, hcall⟩ := exists_createDir fs path
  have htrue : ret = true → fs'.stat (slashed path) = some .dir ∧
      ∃ rounds' fs'', createDirIfNotExist rounds' fs' path = some (true, fs'') := by
    rintro rfl
    by_cases hfound : FindsDir fs path
    · obtain ⟨-, rfl⟩ := Prod.mk.inj (createDir_of_findsDir hfound hcall)
      exact ⟨hfinds hfound, rounds, fs', hcall⟩
    · obtain ⟨front, dirName, blanks, hparts, hmakesDir, hmade⟩ := exists_parts_of_true hfound hcall
      obtain ⟨hback, hblanks⟩ := hmakes front dirName blanks hparts hmakesDir
      have hstat := (hparts.stat_slashed_iff hmade).mpr hblanks
      have hagain : fs'.stat (cstr path) = some .dir := by
        rw [← slashed_eq_cstr hback]
        exact hstat
      exact ⟨hstat, 1, fs', createDir_of_stat hagain⟩
  exact ⟨rounds, ret, fs', hcall, fun hret => (htrue hret).1, (createDir_extends hcall).1,
    fun hret => (htrue hret).2⟩

-- A path without backslashes whose last name is not blank is made or found in every file
-- system.
theorem creates_of_plain (fs : FileSystem) (hback : 92 ∉ cstr path) {name : Bytes}
    (hlast : (components (cstr path)).getLast? = some name) (hname : isEmpty name = false) :
    Creates fs path := by
  have heq := slashed_eq_cstr hback
  apply creates_of
  · rintro (hstat | ⟨-, hblank⟩)
    · rw [heq]
      exact hstat
    · have hmem : name ∈ (slashed path).splitOn 47 := by
        rw [heq]
        exact List.mem_of_mem_filter (List.mem_of_getLast? hlast)
      rw [hblank name hmem] at hname
      cases hname
  · intro front dirName blanks hparts _
    refine ⟨hback, fun blank hblank => ?_⟩
    by_contra hne
    have hkept : blanks.filter (· ≠ []) ≠ [] :=
      List.ne_nil_of_mem (List.mem_filter.mpr ⟨hblank, decide_eq_true hne⟩)
    obtain ⟨kept, other, hconcat⟩ := (List.eq_nil_or_concat' _).resolve_left hkept
    have hother : isEmpty other = true := by
      apply hparts.isEmpty_blanks
      apply List.mem_of_mem_filter (p := (· ≠ []))
      rw [hconcat]
      exact List.mem_append_right _ (List.mem_singleton_self other)
    rw [← heq, hparts.components_eq, hconcat, ← List.cons_append, ← List.append_assoc,
      List.getLast?_concat, Option.some.injEq] at hlast
    rw [← hlast, hother] at hname
    cases hname

-- A directory that is found has to be one of the path with slashes too; one is made of a path
-- only without backslashes and without a blank name at its end.
theorem creates_iff (fs : FileSystem) (path : Bytes) : Creates fs path ↔
    (FindsDir fs path → fs.stat (slashed path) = some .dir) ∧
    ∀ front dirName blanks, PathParts path front dirName blanks →
      MakesDirectory fs path front dirName → 92 ∉ cstr path ∧ ∀ blank ∈ blanks, blank = [] := by
  constructor
  · intro ⟨rounds, ret, fs', hcall, hdir, _, hagain⟩
    constructor
    · intro hfinds
      obtain ⟨rfl, rfl⟩ := Prod.mk.inj (createDir_of_findsDir hfinds hcall)
      exact hdir rfl
    · intro front dirName blanks hparts ⟨hstat, hmakeable, hfree⟩
      have hmade := hparts.call hstat hcall
      obtain rfl : ret = true := hmade.made_iff.mpr ⟨hmakeable, hfree⟩
      refine ⟨fun hback => ?_, (hparts.stat_slashed_iff hmade).mp (hdir rfl)⟩
      -- the second call finds the directory where it would make it
      obtain ⟨rounds', fs'', hcall'⟩ := hagain rfl
      have hstat' := (hparts.stat_of_backslash hback hmade).trans hstat
      have hfree' := ((hparts.call hstat' hcall').made_iff.mp rfl).2
      have hdir' := hmade.dir rfl
      rw [FileSystem.locate_of_cwd hmade.cwd, hdir'] at hfree'
      cases hfree'
  · exact fun ⟨hfinds, hmakes⟩ => creates_of hfinds hmakes

-- A blank name is said to be made, and is not.
theorem not_creates_blank : ¬∀ (fs : FileSystem) (path : Bytes), Creates fs path := by
  intro hall
  let fs : FileSystem := ⟨FileTree.ofPath [], [], FileTree.root_dir _⟩
  obtain ⟨rounds, ret, fs', hcall, hdir, -⟩ := hall fs [32]
  have hblank : isEmpty [32] = true := by
    rw [isEmpty, Bool.or_eq_true]
    exact .inr rfl
  have hsplit : (slashed [32]).splitOn 47 = [[32]] := by decide
  have hstat : fs.stat [32] = none := by
    apply stat_of_none
    show (FileTree.ofPath []).entry _ = none
    rw [FileTree.entry_ofPath]
    decide
  have hmade := createDir_of_findsDir (.inr ⟨hstat, ?_⟩) hcall
  · obtain ⟨rfl, rfl⟩ := Prod.mk.inj hmade
    have hdir := hdir rfl
    rw [show slashed [32] = [32] by decide, hstat] at hdir
    cases hdir
  · rw [hsplit]
    exact List.forall_mem_singleton.mpr hblank

end AsrServiceProxy.FileUtil

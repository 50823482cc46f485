import AsrServiceProxy.Utils.FileUtil.Spelled

-- Calls of `create_dir_if_not_exist`: what one returns, and what it leaves of the tree.
namespace AsrServiceProxy.FileUtil

open CMemory StringUtil

-- The parts of the path: those in front of the last one that is not blank.
structure PathParts (path : Bytes) (front : List Bytes) (dirName : Bytes) (blanks : List Bytes) :
    Prop where
  split_eq : (slashed path).splitOn 47 = front ++ dirName :: blanks
  isEmpty_dirName : isEmpty dirName = false
  isEmpty_blanks : ∀ part ∈ blanks, isEmpty part = true

theorem pathParts_or_blank (path : Bytes) :
    (∀ part ∈ (slashed path).splitOn 47, isEmpty part = true) ∨
      ∃ front dirName blanks, PathParts path front dirName blanks := by
  have hsplit := List.rdropWhile_append_rtakeWhile (p := isEmpty) (l := (slashed path).splitOn 47)
  cases hkept : ((slashed path).splitOn 47).rdropWhile isEmpty using List.reverseRecOn with
  | nil => exact .inl (List.rdropWhile_eq_nil_iff.mp hkept)
  | append_singleton front dirName ih =>
      rw [hkept, List.append_assoc] at hsplit
      have hlast := List.rdropWhile_last_not isEmpty ((slashed path).splitOn 47)
        (by rw [hkept]; exact List.concat_ne_nil _ _)
      refine .inr ⟨front, dirName, _, hsplit.symm, ?_, fun part hpart => List.mem_rtakeWhile_imp hpart⟩
      simpa [hkept] using hlast

variable {fs fs' : FileSystem} {path dirName : Bytes} {front blanks : List Bytes} {n : ℕ}

theorem createDir_of_stat {kind : FileKind} (h : fs.stat (cstr path) = some kind) :
    createDirIfNotExist (n + 1) fs path = some (decide (kind = .dir), fs) := by
  rw [createDirIfNotExist, h]

theorem createDir_of_blank (h : fs.stat (cstr path) = none)
    (hblank : ∀ part ∈ (slashed path).splitOn 47, isEmpty part = true) :
    createDirIfNotExist (n + 1) fs path = some (true, fs) := by
  have hnil : ((slashed path).splitOn 47).reverse.dropWhile isEmpty = [] :=
    List.dropWhile_eq_nil_iff.mpr fun part hpart => hblank part (List.mem_reverse.mp hpart)
  rw [createDirIfNotExist, h, split_eq_splitOn]
  dsimp only
  rw [hnil]

theorem PathParts.createDir_eq (hparts : PathParts path front dirName blanks)
    (h : fs.stat (cstr path) = none) :
    createDirIfNotExist (n + 1) fs path =
      (if joinParts front = [] then some (true, fs)
        else createDirIfNotExist n fs (joinParts front)).map fun parent =>
          makeDir parent (joinParts front ++ dirName) := by
  have hcons : ((slashed path).splitOn 47).reverse.dropWhile isEmpty = dirName :: front.reverse := by
    rw [hparts.split_eq, List.reverse_append, List.reverse_cons, List.append_assoc,
      List.dropWhile_append_of_pos fun part hpart =>
        hparts.isEmpty_blanks part (List.mem_reverse.mp hpart),
      List.singleton_append, List.dropWhile_cons_of_neg (by simp [hparts.isEmpty_dirName])]
  rw [createDirIfNotExist, h, split_eq_splitOn]
  dsimp only
  rw [hcons]
  dsimp only
  rw [List.reverse_reverse]

-- Nothing is removed, and the working directory stays the same.
theorem createDir_extends {n : ℕ} {fs fs' : FileSystem} {path : Bytes} {ret : Bool}
    (h : createDirIfNotExist n fs path = some (ret, fs')) :
    fs.tree.Extends fs'.tree ∧ fs'.cwd = fs.cwd := by
  induction n generalizing fs fs' path ret with
  | zero => cases h
  | succ n ih =>
      cases hstat : fs.stat (cstr path) with
      | some kind =>
          rw [createDir_of_stat hstat] at h
          cases h
          exact ⟨FileTree.Extends.refl _, rfl⟩
      | none =>
          rcases pathParts_or_blank path with hblank | ⟨front, dirName, blanks, hparts⟩
          · rw [createDir_of_blank hstat hblank] at h
            cases h
            exact ⟨FileTree.Extends.refl _, rfl⟩
          · rw [hparts.createDir_eq hstat] at h
            obtain ⟨parent, hparent, hmake⟩ := Option.map_eq_some_iff.mp h
            have hbefore : fs.tree.Extends parent.2.tree ∧ parent.2.cwd = fs.cwd := by
              split at hparent
              · cases hparent
                exact ⟨FileTree.Extends.refl _, rfl⟩
              · exact ih hparent
            rcases makeDir_cases parent (joinParts front ++ dirName) with heq | ⟨-, fs₁, hmkdir, heq⟩
            · rw [heq] at hmake
              cases hmake
              exact hbefore
            · rw [heq] at hmake
              cases hmake
              obtain ⟨htree, hcwd⟩ := mkdir_eq_some hmkdir
              exact ⟨hbefore.1.trans (FileTree.extends_mkdir htree), hcwd.trans hbefore.2⟩

namespace PathParts

variable (hparts : PathParts path front dirName blanks)

include hparts

theorem isName_of_mem {part : Bytes} (h : part ∈ front ∨ part = dirName) (hne : part ≠ []) :
    IsName part := by
  have hmem : part ∈ (slashed path).splitOn 47 := by
    rw [hparts.split_eq]
    rcases h with h | rfl
    · exact List.mem_append_left _ h
    · exact List.mem_append_right _ List.mem_cons_self
  obtain ⟨hslash, hsubset⟩ := mem_splitOn hmem
  obtain ⟨hback, hz⟩ := notMem_slashed path
  exact ⟨hne, hslash, fun hb => hback (hsubset hb), fun hb => hz (hsubset hb)⟩

theorem isName_dirName : IsName dirName := by
  apply hparts.isName_of_mem (.inr rfl)
  rintro rfl
  cases hparts.isEmpty_dirName.symm.trans isEmpty_nil

theorem isName_front : ∀ name ∈ front.filter (· ≠ []), IsName name := by
  intro name hname
  have hne : name ≠ [] := by simpa using List.of_mem_filter hname
  exact hparts.isName_of_mem (.inl (List.mem_of_mem_filter hname)) hne

theorem components_eq : components (slashed path) =
    front.filter (· ≠ []) ++ dirName :: blanks.filter (· ≠ []) := by
  rw [components, hparts.split_eq, List.filter_append,
    List.filter_cons_of_pos (by simpa using hparts.isName_dirName.ne_nil)]

theorem joinParts_eq :
    joinParts front = spelled (isAbsolute (slashed path)) (front.filter (· ≠ [])) := by
  have hsplit := hparts.split_eq
  cases front with
  | nil =>
      have hrelative : isAbsolute (slashed path) = false := by
        apply Bool.eq_false_iff.mpr
        intro htrue
        exact hparts.isName_dirName.ne_nil ((isAbsolute_iff hsplit).mp htrue).1
      rw [hrelative]
      rfl
  | cons first rest =>
      have habsolute := isAbsolute_iff hsplit
      rw [joinParts_cons, intercalate_concat]
      by_cases hfirst : first = []
      · rw [habsolute.mpr ⟨hfirst, List.append_ne_nil_of_right_ne_nil _ (List.cons_ne_nil _ _)⟩,
          List.filter_cons_of_neg (by simpa using hfirst), hfirst]
        rfl
      · rw [Bool.eq_false_iff.mpr fun htrue => hfirst (habsolute.mp htrue).1,
          List.filter_cons_of_pos (by simpa using hfirst)]
        rfl

-- The directory that is made.
theorem locate_dir (fs : FileSystem) : fs.locate (joinParts front ++ dirName) =
    fs.base (isAbsolute (slashed path)) ++ (front.filter (· ≠ []) ++ [dirName]) := by
  have hnames := hparts.isName_front
  have hslash := hparts.isName_dirName.slash
  rw [hparts.joinParts_eq, FileSystem.locate_eq, isAbsolute_spelled _ hnames hslash,
    components_spelled _ hnames hslash,
    List.filter_cons_of_pos (by simpa using hparts.isName_dirName.ne_nil), List.filter_nil]

end PathParts

-- A directory is made when its name is not blank.
def FileSystem.Makeable (fs : FileSystem) (absolute : Bool) (names : List Bytes) : Prop :=
  fs.tree.Makeable (fun name => isEmpty name = false) (fs.base absolute) names

section

variable {absolute : Bool} {names : List Bytes}

-- What is known after the directories above the new one are made.
structure ParentMade (fs : FileSystem) (absolute : Bool) (names : List Bytes)
    (parent : Bool × FileSystem) : Prop where
  made_iff : parent.1 = true ∧ parent.2.tree.entry (fs.base absolute ++ names) = some .dir ↔
    fs.Makeable absolute names
  same : fs.tree.SameBeside parent.2.tree (fs.base absolute ++ names)
  cwd : parent.2.cwd = fs.cwd

structure Made (fs : FileSystem) (location : List Bytes) (makeable : Prop)
    (made : Bool × FileSystem) : Prop where
  made_iff : made.1 = true ↔ makeable ∧ fs.tree.entry location = none
  dir : made.1 = true → made.2.tree.entry location = some .dir
  same : fs.tree.SameBeside made.2.tree location
  cwd : made.2.cwd = fs.cwd

-- The directory is made when the ones above are there or can be made.
theorem ParentMade.makeDir {parent : Bool × FileSystem} (hparent : ParentMade fs absolute names parent)
    {dir dirName : Bytes} (hne : dir ≠ [])
    (hlocate : parent.2.locate dir = fs.base absolute ++ (names ++ [dirName])) :
    Made fs (fs.base absolute ++ (names ++ [dirName])) (fs.Makeable absolute names)
      (makeDir parent dir) := by
  have hsame : fs.tree.SameBeside parent.2.tree (fs.base absolute ++ (names ++ [dirName])) := by
    rw [← List.append_assoc]
    exact hparent.same.below [dirName]
  have hfree : parent.2.tree.entry (fs.base absolute ++ (names ++ [dirName])) =
      fs.tree.entry (fs.base absolute ++ (names ++ [dirName])) := by
    apply hparent.same
    intro hbegins
    have hlength := hbegins.length_le
    simp only [List.length_append, List.length_singleton] at hlength
    omega
  have habove : (fs.base absolute ++ (names ++ [dirName])).dropLast = fs.base absolute ++ names := by
    rw [← List.append_assoc, List.dropLast_concat]
  have hmade : fs.Makeable absolute names →
      fs.tree.entry (fs.base absolute ++ (names ++ [dirName])) = none →
      (FileUtil.makeDir parent dir).1 = true := by
    intro hmakeable hnone
    obtain ⟨hret, hdir⟩ := hparent.made_iff.mpr hmakeable
    obtain ⟨fs', hmkdir⟩ := mkdir_of_free parent.2 hne
      (by rw [hlocate, hfree, hnone]) (by rw [hlocate, habove, hdir])
    rw [FileUtil.makeDir, if_pos hret, hmkdir]
  rcases makeDir_cases parent dir with heq | ⟨hret, fs', hmkdir, heq⟩
  · rw [heq] at hmade ⊢
    refine ⟨iff_of_false Bool.false_ne_true fun hboth => ?_, nofun, hsame, hparent.cwd⟩
    cases hmade hboth.1 hboth.2
  · obtain ⟨htree, hcwd⟩ := mkdir_eq_some hmkdir
    rw [hlocate] at htree
    obtain ⟨hnone, hdir, hentry⟩ := FileTree.mkdir_eq_some htree
    rw [habove] at hdir
    rw [heq]
    refine ⟨iff_of_true rfl ⟨hparent.made_iff.mp ⟨hret, hdir⟩, hfree.symm.trans hnone⟩,
      fun _ => ?_, fun other hother => ?_, hcwd.trans hparent.cwd⟩
    · rw [hentry, if_pos rfl]
    · have hne : other ≠ fs.base absolute ++ (names ++ [dirName]) := by
        rintro rfl
        exact hother (List.prefix_refl _)
      rw [hentry, if_neg hne]
      exact hsame other hother

theorem not_makeable_blank {name : Bytes}
    (hdir : fs.tree.entry (fs.base absolute ++ (names ++ [name])) ≠ some .dir)
    (hblank : isEmpty name = true) : ¬fs.Makeable absolute (names ++ [name]) := by
  intro hmakeable
  rcases (FileTree.makeable_concat.mp hmakeable).2 with hentry | ⟨-, hnot⟩
  · exact hdir hentry
  · rw [hblank] at hnot
    cases hnot

-- The call one level down makes the directories above, unless a blank name is missing there.
theorem Made.parentMade {above kept : List Bytes} {dirName : Bytes} {made : Bool × FileSystem}
    (hmade : Made fs (fs.base absolute ++ (above ++ [dirName])) (fs.Makeable absolute above) made)
    (heq : names = above ++ dirName :: kept) (hdirName : isEmpty dirName = false)
    (hblank : ∀ blank ∈ kept, isEmpty blank = true)
    (hdir : fs.tree.entry (fs.base absolute ++ names) ≠ some .dir) :
    ParentMade fs absolute names made := by
  cases kept using List.reverseRecOn with
  | nil =>
      have hiff : fs.Makeable absolute names ↔ fs.Makeable absolute above ∧
          fs.tree.entry (fs.base absolute ++ names) = none := by
        rw [FileSystem.Makeable, heq, FileTree.makeable_concat, ← heq, or_iff_right hdir,
          and_iff_left hdirName]
        rfl
      rw [← heq] at hmade
      refine ⟨?_, hmade.same, hmade.cwd⟩
      rw [hiff, ← hmade.made_iff]
      exact ⟨fun hboth => hboth.1, fun hret => ⟨hret, hmade.dir hret⟩⟩
  | append_singleton kept blank _ =>
      have hlast : names = above ++ dirName :: kept ++ [blank] := by
        rw [heq, List.append_assoc, List.cons_append]
      have hbelow : fs.base absolute ++ names =
          fs.base absolute ++ (above ++ [dirName]) ++ (kept ++ [blank]) := by
        rw [heq]
        simp
      have hentry : made.2.tree.entry (fs.base absolute ++ names) =
          fs.tree.entry (fs.base absolute ++ names) := by
        apply hmade.same
        rw [hbelow]
        intro hbegins
        have hlength := hbegins.length_le
        simp only [List.length_append, List.length_singleton] at hlength
        omega
      have hnot : ¬fs.Makeable absolute names := by
        rw [hlast] at hdir ⊢
        apply not_makeable_blank hdir
        exact hblank blank (List.mem_append_right _ (List.mem_singleton_self blank))
      refine ⟨iff_of_false (fun hboth => ?_) hnot, ?_, hmade.cwd⟩
      · rw [hentry] at hboth
        exact hdir hboth.2
      · rw [hbelow]
        exact hmade.same.below _

-- The directories above the new one are made by the call one level down.
def makeParent (n : ℕ) (fs : FileSystem) (dir : Bytes) : Option (Bool × FileSystem) :=
  if dir = [] then some (true, fs) else createDirIfNotExist n fs dir

-- A call for a path that is not there makes one directory behind those above it.
def CallMakes (n : ℕ) : Prop :=
  ∀ (fs : FileSystem) (path : Bytes) (front : List Bytes) (dirName : Bytes) (blanks : List Bytes)
    (made : Bool × FileSystem), PathParts path front dirName blanks →
    fs.stat (cstr path) = none → createDirIfNotExist n fs path = some made →
    Made fs (fs.locate (joinParts front ++ dirName))
      (fs.Makeable (isAbsolute (slashed path)) (front.filter (· ≠ []))) made

theorem parentMade_of_callMakes (hmakes : CallMakes n) (hnames : ∀ name ∈ names, IsName name)
    {parent : Bool × FileSystem} (h : makeParent n fs (spelled absolute names) = some parent) :
    ParentMade fs absolute names parent := by
  obtain ⟨hcstr, hslashed⟩ := slashed_spelled absolute hnames
  obtain ⟨hsplit, habsolute, hcomponents⟩ := parts_spelled absolute hnames
  unfold makeParent at h
  by_cases hdir : fs.tree.entry (fs.base absolute ++ names) = some .dir
  · -- the directories are there
    have hparent : parent = (true, fs) := by
      split at h
      · exact (Option.some.inj h).symm
      next hne =>
        cases n with
        | zero => cases h
        | succ n =>
            have hstat := stat_spelled fs hnames hne
            rw [if_pos hdir, ← hcstr] at hstat
            rw [createDir_of_stat hstat] at h
            exact (Option.some.inj h).symm
    rw [hparent]
    exact ⟨iff_of_true ⟨rfl, hdir⟩ (FileTree.makeable_of_dir hdir), FileTree.SameBeside.refl _ _, rfl⟩
  · have hnonempty : names ≠ [] := by
      rintro rfl
      rw [List.append_nil] at hdir
      exact hdir (fs.dir_base absolute)
    have hne : spelled absolute names ≠ [] := by
      intro hnil
      rw [hnil] at hcomponents
      exact hnonempty hcomponents.symm
    rw [if_neg hne] at h
    have hstat := stat_spelled fs hnames hne
    rw [if_neg hdir, ← hcstr] at hstat
    rcases pathParts_or_blank (spelled absolute names) with hblank | ⟨front, dirName, blanks, hparts⟩
    · obtain ⟨above, name, rfl⟩ := List.eq_nil_or_concat' names |>.resolve_left hnonempty
      have hname : isEmpty name = true := by
        apply hblank
        rw [hslashed, hsplit]
        simp
      have hparent : parent = (true, fs) := by
        cases n with
        | zero => cases h
        | succ n =>
            rw [createDir_of_blank hstat hblank] at h
            exact (Option.some.inj h).symm
      rw [hparent]
      exact ⟨iff_of_false (fun hboth => hdir hboth.2) (not_makeable_blank hdir hname),
        FileTree.SameBeside.refl _ _, rfl⟩
    · have hmade := hmakes fs _ front dirName blanks parent hparts hstat h
      have heq := hparts.components_eq
      rw [hslashed, hcomponents] at heq
      rw [hparts.locate_dir, hslashed, habsolute] at hmade
      refine hmade.parentMade heq hparts.isEmpty_dirName (fun blank hmem => ?_) hdir
      exact hparts.isEmpty_blanks blank (List.mem_of_mem_filter hmem)

theorem PathParts.made (hparts : PathParts path front dirName blanks)
    (hmakes : CallMakes n) (hstat : fs.stat (cstr path) = none) {made : Bool × FileSystem}
    (h : createDirIfNotExist (n + 1) fs path = some made) :
    Made fs (fs.locate (joinParts front ++ dirName))
      (fs.Makeable (isAbsolute (slashed path)) (front.filter (· ≠ []))) made := by
  rw [hparts.createDir_eq hstat] at h
  obtain ⟨parent, hparent, hmake⟩ := Option.map_eq_some_iff.mp h
  rw [hparts.joinParts_eq] at hparent
  have hmade := parentMade_of_callMakes hmakes hparts.isName_front hparent
  have hne := List.append_ne_nil_of_right_ne_nil (joinParts front) hparts.isName_dirName.ne_nil
  rw [← hmake, hparts.locate_dir]
  apply hmade.makeDir hne
  rw [FileSystem.locate_of_cwd hmade.cwd, hparts.locate_dir]

theorem callMakes (n : ℕ) : CallMakes n := by
  induction n with
  | zero => exact fun _ _ _ _ _ _ _ _ h => nomatch h
  | succ n ih => exact fun fs path front dirName blanks made hparts hstat h => hparts.made ih hstat h

-- The calls go one level down for each name at most.
theorem exists_makeParent (fs : FileSystem) (absolute : Bool) {n : ℕ} {names : List Bytes}
    (hnames : ∀ name ∈ names, IsName name) (hn : names.length < n) :
    ∃ parent, makeParent n fs (spelled absolute names) = some parent := by
  induction n generalizing names with
  | zero => omega
  | succ n ih =>
      obtain ⟨hcstr, hslashed⟩ := slashed_spelled absolute hnames
      obtain ⟨-, habsolute, hcomponents⟩ := parts_spelled absolute hnames
      unfold makeParent
      split
      · exact ⟨_, rfl⟩
      cases hstat : fs.stat (cstr (spelled absolute names)) with
      | some kind => exact ⟨_, createDir_of_stat hstat⟩
      | none =>
          rcases pathParts_or_blank (spelled absolute names) with
            hblank | ⟨front, dirName, blanks, hparts⟩
          · exact ⟨_, createDir_of_blank hstat hblank⟩
          · have hlength := congrArg List.length hparts.components_eq
            rw [hslashed, hcomponents, List.length_append, List.length_cons] at hlength
            obtain ⟨parent, hparent⟩ := ih hparts.isName_front (by omega)
            rw [hparts.createDir_eq hstat, hparts.joinParts_eq, hslashed, habsolute]
            rw [makeParent] at hparent
            rw [hparent]
            exact ⟨_, rfl⟩

theorem exists_createDir (fs : FileSystem) (path : Bytes) :
    ∃ rounds made, createDirIfNotExist rounds fs path = some made := by
  cases hstat : fs.stat (cstr path) with
  | some kind => exact ⟨1, _, createDir_of_stat hstat⟩
  | none =>
      rcases pathParts_or_blank path with hblank | ⟨front, dirName, blanks, hparts⟩
      · exact ⟨1, _, createDir_of_blank hstat hblank⟩
      · obtain ⟨parent, hparent⟩ := exists_makeParent fs (isAbsolute (slashed path))
          hparts.isName_front (Nat.lt_succ_self _)
        refine ⟨(front.filter (· ≠ [])).length + 2, makeDir parent (joinParts front ++ dirName), ?_⟩
        rw [hparts.createDir_eq hstat, Option.map_eq_some_iff]
        rw [← hparts.joinParts_eq] at hparent
        exact ⟨parent, hparent, rfl⟩

end

end AsrServiceProxy.FileUtil

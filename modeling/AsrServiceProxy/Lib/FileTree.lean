import Mathlib.Data.List.Basic
import Mathlib.Data.List.Infix

-- Trees of directories and files: what stands at a path of names, with directories
-- above it.
inductive FileKind where
  | dir
  | file
deriving DecidableEq, Repr

structure FileTree (α : Type) where
  entry : List α → Option FileKind
  root_dir : entry [] = some .dir
  parent_dir : ∀ path name, entry (path ++ [name]) ≠ none → entry path = some .dir

namespace FileTree

variable {α : Type}

-- All entries are kept.
def Extends (tree tree' : FileTree α) : Prop :=
  ∀ path kind, tree.entry path = some kind → tree'.entry path = some kind

theorem Extends.refl (tree : FileTree α) : tree.Extends tree := fun _ _ h => h

theorem Extends.trans {tree tree' tree'' : FileTree α} (h : tree.Extends tree')
    (h' : tree'.Extends tree'') : tree.Extends tree'' :=
  fun path kind hentry => h' path kind (h path kind hentry)

-- Only the path and what stands above it may differ.
def SameBeside (tree tree' : FileTree α) (path : List α) : Prop :=
  ∀ other, ¬other <+: path → tree'.entry other = tree.entry other

theorem SameBeside.refl (tree : FileTree α) (path : List α) : tree.SameBeside tree path :=
  fun _ _ => rfl

theorem SameBeside.below {tree tree' : FileTree α} {path : List α} (h : tree.SameBeside tree' path)
    (rest : List α) : tree.SameBeside tree' (path ++ rest) :=
  fun other hother => h other fun hbegins => hother (hbegins.trans (List.prefix_append path rest))

-- What stands above an entry is a directory.
theorem dir_of_below (tree : FileTree α) {path rest : List α} (hne : rest ≠ [])
    (h : tree.entry (path ++ rest) ≠ none) : tree.entry path = some .dir := by
  induction rest using List.reverseRecOn with
  | nil => contradiction
  | append_singleton rest name ih =>
      rw [← List.append_assoc] at h
      have hdir := tree.parent_dir _ name h
      by_cases hrest : rest = []
      · rw [hrest, List.append_nil] at hdir
        exact hdir
      · apply ih hrest
        rw [hdir]
        exact Option.some_ne_none _

theorem none_of_above (tree : FileTree α) {path rest : List α} (h : tree.entry path = none) :
    tree.entry (path ++ rest) = none := by
  by_contra hentry
  by_cases hrest : rest = []
  · rw [hrest, List.append_nil] at hentry
    contradiction
  · rw [tree.dir_of_below hrest hentry] at h
    cases h

-- The names below `base` are directories, or free and of the kind that is made.
def Makeable (tree : FileTree α) (made : α → Prop) (base names : List α) : Prop :=
  ∀ front name, front ++ [name] <+: names →
    tree.entry (base ++ (front ++ [name])) = some .dir ∨
      tree.entry (base ++ (front ++ [name])) = none ∧ made name

section

variable {tree : FileTree α} {made : α → Prop} {base names : List α} {name : α}

theorem makeable_concat : tree.Makeable made base (names ++ [name]) ↔
    tree.Makeable made base names ∧ (tree.entry (base ++ (names ++ [name])) = some .dir ∨
      tree.entry (base ++ (names ++ [name])) = none ∧ made name) := by
  constructor
  · intro h
    refine ⟨fun front other hbegins => ?_, h names name (List.prefix_refl _)⟩
    exact h front other (hbegins.trans (List.prefix_append names [name]))
  · intro ⟨h, hlast⟩ front other hbegins
    rcases List.prefix_concat_iff.mp hbegins with heq | hbegins
    · obtain ⟨rfl, hname⟩ := List.append_inj' heq rfl
      rw [← List.singleton_injective hname] at hlast
      exact hlast
    · exact h front other hbegins

theorem makeable_of_dir (h : tree.entry (base ++ names) = some .dir) :
    tree.Makeable made base names := by
  intro front name ⟨rest, heq⟩
  left
  rw [← heq, ← List.append_assoc] at h
  by_cases hrest : rest = []
  · rw [hrest, List.append_nil] at h
    exact h
  · apply tree.dir_of_below hrest
    rw [h]
    exact Option.some_ne_none _

end

variable [DecidableEq α]

-- A new directory, at a path that is free and has a directory above it.
def mkdir (tree : FileTree α) (path : List α) : Option (FileTree α) :=
  if h : tree.entry path = none ∧ tree.entry path.dropLast = some .dir then
    some
      { entry := fun other => if other = path then some .dir else tree.entry other
        root_dir := by
          have hne : [] ≠ path := by
            rintro rfl
            rw [tree.root_dir] at h
            cases h.1
          rw [if_neg hne]
          exact tree.root_dir
        parent_dir := by
          intro other name hentry
          by_cases heq : other ++ [name] = path
          · have hparent : other = path.dropLast := by rw [← heq, List.dropLast_concat]
            have hne : other ≠ path := by
              rw [← heq]
              intro hloop
              have hlength := congrArg List.length hloop
              rw [List.length_append, List.length_singleton] at hlength
              omega
            rw [if_neg hne, hparent]
            exact h.2
          · rw [if_neg heq] at hentry
            have hdir := tree.parent_dir other name hentry
            split
            · rfl
            · exact hdir }
  else none

theorem mkdir_eq_some {tree tree' : FileTree α} {path : List α} (h : tree.mkdir path = some tree') :
    tree.entry path = none ∧ tree.entry path.dropLast = some .dir ∧
      ∀ other, tree'.entry other = if other = path then some .dir else tree.entry other := by
  unfold mkdir at h
  split at h
  next hfree =>
    rw [← Option.some.inj h]
    exact ⟨hfree.1, hfree.2, fun _ => rfl⟩
  next => cases h

theorem mkdir_of_free {tree : FileTree α} {path : List α} (hfree : tree.entry path = none)
    (hparent : tree.entry path.dropLast = some .dir) : ∃ tree', tree.mkdir path = some tree' := by
  unfold mkdir
  rw [dif_pos ⟨hfree, hparent⟩]
  exact ⟨_, rfl⟩

theorem extends_mkdir {tree tree' : FileTree α} {path : List α} (h : tree.mkdir path = some tree') :
    tree.Extends tree' := by
  intro other kind hentry
  obtain ⟨hfree, -, heq⟩ := mkdir_eq_some h
  rw [heq]
  split
  next hsame =>
    rw [hsame, hfree] at hentry
    cases hentry
  next => exact hentry

-- The directories of one path.
def ofPath (path : List α) : FileTree α :=
  { entry := fun other => if other <+: path then some .dir else none
    root_dir := if_pos List.nil_prefix
    parent_dir := by
      intro other name hentry
      have hbegins : other ++ [name] <+: path := by
        by_contra hnot
        exact hentry (if_neg hnot)
      exact if_pos ((List.prefix_append other [name]).trans hbegins) }

theorem entry_ofPath (path other : List α) :
    (ofPath path).entry other = if other <+: path then some .dir else none := rfl

end FileTree

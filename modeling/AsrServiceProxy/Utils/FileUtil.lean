import AsrServiceProxy.Lib.FileTree
import AsrServiceProxy.Utils.StringUtil.Cleaning

-- The paths of `FileUtil`, and the file system that it makes directories in.
namespace AsrServiceProxy.FileUtil

open CMemory StringUtil

-- The names of a path.
def components (path : Bytes) : List Bytes := (path.splitOn 47).filter (· ≠ [])

def isAbsolute (path : Bytes) : Bool := path.head? = some 47

structure FileSystem where
  tree : FileTree Bytes
  cwd : List Bytes
  cwd_dir : tree.entry cwd = some .dir

namespace FileSystem

def locate (fs : FileSystem) (path : Bytes) : List Bytes :=
  if isAbsolute path then components path else fs.cwd ++ components path

-- With a slash at its end a path names a directory.
def stat (fs : FileSystem) (path : Bytes) : Option FileKind :=
  if path = [] then none
  else
    match fs.tree.entry (fs.locate path) with
    | some .file => if path.getLast? = some 47 then none else some .file
    | found => found

def mkdir (fs : FileSystem) (path : Bytes) : Option FileSystem :=
  if path = [] then none
  else
    match h : fs.tree.mkdir (fs.locate path) with
    | none => none
    | some tree =>
        some { tree := tree, cwd := fs.cwd, cwd_dir := FileTree.extends_mkdir h _ _ fs.cwd_dir }

end FileSystem

-- `str_path`
def slashed (path : Bytes) : Bytes := replace (cstr path) 92 47

-- One part of a path; `s` is `first_part` and `dir`.
def joinRound (s : Bool × Bytes) (part : Bytes) : Bool × Bytes :=
  if !s.1 && part = [] then (false, s.2) else (false, s.2 ++ part ++ [47])

def joinParts (parts : List Bytes) : Bytes := (parts.foldl joinRound (true, [])).2

def normalizeFilePath (path : Bytes) : Bytes :=
  (joinParts (split (slashed path) 47)).dropLast

-- The last directory of a path, when the ones above it are there.
def makeDir (parent : Bool × FileSystem) (path : Bytes) : Bool × FileSystem :=
  if parent.1 then
    match parent.2.mkdir path with
    | none => (false, parent.2)
    | some fs => (true, fs)
  else (false, parent.2)

-- The return value and the file system after the call; `none` when the calls go deeper
-- than given.
def createDirIfNotExist : ℕ → FileSystem → Bytes → Option (Bool × FileSystem)
  | 0, _, _ => none
  | n + 1, fs, path =>
      match fs.stat (cstr path) with
      | some kind => some (kind = .dir, fs)
      | none =>
          match (split (slashed path) 47).reverse.dropWhile isEmpty with
          | [] => some (true, fs)
          | dirName :: results =>
              let dir := joinParts results.reverse
              (if dir = [] then some (true, fs) else createDirIfNotExist n fs dir).map fun parent =>
                makeDir parent (dir ++ dirName)

end AsrServiceProxy.FileUtil

import AsrServiceProxy.Config.PathText
import Mathlib.Data.List.AList
import Mathlib.Data.List.Sort

-- Configs from maps of the caller, above all those whose keys are path expressions.
namespace AsrServiceProxy.Config

open CMemory

-- `ConfigVariant`. A map is in the order in which it is walked; a double is kept as
-- its text, and `base` is a pointer to an object of the library.
inductive ConfigVariant where
  | null
  | int32 (x : Int32)
  | int64 (x : Int64)
  | double (text : Bytes)
  | bool (x : Bool)
  | string (x : Bytes)
  | base
  | map (entries : List (Bytes × ConfigVariant))
  | vector (elements : List ConfigVariant)

inductive FromMapMode where
  | KEYS_ARE_PATHS | KEYS_ARE_KEYS
deriving DecidableEq, Repr

-- `parent`; the keys are those that its loop appends.
def Path.frontKeys : Path → List Bytes
  | .newKey _ => []
  | .cons first remainder => first :: remainder.frontKeys

def Path.parent (path : Path) : Option Path :=
  match path.remainder with
  | none => none
  | some _ => PathBuilder.result path.frontKeys

def Path.last : Path → Bytes
  | .newKey first => first
  | .cons _ remainder => remainder.last

-- The parent of a path, the parent of this and so on, for so many rounds.
def Path.parents : ℕ → Path → List Path
  | 0, _ => []
  | n + 1, path =>
      match path.parent with
      | none => []
      | some next => next :: next.parents n

-- The order in which a hash set is walked is left open.
structure Walk where
  order : List Path → List Path
  perm : ∀ paths, (order paths).Perm paths

-- The maps that become objects: that of the root and those of the scopes.
structure ScopeMaps where
  root : Fields Unit
  scopes : AList fun _ : Path => Fields Unit

def ScopeMaps.fields (maps : ScopeMaps) : Option Path → Fields Unit
  | none => maps.root
  | some path => (maps.scopes.lookup path).getD []

-- `parent[last] = value` in the map of the parent of a path.
def ScopeMaps.store (maps : ScopeMaps) (path : Path) (value : Value Unit) : ScopeMaps :=
  match path.parent with
  | none => { maps with root := putField maps.root path.last value }
  | some parent =>
      { maps with
        scopes := maps.scopes.insert parent
          (putField (maps.fields (some parent)) path.last value) }

def fromExceptMake {α : Type} : Except ConfigException α → Make Unit α
  | .ok a => return a
  | .error e => throw e

section

variable (doubles : Doubles) (valueWalk scopeWalk : Walk) {α : Type}
  (convert : α → Make Unit (Value Unit)) (blank : α)

-- `path_map`: an expression for a path that is there already replaces its value.
def insertExpression (pathMap : AList fun _ : Path => α) (entry : Bytes × α) :
    Make Unit (AList fun _ : Path => α) := do
  let path ← fromExceptMake (parsePath doubles entry.1)
  return pathMap.insert path entry.2

def storeValue (pathMap : AList fun _ : Path => α) (maps : ScopeMaps) (path : Path) :
    Make Unit ScopeMaps := do
  -- `path_map[path]` makes a blank value for a path that is not there
  return maps.store path (← convert ((pathMap.lookup path).getD blank))

def storeScope (maps : ScopeMaps) (scopePath : Path) : Make Unit ScopeMaps := do
  return maps.store scopePath (← makeObject .plain (maps.fields (some scopePath)) true false)

-- `ConfigImpl::from_path_map`, where `convert` is `from_any_ref` on the values.
def fromPathMap (entries : List (Bytes × α)) : Make Unit (Value Unit) := do
  let pathMap ← entries.foldlM (insertExpression doubles) ∅
  let valuePaths := valueWalk.order pathMap.keys
  let scopePaths := scopeWalk.order
    (pathMap.keys.flatMap fun path => path.parents path.length).dedup
  if valuePaths.any fun path => path ∈ scopePaths then
    throw (.bugOrBroken "occurs as both the parent object of a value and as a value. ")
  let maps : ScopeMaps :=
    { root := [], scopes := scopePaths.foldl (fun scopes path => scopes.insert path []) ∅ }
  let maps ← valuePaths.foldlM (storeValue convert blank pathMap) maps
  -- from the longest to the shortest
  let sortedScopePaths := scopePaths.insertionSort fun first second =>
    second.length ≤ first.length
  let maps ← sortedScopePaths.foldlM storeScope maps
  makeObject .plain maps.root true false

end

-- `ConfigImpl::from_any_ref`
mutual

def fromAnyRef (doubles : Doubles) (valueWalk scopeWalk : Walk) (mapMode : FromMapMode) :
    ConfigVariant → Make Unit (Value Unit)
  | .null => return .configNull ()
  | .bool x => return .configBoolean () x
  | .string x => return .configString () x
  | .int32 x => return .configInt () x []
  | .int64 x => return .configInt64 () x []
  | .double text => return .configDouble () text
  | .map entries => do
      if entries.isEmpty then return ← makeObject .plain [] true false
      match mapMode with
      | .KEYS_ARE_KEYS => do
          let values ← fromEntries doubles valueWalk scopeWalk entries []
          makeObject .plain values (Value.resolvedFields values) false
      | .KEYS_ARE_PATHS =>
          fromPathMap doubles valueWalk scopeWalk id (return .configNull ())
            (conversions doubles valueWalk scopeWalk entries)
  | .vector elements => do
      let values ← fromElements doubles valueWalk scopeWalk mapMode elements
      makeList .plain values (Value.resolvedAll values)
  | .base => throw (.bugOrBroken "bug in method caller: not valid to createConfigValue from: ")

def fromEntries (doubles : Doubles) (valueWalk scopeWalk : Walk) :
    List (Bytes × ConfigVariant) → Fields Unit → Make Unit (Fields Unit)
  | [], values => return values
  | (key, entry) :: rest, values => do
      let value ← fromAnyRef doubles valueWalk scopeWalk .KEYS_ARE_KEYS entry
      fromEntries doubles valueWalk scopeWalk rest (putField values key value)

-- The values of a map with what makes them, to be run where they are stored.
def conversions (doubles : Doubles) (valueWalk scopeWalk : Walk) :
    List (Bytes × ConfigVariant) → List (Bytes × Make Unit (Value Unit))
  | [] => []
  | (key, entry) :: rest =>
      (key, fromAnyRef doubles valueWalk scopeWalk .KEYS_ARE_PATHS entry) ::
        conversions doubles valueWalk scopeWalk rest

def fromElements (doubles : Doubles) (valueWalk scopeWalk : Walk) (mapMode : FromMapMode) :
    List ConfigVariant → Make Unit (List (Value Unit))
  | [] => return []
  | element :: rest => do
      let value ← fromAnyRef doubles valueWalk scopeWalk mapMode element
      return value :: (← fromElements doubles valueWalk scopeWalk mapMode rest)

end

-- The map of the caller, as `from_path_map` is given it.
def fromPathVariants (doubles : Doubles) (valueWalk scopeWalk : Walk)
    (entries : List (Bytes × ConfigVariant)) : Make Unit (Value Unit) :=
  fromPathMap doubles valueWalk scopeWalk
    (fromAnyRef doubles valueWalk scopeWalk .KEYS_ARE_PATHS) .null entries

end AsrServiceProxy.Config

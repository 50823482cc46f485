import AsrServiceProxy.Config.FromMap
import AsrServiceProxy.Config.Lookup
import AsrServiceProxy.Lib.IndexLoop

-- Paths as the library builds them, with the widths of its indices.
namespace AsrServiceProxy.Config

open CMemory

-- `_keys` with the top of the stack first, and `_result`.
structure PathBuilder where
  keys : List Bytes
  built : Option Path

namespace PathBuilder

def makeInstance : PathBuilder := { keys := [], built := none }

def checkCanAppend (pb : PathBuilder) : Except ConfigException Unit :=
  if pb.built.isSome then .error (.bugOrBroken "_adding to PathBuilder after getting result")
  else .ok ()

def appendKey (pb : PathBuilder) (key : Bytes) : Except ConfigException PathBuilder := do
  pb.checkCanAppend
  return { pb with keys := key :: pb.keys }

-- The loop pushes a key for each node of the path.
def pushPath (keys : List Bytes) : Path → List Bytes
  | .newKey first => first :: keys
  | .cons first remainder => pushPath (first :: keys) remainder

def appendPath (pb : PathBuilder) (path : Path) : Except ConfigException PathBuilder := do
  pb.checkCanAppend
  return { pb with keys := pushPath pb.keys path }

-- `Path(first, remainder)`
def makePath (first : Bytes) : Option Path → Path
  | none => .newKey first
  | some remainder => .cons first remainder

def popKeys : List Bytes → Option Path → Option Path
  | [], remainder => remainder
  | key :: keys, remainder => popKeys keys (some (makePath key remainder))

-- `result()`; a result that is null is no result.
def takeResult (pb : PathBuilder) : Option Path :=
  match pb.built with
  | none => popKeys pb.keys none
  | some path => some path

end PathBuilder

namespace Path

def appendElement (pb : Except ConfigException PathBuilder) (element : Bytes) :
    Except ConfigException PathBuilder :=
  pb.bind fun pb => pb.appendKey element

-- `Path(VectorString)`. The index is a `uint32_t`; `none` is a loop that was given too
-- few rounds.
def ofVectorString (rounds : ℕ) : List Bytes → Option (Except ConfigException Path)
  | [] => some (.error (.bugOrBroken "empty path"))
  | [first] => some (.ok (.newKey first))
  | first :: rest =>
      (IndexLoop.loop 32 (fun pb => !pb.isOk) appendElement (first :: rest) rounds 1
        (.ok .makeInstance)).map fun pb =>
          pb.map fun pb => PathBuilder.makePath first pb.takeResult

-- `Path(VectorPath)`
def ofVectorPath : List Path → Except ConfigException Path
  | [] => .error (.bugOrBroken "empty path")
  | firstPath :: rest => do
      let pb ←
        match firstPath.remainder with
        | some remainder => PathBuilder.makeInstance.appendPath remainder
        | none => .ok .makeInstance
      let pb ← rest.foldlM PathBuilder.appendPath pb
      return PathBuilder.makePath firstPath.first pb.takeResult

def parentLoop (pb : PathBuilder) : Path → Except ConfigException PathBuilder
  | .newKey _ => .ok pb
  | .cons first remainder => do
      let pb ← pb.appendKey first
      parentLoop pb remainder

def parentBuilt (path : Path) : Except ConfigException (Option Path) :=
  match path.remainder with
  | none => .ok none
  | some _ => (parentLoop .makeInstance path).map PathBuilder.takeResult

def prependBuilt (path toPrepend : Path) : Except ConfigException (Option Path) := do
  let pb ← PathBuilder.makeInstance.appendPath toPrepend
  let pb ← pb.appendPath path
  return pb.takeResult

def lengthLoop (count : UInt32) : Option Path → UInt32
  | none => count
  | some (.newKey _) => count + 1
  | some (.cons _ remainder) => lengthLoop (count + 1) (some remainder)

def length32 (path : Path) : UInt32 := lengthLoop 1 path.remainder

-- The count is an `int32_t`.
def subPathLoop (count : ℤ) : Path → Option Path
  | .newKey first => if 0 < count then none else some (.newKey first)
  | .cons first remainder =>
      if 0 < count then subPathLoop (count - 1) remainder else some (.cons first remainder)

def subPath32 (path : Path) (removeFromFront : UInt32) : Option Path :=
  subPathLoop (intOfSize removeFromFront.toNat) path

def betweenLoop (from_ : Option Path) (pb : PathBuilder) : ℕ → Except ConfigException PathBuilder
  | 0 => .ok pb
  | count + 1 =>
      match from_ with
      | none => .error (.undefinedBehaviour "null path")
      | some path => do
          let pb ← pb.appendKey path.first
          match path.remainder with
          | none => .error (.bugOrBroken "sub_path last_index out of range ")
          | some remainder => betweenLoop (some remainder) pb count

def subPathBetween32 (path : Path) (firstIndex lastIndex : UInt32) :
    Except ConfigException (Option Path) :=
  if lastIndex < firstIndex then .error (.bugOrBroken "bad call to sub_path")
  else
    (betweenLoop (path.subPath32 firstIndex) .makeInstance (lastIndex - firstIndex).toNat).map
      PathBuilder.takeResult

end Path

end AsrServiceProxy.Config

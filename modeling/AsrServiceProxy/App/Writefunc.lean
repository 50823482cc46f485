import AsrServiceProxy.Lib.CMemory

namespace AsrServiceProxy.App

open CMemory

-- One call of the libcurl write callback: `*result`, the value returned to
-- libcurl, and every index of the block of `*result` that the call writes.
structure Written where
  result : Option Block
  returned : ℕ
  indices : List ℕ
deriving DecidableEq, Repr

-- `size * nmemb` is the length of the chunk that libcurl passes.
def writefunc (heap : Allocator) (chunk : Bytes) (result : Option Block) : Written :=
  let resultLen := sizeT chunk.length
  match result with
  | none =>
      match malloc heap (sizeT (resultLen + 1)) with
      | none => { result := none, returned := 1, indices := [] }
      | some block =>
          { result := some ((block.poke 0 (chunk.take resultLen)).poke resultLen [0])
            returned := resultLen
            indices := List.range' 0 resultLen ++ [resultLen] }
  | some block =>
      let oldSize := strlen block.mem
      -- the append branch asks for no byte for the terminator
      match realloc heap block (sizeT (resultLen + oldSize)) with
      | none => { result := none, returned := 1, indices := [] }
      | some block =>
          let last := sizeT (resultLen + oldSize)
          { result := some ((block.poke oldSize (chunk.take resultLen)).poke last [0])
            returned := resultLen
            indices := List.range' oldSize resultLen ++ [last] }

-- One callback of a transfer, with the allocator as it answers during it.
structure Chunk where
  heap : Allocator
  bytes : Bytes

-- The calls of one transfer, in order, with the same `*result`.
def transfer : List Chunk → Option Block → List Written
  | [], _ => []
  | chunk :: rest, result =>
      let written := writefunc chunk.heap chunk.bytes result
      written :: transfer rest written.result

-- `*result` when the transfer is over.
def received (chunks : List Chunk) : Option Block :=
  chunks.foldl (fun result chunk => (writefunc chunk.heap chunk.bytes result).result) none

-- The whole body that libcurl passed.
def delivered (chunks : List Chunk) : Bytes := chunks.flatMap Chunk.bytes

-- What one more chunk makes of the text gathered so far: it is added up to its
-- first NUL, and a failed allocation loses all.
def Chunk.gather (chunk : Chunk) : Option Bytes → Option Bytes
  | none => (chunk.heap (chunk.bytes.length + 1)).map fun _ => cstr chunk.bytes
  | some text =>
      (chunk.heap (chunk.bytes.length + text.length)).map fun _ => text ++ cstr chunk.bytes

-- The C string that a transfer gathers, from the chunks and the allocator's
-- answers alone.
def gathered (chunks : List Chunk) : Option Bytes :=
  chunks.foldl (fun text chunk => chunk.gather text) none

-- Every index that the call writes lies inside the block it leaves in `*result`.
def Written.InBounds (written : Written) : Prop :=
  ∀ block, written.result = some block → ∀ i ∈ written.indices, i < block.size

end AsrServiceProxy.App

import AsrServiceProxy.Config.Parser

-- Paths as text: `join_path` writes the elements, `split_path` reads them.
namespace AsrServiceProxy.Config

open CMemory

-- `Path(VectorString)`
def Path.ofElements : List Bytes → Except ConfigException Path
  | [] => .error (.bugOrBroken "empty path")
  | first :: rest =>
      match PathBuilder.result rest with
      | none => .ok (.newKey first)
      | some remainder => .ok (.cons first remainder)

def joinPath (elements : List Bytes) : Except ConfigException Bytes :=
  (Path.ofElements elements).map Path.render

def hasUnsafeChars (s : Bytes) : Bool := s.any fun c => ¬(isalpha c || c = 46)

-- The keys that `append_path_string` appends; each round takes a period.
def appendPathString : ℕ → List Bytes → Bytes → List Bytes
  | 0, keys, _ => keys
  | n + 1, keys, s =>
      match s.findIdx? (· = 46) with
      | none => keys ++ [s]
      | some splitAt => appendPathString n (keys ++ [s.take splitAt]) (s.drop (splitAt + 1))

-- `boost::trim_copy`
def trimCopy (s : Bytes) : Bytes :=
  ((s.dropWhile StringUtil.isspace).reverse.dropWhile StringUtil.isspace).reverse

def speculativeFastParsePath (path : Bytes) : Option Path :=
  let s := trimCopy path
  if s.isEmpty then none
  else if hasUnsafeChars s then none
  -- the full parser is left to throw the error
  else if s.head? = some 46 || s.getLast? = some 46 || (StringUtil.find (ascii "..") s).isSome then
    none
  else PathBuilder.result (appendPathString (s.length + 1) [] s)

def parsePath (doubles : Doubles) (path : Bytes) : Except ConfigException Path :=
  match speculativeFastParsePath path with
  | some speculated => .ok speculated
  -- without the start
  | none => parsePathExpression (tokenize doubles path .CONF).tail

def splitPath (doubles : Doubles) (path : Bytes) : Except ConfigException (List Bytes) :=
  (parsePath doubles path).map Path.keys

end AsrServiceProxy.Config

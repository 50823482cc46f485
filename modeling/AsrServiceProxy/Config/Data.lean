import AsrServiceProxy.Config.Parser

-- What a config is for: a tree of scalars, lists and objects. `Data` is the
-- part of it without floating point, and `text` and `tokens` say how a tree is
-- laid out by the printer.
namespace AsrServiceProxy.Config

open CMemory

inductive Data where
  | null
  | boolean (b : Bool)
  | number (n : Int64)
  | string (s : Bytes)
  | list (elements : List Data)
  | object (fields : List (Bytes × Data))

-- The data that a value holds; unresolved values and doubles have none.
mutual

def Value.data {ι : Type} : Value ι → Option Data
  | .configNull _ => some .null
  | .configBoolean _ b => some (.boolean b)
  | .configInt _ n _ => some (.number n.toInt64)
  | .configInt64 _ n _ => some (.number n)
  | .configString _ s => some (.string s)
  | .simpleConfigList _ value => (dataAll value).map Data.list
  | .simpleConfigObject _ value _ => (dataFields value).map Data.object
  | _ => none

def dataAll {ι : Type} : List (Value ι) → Option (List Data)
  | [] => some []
  | v :: rest =>
      match v.data, dataAll rest with
      | some d, some ds => some (d :: ds)
      | _, _ => none

def dataFields {ι : Type} : List (Bytes × Value ι) → Option (List (Bytes × Data))
  | [] => some []
  | (key, v) :: rest =>
      match v.data, dataFields rest with
      | some d, some ds => some ((key, d) :: ds)
      | _, _ => none

end

-- The value that the parser makes of data: numbers keep the text they were read from.
mutual

def Data.value : Data → Value Unit
  | .null => .configNull ()
  | .boolean b => .configBoolean () b
  | .number n => newNumber () n (lexicalString n.toInt)
  | .string s => .configString () s
  | .list elements => .simpleConfigList () (valueAll elements)
  | .object fields => .simpleConfigObject () (valueFields fields) false

def valueAll : List Data → List (Value Unit)
  | [] => []
  | d :: rest => d.value :: valueAll rest

def valueFields : List (Bytes × Data) → Fields Unit
  | [] => []
  | (key, d) :: rest => (key, d.value) :: valueFields rest

end

-- The keys of an object are those of a hash map, and no string has the byte
-- that `StringReader` cannot tell from the end of the input.
mutual

def Data.WellFormed : Data → Prop
  | .string s => (255 : UInt8) ∉ s
  | .list elements => WellFormedAll elements
  | .object fields => (fields.map Prod.fst).Nodup ∧ WellFormedFields fields
  | _ => True

def WellFormedAll : List Data → Prop
  | [] => True
  | d :: rest => d.WellFormed ∧ WellFormedAll rest

def WellFormedFields : List (Bytes × Data) → Prop
  | [] => True
  | (key, d) :: rest => (255 : UInt8) ∉ key ∧ d.WellFormed ∧ WellFormedFields rest

end

def Data.isObject : Data → Bool
  | .object _ => true
  | _ => false

-- The nesting of a tree.
mutual

def Data.depth : Data → ℕ
  | .list elements => depthAll elements + 1
  | .object fields => depthFields fields + 1
  | _ => 1

def depthAll : List Data → ℕ
  | [] => 0
  | d :: rest => max d.depth (depthAll rest)

def depthFields : List (Bytes × Data) → ℕ
  | [] => 0
  | (_, d) :: rest => max d.depth (depthFields rest)

end

section

variable (options : ConfigRenderOptions)

def elementSeparator : Bytes := [44] ++ newlineIfFormatted options

-- The text of a tree under a key, with nothing to be chopped.
mutual

def Data.text : Data → ℕ → Bytes
  | .null, _ => ascii "null"
  | .boolean b, _ => ascii (if b then "true" else "false")
  | .number n, _ => lexicalString n.toInt
  | .string s, _ => renderJsonString s
  | .list [], _ => [91, 93]
  | .list (d :: rest), level =>
      [91] ++ newlineIfFormatted options ++ textElements (d :: rest) level ++
        newlineIfFormatted options ++ indent options level ++ [93]
  | .object [], _ => [123, 125]
  | .object (field :: rest), level =>
      [123] ++ newlineIfFormatted options ++ textFields (field :: rest) level ++
        newlineIfFormatted options ++ indent options level ++ [125]

def textElements : List Data → ℕ → Bytes
  | [], _ => []
  | [d], level => indent options (level + 1) ++ d.text (level + 1)
  | d :: next :: rest, level =>
      indent options (level + 1) ++ d.text (level + 1) ++ elementSeparator options ++
        textElements (next :: rest) level

def textFields : List (Bytes × Data) → ℕ → Bytes
  | [], _ => []
  | [(key, d)], level =>
      indent options (level + 1) ++ renderAtKey options d.isObject (.key key) ++ d.text (level + 1)
  | (key, d) :: next :: rest, level =>
      indent options (level + 1) ++ renderAtKey options d.isObject (.key key) ++
        d.text (level + 1) ++ fieldSeparator options ++ textFields (next :: rest) level

end

-- The text of a document: the braces of the root are left out unless it is JSON.
def rootText (fields : List (Bytes × Data)) : Bytes :=
  match fields with
  | [] => [123, 125]
  | fields =>
      (if options.json then [123] else []) ++ newlineIfFormatted options ++
        textFields options fields 0 ++ newlineIfFormatted options ++
        (if options.json then [125] else [])

end

end AsrServiceProxy.Config

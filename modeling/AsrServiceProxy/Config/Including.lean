import AsrServiceProxy.Config.Parser.Separators
import AsrServiceProxy.Config.PathText.Theorems
import AsrServiceProxy.Config.Peek
import AsrServiceProxy.Config.Resolve

-- Where the references of an included file are looked up, when the file is included
-- below the keys of some nested fields.
namespace AsrServiceProxy.Config

open CMemory Simulation

-- The paths that `lookup_subst` looks up in the root for a reference: the full one
-- and, when nothing is there, the one without the prefix.
structure LookUps where
  full : List Bytes
  unprefixed : Option Path

def SubstitutionExpression.lookUps (expr : SubstitutionExpression) (prefixLength : ℕ) : LookUps :=
  { full := expr.path.keys, unprefixed := expr.path.subPath prefixLength }

-- The look-ups of a file that is included below `keys`.
def LookUps.below (keys : List Bytes) (l : LookUps) : LookUps := { l with full := keys ++ l.full }

variable {ι : Type}

-- Those of all references in a value.
mutual

def Value.lookUps : Value ι → List LookUps
  | .configReference _ expr prefixLength => [expr.lookUps prefixLength]
  | .simpleConfigList _ value => lookUpsAll value
  | .simpleConfigObject _ value _ => lookUpsFields value
  | .configConcatenation _ pieces => lookUpsAll pieces
  | .configDelayedMerge _ stack | .configDelayedMergeObject _ stack => lookUpsAll stack
  | _ => []

def lookUpsAll : List (Value ι) → List LookUps
  | [] => []
  | v :: rest => v.lookUps ++ lookUpsAll rest

def lookUpsFields : List (Bytes × Value ι) → List LookUps
  | [] => []
  | (_, v) :: rest => v.lookUps ++ lookUpsFields rest

end

-- A value without the paths of its references.
mutual

def Value.withoutPaths : Value ι → Value ι
  | .configReference id expr _ => .configReference id { expr with path := .newKey [] } 0
  | .simpleConfigList id value => .simpleConfigList id (withoutPathsAll value)
  | .simpleConfigObject id value ignores => .simpleConfigObject id (withoutPathsFields value) ignores
  | .configConcatenation id pieces => .configConcatenation id (withoutPathsAll pieces)
  | .configDelayedMerge id stack => .configDelayedMerge id (withoutPathsAll stack)
  | .configDelayedMergeObject id stack => .configDelayedMergeObject id (withoutPathsAll stack)
  | v => v

def withoutPathsAll : List (Value ι) → List (Value ι)
  | [] => []
  | v :: rest => v.withoutPaths :: withoutPathsAll rest

def withoutPathsFields : List (Bytes × Value ι) → List (Bytes × Value ι)
  | [] => []
  | (key, v) :: rest => (key, v.withoutPaths) :: withoutPathsFields rest

end

-- What a reference comes to depends on its look-ups alone.
theorem lookupSubst_congr (environment : List (Bytes × Bytes)) (options : ConfigResolveOptions)
    (root : Value ℕ) (resolve : Option Path → Value ℕ → Resolve (Option (Value ℕ)))
    (context : Option Path) {expr expr' : SubstitutionExpression} {n n' : ℕ}
    (h : expr.lookUps n = expr'.lookUps n') (hoptional : expr.optional = expr'.optional)
    (hn : 0 < n) (hn' : 0 < n') :
    lookupSubst environment options root resolve context expr n =
      lookupSubst environment options root resolve context expr' n' := by
  obtain ⟨hfull, hunprefixed⟩ := LookUps.mk.inj h
  have hpath := Path.keys_injective hfull
  obtain ⟨path, optional⟩ := expr
  obtain ⟨path', optional'⟩ := expr'
  dsimp only at hpath hoptional hunprefixed
  subst hpath hoptional
  unfold lookupSubst lookupUnprefixed
  simp only [hunprefixed, hn, hn']

theorem Path.subPath_prepend (path front : Path) (n : ℕ) :
    (path.prepend front).subPath (n + front.length) = path.subPath n := by
  induction front with
  | newKey first => rfl
  | cons first remainder ih => exact ih

section

variable (path : Path)

mutual

-- The prefix is put before the full path of each reference and cut off the other one.
theorem lookUps_relativized : ∀ v : Value Unit,
    (relativized path v).lookUps = v.lookUps.map (LookUps.below path.keys)
  | .configNull _ | .configBoolean _ _ | .configInt _ _ _ | .configInt64 _ _ _
  | .configDouble _ _ | .configString _ _ => rfl
  | .configReference _ expr prefixLength => by
      rw [relativized, Value.lookUps, Value.lookUps, SubstitutionExpression.lookUps,
        Path.keys_prepend, Path.subPath_prepend]
      rfl
  | .simpleConfigList _ value => lookUpsAll_relativizedAll value
  | .simpleConfigObject _ value _ => lookUpsFields_relativizedFields value
  | .configConcatenation _ pieces => lookUpsAll_relativizedAll pieces
  | .configDelayedMerge _ stack => lookUpsAll_relativizedAll stack
  | .configDelayedMergeObject _ stack => lookUpsAll_relativizedAll stack

theorem lookUpsAll_relativizedAll : ∀ vs : List (Value Unit),
    lookUpsAll (relativizedAll path vs) = (lookUpsAll vs).map (LookUps.below path.keys)
  | [] => rfl
  | v :: rest => by
      rw [relativizedAll, lookUpsAll, lookUpsAll, lookUps_relativized v,
        lookUpsAll_relativizedAll rest, List.map_append]

theorem lookUpsFields_relativizedFields : ∀ fields : List (Bytes × Value Unit),
    lookUpsFields (relativizedFields path fields) =
      (lookUpsFields fields).map (LookUps.below path.keys)
  | [] => rfl
  | (_, v) :: rest => by
      rw [relativizedFields, lookUpsFields, lookUpsFields, lookUps_relativized v,
        lookUpsFields_relativizedFields rest, List.map_append]

end

mutual

theorem withoutPaths_relativized : ∀ v : Value Unit,
    (relativized path v).withoutPaths = v.withoutPaths
  | .configNull _ | .configBoolean _ _ | .configInt _ _ _ | .configInt64 _ _ _
  | .configDouble _ _ | .configString _ _ | .configReference _ _ _ => rfl
  | .simpleConfigList id value =>
      congrArg (Value.simpleConfigList id) (withoutPathsAll_relativizedAll value)
  | .simpleConfigObject id value ignores =>
      congrArg (Value.simpleConfigObject id · ignores) (withoutPathsFields_relativizedFields value)
  | .configConcatenation id pieces =>
      congrArg (Value.configConcatenation id) (withoutPathsAll_relativizedAll pieces)
  | .configDelayedMerge id stack =>
      congrArg (Value.configDelayedMerge id) (withoutPathsAll_relativizedAll stack)
  | .configDelayedMergeObject id stack =>
      congrArg (Value.configDelayedMergeObject id) (withoutPathsAll_relativizedAll stack)

theorem withoutPathsAll_relativizedAll : ∀ vs : List (Value Unit),
    withoutPathsAll (relativizedAll path vs) = withoutPathsAll vs
  | [] => rfl
  | v :: rest => congrArg₂ List.cons (withoutPaths_relativized v) (withoutPathsAll_relativizedAll rest)

theorem withoutPathsFields_relativizedFields : ∀ fields : List (Bytes × Value Unit),
    withoutPathsFields (relativizedFields path fields) = withoutPathsFields fields
  | [] => rfl
  | (key, v) :: rest =>
      congrArg₂ (fun v fields => (key, v) :: fields) (withoutPaths_relativized v)
        (withoutPathsFields_relativizedFields rest)

end

theorem lookup_relativizedFields (key : Bytes) (fields : Fields Unit) :
    (relativizedFields path fields).lookup key = (fields.lookup key).map (relativized path) := by
  induction fields with
  | nil => rfl
  | cons field rest ih =>
      rw [relativizedFields, List.lookup_cons, List.lookup_cons, ih]
      cases key == field.1 <;> rfl

theorem child_relativized (key : Bytes) (v : Value Unit) :
    (relativized path v).child key = (v.child key).map (relativized path) := by
  cases v with
  | simpleConfigObject id value ignores => exact lookup_relativizedFields path key value
  | _ => rfl

-- What stands below some keys is relativized where it stands.
theorem descend_relativized (keys : List Bytes) (v : Value Unit) :
    (relativized path v).descend keys = (v.descend keys).map (relativized path) := by
  induction keys generalizing v with
  | nil => rfl
  | cons key keys ih =>
      rw [Value.descend_cons, Value.descend_cons, child_relativized]
      cases v.child key with
      | none => rfl
      | some w => exact ih w

end

-- The key of a field as it is written, which the parser does not take for an include.
structure SpelledKey where
  tokens : List Token
  path : Path
  spells : parsePathExpression tokens = .ok path
  isKey : ∀ t ∈ tokens, t.isKey = true
  notInclude : ∀ t ∈ tokens.head?, isIncludeKeyword t = false

-- `k1 { k2 { .. include .. } }`
def nestTokens (inclusion : List Token) : List SpelledKey → List Token
  | [] => inclusion
  | key :: rest => key.tokens ++ .openCurly :: nestTokens inclusion rest ++ [.closeCurly]

-- The keys of the place that a file is included at.
def placeKeys (keys : List SpelledKey) : List Bytes := keys.flatMap fun key => key.path.keys

-- An `include` with a name, alone or in `file()`, and the blanks between its tokens.
inductive Inclusion where
  | plain (blanks : List Token) (name : Bytes)
  | inFile (blanks front back : List Token) (name : Bytes)

def Inclusion.tokens : Inclusion → List Token
  | .plain blanks name =>
      .unquotedText (ascii "include") :: (blanks ++ [.value (.configString () name)])
  | .inFile blanks front back name =>
      .unquotedText (ascii "include") :: (blanks ++ .unquotedText (ascii "file(") ::
        (front ++ .value (.configString () name) :: (back ++ [.unquotedText (ascii ")")])))

def Inclusion.blanks : Inclusion → List Token
  | .plain blanks _ => blanks
  | .inFile blanks front back _ => blanks ++ front ++ back

def Inclusion.name : Inclusion → Bytes × Bool
  | .plain _ name => (name, false)
  | .inFile _ _ _ name => (name, true)

-- What the includer gives for it.
def Inclusion.included (includer : Includer) : Inclusion → Except ConfigException (Value Unit)
  | .plain _ name => includer.include_ name
  | .inFile _ _ _ name => includer.includeFile name

-- Whatever file is included in this nesting, each value of the file stands below the
-- place as it is in the file, except that its references are looked up relative to the
-- place first and then as in the file. So a reference to something that the file has
-- leads to what it leads to in the file alone.
def LooksUpRelative (keys : List SpelledKey) : Prop :=
  ∀ (includer : Includer) (inclusion : Inclusion) (fields : Fields Unit),
    (∀ t ∈ inclusion.blanks, isUnquotedWhitespace t = true) → (fields.map Prod.fst).Nodup →
    inclusion.included includer = .ok (.simpleConfigObject () fields false) →
    ∃ root s, parseDocument .CONF includer
        { tokens := .start :: nestTokens inclusion.tokens keys ++ [.end_]
          buffer := [], pathStack := [] } = .ok root s ∧
      ∀ path v, (Value.simpleConfigObject () fields false).descend path = some v →
        ∃ w, root.descend (placeKeys keys ++ path) = some w ∧
          w.withoutPaths = v.withoutPaths ∧
          w.lookUps = v.lookUps.map (LookUps.below (placeKeys keys)) ∧
          ∀ l ∈ v.lookUps, ∀ target,
            (Value.simpleConfigObject () fields false).descend l.full = some target →
            ∃ found, root.descend (l.below (placeKeys keys)).full = some found ∧
              found.withoutPaths = target.withoutPaths

end AsrServiceProxy.Config

import AsrServiceProxy.Config.DottedKeys
import AsrServiceProxy.Config.Operations.Lens
import AsrServiceProxy.Config.Resolve.Order

-- LayeredDocuments of many fields: what the parser stores for them, and the layers that they
-- stand for.
namespace AsrServiceProxy.Config

open CMemory Simulation

-- A key with a path that a value can be stored under.
structure StoredKey extends SpelledKey where
  storable : path.isStorable

-- A name that the includer finds an object of settings for, and how it is written.
structure IncludedFile (includer : Includer) where
  inclusion : Inclusion
  fields : Fields Unit
  isBlank : ∀ t ∈ inclusion.blanks, isUnquotedWhitespace t = true
  included : inclusion.included includer = .ok (.simpleConfigObject () fields false)
  resolved : Value.resolvedFields fields = true
  nodup : (fields.map Prod.fst).Nodup

inductive FieldSeparator where
  | equals
  | colon

def FieldSeparator.token : FieldSeparator → Token
  | equals => .equals
  | colon => .colon

-- What stands between a field and the next one.
inductive Gap where
  | lines (more : ℕ)
  | comma (before after : ℕ)

def Gap.fieldEnd : Gap → FieldEnd
  | lines more => .lines (more + 1)
  | comma before after => .comma before after

mutual

-- `path = v`, `path { .. }` and `path = { .. }`, or the include of a file.
inductive Entry (includer : Includer) where
  | field (key : StoredKey) (separator : FieldSeparator) (literal : Literal)
  | block (key : StoredKey) (separator : Option FieldSeparator) (before : ℕ) (body : Body includer)
  | inclusion (file : IncludedFile includer)

inductive Body (includer : Includer) where
  | nil
  | last (entry : Entry includer) (fieldEnd : FieldEnd)
  | more (entry : Entry includer) (gap : Gap) (rest : Body includer)

end

variable {includer : Includer}

-- An object with braces.
def braces (before : ℕ) (body : List Token) : List Token :=
  .openCurly :: (List.replicate before .newline ++ (body ++ [.closeCurly]))

mutual

def Entry.tokens : Entry includer → List Token
  | .field key separator literal => key.tokens ++ separator.token :: literal.tokens
  | .block key none before body => key.tokens ++ braces before body.tokens
  | .block key (some separator) before body =>
      key.tokens ++ separator.token :: braces before body.tokens
  | .inclusion file => file.inclusion.tokens

def Body.tokens : Body includer → List Token
  | .nil => []
  | .last entry fieldEnd => entry.tokens ++ fieldEnd.tokens
  | .more entry gap rest => entry.tokens ++ (gap.fieldEnd.tokens ++ rest.tokens)

end

-- A document, whose object may have braces.
inductive LayeredDocument (includer : Includer) where
  | bare (before : ℕ) (body : Body includer)
  | braced (front before : ℕ) (body : Body includer) (back : ℕ)

def LayeredDocument.body : LayeredDocument includer → Body includer
  | bare _ body | braced _ _ body _ => body

def LayeredDocument.tokens : LayeredDocument includer → List Token
  | bare before body => .start :: (List.replicate before .newline ++ (body.tokens ++ [.end_]))
  | braced front before body back => .start :: (List.replicate front .newline ++
      (braces before body.tokens ++ (List.replicate back .newline ++ [.end_])))

-- A value stored over what is there.
def lay (values : Fields Unit) (key : Bytes) (v : Value Unit) : Fields Unit :=
  putField values key ((values.lookup key).elim v (fallback v))

def assign (values : Fields Unit) (path : Path) (v : Value Unit) : Fields Unit :=
  lay values path.first (chain (storedKeys path).tail v)

def layAll (values fields : Fields Unit) : Fields Unit :=
  fields.foldl (fun values field => lay values field.1 field.2) values

-- The fields of an object after the parser has read the entry or the body.
mutual

def Entry.store : Entry includer → Fields Unit → Fields Unit
  | .field key _ literal, values => assign values key.path literal.value
  | .block key _ _ body, values =>
      assign values key.path (.simpleConfigObject () (body.store []) false)
  | .inclusion file, values => layAll values file.fields

def Body.store : Body includer → Fields Unit → Fields Unit
  | .nil, values => values
  | .last entry _, values => entry.store values
  | .more entry _ rest, values => rest.store (entry.store values)

end

-- Objects on top of one another, the last one uppermost.
def stacked (layers : List (Value Unit)) (below : Value Unit) : Value Unit :=
  layers.foldl (fun below layer => fallback layer below) below

def Value.emptyObject : Value Unit := .simpleConfigObject () [] false

-- What a document says: each entry is an object by itself, which lies over those before.
mutual

def Entry.layer : Entry includer → Value Unit
  | .field key _ literal => chain (storedKeys key.path) literal.value
  | .block key _ _ body => chain (storedKeys key.path) (stacked body.layers .emptyObject)
  | .inclusion file => .simpleConfigObject () file.fields false

def Body.layers : Body includer → List (Value Unit)
  | .nil => []
  | .last entry _ => [entry.layer]
  | .more entry _ rest => entry.layer :: rest.layers

end

section

variable {values : Fields Unit} {v v' : Value Unit}

theorem resolved_chain (keys : List Bytes) : (chain keys v).resolved = v.resolved := by
  induction keys with
  | nil => rfl
  | cons key keys ih =>
      show Value.resolvedFields [(key, chain keys v)] = v.resolved
      rw [Value.resolvedFields, Value.resolvedFields, Bool.and_true, ih]

theorem resolvedFields_lay (hvalues : Value.resolvedFields values = true) (key : Bytes)
    (hv : v.resolved = true) : Value.resolvedFields (lay values key v) = true := by
  apply resolvedFields_putField hvalues
  cases hlookup : values.lookup key with
  | none => exact hv
  | some existing =>
      have hexisting : existing.resolved = true := resolved_of_lookup hvalues hlookup
      exact resolved_fallback v existing hv hexisting

theorem resolvedFields_assign (hvalues : Value.resolvedFields values = true) (path : Path)
    (hv : v.resolved = true) : Value.resolvedFields (assign values path v) = true :=
  resolvedFields_lay hvalues path.first (by rw [resolved_chain, hv])

theorem resolvedFields_layAll {fields : Fields Unit} (hfields : Value.resolvedFields fields = true)
    (hvalues : Value.resolvedFields values = true) :
    Value.resolvedFields (layAll values fields) = true := by
  induction fields generalizing values with
  | nil => exact hvalues
  | cons field rest ih =>
      rw [Value.resolvedFields, Bool.and_eq_true] at hfields
      exact ih hfields.2 (resolvedFields_lay hvalues field.1 hfields.1)

-- A key has the value that is stored under it, over the one that it had.
theorem lookup_lay (values : Fields Unit) (key : Bytes) (v : Value Unit) (other : Bytes) :
    (lay values key v).lookup other =
      Option.merge fallback ([(key, v)].lookup other) (values.lookup other) := by
  unfold lay
  rw [Entries.lookup_cons, List.lookup_nil]
  by_cases h : other = key
  · subst h
    rw [lookup_putField_self, if_pos rfl]
    cases values.lookup other with
    | none => rfl
    | some existing => rfl
  · rw [lookup_putField_other values h, if_neg h, Option.merge_none_left]

theorem lookup_layAll {fields : Fields Unit} (hnodup : (fields.map Prod.fst).Nodup)
    (values : Fields Unit) (key : Bytes) :
    (layAll values fields).lookup key =
      Option.merge fallback (fields.lookup key) (values.lookup key) := by
  induction fields generalizing values with
  | nil => rw [List.lookup_nil, Option.merge_none_left, layAll, List.foldl_nil]
  | cons field rest ih =>
      obtain ⟨hfresh, hnodup⟩ := List.nodup_cons.mp hnodup
      rw [layAll, List.foldl_cons]
      refine (ih hnodup _).trans ?_
      rw [lookup_lay, Entries.lookup_cons, Entries.lookup_cons, List.lookup_nil]
      by_cases h : key = field.1
      · have hnone : rest.lookup key = none := by
          rwa [Entries.lookup_eq_none_iff, h]
        rw [if_pos h, hnone, Option.merge_none_left, if_pos h]
      · rw [if_neg h, if_neg h, Option.merge_none_left]

-- Fields with these values are those of the object that falls back on the other one.
theorem shape_over {top values stored : Fields Unit}
    (h : ∀ key, stored.lookup key = Option.merge fallback (top.lookup key) (values.lookup key)) :
    (Value.simpleConfigObject () stored false).shape =
      (fallback (.simpleConfigObject () top false) (.simpleConfigObject () values false)).shape := by
  rw [fallback_objects]
  apply shape_object
  intro key
  have hchild := @child_fallback top values false key
  rw [fallback_objects, Value.child] at hchild
  rw [h, hchild]

theorem shape_chain (keys : List Bytes) (h : v.shape = v'.shape) :
    (chain keys v).shape = (chain keys v').shape := by
  induction keys with
  | nil => exact h
  | cons key keys ih =>
      apply shape_object
      intro other
      rw [Entries.lookup_cons, Entries.lookup_cons]
      split
      · exact congrArg some ih
      · rfl

theorem shape_assign (values : Fields Unit) (path : Path) (v : Value Unit) :
    (Value.simpleConfigObject () (assign values path v) false).shape =
      (fallback (chain (storedKeys path) v) (.simpleConfigObject () values false)).shape :=
  shape_over (lookup_lay values path.first _)

theorem resolved_stacked {layers : List (Value Unit)} {below : Value Unit}
    (hlayers : ∀ layer ∈ layers, layer.resolved = true) (hbelow : below.resolved = true) :
    (stacked layers below).resolved = true := by
  induction layers generalizing below with
  | nil => exact hbelow
  | cons layer rest ih =>
      obtain ⟨hlayer, hrest⟩ := List.forall_mem_cons.mp hlayers
      exact ih hrest (resolved_fallback layer below hlayer hbelow)

theorem shape_stacked {layers : List (Value Unit)} {below below' : Value Unit}
    (hlayers : ∀ layer ∈ layers, layer.resolved = true) (hbelow : below.resolved = true)
    (hbelow' : below'.resolved = true) (h : below.shape = below'.shape) :
    (stacked layers below).shape = (stacked layers below').shape := by
  induction layers generalizing below below' with
  | nil => exact h
  | cons layer rest ih =>
      obtain ⟨hlayer, hrest⟩ := List.forall_mem_cons.mp hlayers
      apply ih hrest
      · exact resolved_fallback layer below hlayer hbelow
      · exact resolved_fallback layer below' hlayer hbelow'
      · exact layer.fallsBackAlike hlayer layer below below' hlayer hbelow hbelow' rfl h

end

mutual

theorem Entry.resolved_layer : ∀ entry : Entry includer, entry.layer.resolved = true
  | .field _ _ literal => (resolved_chain _).trans literal.resolved
  | .block _ _ _ body => (resolved_chain _).trans (resolved_stacked body.resolved_layers rfl)
  | .inclusion file => file.resolved

theorem Body.resolved_layers : ∀ body : Body includer, ∀ layer ∈ body.layers, layer.resolved = true
  | .nil => by simp [Body.layers]
  | .last entry _ => by
      rw [Body.layers, List.forall_mem_singleton]
      exact entry.resolved_layer
  | .more entry _ rest => by
      rw [Body.layers, List.forall_mem_cons]
      exact ⟨entry.resolved_layer, rest.resolved_layers⟩

end

mutual

theorem Entry.resolvedFields_store : ∀ (entry : Entry includer) {values : Fields Unit},
    Value.resolvedFields values = true → Value.resolvedFields (entry.store values) = true
  | .field key _ literal, _, h => resolvedFields_assign h key.path literal.resolved
  | .block key _ _ body, _, h =>
      resolvedFields_assign h key.path (body.resolvedFields_store rfl)
  | .inclusion file, _, h => resolvedFields_layAll file.resolved h

theorem Body.resolvedFields_store : ∀ (body : Body includer) {values : Fields Unit},
    Value.resolvedFields values = true → Value.resolvedFields (body.store values) = true
  | .nil, _, h => h
  | .last entry _, _, h => entry.resolvedFields_store h
  | .more entry _ rest, _, h => rest.resolvedFields_store (entry.resolvedFields_store h)

end

-- What is stored is what the layers come to, but for the order of the fields.
mutual

theorem Entry.shape_store : ∀ (entry : Entry includer) {values : Fields Unit},
    Value.resolvedFields values = true →
    (Value.simpleConfigObject () (entry.store values) false).shape =
      (fallback entry.layer (.simpleConfigObject () values false)).shape
  | .field key _ literal, values, _ => shape_assign values key.path literal.value
  | .block key _ _ body, values, hvalues => by
      have hstored : (Value.simpleConfigObject () (body.store []) false).resolved = true :=
        body.resolvedFields_store rfl
      have hlayers : (stacked body.layers .emptyObject).resolved = true :=
        resolved_stacked body.resolved_layers rfl
      rw [Entry.store, Entry.layer, shape_assign]
      apply Value.fallsBackAlike
      · rw [resolved_chain, hstored]
      · rw [resolved_chain, hlayers]
      · exact hvalues
      · exact hvalues
      · exact shape_chain _ (body.shape_store rfl)
      · rfl
  | .inclusion file, values, _ => shape_over (lookup_layAll file.nodup values)

theorem Body.shape_store : ∀ (body : Body includer) {values : Fields Unit},
    Value.resolvedFields values = true →
    (Value.simpleConfigObject () (body.store values) false).shape =
      (stacked body.layers (.simpleConfigObject () values false)).shape
  | .nil, _, _ => rfl
  | .last entry _, _, h => entry.shape_store h
  | .more entry _ rest, values, h => by
      have hentry := entry.resolvedFields_store h
      rw [Body.store, Body.layers, rest.shape_store hentry]
      exact shape_stacked rest.resolved_layers hentry
        (resolved_fallback _ _ entry.resolved_layer h) (entry.shape_store h)

end

end AsrServiceProxy.Config

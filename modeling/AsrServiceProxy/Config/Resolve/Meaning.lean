import AsrServiceProxy.Config.Concatenation.Contents
import AsrServiceProxy.Config.Lookup.Theorems
import AsrServiceProxy.Lib.Entries.Matching

-- What a config means: what each value comes to when its references are followed.
-- There is no order here in which this happens, nothing is remembered, and what
-- leads back to itself has no meaning.
namespace AsrServiceProxy.Config

open CMemory Entries

-- What references are looked up in.
structure Sources where
  environment : List (Bytes × Bytes)
  options : ConfigResolveOptions
  root : Value Unit

-- The contents of `env_variables_as_config_object`.
def Sources.variables (sources : Sources) : Value Unit :=
  .simpleConfigObject ()
    (sources.environment.map fun entry => (entry.1, .configString () entry.2)) false

-- What may be asked about values: what one comes to, what is found when keys are
-- followed from it, and what a reference is to. What is found is left as it stands.
inductive Query where
  | value (v : Value Unit)
  | path (v : Value Unit) (keys : List Bytes)
  | reference (expr : SubstitutionExpression) (prefixLength : ℕ)

inductive Answers (sources : Sources) : Query → Option (Value Unit) → Prop
  | primitive {v : Value Unit} (hv : v.isPrimitive) : Answers sources (.value v) (some v)
  | list {vs ws : List (Value Unit)} (hlength : vs.length = ws.length)
      (h : ∀ v w, (v, w) ∈ vs.zip ws → Answers sources (.value v) (some w)) :
      Answers sources (.value (.simpleConfigList () vs)) (some (.simpleConfigList () ws))
  | object {fields results : Fields Unit} {ignores : Bool} (hlength : fields.length = results.length)
      (hkeys : ∀ x y, (x, y) ∈ fields.zip results → x.1 = y.1)
      (h : ∀ x y, (x, y) ∈ fields.zip results → Answers sources (.value x.2) (some y.2)) :
      Answers sources (.value (.simpleConfigObject () fields ignores))
        (some (.simpleConfigObject () results ignores))
  | reference {expr : SubstitutionExpression} {prefixLength : ℕ} {u w : Value Unit}
      (htarget : Answers sources (.reference expr prefixLength) (some u))
      (hu : Answers sources (.value u) (some w)) :
      Answers sources (.value (.configReference () expr prefixLength)) (some w)
  | concatenation {pieces ws : List (Value Unit)} {w : Value Unit}
      (hlength : pieces.length = ws.length)
      (h : ∀ v w, (v, w) ∈ pieces.zip ws → Answers sources (.value v) (some w))
      (hjoin : consolidate .plain ws () = .ok [w] ()) :
      Answers sources (.value (.configConcatenation () pieces)) (some w)
  | here (v : Value Unit) : Answers sources (.path v []) (some v)
  | child {v u : Value Unit} {key : Bytes} {keys : List Bytes} {r : Option (Value Unit)}
      (hchild : v.child key = some u) (h : Answers sources (.path u keys) r) :
      Answers sources (.path v (key :: keys)) r
  | missing {v : Value Unit} {key : Bytes} (keys : List Bytes) (hchild : v.child key = none)
      (hv : v.isUnmergeable = false) : Answers sources (.path v (key :: keys)) none
  | throughReference {expr : SubstitutionExpression} {prefixLength : ℕ} {u : Value Unit}
      {key : Bytes} {keys : List Bytes} {r : Option (Value Unit)}
      (htarget : Answers sources (.reference expr prefixLength) (some u))
      (h : Answers sources (.path u (key :: keys)) r) :
      Answers sources (.path (.configReference () expr prefixLength) (key :: keys)) r
  | throughConcatenation {pieces : List (Value Unit)} {w : Value Unit} {key : Bytes}
      {keys : List Bytes} {r : Option (Value Unit)}
      (hw : Answers sources (.value (.configConcatenation () pieces)) (some w))
      (h : Answers sources (.path w (key :: keys)) r) :
      Answers sources (.path (.configConcatenation () pieces) (key :: keys)) r
  | full {expr : SubstitutionExpression} {prefixLength : ℕ} {u : Value Unit}
      (h : Answers sources (.path sources.root expr.path.keys) (some u)) :
      Answers sources (.reference expr prefixLength) (some u)
  | unprefixed {expr : SubstitutionExpression} {prefixLength : ℕ} {path : Path} {u : Value Unit}
      (hfull : Answers sources (.path sources.root expr.path.keys) none) (hpositive : 0 < prefixLength)
      (hpath : expr.path.subPath prefixLength = some path)
      (h : Answers sources (.path sources.root path.keys) (some u)) :
      Answers sources (.reference expr prefixLength) (some u)
  | systemEnvironment {expr : SubstitutionExpression} {prefixLength : ℕ} {path : Path} {u : Value Unit}
      (hfull : Answers sources (.path sources.root expr.path.keys) none)
      (hpath : expr.path.subPath prefixLength = some path)
      (hunprefixed : 0 < prefixLength → Answers sources (.path sources.root path.keys) none)
      (huse : sources.options.useSystemEnvironment = true)
      (h : sources.variables.descend path.keys = some u) :
      Answers sources (.reference expr prefixLength) (some u)

-- A value, or a part of it, with some of what it comes to put in its place.
inductive Reduces (sources : Sources) : Value Unit → Value Unit → Prop
  | keep (v : Value Unit) : Reduces sources v v
  | object {fields results : Fields Unit} {ignores : Bool} (hlength : fields.length = results.length)
      (hkeys : ∀ x y, (x, y) ∈ fields.zip results → x.1 = y.1)
      (h : ∀ x y, (x, y) ∈ fields.zip results → Reduces sources x.2 y.2) :
      Reduces sources (.simpleConfigObject () fields ignores)
        (.simpleConfigObject () results ignores)
  | reference {expr : SubstitutionExpression} {prefixLength : ℕ} {u w : Value Unit}
      (htarget : Answers sources (.reference expr prefixLength) (some u))
      (hu : Reduces sources u w) :
      Reduces sources (.configReference () expr prefixLength) w
  | value {v w : Value Unit} (h : Answers sources (.value v) (some w)) : Reduces sources v w

abbrev ComesTo (sources : Sources) (v w : Value Unit) : Prop :=
  Answers sources (.value v) (some w)

abbrev LeadsTo (sources : Sources) (v : Value Unit) (keys : List Bytes) (r : Option (Value Unit)) :
    Prop :=
  Answers sources (.path v keys) r

variable {sources : Sources}

theorem eq_of_zip {α β : Type} {xs : List α} {ys zs : List β} (hlength : xs.length = ys.length)
    (hlength' : xs.length = zs.length)
    (h : ∀ x y z, (x, y) ∈ xs.zip ys → (x, z) ∈ xs.zip zs → y = z) : ys = zs := by
  induction xs generalizing ys zs with
  | nil =>
      rw [List.eq_nil_of_length_eq_zero hlength.symm, List.eq_nil_of_length_eq_zero hlength'.symm]
  | cons x xs ih =>
      cases ys with
      | nil => cases hlength
      | cons y ys =>
          cases zs with
          | nil => cases hlength'
          | cons z zs =>
              have hhead := h x y z List.mem_cons_self List.mem_cons_self
              have htail := ih (Nat.succ.inj hlength) (Nat.succ.inj hlength')
                fun a b c hb hc => h a b c (List.mem_cons_of_mem _ hb) (List.mem_cons_of_mem _ hc)
              rw [hhead, htail]

-- Nothing has two answers.
theorem Answers.unique {query : Query} {r r' : Option (Value Unit)} (h : Answers sources query r)
    (h' : Answers sources query r') : r = r' := by
  induction h generalizing r' with
  | primitive hv =>
      cases h' with
      | primitive => rfl
      | _ => cases hv
  | list hlength _ ih =>
      cases h' with
      | primitive hv => cases hv
      | list hlength' h' =>
          rw [eq_of_zip hlength hlength' fun v w w' hw hw' =>
            Option.some.inj (ih v w hw (h' v w' hw'))]
  | object hlength hkeys _ ih =>
      cases h' with
      | primitive hv => cases hv
      | object hlength' hkeys' h' =>
          rw [eq_of_zip hlength hlength' fun x y y' hy hy' => Prod.ext
            ((hkeys x y hy).symm.trans (hkeys' x y' hy'))
            (Option.some.inj (ih x y hy (h' x y' hy')))]
  | reference _ _ ihtarget ihu =>
      cases h' with
      | primitive hv => cases hv
      | reference htarget hu =>
          cases ihtarget htarget
          exact ihu hu
  | concatenation hlength _ hjoin ih =>
      cases h' with
      | primitive hv => cases hv
      | concatenation hlength' h' hjoin' =>
          have hpieces := eq_of_zip hlength hlength' fun v w w' hw hw' =>
            Option.some.inj (ih v w hw (h' v w' hw'))
          rw [hpieces, hjoin'] at hjoin
          cases hjoin
          rfl
  | here =>
      cases h'
      rfl
  | child hchild _ ih =>
      cases h' with
      | child hchild' h' =>
          rw [hchild] at hchild'
          cases hchild'
          exact ih h'
      | missing _ hchild' =>
          rw [hchild] at hchild'
          cases hchild'
      | _ => cases hchild
  | missing _ hchild hv =>
      cases h' with
      | child hchild' =>
          rw [hchild] at hchild'
          cases hchild'
      | missing => rfl
      | _ => cases hv
  | throughReference _ _ ihtarget ih =>
      cases h' with
      | child hchild => cases hchild
      | missing _ _ hv => cases hv
      | throughReference htarget h' =>
          cases ihtarget htarget
          exact ih h'
  | throughConcatenation _ _ ihw ih =>
      cases h' with
      | child hchild => cases hchild
      | missing _ _ hv => cases hv
      | throughConcatenation hw h' =>
          cases ihw hw
          exact ih h'
  | full _ ih =>
      cases h' with
      | full h' => exact ih h'
      | unprefixed hfull | systemEnvironment hfull => cases ih hfull
  | unprefixed _ hpositive hpath _ ihfull ih =>
      cases h' with
      | full h' => cases ihfull h'
      | unprefixed _ _ hpath' h' =>
          rw [hpath] at hpath'
          cases hpath'
          exact ih h'
      | systemEnvironment _ hpath' hunprefixed =>
          rw [hpath] at hpath'
          cases hpath'
          cases ih (hunprefixed hpositive)
  | systemEnvironment _ hpath _ _ h ihfull ihunprefixed =>
      cases h' with
      | full h' => cases ihfull h'
      | unprefixed _ hpositive hpath' h' =>
          rw [hpath] at hpath'
          cases hpath'
          cases ihunprefixed hpositive h'
      | systemEnvironment _ hpath' _ _ h' =>
          rw [hpath] at hpath'
          cases hpath'
          rw [← h, ← h']

section

variable {vs ws : List (Value Unit)} {fields results : Fields Unit} {ignores : Bool}

theorem ComesTo.list (h : List.Forall₂ (ComesTo sources) vs ws) :
    ComesTo sources (.simpleConfigList () vs) (.simpleConfigList () ws) :=
  Answers.list h.length_eq fun _ _ => List.forall₂_zip h

theorem ComesTo.object (h : Matching (ComesTo sources) fields results) :
    ComesTo sources (.simpleConfigObject () fields ignores)
      (.simpleConfigObject () results ignores) := by
  obtain ⟨hlength, hkeys, h⟩ := matching_iff_zip.mp h
  exact Answers.object hlength hkeys h

theorem ComesTo.concatenation {w : Value Unit} (h : List.Forall₂ (ComesTo sources) vs ws)
    (hjoin : consolidate .plain ws () = .ok [w] ()) :
    ComesTo sources (.configConcatenation () vs) w :=
  Answers.concatenation h.length_eq (fun _ _ => List.forall₂_zip h) hjoin

theorem Reduces.ofFields (h : Matching (Reduces sources) fields results) :
    Reduces sources (.simpleConfigObject () fields ignores)
      (.simpleConfigObject () results ignores) := by
  obtain ⟨hlength, hkeys, h⟩ := matching_iff_zip.mp h
  exact Reduces.object hlength hkeys h

end

-- What is resolved comes to itself.
mutual

theorem Value.comesTo_self : ∀ v : Value Unit, v.resolved → ComesTo sources v v
  | .configNull _, _ | .configBoolean _ _, _ | .configInt _ _ _, _ | .configInt64 _ _ _, _
  | .configDouble _ _, _ | .configString _ _, _ => Answers.primitive rfl
  | .simpleConfigList _ value, h => ComesTo.list (comesToAll_self value h)
  | .simpleConfigObject _ value _, h => ComesTo.object (comesToFields_self value h)

theorem comesToAll_self : ∀ vs : List (Value Unit), Value.resolvedAll vs →
    List.Forall₂ (ComesTo sources) vs vs
  | [], _ => .nil
  | v :: rest, h => by
      rw [Value.resolvedAll, Bool.and_eq_true] at h
      exact .cons (v.comesTo_self h.1) (comesToAll_self rest h.2)

theorem comesToFields_self : ∀ fields : Fields Unit, Value.resolvedFields fields →
    Matching (ComesTo sources) fields fields
  | [], _ => .nil
  | (_, v) :: rest, h => by
      rw [Value.resolvedFields, Bool.and_eq_true] at h
      exact .cons ⟨rfl, v.comesTo_self h.1⟩ (comesToFields_self rest h.2)

end

theorem mem_zip_right {α β : Type} {xs : List α} {ys : List β} (hlength : xs.length = ys.length)
    {y : β} (hy : y ∈ ys) : ∃ x, (x, y) ∈ xs.zip ys := by
  rw [← List.map_snd_zip hlength.ge] at hy
  obtain ⟨⟨x, _⟩, hmem, rfl⟩ := List.mem_map.mp hy
  exact ⟨x, hmem⟩

-- What a value comes to has nothing left to resolve.
theorem Answers.resolved {query : Query} {r : Option (Value Unit)} (h : Answers sources query r) :
    ∀ v w, query = .value v → r = some w → w.resolved = true := by
  induction h with
  | primitive hv =>
      rintro _ _ ⟨⟩ ⟨⟩
      exact Value.resolved_of_isPrimitive hv
  | list hlength _ ih =>
      rintro _ _ ⟨⟩ ⟨⟩
      rw [Value.resolved, resolvedAll_iff]
      intro w hw
      obtain ⟨v, hmem⟩ := mem_zip_right hlength hw
      exact ih v w hmem v w rfl rfl
  | object hlength _ _ ih =>
      rintro _ _ ⟨⟩ ⟨⟩
      rw [Value.resolved, resolvedFields_iff]
      intro y hy
      obtain ⟨x, hmem⟩ := mem_zip_right hlength hy
      exact ih x y hmem x.2 y.2 rfl rfl
  | reference _ _ _ ih =>
      rintro _ w ⟨⟩ hw
      exact ih _ w rfl hw
  | @concatenation pieces ws w hlength _ hjoin ih =>
      rintro _ _ ⟨⟩ ⟨⟩
      have hws : ∀ w ∈ ws, w.resolved = true := by
        intro w hw
        obtain ⟨v, hmem⟩ := mem_zip_right hlength hw
        exact ih v w hmem v w rfl rfl
      have hgives := gives_consolidate_contents .plain hws ()
      rw [hjoin] at hgives
      exact hgives.1 w List.mem_cons_self
  | _ => rintro _ _ ⟨⟩

theorem ComesTo.resolved {v w : Value Unit} (h : ComesTo sources v w) : w.resolved = true :=
  Answers.resolved h v w rfl rfl

theorem ComesTo.eq {v w : Value Unit} (h : ComesTo sources v w) (hv : v.resolved) : w = v :=
  Option.some.inj (h.unique (v.comesTo_self hv))

-- The keys are followed through objects alone.
def Clear : List Bytes → Value Unit → Prop
  | [], _ => True
  | key :: keys, v => v.isUnmergeable = false ∧ ∀ u, v.child key = some u → Clear keys u

theorem Clear.of_resolved (keys : List Bytes) {v : Value Unit} (h : v.resolved) : Clear keys v := by
  induction keys generalizing v with
  | nil => trivial
  | cons key keys ih =>
      exact ⟨not_isUnmergeable_of_resolved h, fun u hu => ih (Value.resolved_of_child h hu)⟩

theorem Clear.leadsTo {keys : List Bytes} {v : Value Unit} (h : Clear keys v) :
    LeadsTo sources v keys (v.descend keys) := by
  induction keys generalizing v with
  | nil => exact Answers.here v
  | cons key keys ih =>
      rw [Value.descend_cons]
      cases hchild : v.child key with
      | none => exact Answers.missing keys hchild h.1
      | some u => exact Answers.child hchild (ih (h.2 u hchild))

-- What is found from a value and what is found from the value it comes to.
theorem Answers.leadsTo {query : Query} {r : Option (Value Unit)} (h : Answers sources query r) :
    ∀ v w, query = .value v → r = some w → ∀ keys, ∃ found, LeadsTo sources v keys found ∧
      Option.Rel (ComesTo sources) found (w.descend keys) := by
  induction h with
  | @primitive v hv =>
      rintro _ _ ⟨⟩ ⟨⟩ keys
      have hresolved := Value.resolved_of_isPrimitive hv
      refine ⟨_, (Clear.of_resolved keys hresolved).leadsTo, ?_⟩
      cases hfound : v.descend keys with
      | none => exact .none
      | some u => exact .some (u.comesTo_self (Value.resolved_of_descend hresolved hfound))
  | list hlength h =>
      rintro _ _ ⟨⟩ ⟨⟩ keys
      cases keys with
      | nil => exact ⟨_, Answers.here _, .some (Answers.list hlength h)⟩
      | cons key keys => exact ⟨_, Answers.missing keys rfl rfl, .none⟩
  | @object fields results ignores hlength hkeys h ih =>
      rintro _ _ ⟨⟩ ⟨⟩ keys
      cases keys with
      | nil => exact ⟨_, Answers.here _, .some (Answers.object hlength hkeys h)⟩
      | cons key keys =>
          have hmatching : Matching (fun v w => ∀ keys, ∃ found, LeadsTo sources v keys found ∧
              Option.Rel (ComesTo sources) found (w.descend keys)) fields results :=
            matching_iff_zip.mpr ⟨hlength, hkeys, fun x y hmem => ih x y hmem x.2 y.2 rfl rfl⟩
          have hlookup := hmatching.lookup key
          rw [Value.descend_cons, Value.child]
          generalize hfield : fields.lookup key = field at hlookup
          generalize results.lookup key = result at hlookup
          cases hlookup with
          | none => exact ⟨none, Answers.missing keys hfield rfl, .none⟩
          | some hvw =>
              obtain ⟨found, hfound, hrel⟩ := hvw keys
              exact ⟨found, Answers.child hfield hfound, hrel⟩
  | reference htarget hu _ ih =>
      rintro _ _ ⟨⟩ ⟨⟩ keys
      cases keys with
      | nil => exact ⟨_, Answers.here _, .some (Answers.reference htarget hu)⟩
      | cons key keys =>
          obtain ⟨found, hfound, hrel⟩ := ih _ _ rfl rfl (key :: keys)
          exact ⟨found, Answers.throughReference htarget hfound, hrel⟩
  | @concatenation pieces ws w hlength h hjoin _ =>
      rintro _ _ ⟨⟩ ⟨⟩ keys
      have hw : ComesTo sources (.configConcatenation () pieces) w :=
        Answers.concatenation hlength h hjoin
      cases keys with
      | nil => exact ⟨_, Answers.here _, .some hw⟩
      | cons key keys =>
          refine ⟨_, Answers.throughConcatenation hw (Clear.of_resolved _ hw.resolved).leadsTo, ?_⟩
          cases hfound : w.descend (key :: keys) with
          | none => exact .none
          | some u => exact .some (u.comesTo_self (Value.resolved_of_descend hw.resolved hfound))
  | _ => rintro _ _ ⟨⟩

theorem ComesTo.leadsTo {v w : Value Unit} (h : ComesTo sources v w) (keys : List Bytes) :
    ∃ found, LeadsTo sources v keys found ∧
      Option.Rel (ComesTo sources) found (w.descend keys) :=
  Answers.leadsTo h v w rfl rfl keys

-- What is resolved is not reduced further.
theorem Reduces.eq_of_resolved {v w : Value Unit} (h : Reduces sources v w) (hv : v.resolved) :
    v = w := by
  induction h with
  | keep => rfl
  | object hlength hkeys _ ih =>
      have hmatching := matching_iff_zip.mpr ⟨hlength, hkeys, fun x y hmem =>
        ih x y hmem (resolvedFields_iff.mp hv x (List.of_mem_zip hmem).1)⟩
      rw [Matching.eq hmatching]
  | reference => cases hv
  | value h => exact (ComesTo.eq h hv).symm

-- What is reduced until nothing is left to resolve is what the value comes to.
theorem Reduces.comesTo {v w : Value Unit} (h : Reduces sources v w) (hw : w.resolved) :
    ComesTo sources v w := by
  induction h with
  | keep v => exact v.comesTo_self hw
  | object hlength hkeys _ ih =>
      exact Answers.object hlength hkeys fun x y hmem =>
        ih x y hmem (resolvedFields_iff.mp hw y (List.of_mem_zip hmem).2)
  | reference htarget _ ih => exact Answers.reference htarget (ih hw)
  | value h => exact h

theorem Reduces.trans {u v w : Value Unit} (h : Reduces sources u v) (h' : Reduces sources v w) :
    Reduces sources u w := by
  induction h generalizing w with
  | keep => exact h'
  | @object fields results ignores hlength hkeys h ih =>
      have hmatching : Matching (fun v w => ∀ u, Reduces sources w u → Reduces sources v u)
          fields results :=
        matching_iff_zip.mpr ⟨hlength, hkeys, fun x y hmem w hw => ih x y hmem hw⟩
      have htrans {last : Fields Unit} (h : Matching (Reduces sources) results last) :
          Matching (Reduces sources) fields last :=
        hmatching.trans (fun _ _ z hxy hyz => hxy z hyz) h
      cases h' with
      | keep => exact .object hlength hkeys h
      | object hlength' hkeys' h' =>
          exact .ofFields (htrans (matching_iff_zip.mpr ⟨hlength', hkeys', h'⟩))
      | value h' =>
          cases h' with
          | primitive hv => cases hv
          | object hlength' hkeys' h' =>
              exact .ofFields (htrans (matching_iff_zip.mpr ⟨hlength', hkeys', fun x y hmem =>
                .value (h' x y hmem)⟩))
  | reference htarget _ ih => exact .reference htarget (ih h')
  | value h =>
      rw [← h'.eq_of_resolved (ComesTo.resolved h)]
      exact .value h

-- What keys lead to is led to from a value before it was reduced for these keys.
theorem Reduces.leadsTo {v w : Value Unit} (h : Reduces sources v w) {keys : List Bytes}
    (hclear : Clear keys w) : ∃ found, LeadsTo sources v keys found ∧
      Option.Rel (Reduces sources) found (w.descend keys) := by
  induction h generalizing keys with
  | keep v =>
      refine ⟨_, hclear.leadsTo, ?_⟩
      cases v.descend keys with
      | none => exact .none
      | some u => exact .some (.keep u)
  | @object fields results ignores hlength hkeys h ih =>
      cases keys with
      | nil => exact ⟨_, Answers.here _, .some (.object hlength hkeys h)⟩
      | cons key keys =>
          have hmatching : Matching (fun v w => Clear keys w → ∃ found, LeadsTo sources v keys found ∧
              Option.Rel (Reduces sources) found (w.descend keys)) fields results :=
            matching_iff_zip.mpr ⟨hlength, hkeys, fun x y hmem hclear => ih x y hmem hclear⟩
          have hlookup := hmatching.lookup key
          have hchild := hclear.2
          rw [Value.descend_cons, Value.child]
          rw [Value.child] at hchild
          generalize hfield : fields.lookup key = field at hlookup
          generalize results.lookup key = result at hlookup hchild
          cases hlookup with
          | none => exact ⟨none, Answers.missing keys hfield rfl, .none⟩
          | some hvw =>
              obtain ⟨found, hfound, hrel⟩ := hvw (hchild _ rfl)
              exact ⟨found, Answers.child hfield hfound, hrel⟩
  | reference htarget hu ih =>
      cases keys with
      | nil => exact ⟨_, Answers.here _, .some (.reference htarget hu)⟩
      | cons key keys =>
          obtain ⟨found, hfound, hrel⟩ := ih hclear
          exact ⟨found, Answers.throughReference htarget hfound, hrel⟩
  | value h =>
      obtain ⟨found, hfound, hrel⟩ := ComesTo.leadsTo h keys
      exact ⟨found, hfound, rel_imp hrel fun _ _ => .value⟩

end AsrServiceProxy.Config

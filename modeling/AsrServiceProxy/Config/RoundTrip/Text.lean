import AsrServiceProxy.Config.Data

-- The printer writes the text of the data that a value holds.
namespace AsrServiceProxy.Config

open CMemory

theorem renderStringUnquotedIfPossible_eq (s : Bytes) :
    renderStringUnquotedIfPossible s = renderJsonString s := by
  cases s with
  | nil => rfl
  | cons first rest =>
      by_cases hd : isdigit first
      · simp [renderStringUnquotedIfPossible, hd]
      · simp [renderStringUnquotedIfPossible, hd]

theorem chop_append (s t : Bytes) : chop (s ++ t) t.length = s := by simp [chop]

-- The separators that a list has too many.
theorem chop_elements (options : ConfigRenderOptions) (s tail : Bytes) :
    (if options.formatted then chop (chop (s ++ elementSeparator options) 1) 1 ++ [10] ++ tail
      else chop (s ++ elementSeparator options) 1) =
      s ++ if options.formatted then [10] ++ tail else [] := by
  by_cases hf : options.formatted
  · have hlast : chop (s ++ [44] ++ [10]) 1 = s ++ [44] := chop_append (s ++ [44]) [10]
    have hcomma : chop (s ++ [44]) 1 = s := chop_append s [44]
    simp only [hf, elementSeparator, newlineIfFormatted, ite_true, ← List.append_assoc, hlast,
      hcomma]
  · have hcomma : chop (s ++ [44]) 1 = s := chop_append s [44]
    simp [hf, elementSeparator, newlineIfFormatted, hcomma]

section

variable {ι : Type} (doubles : Doubles) (options : ConfigRenderOptions)

theorem dataAll_eq_nil {values : List (Value ι)} (h : dataAll values = some []) : values = [] := by
  cases values with
  | nil => rfl
  | cons v rest =>
      simp only [dataAll] at h
      split at h <;> simp at h

theorem dataFields_eq_nil {fields : Fields ι} (h : dataFields fields = some []) : fields = [] := by
  cases fields with
  | nil => rfl
  | cons field rest =>
      simp only [dataFields] at h
      split at h <;> simp at h

theorem dataAll_eq_cons {values : List (Value ι)} {d : Data} {ds : List Data}
    (h : dataAll values = some (d :: ds)) :
    ∃ v rest, values = v :: rest ∧ v.data = some d ∧ dataAll rest = some ds := by
  cases values with
  | nil => simp [dataAll] at h
  | cons v rest =>
      simp only [dataAll] at h
      split at h
      · simp_all
      · cases h

theorem dataFields_eq_cons {fields : Fields ι} {key : Bytes} {d : Data} {ds : List (Bytes × Data)}
    (h : dataFields fields = some ((key, d) :: ds)) :
    ∃ v rest, fields = (key, v) :: rest ∧ v.data = some d ∧ dataFields rest = some ds := by
  cases fields with
  | nil => simp [dataFields] at h
  | cons field rest =>
      obtain ⟨key', v⟩ := field
      simp only [dataFields] at h
      split at h
      · simp_all
      · cases h

-- What the loop over the fields of an object appends, for an object that has some.
mutual

theorem renderTo_eq (v : Value ι) (d : Data) (h : v.data = some d) (at_ : AtKey) (level : ℕ)
    (hl : 0 < level) (s : Bytes) :
    v.renderTo doubles options at_ level s =
      .ok (s ++ renderAtKey options d.isObject at_ ++ d.text options level) := by
  cases v with
  | configNull id =>
      obtain rfl : Data.null = d := by simpa [Value.data] using h
      simp [Value.renderTo, Data.isObject, Data.text]
  | configBoolean id b =>
      obtain rfl : Data.boolean b = d := by simpa [Value.data] using h
      simp [Value.renderTo, Data.isObject, Data.text]
  | configInt id n originalText =>
      obtain rfl : Data.number n.toInt64 = d := by simpa [Value.data] using h
      simp [Value.renderTo, Data.isObject, Data.text]
  | configInt64 id n originalText =>
      obtain rfl : Data.number n = d := by simpa [Value.data] using h
      simp [Value.renderTo, Data.isObject, Data.text]
  | configString id value =>
      obtain rfl : Data.string value = d := by simpa [Value.data] using h
      simp [Value.renderTo, Data.isObject, Data.text, renderStringUnquotedIfPossible_eq]
  | simpleConfigList id value =>
      obtain ⟨ds, hds, rfl⟩ : ∃ ds, dataAll value = some ds ∧ Data.list ds = d := by
        simpa [Value.data] using h
      cases ds with
      | nil =>
          obtain rfl := dataAll_eq_nil hds
          simp [Value.renderTo, Data.isObject, Data.text, pure, Except.pure]
      | cons first rest =>
          have hne : value.isEmpty = false := by
            obtain ⟨_, _, rfl, _⟩ := dataAll_eq_cons hds
            rfl
          have hloop := renderElements_eq value (first :: rest) hds (by simp) level
          simp only [Value.renderTo, hne, hloop, bind, Except.bind, pure, Except.pure,
            Bool.false_eq_true, ite_false, Data.isObject, Data.text, chop_elements]
          by_cases hf : options.formatted <;> simp [hf, newlineIfFormatted, indent]
  | simpleConfigObject id value ignores =>
      obtain ⟨ds, hds, rfl⟩ : ∃ ds, dataFields value = some ds ∧ Data.object ds = d := by
        simpa [Value.data] using h
      cases ds with
      | nil =>
          obtain rfl := dataFields_eq_nil hds
          simp [Value.renderTo, Data.isObject, Data.text, pure, Except.pure]
      | cons first rest =>
          have hne : value.isEmpty = false := by
            obtain ⟨key, d⟩ := first
            obtain ⟨_, _, rfl, _⟩ := dataFields_eq_cons hds
            rfl
          have hloop := renderFields_eq value (first :: rest) hds (by simp) level
          simp only [Value.renderTo, hne, hloop, bind, Except.bind, pure, Except.pure,
            Bool.false_eq_true, ite_false, Data.isObject, Data.text, chop_append, hl, decide_true,
            Bool.true_or, ite_true]
          by_cases hf : options.formatted <;> simp [hf, newlineIfFormatted, indent]
  | configDouble id text => simp [Value.data] at h
  | configReference id expr n => simp [Value.data] at h
  | configConcatenation id pieces => simp [Value.data] at h
  | configDelayedMerge id stack => simp [Value.data] at h
  | configDelayedMergeObject id stack => simp [Value.data] at h

theorem renderElements_eq (values : List (Value ι)) (ds : List Data) (h : dataAll values = some ds)
    (hne : ds ≠ []) (level : ℕ) (s : Bytes) :
    renderElements doubles options values level s =
      .ok (s ++ textElements options ds level ++ elementSeparator options) := by
  match values, ds, h, hne with
  | _, [], _, hne => exact absurd rfl hne
  | [], d :: ds, h, _ => simp [dataAll] at h
  | v :: rest, d :: ds, h, _ =>
      obtain ⟨v', rest', heq, hv, hrest⟩ := dataAll_eq_cons h
      obtain ⟨rfl, rfl⟩ := List.cons.inj heq
      have hfirst := renderTo_eq v d hv .element (level + 1) (by omega)
      simp only [renderElements, hfirst, bind, Except.bind]
      cases ds with
      | nil =>
          obtain rfl := dataAll_eq_nil hrest
          simp [renderElements, textElements, elementSeparator, renderAtKey]
      | cons next ds =>
          rw [renderElements_eq rest (next :: ds) hrest (by simp) level]
          simp [textElements, elementSeparator, renderAtKey]

theorem renderFields_eq (fields : List (Bytes × Value ι)) (ds : List (Bytes × Data))
    (h : dataFields fields = some ds) (hne : ds ≠ []) (level : ℕ) (s : Bytes) :
    renderFields doubles options fields level s =
      .ok (s ++ textFields options ds level ++ fieldSeparator options) := by
  match fields, ds, h, hne with
  | _, [], _, hne => exact absurd rfl hne
  | [], d :: ds, h, _ => simp [dataFields] at h
  | (key, v) :: rest, (key', d) :: ds, h, _ =>
      obtain ⟨v', rest', heq, hv, hrest⟩ := dataFields_eq_cons h
      obtain ⟨hpair, rfl⟩ := List.cons.inj heq
      obtain ⟨rfl, rfl⟩ := Prod.mk.inj hpair
      have hfirst := renderTo_eq v d hv (.key key) (level + 1) (by omega)
      simp only [renderFields, hfirst, bind, Except.bind]
      cases ds with
      | nil =>
          obtain rfl := dataFields_eq_nil hrest
          simp [renderFields, textFields]
      | cons next ds =>
          rw [renderFields_eq rest (next :: ds) hrest (by simp) level]
          simp [textFields]

end

theorem render_eq (v : Value ι) (fields : List (Bytes × Data)) (h : v.data = some (.object fields)) :
    v.render doubles options = .ok (rootText options fields) := by
  cases v with
  | simpleConfigObject id value ignores =>
      have hds : dataFields value = some fields := by
        simpa [Value.data] using h
      cases fields with
      | nil =>
          obtain rfl := dataFields_eq_nil hds
          simp [Value.render, Value.renderTo, rootText, renderAtKey, pure, Except.pure]
      | cons first rest =>
          have hne : value.isEmpty = false := by
            obtain ⟨key, d⟩ := first
            obtain ⟨_, _, rfl, _⟩ := dataFields_eq_cons hds
            rfl
          have hloop := renderFields_eq doubles options value (first :: rest) hds (by simp) 0
          simp only [Value.render, Value.renderTo, hne, hloop, bind, Except.bind, pure, Except.pure,
            Bool.false_eq_true, ite_false, chop_append, rootText, renderAtKey, Nat.lt_irrefl,
            decide_false, Bool.false_or]
          by_cases hf : options.formatted <;> simp [hf, newlineIfFormatted, indent]
  | _ => simp [Value.data] at h

end

end AsrServiceProxy.Config

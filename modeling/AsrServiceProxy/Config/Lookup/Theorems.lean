import AsrServiceProxy.Config.Lookup
import AsrServiceProxy.Config.PathText.Theorems

-- `has_path` and `get_value` walk the same keys by different code.
namespace AsrServiceProxy.Config

open CMemory

-- The exceptions that say that a setting is not there.
def LookupException.saysAbsent : LookupException → Bool
  | .missing _ | .null _ | .wrongType _ => true
  | .config _ => false

def Value.isNull {ι : Type} : Value ι → Bool
  | .configNull _ => true
  | _ => false

theorem saysAbsent_ofNull (path expected : Bytes) :
    (LookupException.ofNull path expected).saysAbsent = true := by
  unfold LookupException.ofNull
  split <;> rfl

theorem saysAbsent_improveNotResolved (e : LookupException) :
    e.improveNotResolved.saysAbsent = e.saysAbsent := by
  cases e <;> rfl

-- A resolved value has a type, and the type tells objects and nulls.
theorem Value.valueType_of_resolved {ι : Type} {v : Value ι} (h : v.resolved = true) :
    ∃ t, v.valueType = .ok t ∧ (t = .OBJECT ↔ v.isObject = true) ∧
      (t = .NONE ↔ v.isNull = true) := by
  cases v with
  | configReference id expr prefixLength => simp [Value.resolved] at h
  | configConcatenation id pieces => simp [Value.resolved] at h
  | configDelayedMerge id stack => simp [Value.resolved] at h
  | _ => exact ⟨_, rfl, by simp [Value.isObject], by simp [Value.isNull]⟩

theorem Path.takeKeys_eq (n : ℕ) (path : Path) (h : n < path.length) :
    Path.takeKeys n (some path) = .ok (path.keys.take n) := by
  induction n generalizing path with
  | zero => rfl
  | succ n ih =>
      cases path with
      | newKey first => simp [Path.length, Path.keys] at h
      | cons first remainder =>
          have hn : n < remainder.length := by
            simpa [Path.length, Path.keys] using h
          rw [Path.takeKeys]
          simp only [Path.remainder, ih remainder hn, Path.first, Path.keys, List.take_succ_cons]
          rfl

-- The range check of `sub_path` does not fire for the keys before a remainder.
theorem Path.subPathBetween_front {path next : Path} {front : List Bytes} (hfront : front ≠ [])
    (h : path.keys = front ++ next.keys) :
    ∃ parent, path.subPathBetween 0 (path.length - next.length) = .ok (some parent) := by
  have hlength : path.length = front.length + next.length := by
    rw [Path.length, h, List.length_append, Path.length]
  have hnext : 0 < next.length := List.length_pos_of_ne_nil next.keys_ne_nil
  have hcount : path.length - next.length = front.length := by omega
  obtain ⟨parent, hparent, -⟩ := PathBuilder.result_keys front hfront
  refine ⟨parent, ?_⟩
  rw [Path.subPathBetween, if_neg (by omega), Path.subPath, Nat.sub_zero, hcount,
    Path.takeKeys_eq _ _ (by omega), h, List.take_left, ← hparent]
  rfl

theorem DefaultTransformer.transform_object {ι : Type} (doubles : Doubles) (newId : ι)
    {v : Value ι} (h : v.resolved = true) :
    DefaultTransformer.transform doubles newId v .OBJECT = .ok v := by
  obtain ⟨t, ht, -⟩ := Value.valueType_of_resolved h
  simp only [DefaultTransformer.transform, ht, DefaultTransformer.transformString]
  by_cases hs : t = .STRING <;> simp [hs, bind, Except.bind, pure, Except.pure]

section

variable (doubles : Doubles) (newId : ℕ)

-- What `find_key` does, where `get_value` asks it: for any value or for an object.
theorem findKey_eq {self : Value ℕ} (hobject : self.isObject = true)
    (h : self.resolved = true) (key : Bytes) {expected : ConfigValueType}
    (hexpected : expected = .NONE ∨ expected = .OBJECT) (path : Path) :
    (∃ v, self.child key = some v ∧ v.isNull = false ∧
        (expected = .OBJECT → v.isObject = true) ∧
        SimpleConfig.findKey doubles newId self key expected (some path) = .ok v) ∨
      ((∀ v, self.child key = some v →
          v.isNull = true ∨ expected = .OBJECT ∧ v.isObject = false) ∧
        ∃ e, SimpleConfig.findKey doubles newId self key expected (some path) = .error e ∧
          e.saysAbsent = true) := by
  simp only [SimpleConfig.findKey, attemptPeek_eq_child hobject h, Except.mapError, bind,
    Except.bind]
  cases hc : self.child key with
  | none =>
      right
      exact ⟨by simp, _, rfl, rfl⟩
  | some v =>
      have hv := Value.resolved_of_child h hc
      obtain ⟨t, ht, htobject, htnull⟩ := Value.valueType_of_resolved hv
      have htransform := DefaultTransformer.transform_object doubles newId hv
      by_cases hnull : t = .NONE
      · right
        refine ⟨fun w hw => ?_, ?_⟩
        · obtain rfl := Option.some.inj hw
          exact Or.inl (htnull.mp hnull)
        · rcases hexpected with rfl | rfl <;>
            simp only [reduceCtorEq, ne_eq, not_true_eq_false, not_false_eq_true, if_true,
              if_false, htransform, pure, Except.pure, ht, hnull, renderOriginal]
          · exact ⟨_, rfl, saysAbsent_ofNull _ _⟩
          · exact ⟨_, rfl, saysAbsent_ofNull _ _⟩
      · have hnotnull : v.isNull = false := Bool.eq_false_iff.mpr (mt htnull.mpr hnull)
        rcases hexpected with rfl | rfl
        · left
          refine ⟨v, rfl, hnotnull, nofun, ?_⟩
          simp [pure, Except.pure, ht, hnull]
        · by_cases ho : t = .OBJECT
          · left
            refine ⟨v, rfl, hnotnull, fun _ => htobject.mp ho, ?_⟩
            simp [pure, Except.pure, htransform, ht, ho]
          · right
            refine ⟨fun w hw => ?_, ?_⟩
            · obtain rfl := Option.some.inj hw
              exact Or.inr ⟨rfl, by rw [← Bool.not_eq_true]; exact fun hb => ho (htobject.mpr hb)⟩
            · simp only [ne_eq, reduceCtorEq, not_false_eq_true, if_true, htransform, ht, hnull,
                if_false, ho, decide_true, Bool.and_true, renderOriginal]
              exact ⟨_, rfl, rfl⟩

-- The induction is on what is left of the path; `front` are the keys already taken.
theorem find_eq (path : Path) (rest : Path) (front : List Bytes) {self : Value ℕ}
    (hkeys : path.keys = front ++ rest.keys) (hobject : self.isObject = true)
    (h : self.resolved = true) :
    (∃ v, self.descend rest.keys = some v ∧ v.isNull = false ∧
        SimpleConfig.find doubles newId .NONE path rest self = .ok v) ∨
      ((∀ v, self.descend rest.keys = some v → v.isNull = true) ∧
        ∃ e, SimpleConfig.find doubles newId .NONE path rest self = .error e ∧
          e.saysAbsent = true) := by
  induction rest generalizing front self with
  | newKey key =>
      rw [SimpleConfig.find, Path.keys, Value.descend_cons]
      rcases findKey_eq doubles newId hobject h key (Or.inl rfl) path with
        ⟨v, hc, hnull, -, hfind⟩ | ⟨habsent, e, hfind, he⟩
      · left
        exact ⟨v, by rw [hc]; rfl, hnull, by rw [hfind]; rfl⟩
      · right
        refine ⟨fun v hv => ?_, e.improveNotResolved, by rw [hfind]; rfl, ?_⟩
        · obtain ⟨w, hw, hwv⟩ := Option.bind_eq_some_iff.mp hv
          obtain rfl := Option.some.inj hwv
          exact (habsent w hw).elim id fun hx => absurd hx.1 (by simp)
        · rw [saysAbsent_improveNotResolved, he]
  | cons key next ih =>
      have hnext : path.keys = (front ++ [key]) ++ next.keys := by
        rw [hkeys, Path.keys, List.append_assoc, List.singleton_append]
      obtain ⟨parent, hparent⟩ := Path.subPathBetween_front (by simp) hnext
      simp only [SimpleConfig.find, Path.keys, Value.descend_cons, hparent, Except.mapError, bind,
        Except.bind]
      rcases findKey_eq doubles newId hobject h key (Or.inr rfl) parent with
        ⟨o, hc, -, ho, hfind⟩ | ⟨habsent, e, hfind, he⟩
      · simp only [hc, hfind, Option.bind_some]
        rcases ih _ hnext (ho rfl) (Value.resolved_of_child h hc) with
          ⟨v, hv, hnull, hrest⟩ | ⟨hnone, e, hrest, he⟩
        · left
          exact ⟨v, hv, hnull, by rw [hrest]⟩
        · right
          refine ⟨hnone, e.improveNotResolved, by rw [hrest], ?_⟩
          rw [saysAbsent_improveNotResolved, he]
      · right
        refine ⟨fun v hv => ?_, e.improveNotResolved, by rw [hfind], ?_⟩
        · obtain ⟨o, hc, ho⟩ := Option.bind_eq_some_iff.mp hv
          have hnot : o.isObject = false := by
            rcases habsent o hc with hnull | hother
            · cases o <;> first | rfl | simp [Value.isNull] at hnull
            · exact hother.2
          cases next <;> rw [Path.keys, Value.descend_eq_none_of_not_isObject hnot] at ho <;>
            simp at ho
        · rw [saysAbsent_improveNotResolved, he]

theorem Value.resolved_of_descend {ι : Type} {keys : List Bytes} {v w : Value ι}
    (h : v.resolved = true) (hw : v.descend keys = some w) : w.resolved = true := by
  induction keys generalizing v with
  | nil =>
      obtain rfl := Option.some.inj hw
      exact h
  | cons key keys ih =>
      obtain ⟨u, hu, huw⟩ := Option.bind_eq_some_iff.mp hw
      exact ih (Value.resolved_of_child h hu) huw

theorem hasPath_eq {root : Value ℕ} (hobject : root.isObject = true) (h : root.resolved = true)
    {expression : Bytes} {path : Path} (hpath : parsePath doubles expression = .ok path) :
    SimpleConfig.hasPath doubles root expression =
      .ok ((root.descend path.keys).any fun v => !v.isNull) := by
  simp only [SimpleConfig.hasPath, hpath, peekPath_eq_descend hobject h, Except.mapError, bind,
    Except.bind]
  cases hv : root.descend path.keys with
  | none => rfl
  | some v =>
      obtain ⟨t, ht, -, hnull⟩ := Value.valueType_of_resolved (Value.resolved_of_descend h hv)
      by_cases ht' : t = .NONE
      · simp [ht, ht', hnull.mp ht', pure, Except.pure]
      · have hnotnull : v.isNull = false := Bool.eq_false_iff.mpr (mt hnull.mpr ht')
        simp [ht, ht', hnotnull, pure, Except.pure]

theorem getValue_eq_find {root : Value ℕ} {expression : Bytes} {path : Path}
    (hpath : parsePath doubles expression = .ok path) :
    SimpleConfig.getValue doubles newId root expression =
      SimpleConfig.find doubles newId .NONE path path root := by
  simp only [SimpleConfig.getValue, SimpleConfig.findExpression, hpath, Except.mapError, bind,
    Except.bind]

-- What is had is what the keys of the path lead to, unless it is a null.
theorem getValue_eq_ok_iff {root : Value ℕ} (hobject : root.isObject = true)
    (h : root.resolved = true) {expression : Bytes} {path : Path}
    (hpath : parsePath doubles expression = .ok path) (v : Value ℕ) :
    SimpleConfig.getValue doubles newId root expression = .ok v ↔
      root.descend path.keys = some v ∧ v.isNull = false := by
  rw [getValue_eq_find doubles newId hpath]
  rcases find_eq doubles newId path path [] rfl hobject h with
    ⟨w, hw, hnull, hfind⟩ | ⟨hnone, e, hfind, -⟩
  · rw [hfind, hw]
    constructor
    · intro hv
      obtain rfl := Except.ok.inj hv
      exact ⟨rfl, hnull⟩
    · rintro ⟨hv, -⟩
      rw [Option.some.inj hv]
  · rw [hfind]
    constructor
    · intro hv
      cases hv
    · rintro ⟨hv, hnull⟩
      rw [hnone v hv] at hnull
      cases hnull

-- A path is there exactly when its value can be had; otherwise the exception says
-- that it is absent, and what is had is what the keys of the path lead to.
theorem hasPath_agrees_getValue {root : Value ℕ} (hobject : root.isObject = true)
    (h : root.resolved = true) {expression : Bytes} {path : Path}
    (hpath : parsePath doubles expression = .ok path) :
    ∃ found, SimpleConfig.hasPath doubles root expression = .ok found ∧
      (found = true ↔ ∃ v, SimpleConfig.getValue doubles newId root expression = .ok v) ∧
      (found = false ↔ ∃ e, SimpleConfig.getValue doubles newId root expression = .error e ∧
        e.saysAbsent = true) ∧
      ∀ v, SimpleConfig.getValue doubles newId root expression = .ok v →
        root.descend path.keys = some v ∧ v.isNull = false := by
  rw [getValue_eq_find doubles newId hpath]
  refine ⟨_, hasPath_eq doubles hobject h hpath, ?_⟩
  rcases find_eq doubles newId path path [] rfl hobject h with
    ⟨v, hv, hnull, hfind⟩ | ⟨hnone, e, hfind, he⟩
  · simp [hfind, hv, hnull]
  · have habsent : ((root.descend path.keys).any fun v => !v.isNull) = false := by
      cases hv : root.descend path.keys with
      | none => rfl
      | some v => simp [hnone v hv]
    simp [hfind, habsent, he]

end

-- The object `a { b = null, c = true }` asked for `a.c`.
theorem hasPath_agrees_getValue_nested :
    ∃ found, SimpleConfig.hasPath ⟨fun _ => none, id⟩ (.simpleConfigObject 0 [(ascii "a",
        .simpleConfigObject 1 [(ascii "b", .configNull 2), (ascii "c", .configBoolean 3 true)] false)]
        false) (ascii "a.c") = .ok found ∧ found = true := by
  have hpath : parsePath ⟨fun _ => none, id⟩ (ascii "a.c") =
      .ok (.cons (ascii "a") (.newKey (ascii "c"))) := by
    decide
  obtain ⟨found, hfound, hiff, -⟩ := hasPath_agrees_getValue ⟨fun _ => none, id⟩ 4
    (show (Value.simpleConfigObject 0 [(ascii "a", .simpleConfigObject 1
      [(ascii "b", .configNull 2), (ascii "c", .configBoolean 3 true)] false)] false).isObject =
        true from rfl) rfl hpath
  exact ⟨found, hfound, hiff.mpr ⟨.configBoolean 3 true, by decide⟩⟩

end AsrServiceProxy.Config

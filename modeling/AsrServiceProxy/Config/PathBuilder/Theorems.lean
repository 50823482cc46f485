import AsrServiceProxy.Config.FromMap.Theorems
import AsrServiceProxy.Config.Lookup.Theorems
import AsrServiceProxy.Config.PathBuilder

-- Paths as lists of keys: what the operations do to the lists.
namespace AsrServiceProxy.Config

open CMemory

-- The path with these keys, null when there are none.
def Path.IsOf (path : Option Path) (keys : List Bytes) : Prop :=
  path.map Path.keys = if keys = [] then none else some keys

namespace PathBuilder

-- The builder to which the keys were appended.
def holding (keys : List Bytes) : PathBuilder := { keys := keys.reverse, built := none }

theorem appendKey_holding (keys : List Bytes) (key : Bytes) :
    (holding keys).appendKey key = .ok (holding (keys ++ [key])) := by
  simp [appendKey, checkCanAppend, holding, bind, Except.bind, pure, Except.pure]

theorem pushPath_eq (keys : List Bytes) (path : Path) :
    pushPath keys path = path.keys.reverse ++ keys := by
  induction path generalizing keys with
  | newKey first => simp [pushPath, Path.keys]
  | cons first remainder ih => simp [pushPath, Path.keys, ih]

theorem appendPath_holding (keys : List Bytes) (path : Path) :
    (holding keys).appendPath path = .ok (holding (keys ++ path.keys)) := by
  simp [appendPath, checkCanAppend, holding, pushPath_eq, bind, Except.bind, pure, Except.pure]

theorem keys_makePath (first : Bytes) (remainder : Option Path) :
    (makePath first remainder).keys = first :: frontOf remainder := by
  cases remainder <;> simp [makePath, Path.keys, frontOf]

theorem frontOf_popKeys (keys : List Bytes) (remainder : Option Path) :
    frontOf (popKeys keys remainder) = keys.reverse ++ frontOf remainder := by
  induction keys generalizing remainder with
  | nil => simp [popKeys]
  | cons key keys ih =>
      rw [popKeys, ih, frontOf, keys_makePath]
      simp

theorem frontOf_takeResult (keys : List Bytes) : frontOf (holding keys).takeResult = keys := by
  rw [takeResult, holding]
  simp only
  rw [frontOf_popKeys, List.reverse_reverse, frontOf, List.append_nil]

end PathBuilder

namespace Path

open PathBuilder

theorem keys_cons (path : Path) : path.keys = path.first :: frontOf path.remainder := by
  cases path <;> simp [keys, first, remainder, frontOf]

theorem isOf_iff {path : Option Path} {keys : List Bytes} :
    IsOf path keys ↔ frontOf path = keys := by
  cases path with
  | none =>
      by_cases hkeys : keys = []
      · simp [IsOf, frontOf, hkeys]
      · simp [IsOf, frontOf, hkeys, Ne.symm hkeys]
  | some path =>
      by_cases hkeys : keys = []
      · simp [IsOf, frontOf, hkeys, keys_cons path]
      · simp [IsOf, frontOf, hkeys]

theorem foldlM_appendPath (paths : List Path) (keys : List Bytes) :
    paths.foldlM PathBuilder.appendPath (holding keys) =
      .ok (holding (keys ++ paths.flatMap Path.keys)) := by
  induction paths generalizing keys with
  | nil => simp [pure, Except.pure]
  | cons path paths ih =>
      rw [List.foldlM_cons, appendPath_holding]
      simp [bind, Except.bind, ih]

theorem ofVectorPath_keys {paths : List Path} (h : paths ≠ []) :
    ∃ path, ofVectorPath paths = .ok path ∧ path.keys = paths.flatMap Path.keys := by
  cases paths with
  | nil => exact absurd (by rfl) h
  | cons firstPath rest =>
      have hbuilt : ofVectorPath (firstPath :: rest) = .ok (makePath firstPath.first
          (holding (frontOf firstPath.remainder ++ rest.flatMap Path.keys)).takeResult) := by
        rw [ofVectorPath, show makeInstance = holding [] by rfl]
        cases firstPath.remainder with
        | none => simp [bind, Except.bind, foldlM_appendPath, frontOf, pure, Except.pure]
        | some remainder =>
            simp [bind, Except.bind, appendPath_holding, foldlM_appendPath, frontOf, pure,
              Except.pure]
      refine ⟨_, hbuilt, ?_⟩
      rw [keys_makePath, frontOf_takeResult, List.flatMap_cons, keys_cons firstPath,
        List.cons_append]

theorem prependBuilt_eq (p q : Path) :
    ∃ path, p.prependBuilt q = .ok (some path) ∧ path.keys = q.keys ++ p.keys := by
  have hbuilt : p.prependBuilt q = .ok (holding (q.keys ++ p.keys)).takeResult := by
    rw [prependBuilt, show makeInstance = holding [] by rfl, appendPath_holding]
    simp [bind, Except.bind, appendPath_holding, pure, Except.pure]
  have hkeys := frontOf_takeResult (q.keys ++ p.keys)
  cases hresult : (holding (q.keys ++ p.keys)).takeResult with
  | none =>
      rw [hresult, frontOf] at hkeys
      exact absurd (List.append_eq_nil_iff.mp hkeys.symm).1 q.keys_ne_nil
  | some path =>
      rw [hresult] at hbuilt hkeys
      exact ⟨path, hbuilt, hkeys⟩

theorem parentLoop_eq (keys : List Bytes) (path : Path) :
    parentLoop (holding keys) path = .ok (holding (keys ++ path.keys.dropLast)) := by
  induction path generalizing keys with
  | newKey first => simp [parentLoop, Path.keys]
  | cons first remainder ih =>
      rw [parentLoop, appendKey_holding]
      simp [bind, Except.bind, ih, Path.keys, keys_cons remainder]

theorem parentBuilt_eq (path : Path) :
    ∃ parent, path.parentBuilt = .ok parent ∧ IsOf parent path.keys.dropLast := by
  cases path with
  | newKey first => exact ⟨none, by rfl, by simp [isOf_iff, frontOf, keys]⟩
  | cons first remainder =>
      refine ⟨(holding (Path.cons first remainder).keys.dropLast).takeResult, ?_, ?_⟩
      · rw [parentBuilt, show makeInstance = holding [] by rfl, parentLoop_eq]
        rfl
      · rw [isOf_iff, frontOf_takeResult]

theorem getLast?_keys (path : Path) : path.keys.getLast? = some path.last := by
  induction path with
  | newKey first => simp [keys, last]
  | cons first remainder ih =>
      rw [keys, last, ← ih, keys_cons remainder]
      simp

theorem lengthLoop_eq (count : UInt32) (path : Path) :
    lengthLoop count (some path) = count + UInt32.ofNat path.keys.length := by
  induction path generalizing count with
  | newKey first => simp [lengthLoop, keys]
  | cons first remainder ih =>
      rw [lengthLoop, ih, keys, List.length_cons, UInt32.ofNat_add, UInt32.add_assoc,
        UInt32.add_comm 1]
      simp

theorem length32_eq (path : Path) : path.length32.toNat = path.keys.length % 2 ^ 32 := by
  cases path with
  | newKey first => simp [length32, remainder, lengthLoop, keys]
  | cons first remainder =>
      rw [length32, Path.remainder, lengthLoop_eq, UInt32.toNat_add, UInt32.toNat_ofNat', keys,
        List.length_cons]
      simp [Nat.add_comm]

theorem foldl_appendElement (elements keys : List Bytes) :
    elements.foldl (IndexLoop.advance (fun pb => !pb.isOk) appendElement) (.ok (holding keys)) =
      .ok (holding (keys ++ elements)) := by
  induction elements generalizing keys with
  | nil => simp
  | cons element elements ih =>
      rw [List.foldl_cons, IndexLoop.advance, if_neg (by simp [Except.isOk, Except.toBool]),
        appendElement, Except.bind, appendKey_holding, ih]
      simp

theorem ofVectorString_keys {elements : List Bytes} (hne : elements ≠ [])
    (hlength : elements.length < 2 ^ 32) :
    ∃ rounds path, ofVectorString rounds elements = some (.ok path) ∧ path.keys = elements := by
  cases elements with
  | nil => exact absurd (by rfl) hne
  | cons first rest =>
      cases rest with
      | nil => exact ⟨0, .newKey first, by rfl, by simp [keys]⟩
      | cons second rest =>
          have hloop : IndexLoop.loop 32 (fun pb => !pb.isOk) appendElement
              (first :: second :: rest) (first :: second :: rest).length 1 (.ok (holding [])) =
                some (.ok (holding (second :: rest))) := by
            rw [IndexLoop.loop_of_lt hlength (by omega) (by simp), List.drop_one, List.tail_cons,
              foldl_appendElement, List.nil_append]
          refine ⟨(first :: second :: rest).length,
            makePath first (holding (second :: rest)).takeResult, ?_, ?_⟩
          · exact congrArg (Option.map (Except.map fun pb => makePath first pb.takeResult)) hloop
          · rw [keys_makePath, frontOf_takeResult]

-- The index does not come to the end of more elements.
theorem ofVectorString_none {elements : List Bytes} (hlength : 2 ^ 32 ≤ elements.length)
    (rounds : ℕ) : ofVectorString rounds elements = none := by
  cases elements with
  | nil => simp at hlength
  | cons first rest =>
      cases rest with
      | nil => simp at hlength
      | cons second rest =>
          have hloop : IndexLoop.loop 32 (fun pb => !pb.isOk) appendElement
              (first :: second :: rest) rounds 1 (.ok (holding [])) = none := by
            rw [Option.eq_none_iff_forall_ne_some]
            intro result hresult
            obtain ⟨hstop, hfold⟩ := IndexLoop.stop_of_loop hlength (by omega) hresult
            rw [foldl_appendElement] at hfold
            simp [hfold, Except.isOk, Except.toBool] at hstop
          exact congrArg (Option.map (Except.map fun pb => makePath first pb.takeResult)) hloop

theorem frontOf_subPathLoop (count : ℕ) (path : Path) :
    frontOf (subPathLoop count path) = path.keys.drop count := by
  induction path generalizing count with
  | newKey first => cases count <;> simp [subPathLoop, frontOf, keys]
  | cons first remainder ih =>
      cases count with
      | zero => simp [subPathLoop, frontOf, keys]
      | succ count => simp [subPathLoop, keys, ← ih]

theorem subPathLoop_of_neg {count : ℤ} (h : count < 0) (path : Path) :
    subPathLoop count path = some path := by
  cases path <;> simp [subPathLoop, not_lt.mpr h.le]

theorem subPath32_of_lt (path : Path) {n : UInt32} (h : n.toNat < 2 ^ 31) :
    frontOf (path.subPath32 n) = path.keys.drop n.toNat := by
  rw [subPath32, intOfSize_of_lt h, frontOf_subPathLoop]

-- From 2^31 on the count is negative.
theorem subPath32_of_le (path : Path) {n : UInt32} (h : 2 ^ 31 ≤ n.toNat) :
    path.subPath32 n = some path := by
  refine subPathLoop_of_neg ?_ path
  have hlt := n.toNat_lt
  rw [intOfSize_eq]
  split <;> omega

theorem betweenLoop_eq (path : Path) (taken : List Bytes) (count : ℕ) :
    betweenLoop (some path) (holding taken) count =
      if count < path.keys.length then .ok (holding (taken ++ path.keys.take count))
      else .error (.bugOrBroken "sub_path last_index out of range ") := by
  induction count generalizing path taken with
  | zero => simp [betweenLoop, List.length_pos_iff.mpr path.keys_ne_nil]
  | succ count ih =>
      rw [betweenLoop, appendKey_holding]
      cases path with
      | newKey first => simp [bind, Except.bind, remainder, keys]
      | cons first remainder =>
          simp [bind, Except.bind, Path.remainder, Path.first, keys, ih]

-- What the operations are on lists of keys.
structure RefinesKeys (elements : List Bytes) (paths : List Path) (p q : Path) (n i j : UInt32) :
    Prop where
  vectorString : elements ≠ [] →
    ∃ rounds path, ofVectorString rounds elements = some (.ok path) ∧ path.keys = elements
  vectorPath : paths ≠ [] →
    ∃ path, ofVectorPath paths = .ok path ∧ path.keys = paths.flatMap Path.keys
  prepend : ∃ path, p.prependBuilt q = .ok (some path) ∧ path.keys = q.keys ++ p.keys
  parent : ∃ parent, p.parentBuilt = .ok parent ∧ IsOf parent p.keys.dropLast
  last : p.keys.getLast? = some p.last
  length : p.length32.toNat = p.keys.length
  subPath : IsOf (p.subPath32 n) (p.keys.drop n.toNat)
  between : i < j → j.toNat ≤ p.keys.length → ∃ path, p.subPathBetween32 i j = .ok path ∧
    IsOf path ((p.keys.take j.toNat).drop i.toNat)

-- The last index is not the length, and the others are in the range of an `int32_t`; beyond
-- it the keys are taken from the front.
structure Fits (elements : List Bytes) (p : Path) (n i j : UInt32) : Prop where
  elements : elements.length < 2 ^ 32
  length : p.keys.length < 2 ^ 32
  subPath : n.toNat < 2 ^ 31
  between : i < j → j.toNat ≤ p.keys.length →
    if i.toNat < 2 ^ 31 then j.toNat ≠ p.keys.length
    else p.keys.take (j.toNat - i.toNat) = (p.keys.take j.toNat).drop i.toNat

-- `sub_path` throws when it takes the last key.
theorem subPathBetween32_eq {path from_ : Path} {i j : UInt32} (hij : i < j)
    (hfrom : path.subPath32 i = some from_) :
    path.subPathBetween32 i j =
      if j.toNat - i.toNat < from_.keys.length then
        .ok (holding (from_.keys.take (j.toNat - i.toNat))).takeResult
      else .error (.bugOrBroken "sub_path last_index out of range ") := by
  have hlt := UInt32.lt_iff_toNat_lt.mp hij
  have hcount := UInt32.toNat_sub_of_le j i (UInt32.le_iff_toNat_le.mpr hlt.le)
  have hnot : ¬j < i := by
    rw [UInt32.lt_iff_toNat_lt]
    omega
  rw [subPathBetween32, if_neg hnot, hfrom, show makeInstance = holding [] by rfl, betweenLoop_eq,
    hcount, List.nil_append]
  split <;> simp [Except.map]

theorem between_iff {path : Path} {i j : UInt32} (hij : i < j) (hj : j.toNat ≤ path.keys.length) :
    (∃ result, path.subPathBetween32 i j = .ok result ∧
        IsOf result ((path.keys.take j.toNat).drop i.toNat)) ↔
      if i.toNat < 2 ^ 31 then j.toNat ≠ path.keys.length
      else path.keys.take (j.toNat - i.toNat) = (path.keys.take j.toNat).drop i.toNat := by
  have hlt := UInt32.lt_iff_toNat_lt.mp hij
  have hdrop : (path.keys.take j.toNat).drop i.toNat =
      (path.keys.drop i.toNat).take (j.toNat - i.toNat) := List.drop_take
  split
  next hi =>
    have hfront := path.subPath32_of_lt hi
    cases hfrom : path.subPath32 i with
    | none =>
        rw [hfrom, frontOf] at hfront
        have hlength := congrArg List.length hfront
        rw [List.length_drop, List.length_nil] at hlength
        omega
    | some from_ =>
        rw [hfrom, frontOf] at hfront
        have hlength : from_.keys.length = path.keys.length - i.toNat := by
          rw [hfront, List.length_drop]
        rw [subPathBetween32_eq hij hfrom, hlength, hfront, hdrop]
        constructor
        · intro h heq
          obtain ⟨result, hresult, -⟩ := h
          rw [if_neg (by omega)] at hresult
          simp at hresult
        · intro hne
          refine ⟨_, if_pos (by omega), ?_⟩
          rw [isOf_iff, frontOf_takeResult]
  next hi =>
    rw [subPathBetween32_eq hij (path.subPath32_of_le (by omega)), if_pos (by omega)]
    simp [isOf_iff, frontOf_takeResult]

theorem refinesKeys_iff (elements : List Bytes) (paths : List Path) (p q : Path) (n i j : UInt32) :
    RefinesKeys elements paths p q n i j ↔ Fits elements p n i j := by
  constructor
  · intro h
    refine ⟨?_, ?_, ?_, fun hij hj => (between_iff hij hj).mp (h.between hij hj)⟩
    · by_contra hle
      have hne : elements ≠ [] := by
        intro hnil
        simp [hnil] at hle
      obtain ⟨rounds, path, hpath, -⟩ := h.vectorString hne
      rw [ofVectorString_none (Nat.le_of_not_lt hle)] at hpath
      simp at hpath
    · have hlength := h.length
      rw [length32_eq] at hlength
      have hmod := Nat.mod_lt p.keys.length (Nat.two_pow_pos 32)
      omega
    · by_contra hle
      have hsubPath := h.subPath
      rw [p.subPath32_of_le (by omega), isOf_iff, frontOf] at hsubPath
      have hlength := congrArg List.length hsubPath
      have hpos := List.length_pos_iff.mpr p.keys_ne_nil
      rw [List.length_drop] at hlength
      omega
  · intro h
    refine ⟨fun hne => ofVectorString_keys hne h.elements, ofVectorPath_keys, prependBuilt_eq p q,
      parentBuilt_eq p, getLast?_keys p, ?_, ?_, fun hij hj => ?_⟩
    · rw [length32_eq, Nat.mod_eq_of_lt h.length]
    · rw [isOf_iff, p.subPath32_of_lt h.subPath]
    · exact (between_iff hij hj).mpr (h.between hij hj)

-- The keys of `a.b` from the first on.
theorem not_refinesKeys_whole :
    ¬RefinesKeys [ascii "a"] [.newKey (ascii "a")] (.cons (ascii "a") (.newKey (ascii "b")))
      (.newKey (ascii "c")) 1 0 2 := by
  intro h
  have hlast := (between_iff (by decide) (by decide)).mp (h.between (by decide) (by decide))
  rw [if_pos (by decide)] at hlast
  exact hlast (by decide)

-- What the rest of the model takes for these operations.
theorem prependBuilt_eq_prepend (p q : Path) : p.prependBuilt q = .ok (some (p.prepend q)) := by
  obtain ⟨path, hpath, hkeys⟩ := prependBuilt_eq p q
  rw [hpath, keys_injective (hkeys.trans (keys_prepend p q).symm)]

theorem parentBuilt_eq_parent (path : Path) : path.parentBuilt = .ok path.parent := by
  obtain ⟨parent, hparent, hkeys⟩ := parentBuilt_eq path
  have hfront : frontOf path.parent = path.keys.dropLast := by
    rw [path.keys_eq_parent, List.dropLast_concat]
  rw [hparent, frontOf_injective ((isOf_iff.mp hkeys).trans hfront.symm)]

theorem frontOf_subPath (path : Path) (n : ℕ) : frontOf (path.subPath n) = path.keys.drop n := by
  induction path generalizing n with
  | newKey first => cases n <;> simp [Path.subPath, frontOf, keys]
  | cons first remainder ih =>
      cases n with
      | zero => simp [Path.subPath, frontOf, keys]
      | succ n => simp [Path.subPath, keys, ih]

theorem subPath32_eq_subPath (path : Path) {n : UInt32} (h : n.toNat < 2 ^ 31) :
    path.subPath32 n = path.subPath n.toNat := by
  apply frontOf_injective
  rw [path.subPath32_of_lt h, frontOf_subPath]

theorem betweenLoop_eq_takeKeys (from_ : Option Path) (taken : List Bytes) (count : ℕ) :
    betweenLoop from_ (holding taken) count =
      (takeKeys count from_).map fun keys => holding (taken ++ keys) := by
  induction count generalizing from_ taken with
  | zero => simp [betweenLoop, takeKeys, Except.map]
  | succ count ih =>
      cases from_ with
      | none => simp [betweenLoop, takeKeys, Except.map]
      | some path =>
          rw [betweenLoop, takeKeys, appendKey_holding]
          cases path with
          | newKey first => simp [bind, Except.bind, remainder, Except.map]
          | cons first remainder =>
              simp only [bind, Except.bind, Path.remainder, ih]
              cases takeKeys count (some remainder) <;> simp [Except.map]

theorem takeResult_holding (keys : List Bytes) :
    (holding keys).takeResult = PathBuilder.result keys := by
  apply frontOf_injective
  rw [frontOf_takeResult]
  cases keys with
  | nil => rfl
  | cons key keys =>
      obtain ⟨path, hpath, hkeys⟩ := PathBuilder.result_keys (key :: keys) (by simp)
      rw [hpath, frontOf, hkeys]

theorem subPathBetween32_eq_subPathBetween (path : Path) {i j : UInt32} (hi : i.toNat < 2 ^ 31) :
    path.subPathBetween32 i j = path.subPathBetween i.toNat j.toNat := by
  unfold subPathBetween32 subPathBetween
  by_cases hji : j < i
  · rw [if_pos hji, if_pos (UInt32.lt_iff_toNat_lt.mp hji)]
  · have hle := UInt32.lt_iff_toNat_lt.not.mp hji
    rw [if_neg hji, if_neg hle]
    have hcount := UInt32.toNat_sub_of_le j i (UInt32.le_iff_toNat_le.mpr (Nat.le_of_not_lt hle))
    rw [hcount, path.subPath32_eq_subPath hi, show makeInstance = holding [] by rfl,
      betweenLoop_eq_takeKeys]
    cases takeKeys (j.toNat - i.toNat) (path.subPath i.toNat) with
    | error e => rfl
    | ok keys => simp [Except.map, takeResult_holding]

theorem ofVectorString_eq_ofElements {elements : List Bytes} (hne : elements ≠ [])
    (hlength : elements.length < 2 ^ 32) :
    ∃ rounds, ofVectorString rounds elements = some (ofElements elements) := by
  obtain ⟨rounds, path, hpath, hkeys⟩ := ofVectorString_keys hne hlength
  obtain ⟨first, rest, rfl⟩ := List.exists_cons_of_ne_nil hne
  obtain ⟨path', hpath', hkeys'⟩ := ofElements_keys first rest
  exact ⟨rounds, by rw [hpath, hpath', keys_injective (hkeys.trans hkeys'.symm)]⟩

end Path

end AsrServiceProxy.Config

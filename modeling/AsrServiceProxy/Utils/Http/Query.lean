import AsrServiceProxy.Utils.Http
import AsrServiceProxy.Utils.StringUtil.Cleaning
import AsrServiceProxy.Utils.Uri.Theorems

-- `HttpClient::join_params`: the parameters as the query of a URL, and what a server
-- reads from it.
namespace AsrServiceProxy.Http

open CMemory StringUtil

-- The body of the loop.
def joinParam (rounds : ℕ) (joined : Bytes) (param : Bytes × Bytes) : Option Bytes :=
  let joined := if joined = [] then joined else joined ++ [38]
  let joined := joined ++ param.1
  if isEmpty param.2 then some joined
  else (uriEncode rounds param.2 true).map fun encoded => joined ++ [61] ++ encoded

-- `params` are the entries of the map in its order. `none` when a loop of the encoder
-- takes more rounds than given.
def joinParams (rounds : ℕ) (params : Map) : Option Bytes :=
  params.foldlM (joinParam rounds) []

-- Percent decoding of RFC 3986.
def percentDecode : Bytes → Option Bytes
  | [] => some []
  | c :: rest =>
      if c = 37 then
        match rest with
        | high :: low :: rest =>
            if isHexChar high && isHexChar low then
              (percentDecode rest).map ((toBin high * 16 + toBin low) :: ·)
            else none
        | _ => none
      else (percentDecode rest).map (c :: ·)

-- A part of a query: the name up to the first `=`, and the decoded value.
def readPart (part : Bytes) : Option (Bytes × Bytes) :=
  (percentDecode ((part.dropWhile (· ≠ 61)).drop 1)).map fun value =>
    (part.takeWhile (· ≠ 61), value)

-- An empty query has no parts.
def readQuery (query : Bytes) : Option Map :=
  if query = [] then some [] else (query.splitOn 38).mapM readPart

def isUnreservedChar (c : UInt8) : Bool :=
  isalnum c || c = 45 || c = 46 || c = 95 || c = 126

def IsParamName (name : Bytes) : Prop := name ≠ [] ∧ ∀ c ∈ name, isUnreservedChar c = true

-- The parameters are joined, and read back as they were.
def QueryFaithful (params : Map) : Prop :=
  ∃ rounds joined, joinParams rounds params = some joined ∧ readQuery joined = some params

-- What is joined for a parameter.
def paramText (param : Bytes × Bytes) : Bytes :=
  if isEmpty param.2 then param.1
  else param.1 ++ 61 :: param.2.flatMap (uriEncodeChar true)

-- The characters that the encoder writes for a byte.
theorem uriEncodeChar_classes (c : UInt8) :
    38 ∉ uriEncodeChar true c ∧
      (uriEncodeChar true c = [c] ∧ c ≠ 37 ∨
        uriEncodeChar true c = 37 :: toHex c ∧ isHexChar (hexChars.getD (c >>> 4).toNat 0) = true ∧
          isHexChar (hexChars.getD (c &&& 0xf).toNat 0) = true ∧
          toBin (hexChars.getD (c >>> 4).toNat 0) * 16 +
            toBin (hexChars.getD (c &&& 0xf).toNat 0) = c) := by
  revert c
  apply forall_byte
  decide +kernel

theorem isUnreservedChar_classes (c : UInt8) (h : isUnreservedChar c = true) : c ≠ 38 ∧ c ≠ 61 := by
  constructor
  · rintro rfl
    cases h
  · rintro rfl
    cases h

theorem percentDecode_cons {c : UInt8} (h : c ≠ 37) (rest : Bytes) :
    percentDecode (c :: rest) = (percentDecode rest).map (c :: ·) := by
  rw [percentDecode.eq_def]
  exact if_neg h

theorem percentDecode_uriEncodeChar (c : UInt8) (rest : Bytes) :
    percentDecode (uriEncodeChar true c ++ rest) = (percentDecode rest).map (c :: ·) := by
  obtain ⟨-, ⟨htext, hne⟩ | ⟨htext, hhigh, hlow, hvalue⟩⟩ := uriEncodeChar_classes c
  · rw [htext, List.singleton_append, percentDecode_cons hne]
  · rw [htext, toHex, List.cons_append, List.cons_append, List.cons_append, List.nil_append,
      percentDecode, if_pos rfl, hhigh, hlow, Bool.and_self,
      if_pos rfl, hvalue]

theorem percentDecode_encoded (value : Bytes) :
    percentDecode (value.flatMap (uriEncodeChar true)) = some value := by
  induction value with
  | nil => rfl
  | cons c rest ih => rw [List.flatMap_cons, percentDecode_uriEncodeChar, ih, Option.map_some]

variable {param : Bytes × Bytes} {params : Map}

theorem ampersand_notMem_paramText (h : IsParamName param.1) : 38 ∉ paramText param := by
  have hname : 38 ∉ param.1 := fun hmem => (isUnreservedChar_classes 38 (h.2 38 hmem)).1 rfl
  rw [paramText]
  split
  · exact hname
  · intro hmem
    rcases List.mem_append.mp hmem with hmem | hmem
    · exact hname hmem
    rcases List.mem_cons.mp hmem with heq | hmem
    · cases heq
    · obtain ⟨c, -, hc⟩ := List.mem_flatMap.mp hmem
      exact (uriEncodeChar_classes c).1 hc

-- A value that is taken for empty is read back as the empty one.
theorem readPart_paramText (h : IsParamName param.1) :
    readPart (paramText param) =
      some (param.1, if isEmpty param.2 then [] else param.2) := by
  have hname : ∀ c ∈ param.1, decide (c ≠ 61) = true := by
    intro c hc
    exact decide_eq_true (isUnreservedChar_classes c (h.2 c hc)).2
  rw [readPart, paramText]
  cases isEmpty param.2 with
  | true =>
      rw [if_pos rfl, if_pos rfl, List.dropWhile_eq_nil_iff.mpr hname,
        List.takeWhile_eq_self_iff.mpr hname]
      rfl
  | false =>
      have hdrop (rest : Bytes) : (61 :: rest).dropWhile (· ≠ 61) = 61 :: rest := rfl
      have htake (rest : Bytes) : (61 :: rest).takeWhile (· ≠ 61) = [] := rfl
      rw [if_neg Bool.false_ne_true, if_neg Bool.false_ne_true, List.dropWhile_append_of_pos hname,
        List.takeWhile_append_of_pos hname, hdrop, htake, List.append_nil, List.drop_one,
        List.tail_cons, percentDecode_encoded]
      rfl

theorem paramText_ne_nil (h : IsParamName param.1) : paramText param ≠ [] := by
  intro hnil
  rw [paramText] at hnil
  split at hnil
  · exact h.1 hnil
  · cases (List.append_eq_nil_iff.mp hnil).2

-- Whether the encoder ends on what it is given of the value.
def IsJoinable (value : Bytes) : Prop := isEmpty value = true ∨ value.length < 2 ^ 32

theorem uriEncode_eq {rounds : ℕ} {value text : Bytes} (h : uriEncode rounds value true = some text) :
    value.length < 2 ^ 32 ∧ text = value.flatMap (uriEncodeChar true) := by
  have hlt : value.length < 2 ^ 32 := by
    by_contra hle
    exact uriEncode_of_le (by omega) true rounds text h
  exact ⟨hlt, IndexLoop.loop_unique h (uriEncode_of_lt hlt true)⟩

section

variable {rounds : ℕ} {joined text : Bytes}

theorem joinParam_of_eq (h : joinParam rounds joined param = some text) :
    text = (if joined = [] then joined else joined ++ [38]) ++ paramText param ∧
      IsJoinable param.2 := by
  unfold joinParam at h
  dsimp only at h
  rw [paramText]
  by_cases hempty : isEmpty param.2 = true
  · rw [if_pos hempty, Option.some.injEq] at h
    rw [if_pos hempty]
    exact ⟨h.symm, .inl hempty⟩
  · rw [if_neg hempty] at h
    obtain ⟨encoded, hencoded, rfl⟩ := Option.map_eq_some_iff.mp h
    obtain ⟨hlt, rfl⟩ := uriEncode_eq hencoded
    rw [if_neg hempty]
    refine ⟨?_, .inr hlt⟩
    simp only [List.append_assoc, List.singleton_append]

theorem joinParam_eq (hrounds : 2 ^ 32 ≤ rounds) (h : IsJoinable param.2) :
    joinParam rounds joined param =
      some ((if joined = [] then joined else joined ++ [38]) ++ paramText param) := by
  unfold joinParam
  dsimp only
  rw [paramText]
  by_cases hempty : isEmpty param.2 = true
  · rw [if_pos hempty, if_pos hempty]
  · have hlt : param.2.length < 2 ^ 32 := h.resolve_left hempty
    have hencode := IndexLoop.loop_mono (uriEncode_of_lt hlt true) (hlt.trans_le hrounds)
    rw [if_neg hempty, if_neg hempty]
    rw [← uriEncode] at hencode
    rw [hencode, Option.map_some]
    simp only [List.append_assoc, List.singleton_append]

-- Once something is joined, the others follow behind ampersands.
theorem foldlM_joinParam_of_eq (hne : joined ≠ [])
    (h : params.foldlM (joinParam rounds) joined = some text) :
    text = joined ++ params.flatMap (fun param => 38 :: paramText param) ∧
      ∀ param ∈ params, IsJoinable param.2 := by
  induction params generalizing joined with
  | nil =>
      rw [List.foldlM_nil] at h
      cases h
      exact ⟨(List.append_nil text).symm, nofun⟩
  | cons param params ih =>
      rw [List.foldlM_cons] at h
      obtain ⟨next, hnext, hrest⟩ := Option.bind_eq_some_iff.mp h
      obtain ⟨rfl, hjoinable⟩ := joinParam_of_eq hnext
      rw [if_neg hne] at hrest
      have hjoined := List.append_ne_nil_of_left_ne_nil (List.append_ne_nil_of_left_ne_nil hne [38])
        (paramText param)
      obtain ⟨rfl, hall⟩ := ih hjoined hrest
      refine ⟨?_, List.forall_mem_cons.mpr ⟨hjoinable, hall⟩⟩
      rw [List.flatMap_cons, List.append_assoc, List.append_assoc, List.singleton_append,
        List.cons_append]

theorem foldlM_joinParam_eq (hrounds : 2 ^ 32 ≤ rounds) (hne : joined ≠ [])
    (h : ∀ param ∈ params, IsJoinable param.2) :
    params.foldlM (joinParam rounds) joined =
      some (joined ++ params.flatMap fun param => 38 :: paramText param) := by
  induction params generalizing joined with
  | nil =>
      rw [List.foldlM_nil, List.flatMap_nil, List.append_nil]
      rfl
  | cons param params ih =>
      have ⟨hparam, hparams⟩ := List.forall_mem_cons.mp h
      have hjoined := List.append_ne_nil_of_left_ne_nil (List.append_ne_nil_of_left_ne_nil hne [38])
        (paramText param)
      rw [List.foldlM_cons, joinParam_eq hrounds hparam, if_neg hne, Option.bind_eq_bind,
        Option.bind_some, ih hjoined hparams]
      rw [List.flatMap_cons, List.append_assoc, List.append_assoc, List.singleton_append,
        List.cons_append]

end

-- The query of some parameters.
def queryText : Map → Bytes
  | [] => []
  | param :: params => paramText param ++ params.flatMap fun param => 38 :: paramText param

theorem joinParams_iff (h : ∀ param ∈ params, IsParamName param.1) (joined : Bytes) :
    (∃ rounds, joinParams rounds params = some joined) ↔
      joined = queryText params ∧ ∀ param ∈ params, IsJoinable param.2 := by
  cases params with
  | nil =>
      constructor
      · rintro ⟨rounds, hjoined⟩
        cases hjoined
        exact ⟨rfl, nofun⟩
      · rintro ⟨rfl, -⟩
        exact ⟨0, rfl⟩
  | cons param params =>
      have hne := paramText_ne_nil (h param List.mem_cons_self)
      constructor
      · rintro ⟨rounds, hjoined⟩
        rw [joinParams, List.foldlM_cons] at hjoined
        obtain ⟨first, hfirst, hrest⟩ := Option.bind_eq_some_iff.mp hjoined
        obtain ⟨rfl, hjoinable⟩ := joinParam_of_eq hfirst
        rw [if_pos rfl, List.nil_append] at hrest
        obtain ⟨rfl, hall⟩ := foldlM_joinParam_of_eq hne hrest
        exact ⟨rfl, List.forall_mem_cons.mpr ⟨hjoinable, hall⟩⟩
      · rintro ⟨rfl, hall⟩
        have ⟨hparam, hparams⟩ := List.forall_mem_cons.mp hall
        have hrounds : 2 ^ 32 ≤ 2 ^ 32 := Nat.le_refl _
        refine ⟨2 ^ 32, ?_⟩
        rw [joinParams, List.foldlM_cons, joinParam_eq hrounds hparam, if_pos rfl, List.nil_append,
          Option.bind_eq_bind, Option.bind_some, foldlM_joinParam_eq hrounds hne hparams]
        rfl

-- Splitting the query gives the texts of the parameters.
theorem splitOn_queryText (h : ∀ param ∈ params, IsParamName param.1) (hparam : IsParamName param.1) :
    (queryText (param :: params)).splitOn 38 = (param :: params).map paramText := by
  induction params generalizing param with
  | nil =>
      rw [queryText, List.flatMap_nil, List.append_nil,
        List.splitOn_eq_singleton (ampersand_notMem_paramText hparam)]
      rfl
  | cons next params ih =>
      have ⟨hnext, hparams⟩ := List.forall_mem_cons.mp h
      have hsplit := ih hparams hnext
      rw [queryText, List.flatMap_cons, List.cons_append,
        List.splitOn_append_cons_self_of_not_mem (ampersand_notMem_paramText hparam)]
      rw [queryText] at hsplit
      rw [hsplit, ← List.map_cons]

theorem mapM_readPart (h : ∀ param ∈ params, IsParamName param.1) :
    (params.map paramText).mapM readPart =
      some (params.map fun param => (param.1, if isEmpty param.2 then [] else param.2)) := by
  induction params with
  | nil => rfl
  | cons param params ih =>
      have ⟨hparam, hparams⟩ := List.forall_mem_cons.mp h
      rw [List.map_cons, List.mapM_cons, readPart_paramText hparam, ih hparams]
      rfl

theorem readQuery_queryText (h : ∀ param ∈ params, IsParamName param.1) :
    readQuery (queryText params) =
      some (params.map fun param => (param.1, if isEmpty param.2 then [] else param.2)) := by
  cases params with
  | nil => rfl
  | cons param params =>
      have ⟨hparam, hparams⟩ := List.forall_mem_cons.mp h
      have hne : queryText (param :: params) ≠ [] := by
        intro hnil
        exact paramText_ne_nil hparam (List.append_eq_nil_iff.mp hnil).1
      rw [readQuery, if_neg hne, splitOn_queryText hparams hparam, mapM_readPart h]

-- The query is faithful when each value is empty, or is as short as the index of the
-- encoder can count and shows `is_empty` a byte before the first NUL.
theorem queryFaithful_iff (params : Map) (h : ∀ param ∈ params, IsParamName param.1) :
    QueryFaithful params ↔ ∀ param ∈ params, param.2 = [] ∨
      param.2.length < 2 ^ 32 ∧ ∃ b ∈ cstr param.2, isspace (b &&& 0x7f) = false := by
  have hvalue (value : Bytes) :
      (value = [] ∨ value.length < 2 ^ 32 ∧ ∃ b ∈ cstr value, isspace (b &&& 0x7f) = false) ↔
        IsJoinable value ∧ (if isEmpty value then [] else value) = value := by
    by_cases hlt : value.length < 2 ^ 32
    · have hiff := isEmpty_eq_false_iff hlt
      have hjoinable : IsJoinable value := .inr hlt
      rw [← hiff, and_iff_right hlt, and_iff_right hjoinable]
      cases isEmpty value <;> simp [eq_comm]
    · have hne : value ≠ [] := by
        rintro rfl
        exact hlt (Nat.two_pow_pos 32)
      have hlost (h : IsJoinable value ∧ (if isEmpty value then [] else value) = value) : False := by
        rw [if_pos (h.1.resolve_right hlt)] at h
        exact hne h.2.symm
      exact iff_of_false (fun h => hlt (h.resolve_left hne).1) hlost
  have hmap : params.map (fun param => (param.1, if isEmpty param.2 then [] else param.2)) = params ↔
      ∀ param ∈ params, (if isEmpty param.2 then [] else param.2) = param.2 := by
    conv_lhs => rhs; rw [← List.map_id params]
    rw [List.map_inj_left]
    simp [Prod.ext_iff]
  simp only [hvalue]
  constructor
  · rintro ⟨rounds, joined, hjoined, hread⟩
    obtain ⟨rfl, hjoinable⟩ := (joinParams_iff h joined).mp ⟨rounds, hjoined⟩
    rw [readQuery_queryText h, Option.some.injEq, hmap] at hread
    exact fun param hparam => ⟨hjoinable param hparam, hread param hparam⟩
  · intro hall
    obtain ⟨rounds, hjoined⟩ := (joinParams_iff h (queryText params)).mpr
      ⟨rfl, fun param hparam => (hall param hparam).1⟩
    refine ⟨rounds, _, hjoined, ?_⟩
    rw [readQuery_queryText h, Option.some.injEq, hmap]
    exact fun param hparam => (hall param hparam).2

-- `q=x`, with a value that is no blank.
theorem queryFaithful_letter : QueryFaithful [([113], [120])] := by
  have hname : ∀ param ∈ [(([113] : Bytes), ([120] : Bytes))], IsParamName param.1 :=
    List.forall_mem_singleton.mpr ⟨List.cons_ne_nil _ _, List.forall_mem_singleton.mpr rfl⟩
  refine (queryFaithful_iff _ hname).mpr (List.forall_mem_singleton.mpr (.inr ⟨?_, 120, ?_, rfl⟩))
  · show 1 < 2 ^ 32
    omega
  · exact List.mem_singleton_self 120

-- The value of one blank is lost.
theorem not_queryFaithful_blank : ¬∀ params : Map,
    (∀ param ∈ params, IsParamName param.1) → QueryFaithful params := by
  intro hall
  have hname : ∀ param ∈ [(([113] : Bytes), ([32] : Bytes))], IsParamName param.1 :=
    List.forall_mem_singleton.mpr ⟨List.cons_ne_nil _ _, List.forall_mem_singleton.mpr rfl⟩
  obtain ⟨rounds, joined, hjoined, hread⟩ := hall _ hname
  obtain ⟨rfl, -⟩ := (joinParams_iff hname joined).mp ⟨rounds, hjoined⟩
  have hblank : isEmpty [32] = true := by
    rw [isEmpty, Bool.or_eq_true]
    exact .inr rfl
  rw [readQuery_queryText hname, List.map_singleton, hblank] at hread
  cases hread

end AsrServiceProxy.Http

import AsrServiceProxy.App.Writefunc.Theorems

-- A body and the chunks that it is cut into.
namespace AsrServiceProxy.App

open CMemory

def Cuts (body : Bytes) (chunks : List Chunk) : Prop :=
  delivered chunks = body ∧ ∀ c ∈ chunks, c.bytes ≠ [] ∧ c.heap.Succeeds

-- The C string in `*result` when the transfer is over.
def finalString (chunks : List Chunk) : Option Bytes :=
  (received chunks).map fun block => cstr block.mem

-- It is the same for all the ways to cut the body.
def CutIndependent (body : Bytes) : Prop :=
  ∀ chunks chunks' : List Chunk, Cuts body chunks → Cuts body chunks' →
    finalString chunks = finalString chunks'

theorem Gathers.map_cstr {result : Option Block} {text : Option Bytes} (h : Gathers result text) :
    result.map (fun block => cstr block.mem) = text := by
  match result, text, h with
  | none, none, _ => rfl
  | some block, some text, h => rw [Option.map_some, Holds.cstr_eq h]

-- Every chunk adds its bytes up to its first NUL.
theorem gathered_of_succeeds {chunks : List Chunk} (hne : chunks ≠ [])
    (hs : ∀ c ∈ chunks, c.heap.Succeeds) :
    gathered chunks = some (chunks.flatMap fun c => cstr c.bytes) := by
  induction chunks using List.reverseRecOn with
  | nil => exact absurd rfl hne
  | append_singleton chunks c ih =>
      have hc : c.heap.Succeeds := hs c (by simp)
      rw [gathered_append, List.flatMap_append, List.flatMap_singleton]
      by_cases hnil : chunks = []
      · subst hnil
        obtain ⟨bytes, hb, -⟩ := hc (c.bytes.length + 1)
        simp [gathered, Chunk.gather, hb]
      · rw [ih hnil fun d hd => hs d (by simp [hd]), Chunk.gather]
        obtain ⟨bytes, hb, -⟩ := hc
          (c.bytes.length + (chunks.flatMap fun c => cstr c.bytes).length)
        rw [hb, Option.map_some]

theorem finalString_eq {chunks : List Chunk} (hne : chunks ≠ [])
    (hs : ∀ c ∈ chunks, c.heap.Succeeds) (hlen : (delivered chunks).length + 1 < 2 ^ 64) :
    finalString chunks = some (chunks.flatMap fun c => cstr c.bytes) := by
  rw [finalString, (received_gathers chunks hlen).map_cstr, gathered_of_succeeds hne hs]

-- Chunks without a byte behind a NUL add up to the C string of the body.
theorem flatMap_cstr (chunks : List Chunk)
    (h : ∀ b ∈ (delivered chunks).dropWhile (· ≠ 0), b = 0) :
    (chunks.flatMap fun c => cstr c.bytes) = cstr (delivered chunks) := by
  induction chunks with
  | nil => rfl
  | cons c chunks ih =>
      have hbody : delivered (c :: chunks) = c.bytes ++ delivered chunks := rfl
      rw [hbody] at h ⊢
      rw [List.flatMap_cons]
      by_cases hz : 0 ∈ c.bytes
      · have hstop : c.bytes.dropWhile (· ≠ 0) ≠ [] := by
          intro hnil
          have hall := List.dropWhile_eq_nil_iff.mp hnil 0 hz
          simp at hall
        -- the chunk has a NUL, and the others have nothing else
        rw [List.dropWhile_append, if_neg (by simpa using hstop)] at h
        have hrest : (chunks.flatMap fun c => cstr c.bytes) = [] := by
          rw [List.flatMap_eq_nil_iff]
          intro d hd
          rw [cstr, List.takeWhile_eq_nil_iff]
          intro hpos
          have hmem : d.bytes[0] ∈ delivered chunks :=
            List.mem_flatMap.mpr ⟨d, hd, List.getElem_mem hpos⟩
          simpa using h _ (List.mem_append_right _ hmem)
        have hcut : (c.bytes.takeWhile (· ≠ 0)).length ≠ c.bytes.length := by
          intro hlength
          have hself := (List.takeWhile_sublist _).eq_of_length hlength
          have hzero := List.takeWhile_eq_self_iff.mp hself 0 hz
          simp at hzero
        rw [hrest, List.append_nil, cstr, cstr, List.takeWhile_append, if_neg hcut]
      · have hall : ∀ b ∈ c.bytes, (fun b : UInt8 => decide (b ≠ 0)) b = true := by
          intro b hb
          apply decide_eq_true
          rintro rfl
          exact hz hb
        rw [List.dropWhile_append_of_pos hall] at h
        rw [ih h, (cstr_eq_self_iff _).mpr hz, cstr, cstr, List.takeWhile_append_of_pos hall]

-- A body of single bytes: all that are not NUL.
theorem flatMap_cstr_singles (body : Bytes) :
    ((body.map fun b => (⟨zeroed, [b]⟩ : Chunk)).flatMap fun c => cstr c.bytes) =
      body.filter (· ≠ 0) := by
  induction body with
  | nil => rfl
  | cons b rest ih =>
      rw [List.map_cons, List.flatMap_cons, ih, List.filter_cons, cstr, List.takeWhile_cons]
      by_cases hb : b = 0 <;> simp [hb]

theorem delivered_singles (body : Bytes) :
    delivered (body.map fun b => ⟨zeroed, [b]⟩) = body := by
  rw [delivered, List.flatMap_map]
  exact List.flatMap_singleton' body

-- How the body is cut does not matter exactly when it has no byte but NUL behind its
-- first NUL.
theorem cutIndependent_iff (body : Bytes) (hlen : body.length + 1 < 2 ^ 64) :
    CutIndependent body ↔ ∀ b ∈ body.dropWhile (· ≠ 0), b = 0 := by
  constructor
  · intro hall
    by_cases hnil : body = []
    · subst hnil
      nofun
    -- the body in one chunk and in single bytes
    have hone : Cuts body [⟨zeroed, body⟩] :=
      ⟨List.flatMap_singleton _ _, List.forall_mem_singleton.mpr ⟨hnil, zeroed_succeeds⟩⟩
    have hsingles : Cuts body (body.map fun b => ⟨zeroed, [b]⟩) := by
      refine ⟨delivered_singles body, ?_⟩
      intro c hc
      obtain ⟨b, -, rfl⟩ := List.mem_map.mp hc
      exact ⟨List.cons_ne_nil b [], zeroed_succeeds⟩
    have hsame := hall _ _ hone hsingles
    rw [finalString_eq (List.cons_ne_nil _ _) (fun c hc => (hone.2 c hc).2) (by rwa [hone.1]),
      finalString_eq (by simpa using hnil) (fun c hc => (hsingles.2 c hc).2) (by rwa [hsingles.1]),
      flatMap_cstr_singles, List.flatMap_singleton, Option.some.injEq] at hsame
    have hcut := List.takeWhile_append_dropWhile (p := fun b : UInt8 => decide (b ≠ 0)) (l := body)
    have hfront : (body.takeWhile fun b => decide (b ≠ 0)).filter (· ≠ 0) =
        body.takeWhile fun b => decide (b ≠ 0) := by
      rw [List.filter_eq_self]
      intro b hb
      have hp := List.mem_takeWhile_imp hb
      exact hp
    conv_rhs at hsame => rw [← hcut, List.filter_append, hfront]
    have hempty : (body.dropWhile fun b => decide (b ≠ 0)).filter (· ≠ 0) = [] :=
      List.self_eq_append_right.mp hsame
    intro b hb
    simpa using List.filter_eq_nil_iff.mp hempty b hb
  · intro hzeros chunks chunks' hcuts hcuts'
    have hfinal {chunks : List Chunk} (hcuts : Cuts body chunks) :
        finalString chunks = if body = [] then none else some (cstr body) := by
      obtain ⟨rfl, hchunks⟩ := hcuts
      cases chunks with
      | nil => rfl
      | cons c chunks =>
          have hne : delivered (c :: chunks) ≠ [] :=
            List.append_ne_nil_of_left_ne_nil (hchunks c List.mem_cons_self).1 _
          rw [finalString_eq (List.cons_ne_nil c chunks) (fun c hc => (hchunks c hc).2) hlen,
            flatMap_cstr _ hzeros, if_neg hne]
    rw [hfinal hcuts, hfinal hcuts']

-- A body without NUL.
theorem cutIndependent_plain : CutIndependent (ascii "ok") :=
  (cutIndependent_iff (ascii "ok") (show 3 < 2 ^ 64 by omega)).mpr nofun

-- Behind a NUL a letter is lost, unless a chunk begins there.
theorem not_cutIndependent_nul : ¬∀ body : Bytes, body.length + 1 < 2 ^ 64 →
    CutIndependent body := by
  intro hall
  have hcuts : Cuts [97, 0, 98] [⟨zeroed, [97, 0, 98]⟩] :=
    ⟨rfl, List.forall_mem_singleton.mpr ⟨List.cons_ne_nil _ _, zeroed_succeeds⟩⟩
  have hcuts' : Cuts [97, 0, 98] [⟨zeroed, [97, 0]⟩, ⟨zeroed, [98]⟩] := by
    refine ⟨rfl, List.forall_mem_cons.mpr ⟨⟨List.cons_ne_nil _ _, zeroed_succeeds⟩, ?_⟩⟩
    exact List.forall_mem_singleton.mpr ⟨List.cons_ne_nil _ _, zeroed_succeeds⟩
  have hsame := hall [97, 0, 98] (show 4 < 2 ^ 64 by omega) _ _ hcuts hcuts'
  have hone : finalString [⟨zeroed, [97, 0, 98]⟩] = some [97] := by decide
  have htwo : finalString [⟨zeroed, [97, 0]⟩, ⟨zeroed, [98]⟩] = some [97, 98] := by decide
  rw [hone, htwo] at hsame
  cases hsame

end AsrServiceProxy.App

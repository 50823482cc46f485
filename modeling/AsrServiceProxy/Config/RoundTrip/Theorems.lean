import AsrServiceProxy.Config.RoundTrip.Numbers
import AsrServiceProxy.Config.RoundTrip.Objects

-- What is printed is read back: from the tokens of a tree to the tree, for
-- nested trees and then for documents.
namespace AsrServiceProxy.Config

open CMemory Simulation

theorem reads_value (flavor : ConfigSyntax) (includer : Includer) (depth : ℕ) (hdepth : 0 < depth) :
    ReadsValues (parseValue flavor includer depth) := by
  obtain ⟨depth, rfl⟩ : ∃ n, depth = n + 1 := ⟨depth - 1, by omega⟩
  intro v paths ts
  exact Runs.pure v

section

variable {options : ConfigRenderOptions} {flavor : ConfigSyntax} (includer : Includer)

-- A scalar is one token.
theorem reads_scalar {d : Data} (htokens : d.tokens options = [.value d.value]) {depth : ℕ}
    (hdepth : 0 < depth) : ReadsData options (parseValue flavor includer depth) d := by
  intro paths ts
  exact ⟨.value d.value, [], htokens, rfl, reads_value flavor includer depth hdepth d.value paths ts⟩

mutual

theorem reads_data (hjson : flavor = .JSON → options.json) :
    ∀ (d : Data) (depth : ℕ), d.WellFormed → d.depth < depth →
      ReadsData options (parseValue flavor includer depth) d
  | .null, depth, _, hdepth => reads_scalar includer rfl (by omega)
  | .boolean _, depth, _, hdepth => reads_scalar includer rfl (by omega)
  | .number _, depth, _, hdepth => reads_scalar includer rfl (by omega)
  | .string _, depth, _, hdepth => reads_scalar includer rfl (by omega)
  | .list ds, depth, hwell, hdepth => by
      obtain ⟨depth, rfl⟩ : ∃ n, depth = n + 1 := ⟨depth - 1, by omega⟩
      rw [Data.depth] at hdepth
      rw [Data.WellFormed] at hwell
      intro paths ts
      obtain ⟨tail, htokens, htake⟩ := takes_array flavor
        (reads_value flavor includer depth (by omega)) ds
        (reads_all hjson ds depth hwell (by omega)) paths ts
      exact ⟨.openSquare, tail, htokens, rfl, htake⟩
  | .object fields, depth, hwell, hdepth => by
      obtain ⟨depth, rfl⟩ : ∃ n, depth = n + 1 := ⟨depth - 1, by omega⟩
      rw [Data.depth] at hdepth
      rw [Data.WellFormed] at hwell
      intro paths ts
      obtain ⟨tail, htokens, htake⟩ := takes_object flavor hjson includer
        (reads_value flavor includer depth (by omega)) fields
        (reads_fields hjson fields depth hwell.2 (by omega)) hwell.1 paths ts
      exact ⟨.openCurly, tail, htokens, rfl, htake⟩

theorem reads_all (hjson : flavor = .JSON → options.json) :
    ∀ (ds : List Data) (depth : ℕ), WellFormedAll ds → depthAll ds < depth →
      ∀ d ∈ ds, ReadsData options (parseValue flavor includer depth) d
  | [], _, _, _ => nofun
  | d :: rest, depth, hwell, hdepth => by
      rw [depthAll] at hdepth
      rw [WellFormedAll] at hwell
      intro d' hd'
      rcases List.mem_cons.mp hd' with heq | hd'
      · rw [heq]
        exact reads_data hjson d depth hwell.1 (by omega)
      · exact reads_all hjson rest depth hwell.2 (by omega) d' hd'

theorem reads_fields (hjson : flavor = .JSON → options.json) :
    ∀ (fields : List (Bytes × Data)) (depth : ℕ), WellFormedFields fields →
      depthFields fields < depth →
      ∀ g ∈ fields, ReadsData options (parseValue flavor includer depth) g.2
  | [], _, _, _ => nofun
  | (key, d) :: rest, depth, hwell, hdepth => by
      rw [depthFields] at hdepth
      rw [WellFormedFields] at hwell
      intro g hg
      rcases List.mem_cons.mp hg with rfl | hg
      · exact reads_data hjson d depth hwell.2.1 (by omega)
      · exact reads_fields hjson rest depth hwell.2.2 (by omega) g hg

end

-- A tree has at least as many tokens as it is deep.
mutual

theorem depth_le_tokens (options : ConfigRenderOptions) :
    ∀ d : Data, d.depth ≤ (d.tokens options).length
  | .null => le_rfl
  | .boolean _ => le_rfl
  | .number _ => le_rfl
  | .string _ => le_rfl
  | .list [] => by simp [Data.depth, depthAll, Data.tokens]
  | .list (d :: rest) => by
      have h := depthAll_le_tokens options (d :: rest)
      simp only [Data.depth, Data.tokens, List.length_append, List.length_cons]
      omega
  | .object [] => by simp [Data.depth, depthFields, Data.tokens]
  | .object (field :: rest) => by
      have h := depthFields_le_tokens options (field :: rest)
      simp only [Data.depth, Data.tokens, List.length_append, List.length_cons]
      omega

theorem depthAll_le_tokens (options : ConfigRenderOptions) :
    ∀ ds : List Data, depthAll ds ≤ (tokensElements options ds).length
  | [] => le_rfl
  | [d] => by
      have h := depth_le_tokens options d
      simp only [depthAll, tokensElements]
      omega
  | d :: next :: rest => by
      have h := depth_le_tokens options d
      have hrest := depthAll_le_tokens options (next :: rest)
      rw [depthAll, tokensElements]
      simp only [List.length_append]
      omega

theorem depthFields_le_tokens (options : ConfigRenderOptions) :
    ∀ fields : List (Bytes × Data), depthFields fields ≤ (tokensFields options fields).length
  | [] => le_rfl
  | [(key, d)] => by
      have h := depth_le_tokens options d
      simp only [depthFields, tokensFields, List.length_append, List.length_cons]
      omega
  | (key, d) :: next :: rest => by
      have h := depth_le_tokens options d
      have hrest := depthFields_le_tokens options (next :: rest)
      rw [depthFields, tokensFields]
      simp only [List.length_append, List.length_cons]
      omega

end

-- A document whose root has its braces.
theorem takes_braced (hjson : flavor = .JSON → options.json) {fields : List (Bytes × Data)}
    (hwell : (Data.object fields).WellFormed) :
    Takes (parseDocument flavor includer) []
      (.start :: ((Data.object fields).tokens options ++ [.end_])) (Data.object fields).value [] := by
  have hdepth := depth_le_tokens options (Data.object fields)
  refine Runs.bind (takes_rounds [] _) ?_
  refine Runs.bind (takes_next flavor [] (t := .start) rfl rfl _) ?_
  obtain ⟨head, tail, htokens, _, htake⟩ := reads_data includer hjson
    (Data.object fields) ((.start :: ((Data.object fields).tokens options ++ [.end_])).length + 1)
    hwell (by simp only [List.length_append, List.length_cons]; omega) [] [.end_]
  obtain rfl : head = .openCurly := by
    cases fields <;> exact (List.cons.inj htokens).1.symm
  have hnext := takes_next flavor [] (t := .openCurly) rfl rfl (tail ++ [.end_])
  rw [← List.cons_append, ← htokens] at hnext
  refine Runs.bind hnext ?_
  refine Runs.bind htake ?_
  refine Runs.bind (takes_next flavor [] (t := .end_) rfl rfl []) ?_
  exact Runs.pure _

-- A document whose root has none.
theorem takes_unbraced (options : ConfigRenderOptions) {field : Bytes × Data}
    {fields : List (Bytes × Data)}
    (hwell : (Data.object (field :: fields)).WellFormed) :
    Takes (parseDocument .CONF includer) []
      (.start :: (newlineToken options ++ tokensFields options (field :: fields) ++
        newlineToken options ++ [.end_])) (Data.object (field :: fields)).value [] := by
  have hdepth := depthFields_le_tokens options (field :: fields)
  rw [Data.WellFormed] at hwell
  refine Runs.bind (takes_rounds [] _) ?_
  refine Runs.bind (takes_next .CONF [] (t := .start) rfl rfl _) ?_
  obtain ⟨key, d⟩ := field
  have hsplit : newlineToken options ++ tokensFields options ((key, d) :: fields) ++
      newlineToken options ++ [.end_] = newlineToken options ++
        .value (.configString () key) :: (keySeparatorTokens options d.isObject ++
          d.tokens options ++ restFields options fields ++ newlineToken options ++ [.end_]) := by
    simp [tokensFields_cons, fieldTokens]
  generalize hrounds : (Token.start :: (newlineToken options ++
    tokensFields options ((key, d) :: fields) ++ newlineToken options ++ [.end_])).length + 1 = rounds
  rw [hsplit]
  refine Runs.bind (takes_ignoringNewline .CONF [] (t := .value (.configString () key)) rfl rfl
    (newlineToken options) (newlineToken_newline options) _) ?_
  -- the first key is put back, and the fields go up to the end of the document
  have hlt : depthFields ((key, d) :: fields) < rounds := by
    rw [← hrounds]
    simp only [List.length_append, List.length_cons]
    omega
  have hconf : ConfigSyntax.CONF = .JSON → options.json := by simp
  have hfields := takes_fields .CONF hconf includer false
    (reads_value .CONF includer rounds (by omega)) (key, d) fields
    (reads_fields includer hconf _ rounds hwell.2 hlt) hwell.1 [] [] (by simp) []
  have htokens : [] ++ (tokensFields options ((key, d) :: fields) ++
      (newlineToken options ++ [closeToken false])) = .value (.configString () key) ::
        (keySeparatorTokens options d.isObject ++ d.tokens options ++ restFields options fields ++
          newlineToken options ++ [.end_]) := by
    simp [tokensFields_cons, fieldTokens, closeToken]
  rw [htokens] at hfields
  refine Runs.bind (takes_putBack [] _ _) ?_
  refine Runs.bind hfields ?_
  refine Runs.bind (takes_next .CONF [] (t := .end_) rfl rfl []) ?_
  exact Runs.pure _

theorem takes_document (hjson : flavor = .JSON → options.json) {fields : List (Bytes × Data)}
    (hwell : (Data.object fields).WellFormed) :
    Takes (parseDocument flavor includer) [] (.start :: (rootTokens options fields ++ [.end_]))
      (Data.object fields).value [] := by
  cases fields with
  | nil => exact takes_braced includer hjson hwell
  | cons field fields =>
      by_cases hj : options.json
      · have hbraced := takes_braced includer hjson hwell
        simpa [rootTokens, hj, Data.tokens] using hbraced
      · obtain rfl : flavor = .CONF := by
          cases flavor with
          | JSON => exact absurd (hjson rfl) hj
          | CONF => rfl
        have hunbraced := takes_unbraced includer options hwell
        simpa [rootTokens, hj] using hunbraced

theorem parse_rootText (doubles : Doubles) (hjson : flavor = .JSON → options.json)
    {fields : List (Bytes × Data)} (hwell : (Data.object fields).WellFormed) :
    parse doubles includer flavor (rootText options fields) = .ok (Data.object fields).value := by
  have hfields : WellFormedFields fields := by
    rw [Data.WellFormed] at hwell
    exact hwell.2
  have hoffers : Offers
      { tokens := tokenize doubles (rootText options fields) flavor, buffer := [], pathStack := [] }
      ([], .start :: (rootTokens options fields ++ [.end_])) :=
    ⟨rfl, tokenize_rootText doubles options fields hfields flavor, nofun⟩
  obtain ⟨st, hst, _⟩ := takes_document includer hjson hwell _ hoffers
  unfold parse
  simp only [hst]

end

theorem parse_render {ι : Type} (doubles : Doubles) (includer : Includer)
    (options : ConfigRenderOptions) (v : Value ι) (fields : List (Bytes × Data))
    (hdata : v.data = some (.object fields)) (hwell : (Data.object fields).WellFormed) :
    ∃ text, v.render doubles options = .ok text ∧
      (∃ w, parse doubles includer .CONF text = .ok w ∧ w.data = v.data) ∧
      (options.json → ∃ w, parse doubles includer .JSON text = .ok w ∧ w.data = v.data) := by
  have hread : (Data.object fields).value.data = v.data := by
    rw [hdata, value_data]
  have hconf : parse doubles includer .CONF (rootText options fields) =
      .ok (Data.object fields).value :=
    parse_rootText includer doubles (fun h => by cases h) hwell
  refine ⟨rootText options fields, render_eq doubles options v fields hdata, ?_, ?_⟩
  · exact ⟨(Data.object fields).value, hconf, hread⟩
  · intro hj
    have hjson : parse doubles includer .JSON (rootText options fields) =
        .ok (Data.object fields).value :=
      parse_rootText includer doubles (fun _ => hj) hwell
    exact ⟨(Data.object fields).value, hjson, hread⟩

-- An object with an empty key, a key with a dot and a key that is a keyword.
def sampleConfig : Value Unit :=
  .simpleConfigObject ()
    [([], .simpleConfigList () [.configNull (), .configInt () (-7) []]),
      (ascii "a.b", .simpleConfigObject () [] false),
      (ascii "include", .configString () [34, 10])] false

-- No number of the sample has a fraction.
def noDoubles : Doubles where
  cast _ := none
  print text := text

theorem parse_render_sample :
    ∃ text, sampleConfig.render noDoubles { formatted := true, json := true } = .ok text ∧
      (∃ w, parse noDoubles .none .CONF text = .ok w ∧ w.data = sampleConfig.data) ∧
      (true → ∃ w, parse noDoubles .none .JSON text = .ok w ∧ w.data = sampleConfig.data) := by
  refine parse_render noDoubles .none { formatted := true, json := true } sampleConfig _ rfl ?_
  simp only [Data.WellFormed, WellFormedAll, WellFormedFields]
  decide

end AsrServiceProxy.Config

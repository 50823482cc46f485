import AsrServiceProxy.Config.RoundTrip.Lexing
import AsrServiceProxy.Config.RoundTrip.Text

-- The tokens of a printed document.
namespace AsrServiceProxy.Config

open CMemory

def newlineToken (options : ConfigRenderOptions) : List Token :=
  if options.formatted then [.newline] else []

def elementSeparatorTokens (options : ConfigRenderOptions) : List Token :=
  .comma :: newlineToken options

def fieldSeparatorTokens (options : ConfigRenderOptions) : List Token :=
  if options.formatted then (if options.json then [.comma, .newline] else [.newline]) else [.comma]

-- What stands between a key and its value.
def keySeparatorTokens (options : ConfigRenderOptions) (isObject : Bool) : List Token :=
  if options.json then [.colon] else if isObject then [] else [.equals]

mutual

def Data.tokens (options : ConfigRenderOptions) : Data → List Token
  | .list [] => [.openSquare, .closeSquare]
  | .list (d :: rest) =>
      .openSquare :: newlineToken options ++ tokensElements options (d :: rest) ++
        newlineToken options ++ [.closeSquare]
  | .object [] => [.openCurly, .closeCurly]
  | .object (field :: rest) =>
      .openCurly :: newlineToken options ++ tokensFields options (field :: rest) ++
        newlineToken options ++ [.closeCurly]
  | .null => [.value (Data.value .null)]
  | .boolean b => [.value (Data.value (.boolean b))]
  | .number n => [.value (Data.value (.number n))]
  | .string s => [.value (Data.value (.string s))]

def tokensElements (options : ConfigRenderOptions) : List Data → List Token
  | [] => []
  | [d] => d.tokens options
  | d :: next :: rest =>
      d.tokens options ++ elementSeparatorTokens options ++ tokensElements options (next :: rest)

def tokensFields (options : ConfigRenderOptions) : List (Bytes × Data) → List Token
  | [] => []
  | [(key, d)] =>
      .value (.configString () key) :: keySeparatorTokens options d.isObject ++ d.tokens options
  | (key, d) :: next :: rest =>
      .value (.configString () key) :: keySeparatorTokens options d.isObject ++ d.tokens options ++
        fieldSeparatorTokens options ++ tokensFields options (next :: rest)

end

def rootTokens (options : ConfigRenderOptions) (fields : List (Bytes × Data)) : List Token :=
  match fields with
  | [] => [.openCurly, .closeCurly]
  | fields =>
      (if options.json then [.openCurly] else []) ++ newlineToken options ++
        tokensFields options fields ++ newlineToken options ++
        (if options.json then [.closeCurly] else [])

section

variable (doubles : Doubles) (allowComments : Bool)

-- A run of the token stream without its end.
inductive Delivers : TokenStream → List Token → TokenStream → Prop where
  | nil (s : TokenStream) : Delivers s [] s
  | cons {s s' s'' : TokenStream} {t : Token} {ts : List Token}
      (hstep : Steps doubles allowComments s t s') (hend : t ≠ .end_)
      (hrest : Delivers s' ts s'') : Delivers s (t :: ts) s''

theorem deliver_of_delivers {s s' : TokenStream} {ts : List Token}
    (h : Delivers doubles allowComments s ts s') (n : ℕ) :
    deliver doubles allowComments (ts.length + n) s =
      ts ++ deliver doubles allowComments n s' := by
  induction h with
  | nil s => simp
  | @cons s s' s'' t ts hstep hend _ ih =>
      rw [List.length_cons, show ts.length + 1 + n = ts.length + n + 1 by omega, deliver, hstep,
        List.cons_append, ← ih]
      cases t <;> first | rfl | exact absurd rfl hend

-- `text` is taken apart into `ts` when what follows it meets `follow`. The flags
-- are those of the whitespace saver before and after.
structure Lexed (before : Bool) (text : Bytes) (ts : List Token) (after : Bool)
    (follow : List ℤ → Prop) : Prop where
  length_le : ts.length ≤ text.length
  delivers : ∀ (more : List ℤ) (s : TokenStream), follow more →
    Left (text.map readChar ++ more) s.rest → s.buffered ≤ 1 →
    s.saver.lastTokenWasSimpleValue = before →
    ∃ s', Delivers doubles allowComments s ts s' ∧ Left more s'.rest ∧ s'.buffered ≤ 1 ∧
      s'.saver.lastTokenWasSimpleValue = after

-- What may follow punctuation.
def Anything : List ℤ → Prop := fun _ => True

variable {doubles allowComments}

theorem Delivers.append {s s' s'' : TokenStream} {ts ts' : List Token}
    (h : Delivers doubles allowComments s ts s') (h' : Delivers doubles allowComments s' ts' s'') :
    Delivers doubles allowComments s (ts ++ ts') s'' := by
  induction h with
  | nil s => exact h'
  | cons hstep hend _ ih => exact .cons hstep hend (ih h')

theorem Lexed.nil (flag : Bool) (follow : List ℤ → Prop) :
    Lexed doubles allowComments flag [] [] flag follow where
  length_le := le_rfl
  delivers _ s _ hleft hbuf hlast := ⟨s, .nil s, hleft, hbuf, hlast⟩

theorem Lexed.append {before mid after : Bool} {text text' : Bytes} {ts ts' : List Token}
    {follow follow' : List ℤ → Prop} (h : Lexed doubles allowComments before text ts mid follow)
    (h' : Lexed doubles allowComments mid text' ts' after follow')
    (hfollow : ∀ more, follow' more → follow (text'.map readChar ++ more)) :
    Lexed doubles allowComments before (text ++ text') (ts ++ ts') after follow' where
  length_le := by
    have hl := h.length_le
    have hl' := h'.length_le
    simp only [List.length_append]
    omega
  delivers := by
    intro more s hmore hleft hbuf hlast
    rw [List.map_append, List.append_assoc] at hleft
    obtain ⟨s', hs', hleft', hbuf', hlast'⟩ :=
      h.delivers (text'.map readChar ++ more) s (hfollow more hmore) hleft hbuf hlast
    obtain ⟨s'', hs'', hleft'', hbuf'', hlast''⟩ :=
      h'.delivers more s' hmore hleft' hbuf' hlast'
    exact ⟨s'', hs'.append hs'', hleft'', hbuf'', hlast''⟩

theorem Lexed.weaken {before after : Bool} {text : Bytes} {ts : List Token}
    {follow follow' : List ℤ → Prop} (h : Lexed doubles allowComments before text ts after follow)
    (hfollow : ∀ more, follow' more → follow more) :
    Lexed doubles allowComments before text ts after follow' where
  length_le := h.length_le
  delivers more s hmore := h.delivers more s (hfollow more hmore)

-- Punctuation after blanks.
theorem Lexed.punctuation {b : UInt8} {t : Token} (h : Punctuation b t) (count : ℕ)
    (before : Bool) :
    Lexed doubles allowComments before (List.replicate count 32 ++ [b]) [t] false Anything where
  length_le := by simp
  delivers := by
    intro more s _ hleft hbuf _
    have hrest : s.rest = List.replicate count 32 ++ readChar b :: more := by
      rw [List.map_append, List.map_replicate, List.map_cons, List.map_nil, List.append_assoc,
        List.singleton_append, show readChar 32 = 32 from rfl] at hleft
      rcases hleft with hrest | ⟨hnil, _⟩
      · exact hrest
      · simp at hnil
    obtain ⟨s', hs', hrest', hbuf', hlast⟩ :=
      steps_punctuation doubles allowComments h count more s hrest hbuf
    have hend : t ≠ .end_ := by
      cases h <;> nofun
    exact ⟨s', .cons hs' hend (.nil s'), .inl hrest', hbuf', hlast⟩

-- A scalar after blanks.
theorem Lexed.scalar (d : Data) (hd : d.isScalar) (hwf : d.WellFormed)
    (options : ConfigRenderOptions) (level count : ℕ) (hne : d.text options level ≠ []) :
    Lexed doubles allowComments false (List.replicate count 32 ++ d.text options level)
      [.value d.value] true Stops where
  length_le := by
    have hpos := List.length_pos_iff.mpr hne
    simp only [List.length_append, List.length_replicate, List.length_singleton]
    omega
  delivers := by
    intro more s hstop hleft hbuf hlast
    have hrest : s.rest =
        List.replicate count 32 ++ ((d.text options level).map readChar ++ more) := by
      rw [List.map_append, List.map_replicate, List.append_assoc,
        show readChar 32 = 32 from rfl] at hleft
      rcases hleft with hrest | ⟨hnil, _⟩
      · exact hrest
      · simp [hne] at hnil
    obtain ⟨s', hs', hleft', hbuf', hlast'⟩ :=
      pullToken_scalar doubles allowComments d hd hwf options level count more hstop s hrest hbuf
    have hstep := steps_of_pull_value doubles allowComments (by rw [hlast', hlast]) hs'
    exact ⟨_, .cons hstep nofun (.nil _), hleft', hbuf', rfl⟩

theorem stops_cons {c : ℤ} (h : c ∈ ([10, 32, 44, 58, 61, 93, 123, 125] : List ℤ))
    (more : List ℤ) : Stops (c :: more) := by
  intro c' rest heq
  obtain ⟨rfl, _⟩ := List.cons.inj heq
  exact h

theorem scalar_text_ne_nil (d : Data) (h : d.isScalar) (options : ConfigRenderOptions) (level : ℕ) :
    d.text options level ≠ [] := by
  cases d with
  | null => rw [Data.text]; decide
  | boolean b => cases b <;> rw [Data.text] <;> decide
  | number n =>
      obtain ⟨b, digits, htext, _⟩ := lexicalString_cons n.toInt
      simp [Data.text, htext]
  | string s => simp [Data.text, renderJsonString]
  | list elements => cases h
  | object fields => cases h

section

variable (options : ConfigRenderOptions)

theorem Lexed.newline (doubles : Doubles) (allowComments before : Bool) :
    ∃ after, (before = false → after = false) ∧ Lexed doubles allowComments before
      (newlineIfFormatted options) (newlineToken options) after Anything := by
  by_cases hf : options.formatted
  · refine ⟨false, fun _ => rfl, ?_⟩
    simp only [newlineIfFormatted, newlineToken, hf, ite_true]
    exact Lexed.punctuation .newline 0 before
  · refine ⟨before, id, ?_⟩
    simp only [newlineIfFormatted, newlineToken, hf, Bool.false_eq_true, ite_false]
    exact Lexed.nil before Anything

-- The end of a list or object on a line of its own.
theorem Lexed.closing (doubles : Doubles) (allowComments : Bool) {b : UInt8} {t : Token}
    (h : Punctuation b t) (level : ℕ) (before : Bool) :
    Lexed doubles allowComments before
      (newlineIfFormatted options ++ indent options level ++ [b]) (newlineToken options ++ [t])
      false Anything := by
  obtain ⟨after, _, hnewline⟩ := Lexed.newline options doubles allowComments before
  rw [List.append_assoc]
  apply hnewline.append
  · by_cases hf : options.formatted
    · simp only [indent, hf, ite_true]
      exact Lexed.punctuation h (4 * level) after
    · simp only [indent, hf, Bool.false_eq_true, ite_false]
      exact Lexed.punctuation h 0 after
  · intro _ _
    trivial

theorem stops_closing {b : UInt8} (hb : readChar b ∈ ([10, 32, 44, 58, 61, 93, 123, 125] : List ℤ))
    (level : ℕ) (more : List ℤ) :
    Stops ((newlineIfFormatted options ++ indent options level ++ [b]).map readChar ++ more) := by
  by_cases hf : options.formatted
  · simp only [newlineIfFormatted, hf, ite_true, List.cons_append, List.nil_append, List.map_cons]
    exact stops_cons (by decide) _
  · simp only [newlineIfFormatted, indent, hf, Bool.false_eq_true, ite_false, List.nil_append,
      List.map_cons, List.map_nil, List.cons_append]
    exact stops_cons hb _

theorem Lexed.elementSeparator (before : Bool) :
    Lexed doubles allowComments before (elementSeparator options) (elementSeparatorTokens options)
      false Anything := by
  obtain ⟨after, hafter, hnewline⟩ := Lexed.newline options doubles allowComments false
  rw [hafter rfl] at hnewline
  exact (Lexed.punctuation .comma 0 before).append hnewline fun _ _ => trivial

theorem Lexed.fieldSeparator (before : Bool) :
    Lexed doubles allowComments before (fieldSeparator options) (fieldSeparatorTokens options)
      false Anything := by
  have hcomma : Lexed doubles allowComments before [44] [.comma] false Anything :=
    Lexed.punctuation .comma 0 before
  by_cases hf : options.formatted
  · by_cases hj : options.json
    · simp only [Config.fieldSeparator, fieldSeparatorTokens, hf, hj, ite_true]
      exact hcomma.append (Lexed.punctuation .newline 0 false) fun _ _ => trivial
    · simp only [Config.fieldSeparator, fieldSeparatorTokens, hf, hj, ite_true, Bool.false_eq_true,
        ite_false]
      exact Lexed.punctuation .newline 0 before
  · simp only [Config.fieldSeparator, fieldSeparatorTokens, hf, Bool.false_eq_true, ite_false]
    exact hcomma

theorem stops_separator (more : List ℤ) :
    Stops ((Config.fieldSeparator options).map readChar ++ more) ∧
      Stops ((Config.elementSeparator options).map readChar ++ more) := by
  constructor
  · by_cases hf : options.formatted
    · by_cases hj : options.json
      · simp only [Config.fieldSeparator, hf, hj, ite_true, List.map_cons, List.cons_append]
        exact stops_cons (by decide) _
      · simp only [Config.fieldSeparator, hf, hj, ite_true, Bool.false_eq_true, ite_false,
          List.map_cons, List.cons_append]
        exact stops_cons (by decide) _
    · simp only [Config.fieldSeparator, hf, Bool.false_eq_true, ite_false, List.map_cons,
        List.cons_append]
      exact stops_cons (by decide) _
  · simp only [Config.elementSeparator, List.cons_append, List.map_cons]
    exact stops_cons (by decide) _

theorem Lexed.blanks (level : ℕ) :
    ∃ count, indent options level = List.replicate count 32 := by
  by_cases hf : options.formatted
  · exact ⟨4 * level, by simp [indent, hf]⟩
  · exact ⟨0, by simp [indent, hf]⟩

-- A field, when its value is taken apart after any number of blanks.
theorem Lexed.field (key : Bytes) (hkey : (255 : UInt8) ∉ key) (d : Data) (level count : ℕ)
    (hd : ∀ (count : ℕ) (before : Bool), before = false ∨ d.isObject →
      Lexed doubles allowComments before (List.replicate count 32 ++ d.text options level)
        (d.tokens options) d.isScalar Stops)
    (hobject : d.isObject → ∃ text, d.text options level = 123 :: text) :
    Lexed doubles allowComments false
      (List.replicate count 32 ++ renderAtKey options d.isObject (.key key) ++ d.text options level)
      (.value (.configString () key) :: keySeparatorTokens options d.isObject ++ d.tokens options)
      d.isScalar Stops := by
  have hquoted : Lexed doubles allowComments false (List.replicate count 32 ++ renderJsonString key)
      [.value (.configString () key)] true Stops :=
    Lexed.scalar (.string key) rfl hkey options level count
      (scalar_text_ne_nil (.string key) rfl options level)
  by_cases hj : options.json
  · by_cases hf : options.formatted
    · have hcolon : Lexed doubles allowComments true [32, 58] [.colon] false Anything :=
        Lexed.punctuation .colon 1 true
      have hvalue := hd 1 false (.inl rfl)
      have hall := (hquoted.append hcolon fun _ _ => stops_cons (by decide) _).append hvalue
        fun _ _ => trivial
      simpa [renderAtKey, keySeparatorTokens, hj, hf] using hall
    · have hcolon : Lexed doubles allowComments true [58] [.colon] false Anything :=
        Lexed.punctuation .colon 0 true
      have hvalue := hd 0 false (.inl rfl)
      have hall := (hquoted.append hcolon fun _ _ => stops_cons (by decide) _).append hvalue
        fun _ _ => trivial
      simpa [renderAtKey, keySeparatorTokens, hj, hf] using hall
  · by_cases ho : d.isObject
    · obtain ⟨text, htext⟩ := hobject ho
      by_cases hf : options.formatted
      · have hvalue := hd 1 true (.inr ho)
        have hall := hquoted.append hvalue fun _ _ => stops_cons (by decide) _
        simpa [renderAtKey, keySeparatorTokens, hj, hf, ho, renderStringUnquotedIfPossible_eq]
          using hall
      · have hvalue := hd 0 true (.inr ho)
        have hall := hquoted.append hvalue fun more _ => by
          rw [htext]
          exact stops_cons (by decide) _
        simpa [renderAtKey, keySeparatorTokens, hj, hf, ho, renderStringUnquotedIfPossible_eq]
          using hall
    · have hequals : Lexed doubles allowComments true [61] [.equals] false Anything :=
        Lexed.punctuation .equals 0 true
      have hvalue := hd 0 false (.inl rfl)
      have hall := (hquoted.append hequals fun _ _ => stops_cons (by decide) _).append hvalue
        fun _ _ => trivial
      simpa [renderAtKey, keySeparatorTokens, hj, ho, renderStringUnquotedIfPossible_eq] using hall

theorem object_text (d : Data) (h : d.isObject) (level : ℕ) :
    ∃ text, d.text options level = 123 :: text := by
  cases d with
  | object fields =>
      cases fields with
      | nil => exact ⟨[125], rfl⟩
      | cons field rest => exact ⟨_, rfl⟩
  | _ => cases h

mutual

theorem lexed_data (d : Data) (hwf : d.WellFormed) (level count : ℕ) (before : Bool)
    (hbefore : before = false ∨ d.isObject) :
    Lexed doubles allowComments before (List.replicate count 32 ++ d.text options level)
      (d.tokens options) d.isScalar Stops := by
  match d, hwf, hbefore with
  | .null, hwf, .inl hbefore =>
      rw [hbefore]
      exact Lexed.scalar .null rfl hwf options level count (scalar_text_ne_nil _ rfl _ _)
  | .boolean b, hwf, .inl hbefore =>
      rw [hbefore]
      exact Lexed.scalar (.boolean b) rfl hwf options level count (scalar_text_ne_nil _ rfl _ _)
  | .number n, hwf, .inl hbefore =>
      rw [hbefore]
      exact Lexed.scalar (.number n) rfl hwf options level count (scalar_text_ne_nil _ rfl _ _)
  | .string s, hwf, .inl hbefore =>
      rw [hbefore]
      exact Lexed.scalar (.string s) rfl hwf options level count (scalar_text_ne_nil _ rfl _ _)
  | .list [], _, _ =>
      have hopen : Lexed doubles allowComments before (List.replicate count 32 ++ [91])
          [.openSquare] false Anything := Lexed.punctuation .openSquare count before
      have hclose : Lexed doubles allowComments false [93] [.closeSquare] false Anything :=
        Lexed.punctuation .closeSquare 0 false
      have hall := (hopen.append hclose fun _ _ => trivial).weaken fun more (_ : Stops more) => trivial
      simpa [Data.text, Data.tokens, Data.isScalar] using hall
  | .list (d :: rest), hwf, _ =>
      have hopen : Lexed doubles allowComments before (List.replicate count 32 ++ [91])
          [.openSquare] false Anything := Lexed.punctuation .openSquare count before
      obtain ⟨after, hafter, hnewline⟩ := Lexed.newline options doubles allowComments false
      rw [hafter rfl] at hnewline
      obtain ⟨last, helements⟩ := lexed_elements (d :: rest) hwf level
      have hclose := Lexed.closing options doubles allowComments .closeSquare level last
      have hall := (((hopen.append hnewline fun _ _ => trivial).append helements
        fun _ _ => trivial).append hclose
        fun more _ => stops_closing options (by decide) level more).weaken
        fun more (_ : Stops more) => trivial
      simpa [Data.text, Data.tokens, Data.isScalar] using hall
  | .object [], _, _ =>
      have hopen : Lexed doubles allowComments before (List.replicate count 32 ++ [123])
          [.openCurly] false Anything := Lexed.punctuation .openCurly count before
      have hclose : Lexed doubles allowComments false [125] [.closeCurly] false Anything :=
        Lexed.punctuation .closeCurly 0 false
      have hall := (hopen.append hclose fun _ _ => trivial).weaken fun more (_ : Stops more) => trivial
      simpa [Data.text, Data.tokens, Data.isScalar] using hall
  | .object (field :: rest), hwf, _ =>
      have hopen : Lexed doubles allowComments before (List.replicate count 32 ++ [123])
          [.openCurly] false Anything := Lexed.punctuation .openCurly count before
      obtain ⟨after, hafter, hnewline⟩ := Lexed.newline options doubles allowComments false
      rw [hafter rfl] at hnewline
      obtain ⟨last, hfields⟩ := lexed_fields (field :: rest) hwf.2 level
      have hclose := Lexed.closing options doubles allowComments .closeCurly level last
      have hall := (((hopen.append hnewline fun _ _ => trivial).append hfields
        fun _ _ => trivial).append hclose
        fun more _ => stops_closing options (by decide) level more).weaken
        fun more (_ : Stops more) => trivial
      simpa [Data.text, Data.tokens, Data.isScalar] using hall

theorem lexed_elements (ds : List Data) (hwf : WellFormedAll ds) (level : ℕ) :
    ∃ last, Lexed doubles allowComments false (textElements options ds level)
      (tokensElements options ds) last Stops := by
  match ds, hwf with
  | [], _ => exact ⟨false, Lexed.nil false Stops⟩
  | [d], hwf =>
      obtain ⟨count, hcount⟩ := Lexed.blanks options (level + 1)
      refine ⟨d.isScalar, ?_⟩
      rw [textElements, tokensElements, hcount]
      exact lexed_data d hwf.1 (level + 1) count false (.inl rfl)
  | d :: next :: rest, hwf =>
      obtain ⟨count, hcount⟩ := Lexed.blanks options (level + 1)
      have hfirst := lexed_data d hwf.1 (level + 1) count false (.inl rfl)
      obtain ⟨last, hrest⟩ := lexed_elements (next :: rest) hwf.2 level
      refine ⟨last, ?_⟩
      rw [textElements, tokensElements, hcount]
      exact (hfirst.append (Lexed.elementSeparator options d.isScalar)
        fun more _ => (stops_separator options more).2).append hrest fun _ _ => trivial

theorem lexed_fields (fields : List (Bytes × Data)) (hwf : WellFormedFields fields) (level : ℕ) :
    ∃ last, Lexed doubles allowComments false (textFields options fields level)
      (tokensFields options fields) last Stops := by
  match fields, hwf with
  | [], _ => exact ⟨false, Lexed.nil false Stops⟩
  | [(key, d)], hwf =>
      obtain ⟨count, hcount⟩ := Lexed.blanks options (level + 1)
      refine ⟨d.isScalar, ?_⟩
      rw [textFields, tokensFields, hcount]
      exact Lexed.field options key hwf.1 d (level + 1) count
        (fun count before h => lexed_data d hwf.2.1 (level + 1) count before h)
        fun h => object_text options d h (level + 1)
  | (key, d) :: next :: rest, hwf =>
      obtain ⟨count, hcount⟩ := Lexed.blanks options (level + 1)
      have hfirst := Lexed.field options key hwf.1 d (level + 1) count
        (fun count before h => lexed_data d hwf.2.1 (level + 1) count before h)
        fun h => object_text options d h (level + 1)
      obtain ⟨last, hrest⟩ := lexed_fields (next :: rest) hwf.2.2 level
      refine ⟨last, ?_⟩
      rw [textFields, tokensFields, hcount]
      exact (hfirst.append (Lexed.fieldSeparator options d.isScalar)
        fun more _ => (stops_separator options more).1).append hrest fun _ _ => trivial

end

theorem lexed_root (doubles : Doubles) (allowComments : Bool)
    (fields : List (Bytes × Data)) (hwf : WellFormedFields fields) :
    ∃ last, Lexed doubles allowComments false (rootText options fields) (rootTokens options fields)
      last Stops := by
  have hopen : Lexed doubles allowComments false [123] [.openCurly] false Anything :=
    Lexed.punctuation .openCurly 0 false
  cases fields with
  | nil =>
      have hclose : Lexed doubles allowComments false [125] [.closeCurly] false Anything :=
        Lexed.punctuation .closeCurly 0 false
      exact ⟨false, (hopen.append hclose fun _ _ => trivial).weaken fun _ _ => trivial⟩
  | cons field rest =>
      obtain ⟨after, hafter, hnewline⟩ := Lexed.newline options doubles allowComments false
      rw [hafter rfl] at hnewline
      obtain ⟨last, hfields⟩ := lexed_fields options (field :: rest) hwf 0
      have hbody := hnewline.append hfields fun _ _ => trivial
      by_cases hj : options.json
      · have hclose := Lexed.closing options doubles allowComments .closeCurly 0 last
        have hall := ((hopen.append hbody fun _ _ => trivial).append hclose
          fun more _ => stops_closing options (by decide) 0 more).weaken
          fun more (_ : Stops more) => trivial
        refine ⟨false, ?_⟩
        simpa [rootText, rootTokens, hj, indent] using hall
      · obtain ⟨last', _, hend⟩ := Lexed.newline options doubles allowComments last
        refine ⟨last', ?_⟩
        have hall := hbody.append (hend.weaken fun more (_ : Stops more) => trivial) ?_
        · simpa [rootText, rootTokens, hj] using hall
        · intro more hmore
          by_cases hf : options.formatted
          · simp only [newlineIfFormatted, hf, ite_true, List.map_cons, List.cons_append]
            exact stops_cons (by decide) _
          · simpa [newlineIfFormatted, hf] using hmore

end

theorem steps_end (doubles : Doubles) (allowComments : Bool) (s : TokenStream) (h : Left [] s.rest) :
    ∃ s', Steps doubles allowComments s .end_ s' := by
  have hpull : ∃ s', ∀ substitution,
      pullToken doubles allowComments substitution s = .ok .end_ s' := by
    rcases h with hrest | ⟨_, hrest⟩
    · refine ⟨s, fun substitution => ?_⟩
      simp [pullToken, nextCharAfterWhitespace, rounds, hrest, nextCharAfterWhitespaceLoop,
        nextCharRaw, bind, EStateM.bind, pure, EStateM.pure, isWhitespaceNotNewline, isWhitespace]
    · refine ⟨{ s with rest := [], buffered := s.buffered - 1 }, fun substitution => ?_⟩
      simp [pullToken, nextCharAfterWhitespace, rounds, hrest, nextCharAfterWhitespaceLoop,
        nextCharRaw, bind, EStateM.bind, pure, EStateM.pure, isWhitespaceNotNewline, isWhitespace]
  obtain ⟨s', hs'⟩ := hpull
  exact ⟨_, steps_of_pull doubles allowComments rfl hs'⟩

end

theorem tokenize_rootText (doubles : Doubles) (options : ConfigRenderOptions)
    (fields : List (Bytes × Data)) (hwf : WellFormedFields fields) (flavor : ConfigSyntax) :
    tokenize doubles (rootText options fields) flavor =
      .start :: (rootTokens options fields ++ [.end_]) := by
  obtain ⟨last, hroot⟩ := lexed_root options doubles (flavor ≠ .JSON) fields hwf
  obtain ⟨s', hs', hleft, _⟩ := hroot.delivers [] (.ofString (rootText options fields))
    (fun _ _ h => nomatch h) (.inl (by simp [TokenStream.ofString])) (Nat.zero_le 1) rfl
  obtain ⟨s'', hend⟩ := steps_end doubles (flavor ≠ .JSON) s' hleft
  have hfuel : (rootText options fields).length + 1 = (rootTokens options fields).length +
      ((rootText options fields).length - (rootTokens options fields).length + 1) := by
    have hle := hroot.length_le
    omega
  rw [tokenize, hfuel, deliver_of_delivers _ _ hs', deliver, hend]
  rfl

end AsrServiceProxy.Config

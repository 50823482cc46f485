import AsrServiceProxy.Config.PathText.Reading

-- A path that was written is read back, unless a number in it is none.
namespace AsrServiceProxy.Config

open CMemory Simulation

theorem quoted_renderJsonChar {b : UInt8} (hb : b ≠ 255) {body text : Bytes}
    (h : Quoted body text) : Quoted (renderJsonChar b ++ body) (b :: text) := by
  unfold renderJsonChar
  split
  · exact .escape (.single (by decide)) h
  · exact .escape (.single (by decide)) h
  · exact .escape (.single (by decide)) h
  · exact .escape (.single (by decide)) h
  · exact .escape (.single (by decide)) h
  · exact .escape (.single (by decide)) h
  · exact .escape (.single (by decide)) h
  · rename_i hquote hslash _ _ _ _ _
    by_cases hcntrl : iscntrl b = true
    · rw [if_pos hcntrl]
      have hescape : Escape (117 :: renderHex b) b := by
        have hunicode : Escape (117 :: renderHex b) (toChar (strtol16 (renderHex b))) :=
          .unicode rfl (renderHex_noEof b)
        rw [strtol16_renderHex b hcntrl] at hunicode
        exact hunicode
      exact .escape hescape h
    · rw [if_neg hcntrl]
      exact .char ⟨hb, hslash, hquote, Bool.eq_false_iff.mpr hcntrl⟩ h

theorem quoted_render (text : Bytes) (h : (255 : UInt8) ∉ text) :
    Quoted (text.flatMap renderJsonChar ++ [34]) text := by
  induction text with
  | nil => exact .close
  | cons b text ih =>
      rw [List.mem_cons, not_or] at h
      rw [List.flatMap_cons, List.append_assoc]
      exact quoted_renderJsonChar (fun hb => h.1 hb.symm) (ih h.2)

-- The keys that need no quotes.
def isPlainKey (key : Bytes) : Bool :=
  match key with
  | [] => false
  | first :: rest =>
      isalpha first && rest.all fun c => isalpha c || isdigit c || c = 45 || c = 95

def writeKey (key : Bytes) : Bytes := if isPlainKey key then key else renderJsonString key

-- The keys of a path after the first one, each behind its period.
def dotted : List Bytes → Bytes
  | [] => []
  | key :: keys => 46 :: (writeKey key ++ dotted keys)

-- The text of these keys up to the first quote.
def lead : List Bytes → Bytes
  | [] => []
  | key :: keys => if isPlainKey key then 46 :: (key ++ lead keys) else [46]

def leadingText : List Bytes → Bytes
  | [] => []
  | key :: keys => if isPlainKey key then key ++ lead keys else []

-- A further key behind those of `buf`.
def addKey (buf : Elements) (key : Bytes) : Elements :=
  { front := buf.front ++ [buf.current]
    current := { element := key, canBeEmpty := key.isEmpty } }

theorem writeKey_of_plain {key : Bytes} (h : isPlainKey key = true) : writeKey key = key := by
  rw [writeKey, h, if_pos rfl]

theorem writeKey_of_not_plain {key : Bytes} (h : isPlainKey key = false) :
    writeKey key = renderJsonString key := by
  rw [writeKey, h, if_neg Bool.false_ne_true]

-- `has_funky_chars` looks at the whole key.
theorem renderKey_eq {key : Bytes} (h : key.length < 2 ^ 32) :
    Path.renderKey key = writeKey key := by
  have htake : key.take (key.length % 2 ^ 32) = key := by
    rw [Nat.mod_eq_of_lt h, List.take_length]
  cases key with
  | nil => rfl
  | cons first rest =>
      have hfunky : Path.hasFunkyChars (first :: rest) = !isPlainKey (first :: rest) := by
        rw [Path.hasFunkyChars, htake]
        simp [isPlainKey, Bool.not_and, List.not_all_eq_any_not]
      rw [Path.renderKey, hfunky, List.isEmpty_cons, Bool.or_false, writeKey]
      cases isPlainKey (first :: rest) <;> rfl

-- What it does not look at does not matter where the key needs no quotes.
theorem renderKey_of_plain {key : Bytes} (h : isPlainKey key = true) :
    Path.renderKey key = writeKey key := by
  cases key with
  | nil => cases h
  | cons first rest =>
      have hfunky : Path.hasFunkyChars (first :: rest) = false := by
        rw [isPlainKey, Bool.and_eq_true, List.all_eq_true] at h
        unfold Path.hasFunkyChars
        cases (first :: rest).length % 2 ^ 32 with
        | zero => rfl
        | succ n =>
            have hrest : ∀ c ∈ rest.take n,
                (isalpha c || isdigit c || c = 45 || c = 95) = true := fun c hc =>
              h.2 c (List.mem_of_mem_take hc)
            rw [List.take_succ_cons]
            dsimp only
            rw [h.1, Bool.or_eq_false_iff, List.any_eq_false]
            refine ⟨by decide, fun c hc => ?_⟩
            simp only [hrest c hc]
            decide
      rw [Path.renderKey, hfunky, writeKey_of_plain h]
      rfl

theorem isPlainKey_of_letters {key : Bytes} (hne : key ≠ [])
    (h : ∀ c ∈ key, isalpha c = true) : isPlainKey key = true := by
  cases key with
  | nil => exact absurd rfl hne
  | cons first rest =>
      rw [isPlainKey, Bool.and_eq_true, List.all_eq_true]
      refine ⟨h first List.mem_cons_self, fun c hc => ?_⟩
      rw [h c (List.mem_cons_of_mem first hc)]
      rfl

theorem length_le_renderKey (key : Bytes) : key.length ≤ (Path.renderKey key).length := by
  have hchar : ∀ b, 1 ≤ (renderJsonChar b).length := by
    apply forall_byte
    decide +kernel
  have hquoted : key.length ≤ (renderJsonString key).length := by
    have hbody : key.length ≤ (key.flatMap renderJsonChar).length := by
      induction key with
      | nil => exact le_rfl
      | cons b key ih =>
          have hb := hchar b
          rw [List.flatMap_cons, List.length_append, List.length_cons]
          omega
    rw [renderJsonString, List.length_append, List.length_append]
    omega
  unfold Path.renderKey
  split
  · exact hquoted
  · exact le_rfl

theorem Path.length_le_render (path : Path) :
    ∀ key ∈ path.keys, key.length ≤ path.render.length := by
  induction path with
  | newKey first =>
      intro key hkey
      rw [List.mem_singleton.mp hkey]
      exact length_le_renderKey first
  | cons first remainder ih =>
      have hfirst := length_le_renderKey first
      intro key hkey
      rw [Path.render, List.length_append, List.length_append]
      rcases List.mem_cons.mp hkey with rfl | hkey
      · omega
      · have hrest := ih key hkey
        omega

theorem isPlainKey_ne_nil {key : Bytes} (h : isPlainKey key = true) : key ≠ [] := by
  rintro rfl
  cases h

theorem isPlainKey_bytes {key : Bytes} (h : isPlainKey key = true) :
    ∀ b ∈ key, isPlainByte b = true ∧ b ≠ 46 := by
  have hbyte : ∀ b, (isalpha b || isdigit b || decide (b = 45) || decide (b = 95)) = true →
      isPlainByte b = true ∧ b ≠ 46 := by
    apply forall_byte
    decide +kernel
  cases key with
  | nil => cases h
  | cons first rest =>
      rw [isPlainKey, Bool.and_eq_true, List.all_eq_true] at h
      intro b hb
      apply hbyte
      rcases List.mem_cons.mp hb with rfl | hb
      · rw [h.1]
        rfl
      · exact h.2 b hb

theorem foldl_addByte_key {key : Bytes} (h : isPlainKey key = true) (buf : Elements) :
    (46 :: key).foldl addByte buf = addKey buf key := by
  have hperiod : 46 ∉ key := fun hmem => (isPlainKey_bytes h 46 hmem).2 rfl
  have hempty : key.isEmpty = false := by simpa using isPlainKey_ne_nil h
  rw [List.foldl_cons, foldl_addByte_of_no_period key hperiod, addKey, addByte, if_pos rfl, hempty]
  rfl

section

variable {doubles : Doubles}

theorem closed_quoted (key : Bytes) (more : Bytes) : Closed (renderJsonString key ++ more) :=
  .inr ⟨_, rfl⟩

theorem head_dotted (keys : List Bytes) : (dotted keys).head? ≠ some 34 := by
  cases keys with
  | nil => nofun
  | cons key keys =>
      rw [dotted, List.head?_cons]
      decide

-- A key in quotes is one token.
theorem streams_quoted {key : Bytes} (h : (255 : UInt8) ∉ key) (keys : List Bytes)
    {saver : WhitespaceSaver} (hsaver : saver.whitespace = []) {buf : Elements}
    (post : Except ConfigException Elements → Prop)
    (hrest : ∀ saver : WhitespaceSaver, saver.whitespace = [] →
      Streams doubles true (dotted keys) saver fun ts =>
        post (addPathTokens ts (addPathText buf true key))) :
    Streams doubles true (renderJsonString key ++ dotted keys) saver fun ts =>
      post (addPathTokens ts buf) := by
  have htext : renderJsonString key ++ dotted keys =
      34 :: ((key.flatMap renderJsonChar ++ [34]) ++ dotted keys) := by
    simp [renderJsonString]
  rw [htext]
  refine streams_adjacent (dotted keys) (.value (.configString () key)) hsaver (by simp) (by decide)
    ?_ ?_
  · intro r rest' hlexes
    exact hlexes.of_string (quoted_render key h) fun _ => head_dotted keys
  · exact hrest _ rfl

theorem lead_plain (keys : List Bytes) : ∀ b ∈ lead keys, isPlainByte b = true := by
  induction keys with
  | nil => nofun
  | cons key keys ih =>
      rw [lead]
      split
      · rename_i hkey
        intro b hb
        rcases List.mem_cons.mp hb with rfl | hb
        · decide
        · rcases List.mem_append.mp hb with hb | hb
          · exact (isPlainKey_bytes hkey b hb).1
          · exact ih b hb
      · exact List.forall_mem_singleton.mpr rfl

theorem numbersCast_lead (keys : List Bytes) : NumbersCast doubles (lead keys) := by
  have hwords : ∀ (word : Bytes), word ∈ words → ∀ w, ¬word <+: 46 :: w := by
    intro word hword w hprefix
    have hfirst : ∀ word ∈ words, word.head? ≠ some 46 ∧ word ≠ [] := by
      decide
    obtain ⟨hhead, hne⟩ := hfirst word hword
    cases word with
    | nil => exact hne rfl
    | cons b word =>
        obtain ⟨rfl, _⟩ := List.cons_prefix_cons.mp hprefix
        exact hhead rfl
  cases keys with
  | nil => exact .nil
  | cons key keys =>
      rw [lead]
      split
      · exact .other (by decide) fun word hword => hwords word hword _
      · exact .other (by decide) fun word hword => hwords word hword _

theorem plain_append_period {w : Bytes} (hw : ∀ b ∈ w, isPlainByte b = true) :
    ∀ b ∈ w ++ [46], isPlainByte b = true := by
  intro b hb
  rcases List.mem_append.mp hb with hb | hb
  · exact hw b hb
  · obtain rfl := List.mem_singleton.mp hb
    decide

theorem plain_append_key {w key : Bytes} (hw : ∀ b ∈ w, isPlainByte b = true)
    (hkey : isPlainKey key = true) : ∀ b ∈ w ++ 46 :: key, isPlainByte b = true := by
  rw [← List.singleton_append, ← List.append_assoc]
  intro b hb
  rcases List.mem_append.mp hb with hb | hb
  · exact plain_append_period hw b hb
  · exact (isPlainKey_bytes hkey b hb).1

-- `w` is what is left of the keys before, outside quotes.
theorem streams_keys (keys : List Bytes) (h : ∀ key ∈ keys, (255 : UInt8) ∉ key) {w : Bytes}
    (hw : ∀ b ∈ w, isPlainByte b = true) (hcast : NumbersCast doubles (w ++ lead keys))
    {saver : WhitespaceSaver} (hsaver : saver.whitespace = []) (buf : Elements) :
    Streams doubles true (w ++ dotted keys) saver fun ts =>
      addPathTokens ts buf = .ok (keys.foldl addKey (w.foldl addByte buf)) := by
  induction keys generalizing w saver buf with
  | nil =>
      rw [lead, List.append_nil] at hcast
      refine hcast.streams (Closed.endsText (.inl rfl)) hw hsaver
        (fun r => r = .ok (w.foldl addByte buf)) ?_
      intro saver' _
      exact streams_last rfl rfl
  | cons key keys ih =>
      rw [List.forall_mem_cons] at h
      cases hkey : isPlainKey key with
      | true =>
          have hw' := plain_append_key hw hkey
          rw [lead, hkey, if_pos rfl, ← List.cons_append, ← List.append_assoc] at hcast
          have hkeys := ih h.2 hw' hcast hsaver buf
          rw [List.foldl_append, foldl_addByte_key hkey, List.append_assoc, List.cons_append] at hkeys
          rw [dotted, writeKey_of_plain hkey, List.foldl_cons]
          exact hkeys
      | false =>
          have hperiod := plain_append_period hw
          rw [lead, hkey, if_neg Bool.false_ne_true] at hcast
          rw [dotted, writeKey_of_not_plain hkey, ← List.singleton_append, ← List.append_assoc]
          refine hcast.streams (closed_quoted key _).endsText hperiod hsaver
            (fun r => r = .ok ((key :: keys).foldl addKey (w.foldl addByte buf))) ?_
          intro saver₁ hsaver₁
          refine streams_quoted h.1 keys hsaver₁
            (fun r => r = .ok ((key :: keys).foldl addKey (w.foldl addByte buf))) ?_
          intro saver₂ hsaver₂
          have hkeys := ih h.2 (w := []) nofun (numbersCast_lead keys) hsaver₂
            (addPathText ((w ++ [46]).foldl addByte buf) true key)
          rw [List.foldl_cons]
          rw [List.foldl_append] at hkeys ⊢
          exact hkeys

theorem streams_keys_error (keys : List Bytes) {w : Bytes}
    (hw : ∀ b ∈ w, isPlainByte b = true) (hcast : ¬NumbersCast doubles (w ++ lead keys))
    {saver : WhitespaceSaver} (hsaver : saver.whitespace = []) (buf : Elements) :
    Streams doubles true (w ++ dotted keys) saver fun ts => ∃ e, addPathTokens ts buf = .error e := by
  induction keys generalizing w saver buf with
  | nil =>
      rw [lead, List.append_nil] at hcast
      exact streams_error_of_not_numbersCast w.length le_rfl hcast (Closed.endsText (.inl rfl)) hw hsaver
  | cons key keys ih =>
      cases hkey : isPlainKey key with
      | true =>
          have hw' := plain_append_key hw hkey
          rw [lead, hkey, if_pos rfl, ← List.cons_append, ← List.append_assoc] at hcast
          have hkeys := ih hw' hcast hsaver buf
          rw [List.append_assoc, List.cons_append] at hkeys
          rw [dotted, writeKey_of_plain hkey]
          exact hkeys
      | false =>
          have hperiod := plain_append_period hw
          rw [lead, hkey, if_neg Bool.false_ne_true] at hcast
          rw [dotted, writeKey_of_not_plain hkey, ← List.singleton_append, ← List.append_assoc]
          exact streams_error_of_not_numbersCast _ le_rfl hcast (closed_quoted key _).endsText
            hperiod hsaver

end

theorem PathBuilder.result_keys (keys : List Bytes) (h : keys ≠ []) :
    ∃ path, PathBuilder.result keys = some path ∧ path.keys = keys := by
  induction keys with
  | nil => exact absurd rfl h
  | cons key keys ih =>
      cases keys with
      | nil => exact ⟨.newKey key, rfl, rfl⟩
      | cons next keys =>
          obtain ⟨remainder, hremainder, hkeys⟩ := ih (List.cons_ne_nil next keys)
          exact ⟨.cons key remainder, by rw [PathBuilder.result, hremainder], by
            rw [Path.keys, hkeys]⟩

theorem ofElements_keys (key : Bytes) (keys : List Bytes) :
    ∃ path, Path.ofElements (key :: keys) = .ok path ∧ path.keys = key :: keys := by
  cases keys with
  | nil => exact ⟨.newKey key, rfl, rfl⟩
  | cons next keys =>
      obtain ⟨remainder, hremainder, hkeys⟩ :=
        PathBuilder.result_keys (next :: keys) (List.cons_ne_nil next keys)
      exact ⟨.cons key remainder, by rw [Path.ofElements, hremainder], by rw [Path.keys, hkeys]⟩

theorem render_eq_dotted (path : Path) {key : Bytes} {keys : List Bytes}
    (h : path.keys = key :: keys) (hwritten : ∀ k ∈ path.keys, Path.renderKey k = writeKey k) :
    path.render = writeKey key ++ dotted keys := by
  induction path generalizing key keys with
  | newKey first =>
      obtain ⟨rfl, rfl⟩ := List.cons.inj h
      rw [Path.render, dotted, List.append_nil, hwritten first List.mem_cons_self]
  | cons first remainder ih =>
      obtain ⟨rfl, rfl⟩ := List.cons.inj h
      rw [Path.keys, List.forall_mem_cons] at hwritten
      cases hkeys : remainder.keys with
      | nil => cases remainder <;> cases hkeys
      | cons next keys =>
          rw [Path.render, ih hkeys hwritten.2, dotted, List.append_assoc, List.singleton_append,
            hwritten.1]

theorem joinPath_eq (key : Bytes) (keys : List Bytes)
    (hwritten : ∀ k ∈ key :: keys, Path.renderKey k = writeKey k) :
    joinPath (key :: keys) = .ok (writeKey key ++ dotted keys) := by
  obtain ⟨path, hpath, hkeys⟩ := ofElements_keys key keys
  rw [joinPath, hpath]
  exact congrArg Except.ok (render_eq_dotted path hkeys (hkeys ▸ hwritten))

-- The elements of a buffer that has a key in each of them.
theorem elements_foldl_addKey (keys : List Bytes) (buf : Elements) :
    (keys.foldl addKey buf).front ++ [(keys.foldl addKey buf).current] =
      buf.front ++ [buf.current] ++
        keys.map fun key => { element := key, canBeEmpty := key.isEmpty } := by
  induction keys generalizing buf with
  | nil => rw [List.foldl_nil, List.map_nil, List.append_nil]
  | cons key keys ih =>
      rw [List.foldl_cons, ih, addKey, List.map_cons, List.append_assoc, List.append_assoc,
        List.singleton_append, List.append_assoc]
      rfl

-- The buffer that `parse_path_expression` starts with, and the one with a first key.
def Elements.initial : Elements := { front := [], current := { element := [], canBeEmpty := false } }

def Elements.single (key : Bytes) : Elements :=
  { front := [], current := { element := key, canBeEmpty := key.isEmpty } }

theorem parsePathExpression_keys {ts : List Token} (hts : ts ≠ []) {key : Bytes}
    {keys : List Bytes}
    (h : addPathTokens ts .initial = .ok (keys.foldl addKey (.single key))) :
    ∃ path, parsePathExpression ts = .ok path ∧ path.keys = key :: keys := by
  have hempty : ts.isEmpty = false := by simpa using hts
  have helements := elements_foldl_addKey keys (.single key)
  have hall : (keys.foldl addKey (.single key)).front ++
      [(keys.foldl addKey (.single key)).current] =
        (key :: keys).map fun key => { element := key, canBeEmpty := key.isEmpty } := helements
  obtain ⟨path, hpath, hkeys⟩ :=
    PathBuilder.result_keys (key :: keys) (List.cons_ne_nil key keys)
  refine ⟨path, ?_, hkeys⟩
  have hnames : ((key :: keys).map fun key : Bytes =>
      ({ element := key, canBeEmpty := key.isEmpty } : Element)).map Element.element =
        key :: keys := by
    rw [List.map_map]
    exact List.map_id _
  have hfine : (((key :: keys).map fun key : Bytes =>
      ({ element := key, canBeEmpty := key.isEmpty } : Element)).any fun e =>
        e.element.isEmpty && ¬e.canBeEmpty) = false := by
    rw [List.any_eq_false]
    intro e he
    obtain ⟨key', _, rfl⟩ := List.mem_map.mp he
    simp
  change addPathTokens ts { front := [], current := { element := [], canBeEmpty := false } } = _ at h
  rw [parsePathExpression, hempty, if_neg Bool.false_ne_true, h]
  simp only [bind, Except.bind, hall, hnames, hfine, hpath, Bool.false_eq_true, if_false]

theorem parsePathExpression_error_of_tokens {ts : List Token}
    (h : ∃ e, addPathTokens ts .initial = .error e) : ∃ e, parsePathExpression ts = .error e := by
  obtain ⟨e, he⟩ := h
  change addPathTokens ts { front := [], current := { element := [], canBeEmpty := false } } = _ at he
  rw [parsePathExpression]
  by_cases hempty : ts.isEmpty = true
  · rw [if_pos hempty]
    exact ⟨_, rfl⟩
  · rw [if_neg hempty, he]
    exact ⟨_, rfl⟩

section

variable {doubles : Doubles}

theorem streams_path {key : Bytes} {keys : List Bytes}
    (h : ∀ k ∈ key :: keys, (255 : UInt8) ∉ k)
    (hcast : NumbersCast doubles (leadingText (key :: keys))) {saver : WhitespaceSaver}
    (hsaver : saver.whitespace = []) :
    Streams doubles true (writeKey key ++ dotted keys) saver fun ts =>
      addPathTokens ts .initial = .ok (keys.foldl addKey (.single key)) := by
  rw [List.forall_mem_cons] at h
  cases hkey : isPlainKey key with
  | true =>
      have hperiod : 46 ∉ key := fun hmem => (isPlainKey_bytes hkey 46 hmem).2 rfl
      have hempty : key.isEmpty = false := by simpa using isPlainKey_ne_nil hkey
      have hsingle : key.foldl addByte .initial = .single key := by
        rw [foldl_addByte_of_no_period key hperiod, Elements.single, hempty]
        rfl
      rw [leadingText, hkey, if_pos rfl] at hcast
      have hkeys := streams_keys keys h.2 (fun b hb => (isPlainKey_bytes hkey b hb).1) hcast
        hsaver .initial
      rw [hsingle] at hkeys
      rw [writeKey_of_plain hkey]
      exact hkeys
  | false =>
      rw [writeKey_of_not_plain hkey]
      refine streams_quoted h.1 keys hsaver (fun r => r = .ok (keys.foldl addKey (.single key))) ?_
      intro saver' hsaver'
      exact streams_keys keys h.2 (w := []) nofun (numbersCast_lead keys) hsaver' (.single key)

theorem streams_path_error {key : Bytes} {keys : List Bytes}
    (hcast : ¬NumbersCast doubles (leadingText (key :: keys))) {saver : WhitespaceSaver}
    (hsaver : saver.whitespace = []) :
    Streams doubles true (writeKey key ++ dotted keys) saver fun ts =>
      ∃ e, addPathTokens ts .initial = .error e := by
  cases hkey : isPlainKey key with
  | true =>
      rw [leadingText, hkey, if_pos rfl] at hcast
      rw [writeKey_of_plain hkey]
      exact streams_keys_error keys (fun b hb => (isPlainKey_bytes hkey b hb).1) hcast hsaver _
  | false =>
      rw [leadingText, hkey, if_neg Bool.false_ne_true] at hcast
      exact absurd .nil hcast

-- The full parser reads the keys back exactly where the numbers are numbers.
theorem parsePathExpression_rendered {key : Bytes} {keys : List Bytes}
    (h : ∀ k ∈ key :: keys, (255 : UInt8) ∉ k) :
    (∃ path, parsePathExpression
        (tokenize doubles (writeKey key ++ dotted keys) .CONF).tail = .ok path ∧
          path.keys = key :: keys) ↔ NumbersCast doubles (leadingText (key :: keys)) := by
  have hat := TokenStream.ofString_at (writeKey key ++ dotted keys)
  have hlength := Nat.lt_succ_self (writeKey key ++ dotted keys).length
  constructor
  · rintro ⟨path, hpath, _⟩
    by_contra hcast
    obtain ⟨e, he⟩ := parsePathExpression_error_of_tokens
      (streams_path_error hcast rfl _ _ hat hlength)
    cases hpath.symm.trans he
  · intro hcast
    obtain ⟨ts, hts, front, hfront, _⟩ :=
      tokenize_ended doubles (writeKey key ++ dotted keys) .CONF
    have hne : (tokenize doubles (writeKey key ++ dotted keys) .CONF).tail ≠ [] := by
      rw [hts, List.tail_cons, hfront]
      exact List.append_ne_nil_of_right_ne_nil _ (List.cons_ne_nil _ _)
    exact parsePathExpression_keys hne (streams_path h hcast rfl _ _ hat hlength)

end

theorem mem_dropWhile {α : Type} {p : α → Bool} {a : α} (ha : p a = false) {l : List α}
    (h : a ∈ l) : a ∈ l.dropWhile p := by
  rw [← List.takeWhile_append_dropWhile (p := p) (l := l)] at h
  rcases List.mem_append.mp h with h | h
  · have hp := List.mem_takeWhile_imp h
    rw [ha] at hp
    cases hp
  · exact h

theorem mem_trimCopy {s : Bytes} {b : UInt8} (hb : StringUtil.isspace b = false) (h : b ∈ s) :
    b ∈ trimCopy s := by
  rw [trimCopy, List.mem_reverse]
  apply mem_dropWhile hb
  rw [List.mem_reverse]
  exact mem_dropWhile hb h

theorem trimCopy_eq_self {s : Bytes} (h : ∀ b ∈ s, StringUtil.isspace b = false) :
    trimCopy s = s := by
  have hdrop : ∀ l : Bytes, (∀ b ∈ l, StringUtil.isspace b = false) →
      l.dropWhile StringUtil.isspace = l := by
    intro l hl
    cases l with
    | nil => rfl
    | cons b l =>
        exact List.dropWhile_cons_of_neg (Bool.eq_false_iff.mp (hl b List.mem_cons_self))
  rw [trimCopy, hdrop s h, hdrop s.reverse (fun b hb => h b (List.mem_reverse.mp hb)),
    List.reverse_reverse]

theorem quote_mem_dotted {keys : List Bytes} {k : Bytes} (hk : k ∈ keys)
    (h : isPlainKey k = false) : (34 : UInt8) ∈ dotted keys := by
  induction keys with
  | nil => cases hk
  | cons key keys ih =>
      rw [dotted]
      apply List.mem_cons_of_mem
      rcases List.mem_cons.mp hk with rfl | hk
      · rw [writeKey_of_not_plain h]
        exact List.mem_append_left _ List.mem_cons_self
      · exact List.mem_append_right _ (ih hk)

-- The fast parser takes no text with a quote, so that all keys are written as they are.
theorem plain_of_not_unsafe {key : Bytes} {keys : List Bytes}
    (h : hasUnsafeChars (trimCopy (writeKey key ++ dotted keys)) = false) :
    ∀ k ∈ key :: keys, isPlainKey k = true := by
  intro k hk
  by_contra hplain
  rw [Bool.not_eq_true] at hplain
  have hquote : (34 : UInt8) ∈ writeKey key ++ dotted keys := by
    rcases List.mem_cons.mp hk with rfl | hk
    · rw [writeKey_of_not_plain hplain]
      exact List.mem_append_left _ List.mem_cons_self
    · exact List.mem_append_right _ (quote_mem_dotted hk hplain)
  rw [hasUnsafeChars, List.any_eq_false] at h
  exact h 34 (mem_trimCopy (by decide) hquote) (by decide)

theorem appendPathString_eq (n : ℕ) (front : List Bytes) (key : Bytes) (keys : List Bytes)
    (h : ∀ k ∈ key :: keys, isPlainKey k = true) (hn : keys.length < n) :
    appendPathString n front (key ++ dotted keys) = front ++ key :: keys := by
  induction keys generalizing n front key with
  | nil =>
      obtain ⟨n, rfl⟩ : ∃ m, n = m + 1 := ⟨n - 1, by omega⟩
      have hnone : key.findIdx? (· = 46) = none := by
        rw [List.findIdx?_eq_none_iff]
        intro b hb
        exact decide_eq_false (isPlainKey_bytes (h key List.mem_cons_self) b hb).2
      rw [dotted, List.append_nil, appendPathString, hnone]
  | cons next keys ih =>
      rw [List.length_cons] at hn
      obtain ⟨n, rfl⟩ : ∃ m, n = m + 1 := ⟨n - 1, by omega⟩
      rw [List.forall_mem_cons] at h
      have hnone : key.findIdx? (· = 46) = none := by
        rw [List.findIdx?_eq_none_iff]
        intro b hb
        exact decide_eq_false (isPlainKey_bytes h.1 b hb).2
      have hnext := writeKey_of_plain (h.2 next List.mem_cons_self)
      have hfind : (key ++ dotted (next :: keys)).findIdx? (· = 46) = some key.length := by
        rw [List.findIdx?_append, hnone, dotted]
        simp [List.findIdx?_cons]
      rw [appendPathString, hfind]
      dsimp only
      rw [List.take_left, dotted, hnext, List.drop_append]
      simp only [List.drop_eq_nil_of_le (Nat.le_succ key.length), Nat.add_sub_cancel_left,
        List.nil_append, List.drop_succ_cons, List.drop_zero]
      rw [ih n (front ++ [key]) next h.2 (by omega), List.append_assoc, List.singleton_append]

theorem leadingText_of_plain {key : Bytes} {keys : List Bytes}
    (h : ∀ k ∈ key :: keys, isPlainKey k = true) :
    leadingText (key :: keys) = key ++ dotted keys := by
  have hlead : ∀ keys : List Bytes, (∀ k ∈ keys, isPlainKey k = true) → lead keys = dotted keys := by
    intro keys hkeys
    induction keys with
    | nil => rfl
    | cons key keys ih =>
        rw [List.forall_mem_cons] at hkeys
        rw [lead, hkeys.1, if_pos rfl, dotted, writeKey_of_plain hkeys.1, ih hkeys.2]
  rw [List.forall_mem_cons] at h
  rw [leadingText, h.1, if_pos rfl, hlead keys h.2]

theorem numbersCast_of_no_number {doubles : Doubles} (length : ℕ) {w : Bytes}
    (hlength : w.length ≤ length) (h : ∀ b ∈ w, firstNumberChars.contains b = false) :
    NumbersCast doubles w := by
  induction length generalizing w with
  | zero =>
      obtain rfl := List.length_eq_zero_iff.mp (Nat.le_zero.mp hlength)
      exact .nil
  | succ length ih =>
      cases w with
      | nil => exact .nil
      | cons b w =>
          by_cases hwords : ∃ word ∈ words, word <+: b :: w
          · obtain ⟨word, hword, w', hsplit⟩ := hwords
            have hpositive := length_pos_of_mem_words hword
            have hlength' := congrArg List.length hsplit
            rw [List.length_append] at hlength'
            rw [← hsplit] at h ⊢
            refine .word hword (ih (by omega) ?_)
            exact fun b' hb' => h b' (List.mem_append_right _ hb')
          · refine .other (h b List.mem_cons_self) ?_
            intro word hword hprefix
            exact hwords ⟨word, hword, hprefix⟩

theorem length_le_dotted (keys : List Bytes) : keys.length ≤ (dotted keys).length := by
  induction keys with
  | nil => exact le_rfl
  | cons key keys ih =>
      rw [dotted, List.length_cons, List.length_cons, List.length_append]
      omega

theorem leadingText_plain (keys : List Bytes) : ∀ b ∈ leadingText keys, isPlainByte b = true := by
  cases keys with
  | nil => nofun
  | cons key keys =>
      rw [leadingText]
      split
      · rename_i hkey
        intro b hb
        rcases List.mem_append.mp hb with hb | hb
        · exact (isPlainKey_bytes hkey b hb).1
        · exact lead_plain keys b hb
      · nofun

-- What the fast parser takes it reads back.
theorem speculativeFastParsePath_rendered (doubles : Doubles) {key : Bytes} {keys : List Bytes}
    {path : Path} (h : speculativeFastParsePath (writeKey key ++ dotted keys) = some path) :
    path.keys = key :: keys ∧ NumbersCast doubles (leadingText (key :: keys)) := by
  have hspace : ∀ b, isPlainByte b = true → StringUtil.isspace b = false := by
    apply forall_byte
    decide +kernel
  have hletter : ∀ b, (isalpha b || decide (b = 46)) = true →
      firstNumberChars.contains b = false := by
    apply forall_byte
    decide +kernel
  unfold speculativeFastParsePath at h
  dsimp only at h
  split at h
  · cases h
  split at h
  · cases h
  rename_i hunsafe
  rw [Bool.not_eq_true] at hunsafe
  split at h
  · cases h
  have hplain := plain_of_not_unsafe hunsafe
  have htext : writeKey key ++ dotted keys = key ++ dotted keys := by
    rw [writeKey_of_plain (hplain key List.mem_cons_self)]
  have hlead := leadingText_of_plain hplain
  have htrim : trimCopy (key ++ dotted keys) = key ++ dotted keys := by
    apply trimCopy_eq_self
    rw [← hlead]
    exact fun b hb => hspace b (leadingText_plain _ b hb)
  have hlength : keys.length < (key ++ dotted keys).length + 1 := by
    have hle := length_le_dotted keys
    rw [List.length_append]
    omega
  rw [htext, htrim] at h hunsafe
  rw [appendPathString_eq _ [] key keys hplain hlength, List.nil_append] at h
  constructor
  · obtain ⟨path', hpath', hkeys⟩ :=
      PathBuilder.result_keys (key :: keys) (List.cons_ne_nil key keys)
    rw [hpath'] at h
    obtain rfl := Option.some.inj h
    exact hkeys
  · refine numbersCast_of_no_number _ le_rfl fun b hb => hletter b ?_
    rw [hlead] at hb
    rw [hasUnsafeChars, List.any_eq_false] at hunsafe
    by_contra hother
    exact hunsafe b hb (decide_eq_true hother)

theorem splitPath_written (doubles : Doubles) (key : Bytes) (keys : List Bytes)
    (h : ∀ k ∈ key :: keys, (255 : UInt8) ∉ k) :
    splitPath doubles (writeKey key ++ dotted keys) = .ok (key :: keys) ↔
      NumbersCast doubles (leadingText (key :: keys)) := by
  rw [splitPath, parsePath]
  cases hfast : speculativeFastParsePath (writeKey key ++ dotted keys) with
  | some path =>
      obtain ⟨hkeys, hcast⟩ := speculativeFastParsePath_rendered doubles hfast
      simp only [Except.map, hkeys, hcast]
  | none =>
      rw [← parsePathExpression_rendered h]
      dsimp only
      cases hparse : parsePathExpression
          (tokenize doubles (writeKey key ++ dotted keys) .CONF).tail with
      | error e => simp [Except.map]
      | ok path => simp [Except.map]

-- `split_path` comes to the end of what `join_path` writes. The uint32_t position of a
-- string reader does not from 2^32 bytes on; letters and periods are read without it, and
-- `join_path` itself counts the elements in a uint32_t.
def ReadOnce (elements : List Bytes) : Prop :=
  (∀ text, joinPath elements = .ok text → text.length < 2 ^ 32) ∨
    elements.length < 2 ^ 32 ∧ ∀ element ∈ elements, element ≠ [] ∧ ∀ c ∈ element, isalpha c = true

theorem ReadOnce.written {elements : List Bytes} (h : ReadOnce elements) :
    ∀ element ∈ elements, Path.renderKey element = writeKey element := by
  intro element helement
  rcases h with hshort | ⟨-, hletters⟩
  · apply renderKey_eq
    cases elements with
    | nil => cases helement
    | cons key keys =>
        obtain ⟨path, hpath, hkeys⟩ := ofElements_keys key keys
        have hlength := hshort path.render (by rw [joinPath, hpath]; rfl)
        exact (path.length_le_render element (hkeys ▸ helement)).trans_lt hlength
  · obtain ⟨hne, halpha⟩ := hletters element helement
    exact renderKey_of_plain (isPlainKey_of_letters hne halpha)

-- `split_path(join_path(elements))` gives elements that it reads to the end back exactly
-- where the numbers before the first quote are numbers.
theorem splitPath_joinPath (doubles : Doubles) (elements : List Bytes) (hne : elements ≠ [])
    (h : ∀ element ∈ elements, (255 : UInt8) ∉ element) (hread : ReadOnce elements) :
    (joinPath elements >>= splitPath doubles) = .ok elements ↔
      NumbersCast doubles (leadingText elements) := by
  cases elements with
  | nil => exact absurd rfl hne
  | cons key keys =>
      rw [joinPath_eq key keys hread.written]
      exact splitPath_written doubles key keys h

-- Words and a number before a quoted key.
theorem splitPath_joinPath_word :
    (joinPath [ascii "true12null", [], ascii "a.b"] >>= splitPath ⟨fun _ => none, id⟩) =
      .ok [ascii "true12null", [], ascii "a.b"] := by
  have hread : ReadOnce [ascii "true12null", [], ascii "a.b"] := by
    refine .inl fun text htext => ?_
    have hjoin : joinPath [ascii "true12null", [], ascii "a.b"] =
        .ok (ascii "true12null.\"\".\"a.b\"") := by
      decide +kernel
    rw [← Except.ok.inj (hjoin.symm.trans htext)]
    decide
  refine (splitPath_joinPath _ _ (List.cons_ne_nil _ _) (by decide) hread).mpr ?_
  have htext : leadingText [ascii "true12null", [], ascii "a.b"] =
      ascii "true" ++ 49 :: 50 :: (ascii "null" ++ [46]) := by
    decide
  have hnull : NumbersCast ⟨fun _ => none, id⟩ (ascii "null" ++ [46]) :=
    .word (by decide) (.other (by decide) (by decide))
  rw [htext]
  exact .word (by decide) (.number (by decide) (by decide) hnull)

-- The minus after the word is read as a number.
theorem splitPath_joinPath_minus :
    ¬(joinPath [ascii "true-"] >>= splitPath ⟨fun _ => none, id⟩) = .ok [ascii "true-"] := by
  decide +kernel

end AsrServiceProxy.Config

import AsrServiceProxy.Config.Concatenation
import AsrServiceProxy.Config.DottedKeys.Theorems
import AsrServiceProxy.Config.PathText.Reading

-- A field whose value is a text without quotes: the tokens that the text is cut into
-- are put together again.
namespace AsrServiceProxy.Config

open CMemory Simulation

-- A printable character that nothing but unquoted text has.
def isTextByte (b : UInt8) : Bool :=
  33 ≤ b && b ≤ 126 && !isdigit b && b ≠ 45 && !notInUnquotedText.contains b

def isInnerBlank (b : UInt8) : Bool := b = 32 || b = 9

structure PlainText (t : Bytes) : Prop where
  bytes : ∀ b ∈ t, isTextByte b ∨ isInnerBlank b
  first : ∃ b rest, t = b :: rest ∧ isTextByte b
  last : ∃ b front, t = front ++ [b] ∧ isTextByte b
  noComment : ¬[47, 47] <:+: t
  noWord : t ∉ words

-- An end of such a text.
structure Plain (w : Bytes) : Prop where
  bytes : ∀ b ∈ w, isTextByte b ∨ isInnerBlank b
  last : w = [] ∨ ∃ b front, w = front ++ [b] ∧ isTextByte b
  noComment : ¬[47, 47] <:+: w

-- A token of such a text, and the part of the text that it has.
def IsPiece (t : Token) (text : Bytes) : Prop :=
  text ≠ [] ∧ (t = .unquotedText text ∨ wordToken text = some t)

-- The tokens up to the end have the text.
def Pieces (w : Bytes) (ts : List Token) : Prop :=
  ∃ pieces : List (Token × Bytes), ts = pieces.map Prod.fst ++ [.end_] ∧
    (∀ piece ∈ pieces, IsPiece piece.1 piece.2) ∧ pieces.flatMap Prod.snd = w

theorem isTextByte_scan {b : UInt8} (h : isTextByte b = true) :
    isBlank b = false ∧ endsUnquoted b = false ∧ firstNumberChars.contains b = false ∧ b ≠ 35 := by
  revert h
  revert b
  apply forall_byte
  decide +kernel

theorem isInnerBlank_scan {b : UInt8} (h : isInnerBlank b = true) :
    isBlank b = true ∧ endsUnquoted b = true := by
  revert h
  revert b
  apply forall_byte
  decide +kernel

theorem PlainText.plain {t : Bytes} (h : PlainText t) : Plain t := ⟨h.bytes, .inr h.last, h.noComment⟩

section

variable {w rest text : Bytes} {b : UInt8} {t : Token}

theorem Plain.suffix (h : Plain w) (hrest : rest <:+ w) : Plain rest := by
  refine ⟨fun b hb => h.bytes b (hrest.subset hb), ?_, fun hcomment => h.noComment ?_⟩
  · by_cases hempty : rest = []
    · exact .inl hempty
    · obtain ⟨taken, rfl⟩ := hrest
      rcases h.last with hnil | ⟨b, front, hlast, hb⟩
      · exact absurd (List.append_eq_nil_iff.mp hnil).2 hempty
      · refine .inr ⟨b, rest.dropLast, ?_, hb⟩
        have hget := congrArg List.getLast? hlast
        rw [List.getLast?_append_of_ne_nil _ hempty, List.getLast?_concat] at hget
        rw [← List.dropLast_append_getLast? b hget]
        simp
  · exact hcomment.trans hrest.isInfix

-- The blanks before the next token of the text.
theorem Plain.split_blanks (h : Plain w) (hw : w ≠ []) :
    ∃ blanks b rest, w = blanks ++ b :: rest ∧ (∀ x ∈ blanks, isBlank x = true) ∧
      isTextByte b = true := by
  cases hleft : w.dropWhile isBlank with
  | nil =>
      obtain ⟨b, front, hlast, hb⟩ := h.last.resolve_left hw
      have hblank := List.dropWhile_eq_nil_iff.mp hleft b (by rw [hlast]; simp)
      rw [(isTextByte_scan hb).1] at hblank
      cases hblank
  | cons b rest =>
      refine ⟨w.takeWhile isBlank, b, rest, ?_, fun x hx => List.mem_takeWhile_imp hx, ?_⟩
      · rw [← hleft, List.takeWhile_append_dropWhile]
      · have hmem : b ∈ w :=
          (List.dropWhile_suffix isBlank).subset (by rw [hleft]; exact List.mem_cons_self)
        refine (h.bytes b hmem).resolve_right fun hb => ?_
        have hhead := List.head?_dropWhile_not isBlank w
        rw [hleft, List.head?_cons] at hhead
        exact absurd (isInnerBlank_scan hb).1 (Bool.eq_false_iff.mp hhead)

theorem Plain.startsComment (h : Plain (b :: rest)) (hb : isTextByte b = true) :
    startsComment true (b :: rest) = false := by
  rw [Config.startsComment, Bool.true_and, Bool.or_eq_false_iff, Bool.and_eq_false_imp]
  refine ⟨decide_eq_false (isTextByte_scan hb).2.2.2, fun hslash => decide_eq_false fun hhead => ?_⟩
  obtain ⟨more, rfl⟩ := List.head?_eq_some_iff.mp hhead
  obtain rfl := of_decide_eq_true hslash
  exact h.noComment ⟨[], more, rfl⟩

theorem isPiece_word {sb : Bytes} (h : wordToken sb = some t) : IsPiece t sb :=
  ⟨List.ne_nil_of_length_pos (length_pos_of_mem_words (mem_words_of_wordToken h)), .inr h⟩

-- The scanner takes a piece from the front of the text, and leaves the rest of it.
theorem scanUnquoted_piece (h : Plain w) {sb : Bytes}
    (hsb : sb = [] → ∃ b rest, w = b :: rest ∧ isTextByte b = true) :
    ∃ text, IsPiece (scanUnquoted true sb w).1 text ∧ text ++ (scanUnquoted true sb w).2 = sb ++ w := by
  induction w generalizing sb with
  | nil =>
      have hne : sb ≠ [] := by
        intro hnil
        obtain ⟨b, rest, hcons, _⟩ := hsb hnil
        cases hcons
      exact ⟨sb, ⟨hne, .inl rfl⟩, rfl⟩
  | cons b w ih =>
      rcases h.bytes b List.mem_cons_self with hb | hb
      · have hends := (isTextByte_scan hb).2.1
        rw [scanUnquoted_cons hends (h.startsComment hb)]
        cases hword : wordToken (sb ++ [b]) with
        | some word => exact ⟨sb ++ [b], isPiece_word hword, by simp⟩
        | none =>
            obtain ⟨text, hpiece, htext⟩ := ih (h.suffix (List.suffix_cons b w)) fun hnil =>
              absurd (List.append_eq_nil_iff.mp hnil).2 (List.cons_ne_nil b [])
            exact ⟨text, hpiece, htext.trans (by simp)⟩
      · have hne : sb ≠ [] := by
          intro hnil
          obtain ⟨b', rest, hcons, hb'⟩ := hsb hnil
          obtain ⟨rfl, _⟩ := List.cons.inj hcons
          have hends := (isInnerBlank_scan hb).2
          rw [(isTextByte_scan hb').2.1] at hends
          cases hends
        rw [scanUnquoted, (isInnerBlank_scan hb).2, Bool.true_or, if_pos rfl]
        exact ⟨sb, ⟨hne, .inl rfl⟩, rfl⟩

variable {doubles : Doubles} {saver : WhitespaceSaver} {post : List Token → Prop}

theorem IsPiece.simple (h : IsPiece t text) :
    t.isKey = true ∧ isSimpleValue t = true ∧ t.piece.isPrimitive = true ∧
      t.piece.transformToString = text := by
  obtain ⟨_, rfl | hword⟩ := h
  · exact ⟨rfl, rfl, rfl, rfl⟩
  · have hmem := mem_words_of_wordToken hword
    simp only [words, List.mem_cons, List.not_mem_nil, or_false] at hmem
    rcases hmem with rfl | rfl | rfl
    all_goals
      obtain rfl := Option.some.inj hword
      exact ⟨rfl, rfl, rfl, rfl⟩

-- The next token is a piece of the text.
theorem Plain.streams_next (h : Plain (b :: w)) (hb : isTextByte b = true) {blanks : Bytes}
    (hblanks : ∀ x ∈ blanks, isBlank x = true)
    (hrest : ∀ t text rest, IsPiece t text → text ++ rest = b :: w →
      Streams doubles true rest (.after t) fun ts =>
        post (((saver.save blanks).before t).toList ++ t :: ts)) :
    Streams doubles true (blanks ++ b :: w) saver post := by
  obtain ⟨hblank, hends, hnumber, _⟩ := isTextByte_scan hb
  obtain ⟨htake, hdrop⟩ := takeWhile_isBlank w hblanks hblank
  have hscan : ([] : Bytes) = [] → ∃ b' w', b :: w = b' :: w' ∧ isTextByte b' = true :=
    fun _ => ⟨b, w, rfl, hb⟩
  obtain ⟨text, hpiece, htext⟩ := scanUnquoted_piece h hscan
  have hend : (scanUnquoted true [] (b :: w)).1 ≠ .end_ := by
    intro hend
    rw [hend] at hpiece
    cases hpiece.simple.1
  have hlexes : ∀ r rest', Lexes doubles true ((blanks ++ b :: w).dropWhile isBlank) r rest' →
      r = .ok (scanUnquoted true [] (b :: w)).1 ∧ rest' = (scanUnquoted true [] (b :: w)).2 := by
    rw [hdrop]
    intro r rest' hlexes
    exact hlexes.of_unquoted hends (h.startsComment hb) hnumber
  refine streams_token hend hlexes ?_
  rw [htake]
  exact hrest _ text _ hpiece htext

theorem Pieces.cons {ts : List Token} (ht : IsPiece t text) (h : Pieces w ts) :
    Pieces (text ++ w) (t :: ts) := by
  obtain ⟨pieces, rfl, hpieces, rfl⟩ := h
  exact ⟨(t, text) :: pieces, rfl, List.forall_mem_cons.mpr ⟨ht, hpieces⟩, rfl⟩

-- The blanks inside the text are a piece of their own.
theorem Pieces.blanks {ts : List Token} (ht : isSimpleValue t = true) (blanks : Bytes)
    (h : Pieces w (t :: ts)) :
    Pieces (blanks ++ w) (((WhitespaceSaver.save ⟨true, []⟩ blanks).before t).toList ++ t :: ts) := by
  by_cases hempty : blanks = []
  · subst hempty
    rw [WhitespaceSaver.save_nil, WhitespaceSaver.before, ht]
    exact h
  · have hbefore : (WhitespaceSaver.save ⟨true, []⟩ blanks).before t = some (.unquotedText blanks) := by
      simp [WhitespaceSaver.save, WhitespaceSaver.before, ht, hempty]
    rw [hbefore]
    exact h.cons ⟨hempty, .inl rfl⟩

-- What is left of the text behind a piece.
theorem Plain.streams_pieces (length : ℕ) (hlength : w.length ≤ length) (h : Plain w)
    (hsaver : saver = ⟨true, []⟩) : Streams doubles true w saver (Pieces w) := by
  subst hsaver
  induction length generalizing w with
  | zero =>
      obtain rfl := List.length_eq_zero_iff.mp (Nat.le_zero.mp hlength)
      exact streams_last rfl ⟨[], rfl, nofun, rfl⟩
  | succ length ih =>
      by_cases hw : w = []
      · subst hw
        exact streams_last rfl ⟨[], rfl, nofun, rfl⟩
      · obtain ⟨blanks, b, rest, rfl, hblanks, hb⟩ := h.split_blanks hw
        have hplain := h.suffix (List.suffix_append blanks (b :: rest))
        refine hplain.streams_next hb hblanks ?_
        intro t text rest' hpiece htext
        have hsimple := hpiece.simple.2.1
        have hafter : WhitespaceSaver.after t = ⟨true, []⟩ := by
          rw [WhitespaceSaver.after, hsimple]
        have hlt : rest'.length ≤ length := by
          have hpos := List.length_pos_iff.mpr hpiece.1
          have hcons := congrArg List.length htext
          simp only [List.length_append, List.length_cons] at hcons hlength
          omega
        have hsuffix : rest' <:+ b :: rest := ⟨text, htext⟩
        have hrest := ih hlt (hplain.suffix hsuffix)
        rw [hafter]
        intro n s hs hn
        rw [← htext]
        exact Pieces.blanks hsimple blanks ((hrest n s hs hn).cons hpiece)

-- The blank behind the `=` is no part of the value.
theorem Plain.streams_first (h : Plain (b :: w)) (hb : isTextByte b = true)
    (hsaver : saver = ⟨false, []⟩) : Streams doubles true (32 :: b :: w) saver (Pieces (b :: w)) := by
  subst hsaver
  have hblank : ∀ x ∈ [(32 : UInt8)], isBlank x = true :=
    List.forall_mem_singleton.mpr (by decide)
  refine h.streams_next hb hblank ?_
  intro t text rest hpiece htext
  have hsimple := hpiece.simple.2.1
  have hsuffix : rest <:+ b :: w := ⟨text, htext⟩
  have hafter : WhitespaceSaver.after t = ⟨true, []⟩ := by
    rw [WhitespaceSaver.after, hsimple]
  have hnone : (WhitespaceSaver.save ⟨false, []⟩ [32]).before t = none := by
    simp [WhitespaceSaver.save, WhitespaceSaver.before]
  have hrest : Streams doubles true rest (.after t) (Pieces rest) :=
    Plain.streams_pieces rest.length le_rfl (h.suffix hsuffix) hafter
  rw [hnone]
  intro n s hs hn
  rw [← htext]
  exact (hrest n s hs hn).cons hpiece

variable (doubles) in
-- The tokens of the field: its key, the separator and the pieces of the text.
theorem Plain.streams_field (h : Plain (b :: w)) (hb : isTextByte b = true) :
    Streams doubles true (ascii "k = " ++ b :: w) .makeInstance fun ts =>
      ∃ ts', ts = .unquotedText (ascii "k") :: .equals :: ts' ∧ Pieces (b :: w) ts' := by
  have hkey : ∀ r rest', Lexes doubles true ((ascii "k = " ++ b :: w).dropWhile isBlank) r rest' →
      r = .ok (.unquotedText (ascii "k")) ∧ rest' = 32 :: 61 :: 32 :: b :: w :=
    fun r rest' hlexes => hlexes.of_unquoted rfl rfl rfl
  have hequals : ∀ r rest', Lexes doubles true ((32 :: 61 :: 32 :: b :: w).dropWhile isBlank) r rest' →
      r = .ok .equals ∧ rest' = 32 :: b :: w :=
    fun r rest' hlexes => hlexes.of_punctuation .equals
  have hkeyEnd : Token.unquotedText (ascii "k") ≠ .end_ := nofun
  have hequalsEnd : Token.equals ≠ .end_ := nofun
  refine streams_token hkeyEnd hkey (streams_token hequalsEnd hequals ?_)
  have hrest : Streams doubles true (32 :: b :: w) (.after .equals) (Pieces (b :: w)) :=
    h.streams_first hb rfl
  intro n s hs hn
  exact ⟨_, rfl, hrest n s hs hn⟩

end

section

variable {pieces : List (Token × Bytes)} (hpieces : ∀ piece ∈ pieces, IsPiece piece.1 piece.2)

include hpieces

theorem isKey_pieces : ∀ t ∈ pieces.map Prod.fst, t.isKey = true := by
  intro t ht
  obtain ⟨piece, hpiece, rfl⟩ := List.mem_map.mp ht
  exact (hpieces piece hpiece).simple.1

theorem text_pieces : ((pieces.map Prod.fst).map Token.piece).flatMap Value.transformToString =
    pieces.flatMap Prod.snd := by
  rw [List.map_map, List.flatMap_map, List.flatMap_def, List.flatMap_def]
  congr 1
  apply List.map_congr_left
  intro piece hpiece
  exact (hpieces piece hpiece).simple.2.2.2

-- Put together the pieces are the text.
theorem concatenate_pieces (hne : pieces ≠ []) (hword : pieces.flatMap Prod.snd ∉ words) :
    concatenate .plain ((pieces.map Prod.fst).map Token.piece) () =
      .ok (some (.configString () (pieces.flatMap Prod.snd))) () := by
  by_cases hlen : 2 ≤ pieces.length
  · have hall : ∀ v ∈ (pieces.map Prod.fst).map Token.piece,
        v.isPrimitive = true ∧ v.transformToString ≠ [] := by
      intro v hv
      rw [List.map_map] at hv
      obtain ⟨piece, hpiece, rfl⟩ := List.mem_map.mp hv
      obtain ⟨_, _, hprimitive, htext⟩ := (hpieces piece hpiece).simple
      refine ⟨hprimitive, ?_⟩
      show piece.1.piece.transformToString ≠ []
      rw [htext]
      exact (hpieces piece hpiece).1
    have hreturns := (returnsText_iff .plain () (by simpa using hlen) (fun v hv => (hall v hv).1)
      fun v hv => Value.resolved_of_isPrimitive (hall v hv).1).mpr fun v hv => (hall v hv).2
    obtain ⟨_, _, hrun⟩ := hreturns
    rw [hrun, text_pieces hpieces]
  · -- one piece is no word, so that it is the text
    obtain ⟨piece, rfl⟩ : ∃ piece, pieces = [piece] := by
      apply List.length_eq_one_iff.mp
      have hpos := List.length_pos_iff.mpr hne
      omega
    have hone : [piece].flatMap Prod.snd = piece.2 := by simp
    rw [hone] at hword ⊢
    obtain ⟨_, htext | hpiece⟩ := hpieces piece List.mem_cons_self
    · show EStateM.Result.ok (some piece.1.piece) () = _
      rw [htext]
      rfl
    · exact absurd (mem_words_of_wordToken hpiece) hword

end

-- `k`
def SpelledPath.letter : SpelledPath where
  tokens := [.unquotedText (ascii "k")]
  path := .newKey (ascii "k")
  spells := by decide +kernel
  isKey := by simp [Token.isKey]

theorem parse_plainText (doubles : Doubles) (includer : Includer) {t : Bytes} (h : PlainText t) :
    parse doubles includer .CONF (ascii "k = " ++ t) =
      .ok (.simpleConfigObject () [(ascii "k", .configString () t)] false) := by
  obtain ⟨b, w, rfl, hb⟩ := h.first
  have hstart := TokenStream.ofString_at (ascii "k = " ++ b :: w)
  obtain ⟨ts, hts, pieces, rfl, hpieces, htext⟩ :=
    h.plain.streams_field doubles hb _ _ hstart (Nat.lt_succ_self _)
  have hne : pieces ≠ [] := by
    rintro rfl
    cases htext
  have hvalue := concatenate_pieces hpieces hne (htext ▸ h.noWord)
  rw [htext] at hvalue
  let literal : Literal := .ofPieces (pieces.map Prod.fst) (.configString () (b :: w))
    (by simpa using hne) (isKey_pieces hpieces) rfl hvalue
  have hdocument : significant (tokenize doubles (ascii "k = " ++ b :: w) .CONF) =
      fieldDocument .letter literal (.bare 0 (.lines 0)) := by
    have htokens : tokenize doubles (ascii "k = " ++ b :: w) .CONF =
        fieldDocument .letter literal (.bare 0 (.lines 0)) := congrArg (Token.start :: ·) hts
    rw [htokens, significant, List.filter_eq_self]
    intro t ht
    have hmem : t ∈ [Token.start, .unquotedText (ascii "k"), .equals] ∨
        t ∈ pieces.map Prod.fst ++ [.end_] := List.mem_append.mp ht
    rcases hmem with hmem | hmem
    · simp only [List.mem_cons, List.not_mem_nil, or_false] at hmem
      rcases hmem with rfl | rfl | rfl <;> rfl
    rcases List.mem_append.mp hmem with hpiece | hend
    · have hkey := isKey_pieces hpieces t hpiece
      cases t <;> first | rfl | cases hkey
    · obtain rfl := List.mem_singleton.mp hend
      rfl
  have hstorable : (Path.newKey (ascii "k")).isStorable := by
    simp [Path.isStorable, Path.keys]
  exact parse_field doubles includer hdocument ⟨rfl, hstorable⟩

-- Words and blanks inside the text.
theorem parse_plainText_words :
    parse noDoubles .none .CONF (ascii "k = " ++ ascii "not true  /null/") =
      .ok (.simpleConfigObject () [(ascii "k", .configString () (ascii "not true  /null/"))] false)  := by
  have hall : (ascii "not true  /null/").all (fun b => isTextByte b || isInnerBlank b) = true := by
    decide
  refine parse_plainText noDoubles .none ⟨fun b hb => ?_, ⟨110, ascii "ot true  /null/", rfl, by decide⟩,
    ⟨47, ascii "not true  /null", rfl, by decide⟩, by decide, by decide⟩
  exact Bool.or_eq_true_iff.mp (List.all_eq_true.mp hall b hb)

end AsrServiceProxy.Config

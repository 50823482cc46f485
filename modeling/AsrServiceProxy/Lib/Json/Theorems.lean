import AsrServiceProxy.Lib.Json
import Mathlib.Data.List.Nodup

-- A text is a JSON text exactly where its lexemes are those of a tree.
namespace JsonGrammar

theorem Ws.append {ws ws' : Text} (h : Ws ws) (h' : Ws ws') : Ws (ws ++ ws') := by
  intro b hb
  rcases List.mem_append.mp hb with hb | hb
  · exact h b hb
  · exact h' b hb

theorem Ws.nil : Ws [] := by
  intro b hb
  cases hb

theorem Cut.ws {ws more : Text} {ls : List Lexeme} (hws : Ws ws) (h : Cut more ls) :
    Cut (ws ++ more) ls := by
  cases h with
  | last h => exact .last (hws.append h)
  | cons hws' hl hnext h =>
      rw [← List.append_assoc]
      exact .cons (hws.append hws') hl hnext h

theorem Cut.value {more : Text} {ls : List Lexeme} {l : Lexeme} (hl : l.Valid)
    (hnext : delimits ls = true) (h : Cut more ls) : Cut (l.text ++ more) (l :: ls) :=
  @Cut.cons [] more l ls Ws.nil hl (.inr hnext) h

theorem Cut.mark {m : Mark} {text more : Text} {ls : List Lexeme} (hm : Structural m.byte text)
    (h : Cut more ls) : Cut (text ++ more) (.mark m :: ls) := by
  obtain ⟨before, after, hbefore, hafter, rfl⟩ := hm
  rw [List.append_assoc]
  exact .cons (l := .mark m) hbefore trivial (.inl rfl) (h.ws hafter)

-- The lexeme that a text starts with.
theorem Cut.of_cons {b : UInt8} {rest : Text} {ls : List Lexeme} (h : Cut (b :: rest) ls)
    (hb : isWs b = false) : ∃ l more ls', ls = l :: ls' ∧ l.Valid ∧
      (l.isMark = true ∨ delimits ls' = true) ∧ Cut more ls' ∧ b :: rest = l.text ++ more := by
  generalize htext : b :: rest = text at h
  cases h with
  | last hws =>
      have hspace := hws b (by rw [← htext]; exact List.mem_cons_self)
      rw [hb] at hspace
      cases hspace
  | @cons ws more l ls' hws hl hnext h =>
      cases ws with
      | nil => exact ⟨l, more, ls', rfl, hl, hnext, h, rfl⟩
      | cons c ws =>
          obtain ⟨rfl, _⟩ := List.cons.inj htext
          have hspace := hws b List.mem_cons_self
          rw [hb] at hspace
          cases hspace

theorem IsInt.isDigits {text : Text} (h : IsInt text) : Digits text := by
  cases h with
  | zero => exact ⟨nofun, List.forall_mem_singleton.mpr rfl⟩
  | @digits b rest hb hrest =>
      refine ⟨nofun, ?_⟩
      intro d hd
      rcases List.mem_cons.mp hd with rfl | hd
      · have hlow : (48 : UInt8) ≤ d := UInt8.le_trans (by decide) hb.1
        rw [isDigit, decide_eq_true hlow, decide_eq_true hb.2]
        rfl
      · exact hrest d hd

-- The bytes of a number after the first one.
def isRealByte (b : UInt8) : Bool := isDigit b || b = 43 || b = 45 || b = 46 || b = 101 || b = 69

theorem isRealByte_of_isDigit {b : UInt8} (h : isDigit b = true) : isRealByte b = true := by
  rw [isRealByte, h]
  rfl

theorem Digits.isRealByte {text : Text} (h : Digits text) : ∀ b ∈ text, isRealByte b = true :=
  fun b hb => isRealByte_of_isDigit (h.all b hb)

theorem IsFrac.isRealByte {text : Text} (h : IsFrac text) : ∀ b ∈ text, isRealByte b = true := by
  cases h with
  | mk h => exact List.forall_mem_cons.mpr ⟨rfl, h.isRealByte⟩

theorem IsExp.isRealByte {text : Text} (h : IsExp text) : ∀ b ∈ text, isRealByte b = true := by
  cases h with
  | mk he hsign h =>
      refine List.forall_mem_cons.mpr ⟨?_, ?_⟩
      · rcases he with rfl | rfl <;> rfl
      · refine List.forall_mem_append.mpr ⟨?_, h.isRealByte⟩
        rcases hsign with rfl | rfl | rfl
        · exact nofun
        · exact List.forall_mem_singleton.mpr rfl
        · exact List.forall_mem_singleton.mpr rfl

-- What makes a number one that is no integer.
theorem IsFrac.mark {text : Text} (h : IsFrac text) : 46 ∈ text := by
  cases h with
  | mk => exact List.mem_cons_self

theorem IsExp.mark {text : Text} (h : IsExp text) : 101 ∈ text ∨ 69 ∈ text := by
  cases h with
  | mk he =>
      rcases he with rfl | rfl
      · exact .inl List.mem_cons_self
      · exact .inr List.mem_cons_self

theorem IsReal.split {text : Text} (h : IsReal text) :
    ∃ int rest, text = int ++ rest ∧ IsInteger int ∧ (∀ b ∈ rest, isRealByte b = true) ∧
      (46 ∈ rest ∨ 101 ∈ rest ∨ 69 ∈ rest) := by
  cases h with
  | @frac int rest hint hfrac =>
      exact ⟨int, rest, rfl, hint, hfrac.isRealByte, .inl hfrac.mark⟩
  | @exp int rest hint hexp =>
      exact ⟨int, rest, rfl, hint, hexp.isRealByte, .inr hexp.mark⟩
  | @both int frac exp hint hfrac hexp =>
      refine ⟨int, frac ++ exp, rfl, hint, ?_, .inl (List.mem_append_left exp hfrac.mark)⟩
      exact List.forall_mem_append.mpr ⟨hfrac.isRealByte, hexp.isRealByte⟩

-- The bytes of a string that stand for themselves.
def isLiteral (b : UInt8) : Bool := 32 ≤ b && b ≠ 34 && b ≠ 92 && b ≠ 255

theorem isUnescaped_isLiteral {c : Text} (h : isUnescaped c = true) :
    ∀ b ∈ c, isLiteral b = true := by
  have hhigh : ∀ b : UInt8, 0x80 ≤ b → b ≤ 0xF4 → isLiteral b = true := by
    intro b hlow hup
    have hquote : b ≠ 34 := by
      rintro rfl
      exact absurd hlow (by decide)
    have hbackslash : b ≠ 92 := by
      rintro rfl
      exact absurd hlow (by decide)
    have hend : b ≠ 255 := by
      rintro rfl
      exact absurd hup (by decide)
    have hspace : 32 ≤ b := UInt8.le_trans (by decide) hlow
    simp only [isLiteral, decide_eq_true hspace, decide_eq_true hquote, decide_eq_true hbackslash,
      decide_eq_true hend, Bool.and_self]
  have htail : ∀ b : UInt8, isTail b = true → isLiteral b = true := by
    intro b hb
    rw [isTail, Bool.and_eq_true, decide_eq_true_iff, decide_eq_true_iff] at hb
    exact hhigh b hb.1 (UInt8.le_trans hb.2 (by decide))
  have hrange : ∀ {b low up : UInt8}, low ≤ b → b ≤ up → 0x80 ≤ low → up ≤ 0xF4 →
      isLiteral b = true := fun hlow hup hlow' hup' =>
    hhigh _ (UInt8.le_trans hlow' hlow) (UInt8.le_trans hup hup')
  rcases c with _ | ⟨a, _ | ⟨b, _ | ⟨c, _ | ⟨d, _ | ⟨e, rest⟩⟩⟩⟩⟩
  · cases h
  · simp only [isUnescaped, Bool.and_eq_true, decide_eq_true_iff] at h
    obtain ⟨⟨⟨hspace, hascii⟩, hquote⟩, hbackslash⟩ := h
    have hend : a ≠ 255 := by
      rintro rfl
      exact absurd hascii (by decide)
    simp [isLiteral, hspace, hquote, hbackslash, hend]
  · simp only [isUnescaped, Bool.and_eq_true, decide_eq_true_iff] at h
    obtain ⟨⟨hlow, hup⟩, hb⟩ := h
    simp [hrange hlow hup (by decide) (by decide), htail b hb]
  · simp only [isUnescaped, Bool.and_eq_true, Bool.or_eq_true, decide_eq_true_iff] at h
    obtain ⟨h, hc⟩ := h
    have hab : isLiteral a = true ∧ isLiteral b = true := by
      rcases h with ((⟨⟨rfl, hlow⟩, hup⟩ | ⟨⟨hlow, hup⟩, hb⟩) | ⟨⟨rfl, hlow⟩, hup⟩) |
        ⟨⟨hlow, hup⟩, hb⟩
      · exact ⟨by decide, hrange hlow hup (by decide) (by decide)⟩
      · exact ⟨hrange hlow hup (by decide) (by decide), htail b hb⟩
      · exact ⟨by decide, hrange hlow hup (by decide) (by decide)⟩
      · exact ⟨hrange hlow hup (by decide) (by decide), htail b hb⟩
    simp [hab.1, hab.2, htail c hc]
  · simp only [isUnescaped, Bool.and_eq_true, Bool.or_eq_true, decide_eq_true_iff] at h
    obtain ⟨⟨h, hc⟩, hd⟩ := h
    have hab : isLiteral a = true ∧ isLiteral b = true := by
      rcases h with (⟨⟨rfl, hlow⟩, hup⟩ | ⟨⟨hlow, hup⟩, hb⟩) | ⟨⟨rfl, hlow⟩, hup⟩
      · exact ⟨by decide, hrange hlow hup (by decide) (by decide)⟩
      · exact ⟨hrange hlow hup (by decide) (by decide), htail b hb⟩
      · exact ⟨by decide, hrange hlow hup (by decide) (by decide)⟩
    simp [hab.1, hab.2, htail c hc, htail d hd]
  · cases h

-- The lexemes of elements, and of members, without the brackets.
def Tree.elements : List Tree → List Lexeme
  | [] => []
  | v :: rest => v.lexemes ++ moreElements rest

def Tree.members : List (Text × Tree) → List Lexeme
  | [] => []
  | (body, v) :: rest =>
      .string body :: .mark .nameSeparator :: (v.lexemes ++ moreMembers rest)

theorem Tree.lexemes_array (vs : List Tree) :
    (Tree.array vs).lexemes = .mark .beginArray :: (elements vs ++ [.mark .endArray]) := by
  cases vs with
  | nil => rfl
  | cons v rest => simp only [lexemes, elements, List.append_assoc]

theorem Tree.lexemes_object (members : List (Text × Tree)) :
    (Tree.object members).lexemes =
      .mark .beginObject :: (Tree.members members ++ [.mark .endObject]) := by
  cases members with
  | nil => rfl
  | cons member rest => simp only [lexemes, Tree.members, List.append_assoc, List.cons_append]

theorem Tree.moreElements_eq {vs : List Tree} (h : vs ≠ []) :
    moreElements vs = .mark .valueSeparator :: elements vs := by
  cases vs with
  | nil => exact absurd rfl h
  | cons v rest => rfl

theorem Tree.moreMembers_eq {members : List (Text × Tree)} (h : members ≠ []) :
    moreMembers members = .mark .valueSeparator :: Tree.members members := by
  cases members with
  | nil => exact absurd rfl h
  | cons member rest => rfl

theorem IsElements.ne_nil {text : Text} {vs : List Tree} (h : IsElements text vs) : vs ≠ [] := by
  cases h <;> exact List.cons_ne_nil _ _

theorem IsMembers.ne_nil {text : Text} {members : List (Text × Tree)} (h : IsMembers text members) :
    members ≠ [] := by
  cases h <;> exact List.cons_ne_nil _ _

mutual

theorem IsValue.cut : ∀ {text : Text} {v : Tree}, IsValue text v → ∀ {more : Text}
    {ls : List Lexeme}, Cut more ls → delimits ls = true → Cut (text ++ more) (v.lexemes ++ ls)
  | _, _, .null, _, _, h, hls => .value (l := .null) trivial hls h
  | _, _, .true_, _, _, h, hls => .value (l := .boolean true) trivial hls h
  | _, _, .false_, _, _, h, hls => .value (l := .boolean false) trivial hls h
  | _, _, .integer hl, _, _, h, hls => .value (l := .integer _) hl hls h
  | _, _, .real hl, _, _, h, hls => .value (l := .real _) hl hls h
  | _, _, .string hl, _, _, h, hls => .value (l := .string _) hl hls h
  | _, _, .emptyArray hstart hstop, _, _, h, _ => by
      rw [List.append_assoc]
      exact .mark (m := .beginArray) hstart (.mark (m := .endArray) hstop h)
  | _, _, .array hstart helements hstop, _, _, h, _ => by
      rw [Tree.lexemes_array, List.append_assoc, List.append_assoc, List.cons_append,
        List.append_assoc]
      have hstop' := Cut.mark (m := .endArray) hstop h
      exact .mark (m := .beginArray) hstart (helements.cut hstop' rfl)
  | _, _, .emptyObject hstart hstop, _, _, h, _ => by
      rw [List.append_assoc]
      exact .mark (m := .beginObject) hstart (.mark (m := .endObject) hstop h)
  | _, _, .object hstart hmembers hstop, _, _, h, _ => by
      rw [Tree.lexemes_object, List.append_assoc, List.append_assoc, List.cons_append,
        List.append_assoc]
      have hstop' := Cut.mark (m := .endObject) hstop h
      exact .mark (m := .beginObject) hstart (hmembers.cut hstop' rfl)

theorem IsElements.cut : ∀ {text : Text} {vs : List Tree}, IsElements text vs → ∀ {more : Text}
    {ls : List Lexeme}, Cut more ls → delimits ls = true →
    Cut (text ++ more) (Tree.elements vs ++ ls)
  | _, _, .single hv, _, _, h, hls => by
      rw [Tree.elements, Tree.moreElements, List.append_nil]
      exact hv.cut h hls
  | _, _, .cons hv hseparator hrest, _, _, h, hls => by
      rw [Tree.elements, Tree.moreElements_eq hrest.ne_nil, List.append_assoc, List.append_assoc,
        List.append_assoc]
      exact hv.cut (.mark (m := .valueSeparator) hseparator (hrest.cut h hls)) rfl

theorem IsMembers.cut : ∀ {text : Text} {members : List (Text × Tree)}, IsMembers text members →
    ∀ {more : Text} {ls : List Lexeme}, Cut more ls → delimits ls = true →
    Cut (text ++ more) (Tree.members members ++ ls)
  | _, _, .single hbody hcolon hv, _, _, h, hls => by
      have hvalue := Cut.mark (m := .nameSeparator) hcolon (hv.cut h hls)
      have hname := Cut.value (l := .string _) hbody rfl hvalue
      simp only [Lexeme.text, List.cons_append, List.append_assoc, List.nil_append] at hname
      simp only [Tree.members, Tree.moreMembers, List.cons_append, List.append_assoc,
        List.append_nil]
      exact hname
  | _, _, .cons hbody hcolon hv hseparator hrest, _, _, h, hls => by
      have hmore := Cut.mark (m := .valueSeparator) hseparator (hrest.cut h hls)
      have hvalue := Cut.mark (m := .nameSeparator) hcolon (hv.cut hmore rfl)
      have hname := Cut.value (l := .string _) hbody rfl hvalue
      simp only [Lexeme.text, List.cons_append, List.append_assoc, List.nil_append] at hname
      simp only [Tree.members, Tree.moreMembers_eq hrest.ne_nil, List.cons_append,
        List.append_assoc]
      exact hname

end

theorem IsText.cut {text : Text} {v : Tree} (h : IsText text v) : Cut text v.lexemes := by
  cases h with
  | mk hbefore hv hafter =>
      have hvalue := hv.cut (.last hafter) rfl
      rw [List.append_nil] at hvalue
      exact hvalue.ws hbefore

-- The other way: what is left behind the lexemes of a tree.
def Cuts (text : Text) (part : Text → Prop) (ls : List Lexeme) : Prop :=
  ∃ before body more, Ws before ∧ part body ∧ Cut more ls ∧ text = before ++ (body ++ more)

theorem Cut.lexeme {text : Text} {l : Lexeme} {ls : List Lexeme} (h : Cut text (l :: ls)) :
    Cuts text (fun body => l.Valid ∧ body = l.text) ls := by
  cases h with
  | cons hws hl _ h => exact ⟨_, _, _, hws, ⟨hl, rfl⟩, h, rfl⟩

theorem Cuts.imp {text : Text} {part part' : Text → Prop} {ls : List Lexeme}
    (h : Cuts text part ls) (himp : ∀ body, part body → part' body) : Cuts text part' ls := by
  obtain ⟨before, body, more, hbefore, hbody, hmore, rfl⟩ := h
  exact ⟨before, body, more, hbefore, himp body hbody, hmore, rfl⟩

theorem Cut.mark_split {m : Mark} {text : Text} {ls : List Lexeme} (h : Cut text (.mark m :: ls)) :
    ∃ before more, Ws before ∧ Cut more ls ∧ text = before ++ m.byte :: more := by
  obtain ⟨before, _, more, hbefore, ⟨_, rfl⟩, hmore, rfl⟩ := h.lexeme
  exact ⟨before, more, hbefore, hmore, rfl⟩

theorem structural_mk {b : UInt8} {before after : Text} (hbefore : Ws before) (hafter : Ws after) :
    Structural b (before ++ b :: after) :=
  ⟨before, after, hbefore, hafter, rfl⟩

mutual

theorem Cut.tree : ∀ (v : Tree) {text : Text} {ls : List Lexeme}, Cut text (v.lexemes ++ ls) →
    Cuts text (fun body => IsValue body v) ls
  | .null, _, _, h => h.lexeme.imp fun _ hl => hl.2 ▸ .null
  | .boolean true, _, _, h => h.lexeme.imp fun _ hl => hl.2 ▸ .true_
  | .boolean false, _, _, h => h.lexeme.imp fun _ hl => hl.2 ▸ .false_
  | .integer _, _, _, h => h.lexeme.imp fun _ hl => hl.2 ▸ .integer hl.1
  | .real _, _, _, h => h.lexeme.imp fun _ hl => hl.2 ▸ .real hl.1
  | .string _, _, _, h => h.lexeme.imp fun _ hl => hl.2 ▸ .string hl.1
  | .array [], _, _, h => by
      obtain ⟨before, more, hbefore, hmore, rfl⟩ := h.mark_split
      obtain ⟨ws, more, hws, hmore', rfl⟩ := Cut.mark_split hmore
      refine ⟨before, [91] ++ (ws ++ [93]), more, hbefore, ?_, hmore', by simp [Mark.byte]⟩
      exact .emptyArray (structural_mk Ws.nil Ws.nil) (structural_mk hws Ws.nil)
  | .array (v :: rest), _, _, h => by
      rw [Tree.lexemes_array, List.cons_append, List.append_assoc] at h
      obtain ⟨before, more, hbefore, hmore, rfl⟩ := h.mark_split
      obtain ⟨ws, body, more, hws, hbody, hmore', rfl⟩ :=
        Cut.trees (v :: rest) (List.cons_ne_nil v rest) hmore
      obtain ⟨ws', more, hws', hmore'', rfl⟩ := Cut.mark_split hmore'
      refine ⟨before, (91 :: ws) ++ (body ++ (ws' ++ [93])), more, hbefore, ?_, hmore'',
        by simp [Mark.byte]⟩
      exact .array (structural_mk Ws.nil hws) hbody (structural_mk hws' Ws.nil)
  | .object [], _, _, h => by
      obtain ⟨before, more, hbefore, hmore, rfl⟩ := h.mark_split
      obtain ⟨ws, more, hws, hmore', rfl⟩ := Cut.mark_split hmore
      refine ⟨before, [123] ++ (ws ++ [125]), more, hbefore, ?_, hmore', by simp [Mark.byte]⟩
      exact .emptyObject (structural_mk Ws.nil Ws.nil) (structural_mk hws Ws.nil)
  | .object ((name, v) :: rest), _, _, h => by
      rw [Tree.lexemes_object, List.cons_append, List.append_assoc] at h
      obtain ⟨before, more, hbefore, hmore, rfl⟩ := h.mark_split
      obtain ⟨ws, body, more, hws, hbody, hmore', rfl⟩ :=
        Cut.members ((name, v) :: rest) (List.cons_ne_nil _ rest) hmore
      obtain ⟨ws', more, hws', hmore'', rfl⟩ := Cut.mark_split hmore'
      refine ⟨before, (123 :: ws) ++ (body ++ (ws' ++ [125])), more, hbefore, ?_, hmore'',
        by simp [Mark.byte]⟩
      exact .object (structural_mk Ws.nil hws) hbody (structural_mk hws' Ws.nil)

theorem Cut.trees : ∀ (vs : List Tree), vs ≠ [] → ∀ {text : Text} {ls : List Lexeme},
    Cut text (Tree.elements vs ++ ls) → Cuts text (fun body => IsElements body vs) ls
  | [], hne, _, _, _ => absurd rfl hne
  | [v], _, _, _, h => by
      rw [Tree.elements, Tree.moreElements, List.append_nil] at h
      exact (Cut.tree v h).imp fun _ => .single
  | v :: v' :: rest, _, _, _, h => by
      rw [Tree.elements, Tree.moreElements_eq (List.cons_ne_nil v' rest), List.append_assoc] at h
      obtain ⟨before, body, more, hbefore, hbody, hmore, rfl⟩ := Cut.tree v h
      obtain ⟨ws, more, hws, hmore', rfl⟩ := Cut.mark_split hmore
      obtain ⟨ws', body', more, hws', hbody', hmore'', rfl⟩ :=
        Cut.trees (v' :: rest) (List.cons_ne_nil v' rest) hmore'
      refine ⟨before, body ++ ((ws ++ 44 :: ws') ++ body'), more, hbefore, ?_, hmore'',
        by simp [Mark.byte]⟩
      exact .cons hbody (structural_mk hws hws') hbody'

theorem Cut.members : ∀ (members : List (Text × Tree)), members ≠ [] → ∀ {text : Text}
    {ls : List Lexeme}, Cut text (Tree.members members ++ ls) →
    Cuts text (fun body => IsMembers body members) ls
  | [], hne, _, _, _ => absurd rfl hne
  | [(name, v)], _, _, _, h => by
      rw [Tree.members, Tree.moreMembers, List.append_nil] at h
      obtain ⟨before, _, more, hbefore, ⟨hname, rfl⟩, hmore, rfl⟩ := h.lexeme
      obtain ⟨ws, more, hws, hmore', rfl⟩ := Cut.mark_split hmore
      obtain ⟨ws', body, more, hws', hbody, hmore'', rfl⟩ := Cut.tree v hmore'
      refine ⟨before, _, more, hbefore, .single hname (structural_mk hws hws') hbody, hmore'', ?_⟩
      simp [Lexeme.text, Mark.byte]
  | (name, v) :: (name', v') :: rest, _, _, _, h => by
      rw [Tree.members, Tree.moreMembers_eq (List.cons_ne_nil (name', v') rest), List.cons_append,
        List.cons_append, List.append_assoc] at h
      obtain ⟨before, _, more, hbefore, ⟨hname, rfl⟩, hmore, rfl⟩ := h.lexeme
      obtain ⟨ws, more, hws, hmore', rfl⟩ := Cut.mark_split hmore
      obtain ⟨ws', body, more, hws', hbody, hmore'', rfl⟩ := Cut.tree v hmore'
      obtain ⟨wsₙ, more, hwsₙ, hmoreₙ, rfl⟩ := Cut.mark_split hmore''
      obtain ⟨wsₙ', body', more, hwsₙ', hbody', hmoreₙ', rfl⟩ :=
        Cut.members ((name', v') :: rest) (List.cons_ne_nil _ rest) hmoreₙ
      refine ⟨before, _, more, hbefore, .cons hname (structural_mk hws hws') hbody
        (structural_mk hwsₙ hwsₙ') hbody', hmoreₙ', ?_⟩
      simp [Lexeme.text, Mark.byte]

end

theorem isText_iff_cut {text : Text} {v : Tree} : IsText text v ↔ Cut text v.lexemes := by
  constructor
  · exact IsText.cut
  · intro h
    have happend : Cut text (v.lexemes ++ []) := by rwa [List.append_nil]
    obtain ⟨before, body, more, hbefore, hbody, hmore, rfl⟩ := Cut.tree v happend
    cases hmore with
    | last hafter => exact .mk hbefore hbody hafter

-- A tree is known by its lexemes.
theorem Tree.scalar_inj {v : Tree} (hv : v.isContainer = false) (v' : Tree) {ls ls' : List Lexeme}
    (h : v.lexemes ++ ls = v'.lexemes ++ ls') : v = v' ∧ ls = ls' := by
  have harray : ∀ vs, v' ≠ .array vs := by
    rintro vs rfl
    rw [lexemes_array] at h
    cases v with
    | array => cases hv
    | object => cases hv
    | _ => cases (List.cons.inj h).1
  have hobject : ∀ members, v' ≠ .object members := by
    rintro members rfl
    rw [lexemes_object] at h
    cases v with
    | array => cases hv
    | object => cases hv
    | _ => cases (List.cons.inj h).1
  cases v' with
  | array vs => exact absurd rfl (harray vs)
  | object members => exact absurd rfl (hobject members)
  | _ =>
      cases v with
      | array => cases hv
      | object => cases hv
      | _ =>
          obtain ⟨hfirst, hrest⟩ := List.cons.inj h
          cases hfirst <;> exact ⟨rfl, hrest⟩

theorem Tree.lexemes_ne_endArray (v : Tree) (ls ls' : List Lexeme) :
    v.lexemes ++ ls ≠ .mark .endArray :: ls' := by
  intro h
  cases v with
  | array vs =>
      rw [lexemes_array] at h
      cases (List.cons.inj h).1
  | object members =>
      rw [lexemes_object] at h
      cases (List.cons.inj h).1
  | _ => cases (List.cons.inj h).1

mutual

theorem Tree.lexemes_inj : ∀ (v v' : Tree) {ls ls' : List Lexeme},
    v.lexemes ++ ls = v'.lexemes ++ ls' → v = v' ∧ ls = ls'
  | .null, v', _, _, h => scalar_inj rfl v' h
  | .boolean _, v', _, _, h => scalar_inj rfl v' h
  | .integer _, v', _, _, h => scalar_inj rfl v' h
  | .real _, v', _, _, h => scalar_inj rfl v' h
  | .string _, v', _, _, h => scalar_inj rfl v' h
  | .array vs, .array vs', _, _, h => by
      rw [lexemes_array, lexemes_array] at h
      have helements := (List.cons.inj h).2
      rw [List.append_eq, List.append_eq, List.append_assoc, List.append_assoc] at helements
      obtain ⟨rfl, rfl⟩ := elements_inj vs vs' helements
      exact ⟨rfl, rfl⟩
  | .object members, .object members', _, _, h => by
      rw [lexemes_object, lexemes_object] at h
      have hmembers := (List.cons.inj h).2
      rw [List.append_eq, List.append_eq, List.append_assoc, List.append_assoc] at hmembers
      obtain ⟨rfl, rfl⟩ := members_inj members members' hmembers
      exact ⟨rfl, rfl⟩
  | .array vs, .object members, _, _, h => by
      rw [lexemes_array, lexemes_object] at h
      cases (List.cons.inj h).1
  | .object members, .array vs, _, _, h => by
      rw [lexemes_array, lexemes_object] at h
      cases (List.cons.inj h).1
  | .array vs, .null, _, _, h => (scalar_inj rfl _ h.symm).imp Eq.symm Eq.symm
  | .array vs, .boolean _, _, _, h => (scalar_inj rfl _ h.symm).imp Eq.symm Eq.symm
  | .array vs, .integer _, _, _, h => (scalar_inj rfl _ h.symm).imp Eq.symm Eq.symm
  | .array vs, .real _, _, _, h => (scalar_inj rfl _ h.symm).imp Eq.symm Eq.symm
  | .array vs, .string _, _, _, h => (scalar_inj rfl _ h.symm).imp Eq.symm Eq.symm
  | .object _, .null, _, _, h => (scalar_inj rfl _ h.symm).imp Eq.symm Eq.symm
  | .object _, .boolean _, _, _, h => (scalar_inj rfl _ h.symm).imp Eq.symm Eq.symm
  | .object _, .integer _, _, _, h => (scalar_inj rfl _ h.symm).imp Eq.symm Eq.symm
  | .object _, .real _, _, _, h => (scalar_inj rfl _ h.symm).imp Eq.symm Eq.symm
  | .object _, .string _, _, _, h => (scalar_inj rfl _ h.symm).imp Eq.symm Eq.symm

theorem Tree.elements_inj : ∀ (vs vs' : List Tree) {ls ls' : List Lexeme},
    elements vs ++ ([.mark .endArray] ++ ls) = elements vs' ++ ([.mark .endArray] ++ ls') →
      vs = vs' ∧ ls = ls'
  | [], [], _, _, h => ⟨rfl, (List.cons.inj h).2⟩
  | [], v' :: rest', _, _, h => by
      rw [elements, elements, List.append_assoc] at h
      exact absurd h.symm (lexemes_ne_endArray v' _ _)
  | v :: rest, [], _, _, h => by
      rw [elements, elements, List.append_assoc] at h
      exact absurd h (lexemes_ne_endArray v _ _)
  | v :: rest, v' :: rest', _, _, h => by
      rw [elements, elements, List.append_assoc, List.append_assoc] at h
      obtain ⟨rfl, hrest⟩ := lexemes_inj v v' h
      obtain ⟨rfl, rfl⟩ := moreElements_inj rest rest' hrest
      exact ⟨rfl, rfl⟩

theorem Tree.moreElements_inj : ∀ (vs vs' : List Tree) {ls ls' : List Lexeme},
    moreElements vs ++ ([.mark .endArray] ++ ls) = moreElements vs' ++ ([.mark .endArray] ++ ls') →
      vs = vs' ∧ ls = ls'
  | [], [], _, _, h => ⟨rfl, (List.cons.inj h).2⟩
  | [], _ :: _, _, _, h => by cases (List.cons.inj h).1
  | _ :: _, [], _, _, h => by cases (List.cons.inj h).1
  | v :: rest, v' :: rest', _, _, h => by
      have hrest := (List.cons.inj h).2
      simp only [List.append_eq, List.append_assoc] at hrest
      obtain ⟨rfl, hrest'⟩ := lexemes_inj v v' hrest
      obtain ⟨rfl, rfl⟩ := moreElements_inj rest rest' hrest'
      exact ⟨rfl, rfl⟩

theorem Tree.members_inj : ∀ (members members' : List (Text × Tree)) {ls ls' : List Lexeme},
    Tree.members members ++ ([.mark .endObject] ++ ls) =
      Tree.members members' ++ ([.mark .endObject] ++ ls') → members = members' ∧ ls = ls'
  | [], [], _, _, h => ⟨rfl, (List.cons.inj h).2⟩
  | [], _ :: _, _, _, h => by cases (List.cons.inj h).1
  | _ :: _, [], _, _, h => by cases (List.cons.inj h).1
  | (name, v) :: rest, (name', v') :: rest', _, _, h => by
      obtain ⟨hname, hcolon⟩ := List.cons.inj h
      obtain ⟨rfl⟩ := Lexeme.string.inj hname
      have hrest := (List.cons.inj hcolon).2
      simp only [List.append_eq, List.append_assoc] at hrest
      obtain ⟨rfl, hrest'⟩ := lexemes_inj v v' hrest
      obtain ⟨rfl, rfl⟩ := moreMembers_inj rest rest' hrest'
      exact ⟨rfl, rfl⟩

theorem Tree.moreMembers_inj : ∀ (members members' : List (Text × Tree)) {ls ls' : List Lexeme},
    moreMembers members ++ ([.mark .endObject] ++ ls) =
      moreMembers members' ++ ([.mark .endObject] ++ ls') → members = members' ∧ ls = ls'
  | [], [], _, _, h => ⟨rfl, (List.cons.inj h).2⟩
  | [], _ :: _, _, _, h => by cases (List.cons.inj h).1
  | _ :: _, [], _, _, h => by cases (List.cons.inj h).1
  | (name, v) :: rest, (name', v') :: rest', _, _, h => by
      obtain ⟨hname, hcolon⟩ := List.cons.inj (List.cons.inj h).2
      obtain ⟨rfl⟩ := Lexeme.string.inj hname
      have hrest := (List.cons.inj hcolon).2
      simp only [List.append_eq, List.append_assoc] at hrest
      obtain ⟨rfl, hrest'⟩ := lexemes_inj v v' hrest
      obtain ⟨rfl, rfl⟩ := moreMembers_inj rest rest' hrest'
      exact ⟨rfl, rfl⟩

end

theorem Cut.valid {text : Text} {ls : List Lexeme} (h : Cut text ls) : ∀ l ∈ ls, l.Valid := by
  induction h with
  | last => nofun
  | cons _ hl _ _ ih => exact List.forall_mem_cons.mpr ⟨hl, ih⟩

namespace Tree

section

variable (integer real string : Text → Bool)

mutual

theorem all_eq : ∀ v : Tree,
    v.all integer real string = v.lexemes.all (Lexeme.all integer real string)
  | .null => rfl
  | .boolean _ => rfl
  | .integer lexeme => by simp [all, lexemes, Lexeme.all]
  | .real lexeme => by simp [all, lexemes, Lexeme.all]
  | .string body => by simp [all, lexemes, Lexeme.all]
  | .array [] => rfl
  | .array (v :: rest) => by
      simp [all, allElements, lexemes, all_eq v, allElements_eq rest, Lexeme.all]
  | .object [] => rfl
  | .object ((name, v) :: rest) => by
      simp [all, allMembers, lexemes, all_eq v, allMembers_eq rest, Lexeme.all, Bool.and_assoc]

theorem allElements_eq : ∀ vs : List Tree,
    allElements integer real string vs = (moreElements vs).all (Lexeme.all integer real string)
  | [] => rfl
  | v :: rest => by
      simp [allElements, moreElements, all_eq v, allElements_eq rest, Lexeme.all]

theorem allMembers_eq : ∀ members : List (Text × Tree),
    allMembers integer real string members =
      (moreMembers members).all (Lexeme.all integer real string)
  | [] => rfl
  | (name, v) :: rest => by
      simp [allMembers, moreMembers, all_eq v, allMembers_eq rest, Lexeme.all, Bool.and_assoc]

end

end

section

variable {α β : Type} [DecidableEq α] [DecidableEq β] {name : Text → α} {name' : Text → β}

theorem agreeing_of_nodup {members : List (Text × Tree)}
    (h : (members.map fun member => name member.1).Nodup) :
    members.all (fun a => members.all fun b => name a.1 ≠ name b.1 || name' a.1 = name' b.1) =
      true := by
  rw [List.all_eq_true]
  intro a ha
  rw [List.all_eq_true]
  intro b hb
  rw [Bool.or_eq_true, decide_eq_true_iff, decide_eq_true_iff]
  by_cases heq : name a.1 = name b.1
  · rw [List.inj_on_of_nodup_map h ha hb heq]
    exact .inr rfl
  · exact .inl heq

theorem nodup_of_agreeing {members : List (Text × Tree)}
    (h : members.all (fun a => members.all fun b => name a.1 ≠ name b.1 || name' a.1 = name' b.1) =
      true) (hnodup : (members.map fun member => name' member.1).Nodup) :
    (members.map fun member => name member.1).Nodup := by
  refine List.Nodup.map_on ?_ hnodup.of_map
  intro a ha b hb heq
  have hab := List.all_eq_true.mp (List.all_eq_true.mp h a ha) b hb
  rw [Bool.or_eq_true, decide_eq_true_iff, decide_eq_true_iff] at hab
  exact List.inj_on_of_nodup_map hnodup ha hb (hab.resolve_left fun h => h heq)

mutual

theorem agrees_of_distinct : ∀ {v : Tree}, v.distinct name = true → v.agrees name name' = true
  | .null, _ | .boolean _, _ | .integer _, _ | .real _, _ | .string _, _ => rfl
  | .array vs, h => show agreesElements name name' vs = true from agreesElements_of_distinct h
  | .object members, h => by
      rw [distinct, Bool.and_eq_true, decide_eq_true_iff] at h
      rw [agrees, agreeing_of_nodup h.1, agreesMembers_of_distinct h.2]
      rfl

theorem agreesElements_of_distinct : ∀ {vs : List Tree}, distinctElements name vs = true →
    agreesElements name name' vs = true
  | [], _ => rfl
  | v :: rest, h => by
      rw [distinctElements, Bool.and_eq_true] at h
      rw [agreesElements, agrees_of_distinct h.1, agreesElements_of_distinct h.2]
      rfl

theorem agreesMembers_of_distinct : ∀ {members : List (Text × Tree)},
    distinctMembers name members = true → agreesMembers name name' members = true
  | [], _ => rfl
  | (_, v) :: rest, h => by
      rw [distinctMembers, Bool.and_eq_true] at h
      rw [agreesMembers, agrees_of_distinct h.1, agreesMembers_of_distinct h.2]
      rfl

end

mutual

theorem distinct_of_agrees : ∀ {v : Tree}, v.agrees name name' = true → v.distinct name' = true →
    v.distinct name = true
  | .null, _, _ | .boolean _, _, _ | .integer _, _, _ | .real _, _, _ | .string _, _, _ => rfl
  | .array vs, h, h' =>
      show distinctElements name vs = true from distinctElements_of_agrees h h'
  | .object members, h, h' => by
      rw [agrees, Bool.and_eq_true] at h
      rw [distinct, Bool.and_eq_true, decide_eq_true_iff] at h'
      rw [distinct, Bool.and_eq_true, decide_eq_true_iff]
      exact ⟨nodup_of_agreeing h.1 h'.1, distinctMembers_of_agrees h.2 h'.2⟩

theorem distinctElements_of_agrees : ∀ {vs : List Tree}, agreesElements name name' vs = true →
    distinctElements name' vs = true → distinctElements name vs = true
  | [], _, _ => rfl
  | v :: rest, h, h' => by
      rw [agreesElements, Bool.and_eq_true] at h
      rw [distinctElements, Bool.and_eq_true] at h'
      rw [distinctElements, distinct_of_agrees h.1 h'.1, distinctElements_of_agrees h.2 h'.2]
      rfl

theorem distinctMembers_of_agrees : ∀ {members : List (Text × Tree)},
    agreesMembers name name' members = true → distinctMembers name' members = true →
    distinctMembers name members = true
  | [], _, _ => rfl
  | (_, v) :: rest, h, h' => by
      rw [agreesMembers, Bool.and_eq_true] at h
      rw [distinctMembers, Bool.and_eq_true] at h'
      rw [distinctMembers, distinct_of_agrees h.1 h'.1, distinctMembers_of_agrees h.2 h'.2]
      rfl

end

end

end Tree

end JsonGrammar

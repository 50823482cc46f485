import AsrServiceProxy.Config.Parser.Theorems
import AsrServiceProxy.Config.RoundTrip.Theorems

-- The token stream and the parser together: each text is read to an end.
namespace AsrServiceProxy.Config

open CMemory Simulation

theorem Token.isInner_regular {t : Token} (h : t.isInner = true) :
    t.isComment = true ∨ t.isRegular = true := by
  cases t with
  | comment text => exact .inl rfl
  | start | end_ | thrown => cases h
  | _ => exact .inr rfl

theorem Ended.document {ts : List Token} (h : Ended ts) : Document (significant ts) := by
  obtain ⟨front, rfl, hfront⟩ := h
  induction front with
  | nil =>
      refine ⟨.last, fun v hv => ?_⟩
      cases List.mem_singleton.mp hv
  | cons t front ih =>
      have ⟨ht, hrest⟩ := List.forall_mem_cons.mp hfront
      have hdocument := ih hrest
      rcases t.isInner_regular ht with hcomment | hregular
      · have hskip : significant (t :: front ++ [.end_]) = significant (front ++ [.end_]) := by
          rw [significant, List.cons_append, List.filter_cons_of_neg (by simp [hcomment])]
          rfl
        rw [hskip]
        exact hdocument
      · have hkeep : significant (t :: front ++ [.end_]) =
            t :: significant (front ++ [.end_]) := by
          have hcomment : t.isComment = false := by
            cases t with
            | comment => cases hregular
            | _ => rfl
          rw [significant, List.cons_append, List.filter_cons_of_pos (by simp [hcomment])]
          rfl
        rw [hkeep]
        refine ⟨.cons hregular hdocument.regular, fun v hv => ?_⟩
        rcases List.mem_cons.mp hv with rfl | hv
        · exact ht
        · exact hdocument.scalars v hv

theorem tokenize_document (doubles : Doubles) (input : Bytes) (flavor : ConfigSyntax) :
    Document (significant (tokenize doubles input flavor)) ∧
      ∃ l, significant (tokenize doubles input flavor) = .start :: l := by
  obtain ⟨ts, hts, hended⟩ := tokenize_ended doubles input flavor
  have hdocument := hended.document
  rw [hts]
  refine ⟨⟨.cons rfl hdocument.regular, fun v hv => ?_⟩, significant ts, rfl⟩
  rcases List.mem_cons.mp hv with hv | hv
  · cases hv
  · exact hdocument.scalars v hv

theorem Includer.Made.mono {includer : Includer} {raised raised' : ConfigException → Prop}
    (h : includer.Made raised) (himp : ∀ e, raised e → raised' e) : includer.Made raised' where
  include_ := h.include_
  includeFile := h.includeFile
  includeRaised name e he := himp e (h.includeRaised name e he)
  includeFileRaised name e he := himp e (h.includeFileRaised name e he)

section

variable (doubles : Doubles) {includer : Includer} (flavor : ConfigSyntax) (input : Bytes)
  (hincluder : includer.Made Tame)

include hincluder

-- Whatever the text, `parse` gives a value that keeps the invariant, or throws.
theorem parse_gives :
    match parse doubles includer flavor input with
    | .ok v => Piece v
    | .error e =>
        Tolerable (WildAt noKeys flavor (significant (tokenize doubles input flavor))) e := by
  obtain ⟨hdocument, l, hstart⟩ := tokenize_document doubles input flavor
  rw [← parseWith_storeField]
  exact parseWith_outcome doubles input hdocument hstart
    (hincluder.mono fun e => Tolerable.mono fun _ => False.elim) stores_storeField

theorem parse_guarded_gives :
    match parseWith doubles includer (storeGuarded flavor) flavor input with
    | .ok v => Piece v
    | .error e =>
        Tolerable (WildAt secondKeyEmpty flavor (significant (tokenize doubles input flavor))) e := by
  obtain ⟨hdocument, l, hstart⟩ := tokenize_document doubles input flavor
  exact parseWith_outcome doubles input hdocument hstart
    (hincluder.mono fun e => Tolerable.mono fun _ => False.elim) stores_storeGuarded

end

-- An exception that the library throws.
def ConfigException.isThrown : ConfigException → Bool
  | .undefinedBehaviour _ | .outOfFuel => false
  | _ => true

section

variable (doubles : Doubles) (includer : Includer) (flavor : ConfigSyntax) (input : Bytes)

-- Each call of `next` before the end takes a byte for its token, the end comes once and
-- last, nothing else stops the stream, and `parse` returns or throws.
structure Progresses : Prop where
  advances : ∀ s, Reached doubles (flavor ≠ .JSON) input s → Advances doubles (flavor ≠ .JSON) s
  ended : ∃ front, tokenize doubles input flavor = front ++ [.end_] ∧ .end_ ∉ front ∧
    ∀ e, .thrown e ∉ front
  parsed : ∀ e, parse doubles includer flavor input = .error e → e.isThrown = true

-- The tokens alone: without such a key in the text the parser does not come to one.
theorem not_reachesEmptyKey_of_keysFine (hincluder : includer.Made Tame)
    (hkeys : flavor = .JSON ∨ keysFine (significant (tokenize doubles input flavor)) = true) :
    ¬ReachesEmptyKey doubles includer flavor input := by
  intro hreaches
  have hresult := parse_guarded_gives doubles flavor input hincluder
  rw [hreaches] at hresult
  obtain ⟨-, hconf, hwild⟩ := hresult
  rcases hkeys with hjson | hfine
  · rw [hconf] at hjson
    cases hjson
  · rw [hfine] at hwild
    cases hwild

theorem tokenize_advances (s : TokenStream)
    (hs : Reached doubles (flavor ≠ .JSON) input s) : Advances doubles (flavor ≠ .JSON) s := by
  obtain ⟨more, saver, hat, _⟩ := hs.suffix
  exact hat.advances

theorem tokenize_ends : ∃ front, tokenize doubles input flavor = front ++ [.end_] ∧ .end_ ∉ front ∧
    ∀ e, .thrown e ∉ front := by
  obtain ⟨ts, hts, front, rfl, hfront⟩ := tokenize_ended doubles input flavor
  refine ⟨.start :: front, hts, fun h => ?_, fun e h => ?_⟩
  · rcases List.mem_cons.mp h with h | h
    · cases h
    · cases hfront _ h
  · rcases List.mem_cons.mp h with h | h
    · cases h
    · cases hfront _ h

end

theorem Includer.none_made : Includer.none.Made Tame where
  include_ _ _ h := by cases h
  includeFile _ _ h := by cases h
  includeRaised _ e h := by
    obtain rfl : .parse "include" = e := Except.error.inj h
    exact trivial
  includeFileRaised _ e h := by
    obtain rfl : .parse "include" = e := Except.error.inj h
    exact trivial

end AsrServiceProxy.Config

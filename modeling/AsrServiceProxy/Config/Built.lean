import AsrServiceProxy.Config.Parser.Progress

-- The values that a program can come by: those of documents, their parts, and what the
-- operations make of them. No constructor refuses any of them.
namespace AsrServiceProxy.Config

open CMemory Simulation

-- The operations, each with what it is given besides the value.
inductive Operation where
  | withFallback (other : Value Unit)
  | relativized (path : Path)
  | withOrigin (sameOrigin : Bool)
  | withValue (path : Path) (v : Value Unit)
  | withoutPath (path : Path)
  | withOnlyPath (path : Path)

namespace Operation

def operands : Operation → List (Value Unit)
  | .withFallback v | .withValue _ v => [v]
  | _ => []

-- The last three are methods of objects.
def applies : Operation → Value Unit → Bool
  | .withValue _ _, self | .withoutPath _, self | .withOnlyPath _, self => self.isObject
  | _, _ => true

def apply : Operation → Value Unit → Make Unit (Value Unit)
  | .withFallback other, self => Config.withFallback .plain self other
  | .relativized path, self => do
      return (← makeRelativized path self).getD self
  | .withOrigin sameOrigin, self => Config.withOrigin sameOrigin self
  | .withValue path v, self => Config.withValue v path self
  | .withoutPath path, self => Config.withoutPath path self
  | .withOnlyPath path, self => Config.withOnlyPath path self

end Operation

-- The values inside a list or an object.
def Value.children : Value Unit → List (Value Unit)
  | .simpleConfigList _ value => value
  | .simpleConfigObject _ value _ => value.map Prod.snd
  | _ => []

-- An includer reads documents too, or throws an exception of the library.
inductive Built (doubles : Doubles) : Value Unit → Prop
  | parsed {includer : Includer} {flavor : ConfigSyntax} {input : Bytes} {v : Value Unit}
      (hinclude : ∀ name w, includer.include_ name = .ok w → Built doubles w)
      (hfile : ∀ name w, includer.includeFile name = .ok w → Built doubles w)
      (hraised : ∀ name e, includer.include_ name = .error e → Tame e)
      (hfileRaised : ∀ name e, includer.includeFile name = .error e → Tame e)
      (h : parse doubles includer flavor input = .ok v) : Built doubles v
  | child {v w : Value Unit} (hv : Built doubles v) (hw : w ∈ v.children) : Built doubles w
  | result {op : Operation} {v w : Value Unit} {s : Unit} (hv : Built doubles v)
      (hoperands : ∀ u ∈ op.operands, Built doubles u) (happlies : op.applies v = true)
      (h : op.apply v () = .ok w s) : Built doubles w

theorem forall_child {p : Value Unit → Prop} {v w : Value Unit} (h : v.Forall p)
    (hw : w ∈ v.children) : w.Forall p := by
  cases v with
  | simpleConfigList id value => exact (forallAll_iff value).mp h.2 w hw
  | simpleConfigObject id value ignores =>
      obtain ⟨field, hfield, rfl⟩ := List.mem_map.mp hw
      exact (forallFields_iff value).mp h.2 field hfield
  | _ => cases hw

-- The operations keep the invariant; all they throw is that an object is not resolved.
theorem gives_apply {op : Operation} {v : Value Unit} (hv : v.Forall Value.WellMade)
    (hoperands : ∀ u ∈ op.operands, u.Forall Value.WellMade) (happlies : op.applies v = true) :
    Gives (op.apply v) (fun w => w.Forall Value.WellMade) (Tame) := by
  have hnotResolved : ∀ e, e = notResolved → Tame e := by
    rintro _ rfl
    exact trivial
  cases op with
  | withFallback other =>
      exact gives_withFallback_wellMade hv (hoperands other (List.mem_singleton_self other))
  | relativized path =>
      refine Gives.bind (Gives.raises (gives_makeRelativized path v hv) fun _ => False.elim) ?_
      intro r hr
      exact Gives.pure (hr ▸ forall_relativized path v hv)
  | withOrigin sameOrigin =>
      refine Gives.raises (Gives.imp (gives_withOrigin sameOrigin hv) ?_) fun _ => False.elim
      rintro _ rfl
      exact hv
  | withValue path u =>
      exact Gives.raises (gives_withValue (hoperands u (List.mem_singleton_self u)) path hv happlies)
        hnotResolved
  | withoutPath path => exact Gives.raises (gives_withoutPath path hv happlies) hnotResolved
  | withOnlyPath path => exact Gives.raises (gives_withOnlyPath path hv happlies) hnotResolved

theorem Built.wellMade {doubles : Doubles} {v : Value Unit} (h : Built doubles v) :
    v.Forall Value.WellMade := by
  induction h with
  | @parsed includer flavor input v _ _ hraised hfileRaised h ihinclude ihfile =>
      have hgives := parse_gives doubles flavor input ⟨ihinclude, ihfile, hraised, hfileRaised⟩
      rw [h] at hgives
      exact hgives.made
  | child _ hw ih => exact forall_child ih hw
  | @result op v w s _ _ happlies h ihv ihoperands =>
      have hgives := gives_apply ihv ihoperands happlies ()
      rw [h] at hgives
      exact hgives

-- Every value is one that the constructors accept, and no operation on such values, and
-- no document, makes a constructor throw.
theorem built_constructed (doubles : Doubles) :
    (∀ v, Built doubles v → v.Forall Value.Constructed) ∧
    (∀ (op : Operation) (v : Value Unit), Built doubles v →
      (∀ u ∈ op.operands, Built doubles u) → op.applies v = true →
      ∀ message ∈ checkMessages, ∀ s, op.apply v () ≠ .error (.bugOrBroken message) s) ∧
    (∀ (includer : Includer) (flavor : ConfigSyntax) (input : Bytes),
      (∀ name w, includer.include_ name = .ok w → Built doubles w) →
      (∀ name w, includer.includeFile name = .ok w → Built doubles w) →
      (∀ name e, includer.include_ name = .error e → Tame e) →
      (∀ name e, includer.includeFile name = .error e → Tame e) →
      ∀ message ∈ checkMessages,
        parse doubles includer flavor input ≠ .error (.bugOrBroken message)) := by
  refine ⟨fun v hv => hv.wellMade.constructed, ?_, ?_⟩
  · intro op v hv hoperands happlies message hmessage s hthrown
    have hgives := gives_apply hv.wellMade (fun u hu => (hoperands u hu).wellMade) happlies ()
    rw [hthrown] at hgives
    exact hgives hmessage
  · intro includer flavor input hinclude hfile hraised hfileRaised message hmessage hthrown
    have hgives := parse_gives doubles flavor input ⟨fun name w h => (hinclude name w h).wellMade,
      fun name w h => (hfile name w h).wellMade, hraised, hfileRaised⟩
    rw [hthrown] at hgives
    exact hgives hmessage

-- A document with a concatenation and with delayed merges, of an object and of a value.
def mergesText : Bytes :=
  ascii "a = $\x7bx\x7d [1]\na = $\x7by\x7d\nb = \x7bc = 1\x7d\nb = $\x7bz\x7d\nb = \x7b\x7d"

def Includer.always (v : Value Unit) : Includer where
  include_ _ := .ok v
  includeFile _ := .ok v

-- Its value, the value with itself as the fallback, and a document that includes it.
theorem built_constructed_merges :
    ∃ v, parse noDoubles .none .CONF mergesText = .ok v ∧ v.Forall Value.Constructed ∧
      (∀ message ∈ checkMessages, ∀ s,
        (Operation.withFallback v).apply v () ≠ .error (.bugOrBroken message) s) ∧
      ∀ message ∈ checkMessages,
        parse noDoubles (.always v) .CONF
            (ascii "d = \x7b include \"merges\" \x7d\nd = $\x7ba\x7d") ≠
          .error (.bugOrBroken message) := by
  have hok : (parse noDoubles .none .CONF mergesText).isOk = true := by
    decide +kernel
  cases hparse : parse noDoubles .none .CONF mergesText with
  | error e =>
      rw [hparse] at hok
      cases hok
  | ok v =>
      have hmade := Includer.none_made
      have hbuilt : Built noDoubles v := .parsed (fun _ _ h => by cases h) (fun _ _ h => by cases h)
        hmade.includeRaised hmade.includeFileRaised hparse
      have hincluded (w : Value Unit) (h : Except.ok v = (Except.ok w : Except ConfigException _)) :
          Built noDoubles w := Except.ok.inj h ▸ hbuilt
      obtain ⟨hconstructed, hoperations, hdocuments⟩ := built_constructed noDoubles
      refine ⟨v, rfl, hconstructed v hbuilt, ?_, ?_⟩
      · exact hoperations (.withFallback v) v hbuilt
          (fun u hu => List.mem_singleton.mp hu ▸ hbuilt) rfl
      · exact hdocuments (.always v) .CONF _ (fun _ => hincluded) (fun _ => hincluded)
          (fun _ _ h => by cases h) (fun _ _ h => by cases h)

end AsrServiceProxy.Config

import StyleGrammar.Proofs.Value.Images
import StyleGrammar.Value.Substitution
import StyleGrammar.Value.Transform

/-!
# Functions over sequences are read steadily

Substitutions, transforms and filters hold sequences of values.  What is read of
them keeps what reading checks, so that it can be checked again.
-/

namespace StyleGrammar

open Reader Output

theorem steady_dashedName :
    Steady (fun i => isDashed i.name = true ∧ IsName i.name) (read : Reader DashedIdent) := by
  refine .expectLike fun t i ht h => ?_
  cases t <;> try cases h
  next n =>
    dsimp only at h
    split at h
    · next hdashed =>
      cases h
      exact ⟨hdashed, ht⟩
    · cases h

variable {V : Type} [Term V] {good : V → Prop}

abbrev FallbackGood (good : V → Prop) (vs? : Option (List V)) : Prop :=
  ∀ vs ∈ vs?, Sequence.Bracketed good vs

namespace Attr

structure Good (good : V → Prop) (a : Attr V) : Prop where
  name : IsName a.name
  type : ∀ t ∈ a.type?, t = "%" ∨ IsName t
  fallback : FallbackGood good a.fallback?

def printType : Option String → Output
  | some "%" => Output.text " %"
  | some t => Output.char ' ' ++ Output.identifier t
  | none => []

theorem print_eq (compact : Bool) (a : Attr V) :
    print compact a = call "attr"
      (identifier a.name ++ printType a.type? ++ Sequence.printFallback compact a.fallback?) :=
  rfl

theorem trails_printType {t? : Option String} (h : ∀ t ∈ t?, t = "%" ∨ IsName t) :
    Trails (printType t?) := by
  have hpercent : Trails (text " %") :=
    (trails_space (solid_text (s := "%") (by decide)).neat).of_chars (by simp)
  unfold printType
  split
  · exact hpercent
  · next t hne =>
    rcases h t rfl with rfl | hname
    · exact absurd rfl hne
    · exact trails_space (solid_identifier hname.nonempty).neat
  · exact trails_nil

theorem Good.solid (hV : Lawful V good) {a : Attr V} (h : a.Good good) : PrintsSolid a := by
  intro compact
  have hhead : Neat (identifier a.name ++ printType a.type?) :=
    (solid_identifier h.name.nonempty).neat.append (trails_printType h.type)
  have hclosed := Sequence.closed_printFallback hV hhead.1 h.fallback compact
  rw [print_eq]
  exact solid_enclosing (by decide) hclosed

theorem steadyHead_read (hV : Lawful V good) : SteadyHead (Good good) (read : Reader (Attr V)) := by
  apply steadyHead_call
  apply steady_ident.bind
  intro name hname
  have htype : Steady (fun t => t = "%" ∨ IsName t) (expect typeOf?) := by
    refine .expectLike fun t s ht h => ?_
    cases t <;> try cases h
    · exact .inr ht
    · next c =>
      unfold typeOf? at h
      split at h
      · next h' => cases h'
      · cases h
        exact .inl rfl
      · cases h
  apply htype.attempt.bind
  intro type? h
  apply (Sequence.steady_readFallback hV).bind
  intro _ hfallback
  exact .pure ⟨hname, h, hfallback⟩

end Attr

namespace Env

structure Good (good : V → Prop) (e : Env V) : Prop where
  name : IsName e.name
  fallback : FallbackGood good e.fallback?

theorem Good.solid (hV : Lawful V good) {e : Env V} (h : e.Good good) : PrintsSolid e := by
  intro compact
  have hindices : Trails (e.indices.flatMap fun i => char ' ' ++ print compact i) :=
    trails_flatMap fun i _ => trails_space (prints_int i compact).neat
  have hhead := (solid_identifier h.name.nonempty).neat.append hindices
  have hclosed := Sequence.closed_printFallback hV hhead.1 h.fallback compact
  exact solid_enclosing (by decide) hclosed

theorem steadyHead_read (hV : Lawful V good) : SteadyHead (Good good) (read : Reader (Env V)) := by
  apply steadyHead_call
  apply steady_ident.bind
  intro _ hname
  apply steady_integer.many.bind
  intro _ _
  apply (Sequence.steady_readFallback hV).bind
  intro _ hfallback
  exact .pure ⟨hname, hfallback⟩

end Env

namespace Var

structure Good (good : V → Prop) (v : Var V) : Prop where
  dashed : isDashed v.name.name = true
  name : IsName v.name.name
  fallback : FallbackGood good v.fallback?

theorem Good.solid (hV : Lawful V good) {v : Var V} (h : v.Good good) : PrintsSolid v := by
  intro compact
  have hhead : Neat (print compact v.name) := (prints_dashedIdent v.name compact).neat
  have hclosed := Sequence.closed_printFallback hV hhead.1 h.fallback compact
  exact solid_enclosing (by decide) hclosed

theorem steadyHead_read (hV : Lawful V good) : SteadyHead (Good good) (read : Reader (Var V)) := by
  apply steadyHead_call
  apply steady_dashedName.bind
  intro _ hname
  apply (Sequence.steady_readFallback hV).bind
  intro _ hfallback
  exact .pure ⟨hname.1, hname.2, hfallback⟩

end Var

/-! Transforms and filters. -/

theorem isFunctionName_transformName (t : TransformName) :
    isFunctionName (Keyword.name t) = true := by
  cases t <;> decide

theorem isFunctionName_filterName (f : FilterName) : isFunctionName (Keyword.name f) = true := by
  cases f <;> decide

namespace Transform

structure Good (good : V → Prop) (t : Transform V) : Prop where
  arity : (argumentCount t.arguments < t.name.arity.1 ||
    t.name.arity.2 < argumentCount t.arguments) = false
  arguments : Sequence.Bracketed good t.arguments

theorem Good.solid (hV : Lawful V good) {t : Transform V} (h : t.Good good) : PrintsSolid t := by
  intro compact
  have hclosed := Sequence.closed_print hV h.arguments compact
  exact solid_enclosing (isFunctionName_transformName t.name) hclosed

theorem steadyHead_read (hV : Lawful V good) :
    SteadyHead (Good good) (read : Reader (Transform V)) := by
  intro r r'
  refine Twin.place fun l l' => ?_
  apply (Twin.expectAny _).bind
  intro name _
  apply (Sequence.steady_read hV).block.bind
  intro arguments h
  refine .unlessFailAt fun harity => .pure ?_
  exact ⟨by simpa using harity, h⟩

end Transform

namespace Filter

structure Good (good : V → Prop) (f : Filter V) : Prop where
  admitted : f.name.admits f.arguments = true
  arguments : Sequence.Bracketed good f.arguments

theorem Good.solid (hV : Lawful V good) {f : Filter V} (h : f.Good good) : PrintsSolid f := by
  intro compact
  have hclosed := Sequence.closed_print hV h.arguments compact
  exact solid_enclosing (isFunctionName_filterName f.name) hclosed

theorem steadyHead_read (hV : Lawful V good) :
    SteadyHead (Good good) (read : Reader (Filter V)) := by
  intro r r'
  refine Twin.place fun l l' => ?_
  apply (Twin.expectAny _).bind
  intro name _
  apply (Sequence.steady_read hV).block.bind
  intro arguments h
  refine .unlessFailAt fun hadmits => .pure ?_
  exact ⟨by simpa using hadmits, h⟩

end Filter

end StyleGrammar

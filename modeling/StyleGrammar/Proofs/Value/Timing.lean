import StyleGrammar.Proofs.Value.Calculations
import StyleGrammar.Value.Easing
import StyleGrammar.Value.Timeline

/-!
# Easing functions and timelines are read steadily
-/

namespace StyleGrammar

open Reader Output

instance : PlainKeyword StepPosition := ⟨fun p => by cases p <;> decide⟩

instance : PlainKeyword ScrollAxis := ⟨fun a => by cases a <;> decide⟩

instance : PlainKeyword Scroller := ⟨fun s => by cases s <;> decide⟩

theorem CubicBezier.prints (c : CubicBezier) : PrintsSolid c := fun compact =>
  solid_call (by decide)
    (tidy_separatedPrints (separates_comma compact) compact fun v _ => (prints_single v).neat)

theorem CubicBezier.steadyHead_read : SteadyHead PrintsSolid (read : Reader CubicBezier) := by
  apply steadyHead_call
  refine Twin.place fun l l' => ?_
  apply steady_single.bind
  intro x1 _
  apply steady_comma.bind
  intro _ _
  apply steady_single.bind
  intro y1 _
  apply steady_comma.bind
  intro _ _
  apply steady_single.bind
  intro x2 _
  apply steady_comma.bind
  intro _ _
  apply steady_single.bind
  intro y2 _
  exact .unlessFailAt fun _ => .pure (prints _)

theorem Steps.prints (s : Steps) : PrintsSolid s := by
  obtain ⟨count, position?⟩ := s
  intro compact
  refine solid_call (by decide) ((prints_int count compact).neat.append ?_).1
  cases position? with
  | none => exact trails_nil
  | some p => exact trails_comma compact (prints_keyword p compact).neat

theorem Steps.steadyHead_read : SteadyHead PrintsSolid (read : Reader Steps) := by
  have hposition : Steady PrintsSolid readPosition := steady_comma.bind fun _ _ => steady_keyword
  apply steadyHead_call
  refine Twin.place fun l l' => ?_
  apply steady_int.bind
  intro count _
  apply hposition.attempt.bind
  intro position? _
  exact .unlessFailAt fun _ => .pure (prints _)

theorem LinearStop.prints (s : LinearStop) : PrintsNeat s := fun compact =>
  (prints_single s.value compact).neat.append
    (trails_flatMap fun t _ => trails_space (prints_percentage t compact).neat)

theorem LinearStop.steady_read : Steady PrintsNeat (read : Reader LinearStop) := by
  apply steady_percentage.attempt.bind
  intro before? _
  apply steady_single.bind
  intro value _
  have hsecond (first? : Option Percentage) : Steady PrintsNeat (do
      let second? : Option Percentage ← if first?.isSome then attempt read else pure none
      return (⟨value, first?.toList ++ second?.toList⟩ : LinearStop)) :=
    .ite (fun _ => steady_percentage.attempt.bind fun _ _ => .pure (prints _)) fun _ =>
      .pure (prints _)
  exact .ite (fun _ => hsecond before?) fun _ =>
    steady_percentage.attempt.bind fun first? _ => hsecond first?

theorem Linear.steadyHead_read : SteadyHead PrintsSolid (read : Reader Linear) := fun _ _ =>
  (Twin.functionNamed _).bind fun _ _ => LinearStop.steady_read.commaSeparated.block.bind
    fun _ h => .pure fun compact => solid_call (by decide)
      (tidy_separatedPrints (separates_comma compact) compact h.2)

/-! Timelines. -/

theorem steady_readEitherOrder {α β : Type} {good : α → Prop} {good' : β → Prop} {p : Reader α}
    {q : Reader β} (hp : Steady good p) (hq : Steady good' q) :
    Steady (fun x => (∀ a ∈ x.1, good a) ∧ ∀ b ∈ x.2, good' b) (readEitherOrder p q) := by
  apply hp.attempt.bind
  intro a? ha
  apply hq.attempt.bind
  intro b? hb
  refine .ite (fun _ => .pure ⟨ha, hb⟩) fun _ => ?_
  exact hp.attempt.bind fun a? ha => .pure ⟨ha, hb⟩

theorem Scroll.steadyHead_read : SteadyHead PrintsSolid (read : Reader Scroll) := by
  apply steadyHead_call
  apply (steady_readEitherOrder steady_keyword steady_keyword).bind
  intro x _
  refine .pure fun compact => solid_call (by decide) (tidy_separated separates_space ?_)
  exact neat_of_mem_append compact (fun a _ => (prints_keyword a).neat) fun b _ =>
    (prints_keyword b).neat

theorem View.steadyHead_read {V : Type} [Term V] {good : V → Prop} (hV : Lawful V good) :
    SteadyHead PrintsSolid (read : Reader (View V)) := by
  have haxis : Steady PrintsSolid (read : Reader ScrollAxis) := steady_keyword
  apply steadyHead_call
  apply haxis.attempt.bind
  intro before? _
  refine ((steady_lengthPercentageOrAuto hV).manyWithin 2).bind fun insets hinsets => ?_
  have hprints (axis? : Option ScrollAxis) : PrintsSolid (⟨axis?, insets⟩ : View V) :=
    fun compact =>
    solid_call (by decide) (tidy_separated separates_space (neat_of_mem_append compact
      (fun a _ => (prints_keyword a).neat) fun m hm => (hinsets m hm).neat))
  exact .ite (fun _ => haxis.attempt.bind fun axis? _ => .pure (hprints axis?)) fun _ =>
    .pure (hprints before?)

end StyleGrammar

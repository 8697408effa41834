import StyleGrammar.Proofs.Value.Substitutions
import StyleGrammar.Value.Counter

/-!
# Counters and references are read steadily
-/

namespace StyleGrammar

open Reader Output

instance : PlainKeyword SymbolsType := ⟨fun t => by cases t <;> decide⟩

instance : PlainKeyword TargetTextPart := ⟨fun p => by cases p <;> decide⟩

theorem Leader.steadyHead_read : SteadyHead PrintsSolid (read : Reader Leader) := by
  have hprints (l : Leader) : PrintsSolid l := fun compact => by
    refine solid_call (by decide) ?_
    cases l with
    | string s => exact (prints_quotation s compact).neat.1
    | dotted => exact (solid_text (by decide)).neat.1
    | solid => exact (solid_text (by decide)).neat.1
    | space => exact (solid_text (by decide)).neat.1
  refine steadyHead_call _ (.orElse (steady_quotation.map fun _ _ => hprints _) ?_)
  exact .expectLike fun _ l _ _ => hprints l

variable {V : Type} [Term V] {good : V → Prop}

/-! Styles. -/

theorem Symbols.prints {s : Symbols V} (h : ∀ x ∈ s.symbols, PrintsSolid x) : PrintsSolid s := by
  obtain ⟨type?, symbols⟩ := s
  intro compact
  refine solid_call (by decide) (tidy_separated separates_space ?_)
  exact neat_of_mem_append compact (fun t _ => (prints_keyword t).neat) fun x hx => (h x hx).neat

theorem trails_printStyle? (compact : Bool) {s? : Option (CounterStyle V)}
    (h : ∀ s ∈ s?, PrintsSolid s) : Trails (CounterStyle.print? compact s?) := by
  cases s? with
  | none => exact trails_nil
  | some s => exact trails_comma compact (h s rfl compact).neat

section Styles

variable (hV : Lawful V good)

include hV

theorem CounterSymbol.steady_read : Steady PrintsSolid (read : Reader (CounterSymbol V)) :=
  .orElse (steady_quotation.map fun _ h => h) ((Image.steady_read hV).map fun _ h => h)

theorem Symbols.steadyHead_read : SteadyHead PrintsSolid (read : Reader (Symbols V)) := by
  apply steadyHead_call
  apply steady_keyword.attempt.bind
  intro type? _
  apply (CounterSymbol.steady_read hV).many.bind
  intro symbols h
  exact .unlessFail fun _ => .pure (prints h)

theorem CounterStyle.steady_read : Steady PrintsSolid (read : Reader (CounterStyle V)) :=
  .orElse ((Symbols.steadyHead_read hV).steady.map fun _ h => h)
    (steady_customIdent.map fun _ h => h)

theorem CounterStyle.steady_read? :
    Steady (fun s? => ∀ s ∈ s?, PrintsSolid s) (read? : Reader (Option (CounterStyle V))) :=
  steady_succeeds_comma.whether ((steady_read hV).map fun _ h => by simpa using h) (.pure (by simp))

/-! Counters. -/

theorem Counter.steadyHead_read : SteadyHead PrintsSolid (read : Reader (Counter V)) :=
  steadyHead_call _ <| steady_customIdent.bind fun _ hname =>
    (CounterStyle.steady_read? hV).bind fun _ h => .pure fun compact =>
      solid_call (by decide) ((hname compact).neat.append (trails_printStyle? compact h)).1

theorem Counters.steadyHead_read : SteadyHead PrintsSolid (read : Reader (Counters V)) := by
  apply steadyHead_call
  apply steady_customIdent.bind
  intro name hname
  apply steady_comma.bind
  intro _ _
  apply steady_quotation.bind
  intro separator hseparator
  apply (CounterStyle.steady_read? hV).bind
  intro _ h
  refine .pure fun compact => solid_call (by decide) ?_
  have hhead := (hname compact).neat.append (trails_comma compact (hseparator compact).neat)
  rw [← List.append_assoc] at hhead
  exact (hhead.append (trails_printStyle? compact h)).1

/-! References. -/

theorem TargetUrl.steady_read : Steady PrintsSolid (read : Reader (TargetUrl V)) := by
  refine .orElse (steady_quotation.map fun _ h => h) (.orElse ?_ ?_)
  · exact (Attr.steadyHead_read hV).steady.map fun _ h => h.solid hV
  · exact steadyHead_urlValue.steady.map fun _ h => h

theorem TargetCounter.steadyHead_read :
    SteadyHead PrintsSolid (read : Reader (TargetCounter V)) := by
  apply steadyHead_call
  apply (TargetUrl.steady_read hV).bind
  intro url hurl
  apply steady_comma.bind
  intro _ _
  apply steady_customIdent.bind
  intro name hname
  apply (CounterStyle.steady_read? hV).bind
  intro _ h
  refine .pure fun compact => solid_call (by decide) ?_
  have hhead := (hurl compact).neat.append (trails_comma compact (hname compact).neat)
  rw [← List.append_assoc] at hhead
  exact (hhead.append (trails_printStyle? compact h)).1

theorem TargetCounters.steadyHead_read :
    SteadyHead PrintsSolid (read : Reader (TargetCounters V)) := by
  apply steadyHead_call
  apply (TargetUrl.steady_read hV).bind
  intro url hurl
  apply steady_comma.bind
  intro _ _
  apply steady_customIdent.bind
  intro name hname
  apply steady_comma.bind
  intro _ _
  apply steady_quotation.bind
  intro separator hseparator
  apply (CounterStyle.steady_read? hV).bind
  intro _ h
  refine .pure fun compact => solid_call (by decide) ?_
  have hname := (hurl compact).neat.append (trails_comma compact (hname compact).neat)
  rw [← List.append_assoc] at hname
  have hhead := hname.append (trails_comma compact (hseparator compact).neat)
  rw [← List.append_assoc] at hhead
  exact (hhead.append (trails_printStyle? compact h)).1

theorem TargetText.steadyHead_read : SteadyHead PrintsSolid (read : Reader (TargetText V)) := by
  apply steadyHead_call
  apply (TargetUrl.steady_read hV).bind
  intro url hurl
  refine steady_succeeds_comma.bind fun more _ => .optional more steady_keyword fun part? _ => ?_
  refine .pure fun compact => solid_call (by decide) ((hurl compact).neat.append ?_).1
  cases part? with
  | none => exact trails_nil
  | some p => exact trails_comma compact (prints_keyword p compact).neat

end Styles

end StyleGrammar

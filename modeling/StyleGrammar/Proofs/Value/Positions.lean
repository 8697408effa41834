import StyleGrammar.Proofs.Value.Colors

/-!
# Positions are read steadily
-/

namespace StyleGrammar

open Reader Output

instance : PlainKeyword HorizontalSide := ⟨fun s => by cases s <;> decide⟩

instance : PlainKeyword VerticalSide := ⟨fun s => by cases s <;> decide⟩

variable {V : Type}

namespace AxisPosition

variable {S : Type}

/-- The measures of a position print solidly. -/
inductive Good [Printable V] : AxisPosition S V → Prop
  | center : Good center
  | offset {m : LengthPercentage V} (h : PrintsSolid m) : Good (offset m)
  | side {s : S} {m? : Option (LengthPercentage V)} (h : ∀ m ∈ m?, PrintsSolid m) :
      Good (side s m?)

variable [Keyword S] [PlainKeyword S]

theorem Good.neat [Printable V] {x : AxisPosition S V} (h : x.Good) : PrintsNeat x := by
  intro compact
  cases h with
  | center => exact (solid_text (by decide)).neat
  | offset h => exact (h compact).neat
  | @side s m? h =>
    have hs := (prints_keyword s compact).neat
    cases m? with
    | none => exact hs
    | some m =>
      have := hs.append (trails_space (h m rfl compact).neat)
      rwa [← List.append_assoc] at this

theorem steady_read [Term V] {good : V → Prop} (hV : Lawful V good) :
    Steady Good (read : Reader (AxisPosition S V)) := by
  have hmeasure := steady_lengthPercentage hV
  refine .orElse ?_ (.orElse ?_ ?_)
  · exact (steady_keywordNamed _).map fun _ _ => .center
  · exact hmeasure.map fun _ h => .offset h
  · apply steady_keyword.bind
    intro s _
    apply hmeasure.attempt.bind
    intro m? hm
    exact .pure (.side hm)

end AxisPosition

namespace Position

def Good [Printable V] (p : Position V) : Prop := p.x.Good ∧ p.y.Good

theorem Good.neat [Printable V] {p : Position V} (h : p.Good) : PrintsNeat p := by
  obtain ⟨x, y⟩ := p
  intro compact
  have hx := h.1.neat compact
  have hy := h.2.neat compact
  have hboth : Neat (print compact x ++ char ' ' ++ print compact y) := by
    rw [List.append_assoc]
    exact hx.append (trails_space hy)
  have hword : Neat (text "top") := (solid_text (by decide)).neat
  have htop : Neat (print compact x ++ text " top " ++ print compact y) :=
    (hx.append (trails_space (hword.append (trails_space hy)))).of_chars (by simp)
  -- the parts that reading puts back are left out
  rcases x with _ | m | ⟨s, _ | m⟩ <;> rcases y with _ | n | ⟨t, _ | n⟩ <;>
    first | exact hx | exact hy | exact hboth | exact htop

variable [Term V] {good : V → Prop}

theorem steady_readAfterCenter (hV : Lawful V good) :
    Steady Good (readAfterCenter : Reader (Position V)) := by
  refine (AxisPosition.steady_read hV).attemptBind (fun y hy => .pure ⟨.center, hy⟩) ?_
  refine (AxisPosition.steady_read hV).attemptBind (fun x hx => .pure ⟨hx, .center⟩) ?_
  exact .pure ⟨.center, .center⟩

theorem steady_readAfterOffset (hV : Lawful V good) {m : LengthPercentage V} (hm : PrintsSolid m) :
    Steady Good (readAfterOffset m) := by
  have hx : (AxisPosition.offset m : HorizontalPosition V).Good := .offset hm
  refine steady_keyword.attemptBind (fun s _ => .pure ⟨hx, .side (by simp)⟩) ?_
  refine (steady_lengthPercentage hV).attemptBind (fun n hn => .pure ⟨hx, .offset hn⟩) ?_
  exact (steady_keywordNamed _).succeeds.bind fun _ _ => .pure ⟨hx, .center⟩

theorem steady_readAfterSide (hV : Lawful V good) (s : HorizontalSide)
    {offset? : Option (LengthPercentage V)} (h : ∀ m ∈ offset?, PrintsSolid m) :
    Steady Good (readAfterSide s offset?) := by
  refine (steady_keywordNamed _).succeeds.whether (.pure ⟨.side h, .center⟩) ?_
  refine steady_keyword.attemptBind (fun t _ => ?_) ?_
  · exact (steady_lengthPercentage hV).attempt.bind fun n? hn => .pure ⟨.side h, .side hn⟩
  · cases offset? with
    | some m => exact .pure ⟨.side (by simp), .offset (h m rfl)⟩
    | none => exact .pure ⟨.side (by simp), .center⟩

theorem steady_readHorizontal (hV : Lawful V good) :
    Steady (fun x => (∀ m ∈ x.1, PrintsSolid m) ∧ x.2.Good)
      (readHorizontal : Reader (Option (LengthPercentage V) × HorizontalPosition V)) := by
  have hmeasure := steady_lengthPercentage hV
  refine hmeasure.attempt.bind fun offset? hoffset => steady_keyword.attemptBind (fun s _ => ?_) ?_
  · exact hmeasure.attempt.bind fun m? hm => .pure ⟨hoffset, .side hm⟩
  · exact (steady_keywordNamed _).bind fun _ _ => .pure ⟨hoffset, .center⟩

theorem steady_read (hV : Lawful V good) : Steady Good (read : Reader (Position V)) := by
  refine (AxisPosition.steady_read hV).attemptBind (fun x hx => ?_) ?_
  · cases hx with
    | center => exact steady_readAfterCenter hV
    | offset h => exact steady_readAfterOffset hV h
    | side h => exact steady_readAfterSide hV _ h
  · refine steady_keyword.bind fun t _ => (steady_readHorizontal hV).attemptBind (fun x hx => ?_) ?_
    · exact .pure ⟨hx.2, .side hx.1⟩
    · exact .pure ⟨.center, .side (by simp)⟩

end Position

end StyleGrammar

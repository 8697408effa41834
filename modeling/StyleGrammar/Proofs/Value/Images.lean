import StyleGrammar.Proofs.Value.Gradients
import StyleGrammar.Proofs.Value.Sequences

/-!
# Images are read steadily
-/

namespace StyleGrammar

open Reader Output

theorem Element.prints (e : Element) : PrintsSolid e := by
  intro compact
  have hname : Solid (char '#' ++ escapedName e.id.toList) := by
    refine solid_word ?_ (by simp)
    simpa using Scan.Word.char (c := '#') (by decide) (Scan.word_name e.id.toList)
  exact (solid_call (show isFunctionName "element" = true by decide) hname.neat.1).of_chars
    (by simp [print, call])

theorem Element.steadyHead_read : SteadyHead PrintsSolid (read : Reader Element) :=
  steadyHead_call _ (.expectLike fun _ _ _ _ => prints _)

variable {V : Type} [Term V] {good : V → Prop}

namespace Paint

structure Good (good : V → Prop) (p : Paint V) : Prop where
  name : IsName p.name
  arguments : Sequence.Bracketed good p.arguments

/-- The arguments are written like a fallback. -/
def arguments? (p : Paint V) : Option (List V) :=
  if p.arguments.isEmpty then none else some p.arguments

theorem print_eq (compact : Bool) (p : Paint V) :
    Printable.print compact p = call "paint"
      (identifier p.name ++ Sequence.printFallback compact p.arguments?) := by
  obtain ⟨name, arguments⟩ := p
  cases arguments <;> rfl

theorem Good.solid (hV : Lawful V good) {p : Paint V} (h : p.Good good) : PrintsSolid p := by
  intro compact
  rw [print_eq]
  refine solid_enclosing (by decide)
    (Sequence.closed_printFallback hV ?_ (fun vs hvs => ?_) compact)
  · exact (solid_identifier h.name.nonempty).neat.1
  · unfold arguments? at hvs
    split at hvs
    · cases hvs
    · cases hvs
      exact h.arguments

theorem steadyHead_read (hV : Lawful V good) :
    SteadyHead (Good good) (read : Reader (Paint V)) := by
  apply steadyHead_call
  apply steady_ident.bind
  intro name hname
  refine (Sequence.steady_readFallback hV).bind fun arguments? h => .pure ⟨hname, ?_⟩
  cases arguments? with
  | none => exact .nil
  | some vs => exact h vs rfl

end Paint

namespace Image

/-! What is printed. -/

theorem trails_printResolution (compact : Bool) (r? : Option Resolution) :
    Trails (printResolution compact r?) := by
  cases r? with
  | none => exact trails_nil
  | some r => exact trails_space (prints_dimension r compact).neat

theorem trails_printFileType (t? : Option String) : Trails (printFileType t?) := by
  cases t? with
  | none => exact trails_nil
  | some t =>
    have htype : Solid (call "type" (quoted t)) := solid_call (by decide) (solid_quoted t).neat.1
    exact (trails_space htype.neat).of_chars (by simp [printFileType, call])

theorem neat_option {image : Image V} (h : PrintsSolid image) (r? : Option Resolution)
    (t? : Option String) : PrintsNeat (⟨image, r?, t?⟩ : ImageSetOption V) := fun compact => by
  have := (h compact).neat.append
    ((trails_printResolution compact r?).append (trails_printFileType t?))
  rwa [← List.append_assoc] at this

theorem printOptions_eq (compact : Bool) (os : List (ImageSetOption V)) :
    printOptions compact os =
      separated (Output.comma compact) (os.map (Printable.print compact)) := by
  induction os with
  | nil => rfl
  | cons o os ih =>
    cases os with
    | nil => rfl
    | cons o' os =>
      change printOption compact o ++ Output.comma compact ++ printOptions compact (o' :: os) = _
      rw [ih]
      rfl

theorem printItems_eq (compact : Bool) (is : List (CrossFadeItem V)) :
    printItems compact is =
      separated (Output.comma compact) (is.map (Printable.print compact)) := by
  induction is with
  | nil => rfl
  | cons i is ih =>
    cases is with
    | nil => rfl
    | cons i' is =>
      change printItem compact i ++ Output.comma compact ++ printItems compact (i' :: is) = _
      rw [ih]
      rfl

theorem solid_imageSet {os : List (ImageSetOption V)} (h : ∀ o ∈ os, PrintsNeat o) :
    PrintsSolid (imageSet os) := fun compact => by
  have htidy := tidy_separatedPrints (separates_comma compact) compact h
  rw [← printOptions_eq] at htidy
  exact solid_call (by decide) htidy

theorem solid_crossFade {is : List (CrossFadeItem V)} (h : ∀ i ∈ is, PrintsNeat i) :
    PrintsSolid (crossFade is) := fun compact => by
  have htidy := tidy_separatedPrints (separates_comma compact) compact h
  rw [← printItems_eq] at htidy
  exact solid_call (by decide) htidy

theorem neat_item {image : Image V} (h : PrintsSolid image) (share? : Option Percentage) :
    PrintsNeat (CrossFadeItem.image image share?) := fun compact =>
  (h compact).neat.append (Color.trails_printShare compact share?)

theorem neat_colorItem {color : Color V} (h : PrintsSolid color) (share? : Option Percentage) :
    PrintsNeat (CrossFadeItem.color color share?) := fun compact =>
  (h compact).neat.append (Color.trails_printShare compact share?)

/-! What is read. -/

variable {inner : Reader (Image V)}

theorem steady_readFileType : Steady (fun _ => True) readFileType :=
  (steadyHead_call "type" steady_string).steady

theorem steady_readOption (hinner : Steady PrintsSolid inner) :
    Steady PrintsNeat (readOption inner) := by
  have himage : Steady PrintsSolid ((fun (s : String) => url ⟨s⟩) <$> string <|> inner) :=
    .orElse (steady_string.map fun s _ => prints_url ⟨s⟩) hinner
  refine himage.bind fun image h => steady_dimension.attemptBind (fun r _ => ?_) ?_
  · exact steady_readFileType.attempt.bind fun t? _ => .pure (neat_option h _ _)
  · apply steady_readFileType.attempt.bind
    intro t? _
    apply steady_dimension.attempt.bind
    intro r? _
    exact .pure (neat_option h _ _)

theorem steadyHead_readSet (hinner : Steady PrintsSolid inner) :
    SteadyHead (fun s => PrintsSolid (imageSet s.options)) (readSet inner) := fun _ _ =>
  (Twin.functionNamed _).bind fun _ _ => (steady_readOption hinner).commaSeparated.block.bind
    fun _ hos => .pure (solid_imageSet hos.2)

theorem steady_readItem (hV : Lawful V good) (hinner : Steady PrintsSolid inner) :
    Steady PrintsNeat (readItem inner) := by
  refine steady_percentage.attempt.bind fun before? _ => ?_
  have hmake : Steady (fun make : Option Percentage → CrossFadeItem V => ∀ p?, PrintsNeat (make p?))
      (CrossFadeItem.image <$> inner <|> CrossFadeItem.color <$> read) :=
    .orElse (hinner.map fun _ h => neat_item h)
      ((Color.steady_read hV).map fun _ h => neat_colorItem h)
  refine hmake.bind fun make hprints => ?_
  cases before? with
  | some p => exact .pure (hprints _)
  | none => exact steady_percentage.attempt.bind fun p? _ => .pure (hprints p?)

theorem steadyHead_readFade (hV : Lawful V good) (hinner : Steady PrintsSolid inner) :
    SteadyHead (fun f => PrintsSolid (crossFade f.items)) (readFade inner) := fun _ _ =>
  (Twin.functionNamed _).bind fun _ _ => (steady_readItem hV hinner).commaSeparated.block.bind
    fun _ his => .pure (solid_crossFade his.2)

theorem steady_readWith (hV : Lawful V good) (hinner : Steady PrintsSolid inner) :
    Steady PrintsSolid (readWith inner) := by
  refine .orElse ?_ (.orElse ?_ (.orElse ?_ (.orElse ?_ (.orElse ?_ ?_))))
  · exact steadyHead_urlValue.steady.map fun _ h => h
  · exact (Gradient.steadyHead_read hV).steady.map fun _ h => h
  · exact (steadyHead_readSet hinner).steady.map fun _ h => h
  · exact (steadyHead_readFade hV hinner).steady.map fun _ h => h
  · exact Element.steadyHead_read.steady.map fun _ h => h
  · exact (Paint.steadyHead_read hV).steady.map fun _ h => h.solid hV

theorem steady_readWithin (hV : Lawful V good) (depth : Nat) :
    Steady PrintsSolid (readWithin depth : Reader (Image V)) := by
  induction depth with
  | zero => exact .fail _
  | succ n ih => exact steady_readWith hV ih

theorem steady_read (hV : Lawful V good) : Steady PrintsSolid (read : Reader (Image V)) := by
  change Steady PrintsSolid readInner
  unfold readInner
  refine Twin.get fun c d hlike => ?_
  have hdepth : Component.depthAll c.rest = Component.depthAll d.rest := by
    rw [← Component.depthAll_bareAll c.rest, hlike.rest.bare, Component.depthAll_bareAll]
  rw [hdepth]
  exact steady_readWithin hV _

end Image

theorem ImageSet.steadyHead_read (hV : Lawful V good) :
    SteadyHead PrintsSolid (read : Reader (ImageSet V)) :=
  Image.steadyHead_readSet (Image.steady_read hV)

theorem CrossFade.steadyHead_read (hV : Lawful V good) :
    SteadyHead PrintsSolid (read : Reader (CrossFade V)) :=
  Image.steadyHead_readFade hV (Image.steady_read hV)

end StyleGrammar

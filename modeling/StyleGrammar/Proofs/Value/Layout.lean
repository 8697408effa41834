import StyleGrammar.Proofs.Value.Sequences
import StyleGrammar.Proofs.Value.Timing
import StyleGrammar.Value.Anchor
import StyleGrammar.Value.Font
import StyleGrammar.Value.Grid

/-!
# Tracks, anchors and glyphs are read steadily
-/

namespace StyleGrammar

open Reader Output Scan

instance : PlainKeyword AnchorDimension := ⟨fun d => by cases d <;> decide⟩

theorem isFunctionName_glyphChoice (c : GlyphChoice) : isFunctionName (Keyword.name c) = true := by
  cases c <;> decide

theorem AlternateGlyph.steadyHead_read : SteadyHead PrintsSolid (read : Reader AlternateGlyph) := by
  refine fun r r' => Twin.place fun l l' => (Twin.expectAny _).bind fun choice _ => ?_
  apply steady_customIdent.commaSeparated.block.bind
  intro names h
  refine .unlessFailAt fun _ => .pure ?_
  exact fun compact => solid_call (isFunctionName_glyphChoice choice)
    (tidy_separatedPrints (separates_comma compact) compact fun n hn => (h.2 n hn).neat)

theorem Add.steadyHead_read : SteadyHead PrintsSolid (read : Reader Add) := fun _ _ =>
  (Twin.functionNamed _).bind fun _ _ => steady_int.block.bind fun _ h => .pure fun compact =>
    solid_call (by decide) (h compact).neat.1

/-! Items with spaces between. -/

/-- What ends the items of a list with spaces between. -/
def itemStops : List Char := [' ', ')', ']']

/-- An output that can stand between spaces. -/
def Spaceable (o : Output) : Prop :=
  (∃ ks, Makes itemStops (chars o) ks) ∧ ∃ c r, chars o = c :: r ∧ Blank c = false

theorem Output.Neat.spaceable {o : Output} (h : Neat o) : Spaceable o := by
  obtain ⟨⟨ks, hks⟩, hbegins⟩ := h
  exact ⟨⟨ks, hks.mono (by decide)⟩, hbegins.shows⟩

theorem spaceable_comma : Spaceable (char ',') := by
  have hcomma : Makes itemStops [','] [.token .comma .start] := Makes.nil.comma
  exact ⟨⟨_, by simpa using hcomma⟩, ',', [], by simp, by decide⟩

theorem spaceable_slash : Spaceable (char '/') := by
  have hslash : Makes itemStops ['/'] [.token (.delim '/') .start] :=
    Makes.nil.slash_of_head (by decide) (by simp)
  exact ⟨⟨_, by simpa using hslash⟩, '/', [], by simp, by decide⟩

theorem spaceable_separated {os : List Output} (h : ∀ o ∈ os, Spaceable o) (hne : os ≠ []) :
    Spaceable (separated (char ' ') os) := by
  fun_induction separated (char ' ') os with
  | case1 => exact absurd rfl hne
  | case2 o => exact h o List.mem_cons_self
  | case3 o os hos ih =>
    obtain ⟨⟨ks, hks⟩, c, r, hshape, hblank⟩ := h o List.mem_cons_self
    obtain ⟨⟨ls, hls⟩, hshows⟩ :=
      ih (fun x hx => h x (List.mem_cons_of_mem o hx)) fun hnil => hos hnil
    refine ⟨⟨ks ++ .blanks .start :: ls, ?_⟩, c,
      r ++ chars (char ' ' ++ separated (char ' ') os), ?_, hblank⟩
    · have := hks.append (hls.blank hshows) (by simp [itemStops]) (List.Subset.refl _)
      simpa using this
    · simp [hshape]

theorem closed_behindComma (compact : Bool) {a o : Output} (ha : Tidy a) (ho : Spaceable o) :
    Closed (a ++ Output.comma compact ++ o) := by
  obtain ⟨ks, hks⟩ := ha
  obtain ⟨⟨ls, hls⟩, hshows⟩ := ho
  have hgap : ∃ ls, Makes itemStops (chars (space compact) ++ chars o) ls := by
    cases compact with
    | true => exact ⟨ls, hls⟩
    | false => exact ⟨_, hls.blank hshows⟩
  obtain ⟨ms, hms⟩ := hgap
  have := hks.append hms.comma (by simp [wordStops]) (by decide)
  exact ⟨_, by simpa [Output.comma, Output.delim] using this.mono (by decide)⟩

variable {V : Type} [Term V] {good : V → Prop}

section Tracks

/-! Tracks. -/

theorem TrackBreadth.prints {b : TrackBreadth V} (h : ∀ m, b = .measure m → PrintsSolid m) :
    PrintsSolid b := by
  intro compact
  cases b with
  | measure m => exact h m rfl compact
  | flex f => exact prints_dimension f compact
  | auto => exact solid_text (by decide)
  | minContent => exact solid_text (by decide)
  | maxContent => exact solid_text (by decide)

theorem TrackBreadth.prints_of_ofName? {s : String} {b : TrackBreadth V} (h : ofName? s = some b) :
    PrintsSolid b := by
  refine prints fun m hm => ?_
  subst hm
  unfold ofName? at h
  split at h
  · cases h
  · split at h
    · cases h
    · split at h <;> cases h

theorem RepeatCount.prints (c : RepeatCount) : PrintsSolid c := by
  intro compact
  cases c with
  | times n => exact prints_int n compact
  | autoFill => exact solid_text (by decide)
  | autoFit => exact solid_text (by decide)

theorem RepeatCount.steady_read : Steady PrintsSolid (read : Reader RepeatCount) := by
  refine Twin.place fun l l' => steady_integer.attemptBind (fun n _ => ?_) ?_
  · exact .ite (fun _ => .failAt l l' _ _) fun _ => .pure (prints _)
  · exact .expectLike fun _ c _ _ => prints c

theorem solid_lineNames {ns : List CustomIdent} (h : ∀ n ∈ ns, PrintsSolid n) :
    PrintsSolid (TrackListItem.lineNames ns : TrackListItem V) := fun compact => by
  obtain ⟨ks, hks⟩ := tidy_separatedPrints separates_space compact fun n hn => (h n hn).neat
  have hshape : chars (print compact (TrackListItem.lineNames ns : TrackListItem V)) =
      '[' :: (chars (separated (char ' ') (ns.map (print compact))) ++ [']']) := by
    simp [print]
  refine solid_of_block (hshape ▸ hks.square (by decide)) ⟨'[', _, hshape, by decide⟩

variable (hV : Lawful V good)

include hV

theorem TrackBreadth.steady_read : Steady PrintsSolid (read : Reader (TrackBreadth V)) := by
  refine .orElse ?_ (.orElse ?_ ?_)
  · exact (steady_lengthPercentage hV).map fun m hm => prints fun _ h => by cases h; exact hm
  · exact steady_dimension.map fun f _ => prints (by simp)
  · refine .expectLike fun t b _ h => ?_
    cases t <;> try cases h
    exact prints_of_ofName? h

theorem MinMax.steadyHead_read : SteadyHead PrintsSolid (read : Reader (MinMax V)) := by
  apply steadyHead_call
  refine Twin.place fun l l' => ?_
  apply (TrackBreadth.steady_read hV).bind
  intro min hmin
  refine .unlessFailAt fun _ => ?_
  apply steady_comma.bind
  intro _ _
  apply (TrackBreadth.steady_read hV).bind
  intro max hmax
  refine .pure fun compact => solid_call (by decide) ?_
  have := (hmin compact).neat.append (trails_comma compact (hmax compact).neat)
  rw [← List.append_assoc] at this
  exact this.1

theorem FitContent.steadyHead_read :
    SteadyHead PrintsSolid (read : Reader (FitContent V)) := fun _ _ =>
  (Twin.functionNamed _).bind fun _ _ => (steady_lengthPercentage hV).block.bind fun _ h =>
    .pure fun compact => solid_call (by decide) (h compact).neat.1

theorem spaceable_track {v : V} (h : good v) (compact : Bool) : Spaceable (print compact v) := by
  rcases hV.solid_or h with hsolid | hleaf | hleaf
  · exact (hsolid compact).neat.spaceable
  · rw [hV.print_leaf v _ compact hleaf]
    exact spaceable_comma
  · rw [hV.print_leaf v _ compact hleaf]
    exact spaceable_slash

theorem TrackListItem.steady_read :
    Steady (fun i => ∀ compact, Spaceable (print compact i)) (read : Reader (TrackListItem V)) := by
  refine Twin.whether (steady_expect_true _).succeeds ?_ ?_
  · refine Twin.map (.of_opened fun r r' => ?_) fun ns hns compact =>
      (solid_lineNames hns compact).neat.spaceable
    exact (steady_customIdent.many.block.before fun c d (h : Opened 125 r r' c d) =>
      h.mono (by decide)).mono (fun _ => id) fun _ _ h => h.opened
  · exact hV.steady.map fun v hv compact => spaceable_track hV hv compact

theorem Repetition.steadyHead_read : SteadyHead PrintsSolid (read : Reader (Repetition V)) := by
  apply steadyHead_call
  apply RepeatCount.steady_read.bind
  intro count hcount
  apply steady_comma.bind
  intro _ _
  apply (TrackListItem.steady_read hV).untilEnd.bind
  intro tracks htracks
  refine .unlessFail fun htrack => ?_
  refine .pure fun compact => solid_enclosing (by decide) ?_
  refine closed_behindComma compact (hcount compact).neat.1
    (spaceable_separated (fun o ho => ?_) ?_)
  · obtain ⟨i, hi, rfl⟩ := List.mem_map.mp ho
    exact htracks i hi compact
  · intro hnil
    have hnil : tracks = [] := List.map_eq_nil_iff.mp hnil
    simp [hnil] at htrack

/-! Anchors. -/

omit hV in
theorem AnchorSize.prints {a : AnchorSize V} (h : ∀ m ∈ a.fallback?, PrintsSolid m) :
    PrintsSolid a := by
  obtain ⟨anchor?, dimension?, fallback?⟩ := a
  intro compact
  refine solid_call (by decide) ?_
  dsimp only
  have hhead : ∀ o ∈ anchor?.toList.map (print compact) ++ dimension?.toList.map (print compact),
      Neat o :=
    neat_of_mem_append compact (fun i _ => (prints_dashedIdent i).neat) fun d _ =>
      (prints_keyword d).neat
  generalize
    anchor?.toList.map (print compact) ++ dimension?.toList.map (print compact) = head at hhead
  cases fallback? with
  | none => exact (tidy_separated separates_space hhead).append trails_nil
  | some m =>
    cases head with
    | nil => exact (h m rfl compact).neat.1
    | cons o os =>
      exact ((neat_separated separates_space hhead (by simp)).append
        (trails_comma compact (h m rfl compact).neat)).1

theorem AnchorSize.steadyHead_read : SteadyHead PrintsSolid (read : Reader (AnchorSize V)) := by
  apply steadyHead_call
  apply (steady_readEitherOrder steady_dashedIdent steady_keyword).bind
  intro x _
  obtain ⟨anchor?, dimension?⟩ := x
  have hfallback (wanted : Bool) : Steady PrintsSolid (do
      let fallback? ← if wanted then some <$> read else pure none
      return (⟨anchor?, dimension?, fallback?⟩ : AnchorSize V)) :=
    .optional wanted (steady_lengthPercentage hV) fun _ h => .pure (prints h)
  refine .ite (fun _ => ?_) fun _ => ?_
  · exact steady_succeeds_comma.bind fun wanted _ => hfallback wanted
  · exact Twin.atEnd.bind fun stop _ => hfallback (!stop)

end Tracks

end StyleGrammar

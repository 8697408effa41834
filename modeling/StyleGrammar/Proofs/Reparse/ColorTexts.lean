import StyleGrammar.Proofs.Reparse.Colors
import StyleGrammar.Proofs.Value.Counters

/-!
# The texts of colors

A color that was read is read back from its own text.  And a color function is
the same color in both notations: with commas between its channels, and with
blanks.
-/

namespace StyleGrammar

open Reader Output Component Scan

variable {V : Type} [Term V] {good : V → Prop}

namespace Color

/-- A color is read back from its own text. -/
theorem readText_of_made (hV : Lawful V good) {compact : Bool} {c : Color V} (h : Made c)
    (hheight : c.height ≤ 60) (hparts : c.PartsReread compact 0) :
    readText (Color V) (textOf compact c) = .ok c := by
  have hlimit : nestingLimit = 128 := rfl
  have hdepth : maxDepth = 129 := rfl
  obtain ⟨k, hk⟩ := exists_shown hV h (by omega) hparts
  obtain ⟨hneat, -, htakes⟩ := hk maxDepth (by omega)
  have hbare : bareAll (ofText (textOf compact c).toList) = [k] := by
    rw [textOf, toList_render]
    exact hneat.makes.bareAll_ofText
  exact run_of_takes hbare
    (((htakes []).before fun _ hc => hc.ahead).after fun _ hc => hc.ahead)

/-! Names of color functions. -/

/-- A name with the letters of the name of a function, in any case. -/
theorem isFunctionName_of_sameName {name other : String} (h : sameName name other = true)
    (hletters : isLettered other = true) (hother : isFunctionName other = true) :
    isFunctionName name = true := by
  have hmap : name.toList.map Char.toLower = other.toList.map Char.toLower := by
    have heq : name.toLower = other.toLower := by simpa [sameName] using h
    rw [← toList_toLower, ← toList_toLower, heq]
  simp only [isLettered, Bool.and_eq_true, List.all_eq_true] at hletters
  have hname : ∀ c ∈ name.toList, c.isAlpha = true := by
    intro c hc
    have hlower : c.toLower ∈ other.toList.map Char.toLower := hmap ▸ List.mem_map_of_mem hc
    obtain ⟨d, hd, heq⟩ := List.mem_map.mp hlower
    rw [← isAlpha_toLower, ← heq, isAlpha_toLower, hletters.2 d hd]
  have hlength : name.toList.length = other.toList.length := by
    simpa using congrArg List.length hmap
  simp only [isFunctionName, isCallable, Bool.and_eq_true, bne_iff_ne, List.all_eq_true] at hother ⊢
  refine ⟨⟨?_, fun c hc => isPlain_of_isAlpha (hname c hc)⟩, hmap ▸ hother.2⟩
  cases hs : name.toList with
  | nil =>
    rw [hs, List.length_nil, eq_comm, List.length_eq_zero_iff] at hlength
    simp [hlength] at hletters
  | cons c r => simpa using hname c (hs ▸ List.mem_cons_self)

theorem isFunctionName_of_ofFunction? {name : String} {space : ColorSpace}
    (h : ColorSpace.ofFunction? name = some space) : isFunctionName name = true := by
  unfold ColorSpace.ofFunction? at h
  split at h
  · next hsame => exact isFunctionName_of_sameName hsame (by decide) (by decide)
  split at h
  · next hsame => exact isFunctionName_of_sameName hsame (by decide) (by decide)
  · have hsame : sameName (Keyword.name space) name = true := by simpa using List.find?_some h
    have hback : sameName name (Keyword.name space) = true := by
      simp only [sameName, beq_iff_eq] at hsame ⊢
      exact hsame.symm
    exact isFunctionName_of_sameName hback (by cases space <;> decide)
      (isFunctionName_colorSpace space)

/-! The two notations. -/

/-- The text of a channel: at its end nothing is open that draws in what follows. -/
structure ChannelText (n : Nat) (s : String) (c : ColorChannel V) : Prop where
  reads : ReadsAs n s c
  closed : ∃ ds, Keeps [' ', ',', ')'] s.toList ds

theorem ChannelText.exists_component (hV : Lawful V good) {n : Nat} {s : String}
    {c : ColorChannel V}
    (h : ChannelText n s c) : ∃ k, Keeps [' ', ',', ')'] s.toList [k] ∧ ReadAt n c k := by
  obtain ⟨ds, hds⟩ := h.closed
  obtain ⟨k, hk, hread⟩ := h.reads.exists_dense (ColorChannel.atHead_read hV)
  rw [hds.dense_eq] at hk
  exact ⟨k, hk ▸ hds, hread⟩

/-- A color function with arguments that are read. -/
theorem readText_function {name : String} {space : ColorSpace}
    (hname : ColorSpace.ofFunction? name = some space) {s : String} {ds : List Component}
    (hs : Keeps [' ', ',', ')'] s.toList ds) {f : ColorFunction V}
    (hread : ∀ inner, Takes (Left 1 ds) (Left 1 []) f (readArguments inner space)) :
    readText (Color V) (name ++ "(" ++ s ++ ")") = .ok (.function f) := by
  obtain ⟨content, hcontent, hmakes⟩ := hs.call (isFunctionName_of_ofFunction? hname) (by decide)
  have htext : (name ++ "(" ++ s ++ ")").toList = name.toList ++ '(' ::
      (s.toList ++ [')']) := by simp
  refine run_of_takes (htext ▸ hmakes.bareAll_ofText) ?_
  have htakes : Takes (Ahead 0 [.block (.function name) .start content .start]) (Stand 0 [])
      (.function f) (readWith (readWithin nestingLimit)) :=
    takes_readWith_function (by decide) hname (by rw [hcontent]; exact hread _)
  exact (htakes.before fun _ hc => hc.ahead).after fun _ hc => hc.ahead

section Notations

variable (hV : Lawful V good) {name : String} {space : ColorSpace}
  (hname : ColorSpace.ofFunction? name = some space) (hspace : space ≠ .color)
  {s₁ s₂ s₃ : String} {c₁ c₂ c₃ : ColorChannel V} (h₁ : ChannelText 1 s₁ c₁)
  (h₂ : ChannelText 1 s₂ c₂)
  (h₃ : ChannelText 1 s₃ c₃) (hfrom : c₁ ≠ .keyword "from")

include hV hname hspace h₁ h₂ h₃ hfrom

/-- The channels between commas, with nothing or an opacity behind them. -/
theorem readText_commas {s : String} {alpha? : Option (ColorChannel V)}
    (halpha : s = "" ∧ alpha? = none ∨ ∃ t a, s = ", " ++ t ∧ alpha? = some a ∧ ChannelText 1 t a) :
    readText (Color V) (name ++ "(" ++ (s₁ ++ ", " ++ s₂ ++ ", " ++ s₃ ++ s) ++ ")") =
      .ok (.function ⟨space, none, none, [c₁, c₂, c₃], alpha?⟩) := by
  obtain ⟨k₁, hk₁, hread₁⟩ := h₁.exists_component hV
  obtain ⟨k₂, hk₂, hread₂⟩ := h₂.exists_component hV
  obtain ⟨k₃, hk₃, hread₃⟩ := h₃.exists_component hV
  obtain ⟨as, has, hlast⟩ : ∃ as, LegacyAlphaFrom 1 alpha? as ∧
      Keeps [' ', ',', ')'] (s₃.toList ++ s.toList) (k₃ :: as) := by
    rcases halpha with ⟨rfl, rfl⟩ | ⟨t, a, rfl, rfl, ht⟩
    · exact ⟨[], rfl, by simpa using hk₃⟩
    · obtain ⟨k, hk, hread⟩ := ht.exists_component hV
      refine ⟨_, ⟨k, rfl, hread⟩, ?_⟩
      simpa using hk₃.append hk.blank.comma (by simp)
  have hbody := hk₁.append ((hk₂.append hlast.blank.comma (by simp)).blank.comma) (by simp)
  refine readText_function hname (s := s₁ ++ ", " ++ s₂ ++ ", " ++ s₃ ++ s) (by simpa using hbody)
    fun inner => ?_
  refine takes_readArguments (s := ⟨[c₁, c₂, c₃], true, alpha?⟩) (.none ?_) (.none hspace)
    (fun count hcount => takes_legacy hread₁ hread₂ hread₃ has ?_) (by simp)
  · exact ColorChannel.fails_from (Takes.left hread₁) hfrom
  · simp at hcount
    omega

/-- The channels between blanks, with nothing or an opacity behind a slash. -/
theorem readText_blanks {s : String} {alpha? : Option (ColorChannel V)}
    (halpha : s = "" ∧ alpha? = none ∨ ∃ t a, s = " / " ++ t ∧ alpha? = some a ∧
    ChannelText 1 t a) :
    readText (Color V) (name ++ "(" ++ (s₁ ++ " " ++ s₂ ++ " " ++ s₃ ++ s) ++ ")") =
      .ok (.function ⟨space, none, none, [c₁, c₂, c₃], alpha?⟩) := by
  obtain ⟨k₁, hk₁, hread₁⟩ := h₁.exists_component hV
  obtain ⟨k₂, hk₂, hread₂⟩ := h₂.exists_component hV
  obtain ⟨k₃, hk₃, hread₃⟩ := h₃.exists_component hV
  obtain ⟨as, has, hlast⟩ : ∃ as, AlphaFrom 1 alpha? as ∧
      Keeps [' ', ',', ')'] (s₃.toList ++ s.toList) (k₃ :: as) := by
    rcases halpha with ⟨rfl, rfl⟩ | ⟨t, a, rfl, rfl, ht⟩
    · exact ⟨[], rfl, by simpa using hk₃⟩
    · obtain ⟨k, hk, hread⟩ := ht.exists_component hV
      refine ⟨_, ⟨k, rfl, hread⟩, ?_⟩
      simpa using hk₃.append hk.blank.slash.blank (by simp)
  have hbody := hk₁.append ((hk₂.append hlast.blank (by simp)).blank) (by simp)
  refine readText_function hname (s := s₁ ++ " " ++ s₂ ++ " " ++ s₃ ++ s) (by simpa using hbody)
    fun inner => ?_
  refine takes_readArguments (s := ⟨[c₁, c₂, c₃], false, alpha?⟩) (.none ?_) (.none hspace)
    (fun count hcount => ?_) (by simp)
  · exact ColorChannel.fails_from (Takes.left hread₁) hfrom
  · have hchannels : List.Forall₂ (ReadAt 1) [c₁, c₂, c₃] [k₁, k₂, k₃] :=
      .cons hread₁ (.cons hread₂ (.cons hread₃ .nil))
    refine takes_modern (s := ⟨[], false, none⟩) hchannels has rfl rfl (by simp) ?_
    simp at hcount ⊢
    omega

end Notations

end Color

/-- The own text of a channel that is reread is the text of a channel. -/
theorem RereadAt.channelText {compact : Bool} {n : Nat} {c : ColorChannel V} (hc : c.Good)
    (h : RereadAt compact n c) : Color.ChannelText n (textOf compact c) c := by
  obtain ⟨⟨ks, -, hmakes⟩, -⟩ := hc.prints compact
  refine ⟨h, dense ks, ?_⟩
  rw [textOf, toList_render]
  exact hmakes.keeps.mono (by decide)

/-- A color is read back from its own text as it is, spaced or compact, if its parts are and colors
nest in it at most 60 deep.  A color function stands for the same color with commas between its
channels and with blanks, whichever of its names it has. -/
theorem readText_color (depth : Nat) (compact : Bool) :
    (∀ c : Color (Nested depth), (∃ s, readText (Color (Nested depth)) s = .ok c) → c.height ≤ 60 →
      c.PartsReread compact 0 → readText (Color (Nested depth)) (textOf compact c) = .ok c) ∧
    ∀ (name : String) (space : ColorSpace), ColorSpace.ofFunction? name = some space →
    space ≠ .color →
      ∀ (s₁ s₂ s₃ : String) (c₁ c₂ c₃ : ColorChannel (Nested depth)), Color.ChannelText 1 s₁ c₁ →
        Color.ChannelText 1 s₂ c₂ → Color.ChannelText 1 s₃ c₃ → c₁ ≠ .keyword "from" →
        let ofAlpha (alpha? : Option (ColorChannel (Nested depth))) : Color (Nested depth) :=
          .function ⟨space, none, none, [c₁, c₂, c₃], alpha?⟩
        (readText (Color (Nested depth)) (name ++ "(" ++ (s₁ ++ ", " ++ s₂ ++ ", " ++ s₃) ++ ")") =
            .ok (ofAlpha none) ∧
          readText (Color (Nested depth)) (name ++ "(" ++ (s₁ ++ " " ++ s₂ ++ " " ++ s₃) ++ ")") =
            .ok (ofAlpha none)) ∧
        ∀ (s : String) (a : ColorChannel (Nested depth)), Color.ChannelText 1 s a →
          readText (Color (Nested depth))
              (name ++ "(" ++ (s₁ ++ ", " ++ s₂ ++ ", " ++ s₃ ++ (", " ++ s)) ++ ")") =
            .ok (ofAlpha (some a)) ∧
          readText (Color (Nested depth))
              (name ++ "(" ++ (s₁ ++ " " ++ s₂ ++ " " ++ s₃ ++ (" / " ++ s)) ++ ")") =
            .ok (ofAlpha (some a)) := by
  have hV := Nested.lawful depth
  constructor
  · rintro c ⟨s, hs⟩ hheight hparts
    exact Color.readText_of_made hV ((Color.steady_made hV).good_of_run hs) hheight hparts
  · intro name space hname hspace s₁ s₂ s₃ c₁ c₂ c₃ h₁ h₂ h₃ hfrom ofAlpha
    refine ⟨⟨?_, ?_⟩, fun s a ha => ⟨?_, ?_⟩⟩
    · have := Color.readText_commas hV hname hspace h₁ h₂ h₃ hfrom (s := "") (.inl ⟨rfl, rfl⟩)
      rwa [String.append_empty] at this
    · have := Color.readText_blanks hV hname hspace h₁ h₂ h₃ hfrom (s := "") (.inl ⟨rfl, rfl⟩)
      rwa [String.append_empty] at this
    · exact Color.readText_commas hV hname hspace h₁ h₂ h₃ hfrom (.inr ⟨s, a, rfl, rfl, ha⟩)
    · exact Color.readText_blanks hV hname hspace h₁ h₂ h₃ hfrom (.inr ⟨s, a, rfl, rfl, ha⟩)

/-- A text of one token is read wherever there is room for another function. -/
theorem ReadsAs.of_flat {α : Type} [Readable α] {s : String} {a : α} (h : readText α s = .ok a)
    (hflat : depthAll (ofText s.toList) = 0) {n : Nat} (hn : n ≤ 126) : ReadsAs n s a :=
  ⟨h, fun hroom => by omega⟩

/-- What the channels of the examples are written as, and that they are read from it. -/
theorem ColorChannel.texts :
    textOf true (.keyword "none" : ColorChannel (Nested 0)) = "none" ∧
      textOf true (.number Single.one : ColorChannel (Nested 0)) = "1" ∧
      readText (ColorChannel (Nested 0)) "none" = .ok (.keyword "none") ∧
      readText (ColorChannel (Nested 0)) "1" = .ok (.number Single.one) ∧
      depthAll (ofText "none".toList) = 0 ∧ depthAll (ofText "1".toList) = 0 := by
  decide +kernel

theorem rereadAt_one {n : Nat} (hn : n ≤ 126) :
    RereadAt true n (.number Single.one : ColorChannel (Nested 0)) := by
  obtain ⟨-, htext, -, hread, -, hflat⟩ := ColorChannel.texts
  rw [RereadAt, htext]
  exact .of_flat hread hflat hn

theorem channelText_none :
    Color.ChannelText 1 "none" (.keyword "none" : ColorChannel (Nested 0)) := by
  have hname : IsName "none" := ((isWord_iff "none").mp (by decide)).name
  have hlower : "none".toLower = "none" := toLower_eq_self (by decide)
  have hgood : (.keyword "none" : ColorChannel (Nested 0)).Good := by
    refine ⟨fun _ => solid_identifier hname.nonempty, ?_⟩
    rintro _ ⟨⟩
    exact ⟨hname, hlower⟩
  obtain ⟨htext, -, hread, -, hflat, -⟩ := ColorChannel.texts
  have hreread : RereadAt true 1 (.keyword "none" : ColorChannel (Nested 0)) := by
    rw [RereadAt, htext]
    exact .of_flat hread hflat (by decide)
  exact htext ▸ hreread.channelText hgood

theorem channelText_one :
    Color.ChannelText 1 "1" (.number Single.one : ColorChannel (Nested 0)) := by
  have hgood : (.number Single.one : ColorChannel (Nested 0)).Good :=
    ⟨fun _ => solid_number _ _, fun _ h => by cases h⟩
  obtain ⟨-, htext, -⟩ := ColorChannel.texts
  exact htext ▸ (rereadAt_one (by decide)).channelText hgood

/-- `rgb(from aqua none 1 none / 1)`, mixed with `aqua`. -/
def mixedAqua : Color (Nested 0) :=
  let one : ColorChannel (Nested 0) := .number Single.one
  let aqua : Color (Nested 0) := .plain (.named "aqua")
  .mix ⟨["lab"], .function
    ⟨.rgb, none, some aqua, [.keyword "none", one, .keyword "none"], some one⟩,
    none, aqua, none⟩

/-- The mix is read back, and `RGBA(none, 1, none, 1)` is `RGBA(none 1 none / 1)`. -/
theorem readText_mixedAqua :
    readText (Color (Nested 0)) "color-mix(in lab,rgb(from aqua none 1 none/1),aqua)" =
      .ok mixedAqua ∧
      textOf true mixedAqua = "color-mix(in lab,rgb(from aqua none 1 none/1),aqua)" ∧
      ∃ c, readText (Color (Nested 0)) "RGBA(none, 1, none, 1)" = .ok c ∧
        readText (Color (Nested 0)) "RGBA(none 1 none / 1)" = .ok c := by
  obtain ⟨hreread, hnotations⟩ := readText_color 0 true
  have htext : textOf true mixedAqua = "color-mix(in lab,rgb(from aqua none 1 none/1),aqua)" := by
    decide +kernel
  have hread : readText (Color (Nested 0))
      "color-mix( in LAB, rgba(from aqua none 1 none / 1), aqua )" =
      .ok mixedAqua := by
    decide +kernel
  refine ⟨?_, htext, ?_⟩
  · rw [← htext]
    refine hreread mixedAqua ⟨_, hread⟩ (by decide) (.mix (.function ?_ ?_ ?_) ?_ .plain ?_)
    · rintro c ⟨⟩
      exact .plain
    · intro c hc
      fin_cases hc
      · trivial
      · exact rereadAt_one (by decide)
      · trivial
    · rintro a ⟨⟩
      exact rereadAt_one (by decide)
    · rintro p ⟨⟩
    · rintro p ⟨⟩
  · have hname : ColorSpace.ofFunction? "RGBA" = some .rgb := by
      have hsame : sameName "RGBA" "rgba" = true := (sameName_eq _ _).trans (by decide)
      rw [Color.ofFunction?_congr hsame]
      decide +kernel
    obtain ⟨-, halpha⟩ := hnotations "RGBA" .rgb hname (by decide) "none" "1" "none" _ _ _
      channelText_none channelText_one channelText_none (by simp)
    have hcommas : "RGBA(none, 1, none, 1)" =
        "RGBA" ++ "(" ++ ("none" ++ ", " ++ "1" ++ ", " ++ "none" ++ (", " ++ "1")) ++ ")" := by
      decide
    have hblanks : "RGBA(none 1 none / 1)" =
        "RGBA" ++ "(" ++ ("none" ++ " " ++ "1" ++ " " ++ "none" ++ (" / " ++ "1")) ++ ")" := by
      decide
    rw [hcommas, hblanks]
    exact ⟨_, halpha "1" _ channelText_one⟩

/-- The blank between two channels belongs to an escape at the end of the first. -/
theorem readText_escapedBlank :
    readText (ColorChannel (Nested 0)) "\\61" = .ok (.keyword "a") ∧
      readText (ColorChannel (Nested 0)) "2" = .ok (.number (Single.ofNat 2)) ∧
      readText (ColorChannel (Nested 0)) "3" = .ok (.number (Single.ofNat 3)) ∧
      (readText (Color (Nested 0)) "rgb(\\61, 2, 3)").toOption.isSome = true ∧
      (readText (Color (Nested 0)) "rgb(\\61 2 3)").toOption.isSome = false := by
  decide +kernel

end StyleGrammar

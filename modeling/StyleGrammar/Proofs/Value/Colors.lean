import StyleGrammar.Proofs.Reader.Takes
import StyleGrammar.Proofs.Value.Calculations

/-!
# Colors are read steadily
-/

namespace StyleGrammar

open Reader Output

variable {V : Type} [Term V] {good : V → Prop}

namespace ColorChannel

/-- A channel prints solidly, and a keyword is a name in lower case. -/
structure Good (c : ColorChannel V) : Prop where
  prints : PrintsSolid c
  keyword : ∀ name, c = .keyword name → IsName name ∧ name.toLower = name

theorem steady_read (hV : Lawful V good) : Steady Good (read : Reader (ColorChannel V)) := by
  refine .orElse ?_ (.orElse ?_ ?_)
  · exact (MathFunction.steadyHead_read hV).steady.map fun _ h => ⟨h, by simp⟩
  · exact steady_dimension.map fun _ h => ⟨h, by simp⟩
  · refine .expectLike fun t c ht h => ?_
    cases t <;> cases h
    · have hname : IsName _ := IsName.toLower ht
      refine ⟨fun _ => solid_identifier hname.nonempty, ?_⟩
      rintro _ ⟨⟩
      exact ⟨hname, toLower_toLower _⟩
    · exact ⟨fun _ => solid_number _ _, by simp⟩
    · exact ⟨prints_percentage _, by simp⟩

end ColorChannel

namespace Color

/-! What is printed. -/

theorem neat_words {os : List Output} (h : ∀ o ∈ os, Neat o) (hne : os ≠ []) : Neat (words os) :=
  neat_separated separates_space h hne

theorem trails_printAlpha {α : Type} [Printable α] (compact : Bool) {a? : Option α}
    (h : ∀ a ∈ a?, PrintsSolid a) : Trails (printAlpha compact a?) := by
  cases a? with
  | none => exact trails_nil
  | some a => exact trails_slash compact (h a rfl compact).neat

theorem trails_printShare (compact : Bool) (p? : Option Percentage) :
    Trails (printShare compact p?) := by
  cases p? with
  | none => exact trails_nil
  | some p => exact trails_space (prints_percentage p compact).neat

theorem isFunctionName_colorSpace (s : ColorSpace) : isFunctionName (Keyword.name s) = true := by
  cases s <;> decide

theorem solid_colorFunction {f : ColorFunction V} (horigin : ∀ c ∈ f.origin?, PrintsSolid c)
    (hpredefined : ∀ n ∈ f.predefined?, n ≠ "") (hchannels : ∀ c ∈ f.channels, PrintsSolid c)
    (hne : f.channels ≠ []) (halpha : ∀ a ∈ f.alpha?, PrintsSolid a) : PrintsSolid f := by
  obtain ⟨space, predefined?, origin?, channels, alpha?⟩ := f
  intro compact
  refine solid_call (isFunctionName_colorSpace space) ?_
  refine ((neat_words ?_ ?_).append (trails_printAlpha compact halpha)).1
  · intro o ho
    rcases List.mem_append.mp ho with ho | ho
    · rcases List.mem_append.mp ho with ho | ho
      · cases origin? with
        | none => cases ho
        | some c =>
          rw [List.mem_singleton.mp ho]
          exact (neat_behindWord "from" (by decide) (horigin c rfl compact).neat).of_chars
            (by simp; rfl)
      · obtain ⟨n, hn, rfl⟩ := List.mem_map.mp ho
        exact (solid_identifier (hpredefined n (by simpa using hn))).neat
    · obtain ⟨c, hc, rfl⟩ := List.mem_map.mp ho
      exact (hchannels c hc compact).neat
  · simp [hne]

theorem solid_mix {m : ColorMix V} (hinterpolation : ∀ n ∈ m.interpolation, n ≠ "")
    (hfirst : PrintsSolid m.first) (hsecond : PrintsSolid m.second) : PrintsSolid m := by
  obtain ⟨interpolation, first, firstShare?, second, secondShare?⟩ := m
  intro compact
  have hin : Solid (text "in") := solid_text (by decide)
  have hnames : Trails (interpolation.flatMap fun n => char ' ' ++ identifier n) :=
    trails_flatMap fun n hn => trails_space (solid_identifier (hinterpolation n hn)).neat
  have hfirst := trails_comma compact
    ((hfirst compact).neat.append (trails_printShare compact firstShare?))
  have hsecond := trails_comma compact
    ((hsecond compact).neat.append (trails_printShare compact secondShare?))
  have hcall := solid_call (show isFunctionName "color-mix" = true by decide)
    (hin.neat.append (hnames.append (hfirst.append hsecond))).1
  refine hcall.of_chars ?_
  change chars (printMix compact _) = _
  simp [printMix, call]
  rfl

theorem solid_lightDark {l : LightDark V} (hlight : PrintsSolid l.light)
    (hdark : PrintsSolid l.dark) :
    PrintsSolid l := by
  obtain ⟨light, dark⟩ := l
  intro compact
  have := (hlight compact).neat.append (trails_comma compact (hdark compact).neat)
  rw [← List.append_assoc] at this
  exact solid_call (by decide) this.1

theorem solid_cmyk {d : DeviceCmyk V} (hfallback : ∀ c ∈ d.fallback?, PrintsSolid c) :
    PrintsSolid d := by
  obtain ⟨cyan, magenta, yellow, black, alpha?, fallback?⟩ := d
  intro compact
  have hinks : Neat (words ([cyan, magenta, yellow, black].map (Printable.print compact))) := by
    refine neat_words (fun o ho => ?_) (by simp)
    obtain ⟨x, -, rfl⟩ := List.mem_map.mp ho
    exact (prints_numberOrPercentage x compact).neat
  have halpha := trails_printAlpha compact fun a (_ : a ∈ alpha?) => prints_numberOrPercentage a
  have htail : Trails (printFallback compact fallback?) := by
    cases fallback? with
    | none => exact trails_nil
    | some c => exact trails_comma compact (hfallback c rfl compact).neat
  have := hinks.append (halpha.append htail)
  rw [← List.append_assoc] at this
  exact solid_call (by decide) this.1

/-! What is read. -/

/-- A name in lower case. -/
def IsLowerName (n : String) : Prop := IsName n ∧ n.toLower = n

/-- What a color function says besides the color that it starts from. -/
structure FunctionGood (f : ColorFunction V) : Prop where
  predefined : ∀ n ∈ f.predefined?, IsLowerName n
  channels : ∀ c ∈ f.channels, c.Good
  alpha : ∀ a ∈ f.alpha?, a.Good
  read : ∃ inner c c', readArguments inner f.space c = .ok (f, c')

/-- The colors that are read. -/
inductive Made : Color V → Prop
  | plain {t : Token} {c : PlainColor} (h : PlainColor.ofToken? t = some c) : Made (.plain c)
  | function {f : ColorFunction V} (h : FunctionGood f) (horigin : ∀ c ∈ f.origin?, Made c) :
      Made (.function f)
  | mix {m : ColorMix V} (hne : m.interpolation ≠ [])
    (hnames : ∀ n ∈ m.interpolation, IsLowerName n)
      (hfirst : Made m.first) (hsecond : Made m.second) : Made (.mix m)
  | lightDark {l : LightDark V} (hlight : Made l.light) (hdark : Made l.dark) : Made (.lightDark l)
  | deviceCmyk {d : DeviceCmyk V} (hfallback : ∀ c ∈ d.fallback?, Made c) : Made (.deviceCmyk d)

/-- What a run over the arguments of a color function passes: a color that is not there, the name of
the space if there is one, and the channels. -/
theorem of_readArguments {inner : Reader (Color V)} {space : ColorSpace} {c c' : Cursor}
    {f : ColorFunction V} (h : readArguments inner space c = .ok (f, c')) :
    f.space = space ∧ 3 ≤ f.channels.length ∧ ∃ c₁ c₂ s,
      (f.origin? = none → c₁ = c ∧ ∃ e, keyword "from" c = .error e) ∧
      (space = .color ∧ (∃ n, ident c₁ = .ok (n, c₂) ∧ f.predefined? = some n.toLower) ∨
        space ≠ .color ∧ f.predefined? = none ∧ c₂ = c₁) ∧
      readChannels (c₂.rest.length + 1) ⟨[], false, none⟩ c₂ = .ok (s, c') ∧
      f.channels = s.channels := by
  have hlast {origin? : Option (Color V)} {predefined? : Option String} {c₂ : Cursor}
      (h : (do
        let s ← readChannels ((← get).rest.length + 1) ⟨[], false, none⟩
        if s.channels.length < 3 then fail .invalidValue
        return (⟨space, predefined?, origin?, s.channels, s.alpha?⟩ : ColorFunction V)) c₂ =
          .ok (f, c')) :
      f.space = space ∧ f.predefined? = predefined? ∧ f.origin? = origin? ∧
        3 ≤ f.channels.length ∧ ∃ s, f.channels = s.channels ∧
          readChannels (c₂.rest.length + 1) ⟨[], false, none⟩ c₂ = .ok (s, c') := by
    obtain ⟨d, c₃, hget, h⟩ := of_bind h
    cases hget
    obtain ⟨s, c₄, hs, h⟩ := of_bind h
    by_cases hlength : s.channels.length < 3
    · rw [if_pos hlength] at h
      cases h
    · rw [if_neg hlength] at h
      cases h
      exact ⟨rfl, rfl, rfl, by simpa using hlength, s, rfl, hs⟩
  have hmid {origin? : Option (Color V)} {c₁ : Cursor} (h : (do
        let predefined? ← if space = .color then (some ·.toLower) <$> ident else pure none
        let s ← readChannels ((← get).rest.length + 1) ⟨[], false, none⟩
        if s.channels.length < 3 then fail .invalidValue
        return ⟨space, predefined?, origin?, s.channels, s.alpha?⟩ : Reader (ColorFunction V)) c₁ =
          .ok (f, c')) :
      f.space = space ∧ f.origin? = origin? ∧ 3 ≤ f.channels.length ∧ ∃ c₂ s,
        (space = .color ∧ (∃ n, ident c₁ = .ok (n, c₂) ∧ f.predefined? = some n.toLower) ∨
          space ≠ .color ∧ f.predefined? = none ∧ c₂ = c₁) ∧
        readChannels (c₂.rest.length + 1) ⟨[], false, none⟩ c₂ = .ok (s, c') ∧
        f.channels = s.channels := by
    by_cases hspace : space = ColorSpace.color
    · rw [if_pos hspace] at h
      obtain ⟨predefined?, c₂, hname, h⟩ := of_bind h
      obtain ⟨n, hn, rfl⟩ := of_map hname
      obtain ⟨h₁, h₂, h₃, h₄, s, hs, hread⟩ := hlast h
      exact ⟨h₁, h₃, h₄, c₂, s, .inl ⟨hspace, n, hn, h₂⟩, hread, hs⟩
    · rw [if_neg hspace] at h
      obtain ⟨predefined?, c₂, hnone, h⟩ := of_bind h
      cases hnone
      obtain ⟨h₁, h₂, h₃, h₄, s, hs, hread⟩ := hlast h
      exact ⟨h₁, h₃, h₄, c₁, s, .inr ⟨hspace, h₂, rfl⟩, hread, hs⟩
  obtain ⟨behind, c₀, hbehind, hrun⟩ := of_bind h
  rcases of_succeeds hbehind with ⟨rfl, -⟩ | ⟨rfl, rfl, hfrom⟩
  · obtain ⟨origin?, c₁, horigin, hrun⟩ := of_bind hrun
    obtain ⟨o, -, rfl⟩ := of_map horigin
    obtain ⟨hspace, ho, hlength, c₂, s, hrest⟩ := hmid hrun
    refine ⟨hspace, hlength, c₁, c₂, s, fun hnone => ?_, hrest⟩
    rw [ho] at hnone
    cases hnone
  · obtain ⟨hspace, -, hlength, c₂, s, hrest⟩ := hmid hrun
    exact ⟨hspace, hlength, c₀, c₂, s, fun _ => ⟨rfl, hfrom⟩, hrest⟩

theorem FunctionGood.three_le {f : ColorFunction V} (h : FunctionGood f) :
    3 ≤ f.channels.length := by
  obtain ⟨inner, c, c', hread⟩ := h.read
  exact (of_readArguments hread).2.1

theorem FunctionGood.predefined_eq_none_iff {f : ColorFunction V} (h : FunctionGood f) :
    f.predefined? = none ↔ f.space ≠ .color := by
  obtain ⟨inner, c, c', hread⟩ := h.read
  obtain ⟨-, -, c₁, c₂, s, -, ⟨hcolor, n, -, hn⟩ | ⟨hcolor, hn, -⟩, -⟩ := of_readArguments hread
  · simp [hcolor, hn]
  · simp [hcolor, hn]

theorem Made.prints {c : Color V} (h : Made c) : PrintsSolid c := by
  induction h with
  | plain h => exact fun compact => prints_plainColor h compact
  | @function f h _ ih =>
    have hlength := h.three_le
    refine solid_colorFunction ih (fun n hn => (h.predefined n hn).1.nonempty)
      (fun c hc => (h.channels c hc).prints) ?_ fun a ha => (h.alpha a ha).prints
    rintro hnil
    simp [hnil] at hlength
  | mix _ hnames _ _ ihfirst ihsecond =>
    exact solid_mix (fun n hn => (hnames n hn).1.nonempty) ihfirst ihsecond
  | lightDark _ _ ihlight ihdark => exact solid_lightDark ihlight ihdark
  | deviceCmyk _ ih => exact solid_cmyk ih

/-- The channels of a color, and its opacity, are good. -/
def Channels.Good (s : Channels V) : Prop :=
  (∀ c ∈ s.channels, c.Good) ∧ ∀ a ∈ s.alpha?, a.Good

theorem steady_readChannels (hV : Lawful V good) (count : Nat) {s : Channels V} (hs : s.Good) :
    Steady Channels.Good (readChannels count s) := by
  induction count generalizing s with
  | zero => exact .pure hs
  | succ n ih =>
    have hchannel := ColorChannel.steady_read hV
    have halpha (legacy : Bool) : Steady Channels.Good (do
        return { s with legacy, alpha? := some (← (read : Reader (ColorChannel V))) }) :=
      hchannel.bind fun a ha => .pure ⟨hs.1, by simpa using ha⟩
    have hnext (legacy : Bool) : Steady Channels.Good (do
        let c : ColorChannel V ← read
        readChannels n { s with channels := s.channels ++ [c], legacy }) := by
      refine hchannel.bind fun c hc => ih ⟨fun x hx => ?_, hs.2⟩
      rcases List.mem_append.mp hx with hx | hx
      · exact hs.1 x hx
      · rwa [List.mem_singleton.mp hx]
    refine Twin.atEnd.whether (.pure hs)
      (.whetherIf _ (steady_delim '/').succeeds (halpha s.legacy) ?_)
    refine .ite (fun _ => ?_) fun _ => hnext s.legacy
    refine steady_succeeds_comma.whether ?_ ?_
    · exact .ite (fun _ => halpha true) fun _ => hnext true
    · exact .unlessFail fun _ => hnext s.legacy

theorem steady_readArguments (hV : Lawful V good) {inner : Reader (Color V)}
    (hinner : Steady Made inner) (space : ColorSpace) :
    Steady (fun f => Made (.function f)) (readArguments inner space) := by
  have hparts : Steady (fun f => (∀ c ∈ f.origin?, Made c) ∧ (∀ n ∈ f.predefined?, IsLowerName n) ∧
      (∀ c ∈ f.channels, c.Good) ∧ ∀ a ∈ f.alpha?, a.Good) (readArguments inner space) := by
    refine (steady_keywordNamed "from").succeeds.bind fun behind _ => ?_
    refine Twin.optional behind hinner fun origin? horigin => ?_
    have hrest (predefined? : Option String) (hpredefined : ∀ n ∈ predefined?, IsLowerName n) :
        Steady (fun f => (∀ c ∈ f.origin?, Made c) ∧ (∀ n ∈ f.predefined?, IsLowerName n) ∧
          (∀ c ∈ f.channels, c.Good) ∧ ∀ a ∈ f.alpha?, a.Good) (do
        let s ← readChannels ((← get).rest.length + 1) ⟨[], false, none⟩
        if s.channels.length < 3 then fail .invalidValue
        return (⟨space, predefined?, origin?, s.channels, s.alpha?⟩ : ColorFunction V)) := by
      refine Twin.get fun c d hlike => ?_
      rw [hlike.rest.length_eq]
      apply (steady_readChannels hV _ ⟨by simp, by simp⟩).bind
      intro s hs
      exact .unlessFail fun _ => .pure ⟨horigin, hpredefined, hs⟩
    refine .ite (fun _ => ?_) fun _ => ?_
    · have hname : Steady (fun o => ∀ n ∈ o, IsLowerName n) ((some ·.toLower) <$> ident) := by
        refine steady_ident.map fun n hn => ?_
        rintro _ ⟨⟩
        exact ⟨hn.toLower, toLower_toLower n⟩
      exact hname.bind hrest
    · have hnone : Steady (fun o => ∀ n ∈ o, IsLowerName n) (pure none : Reader (Option String)) :=
        .pure (by simp)
      exact hnone.bind hrest
  refine hparts.andRead.weaken ?_
  rintro f ⟨⟨horigin, hpredefined, hchannels, halpha⟩, c, c', hread⟩
  rw [← (of_readArguments hread).1] at hread
  exact .function ⟨hpredefined, hchannels, halpha, inner, c, c', hread⟩ horigin

/-- A plain color that a token writes, or a function that prints solidly. -/
inductive SimpleGood : PlainColor ⊕ ColorFunction V → Prop
  | plain {t : Token} {c : PlainColor} (h : PlainColor.ofToken? t = some c) : SimpleGood (.inl c)
  | function {f : ColorFunction V} (h : Made (.function f)) : SimpleGood (.inr f)

theorem twin_plainColor (l l' : Location) (r r' : List Component) (t : Token) :
    Twin (Done r r') (Done r r') (SimpleGood (V := V))
      (match PlainColor.ofToken? t with
        | some c => return .inl c
        | none => failAt l (.unexpectedToken t))
      (match PlainColor.ofToken? t with
        | some c => return .inl c
        | none => failAt l' (.unexpectedToken t)) := by
  split
  · next c hc => exact .pure (.plain hc)
  · exact .failAt l l' _ _

theorem steadyHead_readSimple (hV : Lawful V good) {inner : Reader (Color V)}
    (hinner : Steady Made inner) : SteadyHead SimpleGood (readSimple inner) := by
  intro r r'
  refine Twin.place fun l l' => Twin.nextBind (fun t ht hopen => ?_) fun t ht hclosed => ?_
  · cases t <;> first | exact absurd rfl hopen | exact .failAt l l' _ _ | skip
    next n =>
      dsimp only
      split
      · next space hspace =>
        refine ((steady_readArguments hV hinner space).block.before fun c d
          (h : Opened 125 r r' c d) =>
          h.mono (by decide)).map fun f hf => .function hf
      · exact .failAt l l' _ _
  · have hplain := twin_plainColor (V := V) l l' r r' t
    cases t <;> first | exact hplain | cases hclosed

variable {inner : Reader (Color V)}

theorem steady_readShare (hinner : Steady Made inner) :
    Steady (fun x => Made x.1) (readShare inner) := by
  apply steady_percentage.attempt.bind
  intro before _
  apply hinner.bind
  intro c hc
  cases before with
  | some p => exact .pure hc
  | none => exact steady_percentage.attempt.bind fun _ _ => .pure hc

theorem steadyHead_readMix (hinner : Steady Made inner) :
    SteadyHead (fun m => Made (.mix m)) (readMix inner) := by
  apply steadyHead_call
  apply (steady_keywordNamed "in").bind
  intro _ _
  apply steady_ident.bind
  intro head hhead
  apply steady_ident.many.bind
  intro tail htail
  apply steady_comma.bind
  intro _ _
  apply (steady_readShare hinner).bind
  intro first hfirst
  apply steady_comma.bind
  intro _ _
  apply (steady_readShare hinner).bind
  intro second hsecond
  refine .pure ?_
  refine .mix (by simp) (fun n hn => ?_) hfirst hsecond
  obtain ⟨m, hm, rfl⟩ := List.mem_map.mp hn
  refine ⟨?_, toLower_toLower m⟩
  rcases List.mem_cons.mp hm with rfl | hm
  · exact hhead.toLower
  · exact (htail m hm).toLower

theorem steadyHead_readLightDark (hinner : Steady Made inner) :
    SteadyHead (fun l => Made (.lightDark l)) (readLightDark inner) := by
  apply steadyHead_call
  apply hinner.bind
  intro _ hlight
  apply steady_comma.bind
  intro _ _
  apply hinner.bind
  intro _ hdark
  exact .pure (.lightDark hlight hdark)

theorem steadyHead_readCmyk (hinner : Steady Made inner) :
    SteadyHead (fun d => Made (.deviceCmyk d)) (readCmyk inner) := by
  apply steadyHead_call
  apply steady_numberOrPercentage.bind
  intro cyan _
  apply steady_succeeds_comma.bind
  intro legacy _
  apply steady_numberOrPercentage.bind
  intro magenta _
  refine .required steady_comma (steady_numberOrPercentage.bind fun yellow _ => ?_)
  refine .required steady_comma (steady_numberOrPercentage.bind fun black _ => ?_)
  have hrest (slash : Bool) : Steady (fun d => Made (.deviceCmyk d)) (do
      let alpha? ← if slash then some <$> read else pure none
      let fallback? ← if ← succeeds comma then some <$> inner else pure none
      return (⟨cyan, magenta, yellow, black, alpha?, fallback?⟩ : DeviceCmyk V)) := by
    refine .optional slash steady_numberOrPercentage fun alpha? _ => ?_
    refine steady_succeeds_comma.bind fun more _ => ?_
    exact .optional more hinner fun fallback? hfallback => .pure (.deviceCmyk hfallback)
  refine .ite (fun _ => hrest false) fun _ => ?_
  exact (steady_delim '/').succeeds.bind fun slash _ => hrest slash

theorem twin_readWith (hV : Lawful V good) (hinner : Steady Made inner) (r r' : List Component) :
    Twin (Front 124 r r') (Done r r') Made (readWith inner) (readWith inner) := by
  refine .nestedFront (.orElse ?_ (.orElse ?_ (.orElse ?_ ?_)))
  · exact (steadyHead_readMix hinner r r').map fun _ h => h
  · exact (steadyHead_readLightDark hinner r r').map fun _ h => h
  · exact (steadyHead_readCmyk hinner r r').map fun _ h => h
  · refine (steadyHead_readSimple hV hinner r r').map fun s hs => ?_
    cases hs with
    | plain h => exact .plain h
    | function h => exact h

theorem steady_readWith (hV : Lawful V good) (hinner : Steady Made inner) :
    Steady Made (readWith inner) :=
  .of_front fun r r' => (twin_readWith hV hinner r r').mono (fun _ => id) fun _ _ h => h.opened

theorem steady_readWithin (hV : Lawful V good) (depth : Nat) :
    Steady Made (readWithin depth : Reader (Color V)) := by
  induction depth with
  | zero => exact .fail _
  | succ n ih => exact steady_readWith hV ih

theorem steady_made (hV : Lawful V good) : Steady Made (read : Reader (Color V)) :=
  steady_readWithin hV _

theorem steady_read (hV : Lawful V good) : Steady PrintsSolid (read : Reader (Color V)) :=
  (steady_made hV).weaken fun _ => Made.prints

end Color

section Functions

variable (hV : Lawful V good)

include hV

theorem ColorMix.steadyHead_read : SteadyHead PrintsSolid (read : Reader (ColorMix V)) :=
  fun r r' => (Color.steadyHead_readMix (Color.steady_made hV) r r').weaken fun _ =>
    Color.Made.prints

theorem LightDark.steadyHead_read : SteadyHead PrintsSolid (read : Reader (LightDark V)) :=
  fun r r' =>
    (Color.steadyHead_readLightDark (Color.steady_made hV) r r').weaken fun _ => Color.Made.prints

theorem DeviceCmyk.steadyHead_read : SteadyHead PrintsSolid (read : Reader (DeviceCmyk V)) :=
  fun r r' =>
    (Color.steadyHead_readCmyk (Color.steady_made hV) r r').weaken fun _ => Color.Made.prints

theorem SimpleColor.steadyHead_read :
    SteadyHead
      (fun s => match s with
        | .plain c => ∃ t, PlainColor.ofToken? t = some c
        | .function f => PrintsSolid f)
      (read : Reader (SimpleColor V)) := by
  refine fun r r' => (Color.steadyHead_readSimple hV (Color.steady_made hV) r r').map fun s hs => ?_
  cases hs with
  | plain h => exact ⟨_, h⟩
  | function h => exact h.prints

end Functions

end StyleGrammar

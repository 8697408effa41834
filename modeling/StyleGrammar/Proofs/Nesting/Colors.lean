import StyleGrammar.Proofs.Nesting.Calculations
import StyleGrammar.Value.Color.Basic

/-!
# Colors keep within the limit

Each color inside another is a level of its own.
-/

namespace StyleGrammar

open Reader

variable {V : Type} {good : V → Prop} {free : Token → Bool}

def ColorChannel.Formed (good : V → Prop) : ColorChannel V → Prop
  | math f => f.Formed good
  | _ => True

/-- The values in the channels of a color, and of the colors in it, are good. -/
inductive Color.Formed (good : V → Prop) : Color V → Prop
  | plain (c : PlainColor) : Formed good (plain c)
  | function {f : ColorFunction V} (horigin : ∀ c ∈ f.origin?, Formed good c)
      (hchannels : ∀ c ∈ f.channels, c.Formed good) (halpha : ∀ a ∈ f.alpha?, a.Formed good) :
      Formed good (function f)
  | mix {m : ColorMix V} (hfirst : Formed good m.first) (hsecond : Formed good m.second) :
      Formed good (mix m)
  | lightDark {l : LightDark V} (hlight : Formed good l.light) (hdark : Formed good l.dark) :
      Formed good (lightDark l)
  | deviceCmyk {d : DeviceCmyk V} (hfallback : ∀ c ∈ d.fallback?, Formed good c) :
      Formed good (deviceCmyk d)

variable [Term V]

theorem ColorChannel.bounded_read (hV : ReadsGood good) :
    Bounded free (Formed good) (read : Reader (ColorChannel V)) := by
  refine .orElse ?_ (.orElse ?_ ?_)
  · exact (MathFunction.bounded_read hV).map fun _ h => h
  · exact bounded_dimension.map fun _ _ => trivial
  · refine .expect fun t c h => ?_
    cases t <;> cases h <;> exact ⟨rfl, trivial⟩

namespace Color

/-- The channels that were read so far hold good values. -/
def Channels.Formed (good : V → Prop) (s : Channels V) : Prop :=
  (∀ c ∈ s.channels, c.Formed good) ∧ ∀ a ∈ s.alpha?, a.Formed good

theorem bounded_readChannels (hV : ReadsGood good) (count : Nat) {s : Channels V}
    (hs : s.Formed good) : Bounded free (Channels.Formed good) (readChannels count s) := by
  induction count generalizing s with
  | zero => exact .pure hs
  | succ n ih =>
    have hchannel : Bounded free (ColorChannel.Formed good) read := ColorChannel.bounded_read hV
    have halpha (legacy : Bool) : Bounded free (Channels.Formed good) (do
        return { s with legacy, alpha? := some (← (read : Reader (ColorChannel V))) }) :=
      hchannel.bind fun a ha => .pure ⟨hs.1, by simpa using ha⟩
    have hnext (legacy : Bool) : Bounded free (Channels.Formed good) (do
        let c : ColorChannel V ← read
        readChannels n { s with channels := s.channels ++ [c], legacy }) := by
      refine hchannel.bind fun c hc => ih ⟨fun x hx => ?_, hs.2⟩
      rcases List.mem_append.mp hx with hx | hx
      · exact hs.1 x hx
      · rwa [List.mem_singleton.mp hx]
    refine Bounded.atEnd.whether (.pure hs)
      (.whetherIf _ (bounded_delim '/').succeeds (halpha s.legacy) ?_)
    refine .ite (fun _ => ?_) fun _ => hnext s.legacy
    refine bounded_succeedsComma.whether ?_ ?_
    · exact .ite (fun _ => halpha true) fun _ => hnext true
    · exact .unlessFail (hnext s.legacy)

variable {inner : Reader (Color V)}

theorem bounded_readArguments (hV : ReadsGood good)
    (hinner : ∀ free, Bounded free (Formed good) inner) (space : ColorSpace) :
    Bounded free (fun f => Formed good (.function f)) (readArguments inner space) := by
  refine (bounded_keywordNamed "from").succeeds.bind fun behind _ => ?_
  refine .optional behind (hinner free) fun origin? horigin => ?_
  have hrest (predefined? : Option String) : Bounded free (fun f => Formed good (.function f)) (do
      let s ← readChannels ((← get).rest.length + 1) ⟨[], false, none⟩
      if s.channels.length < 3 then fail .invalidValue
      return (⟨space, predefined?, origin?, s.channels, s.alpha?⟩ : ColorFunction V)) := by
    refine .get fun c => (bounded_readChannels hV _ ⟨by simp, by simp⟩).bind fun s hs => ?_
    exact .unlessFail (.pure (.function horigin hs.1 hs.2))
  refine .ite (fun _ => ?_) fun _ => ?_
  · exact (bounded_ident.map fun _ _ => trivial : Bounded free (fun _ => True) _).bind fun name _ =>
      hrest name
  · exact (Bounded.pure trivial : Bounded free (fun _ => True) _).bind fun name _ => hrest name

/-- A plain color, or a function with good values in it. -/
def SimpleFormed (good : V → Prop) (c : PlainColor ⊕ ColorFunction V) : Prop :=
  ∀ f, c = .inr f → Formed good (.function f)

theorem bounded_readSimple (hV : ReadsGood good)
    (hinner : ∀ free, Bounded free (Formed good) inner) :
    Bounded (fun _ => true) (SimpleFormed good) (readSimple inner) := by
  refine .place fun l => .next (fun t ht => ?_) fun t ht => ?_
  · cases t with
    | function n => cases ht
    | _ =>
      dsimp only
      split
      · exact .pure (by simp [SimpleFormed])
      · exact .failAt _ _
  · cases t with
    | function n =>
      dsimp only
      split
      · next space _ =>
        refine ((bounded_readArguments hV hinner space).block rfl).map fun f hf => ?_
        rintro _ ⟨⟩
        exact hf
      · exact .failAt _ _
    | _ => first | exact .failAt _ _ | cases ht

omit [Term V] in
theorem bounded_readShare (hinner : Bounded free (Formed good) inner) :
    Bounded free (fun x => x.1.Formed good) (readShare inner) := by
  apply bounded_percentage.attempt.bind
  intro before _
  apply hinner.bind
  intro c hc
  cases before with
  | some p => exact .pure hc
  | none => exact bounded_percentage.attempt.bind fun _ _ => .pure hc

omit [Term V] in
theorem bounded_readMix (hinner : ∀ free, Bounded free (Formed good) inner) :
    Bounded (fun _ => true) (fun m => Formed good (.mix m)) (readMix inner) := by
  refine .call _ fun free => ?_
  apply (bounded_keywordNamed _).bind
  intro _ _
  apply bounded_ident.bind
  intro _ _
  apply bounded_ident.many.bind
  intro _ _
  apply Bounded.comma.bind
  intro _ _
  apply (bounded_readShare (hinner free)).bind
  intro first hfirst
  apply Bounded.comma.bind
  intro _ _
  exact (bounded_readShare (hinner free)).bind fun second hsecond => .pure (.mix hfirst hsecond)

omit [Term V] in
theorem bounded_readLightDark (hinner : ∀ free, Bounded free (Formed good) inner) :
    Bounded (fun _ => true) (fun l => Formed good (.lightDark l)) (readLightDark inner) := by
  refine .call _ fun free => ?_
  apply (hinner free).bind
  intro _ hlight
  apply Bounded.comma.bind
  intro _ _
  apply (hinner free).bind
  intro _ hdark
  exact .pure (.lightDark hlight hdark)

omit [Term V] in
theorem bounded_readCmyk (hinner : ∀ free, Bounded free (Formed good) inner) :
    Bounded (fun _ => true) (fun d => Formed good (.deviceCmyk d)) (readCmyk inner) := by
  have hcomma (free : Token → Bool) (legacy : Bool) {f : Unit → Reader (DeviceCmyk V)}
      (hf : Bounded free (fun d => Formed good (.deviceCmyk d)) (f ())) :
      Bounded free (fun d => Formed good (.deviceCmyk d))
        (if legacy = true then comma >>= f else f ()) :=
    .ite (fun _ => Bounded.comma.bind fun _ _ => hf) fun _ => hf
  refine .call _ fun free => ?_
  apply bounded_numberOrPercentage.bind
  intro cyan _
  apply bounded_succeedsComma.bind
  intro legacy _
  apply bounded_numberOrPercentage.bind
  intro magenta _
  refine hcomma free legacy (bounded_numberOrPercentage.bind fun yellow _ => ?_)
  refine hcomma free legacy (bounded_numberOrPercentage.bind fun black _ => ?_)
  have hrest (slash : Bool) : Bounded free (fun d => Formed good (.deviceCmyk d)) (do
      let alpha? : Option NumberOrPercentage ← if slash then some <$> read else pure none
      let fallback? ← if ← succeeds comma then some <$> inner else pure none
      return (⟨cyan, magenta, yellow, black, alpha?, fallback?⟩ : DeviceCmyk V)) := by
    refine .optional slash bounded_numberOrPercentage fun alpha? _ => ?_
    refine bounded_succeedsComma.bind fun more _ =>
      .optional more (hinner free) fun fallback? h => ?_
    exact .pure (.deviceCmyk h)
  refine .ite (fun _ => hrest false) fun _ =>
    (bounded_delim '/').succeeds.bind fun slash _ => hrest slash

theorem bounded_readWith (hV : ReadsGood good)
    (hinner : ∀ free, Bounded free (Formed good) inner) :
    Bounded free (Formed good) (readWith inner) := by
  refine .nested (.orElse ?_ (.orElse ?_ (.orElse ?_ ?_)))
  · exact (bounded_readMix hinner).map fun _ h => h
  · exact (bounded_readLightDark hinner).map fun _ h => h
  · exact (bounded_readCmyk hinner).map fun _ h => h
  · refine (bounded_readSimple hV hinner).map fun x hx => ?_
    cases x with
    | inl c => exact .plain c
    | inr f => exact hx f rfl

theorem bounded_readInner (hV : ReadsGood good) :
    Bounded free (Formed good) (readInner : Reader (Color V)) := by
  have hdepth (depth : Nat) :
      ∀ free, Bounded free (Formed good) (readWithin depth : Reader (Color V)) := by
    induction depth with
    | zero => exact fun _ => .fail _
    | succ n ih => exact fun _ => bounded_readWith hV ih
  exact hdepth _ free

end Color

section Colors

variable (hV : ReadsGood good)

include hV

theorem Color.bounded_read : Bounded free (Formed good) (read : Reader (Color V)) :=
  Color.bounded_readInner hV

theorem ColorMix.bounded_read :
    Bounded (fun _ => true) (fun m => Color.Formed good (.mix m)) (read : Reader (ColorMix V)) :=
  Color.bounded_readMix fun _ => Color.bounded_readInner hV

theorem LightDark.bounded_read :
    Bounded (fun _ => true) (fun l => Color.Formed good (.lightDark l))
      (read : Reader (LightDark V)) :=
  Color.bounded_readLightDark fun _ => Color.bounded_readInner hV

theorem DeviceCmyk.bounded_read :
    Bounded (fun _ => true) (fun d => Color.Formed good (.deviceCmyk d))
      (read : Reader (DeviceCmyk V)) :=
  Color.bounded_readCmyk fun _ => Color.bounded_readInner hV

theorem SimpleColor.bounded_read :
    Bounded (fun _ => true) (fun c => ∀ f, c = .function f → Color.Formed good (.function f))
      (read : Reader (SimpleColor V)) := by
  refine (Color.bounded_readSimple hV fun _ => Color.bounded_readInner hV).map fun x hx => ?_
  cases x with
  | inl c => simp
  | inr f =>
    rintro _ ⟨⟩
    exact hx f rfl

end Colors

end StyleGrammar

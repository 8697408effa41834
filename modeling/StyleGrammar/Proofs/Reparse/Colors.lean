import StyleGrammar.Proofs.Output.Dense
import StyleGrammar.Proofs.Reparse.PlainColors
import StyleGrammar.Proofs.Value.ColorNotation

/-!
# Colors are read back from their own text

A color is one component, and is read from it wherever it stands, if its numbers,
percentages, angles and mathematical functions are.  The proof follows the colors
that stand in each other from the inside out: `height` counts them, and one level
of readers and of the limit on nesting goes with each.
-/

namespace StyleGrammar

open Reader Output Component Scan

variable {V : Type}

namespace Color

mutual

/-- How many colors stand in each other inside a color. -/
def height : Color V → Nat
  | plain _ => 0
  | function f => heightFunction f
  | mix m => heightMix m
  | lightDark l => heightLightDark l
  | deviceCmyk d => heightCmyk d

def heightOf : Option (Color V) → Nat
  | some c => height c + 1
  | none => 0

def heightFunction : ColorFunction V → Nat
  | ⟨_, _, origin?, _, _⟩ => heightOf origin?

def heightMix : ColorMix V → Nat
  | ⟨_, first, _, second, _⟩ => max (height first) (height second) + 1

def heightLightDark : LightDark V → Nat
  | ⟨light, dark⟩ => max (height light) (height dark) + 1

def heightCmyk : DeviceCmyk V → Nat
  | ⟨_, _, _, _, _, fallback?⟩ => heightOf fallback?

end

end Color

variable [Term V] {good : V → Prop}

/-- A channel is reread with `n` functions around it; a keyword is so anyway. -/
def ColorChannel.RereadIn (compact : Bool) (n : Nat) : ColorChannel V → Prop
  | .keyword _ => True
  | c => RereadAt compact n c

namespace Color

/-- The numbers, percentages, angles and mathematical functions of a color are reread where they
stand, with `n` functions around the color. -/
inductive PartsReread (compact : Bool) : Nat → Color V → Prop
  | plain {n : Nat} {c : PlainColor} : PartsReread compact n (.plain c)
  | function {n : Nat} {f : ColorFunction V}
      (horigin : ∀ c ∈ f.origin?, PartsReread compact (n + 1) c)
      (hchannels : ∀ c ∈ f.channels, c.RereadIn compact (n + 1))
      (halpha : ∀ a ∈ f.alpha?, a.RereadIn compact (n + 1)) : PartsReread compact n (.function f)
  | mix {n : Nat} {m : ColorMix V} (hfirst : PartsReread compact (n + 1) m.first)
      (hfirstShare : ∀ p ∈ m.firstShare?, RereadAt compact (n + 1) p)
      (hsecond : PartsReread compact (n + 1) m.second)
      (hsecondShare : ∀ p ∈ m.secondShare?, RereadAt compact (n + 1) p) :
      PartsReread compact n (.mix m)
  | lightDark {n : Nat} {l : LightDark V} (hlight : PartsReread compact (n + 1) l.light)
      (hdark : PartsReread compact (n + 1) l.dark) : PartsReread compact n (.lightDark l)
  | deviceCmyk {n : Nat} {d : DeviceCmyk V} (hcyan : RereadAt compact (n + 1) d.cyan)
      (hmagenta : RereadAt compact (n + 1) d.magenta) (hyellow : RereadAt compact (n + 1) d.yellow)
      (hblack : RereadAt compact (n + 1) d.black)
      (halpha : ∀ a ∈ d.alpha?, RereadAt compact (n + 1) a)
      (hfallback : ∀ c ∈ d.fallback?, PartsReread compact (n + 1) c) :
      PartsReread compact n (.deviceCmyk d)

end Color

/-! Components that something is read from. -/

/-- An output is one component, from which a reader takes something with `n` functions around. -/
structure Shows {α : Type} (p : Reader α) (n : Nat) (a : α) (o : Output) (k : Component) :
    Prop where
  neat : NeatAs o [k]
  solid : k.isSpace = false
  takes : ∀ ls, Takes (Ahead n (k :: ls)) (Stand n ls) a p

variable {α : Type} {p : Reader α} {n : Nat} {a : α} {o : Output} {k : Component}

theorem Shows.neatDense (h : Shows p n a o k) : NeatDense o [k] := h.neat.neatDense h.solid

theorem Shows.left (h : Shows p n a o k) (ls : List Component) :
    Takes (Left n (k :: ls)) (Left n ls) a p :=
  Takes.left h.takes

theorem RereadAt.shows [Readable α] [Printable α] {good : α → Prop}
    (hhead : AtHead good (read : Reader α)) {compact : Bool} (hsolid : Solid (print compact a))
    (h : RereadAt compact n a) : ∃ k, Shows read n a (print compact a) k := by
  obtain ⟨k, hneat, hk, hread⟩ := h.exists_component hhead hsolid
  exact ⟨k, hneat, hk, hread⟩

theorem ColorChannel.shows (hV : Lawful V good) {compact : Bool} {c : ColorChannel V} (hc : c.Good)
    (h : c.RereadIn compact n) : ∃ k, Shows read n c (print compact c) k := by
  cases c with
  | keyword name =>
    obtain ⟨hname, hlower⟩ := hc.keyword name rfl
    have hneat : NeatAs (identifier name) [.token (.ident name) .start] :=
      ⟨makes_identifier hname, (solid_identifier hname.nonempty).2⟩
    refine ⟨_, hneat, rfl, fun ls => ?_⟩
    have hread : Takes (Ahead n (.token (.ident name) .start :: ls)) (Stand n ls)
        (.keyword name.toLower : ColorChannel V) read := ColorChannel.takes_keyword
    rwa [hlower] at hread
  | _ => exact RereadAt.shows (ColorChannel.atHead_read hV) (hc.prints compact) h

theorem Percentage.atHead_read : AtHead (fun _ => True) (read : Reader Percentage) := fun r r' =>
  (atHead_expect _ r r').map fun _ _ => trivial

theorem NumberOrPercentage.atHead_read :
    AtHead (fun _ => True) (read : Reader NumberOrPercentage) := by
  intro r r'
  have hnumber : AtHead (fun _ => True) (read : Reader Single) :=
    show AtHead _ Reader.number from atHead_expect _
  refine .orElse ?_ (.orElse ?_ ?_)
  · exact (hnumber r r').map fun _ _ => trivial
  · exact (Percentage.atHead_read r r').map fun _ _ => trivial
  · exact Twin.next.bind fun _ _ => .fail _

/-- Where each has some companion, all have companions in their order. -/
theorem exists_forall₂ {β γ : Type} {R : β → γ → Prop} {bs : List β} (h : ∀ b ∈ bs, ∃ c, R b c) :
    ∃ cs, List.Forall₂ R bs cs := by
  induction bs with
  | nil => exact ⟨[], .nil⟩
  | cons b bs ih =>
    obtain ⟨c, hc⟩ := h b List.mem_cons_self
    obtain ⟨cs, hcs⟩ := ih fun b' hb' => h b' (List.mem_cons_of_mem b hb')
    exact ⟨c :: cs, .cons hc hcs⟩

namespace Color

variable {compact : Bool}

/-- A color is one component, which any reader that goes deep enough takes. -/
def Shown (compact : Bool) (n : Nat) (c : Color V) (k : Component) : Prop :=
  ∀ depth, c.height < depth → Shows (readWithin depth) n c (print compact c) k

theorem Shown.neatDense {c : Color V} (h : Shown compact n c k) : NeatDense (print compact c) [k] :=
  (h _ (Nat.lt_succ_self _)).neatDense

/-! Color functions. -/

theorem exists_alpha (hV : Lawful V good) {alpha? : Option (ColorChannel V)}
    (hgood : ∀ a ∈ alpha?, a.Good) (h : ∀ a ∈ alpha?, a.RereadIn compact n) :
    ∃ as, TrailsDense (printAlpha compact alpha?) as ∧ AlphaFrom n alpha? as := by
  cases alpha? with
  | none => exact ⟨[], .nil, rfl⟩
  | some a =>
    obtain ⟨k, hk⟩ := ColorChannel.shows hV (hgood a rfl) (h a rfl)
    exact ⟨_, hk.neatDense.behindSlash compact, k, rfl, hk.takes⟩

/-- The color that another starts from, in front of what `from` is no part of. -/
theorem exists_origin {origin? : Option (Color V)} (h : ∀ c ∈ origin?, ∃ k, Shown compact n c k) :
    ∃ dss, List.Forall₂ NeatDense (printOrigin compact origin?) dss ∧
      ∀ ks, (origin? = none → Fails (Left n ks) (Reader.keyword "from")) →
        ∀ depth, heightOf origin? ≤ depth →
          OriginFrom n (readWithin depth) origin? (dss.flatten ++ ks) ks := by
  cases origin? with
  | none => exact ⟨[], .nil, fun ks hfrom depth _ => .none (hfrom rfl)⟩
  | some c =>
    obtain ⟨k, hk⟩ := h c rfl
    have hword : NeatAs (text "from") [.token (.ident "from") .start] :=
      ((isWord_iff "from").mp (by decide)).neatAs
    have hfrom : NeatDense (text "from " ++ print compact c) [.token (.ident "from") .start, k] :=
      ((hword.neatDense rfl).append hk.neatDense.behindSpace).of_chars (by simp)
    refine ⟨[[.token (.ident "from") .start, k]], .cons hfrom .nil, fun ks _ depth hdepth => ?_⟩
    exact .some (hk depth hdepth).takes

theorem exists_predefined {space : ColorSpace} {predefined? : Option String}
    (hname : ∀ n ∈ predefined?, IsLowerName n) (hspace : predefined? = none ↔ space ≠ .color) :
    ∃ dss, List.Forall₂ NeatDense (predefined?.toList.map identifier) dss ∧
      ∀ ks, PredefinedFrom space predefined? (dss.flatten ++ ks) ks := by
  cases predefined? with
  | none => exact ⟨[], .nil, fun ks => .none (hspace.mp rfl)⟩
  | some name =>
    obtain ⟨hname, hlower⟩ := hname name rfl
    have hneat : NeatAs (identifier name) [.token (.ident name) .start] :=
      ⟨makes_identifier hname, (solid_identifier hname.nonempty).2⟩
    refine ⟨[[.token (.ident name) .start]], .cons (hneat.neatDense rfl) .nil, fun ks => ?_⟩
    have hcolor : space = .color := by
      by_contra hne
      cases hspace.mpr hne
    rw [hcolor]
    exact .some hlower

/-- The arguments of a color function are read back. -/
theorem exists_function (hV : Lawful V good) {f : ColorFunction V} (hf : FunctionGood f)
    (horigin : ∀ c ∈ f.origin?, ∃ k, Shown compact n c k)
    (hchannels : ∀ c ∈ f.channels, c.RereadIn compact n)
    (halpha : ∀ a ∈ f.alpha?, a.RereadIn compact n) :
    ∃ content, NeatAs (printFunction compact f)
        [.block (.function (Keyword.name f.space)) .start content .start] ∧
      ∀ depth, heightFunction f ≤ depth →
        Takes (Left n (dense content)) (Left n []) f
          (readArguments (readWithin depth) f.space) := by
  have hstart := hf.notFrom
  have hlength := hf.three_le
  obtain ⟨dss₁, hdss₁, hfrom⟩ := exists_origin horigin
  obtain ⟨dss₂, hdss₂, hpredefined⟩ := exists_predefined hf.predefined hf.predefined_eq_none_iff
  obtain ⟨ks, hks⟩ := exists_forall₂ fun c hc => ColorChannel.shows hV (hf.channels c hc)
    (hchannels c hc)
  obtain ⟨as, has, hafrom⟩ := exists_alpha hV hf.alpha halpha
  obtain ⟨space, predefined?, origin?, channels, alpha?⟩ := f
  have hdss₃ : List.Forall₂ NeatDense (channels.map (Printable.print compact))
      (ks.map fun k => [k]) := by
    rw [List.forall₂_map_left_iff, List.forall₂_map_right_iff]
    exact hks.imp fun _ _ h => h.neatDense
  have hne : printOrigin compact origin? ++ predefined?.toList.map identifier ++
      channels.map (Printable.print compact) ≠ [] := by
    intro hnil
    have hnone : channels = [] := by simpa using (List.append_eq_nil_iff.mp hnil).2
    simp [hnone] at hlength
  have hbody := (NeatDense.separated (List.rel_append (List.rel_append hdss₁ hdss₂) hdss₃)
    hne).append has
  obtain ⟨content, hcontent, hneat⟩ := hbody.call (isFunctionName_colorSpace space)
  refine ⟨content, hneat, fun depth hdepth => ?_⟩
  have hflat : dense content = dss₁.flatten ++ (dss₂.flatten ++ (ks ++ as)) := by
    have hks : (ks.map fun k => [k]).flatten = ks := by
      rw [← List.flatMap_def, List.flatMap_singleton']
    simp [hcontent, hks]
  have hleft := hpredefined (ks ++ as)
  rw [hflat]
  generalize dss₂.flatten ++ (ks ++ as) = ls at hleft
  have hnot : origin? = none → Fails (Left n ls) (Reader.keyword "from") := by
    intro hnone
    have hlower : "from".toLower = "from" := toLower_eq_self (by decide)
    rcases hstart hnone with ⟨-, name, hname, hother⟩ | ⟨-, hnone, x, xs, hxs, hother⟩
    · cases hname
      cases hleft with
      | some h => exact fails_left (by simp [sameName, h, hlower, hother])
    · cases hnone
      cases hxs
      cases hks with
      | cons hx _ =>
        cases hleft with
        | none h => exact ColorChannel.fails_from (hx.left _) hother
  refine takes_readArguments (s := ⟨channels, false, alpha?⟩) (hfrom ls hnot depth hdepth) hleft
    (fun count hcount => ?_) hlength
  have hcount' : channels.length < count := by
    have heq : channels.length = ks.length := hks.length_eq
    rw [List.length_append] at hcount
    omega
  refine takes_modern (s := ⟨[], false, none⟩) (hks.imp fun _ _ h => h.takes) hafrom rfl
    rfl ?_ hcount'
  rintro rfl
  cases hlength

/-! Mixes. -/

theorem wants_readWithin (depth : Nat) :
    Wants (beginsColor · = true) (readWithin depth : Reader (Color V)) := by
  cases depth with
  | zero => exact fun c x hx => by cases hx
  | succ depth => exact wants_readWith _

omit [Term V] in
/-- Where no number stands, no percentage is read. -/
theorem wants_percentage : Wants (beginsMeasure · = true) (read : Reader Percentage) := by
  refine (Wants.expect fun t ht => ?_).map Percentage.mk
  cases t <;> first | rfl | exact absurd rfl ht

theorem exists_share {share? : Option Percentage} (h : ∀ p ∈ share?, RereadAt compact n p) :
    ∃ ks, TrailsDense (printShare compact share?) ks ∧ ∀ ls,
      Fails (Left n ls) (read : Reader Percentage) →
        Takes (Left n (ks ++ ls)) (Left n ls) share? (attempt read) := by
  cases share? with
  | none => exact ⟨[], .nil, fun ls hls => hls.attempt⟩
  | some p =>
    obtain ⟨k, hk⟩ := (h p rfl).shows Percentage.atHead_read (prints_percentage p compact)
    exact ⟨[k], hk.neatDense.behindSpace, fun ls _ => (hk.left ls).attempt⟩

/-- A color and its share. -/
theorem exists_shared {c : Color V} {k : Component} {share? : Option Percentage}
    (hc : Shown compact n c k) (h : ∀ p ∈ share?, RereadAt compact n p) :
    ∃ ks, NeatDense (print compact c ++ printShare compact share?) ks ∧
    ∀ ls depth, c.height < depth →
      Fails (Left n ls) (read : Reader Percentage) →
        Takes (Left n (ks ++ ls)) (Left n ls) (c, share?) (readShare (readWithin depth)) := by
  obtain ⟨ks, hks, hshare⟩ := exists_share h
  refine ⟨k :: ks, hc.neatDense.append hks, fun ls depth hdepth hls => ?_⟩
  have hcolor : Takes (Left n (k :: (ks ++ ls))) (Left n (ks ++ ls)) c (readWithin depth) :=
    (hc depth hdepth).left _
  have hbefore : Fails (Left n (k :: (ks ++ ls))) (read : Reader Percentage) :=
    (wants_readWithin depth).fails wants_percentage
      (fun t ht hmeasure => Measure.not_beginsColor hmeasure ht) hcolor
  exact hbefore.attempt.bind (hcolor.bind ((hshare ls hls).bind (.pure _)))

/-- Names one behind the other, up to a comma. -/
theorem takes_names (names : List String) {ls : List Component} :
    Takes (Left n (names.map (fun m => .token (.ident m) .start) ++ .token .comma .start :: ls))
      (Left n (.token .comma .start :: ls)) names (many ident) := by
  have hwithin {count : Nat} (hcount : names.length ≤ count) :
      Takes (Left n (names.map (fun m => .token (.ident m) .start) ++ .token .comma .start :: ls))
        (Left n (.token .comma .start :: ls)) names (manyWithin ident count) := by
    induction names generalizing count with
    | nil =>
      cases count with
      | zero => exact .pure []
      | succ count =>
        have hcomma : Fails (Left n (.token .comma .start :: ls)) ident := fails_left rfl
        exact hcomma.attempt.bind (.pure [])
    | cons m names ih =>
      cases count with
      | zero => cases hcount
      | succ count =>
        have hident : Takes (Left n (.token (.ident m) .start ::
            (names.map (fun m => .token (.ident m) .start) ++ .token .comma .start :: ls)))
            (Left n (names.map (fun m => .token (.ident m) .start) ++ .token .comma .start :: ls)) m
            ident := takes_left rfl
        exact hident.attempt.bind ((ih (Nat.le_of_succ_le_succ hcount)).bind (.pure _))
  refine Takes.get fun c hc => hwithin ?_
  have := hc.length_le
  simp only [List.length_append, List.length_map] at this
  omega

/-- The arguments of a mix are read back. -/
theorem exists_mix {m : ColorMix V} (hne : m.interpolation ≠ [])
    (hnames : ∀ name ∈ m.interpolation, IsLowerName name)
    {k₁ k₂ : Component} (hfirst : Shown compact n m.first k₁)
    (hsecond : Shown compact n m.second k₂)
    (hfirstShare : ∀ p ∈ m.firstShare?, RereadAt compact n p)
    (hsecondShare : ∀ p ∈ m.secondShare?, RereadAt compact n p) :
    ∃ content, NeatAs (printMix compact m)
        [.block (.function "color-mix") .start content .start] ∧
      ∀ depth, heightMix m ≤ depth → ∀ ls,
        Takes (Ahead n (.block (.function "color-mix") .start content .start :: ls)) (Stand n ls) m
          (readMix (readWithin depth)) := by
  obtain ⟨interpolation, first, firstShare?, second, secondShare?⟩ := m
  obtain ⟨ks₁, hneat₁, hread₁⟩ := exists_shared hfirst hfirstShare
  obtain ⟨ks₂, hneat₂, hread₂⟩ := exists_shared hsecond hsecondShare
  have hin : NeatAs (text "in") [.token (.ident "in") .start] :=
    ((isWord_iff "in").mp (by decide)).neatAs
  have hspaced : TrailsDense (interpolation.flatMap fun m => char ' ' ++ identifier m)
      (interpolation.flatMap fun m => [.token (.ident m) .start]) :=
    .flatMap fun name hname => by
      obtain ⟨hname, -⟩ := hnames name hname
      have hneat : NeatAs (identifier name) [.token (.ident name) .start] :=
        ⟨makes_identifier hname, (solid_identifier hname.nonempty).2⟩
      exact (hneat.neatDense rfl).behindSpace
  obtain ⟨content, hcontent, hneat⟩ := ((hin.neatDense rfl).append (hspaced.append
    ((hneat₁.behindComma compact).append (hneat₂.behindComma compact)))).call
      (show isFunctionName "color-mix" = true by decide)
  refine ⟨content, hneat.of_chars (by simp [printMix, call]), fun depth hdepth ls => ?_⟩
  obtain ⟨head, tail, rfl⟩ := List.exists_cons_of_ne_nil hne
  have hlower : (head :: tail).map String.toLower = head :: tail :=
    (List.map_congr_left fun name hname => (hnames name hname).2).trans (List.map_id _)
  have hbody : Takes (Left n (dense content)) (Left n [])
      (⟨head :: tail, first, firstShare?, second, secondShare?⟩ : ColorMix V) (do
        Reader.keyword "in"
        let head ← ident
        let tail ← many ident
        comma
        let first ← readShare (readWithin depth)
        comma
        let second ← readShare (readWithin depth)
        return ⟨(head :: tail).map String.toLower, first.1, first.2, second.1, second.2⟩) := by
    have hfirst : first.height < depth := by
      simp only [heightMix] at hdepth
      omega
    have hsecond : second.height < depth := by
      simp only [heightMix] at hdepth
      omega
    have hbehind : Takes (Left n ks₂) (Left n []) (second, secondShare?)
        (readShare (readWithin depth)) := by
      have := hread₂ [] depth hsecond (fails_left_end.map Percentage.mk)
      rwa [List.append_nil] at this
    have hcomma : Fails (Left n (.token .comma .start :: ks₂)) (read : Reader Percentage) :=
      (fails_left rfl).map Percentage.mk
    have hshape : dense content = .token (.ident "in") .start :: .token (.ident head) .start ::
        (tail.map (fun m => .token (.ident m) .start) ++ .token .comma .start ::
          (ks₁ ++ .token .comma .start :: ks₂)) := by
      simp [hcontent, ← List.map_eq_flatMap]
    rw [hshape]
    have hhead : Takes (Left n (.token (.ident head) .start ::
        (tail.map (fun m => .token (.ident m) .start) ++ .token .comma .start ::
          (ks₁ ++ .token .comma .start :: ks₂))))
        (Left n (tail.map (fun m => .token (.ident m) .start) ++ .token .comma .start ::
          (ks₁ ++ .token .comma .start :: ks₂))) head ident := takes_left rfl
    refine (takes_word "in").bind (hhead.bind ((takes_names tail).bind
      (takes_comma.bind ((hread₁ _ depth hfirst hcomma).bind
        (takes_comma.bind (hbehind.bind ?_))))))
    rw [hlower]
    exact .pure _
  exact hbody.callLeft (by simp [sameName]) ls

theorem exists_lightDark {l : LightDark V} {k₁ k₂ : Component} (hlight : Shown compact n l.light k₁)
    (hdark : Shown compact n l.dark k₂) :
    ∃ content, NeatAs (printLightDark compact l)
        [.block (.function "light-dark") .start content .start] ∧
      ∀ depth, heightLightDark l ≤ depth → ∀ ls,
        Takes (Ahead n (.block (.function "light-dark") .start content .start :: ls)) (Stand n ls) l
          (readLightDark (readWithin depth)) := by
  obtain ⟨light, dark⟩ := l
  obtain ⟨content, hcontent, hneat⟩ :=
    (hlight.neatDense.append (hdark.neatDense.behindComma compact)).call
      (show isFunctionName "light-dark" = true by decide)
  refine ⟨content, hneat.of_chars (by simp [printLightDark, call]), fun depth hdepth ls => ?_⟩
  simp only [heightLightDark] at hdepth
  have hbody : Takes (Left n (dense content)) (Left n []) (⟨light, dark⟩ : LightDark V) (do
      let light ← readWithin depth
      comma
      let dark ← readWithin depth
      return ⟨light, dark⟩) := by
    rw [hcontent]
    refine ((hlight depth ?_).left _).bind
      (takes_comma.bind (((hdark depth ?_).left _).bind (.pure _)))
    · change light.height < depth
      omega
    · change dark.height < depth
      omega
  exact hbody.callLeft (by simp [sameName]) ls

/-! Inks. -/

/-- Something that a mark announces, or neither. -/
inductive TakesMarked {β : Type} (P : Cursor → Prop) (mark : Reader Unit) (q : Reader β) :
    Option β → (Cursor → Prop) → Prop
  | none (h : Fails P mark) : TakesMarked P mark q none P
  | some {b : β} {Q R : Cursor → Prop} (h : Takes P Q () mark) (hq : Takes Q R b q) :
      TakesMarked P mark q (some b) R

omit [Term V] in
theorem TakesMarked.bind {β γ : Type} {P Q R : Cursor → Prop} {mark : Reader Unit} {q : Reader β}
    {b? : Option β} {f : Option β → Reader γ} {c : γ} (h : TakesMarked P mark q b? Q)
    (hf : Takes Q R c (f b?)) :
    Takes P R c (succeeds mark >>= fun found =>
      if found = true then (Option.some <$> q) >>= f else pure Option.none >>= f) := by
  cases h with
  | none h => exact h.succeeds.bind ((Takes.pure _).bind hf)
  | some h hq => exact h.succeeds.bind ((hq.map _).bind hf)

omit [Term V] in
theorem wants_ink : Wants (beginsMeasure · = true) (read : Reader NumberOrPercentage) := by
  refine .orElse ?_ (.orElse (wants_percentage.map _) .failNext)
  have hnumber : Wants (beginsMeasure · = true) (read : Reader Single) :=
    show Wants _ Reader.number from Wants.expect fun t ht => by
      cases t <;> first | rfl | exact absurd rfl ht
  exact hnumber.map _

omit [Term V] in
theorem exists_ink {x : NumberOrPercentage} (h : RereadAt compact n x) :
    ∃ k, Shows read n x (Printable.print compact x) k :=
  h.shows NumberOrPercentage.atHead_read (prints_numberOrPercentage x compact)

theorem exists_cmyk {d : DeviceCmyk V} (hcyan : RereadAt compact n d.cyan)
    (hmagenta : RereadAt compact n d.magenta) (hyellow : RereadAt compact n d.yellow)
    (hblack : RereadAt compact n d.black) (halpha : ∀ a ∈ d.alpha?, RereadAt compact n a)
    (hfallback : ∀ c ∈ d.fallback?, ∃ k, Shown compact n c k) :
    ∃ content, NeatAs (printCmyk compact d)
        [.block (.function "device-cmyk") .start content .start] ∧
      ∀ depth, heightCmyk d ≤ depth → ∀ ls,
        Takes (Ahead n (.block (.function "device-cmyk") .start content .start :: ls))
          (Stand n ls) d
          (readCmyk (readWithin depth)) := by
  obtain ⟨cyan, magenta, yellow, black, alpha?, fallback?⟩ := d
  obtain ⟨k₁, hk₁⟩ := exists_ink hcyan
  obtain ⟨k₂, hk₂⟩ := exists_ink hmagenta
  obtain ⟨k₃, hk₃⟩ := exists_ink hyellow
  obtain ⟨k₄, hk₄⟩ := exists_ink hblack
  have hinks : List.Forall₂ NeatDense ([cyan, magenta, yellow, black].map (Printable.print compact))
      [[k₁], [k₂], [k₃], [k₄]] :=
    .cons hk₁.neatDense (.cons hk₂.neatDense (.cons hk₃.neatDense (.cons hk₄.neatDense .nil)))
  have hinks := NeatDense.separated hinks (by simp)
  obtain ⟨fs, hfs, hmore⟩ : ∃ fs, TrailsDense (printFallback compact fallback?) fs ∧
      Fails (Left n fs) (delim '/') ∧ ∀ depth, heightOf fallback? ≤ depth →
        TakesMarked (Left n fs) comma (readWithin depth) fallback? (Left n []) := by
    cases fallback? with
    | none => exact ⟨[], .nil, fails_left_end, fun depth _ => .none fails_left_end⟩
    | some c =>
      obtain ⟨k, hk⟩ := hfallback c rfl
      exact ⟨_, hk.neatDense.behindComma compact, fails_left rfl, fun depth hdepth =>
        .some takes_comma ((hk depth hdepth).left [])⟩
  obtain ⟨as, has, hopacity⟩ : ∃ as, TrailsDense (printAlpha compact alpha?) as ∧
      TakesMarked (Left n (as ++ fs)) (delim '/') read alpha? (Left n fs) := by
    cases alpha? with
    | none => exact ⟨[], .nil, .none hmore.1⟩
    | some a =>
      obtain ⟨k, hk⟩ := exists_ink (halpha a rfl)
      exact ⟨_, hk.neatDense.behindSlash compact, .some takes_delim (hk.left fs)⟩
  obtain ⟨content, hcontent, hneat⟩ := ((hinks.append (has.append hfs))).call
    (show isFunctionName "device-cmyk" = true by decide)
  refine ⟨content, hneat.of_chars (by simp [printCmyk, call, words]), fun depth hdepth ls => ?_⟩
  have hbody : Takes (Left n (dense content)) (Left n [])
      (⟨cyan, magenta, yellow, black, alpha?, fallback?⟩ : DeviceCmyk V) (do
        let cyan ← read
        let legacy ← succeeds comma
        let magenta ← read
        if legacy then comma
        let yellow ← read
        if legacy then comma
        let black ← read
        let slash ← if legacy then pure false else succeeds (delim '/')
        let alpha? ← if slash then some <$> read else pure none
        let fallback? ← if ← succeeds comma then some <$> readWithin depth else pure none
        return ⟨cyan, magenta, yellow, black, alpha?, fallback?⟩) := by
    have hshape : dense content = k₁ :: k₂ :: k₃ :: k₄ :: (as ++ fs) := by simp [hcontent]
    have hspaced : Fails (Left n (k₂ :: k₃ :: k₄ :: (as ++ fs))) comma :=
      wants_ink.fails_expect (fun t ht => by cases t <;> first | rfl | cases ht) (hk₂.left _)
    rw [hshape]
    refine (hk₁.left _).bind (hspaced.succeeds.bind ((hk₂.left _).bind ?_))
    simp only [Bool.false_eq_true, if_false]
    exact (hk₃.left _).bind
      ((hk₄.left _).bind (hopacity.bind ((hmore.2 depth hdepth).bind (.pure _))))
  exact hbody.callLeft (by simp [sameName]) ls

/-! Colors of every kind. -/

omit [Term V] in
theorem fails_named {name other : String} (h : sameName name other = false) {β : Type}
    (f : Unit → Reader β) {content ls : List Component} :
    Fails (Ahead n (.block (.function name) .start content .start :: ls))
      (functionNamed other >>= f) :=
  (fails_opener (by simp [h])).bind

theorem takes_readWith_mix (hn : n < nestingLimit) {inner : Reader (Color V)} {m : ColorMix V}
    {k : Component} {ls : List Component}
    (h : Takes (Ahead (n + 1) (k :: ls)) (Stand (n + 1) ls) m (readMix inner)) :
    Takes (Ahead n (k :: ls)) (Stand n ls) (.mix m) (readWith inner) :=
  .nestedAhead hn (h.map mix).orElse

theorem takes_readWith_lightDark (hn : n < nestingLimit) {inner : Reader (Color V)}
    {l : LightDark V}
    {content ls : List Component}
    (h : Takes (Ahead (n + 1) (.block (.function "light-dark") .start content .start :: ls))
      (Stand (n + 1) ls) l (readLightDark inner)) :
    Takes (Ahead n (.block (.function "light-dark") .start content .start :: ls)) (Stand n ls)
      (.lightDark l) (readWith inner) := by
  have hmix : Fails (Ahead (n + 1) (.block (.function "light-dark") .start content .start :: ls))
      (readMix inner) := fails_named (by simp [sameName_eq]) _
  exact .nestedAhead hn ((hmix.map mix).orElse (h.map lightDark).orElse)

theorem takes_readWith_cmyk (hn : n < nestingLimit) {inner : Reader (Color V)} {d : DeviceCmyk V}
    {content ls : List Component}
    (h : Takes (Ahead (n + 1) (.block (.function "device-cmyk") .start content .start :: ls))
      (Stand (n + 1) ls) d (readCmyk inner)) :
    Takes (Ahead n (.block (.function "device-cmyk") .start content .start :: ls)) (Stand n ls)
      (.deviceCmyk d) (readWith inner) := by
  have hother {other : String} (hother : sameName "device-cmyk" other = false) {β : Type}
      (f : Unit → Reader β) :
      Fails (Ahead (n + 1) (.block (.function "device-cmyk") .start content .start :: ls))
        (functionNamed other >>= f) := fails_named hother f
  exact .nestedAhead hn (((hother (by simp [sameName_eq]) _).map mix).orElse
    (((hother (by simp [sameName_eq]) _).map lightDark).orElse (h.map deviceCmyk).orElse))

/-- The space of a function does not depend on the case of its name. -/
theorem ofFunction?_congr {name other : String} (h : sameName name other = true) :
    ColorSpace.ofFunction? name = ColorSpace.ofFunction? other := by
  have hlower : name.toLower = other.toLower := by simpa [sameName] using h
  unfold ColorSpace.ofFunction? Keyword.ofName? sameName
  rw [hlower]

/-- The names of the functions that hold colors belong to no color space. -/
theorem ofFunction?_eq_none {name : String}
    (h : name ∈ ["color-mix", "light-dark", "device-cmyk"]) :
    ColorSpace.ofFunction? name = none := by
  unfold ColorSpace.ofFunction?
  simp only [sameName_eq, keyword_ofName?_eq]
  simp only [List.mem_cons, List.not_mem_nil, or_false] at h
  rcases h with rfl | rfl | rfl <;> decide

theorem takes_readWith_function (hn : n < nestingLimit) {inner : Reader (Color V)} {name : String}
    {space : ColorSpace} (hspace : ColorSpace.ofFunction? name = some space) {f : ColorFunction V}
    {content ls : List Component}
    (h : Takes (Left (n + 1) (dense content)) (Left (n + 1) []) f (readArguments inner space)) :
    Takes (Ahead n (.block (.function name) .start content .start :: ls)) (Stand n ls) (.function f)
      (readWith inner) := by
  have hother {other : String} (hnone : ColorSpace.ofFunction? other = none) {β : Type}
      (g : Unit → Reader β) :
      Fails (Ahead (n + 1) (.block (.function name) .start content .start :: ls))
        (functionNamed other >>= g) := by
    refine fails_named ?_ g
    rw [← Bool.not_eq_true]
    intro hsame
    rw [ofFunction?_congr hsame, hnone] at hspace
    cases hspace
  have hnext : Takes (Ahead (n + 1) (.block (.function name) .start content .start :: ls))
      (Inside (n + 1) content ls) (.function name) next := fun c hc => next_block hc
  have hblock : Takes (Inside (n + 1) content ls) (Stand (n + 1) ls) f
      (block (readArguments inner space)) :=
    ((h.before fun _ hc => hc.left).after fun _ hc => hc.ahead_nil).block
  have hsimple : Takes (Ahead (n + 1) (.block (.function name) .start content .start :: ls))
      (Stand (n + 1) ls) (.inr f : PlainColor ⊕ ColorFunction V) (readSimple inner) := by
    refine Takes.place fun l => hnext.bind ?_
    simp only [hspace]
    exact hblock.map _
  exact .nestedAhead hn (((hother (ofFunction?_eq_none (by simp)) _).map mix).orElse
    (((hother (ofFunction?_eq_none (by simp)) _).map lightDark).orElse
      (((hother (ofFunction?_eq_none (by simp)) _).map deviceCmyk).orElse (hsimple.map _))))

theorem ofFunction?_name (space : ColorSpace) :
    ColorSpace.ofFunction? (Keyword.name space) = some space := by
  unfold ColorSpace.ofFunction?
  rw [keyword_ofName?_eq]
  simp only [sameName_eq]
  cases space <;> decide

/-- A color that was read is one component, which it is read from again. -/
theorem exists_shown (hV : Lawful V good) {c : Color V} (h : Made c)
    (hn : n + c.height < nestingLimit) (hparts : c.PartsReread compact n) :
    ∃ k, Shown compact n c k := by
  induction h generalizing n with
  | @plain t c ht =>
    obtain ⟨t', hneat, ht'⟩ := PlainColor.reads_token ht compact
    refine ⟨_, fun depth hdepth => ⟨hneat, rfl, fun ls => ?_⟩⟩
    obtain ⟨depth, rfl⟩ : ∃ d, depth = d + 1 := ⟨depth - 1, by omega⟩
    exact takes_plain (by omega) ht' _
  | @function f hf _ ih =>
    cases hparts with
    | function horigin hchannels halpha =>
      have hheight {c : Color V} (hc : c ∈ f.origin?) : n + 1 + c.height < nestingLimit := by
        obtain ⟨space, predefined?, origin?, channels, alpha?⟩ := f
        cases hc
        simp only [height, heightFunction, heightOf] at hn
        omega
      obtain ⟨content, hneat, htakes⟩ := exists_function hV hf
        (fun c hc => ih c hc (hheight hc) (horigin c hc)) hchannels halpha
      refine ⟨_, fun depth hdepth => ⟨hneat, rfl, fun ls => ?_⟩⟩
      obtain ⟨depth, rfl⟩ : ∃ d, depth = d + 1 := ⟨depth - 1, by omega⟩
      exact takes_readWith_function (by omega) (ofFunction?_name f.space)
        (htakes depth (Nat.le_of_lt_succ hdepth))
  | @mix m hne hnames _ _ ihfirst ihsecond =>
    cases hparts with
    | mix hfirst hfirstShare hsecond hsecondShare =>
      obtain ⟨interpolation, first, firstShare?, second, secondShare?⟩ := m
      simp only [height, heightMix] at hn
      obtain ⟨k₁, hk₁⟩ := ihfirst (by simp only; omega) hfirst
      obtain ⟨k₂, hk₂⟩ := ihsecond (by simp only; omega) hsecond
      obtain ⟨content, hneat, htakes⟩ := exists_mix hne hnames hk₁ hk₂ hfirstShare hsecondShare
      refine ⟨_, fun depth hdepth => ⟨hneat, rfl, fun ls => ?_⟩⟩
      obtain ⟨depth, rfl⟩ : ∃ d, depth = d + 1 := ⟨depth - 1, by omega⟩
      exact takes_readWith_mix (by omega) (htakes depth (Nat.le_of_lt_succ hdepth) ls)
  | @lightDark l _ _ ihlight ihdark =>
    cases hparts with
    | lightDark hlight hdark =>
      obtain ⟨light, dark⟩ := l
      simp only [height, heightLightDark] at hn
      obtain ⟨k₁, hk₁⟩ := ihlight (by simp only; omega) hlight
      obtain ⟨k₂, hk₂⟩ := ihdark (by simp only; omega) hdark
      obtain ⟨content, hneat, htakes⟩ := exists_lightDark hk₁ hk₂
      refine ⟨_, fun depth hdepth => ⟨hneat, rfl, fun ls => ?_⟩⟩
      obtain ⟨depth, rfl⟩ : ∃ d, depth = d + 1 := ⟨depth - 1, by omega⟩
      exact takes_readWith_lightDark (by omega) (htakes depth (Nat.le_of_lt_succ hdepth) ls)
  | @deviceCmyk d _ ih =>
    cases hparts with
    | deviceCmyk hcyan hmagenta hyellow hblack halpha hfallback =>
      have hheight {c : Color V} (hc : c ∈ d.fallback?) : n + 1 + c.height < nestingLimit := by
        obtain ⟨cyan, magenta, yellow, black, alpha?, fallback?⟩ := d
        cases hc
        simp only [height, heightCmyk, heightOf] at hn
        omega
      obtain ⟨content, hneat, htakes⟩ := exists_cmyk hcyan hmagenta hyellow hblack halpha
        fun c hc => ih c hc (hheight hc) (hfallback c hc)
      refine ⟨_, fun depth hdepth => ⟨hneat, rfl, fun ls => ?_⟩⟩
      obtain ⟨depth, rfl⟩ : ∃ d, depth = d + 1 := ⟨depth - 1, by omega⟩
      exact takes_readWith_cmyk (by omega) (htakes depth (Nat.le_of_lt_succ hdepth) ls)

end Color

end StyleGrammar

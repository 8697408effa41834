import StyleGrammar.Proofs.Value.Calculations

/-!
# Sequences of values, as they are written

The values of a sequence with its brackets are `Bracketed`.  `Spells` relates a
sequence to its components: blanks may stand anywhere between them, each value
is made of its own components, and brackets enclose a sequence.  What a sequence
prints spells it, whatever values stand next to each other.
-/

namespace StyleGrammar

open Reader Output Scan

/-! Blanks at the seams. -/

/-- What can follow a separator inside a sequence: no comment begins behind a slash, and blanks are
spaces. -/
def Follows (s : List Char) : Prop := ∀ c ∈ s.head?, c ≠ '*' ∧ (Blank c = true → c = ' ')

theorem Begins.follows {s : List Char} (h : Begins s) : Follows s := by
  obtain ⟨c, r, rfl, hblank, hstar, -⟩ := h
  intro c' hc
  cases hc
  exact ⟨hstar, by simp [hblank]⟩

theorem follows_cons {c : Char} (s : List Char) (hstar : c ≠ '*')
    (hblank : Blank c = true → c = ' ') :
    Follows (c :: s) := by
  intro c' hc
  cases hc
  exact ⟨hstar, hblank⟩

/-- A blank in front of components is a component of its own, or part of the first. -/
theorem Makes.spaced {s : List Char} {ks : List Component} (h : Makes closers s ks)
    (hs : Follows s) :
    ∃ ls, Makes closers (' ' :: s) ls ∧ (ls = ks ∨ ls = .blanks .start :: ks) := by
  cases s with
  | nil =>
    have hks : ks = [] := by
      have hnil : Makes closers [] [] := .nil
      rw [← h.bareAll_ofText, hnil.bareAll_ofText]
    subst hks
    have hclosers : ∀ c ∈ closers, Blank c = false := by
      intro c hc
      obtain rfl | rfl : c = ')' ∨ c = ']' := by simpa [closers] using hc
      all_goals rfl
    exact ⟨_, .lastBlank hclosers, .inr rfl⟩
  | cons c s =>
    by_cases hblank : Blank c = true
    · obtain rfl := (hs c rfl).2 hblank
      exact ⟨ks, h.blank_blank, .inl rfl⟩
    · exact ⟨_, h.blank ⟨c, s, rfl, by simpa using hblank⟩, .inr rfl⟩

variable {V : Type} [Term V] {good : V → Prop}

namespace Sequence

/-- Sequences in which brackets stand in pairs. -/
inductive Bracketed (good : V → Prop) : List V → Prop
  | nil : Bracketed good []
  | cons {v : V} {vs : List V} (hv : good v) (hvs : Bracketed good vs) : Bracketed good (v :: vs)
  | brackets {vs ws : List V} (hvs : Bracketed good vs) (hws : Bracketed good ws) :
      Bracketed good (delimiter '[' :: vs ++ delimiter ']' :: ws)

theorem Bracketed.append {vs ws : List V} (hvs : Bracketed good vs) (hws : Bracketed good ws) :
    Bracketed good (vs ++ ws) := by
  induction hvs with
  | nil => exact hws
  | cons hv _ ih => exact .cons hv ih
  | brackets hinside _ _ ih =>
    rw [List.append_assoc, List.cons_append]
    exact .brackets hinside ih

/-- The components of a sequence. -/
inductive Spells (R : V → List Component → Prop) : List V → List Component → Prop
  | nil : Spells R [] []
  | blanks {vs : List V} {ks : List Component} (h : Spells R vs ks) :
      Spells R vs (.blanks .start :: ks)
  | value {v : V} {vs : List V} {ls ks : List Component} (hv : R v ls) (h : Spells R vs ks) :
      Spells R (v :: vs) (ls ++ ks)
  | brackets {vs ws : List V} {ks ls : List Component} (hvs : Spells R vs ks)
      (hws : Spells R ws ls) :
      Spells R (delimiter '[' :: vs ++ delimiter ']' :: ws)
        (.block .openSquare .start ks .start :: ls)

/-- How a value of a sequence is written: a comma, a slash, or a text that can stand behind a
separator. -/
inductive Spelled (R : V → List Component → Prop) (compact : Bool) (v : V) : Prop
  | comma (hv : delimiter? v = some ',') (h : R v [.token .comma .start])
  | slash (hv : delimiter? v = some '/') (h : R v [.token (.delim '/') .start])
  | text {ks : List Component} (hv : delimiter? v = none) (h : R v ks)
      (hmakes : Makes wordStops (chars (Printable.print compact v)) ks)
      (hbegins : Begins (chars (Printable.print compact v)))

/-- What is printed behind other values spells a sequence. -/
structure Prints (R : V → List Component → Prop) (compact spaced : Bool) (vs : List V) : Prop where
  spells : ∃ ks, Makes closers (chars (printFrom compact spaced vs)) ks ∧ Spells R vs ks
  follows : Follows (chars (printFrom compact spaced vs))
  apart : spaced = true → Apart wordStops (chars (printFrom compact spaced vs))

variable {R : V → List Component → Prop} {compact : Bool}

theorem Prints.spaced {s : List Char} {vs : List V}
    (h : ∃ ks, Makes closers s ks ∧ Spells R vs ks) (hs : Follows s) :
    ∃ ks, Makes closers (' ' :: s) ks ∧ Spells R vs ks := by
  obtain ⟨ks, hks, hspells⟩ := h
  obtain ⟨ls, hls, rfl | rfl⟩ := hks.spaced hs
  · exact ⟨_, hls, hspells⟩
  · exact ⟨_, hls, hspells.blanks⟩

/-- With a space in front, or none. -/
theorem Prints.gap {s : List Char} {vs : List V} (spaced : Bool)
    (h : ∃ ks, Makes closers s ks ∧ Spells R vs ks) (hs : Follows s) :
    (∃ ks, Makes closers (chars (if spaced then char ' ' else []) ++ s) ks ∧ Spells R vs ks) ∧
      Follows (chars (if spaced then char ' ' else []) ++ s) ∧
      (spaced = true → Apart wordStops (chars (if spaced then char ' ' else []) ++ s)) := by
  cases spaced with
  | true =>
    refine ⟨by simpa using Prints.spaced h hs, ?_, fun _ => by simp [wordStops]⟩
    exact follows_cons s (by decide) fun _ => rfl
  | false => exact ⟨h, hs, by simp⟩

/-- The optional space of a separator. -/
theorem Prints.space (compact : Bool) {s : List Char} {vs : List V}
    (h : ∃ ks, Makes closers s ks ∧ Spells R vs ks)
    (hs : Follows s) :
    (∃ ks, Makes closers (chars (Output.space compact) ++ s) ks ∧ Spells R vs ks) ∧
      Follows (chars (Output.space compact) ++ s) := by
  cases compact with
  | true => exact ⟨h, hs⟩
  | false => exact ⟨Prints.spaced h hs, follows_cons s (by decide) fun _ => rfl⟩

theorem Prints.nil (spaced : Bool) : Prints R compact spaced [] :=
  ⟨⟨[], .nil, .nil⟩, by rintro _ ⟨⟩, fun _ => apart_nil _⟩

theorem printFrom_cons (compact spaced : Bool) (v : V) (vs : List V) :
    printFrom compact spaced (v :: vs) =
      match delimiter? v with
      | some ',' => Output.comma compact ++ printFrom compact false vs
      | some '/' => Output.delim compact '/' true ++ printFrom compact false vs
      | some '[' => (if spaced then char ' ' else []) ++ char '[' ++ printFrom compact false vs
      | some ']' => char ']' ++ printFrom compact true vs
      | _ => (if spaced then char ' ' else []) ++ Printable.print compact v ++
          printFrom compact true vs := rfl

theorem Prints.comma {v : V} {vs : List V} (hv : delimiter? v = some ',')
    (h : R v [.token .comma .start]) (hvs : Prints R compact false vs) (spaced : Bool) :
    Prints R compact spaced (v :: vs) := by
  obtain ⟨ks, hks, hspells⟩ := (Prints.space compact hvs.spells hvs.follows).1
  have hshape : chars (printFrom compact spaced (v :: vs)) =
      ',' :: (chars (Output.space compact) ++ chars (printFrom compact false vs)) := by
    rw [printFrom_cons, hv]
    simp [Output.comma, Output.delim]
  refine ⟨?_, ?_, ?_⟩ <;> rw [hshape]
  · exact ⟨_, hks.comma, .value h hspells⟩
  · exact follows_cons _ (by decide) (by decide)
  · exact fun _ => by simp [wordStops]

theorem Prints.slash {v : V} {vs : List V} (hv : delimiter? v = some '/')
    (h : R v [.token (.delim '/') .start]) (hvs : Prints R compact false vs) (spaced : Bool) :
    Prints R compact spaced (v :: vs) := by
  obtain ⟨⟨ks, hks, hspells⟩, hfollows⟩ := Prints.space compact hvs.spells hvs.follows
  have hshape : chars (printFrom compact spaced (v :: vs)) = chars (Output.space compact) ++
      '/' :: (chars (Output.space compact) ++ chars (printFrom compact false vs)) := by
    rw [printFrom_cons, hv]
    simp [Output.delim]
  have hslash : ∃ ks, Makes closers
      ('/' :: (chars (Output.space compact) ++ chars (printFrom compact false vs))) ks ∧
      Spells R (v :: vs) ks := by
    refine ⟨_, hks.slash_of_head (by decide) fun hhead => ?_, .value h hspells⟩
    exact (hfollows '*' hhead).1 rfl
  have hboth := Prints.space compact hslash (follows_cons _ (by decide) (by decide))
  refine ⟨?_, ?_, ?_⟩ <;> rw [hshape]
  · exact hboth.1
  · exact hboth.2
  · intro _
    cases compact <;> simp [Output.space, wordStops]

theorem Prints.text {v : V} {vs : List V} {ks : List Component} (hv : delimiter? v = none)
    (h : R v ks) (hmakes : Makes wordStops (chars (Printable.print compact v)) ks)
    (hbegins : Begins (chars (Printable.print compact v))) (hvs : Prints R compact true vs)
    (spaced : Bool) : Prints R compact spaced (v :: vs) := by
  obtain ⟨ls, hls, hspells⟩ := hvs.spells
  have hshape : chars (printFrom compact spaced (v :: vs)) =
      chars (if spaced then char ' ' else []) ++
        (chars (Printable.print compact v) ++ chars (printFrom compact true vs)) := by
    rw [printFrom_cons, hv]
    simp
  have htext := hmakes.append hls (hvs.apart rfl) (by decide)
  have hgap := Prints.gap spaced ⟨_, htext, .value h hspells⟩ (hbegins.append _).follows
  refine ⟨?_, ?_, ?_⟩ <;> rw [hshape]
  exacts [hgap.1, hgap.2.1, hgap.2.2]

theorem printFrom_closing (hclose : delimiter? (delimiter ']' : V) = some ']') (spaced : Bool)
    (vs ws : List V) :
    printFrom compact spaced (vs ++ delimiter ']' :: ws) =
      printFrom compact spaced vs ++ (char ']' ++ printFrom compact true ws) := by
  induction vs generalizing spaced with
  | nil =>
    have hstep : printFrom compact spaced (delimiter ']' :: ws) =
        char ']' ++ printFrom compact true ws := by
      rw [printFrom_cons, hclose]
      rfl
    exact hstep
  | cons v vs ih =>
    rw [List.cons_append, printFrom_cons, printFrom_cons]
    split <;> simp only [ih, List.append_assoc]

theorem Prints.brackets {vs ws : List V} (hopen : delimiter? (delimiter '[' : V) = some '[')
    (hclose : delimiter? (delimiter ']' : V) = some ']') (hvs : Prints R compact false vs)
    (hws : Prints R compact true ws) (spaced : Bool) :
    Prints R compact spaced (delimiter '[' :: vs ++ delimiter ']' :: ws) := by
  obtain ⟨ks, hks, hspells⟩ := hvs.spells
  obtain ⟨ls, hls, hspells'⟩ := hws.spells
  have hshape : chars (printFrom compact spaced (delimiter '[' :: vs ++ delimiter ']' :: ws)) =
      chars (if spaced then char ' ' else []) ++
        (('[' :: (chars (printFrom compact false vs) ++ [']'])) ++
        chars (printFrom compact true ws)) := by
    rw [List.cons_append, printFrom_cons, hopen, printFrom_closing hclose]
    simp
  have hblock : Makes wordStops ('[' :: (chars (printFrom compact false vs) ++ [']']))
      [.block .openSquare .start ks .start] := hks.square (by decide)
  have hgap := Prints.gap spaced ⟨_, hblock.append hls (hws.apart rfl) (by decide),
    .brackets hspells hspells'⟩ (follows_cons _ (by decide) (by decide))
  refine ⟨?_, ?_, ?_⟩ <;> rw [hshape]
  exacts [hgap.1, hgap.2.1, hgap.2.2]

/-- What a sequence prints spells it. -/
theorem prints_bracketed (hopen : delimiter? (delimiter '[' : V) = some '[')
    (hclose : delimiter? (delimiter ']' : V) = some ']') {vs : List V}
    (h : Bracketed (Spelled R compact) vs) (spaced : Bool) : Prints R compact spaced vs := by
  induction h generalizing spaced with
  | nil => exact .nil spaced
  | cons hv _ ih =>
    cases hv with
    | comma hv h => exact .comma hv h (ih false) spaced
    | slash hv h => exact .slash hv h (ih false) spaced
    | text hv h hmakes hbegins => exact .text hv h hmakes hbegins (ih true) spaced
  | brackets _ _ ih ih' => exact .brackets hopen hclose (ih false) (ih' true) spaced

/-! Reading and printing good values. -/

theorem delimiter?_delimiter (hV : Lawful V good) (c : Char) :
    delimiter? (delimiter c : V) = some c := by
  simp [delimiter?, delimiter, hV.leaf?_ofLeaf]

/-- A good value that is no delimiter prints solidly. -/
theorem solid_or (hV : Lawful V good) {v : V} (h : good v) :
    delimiter? v = some ',' ∨ delimiter? v = some '/' ∨ delimiter? v = none ∧ PrintsSolid v := by
  rcases hV.solid_or h with hsolid | hleaf | hleaf
  · cases hdelimiter : delimiter? v with
    | none => exact .inr (.inr ⟨rfl, hsolid⟩)
    | some c =>
      have hleaf : Term.leaf? v = some (.delimiter c) := by
        unfold delimiter? at hdelimiter
        split at hdelimiter
        · next hleaf =>
          cases hdelimiter
          exact hleaf
        · cases hdelimiter
      rcases (hV.leaf v _ h hleaf).delimiter with rfl | rfl
      · exact .inl rfl
      · exact .inr (.inl rfl)
  · exact .inl (by simp [delimiter?, hleaf])
  · exact .inr (.inl (by simp [delimiter?, hleaf]))

theorem Bracketed.mono {better : V → Prop} {vs : List V} (h : Bracketed better vs)
    (hgood : ∀ v, better v → good v) : Bracketed good vs := by
  induction h with
  | nil => exact .nil
  | cons hv _ ih => exact .cons (hgood _ hv) ih
  | brackets _ _ ih ih' => exact .brackets ih ih'

/-! Fallbacks. -/

/-- The components of a fallback: its comma and what spells its values. -/
inductive SpellsFallback (R : V → List Component → Prop) : Option (List V) → List Component → Prop
  | none : SpellsFallback R none []
  | some {vs : List V} {ks : List Component} (h : Spells R vs ks) :
      SpellsFallback R (some vs) (.token .comma .start :: ks)

theorem prints_fallback (hopen : delimiter? (delimiter '[' : V) = some '[')
    (hclose : delimiter? (delimiter ']' : V) = some ']') {vs? : Option (List V)}
    (h : ∀ vs ∈ vs?, Bracketed (Spelled R compact) vs) :
    (∃ ks, Makes closers (chars (printFallback compact vs?)) ks ∧ SpellsFallback R vs? ks) ∧
      Apart wordStops (chars (printFallback compact vs?)) := by
  cases vs? with
  | none => exact ⟨⟨[], .nil, .none⟩, apart_nil _⟩
  | some vs =>
    cases vs with
    | nil =>
      refine ⟨⟨_, ?_, .some .nil⟩, by simp [printFallback, wordStops]⟩
      have hcomma : Makes closers [','] [.token .comma .start] := Makes.nil.comma
      simpa [printFallback] using hcomma
    | cons v vs =>
      have hprints := prints_bracketed hopen hclose (h _ rfl) false
      obtain ⟨ks, hks, hspells⟩ := (Prints.space compact hprints.spells hprints.follows).1
      have hshape : chars (printFallback compact (some (v :: vs))) =
          ',' :: (chars (Output.space compact) ++ chars (printFrom compact false (v :: vs))) := by
        simp [printFallback, print, Output.comma, Output.delim]
      rw [hshape]
      exact ⟨⟨_, hks.comma, .some hspells⟩, by simp [wordStops]⟩

theorem Bracketed.spelled (hV : Lawful V good) {vs : List V} (h : Bracketed good vs)
    (compact : Bool) :
    Bracketed (Spelled (fun _ _ => True) compact) vs :=
  h.mono fun v hv => by
    rcases solid_or hV hv with hcomma | hslash | ⟨hnone, hsolid⟩
    · exact .comma hcomma trivial
    · exact .slash hslash trivial
    · obtain ⟨⟨ks, -, hks⟩, hbegins⟩ := hsolid compact
      exact .text hnone trivial hks hbegins

theorem closed_print (hV : Lawful V good) {vs : List V} (h : Bracketed good vs) (compact : Bool) :
    Closed (print compact vs) := by
  obtain ⟨ks, hks, -⟩ :=
    (prints_bracketed (delimiter?_delimiter hV '[') (delimiter?_delimiter hV ']')
    (h.spelled hV compact) false).spells
  exact ⟨ks, hks⟩

/-- A fallback behind something else. -/
theorem closed_printFallback (hV : Lawful V good) {o : Output} (ho : Tidy o) {vs? : Option (List V)}
    (h : ∀ vs ∈ vs?, Bracketed good vs) (compact : Bool) :
    Closed (o ++ printFallback compact vs?) := by
  obtain ⟨ks, hks⟩ := ho
  obtain ⟨⟨ls, hls, -⟩, hapart⟩ := prints_fallback (delimiter?_delimiter hV '[')
    (delimiter?_delimiter hV ']') fun vs hvs => (h vs hvs).spelled hV compact
  exact ⟨ks ++ ls, by rw [chars_append]; exact hks.append hls hapart (by decide)⟩

/-! Reading. -/

theorem steady_readItem (hV : Lawful V good) {inner : Reader (List V)}
    (hinner : Steady (Bracketed good) inner) : Steady (Bracketed good) (readItem inner) := by
  refine Twin.whether (steady_expect_true _).succeeds ?_ ?_
  · have hblock : Steady (Bracketed good) (nested (block inner)) :=
      .of_opened fun _ _ => hinner.nestedBlock.mono (fun _ => id) fun _ _ h => h.opened
    exact hblock.bind fun vs hvs => .pure (.brackets hvs .nil)
  · exact hV.steady.bind fun v hv => .pure (.cons hv .nil)

theorem steady_readWithin (hV : Lawful V good) (depth : Nat) :
    Steady (Bracketed good) (readWithin depth : Reader (List V)) := by
  induction depth with
  | zero => exact .fail _
  | succ n ih =>
    refine (steady_readItem hV ih).untilEnd.map fun vss h => ?_
    induction vss with
    | nil => exact .nil
    | cons vs vss ih' =>
      obtain ⟨hvs, hvss⟩ := List.forall_mem_cons.mp h
      exact hvs.append (ih' hvss)

theorem steady_read (hV : Lawful V good) :
    Steady (Bracketed good) (Sequence.read : Reader (List V)) :=
  steady_readWithin hV _

theorem steady_readFallback (hV : Lawful V good) :
    Steady (fun vs? => ∀ vs ∈ vs?, Bracketed good vs) (readFallback : Reader (Option (List V))) :=
  steady_succeeds_comma.whether ((steady_read hV).map fun vs h => by simpa using h)
    (.pure (by simp))

end Sequence

end StyleGrammar

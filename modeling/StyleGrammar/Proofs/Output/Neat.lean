import StyleGrammar.Proofs.Number.Digits
import StyleGrammar.Proofs.Token.Blocks
import StyleGrammar.Value.Form

/-!
# Outputs in their surroundings

An output is *tidy* if its components are the same wherever it stands, *neat* if
moreover it can stand behind a separator, and *solid* if it is neat and no blank
or comma shows in it outside blocks.  An output *trails* if it can stand behind
a neat one.  What is printed is put together from such outputs, so these notions
are closed under the ways of `Output`.
-/

namespace StyleGrammar

namespace Component

/-- Neither a blank or a comment, nor a comma. -/
def isSolid (k : Component) : Bool := !k.isSpace && !k.isComma

end Component

namespace Output

open Scan

/-- The characters of an output. -/
def chars (o : Output) : List Char := o.flatMap fun p => p.text.toList

theorem toList_render (o : Output) : o.render.toList = chars o := by
  rw [render, String.toList_join, List.flatMap_map, chars]

@[simp] theorem chars_nil : chars [] = [] := rfl

@[simp] theorem chars_append (a b : Output) : chars (a ++ b) = chars a ++ chars b :=
  List.flatMap_append

theorem chars_flatMap {α : Type} (f : α → Output) (xs : List α) :
    chars (xs.flatMap f) = xs.flatMap fun x => chars (f x) := by
  rw [chars, List.flatMap_assoc]
  rfl

@[simp] theorem chars_text (s : String) : chars (text s) = s.toList := by
  simp [chars, text, Piece.render]

@[simp] theorem chars_char (c : Char) : chars (char c) = [c] := by
  simp [chars, char, Piece.render]

/-! Escapes are written where they stand, whatever the texts between them are cut into. -/

theorem chars_escaped (escape : Char → List Char) (kept s : List Char) :
    chars (escaped escape kept s) = kept.reverse ++ s.flatMap escape := by
  induction s generalizing kept with
  | nil => simp [escaped]
  | cons c s ih =>
    rw [escaped]
    split
    next h => simp [ih, h]
    next h => simp [ih]

@[simp] theorem chars_escapedName (s : List Char) : chars (escapedName s) = Escape.name s := by
  rw [escapedName, chars_escaped, List.reverse_nil, List.nil_append, Escape.name]

@[simp] theorem chars_leading (c : Char) (s : List Char) : chars (leading (c :: s)) =
    (if c.isDigit then Escape.byNumber c else Escape.nameChar c) ++ Escape.name s := by
  rw [leading]
  split <;> simp [Escape.name]

theorem chars_hyphened (s : List Char) :
    chars (identifier.hyphened s) = Escape.identifier s := by
  fun_cases identifier.hyphened s with
  | case1 r => simp [Escape.identifier]
  | case2 => simp [Escape.identifier]
  | case3 r hdashed hlone =>
    cases r with
    | nil => exact absurd rfl hlone
    | cons c r =>
      have hc : c ≠ '-' := fun h => hdashed r (by rw [h])
      simp [Escape.identifier]
  | case4 r hdashed hlone hhyphen =>
    cases s with
    | nil => rfl
    | cons c r =>
      have hc : c ≠ '-' := fun h => hhyphen r (by rw [h])
      simp [Escape.identifier, hc]

@[simp] theorem chars_identifier (s : String) :
    chars (identifier s) = (identifierText s).toList := by
  rw [identifierText, String.toList_ofList, identifier, chars_hyphened]

@[simp] theorem chars_quoted (s : String) : chars (quoted s) = (quotedText s).toList := by
  rw [quotedText, String.toList_ofList, quoted]
  simp [chars_escaped, Escape.quoted]

def Tidy (o : Output) : Prop := ∃ ks, Makes wordStops (chars o) ks

def Neat (o : Output) : Prop := Tidy o ∧ Begins (chars o)

def Trails (o : Output) : Prop := Tidy o ∧ Apart wordStops (chars o)

def Solid (o : Output) : Prop :=
  (∃ ks, (∀ k ∈ ks, k.isSolid = true) ∧ Makes wordStops (chars o) ks) ∧ Begins (chars o)

/-- The components of an output that is neat. -/
structure NeatAs (o : Output) (ks : List Component) : Prop where
  makes : Makes wordStops (chars o) ks
  begins : Begins (chars o)

/-- The components of an output that trails. -/
structure TrailsAs (o : Output) (ks : List Component) : Prop where
  makes : Makes wordStops (chars o) ks
  apart : Apart wordStops (chars o)

variable {a b o : Output} {ks ls : List Component}

theorem TrailsAs.trails (h : TrailsAs o ks) : Trails o := ⟨⟨ks, h.makes⟩, h.apart⟩

theorem NeatAs.ne_nil (h : NeatAs o ks) : o ≠ [] := by
  rintro rfl
  obtain ⟨c, r, hc, -⟩ := h.begins
  cases hc

theorem NeatAs.of_chars (h : NeatAs a ks) (heq : chars o = chars a) : NeatAs o ks := by
  obtain ⟨hmakes, hbegins⟩ := h
  exact ⟨heq ▸ hmakes, heq ▸ hbegins⟩

theorem NeatAs.append (ha : NeatAs a ks) (hb : TrailsAs b ls) : NeatAs (a ++ b) (ks ++ ls) := by
  refine ⟨?_, ?_⟩
  · rw [chars_append]
    exact ha.makes.append hb.makes hb.apart (List.Subset.refl _)
  · rw [chars_append]
    exact ha.begins.append _

theorem TrailsAs.nil : TrailsAs [] [] := ⟨.nil, apart_nil _⟩

theorem TrailsAs.append (ha : TrailsAs a ks) (hb : TrailsAs b ls) :
    TrailsAs (a ++ b) (ks ++ ls) := by
  refine ⟨?_, ?_⟩
  · rw [chars_append]
    exact ha.makes.append hb.makes hb.apart (List.Subset.refl _)
  · rw [chars_append]
    exact ha.apart.append hb.apart

theorem NeatAs.behindSpace (h : NeatAs o ks) : TrailsAs (char ' ' ++ o) (.blanks .start :: ks) :=
  ⟨by simpa using h.makes.blank h.begins.shows, by simp [wordStops]⟩

/-- Blanks that are left out of compact output. -/
def gap (compact : Bool) : List Component := if compact then [] else [.blanks .start]

theorem NeatAs.makes_space (compact : Bool) (h : NeatAs o ks) :
    Makes wordStops (chars (space compact ++ o)) (gap compact ++ ks) := by
  cases compact with
  | true => exact h.makes
  | false => exact h.behindSpace.makes

theorem NeatAs.behindComma (compact : Bool) (h : NeatAs o ks) :
    TrailsAs (comma compact ++ o) (.token .comma .start :: (gap compact ++ ks)) := by
  have hcomma := (h.makes_space compact).comma
  exact ⟨by simpa [comma, delim] using hcomma, by simp [comma, delim, wordStops]⟩

theorem NeatAs.begins_space (compact : Bool) (h : NeatAs o ks) :
    Begins (chars (space compact ++ o)) ∨ ∃ r, chars (space compact ++ o) = ' ' :: r := by
  cases compact with
  | true => exact .inl h.begins
  | false => exact .inr ⟨chars o, by simp [space]⟩

/-- An operator with blanks around it, or none. -/
theorem NeatAs.behindOperator (compact : Bool) {c : Char} (hc : c = '/' ∨ c = '*')
    (h : NeatAs o ks) :
    TrailsAs (delim compact c true ++ o)
      (gap compact ++ .token (.delim c) .start :: (gap compact ++ ks)) := by
  have hoperator : Makes wordStops (c :: chars (space compact ++ o))
      (.token (.delim c) .start :: (gap compact ++ ks)) := by
    rcases hc with rfl | rfl
    · exact (h.makes_space compact).slash (h.begins_space compact)
    · exact (h.makes_space compact).star (h.begins_space compact)
  rw [delim]
  cases compact with
  | true =>
    refine ⟨by simpa [space, gap] using hoperator, ?_⟩
    rcases hc with rfl | rfl <;> simp [space, wordStops]
  | false =>
    have hblank : Blank c = false := by rcases hc with rfl | rfl <;> decide
    exact ⟨by simpa [space, gap] using hoperator.blank ⟨c, _, rfl, hblank⟩,
      by simp [space, wordStops]⟩

theorem tidy_nil : Tidy [] := ⟨[], .nil⟩

theorem trails_nil : Trails [] := ⟨tidy_nil, apart_nil _⟩

theorem Solid.neat (h : Solid o) : Neat o := by
  obtain ⟨⟨ks, -, hks⟩, hbegins⟩ := h
  exact ⟨⟨ks, hks⟩, hbegins⟩

theorem Solid.of_chars (h : Solid a) (heq : chars o = chars a) : Solid o := by
  rw [Solid, heq]
  exact h

theorem Neat.of_chars (h : Neat a) (heq : chars o = chars a) : Neat o := by
  rw [Neat, Tidy, heq]
  exact h

theorem Trails.of_chars (h : Trails a) (heq : chars o = chars a) : Trails o := by
  rw [Trails, Tidy, heq]
  exact h

theorem Tidy.append (ha : Tidy a) (hb : Trails b) : Tidy (a ++ b) := by
  obtain ⟨ks, hks⟩ := ha
  obtain ⟨⟨ks', hks'⟩, hapart⟩ := hb
  exact ⟨ks ++ ks', by rw [chars_append]; exact hks.append hks' hapart (List.Subset.refl _)⟩

theorem Neat.append (ha : Neat a) (hb : Trails b) : Neat (a ++ b) :=
  ⟨ha.1.append hb, by rw [chars_append]; exact ha.2.append _⟩

theorem Trails.append (ha : Trails a) (hb : Trails b) : Trails (a ++ b) :=
  ⟨ha.1.append hb, by rw [chars_append]; exact ha.2.append hb.2⟩

/-- Outputs that can follow others, one behind the other. -/
theorem trails_flatMap {α : Type} {f : α → Output} {as : List α} (h : ∀ a ∈ as, Trails (f a)) :
    Trails (as.flatMap f) := by
  induction as with
  | nil => exact trails_nil
  | cons a as ih =>
    rw [List.flatMap_cons]
    exact (h a List.mem_cons_self).append (ih fun b hb => h b (List.mem_cons_of_mem a hb))

/-! Separators. -/

theorem Neat.exists_neatAs (h : Neat o) : ∃ ks, NeatAs o ks := by
  obtain ⟨⟨ks, hks⟩, hbegins⟩ := h
  exact ⟨ks, hks, hbegins⟩

theorem trails_space (h : Neat o) : Trails (char ' ' ++ o) := by
  obtain ⟨ks, hks⟩ := h.exists_neatAs
  exact hks.behindSpace.trails

theorem trails_comma (compact : Bool) (h : Neat o) : Trails (comma compact ++ o) := by
  obtain ⟨ks, hks⟩ := h.exists_neatAs
  exact (hks.behindComma compact).trails

theorem trails_operator (compact : Bool) {c : Char} (hc : c = '/' ∨ c = '*') (h : Neat o) :
    Trails (delim compact c true ++ o) := by
  obtain ⟨ks, hks⟩ := h.exists_neatAs
  exact (hks.behindOperator compact hc).trails

theorem trails_slash (compact : Bool) (h : Neat o) : Trails (delim compact '/' true ++ o) :=
  trails_operator compact (.inl rfl) h

/-- A separator that can stand between neat outputs. -/
def Separates (s : Output) : Prop := ∀ o, Neat o → Trails (s ++ o)

theorem separates_space : Separates (char ' ') := fun _ h => trails_space h

theorem separates_comma (compact : Bool) : Separates (comma compact) :=
  fun _ h => trails_comma compact h

theorem neat_separated {s : Output} (hs : Separates s) {os : List Output} (h : ∀ o ∈ os, Neat o)
    (hne : os ≠ []) : Neat (separated s os) := by
  fun_induction separated s os with
  | case1 => exact absurd rfl hne
  | case2 o => exact h o List.mem_cons_self
  | case3 o os hos ih =>
    rw [List.append_assoc]
    refine (h o List.mem_cons_self).append
      (hs _ (ih (fun x hx => h x (List.mem_cons_of_mem o hx)) ?_))
    rintro rfl
    exact hos rfl

theorem tidy_separated {s : Output} (hs : Separates s) {os : List Output} (h : ∀ o ∈ os, Neat o) :
    Tidy (separated s os) := by
  by_cases hne : os = []
  · subst hne
    exact tidy_nil
  · exact (neat_separated hs h hne).1

/-! Words, strings and functions. -/

theorem solid_word (h : Word (chars o)) (hne : chars o ≠ []) : Solid o := by
  obtain ⟨ts, hts, hmakes⟩ := Makes.word h
  refine ⟨⟨_, fun k hk => ?_, hmakes⟩, begins_word h hne⟩
  obtain ⟨t, ht, rfl⟩ := List.mem_map.mp hk
  have := hts t ht
  cases t <;> first | rfl | cases this

/-- Names that are written as they are. -/
def isWritten (s : String) : Bool := !s.toList.isEmpty && s.toList.all isWordChar

theorem solid_text {s : String} (h : isWritten s = true) : Solid (text s) := by
  simp only [isWritten, Bool.and_eq_true, Bool.not_eq_true', List.isEmpty_eq_false_iff] at h
  exact solid_word (by simpa using word_of_all h.2) (by simpa using h.1)

/-- A word and a space in front of something. -/
theorem neat_behindWord (word : String) (hword : isWritten word = true) (h : Neat o) :
    Neat (text word ++ (char ' ' ++ o)) :=
  (solid_text hword).neat.append (trails_space h)

theorem solid_identifier {s : String} (hne : s ≠ "") : Solid (identifier s) := by
  have hs : s.toList ≠ [] := by simpa using hne
  refine solid_word (by simpa [identifierText] using word_identifier s.toList) ?_
  intro h
  have := startsName_identifier hs []
  rw [List.append_nil] at this
  rw [chars_identifier, identifierText, String.toList_ofList] at h
  rw [h] at this
  cases this

theorem solid_dashedIdentifier (s : String) : Solid (dashedIdentifier s) := by
  have hword : Word (chars (dashedIdentifier s)) := by
    have := Word.char (c := '-') (by decide) (Word.char (c := '-') (by decide)
      (word_name (dashedIdentifier.dashless s.toList)))
    simpa [dashedIdentifier] using this
  exact solid_word hword (by simp [dashedIdentifier])

theorem solid_quoted (s : String) : Solid (quoted s) := by
  refine ⟨⟨_, ?_, by simpa [quotedText] using Makes.quoted s.toList⟩, ?_⟩
  · intro k hk
    rw [List.mem_singleton.mp hk]
    rfl
  · exact ⟨'"', _, by simp [quotedText, Escape.quoted]; rfl, by decide⟩

/-- Names of functions. -/
def isFunctionName (s : String) : Bool :=
  isCallable s.toList && (s.toList.map Char.toLower != ['u', 'r', 'l'])

theorem solid_of_block {opener : Token} {content : List Component} {l stop : Location}
    (h : Makes wordStops (chars o) [.block opener l content stop]) (hbegins : Begins (chars o)) :
    Solid o := by
  refine ⟨⟨_, fun k hk => ?_, h⟩, hbegins⟩
  rw [List.mem_singleton.mp hk]
  rfl

theorem begins_of_isCallable {n : List Char} (h : isCallable n = true) (s : List Char) :
    Begins (n ++ s) := by
  rw [isCallable, Bool.and_eq_true] at h
  cases n with
  | nil => exact absurd h.1 (by simp)
  | cons c n =>
    have hc := isWordChar_of_isAlpha (by simpa using h.1)
    exact (begins_word (.char hc .nil) (by simp)).append (n ++ s)

/-- What closes around a function or brackets. -/
def closers : List Char := [')', ']']

/-- The components are the same wherever the output stands at the end of a block. -/
def Closed (o : Output) : Prop := ∃ ks, Makes closers (chars o) ks

theorem Tidy.closed (h : Tidy o) : Closed o := by
  obtain ⟨ks, hks⟩ := h
  exact ⟨ks, hks.mono (by decide)⟩

theorem chars_call (name : String) (o : Output) :
    chars (call name o) = name.toList ++ '(' :: (chars o ++ [')']) := by
  simp [call]

/-- A function is one component, wherever it stands. -/
theorem makes_call {name : String} (hname : isFunctionName name = true) {ks : List Component}
    (h : Makes closers (chars o) ks) :
    Makes wordStops (chars (call name o)) [.block (.function name) .start ks .start] := by
  simp only [isFunctionName, Bool.and_eq_true, bne_iff_ne, ne_eq] at hname
  have hcall : Makes wordStops (name.toList ++ '(' :: (chars o ++ [')']))
      [.block (.function (String.ofList name.toList)) .start ks .start] :=
    Makes.call hname.1 hname.2 (h.before (by decide))
  rwa [String.ofList_toList, ← chars_call] at hcall

theorem begins_call {name : String} (hname : isFunctionName name = true) (o : Output) :
    Begins (chars (call name o)) := by
  rw [isFunctionName, Bool.and_eq_true] at hname
  rw [chars_call]
  exact begins_of_isCallable hname.1 _

theorem solid_enclosing {name : String} (hname : isFunctionName name = true) (h : Closed o) :
    Solid (call name o) := by
  obtain ⟨ks, hks⟩ := h
  exact solid_of_block (makes_call hname hks) (begins_call hname o)

theorem solid_call {name : String} (hname : isFunctionName name = true) (h : Tidy o) :
    Solid (call name o) :=
  solid_enclosing hname h.closed

end Output

end StyleGrammar

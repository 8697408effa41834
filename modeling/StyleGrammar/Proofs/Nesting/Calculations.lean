import StyleGrammar.Proofs.Nesting.Bounded
import StyleGrammar.Proofs.Value.Sequences
import StyleGrammar.Value.Position

/-!
# Sequences, calculations and positions keep within the limit

A calculation is `Formed` if the values in it are good.  Of a sequence that was
read all values are good, and its brackets stand in pairs.
-/

namespace StyleGrammar

open Reader Component

variable {free : Token → Bool}

/-! Tokens that open nothing. -/

/-- Nothing is made of the openers of blocks. -/
structure NoOpener {α : Type} (f : Token → Option α) : Prop where
  function : ∀ n, f (.function n) = none
  parenthesis : f .openParenthesis = none
  square : f .openSquare = none
  curly : f .openCurly = none

theorem NoOpener.closer? {α : Type} {f : Token → Option α} (h : NoOpener f) {t : Token} {a : α}
    (ht : f t = some a) : t.closer? = none := by
  obtain ⟨hfunction, hparenthesis, hsquare, hcurly⟩ := h
  cases t with
  | function n => simp [hfunction] at ht
  | openParenthesis => simp [hparenthesis] at ht
  | openSquare => simp [hsquare] at ht
  | openCurly => simp [hcurly] at ht
  | _ => rfl

theorem bounded_expect {α : Type} {f : Token → Option α} (h : NoOpener f) :
    Bounded free (fun _ => True) (expect f) :=
  .expect fun _ _ ht => ⟨h.closer? ht, trivial⟩

theorem bounded_ident : Bounded free (fun _ => True) ident :=
  bounded_expect ⟨fun _ => rfl, rfl, rfl, rfl⟩

theorem bounded_number : Bounded free (fun _ => True) number :=
  bounded_expect ⟨fun _ => rfl, rfl, rfl, rfl⟩

theorem bounded_integer : Bounded free (fun _ => True) integer :=
  bounded_expect ⟨fun _ => rfl, rfl, rfl, rfl⟩

theorem bounded_string : Bounded free (fun _ => True) string :=
  bounded_expect ⟨fun _ => rfl, rfl, rfl, rfl⟩

theorem bounded_keywordNamed (name : String) : Bounded free (fun _ => True) (keyword name) :=
  bounded_expect ⟨fun _ => rfl, rfl, rfl, rfl⟩

theorem bounded_delim (c : Char) : Bounded free (fun _ => True) (delim c) :=
  bounded_expect ⟨fun _ => rfl, rfl, rfl, rfl⟩

theorem bounded_keyword {α : Type} [Keyword α] : Bounded free (fun _ => True) (read : Reader α) :=
  bounded_expect ⟨fun _ => rfl, rfl, rfl, rfl⟩

theorem bounded_single : Bounded free (fun _ => True) (read : Reader Single) := bounded_number

theorem bounded_int : Bounded free (fun _ => True) (read : Reader Int) := bounded_integer

theorem bounded_percentage : Bounded free (fun _ => True) (read : Reader Percentage) :=
  Bounded.map (bounded_expect ⟨fun _ => rfl, rfl, rfl, rfl⟩) fun _ _ => trivial

theorem bounded_dimension {U : Type} [Keyword U] :
    Bounded free (fun _ => True) (read : Reader (Dimension U)) :=
  bounded_expect ⟨fun _ => rfl, rfl, rfl, rfl⟩

theorem bounded_length : Bounded free (fun _ => True) (read : Reader Length) :=
  bounded_expect ⟨fun _ => rfl, rfl, rfl, rfl⟩

theorem bounded_angleWithZero : Bounded free (fun _ => True) Angle.readWithZero :=
  bounded_expect ⟨fun _ => rfl, rfl, rfl, rfl⟩

theorem bounded_customIdent : Bounded free (fun _ => True) (read : Reader CustomIdent) :=
  bounded_expect ⟨fun _ => rfl, rfl, rfl, rfl⟩

theorem bounded_dashedIdent : Bounded free (fun _ => True) (read : Reader DashedIdent) :=
  bounded_expect ⟨fun _ => rfl, rfl, rfl, rfl⟩

theorem bounded_quotation : Bounded free (fun _ => True) (read : Reader Quotation) :=
  bounded_string.map fun _ _ => trivial

theorem bounded_failNext {α : Type} {good : α → Prop} :
    Bounded free good (failNext : Reader α) := by
  intro c a c' _ h
  obtain ⟨t, d, -, hfail⟩ := of_bind h
  cases hfail

theorem bounded_numberOrPercentage :
    Bounded free (fun _ => True) (read : Reader NumberOrPercentage) :=
  .orElse (bounded_single.map fun _ _ => trivial)
    (.orElse (bounded_percentage.map fun _ _ => trivial) bounded_failNext)

theorem bounded_succeedsComma : Bounded free (fun _ => True) (succeeds comma) :=
  Bounded.comma.succeeds

/-- An address; only with quotes it stands in a function. -/
theorem bounded_url (hfree : ∀ n, sameName n "url" = true → free (.function n) = true) :
    Bounded free (fun _ => True) (read : Reader Url) := by
  refine Bounded.map ?_ fun _ (_ : True) => trivial
  refine .place fun l => .next (fun t ht => ?_) fun t ht => ?_
  · cases t <;> first | exact .failAt _ _ | exact .pure trivial | cases ht
  · cases t with
    | function n =>
      by_cases hn : sameName n "url" = true
      · simp only [hn, if_true]
        exact bounded_string.block (hfree n hn)
      · simp only [hn]
        exact .failAt _ _
    | _ => first | exact .failAt _ _ | cases ht

variable {V : Type} [Term V] {good : V → Prop}

/-- What is read of a value is good and keeps within the limit, wherever the value stands. -/
abbrev ReadsGood (good : V → Prop) : Prop := ∀ free, Bounded free good (read : Reader V)

/-! Sequences. -/

namespace Sequence

theorem bounded_readItem (hV : ReadsGood good) {inner : Reader (List V)}
    (hinner : ∀ free, Bounded free (Bracketed good) inner) :
    Bounded free (Bracketed good) (readItem inner) := by
  refine .whetherOpener (fun t a ht => ?_) (fun t a ht => ?_) ?_
  · obtain rfl : t = .openSquare := by simpa using ht
    rfl
  · exact (hinner _).nestedBlock.bind fun vs hvs => .pure (.brackets hvs .nil)
  · exact (hV _).bind fun v hv => .pure (.cons hv .nil)

theorem bounded_readWithin (hV : ReadsGood good) (depth : Nat) :
    Bounded free (Bracketed good) (readWithin depth : Reader (List V)) := by
  induction depth generalizing free with
  | zero => exact .fail _
  | succ n ih =>
    refine (bounded_readItem hV fun _ => ih).untilEnd.map fun vss h => ?_
    induction vss with
    | nil => exact .nil
    | cons vs vss ih' =>
      obtain ⟨hvs, hvss⟩ := List.forall_mem_cons.mp h
      exact hvs.append (ih' hvss)

theorem bounded_read (hV : ReadsGood good) :
    Bounded free (Bracketed good) (Sequence.read : Reader (List V)) :=
  bounded_readWithin hV _

theorem bounded_readFallback (hV : ReadsGood good) :
    Bounded free (fun vs? => ∀ vs ∈ vs?, Bracketed good vs)
      (readFallback : Reader (Option (List V))) :=
  bounded_succeedsComma.whether ((bounded_read hV).map fun vs h => by simpa using h)
    (.pure (by simp))

end Sequence

/-! Calculations. -/

namespace Calc

/-- The values in a calculation are good. -/
inductive Formed {V : Type} (good : V → Prop) : Calc V → Prop
  | sum {a b : Calc V} (ha : Formed good a) (hb : Formed good b) : Formed good (sum a b)
  | difference {a b : Calc V} (ha : Formed good a) (hb : Formed good b) :
      Formed good (difference a b)
  | product {a b : Calc V} (ha : Formed good a) (hb : Formed good b) : Formed good (product a b)
  | quotient {a b : Calc V} (ha : Formed good a) (hb : Formed good b) : Formed good (quotient a b)
  | value {v : V} (h : good v) : Formed good (value v)
  | keyword (name : String) : Formed good (keyword name)
  | function (f : MathName) {es : List (Calc V)} (h : ∀ e ∈ es, Formed good e) :
      Formed good (function f es)

end Calc

def MathFunction.Formed {V : Type} (good : V → Prop) (f : MathFunction V) : Prop :=
  ∀ e ∈ f.arguments, e.Formed good

namespace Calc

theorem bounded_readOperand (hV : ReadsGood good) :
    Bounded free (Formed good) (readOperand : Reader (Calc V)) := by
  refine .place fun l => ?_
  apply (hV _).bind
  intro v hv
  split
  · exact .pure (.keyword _)
  · exact .ite (fun _ => .pure (.value hv)) fun _ => .failAt _ _

variable {inner : Reader (Calc V)}

omit [Term V] in
theorem bounded_readFunction (hinner : ∀ free, Bounded free (Formed good) inner) :
    Bounded free (MathFunction.Formed good) (readFunction inner) := by
  refine .expectOpener (fun t f ht => ?_) fun t f ht => ?_
  · cases t <;> first | rfl | cases ht
  · exact (hinner _).commaSeparated.nestedBlock.bind fun es hes => .pure hes

theorem bounded_readFactor (hV : ReadsGood good)
    (hinner : ∀ free, Bounded free (Formed good) inner) :
    Bounded free (Formed good) (readFactor inner) := by
  refine .get fun c => .ite (fun _ => ?_) fun _ =>
    .whetherOpener (fun t a ht => ?_) (fun t a ht => ?_) ?_
  · exact (bounded_readFunction hinner).bind fun f hf => .pure (.function f.name hf)
  · obtain rfl : t = .openParenthesis := by simpa using ht
    rfl
  · exact (hinner _).nestedBlock
  · exact bounded_readOperand hV

theorem bounded_readFactors (hV : ReadsGood good)
    (hinner : ∀ free, Bounded free (Formed good) inner) (count : Nat) {a : Calc V}
    (ha : a.Formed good) : Bounded free (Formed good) (readFactors inner count a) := by
  have hoperator : Bounded free (fun _ => True) (expect operator?) :=
    bounded_expect ⟨fun _ => rfl, rfl, rfl, rfl⟩
  induction count generalizing a with
  | zero => exact .pure ha
  | succ n ih =>
    refine hoperator.attemptBind (fun operator _ => ?_) (.pure ha)
    cases operator with
    | times => exact (bounded_readFactor hV hinner).bind fun b hb => ih (.product ha hb)
    | _ => exact (bounded_readFactor hV hinner).bind fun b hb => ih (.quotient ha hb)

theorem bounded_readProduct (hV : ReadsGood good)
    (hinner : ∀ free, Bounded free (Formed good) inner) :
    Bounded free (Formed good) (readProduct inner) :=
  (bounded_readFactor hV hinner).bind fun _ ha => .get fun _ => bounded_readFactors hV hinner _ ha

/-- Behind a run of blanks no level was taken. -/
theorem passed_nextRaw {c c' : Cursor} (hc : c.Ready) (h : c.nextRaw = .ok (none, c')) :
    Passed free c c' := by
  have hraw (l : Location) (ks : List Component)
      (h : Cursor.nextRawOf c.nesting l ks = .ok (none, c')) :
      c'.nesting = c.nesting ∧ c'.entered = none ∧
        ∃ bs, (∀ b ∈ bs, b.isSpace = true) ∧ ks = bs ++ c'.rest := by
    induction ks generalizing l with
    | nil => cases h
    | cons k ks ih =>
      cases k with
      | blanks l' =>
        cases h
        exact ⟨rfl, rfl, [.blanks l'], by simp [isSpace], rfl⟩
      | comment l' =>
        obtain ⟨hn, he, bs, hbs, rfl⟩ := ih l' h
        exact ⟨hn, he, .comment l' :: bs, List.forall_mem_cons.mpr ⟨rfl, hbs⟩, rfl⟩
      | token | block => cases h
  rw [Cursor.nextRaw, leave_of_ready hc] at h
  obtain ⟨hn, he, bs, hbs, hrest⟩ := hraw c.here c.rest h
  exact .space hbs hc hrest hn he

theorem bounded_readTerms (hV : ReadsGood good)
    (hinner : ∀ free, Bounded free (Formed good) inner) (count : Nat) {a : Calc V}
    (ha : a.Formed good) : Bounded free (Formed good) (readTerms inner count a) := by
  induction count generalizing a with
  | zero => exact .pure ha
  | succ n ih =>
    have hterm : Bounded free (Formed good) (readTerm inner n a) := by
      refine Bounded.atEnd.whether (.pure ha) (.next (fun t ht => ?_) fun t ht => ?_)
      · split
        · exact (bounded_readProduct hV hinner).bind fun b hb => ih (.sum ha hb)
        · exact (bounded_readProduct hV hinner).bind fun b hb => ih (.difference ha hb)
        · exact .fail _
      · cases t <;> first | exact .fail _ | cases ht
    intro c e c' hc h
    by_cases hraw : ∃ d, c.nextRaw = .ok (none, d)
    · obtain ⟨d, hd⟩ := hraw
      rw [readTerms_blanks hd] at h
      have hpassed : Passed free c d := passed_nextRaw hc hd
      exact (hterm d e c' hpassed.ready h).imp_right hpassed.trans
    · rw [readTerms_other (not_exists.mp hraw)] at h
      cases h
      exact ⟨ha, .refl hc⟩

theorem bounded_readWithin (hV : ReadsGood good) (depth : Nat) :
    Bounded free (Formed good) (readWithin depth : Reader (Calc V)) := by
  induction depth generalizing free with
  | zero => exact .fail _
  | succ n ih =>
    have hinner (free : Token → Bool) :
        Bounded free (Formed good) (readWithin n : Reader (Calc V)) := ih
    exact (bounded_readProduct hV hinner).bind fun _ ha => .get fun _ =>
      bounded_readTerms hV hinner _ ha

end Calc

theorem MathFunction.bounded_read (hV : ReadsGood good) :
    Bounded free (Formed good) (read : Reader (MathFunction V)) :=
  Calc.bounded_readFunction fun _ => Calc.bounded_readWithin hV _

/-! Measures. -/

def Measure.Formed {D V : Type} (good : V → Prop) : Measure D V → Prop
  | math f => f.Formed good
  | _ => True

def LengthPercentageOrAuto.Formed {V : Type} (good : V → Prop) : LengthPercentageOrAuto V → Prop
  | measure m => m.Formed good
  | auto => True

theorem Measure.bounded {D : Type} [Readable D] (hV : ReadsGood good)
    (hD : Bounded free (fun _ => True) (read : Reader D)) :
    Bounded free (Formed good) (read : Reader (Measure D V)) := by
  refine .orElse ?_ (.orElse ?_ (.orElse ?_ bounded_failNext))
  · exact (MathFunction.bounded_read hV).map fun _ h => h
  · exact hD.map fun _ _ => trivial
  · exact bounded_percentage.map fun _ _ => trivial

section Measures

variable (hV : ReadsGood good)

include hV

theorem bounded_lengthPercentage :
    Bounded free (Measure.Formed good) (read : Reader (LengthPercentage V)) :=
  Measure.bounded hV bounded_length

theorem bounded_anglePercentage :
    Bounded free (Measure.Formed good) (read : Reader (AnglePercentage V)) :=
  Measure.bounded hV bounded_dimension

theorem bounded_lengthPercentageOrAuto :
    Bounded free (LengthPercentageOrAuto.Formed good)
      (read : Reader (LengthPercentageOrAuto V)) := by
  refine .orElse ?_ (.orElse ?_ bounded_failNext)
  · exact (bounded_keywordNamed _).map fun _ _ => trivial
  · exact (bounded_lengthPercentage hV).map fun _ h => h

end Measures

/-! Positions. -/

def AxisPosition.Formed {S V : Type} (good : V → Prop) : AxisPosition S V → Prop
  | center => True
  | offset m => m.Formed good
  | side _ m? => ∀ m ∈ m?, m.Formed good

structure Position.Formed {V : Type} (good : V → Prop) (p : Position V) : Prop where
  x : p.x.Formed good
  y : p.y.Formed good

section Positions

variable (hV : ReadsGood good)

include hV

theorem AxisPosition.bounded_read {S : Type} [Keyword S] :
    Bounded free (Formed good) (read : Reader (AxisPosition S V)) := by
  refine .orElse ?_ (.orElse ?_ ?_)
  · exact (bounded_keywordNamed _).map fun _ _ => trivial
  · exact (bounded_lengthPercentage hV).map fun _ h => h
  · apply bounded_keyword.bind
    intro s _
    apply (bounded_lengthPercentage hV).attempt.bind
    intro m? hm
    exact .pure hm

namespace Position

theorem bounded_readAfterCenter :
    Bounded free (Formed good) (readAfterCenter : Reader (Position V)) := by
  refine (AxisPosition.bounded_read hV).attemptBind (fun y hy => .pure ⟨trivial, hy⟩) ?_
  exact (AxisPosition.bounded_read hV).attemptBind (fun x hx => .pure ⟨hx, trivial⟩)
    (.pure ⟨trivial, trivial⟩)

theorem bounded_readAfterOffset {m : LengthPercentage V} (hm : m.Formed good) :
    Bounded free (Formed good) (readAfterOffset m) := by
  refine bounded_keyword.attemptBind (fun s _ => .pure ⟨hm, by simp [AxisPosition.Formed]⟩) ?_
  refine (bounded_lengthPercentage hV).attemptBind (fun n hn => .pure ⟨hm, hn⟩) ?_
  exact (bounded_keywordNamed _).succeeds.bind fun _ _ => .pure ⟨hm, trivial⟩

theorem bounded_readAfterSide (s : HorizontalSide) {m? : Option (LengthPercentage V)}
    (hm : ∀ m ∈ m?, m.Formed good) : Bounded free (Formed good) (readAfterSide s m?) := by
  refine (bounded_keywordNamed _).succeeds.whether (.pure ⟨hm, trivial⟩) ?_
  refine bounded_keyword.attemptBind (fun t _ => ?_) ?_
  · exact (bounded_lengthPercentage hV).attempt.bind fun n? hn => .pure ⟨hm, hn⟩
  · cases m? with
    | some m => exact .pure ⟨by simp [AxisPosition.Formed], hm m rfl⟩
    | none => exact .pure ⟨by simp [AxisPosition.Formed], trivial⟩

theorem bounded_readHorizontal :
    Bounded free (fun x => (∀ m ∈ x.1, m.Formed good) ∧ x.2.Formed good)
      (readHorizontal : Reader (Option (LengthPercentage V) × HorizontalPosition V)) := by
  have hmeasure : Bounded free (Measure.Formed good) (read : Reader (LengthPercentage V)) :=
    bounded_lengthPercentage hV
  refine hmeasure.attempt.bind fun offset? hoffset => bounded_keyword.attemptBind (fun s _ => ?_) ?_
  · exact hmeasure.attempt.bind fun m? hm => .pure ⟨hoffset, hm⟩
  · exact (bounded_keywordNamed _).bind fun _ _ => .pure ⟨hoffset, trivial⟩

theorem bounded_read : Bounded free (Formed good) (read : Reader (Position V)) := by
  refine (AxisPosition.bounded_read hV).attemptBind (fun x hx => ?_) ?_
  · cases x with
    | center => exact bounded_readAfterCenter hV
    | offset m => exact bounded_readAfterOffset hV hx
    | side s m? => exact bounded_readAfterSide hV s hx
  · refine bounded_keyword.bind fun t _ => (bounded_readHorizontal hV).attemptBind
      (fun x hx => ?_) ?_
    · exact .pure ⟨hx.2, hx.1⟩
    · exact .pure ⟨trivial, by simp [AxisPosition.Formed]⟩

end Position

end Positions

end StyleGrammar

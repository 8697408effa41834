import StyleGrammar.Proofs.Text.Case
import StyleGrammar.Proofs.Value.Leaves

/-!
# Calculations are read steadily

Calculations print neatly if their operands do, and are read the same wherever
they stand.
-/

namespace StyleGrammar

open Reader Output

variable {V : Type}

namespace Calc

section Printing

variable [Printable V]

theorem neat_parenthesized {o : Output} (h : Neat o) (wanted : Bool) :
    Neat (parenthesized wanted o) := by
  unfold parenthesized
  split
  · obtain ⟨ks, hks⟩ := h.1
    have hshape : chars (char '(' ++ o ++ char ')') = '(' :: (chars o ++ [')']) := by simp
    exact ⟨⟨_, hshape ▸ hks.parentheses (by decide)⟩, hshape ▸ ⟨'(', _, rfl, by decide⟩⟩
  · exact h

theorem trailsAs_additive {c : Char} (hc : c = '+' ∨ c = '-') {o : Output} {ks : List Component}
    (h : NeatAs o ks) :
    TrailsAs (additive c ++ o)
      (.blanks .start :: .token (.delim c) .start :: .blanks .start :: ks) := by
  have hshape : chars (additive c ++ o) = ' ' :: c :: ' ' :: chars o := by
    simp [additive, Output.delim, space]
  have hsign : Makes Scan.wordStops (c :: ' ' :: chars o)
      (.token (.delim c) .start :: .blanks .start :: ks) := by
    rcases hc with rfl | rfl
    · exact h.makes.plus h.begins
    · exact h.makes.minus h.begins
  have hblank : Blank c = false := by rcases hc with rfl | rfl <;> decide
  exact ⟨hshape ▸ hsign.blank ⟨c, _, rfl, hblank⟩, by simp [hshape, Scan.wordStops]⟩

theorem trails_additive {c : Char} (hc : c = '+' ∨ c = '-') {o : Output} (h : Neat o) :
    Trails (additive c ++ o) := by
  obtain ⟨ks, hks⟩ := h.exists_neatAs
  exact (trailsAs_additive hc hks).trails

theorem trails_star (compact : Bool) {o : Output} (h : Neat o) :
    Trails (Output.delim compact '*' true ++ o) :=
  trails_operator compact (.inr rfl) h

theorem neat_sum {a b : Calc V} (ha : PrintsNeat a) (hb : PrintsNeat b) :
    PrintsNeat (sum a b) := fun compact => by
  have := (ha compact).append (trails_additive (.inl rfl)
    (neat_parenthesized (hb compact) (b.level = .sum)))
  rwa [← List.append_assoc] at this

theorem neat_difference {a b : Calc V} (ha : PrintsNeat a) (hb : PrintsNeat b) :
    PrintsNeat (difference a b) := fun compact => by
  have := (ha compact).append (trails_additive (.inr rfl)
    (neat_parenthesized (hb compact) (b.level = .sum)))
  rwa [← List.append_assoc] at this

theorem neat_product {a b : Calc V} (ha : PrintsNeat a) (hb : PrintsNeat b) :
    PrintsNeat (product a b) := fun compact => by
  have := (neat_parenthesized (ha compact) (a.level = .sum)).append
    (trails_star compact (neat_parenthesized (hb compact) (b.level != .operand)))
  rwa [← List.append_assoc] at this

theorem neat_quotient {a b : Calc V} (ha : PrintsNeat a) (hb : PrintsNeat b) :
    PrintsNeat (quotient a b) := fun compact => by
  have := (neat_parenthesized (ha compact) (a.level = .sum)).append
    (trails_slash compact (neat_parenthesized (hb compact) (b.level != .operand)))
  rwa [← List.append_assoc] at this

theorem printAll_eq (compact : Bool) (es : List (Calc V)) :
    printAll compact es = separated (Output.comma compact) (es.map (print compact)) := by
  induction es with
  | nil => rfl
  | cons e es ih =>
    cases es with
    | nil => rfl
    | cons e' es =>
      change print compact e ++ Output.comma compact ++ printAll compact (e' :: es) = _
      rw [ih]
      rfl

theorem isFunctionName_mathName (f : MathName) : isFunctionName (Keyword.name f) = true := by
  cases f <;> decide

theorem solid_function (f : MathName) {es : List (Calc V)} (h : ∀ e ∈ es, PrintsNeat e) :
    PrintsSolid (function f es) := fun compact => by
  have htidy : Tidy (printAll compact es) := by
    rw [printAll_eq]
    exact tidy_separatedPrints (separates_comma compact) compact h
  exact solid_call (isFunctionName_mathName f) htidy

end Printing

section Reading

variable [Term V] {good : V → Prop}

/-- The keywords that identifiers are read as, in lower case. -/
def IsKeyword (k : String) : Prop :=
  ∃ n, IsName n ∧ isDashed n = false ∧ PlainColor.ofName? n = none ∧ k = n.toLower

/-- What is known of a calculation that was read. -/
structure Good (e : Calc V) : Prop where
  neat : PrintsNeat e
  keyword : ∀ k, e = .keyword k → IsKeyword k

theorem prints_value (hV : Lawful V good) {v : V} (hv : good v)
    (hkind : isOperand (Term.kind v) = true) :
    PrintsSolid (value v) := by
  rcases hV.solid_or hv with h | h | h
  · exact h
  · rw [hV.kind_leaf v _ h] at hkind
    cases hkind
  · rw [hV.kind_leaf v _ h] at hkind
    cases hkind

theorem steady_readOperand (hV : Lawful V good) :
    Steady Good (readOperand : Reader (Calc V)) := by
  refine Twin.place fun l l' => ?_
  apply hV.steady.bind
  intro v hv
  have hvalue : Twin Like Like Good
      (if isOperand (Term.kind v) then pure (value v) else failAt l .invalidValue)
      (if isOperand (Term.kind v) then pure (value v) else failAt l' .invalidValue) := by
    split
    · next hkind => exact .pure ⟨(prints_value hV hv hkind).neat, by simp⟩
    · exact .failAt l l' _ _
  cases hleaf : Term.leaf? v with
  | none => exact hvalue
  | some x =>
    cases x with
    | keyword i =>
      obtain ⟨hname, hdashed, hcolor⟩ := (hV.leaf v _ hv hleaf).keyword
      refine .pure ⟨fun _ => (solid_identifier hname.toLower.nonempty).neat, ?_⟩
      rintro k ⟨⟩
      exact ⟨i.name, hname, hdashed, hcolor, rfl⟩
    | _ => exact hvalue

theorem atFunction_eq {c d : Cursor} (h : Like c d) : atFunction c = atFunction d := by
  obtain ⟨r, r', hfront, -⟩ := h.front
  have hnext := hfront.next
  unfold atFunction
  generalize c.next = x at hnext
  generalize d.next = y at hnext
  cases hnext with
  | error => rfl
  | @ok t => cases t <;> rfl

variable {inner : Reader (Calc V)}

theorem steadyHead_readFunction (hinner : Steady Good inner) :
    SteadyHead PrintsSolid (readFunction inner) := by
  intro r r'
  apply (Twin.expect fun _ _ _ _ => trivial).bind
  intro f (_ : True)
  apply hinner.commaSeparated.nestedBlock.bind
  intro es hes
  refine .pure ?_
  exact solid_function f fun e he => (hes.2 e he).neat

theorem steady_parentheses (hinner : Steady Good inner) :
    Steady Good (nested (block inner)) :=
  .of_opened fun _ _ => hinner.nestedBlock.mono (fun _ => id) fun _ _ h => h.opened

theorem steady_readFactor (hV : Lawful V good) (hinner : Steady Good inner) :
    Steady Good (readFactor inner) := by
  refine Twin.get fun c d hlike => ?_
  rw [atFunction_eq hlike]
  split
  · exact (steadyHead_readFunction hinner).steady.bind fun f hf => .pure ⟨hf.neat, by simp⟩
  · refine (steady_expect_true _).succeeds.bind fun opened _ => ?_
    cases opened with
    | true => exact steady_parentheses hinner
    | false => exact steady_readOperand hV

theorem steady_readFactors (hV : Lawful V good) (hinner : Steady Good inner) (count : Nat)
    {a : Calc V} (ha : Good a) : Steady Good (readFactors inner count a) := by
  induction count generalizing a with
  | zero => exact .pure ha
  | succ n ih =>
    refine (steady_expect_true _).attempt.bind fun operator? _ => ?_
    cases operator? with
    | none => exact .pure ha
    | some operator =>
      cases operator
      · exact (steady_readFactor hV hinner).bind fun b hb =>
          ih ⟨neat_product ha.neat hb.neat, by simp⟩
      · exact (steady_readFactor hV hinner).bind fun b hb =>
          ih ⟨neat_quotient ha.neat hb.neat, by simp⟩

theorem steady_readProduct (hV : Lawful V good) (hinner : Steady Good inner) :
    Steady Good (readProduct inner) := by
  refine (steady_readFactor hV hinner).bind fun a ha => Twin.get fun c d hlike => ?_
  rw [hlike.rest.length_eq]
  exact steady_readFactors hV hinner _ ha

theorem steady_next : Steady Token.Sound next :=
  .of_front fun _ _ => Twin.next.mono (fun _ => id) fun _ _ h => h.mono (by decide)

theorem nextRawOf_alike {m n : Nat} {ks ls : List Component} (h : Alike 126 m n ks ls)
    (place place' : Location) :
    (∃ r r' here here', Alike 126 m n r r' ∧
      Cursor.nextRawOf m place ks = .ok (none, ⟨r, here, none, m⟩) ∧
      Cursor.nextRawOf n place' ls = .ok (none, ⟨r', here', none, n⟩)) ∨
    (∀ c', Cursor.nextRawOf m place ks ≠ .ok (none, c')) ∧
      ∀ d', Cursor.nextRawOf n place' ls ≠ .ok (none, d') := by
  induction ks generalizing ls place place' with
  | nil =>
    obtain rfl := h.nil_iff.mp rfl
    exact .inr ⟨fun c' => by rintro ⟨⟩, fun d' => by rintro ⟨⟩⟩
  | cons k ks ih =>
    cases ls with
    | nil => exact absurd (h.nil_iff.mpr rfl) (by simp)
    | cons l ls =>
      have hhead := h.head
      cases k with
      | blanks place₁ =>
        cases l <;> simp only [Component.bare, reduceCtorEq] at hhead
        exact .inl ⟨ks, ls, _, _, h.tail, rfl, rfl⟩
      | comment place₁ =>
        cases l <;> simp only [Component.bare, reduceCtorEq] at hhead
        exact ih h.tail _ _
      | token t place₁ =>
        cases l <;> simp only [Component.bare, reduceCtorEq] at hhead
        exact .inr ⟨fun c' => by rintro ⟨⟩, fun d' => by rintro ⟨⟩⟩
      | block t place₁ content stop =>
        cases l <;> simp only [Component.bare, reduceCtorEq] at hhead
        exact .inr ⟨fun c' => by rintro ⟨⟩, fun d' => by rintro ⟨⟩⟩

/-- A reader that goes on behind a run of blanks, if one comes next. -/
theorem Twin.nextRaw {α : Type} {good : α → Prop} {f : Reader α} {p : Reader α}
    (hf : Steady good f) (hp : Steady good p) {g : Cursor → Reader α}
    (hblanks : ∀ c c', c.nextRaw = .ok (none, c') → g c c = f c')
    (hother : ∀ c, (∀ c', c.nextRaw ≠ .ok (none, c')) → g c c = p c) :
    Steady good (get >>= g) := by
  intro c d hlike
  change Agree _ (g c c) (g d d)
  have hleave := hlike.leave
  have hm := Cursor.leave_nesting c
  have hn := Cursor.leave_nesting d
  rcases nextRawOf_alike (m := c.nesting) (n := d.nesting) (by rw [← hm, ← hn]; exact hleave.rest)
    c.leave.here d.leave.here with ⟨r, r', here, here', halike, hc, hd⟩ | ⟨hc, hd⟩
  · rw [hblanks c _ hc, hblanks d _ hd]
    have hbehind : Like ⟨r, here, none, c.nesting⟩ ⟨r', here', none, d.nesting⟩ := ⟨halike, .none⟩
    exact hf _ _ hbehind
  · rw [hother c hc, hother d hd]
    exact hp c d hlike

/-- What the reader of terms goes on with behind blanks. -/
def readTerm (inner : Reader (Calc V)) (count : Nat) (a : Calc V) : Reader (Calc V) := do
  if ← atEnd then return a
  match ← next with
  | .delim '+' => readTerms inner count (sum a (← readProduct inner))
  | .delim '-' => readTerms inner count (difference a (← readProduct inner))
  | t => fail (.unexpectedToken t)

theorem readTerms_succ (inner : Reader (Calc V)) (count : Nat) (a : Calc V) (c : Cursor) :
    readTerms inner (count + 1) a c =
      (match c.nextRaw with
        | .ok (none, c') => fun _ => readTerm inner count a c'
        | _ => (pure a : Reader (Calc V))) c := rfl

theorem readTerms_blanks {c c' : Cursor} (h : c.nextRaw = .ok (none, c')) (count : Nat)
    (a : Calc V) :
    readTerms inner (count + 1) a c = readTerm inner count a c' := by
  rw [readTerms_succ, h]

theorem readTerms_other {c : Cursor} (h : ∀ c', c.nextRaw ≠ .ok (none, c')) (count : Nat)
    (a : Calc V) : readTerms inner (count + 1) a c = .ok (a, c) := by
  rw [readTerms_succ]
  rcases hraw : c.nextRaw with fault | ⟨t | t, c'⟩
  · rfl
  · exact absurd hraw (h c')
  · rfl

theorem steady_readTerms (hV : Lawful V good) (hinner : Steady Good inner) (count : Nat)
    {a : Calc V} (ha : Good a) : Steady Good (readTerms inner count a) := by
  induction count generalizing a with
  | zero => exact .pure ha
  | succ n ih =>
    have hterm : Steady Good (readTerm inner n a) := by
      refine Twin.atEnd.bind fun stop _ => ?_
      cases stop with
      | true => exact .pure ha
      | false =>
        refine steady_next.bind fun t _ => ?_
        split
        · exact (steady_readProduct hV hinner).bind fun b hb =>
            ih ⟨neat_sum ha.neat hb.neat, by simp⟩
        · exact (steady_readProduct hV hinner).bind fun b hb =>
            ih ⟨neat_difference ha.neat hb.neat, by simp⟩
        · exact .fail _
    exact Twin.nextRaw hterm (.pure ha) (fun c c' h => readTerms_blanks h n a)
      fun c h => readTerms_other h n a

theorem steady_readTermsOf (hV : Lawful V good) (hinner : Steady Good inner) :
    Steady Good (readTermsOf inner) := by
  refine (steady_readProduct hV hinner).bind fun a ha => Twin.get fun c d hlike => ?_
  rw [hlike.rest.length_eq]
  exact steady_readTerms hV hinner _ ha

theorem steady_readWithin (hV : Lawful V good) (depth : Nat) :
    Steady Good (readWithin depth : Reader (Calc V)) := by
  induction depth with
  | zero => exact .fail _
  | succ n ih => exact steady_readTermsOf hV ih

theorem steady_read (hV : Lawful V good) : Steady Good (read : Reader (Calc V)) :=
  steady_readWithin hV _

end Reading

end Calc

open Calc in
theorem MathFunction.steadyHead_read [Term V] {good : V → Prop} (hV : Lawful V good) :
    SteadyHead PrintsSolid (read : Reader (MathFunction V)) :=
  steadyHead_readFunction (steady_readWithin hV _)

section Measures

variable [Term V] {good : V → Prop}

theorem Measure.steady {D : Type} [Readable D] [Printable D] (hV : Lawful V good)
    (hD : Steady PrintsSolid (read : Reader D)) :
    Steady PrintsSolid (read : Reader (Measure D V)) := by
  refine .orElse ?_ (.orElse ?_ (.orElse ?_ steady_failNext))
  · exact (MathFunction.steadyHead_read hV).steady.map fun _ h => h
  · exact hD.map fun _ h => h
  · exact steady_percentage.map fun _ h => h

theorem steady_lengthPercentage (hV : Lawful V good) :
    Steady PrintsSolid (read : Reader (LengthPercentage V)) :=
  Measure.steady hV steady_length

theorem steady_anglePercentage (hV : Lawful V good) :
    Steady PrintsSolid (read : Reader (AnglePercentage V)) :=
  Measure.steady hV steady_dimension

theorem steady_lengthPercentageOrAuto (hV : Lawful V good) :
    Steady PrintsSolid (read : Reader (LengthPercentageOrAuto V)) := by
  refine .orElse ?_ (.orElse ?_ steady_failNext)
  · exact (steady_keywordNamed _).map fun _ _ _ => solid_text (by decide)
  · exact (steady_lengthPercentage hV).map fun _ h => h

end Measures

end StyleGrammar

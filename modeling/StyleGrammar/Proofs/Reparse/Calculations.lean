import StyleGrammar.Proofs.Reparse.Values

/-!
# Calculations are read back as they are

A calculation that is printed is read as the same tree, so the printer puts
parentheses where the reader needs them and nowhere else does a term or factor
go astray.  The reader loops to the left: `Factors a ks b` says that behind `a`
the components `ks` are more factors, with which the product is `b`, whatever
comes behind; and likewise `Terms`.  Such steps can be put one behind the
other, which is how the loops read what the printer nests to the left.
-/

namespace StyleGrammar

open Reader Output Component Scan

namespace Calc

variable {V : Type} [Term V] {good : V → Prop} {a b e : Calc V} {k : Component}
  {ks ls : List Component}

variable {d n : Nat}

/-! Factors. -/

/-- A component that a factor is read from. -/
def Factor (e : Calc V) (k : Component) : Prop :=
  ∀ d n ls, Fits d n [k] → Takes (Ahead n (k :: ls)) (Stand n ls) e (readFactor (readWithin d))

/-- Behind `a` the components are factors that make it `b`. -/
def Factors (a : Calc V) (ks : List Component) (b : Calc V) : Prop :=
  ∀ d n ls (Q : Cursor → Prop) x j, Fits d n ks →
    (∀ m, j ≤ m → Takes (Stand n ls) Q x (readFactors (readWithin d) m b)) →
    ∀ m, j + ks.length ≤ m → Takes (Stand n (ks ++ ls)) Q x (readFactors (readWithin d) m a)

theorem Factors.refl (a : Calc V) : Factors a [] a := fun _ _ _ _ _ _ _ h => h

theorem Factors.trans {c : Calc V} (h : Factors a ks b) (h' : Factors b ls c) :
    Factors a (ks ++ ls) c := by
  intro d n rest Q x j hfits hrest m hm
  have hbehind := h' d n rest Q x j hfits.right hrest
  rw [List.append_assoc]
  rw [List.length_append] at hm
  exact h d n (ls ++ rest) Q x (j + ls.length) hfits.left hbehind m (by omega)

theorem skip_gap (compact : Bool) (ks : List Component) : skip (gap compact ++ ks) = skip ks := by
  cases compact <;> rfl

/-- The operator of products and of quotients. -/
def Operator.sign : Operator → Char
  | .times => '*'
  | .over => '/'

def Operator.apply : Operator → Calc V → Calc V → Calc V
  | .times => product
  | .over => quotient

theorem Factors.step (compact : Bool) (operator : Operator) (a : Calc V) (hb : Factor b k) :
    Factors a (gap compact ++ .token (.delim operator.sign) .start :: (gap compact ++ [k]))
      (operator.apply a b) := by
  intro d n ls Q x j hfits hrest m hm
  have hfits' : Fits d n [k] := hfits.right.tail.right
  simp only [List.length_append, List.length_cons] at hm
  obtain ⟨m, rfl⟩ : ∃ m', m = m' + 1 := ⟨m - 1, by omega⟩
  have hsign : Takes
      (Stand n (gap compact ++ .token (.delim operator.sign) .start :: (gap compact ++ [k]) ++ ls))
      (Stand n (gap compact ++ [k] ++ ls)) (some operator) (attempt (expect operator?)) := by
    have htoken : operator? (.delim operator.sign) = some operator := by cases operator <;> rfl
    refine ((takes_token htoken).before fun c hc => ?_).attempt
    exact hc.ahead.of_skip (by rw [List.append_assoc, skip_gap]; rfl)
  have hfactor : Takes (Stand n (gap compact ++ [k] ++ ls)) (Stand n ls) b
      (readFactor (readWithin d)) :=
    (hb d n ls hfits').before fun c hc => hc.ahead.of_skip (by
      rw [List.append_assoc, skip_gap]
      rfl)
  refine hsign.bind ?_
  cases operator
  · exact hfactor.bind (hrest m (by omega))
  · exact hfactor.bind (hrest m (by omega))

/-- The components of a product: a factor and more behind it. -/
inductive Product : Calc V → List Component → Prop
  | intro {a e : Calc V} {k : Component} {ks : List Component} (hfactor : Factor a k)
      (h : Factors a ks e) : Product e (k :: ks)

theorem Product.takes (h : Product e ks) (hfits : Fits d n ks)
    (hls : Fails (Stand n ls) (expect operator?)) :
    Takes (Ahead n (ks ++ ls)) (Stand n ls) e (readProduct (readWithin d)) := by
  cases h with
  | @intro a _ k ks hfactor h =>
    refine (hfactor d n (ks ++ ls) hfits.head).bind (Takes.get fun c hc => ?_)
    refine h d n ls _ e 0 hfits.tail (fun m _ => ?_) _ ?_
    · cases m with
      | zero => exact .pure e
      | succ m => exact hls.attempt.bind (.pure e)
    · have hlength := length_bareAll c.rest
      rw [hc.rest, List.length_append] at hlength
      omega

/-! Terms. -/

/-- Behind `a` the components are terms that make it `b`.  The factors of the term before them end
where they begin. -/
structure Terms (a : Calc V) (ks : List Component) (b : Calc V) : Prop where
  stops : ∀ n ls, Fails (Stand n ls) (expect operator?) →
  Fails (Stand n (ks ++ ls)) (expect operator?)
  takes : ∀ d n ls (Q : Cursor → Prop) x j, Fits d n ks → Fails (Stand n ls) (expect operator?) →
    (∀ m, j ≤ m → Takes (Stand n ls) Q x (readTerms (readWithin d) m b)) →
    ∀ m, j + ks.length ≤ m → Takes (Stand n (ks ++ ls)) Q x (readTerms (readWithin d) m a)

theorem Terms.refl (a : Calc V) : Terms a [] a := ⟨fun _ _ h => h, fun _ _ _ _ _ _ _ _ h => h⟩

theorem Terms.trans {c : Calc V} (h : Terms a ks b) (h' : Terms b ls c) : Terms a (ks ++ ls) c := by
  refine ⟨fun n rest hrest => ?_, fun d n rest Q x j hfits hstops hrest m hm => ?_⟩
  · rw [List.append_assoc]
    exact h.stops n _ (h'.stops n rest hrest)
  · have hbehind := h'.takes d n rest Q x j hfits.right hstops hrest
    rw [List.append_assoc]
    rw [List.length_append] at hm
    exact h.takes d n (ls ++ rest) Q x (j + ls.length) hfits.left (h'.stops n rest hstops) hbehind m
      (by omega)

theorem nextRaw_blanks {c : Cursor} (h : Stand n (.blanks .start :: ks) c) :
    ∃ c', c.nextRaw = .ok (none, c') ∧ Stand n ks c' := by
  have hrest := h.rest
  unfold Cursor.nextRaw
  rw [Cursor.leave_rest, h.nesting]
  cases hc : c.rest with
  | nil =>
    rw [hc] at hrest
    cases hrest
  | cons k r =>
    rw [hc] at hrest
    obtain ⟨hk, hr⟩ := List.cons.inj hrest
    cases k <;> cases hk
    exact ⟨_, rfl, hr, rfl⟩

theorem nextRaw_end {c : Cursor} (h : Stand n [] c) : ∃ e, c.nextRaw = .error e := by
  have hrest : c.rest = [] := by
    have := length_bareAll c.rest
    rw [h.rest] at this
    exact List.length_eq_zero_iff.mp this.symm
  exact ⟨_, by rw [Cursor.nextRaw, Cursor.leave_rest, hrest]; rfl⟩

/-- The sign of a term, for a sum or a difference. -/
def signOf (negative : Bool) : Char := if negative then '-' else '+'

def addTo (negative : Bool) : Calc V → Calc V → Calc V := if negative then difference else sum

theorem Terms.step (negative : Bool) (a : Calc V) (hb : Product b ks) :
    Terms a (.blanks .start :: .token (.delim (signOf negative)) .start :: .blanks .start :: ks)
      (addTo negative a b) := by
  have hoperator : operator? (.delim (signOf negative)) = none := by cases negative <;> rfl
  refine ⟨fun n ls _ => (fails_token hoperator).before fun c hc => hc.ahead.of_skip rfl, ?_⟩
  intro d n ls Q x j hfits hstops hrest m hm
  simp only [List.length_cons] at hm
  obtain ⟨m, rfl⟩ : ∃ m', m = m' + 1 := ⟨m - 1, by omega⟩
  have hproduct : Takes (Stand n (.blanks .start :: (ks ++ ls))) (Stand n ls) b
      (readProduct (readWithin d)) :=
    (hb.takes hfits.tail.tail.tail hstops).before fun c hc => hc.ahead.of_skip rfl
  have hterm : Takes (Stand n
      (.token (.delim (signOf negative)) .start :: .blanks .start :: (ks ++ ls)))
      Q x (readTerm (readWithin d) m a) := by
    refine ((takes_notAtEnd (by simp)).before fun c hc => hc.ahead).bind ?_
    refine (takes_next _).bind ?_
    cases negative with
    | true => exact hproduct.bind (hrest m (by omega))
    | false => exact hproduct.bind (hrest m (by omega))
  intro c hc
  obtain ⟨c', hblanks, hc'⟩ := nextRaw_blanks hc
  rw [readTerms_blanks hblanks]
  exact hterm c' hc'

/-- The components of a sum: a product and more terms behind it. -/
inductive Sum : Calc V → List Component → Prop
  | intro {a e : Calc V} {ks ls : List Component} (hproduct : Product a ks) (h : Terms a ls e) :
      Sum e (ks ++ ls)

theorem Sum.takes (h : Sum e ks) (hfits : Fits d n ks) :
    Takes (Ahead n ks) (Ahead n []) e (readWithin (d + 1)) := by
  cases h with
  | @intro a _ ps ts hproduct h =>
    have hend : Fails (Stand n []) (expect operator?) := fails_end.before fun _ hc => hc.ahead
    have hstops : Fails (Stand n ts) (expect operator?) := by simpa using h.stops n [] hend
    refine (hproduct.takes hfits.left hstops).bind (Takes.get fun c hc => ?_)
    have hterms := h.takes d n [] (Ahead n []) e 0 hfits.right hend (fun m _ => ?_) c.rest.length
    · rw [List.append_nil] at hterms
      refine hterms ?_
      have hlength := length_bareAll c.rest
      rw [hc.rest] at hlength
      omega
    · cases m with
      | zero => exact (Takes.pure e).after fun _ hc => hc.ahead
      | succ m =>
        intro c hc
        obtain ⟨fault, hnext⟩ := nextRaw_end hc
        exact ⟨c, readTerms_other (by simp [hnext]) m e, hc.ahead⟩

theorem Product.apply (h : Product a ks) (compact : Bool) (operator : Operator) (hb : Factor b k) :
    Product (operator.apply a b)
      (ks ++ (gap compact ++ .token (.delim operator.sign) .start :: (gap compact ++ [k]))) := by
  cases h with
  | intro hfactor h => exact .intro hfactor (h.trans (.step compact operator a hb))

theorem Sum.addTo (h : Sum a ks) (negative : Bool) (hb : Product b ls) :
    Sum (addTo negative a b)
      (ks ++ .blanks .start :: .token (.delim (signOf negative)) .start ::
      .blanks .start :: ls) := by
  cases h with
  | intro hproduct h =>
    rw [List.append_assoc]
    exact .intro hproduct (h.trans (.step negative a hb))

/-- The components of a calculation whose root binds as tightly as the level says. -/
inductive Reads : Level → Calc V → List Component → Prop
  | operand {e : Calc V} {k : Component} (h : Factor e k) : Reads .operand e [k]
  | product {e : Calc V} {ks : List Component} (h : Product e ks) : Reads .product e ks
  | sum {e : Calc V} {ks : List Component} (h : Sum e ks) : Reads .sum e ks

theorem Reads.product_of_ne {l : Level} (h : Reads l e ks) (hl : l ≠ .sum) : Product e ks := by
  cases h with
  | operand h => exact .intro h (.refl e)
  | product h => exact h
  | sum => exact absurd rfl hl

theorem Reads.toSum {l : Level} (h : Reads l e ks) : Sum e ks := by
  cases h with
  | sum h => exact h
  | operand h => simpa using Sum.intro (.intro h (.refl e)) (.refl e)
  | product h => simpa using Sum.intro h (.refl e)

/-! What is printed. -/

/-- The components of an output, wherever it stands; there is no comma among them. -/
structure Writes (o : Output) (ks : List Component) : Prop extends NeatAs o ks where
  commas : ∀ k ∈ ks, k.isComma = false

variable {o o' : Output}

theorem commas_gap (compact : Bool) : ∀ k ∈ gap compact, k.isComma = false := by
  cases compact <;> simp [gap, isComma]

theorem Writes.additive (ho : Writes o ks) (negative : Bool) (ho' : Writes o' ls) :
    Writes (o ++ Calc.additive (signOf negative) ++ o')
      (ks ++ .blanks .start :: .token (.delim (signOf negative)) .start ::
      .blanks .start :: ls) := by
  have hsign : signOf negative = '+' ∨ signOf negative = '-' := by
    cases negative
    · exact .inl rfl
    · exact .inr rfl
  have hboth := ho.toNeatAs.append (trailsAs_additive hsign ho'.toNeatAs)
  rw [← List.append_assoc] at hboth
  refine ⟨hboth, ?_⟩
  simp only [List.forall_mem_append, List.forall_mem_cons]
  exact ⟨ho.commas, rfl, rfl, rfl, ho'.commas⟩

theorem Writes.multiplicative (ho : Writes o ks) (compact : Bool) (operator : Operator)
    (ho' : Writes o' ls) :
    Writes (o ++ Output.delim compact operator.sign true ++ o')
      (ks ++ (gap compact ++ .token (.delim operator.sign) .start :: (gap compact ++ ls))) := by
  have hsign : operator.sign = '/' ∨ operator.sign = '*' := by
    cases operator
    · exact .inr rfl
    · exact .inl rfl
  have hboth := ho.toNeatAs.append (ho'.toNeatAs.behindOperator compact hsign)
  rw [← List.append_assoc] at hboth
  refine ⟨hboth, ?_⟩
  simp only [List.forall_mem_append, List.forall_mem_cons]
  exact ⟨ho.commas, commas_gap compact, rfl, commas_gap compact, ho'.commas⟩

/-- In parentheses a calculation is a factor. -/
theorem factor_parentheses (h : Sum e ks) :
    Factor e (.block .openParenthesis .start ks .start) := by
  intro d n ls hfits
  obtain ⟨d, rfl, hlimit, hinside⟩ := hfits.content
  refine Takes.get fun c hc => ?_
  have hfunction : atFunction c = false := by
    obtain ⟨c', hnext, -⟩ := next_block hc
    rw [atFunction, hnext]
  rw [if_neg (by simp [hfunction])]
  have hopen : Takes (Ahead n (.block .openParenthesis .start ks .start :: ls)) (Inside n ks ls) ()
      parenthesis :=
    takes_opener rfl
  exact hopen.succeeds.bind
    (.nestedBlock hlimit ((h.takes hinside).before fun _ hc => hc.ahead))

theorem ofName?_mathName (f : MathName) : Keyword.ofName? MathName (Keyword.name f) = some f :=
  ofName?_name (Form.mathName_mem_all f) (by decide +kernel)

/-- Arguments between commas make a function a factor. -/
theorem factor_function (f : MathName) {es : List (Calc V)}
    (h : ∀ d n, Fits d n ks → Items (readWithin (d + 1)) n es ks) :
    Factor (function f es) (.block (.function (Keyword.name f)) .start ks .start) := by
  intro d n ls hfits
  obtain ⟨d, rfl, hlimit, hinside⟩ := hfits.content
  refine Takes.get fun c hc => ?_
  have hfunction : atFunction c = true := by
    obtain ⟨c', hnext, -⟩ := next_block hc
    rw [atFunction, hnext]
    simp [ofName?_mathName]
  rw [if_pos hfunction]
  have harguments : Takes (Inside n ks ls) (Stand n ls) es
      (nested (block (commaSeparated (readWithin (d + 1))))) :=
    .nestedBlock hlimit (.commaSeparated (h d (n + 1) hinside))
  have hfunction : Takes (Ahead n (.block (.function (Keyword.name f)) .start ks .start :: ls))
      (Stand n ls) ⟨f, es⟩ (readFunction (readWithin (d + 1))) :=
    (takes_opener (ofName?_mathName f)).bind (harguments.bind (.pure _))
  exact hfunction.bind (.pure _)

theorem Writes.parenthesized (ho : Writes o ks) (h : Sum e ks) :
    ∃ k, Writes (Calc.parenthesized true o) [k] ∧ Factor e k := by
  have hshape : chars (Calc.parenthesized true o) = '(' :: (chars o ++ [')']) := by
    simp [Calc.parenthesized]
  refine ⟨_, ⟨⟨?_, ?_⟩, by simp [isComma]⟩, factor_parentheses h⟩
  · rw [hshape]
    exact ho.makes.parentheses (by decide)
  · rw [hshape]
    exact ⟨'(', _, rfl, by decide⟩

/-! Operands. -/

section Operands

variable {P Q : Cursor → Prop} {v : V}

theorem takes_readOperand_value (hV : Lawful V good) (hkind : isOperand (Term.kind v) = true)
    (h : Takes P Q v read) : Takes P Q (value v) readOperand := by
  refine Takes.place fun l => h.bind ?_
  split
  · next i hleaf =>
    rw [hV.kind_leaf v _ hleaf] at hkind
    cases hkind
  · rw [if_pos hkind]
    exact .pure _

theorem takes_readOperand_keyword {i : Ident} (hleaf : Term.leaf? v = some (.keyword i))
    (h : Takes P Q v read) : Takes P Q (keyword i.name.toLower : Calc V) readOperand := by
  refine Takes.place fun l => h.bind ?_
  rw [hleaf]
  exact .pure _

/-- Where an operand is read, no function and no parenthesis opens. -/
theorem factor_operand (hV : Lawful V good) (hmath : Term.kind v ≠ .math)
    (hread : ∀ n ls, n + 2 * k.depth ≤ 126 → Takes (Ahead n (k :: ls)) (Stand n ls) v read)
    (he : ∀ P Q, Takes P Q v read → Takes P Q e readOperand) : Factor e k := by
  intro d n ls hfits
  have hvalue := hread n ls (by simpa [depthAll] using hfits.nesting)
  refine Takes.get fun c hc => ?_
  have hfunction : ¬ atFunction c = true := by
    obtain ⟨c', hvalue, -⟩ := hvalue c hc
    unfold atFunction
    split
    · next name c'' hnext =>
      exact fun hname => hmath (hV.math c c'' c' name v hnext hname hvalue)
    · simp
  rw [if_neg hfunction]
  have hparenthesis : Fails (Ahead n (k :: ls)) parenthesis := by
    refine hV.fails_expect (fun t ht => ?_) hvalue
    have ht : t = .openParenthesis := by simpa using ht
    subst ht
    exact ⟨by simp, _, rfl⟩
  exact hparenthesis.succeeds.bind (he _ _ hvalue)

end Operands

/-- A value that can be calculated with is a factor, if it is read from its own text. -/
theorem writes_value (hV : Lawful V good) (compact : Bool) {v : V} (hv : Reread compact v)
    (hkind : isOperand (Term.kind v) = true) :
    ∃ k, Writes (print compact (value v)) [k] ∧ Factor (value v) k := by
  have hgood : good v := hV.steady.good_of_run hv
  have hsolid := prints_value hV hgood hkind compact
  obtain ⟨k, hmakes, hcomma, hread⟩ := exists_readFrom hV.opened hsolid hv
  refine ⟨k, ⟨⟨hmakes, hsolid.2⟩, by simpa using hcomma⟩, ?_⟩
  refine factor_operand hV (fun hmath => ?_) hread.takes
    fun _ _ => takes_readOperand_value hV hkind
  rw [hmath] at hkind
  cases hkind

/-- A keyword in lower case is a factor. -/
theorem writes_keyword (hV : Lawful V good) (compact : Bool) {w : String} (hw : IsKeyword w) :
    Writes (print compact (keyword w : Calc V)) [.token (.ident w) .start] ∧
      Factor (keyword w : Calc V) (.token (.ident w) .start) := by
  obtain ⟨n, hname, hdashed, hcolor, rfl⟩ := hw
  have hlower := hname.toLower
  have hmakes : Makes wordStops (chars (print compact (keyword n.toLower : Calc V)))
      [.token (.ident n.toLower) .start] := by
    have := Makes.identifier (s := n.toLower.toList) (by simpa using hlower.nonempty) hlower.sound
    simpa [Calc.print, identifierText] using this
  refine ⟨⟨⟨hmakes, (solid_identifier hlower.nonempty).2⟩, by simp [isComma]⟩, ?_⟩
  have hleaf : Leaf.ofToken (.ident n.toLower) = .ok (.keyword ⟨n.toLower⟩) := by
    simp only [Leaf.ofToken, isDashed_toLower, ofName?_toLower, hdashed, hcolor]
    rfl
  have hlower' := hV.leaf?_ofLeaf (.keyword ⟨n.toLower⟩)
  refine factor_operand hV (v := Term.ofLeaf (.keyword ⟨n.toLower⟩)) ?_ (fun m ls _ c hc => ?_)
    fun P Q h => ?_
  · rw [hV.kind_leaf _ _ hlower']
    simp [Leaf.kind]
  · obtain ⟨c', hnext, hc', -⟩ := next_token hc
    exact ⟨c', by rw [hV.token c c' _ hnext (by simp), hleaf], hc'⟩
  · have := takes_readOperand_keyword hlower' h
    rwa [toLower_toLower] at this

/-! Arguments. -/

/-- The components of what is printed, from which the calculation is read. -/
def Restores (compact : Bool) (e : Calc V) : Prop :=
  ∃ ks, Writes (print compact e) ks ∧ Reads e.level e ks

theorem makes_arguments (compact : Bool) {es : List (Calc V)} (hne : es ≠ [])
    (h : ∀ e ∈ es, Restores compact e) :
    ∃ ks, NeatAs (printAll compact es) ks ∧ ∀ d n, Fits d n ks →
    Items (readWithin (d + 1)) n es ks := by
  induction es with
  | nil => exact absurd rfl hne
  | cons e es ih =>
    obtain ⟨ks, hwrites, hreads⟩ := h e List.mem_cons_self
    have hsum := hreads.toSum
    cases es with
    | nil =>
      exact ⟨ks, hwrites.toNeatAs, fun d n hfits => .last (hsum.takes hfits) hwrites.commas⟩
    | cons e' es =>
      obtain ⟨ls, hneat, hitems⟩ := ih (by simp) fun x hx => h x (List.mem_cons_of_mem e hx)
      have hboth := hwrites.toNeatAs.append (hneat.behindComma compact)
      rw [← List.append_assoc] at hboth
      refine ⟨_, hboth, fun d n hfits => ?_⟩
      exact .cons (hsum.takes hfits.left) hwrites.commas
        ((hitems d n hfits.right.tail.right).gap compact)

theorem writes_function (compact : Bool) (f : MathName) {es : List (Calc V)} (hne : es ≠ [])
    (h : ∀ e ∈ es, Restores compact e) :
    ∃ k, Writes (print compact (function f es)) [k] ∧ Factor (function f es) k := by
  obtain ⟨ks, hneat, hitems⟩ := makes_arguments compact hne h
  have hname := isFunctionName_mathName f
  have hinside : Makes closers _ _ := hneat.makes.mono (by decide)
  have hcall := makes_call hname hinside
  exact ⟨_, ⟨⟨hcall, begins_call hname _⟩, by simp [isComma]⟩, factor_function f hitems⟩

/-! Trees. -/

mutual

/-- Operands are of a kind that can be calculated with and reread, keywords are such as are read,
and functions have arguments. -/
def Restorable (compact : Bool) : Calc V → Prop
  | sum a b | difference a b | product a b | quotient a b =>
    Restorable compact a ∧ Restorable compact b
  | value v => isOperand (Term.kind v) = true ∧ Reread compact v
  | keyword w => ∃ s, readText (Calc V) s = .ok (.keyword w)
  | function _ es => es ≠ [] ∧ RestorableAll compact es

def RestorableAll (compact : Bool) : List (Calc V) → Prop
  | [] => True
  | e :: es => Restorable compact e ∧ RestorableAll compact es

end

/-! A calculation in parentheses is a factor, and without them as much as its root allows. -/

theorem Writes.product {l : Level} (ho : Writes o ks) (h : Reads l e ks) :
    ∃ ls, Writes (Calc.parenthesized (l = .sum) o) ls ∧ Product e ls := by
  by_cases hl : l = .sum
  · obtain ⟨k, hk, hfactor⟩ := ho.parenthesized h.toSum
    exact ⟨[k], by simpa [hl] using hk, .intro hfactor (.refl e)⟩
  · exact ⟨ks, by simpa [hl, Calc.parenthesized] using ho, h.product_of_ne hl⟩

theorem Writes.factor {l : Level} (ho : Writes o ks) (h : Reads l e ks) :
    ∃ k, Writes (Calc.parenthesized (l != .operand) o) [k] ∧ Factor e k := by
  cases h with
  | operand hfactor => exact ⟨_, ho, hfactor⟩
  | product hproduct => exact ho.parenthesized (Reads.product hproduct).toSum
  | sum hsum => exact ho.parenthesized hsum

theorem Restores.sum {compact : Bool} (ha : Restores compact a) (hb : Restores compact b)
    (negative : Bool) : Restores compact (Calc.addTo negative a b) := by
  obtain ⟨ks, hwrites, hreads⟩ := ha
  obtain ⟨ls, hwrites', hreads'⟩ := hb
  obtain ⟨ls, hside, hproduct⟩ := hwrites'.product hreads'
  have hboth := hwrites.additive negative hside
  have hsum := hreads.toSum.addTo negative hproduct
  cases negative with
  | true => exact ⟨_, hboth, .sum hsum⟩
  | false => exact ⟨_, hboth, .sum hsum⟩

theorem Restores.product {compact : Bool} (ha : Restores compact a) (hb : Restores compact b)
    (operator : Operator) : Restores compact (operator.apply a b) := by
  obtain ⟨ks, hwrites, hreads⟩ := ha
  obtain ⟨ls, hwrites', hreads'⟩ := hb
  obtain ⟨ks, hleft, hproduct⟩ := hwrites.product hreads
  obtain ⟨k, hright, hfactor⟩ := hwrites'.factor hreads'
  have hboth := hleft.multiplicative compact operator hright
  have hproduct := hproduct.apply compact operator hfactor
  cases operator
  · exact ⟨_, hboth, .product hproduct⟩
  · exact ⟨_, hboth, .product hproduct⟩

mutual

theorem restores (hV : Lawful V good) (compact : Bool) (e : Calc V) (h : e.Restorable compact) :
    Restores compact e := by
  cases e with
  | sum a b => exact (restores hV compact a h.1).sum (restores hV compact b h.2) false
  | difference a b => exact (restores hV compact a h.1).sum (restores hV compact b h.2) true
  | product a b => exact (restores hV compact a h.1).product (restores hV compact b h.2) .times
  | quotient a b => exact (restores hV compact a h.1).product (restores hV compact b h.2) .over
  | value v =>
    obtain ⟨k, hk, hfactor⟩ := writes_value hV compact h.2 h.1
    exact ⟨[k], hk, .operand hfactor⟩
  | keyword w =>
    obtain ⟨s, hs⟩ := h
    have hw : IsKeyword w := ((steady_read hV).good_of_run hs).keyword w rfl
    obtain ⟨hwrites, hfactor⟩ := writes_keyword hV compact hw
    exact ⟨_, hwrites, .operand hfactor⟩
  | function f es =>
    obtain ⟨k, hk, hfactor⟩ := writes_function compact f h.1 (restoresAll hV compact es h.2)
    exact ⟨[k], hk, .operand hfactor⟩

theorem restoresAll (hV : Lawful V good) (compact : Bool) (es : List (Calc V))
    (h : RestorableAll compact es) : ∀ e ∈ es, Restores compact e := by
  cases es with
  | nil => simp
  | cons e es =>
    exact List.forall_mem_cons.mpr ⟨restores hV compact e h.1, restoresAll hV compact es h.2⟩

end

theorem Writes.bareAll_ofText {compact : Bool} (h : Writes (print compact e) ks) :
    bareAll (ofText (textOf compact e).toList) = ks := by
  rw [textOf, toList_render]
  exact h.makes.bareAll_ofText

theorem Restores.readText {compact : Bool} (h : Restores compact e)
    (hdepth : depthAll (ofText (textOf compact e).toList) ≤ 60) :
    StyleGrammar.readText (Calc V) (textOf compact e) = .ok e := by
  obtain ⟨ks, hwrites, hreads⟩ := h
  have htext := hwrites.bareAll_ofText
  have hfits : Fits 128 0 ks := by
    rw [← depthAll_bareAll, htext] at hdepth
    exact ⟨by omega, by omega⟩
  exact run_of_takes htext ((hreads.toSum.takes hfits).before fun c hc => hc.ahead)

/-- The keywords that are read are the names in lower case of identifiers that are neither dashed
nor colors. -/
theorem exists_keyword_iff (hV : Lawful V good) (w : String) :
    (∃ s, StyleGrammar.readText (Calc V) s = .ok (.keyword w)) ↔ IsKeyword w := by
  constructor
  · rintro ⟨s, hs⟩
    exact ((steady_read hV).good_of_run hs).keyword w rfl
  · intro hw
    obtain ⟨hwrites, hfactor⟩ := writes_keyword hV false hw
    have hrestores : Restores false (keyword w : Calc V) := ⟨_, hwrites, .operand hfactor⟩
    refine ⟨textOf false (keyword w : Calc V), hrestores.readText ?_⟩
    rw [← depthAll_bareAll, hwrites.bareAll_ofText]
    simp [depthAll, depth]

/-- A calculation is read back from its text as it is, spaced or compact, if its operands are and
the text nests at most 60 levels deep. -/
theorem readText_textOf (depth : Nat) (compact : Bool) (e : Calc (Nested depth))
    (h : e.Restorable compact) (hdepth : depthAll (ofText (textOf compact e).toList) ≤ 60) :
    readText (Calc (Nested depth)) (textOf compact e) = .ok e :=
  (restores (Nested.lawful depth) compact e h).readText hdepth

/-- A difference on the right of a difference, and the product of both with a maximum. -/
def nestedDifference : Calc (Nested 1) :=
  let x : Calc (Nested 1) := value (.var ⟨⟨"--x"⟩, none⟩)
  product (difference x (difference x x)) (function .max [x, sum x x])

/-- Compact: the parentheses stay, since the reader loops to the left. -/
theorem readText_nestedDifference :
    textOf true nestedDifference =
      "(var(--x) - (var(--x) - var(--x)))*max(var(--x),var(--x) + var(--x))" ∧
      readText (Calc (Nested 1)) (textOf true nestedDifference) = .ok nestedDifference := by
  have hreread : Reread true (.var ⟨⟨"--x"⟩, none⟩ : Nested 1) := by decide +kernel
  have hx : Restorable true (value (.var ⟨⟨"--x"⟩, none⟩) : Calc (Nested 1)) := ⟨rfl, hreread⟩
  refine ⟨by decide +kernel, readText_textOf 1 true nestedDifference ?_ (by decide +kernel)⟩
  exact ⟨⟨hx, hx, hx⟩, by simp, hx, ⟨hx, hx⟩, trivial⟩

/-- Parentheses around what binds tighter anyway are not written again. -/
example : (readText (Calc (Nested 1)) "2 - (3 * 4)").toOption.map (textOf true) =
    some "2 - 3*4" := by
  decide +kernel

end Calc

end StyleGrammar

import StyleGrammar.Proofs.Output.Leaves
import StyleGrammar.Proofs.Reader.Twin

/-!
# Readers of single values

A reader is *steady* if it reads the same from like cursors, and *steady at the
head* if all it needs is the next component.  What is read by steady readers
prints as it should: its output is solid, so it can be read again wherever it
stands.
-/

namespace StyleGrammar

/-- What is printed is solid, spaced or compact. -/
def PrintsSolid {α : Type} [Printable α] (a : α) : Prop :=
  ∀ compact, Output.Solid (print compact a)

/-- What is printed is neat, spaced or compact. -/
def PrintsNeat {α : Type} [Printable α] (a : α) : Prop :=
  ∀ compact, Output.Neat (print compact a)

theorem PrintsSolid.neat {α : Type} [Printable α] {a : α} (h : PrintsSolid a) : PrintsNeat a :=
  fun compact => (h compact).neat

namespace Output

variable {α : Type} [Printable α]

theorem neat_separatedPrints {s : Output} (hs : Separates s) (compact : Bool) {as : List α}
    (h : ∀ a ∈ as, PrintsNeat a) (hne : as ≠ []) :
    Neat (separated s (as.map (print compact))) := by
  refine neat_separated hs (fun o ho => ?_) (by simpa using hne)
  obtain ⟨a, ha, rfl⟩ := List.mem_map.mp ho
  exact h a ha compact

/-- Outputs of two sorts. -/
theorem neat_of_mem_append {β : Type} [Printable β] (compact : Bool) {as : List α}
    {bs : List β} (ha : ∀ a ∈ as, PrintsNeat a) (hb : ∀ b ∈ bs, PrintsNeat b) :
    ∀ o ∈ as.map (print compact) ++ bs.map (print compact), Neat o := by
  intro o ho
  rcases List.mem_append.mp ho with ho | ho
  · obtain ⟨a, h, rfl⟩ := List.mem_map.mp ho
    exact ha a h compact
  · obtain ⟨b, h, rfl⟩ := List.mem_map.mp ho
    exact hb b h compact

theorem tidy_separatedPrints {s : Output} (hs : Separates s) (compact : Bool) {as : List α}
    (h : ∀ a ∈ as, PrintsNeat a) : Tidy (separated s (as.map (print compact))) := by
  by_cases hne : as = []
  · subst hne
    exact tidy_nil
  · exact (neat_separatedPrints hs compact h hne).1

end Output

namespace Reader

variable {α β : Type} {good : α → Prop} {good' : β → Prop}

abbrev Steady (good : α → Prop) (p : Reader α) : Prop := Twin Like Like good p p

abbrev SteadyHead (good : α → Prop) (p : Reader α) : Prop :=
  ∀ r r', Twin (Front 125 r r') (Done r r') good p p

theorem SteadyHead.steady {p : Reader α} (h : SteadyHead good p) : Steady good p := by
  refine .of_front fun r r' c d hfront => ?_
  refine (h r r' c d (hfront.mono (by decide))).mono ?_
  rintro a c' d' ⟨ha, hdone, hn⟩
  exact ⟨ha, hdone.opened, hn⟩

theorem Twin.before {P P' Q : Cursor → Cursor → Prop} {p q : Reader α} (h : Twin P' Q good p q)
    (hP : ∀ c d, P c d → P' c d) : Twin P Q good p q :=
  fun c d hc => h c d (hP c d hc)

/-- The next token, behind which a block is open only if the token opens one. -/
theorem Twin.nextBind {Q : Cursor → Cursor → Prop} {r r' : List Component} {room : Nat}
    {f g : Token → Reader β}
    (hblock : ∀ t, t.Sound → t.closer? ≠ none → Twin (Opened room r r') Q good' (f t) (g t))
    (htoken : ∀ t, t.Sound → t.closer? = none → Twin (Done r r') Q good' (f t) (g t)) :
    Twin (Front room r r') Q good' (Reader.next >>= f) (Reader.next >>= g) := by
  intro c d hfront
  change Agree _ (c.next >>= fun x => f x.1 x.2) (d.next >>= fun x => g x.1 x.2)
  have hnext := hfront.next
  generalize c.next = x at hnext
  generalize d.next = y at hnext
  cases hnext with
  | error => exact .error
  | @ok t c' d' h =>
    obtain ⟨hsound, hdone, hopened, hm, hn⟩ := h
    rw [← hm, ← hn]
    by_cases ht : t.closer? = none
    · exact htoken t hsound ht _ _ (hdone ht)
    · exact hblock t hsound ht _ _ hopened

theorem Twin.expectFront {f : Token → Option α} (hf : ∀ t a, t.Sound → f t = some a → good a)
    {r r' : List Component} :
    Twin (Front 125 r r') (Opened 126 r r') good (Reader.expect f) (Reader.expect f) :=
  (Twin.expect hf).mono (fun _ => id) fun _ _ h => h.mono (by decide)

theorem Twin.expectAny (f : Token → Option α) {r r' : List Component} :
    Twin (Front 125 r r') (Opened 126 r r') (fun _ => True) (Reader.expect f) (Reader.expect f) :=
  .expectFront fun _ _ _ _ => trivial

theorem Twin.functionNamed (name : String) {r r' : List Component} :
    Twin (Front 125 r r') (Opened 126 r r') (fun _ => True) (functionNamed name)
      (functionNamed name) :=
  .expectAny _

/-- A function is read by its name and the reader of its content. -/
theorem steadyHead_call (name : String) {p : Reader α} (h : Steady good p) :
    SteadyHead good (Reader.functionNamed name >>= fun _ => block p) :=
  fun _ _ => (Twin.functionNamed name).bind fun _ _ => h.block

/-! Tokens. -/

theorem steady_expect_true (f : Token → Option α) : Steady (fun _ => True) (expect f) :=
  .expectLike fun _ _ _ _ => trivial

theorem steady_ident : Steady IsName ident := by
  refine .expectLike fun t n ht h => ?_
  cases t <;> cases h
  exact ht

theorem steady_keywordNamed (name : String) : Steady (fun _ => True) (keyword name) :=
  steady_expect_true _

theorem steady_comma : Steady (fun _ => True) comma := steady_expect_true _

theorem steady_delim (c : Char) : Steady (fun _ => True) (delim c) := steady_expect_true _

theorem steady_string : Steady (fun _ => True) string := steady_expect_true _

theorem steady_integer : Steady (fun _ => True) integer := steady_expect_true _

/-- Behind a comma, or nothing. -/
theorem steady_succeeds_comma : Steady (fun _ => True) (succeeds comma) := steady_comma.succeeds

theorem steadyHead_url : SteadyHead (fun _ => True) url := by
  intro r r'
  refine Twin.place fun l l' => Twin.nextBind (fun t ht hopen => ?_) fun t ht hclosed => ?_
  · cases t <;> first | exact .failAt l l' _ _ | skip
    · exact absurd rfl hopen
    · dsimp only
      split
      · exact steady_string.block.before fun c d (h : Opened 125 r r' c d) => h.mono (by decide)
      · exact .failAt l l' _ _
  · cases t <;> first | exact .failAt l l' _ _ | skip
    · exact .pure trivial
    · cases hclosed

end Reader

open Reader Output

/-! Numbers. -/

theorem prints_single (v : Single) : PrintsSolid v := fun _ => solid_number v false

theorem prints_int (n : Int) : PrintsSolid n := fun _ => solid_number _ true

theorem prints_percentage (p : Percentage) : PrintsSolid p := fun compact =>
  solid_percentage compact p

theorem steady_single : Steady PrintsSolid (read : Reader Single) :=
  show Steady PrintsSolid number from .expectLike fun _ v _ _ => prints_single v

theorem steady_int : Steady PrintsSolid (read : Reader Int) :=
  show Steady PrintsSolid integer from .expectLike fun _ n _ _ => prints_int n

theorem steady_percentage : Steady PrintsSolid (read : Reader Percentage) :=
  (steady_expect_true _).bind fun _ _ => .pure (prints_percentage _)

theorem prints_numberOrPercentage (x : NumberOrPercentage) : PrintsSolid x := by
  intro compact
  cases x with
  | number v => exact solid_number v v.isWhole
  | percentage p => exact prints_percentage p compact

theorem steady_failNext {α : Type} {good : α → Prop} : Steady good (failNext : Reader α) := by
  refine .of_front fun r r' => Twin.next.bind fun t _ => .fail _

theorem steady_numberOrPercentage : Steady PrintsSolid (read : Reader NumberOrPercentage) := by
  refine .orElse ?_ (.orElse ?_ steady_failNext)
  · exact steady_single.map fun _ _ => prints_numberOrPercentage _
  · exact steady_percentage.map fun _ _ => prints_numberOrPercentage _

/-! Dimensions. -/

/-- Units that are written as they are. -/
class PlainUnits (U : Type) [Keyword U] : Prop where
  isUnitText : ∀ u : U, isUnitText (Keyword.name u) = true

instance : PlainUnits LengthUnit := ⟨fun u => by cases u <;> decide⟩

instance : PlainUnits AngleUnit := ⟨fun u => by cases u <;> decide⟩

instance : PlainUnits TimeUnit := ⟨fun u => by cases u <;> decide⟩

instance : PlainUnits FrequencyUnit := ⟨fun u => by cases u <;> decide⟩

instance : PlainUnits ResolutionUnit := ⟨fun u => by cases u <;> decide⟩

instance : PlainUnits FlexUnit := ⟨fun u => by cases u; decide⟩

section Dimensions

variable {U : Type} [Keyword U] [PlainUnits U]

theorem prints_dimension (d : Dimension U) : PrintsSolid d := fun _ =>
  solid_dimension d.value (PlainUnits.isUnitText d.unit)

theorem steady_dimension : Steady PrintsSolid (read : Reader (Dimension U)) :=
  .expectLike fun _ d _ _ => prints_dimension d

end Dimensions

theorem steady_length : Steady PrintsSolid (read : Reader Length) :=
  .expectLike fun _ d _ _ => prints_dimension d

theorem steady_angleWithZero : Steady PrintsSolid Angle.readWithZero :=
  .expectLike fun _ d _ _ => prints_dimension d

/-! Names. -/

/-- Keywords that are written as they are. -/
class PlainKeyword (α : Type) [Keyword α] : Prop where
  isWritten : ∀ a : α, isWritten (Keyword.name a) = true

theorem prints_keyword {α : Type} [Keyword α] [PlainKeyword α] (a : α) : PrintsSolid a := fun _ =>
  solid_text (PlainKeyword.isWritten a)

theorem steady_keyword {α : Type} [Keyword α] [PlainKeyword α] :
    Steady PrintsSolid (read : Reader α) :=
  .expectLike fun _ a _ _ => prints_keyword a

theorem steady_customIdent : Steady PrintsSolid (read : Reader CustomIdent) := by
  refine .expectLike fun t i ht h => ?_
  cases t <;> try cases h
  next n =>
    dsimp only at h
    split at h
    · cases h
    · cases h
      exact fun _ => solid_identifier ht.1

theorem prints_dashedIdent (i : DashedIdent) : PrintsSolid i := fun _ =>
  solid_dashedIdentifier i.name

theorem steady_dashedIdent : Steady PrintsSolid (read : Reader DashedIdent) :=
  .expectLike fun _ i _ _ => prints_dashedIdent i

theorem prints_quotation (s : Quotation) : PrintsSolid s := fun _ => solid_quoted s.content

theorem steady_quotation : Steady PrintsSolid (read : Reader Quotation) :=
  steady_string.bind fun _ _ => .pure (prints_quotation _)

theorem prints_url (u : Url) : PrintsSolid u := fun compact => solid_url compact u

theorem steadyHead_urlValue : SteadyHead PrintsSolid (read : Reader Url) :=
  fun r r' => (steadyHead_url r r').bind fun _ _ => .pure (prints_url _)

/-! Colors. -/

theorem prints_plainColor {t : Token} {c : PlainColor} (h : PlainColor.ofToken? t = some c) :
    PrintsSolid c := by
  intro compact
  unfold PlainColor.ofToken? at h
  split at h
  · obtain ⟨x, -, rfl⟩ := Option.map_eq_some_iff.mp h
    exact solid_rgba compact x
  · obtain ⟨x, -, rfl⟩ := Option.map_eq_some_iff.mp h
    exact solid_rgba compact x
  · exact solid_color h compact
  · cases h

/-! Values. -/

/-- The leaves that are read: those that tokens stand for, and those that functions are. -/
inductive Leaf.Good : Leaf → Prop
  | token {t : Token} {l : Leaf} (ht : t.Sound) (h : Leaf.ofToken t = .ok l) : Good l
  | url (u : Url) : Good (.url u)
  | color {t : Token} {c : PlainColor} (h : PlainColor.ofToken? t = some c) : Good (.color c)

/-- A dimension is of one of six kinds. -/
theorem Leaf.exists_of_ofDimension? {t : Token} {l : Leaf} (h : Leaf.ofDimension? t = some l) :
    (∃ d, l = .length d) ∨ (∃ d, l = .angle d) ∨ (∃ d, l = .time d) ∨ (∃ d, l = .frequency d) ∨
      (∃ d, l = .resolution d) ∨ ∃ d, l = .flex d := by
  simp only [Leaf.ofDimension?, Option.map_eq_map, Option.orElse_eq_some,
    Option.map_eq_some_iff] at h
  rcases h with ⟨d, -, rfl⟩ | ⟨-, ⟨d, -, rfl⟩ | ⟨-, ⟨d, -, rfl⟩ | ⟨-, ⟨d, -, rfl⟩ |
    ⟨-, ⟨d, -, rfl⟩ | ⟨-, d, -, rfl⟩⟩⟩⟩⟩ <;> simp

theorem Leaf.prints_of_ofDimension? {t : Token} {l : Leaf} (h : Leaf.ofDimension? t = some l) :
    PrintsSolid l := by
  rcases exists_of_ofDimension? h with
    ⟨d, rfl⟩ | ⟨d, rfl⟩ | ⟨d, rfl⟩ | ⟨d, rfl⟩ | ⟨d, rfl⟩ | ⟨d, rfl⟩
  all_goals exact prints_dimension d

/-- The leaf of an identifier. -/
theorem Leaf.Good.of_ident {n : String} {l : Leaf} (ht : (Token.ident n).Sound)
    (h : Leaf.ofToken (.ident n) = .ok l) :
    PrintsSolid l ∧ ∀ i, l = .keyword i → IsName i.name ∧
      isDashed i.name = false ∧ PlainColor.ofName? i.name = none := by
  simp only [Leaf.ofToken] at h
  split at h
  · cases h
    exact ⟨prints_dashedIdent _, by rintro i ⟨⟩⟩
  · next hdashed =>
    split at h
    · next hcolor =>
      cases h
      exact ⟨fun compact => solid_color hcolor compact, by rintro i ⟨⟩⟩
    · next hcolor =>
      cases h
      refine ⟨fun _ => solid_identifier ht.1, ?_⟩
      rintro i ⟨⟩
      exact ⟨ht, by simpa using hdashed, hcolor⟩

/-- A value is solid unless it is a delimiter. -/
theorem Leaf.Good.solid_or {l : Leaf} (h : l.Good) :
    PrintsSolid l ∨ l = .delimiter ',' ∨ l = .delimiter '/' := by
  cases h with
  | url u => exact .inl (prints_url u)
  | color h => exact .inl (prints_plainColor h)
  | @token t _ ht h =>
    cases t with
    | ident n => exact .inl (of_ident ht h).1
    | number s v i =>
      cases i with
      | none =>
        cases h
        exact .inl (prints_single _)
      | some n =>
        cases h
        exact .inl (prints_int _)
    | percentage => cases h; exact .inl (prints_percentage _)
    | dimension =>
      simp only [Leaf.ofToken] at h
      split at h
      · next hdimension =>
        cases h
        exact .inl (prints_of_ofDimension? hdimension)
      · cases h
    | quotedString => cases h; exact .inl (prints_quotation _)
    | unquotedUrl => cases h; exact .inl (prints_url _)
    | hash | idHash =>
      simp only [Leaf.ofToken] at h
      split at h
      · next hcolor =>
        cases h
        exact .inl (prints_plainColor hcolor)
      · cases h
    | comma => cases h; exact .inr (.inl rfl)
    | delim c =>
      by_cases hc : c = '/'
      · subst hc
        cases h
        exact .inr (.inr rfl)
      · simp [Leaf.ofToken, hc] at h
    | _ => cases h

theorem Leaf.Good.keyword {i : Ident} (h : Leaf.Good (.keyword i)) :
    IsName i.name ∧ isDashed i.name = false ∧
      PlainColor.ofName? i.name = none := by
  cases h with
  | @token t _ ht h =>
    cases t with
    | ident n => exact (of_ident ht h).2 i rfl
    | number s v i => cases i <;> cases h
    | dimension =>
      simp only [Leaf.ofToken] at h
      split at h
      · next hdimension =>
        cases h
        simpa using exists_of_ofDimension? hdimension
      · cases h
    | hash | idHash =>
      simp only [Leaf.ofToken] at h
      split at h <;> cases h
    | delim c =>
      by_cases hc : c = '/'
      · subst hc
        cases h
      · simp [Leaf.ofToken, hc] at h
    | _ => cases h

theorem Leaf.Good.delimiter {c : Char} (h : Leaf.Good (.delimiter c)) : c = ',' ∨ c = '/' := by
  cases h with
  | @token t _ _ h =>
    cases t with
    | ident n =>
      simp only [Leaf.ofToken] at h
      split at h
      · cases h
      · split at h <;> cases h
    | number s v i => cases i <;> cases h
    | dimension =>
      simp only [Leaf.ofToken] at h
      split at h
      · next hdimension =>
        cases h
        simpa using exists_of_ofDimension? hdimension
      · cases h
    | hash | idHash =>
      simp only [Leaf.ofToken] at h
      split at h <;> cases h
    | comma =>
      cases h
      exact .inl rfl
    | delim c' =>
      by_cases hc : c' = '/'
      · subst hc
        cases h
        exact .inr rfl
      · simp [Leaf.ofToken, hc] at h
    | _ => cases h

/-- What is known of a type of values: what is read is good, needs only the next component, and
prints solidly unless it is a delimiter; tokens stand for leaves, and mathematical functions are
values of a kind of their own. -/
structure Lawful (V : Type) [Term V] (good : V → Prop) : Prop where
  head : ∀ r r', Twin (Front 124 r r') (Done r r') good (read : Reader V) read
  leaf : ∀ v l, good v → Term.leaf? v = some l → l.Good
  solid : ∀ v, good v → Term.leaf? v = none → PrintsSolid v
  print_leaf : ∀ (v : V) l compact, Term.leaf? v = some l → print compact v = print compact l
  kind_leaf : ∀ (v : V) l, Term.leaf? v = some l → Term.kind v = l.kind
  leaf?_ofLeaf : ∀ l, Term.leaf? (Term.ofLeaf l : V) = some l
  token : ∀ (c c' : Cursor) (t : Token), c.next = .ok (t, c') → (∀ n, t ≠ .function n) →
    (read : Reader V) c = match Leaf.ofToken t with
      | .ok l => .ok (Term.ofLeaf l, c')
      | .error cause => .error ⟨cause, c.here⟩
  math : ∀ (c c' c'' : Cursor) (n : String) (v : V), c.next = .ok (.function n, c') →
    (Keyword.ofName? MathName n).isSome = true → (read : Reader V) c = .ok (v, c'') →
    Term.kind v = .math

namespace Lawful

variable {V : Type} [Term V] {good : V → Prop}

theorem steady (hV : Lawful V good) : Steady good (read : Reader V) :=
  .of_front fun r r' => (hV.head r r').mono (fun _ => id) fun _ _ h => h.opened

theorem solid_or (hV : Lawful V good) {v : V} (h : good v) :
    PrintsSolid v ∨ Term.leaf? v = some (.delimiter ',') ∨
    Term.leaf? v = some (.delimiter '/') := by
  cases hleaf : Term.leaf? v with
  | none => exact .inl (hV.solid v h hleaf)
  | some l =>
    rcases (hV.leaf v l h hleaf).solid_or with hsolid | rfl | rfl
    · refine .inl fun compact => ?_
      rw [hV.print_leaf v l compact hleaf]
      exact hsolid compact
    · exact .inr (.inl rfl)
    · exact .inr (.inr rfl)

end Lawful

end StyleGrammar

import StyleGrammar.Grammar.Match
import StyleGrammar.Proofs.Reader.Success
import StyleGrammar.Proofs.Value.Lawful

/-!
# Functions and their values

Names of functions stand in three places: in the table that says which kind a function is read as,
in the reader of each kind, and in the queries that find the name of a value again.  They agree.  A
value that is read from a function has the kind that the table gives to the function, and a name
matches it exactly if it calls the same function.
-/

namespace StyleGrammar

open Reader

variable {n m : String} {k : Kind}

theorem sameName_comm (m n : String) : sameName m n = sameName n m := by
  rw [sameName, sameName, BEq.comm]

/-- A kind with one function is read from no other. -/
theorem sameName_of_single {name : String} (h : functionKind? n = some k)
    (hname : namesOf k = [name]) : sameName name n = true := by
  have hmem := toLower_mem_namesOf h
  rw [hname, List.mem_singleton] at hmem
  have hlower : name.toLower = name :=
    toLower_of_mem_namesOf (by rw [hname]; exact List.mem_singleton_self _)
  rw [sameName, hlower, hmem, beq_self_eq_true]

theorem ofFunction?_toLower (name : String) :
    ColorSpace.ofFunction? name.toLower = ColorSpace.ofFunction? name := by
  simp only [ColorSpace.ofFunction?, Keyword.ofName?, sameName_toLower, sameName_toLower_right]

theorem ofFunction?_congr (h : sameName m n = true) :
    ColorSpace.ofFunction? m = ColorSpace.ofFunction? n := by
  have hlower : m.toLower = n.toLower := by simpa [sameName] using h
  rw [← ofFunction?_toLower m, hlower, ofFunction?_toLower]

theorem sameName_of_ofName? {α : Type} [Keyword α] {a : α} (h : Keyword.ofName? α n = some a) :
    sameName (Keyword.name a) n = true := by
  simpa using List.find?_some h

theorem ColorSpace.name_mem_namesOf (space : ColorSpace) : Keyword.name space ∈ namesOf .color := by
  cases space <;> decide

/-- The functions of color spaces are those of colors. -/
theorem functionKind?_of_space {space : ColorSpace} (h : ColorSpace.ofFunction? n = some space) :
    functionKind? n = some .color := by
  unfold ColorSpace.ofFunction? at h
  split at h
  next hrgba =>
    rw [functionKind?_congr hrgba]
    exact functionKind?_of_mem (by decide)
  split at h
  next hhsla =>
    rw [functionKind?_congr hhsla]
    exact functionKind?_of_mem (by decide)
  rw [← functionKind?_congr (sameName_of_ofName? h)]
  exact functionKind?_of_mem space.name_mem_namesOf

/-- Two names call the same function if they are the same name, or those of one color space. -/
def SameFunction (m n : String) : Prop :=
  sameName m n = true ∨
    ∃ space, ColorSpace.ofFunction? m = some space ∧ ColorSpace.ofFunction? n = some space

/-- The name of the function that begins with a token. -/
def Token.called? : Token → Option String
  | .function n => some n
  | .unquotedUrl _ => some "url"
  | _ => none

namespace Form

variable {V : Type} {v : Form V}

/-- A value as it is written with a function: a color by a name of its space, any other by its only
name, which is no name of a color space. -/
inductive WrittenWith (n : String) : Form V → Prop
  | color (f : ColorFunction V) (hspace : ColorSpace.ofFunction? n = some f.space) :
    WrittenWith n (color f)
  | named (v : Form V) (hcolor : ∀ f, v ≠ .color f) (name : String)
    (hname : v.functionName? = some name) (hsame : sameName name n = true)
    (hspace : ColorSpace.ofFunction? n = none) : WrittenWith n v

theorem matchesFunction_of_ne_color (h : ∀ f, v ≠ color f) (m : String) :
    v.matchesFunction m = v.functionName?.any (sameName m) := by
  cases v with
  | color f => exact absurd rfl (h f)
  | _ => rfl

theorem WrittenWith.matchesFunction_iff (h : WrittenWith n v) (m : String) :
    v.matchesFunction m = true ↔ SameFunction m n := by
  cases h with
  | color f hspace =>
    rw [matchesFunction, decide_eq_true_eq]
    constructor
    · intro hm
      exact .inr ⟨f.space, hm, hspace⟩
    · rintro (hsame | ⟨space, hm, hn⟩)
      · rw [ofFunction?_congr hsame, hspace]
      · rw [hm, ← hn, hspace]
  | named _ hcolor name hname hsame hspace =>
    rw [matchesFunction_of_ne_color hcolor, hname, Option.any_some]
    have hlower : name.toLower = n.toLower := by simpa [sameName] using hsame
    have hiff : sameName m name = sameName m n := by rw [sameName, sameName, hlower]
    rw [hiff]
    constructor
    · exact .inl
    · rintro (hsame | ⟨space, -, hn⟩)
      · exact hsame
      · rw [hspace] at hn
        cases hn

/-! Reading. -/

section Reading

variable [Term V] {c c' d : Cursor}

theorem space_none (h : functionKind? n = some k) (hk : k ≠ .color) :
    ColorSpace.ofFunction? n = none := by
  cases hspace : ColorSpace.ofFunction? n with
  | none => rfl
  | some space =>
    rw [functionKind?_of_space hspace] at h
    exact absurd (Option.some.inj h).symm hk

omit [Term V] in
/-- A value of a kind that has one function, whose reader need not be asked for the name. -/
theorem writtenWith_single {name : String} (h : functionKind? n = some k)
    (hname : namesOf k = [name])
    (hk : k ≠ .color) (hcolor : ∀ f, v ≠ color f) (hv : v.functionName? = some name) :
    WrittenWith n v :=
  .named v hcolor name hv (sameName_of_single h hname) (space_none h hk)

omit [Term V] in
/-- A value whose function is one of a keyword. -/
theorem writtenWith_keyword {α : Type} [Keyword α] {a : α} (h : functionKind? n = some k)
    (hk : k ≠ .color) (ha : Keyword.ofName? α n = some a) (hcolor : ∀ f, v ≠ color f)
    (hv : v.functionName? = some (Keyword.name a)) : WrittenWith n v :=
  .named v hcolor _ hv (sameName_of_ofName? ha) (space_none h hk)

omit [Term V] in
/-- A gradient, whose name says whether it repeats. -/
theorem writtenWith_gradient {name : String} {repeating : Bool} (h : functionKind? n = some k)
    (hk : k ≠ .color) (hcolor : ∀ f, v ≠ color f)
    (hv : v.functionName? = some (gradientName name repeating))
    (hnext : c.next = .ok (.function n, d))
    (hread : readGradientName name c = .ok (repeating, c')) : WrittenWith n v := by
  have hf := (of_expect_next hnext hread).1
  refine .named v hcolor _ hv ?_ (space_none h hk)
  dsimp only at hf
  split at hf
  next hsame =>
    cases hf
    rwa [gradientName, if_neg Bool.false_ne_true, sameName_comm]
  split at hf
  next hsame =>
    cases hf
    rwa [gradientName, if_pos rfl, sameName_comm]
  cases hf

/-- The space of a color is that of its function. -/
theorem writtenWith_color {inner : Reader (Color V)} {s : PlainColor ⊕ ColorFunction V}
    (hnext : c.next = .ok (.function n, d)) (h : Color.readSimple inner c = .ok (s, c')) :
    ∃ f, s = .inr f ∧ ColorSpace.ofFunction? n = some f.space := by
  obtain ⟨t, e, ht, h⟩ := of_bind (of_place_bind h)
  rw [show Reader.next c = c.next from rfl, hnext] at ht
  cases ht
  cases hspace : ColorSpace.ofFunction? n with
  | none =>
    simp only [hspace] at h
    cases h
  | some space =>
    simp only [hspace] at h
    obtain ⟨f, hblock, rfl⟩ := of_map h
    obtain ⟨_, _, -, hargs, -⟩ := of_block hblock
    exact ⟨f, rfl, by rw [(Color.of_readArguments (of_entirely hargs).1).1]⟩

/-- Each reader of a function gives a value of its kind, written with the function in front. -/
theorem readFunction_writtenWith (h : functionKind? n = some k)
    (hnext : c.next = .ok (.function n, d))
    (hread : (readFunction k : Reader (Form V)) c = .ok (v, c')) :
    v.kind = k ∧ WrittenWith n v := by
  cases k with
  | color =>
    obtain ⟨s, hs, rfl⟩ := of_map hread
    obtain ⟨x, hx, rfl⟩ := of_map hs
    obtain ⟨f, rfl, hspace⟩ := writtenWith_color hnext hx
    exact ⟨rfl, .color f hspace⟩
  | linearGradient =>
    obtain ⟨g, hg, rfl⟩ := of_map hread
    obtain ⟨repeating, e, hname, hg⟩ := of_bind hg
    obtain rfl := good_of_yields (fun g : LinearGradient V => g.repeating = repeating) hg <| by
      refine yields_block (yields_after fun direction? => ?_)
      cases direction? with
      | some direction =>
        refine yields_after fun _ => yields_after fun _ => yields_after fun _ => ?_
        exact yields_pure rfl
      | none => exact yields_after fun _ => yields_after fun _ => yields_pure rfl
    exact ⟨rfl, writtenWith_gradient h nofun nofun rfl hnext hname⟩
  | radialGradient =>
    obtain ⟨g, hg, rfl⟩ := of_map hread
    obtain ⟨repeating, e, hname, hg⟩ := of_bind hg
    obtain rfl := good_of_yields (fun g : RadialGradient V => g.repeating = repeating) hg <|
      yields_block (yields_after fun _ => yields_after fun _ =>
        yields_ite (yields_after fun _ => yields_after fun _ => yields_pure rfl)
          (yields_after fun _ => yields_pure rfl))
    exact ⟨rfl, writtenWith_gradient h nofun nofun rfl hnext hname⟩
  | conicGradient =>
    obtain ⟨g, hg, rfl⟩ := of_map hread
    obtain ⟨repeating, e, hname, hg⟩ := of_bind hg
    obtain rfl := good_of_yields (fun g : ConicGradient V => g.repeating = repeating) hg <|
      yields_block (yields_after fun _ => yields_after fun _ =>
        yields_ite (yields_after fun _ => yields_after fun _ => yields_pure rfl)
          (yields_after fun _ => yields_pure rfl))
    exact ⟨rfl, writtenWith_gradient h nofun nofun rfl hnext hname⟩
  | transform =>
    obtain ⟨t, ht, rfl⟩ := of_map hread
    obtain ⟨name, hname, ht⟩ := of_expect_bind hnext (of_place_bind ht)
    obtain rfl := good_of_yields (fun t : Transform V => t.name = name) ht <|
      yields_after fun _ => yields_ite (yields_after fun _ => yields_pure rfl) (yields_pure rfl)
    exact ⟨rfl, writtenWith_keyword h nofun hname nofun rfl⟩
  | filter =>
    obtain ⟨f, hf, rfl⟩ := of_map hread
    obtain ⟨name, hname, hf⟩ := of_expect_bind hnext (of_place_bind hf)
    obtain rfl := good_of_yields (fun f : Filter V => f.name = name) hf <|
      yields_after fun _ => yields_ite (yields_after fun _ => yields_pure rfl) (yields_pure rfl)
    exact ⟨rfl, writtenWith_keyword h nofun hname nofun rfl⟩
  | alternateGlyph =>
    obtain ⟨g, hg, rfl⟩ := of_map hread
    obtain ⟨choice, hname, hg⟩ := of_expect_bind hnext (of_place_bind hg)
    obtain rfl := good_of_yields (fun g : AlternateGlyph => g.choice = choice) hg <|
      yields_after fun _ => yields_ite (yields_after fun _ => yields_pure rfl) (yields_pure rfl)
    exact ⟨rfl, writtenWith_keyword h nofun hname nofun rfl⟩
  | math =>
    obtain ⟨f, hf, rfl⟩ := of_map hread
    change Calc.readFunction (Calc.readWithin Calc.maxDepth) c = _ at hf
    unfold Calc.readFunction at hf
    obtain ⟨name, hname, hf⟩ := of_expect_bind hnext hf
    obtain rfl := good_of_yields (fun f : MathFunction V => f.name = name) hf <|
      yields_after fun _ => yields_pure rfl
    exact ⟨rfl, writtenWith_keyword h nofun hname nofun rfl⟩
  | _ =>
    first
    | cases hread
    | obtain ⟨x, -, rfl⟩ := of_map hread
      exact ⟨rfl, writtenWith_single h rfl nofun nofun rfl⟩

omit [Term V] in
/-- No function is called by a leaf that is no address. -/
theorem functionName?_ofToken {t : Token} {l : Leaf} (h : Leaf.ofToken t = .ok l)
    (ht : ∀ n, t ≠ .function n) : (leaf l : Form V).functionName? = t.called? := by
  cases t with
  | function n => exact absurd rfl (ht n)
  | number s v i => cases i <;> cases h <;> rfl
  | unquotedUrl => cases h; rfl
  | percentage | quotedString | comma => cases h; rfl
  | dimension =>
    simp only [Leaf.ofToken] at h
    split at h
    next hdimension =>
      cases h
      rcases Leaf.exists_of_ofDimension? hdimension with ⟨d, rfl⟩ | ⟨d, rfl⟩ | ⟨d, rfl⟩ | ⟨d, rfl⟩ |
        ⟨d, rfl⟩ | ⟨d, rfl⟩ <;> rfl
    next => cases h
  | hash | idHash =>
    simp only [Leaf.ofToken] at h
    split at h <;> cases h
    rfl
  | ident n =>
    simp only [Leaf.ofToken] at h
    split at h
    next => cases h; rfl
    next => split at h <;> cases h <;> rfl
  | delim c =>
    by_cases hc : c = '/'
    · subst hc
      cases h
      rfl
    · simp [Leaf.ofToken, hc] at h
  | _ => cases h

/-- A value is written with the function that its first token calls, and with no other. -/
theorem matchesFunction_iff_of_read {t : Token} (hnext : c.next = .ok (t, d))
    (hread : (read : Reader (Form V)) c = .ok (v, c')) :
    (∀ n, t = .function n → functionKind? n = some v.kind) ∧
      ∀ m, v.matchesFunction m = true ↔ ∃ n, t.called? = some n ∧ SameFunction m n := by
  change readForm c = _ at hread
  by_cases ht : ∃ n, t = .function n
  · obtain ⟨n, rfl⟩ := ht
    have hwritten : functionKind? n = some v.kind ∧ WrittenWith n v := by
      cases hk : functionKind? n with
      | none =>
        rw [readForm_unknown hnext hk] at hread
        cases hread
      | some k =>
        rw [readForm_function hnext hk] at hread
        obtain ⟨-, e, hread, -⟩ := of_nested_deeper hread
        obtain ⟨hkind, hwritten⟩ := readFunction_writtenWith hk (next_deeper_ok hnext) hread
        exact ⟨by rw [hkind], hwritten⟩
    refine ⟨fun n' hn => ?_, fun m => ?_⟩
    · cases hn
      exact hwritten.1
    · simp [Token.called?, hwritten.2.matchesFunction_iff]
  · rw [readForm_token hnext fun n hn => ht ⟨n, hn⟩] at hread
    cases hl : Leaf.ofToken t with
    | error cause =>
      rw [hl] at hread
      cases hread
    | ok l =>
      rw [hl] at hread
      cases hread
      refine ⟨fun n hn => absurd ⟨n, hn⟩ ht, fun m => ?_⟩
      have hcalled : (leaf l : Form V).functionName? = t.called? :=
        functionName?_ofToken hl fun n hn => ht ⟨n, hn⟩
      have hcolor (f : ColorFunction V) : (leaf l : Form V) ≠ color f := by rintro ⟨⟩
      rw [matchesFunction_of_ne_color hcolor, ← hcalled]
      cases l with
      | url a =>
        have hurl : WrittenWith "url" (leaf (.url a) : Form V) :=
          .named _ hcolor "url" rfl (beq_self_eq_true _) (by decide +kernel)
        have hmatches := hurl.matchesFunction_iff m
        rw [matchesFunction_of_ne_color hcolor] at hmatches
        simpa [functionName?] using hmatches
      | _ => simp [functionName?]

/-- A value that is read from a function has the kind that the table gives to the function, and it
is matched by the names of that function and by no others.  So a function of a grammar takes,
besides substitutions, exactly the values that are written with it. -/
theorem function_names_agree {t : Token} (hnext : c.next = .ok (t, d))
    (hread : (read : Reader (Form V)) c = .ok (v, c')) :
    (∀ n, t = .function n →
      functionKind? n = some v.kind ∧ v.matchesFunction n = true ∧
        ∀ m, v.matchesFunction m = true ↔ SameFunction m n) ∧
      ∀ m, Matcher.isFunction v m = true ↔
        v.isSubstitution = true ∨ ∃ n, t.called? = some n ∧ SameFunction m n := by
  obtain ⟨hkind, hmatches⟩ := matchesFunction_iff_of_read hnext hread
  refine ⟨?_, fun m => ?_⟩
  · rintro n rfl
    have hiff (m : String) : v.matchesFunction m = true ↔ SameFunction m n := by
      rw [hmatches]
      simp [Token.called?]
    exact ⟨hkind n rfl, (hiff n).mpr (.inl (beq_self_eq_true _)), hiff⟩
  · rw [Matcher.isFunction, Bool.or_eq_true, hmatches, or_comm]

end Reading

/-- A color that is written with an older name is matched by the newer one. -/
theorem function_names_agree_rgba :
    ∃ (d c' : Cursor) (v : Value),
      (Cursor.ofText "rgba(a b c)").next = .ok (.function "rgba", d) ∧
        (read : Reader Value) (Cursor.ofText "rgba(a b c)") = .ok (v, c') ∧
        functionKind? "rgba" = some v.kind ∧ v.matchesFunction "rgb" = true ∧
        v.matchesFunction "hsl" = false := by
  have hnext : (Cursor.ofText "rgba(a b c)").next.toOption.map Prod.fst =
      some (.function "rgba") := by
    decide +kernel
  have hread : ((read : Reader Value) (Cursor.ofText "rgba(a b c)")).toBool = true := by
    decide +kernel
  have hspaces : ColorSpace.ofFunction? "rgb" = some .rgb ∧
      ColorSpace.ofFunction? "rgba" = some .rgb ∧
      ColorSpace.ofFunction? "hsl" = some .hsl ∧ sameName "hsl" "rgba" = false := by
    decide +kernel
  -- From here on the cursor is a variable, so that nothing is evaluated again.
  generalize Cursor.ofText "rgba(a b c)" = c at hnext hread ⊢
  obtain ⟨t, d, hn⟩ : ∃ t d, c.next = .ok (t, d) := by
    cases hn : c.next with
    | error e => simp [hn, Except.toOption] at hnext
    | ok x => exact ⟨x.1, x.2, rfl⟩
  obtain rfl : t = .function "rgba" := by simpa [hn, Except.toOption] using hnext
  obtain ⟨v, c', hv⟩ : ∃ v c', (read : Reader Value) c = .ok (v, c') := by
    generalize (read : Reader Value) c = x at hread
    cases x with
    | error e => exact absurd hread Bool.false_ne_true
    | ok x => exact ⟨x.1, x.2, rfl⟩
  obtain ⟨hkind, -, hiff⟩ := (function_names_agree hn hv).1 "rgba" rfl
  obtain ⟨hrgb, hrgba, hhsl, hsame⟩ := hspaces
  refine ⟨d, c', v, hn, hv, hkind, (hiff "rgb").mpr (.inr ⟨.rgb, hrgb, hrgba⟩), ?_⟩
  rw [← Bool.not_eq_true, hiff]
  rintro (h | ⟨space, hm, hn⟩)
  · rw [hsame] at h
    cases h
  · rw [hhsl] at hm
    rw [hrgba] at hn
    cases hm
    cases hn

end Form

end StyleGrammar

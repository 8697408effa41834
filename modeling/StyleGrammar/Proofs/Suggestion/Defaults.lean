import StyleGrammar.Proofs.Suggestion.Agreement

/-!
# The values to insert for suggestions

The value that is inserted for a suggestion comes from its kind: every kind of
values has one plain value, and data types and functions have kinds.  So functions
of one kind share a value, which is a call of only one of them, and a data type
that is narrower than its kind may reject it.  `Suggestion.suits` tells these
suggestions from the others (`covers_default`), whose values to insert are taken
wherever they are suggested (`default_taken`).
-/

namespace StyleGrammar

open List Reader

/-! ## Plain values -/

namespace Kind

/-- What the text of the plain value begins with. -/
def defaultToken? (k : Kind) : Option Token := do
  let text ← k.defaultText?
  let (t, _) ← (Cursor.ofText text).next.toOption
  return t

/-- Whether a plain value may begin with a token: it is a leaf of the kind, or a call of the first
function that stands for the kind. -/
def begins (k : Kind) : Token → Bool
  | .function n => (namesOf k).head? = some n && k ≠ .color
  | .unquotedUrl _ => false
  | t => (Leaf.ofToken t).toOption.any fun l => l.kind = k

theorem begins_dimension {k : Kind} {signed : Bool} {v : Single} {i : Option Int} {unit : String}
    {l : Leaf} (h : Leaf.ofDimension? (.dimension signed v i unit) = some l) :
    k.begins (.dimension signed v i unit) = decide (l.kind = k) := by
  change (Leaf.ofToken _).toOption.any _ = _
  rw [Leaf.ofToken_dimension h]
  rfl

/-- The unit is recognised without its capital letter. -/
theorem ofDimension?_hz (signed : Bool) (v : Single) (i : Option Int) :
    Leaf.ofDimension? (.dimension signed v i "hz") = some (.frequency ⟨v, .hz⟩) := by
  have hlength : Keyword.ofName? LengthUnit "hz" = none :=
    (keyword_ofName?_eq _ _).trans (by decide)
  have hangle : Keyword.ofName? AngleUnit "hz" = none := (keyword_ofName?_eq _ _).trans (by decide)
  have htime : Keyword.ofName? TimeUnit "hz" = none := (keyword_ofName?_eq _ _).trans (by decide)
  have hfrequency : Keyword.ofName? FrequencyUnit "hz" = some .hz :=
    (keyword_ofName?_eq _ _).trans (by decide)
  simp only [Leaf.ofDimension?, Length.ofToken?, Dimension.ofToken?, hlength, hangle,
    htime, hfrequency]
  rfl

/-- Whether a token is a dimension in the given unit. -/
def isIn (unit : String) : Token → Bool
  | .dimension _ _ _ u => u = unit
  | _ => false

theorem begins_hertz {t : Token} (h : isIn "hz" t = true) : begins .frequency t = true := by
  cases t with
  | dimension signed v i unit =>
    obtain rfl : unit = "hz" := of_decide_eq_true h
    rw [begins_dimension (ofDimension?_hz signed v i)]
    rfl
  | _ => cases h

theorem begins_defaultToken (k : Kind) :
    (k.isComposite || k.defaultToken?.all k.begins) = true := by
  cases k with
  | frequency =>
    have htoken : frequency.defaultToken?.all (isIn "hz") = true := by decide +kernel
    rw [Option.all_eq_true] at htoken
    rw [Bool.or_eq_true, Option.all_eq_true]
    exact .inr fun t ht => begins_hertz (htoken t ht)
  | _ => decide +kernel

variable {k : Kind} {v : Value}

theorem readText_of_toOption {s : String} (h : (readText Value s).toOption = some v) :
    readText Value s = .ok v := by
  cases hresult : readText Value s with
  | error e => simp [hresult, Except.toOption] at h
  | ok v' => simpa [hresult, Except.toOption] using h

/-- A plain value that is not composite is read like any other. -/
theorem exists_defaultToken (h : k.defaultValue? = some v) (hk : k.isComposite = false) :
    ∃ (t : Token) (c d c' : Cursor), k.defaultToken? = some t ∧ c.next = .ok (t, d) ∧
      (read : Reader Value) c = .ok (v, c') := by
  unfold defaultValue? at h
  cases htext : k.defaultText? with
  | none => simp [htext] at h
  | some text =>
    have hvalue : k.valueOfText text = readText Value text := by
      cases k <;> first | rfl | cases hk
    simp only [htext, hvalue, Option.bind_eq_bind, Option.bind_some] at h
    obtain ⟨c', hread⟩ := of_run (readText_of_toOption h)
    replace hread := (of_entirely hread).1
    cases hnext : (Cursor.ofText text).next with
    | error e =>
      change Form.readForm _ = _ at hread
      simp [Form.readForm, hnext, bind, Except.bind] at hread
    | ok x =>
      exact ⟨x.1, _, x.2, c', by simp [defaultToken?, htext, hnext, Except.toOption], hnext, hread⟩

/-- A plain value is a leaf, or it is a call of the first function that stands for the kind. -/
theorem begins_of_defaultToken {t : Token} (ht : k.defaultToken? = some t)
    (hk : k.isComposite = false) : k.begins t = true := by
  have hall := begins_defaultToken k
  simpa [hk, ht] using hall

theorem leaf_of_read {t : Token} {c d c' : Cursor} (hnext : c.next = .ok (t, d))
    (hread : (read : Reader Value) c = .ok (v, c')) (ht : ∀ n, t ≠ .function n) :
    ∃ l, Leaf.ofToken t = .ok l ∧ v = .leaf l := by
  change Form.readForm c = _ at hread
  rw [Form.readForm_token hnext ht] at hread
  cases hl : Leaf.ofToken t with
  | error cause =>
    rw [hl] at hread
    cases hread
  | ok l =>
    rw [hl] at hread
    cases hread
    exact ⟨l, rfl, rfl⟩

/-- A plain value has its kind. -/
theorem kind_of_defaultValue (h : k.defaultValue? = some v) : v.kind = k := by
  cases hk : k.isComposite with
  | true =>
    obtain ⟨text, htext, hvalue⟩ : ∃ text, k.defaultText? = some text ∧
        (k.valueOfText text).toOption = some v := by
      simpa [defaultValue?, Option.bind_eq_some_iff] using h
    have hcases : k = .position ∨ k = .ratio := by simpa [isComposite] using hk
    rcases hcases with rfl | rfl
    · unfold valueOfText at hvalue
      generalize readText (Position (Nested (nestingLimit - 1))) text = result at hvalue
      cases result <;> cases hvalue
      rfl
    · unfold valueOfText at hvalue
      generalize readText Ratio text = result at hvalue
      cases result <;> cases hvalue
      rfl
  | false =>
    obtain ⟨t, c, d, c', ht, hnext, hread⟩ := exists_defaultToken h hk
    have hbegins := begins_of_defaultToken ht hk
    by_cases hfunction : ∃ n, t = .function n
    · obtain ⟨n, rfl⟩ := hfunction
      simp only [begins, Bool.and_eq_true, decide_eq_true_eq] at hbegins
      have hkind := (Form.matchesFunction_iff_of_read hnext hread).1 n rfl
      rw [functionKind?_of_mem (mem_of_head? hbegins.1), Option.some.injEq] at hkind
      exact hkind.symm
    · have hleaf : ((Leaf.ofToken t).toOption.any fun l => l.kind = k) = true := by
        cases t with
        | function n => exact absurd ⟨n, rfl⟩ hfunction
        | unquotedUrl a => cases hbegins
        | _ => exact hbegins
      obtain ⟨l, hl, rfl⟩ := leaf_of_read hnext hread fun n hn => hfunction ⟨n, hn⟩
      simpa [hl, Except.toOption, Form.kind] using hleaf

theorem kind_of_isSubstitution (h : v.isSubstitution = true) :
    v.kind = .attr ∨ v.kind = .env ∨ v.kind = .var := by
  cases v with
  | attr x => exact .inl rfl
  | env x => exact .inr (.inl rfl)
  | var x => exact .inr (.inr rfl)
  | _ => cases h

/-- Of the functions that stand for a kind, the plain value is taken by the one that it calls. -/
theorem isFunction_defaultValue (h : k.defaultValue? = some v) {name : String}
    (hname : name ∈ namesOf k) :
    Matcher.isFunction v name = decide (k.defaultToken? = some (.function name)) := by
  cases hk : k.isComposite with
  | true =>
    have hcases : k = .position ∨ k = .ratio := by simpa [isComposite] using hk
    rcases hcases with rfl | rfl <;> cases hname
  | false =>
    obtain ⟨t, c, d, c', ht, hnext, hread⟩ := exists_defaultToken h hk
    have hbegins := begins_of_defaultToken ht hk
    have hmatches := (Form.matchesFunction_iff_of_read hnext hread).2 name
    have hkind := kind_of_defaultValue h
    rw [ht, Bool.eq_iff_iff, decide_eq_true_eq, Option.some.injEq, Matcher.isFunction,
      Bool.or_eq_true, hmatches]
    cases t with
    | function n =>
      simp only [begins, Bool.and_eq_true, decide_eq_true_eq] at hbegins
      have hmem := mem_of_head? hbegins.1
      rw [Token.function.injEq]
      constructor
      · rintro (⟨n', hn', hsame | ⟨space, -, hspace⟩⟩ | hsubstitution)
        · cases hn'
          have hlower : name.toLower = n.toLower := by simpa [sameName] using hsame
          rw [toLower_of_mem_namesOf hname, toLower_of_mem_namesOf hmem] at hlower
          exact hlower.symm
        · cases hn'
          rw [Form.space_none (functionKind?_of_mem hmem) hbegins.2] at hspace
          cases hspace
        · have hhead := hbegins.1
          rcases kind_of_isSubstitution hsubstitution with hv | hv | hv <;>
            (rw [hkind] at hv; subst hv; cases hhead; exact (mem_singleton.mp hname).symm)
      · rintro rfl
        exact .inl ⟨n, rfl, .inl (beq_self_eq_true _)⟩
    | unquotedUrl a => cases hbegins
    | _ =>
      obtain ⟨l, -, rfl⟩ := leaf_of_read hnext hread (by simp)
      simp [Token.called?, Form.isSubstitution]

end Kind

namespace Suggestion

/-- Whether the value to insert is one that the suggestion stands for: a keyword is read as itself,
a function is the one that the plain value of its kind calls, and a data type is none of those that
want a color of a certain notation. -/
def suits : Suggestion → Bool
  | keyword text => (readText Value text).toOption.any fun v => Matcher.isLiteral v text
  | dataType name _ => name ∉ ["hex-color", "system-color", "deprecated-system-color"]
  | function name kind => kind.defaultToken? = some (.function name)
  | delimiter _ => true

/-- A suggestion that a leaf of a grammar makes. -/
def OfLeaf : Suggestion → Prop
  | dataType name kinds => DataType.kinds? name = some kinds
  | function name kind => name ∈ namesOf kind
  | _ => True

variable {s : Suggestion} {v : Value} {forbidden : List String}

theorem color_defaultValue :
    (Kind.color.defaultValue?.all fun v => v.leaf? = some (.color .current)) = true := by
  decide +kernel

theorem eq_current (h : Kind.color.defaultValue? = some v) : v = .leaf (.color .current) := by
  have hall := color_defaultValue
  rw [h, Option.all_some, decide_eq_true_eq] at hall
  exact Form.eq_of_leaf?_eq_some hall

/-- Identifiers have no plain value, and that of a color is the current color. -/
theorem accepts_default {name : String} {kinds : List Kind}
    (hkinds : DataType.kinds? name = some kinds)
    (hv : kinds.findSome? Kind.defaultValue? = some v) :
    DataType.accepts name forbidden v = (dataType name kinds).suits := by
  by_cases hcolor : name ∈ ["hex-color", "system-color", "deprecated-system-color"]
  · have hcurrent : v = .leaf (.color .current) := by
      apply eq_current
      simp only [mem_cons, not_mem_nil, or_false] at hcolor
      rcases hcolor with rfl | rfl | rfl <;> cases hkinds <;> simpa using hv
    subst hcurrent
    simp only [mem_cons, not_mem_nil, or_false] at hcolor
    rcases hcolor with rfl | rfl | rfl <;> rfl
  · have hsuits : (dataType name kinds).suits = true := decide_eq_true hcolor
    rw [hsuits]
    by_cases hnamed : name = "named-color"
    · subst hnamed
      cases hkinds
      have hcurrent : v = .leaf (.color .current) := eq_current (by simpa using hv)
      rw [hcurrent]
      rfl
    · obtain ⟨k, hmem, hk⟩ := exists_of_findSome?_eq_some hv
      have hkind := Kind.kind_of_defaultValue hk
      have hident : name ≠ "ident" ∧ name ≠ "custom-ident" := by
        constructor
        · rintro rfl
          cases hkinds
          cases mem_singleton.mp hmem
          cases hk
        · rintro rfl
          cases hkinds
          cases mem_singleton.mp hmem
          cases hk
      simp only [mem_cons, not_mem_nil, or_false, not_or] at hcolor
      simp [DataType.accepts, hkinds, hident, hcolor, hkind, hmem]

/-- A suggestion covers the value to insert for it if it suits, and only then. -/
theorem covers_default (hs : s.OfLeaf) (hv : s.defaultValue? = some v) :
    s.covers forbidden v = s.suits := by
  cases s with
  | keyword text => simp [covers, suits, show (readText Value text).toOption = some v from hv]
  | dataType name kinds => exact accepts_default hs hv
  | function name kind => exact Kind.isFunction_defaultValue hv hs
  | delimiter c =>
    cases hv
    simp [covers, suits, Matcher.isLiteral]

theorem isLiteral_default {text : String} (hsuits : (ofLiteral text).suits = true)
    (hv : (ofLiteral text).defaultValue? = some v) : Matcher.isLiteral v text = true := by
  have hkeyword (hsuits : (keyword text.toLower).suits = true)
      (hv : (keyword text.toLower).defaultValue? = some v) : Matcher.isLiteral v text = true := by
    have hplain := good_of_run Form.yields_readForm (Kind.readText_of_toOption hv)
    rw [← isLiteral_toLower fun c hc => hplain _ hc c rfl]
    simpa [suits, show (readText Value text.toLower).toOption = some v from hv] using hsuits
  unfold ofLiteral at hsuits hv
  split at hsuits
  next c hc =>
    split at hsuits
    next halnum =>
      simp only [hc, halnum, if_true] at hv
      exact hkeyword hsuits hv
    next halnum =>
      simp only [hc, halnum] at hv
      cases hv
      have htext : text = String.singleton c := by
        rw [← String.toList_inj, hc, String.toList_singleton]
      simp [Matcher.isLiteral, htext]
  next hother =>
    split at hv
    next c hc => exact absurd hc (hother c)
    next => exact hkeyword hsuits hv

end Suggestion

namespace Matcher

variable {m : Matcher} {s : Suggestion} {v : Value}

/-- The leaves that make a suggestion take the value to insert for it. -/
theorem leavesAgree_default (hsuits : s.suits = true) (hv : s.defaultValue? = some v) :
    m.LeavesAgree v (fun _ => True) (fun s' => s' = s) where
  literal text := by
    refine .singleton (fun _ => trivial) ?_
    rintro rfl
    exact Suggestion.isLiteral_default hsuits hv
  dataType name kinds hkinds := by
    refine .singleton (fun _ => trivial) ?_
    rintro rfl
    have hleaf : (Suggestion.dataType name kinds).OfLeaf := hkinds
    exact (Suggestion.covers_default hleaf hv).trans hsuits
  function name kind hkind := by
    refine .singleton (fun _ => trivial) ?_
    rintro rfl
    have hleaf : (Suggestion.function name.toLower kind).OfLeaf := toLower_mem_namesOf hkind
    have hcovers : (Suggestion.function name.toLower kind).covers m.forbidden v = true :=
      (Suggestion.covers_default hleaf hv).trans hsuits
    rwa [Suggestion.covers, isFunction_toLower] at hcovers
  comma := by
    refine .singleton (fun _ => trivial) ?_
    rintro rfl
    exact (Option.some.inj hv).symm

/-- A composite data type takes its plain value whole. -/
theorem compositeAgrees_default (hv : s.defaultValue? = some v) (name : String) :
    CompositeAgrees v (fun _ => True) (fun s' => s' = s) name := by
  refine fun kinds hkinds => ⟨trivial, ?_⟩
  rintro rfl
  obtain ⟨k, hmem, hk⟩ := exists_of_findSome?_eq_some hv
  simp [isComposite, hkinds, Kind.kind_of_defaultValue hk, hmem]

theorem settled_fullDepth (hproper : ∀ id, (m.quantifier id).Proper) {root : NodeId}
    (hroot : m.Substantial root) :
    m.Settled fun levels id => levels ≤ fullDepth ∧ m.Reaches root id where
  below := by
    rintro k id c ⟨hfull, hreach⟩ hc
    exact ⟨by omega, hreach.step hc⟩
  satisfied_eq := by
    rintro k p S ⟨hfull, hreach⟩ hvalid hoffers
    exact isSatisfied_eq_of_offers hproper hroot hreach hfull hvalid hoffers
  nullable_eq := by
    rintro k c S hlt ⟨hfull, hreach⟩ hoffers
    have hpos : 0 < k := Nat.pos_of_ne_zero fun hzero => by
      rw [hzero] at hoffers
      cases hoffers
    exact isSatisfied_start_eq_of_offers hlt
      (isSatisfied_eq_of_offers hproper hroot hreach hfull (validWithin_start hpos) hoffers)

/-- In every match that values lead to, the value to insert for a suggestion is taken, if the
suggestion suits.  Only in a grammar of a great height, where the collector passes over what can
match nothing, may the levels run out. -/
theorem default_taken (hbuilt : m.arena.Built) {root : NodeId}
    (hroot : m.HeightAtMost 127 root ∨ m.Substantial root)
    {p : Progress} (hreach : m.Reachable root p) {S : List Suggestion}
    (hsuggestions : m.suggestions p = .ok S) (hs : s ∈ S) (hsuits : s.suits = true)
    (hv : s.defaultValue? = some v) : (m.take p v).next?.isSome := by
  obtain ⟨hvalid, rfl⟩ := hreach.validWithin
  obtain ⟨offered, hoffers, rfl⟩ := map_eq_ok_iff.mp hsuggestions
  have hproper (id : NodeId) : (m.quantifier id).Proper := hbuilt.allProper id
  have hagrees : Agrees (fun _ => True) (fun s' => s' = s) offered
      (Takes (m.takeWithin v fullDepth) p) := by
    have hleaves := m.leavesAgree_default hsuits hv
    rcases hroot with hheight | hroot
    · exact agrees_offersWithin hproper hleaves (settled_heightEnough p.node)
        (fun _ name _ _ => compositeAgrees_default hv name)
        ⟨127, hheight, by decide, Nat.le_refl _, .root⟩ (Nat.le_refl _) hvalid hoffers
    · exact agrees_offersWithin hproper hleaves (settled_fullDepth hproper hroot)
        (fun _ name _ _ => compositeAgrees_default hv name)
        ⟨Nat.le_refl _, .root⟩ (Nat.le_refl _) hvalid hoffers
  rw [next?_take, Option.isSome_iff_exists]
  exact hagrees.taken s (mem_eraseDups.mp hs) rfl

/-- Pairs of positions or lengths. -/
def pairs : Matcher :=
  let a := (Arena.empty.defineNamed "position" "[ left | right ] || <length>").2
  ⟨(a.define "[ <position> | <length> ]#{2}").2, []⟩

/-- A position and a length have plain values, which are taken as the first item. -/
theorem default_taken_pairs :
    pairs.suggestions (.start 8) =
        .ok [.dataType "position" [.position], .dataType "length" [.length]] ∧
      ∀ s ∈ [Suggestion.dataType "position" [.position], .dataType "length" [.length]],
        ∃ v, s.defaultValue? = some v ∧ (pairs.take (.start 8) v).next?.isSome := by
  have hbuilt : pairs.arena.Built := by
    dsimp only [pairs]
    exact .define _ (.defineNamed _ _ .empty)
  have hroot := substantial_of_all (m := pairs) (by decide +kernel) 8
  have hsuggestions : pairs.suggestions (.start 8) =
      .ok [.dataType "position" [.position], .dataType "length" [.length]] := by
    decide +kernel
  have hvalues : ([Suggestion.dataType "position" [.position], .dataType "length" [.length]].all
      fun s => s.defaultValue?.isSome) = true := by
    decide +kernel
  refine ⟨hsuggestions, fun s hs => ?_⟩
  obtain ⟨v, hv⟩ := Option.isSome_iff_exists.mp (all_eq_true.mp hvalues s hs)
  have hsuits : s.suits = true := by
    simp only [mem_cons, not_mem_nil, or_false] at hs
    rcases hs with rfl | rfl <;> rfl
  exact ⟨v, hv, default_taken hbuilt (.inr hroot) .start hsuggestions hs hsuits hv⟩

/-- A color in hexadecimal digits. -/
def hexColor : Matcher := ⟨(Arena.empty.define "<hex-color>").2, []⟩

/-- The plain value of a color has no digits. -/
theorem hexColor_default_rejected :
    hexColor.arena.Built ∧ hexColor.Reachable 0 (.start 0) ∧
      hexColor.suggestions (.start 0) = .ok [.dataType "hex-color" [.color]] ∧
      ∃ v, (Suggestion.dataType "hex-color" [.color]).defaultValue? = some v ∧
        (hexColor.take (.start 0) v).next?.isNone := by
  refine ⟨by dsimp only [hexColor]; exact .define _ .empty, .start, by decide +kernel, ?_⟩
  have hvalue : (Suggestion.dataType "hex-color" [.color]).defaultValue?.isSome = true := by
    decide +kernel
  obtain ⟨v, hv⟩ := Option.isSome_iff_exists.mp hvalue
  refine ⟨v, hv, ?_⟩
  have hcolor : Kind.color.defaultValue? = some v := by simpa [Suggestion.defaultValue?] using hv
  obtain rfl := Suggestion.eq_current hcolor
  decide +kernel

end Matcher

end StyleGrammar

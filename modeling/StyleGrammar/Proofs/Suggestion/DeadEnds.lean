import StyleGrammar.Proofs.Registry.Build
import StyleGrammar.Proofs.Reparse.Keywords
import StyleGrammar.Proofs.Suggestion.Closed

/-!
# No dead ends

A match that is not satisfied misses something: repetitions, the value behind a
separator, or the rest of a repetition in progress.  Wherever it is, a suggestion
for it is made there, so the suggestions for such a match are never empty
(`suggestions_ne_nil`).  It rests on two facts about what a text can define: no
group is empty, and every data type of a leaf is a known one.  A multiplier whose
maximum is zero would be an exception, as nothing can be suggested for it.
-/

namespace StyleGrammar

open List Definition

/-- Whether something can begin a node of this kind: groups have children, and data types of leaves
are primitive. -/
def NodeKind.Populated : NodeKind → Prop
  | dataType name => DataType.isPrimitive name = true
  | sequence cs | unordered cs | subset cs | alternation cs => cs ≠ []
  | _ => True

namespace Arena

variable {a : Arena}

/-- What holds of the kinds of nodes that a text makes holds of all nodes of an arena. -/
theorem Built.forall_kind {P : NodeKind → Prop} (ha : a.Built) (hplaceholder : P .placeholder)
    (hreference : ∀ name target, P (.reference name target))
    (hmake : ∀ (ps : Pairs) kind kind', ps.Make kind kind' → P kind) (id : NodeId) :
    P (a.node id).kind := by
  have hpush {a : Arena} {n : Node} (ih : ∀ id, P (a.node id).kind) (hn : P n.kind) (id : NodeId) :
      P ((a.push n).node id).kind := by
    rw [node_push]
    split
    · exact hn
    · exact ih id
  have hslot {a : Arena} (name : String) (ih : ∀ id, P (a.node id).kind) (id : NodeId) :
      P ((a.slot name).2.node id).kind := by
    rcases a.slot_eq name with ⟨id', -, hslot⟩ | ⟨hnone, -⟩
    · rw [hslot]
      exact ih id
    · rw [node_slot_of_none hnone]
      split
      · exact hplaceholder
      · exact ih id
  have hlockstep {b b' a a' : Arena} {ps : Pairs} (h : Lockstep b b' ps a a')
      (hb : ∀ id, P (b.node id).kind) : ∀ id, P (a.node id).kind := by
    induction h with
    | start => exact hb
    | push h raw hkind ih => exact hpush ih (hmake _ _ _ hkind)
    | slot h name ih => exact hslot name ih
    | refer h name raw ih => exact hpush (hslot name ih) (hreference _ _)
    | quantify h hmem hq ih =>
      intro id
      rw [node_modify]
      split
      · exact ih id
      · exact ih id
  have hdefine {a : Arena} (text : String) (ih : ∀ id, P (a.node id).kind) :
      ∀ id, P ((a.define text).2.node id).kind := by
    obtain ⟨ps, hlock, -⟩ := alike_define a a text
    exact hlockstep hlock ih
  induction ha generalizing id with
  | empty => rwa [node_of_size_le (Nat.zero_le id)]
  | slot name _ ih => exact hslot name ih id
  | define text _ ih => exact hdefine text ih id
  | @defineNamed a name text _ ih =>
    have ih := hdefine text (hslot name ih)
    rcases a.defineNamed_eq name text with heq | ⟨root, -, heq⟩
    · rw [heq]
      exact ih id
    · rw [heq, Arena.fill, node_modify]
      split
      · exact ih root
      · exact ih id

theorem Built.populated (ha : a.Built) (id : NodeId) : (a.node id).kind.Populated := by
  refine ha.forall_kind trivial (fun _ _ => trivial) (fun ps kind kind' hmake => ?_) id
  cases hmake with
  | literal text => exact trivial
  | dataType hprimitive => exact hprimitive
  | function name hids => exact trivial
  | group g hne hids => cases g <;> exact hne

end Arena

namespace Matcher

variable {m : Matcher} {offers : Progress → Offers} {id : NodeId}

/-! ## What has not begun -/

theorem headOffers_ne_nil {cs : List NodeId} {all : Bool}
    (hcs : ∀ c ∈ cs, offers (.start c) ≠ .ok []) (h : m.headOffers offers cs = .ok ([], all)) :
    cs = [] ∧ all = true := by
  cases cs with
  | nil =>
    cases h
    exact ⟨rfl, rfl⟩
  | cons c cs =>
    exfalso
    simp only [headOffers, bind_eq_ok_iff] at h
    obtain ⟨first, hfirst, h⟩ := h
    suffices hnil : first = [] from hcs c mem_cons_self (hnil ▸ hfirst)
    split at h
    · simp only [bind_eq_ok_iff, pure_eq_ok_iff, Prod.mk.injEq, append_eq_nil_iff] at h
      obtain ⟨-, -, ⟨hnil, -⟩, -⟩ := h
      exact hnil
    · simp only [pure_eq_ok_iff, Prod.mk.injEq] at h
      exact h.1

theorem restOffers_ne_nil {unordered all : Bool} {begun : List (Option Progress)}
    {cs : List NodeId} (hcs : ∀ c ∈ cs, offers (.start c) ≠ .ok [])
    (h : m.restOffers offers unordered begun cs = .ok ([], all)) :
    unbegun begun cs = [] ∧ all = true := by
  induction begun generalizing cs with
  | nil =>
    cases h
    exact ⟨rfl, rfl⟩
  | cons state? begun ih =>
    cases cs with
    | nil =>
      cases state? <;> cases h <;> exact ⟨rfl, rfl⟩
    | cons c cs =>
      cases state? with
      | some state => exact ih (fun c hc => hcs c (mem_cons_of_mem _ hc)) h
      | none =>
        simp only [restOffers, bind_eq_ok_iff, pure_eq_ok_iff, Prod.mk.injEq,
          append_eq_nil_iff] at h
        obtain ⟨first, hfirst, -, -, ⟨rfl, -⟩, -⟩ := h
        exact absurd hfirst (hcs c mem_cons_self)

theorem mapM_offers_ne_nil {cs : List NodeId} (hne : cs ≠ [])
    (hcs : ∀ c ∈ cs, offers (.start c) ≠ .ok []) :
    List.flatten <$> cs.mapM (fun c => offers (.start c)) ≠ .ok [] := by
  intro h
  obtain ⟨c, cs, rfl⟩ := exists_cons_of_ne_nil hne
  simp only [map_eq_ok_iff, mapM_cons, bind_eq_ok_iff, pure_eq_ok_iff] at h
  obtain ⟨-, ⟨first, hfirst, others, -, rfl⟩, hnil⟩ := h
  rw [flatten_cons, append_eq_nil_iff] at hnil
  exact hcs c mem_cons_self (hnil.1 ▸ hfirst)

/-- Something can begin a node, if something can begin the nodes below it. -/
theorem freshOffers_ne_nil (hpopulated : (m.kind id).Populated)
    (hbelow : ∀ c ∈ m.below id, offers (.start c) ≠ .ok []) : m.freshOffers offers id ≠ .ok [] := by
  unfold freshOffers
  unfold below at hbelow
  cases hkind : m.kind id with
  | literal text => simp
  | dataType name =>
    rw [hkind, NodeKind.Populated, DataType.isPrimitive, Option.isSome_iff_exists] at hpopulated
    obtain ⟨kinds, hkinds⟩ := hpopulated
    simp [hkinds]
  | function name cs =>
    dsimp only
    split <;> simp
  | placeholder => simp
  | reference name target =>
    rw [hkind] at hbelow
    dsimp only
    split
    · simp
    · split
      · simp
      · exact hbelow target mem_cons_self
  | sequence cs =>
    rw [hkind] at hbelow hpopulated
    intro h
    obtain ⟨⟨offered, all⟩, hhead, rfl⟩ := map_eq_ok_iff.mp h
    exact hpopulated (headOffers_ne_nil hbelow hhead).1
  | alternation cs | unordered cs | subset cs =>
    rw [hkind] at hbelow hpopulated
    exact mapM_offers_ne_nil hpopulated hbelow

/-- What can be repeated once more has suggestions. -/
theorem repetitionOffers_ne_nil {levels count : Nat} {separated : Bool}
    (hallows : (m.quantifier id).allows count = true) (hfresh : m.freshOffers offers id ≠ .ok []) :
    m.repetitionOffers offers levels id count separated ≠ .ok [] := by
  unfold repetitionOffers
  rw [hallows, Bool.not_true, if_neg Bool.false_ne_true]
  split
  · simp
  · split
    · simp [tooDeep]
    · exact hfresh

/-! ## What is in progress -/

/-- A repetition in progress for which nothing is suggested is satisfied, if that holds of its
children. -/
theorem satisfied_of_repeatOffers {j : Nat} {valid : Progress → Prop} {r : Repeat} {complete : Bool}
    (hvalid : m.RepeatValid j valid id r) (hfull : j ≤ fullDepth)
    (hchild : ∀ p, valid p → p.node ∈ m.below id → offers p = .ok [] → m.satisfied j p = true)
    (hstart : ∀ c ∈ m.below id, offers (.start c) ≠ .ok [])
    (h : m.repeatOffers offers id r = .ok ([], complete)) :
    m.repeatSatisfied (j + 1) id r = true ∧ complete = true := by
  have hsatisfied {p : Progress} (hp : m.satisfied j p = true) : m.isSatisfied p = true :=
    satisfied_mono hfull hp
  replace hvalid := hvalid.below
  cases r with
  | sequence index child =>
    obtain ⟨cs, hkind, -, hvalid, hmem⟩ := hvalid
    simp only [repeatOffers, bind_eq_ok_iff] at h
    obtain ⟨inside, hinside, h⟩ := h
    cases hsat : m.isSatisfied child with
    | true =>
      simp only [hsat, if_true, bind_eq_ok_iff, pure_eq_ok_iff, Prod.mk.injEq,
        append_eq_nil_iff] at h
      obtain ⟨⟨behind, all⟩, hbehind, ⟨rfl, rfl⟩, rfl⟩ := h
      have hdrop : ∀ c ∈ (m.children id).drop (index + 1), offers (.start c) ≠ .ok [] := by
        intro c hc
        apply hstart c
        rw [below_eq_children (.inl hkind), ← children_of_kind (.inl hkind)]
        exact mem_of_mem_drop hc
      obtain ⟨hnil, rfl⟩ := headOffers_ne_nil hdrop hbehind
      simp [repeatSatisfied, hnil, hchild child hvalid hmem hinside]
    | false =>
      simp only [hsat, Bool.false_eq_true, if_false, pure_eq_ok_iff, Prod.mk.injEq] at h
      obtain ⟨rfl, -⟩ := h
      rw [hsatisfied (hchild child hvalid hmem hinside)] at hsat
      cases hsat
  | choice index child =>
    obtain ⟨cs, -, -, hvalid, hmem⟩ := hvalid
    simp only [repeatOffers, bind_eq_ok_iff, pure_eq_ok_iff, Prod.mk.injEq] at h
    obtain ⟨inside, hinside, rfl, rfl⟩ := h
    have hsat := hchild child hvalid hmem hinside
    exact ⟨by simpa only [repeatSatisfied] using hsat, hsatisfied hsat⟩
  | group begun active =>
    obtain ⟨cs, hkind, hgroup⟩ := hvalid
    obtain ⟨state, hactive⟩ := hgroup.active_begun
    obtain ⟨hvalid, hmem⟩ := hgroup.valid hactive
    have hcs := children_of_kind (.inr (.inr hkind))
    simp only [repeatOffers, hactive, bind_eq_ok_iff, hcs] at h
    obtain ⟨inside, hinside, h⟩ := h
    cases hsat : m.isSatisfied state with
    | true =>
      simp only [hsat, if_true, bind_eq_ok_iff, pure_eq_ok_iff, Prod.mk.injEq,
        append_eq_nil_iff] at h
      obtain ⟨⟨behind, all⟩, hbehind, ⟨rfl, rfl⟩, rfl⟩ := h
      rw [below_eq_children (.inr (.inr hkind))] at hstart
      obtain ⟨hnil, rfl⟩ := restOffers_ne_nil hstart hbehind
      rw [repeatSatisfied_group hcs hgroup hactive, hnil, hchild state hvalid hmem hinside]
      exact ⟨rfl, rfl⟩
    | false =>
      simp only [hsat, Bool.false_eq_true, if_false, pure_eq_ok_iff, Prod.mk.injEq] at h
      obtain ⟨rfl, -⟩ := h
      rw [hsatisfied (hchild state hvalid hmem hinside)] at hsat
      cases hsat
  | reference target =>
    obtain ⟨name, -, hvalid, hmem⟩ := hvalid
    simp only [repeatOffers, bind_eq_ok_iff, pure_eq_ok_iff, Prod.mk.injEq] at h
    obtain ⟨inside, hinside, rfl, rfl⟩ := h
    have hsat := hchild target hvalid hmem hinside
    exact ⟨by simpa only [repeatSatisfied] using hsat, hsatisfied hsat⟩

/-! ## All matches -/

/-- No multiplier of the grammar below a node has the maximum zero. -/
def Repeatable (m : Matcher) (root : NodeId) : Prop :=
  ∀ id, m.Reaches root id → (m.quantifier id).max? ≠ some 0

theorem Repeatable.child {c : NodeId} (h : m.Repeatable id) (hc : c ∈ m.below id) :
    m.Repeatable c :=
  fun id' hid' => h id' ((Reaches.root.step hc).trans hid')

theorem Repeatable.allows (h : m.Repeatable id) : (m.quantifier id).allows 0 = true := by
  have hmax := h id .root
  unfold Quantifier.allows
  split
  next max hsome =>
    rw [hsome] at hmax
    simpa [Nat.pos_iff_ne_zero] using hmax
  next => rfl

theorem offersWithin_start_ne_nil (hpopulated : ∀ id, (m.kind id).Populated)
    (hrepeatable : m.Repeatable id) (levels : Nat) :
    m.offersWithin levels (.start id) ≠ .ok [] := by
  induction levels using Nat.strongRecOn generalizing id with
  | ind levels ih =>
    cases levels with
    | zero => simp [offersWithin, tooDeep]
    | succ k =>
      rw [offersWithin_succ, Progress.start, offersWith_eq]
      apply repetitionOffers_ne_nil hrepeatable.allows
      apply freshOffers_ne_nil (hpopulated id)
      intro c hc
      exact ih (k - 1) (by omega) (hrepeatable.child hc)

/-- A valid match for which nothing is suggested is satisfied, with as many levels as it was reached
with. -/
theorem satisfied_of_offersWithin (hproper : ∀ id, (m.quantifier id).Proper)
    (hpopulated : ∀ id, (m.kind id).Populated) {k levels : Nat} (hfull : k ≤ fullDepth)
    {p : Progress} (hvalid : m.ValidWithin k p) (hrepeatable : m.Repeatable p.node)
    (h : m.offersWithin levels p = .ok []) : m.satisfied k p = true := by
  induction k using Nat.strongRecOn generalizing p levels with
  | ind k ih =>
    cases k with
    | zero => exact absurd hvalid id
    | succ k =>
      cases levels with
      | zero => simp [offersWithin, tooDeep] at h
      | succ l =>
        have hstart (c : NodeId) (hc : c ∈ m.below p.node) :
            m.offersWithin (l - 1) (.start c) ≠ .ok [] :=
          offersWithin_start_ne_nil hpopulated (hrepeatable.child hc) (l - 1)
        have hfresh := freshOffers_ne_nil (hpopulated p.node) hstart
        replace hvalid := validWithin_succ.mp hvalid
        obtain ⟨id, count, phase⟩ := p
        rw [offersWithin_succ, offersWith_eq] at h
        rw [satisfied_succ]
        -- A count that cannot grow is enough, and one that can has suggestions.
        have henough {count : Nat} {separated : Bool} (h : m.repetitionOffers
            (m.offersWithin (l - 1)) l id count separated = .ok []) :
            m.isEnough k id count = true := by
          have hallows : (m.quantifier id).allows count = false := by
            by_contra hallows
            exact repetitionOffers_ne_nil (Bool.not_eq_false _ ▸ hallows) hfresh h
          simp [isEnough, min_le_of_not_allows (hproper id) hallows]
        cases phase with
        | between => exact henough h
        | separated => exact absurd h (repetitionOffers_ne_nil hvalid.2.1 hfresh)
        | within r =>
          obtain ⟨-, -, hrepeat⟩ := hvalid
          obtain ⟨j, rfl, -⟩ := hrepeat.exists_pred
          simp only [bind_eq_ok_iff] at h
          obtain ⟨⟨inside, complete⟩, hinside, h⟩ := h
          have hrest (hinside : m.repeatOffers (m.offersWithin (l - 1)) id r =
              .ok ([], complete)) : m.repeatSatisfied (j + 1) id r = true ∧ complete = true :=
            satisfied_of_repeatOffers hrepeat (by omega)
              (fun q hq hmem hnil => ih j (by omega) (by omega) hq (hrepeatable.child hmem) hnil)
              hstart hinside
          cases complete with
          | true =>
            simp only [if_true, bind_eq_ok_iff, pure_eq_ok_iff, append_eq_nil_iff] at h
            obtain ⟨others, hothers, rfl, rfl⟩ := h
            simp only [(hrest hinside).1, henough hothers, Bool.and_self]
          | false =>
            simp only [Bool.false_eq_true, if_false, pure_eq_ok_iff] at h
            subst h
            cases (hrest hinside).2

theorem eq_nil_of_eraseDups {S : List Suggestion} (h : S.eraseDups = []) : S = [] :=
  eq_nil_iff_forall_not_mem.mpr fun _ hs => not_mem_nil (h ▸ mem_eraseDups.mpr hs)

/-- Something is suggested for a match that is not satisfied, or its grammar is faulty. -/
theorem suggestions_ne_nil (hbuilt : m.arena.Built) {root : NodeId}
    (hrepeatable : m.Repeatable root)
    {p : Progress} (hreach : m.Reachable root p) (hunsatisfied : m.isSatisfied p = false) :
    m.suggestions p ≠ .ok [] := by
  intro h
  obtain ⟨hvalid, rfl⟩ := hreach.validWithin
  obtain ⟨offered, hoffers, hnil⟩ := map_eq_ok_iff.mp h
  rw [eq_nil_of_eraseDups hnil] at hoffers
  have hsat := satisfied_of_offersWithin (fun id => hbuilt.allProper id)
    (fun id => hbuilt.populated id) (Nat.le_refl _) hvalid hrepeatable hoffers
  rw [isSatisfied, hsat] at hunsatisfied
  cases hunsatisfied

/-- Where no value is rejected, the match after all of them is the one that is reached. -/
theorem afterTaken_of_takeAll {root : NodeId} {vs : List Value} {p : Progress}
    (h : m.takeAll root vs = .ok p) : m.afterTaken (.start root) vs = p := by
  unfold takeAll at h
  generalize Progress.start root = q at h ⊢
  generalize 0 = index at h
  induction vs generalizing q index with
  | nil =>
    cases h
    rfl
  | cons v vs ih =>
    rw [afterTaken, foldl_cons]
    rw [takeAll.go] at h
    cases htake : (m.take q v).next? with
    | none => simp [htake] at h
    | some next =>
      rw [htake] at h
      exact ih next (index + 1) h

end Matcher

namespace Registry

open Matcher

/-- A declaration that is incomplete can be completed: no match that is not satisfied is without
suggestions, and so none is left behind the values of such a declaration, unless the grammar is
faulty. -/
theorem suggest_of_incomplete (properties : Table Property) (definitions : Table String)
    (o : RegistryOptions) :
    (∀ (m : Matcher) (root : NodeId) (p : Progress), m.arena.Built → m.Repeatable root →
      m.Reachable root p → m.isSatisfied p = false → m.suggestions p ≠ .ok []) ∧
    ∀ r, r = build properties definitions o → ∀ name e, r.property? name = some e →
      (r.matcher e).Repeatable e.root → ∀ text validation, r.validate name text = .ok validation →
      validation.verdict = .incomplete →
      (∃ s, s ≠ [] ∧ r.suggest name text = .ok s) ∨
        (∃ type raw, r.suggest name text = .error (.noSuggestions (.unknownDataType type raw))) ∨
          ∃ raw, r.suggest name text = .error (.noSuggestions (.nestingTooDeep raw)) := by
  have hmatches (m : Matcher) (root : NodeId) (p : Progress) (hbuilt : m.arena.Built)
      (hrepeatable : m.Repeatable root) (hreach : m.Reachable root p)
      (hunsatisfied : m.isSatisfied p = false) : m.suggestions p ≠ .ok [] :=
    suggestions_ne_nil hbuilt hrepeatable hreach hunsatisfied
  refine ⟨hmatches, ?_⟩
  rintro r rfl name e hentry hrepeatable text validation hvalidate hverdict
  have hbuilt := built_arena_build properties definitions o
  generalize build properties definitions o = r at *
  rw [validate_eq hentry] at hvalidate
  rw [suggest_eq hentry]
  cases hread : Value.listOfText text with
  | error fault => simp [hread] at hvalidate
  | ok vs =>
    simp only [hread, Except.ok.injEq] at hvalidate
    subst hvalidate
    obtain ⟨p, htake, hunsatisfied⟩ := takeAll_of_incomplete hverdict
    have hafter := afterTaken_of_takeAll htake
    have hne := hmatches (r.matcher e) e.root p hbuilt hrepeatable
      (hafter ▸ Reachable.start.afterTaken vs) hunsatisfied
    dsimp only
    rw [suggestionsAfter_eq (validWithin_start (by decide)), hafter]
    cases hsuggestions : (r.matcher e).suggestions p with
    | ok s =>
      refine .inl ⟨s, ?_, rfl⟩
      rintro rfl
      exact hne hsuggestions
    | error fault =>
      cases fault with
      | unknownDataType type raw => exact .inr (.inl ⟨type, raw, rfl⟩)
      | nestingTooDeep raw => exact .inr (.inr ⟨raw, rfl⟩)

/-- A property whose values are lists of names. -/
def names : Property :=
  { (default : Property) with
    definition := "[ none | <custom-ident> ]#"
    status? := some "standard" }

def named : Registry := build ⟨[("names", names)]⟩ .empty .standard

theorem named_eq : named = addProperty .standard empty "names" names :=
  build_single (by decide +kernel)

theorem repeatable_of_all {r : Registry} {e : PropertyEntry}
    (h : (r.arena.nodes.toList.all fun n => n.quantifier.max? ≠ some 0) = true) :
    (r.matcher e).Repeatable e.root := by
  intro id _
  by_cases hid : id < r.arena.nodes.size
  · have hmem : r.arena.nodes[id] ∈ r.arena.nodes.toList := Array.getElem_mem_toList hid
    have hnode : r.arena.node id = r.arena.nodes[id] := by simp [Arena.node, hid]
    rw [quantifier, matcher, hnode]
    simpa using all_eq_true.mp h _ hmem
  · rw [quantifier, matcher, Arena.node_of_size_le (Nat.le_of_not_lt hid)]
    decide

theorem slide_read :
    Value.listOfText "slide," = .ok [.leaf (.keyword ⟨"slide"⟩), .leaf (.delimiter ',')] := by
  have hkeyword : PlainColor.isKeyword "slide" = false :=
    PlainColor.isKeyword_eq_false (toLower_eq_self (by decide)) (by decide)
  have hcolor : PlainColor.ofName? "slide" = none :=
    Option.isNone_iff_eq_none.mp (Option.isSome_eq_false_iff.mp hkeyword)
  have hcomma : Leaf.ofToken .comma = .ok (.delimiter ',') := rfl
  exact Value.listOfText_leaves (by decide +kernel)
    (.cons (Leaf.ofToken_word (by decide) hcolor) (.cons hcomma .nil))

/-- Behind the comma of a list, its items are suggested. -/
theorem suggest_named : ∃ validation, named.validate "names" "slide," = .ok validation ∧
    validation.verdict = .incomplete ∧ ∃ s, s ≠ [] ∧ named.suggest "names" "slide," = .ok s := by
  obtain ⟨hvalid, hsuggest⟩ : (named.validate "names" "slide,").toOption.any
      (fun validation => validation.verdict = .incomplete) = true ∧
        (named.suggest "names" "slide,").toOption.isSome = true := by
    rw [named_eq]
    simp only [validate, suggest, declaration, slide_read]
    decide +kernel
  have hentry : (named.property? "names").isSome = true := by
    rw [named_eq]
    decide +kernel
  have hall : (named.arena.nodes.toList.all fun n => n.quantifier.max? ≠ some 0) = true := by
    rw [named_eq]
    decide +kernel
  obtain ⟨e, he⟩ := Option.isSome_iff_exists.mp hentry
  obtain ⟨validation, hvalidation, hverdict⟩ : ∃ validation,
      named.validate "names" "slide," = .ok validation ∧ validation.verdict = .incomplete := by
    generalize named.validate "names" "slide," = result at hvalid
    cases result with
    | error fault => cases hvalid
    | ok validation => exact ⟨validation, rfl, of_decide_eq_true hvalid⟩
  refine ⟨validation, hvalidation, hverdict, ?_⟩
  rcases (suggest_of_incomplete ⟨[("names", names)]⟩ .empty .standard).2 named (by rw [named])
    "names" e he (repeatable_of_all hall) "slide," validation hvalidation
    hverdict with h | ⟨type, raw, h⟩ | ⟨raw, h⟩
  · exact h
  · rw [h] at hsuggest
    cases hsuggest
  · rw [h] at hsuggest
    cases hsuggest

end Registry

end StyleGrammar

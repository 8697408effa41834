import StyleGrammar.Grammar.Suggestion
import StyleGrammar.Proofs.Matching.Height
import StyleGrammar.Proofs.Matching.WellFormed

/-!
# Levels of suggestions and of matching

Whether a child may match nothing is asked with all levels where suggestions are
collected, and with the levels that are left where values are taken.  The answers
are the same for grammars of a small height, and wherever suggestions are found:
the collector has then walked through everything that may match nothing, or else
it reports a grammar that is nested too deep (`isSatisfied_eq_of_offers`).

It passes over two kinds of nodes.  Behind a complete item it suggests the comma of
a list and not what is behind the comma, and it suggests a composite data type
whole.  So these must not be able to match nothing (`Substantial`).
-/

namespace StyleGrammar

namespace Matcher

open List

variable {m : Matcher} {offers : Progress → Offers} {valid : Progress → Prop} {k : Nat}
variable {S : List Suggestion}

/-- A computation that yields a result yields one at every step. -/
theorem bind_eq_ok_iff {ε α β : Type} {x : Except ε α} {f : α → Except ε β} {b : β} :
    x >>= f = .ok b ↔ ∃ a, x = .ok a ∧ f a = .ok b := by
  cases x <;> simp [bind, Except.bind]

theorem map_eq_ok_iff {ε α β : Type} {x : Except ε α} {f : α → β} {b : β} :
    f <$> x = .ok b ↔ ∃ a, x = .ok a ∧ f a = b := by
  cases x <;> simp [Functor.map, Except.map]

theorem pure_eq_ok_iff {ε α : Type} {a b : α} : (pure a : Except ε α) = .ok b ↔ a = b := by
  simp [pure, Except.pure]

theorem exists_of_mapM {ε α β : Type} {f : α → Except ε β} {as : List α} {bs : List β}
    (h : as.mapM f = .ok bs) {a : α} (ha : a ∈ as) : ∃ b, f a = .ok b := by
  induction as generalizing bs with
  | nil => cases ha
  | cons first as ih =>
    simp only [mapM_cons, bind_eq_ok_iff] at h
    obtain ⟨b, hfirst, others, hothers, -⟩ := h
    rcases mem_cons.mp ha with rfl | ha
    · exact ⟨b, hfirst⟩
    · exact ih hothers ha

/-! ## Suggestions in parts -/

/-- The suggestions for a new repetition behind `count` others. -/
def repetitionOffers (m : Matcher) (offers : Progress → Offers) (levels : Nat) (id : NodeId)
    (count : Nat) (separated : Bool) : Offers :=
  if !(m.quantifier id).allows count then .ok []
  else
    match (m.quantifier id).separator?, 0 < count && !separated with
    | some c, true => .ok [.delimiter c]
    | _, _ => if levels = 0 then m.tooDeep id else m.freshOffers offers id

theorem offersWith_eq {levels count : Nat} {id : NodeId} {phase : Phase} :
    m.offersWith offers levels (.mk id count phase) =
      match phase with
      | .between => m.repetitionOffers offers levels id count false
      | .separated => m.repetitionOffers offers levels id count true
      | .within r => do
        let (inside, complete) ← m.repeatOffers offers id r
        if complete then
          return inside ++ (← m.repetitionOffers offers levels id (count + 1) false)
        else return inside := by
  cases phase <;> rfl

theorem offersWithin_succ {p : Progress} :
    m.offersWithin (k + 1) p = m.offersWith (m.offersWithin (k - 1)) k p := by
  cases k with
  | zero =>
    have hdeep : m.offersWithin 0 = fun p => m.tooDeep p.node := rfl
    rw [Nat.zero_sub, hdeep]
    rfl
  | succ n => rfl

/-! ## Whether a repetition may end -/

/-- Where the collector finds suggestions below a node, it sees the same ends as a matcher with some
levels left. -/
structure ChildrenSettled (m : Matcher) (k : Nat) (valid : Progress → Prop)
    (offers : Progress → Offers) (cs : List NodeId) : Prop where
  satisfied_eq : ∀ {p S}, valid p → p.node ∈ cs → offers p = .ok S →
    m.isSatisfied p = m.satisfied k p
  nullable_eq : ∀ {c S}, c ∈ cs → offers (.start c) = .ok S →
    m.isSatisfied (.start c) = m.nullable k c

theorem ChildrenSettled.mono {cs cs' : List NodeId} (h : m.ChildrenSettled k valid offers cs)
    (hsub : cs' ⊆ cs) : m.ChildrenSettled k valid offers cs' :=
  ⟨fun hp hmem => h.satisfied_eq hp (hsub hmem), fun hc => h.nullable_eq (hsub hc)⟩

theorem complete_headOffers {cs : List NodeId} (h : m.ChildrenSettled k valid offers cs)
    {all : Bool} (hoffers : m.headOffers offers cs = .ok (S, all)) :
    all = cs.all (m.nullable k) := by
  induction cs generalizing S all with
  | nil =>
    simp only [headOffers, Except.ok.injEq, Prod.mk.injEq] at hoffers
    exact hoffers.2.symm
  | cons c cs ih =>
    simp only [headOffers, bind_eq_ok_iff] at hoffers
    obtain ⟨first, hfirst, hoffers⟩ := hoffers
    rw [all_cons, ← h.nullable_eq mem_cons_self hfirst]
    cases hsat : m.isSatisfied (.start c) with
    | true =>
      simp only [hsat, if_true, bind_eq_ok_iff, pure_eq_ok_iff, Prod.mk.injEq] at hoffers
      obtain ⟨⟨others, all'⟩, hothers, -, rfl⟩ := hoffers
      exact ih (h.mono (subset_cons_self c cs)) hothers
    | false =>
      simp only [hsat, Bool.false_eq_true, if_false, pure_eq_ok_iff, Prod.mk.injEq] at hoffers
      exact hoffers.2.symm

theorem complete_restOffers {unordered : Bool} {begun : List (Option Progress)} {cs : List NodeId}
    (h : m.ChildrenSettled k valid offers cs) {all : Bool}
    (hoffers : m.restOffers offers unordered begun cs = .ok (S, all)) :
    all = (unbegun begun cs).all fun c => !unordered || m.nullable k c := by
  induction begun generalizing cs S all with
  | nil =>
    simp only [restOffers, Except.ok.injEq, Prod.mk.injEq] at hoffers
    exact hoffers.2.symm
  | cons first begun ih =>
    cases cs with
    | nil =>
      have hnil : unbegun (first :: begun) [] = [] := by cases first <;> rfl
      rw [hnil]
      cases first <;> simp only [restOffers, Except.ok.injEq, Prod.mk.injEq] at hoffers <;>
        exact hoffers.2.symm
    | cons c cs =>
      have hrest := h.mono (subset_cons_self c cs)
      cases first with
      | some state => exact ih hrest hoffers
      | none =>
        simp only [restOffers, bind_eq_ok_iff, pure_eq_ok_iff, Prod.mk.injEq] at hoffers
        obtain ⟨first, hfirst, ⟨others, all'⟩, hothers, -, rfl⟩ := hoffers
        rw [ih hrest hothers, unbegun, all_cons, h.nullable_eq mem_cons_self hfirst, Bool.and_comm]
        cases unordered <;> simp

theorem repeatSatisfied_group {id : NodeId} {cs : List NodeId} {begun : List (Option Progress)}
    {active : Nat} {state : Progress} (hcs : m.children id = cs)
    (hgroup : m.GroupValid k valid cs begun active)
    (hactive : begun[active]? = some (some state)) :
    m.repeatSatisfied (k + 1) id (.group begun active) =
      (m.satisfied k state &&
        (unbegun begun cs).all fun c => !m.isUnordered id || m.nullable k c) := by
  rw [Bool.eq_iff_iff]
  simp only [repeatSatisfied, hcs, Bool.and_eq_true, List.all_eq_true]
  constructor
  · intro hall
    constructor
    · exact hall (some state, state.node) (List.mem_of_getElem?
        (List.getElem?_zip_eq_some.mpr ⟨hactive, hgroup.node_eq hactive⟩))
    · intro c hc
      obtain ⟨i, hnone, hi⟩ := mem_unbegun_iff.mp hc
      exact hall (none, c) (List.mem_of_getElem? (List.getElem?_zip_eq_some.mpr ⟨hnone, hi⟩))
  · rintro ⟨hsat, hall⟩ ⟨state?, c⟩ hmem
    obtain ⟨i, hi⟩ := List.getElem?_of_mem hmem
    obtain ⟨hbegun, hc⟩ := List.getElem?_zip_eq_some.mp hi
    cases state? with
    | none => exact hall c (mem_unbegun_iff.mpr ⟨i, hbegun, hc⟩)
    | some other =>
      by_cases hia : i = active
      · subst hia
        rw [hactive, Option.some.injEq, Option.some.injEq] at hbegun
        exact hbegun ▸ hsat
      · exact hgroup.passed_satisfied hbegun hia

/-- What the collector says about the end of a repetition. -/
theorem complete_repeatOffers {id : NodeId} {r : Repeat} (hvalid : m.RepeatValid k valid id r)
    (h : m.ChildrenSettled k valid offers (m.below id)) {complete : Bool}
    (hoffers : m.repeatOffers offers id r = .ok (S, complete)) :
    complete = m.repeatSatisfied (k + 1) id r := by
  replace hvalid := hvalid.below
  cases r with
  | sequence index child =>
    obtain ⟨cs, hkind, -, hchild, hmem⟩ := hvalid
    simp only [repeatOffers, bind_eq_ok_iff] at hoffers
    obtain ⟨inside, hinside, hoffers⟩ := hoffers
    simp only [repeatSatisfied, ← h.satisfied_eq hchild hmem hinside]
    cases hsat : m.isSatisfied child with
    | true =>
      simp only [hsat, if_true, bind_eq_ok_iff, pure_eq_ok_iff, Prod.mk.injEq] at hoffers
      obtain ⟨⟨behind, all⟩, hbehind, -, rfl⟩ := hoffers
      have hdrop : (m.children id).drop (index + 1) ⊆ m.below id := by
        rw [children_of_kind (.inl hkind), below_eq_children (.inl hkind)]
        exact drop_subset _ _
      exact complete_headOffers (h.mono hdrop) hbehind
    | false =>
      simp only [hsat, Bool.false_eq_true, if_false, pure_eq_ok_iff, Prod.mk.injEq] at hoffers
      exact hoffers.2.symm
  | choice index child =>
    obtain ⟨cs, -, -, hchild, hmem⟩ := hvalid
    simp only [repeatOffers, bind_eq_ok_iff, pure_eq_ok_iff, Prod.mk.injEq] at hoffers
    obtain ⟨inside, hinside, -, rfl⟩ := hoffers
    exact h.satisfied_eq hchild hmem hinside
  | group begun active =>
    obtain ⟨cs, hkind, hgroup⟩ := hvalid
    obtain ⟨state, hactive⟩ := hgroup.active_begun
    obtain ⟨hchild, hmem⟩ := hgroup.valid hactive
    have hcs := children_of_kind (.inr (.inr hkind))
    simp only [repeatOffers, hactive, bind_eq_ok_iff] at hoffers
    obtain ⟨inside, hinside, hoffers⟩ := hoffers
    rw [repeatSatisfied_group hcs hgroup hactive, ← h.satisfied_eq hchild hmem hinside]
    cases hsat : m.isSatisfied state with
    | true =>
      simp only [hsat, if_true, bind_eq_ok_iff, pure_eq_ok_iff, Prod.mk.injEq, hcs] at hoffers
      obtain ⟨⟨behind, all⟩, hbehind, -, rfl⟩ := hoffers
      rw [below_eq_children (.inr (.inr hkind))] at h
      exact complete_restOffers h hbehind
    | false =>
      simp only [hsat, Bool.false_eq_true, if_false, pure_eq_ok_iff, Prod.mk.injEq] at hoffers
      exact hoffers.2.symm
  | reference target =>
    obtain ⟨name, -, hchild, hmem⟩ := hvalid
    simp only [repeatOffers, bind_eq_ok_iff, pure_eq_ok_iff, Prod.mk.injEq] at hoffers
    obtain ⟨inside, hinside, -, rfl⟩ := hoffers
    exact h.satisfied_eq hchild hmem hinside

/-! ## Grammars of a small height -/

theorem isSatisfied_start (id : NodeId) :
    m.isSatisfied (.start id) = m.nullable nestingLimit id := by
  simp [isSatisfied, fullDepth, Progress.start, satisfied_succ, isEnough, nullable]

theorem isSatisfied_eq {levels n : Nat} {p : Progress} (hvalid : m.ValidWithin levels p)
    (hheight : m.HeightAtMost n p.node) (hk : 2 * n + 2 ≤ k) (hfull : k ≤ fullDepth) :
    m.isSatisfied p = m.satisfied k p := by
  rw [isSatisfied, Bool.eq_iff_iff,
    satisfied_iff_completes_nil (V := Unit) hvalid hheight (Nat.le_trans hk hfull),
    satisfied_iff_completes_nil (V := Unit) hvalid hheight hk]

theorem isSatisfied_start_eq {n : Nat} {c : NodeId} (hheight : m.HeightAtMost n c)
    (hk : 2 * n + 2 ≤ k) (hfull : k ≤ fullDepth) : m.isSatisfied (.start c) = m.nullable k c := by
  have hlt : n < nestingLimit := by
    simp only [fullDepth] at hfull
    omega
  rw [isSatisfied_start, Bool.eq_iff_iff, nullable_iff_word_nil (V := Unit) hheight hlt,
    nullable_iff_word_nil (V := Unit) hheight (by omega)]

/-! ## Grammars of any height -/

/-- Whether the collector passes over what is below a node: the further items of a list that needs
more than one, and the grammar of a composite data type. -/
def passesOver (m : Matcher) (id : NodeId) : Bool :=
  ((m.quantifier id).separator?.isSome && 2 ≤ (m.quantifier id).min) ||
    match m.kind id with
    | .reference name _ => (DataType.compositeKinds? name).isSome
    | _ => false

/-- What the collector passes over cannot match nothing. -/
def Substantial (m : Matcher) (root : NodeId) : Prop :=
  ∀ id, m.Reaches root id → m.passesOver id = true → m.contentNullable nestingLimit id = false

theorem substantial_of_all (h : ((range m.arena.size).all fun id =>
    !m.passesOver id || !m.contentNullable nestingLimit id) = true) (root : NodeId) :
    m.Substantial root := by
  intro id _ hpasses
  by_cases hid : id < m.arena.size
  · have hnull := all_eq_true.mp h id (mem_range.mpr hid)
    simpa [hpasses] using hnull
  · have hblank := Arena.node_of_size_le (Nat.le_of_not_lt hid)
    simp [passesOver, quantifier, kind, hblank, Arena.blank, Quantifier.one] at hpasses

theorem isSatisfied_of_nullable {levels : Nat} (hle : levels ≤ nestingLimit) {c : NodeId}
    (hnull : m.nullable levels c = true) : m.isSatisfied (.start c) = true := by
  rw [isSatisfied_start]
  exact nullable_mono hle hnull

theorem all_headOffers {cs : List NodeId} (hcs : ∀ c ∈ cs, m.isSatisfied (.start c) = true)
    {all : Bool} (hoffers : m.headOffers offers cs = .ok (S, all)) : all = true := by
  induction cs generalizing S all with
  | nil =>
    simp only [headOffers, Except.ok.injEq, Prod.mk.injEq] at hoffers
    exact hoffers.2.symm
  | cons c cs ih =>
    simp only [headOffers, hcs c mem_cons_self, if_true, bind_eq_ok_iff, pure_eq_ok_iff,
      Prod.mk.injEq] at hoffers
    obtain ⟨first, -, ⟨others, all'⟩, hothers, -, rfl⟩ := hoffers
    exact ih (fun c hc => hcs c (mem_cons_of_mem _ hc)) hothers

theorem all_restOffers {unordered : Bool} {begun : List (Option Progress)} {cs : List NodeId}
    (hcs : ∀ c ∈ unbegun begun cs, (!unordered || m.isSatisfied (.start c)) = true) {all : Bool}
    (hoffers : m.restOffers offers unordered begun cs = .ok (S, all)) : all = true := by
  induction begun generalizing cs S all with
  | nil =>
    simp only [restOffers, Except.ok.injEq, Prod.mk.injEq] at hoffers
    exact hoffers.2.symm
  | cons first begun ih =>
    cases cs with
    | nil =>
      cases first <;> simp only [restOffers, Except.ok.injEq, Prod.mk.injEq] at hoffers <;>
        exact hoffers.2.symm
    | cons c cs =>
      cases first with
      | some state => exact ih hcs hoffers
      | none =>
        simp only [restOffers, bind_eq_ok_iff, pure_eq_ok_iff, Prod.mk.injEq] at hoffers
        obtain ⟨first, -, ⟨others, all'⟩, hothers, -, rfl⟩ := hoffers
        rw [unbegun] at hcs
        have hc := hcs c mem_cons_self
        rw [ih (fun c hc => hcs c (mem_cons_of_mem _ hc)) hothers]
        cases unordered with
        | true => simpa using hc
        | false => rfl

/-- What may match nothing can do so with the levels of the collector. -/
theorem contentNullable_of_freshOffers {id : NodeId}
    (h : m.ChildrenSettled k valid offers (m.below id))
    (hcomposite : ∀ name target, m.kind id = .reference name target →
      DataType.compositeKinds? name = none)
    (hoffers : m.freshOffers offers id = .ok S)
    (hnull : m.contentNullable nestingLimit id = true) : m.contentNullable (k + 1) id = true := by
  have hbelow {c : NodeId} {S : List Suggestion} (hc : c ∈ m.below id)
      (hoffers : offers (.start c) = .ok S)
      (hchild : ((m.quantifier c).min = 0 || m.contentNullable (nestingLimit - 1) c) = true) :
      ((m.quantifier c).min = 0 || m.contentNullable k c) = true := by
    have hsat : m.isSatisfied (.start c) = true := isSatisfied_of_nullable (Nat.sub_le _ _) hchild
    rwa [h.nullable_eq hc hoffers] at hsat
  rw [show nestingLimit = nestingLimit - 1 + 1 from rfl] at hnull
  unfold freshOffers at hoffers
  simp only [contentNullable, Bool.and_eq_true] at hnull ⊢
  refine ⟨hnull.1, ?_⟩
  replace hnull := hnull.2
  cases hkind : m.kind id with
  | sequence cs =>
    rw [below_eq_children (.inl hkind)] at h hbelow
    simp only [hkind, map_eq_ok_iff, all_eq_true] at hoffers hnull ⊢
    obtain ⟨⟨offered, all⟩, hhead, rfl⟩ := hoffers
    have hall : all = true :=
      all_headOffers (fun c hc => isSatisfied_of_nullable (Nat.sub_le _ _) (hnull c hc)) hhead
    rw [complete_headOffers h hhead, all_eq_true] at hall
    exact hall
  | unordered cs =>
    rw [below_eq_children (.inr (.inr (.inl hkind)))] at hbelow
    simp only [hkind, map_eq_ok_iff, all_eq_true] at hoffers hnull ⊢
    obtain ⟨offered, hoffered, -⟩ := hoffers
    intro c hc
    obtain ⟨S, hchild⟩ := exists_of_mapM hoffered hc
    exact hbelow hc hchild (hnull c hc)
  | subset cs =>
    rw [below_eq_children (.inr (.inr (.inr hkind)))] at hbelow
    simp only [hkind, map_eq_ok_iff, any_eq_true] at hoffers hnull ⊢
    obtain ⟨offered, hoffered, -⟩ := hoffers
    obtain ⟨c, hc, hnull⟩ := hnull
    obtain ⟨S, hchild⟩ := exists_of_mapM hoffered hc
    exact ⟨c, hc, hbelow hc hchild hnull⟩
  | alternation cs =>
    rw [below_eq_children (.inr (.inl hkind))] at hbelow
    simp only [hkind, map_eq_ok_iff, any_eq_true] at hoffers hnull ⊢
    obtain ⟨offered, hoffered, -⟩ := hoffers
    obtain ⟨c, hc, hnull⟩ := hnull
    obtain ⟨S, hchild⟩ := exists_of_mapM hoffered hc
    exact ⟨c, hc, hbelow hc hchild hnull⟩
  | reference name target =>
    have htarget : target ∈ m.below id := by simp [below, hkind]
    simp only [hkind, hcomposite name target hkind] at hoffers hnull ⊢
    split at hoffers
    next => cases hoffers
    next => exact hbelow htarget hoffers hnull
  | literal _ | dataType _ | function _ _ | placeholder =>
    simp only [hkind] at hnull
    cases hnull

theorem isEnough_of_repetitionOffers (hproper : ∀ id, (m.quantifier id).Proper) {root id : NodeId}
    (hroot : m.Substantial root) (hreach : m.Reaches root id) {levels count : Nat}
    (h : m.ChildrenSettled (levels - 1) valid offers (m.below id))
    (hoffers : m.repetitionOffers offers levels id count false = .ok S)
    (henough : m.isEnough nestingLimit id count = true) : m.isEnough levels id count = true := by
  by_cases hmin : (m.quantifier id).min ≤ count
  · simp [isEnough, hmin]
  simp only [isEnough, hmin, decide_false, Bool.false_or] at henough ⊢
  have hallows : (m.quantifier id).allows count = true := by
    by_contra hnot
    exact hmin (min_le_of_not_allows (hproper id) (Bool.eq_false_iff.mpr hnot))
  unfold repetitionOffers at hoffers
  simp only [hallows, Bool.not_true, Bool.false_eq_true, if_false] at hoffers
  split at hoffers
  next c hsep hbehind =>
    simp only [Bool.not_false, Bool.and_true, decide_eq_true_eq] at hbehind
    have hmin : 2 ≤ (m.quantifier id).min := by omega
    rw [hroot id hreach (by simp [passesOver, hsep, hmin])] at henough
    cases henough
  next =>
    split at hoffers
    next => cases hoffers
    next hpos =>
      have hlevels : levels - 1 + 1 = levels := Nat.sub_add_cancel (Nat.pos_of_ne_zero hpos)
      rw [← hlevels]
      refine contentNullable_of_freshOffers h (fun name target hkind => ?_) hoffers henough
      by_contra hcomposite
      rw [hroot id hreach (by simp [passesOver, hkind, Option.isSome_iff_ne_none.mpr hcomposite])]
        at henough
      cases henough

/-- A repetition that may end with all levels may end for the collector. -/
theorem complete_of_repeatSatisfied {id : NodeId} {r : Repeat} (hvalid : m.RepeatValid k valid id r)
    {complete : Bool} (hoffers : m.repeatOffers offers id r = .ok (S, complete))
    (hsat : m.repeatSatisfied nestingLimit id r = true) : complete = true := by
  rw [show nestingLimit = nestingLimit - 1 + 1 from rfl] at hsat
  have hmore {p : Progress} (hp : m.satisfied (nestingLimit - 1) p = true) :
      m.isSatisfied p = true := satisfied_mono (by decide) hp
  cases r with
  | sequence index child =>
    simp only [repeatSatisfied, Bool.and_eq_true, all_eq_true] at hsat
    simp only [repeatOffers, hmore hsat.1, if_true, bind_eq_ok_iff, pure_eq_ok_iff,
      Prod.mk.injEq] at hoffers
    obtain ⟨inside, -, ⟨behind, all⟩, hbehind, -, rfl⟩ := hoffers
    exact all_headOffers (fun c hc => isSatisfied_of_nullable (Nat.sub_le _ _) (hsat.2 c hc))
      hbehind
  | choice index child | reference target =>
    simp only [repeatOffers, bind_eq_ok_iff, pure_eq_ok_iff, Prod.mk.injEq] at hoffers
    obtain ⟨inside, -, -, rfl⟩ := hoffers
    exact hmore hsat
  | group begun active =>
    obtain ⟨cs, hkind, hgroup⟩ := hvalid
    obtain ⟨state, hactive⟩ := hgroup.active_begun
    have hcs := children_of_kind (.inr (.inr hkind))
    simp only [repeatSatisfied, hcs, all_eq_true] at hsat
    have hstate : m.isSatisfied state = true :=
      hmore (hsat (some state, state.node) (mem_of_getElem?
        (getElem?_zip_eq_some.mpr ⟨hactive, hgroup.node_eq hactive⟩)))
    simp only [repeatOffers, hactive, hstate, hcs, if_true, bind_eq_ok_iff, pure_eq_ok_iff,
      Prod.mk.injEq] at hoffers
    obtain ⟨inside, -, ⟨behind, all⟩, hbehind, -, rfl⟩ := hoffers
    refine all_restOffers (fun c hc => ?_) hbehind
    obtain ⟨i, hnone, hi⟩ := mem_unbegun_iff.mp hc
    have hchild := hsat (none, c) (mem_of_getElem? (getElem?_zip_eq_some.mpr ⟨hnone, hi⟩))
    simp only [Bool.or_eq_true] at hchild ⊢
    exact hchild.imp_right (isSatisfied_of_nullable (Nat.sub_le _ _))

theorem isSatisfied_start_eq_of_offers {levels : Nat} (hlt : levels < fullDepth) {c : NodeId}
    (hsat : m.isSatisfied (.start c) = m.satisfied levels (.start c)) :
    m.isSatisfied (.start c) = m.nullable levels c := by
  rw [Bool.eq_iff_iff]
  constructor
  · intro h
    rw [hsat] at h
    have hmore : m.satisfied (levels + 1) (.start c) = true := satisfied_mono (Nat.le_succ _) h
    simpa [Progress.start, satisfied_succ, isEnough, nullable] using hmore
  · exact isSatisfied_of_nullable (Nat.le_of_lt_succ hlt)

/-- Where there are suggestions, a match may end for the collector exactly if it may end with the
levels that are left. -/
theorem isSatisfied_eq_of_offers (hproper : ∀ id, (m.quantifier id).Proper) {root : NodeId}
    (hroot : m.Substantial root) {levels : Nat} {p : Progress} (hreach : m.Reaches root p.node)
    (hfull : levels ≤ fullDepth) (hvalid : m.ValidWithin levels p)
    (hoffers : m.offersWithin levels p = .ok S) : m.isSatisfied p = m.satisfied levels p := by
  induction levels using Nat.strongRecOn generalizing p S with
  | ind levels ih =>
    rw [Bool.eq_iff_iff]
    refine ⟨fun hsat => ?_, satisfied_mono hfull⟩
    obtain ⟨k, rfl⟩ : ∃ k, levels = k + 1 :=
      Nat.exists_eq_add_one_of_ne_zero fun hzero => by simp [hzero, ValidWithin] at hvalid
    obtain ⟨id, count, phase⟩ := p
    have hchildren : m.ChildrenSettled (k - 1) (m.ValidWithin (k - 1)) (m.offersWithin (k - 1))
        (m.below id) := by
      have heq {p : Progress} {S : List Suggestion} (hp : m.ValidWithin (k - 1) p)
          (hmem : p.node ∈ m.below id) (hoffers : m.offersWithin (k - 1) p = .ok S) :
          m.isSatisfied p = m.satisfied (k - 1) p :=
        ih (k - 1) (by omega) (hreach.step hmem) (by omega) hp hoffers
      refine ⟨heq, fun {c S} hc hoffers => ?_⟩
      have hpos : 0 < k - 1 := Nat.pos_of_ne_zero fun hzero => by
        rw [hzero] at hoffers
        cases hoffers
      exact isSatisfied_start_eq_of_offers (by omega) (heq (validWithin_start hpos) hc hoffers)
    rw [offersWithin_succ, offersWith_eq] at hoffers
    rw [isSatisfied, fullDepth, satisfied_succ] at hsat
    rw [satisfied_succ]
    cases phase with
    | between => exact isEnough_of_repetitionOffers hproper hroot hreach hchildren hoffers hsat
    | separated => cases hsat
    | within r =>
      obtain ⟨-, -, hrepeat⟩ := validWithin_succ.mp hvalid
      simp only [Bool.and_eq_true, bind_eq_ok_iff] at hsat hoffers ⊢
      obtain ⟨⟨inside, complete⟩, hinside, hoffers⟩ := hoffers
      have hcomplete := complete_of_repeatSatisfied hrepeat hinside hsat.1
      obtain ⟨j, rfl, -⟩ := hrepeat.exists_pred
      refine ⟨complete_repeatOffers hrepeat hchildren hinside ▸ hcomplete, ?_⟩
      simp only [hcomplete, if_true, bind_eq_ok_iff] at hoffers
      obtain ⟨behind, hbehind, -⟩ := hoffers
      exact isEnough_of_repetitionOffers hproper hroot hreach hchildren hbehind hsat.2

end Matcher

end StyleGrammar

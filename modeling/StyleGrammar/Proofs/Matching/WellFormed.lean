import StyleGrammar.Proofs.Matching.Validity

/-!
# The form of a match

Validity counts the levels that are left.  Without them it says what a match looks
like at every node that is being matched: the count stays within the quantifier, a
repetition in progress is open and has the form of its node, it is at one of the
node's own children, and of the children of a group all but the active one are
complete.  Every match that values lead to has this form
(`wellFormed_of_reachable`).
-/

namespace StyleGrammar

namespace Matcher

variable {m : Matcher}

/-! ## More levels -/

theorem contentNullable_mono {k k' : Nat} (hle : k ≤ k') {id : NodeId}
    (hnull : m.contentNullable k id = true) : m.contentNullable k' id = true := by
  induction k generalizing k' id with
  | zero => simp [contentNullable] at hnull
  | succ k ih =>
    obtain ⟨j, rfl⟩ : ∃ j, k' = j + 1 := ⟨k' - 1, by omega⟩
    have hchild {c : NodeId} (hc : ((m.quantifier c).min = 0 || m.contentNullable k c) = true) :
        ((m.quantifier c).min = 0 || m.contentNullable j c) = true := by
      simp only [Bool.or_eq_true] at hc ⊢
      exact hc.imp_right (ih (by omega))
    simp only [contentNullable, Bool.and_eq_true] at hnull ⊢
    refine ⟨hnull.1, ?_⟩
    have hkind := hnull.2
    cases h : m.kind id <;> simp only [h] at hkind ⊢
    case sequence cs | unordered cs =>
      rw [List.all_eq_true] at hkind ⊢
      exact fun c hc => hchild (hkind c hc)
    case subset cs | alternation cs =>
      rw [List.any_eq_true] at hkind ⊢
      obtain ⟨c, hc, hnull⟩ := hkind
      exact ⟨c, hc, hchild hnull⟩
    case reference name target => exact hchild hkind
    all_goals cases hkind

theorem nullable_mono {k k' : Nat} (hle : k ≤ k') {id : NodeId}
    (hnull : m.nullable k id = true) : m.nullable k' id = true := by
  simp only [nullable, Bool.or_eq_true] at hnull ⊢
  exact hnull.imp_right (contentNullable_mono hle)

theorem isEnough_mono {k k' : Nat} (hle : k ≤ k') {id : NodeId} {count : Nat}
    (henough : m.isEnough k id count = true) : m.isEnough k' id count = true := by
  simp only [isEnough, Bool.or_eq_true] at henough ⊢
  exact henough.imp_right (contentNullable_mono hle)

theorem repeatSatisfied_mono {k k' : Nat} (hle : k ≤ k') {id : NodeId} {r : Repeat}
    (hchild : ∀ p, m.satisfied k p = true → m.satisfied k' p = true)
    (hsat : m.repeatSatisfied (k + 1) id r = true) : m.repeatSatisfied (k' + 1) id r = true := by
  cases r with
  | sequence index child =>
    simp only [repeatSatisfied, Bool.and_eq_true, List.all_eq_true] at hsat ⊢
    exact ⟨hchild child hsat.1, fun c hc => nullable_mono hle (hsat.2 c hc)⟩
  | choice index child => exact hchild child hsat
  | group begun active =>
    simp only [repeatSatisfied, List.all_eq_true] at hsat ⊢
    rintro ⟨state?, c⟩ hmem
    have hstate := hsat _ hmem
    cases state? with
    | some state => exact hchild state hstate
    | none =>
      simp only [Bool.or_eq_true] at hstate ⊢
      exact hstate.imp_right (nullable_mono hle)
  | reference target => exact hchild target hsat

/-- More levels never make a match less satisfied. -/
theorem satisfied_mono {k k' : Nat} (hle : k ≤ k') {p : Progress}
    (hsat : m.satisfied k p = true) : m.satisfied k' p = true := by
  induction k using Nat.strongRecOn generalizing k' p with
  | ind k ih =>
    obtain ⟨id, count, phase⟩ := p
    cases phase with
    | between =>
      have henough : m.isEnough (k - 1) id count = true := by
        cases k <;> simpa [satisfied] using hsat
      have hmore : m.isEnough (k' - 1) id count = true := isEnough_mono (by omega) henough
      cases k' <;> simpa [satisfied] using hmore
    | separated => cases k <;> simp [satisfied] at hsat
    | within r =>
      obtain ⟨j, rfl⟩ : ∃ j, k = j + 2 := by
        rcases k with _ | _ | j
        · simp [satisfied] at hsat
        · simp [satisfied, repeatSatisfied] at hsat
        · exact ⟨j, rfl⟩
      obtain ⟨j', rfl⟩ : ∃ j', k' = j' + 2 := ⟨k' - 2, by omega⟩
      rw [satisfied_succ] at hsat ⊢
      simp only [Bool.and_eq_true] at hsat ⊢
      have hrepeat : m.repeatSatisfied (j' + 1) id r = true :=
        repeatSatisfied_mono (by omega) (fun p hp => ih j (by omega) (by omega) hp) hsat.1
      exact ⟨hrepeat, isEnough_mono (by omega) hsat.2⟩

/-! ## Matches that have the form of their grammar -/

mutual

/-- What a match of a node looks like, at the top and in every match inside it. -/
inductive WellFormed (m : Matcher) : Progress → Prop
  | between {id : NodeId} {count : Nat} (hfits : (m.quantifier id).Fits count) :
      WellFormed m (.mk id count .between)
  | separated {id : NodeId} {count : Nat} (hpos : 0 < count)
      (hallows : (m.quantifier id).allows count = true)
      (hseparator : (m.quantifier id).separator?.isSome) :
      WellFormed m (.mk id count .separated)
  | within {id : NodeId} {count : Nat} {r : Repeat}
      (hallows : (m.quantifier id).allows count = true)
      (hopen : m.repeatOpen fullDepth id r = true) (hrepeat : RepeatWellFormed m id r) :
      WellFormed m (.mk id count (.within r))

/-- What a repetition in progress looks like.  Only combinators and references have one. -/
inductive RepeatWellFormed (m : Matcher) : NodeId → Repeat → Prop
  | sequence {id : NodeId} {cs : List NodeId} {index : Nat} {child : Progress}
      (hkind : m.kind id = .sequence cs) (hindex : cs[index]? = some child.node)
      (hchild : WellFormed m child) : RepeatWellFormed m id (.sequence index child)
  | choice {id : NodeId} {cs : List NodeId} {index : Nat} {child : Progress}
      (hkind : m.kind id = .alternation cs) (hindex : cs[index]? = some child.node)
      (hchild : WellFormed m child) : RepeatWellFormed m id (.choice index child)
  | group {id : NodeId} {cs : List NodeId} {begun : List (Option Progress)} {active : Nat}
      (hkind : m.kind id = .unordered cs ∨ m.kind id = .subset cs)
      (hlength : begun.length = cs.length)
      (hactive : ∃ state, begun[active]? = some (some state))
      (hnode : ∀ (i : Nat) (state : Progress), begun[i]? = some (some state) →
        cs[i]? = some state.node)
      (hstate : ∀ (i : Nat) (state : Progress), begun[i]? = some (some state) → WellFormed m state)
      (hpassed : ∀ (i : Nat) (state : Progress), begun[i]? = some (some state) → i ≠ active →
        m.isSatisfied state = true) : RepeatWellFormed m id (.group begun active)
  | reference {id : NodeId} {name : String} {target : Progress}
      (hkind : m.kind id = .reference name target.node) (htarget : WellFormed m target) :
      RepeatWellFormed m id (.reference target)

end

theorem RepeatValid.wellFormed {levels : Nat} (hfull : levels ≤ fullDepth)
    {valid : Progress → Prop} (hchild : ∀ p, valid p → m.WellFormed p) {id : NodeId} {r : Repeat}
    (h : m.RepeatValid levels valid id r) : m.RepeatWellFormed id r := by
  cases r with
  | sequence index child =>
    obtain ⟨cs, hkind, hindex, hvalid⟩ := h
    exact .sequence hkind hindex (hchild child hvalid)
  | choice index child =>
    obtain ⟨cs, hkind, hindex, hvalid⟩ := h
    exact .choice hkind hindex (hchild child hvalid)
  | group begun active =>
    obtain ⟨cs, hkind, hgroup⟩ := h
    refine .group hkind hgroup.length_eq hgroup.active_begun ?_ ?_ ?_
    · intro i state hi
      exact hgroup.node_eq hi
    · intro i state hi
      exact hchild state (hgroup.valid hi)
    · intro i state hi hne
      exact satisfied_mono hfull (hgroup.passed_satisfied hi hne)
  | reference target =>
    obtain ⟨name, hkind, hvalid⟩ := h
    exact .reference hkind (hchild target hvalid)

theorem ValidWithin.wellFormed {levels : Nat} (hfull : levels ≤ fullDepth) {p : Progress}
    (h : m.ValidWithin levels p) : m.WellFormed p := by
  induction levels using Nat.strongRecOn generalizing p with
  | ind levels ih =>
    cases levels with
    | zero => exact absurd h id
    | succ k =>
      have hvalid := validWithin_succ.mp h
      obtain ⟨id, count, phase⟩ := p
      cases phase with
      | between => exact .between hvalid
      | separated => exact .separated hvalid.1 hvalid.2.1 hvalid.2.2
      | within r =>
        obtain ⟨hallows, hopen, hrepeat⟩ := hvalid
        have hchildren (q : Progress) (hq : m.ValidWithin (k - 1) q) : m.WellFormed q :=
          ih (k - 1) (by omega) (by omega) hq
        exact .within hallows hopen (hrepeat.wellFormed (by omega) hchildren)

/-- Every match that values lead to is at its root and has the form of its grammar. -/
theorem wellFormed_of_reachable {root : NodeId} {p : Progress} (h : m.Reachable root p) :
    p.node = root ∧ m.WellFormed p := by
  obtain ⟨hvalid, hnode⟩ := h.validWithin
  exact ⟨hnode, hvalid.wellFormed (Nat.le_refl _)⟩

/-- A pair of keywords and another keyword, in any order. -/
def anyOrder : Matcher := ⟨(Arena.empty.define "[ a b ] && c").2, []⟩

def Progress.isInGroup (p : Progress) : Bool :=
  match p.phase with
  | .within (.group _ _) => true
  | _ => false

/-- The first keyword of the pair leads into the group. -/
theorem wellFormed_anyOrder : ∃ p, anyOrder.Reachable 4 p ∧ Progress.isInGroup p = true ∧
    p.node = 4 ∧ anyOrder.WellFormed p := by
  have hrun : (anyOrder.take (V := Nested (Reader.nestingLimit - 1)) (.start 4)
      (.leaf (.keyword ⟨"a"⟩))).next?.any Progress.isInGroup = true := by
    decide +kernel
  obtain ⟨p, htake, hgroup⟩ := (Option.any_eq_true _ _).mp hrun
  have hreach : anyOrder.Reachable 4 p := .take .start _ htake
  exact ⟨p, hreach, hgroup, wellFormed_of_reachable hreach⟩

end Matcher

end StyleGrammar

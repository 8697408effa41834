import StyleGrammar.Proofs.Matching.WellFormed
import StyleGrammar.Proofs.Suggestion.Agreement

/-!
# Matches that can take nothing more

A match that is not open is complete, takes no value and has no suggestions.  It
rests on the repetitions that are counted as complete because they can take
nothing more: each of them may end, at whatever node it is met
(`repeatSatisfied_of_settles`).  So suggestions may stop at the first value that
leaves nothing open: what they say is what the match after all the values says.
-/

namespace StyleGrammar

/-- The matches inside a repetition. -/
def Repeat.matches : Repeat → List Progress
  | sequence _ child | choice _ child | reference child => [child]
  | group begun _ => begun.filterMap id

namespace Matcher

variable {V : Type} {m : Matcher} {v : Form V}

/-! ## Repetitions that are settled on the way -/

/-- The repetitions that are settled while a match takes a value, by the match itself or by one
below it, each with the levels left for it. -/
inductive Settles (m : Matcher) (v : Form V) :
    (levels : Nat) → Progress → (left : Nat) → NodeId → Repeat → Prop
  | continued {k count : Nat} {id : NodeId} {r r' : Repeat}
      (h : m.continueRepeat (m.takeWithin v (k - 1)) (k - 1) id r = some r') :
      Settles m v (k + 1) (.mk id count (.within r)) k id r'
  | begun {k count : Nat} {id : NodeId} {phase : Phase} {r : Repeat}
      (h : m.beginRepeat v (m.takeWithin v (k - 1)) (k - 1) id = some (some r)) :
      Settles m v (k + 1) (.mk id count phase) k id r
  | fresh {k left count : Nat} {id id' c : NodeId} {phase : Phase} {r : Repeat}
      (hc : c ∈ m.below id) (h : Settles m v (k - 1) (.start c) left id' r) :
      Settles m v (k + 1) (.mk id count phase) left id' r
  | inside {k left count : Nat} {id id' : NodeId} {q : Progress} {r r' : Repeat}
      (hq : q ∈ r.matches) (h : Settles m v (k - 1) q left id' r') :
      Settles m v (k + 1) (.mk id count (.within r)) left id' r'

theorem Settles.pos {levels left : Nat} {p : Progress} {id : NodeId} {r : Repeat}
    (h : m.Settles v levels p left id r) : 0 < levels := by
  cases h <;> omega

theorem RepeatValid.valid_of_mem {levels : Nat} {valid : Progress → Prop} {id : NodeId}
    {r : Repeat} (h : m.RepeatValid levels valid id r) {q : Progress} (hq : q ∈ r.matches) :
    valid q := by
  cases r with
  | sequence index child =>
    obtain ⟨cs, -, -, hvalid⟩ := h
    rwa [List.mem_singleton.mp hq]
  | choice index child =>
    obtain ⟨cs, -, -, hvalid⟩ := h
    rwa [List.mem_singleton.mp hq]
  | group begun active =>
    obtain ⟨cs, -, hgroup⟩ := h
    obtain ⟨state?, hmem, hstate⟩ := List.mem_filterMap.mp hq
    obtain ⟨i, hi⟩ := List.getElem?_of_mem hmem
    have hbegun : begun[i]? = some (some q) := by rw [hi, ← hstate, id_eq]
    exact hgroup.valid hbegun
  | reference target =>
    obtain ⟨name, -, hvalid⟩ := h
    rwa [List.mem_singleton.mp hq]

/-- A repetition that is counted as complete may end. -/
theorem repeatSatisfied_of_settles (hproper : ∀ id, (m.quantifier id).Proper)
    {levels left : Nat} {p : Progress} {id : NodeId} {r : Repeat}
    (h : m.Settles v levels p left id r) (hfull : levels ≤ fullDepth)
    (hvalid : m.ValidWithin levels p) (hclosed : m.repeatOpen fullDepth id r = false) :
    m.repeatSatisfied left id r = true := by
  have hsettled {k : Nat} (hk : k + 1 ≤ fullDepth) {id : NodeId} {r : Repeat}
      (hr : m.RepeatValid (k - 1) (m.ValidWithin (k - 1)) id r)
      (hclosed : m.repeatOpen fullDepth id r = false) : m.repeatSatisfied k id r = true := by
    obtain ⟨j, rfl, -⟩ := hr.exists_pred
    exact repeatSatisfied_of_not_open hproper (by omega) hr (by omega) hclosed
  induction h with
  | continued h =>
    have hrepeat := (validWithin_succ.mp hvalid).2.2
    have hkeeps := keepsValid_takeWithin (m := m) (v := v)
    exact hsettled hfull (continueRepeat_valid (hkeeps _) hrepeat h) hclosed
  | begun h =>
    have hkeeps := keepsValid_takeWithin (m := m) (v := v)
    exact hsettled hfull (beginRepeat_valid (hkeeps _) h) hclosed
  | fresh hc h ih => exact ih (by omega) (validWithin_start h.pos) hclosed
  | inside hq h ih =>
    have hrepeat := (validWithin_succ.mp hvalid).2.2
    exact ih (by omega) (hrepeat.valid_of_mem hq) hclosed

/-! ## Closed matches -/

/-- A valid match that is not open stands between repetitions, of which there can be no more. -/
theorem eq_between_of_not_open {p : Progress} (hvalid : m.ValidWithin fullDepth p)
    (hclosed : m.isOpen p = false) :
    ∃ id count, p = .mk id count .between ∧ (m.quantifier id).allows count = false := by
  obtain ⟨id, count, phase⟩ := p
  replace hvalid := validWithin_succ.mp hvalid
  rw [isOpen, fullDepth, isOpenWithin_succ] at hclosed
  cases phase with
  | between => exact ⟨id, count, rfl, hclosed⟩
  | separated =>
    rw [hvalid.2.1] at hclosed
    cases hclosed
  | within r =>
    obtain ⟨-, hopen, hrepeat⟩ := hvalid
    have hlevels : m.repeatOpen nestingLimit id r = m.repeatOpen fullDepth id r :=
      repeatOpen_eq hrepeat (by decide) (by decide)
    rw [Bool.or_eq_false_iff, hlevels, hopen] at hclosed
    cases hclosed.1

theorem take_eq_rejected {id : NodeId} {count : Nat}
    (hallows : (m.quantifier id).allows count = false) :
    m.take (.mk id count .between) v = .rejected := by
  have hfresh : m.takeWithin v fullDepth (.mk id count .between) = none := by
    rw [fullDepth, takeWithin_succ]
    change m.takeFresh v _ _ id count false = none
    simp [takeFresh, hallows]
  simp [Matcher.take, hfresh]

theorem suggestions_eq_nil {id : NodeId} {count : Nat}
    (hallows : (m.quantifier id).allows count = false) :
    m.suggestions (.mk id count .between) = .ok [] := by
  have hfresh : m.offersWithin fullDepth (.mk id count .between) = .ok [] := by
    rw [fullDepth, offersWithin_succ, offersWith_eq]
    simp [repetitionOffers, hallows]
  rw [suggestions, hfresh]
  rfl

/-! ## Values after a closed match -/

/-- The match after some values, of which the rejected ones are passed over. -/
def afterTaken (m : Matcher) (p : Progress) (vs : List Value) : Progress :=
  vs.foldl (fun p v => (m.take p v).next?.getD p) p

theorem Reachable.afterTaken {root : NodeId} {p : Progress} (h : m.Reachable root p)
    (vs : List Value) : m.Reachable root (m.afterTaken p vs) := by
  induction vs generalizing p with
  | nil => exact h
  | cons v vs ih =>
    rw [Matcher.afterTaken, List.foldl_cons]
    cases htake : (m.take p v).next? with
    | none => exact ih h
    | some next => exact ih (h.take v htake)

theorem afterTaken_of_rejected {p : Progress} (h : ∀ v : Value, m.take p v = .rejected)
    (vs : List Value) : m.afterTaken p vs = p := by
  induction vs with
  | nil => rfl
  | cons v vs ih =>
    have hstep : (m.take p v).next?.getD p = p := by rw [h v]; rfl
    rw [afterTaken, List.foldl_cons, hstep]
    exact ih

theorem not_open_of_exhausted {p next : Progress} {v : Value}
    (h : m.take p v = .exhausted next) : m.isOpen next = false := by
  unfold Matcher.take at h
  split at h
  next => cases h
  next other htake =>
    split at h
    next => cases h
    next hclosed =>
      cases h
      simpa using hclosed

theorem suggestionsAfter_eq {p : Progress} (hvalid : m.ValidWithin fullDepth p)
    (vs : List Value) : m.suggestionsAfter p vs = m.suggestions (m.afterTaken p vs) := by
  induction vs generalizing p with
  | nil => rfl
  | cons v vs ih =>
    rw [suggestionsAfter, afterTaken, List.foldl_cons]
    have hnext (next : Progress) (htake : (m.take p v).next? = some next) :
        m.ValidWithin fullDepth next :=
      (take_valid hvalid htake).1
    cases htake : m.take p v with
    | rejected => exact ih hvalid
    | continued next => exact ih (hnext next (by rw [htake]; rfl))
    | exhausted next =>
      have hclosed := not_open_of_exhausted htake
      obtain ⟨id, count, rfl, hallows⟩ :=
        eq_between_of_not_open (hnext next (by rw [htake]; rfl)) hclosed
      have hstay := afterTaken_of_rejected (fun v => take_eq_rejected (v := v) hallows) vs
      have hnone := suggestions_eq_nil hallows
      rw [← hstay] at hnone
      exact hnone.symm

/-- In a grammar that was defined, a match that is not open is complete and takes nothing, whatever
is counted as complete on the way may end, and what follows some values is what follows the match
after all of them. -/
theorem closed_is_final (hbuilt : m.arena.Built) (root : NodeId) :
    (∀ p, m.Reachable root p →
      (m.isOpen p = false → m.isSatisfied p = true ∧ (∀ v : Value, m.take p v = .rejected) ∧
        m.suggestions p = .ok []) ∧
      ∀ (v : Value) (left : Nat) (id : NodeId) (r : Repeat), m.Settles v fullDepth p left id r →
        m.repeatOpen fullDepth id r = false → m.repeatSatisfied left id r = true) ∧
    ∀ vs : List Value,
      m.suggestionsAfter (.start root) vs = m.suggestions (m.afterTaken (.start root) vs) := by
  have hproper (id : NodeId) : (m.quantifier id).Proper := hbuilt.allProper id
  refine ⟨fun p hreach => ?_, suggestionsAfter_eq (validWithin_start (by decide))⟩
  have hvalid := hreach.validWithin.1
  refine ⟨fun hclosed => ?_, ?_⟩
  · have hsat : m.isSatisfied p = true :=
      satisfied_of_not_open hproper (Nat.le_refl _) p hvalid (Nat.le_refl _) hclosed
    obtain ⟨id, count, rfl, hallows⟩ := eq_between_of_not_open hvalid hclosed
    exact ⟨hsat, fun v => take_eq_rejected hallows, suggestions_eq_nil hallows⟩
  · intro v left id r hsettles hclosed
    exact repeatSatisfied_of_settles hproper hsettles (Nat.le_refl _) hvalid hclosed

/-- The keywords of `anyOrder`, with one between them that is rejected. -/
def anyOrderValues : List Value := ["c", "a", "c", "b"].map fun name => .leaf (.keyword ⟨name⟩)

theorem anyOrder_closed :
    anyOrder.isSatisfied (anyOrder.afterTaken (.start 4) anyOrderValues) = true ∧
      anyOrder.suggestionsAfter (.start 4) anyOrderValues = .ok [] := by
  have hbuilt : anyOrder.arena.Built := by
    dsimp only [anyOrder]
    exact .define _ .empty
  have hclosed : anyOrder.isOpen (anyOrder.afterTaken (.start 4) anyOrderValues) = false := by
    decide +kernel
  obtain ⟨hmatches, hafter⟩ := closed_is_final hbuilt 4
  obtain ⟨hsat, -, hnone⟩ := (hmatches _ (Reachable.start.afterTaken anyOrderValues)).1 hclosed
  exact ⟨hsat, (hafter anyOrderValues).trans hnone⟩

end Matcher

end StyleGrammar

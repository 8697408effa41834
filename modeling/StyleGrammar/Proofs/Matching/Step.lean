import StyleGrammar.Proofs.Matching.Language

/-!
# What one value does to a match

Inversion lemmas for the matcher's step: which child begins a sequence, an
alternation or a group, when a repetition begins, and when a value starts a
repetition behind others.  Later arguments cite these and do not unfold the step
again.  More levels never make a match less satisfied.
-/

namespace StyleGrammar

namespace Progress

@[simp] theorem node_mk (id : NodeId) (count : Nat) (phase : Phase) :
    (mk id count phase).node = id := rfl

@[simp] theorem node_start (id : NodeId) : (start id).node = id := rfl

end Progress

namespace Matcher

open List

variable {V : Type} {m : Matcher} {v : Form V} {take : Progress → Option Progress}

@[simp] theorem node_settled (id : NodeId) (count : Nat) (r : Repeat) :
    (m.settled id count r).node = id := by
  unfold settled
  split <;> rfl

/-! ## The child that begins -/

/-- A sequence begins at the first child that takes the value; those in front may be nothing. -/
theorem beginSequence_eq_some {levels index : Nat} {cs : List NodeId} {r : Repeat}
    (h : m.beginSequence take levels index cs = some r) :
    ∃ front c behind state, cs = front ++ c :: behind ∧
      (∀ x ∈ front, take (.start x) = none ∧ m.nullable levels x = true) ∧
      take (.start c) = some state ∧ r = .sequence (index + front.length) state := by
  induction cs generalizing index with
  | nil => simp [beginSequence] at h
  | cons c cs ih =>
    rw [beginSequence] at h
    cases htake : take (.start c) with
    | some state =>
      simp only [htake, Option.some.injEq] at h
      exact ⟨[], c, cs, state, rfl, by simp, htake, by simp [← h]⟩
    | none =>
      simp only [htake] at h
      split at h
      next hnull =>
        obtain ⟨front, c', behind, state, rfl, hfront, hstate, rfl⟩ := ih h
        refine ⟨c :: front, c', behind, state, rfl, ?_, hstate, ?_⟩
        · intro x hx
          rcases List.mem_cons.mp hx with rfl | hx
          · exact ⟨htake, hnull⟩
          · exact hfront x hx
        · rw [List.length_cons, show index + (front.length + 1) = index + 1 + front.length by omega]
      next => cases h

theorem beginSequence_append {levels index : Nat} {front behind : List NodeId} {c : NodeId}
    {state : Progress}
    (hfront : ∀ x ∈ front, take (.start x) = none ∧ m.nullable levels x = true)
    (htake : take (.start c) = some state) :
    m.beginSequence take levels index (front ++ c :: behind) =
      some (.sequence (index + front.length) state) := by
  induction front generalizing index with
  | nil => simp [beginSequence, htake]
  | cons x front ih =>
    obtain ⟨hnone, hnull⟩ := hfront x List.mem_cons_self
    rw [List.cons_append, beginSequence, hnone]
    simp only [hnull, if_true]
    rw [ih fun y hy => hfront y (List.mem_cons_of_mem _ hy), List.length_cons,
      show index + 1 + front.length = index + (front.length + 1) by omega]

/-- An alternation begins with the first child that takes the value. -/
theorem beginChoice_eq_some {index : Nat} {cs : List NodeId} {r : Repeat}
    (h : beginChoice take index cs = some r) :
    ∃ front c behind state, cs = front ++ c :: behind ∧ (∀ x ∈ front, take (.start x) = none) ∧
      take (.start c) = some state ∧ r = .choice (index + front.length) state := by
  induction cs generalizing index with
  | nil => simp [beginChoice] at h
  | cons c cs ih =>
    rw [beginChoice] at h
    cases htake : take (.start c) with
    | some state =>
      simp only [htake, Option.some.injEq] at h
      exact ⟨[], c, cs, state, rfl, by simp, htake, by simp [← h]⟩
    | none =>
      simp only [htake] at h
      obtain ⟨front, c', behind, state, rfl, hfront, hstate, rfl⟩ := ih h
      refine ⟨c :: front, c', behind, state, rfl, ?_, hstate, ?_⟩
      · intro x hx
        rcases List.mem_cons.mp hx with rfl | hx
        · exact htake
        · exact hfront x hx
      · rw [List.length_cons, show index + (front.length + 1) = index + 1 + front.length by omega]

theorem beginChoice_eq_none_iff {index : Nat} {cs : List NodeId} :
    beginChoice take index cs = none ↔ ∀ c ∈ cs, take (.start c) = none := by
  induction cs generalizing index with
  | nil => simp [beginChoice]
  | cons c cs ih =>
    rw [beginChoice]
    cases htake : take (.start c) with
    | some state => simp [htake]
    | none => simp [htake, ih]

/-- The children of a group that have not begun. -/
def unbegun : List (Option Progress) → List NodeId → List NodeId
  | none :: begun, c :: cs => c :: unbegun begun cs
  | some _ :: begun, _ :: cs => unbegun begun cs
  | _, _ => []

@[simp] theorem unbegun_map_none (cs : List NodeId) :
    unbegun (cs.map fun _ => none) cs = cs := by
  induction cs with
  | nil => rfl
  | cons c cs ih => simpa [unbegun] using ih

theorem unbegun_perm_cons {begun : List (Option Progress)} {cs : List NodeId} {i : Nat}
    {c : NodeId} {state : Progress} (hnone : begun[i]? = some none) (hc : cs[i]? = some c) :
    unbegun begun cs ~ c :: unbegun (begun.set i (some state)) cs := by
  induction begun generalizing cs i with
  | nil => simp at hnone
  | cons first begun ih =>
    cases cs with
    | nil => simp at hc
    | cons d cs =>
      cases i with
      | zero =>
        simp only [List.getElem?_cons_zero, Option.some.injEq] at hnone hc
        subst hnone hc
        simp [unbegun]
      | succ i =>
        simp only [List.getElem?_cons_succ] at hnone hc
        have hperm := ih hnone hc
        cases first with
        | none =>
          simp only [unbegun, List.set_cons_succ]
          exact (hperm.cons d).trans (List.Perm.swap c d _)
        | some other => simpa [unbegun] using hperm

theorem unbegun_set_some {begun : List (Option Progress)} {cs : List NodeId} {i : Nat}
    {state state' : Progress} (hi : begun[i]? = some (some state)) :
    unbegun (begun.set i (some state')) cs = unbegun begun cs := by
  induction begun generalizing cs i with
  | nil => rfl
  | cons first begun ih =>
    cases cs with
    | nil => cases i <;> cases first <;> rfl
    | cons d cs =>
      cases i with
      | zero =>
        simp only [List.getElem?_cons_zero, Option.some.injEq] at hi
        subst hi
        rfl
      | succ i =>
        have hrest : unbegun (begun.set i (some state')) cs = unbegun begun cs :=
          ih (by simpa using hi)
        cases first <;> simp [unbegun, hrest]

theorem mem_unbegun_iff {begun : List (Option Progress)} {cs : List NodeId} {c : NodeId} :
    c ∈ unbegun begun cs ↔ ∃ i : Nat, begun[i]? = some none ∧ cs[i]? = some c := by
  induction begun generalizing cs with
  | nil => simp [unbegun]
  | cons first begun ih =>
    cases cs with
    | nil => cases first <;> simp [unbegun]
    | cons d cs =>
      cases first with
      | none =>
        rw [unbegun, List.mem_cons, ih]
        constructor
        · rintro (rfl | ⟨i, hi⟩)
          · exact ⟨0, rfl, rfl⟩
          · exact ⟨i + 1, hi⟩
        · rintro ⟨i, hnone, hc⟩
          cases i with
          | zero => exact .inl (by simpa using hc.symm)
          | succ i => exact .inr ⟨i, hnone, hc⟩
      | some other =>
        rw [unbegun, ih]
        constructor
        · rintro ⟨i, hi⟩
          exact ⟨i + 1, hi⟩
        · rintro ⟨i, hnone, hc⟩
          cases i with
          | zero => simp at hnone
          | succ i => exact ⟨i, hnone, hc⟩

/-- A group begins the first child that has not begun and takes the value. -/
theorem beginGroup_eq_some {passed begun : List (Option Progress)} {cs : List NodeId} {r : Repeat}
    (h : beginGroup take passed begun cs = some r) :
    ∃ i c state, begun[i]? = some none ∧ cs[i]? = some c ∧ take (.start c) = some state ∧
      r = .group (passed.reverse ++ begun.set i (some state)) (passed.length + i) := by
  induction begun generalizing cs passed with
  | nil => simp [beginGroup] at h
  | cons first begun ih =>
    cases cs with
    | nil => cases first <;> simp [beginGroup] at h
    | cons c cs =>
      have hlater (h : beginGroup take (first :: passed) begun cs = some r) :
          ∃ i c' state, (first :: begun)[i]? = some none ∧ (c :: cs)[i]? = some c' ∧
            take (.start c') = some state ∧ r = .group
              (passed.reverse ++ (first :: begun).set i (some state)) (passed.length + i) := by
        obtain ⟨i, c', state, hnone, hc, hstate, rfl⟩ := ih h
        refine ⟨i + 1, c', state, by simpa using hnone, by simpa using hc, hstate, ?_⟩
        simp only [List.reverse_cons, List.append_assoc, List.singleton_append,
          List.length_cons, List.set_cons_succ]
        rw [show passed.length + 1 + i = passed.length + (i + 1) by omega]
      cases first with
      | none =>
        rw [beginGroup] at h
        cases htake : take (.start c) with
        | some state =>
          simp only [htake, Option.some.injEq] at h
          exact ⟨0, c, state, rfl, rfl, htake, by simp [← h]⟩
        | none =>
          simp only [htake] at h
          exact hlater h
      | some other =>
        rw [beginGroup] at h
        exact hlater h

theorem beginGroup_eq_none_iff {passed begun : List (Option Progress)} {cs : List NodeId} :
    beginGroup take passed begun cs = none ↔
      ∀ c ∈ unbegun begun cs, take (.start c) = none := by
  induction begun generalizing cs passed with
  | nil => simp [beginGroup, unbegun]
  | cons first begun ih =>
    cases cs with
    | nil => cases first <;> simp [beginGroup, unbegun]
    | cons c cs =>
      cases first with
      | none =>
        rw [beginGroup, unbegun]
        cases htake : take (.start c) with
        | some state => simp [htake]
        | none => simp [htake, ih]
      | some other => rw [beginGroup, unbegun, ih]

/-! ## A repetition begins -/

theorem beginRepeat_eq_whole_iff {levels : Nat} {id : NodeId} :
    m.beginRepeat v take levels id = some none ↔ m.takesWhole id v = true := by
  unfold beginRepeat takesWhole
  cases m.kind id <;> simp

/-- How a repetition of a node that is made of others begins. -/
theorem beginRepeat_eq_some {levels : Nat} {id : NodeId} {r : Repeat}
    (h : m.beginRepeat v take levels id = some (some r)) :
    (∃ name target state, m.kind id = .reference name target ∧
      take (.start target) = some state ∧ r = .reference state) ∨
    (∃ cs, m.kind id = .sequence cs ∧ m.beginSequence take levels 0 cs = some r) ∨
    (∃ cs, m.kind id = .alternation cs ∧ beginChoice take 0 cs = some r) ∨
    (∃ cs, (m.kind id = .unordered cs ∨ m.kind id = .subset cs) ∧
      beginGroup take [] (cs.map fun _ => none) cs = some r) := by
  unfold beginRepeat at h
  cases hkind : m.kind id with
  | literal text => simp [hkind] at h
  | dataType name => simp [hkind] at h
  | function name cs => simp [hkind] at h
  | placeholder => simp [hkind] at h
  | reference name target =>
    simp only [hkind] at h
    split at h
    · simp at h
    · simp only [Option.map_eq_some_iff, Option.some.injEq] at h
      obtain ⟨state, htake, rfl⟩ := h
      exact .inl ⟨name, target, state, rfl, htake, rfl⟩
  | sequence cs => exact .inr (.inl ⟨cs, rfl, by simpa [hkind] using h⟩)
  | alternation cs => exact .inr (.inr (.inl ⟨cs, rfl, by simpa [hkind] using h⟩))
  | unordered cs => exact .inr (.inr (.inr ⟨cs, .inl rfl, by simpa [hkind] using h⟩))
  | subset cs => exact .inr (.inr (.inr ⟨cs, .inr rfl, by simpa [hkind] using h⟩))

/-- What a value that starts a repetition does: it is the separator in front of the next one, or
the next one begins with it. -/
theorem takeFresh_eq_some_iff {levels count : Nat} {id : NodeId} {separated : Bool}
    {p : Progress} :
    m.takeFresh v take levels id count separated = some p ↔
      (m.quantifier id).allows count = true ∧
      ((∃ c, (m.quantifier id).separator? = some c ∧ 0 < count ∧ separated = false ∧
          v = .leaf (.delimiter c) ∧ p = .mk id count .separated) ∨
        ((m.quantifier id).separator? = none ∨ count = 0 ∨ separated = true) ∧
          ((∃ r, m.beginRepeat v take levels id = some (some r) ∧ p = m.settled id count r) ∨
            m.beginRepeat v take levels id = some none ∧ p = .mk id (count + 1) .between)) := by
  have hbegun : takeFresh.begun m v take levels id count = some p ↔
      (∃ r, m.beginRepeat v take levels id = some (some r) ∧ p = m.settled id count r) ∨
        m.beginRepeat v take levels id = some none ∧ p = .mk id (count + 1) .between := by
    unfold takeFresh.begun
    cases hbegin : m.beginRepeat v take levels id with
    | none => simp
    | some r? => cases r? <;> simp [eq_comm]
  unfold takeFresh
  dsimp only
  cases hallows : (m.quantifier id).allows count with
  | false => simp
  | true =>
    rw [Bool.not_true, if_neg Bool.false_ne_true]
    cases hsep : (m.quantifier id).separator? with
    | none => simp [hbegun]
    | some c =>
      by_cases hfirst : 0 < count ∧ separated = false
      · obtain ⟨hpos, rfl⟩ := hfirst
        have hcount : ¬ count = 0 := Nat.ne_of_gt hpos
        simp only [hpos, decide_true, Bool.not_false, Bool.and_self, if_true]
        split
        next d =>
          by_cases hd : d = c
          · simp [hd, hcount, eq_comm]
          · simp [hd, hcount]
        next hother =>
          simp only [reduceCtorEq, false_iff, true_and, not_or, not_exists, not_and]
          refine ⟨?_, by simp [hcount]⟩
          rintro c' - hv
          exact absurd hv (hother c')
      · have hopen : count = 0 ∨ separated = true := by
          rw [not_and_or, Nat.not_lt, Nat.le_zero, Bool.not_eq_false] at hfirst
          exact hfirst
        have hnot : (decide (0 < count) && !separated) = false := by
          rcases hopen with hopen | hopen <;> simp [hopen]
        simp only [hnot, Bool.false_eq_true, if_false, hbegun, true_and]
        constructor
        · intro h
          exact .inr ⟨.inr hopen, h⟩
        · rintro (⟨c', -, hpos, hsep', -⟩ | ⟨-, h⟩)
          · exact absurd ⟨hpos, hsep'⟩ hfirst
          · exact h

theorem next?_take {p : Progress} : (m.take p v).next? = m.takeWithin v fullDepth p := by
  unfold Matcher.take
  cases m.takeWithin v fullDepth p with
  | none => rfl
  | some next => cases hopen : m.isOpen next <;> simp [hopen, Outcome.next?]

theorem satisfied_succ {k count : Nat} {id : NodeId} {phase : Phase} :
    m.satisfied (k + 1) (.mk id count phase) =
      match phase with
      | .between => m.isEnough k id count
      | .separated => false
      | .within r => m.repeatSatisfied k id r && m.isEnough k id (count + 1) := by
  cases phase <;> simp [satisfied]

end Matcher

end StyleGrammar

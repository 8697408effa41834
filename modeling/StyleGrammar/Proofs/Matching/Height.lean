import StyleGrammar.Proofs.Matching.Soundness

/-!
# Grammars of bounded height

Without cycles of references a grammar unfolds into a tree.  Where its height is
small, the levels of the matcher never run out: the nullable nodes are exactly
those with an empty word, and the satisfied matches exactly those that may end,
for all numbers of levels from twice the height on.
-/

namespace StyleGrammar

namespace Matcher

open List

variable {V : Type} {m : Matcher}

/-- The nodes one step further down: the children of a combinator, the target of a reference.  The
arguments of a function are not matched. -/
def below (m : Matcher) (id : NodeId) : List NodeId :=
  match m.kind id with
  | .sequence cs | .unordered cs | .subset cs | .alternation cs => cs
  | .reference _ target => [target]
  | _ => []

/-- The grammar below a node, references followed, has no longer path than so many steps. -/
def HeightAtMost (m : Matcher) : Nat → NodeId → Prop
  | 0, id => m.below id = []
  | n + 1, id => ∀ c ∈ m.below id, HeightAtMost m n c

/-- A node that the grammar of another leads to. -/
inductive Reaches (m : Matcher) (root : NodeId) : NodeId → Prop
  | root : Reaches m root root
  | step {id c : NodeId} (h : Reaches m root id) (hc : c ∈ m.below id) : Reaches m root c

theorem Reaches.trans {a b c : NodeId} (hab : m.Reaches a b) (hbc : m.Reaches b c) :
    m.Reaches a c := by
  induction hbc with
  | root => exact hab
  | step _ hc ih => exact ih.step hc

theorem Reaches.eq_root {root id : NodeId} (h : m.Reaches root id) (hbelow : m.below root = []) :
    id = root := by
  induction h with
  | root => rfl
  | step h hc ih =>
    rw [ih, hbelow] at hc
    cases hc

theorem HeightAtMost.child {n : Nat} {id c : NodeId} (h : m.HeightAtMost n id)
    (hc : c ∈ m.below id) : ∃ k, n = k + 1 ∧ m.HeightAtMost k c := by
  cases n with
  | zero =>
    rw [HeightAtMost] at h
    rw [h] at hc
    cases hc
  | succ k => exact ⟨k, rfl, h c hc⟩

theorem below_eq_children {id : NodeId} {cs : List NodeId}
    (hkind : m.kind id = .sequence cs ∨ m.kind id = .alternation cs ∨
      m.kind id = .unordered cs ∨ m.kind id = .subset cs) : m.below id = cs := by
  unfold below
  rcases hkind with h | h | h | h <;> rw [h]

/-- The children of a valid repetition are below its node. -/
theorem RepeatValid.below {levels : Nat} {valid : Progress → Prop} {id : NodeId} {r : Repeat}
    (h : m.RepeatValid levels valid id r) :
    m.RepeatValid levels (fun p => valid p ∧ p.node ∈ m.below id) id r := by
  cases r with
  | sequence index child =>
    obtain ⟨cs, hkind, hindex, hchild⟩ := h
    rw [below_eq_children (.inl hkind)]
    exact ⟨cs, hkind, hindex, hchild, List.mem_of_getElem? hindex⟩
  | choice index child =>
    obtain ⟨cs, hkind, hindex, hchild⟩ := h
    rw [below_eq_children (.inr (.inl hkind))]
    exact ⟨cs, hkind, hindex, hchild, List.mem_of_getElem? hindex⟩
  | group begun active =>
    obtain ⟨cs, hkind, hgroup⟩ := h
    rw [below_eq_children (.inr (.inr hkind))]
    refine ⟨cs, hkind, hgroup.length_eq, hgroup.active_begun, hgroup.node_eq, ?_,
      hgroup.passed_satisfied⟩
    intro i state hi
    exact ⟨hgroup.valid hi, List.mem_of_getElem? (hgroup.node_eq hi)⟩
  | reference target =>
    obtain ⟨name, hkind, htarget⟩ := h
    exact ⟨name, hkind, htarget, by simp [Matcher.below, hkind]⟩

/-! ## Enough levels -/

theorem contentNullable_of_omittable {n k : Nat} {id : NodeId} (hheight : m.HeightAtMost n id)
    (hk : n < k) (hempty : m.Omittable V id) : m.contentNullable k id = true := by
  induction n using Nat.strongRecOn generalizing k id with
  | ind n ih =>
    obtain ⟨i, rfl⟩ : ∃ i, k = i + 1 := ⟨k - 1, by omega⟩
    obtain ⟨hrequired, hcontent⟩ := hempty
    obtain ⟨ids, harranges, hwords⟩ := content_nil_iff.mp hcontent
    have hchild {c : NodeId} (hc : c ∈ m.below id) (hword : m.Word (V := V) c []) :
        ((m.quantifier c).min = 0 || m.contentNullable i c) = true := by
      obtain ⟨j, rfl, hj⟩ := hheight.child hc
      rcases word_nil_iff.mp hword with hmin | hempty
      · simp [hmin]
      · have hnull : m.contentNullable i c = true := ih j (by omega) hj (by omega) hempty
        simp [hnull]
    simp only [contentNullable, hrequired, Bool.not_false, Bool.true_and]
    unfold below at hchild
    cases hkind : m.kind id <;> simp only [hkind] at hchild harranges ⊢
    case sequence cs =>
      cases harranges
      exact List.all_eq_true.mpr fun c hc => hchild hc (hwords c hc)
    case unordered cs =>
      exact List.all_eq_true.mpr fun c hc => hchild hc (hwords c (harranges.mem_iff.mpr hc))
    case subset cs =>
      obtain ⟨hne, hsub⟩ := harranges
      obtain ⟨c, hc⟩ := List.exists_mem_of_ne_nil ids hne
      exact List.any_eq_true.mpr ⟨c, hsub.subset hc, hchild (hsub.subset hc) (hwords c hc)⟩
    case alternation cs =>
      obtain ⟨c, hc, rfl⟩ := harranges
      exact List.any_eq_true.mpr ⟨c, hc, hchild hc (hwords c List.mem_cons_self)⟩
    case reference name target =>
      cases harranges
      exact hchild List.mem_cons_self (hwords target List.mem_cons_self)
    all_goals cases harranges

/-- With enough levels, nullable nodes are those with an empty word. -/
theorem nullable_iff_word_nil {n k : Nat} {id : NodeId} (hheight : m.HeightAtMost n id)
    (hk : n < k) : m.nullable k id = true ↔ m.Word (V := V) id [] := by
  constructor
  · exact word_nil_of_nullable
  · intro hword
    simp only [nullable, Bool.or_eq_true, decide_eq_true_eq]
    exact (word_nil_iff.mp hword).imp_right (contentNullable_of_omittable hheight hk)

theorem isEnough_of_enough {n k count : Nat} {id : NodeId} (hheight : m.HeightAtMost n id)
    (hk : n < k) (henough : (m.quantifier id).min ≤ count ∨ m.Omittable V id) :
    m.isEnough k id count = true := by
  simp only [isEnough, Bool.or_eq_true, decide_eq_true_eq]
  exact henough.imp_right (contentNullable_of_omittable hheight hk)

/-- A repetition that may end is satisfied, if that holds of its children. -/
theorem repeatSatisfied_of_repeatCompletes {levels n k : Nat}
    {valid : Progress → Prop} {id : NodeId}
    {r : Repeat} (hvalid : m.RepeatValid levels valid id r)
    (hheight : ∀ c ∈ m.below id, m.HeightAtMost n c) (hk : n < k)
    (hchild : ∀ p, valid p → m.Completes (V := V) p [] → m.satisfied k p = true)
    (hpassed : ∀ p, valid p → m.satisfied levels p = true → m.Completes (V := V) p [])
    (hnil : m.RepeatCompletes (V := V) id r []) : m.repeatSatisfied (k + 1) id r = true := by
  generalize hu : ([] : List (Form V)) = u at hnil
  cases hnil with
  | @sequence _ index child a b hfirst hbehind =>
    obtain ⟨rfl, rfl⟩ := List.append_eq_nil_iff.mp hu.symm
    obtain ⟨cs, hkind, -, hvalid⟩ := hvalid
    obtain ⟨ids, rfl, hwords⟩ := hbehind.forall_of_nil
    simp only [repeatSatisfied, hchild child hvalid hfirst, Bool.true_and, List.all_eq_true]
    intro c hc
    refine (nullable_iff_word_nil (hheight c ?_) hk).mpr (hwords c hc)
    rw [children_of_kind (.inl hkind), ← below_eq_children (.inl hkind)] at hc
    exact List.mem_of_mem_drop hc
  | @choice _ index child _ hfirst =>
    obtain ⟨cs, -, -, hvalid⟩ := hvalid
    subst hu
    simpa only [repeatSatisfied] using hchild child hvalid hfirst
  | @group _ begun active state a b hactive hstate hleft =>
    obtain ⟨rfl, rfl⟩ := List.append_eq_nil_iff.mp hu.symm
    obtain ⟨cs, hkind, hgroup⟩ := hvalid
    obtain ⟨ids, harranges, hwords⟩ := hleft.forall_of_nil
    have hcs := children_of_kind (.inr (.inr hkind))
    rw [hcs] at harranges
    simp only [repeatSatisfied, List.all_eq_true, hcs]
    rintro ⟨state?, c⟩ hmem
    obtain ⟨i, hi⟩ := List.getElem?_of_mem hmem
    obtain ⟨hbegun, hc⟩ := List.getElem?_zip_eq_some.mp hi
    cases state? with
    | some other =>
      by_cases hia : i = active
      · subst hia
        rw [hactive, Option.some.injEq, Option.some.injEq] at hbegun
        exact hbegun ▸ hchild state (hgroup.valid hactive) hstate
      · have hother := hgroup.valid hbegun
        exact hchild other hother (hpassed other hother (hgroup.passed_satisfied hbegun hia))
    | none =>
      cases hunordered : m.isUnordered id with
      | false => rfl
      | true =>
        rw [LeftArranges, hunordered, if_pos rfl] at harranges
        have hword := hwords c (harranges.mem_iff.mpr (mem_unbegun_iff.mpr ⟨i, hbegun, hc⟩))
        have hbelow : c ∈ m.below id := by
          rw [below_eq_children (.inr (.inr hkind))]
          exact List.mem_of_getElem? hc
        simpa using (nullable_iff_word_nil (hheight c hbelow) hk).mpr hword
  | @reference _ target _ hfirst =>
    obtain ⟨name, -, htarget⟩ := hvalid
    subst hu
    simpa only [repeatSatisfied] using hchild target htarget hfirst

theorem satisfied_of_completes_nil {levels n k : Nat} {p : Progress}
    (hvalid : m.ValidWithin levels p) (hheight : m.HeightAtMost n p.node) (hk : 2 * n + 2 ≤ k)
    (hnil : m.Completes (V := V) p []) : m.satisfied k p = true := by
  induction n using Nat.strongRecOn generalizing levels k p with
  | ind n ih =>
    obtain ⟨i, rfl⟩ : ∃ i, k = i + 1 := ⟨k - 1, by omega⟩
    obtain ⟨l, rfl⟩ : ∃ l, levels = l + 1 := by
      cases levels with
      | zero => cases hvalid
      | succ l => exact ⟨l, rfl⟩
    obtain ⟨id, count, phase⟩ := p
    generalize hu : ([] : List (Form V)) = u at hnil
    rw [satisfied_succ]
    cases hnil with
    | between hrest =>
      cases hrest with
      | stop henough => exact isEnough_of_enough hheight (by omega) henough
      | separate => cases hu
      | again _ _ hne => exact absurd (List.append_eq_nil_iff.mp hu.symm).1 hne
    | separated hrest =>
      cases hrest with
      | again _ _ hne => exact absurd (List.append_eq_nil_iff.mp hu.symm).1 hne
    | @within _ _ r a b hrepeat hrest =>
      obtain ⟨rfl, rfl⟩ := List.append_eq_nil_iff.mp hu.symm
      have hvalid := (validWithin_succ.mp hvalid).2.2
      obtain ⟨child, -, hbelow⟩ := hvalid.below.exists_child
      obtain ⟨j, rfl, -⟩ := hheight.child hbelow
      obtain ⟨i, rfl⟩ : ∃ i₁, i = i₁ + 1 := ⟨i - 1, by omega⟩
      have hsat : m.repeatSatisfied (i + 1) id r = true := by
        refine repeatSatisfied_of_repeatCompletes hvalid.below hheight (by omega) ?_ ?_ hrepeat
        · intro p hp hnil
          exact ih j (by omega) hp.1 (hheight p.node hp.2) (by omega) hnil
        · intro p hp hsat
          exact completes_nil_of_satisfied hp.1 hsat
      generalize hb : ([] : List (Form V)) = b at hrest
      cases hrest with
      | stop henough =>
        have hmany : m.isEnough (i + 1) id (count + 1) = true :=
          isEnough_of_enough hheight (by omega) henough
        simp only [hsat, hmany, Bool.and_self]
      | separate => cases hb
      | again _ _ hne => exact absurd (List.append_eq_nil_iff.mp hb.symm).1 hne

/-- With twice as many levels as the grammar is high, the satisfied matches are those that may end
here. -/
theorem satisfied_iff_completes_nil {levels n k : Nat} {p : Progress}
    (hvalid : m.ValidWithin levels p) (hheight : m.HeightAtMost n p.node) (hk : 2 * n + 2 ≤ k) :
    m.satisfied k p = true ↔ m.Completes (V := V) p [] :=
  ⟨completes_nil_of_satisfied hvalid, satisfied_of_completes_nil hvalid hheight hk⟩

end Matcher

end StyleGrammar

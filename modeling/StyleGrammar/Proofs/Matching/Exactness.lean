import StyleGrammar.Proofs.Matching.Keywords

/-!
# Exactness on keywords

Matching never goes back, so in general it rejects some words.  On a tree of
distinct keywords it rejects none: a value belongs to one child at most, and the
choice that the matcher commits to is the only one.  What completes a match
before a value completes it after the value (`exists_takeWithin`), the converse
of soundness.  So a run ends satisfied exactly on the words, and stops exactly
where no word goes on.
-/

namespace StyleGrammar

namespace Matcher

open List

variable {V : Type} {m : Matcher} {v : Form V} {take : Progress → Option Progress}
variable {valid : Progress → Prop}

/-! ## Closed matches -/

theorem Repeats.eq_nil {q : Quantifier} {content : List (Form V) → Prop} {count : Nat}
    {separated : Bool} {u : List (Form V)} (h : Repeats q content count separated u)
    (hallows : q.allows count = false) : u = [] := by
  cases h with
  | stop => rfl
  | separate _ _ hrest =>
    cases hrest with
    | again _ hallows' =>
      rw [hallows] at hallows'
      cases hallows'
  | again _ hallows' =>
    rw [hallows] at hallows'
    cases hallows'

theorem unbegun_eq_nil {begun : List (Option Progress)} {cs : List NodeId}
    (h : begun.any Option.isNone = false) : unbegun begun cs = [] := by
  rw [List.eq_nil_iff_forall_not_mem]
  intro c hc
  obtain ⟨i, hnone, -⟩ := mem_unbegun_iff.mp hc
  rw [List.any_eq_false] at h
  exact h none (List.mem_of_getElem? hnone) rfl

theorem Parts.eq_nil {arranges : List NodeId → Prop} {u : List (Form V)}
    (hparts : m.Parts arranges u) (hnone : ∀ ids, arranges ids → ids = []) : u = [] := by
  obtain ⟨parts, harranges, -, rfl⟩ := hparts
  rw [List.map_eq_nil_iff.mp (hnone _ harranges)]
  rfl

/-- A repetition that is not open is completed by nothing else than its end, if that holds of its
children. -/
theorem repeatCompletes_eq_nil {levels k : Nat} {id : NodeId} {r : Repeat} {u : List (Form V)}
    (hvalid : m.RepeatValid levels valid id r)
    (hchild : ∀ p, valid p → m.isOpenWithin k p = false →
      ∀ u : List (Form V), m.Completes p u → u = [])
    (hopen : m.repeatOpen (k + 1) id r = false) (h : m.RepeatCompletes id r u) : u = [] := by
  cases h with
  | sequence hfirst hbehind =>
    obtain ⟨cs, -, -, hvalid⟩ := hvalid
    simp only [repeatOpen, Bool.or_eq_false_iff, decide_eq_false_iff_not, Nat.not_lt] at hopen
    rw [hchild _ hvalid hopen.2 _ hfirst, List.nil_append]
    exact hbehind.eq_nil fun ids hids => hids.trans (List.drop_eq_nil_of_le hopen.1)
  | choice hfirst =>
    obtain ⟨cs, -, -, hvalid⟩ := hvalid
    exact hchild _ hvalid hopen _ hfirst
  | group hactive hstate hleft =>
    obtain ⟨cs, -, hgroup⟩ := hvalid
    simp only [repeatOpen, hactive, Bool.or_eq_false_iff] at hopen
    rw [hchild _ (hgroup.valid hactive) hopen.2 _ hstate, List.nil_append]
    rw [unbegun_eq_nil hopen.1] at hleft
    apply hleft.eq_nil
    intro ids hids
    unfold LeftArranges at hids
    split at hids
    · exact hids.eq_nil
    · exact List.subperm_nil.mp hids
  | reference hfirst =>
    obtain ⟨name, -, hvalid⟩ := hvalid
    exact hchild _ hvalid hopen _ hfirst

theorem completes_eq_nil {levels k : Nat} {p : Progress} (hvalid : m.ValidWithin levels p)
    (hk : levels ≤ k) (hopen : m.isOpenWithin k p = false) {u : List (Form V)}
    (h : m.Completes p u) : u = [] := by
  induction levels using Nat.strongRecOn generalizing k p u with
  | ind levels ih =>
    cases levels with
    | zero => cases hvalid
    | succ l =>
      obtain ⟨i, rfl⟩ : ∃ i, k = i + 1 := ⟨k - 1, by omega⟩
      replace hvalid := validWithin_succ.mp hvalid
      cases h with
      | between hrest =>
        rw [isOpenWithin_succ] at hopen
        exact hrest.eq_nil hopen
      | separated hrest =>
        rw [isOpenWithin_succ] at hopen
        exact hrest.eq_nil hopen
      | within hrepeat hrest =>
        obtain ⟨-, -, hvalid⟩ := hvalid
        obtain ⟨j, rfl, -⟩ := hvalid.exists_pred
        obtain ⟨i, rfl⟩ : ∃ i₁, i = i₁ + 1 := ⟨i - 1, by omega⟩
        simp only [isOpenWithin_succ, Bool.or_eq_false_iff] at hopen
        rw [hrest.eq_nil hopen.2, List.append_nil]
        refine repeatCompletes_eq_nil hvalid ?_ hopen.1 hrepeat
        intro p hp hclosed u hu
        exact ih j (by omega) hp (by omega) hclosed hu

/-- What completes a repetition completes it once it is settled. -/
theorem completes_settled {count : Nat} {id : NodeId} {r : Repeat} {u : List (Form V)}
    (hclosed : m.repeatOpen fullDepth id r = false →
      ∀ a : List (Form V), m.RepeatCompletes id r a → a = [])
    (h : m.Completes (.mk id count (.within r)) u) : m.Completes (m.settled id count r) u := by
  unfold settled
  split
  next => exact h
  next hopen =>
    cases h with
    | within hrepeat hrest =>
      rw [hclosed (by simpa using hopen) _ hrepeat, List.nil_append]
      exact .between hrest

/-! ## The values that are taken -/

theorem exists_take_of_beginRepeat {k : Nat} {id : NodeId} {r : Repeat}
    (h : m.beginRepeat v take k id = some (some r)) :
    ∃ c ∈ m.below id, ∃ state, take (.start c) = some state := by
  rcases beginRepeat_eq_some h with ⟨name, target, state, hkind, htake, -⟩ |
    ⟨cs, hkind, hbegin⟩ | ⟨cs, hkind, hbegin⟩ | ⟨cs, hkind, hbegin⟩
  · exact ⟨target, by simp [below, hkind], state, htake⟩
  · obtain ⟨front, c, behind, state, rfl, -, htake, -⟩ := beginSequence_eq_some hbegin
    exact ⟨c, by simp [below, hkind], state, htake⟩
  · obtain ⟨front, c, behind, state, rfl, -, htake, -⟩ := beginChoice_eq_some hbegin
    exact ⟨c, by simp [below, hkind], state, htake⟩
  · obtain ⟨i, c, state, -, hc, htake, -⟩ := beginGroup_eq_some hbegin
    rw [below_eq_children (.inr (.inr hkind))]
    exact ⟨c, List.mem_of_getElem? hc, state, htake⟩

theorem exists_take_of_continueRepeat {levels k : Nat} {id : NodeId} {r r' : Repeat}
    (hvalid : m.RepeatValid levels valid id r) (h : m.continueRepeat take k id r = some r') :
    ∃ p state, (valid p ∨ ∃ c, p = .start c) ∧ p.node ∈ m.below id ∧ take p = some state := by
  replace hvalid := hvalid.below
  cases r with
  | sequence index child =>
    obtain ⟨cs, hkind, -, hvalid, hmem⟩ := hvalid
    cases htake : take child with
    | some child' => exact ⟨child, child', .inl hvalid, hmem, htake⟩
    | none =>
      simp only [continueRepeat, htake, Option.ite_none_right_eq_some] at h
      obtain ⟨front, c, behind, state, hcs, -, htake', -⟩ := beginSequence_eq_some h.2
      have hc : c ∈ (m.children id).drop (index + 1) := by simp [hcs]
      rw [children_of_kind (.inl hkind), ← below_eq_children (.inl hkind)] at hc
      exact ⟨.start c, state, .inr ⟨c, rfl⟩, List.mem_of_mem_drop hc, htake'⟩
  | choice index child =>
    obtain ⟨cs, -, -, hvalid, hmem⟩ := hvalid
    simp only [continueRepeat, Option.map_eq_some_iff] at h
    obtain ⟨child', htake, -⟩ := h
    exact ⟨child, child', .inl hvalid, hmem, htake⟩
  | group begun active =>
    obtain ⟨cs, hkind, hgroup⟩ := hvalid
    obtain ⟨state, hactive⟩ := hgroup.active_begun
    obtain ⟨hvalid, hmem⟩ := hgroup.valid hactive
    cases htake : take state with
    | some state' => exact ⟨state, state', .inl hvalid, hmem, htake⟩
    | none =>
      simp only [continueRepeat, hactive, htake, Option.ite_none_right_eq_some] at h
      obtain ⟨i, c, new, -, hc, htake', -⟩ := beginGroup_eq_some h.2
      rw [children_of_kind (.inr (.inr hkind)), ← below_eq_children (.inr (.inr hkind))] at hc
      exact ⟨.start c, new, .inr ⟨c, rfl⟩, List.mem_of_getElem? hc, htake'⟩
  | reference target =>
    obtain ⟨name, -, hvalid, hmem⟩ := hvalid
    simp only [continueRepeat, Option.map_eq_some_iff] at h
    obtain ⟨target', htake, -⟩ := h
    exact ⟨target, target', .inl hvalid, hmem, htake⟩

/-- A value that is taken is a separator, a whole repetition, or taken by a child. -/
theorem taken_cases {k : Nat} {p p' : Progress} (hvalid : m.ValidWithin (k + 1) p)
    (h : m.takeWithin v (k + 1) p = some p') :
    (∃ c, (m.quantifier p.node).separator? = some c ∧ v = .leaf (.delimiter c)) ∨
      m.takesWhole p.node v = true ∨
      ∃ child state, (m.ValidWithin (k - 1) child ∨ ∃ c, child = .start c) ∧
        child.node ∈ m.below p.node ∧ m.takeWithin v (k - 1) child = some state := by
  have hfresh {id : NodeId} {count : Nat} {separated : Bool}
      (h : m.takeFresh v (m.takeWithin v (k - 1)) (k - 1) id count separated = some p') :
      (∃ c, (m.quantifier id).separator? = some c ∧ v = .leaf (.delimiter c)) ∨
        m.takesWhole id v = true ∨
        ∃ child state, (m.ValidWithin (k - 1) child ∨ ∃ c, child = .start c) ∧
          child.node ∈ m.below id ∧ m.takeWithin v (k - 1) child = some state := by
    obtain ⟨-, ⟨c, hsep, -, -, hv, -⟩ | ⟨-, ⟨r, hbegin, -⟩ | ⟨hbegin, -⟩⟩⟩ :=
      takeFresh_eq_some_iff.mp h
    · exact .inl ⟨c, hsep, hv⟩
    · obtain ⟨c, hc, state, htake⟩ := exists_take_of_beginRepeat hbegin
      exact .inr (.inr ⟨.start c, state, .inr ⟨c, rfl⟩, hc, htake⟩)
    · exact .inr (.inl (beginRepeat_eq_whole_iff.mp hbegin))
  rw [takeWithin_succ] at h
  replace hvalid := validWithin_succ.mp hvalid
  obtain ⟨id, count, phase⟩ := p
  cases phase with
  | between => exact hfresh h
  | separated => exact hfresh h
  | within r =>
    simp only [takeWith] at h
    cases hcontinue : m.continueRepeat (m.takeWithin v (k - 1)) (k - 1) id r with
    | some r' => exact .inr (.inr (exists_take_of_continueRepeat hvalid.2.2 hcontinue))
    | none =>
      simp only [hcontinue, Option.ite_none_right_eq_some] at h
      exact hfresh h.2

/-- A value that a tree of keywords takes is a comma or one of the keywords. -/
theorem KeywordTree.admits_of_takeWithin (hproper : ∀ id, (m.quantifier id).Proper)
    {n levels : Nat} {id : NodeId} {p p' : Progress} (htree : m.KeywordTree n id)
    (hnode : p.node = id) (hvalid : m.ValidWithin levels p ∨ ∃ c, p = .start c)
    (htake : m.takeWithin v levels p = some p') :
    v = .leaf (.delimiter ',') ∨ Admits (m.keywords n id) v := by
  induction htree generalizing levels p p' with
  | @leaf n id text hleaf =>
    cases levels with
    | zero => simp [takeWithin] at htake
    | succ k =>
      have hvalid := validWithin_of_started hvalid
      rcases taken_cases hvalid htake with ⟨c, hsep, rfl⟩ | hwhole | ⟨child, -, -, hmem, -⟩
      · rw [hnode] at hsep
        rcases (hproper id).separator with hnone | hcomma
        · rw [hnone] at hsep
          cases hsep
        · rw [hcomma, Option.some.injEq] at hsep
          exact .inl (by rw [hsep])
      · rw [hnode, takesWhole, hleaf.kind_eq] at hwhole
        rw [hleaf.keywords_eq]
        exact .inr ⟨text, List.mem_singleton_self _, hwhole⟩
      · rw [hnode, hleaf.below_eq] at hmem
        cases hmem
  | @combinator n id cs hcombines hchildren ih =>
    cases levels with
    | zero => simp [takeWithin] at htake
    | succ k =>
      have hvalid := validWithin_of_started hvalid
      rcases taken_cases hvalid htake with ⟨c, hsep, -⟩ | hwhole | ⟨child, state, hp, hmem, htake⟩
      · rw [hnode, hcombines.separator?_eq] at hsep
        cases hsep
      · rw [hnode, takesWhole_combinator hcombines] at hwhole
        cases hwhole
      · rw [hnode, hcombines.below_eq] at hmem
        apply (ih child.node hmem rfl hp htake).imp_right
        rintro ⟨text, htext, htakes⟩
        rw [hcombines.keywords_eq]
        exact ⟨text, List.mem_flatMap.mpr ⟨child.node, hmem, htext⟩, htakes⟩

/-! ## The child that a value belongs to -/

/-- What the children of a node do with a value.  A match that may go on with it takes it, and where
a word of one child begins with it, the others do not take it. -/
structure Decides (m : Matcher) (v : Form V) (k : Nat) (valid : Progress → Prop)
    (take : Progress → Option Progress) (cs : List NodeId) : Prop where
  start_valid : ∀ c, valid (.start c)
  complete : ∀ {p}, valid p → p.node ∈ cs → ∀ {u : List (Form V)}, m.Completes p (v :: u) →
    ∃ p', take p = some p' ∧ m.Completes p' u
  alone : ∀ {i j : Nat} {c : NodeId} {p a}, cs[i]? = some c → m.Word c (v :: a) →
    cs[j]? = some p.node → valid p → i ≠ j → take p = none
  satisfied : ∀ {p}, valid p → p.node ∈ cs → m.Completes (V := V) p [] → m.satisfied k p = true
  nullable : ∀ {c}, c ∈ cs → m.Word (V := V) c [] → m.nullable k c = true

variable {k : Nat} {cs : List NodeId} {u : List (Form V)}

theorem Decides.start (h : m.Decides v k valid take cs) {c : NodeId} (hc : c ∈ cs)
    (hword : m.Word c (v :: u)) : ∃ state, take (.start c) = some state ∧ m.Completes state u :=
  h.complete (h.start_valid c) hc (completes_start_iff.mpr hword)

theorem Decides.eq_of_take (h : m.Decides v k valid take cs) {c c' : NodeId} {state : Progress}
    (hc : c ∈ cs) (hword : m.Word c (v :: u)) (hc' : c' ∈ cs)
    (htake : take (.start c') = some state) : c' = c := by
  obtain ⟨i, hi⟩ := List.getElem?_of_mem hc
  obtain ⟨j, hj⟩ := List.getElem?_of_mem hc'
  by_cases hij : i = j
  · subst hij
    rw [hi, Option.some.injEq] at hj
    exact hj.symm
  · rw [h.alone hi hword (p := .start c') hj (h.start_valid c') hij] at htake
    cases htake

theorem Decides.exists_beginSequence (h : m.Decides v k valid take cs) {id : NodeId} {index : Nat}
    (hcs : m.children id = cs) (hparts : m.Parts (· = cs.drop index) (v :: u)) :
    ∃ r, m.beginSequence take k index (cs.drop index) = some r ∧ m.RepeatCompletes id r u := by
  obtain ⟨front, c, behind, a, b, hdrop, hfront, hfirst, hbehind, rfl⟩ := hparts.exists_first
  have hget (i : Nat) : cs[index + i]? = (front ++ c :: behind)[i]? := by
    rw [hdrop, List.getElem?_drop]
  have hc : cs[index + front.length]? = some c := by rw [hget]; simp
  obtain ⟨state, htake, hstate⟩ := h.start (List.mem_of_getElem? hc) hfirst
  refine ⟨.sequence (index + front.length) state, ?_, .sequence hstate ?_⟩
  · rw [← hdrop]
    refine beginSequence_append (fun x hx => ?_) htake
    obtain ⟨i, hi⟩ := List.getElem?_of_mem hx
    have hlt : i < front.length := (List.getElem?_eq_some_iff.mp hi).1
    have hx : cs[index + i]? = some x := by rw [hget, List.getElem?_append_left hlt, hi]
    constructor
    · exact h.alone hc hfirst (p := .start x) hx (h.start_valid x) (by omega)
    · exact h.nullable (List.mem_of_getElem? hx) (hfront x (List.mem_of_getElem? hi))
  · rw [hcs, Nat.add_assoc, ← List.drop_drop, ← hdrop]
    simpa using hbehind

theorem Decides.exists_beginChoice (h : m.Decides v k valid take cs) {id : NodeId}
    (hparts : m.Parts (fun ids => ∃ c ∈ cs, ids = [c]) (v :: u)) :
    ∃ r, beginChoice take 0 cs = some r ∧ m.RepeatCompletes id r u := by
  obtain ⟨front, c, behind, a, b, ⟨c', hc, hone⟩, -, hfirst, hbehind, rfl⟩ := hparts.exists_first
  have hfront : front = [] := by
    cases front with
    | nil => rfl
    | cons x front => simp at hone
  subst hfront
  obtain ⟨rfl, rfl⟩ := List.cons.inj hone
  rw [hbehind.eq_nil fun ids hids => hids, List.append_nil]
  obtain ⟨state, htake, hstate⟩ := h.start hc hfirst
  cases hbegin : beginChoice take 0 cs with
  | none =>
    rw [beginChoice_eq_none_iff.mp hbegin c hc] at htake
    cases htake
  | some r =>
    obtain ⟨front, c', behind, state', rfl, -, htake', rfl⟩ := beginChoice_eq_some hbegin
    obtain rfl := h.eq_of_take hc hfirst (by simp) htake'
    rw [htake, Option.some.injEq] at htake'
    exact ⟨_, rfl, .choice (htake' ▸ hstate)⟩

theorem LeftArranges.subset {id : NodeId} {left ids : List NodeId}
    (h : m.LeftArranges id left ids) : ids ⊆ left := by
  unfold LeftArranges at h
  split at h
  · exact h.subset
  · exact h.subset

/-- The arrangements that are left of a group when one of its children begins. -/
theorem LeftArranges.erase {id c : NodeId} {left left' front behind : List NodeId}
    (hperm : left ~ c :: left') (h : m.LeftArranges id left (front ++ c :: behind)) :
    m.LeftArranges id left' (front ++ behind) := by
  unfold LeftArranges at h ⊢
  have hmiddle : c :: (front ++ behind) ~ front ++ c :: behind := List.perm_middle.symm
  split
  next hunordered =>
    rw [if_pos hunordered] at h
    exact ((hmiddle.trans h).trans hperm).cons_inv
  next hunordered =>
    rw [if_neg hunordered] at h
    exact (List.subperm_cons c).mp ((hmiddle.subperm.trans h).trans hperm.subperm)

theorem Decides.exists_beginGroup (h : m.Decides v k valid take cs) {id : NodeId}
    {begun : List (Option Progress)} (hcs : m.children id = cs)
    (hparts : m.Parts (m.LeftArranges id (unbegun begun cs)) (v :: u)) :
    ∃ r, beginGroup take [] begun cs = some r ∧ m.RepeatCompletes id r u := by
  obtain ⟨front, c, behind, a, b, hleft, hfront, hfirst, hbehind, rfl⟩ := hparts.exists_first
  have hunbegun : c ∈ unbegun begun cs := hleft.subset (by simp)
  have hc : c ∈ cs := by
    obtain ⟨i, -, hi⟩ := mem_unbegun_iff.mp hunbegun
    exact List.mem_of_getElem? hi
  obtain ⟨state, htake, hstate⟩ := h.start hc hfirst
  cases hbegin : beginGroup take [] begun cs with
  | none =>
    rw [beginGroup_eq_none_iff.mp hbegin c hunbegun] at htake
    cases htake
  | some r =>
    obtain ⟨i, c', new, hnone, hi, htake', rfl⟩ := beginGroup_eq_some hbegin
    obtain rfl := h.eq_of_take hc hfirst (List.mem_of_getElem? hi) htake'
    rw [htake, Option.some.injEq] at htake'
    subst htake'
    refine ⟨_, rfl, ?_⟩
    simp only [List.reverse_nil, List.nil_append, List.length_nil, Nat.zero_add]
    refine .group (List.getElem?_set_self (List.getElem?_eq_some_iff.mp hnone).1) hstate ?_
    rw [hcs]
    exact (hbehind.front hfront).mono fun ids hids =>
      hids ▸ hleft.erase (unbegun_perm_cons hnone hi)

theorem Decides.exists_beginRepeat (h : m.Decides v k valid take cs) {id : NodeId}
    (hcombines : m.Combinator id cs) (hcontent : m.Content id (v :: u)) :
    ∃ r, m.beginRepeat v take k id = some (some r) ∧ m.RepeatCompletes id r u := by
  have hparts := parts_of_content hcombines hcontent
  have hcs := children_of_kind hcombines.kind_eq
  unfold beginRepeat
  rcases hcombines.kind_eq with hkind | hkind | hkind | hkind <;> rw [hkind] at hparts ⊢
  · have hdrop : m.Parts (· = cs.drop 0) (v :: u) := hparts
    obtain ⟨r, hbegin, hrest⟩ := h.exists_beginSequence hcs hdrop
    exact ⟨r, congrArg (Option.map some) hbegin, hrest⟩
  · obtain ⟨r, hbegin, hrest⟩ := h.exists_beginChoice hparts
    exact ⟨r, congrArg (Option.map some) hbegin, hrest⟩
  · have hleft : m.Parts (m.LeftArranges id (unbegun (cs.map fun _ => none) cs)) (v :: u) := by
      apply hparts.mono
      intro ids hids
      rw [unbegun_map_none]
      change ids ~ cs at hids
      simpa [LeftArranges, isUnordered, hkind] using hids
    obtain ⟨r, hbegin, hrest⟩ := h.exists_beginGroup hcs hleft
    exact ⟨r, congrArg (Option.map some) hbegin, hrest⟩
  · have hleft : m.Parts (m.LeftArranges id (unbegun (cs.map fun _ => none) cs)) (v :: u) := by
      apply hparts.mono
      intro ids hids
      rw [unbegun_map_none]
      simpa [LeftArranges, isUnordered, hkind] using hids.2
    obtain ⟨r, hbegin, hrest⟩ := h.exists_beginGroup hcs hleft
    exact ⟨r, congrArg (Option.map some) hbegin, hrest⟩

/-- A repetition in progress goes on with its child, or else with the child that the value belongs
to. -/
theorem Decides.exists_continueRepeat (h : m.Decides v k valid take cs) {levels : Nat}
    {id : NodeId} {r : Repeat} (hcombines : m.Combinator id cs)
    (hvalid : m.RepeatValid levels valid id r) (hcompletes : m.RepeatCompletes id r (v :: u)) :
    ∃ r', m.continueRepeat take k id r = some r' ∧ m.RepeatCompletes id r' u := by
  have hcs := children_of_kind hcombines.kind_eq
  replace hvalid := hvalid.below
  rw [hcombines.below_eq] at hvalid
  generalize hu : v :: u = w at hcompletes
  cases hcompletes with
  | @sequence _ index child a b hfirst hbehind =>
    obtain ⟨cs', hkind, hindex, hchild, hmem⟩ := hvalid
    obtain rfl : cs' = cs := by rw [← hcs, children_of_kind (.inl hkind)]
    cases a with
    | cons v' a =>
      obtain ⟨rfl, rfl⟩ := List.cons.inj hu
      obtain ⟨child', htake, hrest⟩ := h.complete hchild hmem hfirst
      exact ⟨.sequence index child', by simp [continueRepeat, htake], .sequence hrest hbehind⟩
    | nil =>
      rw [List.nil_append] at hu
      rw [← hu, hcs] at hbehind
      have hnone : take child = none := by
        obtain ⟨front, c, behind, a, -, hdrop, -, hword, -, -⟩ := hbehind.exists_first
        have hc : cs'[index + 1 + front.length]? = some c := by
          rw [← List.getElem?_drop, ← hdrop]
          simp
        exact h.alone hc hword hindex hchild (by omega)
      obtain ⟨r, hbegin, hrest⟩ := h.exists_beginSequence hcs hbehind
      refine ⟨r, ?_, hrest⟩
      simp only [continueRepeat, hnone, h.satisfied hchild hmem hfirst, if_true, hcs, hbegin]
  | @choice _ index child _ hfirst =>
    subst hu
    obtain ⟨_, -, -, hchild, hmem⟩ := hvalid
    obtain ⟨child', htake, hrest⟩ := h.complete hchild hmem hfirst
    exact ⟨.choice index child', by simp [continueRepeat, htake], .choice hrest⟩
  | @group _ begun active state a b hactive hstate hleft =>
    obtain ⟨cs', hkind, hgroup⟩ := hvalid
    obtain rfl : cs' = cs := by rw [← hcs, children_of_kind (.inr (.inr hkind))]
    obtain ⟨hchild, hmem⟩ := hgroup.valid hactive
    cases a with
    | cons v' a =>
      obtain ⟨rfl, rfl⟩ := List.cons.inj hu
      obtain ⟨state', htake, hrest⟩ := h.complete hchild hmem hstate
      refine ⟨.group (begun.set active (some state')) active,
        by simp [continueRepeat, hactive, htake],
        .group (List.getElem?_set_self (List.getElem?_eq_some_iff.mp hactive).1) hrest ?_⟩
      rwa [unbegun_set_some hactive]
    | nil =>
      rw [List.nil_append] at hu
      rw [← hu, hcs] at hleft
      have hnone : take state = none := by
        obtain ⟨front, c, behind, a, -, harranges, -, hword, -, -⟩ := hleft.exists_first
        obtain ⟨i, hi, hc⟩ := mem_unbegun_iff.mp (harranges.subset (by simp : c ∈ _))
        apply h.alone hc hword (hgroup.node_eq hactive) hchild
        rintro rfl
        rw [hactive] at hi
        cases hi
      obtain ⟨r, hbegin, hrest⟩ := h.exists_beginGroup hcs hleft
      refine ⟨r, ?_, hrest⟩
      simp only [continueRepeat, hactive, hnone, h.satisfied hchild hmem hstate, if_true, hcs,
        hbegin]
  | reference =>
    obtain ⟨name, hkind, -⟩ := hvalid
    rcases hcombines.kind_eq with hkind' | hkind' | hkind' | hkind' <;> rw [hkind] at hkind' <;>
      cases hkind'

/-! ## Completeness of a step -/

theorem KeywordLeaf.exists_takeWithin {id : NodeId} {text : String}
    (hleaf : m.KeywordLeaf id text) {p : Progress} (hnode : p.node = id)
    (hvalid : m.ValidWithin (k + 1) p) (hcompletes : m.Completes p (v :: u)) :
    ∃ p', m.takeWithin v (k + 1) p = some p' ∧ m.Completes p' u := by
  have hfresh {count : Nat} {separated : Bool}
      (hrest : Repeats (m.quantifier id) (m.Content id) count separated (v :: u)) :
      ∃ p', m.takeFresh v (m.takeWithin v (k - 1)) (k - 1) id count separated = some p' ∧
        m.Completes p' u := by
    generalize hu : v :: u = w at hrest
    cases hrest with
    | stop => cases hu
    | @separate _ c _ hsep hpos hrest =>
      obtain ⟨rfl, rfl⟩ := List.cons.inj hu
      refine ⟨.mk id count .separated, takeFresh_eq_some_iff.mpr ⟨?_, .inl ?_⟩, .separated hrest⟩
      · cases hrest with
        | again _ hallows => exact hallows
      · exact ⟨c, hsep, hpos, rfl, rfl, rfl⟩
    | again hsep hallows hne hcontent hrest =>
      obtain ⟨v', rfl, htakes⟩ := (content_leaf_iff hleaf).mp hcontent
      obtain ⟨rfl, rfl⟩ := List.cons.inj hu
      refine ⟨.mk id (count + 1) .between,
        takeFresh_eq_some_iff.mpr ⟨hallows, .inr ⟨hsep, .inr ⟨?_, rfl⟩⟩⟩, .between hrest⟩
      rw [beginRepeat_eq_whole_iff]
      simpa [takesWhole, hleaf.kind_eq] using htakes
  rw [takeWithin_succ]
  obtain ⟨id', count, phase⟩ := p
  obtain rfl : id' = id := hnode
  generalize hu : v :: u = w at hcompletes
  cases hcompletes with
  | between hrest => exact hfresh (hu ▸ hrest)
  | separated hrest => exact hfresh (hu ▸ hrest)
  | within hrepeat hrest =>
    obtain ⟨child, -, hbelow⟩ := (validWithin_succ.mp hvalid).2.2.below.exists_child
    rw [hleaf.below_eq] at hbelow
    cases hbelow

/-- A combinator takes a value if its children do. -/
theorem Combinator.exists_takeWithin {id : NodeId} (hcombines : m.Combinator id cs)
    (hdecides : m.Decides v (k - 1) (m.ValidWithin (k - 1)) (m.takeWithin v (k - 1)) cs)
    (hfull : k ≤ fullDepth) {p : Progress} (hnode : p.node = id)
    (hvalid : m.ValidWithin (k + 1) p) (hcompletes : m.Completes p (v :: u)) :
    ∃ p', m.takeWithin v (k + 1) p = some p' ∧ m.Completes p' u := by
  have hkeeps := keepsValid_takeWithin (m := m) (v := v) (k - 1)
  have hclosed {r : Repeat} (hr : m.RepeatValid (k - 1) (m.ValidWithin (k - 1)) id r)
      (hopen : m.repeatOpen fullDepth id r = false) (a : List (Form V))
      (ha : m.RepeatCompletes id r a) : a = [] :=
    repeatCompletes_eq_nil (k := fullDepth - 1) hr
      (fun p hp hopen u hu =>
        completes_eq_nil hp (by simp [fullDepth, nestingLimit] at hfull ⊢; omega) hopen hu)
      hopen ha
  rw [takeWithin_succ]
  obtain ⟨id', count, phase⟩ := p
  obtain rfl : id' = id := hnode
  replace hvalid := validWithin_succ.mp hvalid
  generalize hu : v :: u = w at hcompletes
  cases hcompletes with
  | between hrest =>
    cases hrest with
    | stop => cases hu
    | separate hsep =>
      rw [hcombines.separator?_eq] at hsep
      cases hsep
    | @again _ _ w b hsep hallows hne hcontent hrest =>
      obtain rfl := hcombines.allows_iff.mp hallows
      have hone : (m.quantifier id').allows 1 = false := by
        rw [← Bool.not_eq_true, hcombines.allows_iff]
        decide
      rw [hrest.eq_nil hone, List.append_nil] at hu
      subst hu
      obtain ⟨r, hbegin, hrepeat⟩ := hdecides.exists_beginRepeat hcombines hcontent
      refine ⟨m.settled id' 0 r,
        takeFresh_eq_some_iff.mpr ⟨hallows, .inr ⟨hsep, .inl ⟨r, hbegin, rfl⟩⟩⟩,
        completes_settled (hclosed (beginRepeat_valid hkeeps hbegin)) ?_⟩
      rw [hrest.eq_nil hone] at hrest
      simpa using Completes.within hrepeat hrest
  | separated hrest =>
    have hsep := hvalid.2.2
    rw [hcombines.separator?_eq] at hsep
    cases hsep
  | @within _ _ r a b hrepeat hrest =>
    obtain ⟨hallows, -, hr⟩ := hvalid
    obtain rfl := hcombines.allows_iff.mp hallows
    have hone : (m.quantifier id').allows 1 = false := by
      rw [← Bool.not_eq_true, hcombines.allows_iff]
      decide
    rw [hrest.eq_nil hone, List.append_nil] at hu
    subst hu
    obtain ⟨r', hcontinue, hrepeat'⟩ := hdecides.exists_continueRepeat hcombines hr hrepeat
    refine ⟨m.settled id' 0 r', by simp only [takeWith, hcontinue],
      completes_settled (hclosed (continueRepeat_valid hkeeps hr hcontinue)) ?_⟩
    rw [hrest.eq_nil hone] at hrest
    simpa using Completes.within hrepeat' hrest

/-- What completes a match of distinct keywords before a value completes it after the value. -/
theorem KeywordTree.exists_takeWithin (hproper : ∀ id, (m.quantifier id).Proper)
    {n levels : Nat} {id : NodeId} (htree : m.KeywordTree n id)
    (hdistinct : Distinct (m.keywords n id)) (hlevels : 2 * n + 2 ≤ levels)
    (hfull : levels ≤ fullDepth) {p : Progress} (hnode : p.node = id)
    (hvalid : m.ValidWithin levels p) (hcompletes : m.Completes p (v :: u)) :
    ∃ p', m.takeWithin v levels p = some p' ∧ m.Completes p' u := by
  obtain ⟨k, rfl⟩ : ∃ k, levels = k + 1 := ⟨levels - 1, by omega⟩
  induction htree generalizing k p u with
  | leaf hleaf => exact hleaf.exists_takeWithin hnode hvalid hcompletes
  | @combinator n id cs hcombines hchildren ih =>
    obtain ⟨hdistinct, hapart⟩ := hcombines.distinct hdistinct
    refine hcombines.exists_takeWithin ?_ (by omega) hnode hvalid hcompletes
    refine ⟨fun c => validWithin_start (by omega), ?_, ?_, ?_, ?_⟩
    · intro p hp hmem u hcompletes
      obtain ⟨j, hj⟩ : ∃ j, k - 1 = j + 1 := ⟨k - 2, by omega⟩
      rw [hj] at hp ⊢
      exact ih p.node hmem (hdistinct _ hmem) rfl hcompletes j (by omega) (by omega) hp
    · intro i j c p a hc hword hp hvalid hij
      have hmem := List.mem_of_getElem? hc
      have hadmits := (hchildren c hmem).admits_of_word hword
      cases htake : m.takeWithin v (k - 1) p with
      | none => rfl
      | some p' =>
        rcases (hchildren p.node (List.mem_of_getElem? hp)).admits_of_takeWithin hproper rfl
          (.inl hvalid) htake with hcomma | hadmits'
        · exact absurd hcomma (hadmits.ne_comma (hchildren c hmem).comma_notMem)
        · exact absurd hadmits' ((apart_of_pairwise hapart hc hp hij).not_admits hadmits)
    · intro p hp hmem hnil
      exact satisfied_of_completes_nil hp (hchildren p.node hmem).heightAtMost (by omega) hnil
    · intro c hc hword
      exact (nullable_iff_word_nil (hchildren c hc).heightAtMost (by omega)).mpr hword

/-! ## Exact runs -/

/-- Whether some word begins with the values. -/
def Viable (m : Matcher) (root : NodeId) (vs : List (Form V)) : Prop := ∃ u, m.Word root (vs ++ u)

/-- What a run has done to a match: what completes the match that it ends with is what completed the
first one behind the values, and the value that it stops at is the first one that nothing could
complete. -/
theorem KeywordTree.go_exact (hproper : ∀ id, (m.quantifier id).Proper) {n : Nat} {root : NodeId}
    (htree : m.KeywordTree n root) (hdistinct : Distinct (m.keywords n root))
    (hheight : 2 * n + 2 ≤ fullDepth) (vs : List (Form V)) (index : Nat) {p : Progress}
    (hnode : p.node = root) (hvalid : m.ValidWithin fullDepth p) :
    match takeAll.go m index p vs with
    | .ok p' => p'.node = root ∧ m.ValidWithin fullDepth p' ∧
        ∀ u, m.Completes p (vs ++ u) ↔ m.Completes p' u
    | .error i => ∃ j < vs.length, i = index + j ∧ (∃ u, m.Completes p (vs.take j ++ u)) ∧
        ¬ ∃ u, m.Completes p (vs.take (j + 1) ++ u) := by
  induction vs generalizing index p with
  | nil => exact ⟨hnode, hvalid, fun u => Iff.rfl⟩
  | cons v vs ih =>
    simp only [takeAll.go, next?_take]
    have hcomplete {u : List (Form V)} (h : m.Completes p (v :: u)) :=
      htree.exists_takeWithin hproper hdistinct hheight (Nat.le_refl _) hnode hvalid h
    cases htake : m.takeWithin v fullDepth p with
    | none =>
      refine ⟨0, by simp, rfl, by simpa using htree.exists_completes hproper hnode hvalid, ?_⟩
      rintro ⟨u, hu⟩
      obtain ⟨p', hp', -⟩ := hcomplete hu
      rw [htake] at hp'
      cases hp'
    | some next =>
      obtain ⟨hnext, hnode'⟩ := keepsValid_takeWithin fullDepth p next (.inl hvalid) htake
      have hstep (u : List (Form V)) : m.Completes p (v :: u) ↔ m.Completes next u := by
        constructor
        · intro h
          obtain ⟨p', hp', hrest⟩ := hcomplete h
          rw [htake, Option.some.injEq] at hp'
          rwa [hp']
        · exact keepsCompletes_takeWithin hproper (Nat.le_refl _) p next (.inl hvalid) htake u
      have hrun := ih (index + 1) (hnode'.trans hnode) hnext
      dsimp only
      cases hgo : takeAll.go m (index + 1) next vs with
      | ok p' =>
        rw [hgo] at hrun
        obtain ⟨hnode'', hvalid', hrest⟩ := hrun
        exact ⟨hnode'', hvalid', fun u => (hstep (vs ++ u)).trans (hrest u)⟩
      | error i =>
        rw [hgo] at hrun
        obtain ⟨j, hj, rfl, ⟨u, hu⟩, hnone⟩ := hrun
        refine ⟨j + 1, by simpa using hj, by omega, ⟨u, (hstep _).mpr hu⟩, ?_⟩
        rintro ⟨u, hu⟩
        exact hnone ⟨u, (hstep _).mp hu⟩

/-- On a tree of distinct keywords, the matches that end satisfied are those of the words, the
values that are all taken are those that some word begins with, and the first value that is rejected
is the first one that no word goes on with. -/
theorem KeywordTree.takeAll_exact (hbuilt : m.arena.Built) {root : NodeId}
    (htree : m.KeywordTree 60 root) (hdistinct : Distinct (m.keywords 60 root))
    (vs : List (Form V)) :
    ((∃ p, m.takeAll root vs = .ok p ∧ m.isSatisfied p = true) ↔ m.Word root vs) ∧
      ((∃ p, m.takeAll root vs = .ok p) ↔ m.Viable root vs) ∧
      ∀ i, m.takeAll root vs = .error i → i < vs.length ∧
        (∀ j < i, m.Viable root (vs.take (j + 1))) ∧ ¬ m.Viable root (vs.take (i + 1)) := by
  have hproper (id : NodeId) : (m.quantifier id).Proper := hbuilt.allProper id
  have hexact := htree.go_exact hproper hdistinct (by decide) vs 0 (p := .start root) rfl
    (validWithin_start (by decide))
  have hviable (us : List (Form V)) : (∃ u, m.Completes (.start root) (us ++ u)) ↔
      m.Viable root us := exists_congr fun u => completes_start_iff
  unfold takeAll
  cases hgo : takeAll.go m 0 (.start root) vs with
  | ok p =>
    rw [hgo] at hexact
    obtain ⟨hnode, hvalid, hrest⟩ := hexact
    refine ⟨?_, ?_, by simp⟩
    · have hsat := satisfied_iff_completes_nil (V := V) hvalid
        (hnode ▸ htree.heightAtMost) (by decide : 2 * 60 + 2 ≤ fullDepth)
      rw [← completes_start_iff]
      have hnil := hrest []
      rw [List.append_nil] at hnil
      simp only [Except.ok.injEq, exists_eq_left', isSatisfied]
      exact hsat.trans hnil.symm
    · obtain ⟨u, hu⟩ := htree.exists_completes (V := V) hproper hnode hvalid
      simp only [Except.ok.injEq, exists_eq', true_iff]
      exact (hviable vs).mp ⟨u, (hrest u).mpr hu⟩
  | error i =>
    rw [hgo] at hexact
    obtain ⟨j, hj, rfl, ⟨u, hu⟩, hnone⟩ := hexact
    have hstuck : ¬ m.Viable root vs := by
      rintro ⟨u, hu⟩
      refine hnone ⟨vs.drop (j + 1) ++ u, completes_start_iff.mpr ?_⟩
      rwa [← List.append_assoc, List.take_append_drop]
    refine ⟨?_, ?_, ?_⟩
    · simp only [reduceCtorEq, false_and, exists_false, false_iff]
      intro hword
      exact hstuck ⟨[], by rwa [List.append_nil]⟩
    · simpa using hstuck
    · intro i hi
      rw [Except.error.injEq] at hi
      obtain rfl : j = i := by omega
      refine ⟨hj, ?_, fun h => hnone ((hviable _).mpr h)⟩
      intro l hl
      refine (hviable _).mp ⟨(vs.take j).drop (l + 1) ++ u, ?_⟩
      have htake : vs.take (l + 1) = (vs.take j).take (l + 1) := by
        rw [List.take_take, Nat.min_eq_left hl]
      rwa [htake, ← List.append_assoc, List.take_append_drop]

/-- A keyword, or a list of others with one more keyword before or behind it. -/
def ordinal : Matcher := ⟨(Arena.empty.define "none | [ first? && second# ]").2, []⟩

/-- A list that goes on with another keyword than the one that is listed. -/
def brokenList : List Value :=
  [.leaf (.keyword ⟨"second"⟩), .leaf (.delimiter ','), .leaf (.keyword ⟨"none"⟩)]

theorem not_viable_brokenList :
    ordinal.Viable 4 (brokenList.take 2) ∧ ¬ ordinal.Viable 4 (brokenList.take 3) := by
  have hbuilt : ordinal.arena.Built := by
    dsimp only [ordinal]
    exact .define _ .empty
  have hnone : ordinal.KeywordLeaf 0 "none" :=
    ⟨by decide +kernel, by decide, by decide +kernel⟩
  have hfirst : ordinal.KeywordLeaf 1 "first" :=
    ⟨by decide +kernel, by decide, by decide +kernel⟩
  have hsecond : ordinal.KeywordLeaf 2 "second" :=
    ⟨by decide +kernel, by decide, by decide +kernel⟩
  have hgroup : ordinal.Combinator 3 [1, 2] :=
    ⟨.inr (.inr (.inl (by decide +kernel))), by decide, .inl (by decide +kernel)⟩
  have hroot : ordinal.Combinator 4 [0, 3] :=
    ⟨.inr (.inl (by decide +kernel)), by decide, .inl (by decide +kernel)⟩
  have htree : ordinal.KeywordTree 60 4 := by
    refine .combinator hroot fun c hc => ?_
    rcases (by simpa using hc : c = 0 ∨ c = 3) with rfl | rfl
    · exact .leaf hnone
    · refine .combinator hgroup fun c hc => ?_
      rcases (by simpa using hc : c = 1 ∨ c = 2) with rfl | rfl
      · exact .leaf hfirst
      · exact .leaf hsecond
  have hdistinct : Distinct (ordinal.keywords 60 4) := by
    simp only [hroot.keywords_eq, hgroup.keywords_eq, hnone.keywords_eq, hfirst.keywords_eq,
      hsecond.keywords_eq, List.flatMap_cons, List.flatMap_nil, Distinct]
    decide +kernel
  have hrun : (match ordinal.takeAll 4 brokenList with
      | .ok _ => none
      | .error i => some i) = some 2 := by
    decide +kernel
  generalize htake : ordinal.takeAll 4 brokenList = result at hrun
  cases result with
  | ok p => cases hrun
  | error i =>
    simp only [Option.some.injEq] at hrun
    subst hrun
    obtain ⟨-, hviable, hstuck⟩ := (htree.takeAll_exact hbuilt hdistinct brokenList).2.2 2 htake
    exact ⟨hviable 1 (by decide), hstuck⟩

end Matcher

end StyleGrammar

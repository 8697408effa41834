import StyleGrammar.Grammar.Suggestion
import StyleGrammar.Proofs.Definition.Renaming

/-!
# Matching up to the indices of nodes

A matcher looks at what nodes are like, never at their indices.  So two matchers
whose arenas are a renaming of each other go through the same states up to that
renaming, and they report and suggest the same.
-/

namespace StyleGrammar

open List

variable {R : NodeId → NodeId → Prop}

/-! ## Lists and options side by side -/

section Lists

variable {α β γ δ : Type} {S : α → β → Prop} {T : γ → δ → Prop} {xs : List α} {ys : List β}
  {zs : List γ} {ws : List δ}

theorem all_congr_of_forall₂ {f : α → Bool} {g : β → Bool} (h : Forall₂ S xs ys)
    (heq : ∀ {x y}, S x y → f x = g y) : xs.all f = ys.all g := by
  induction h with
  | nil => rfl
  | cons hfirst _ ih => rw [all_cons, all_cons, heq hfirst, ih]

theorem any_congr_of_forall₂ {f : α → Bool} {g : β → Bool} (h : Forall₂ S xs ys)
    (heq : ∀ {x y}, S x y → f x = g y) : xs.any f = ys.any g := by
  induction h with
  | nil => rfl
  | cons hfirst _ ih => rw [any_cons, any_cons, heq hfirst, ih]

theorem mapM_congr_of_forall₂ {ε τ : Type} {f : α → Except ε τ} {g : β → Except ε τ}
    (h : Forall₂ S xs ys) (heq : ∀ {x y}, S x y → f x = g y) : xs.mapM f = ys.mapM g := by
  induction h with
  | nil => rfl
  | cons hfirst _ ih => rw [mapM_cons, mapM_cons, heq hfirst, ih]

theorem forall₂_zip_prod (h : Forall₂ S xs ys) (h' : Forall₂ T zs ws) :
    Forall₂ (fun p q => S p.1 q.1 ∧ T p.2 q.2) (xs.zip zs) (ys.zip ws) := by
  induction h generalizing zs ws with
  | nil => exact .nil
  | cons hfirst _ ih =>
    cases h' with
    | nil => exact .nil
    | cons hfirst' hmore' => exact .cons ⟨hfirst, hfirst'⟩ (ih hmore')

theorem rel_cases {x : Option α} {y : Option β} (h : Option.Rel S x y) :
    (∃ a b, x = some a ∧ y = some b ∧ S a b) ∨ x = none ∧ y = none := by
  cases h with
  | some h => exact .inl ⟨_, _, rfl, rfl, h⟩
  | none => exact .inr ⟨rfl, rfl⟩

theorem rel_getElem?_of_forall₂ (h : Forall₂ S xs ys) (i : Nat) :
    Option.Rel S xs[i]? ys[i]? := by
  induction h generalizing i with
  | nil => exact .none
  | cons hfirst _ ih =>
    cases i with
    | zero => exact .some hfirst
    | succ i => simpa using ih i

theorem forall₂_set (h : Forall₂ S xs ys) (i : Nat) {x : α} {y : β} (hxy : S x y) :
    Forall₂ S (xs.set i x) (ys.set i y) := by
  induction h generalizing i with
  | nil => exact .nil
  | cons hfirst hmore ih =>
    cases i with
    | zero => exact .cons hxy hmore
    | succ i => exact .cons hfirst (ih i)

end Lists

/-! ## States of a match -/

mutual

/-- States of a match that differ only in the nodes where they stand. -/
inductive Progress.Like (R : NodeId → NodeId → Prop) : Progress → Progress → Prop
  | mk {id id' : NodeId} {phase phase' : Phase} (count : Nat) (hid : R id id')
      (hphase : Phase.Like R phase phase') :
      Progress.Like R (.mk id count phase) (.mk id' count phase')

inductive Phase.Like (R : NodeId → NodeId → Prop) : Phase → Phase → Prop
  | between : Phase.Like R .between .between
  | separated : Phase.Like R .separated .separated
  | within {r r' : Repeat} (hr : Repeat.Like R r r') : Phase.Like R (.within r) (.within r')

inductive Repeat.Like (R : NodeId → NodeId → Prop) : Repeat → Repeat → Prop
  | sequence (index : Nat) {child child' : Progress} (hchild : Progress.Like R child child') :
      Repeat.Like R (.sequence index child) (.sequence index child')
  | choice (index : Nat) {child child' : Progress} (hchild : Progress.Like R child child') :
      Repeat.Like R (.choice index child) (.choice index child')
  | group (active : Nat) {begun begun' : List (Option Progress)}
      (hbegun : Forall₂ (Option.Rel (Progress.Like R)) begun begun') :
      Repeat.Like R (.group begun active) (.group begun' active)
  | reference {target target' : Progress} (htarget : Progress.Like R target target') :
      Repeat.Like R (.reference target) (.reference target')

end

theorem Progress.like_start {id id' : NodeId} (hid : R id id') :
    (Progress.start id).Like R (.start id') := .mk 0 hid .between

theorem NodeKind.Like.children {kind kind' : NodeKind} (h : kind.Like R kind') :
    Forall₂ R kind.children kind'.children := by
  cases h with
  | literal text => exact .nil
  | dataType name => exact .nil
  | function name hids => exact hids
  | group g hids => rwa [g.children_kind, g.children_kind]
  | reference name htarget => exact .nil
  | placeholder => exact .nil

namespace Matcher

/-- Matchers with the same forbidden identifiers whose nodes are alike where they correspond. -/
structure Like (m m' : Matcher) (R : NodeId → NodeId → Prop) : Prop where
  node : ∀ {id id'}, R id id' → (m.arena.node id).Like R (m'.arena.node id')
  forbidden_eq : m.forbidden = m'.forbidden

variable {m m' : Matcher} {id id' : NodeId} {p p' : Progress} {r r' : Repeat}

namespace Like

variable (h : m.Like m' R)
include h

/-! ## Looking at a node -/

theorem kind (hid : R id id') : (m.kind id).Like R (m'.kind id') := (h.node hid).kind

theorem quantifier_eq (hid : R id id') : m.quantifier id = m'.quantifier id' :=
  (h.node hid).quantifier_eq

theorem raw_eq (hid : R id id') : m.raw id = m'.raw id' := (h.node hid).raw_eq

theorem children (hid : R id id') : Forall₂ R (m.children id) (m'.children id') :=
  (h.kind hid).children

theorem isUnordered_eq (hid : R id id') : m.isUnordered id = m'.isUnordered id' := by
  have hkind := h.kind hid
  unfold isUnordered
  generalize m.kind id = kind, m'.kind id' = kind' at hkind
  cases hkind with
  | group g hids => cases g <;> rfl
  | _ => rfl

theorem isFilled_eq (hid : R id id') : m.arena.isFilled id = m'.arena.isFilled id' := by
  have hkind := (h.node hid).kind
  unfold Arena.isFilled
  generalize (m.arena.node id).kind = kind, (m'.arena.node id').kind = kind' at hkind
  cases hkind with
  | group g hids => cases g <;> rfl
  | _ => rfl

theorem contentNullable_eq (n : Nat) (hid : R id id') :
    m.contentNullable n id = m'.contentNullable n id' := by
  induction n generalizing id id' with
  | zero => rfl
  | succ n ih =>
    have hchild {c c' : NodeId} (hc : R c c') :
        (decide ((m.quantifier c).min = 0) || m.contentNullable n c) =
          (decide ((m'.quantifier c').min = 0) || m'.contentNullable n c') := by
      rw [h.quantifier_eq hc, ih hc]
    have hkind := h.kind hid
    simp only [contentNullable, h.quantifier_eq hid]
    generalize m.kind id = kind, m'.kind id' = kind' at hkind
    congr 1
    cases hkind with
    | group g hids =>
      cases g with
      | sequence => exact all_congr_of_forall₂ hids hchild
      | unordered => exact all_congr_of_forall₂ hids hchild
      | subset => exact any_congr_of_forall₂ hids hchild
      | alternation => exact any_congr_of_forall₂ hids hchild
    | reference name htarget => exact hchild htarget
    | _ => rfl

theorem nullable_eq (n : Nat) (hid : R id id') : m.nullable n id = m'.nullable n id' := by
  unfold nullable
  rw [h.quantifier_eq hid, h.contentNullable_eq n hid]

theorem isEnough_eq (n : Nat) (hid : R id id') (count : Nat) :
    m.isEnough n id count = m'.isEnough n id' count := by
  unfold isEnough
  rw [h.quantifier_eq hid, h.contentNullable_eq n hid]

/-! ## Looking at a state -/

theorem satisfied_and_repeatSatisfied (n : Nat) :
    (∀ {p p'}, p.Like R p' → m.satisfied n p = m'.satisfied n p') ∧
      ∀ {id id' r r'}, R id id' → r.Like R r' →
        m.repeatSatisfied n id r = m'.repeatSatisfied n id' r' := by
  induction n with
  | zero =>
    refine ⟨fun {p p'} hp => ?_, fun _ _ => by simp only [repeatSatisfied]⟩
    cases hp with
    | mk count hid hphase =>
      cases hphase with
      | between => simpa only [satisfied] using h.isEnough_eq 0 hid count
      | separated => simp only [satisfied]
      | within hr => simp only [satisfied]
  | succ n ih =>
    obtain ⟨ihState, ihRepeat⟩ := ih
    constructor
    · intro p p' hp
      cases hp with
      | mk count hid hphase =>
        cases hphase with
        | between => simpa only [satisfied] using h.isEnough_eq n hid count
        | separated => simp only [satisfied]
        | within hr => simp only [satisfied, ihRepeat hid hr, h.isEnough_eq n hid]
    · intro id id' r r' hid hr
      cases hr with
      | sequence index hchild =>
        have hbehind := forall₂_drop (index + 1) (h.children hid)
        simp only [repeatSatisfied, ihState hchild,
          all_congr_of_forall₂ hbehind fun hc => h.nullable_eq n hc]
      | choice index hchild => simp only [repeatSatisfied, ihState hchild]
      | reference htarget => simp only [repeatSatisfied, ihState htarget]
      | group active hbegun =>
        simp only [repeatSatisfied]
        refine all_congr_of_forall₂ (forall₂_zip_prod hbegun (h.children hid)) ?_
        rintro ⟨state?, c⟩ ⟨state?', c'⟩ ⟨hstate, hc⟩
        cases hstate with
        | none => simp only [h.isUnordered_eq hid, h.nullable_eq n hc]
        | some hstate => simp only [ihState hstate]

theorem satisfied_eq (n : Nat) (hp : p.Like R p') : m.satisfied n p = m'.satisfied n p' :=
  (h.satisfied_and_repeatSatisfied n).1 hp

theorem repeatSatisfied_eq (n : Nat) (hid : R id id') (hr : r.Like R r') :
    m.repeatSatisfied n id r = m'.repeatSatisfied n id' r' :=
  (h.satisfied_and_repeatSatisfied n).2 hid hr

theorem isSatisfied_eq (hp : p.Like R p') : m.isSatisfied p = m'.isSatisfied p' :=
  h.satisfied_eq fullDepth hp

theorem isOpenWithin_and_repeatOpen (n : Nat) :
    (∀ {p p'}, p.Like R p' → m.isOpenWithin n p = m'.isOpenWithin n p') ∧
      ∀ {id id' r r'}, R id id' → r.Like R r' → m.repeatOpen n id r = m'.repeatOpen n id' r' := by
  induction n with
  | zero => exact ⟨fun _ => by simp only [isOpenWithin], fun _ _ => by simp only [repeatOpen]⟩
  | succ n ih =>
    obtain ⟨ihState, ihRepeat⟩ := ih
    constructor
    · intro p p' hp
      cases hp with
      | mk count hid hphase =>
        cases hphase with
        | between => simp only [isOpenWithin, h.quantifier_eq hid]
        | separated => simp only [isOpenWithin, h.quantifier_eq hid]
        | within hr => simp only [isOpenWithin, h.quantifier_eq hid, ihRepeat hid hr]
    · intro id id' r r' hid hr
      cases hr with
      | sequence index hchild =>
        simp only [repeatOpen, ihState hchild, (h.children hid).length_eq]
      | choice index hchild => simp only [repeatOpen, ihState hchild]
      | reference htarget => simp only [repeatOpen, ihState htarget]
      | @group active begun begun' hbegun =>
        have hany {x y : Option Progress} (hxy : Option.Rel (Progress.Like R) x y) :
            x.isNone = y.isNone := by
          cases hxy <;> rfl
        have hactive := rel_getElem?_of_forall₂ hbegun active
        simp only [repeatOpen, any_congr_of_forall₂ hbegun hany]
        generalize begun[active]? = x, begun'[active]? = y at hactive
        rcases hactive with hstate | _
        · rcases hstate with hstate | _
          · simp only [ihState hstate]
          · rfl
        · rfl

theorem isOpen_eq (hp : p.Like R p') : m.isOpen p = m'.isOpen p' :=
  (h.isOpenWithin_and_repeatOpen fullDepth).1 hp

theorem settled (hid : R id id') (count : Nat) (hr : r.Like R r') :
    (m.settled id count r).Like R (m'.settled id' count r') := by
  unfold Matcher.settled
  rw [(h.isOpenWithin_and_repeatOpen fullDepth).2 hid hr]
  split
  · exact .mk count hid (.within hr)
  · exact .mk (count + 1) hid .between

end Like

/-! ## Taking a value -/

section Take

variable {V : Type} {v : Form V} {take take' : Progress → Option Progress}
  (htake : ∀ {p p'}, p.Like R p' → Option.Rel (Progress.Like R) (take p) (take' p'))
include htake

theorem like_beginChoice {cs cs' : List NodeId} (hcs : Forall₂ R cs cs') (index : Nat) :
    Option.Rel (Repeat.Like R) (beginChoice take index cs) (beginChoice take' index cs') := by
  induction hcs generalizing index with
  | nil => exact .none
  | cons hc hrest ih =>
    simp only [beginChoice]
    rcases rel_cases (htake (Progress.like_start hc)) with
      ⟨state, state', heq, heq', hstate⟩ | ⟨heq, heq'⟩ <;> simp only [heq, heq']
    · exact .some (.choice index hstate)
    · exact ih (index + 1)

theorem like_beginGroup {passed passed' begun begun' : List (Option Progress)}
    {cs cs' : List NodeId} (hpassed : Forall₂ (Option.Rel (Progress.Like R)) passed passed')
    (hbegun : Forall₂ (Option.Rel (Progress.Like R)) begun begun') (hcs : Forall₂ R cs cs') :
    Option.Rel (Repeat.Like R) (beginGroup take passed begun cs)
      (beginGroup take' passed' begun' cs') := by
  induction hbegun generalizing passed passed' cs cs' with
  | nil => exact .none
  | cons hfirst hrest ih =>
    cases hcs with
    | nil => cases hfirst <;> exact .none
    | cons hc hcs =>
      rcases hfirst with hstate | _
      · exact ih (.cons (.some hstate) hpassed) hcs
      · simp only [beginGroup]
        rcases rel_cases (htake (Progress.like_start hc)) with
          ⟨state, state', heq, heq', hstate⟩ | ⟨heq, heq'⟩ <;> simp only [heq, heq']
        · rw [hpassed.length_eq]
          refine .some (.group _ ?_)
          exact rel_append (rel_reverse hpassed) (.cons (.some hstate) hrest)
        · exact ih (.cons .none hpassed) hcs

namespace Like

variable (h : m.Like m' R)
include h

theorem beginSequence {cs cs' : List NodeId} (levels : Nat) (hcs : Forall₂ R cs cs')
    (index : Nat) : Option.Rel (Repeat.Like R) (m.beginSequence take levels index cs)
      (m'.beginSequence take' levels index cs') := by
  induction hcs generalizing index with
  | nil => exact .none
  | cons hc hrest ih =>
    simp only [Matcher.beginSequence, h.nullable_eq levels hc]
    rcases rel_cases (htake (Progress.like_start hc)) with
      ⟨state, state', heq, heq', hstate⟩ | ⟨heq, heq'⟩ <;> simp only [heq, heq']
    · exact .some (.sequence index hstate)
    · split
      · exact ih (index + 1)
      · exact .none

theorem beginRepeat (v : Form V) (levels : Nat) (hid : R id id') :
    Option.Rel (Option.Rel (Repeat.Like R)) (m.beginRepeat v take levels id)
      (m'.beginRepeat v take' levels id') := by
  have hmap {x y : Option Repeat} (hxy : Option.Rel (Repeat.Like R) x y) :
      Option.Rel (Option.Rel (Repeat.Like R)) (x.map some) (y.map some) := by
    rcases hxy with hr | _
    · exact .some (.some hr)
    · exact .none
  have hwhole (b : Bool) : Option.Rel (Option.Rel (Repeat.Like R))
      (if b then some none else none) (if b then some none else none) := by
    cases b
    · exact .none
    · exact .some .none
  have hunbegun {cs cs' : List NodeId} (hcs : Forall₂ R cs cs') :
      Forall₂ (Option.Rel (Progress.Like R)) (cs.map fun _ => none) (cs'.map fun _ => none) :=
    rel_map (fun _ _ _ => Option.Rel.none) hcs
  have hkind := h.kind hid
  unfold Matcher.beginRepeat
  rw [h.forbidden_eq]
  generalize m.kind id = kind, m'.kind id' = kind' at hkind
  cases hkind with
  | literal text => exact hwhole _
  | dataType name => exact hwhole _
  | function name hids => exact hwhole _
  | group g hids =>
    cases g with
    | sequence => exact hmap (h.beginSequence htake levels hids 0)
    | alternation => exact hmap (like_beginChoice htake hids 0)
    | unordered => exact hmap (like_beginGroup htake .nil (hunbegun hids) hids)
    | subset => exact hmap (like_beginGroup htake .nil (hunbegun hids) hids)
  | reference name htarget =>
    dsimp only
    split
    · exact .some .none
    · rcases rel_cases (htake (Progress.like_start htarget)) with
        ⟨state, state', heq, heq', hstate⟩ | ⟨heq, heq'⟩ <;> simp only [heq, heq']
      · exact .some (.some (.reference hstate))
      · exact .none
  | placeholder => exact .none

theorem continueRepeat (levels : Nat) (hid : R id id') (hr : r.Like R r') :
    Option.Rel (Repeat.Like R) (m.continueRepeat take levels id r)
      (m'.continueRepeat take' levels id' r') := by
  cases hr with
  | sequence index hchild =>
    have hbehind := forall₂_drop (index + 1) (h.children hid)
    simp only [Matcher.continueRepeat, h.satisfied_eq levels hchild]
    rcases rel_cases (htake hchild) with
      ⟨state, state', heq, heq', hstate⟩ | ⟨heq, heq'⟩ <;> simp only [heq, heq']
    · exact .some (.sequence index hstate)
    · split
      · exact h.beginSequence htake levels hbehind (index + 1)
      · exact .none
  | choice index hchild =>
    simp only [Matcher.continueRepeat]
    rcases rel_cases (htake hchild) with
      ⟨state, state', heq, heq', hstate⟩ | ⟨heq, heq'⟩ <;> simp only [heq, heq']
    · exact .some (.choice index hstate)
    · exact .none
  | reference htarget =>
    simp only [Matcher.continueRepeat]
    rcases rel_cases (htake htarget) with
      ⟨state, state', heq, heq', hstate⟩ | ⟨heq, heq'⟩ <;> simp only [heq, heq']
    · exact .some (.reference hstate)
    · exact .none
  | @group active begun begun' hbegun =>
    have hothers := like_beginGroup htake .nil hbegun (h.children hid)
    have hactive := rel_getElem?_of_forall₂ hbegun active
    simp only [Matcher.continueRepeat]
    generalize begun[active]? = x, begun'[active]? = y at hactive
    rcases hactive with hactive | _
    · rcases hactive with hstate | _
      · dsimp only
        rw [h.satisfied_eq levels hstate]
        rcases rel_cases (htake hstate) with
          ⟨next, next', heq, heq', hnext⟩ | ⟨heq, heq'⟩ <;> simp only [heq, heq']
        · exact .some (.group active (forall₂_set hbegun active (.some hnext)))
        · split
          · exact hothers
          · exact .none
      · exact hothers
    · exact hothers

theorem takeFresh (levels : Nat) (hid : R id id') (count : Nat) (separated : Bool) :
    Option.Rel (Progress.Like R) (m.takeFresh v take levels id count separated)
      (m'.takeFresh v take' levels id' count separated) := by
  have hbegun : Option.Rel (Progress.Like R) (takeFresh.begun m v take levels id count)
      (takeFresh.begun m' v take' levels id' count) := by
    unfold takeFresh.begun
    rcases rel_cases (h.beginRepeat htake v levels hid) with
      ⟨r?, r?', heq, heq', hr⟩ | ⟨heq, heq'⟩ <;> simp only [heq, heq']
    · rcases hr with hr | _
      · exact .some (h.settled hid count hr)
      · exact .some (.mk (count + 1) hid .between)
    · exact .none
  unfold Matcher.takeFresh
  rw [h.quantifier_eq hid]
  dsimp only
  split
  · exact .none
  · split
    · split
      · split
        · split
          · exact .some (.mk count hid .separated)
          · exact .none
        · exact .none
      · exact hbegun
    · exact hbegun

theorem takeWith (levels : Nat) (hp : p.Like R p') :
    Option.Rel (Progress.Like R) (m.takeWith v take levels p) (m'.takeWith v take' levels p') := by
  cases hp with
  | mk count hid hphase =>
    cases hphase with
    | between => exact h.takeFresh htake (levels - 1) hid count false
    | separated => exact h.takeFresh htake (levels - 1) hid count true
    | within hr =>
      simp only [Matcher.takeWith, h.repeatSatisfied_eq levels hid hr]
      rcases rel_cases (h.continueRepeat htake (levels - 1) hid hr) with
        ⟨r, r', heq, heq', hr⟩ | ⟨heq, heq'⟩ <;> simp only [heq, heq']
      · exact .some (h.settled hid count hr)
      · split
        · exact h.takeFresh htake (levels - 1) hid (count + 1) false
        · exact .none

end Like

end Take

namespace Like

variable {V : Type} (h : m.Like m' R)
include h

theorem takeWithin (v : Form V) (n : Nat) {p p' : Progress} (hp : p.Like R p') :
    Option.Rel (Progress.Like R) (m.takeWithin v n p) (m'.takeWithin v n p') := by
  induction n using Nat.twoStepInduction generalizing p p' with
  | zero => exact .none
  | one => exact h.takeWith (fun _ => .none) 0 hp
  | more n ih _ => exact h.takeWith ih (n + 1) hp

/-- A value does the same to both matches. -/
theorem take (v : Form V) (hp : p.Like R p') :
    m.take p v = .rejected ∧ m'.take p' v = .rejected ∨
      ∃ next next', next.Like R next' ∧
        (m.take p v = .continued next ∧ m'.take p' v = .continued next' ∨
          m.take p v = .exhausted next ∧ m'.take p' v = .exhausted next') := by
  unfold Matcher.take
  rcases rel_cases (h.takeWithin v fullDepth hp) with
    ⟨next, next', heq, heq', hnext⟩ | ⟨heq, heq'⟩ <;> rw [heq, heq']
  · refine .inr ⟨next, next', hnext, ?_⟩
    dsimp only
    rw [h.isOpen_eq hnext]
    split
    · exact .inl ⟨rfl, rfl⟩
    · exact .inr ⟨rfl, rfl⟩
  · exact .inl ⟨rfl, rfl⟩

/-- Both matches take all values, or reject the same one. -/
theorem takeAll (vs : List (Form V)) (hid : R id id') :
    (∃ index, m.takeAll id vs = .error index ∧ m'.takeAll id' vs = .error index) ∨
      ∃ p p', p.Like R p' ∧ m.takeAll id vs = .ok p ∧ m'.takeAll id' vs = .ok p' := by
  have hgo (index : Nat) {p p' : Progress} (hp : p.Like R p') :
      (∃ i, takeAll.go m index p vs = .error i ∧ takeAll.go m' index p' vs = .error i) ∨
        ∃ q q', q.Like R q' ∧ takeAll.go m index p vs = .ok q ∧
          takeAll.go m' index p' vs = .ok q' := by
    induction vs generalizing index p p' with
    | nil => exact .inr ⟨p, p', hp, rfl, rfl⟩
    | cons v vs ih =>
      simp only [takeAll.go]
      rcases h.take v hp with ⟨heq, heq'⟩ | ⟨next, next', hnext, ⟨heq, heq'⟩ | ⟨heq, heq'⟩⟩ <;>
        rw [heq, heq']
      · exact .inl ⟨index, rfl, rfl⟩
      · exact ih (index + 1) hnext
      · exact ih (index + 1) hnext
  exact hgo 0 (Progress.like_start hid)

end Like

/-! ## Suggestions -/

namespace Like

variable (h : m.Like m' R)
include h

theorem tooDeep_eq (hid : R id id') : m.tooDeep id = m'.tooDeep id' := by
  unfold tooDeep
  rw [h.raw_eq hid]

section Offers

variable {offers offers' : Progress → Offers}
  (hoffers : ∀ {p p'}, p.Like R p' → offers p = offers' p')
include hoffers

theorem headOffers_eq {cs cs' : List NodeId} (hcs : Forall₂ R cs cs') :
    m.headOffers offers cs = m'.headOffers offers' cs' := by
  induction hcs with
  | nil => rfl
  | cons hc hrest ih =>
    have hstart := Progress.like_start hc
    simp only [headOffers, hoffers hstart, h.isSatisfied_eq hstart, ih]

theorem restOffers_eq (unordered : Bool) {begun begun' : List (Option Progress)}
    {cs cs' : List NodeId} (hbegun : Forall₂ (Option.Rel (Progress.Like R)) begun begun')
    (hcs : Forall₂ R cs cs') :
    m.restOffers offers unordered begun cs = m'.restOffers offers' unordered begun' cs' := by
  induction hbegun generalizing cs cs' with
  | nil => rfl
  | cons hfirst hrest ih =>
    cases hcs with
    | nil => cases hfirst <;> rfl
    | cons hc hcs =>
      have hstart := Progress.like_start hc
      rcases hfirst with hstate | _
      · simp only [restOffers, ih hcs]
      · simp only [restOffers, hoffers hstart, h.isSatisfied_eq hstart, ih hcs]

theorem repeatOffers_eq (hid : R id id') (hr : r.Like R r') :
    m.repeatOffers offers id r = m'.repeatOffers offers' id' r' := by
  cases hr with
  | sequence index hchild =>
    have hbehind := forall₂_drop (index + 1) (h.children hid)
    simp only [repeatOffers, hoffers hchild, h.isSatisfied_eq hchild,
      h.headOffers_eq hoffers hbehind]
  | choice index hchild =>
    simp only [repeatOffers, hoffers hchild, h.isSatisfied_eq hchild]
  | reference htarget =>
    simp only [repeatOffers, hoffers htarget, h.isSatisfied_eq htarget]
  | @group active begun begun' hbegun =>
    have hactive := rel_getElem?_of_forall₂ hbegun active
    simp only [repeatOffers, h.isUnordered_eq hid,
      h.restOffers_eq hoffers _ hbegun (h.children hid)]
    generalize begun[active]? = x, begun'[active]? = y at hactive
    rcases hactive with hactive | _
    · rcases hactive with hstate | _
      · simp only [hoffers hstate, h.isSatisfied_eq hstate]
      · rfl
    · rfl

theorem freshOffers_eq (hid : R id id') : m.freshOffers offers id = m'.freshOffers offers' id' := by
  have hchild {c c' : NodeId} (hc : R c c') : offers (.start c) = offers' (.start c') :=
    hoffers (Progress.like_start hc)
  have hkind := h.kind hid
  unfold freshOffers
  rw [h.raw_eq hid, (h.node hid).name_eq]
  generalize m.kind id = kind, m'.kind id' = kind' at hkind
  cases hkind with
  | literal text => rfl
  | dataType name => rfl
  | function name hids => rfl
  | group g hids =>
    cases g with
    | sequence => exact congrArg (Prod.fst <$> ·) (h.headOffers_eq hoffers hids)
    | alternation => exact congrArg (List.flatten <$> ·) (mapM_congr_of_forall₂ hids hchild)
    | unordered => exact congrArg (List.flatten <$> ·) (mapM_congr_of_forall₂ hids hchild)
    | subset => exact congrArg (List.flatten <$> ·) (mapM_congr_of_forall₂ hids hchild)
  | reference name htarget => simp only [h.isFilled_eq htarget, hchild htarget]
  | placeholder => rfl

theorem offersWith_eq (levels : Nat) (hp : p.Like R p') :
    m.offersWith offers levels p = m'.offersWith offers' levels p' := by
  cases hp with
  | mk count hid hphase =>
    simp only [offersWith, h.quantifier_eq hid, h.tooDeep_eq hid, h.freshOffers_eq hoffers hid]
    cases hphase with
    | between => rfl
    | separated => rfl
    | within hr => simp only [h.repeatOffers_eq hoffers hid hr]

end Offers

theorem offersWithin_eq (n : Nat) {p p' : Progress} (hp : p.Like R p') :
    m.offersWithin n p = m'.offersWithin n p' := by
  have hdeep {p p' : Progress} (hp : p.Like R p') : m.tooDeep p.node = m'.tooDeep p'.node := by
    cases hp with
    | mk count hid hphase => exact h.tooDeep_eq hid
  induction n using Nat.twoStepInduction generalizing p p' with
  | zero => exact hdeep hp
  | one => exact h.offersWith_eq hdeep 0 hp
  | more n ih _ => exact h.offersWith_eq ih (n + 1) hp

theorem suggestionsAfter_eq (vs : List Value) (hp : p.Like R p') :
    m.suggestionsAfter p vs = m'.suggestionsAfter p' vs := by
  induction vs generalizing p p' with
  | nil =>
    simp only [suggestionsAfter, suggestions, h.offersWithin_eq fullDepth hp]
  | cons v vs ih =>
    simp only [suggestionsAfter]
    rcases h.take v hp with ⟨heq, heq'⟩ | ⟨next, next', hnext, ⟨heq, heq'⟩ | ⟨heq, heq'⟩⟩ <;>
      rw [heq, heq']
    · exact ih hp
    · exact ih hnext

end Like

end Matcher

/-- Matchers with arenas that are a renaming of each other. -/
theorem Renaming.matcher {a a' : Arena} (h : Renaming a a' R) (forbidden : List String) :
    Matcher.Like ⟨a, forbidden⟩ ⟨a', forbidden⟩ R := ⟨h.like, rfl⟩

end StyleGrammar

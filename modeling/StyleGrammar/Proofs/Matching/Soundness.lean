import StyleGrammar.Proofs.Matching.Validity

/-!
# Soundness of matching

What may follow a match is said without the matcher (`Completes`): the rest of
the repetition in progress, and then further repetitions.  A step of the matcher
never adds to it: what completes the match after a value completes the match
before, with the value in front (`completes_cons_of_takeWithin`).  A satisfied
match may end, and at the start what may follow is a word.  So the values of a
satisfied match are a word of its root, for every grammar that definitions can
build, recursive ones included.
-/

namespace StyleGrammar

namespace Matcher

open List

variable {V : Type}

/-- The arrangements of the children of a group that have not begun. -/
def LeftArranges (m : Matcher) (id : NodeId) (left ids : List NodeId) : Prop :=
  if m.isUnordered id then ids ~ left else ids <+~ left

mutual

/-- The values that may follow a match, up to its end. -/
inductive Completes (m : Matcher) : Progress → List (Form V) → Prop
  | between {id : NodeId} {count : Nat} {u : List (Form V)}
      (hrest : Repeats (m.quantifier id) (m.Content id) count false u) :
      Completes m (.mk id count .between) u
  | separated {id : NodeId} {count : Nat} {u : List (Form V)}
      (hrest : Repeats (m.quantifier id) (m.Content id) count true u) :
      Completes m (.mk id count .separated) u
  | within {id : NodeId} {count : Nat} {r : Repeat} {a b : List (Form V)}
      (hrepeat : RepeatCompletes m id r a)
      (hrest : Repeats (m.quantifier id) (m.Content id) (count + 1) false b) :
      Completes m (.mk id count (.within r)) (a ++ b)

/-- The values that may follow up to the end of a repetition. -/
inductive RepeatCompletes (m : Matcher) : NodeId → Repeat → List (Form V) → Prop
  | sequence {id : NodeId} {index : Nat} {child : Progress} {a b : List (Form V)}
      (hchild : Completes m child a)
      (hbehind : m.Parts (· = (m.children id).drop (index + 1)) b) :
      RepeatCompletes m id (.sequence index child) (a ++ b)
  | choice {id : NodeId} {index : Nat} {child : Progress} {u : List (Form V)}
      (hchild : Completes m child u) : RepeatCompletes m id (.choice index child) u
  | group {id : NodeId} {begun : List (Option Progress)} {active : Nat} {state : Progress}
      {a b : List (Form V)} (hactive : begun[active]? = some (some state))
      (hstate : Completes m state a)
      (hleft : m.Parts (m.LeftArranges id (unbegun begun (m.children id))) b) :
      RepeatCompletes m id (.group begun active) (a ++ b)
  | reference {id : NodeId} {target : Progress} {u : List (Form V)}
      (htarget : Completes m target u) : RepeatCompletes m id (.reference target) u

end

variable {m : Matcher} {v : Form V} {take : Progress → Option Progress}
variable {valid : Progress → Prop}

theorem completes_start_iff {id : NodeId} {u : List (Form V)} :
    m.Completes (.start id) u ↔ m.Word id u := by
  rw [word_iff_repeats]
  constructor
  · intro hcompletes
    cases hcompletes with
    | between hrest => exact hrest
  · exact .between

/-- Nodes in front that may be nothing. -/
theorem Parts.front {front cs : List NodeId} {u : List (Form V)}
    (hfront : ∀ x ∈ front, m.Word (V := V) x []) (hparts : m.Parts (· = cs) u) :
    m.Parts (· = front ++ cs) u := by
  induction front with
  | nil => exact hparts
  | cons x front ih =>
    have hrest := ih fun y hy => hfront y (List.mem_cons_of_mem _ hy)
    exact hrest.cons (hfront x List.mem_cons_self) fun ids hids => by rw [hids]; rfl

/-! ## A satisfied match may end -/

theorem mem_zip_of_mem_unbegun {begun : List (Option Progress)} {cs : List NodeId} {c : NodeId}
    (hmem : c ∈ unbegun begun cs) : (none, c) ∈ begun.zip cs := by
  obtain ⟨i, hnone, hc⟩ := mem_unbegun_iff.mp hmem
  exact List.mem_of_getElem? (List.getElem?_zip_eq_some.mpr ⟨hnone, hc⟩)

theorem repeatCompletes_nil {levels k : Nat} {id : NodeId} {r : Repeat}
    (hvalid : m.RepeatValid levels valid id r)
    (hchild : ∀ p, valid p → m.satisfied k p = true → m.Completes (V := V) p [])
    (hsat : m.repeatSatisfied (k + 1) id r = true) : m.RepeatCompletes (V := V) id r [] := by
  cases r with
  | sequence index child =>
    obtain ⟨cs, -, -, hvalid⟩ := hvalid
    simp only [repeatSatisfied, Bool.and_eq_true, List.all_eq_true] at hsat
    exact .sequence (a := []) (hchild child hvalid hsat.1)
      (.nil_of_forall rfl fun c hc => word_nil_of_nullable (hsat.2 c hc))
  | choice index child =>
    obtain ⟨cs, -, -, hvalid⟩ := hvalid
    exact .choice (hchild child hvalid hsat)
  | group begun active =>
    obtain ⟨cs, hkind, hgroup⟩ := hvalid
    obtain ⟨state, hactive⟩ := hgroup.active_begun
    simp only [repeatSatisfied, List.all_eq_true] at hsat
    have hmem : (some state, state.node) ∈ begun.zip (m.children id) := by
      rw [children_of_kind (.inr (.inr hkind))]
      exact List.mem_of_getElem? (List.getElem?_zip_eq_some.mpr ⟨hactive, hgroup.node_eq hactive⟩)
    have hstate : m.satisfied k state = true := hsat _ hmem
    refine .group (a := []) hactive (hchild state (hgroup.valid hactive) hstate) ?_
    cases hunordered : m.isUnordered id with
    | true =>
      have hall : m.LeftArranges id (unbegun begun (m.children id))
          (unbegun begun (m.children id)) := by
        simp [LeftArranges, hunordered]
      refine .nil_of_forall hall fun c hc => ?_
      have hnull := hsat _ (mem_zip_of_mem_unbegun hc)
      simp only [hunordered, Bool.not_true, Bool.false_or] at hnull
      exact word_nil_of_nullable hnull
    | false =>
      have hnone : m.LeftArranges id (unbegun begun (m.children id)) [] := by
        simp [LeftArranges, hunordered]
      exact .nil_of_forall hnone (by simp)
  | reference target =>
    obtain ⟨name, -, hvalid⟩ := hvalid
    exact .reference (hchild target hvalid hsat)

theorem completes_nil_of_satisfied {levels k : Nat} {p : Progress}
    (hvalid : m.ValidWithin levels p) (hsat : m.satisfied k p = true) :
    m.Completes (V := V) p [] := by
  induction k using Nat.strongRecOn generalizing levels p with
  | ind k ih =>
    obtain ⟨id, count, phase⟩ := p
    cases phase with
    | between =>
      cases k with
      | zero => exact .between (.stop (enough_of_isEnough (by simpa [satisfied] using hsat)))
      | succ k =>
        rw [satisfied_succ] at hsat
        exact .between (.stop (enough_of_isEnough hsat))
    | separated => cases k <;> simp [satisfied] at hsat
    | within r =>
      cases k with
      | zero => simp [satisfied] at hsat
      | succ k =>
        rw [satisfied_succ] at hsat
        simp only [Bool.and_eq_true] at hsat
        cases levels with
        | zero => cases hvalid
        | succ l =>
          obtain ⟨-, -, hrepeat⟩ := validWithin_succ.mp hvalid
          obtain ⟨j, rfl⟩ : ∃ j, k = j + 1 := by
            cases k with
            | zero => simp [repeatSatisfied] at hsat
            | succ j => exact ⟨j, rfl⟩
          have hnil := repeatCompletes_nil (V := V) hrepeat
            (fun p hp hsat => ih j (by omega) hp hsat) hsat.1
          exact .within (a := []) hnil (.stop (enough_of_isEnough hsat.2))

/-! ## What follows a value -/

/-- What completes a child after a value completes it before, with the value in front. -/
def KeepsCompletes (m : Matcher) (v : Form V) (valid : Progress → Prop)
    (take : Progress → Option Progress) : Prop :=
  ∀ p p', (valid p ∨ ∃ c, p = .start c) → take p = some p' →
    ∀ u, m.Completes p' u → m.Completes p (v :: u)

theorem KeepsCompletes.start (hkeeps : m.KeepsCompletes v valid take) {c : NodeId}
    {state : Progress} (htake : take (.start c) = some state) {u : List (Form V)}
    (hcompletes : m.Completes state u) : m.Word c (v :: u) :=
  completes_start_iff.mp (hkeeps _ _ (.inr ⟨c, rfl⟩) htake u hcompletes)

theorem parts_of_beginSequence (hkeeps : m.KeepsCompletes v valid take) {k index : Nat}
    {id : NodeId} {r : Repeat} {u : List (Form V)}
    (h : m.beginSequence take k index ((m.children id).drop index) = some r)
    (hcompletes : m.RepeatCompletes id r u) :
    m.Parts (· = (m.children id).drop index) (v :: u) := by
  obtain ⟨front, c, behind, state, hcs, hfront, htake, rfl⟩ := beginSequence_eq_some h
  cases hcompletes with
  | @sequence _ _ _ a b hchild hbehind =>
    have hdrop : (m.children id).drop (index + front.length + 1) = behind := by
      rw [Nat.add_assoc, ← List.drop_drop, hcs]
      simp
    rw [hdrop] at hbehind
    have hword : m.Word c (v :: a) := hkeeps.start htake hchild
    rw [hcs, ← List.cons_append]
    apply Parts.front (fun x hx => word_nil_of_nullable (hfront x hx).2)
    exact hbehind.cons hword fun ids hids => by rw [hids]

theorem parts_of_beginGroup (hkeeps : m.KeepsCompletes v valid take) {id : NodeId}
    {begun : List (Option Progress)} {r : Repeat} {u : List (Form V)}
    (h : beginGroup take [] begun (m.children id) = some r)
    (hcompletes : m.RepeatCompletes id r u) :
    m.Parts (fun ids => ids ≠ [] ∧ m.LeftArranges id (unbegun begun (m.children id)) ids)
      (v :: u) := by
  obtain ⟨i, c, new, hnone, hc, htake, rfl⟩ := beginGroup_eq_some h
  simp only [List.reverse_nil, List.nil_append, List.length_nil, Nat.zero_add] at hcompletes
  cases hcompletes with
  | @group _ _ _ state a b hactive hstate hleft =>
    rw [List.getElem?_set_self (List.getElem?_eq_some_iff.mp hnone).1, Option.some.injEq,
      Option.some.injEq] at hactive
    subst hactive
    have hperm : unbegun begun (m.children id) ~
        c :: unbegun (begun.set i (some new)) (m.children id) :=
      unbegun_perm_cons hnone hc
    rw [← List.cons_append]
    refine hleft.cons (hkeeps.start htake hstate) fun ids hids => ⟨by simp, ?_⟩
    unfold LeftArranges at hids ⊢
    cases hunordered : m.isUnordered id with
    | true =>
      rw [hunordered, if_pos rfl] at hids
      rw [if_pos rfl]
      exact (hids.cons c).trans hperm.symm
    | false =>
      rw [hunordered, if_neg Bool.false_ne_true] at hids
      rw [if_neg Bool.false_ne_true]
      exact ((List.subperm_cons c).mpr hids).trans hperm.symm.subperm

theorem content_of_beginRepeat (hkeeps : m.KeepsCompletes v valid take) {k : Nat}
    {id : NodeId} {r : Repeat} {u : List (Form V)}
    (h : m.beginRepeat v take k id = some (some r)) (hcompletes : m.RepeatCompletes id r u) :
    m.Content id (v :: u) := by
  rcases beginRepeat_eq_some h with ⟨name, target, state, hkind, htake, rfl⟩ |
    ⟨cs, hkind, hbegin⟩ | ⟨cs, hkind, hbegin⟩ | ⟨cs, hkind, hbegin⟩
  · cases hcompletes with
    | reference htarget =>
      exact content_of_parts (.singleton (hkeeps.start htake htarget) (by rw [hkind]; rfl))
  · have hcs := children_of_kind (.inl hkind)
    have hparts : m.Parts (· = (m.children id).drop 0) (v :: u) :=
      parts_of_beginSequence hkeeps (by rwa [hcs, List.drop_zero]) hcompletes
    exact content_of_parts (hparts.mono fun ids hids => by
      rw [hkind, hids, hcs, List.drop_zero]; rfl)
  · obtain ⟨front, c, behind, state, rfl, -, htake, rfl⟩ := beginChoice_eq_some hbegin
    cases hcompletes with
    | choice hchild =>
      exact content_of_parts (.singleton (hkeeps.start htake hchild)
        (by rw [hkind]; exact ⟨c, by simp, rfl⟩))
  · have hcs := children_of_kind (.inr (.inr hkind))
    have hparts := parts_of_beginGroup hkeeps (by rwa [hcs]) hcompletes
    refine content_of_parts (hparts.mono fun ids hids => ?_)
    rw [hcs, unbegun_map_none] at hids
    obtain ⟨hne, hids⟩ := hids
    rcases hkind with hkind | hkind <;> rw [hkind]
    · change ids ~ cs
      simpa [LeftArranges, isUnordered, hkind] using hids
    · exact ⟨hne, by simpa [LeftArranges, isUnordered, hkind] using hids⟩

/-- A repetition that takes a value. -/
theorem repeatCompletes_of_continueRepeat (hkeeps : m.KeepsCompletes v valid take) {k levels : Nat}
    (hsatisfied : ∀ p, valid p → m.satisfied k p = true → m.Completes (V := V) p [])
    {id : NodeId} {r r' : Repeat} (hvalid : m.RepeatValid levels valid id r) {u : List (Form V)}
    (h : m.continueRepeat take k id r = some r') (hcompletes : m.RepeatCompletes id r' u) :
    m.RepeatCompletes id r (v :: u) := by
  cases r with
  | sequence index child =>
    obtain ⟨cs, hkind, hindex, hchild⟩ := hvalid
    rw [continueRepeat] at h
    cases htake : take child with
    | some child' =>
      simp only [htake, Option.some.injEq] at h
      subst h
      cases hcompletes with
      | sequence hchild' hbehind =>
        exact .sequence (hkeeps _ _ (.inl hchild) htake _ hchild') hbehind
    | none =>
      simp only [htake, Option.ite_none_right_eq_some] at h
      exact .sequence (a := []) (hsatisfied child hchild h.1)
        (parts_of_beginSequence hkeeps h.2 hcompletes)
  | choice index child =>
    obtain ⟨cs, hkind, hindex, hchild⟩ := hvalid
    simp only [continueRepeat, Option.map_eq_some_iff] at h
    obtain ⟨child', htake, rfl⟩ := h
    cases hcompletes with
    | choice hchild' => exact .choice (hkeeps _ _ (.inl hchild) htake _ hchild')
  | group begun active =>
    obtain ⟨cs, hkind, hgroup⟩ := hvalid
    obtain ⟨state, hactive⟩ := hgroup.active_begun
    have hstate := hgroup.valid hactive
    simp only [continueRepeat, hactive] at h
    cases htake : take state with
    | some state' =>
      simp only [htake, Option.some.injEq] at h
      subst h
      cases hcompletes with
      | @group _ _ _ other a b hactive' hother hleft =>
        rw [List.getElem?_set_self (List.getElem?_eq_some_iff.mp hactive).1, Option.some.injEq,
          Option.some.injEq] at hactive'
        subst hactive'
        rw [unbegun_set_some hactive] at hleft
        exact .group hactive (hkeeps _ _ (.inl hstate) htake _ hother) hleft
    | none =>
      simp only [htake, Option.ite_none_right_eq_some] at h
      have hparts := parts_of_beginGroup hkeeps h.2 hcompletes
      exact .group (a := []) hactive (hsatisfied state hstate h.1)
        (hparts.mono fun ids hids => hids.2)
  | reference target =>
    obtain ⟨name, hkind, htarget⟩ := hvalid
    simp only [continueRepeat, Option.map_eq_some_iff] at h
    obtain ⟨target', htake, rfl⟩ := h
    cases hcompletes with
    | reference htarget' => exact .reference (hkeeps _ _ (.inl htarget) htake _ htarget')

/-- A repetition that is closed because it can take nothing more is complete. -/
theorem completes_of_settled {count : Nat} {id : NodeId} {r : Repeat} {u : List (Form V)}
    (hclosed : m.repeatOpen fullDepth id r = false → m.RepeatCompletes (V := V) id r [])
    (hcompletes : m.Completes (m.settled id count r) u) :
    m.Completes (.mk id count (.within r)) u := by
  unfold settled at hcompletes
  split at hcompletes
  next => exact hcompletes
  next hopen =>
    cases hcompletes with
    | between hrest => exact .within (a := []) (hclosed (by simpa using hopen)) hrest

theorem repeats_of_takeFresh (hkeeps : m.KeepsCompletes v valid take) {k count : Nat}
    {id : NodeId} {separated : Bool} {p : Progress} {u : List (Form V)}
    (hclosed : ∀ r, m.beginRepeat v take k id = some (some r) →
      m.repeatOpen fullDepth id r = false → m.RepeatCompletes (V := V) id r [])
    (h : m.takeFresh v take k id count separated = some p) (hcompletes : m.Completes p u) :
    Repeats (m.quantifier id) (m.Content id) count separated (v :: u) := by
  obtain ⟨hallows, ⟨c, hsep, hpos, rfl, rfl, rfl⟩ | ⟨hsep, ⟨r, hbegin, rfl⟩ | ⟨hbegin, rfl⟩⟩⟩ :=
    takeFresh_eq_some_iff.mp h
  · cases hcompletes with
    | separated hrest => exact .separate hsep hpos hrest
  · cases completes_of_settled (hclosed r hbegin) hcompletes with
    | @within _ _ _ a b hrepeat hrest =>
      rw [← List.cons_append]
      exact .again hsep hallows (by simp) (content_of_beginRepeat hkeeps hbegin hrepeat) hrest
  · cases hcompletes with
    | between hrest =>
      have hcontent : m.Content id [v] := .whole (beginRepeat_eq_whole_iff.mp hbegin)
      exact .again (w := [v]) hsep hallows (by simp) hcontent hrest

theorem keepsCompletes_takeWithin (hproper : ∀ id, (m.quantifier id).Proper) {levels : Nat}
    (hfull : levels ≤ fullDepth) :
    m.KeepsCompletes v (m.ValidWithin levels) (m.takeWithin v levels) := by
  induction levels using Nat.strongRecOn with
  | ind levels ih =>
    intro p p' hp htake u hcompletes
    cases levels with
    | zero => simp [takeWithin] at htake
    | succ k =>
      have hvalid := validWithin_succ.mp (validWithin_of_started hp)
      rw [takeWithin_succ] at htake
      have hchildren := ih (k - 1) (by omega) (by omega)
      have hkeeps := keepsValid_takeWithin (m := m) (v := v) (k - 1)
      have hnil (p : Progress) (hp : m.ValidWithin (k - 1) p)
          (hsat : m.satisfied (k - 1) p = true) : m.Completes (V := V) p [] :=
        completes_nil_of_satisfied hp hsat
      have hclosed {id : NodeId} {r : Repeat}
          (hr : m.RepeatValid (k - 1) (m.ValidWithin (k - 1)) id r)
          (hopen : m.repeatOpen fullDepth id r = false) :
          m.RepeatCompletes (V := V) id r [] :=
        repeatCompletes_nil hr hnil
          (repeatSatisfied_of_not_open hproper (by omega) hr (by omega) hopen)
      obtain ⟨id, count, phase⟩ := p
      cases phase with
      | between =>
        exact .between (repeats_of_takeFresh hchildren
          (fun r hr => hclosed (beginRepeat_valid hkeeps hr)) htake hcompletes)
      | separated =>
        exact .separated (repeats_of_takeFresh hchildren
          (fun r hr => hclosed (beginRepeat_valid hkeeps hr)) htake hcompletes)
      | within r =>
        obtain ⟨hallows, -, hrepeat⟩ := hvalid
        simp only [takeWith] at htake
        cases hcontinue : m.continueRepeat (m.takeWithin v (k - 1)) (k - 1) id r with
        | some r' =>
          simp only [hcontinue, Option.some.injEq] at htake
          subst htake
          have hvalid' := continueRepeat_valid hkeeps hrepeat hcontinue
          cases completes_of_settled (hclosed hvalid') hcompletes with
          | @within _ _ _ a b hrest' hbehind =>
            rw [← List.cons_append]
            exact .within (repeatCompletes_of_continueRepeat hchildren hnil hrepeat hcontinue
              hrest') hbehind
        | none =>
          simp only [hcontinue, Option.ite_none_right_eq_some] at htake
          obtain ⟨hsat, htake⟩ := htake
          refine .within (a := []) ?_ (repeats_of_takeFresh hchildren
            (fun r hr => hclosed (beginRepeat_valid hkeeps hr)) htake hcompletes)
          obtain ⟨j, rfl, -⟩ := hrepeat.exists_pred
          exact repeatCompletes_nil hrepeat hnil hsat

/-! ## Runs -/

/-- What completes a match after some values completes it before, with the values in front. -/
theorem completes_append_of_go (hproper : ∀ id, (m.quantifier id).Proper)
    {vs u : List (Form V)} {index : Nat} {p p' : Progress} (hvalid : m.ValidWithin fullDepth p)
    (hgo : takeAll.go m index p vs = .ok p') :
    m.ValidWithin fullDepth p' ∧ (m.Completes p' u → m.Completes p (vs ++ u)) := by
  induction vs generalizing index p with
  | nil =>
    simp only [takeAll.go, Except.ok.injEq] at hgo
    subst hgo
    exact ⟨hvalid, id⟩
  | cons v vs ih =>
    simp only [takeAll.go, next?_take] at hgo
    cases htake : m.takeWithin v fullDepth p with
    | none => simp [htake] at hgo
    | some next =>
      simp only [htake] at hgo
      have hnext := (keepsValid_takeWithin fullDepth p next (.inl hvalid) htake).1
      obtain ⟨hvalid', hrest⟩ := ih hnext hgo
      refine ⟨hvalid', fun hcompletes => ?_⟩
      exact keepsCompletes_takeWithin hproper (Nat.le_refl _) p next (.inl hvalid) htake _
        (hrest hcompletes)

/-- The values of a satisfied match are a word of its root. -/
theorem word_of_takeAll_satisfied (hbuilt : m.arena.Built) {root : NodeId} {vs : List (Form V)}
    {p : Progress} (htake : m.takeAll root vs = .ok p) (hsat : m.isSatisfied p = true) :
    m.Word root vs := by
  have hproper (id : NodeId) : (m.quantifier id).Proper := hbuilt.allProper id
  obtain ⟨hvalid, hcompletes⟩ := completes_append_of_go (u := []) hproper
    (validWithin_start (by decide)) htake
  have hword := completes_start_iff.mp (hcompletes (completes_nil_of_satisfied hvalid hsat))
  rwa [List.append_nil] at hword

/-- Lengths in any depth of square brackets, a grammar that refers to itself. -/
def bracketed : Matcher :=
  ⟨(Arena.empty.defineNamed "nested" "<length> | [ '[' <nested> ']' ]").2, []⟩

/-- A length in two pairs of brackets. -/
def bracketedZero : List Value :=
  [.leaf (.delimiter '['), .leaf (.delimiter '['), .leaf (.integer 0), .leaf (.delimiter ']'),
    .leaf (.delimiter ']')]

theorem word_bracketedZero : bracketed.Word 0 bracketedZero := by
  have hrun : (bracketed.takeAll 0 bracketedZero).toOption.any bracketed.isSatisfied = true := by
    decide +kernel
  cases htake : bracketed.takeAll 0 bracketedZero with
  | error i => simp [htake, Except.toOption] at hrun
  | ok p =>
    rw [htake] at hrun
    exact word_of_takeAll_satisfied (.defineNamed _ _ .empty) htake hrun

end Matcher

end StyleGrammar

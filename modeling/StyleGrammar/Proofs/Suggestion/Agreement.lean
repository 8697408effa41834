import StyleGrammar.Proofs.Suggestion.Coverage
import StyleGrammar.Proofs.Suggestion.Settled
import StyleGrammar.Proofs.Value.PlainTexts

/-!
# Agreement of suggestions and matching

Suggestions and matching descend through the same state in two recursions of
their own.  They make the same decisions: at every node, what is suggested covers
exactly the values that are taken (`agrees_offersWithin`).  Each function of the
one has its counterpart in the other, and agreement is carried over from the
children to the node.
-/

namespace StyleGrammar

/-- The suggestions say what happens to a value: if it is taken, one of them covers it, and if one
of them fits it, it is taken. -/
structure Agrees (covers fits : Suggestion → Prop) (S : List Suggestion) (taken : Prop) : Prop where
  covered : taken → ∃ s ∈ S, covers s
  taken : ∀ s ∈ S, fits s → taken

namespace Agrees

variable {covers fits : Suggestion → Prop} {S S' : List Suggestion} {taken taken' : Prop}

theorem nil (h : ¬ taken) : Agrees covers fits [] taken :=
  ⟨fun htaken => absurd htaken h, by simp⟩

theorem congr (h : Agrees covers fits S taken) (hiff : taken ↔ taken') :
    Agrees covers fits S taken' :=
  ⟨fun htaken => h.covered (hiff.mpr htaken), fun s hs hfits => hiff.mp (h.taken s hs hfits)⟩

theorem append (h : Agrees covers fits S taken) (h' : Agrees covers fits S' taken') :
    Agrees covers fits (S ++ S') (taken ∨ taken') := by
  constructor
  · rintro (htaken | htaken)
    · obtain ⟨s, hs, hcovers⟩ := h.covered htaken
      exact ⟨s, List.mem_append_left _ hs, hcovers⟩
    · obtain ⟨s, hs, hcovers⟩ := h'.covered htaken
      exact ⟨s, List.mem_append_right _ hs, hcovers⟩
  · intro s hs hfits
    rcases List.mem_append.mp hs with hs | hs
    · exact .inl (h.taken s hs hfits)
    · exact .inr (h'.taken s hs hfits)

theorem singleton {s : Suggestion} (hcovers : taken → covers s) (hfits : fits s → taken) :
    Agrees covers fits [s] taken := by
  constructor
  · intro htaken
    exact ⟨s, List.mem_singleton_self s, hcovers htaken⟩
  · intro s' hs hfits'
    rw [List.mem_singleton] at hs
    subst hs
    exact hfits hfits'

end Agrees

namespace Matcher

open List

variable {V : Type} {m : Matcher} {v : Form V} {take : Progress → Option Progress}
variable {offers : Progress → Offers} {valid : Progress → Prop} {k : Nat} {S : List Suggestion}
variable {covers fits : Suggestion → Prop}

/-- Whether a match takes the value. -/
def Takes (take : Progress → Option Progress) (p : Progress) : Prop := ∃ p', take p = some p'

/-- Agreement where a value is matched at once. -/
structure LeavesAgree (m : Matcher) (v : Form V) (covers fits : Suggestion → Prop) : Prop where
  literal : ∀ text, Agrees covers fits [.ofLiteral text] (isLiteral v text = true)
  dataType : ∀ name kinds, DataType.kinds? name = some kinds →
    Agrees covers fits [.dataType name kinds] (DataType.accepts name m.forbidden v = true)
  function : ∀ name kind, functionKind? name = some kind →
    Agrees covers fits [.function name.toLower kind] (isFunction v name = true)
  comma : Agrees covers fits [.delimiter ','] (v = .leaf (.delimiter ','))

/-- What agreement at a node needs of the nodes below it. -/
structure ChildrenAgree (m : Matcher) (k : Nat) (valid : Progress → Prop)
    (take : Progress → Option Progress) (offers : Progress → Offers)
    (covers fits : Suggestion → Prop) (cs : List NodeId) : Prop where
  settled : m.ChildrenSettled k valid offers cs
  start_valid : ∀ {c S}, c ∈ cs → offers (.start c) = .ok S → valid (.start c)
  agrees : ∀ {p S}, valid p → p.node ∈ cs → offers p = .ok S → Agrees covers fits S (Takes take p)

theorem ChildrenAgree.mono {cs cs' : List NodeId}
    (h : m.ChildrenAgree k valid take offers covers fits cs) (hsub : cs' ⊆ cs) :
    m.ChildrenAgree k valid take offers covers fits cs' :=
  ⟨h.settled.mono hsub, fun hc => h.start_valid (hsub hc), fun hp hmem => h.agrees hp (hsub hmem)⟩

theorem ChildrenAgree.start {cs : List NodeId}
    (h : m.ChildrenAgree k valid take offers covers fits cs) {c : NodeId} (hc : c ∈ cs)
    (hoffers : offers (.start c) = .ok S) : Agrees covers fits S (Takes take (.start c)) :=
  h.agrees (h.start_valid hc hoffers) hc hoffers

/-! ## Children that have not begun -/

theorem agrees_headOffers {cs : List NodeId}
    (h : m.ChildrenAgree k valid take offers covers fits cs) {all : Bool}
    (hoffers : m.headOffers offers cs = .ok (S, all)) (index : Nat) :
    Agrees covers fits S (∃ r, m.beginSequence take k index cs = some r) := by
  induction cs generalizing S all index with
  | nil =>
    simp only [headOffers, Except.ok.injEq, Prod.mk.injEq] at hoffers
    obtain ⟨rfl, rfl⟩ := hoffers
    exact .nil (by simp [beginSequence])
  | cons c cs ih =>
    simp only [headOffers, bind_eq_ok_iff] at hoffers
    obtain ⟨first, hfirst, hoffers⟩ := hoffers
    have hnullable := h.settled.nullable_eq mem_cons_self hfirst
    have hagrees := h.start List.mem_cons_self hfirst
    cases hsat : m.isSatisfied (.start c) with
    | true =>
      simp only [hsat, if_true, bind_eq_ok_iff, pure_eq_ok_iff, Prod.mk.injEq] at hoffers
      obtain ⟨⟨others, all'⟩, hothers, rfl, rfl⟩ := hoffers
      have hrest := ih (h.mono (List.subset_cons_self c cs)) hothers (index + 1)
      apply (hagrees.append hrest).congr
      rw [beginSequence, ← hnullable, hsat]
      cases htake : take (.start c) <;> simp [Takes, htake]
    | false =>
      simp only [hsat, Bool.false_eq_true, if_false, pure_eq_ok_iff, Prod.mk.injEq] at hoffers
      obtain ⟨rfl, rfl⟩ := hoffers
      apply hagrees.congr
      rw [beginSequence, ← hnullable, hsat]
      cases htake : take (.start c) <;> simp [Takes, htake]

theorem agrees_restOffers {unordered : Bool} {begun : List (Option Progress)} {cs : List NodeId}
    (h : m.ChildrenAgree k valid take offers covers fits cs) {all : Bool}
    (hoffers : m.restOffers offers unordered begun cs = .ok (S, all)) :
    Agrees covers fits S (∃ c ∈ unbegun begun cs, Takes take (.start c)) := by
  induction begun generalizing cs S all with
  | nil =>
    simp only [restOffers, Except.ok.injEq, Prod.mk.injEq] at hoffers
    obtain ⟨rfl, rfl⟩ := hoffers
    exact .nil (by simp [unbegun])
  | cons first begun ih =>
    cases cs with
    | nil =>
      have hnil : unbegun (first :: begun) [] = [] := by cases first <;> rfl
      rw [hnil]
      cases first <;> simp only [restOffers, Except.ok.injEq, Prod.mk.injEq] at hoffers <;>
        (obtain ⟨rfl, rfl⟩ := hoffers; exact .nil (by simp))
    | cons c cs =>
      have hrest := h.mono (List.subset_cons_self c cs)
      cases first with
      | some state => exact ih hrest hoffers
      | none =>
        simp only [restOffers, bind_eq_ok_iff, pure_eq_ok_iff, Prod.mk.injEq] at hoffers
        obtain ⟨first, hfirst, ⟨others, all'⟩, hothers, rfl, rfl⟩ := hoffers
        have hagrees := ih hrest hothers
        apply ((h.start List.mem_cons_self hfirst).append hagrees).congr
        simp [unbegun]

theorem agrees_mapM {cs : List NodeId} (h : m.ChildrenAgree k valid take offers covers fits cs)
    {offered : List (List Suggestion)}
    (hoffers : cs.mapM (fun c => offers (.start c)) = .ok offered) :
    Agrees covers fits offered.flatten (∃ c ∈ cs, Takes take (.start c)) := by
  induction cs generalizing offered with
  | nil =>
    simp only [List.mapM_nil, pure_eq_ok_iff] at hoffers
    subst hoffers
    exact .nil (by simp)
  | cons c cs ih =>
    simp only [List.mapM_cons, bind_eq_ok_iff, pure_eq_ok_iff] at hoffers
    obtain ⟨first, hfirst, others, hothers, rfl⟩ := hoffers
    have hrest := ih (h.mono (List.subset_cons_self c cs)) hothers
    exact ((h.start List.mem_cons_self hfirst).append hrest).congr (by simp)

theorem exists_beginChoice_iff (index : Nat) {cs : List NodeId} :
    (∃ r, beginChoice take index cs = some r) ↔ ∃ c ∈ cs, Takes take (.start c) := by
  rw [← Option.ne_none_iff_exists', Ne, beginChoice_eq_none_iff]
  simp only [not_forall, Takes, ← Option.ne_none_iff_exists', exists_prop, Ne]

theorem exists_beginGroup_iff {begun : List (Option Progress)} {cs : List NodeId} :
    (∃ r, beginGroup take [] begun cs = some r) ↔
      ∃ c ∈ unbegun begun cs, Takes take (.start c) := by
  rw [← Option.ne_none_iff_exists', Ne, beginGroup_eq_none_iff]
  simp only [not_forall, Takes, ← Option.ne_none_iff_exists', exists_prop, Ne]

theorem exists_beginAnyGroup_iff {cs : List NodeId} :
    (∃ r, beginGroup take [] (cs.map fun _ => none) cs = some r) ↔
      ∃ c ∈ cs, Takes take (.start c) := by
  rw [exists_beginGroup_iff, unbegun_map_none]

/-! ## Repetitions -/

theorem agrees_dataType (hleaves : m.LeavesAgree v covers fits) (name : String) :
    Agrees covers fits ((DataType.kinds? name).toList.map (.dataType name))
      (DataType.accepts name m.forbidden v = true) := by
  cases hkinds : DataType.kinds? name with
  | none => exact .nil (by simp [DataType.accepts, hkinds])
  | some kinds => exact hleaves.dataType name kinds hkinds

/-- What a composite data type that is suggested whole says about a value. -/
def CompositeAgrees (v : Form V) (covers fits : Suggestion → Prop) (name : String) : Prop :=
  ∀ kinds, DataType.compositeKinds? name = some kinds →
    covers (.dataType name kinds) ∧ (fits (.dataType name kinds) → isComposite v name = true)

/-- What may begin a repetition.  A composite data type is suggested whole. -/
theorem agrees_freshOffers (hleaves : m.LeavesAgree v covers fits) {id : NodeId}
    (h : m.ChildrenAgree k valid take offers covers fits (m.below id))
    (hcomposite : ∀ name target, m.kind id = .reference name target →
      CompositeAgrees v covers fits name)
    (hoffers : m.freshOffers offers id = .ok S) :
    Agrees covers fits S (∃ r, m.beginRepeat v take k id = some r) := by
  unfold freshOffers at hoffers
  unfold beginRepeat
  cases hkind : m.kind id with
  | literal text =>
    simp only [hkind, Except.ok.injEq] at hoffers ⊢
    subst hoffers
    exact (hleaves.literal text).congr (by simp)
  | dataType name =>
    simp only [hkind, Except.ok.injEq] at hoffers ⊢
    subst hoffers
    exact (agrees_dataType hleaves name).congr (by simp)
  | function name cs =>
    simp only [hkind] at hoffers ⊢
    cases hfunction : functionKind? name with
    | none => simp [hfunction] at hoffers
    | some kind =>
      simp only [hfunction, Except.ok.injEq] at hoffers
      subst hoffers
      exact (hleaves.function name kind hfunction).congr (by simp)
  | placeholder => simp [hkind] at hoffers
  | reference name target =>
    simp only [hkind] at hoffers ⊢
    split at hoffers
    next => cases hoffers
    next =>
      cases hkinds : DataType.compositeKinds? name with
      | some kinds =>
        simp only [hkinds, Except.ok.injEq] at hoffers
        subst hoffers
        obtain ⟨hcovers, hfits⟩ := hcomposite name target hkind kinds hkinds
        exact .singleton (fun _ => hcovers) fun hs => ⟨none, by rw [if_pos (hfits hs)]⟩
      | none =>
        simp only [hkinds] at hoffers
        have hwhole : isComposite v name = false := by simp [isComposite, hkinds]
        simp only [hwhole, Bool.false_eq_true, if_false]
        exact (h.start (by simp [below, hkind]) hoffers).congr (by simp [Takes])
  | sequence cs =>
    rw [below_eq_children (.inl hkind)] at h
    simp only [hkind, map_eq_ok_iff] at hoffers
    obtain ⟨⟨offered, all⟩, hhead, rfl⟩ := hoffers
    exact (agrees_headOffers h hhead 0).congr (by simp)
  | alternation cs =>
    rw [below_eq_children (.inr (.inl hkind))] at h
    simp only [hkind, map_eq_ok_iff] at hoffers
    obtain ⟨offered, hoffered, rfl⟩ := hoffers
    exact (agrees_mapM h hoffered).congr (by simp [← exists_beginChoice_iff 0])
  | unordered cs =>
    rw [below_eq_children (.inr (.inr (.inl hkind)))] at h
    simp only [hkind, map_eq_ok_iff] at hoffers
    obtain ⟨offered, hoffered, rfl⟩ := hoffers
    apply (agrees_mapM h hoffered).congr
    simp [← exists_beginAnyGroup_iff]
  | subset cs =>
    rw [below_eq_children (.inr (.inr (.inr hkind)))] at h
    simp only [hkind, map_eq_ok_iff] at hoffers
    obtain ⟨offered, hoffered, rfl⟩ := hoffers
    apply (agrees_mapM h hoffered).congr
    simp [← exists_beginAnyGroup_iff]

/-- What may continue a repetition. -/
theorem agrees_repeatOffers {id : NodeId} {r : Repeat} (hvalid : m.RepeatValid k valid id r)
    (h : m.ChildrenAgree k valid take offers covers fits (m.below id)) {complete : Bool}
    (hoffers : m.repeatOffers offers id r = .ok (S, complete)) :
    Agrees covers fits S (∃ r', m.continueRepeat take k id r = some r') := by
  replace hvalid := hvalid.below
  cases r with
  | sequence index child =>
    obtain ⟨cs, hkind, -, hchild, hmem⟩ := hvalid
    have hcs := children_of_kind (.inl hkind)
    simp only [repeatOffers, bind_eq_ok_iff] at hoffers
    obtain ⟨inside, hinside, hoffers⟩ := hoffers
    have hagrees := h.agrees hchild hmem hinside
    have hend := h.settled.satisfied_eq hchild hmem hinside
    cases hsat : m.isSatisfied child with
    | true =>
      simp only [hsat, if_true, bind_eq_ok_iff, pure_eq_ok_iff, Prod.mk.injEq] at hoffers
      obtain ⟨⟨behind, all⟩, hbehind, rfl, rfl⟩ := hoffers
      have hdrop : (m.children id).drop (index + 1) ⊆ m.below id := by
        rw [hcs, below_eq_children (.inl hkind)]
        exact List.drop_subset _ _
      have hrest := agrees_headOffers (h.mono hdrop) hbehind (index + 1)
      apply (hagrees.append hrest).congr
      rw [continueRepeat, ← hend, hsat]
      cases htake : take child <;> simp [Takes, htake]
    | false =>
      simp only [hsat, Bool.false_eq_true, if_false, pure_eq_ok_iff, Prod.mk.injEq] at hoffers
      obtain ⟨rfl, rfl⟩ := hoffers
      apply hagrees.congr
      rw [continueRepeat, ← hend, hsat]
      cases htake : take child <;> simp [Takes, htake]
  | choice index child =>
    obtain ⟨cs, -, -, hchild, hmem⟩ := hvalid
    simp only [repeatOffers, bind_eq_ok_iff, pure_eq_ok_iff, Prod.mk.injEq] at hoffers
    obtain ⟨inside, hinside, rfl, rfl⟩ := hoffers
    apply (h.agrees hchild hmem hinside).congr
    simp [continueRepeat, Takes]
  | group begun active =>
    obtain ⟨cs, hkind, hgroup⟩ := hvalid
    obtain ⟨state, hactive⟩ := hgroup.active_begun
    obtain ⟨hchild, hmem⟩ := hgroup.valid hactive
    have hcs := children_of_kind (.inr (.inr hkind))
    simp only [repeatOffers, hactive, bind_eq_ok_iff] at hoffers
    obtain ⟨inside, hinside, hoffers⟩ := hoffers
    have hagrees := h.agrees hchild hmem hinside
    have hend := h.settled.satisfied_eq hchild hmem hinside
    cases hsat : m.isSatisfied state with
    | true =>
      simp only [hsat, if_true, bind_eq_ok_iff, pure_eq_ok_iff, Prod.mk.injEq, hcs] at hoffers
      obtain ⟨⟨behind, all⟩, hbehind, rfl, rfl⟩ := hoffers
      rw [below_eq_children (.inr (.inr hkind))] at h
      have hrest := agrees_restOffers h hbehind
      apply (hagrees.append hrest).congr
      rw [← exists_beginGroup_iff]
      simp only [continueRepeat, hactive, hcs, ← hend, hsat, if_true]
      cases htake : take state <;> simp [Takes, htake]
    | false =>
      simp only [hsat, Bool.false_eq_true, if_false, pure_eq_ok_iff, Prod.mk.injEq] at hoffers
      obtain ⟨rfl, rfl⟩ := hoffers
      apply hagrees.congr
      simp only [continueRepeat, hactive, ← hend, hsat]
      cases htake : take state <;> simp [Takes, htake]
  | reference target =>
    obtain ⟨name, -, hchild, hmem⟩ := hvalid
    simp only [repeatOffers, bind_eq_ok_iff, pure_eq_ok_iff, Prod.mk.injEq] at hoffers
    obtain ⟨inside, hinside, rfl, rfl⟩ := hoffers
    apply (h.agrees hchild hmem hinside).congr
    simp [continueRepeat, Takes]

theorem exists_takeFresh_iff {count : Nat} {id : NodeId} {separated : Bool} :
    (∃ p, m.takeFresh v take k id count separated = some p) ↔
      (m.quantifier id).allows count = true ∧
        ((∃ c, (m.quantifier id).separator? = some c ∧ 0 < count ∧ separated = false ∧
            v = .leaf (.delimiter c)) ∨
          ((m.quantifier id).separator? = none ∨ count = 0 ∨ separated = true) ∧
            ∃ r, m.beginRepeat v take k id = some r) := by
  constructor
  · rintro ⟨p, h⟩
    obtain ⟨hallows, ⟨c, hsep, hpos, hseparated, hv, -⟩ | ⟨hsep, ⟨r, hbegin, -⟩ | ⟨hbegin, -⟩⟩⟩ :=
      takeFresh_eq_some_iff.mp h
    · exact ⟨hallows, .inl ⟨c, hsep, hpos, hseparated, hv⟩⟩
    · exact ⟨hallows, .inr ⟨hsep, some r, hbegin⟩⟩
    · exact ⟨hallows, .inr ⟨hsep, none, hbegin⟩⟩
  · rintro ⟨hallows, ⟨c, hsep, hpos, hseparated, hv⟩ | ⟨hsep, r, hbegin⟩⟩
    · exact ⟨_, takeFresh_eq_some_iff.mpr ⟨hallows, .inl ⟨c, hsep, hpos, hseparated, hv, rfl⟩⟩⟩
    · cases r with
      | some r => exact ⟨_, takeFresh_eq_some_iff.mpr ⟨hallows, .inr ⟨hsep, .inl ⟨r, hbegin, rfl⟩⟩⟩⟩
      | none => exact ⟨_, takeFresh_eq_some_iff.mpr ⟨hallows, .inr ⟨hsep, .inr ⟨hbegin, rfl⟩⟩⟩⟩

theorem agrees_repetitionOffers (hleaves : m.LeavesAgree v covers fits) {id : NodeId}
    (hproper : (m.quantifier id).Proper)
    (h : m.ChildrenAgree k valid take offers covers fits (m.below id))
    (hcomposite : ∀ name target, m.kind id = .reference name target →
      CompositeAgrees v covers fits name) {levels count : Nat} {separated : Bool}
    (hoffers : m.repetitionOffers offers levels id count separated = .ok S) :
    Agrees covers fits S (∃ p, m.takeFresh v take k id count separated = some p) := by
  refine Agrees.congr ?_ exists_takeFresh_iff.symm
  unfold repetitionOffers at hoffers
  cases hallows : (m.quantifier id).allows count with
  | false =>
    simp only [hallows, Bool.not_false, if_true, Except.ok.injEq] at hoffers
    subst hoffers
    exact .nil (by simp)
  | true =>
    simp only [hallows, Bool.not_true, Bool.false_eq_true, if_false] at hoffers
    split at hoffers
    next c hsep hbehind =>
      obtain rfl : c = ',' := by
        rcases hproper.separator with hnone | hcomma
        · rw [hnone] at hsep
          cases hsep
        · rw [hcomma] at hsep
          exact (Option.some.inj hsep).symm
      simp only [Except.ok.injEq] at hoffers
      subst hoffers
      simp only [Bool.and_eq_true, decide_eq_true_eq, Bool.not_eq_true'] at hbehind
      apply hleaves.comma.congr
      simp [hsep, hbehind.1, hbehind.2, Nat.ne_of_gt hbehind.1]
    next hother =>
      have hopen : (m.quantifier id).separator? = none ∨ count = 0 ∨ separated = true := by
        cases hsep : (m.quantifier id).separator? with
        | none => exact .inl rfl
        | some c =>
          cases separated with
          | true => exact .inr (.inr rfl)
          | false => simpa using hother c hsep
      split at hoffers
      next => cases hoffers
      next =>
        apply (agrees_freshOffers hleaves h hcomposite hoffers).congr
        simp only [true_and]
        constructor
        · intro hbegin
          exact .inr ⟨hopen, hbegin⟩
        · rintro (⟨c, hsep, hpos, hseparated, -⟩ | ⟨-, hbegin⟩)
          · rcases hopen with hnone | hzero | hseparated'
            · rw [hnone] at hsep
              cases hsep
            · exact absurd hpos (by omega)
            · rw [hseparated] at hseparated'
              cases hseparated'
          · exact hbegin

/-! ## Matches -/

/-- Nodes, with the levels left for them, where suggestions and matching see the same ends. -/
structure Settled (m : Matcher) (enough : Nat → NodeId → Prop) : Prop where
  below : ∀ {k id c}, enough (k + 1) id → c ∈ m.below id → enough (k - 1) c
  satisfied_eq : ∀ {k p S}, enough k p.node → m.ValidWithin k p → m.offersWithin k p = .ok S →
    m.isSatisfied p = m.satisfied k p
  nullable_eq : ∀ {k c S}, k < fullDepth → enough k c → m.offersWithin k (.start c) = .ok S →
    m.isSatisfied (.start c) = m.nullable k c

/-- Suggestions and matching agree on a value at every match, whatever levels are left for it, if
they agree on it at the leaves. -/
theorem agrees_offersWithin (hproper : ∀ id, (m.quantifier id).Proper)
    (hleaves : m.LeavesAgree v covers fits) {enough : Nat → NodeId → Prop}
    (hsettled : m.Settled enough)
    (hcomposite : ∀ {k id}, enough k id → ∀ name target, m.kind id = .reference name target →
      CompositeAgrees v covers fits name)
    {levels : Nat} {p : Progress} (henough : enough levels p.node) (hfull : levels ≤ fullDepth)
    (hvalid : m.ValidWithin levels p) (hoffers : m.offersWithin levels p = .ok S) :
    Agrees covers fits S (Takes (m.takeWithin v levels) p) := by
  induction levels using Nat.strongRecOn generalizing p S with
  | ind levels ih =>
    obtain ⟨k, rfl⟩ : ∃ k, levels = k + 1 :=
      Nat.exists_eq_add_one_of_ne_zero fun hzero => by simp [hzero, ValidWithin] at hvalid
    have hchildren : m.ChildrenAgree (k - 1) (m.ValidWithin (k - 1)) (m.takeWithin v (k - 1))
        (m.offersWithin (k - 1)) covers fits (m.below p.node) := by
      refine ⟨⟨fun hp hmem hoffers => ?_, fun hc hoffers => ?_⟩, fun {c S} hc hoffers => ?_,
        fun hp hmem hoffers => ?_⟩
      · exact hsettled.satisfied_eq (hsettled.below henough hmem) hp hoffers
      · exact hsettled.nullable_eq (by omega) (hsettled.below henough hc) hoffers
      · refine validWithin_start (Nat.pos_of_ne_zero fun hzero => ?_)
        rw [hzero] at hoffers
        cases hoffers
      · exact ih (k - 1) (by omega) (hsettled.below henough hmem) (by omega) hp hoffers
    rw [offersWithin_succ] at hoffers
    replace hvalid := validWithin_succ.mp hvalid
    unfold Takes
    rw [takeWithin_succ]
    obtain ⟨id, count, phase⟩ := p
    have hfresh {count : Nat} {separated : Bool} {S : List Suggestion}
        (hoffers : m.repetitionOffers (m.offersWithin (k - 1)) k id count separated = .ok S) :=
      agrees_repetitionOffers hleaves (hproper id) hchildren (hcomposite henough) hoffers
    rw [offersWith_eq] at hoffers
    cases phase with
    | between => exact hfresh hoffers
    | separated => exact hfresh hoffers
    | within r =>
      obtain ⟨-, -, hrepeat⟩ := hvalid
      simp only [bind_eq_ok_iff] at hoffers
      obtain ⟨⟨inside, complete⟩, hinside, hoffers⟩ := hoffers
      have hagrees := agrees_repeatOffers hrepeat hchildren hinside
      obtain rfl := complete_repeatOffers hrepeat hchildren.settled hinside
      obtain ⟨j, rfl, -⟩ := hrepeat.exists_pred
      simp only [takeWith]
      cases hsat : m.repeatSatisfied (j + 1) id r with
      | true =>
        simp only [Nat.add_one_sub_one] at hoffers
        simp only [hsat, if_true, bind_eq_ok_iff, pure_eq_ok_iff] at hoffers
        obtain ⟨behind, hbehind, rfl⟩ := hoffers
        apply (hagrees.append (hfresh hbehind)).congr
        cases hcontinue : m.continueRepeat (m.takeWithin v (j + 1 - 1)) (j + 1 - 1) id r <;> simp
      | false =>
        simp only [Nat.add_one_sub_one] at hoffers
        simp only [hsat, Bool.false_eq_true, if_false, pure_eq_ok_iff] at hoffers
        subst hoffers
        apply hagrees.congr
        cases hcontinue : m.continueRepeat (m.takeWithin v (j + 1 - 1)) (j + 1 - 1) id r <;> simp

/-! ## Coverage -/

/-- A suggestion covers the values that a leaf takes. -/
theorem leavesAgree_covers (hv : ∀ c, v = .leaf (.delimiter c) → IsDelimiter c) :
    m.LeavesAgree v (fun s => s.covers m.forbidden v = true) (fun s => s.Fits m.forbidden v) where
  literal text := by
    have hcovers : (Suggestion.ofLiteral text).covers m.forbidden v = isLiteral v text :=
      covers_ofLiteral hv text
    exact .singleton hcovers.trans fun hs => hcovers.symm.trans hs.1
  dataType name kinds _ := .singleton id And.left
  function name kind _ := by
    have hcovers : (Suggestion.function name.toLower kind).covers m.forbidden v =
        isFunction v name := isFunction_toLower name
    exact .singleton hcovers.trans fun hs => hcovers.symm.trans hs.1
  comma := by
    refine .singleton ?_ fun hs => eq_comma_of_isLiteral hs.1 fun hi => hs.2 ⟨rfl, hi⟩
    rintro rfl
    simp [Suggestion.covers, isLiteral]

/-- The levels that suffice for the nodes of a grammar of a small height. -/
def HeightEnough (m : Matcher) (root : NodeId) (levels : Nat) (id : NodeId) : Prop :=
  ∃ n, m.HeightAtMost n id ∧ 2 * n + 2 ≤ levels ∧ levels ≤ fullDepth ∧ m.Reaches root id

theorem settled_heightEnough (root : NodeId) : m.Settled (m.HeightEnough root) where
  below := by
    rintro k id c ⟨n, hheight, hlevels, hfull, hreach⟩ hc
    obtain ⟨j, rfl, hj⟩ := hheight.child hc
    exact ⟨j, hj, by omega, by omega, hreach.step hc⟩
  satisfied_eq := by
    rintro k p S ⟨n, hheight, hlevels, hfull, -⟩ hvalid -
    exact isSatisfied_eq hvalid hheight hlevels hfull
  nullable_eq := by
    rintro k c S - ⟨n, hheight, hlevels, hfull, -⟩ -
    exact isSatisfied_start_eq hheight hlevels hfull

theorem compositeKinds?_eq_none {name : String} (hposition : name ≠ "position")
    (hratio : name ≠ "ratio") : DataType.compositeKinds? name = none := by
  unfold DataType.compositeKinds?
  split
  next => exact absurd rfl hposition
  next => exact absurd rfl hratio
  next => rfl

/-- In every match that values lead to, a value that can be read is taken if a suggestion fits it,
and only if a suggestion covers it. -/
theorem agrees_suggestions (hbuilt : m.arena.Built) {root : NodeId}
    (hheight : m.HeightAtMost 60 root)
    (hplain : ∀ id, m.Reaches root id → ∀ name target, m.kind id = .reference name target →
      name ≠ "position" ∧ name ≠ "ratio")
    {p : Progress} (hreach : m.Reachable root p) {S : List Suggestion}
    (hsuggestions : m.suggestions p = .ok S) {text : String} {vs : List Value}
    (hread : Value.listOfText text = .ok vs) {v : Value} (hv : v ∈ vs) :
    ((m.take p v).next?.isSome → ∃ s ∈ S, s.covers m.forbidden v = true) ∧
      ∀ s ∈ S, s.covers m.forbidden v = true → ¬ (s = .delimiter ',' ∧ v.ident? = some ",") →
        (m.take p v).next?.isSome := by
  obtain ⟨hvalid, rfl⟩ := hreach.validWithin
  obtain ⟨offered, hoffers, rfl⟩ := map_eq_ok_iff.mp hsuggestions
  have hleaves := m.leavesAgree_covers fun c hc => Value.isDelimiter_of_listOfText hread hv hc
  have henough : m.HeightEnough p.node fullDepth p.node :=
    ⟨60, hheight, by decide, by decide, .root⟩
  have hagrees := agrees_offersWithin (fun id => hbuilt.allProper id) hleaves
    (settled_heightEnough p.node)
    (fun {k id} henough name target hkind kinds hkinds => by
      obtain ⟨-, -, -, -, hid⟩ := henough
      obtain ⟨hposition, hratio⟩ := hplain id hid name target hkind
      rw [compositeKinds?_eq_none hposition hratio] at hkinds
      cases hkinds)
    henough (Nat.le_refl _) hvalid hoffers
  simp only [next?_take, List.mem_eraseDups]
  rw [Option.isSome_iff_exists]
  exact ⟨hagrees.covered, fun s hs hcovers hfits => hagrees.taken s hs ⟨hcovers, hfits⟩⟩

/-- A list of one keyword. -/
def listed : Matcher := ⟨(Arena.empty.define "a#").2, []⟩

theorem listed_built : listed.arena.Built := by
  dsimp only [listed]
  exact .define _ .empty

/-- One item of the list. -/
def oneListed : Progress := .mk 0 1 .between

/-- The list is a leaf, its keyword is taken, and then its comma is suggested. -/
theorem listed_leaf : listed.below 0 = [] ∧ listed.kind 0 = .literal "a" ∧
    (listed.quantifier 0).allows 0 = true ∧
    listed.takesWhole (V := Nested (Reader.nestingLimit - 1)) 0 (.leaf (.keyword ⟨"a"⟩)) = true ∧
    listed.suggestions oneListed = .ok [.delimiter ','] := by
  decide +kernel

theorem listed_heightAtMost : listed.HeightAtMost 60 0 := by
  intro c hc
  rw [listed_leaf.1] at hc
  cases hc

theorem listed_reference (id : NodeId) (hid : listed.Reaches 0 id) (name : String)
    (target : NodeId) (hkind : listed.kind id = .reference name target) :
    name ≠ "position" ∧ name ≠ "ratio" := by
  rw [hid.eq_root listed_leaf.1, listed_leaf.2.1] at hkind
  cases hkind

theorem reachable_oneListed : listed.Reachable 0 oneListed := by
  obtain ⟨-, -, hallows, hwhole, -⟩ := listed_leaf
  refine .take .start (.leaf (.keyword ⟨"a"⟩)) ?_
  rw [next?_take, fullDepth, takeWithin_succ]
  change listed.takeFresh _ _ _ 0 0 false = _
  exact takeFresh_eq_some_iff.mpr
    ⟨hallows, .inr ⟨.inr (.inl rfl), .inr ⟨beginRepeat_eq_whole_iff.mpr hwhole, rfl⟩⟩⟩

theorem suggestions_oneListed : listed.suggestions oneListed = .ok [.delimiter ','] :=
  listed_leaf.2.2.2.2

/-- Behind one item of the list, its comma is taken. -/
theorem comma_taken : ∃ v : Value, v.isComma = true ∧ (listed.take oneListed v).next?.isSome := by
  have hread : (Value.listOfText ",").toOption.any (fun vs => vs.any Form.isComma) = true := by
    decide +kernel
  generalize hvs : Value.listOfText "," = result at hread
  cases result with
  | error e => cases hread
  | ok vs =>
    obtain ⟨v, hv, hcomma⟩ := List.any_eq_true.mp hread
    have hagrees := agrees_suggestions listed_built listed_heightAtMost listed_reference
      reachable_oneListed suggestions_oneListed hvs hv
    refine ⟨v, hcomma, hagrees.2 (.delimiter ',') (List.mem_singleton_self _) ?_ ?_⟩
    · obtain rfl := Form.eq_of_leaf?_eq_some (of_decide_eq_true hcomma)
      decide
    · obtain rfl := Form.eq_of_leaf?_eq_some (of_decide_eq_true hcomma)
      rintro ⟨-, hident⟩
      cases hident

/-- Behind one item of the list, an identifier that is written as an escaped comma is covered by the
suggestion of a comma, and rejected. -/
theorem covered_and_rejected :
    listed.arena.Built ∧ listed.HeightAtMost 60 0 ∧
      (∀ id, listed.Reaches 0 id → ∀ name target, listed.kind id = .reference name target →
        name ≠ "position" ∧ name ≠ "ratio") ∧
      listed.Reachable 0 oneListed ∧ listed.suggestions oneListed = .ok [.delimiter ','] ∧
      ∃ vs : List Value, Value.listOfText "\\," = .ok vs ∧ ∃ v ∈ vs,
        (Suggestion.delimiter ',').covers listed.forbidden v = true ∧
          (listed.take oneListed v).next?.isNone := by
  refine ⟨listed_built, listed_heightAtMost, listed_reference, reachable_oneListed,
    suggestions_oneListed, ?_⟩
  have hword : Leaf.ofToken (.ident ",") = .ok (.keyword ⟨","⟩) :=
    Leaf.ofToken_word (by decide) (PlainColor.ofName?_of_not_lettered (by decide))
  have hread : Value.listOfText "\\," = .ok [.leaf (.keyword ⟨","⟩)] :=
    Value.listOfText_leaves (by decide +kernel) (.cons hword .nil)
  exact ⟨_, hread, _, List.mem_singleton_self _, by decide +kernel, by decide +kernel⟩

end Matcher

end StyleGrammar

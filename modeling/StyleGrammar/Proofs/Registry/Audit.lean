import StyleGrammar.Proofs.Definition.Integrity
import StyleGrammar.Proofs.Registry.Build
import StyleGrammar.Proofs.Suggestion.Closed
import Mathlib.Algebra.BigOperators.Group.Finset.Basic

/-!
# Clean audits

An audit asks for suggestions at the start of every node that its walk finds, and
nowhere else.  That is enough: the walk is complete (`successors_subset_reachable`),
a match stands at nodes of the walk only, and something unknown is met either at
such a node itself or at one below it (`known_offersWithin`).
-/

namespace StyleGrammar

open List

namespace Matcher

variable {m : Matcher} {offers : Progress → Offers} {id : NodeId}

/-! ## Nothing unknown -/

/-- No data type or function was met that nothing defines. -/
def Known {α : Type} (x : Except SuggestionFault α) : Prop :=
  ∀ type raw, x ≠ .error (.unknownDataType type raw)

theorem known_ok {α : Type} (a : α) : Known (.ok a) := fun _ _ h => by cases h

theorem known_tooDeep : Known (m.tooDeep id) := fun _ _ h => by cases h

theorem Known.bind {α β : Type} {x : Except SuggestionFault α} {f : α → Except SuggestionFault β}
    (hx : Known x) (hf : ∀ a, Known (f a)) : Known (x >>= f) := by
  cases x with
  | ok a => exact hf a
  | error fault =>
    intro type raw h
    cases h
    exact hx type raw rfl

theorem Known.map {α β : Type} {x : Except SuggestionFault α} (hx : Known x) (f : α → β) :
    Known (f <$> x) := by
  cases x with
  | ok a => exact known_ok (f a)
  | error fault =>
    intro type raw h
    cases h
    exact hx type raw rfl

theorem known_headOffers {cs : List NodeId} (hcs : ∀ c ∈ cs, Known (offers (.start c))) :
    Known (m.headOffers offers cs) := by
  induction cs with
  | nil => exact known_ok _
  | cons c cs ih =>
    have hrest := ih fun c hc => hcs c (mem_cons_of_mem _ hc)
    refine (hcs c mem_cons_self).bind fun first => ?_
    split
    · exact hrest.bind fun _ => known_ok _
    · exact known_ok _

theorem known_restOffers {unordered : Bool} {begun : List (Option Progress)} {cs : List NodeId}
    (hcs : ∀ c ∈ cs, Known (offers (.start c))) :
    Known (m.restOffers offers unordered begun cs) := by
  induction begun generalizing cs with
  | nil => exact known_ok _
  | cons state? begun ih =>
    cases cs with
    | nil => cases state? <;> exact known_ok _
    | cons c cs =>
      have hrest := ih fun c hc => hcs c (mem_cons_of_mem _ hc)
      cases state? with
      | none => exact (hcs c mem_cons_self).bind fun _ => hrest.bind fun _ => known_ok _
      | some state => exact hrest

theorem known_mapM {cs : List NodeId} (hcs : ∀ c ∈ cs, Known (offers (.start c))) :
    Known (cs.mapM fun c => offers (.start c)) := by
  induction cs with
  | nil => exact known_ok _
  | cons c cs ih =>
    rw [mapM_cons]
    have hrest := ih fun c hc => hcs c (mem_cons_of_mem _ hc)
    exact (hcs c mem_cons_self).bind fun _ => hrest.bind fun _ => known_ok _

/-- Whether it is defined what a node stands for. -/
def Defined (m : Matcher) (id : NodeId) : Prop :=
  match m.kind id with
  | .function name _ => (functionKind? name).isSome
  | .reference _ target => m.arena.isFilled target = true
  | .placeholder => False
  | _ => True

theorem known_freshOffers (hdefined : m.Defined id)
    (hbelow : ∀ c ∈ m.below id, Known (offers (.start c))) : Known (m.freshOffers offers id) := by
  unfold freshOffers
  unfold Defined at hdefined
  unfold below at hbelow
  cases hkind : m.kind id with
  | literal text => exact known_ok _
  | dataType name => exact known_ok _
  | function name cs =>
    rw [hkind] at hdefined
    obtain ⟨kind, hname⟩ := Option.isSome_iff_exists.mp hdefined
    simp only [hname]
    exact known_ok _
  | placeholder =>
    rw [hkind] at hdefined
    exact hdefined.elim
  | reference name target =>
    rw [hkind] at hdefined hbelow
    simp only [hdefined, Bool.not_true, if_neg Bool.false_ne_true]
    split
    · exact known_ok _
    · exact hbelow target mem_cons_self
  | sequence cs =>
    rw [hkind] at hbelow
    exact (known_headOffers hbelow).map _
  | alternation cs | unordered cs | subset cs =>
    rw [hkind] at hbelow
    exact (known_mapM hbelow).map _

theorem known_repetitionOffers {levels count : Nat} {separated : Bool}
    (hfresh : (m.quantifier id).allows count = true → Known (m.freshOffers offers id)) :
    Known (m.repetitionOffers offers levels id count separated) := by
  unfold repetitionOffers
  cases hallows : (m.quantifier id).allows count with
  | false => exact known_ok _
  | true =>
    rw [Bool.not_true, if_neg Bool.false_ne_true]
    split
    · exact known_ok _
    · split
      · exact known_tooDeep
      · exact hfresh hallows

theorem known_repeatOffers {j : Nat} {valid : Progress → Prop} {r : Repeat}
    (hvalid : m.RepeatValid j valid id r)
    (hchild : ∀ p, valid p → p.node ∈ m.below id → Known (offers p))
    (hstart : ∀ c ∈ m.below id, Known (offers (.start c))) :
    Known (m.repeatOffers offers id r) := by
  replace hvalid := hvalid.below
  cases r with
  | sequence index child =>
    obtain ⟨cs, hkind, -, hchildValid, hmem⟩ := hvalid
    rw [below_eq_children (.inl hkind), ← children_of_kind (.inl hkind)] at hstart
    refine (hchild child hchildValid hmem).bind fun inside => ?_
    split
    · exact (known_headOffers fun c hc => hstart c (mem_of_mem_drop hc)).bind fun _ => known_ok _
    · exact known_ok _
  | choice index child =>
    obtain ⟨cs, -, -, hchildValid, hmem⟩ := hvalid
    exact (hchild child hchildValid hmem).bind fun _ => known_ok _
  | group begun active =>
    obtain ⟨cs, hkind, hgroup⟩ := hvalid
    obtain ⟨state, hactive⟩ := hgroup.active_begun
    obtain ⟨hstate, hmem⟩ := hgroup.valid hactive
    rw [below_eq_children (.inr (.inr hkind)), ← children_of_kind (.inr (.inr hkind))] at hstart
    simp only [repeatOffers, hactive]
    rw [below_eq_children (.inr (.inr hkind))] at hmem
    refine (hchild state hstate ?_).bind fun inside => ?_
    · rwa [below_eq_children (.inr (.inr hkind))]
    split
    · exact (known_restOffers hstart).bind fun _ => known_ok _
    · exact known_ok _
  | reference target =>
    obtain ⟨name, -, hchildValid, hmem⟩ := hvalid
    exact (hchild target hchildValid hmem).bind fun _ => known_ok _

theorem allows_zero {q : Quantifier} {count : Nat} (h : q.allows count = true) :
    q.allows 0 = true := by
  unfold Quantifier.allows at h ⊢
  split at h
  next => exact decide_eq_true (Nat.zero_lt_of_lt (of_decide_eq_true h))
  next => rfl

/-- The start of a node shows whether the node is defined, unless the node is never begun. -/
theorem defined_of_known (hallows : (m.quantifier id).allows 0 = true)
    (h : Known (m.suggestions (.start id))) : m.Defined id := by
  have hstart : m.offersWithin fullDepth (.start id) =
      m.freshOffers (m.offersWithin (nestingLimit - 1)) id := by
    rw [fullDepth, offersWithin_succ, Progress.start, offersWith_eq]
    dsimp only
    unfold repetitionOffers
    rw [hallows]
    have hlimit : nestingLimit ≠ 0 := by decide
    split <;> simp_all
  have hfresh : Known (m.freshOffers (m.offersWithin (nestingLimit - 1)) id) := by
    intro type raw hunknown
    apply h type raw
    rw [suggestions, hstart, hunknown]
    rfl
  unfold Defined
  unfold freshOffers at hfresh
  cases hkind : m.kind id with
  | function name cs =>
    simp only [hkind] at hfresh
    split at hfresh
    next hname => simp [hname]
    next => exact absurd rfl (hfresh _ _)
  | reference name target =>
    simp only [hkind] at hfresh
    split at hfresh
    next => exact absurd rfl (hfresh _ _)
    next hfilled => simpa using hfilled
  | placeholder =>
    simp only [hkind] at hfresh
    exact absurd rfl (hfresh _ _)
  | _ => trivial

/-- A match within nodes that are defined as far as they can be begun meets nothing unknown. -/
theorem known_offersWithin {within : NodeId → Prop}
    (hdefined : ∀ id, within id → (m.quantifier id).allows 0 = true → m.Defined id)
    (hclosed : ∀ id, within id → m.Defined id → ∀ c ∈ m.below id, within c)
    {k levels : Nat} {p : Progress} (hvalid : m.ValidWithin k p) (hp : within p.node) :
    Known (m.offersWithin levels p) := by
  induction levels using Nat.strongRecOn generalizing k p with
  | ind levels ih =>
    cases levels with
    | zero => exact known_tooDeep
    | succ l =>
      obtain ⟨j, rfl⟩ : ∃ j, k = j + 1 := by
        cases k with
        | zero => exact absurd hvalid id
        | succ j => exact ⟨j, rfl⟩
      replace hvalid := validWithin_succ.mp hvalid
      obtain ⟨id, count, phase⟩ := p
      -- What is begun once more is defined, and so what is below it can be asked.
      have hstart {count : Nat} (hallows : (m.quantifier id).allows count = true) :
          m.Defined id ∧ ∀ c ∈ m.below id, Known (m.offersWithin (l - 1) (.start c)) := by
        have hid := hdefined id hp (allows_zero hallows)
        exact ⟨hid, fun c hc => ih (l - 1) (by omega) (validWithin_start Nat.one_pos)
          (hclosed id hp hid c hc)⟩
      have hrepetition (count : Nat) (separated : Bool) :
          Known (m.repetitionOffers (m.offersWithin (l - 1)) l id count separated) :=
        known_repetitionOffers fun hallows =>
          known_freshOffers (hstart hallows).1 (hstart hallows).2
      rw [offersWithin_succ, offersWith_eq]
      cases phase with
      | between => exact hrepetition _ _
      | separated => exact hrepetition _ _
      | within r =>
        obtain ⟨hallows, -, hrepeat⟩ := hvalid
        obtain ⟨hid, hbelow⟩ := hstart hallows
        have hinside : Known (m.repeatOffers (m.offersWithin (l - 1)) id r) :=
          known_repeatOffers hrepeat
            (fun q hq hmem => ih (l - 1) (by omega) hq (hclosed id hp hid _ hmem)) hbelow
        refine hinside.bind fun (inside, complete) => ?_
        cases complete with
        | true => exact (hrepetition _ _).bind fun _ => known_ok _
        | false => exact known_ok _

end Matcher

namespace Registry

open Matcher

variable {r : Registry}

/-! ## The walk of an audit -/

/-- What a node costs the walk: it is taken off the stack, and puts its successors there. -/
def cost (r : Registry) (id : NodeId) : Nat := (r.arena.node id).children.length + 1

/-- What the nodes cost that were not seen. -/
def unseenCost (r : Registry) (seen : List NodeId) : Nat :=
  ∑ id ∈ (Finset.range r.arena.size).filter (· ∉ seen), r.cost id

theorem length_successors_le (id : NodeId) : (r.successors id).length ≤ r.cost id := by
  unfold successors cost Node.children
  split
  next => split <;> simp
  next => simp
  next => omega

theorem successors_of_size_le {id : NodeId} (h : r.arena.size ≤ id) : r.successors id = [] := by
  unfold successors
  rw [Arena.node_of_size_le h]
  rfl

/-- The successors of a node cost less than the node. -/
theorem unseenCost_cons {id : NodeId} {seen : List NodeId} (hseen : id ∉ seen) :
    r.unseenCost (id :: seen) + (r.successors id).length ≤ r.unseenCost seen := by
  by_cases hid : id < r.arena.size
  · have herase : (Finset.range r.arena.size).filter (· ∉ id :: seen) =
        ((Finset.range r.arena.size).filter (· ∉ seen)).erase id := by
      ext id'
      simp only [Finset.mem_filter, Finset.mem_erase, mem_cons, not_or]
      tauto
    have hmem : id ∈ (Finset.range r.arena.size).filter (· ∉ seen) := by simp [hid, hseen]
    have hsum := Finset.add_sum_erase _ r.cost hmem
    have hle := r.length_successors_le id
    unfold unseenCost
    rw [herase]
    omega
  · have hfilter : (Finset.range r.arena.size).filter (· ∉ id :: seen) =
        (Finset.range r.arena.size).filter (· ∉ seen) := by
      apply Finset.filter_congr
      intro id' hid'
      have hne : id' ≠ id := by
        rintro rfl
        exact hid (Finset.mem_range.mp hid')
      simp [hne]
    rw [unseenCost, hfilter, successors_of_size_le (Nat.le_of_not_lt hid)]
    exact Nat.le_refl _

/-- With enough steps, the walk goes on until nothing new is met. -/
theorem reachableWithin_closed {steps : Nat} {stack seen : List NodeId}
    (hsteps : stack.length + r.unseenCost seen ≤ steps)
    (hseen : ∀ id ∈ seen, ∀ c ∈ r.successors id, c ∈ seen ∨ c ∈ stack) :
    (∀ id ∈ stack, id ∈ seen ∨ id ∈ r.reachableWithin steps stack seen) ∧
      ∀ id, id ∈ seen ∨ id ∈ r.reachableWithin steps stack seen →
        ∀ c ∈ r.successors id, c ∈ seen ∨ c ∈ r.reachableWithin steps stack seen := by
  induction steps generalizing stack seen with
  | zero =>
    obtain rfl : stack = [] := length_eq_zero_iff.mp (by omega)
    simpa [reachableWithin] using hseen
  | succ n ih =>
    cases stack with
    | nil => simpa [reachableWithin] using hseen
    | cons id stack =>
      rw [length_cons] at hsteps
      rw [reachableWithin]
      by_cases hid : id ∈ seen
      · rw [if_pos (contains_iff_mem.mpr hid)]
        have hseen' (x : NodeId) (hx : x ∈ seen) (c : NodeId) (hc : c ∈ r.successors x) :
            c ∈ seen ∨ c ∈ stack := by
          rcases hseen x hx c hc with h | h
          · exact .inl h
          · rcases mem_cons.mp h with rfl | h
            · exact .inl hid
            · exact .inr h
        obtain ⟨hstack, hclosed⟩ := ih (by omega) hseen'
        refine ⟨fun x hx => ?_, hclosed⟩
        rcases mem_cons.mp hx with rfl | hx
        · exact .inl hid
        · exact hstack x hx
      · rw [if_neg (mt contains_iff_mem.mp hid)]
        have hcost := r.unseenCost_cons hid
        have hseen' (x : NodeId) (hx : x ∈ id :: seen) (c : NodeId) (hc : c ∈ r.successors x) :
            c ∈ id :: seen ∨ c ∈ r.successors id ++ stack := by
          rcases mem_cons.mp hx with rfl | hx
          · exact .inr (mem_append_left _ hc)
          · rcases hseen x hx c hc with h | h
            · exact .inl (mem_cons_of_mem _ h)
            · rcases mem_cons.mp h with rfl | h
              · exact .inl mem_cons_self
              · exact .inr (mem_append_right _ h)
        obtain ⟨hstack, hclosed⟩ := ih (by rw [length_append]; omega) hseen'
        have hiff (x : NodeId) (rest : List NodeId) :
            x ∈ seen ∨ x ∈ id :: rest ↔ x ∈ id :: seen ∨ x ∈ rest := by
          simp only [mem_cons]
          tauto
        simp only [hiff]
        refine ⟨fun x hx => ?_, hclosed⟩
        rcases mem_cons.mp hx with rfl | hx
        · exact .inl mem_cons_self
        · exact hstack x (mem_append_right _ hx)

theorem foldl_cost (r : Registry) :
    r.arena.nodes.foldl (fun sum n => sum + n.children.length + 1) 0 = r.unseenCost [] := by
  have hlist (nodes : List Node) (start : Nat) :
      nodes.foldl (fun sum n => sum + n.children.length + 1) start =
        start + ∑ i ∈ Finset.range nodes.length,
          ((nodes.getD i Arena.blank).children.length + 1) := by
    induction nodes generalizing start with
    | nil => simp
    | cons n nodes ih =>
      rw [foldl_cons, ih, length_cons, Finset.sum_range_succ']
      simp only [getD_cons_succ, getD_cons_zero]
      omega
  rw [← Array.foldl_toList, hlist, Nat.zero_add]
  simp [unseenCost, cost, Arena.size, Arena.node]

theorem mem_reachable (root : NodeId) : root ∈ r.reachable root ∧
    ∀ id ∈ r.reachable root, ∀ c ∈ r.successors id, c ∈ r.reachable root := by
  unfold reachable
  rw [foldl_cost]
  have hsteps : [root].length + r.unseenCost [] ≤ r.unseenCost [] + 1 := by simp [Nat.add_comm]
  obtain ⟨hstack, hclosed⟩ := reachableWithin_closed hsteps (by simp)
  simp only [not_mem_nil, false_or] at hstack hclosed
  exact ⟨hstack root mem_cons_self, hclosed⟩

/-! ## Clean audits -/

theorem eq_nil_of_eraseDupsBy {α : Type} {eq : α → α → Bool} {as : List α}
    (h : as.eraseDupsBy eq = []) : as = [] := by
  cases as with
  | nil => rfl
  | cons a as =>
    rw [eraseDupsBy_cons] at h
    cases h

/-- An audit without failures of a property asked every node of the walk with success. -/
theorem suggestions_of_audit {name : String} {e : PropertyEntry} (he : e ∈ r.properties.entries)
    (hname : e.name = name) (hclean : ∀ f ∈ r.audit, f.property ≠ name) {id : NodeId}
    (hid : id ∈ r.reachable e.root) : ∃ s, (r.matcher e).suggestions (.start id) = .ok s := by
  have hfaults : r.faults e = [] := by
    apply eq_nil_iff_forall_not_mem.mpr
    intro fault hfault
    exact hclean ⟨e.name, fault⟩ (mem_flatMap.mpr ⟨e, he, mem_map.mpr ⟨fault, hfault, rfl⟩⟩) hname
  have hid := filterMap_eq_nil_iff.mp (eq_nil_of_eraseDupsBy hfaults) id hid
  cases hstart : (r.matcher e).suggestions (.start id) with
  | ok s => exact ⟨s, rfl⟩
  | error fault => simp [hstart] at hid

/-- What is below a node that is defined is among its successors. -/
theorem below_subset_successors {e : PropertyEntry} {id : NodeId}
    (hdefined : (r.matcher e).Defined id) : (r.matcher e).below id ⊆ r.successors id := by
  unfold Matcher.Defined at hdefined
  unfold Matcher.below successors
  unfold matcher Matcher.kind at *
  cases hkind : (r.arena.node id).kind with
  | reference name target =>
    simp only [hkind] at hdefined
    simp [hdefined]
  | _ => exact fun _ hc => hc

/-- If the audit of a registry reports no failure of a property, then suggestions for it never meet
a data type or function that nothing defines, at whatever match and behind whatever values. -/
theorem known_of_clean_audit (properties : Table Property) (definitions : Table String)
    (o : RegistryOptions) {name : String} {e : PropertyEntry}
    (hentry : (build properties definitions o).property? name = some e)
    (hclean : ∀ f ∈ (build properties definitions o).audit, f.property ≠ name) :
    (∀ p, ((build properties definitions o).matcher e).Reachable e.root p → ∀ type raw,
      ((build properties definitions o).matcher e).suggestions p ≠
        .error (.unknownDataType type raw)) ∧
    ∀ (vs : List Value) type raw,
      ((build properties definitions o).matcher e).suggestionsAfter (.start e.root) vs ≠
        .error (.unknownDataType type raw) := by
  have hname := name_of_property? hentry
  generalize build properties definitions o = r at *
  obtain ⟨hroot, hwalk⟩ := r.mem_reachable e.root
  have hdefined (id : NodeId) (hid : id ∈ r.reachable e.root)
      (hallows : ((r.matcher e).quantifier id).allows 0 = true) : (r.matcher e).Defined id := by
    obtain ⟨s, hs⟩ := suggestions_of_audit (Table.mem_entries_of_get? hentry) hname hclean hid
    exact defined_of_known hallows (hs ▸ known_ok s)
  have hclosed (id : NodeId) (hid : id ∈ r.reachable e.root) (hdef : (r.matcher e).Defined id)
      (c : NodeId) (hc : c ∈ (r.matcher e).below id) : c ∈ r.reachable e.root :=
    hwalk id hid c (below_subset_successors hdef hc)
  have hmatches (p : Progress) (hreach : (r.matcher e).Reachable e.root p) :
      Known ((r.matcher e).suggestions p) := by
    obtain ⟨hvalid, hnode⟩ := hreach.validWithin
    exact (known_offersWithin hdefined hclosed hvalid (hnode ▸ hroot)).map _
  refine ⟨hmatches, fun vs => ?_⟩
  rw [suggestionsAfter_eq (validWithin_start (by decide))]
  exact hmatches _ (Reachable.start.afterTaken vs)

/-- A property whose values contain values of the property. -/
def nested : Property :=
  { (default : Property) with
    definition := "[ none | <custom-ident> ] <'nested'>?", status? := some "standard" }

theorem known_nested : ∃ e, (build ⟨[("nested", nested)]⟩ .empty .standard).property? "nested" =
      some e ∧ (build ⟨[("nested", nested)]⟩ .empty .standard).audit = [] ∧
    ∀ (vs : List Value) type raw,
      ((build ⟨[("nested", nested)]⟩ .empty .standard).matcher e).suggestionsAfter
        (.start e.root) vs ≠ .error (.unknownDataType type raw) := by
  have hbuild : build ⟨[("nested", nested)]⟩ .empty .standard =
      addProperty .standard empty "nested" nested :=
    build_single (by decide +kernel)
  have hentry : ((build ⟨[("nested", nested)]⟩ .empty .standard).property? "nested").isSome =
      true := by
    rw [hbuild]
    decide +kernel
  have hclean : (build ⟨[("nested", nested)]⟩ .empty .standard).audit = [] := by
    rw [hbuild]
    decide +kernel
  obtain ⟨e, he⟩ := Option.isSome_iff_exists.mp hentry
  have hknown := known_of_clean_audit ⟨[("nested", nested)]⟩ .empty .standard he
    (by simp [hclean])
  exact ⟨e, he, hclean, hknown.2⟩

end Registry

end StyleGrammar

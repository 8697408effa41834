import StyleGrammar.Proofs.Definition.Quantifiers
import StyleGrammar.Proofs.Matching.Step

/-!
# Valid matches

What every match looks like that was reached from the start of a grammar by
taking values.  The levels left at a node bound how deep its progress can be, so
validity counts them as the matcher does.  Two consequences carry the later
arguments: whether a valid match is open does not depend on the levels, and a
match that is not open is satisfied.
-/

namespace StyleGrammar

namespace Matcher

open List

variable {V : Type}

/-- A group has one place for each child.  The active child has begun, and the other children that
have begun are complete. -/
structure GroupValid (m : Matcher) (levels : Nat) (valid : Progress → Prop) (cs : List NodeId)
    (begun : List (Option Progress)) (active : Nat) : Prop where
  length_eq : begun.length = cs.length
  active_begun : ∃ state, begun[active]? = some (some state)
  node_eq : ∀ {i : Nat} {state}, begun[i]? = some (some state) → cs[i]? = some state.node
  valid : ∀ {i : Nat} {state}, begun[i]? = some (some state) → valid state
  passed_satisfied : ∀ {i : Nat} {state}, begun[i]? = some (some state) → i ≠ active →
    m.satisfied levels state = true

/-- A repetition has the form of its node and is at one of the node's children. -/
def RepeatValid (m : Matcher) (levels : Nat) (valid : Progress → Prop) (id : NodeId) :
    Repeat → Prop
  | .sequence index child =>
    ∃ cs, m.kind id = .sequence cs ∧ cs[index]? = some child.node ∧ valid child
  | .choice index child =>
    ∃ cs, m.kind id = .alternation cs ∧ cs[index]? = some child.node ∧ valid child
  | .group begun active =>
    ∃ cs, (m.kind id = .unordered cs ∨ m.kind id = .subset cs) ∧
      m.GroupValid levels valid cs begun active
  | .reference target => ∃ name, m.kind id = .reference name target.node ∧ valid target

/-- The repetitions stay within the quantifier, and a repetition is kept only while it is open. -/
def ProgressValid (m : Matcher) (levels : Nat) (valid : Progress → Prop) : Progress → Prop
  | .mk id count phase =>
    match phase with
    | .between => (m.quantifier id).Fits count
    | .separated =>
      0 < count ∧ (m.quantifier id).allows count = true ∧ (m.quantifier id).separator?.isSome
    | .within r =>
      (m.quantifier id).allows count = true ∧ m.repeatOpen fullDepth id r = true ∧
        m.RepeatValid levels valid id r

/-- A match that was reached with a number of levels left. -/
def ValidWithin (m : Matcher) : (levels : Nat) → Progress → Prop
  | 0, _ => False
  | 1, p => m.ProgressValid 0 (fun _ => False) p
  | n + 2, p => m.ProgressValid n (ValidWithin m n) p

variable {m : Matcher} {v : Form V} {take : Progress → Option Progress}
variable {valid : Progress → Prop}

theorem validWithin_succ {k : Nat} {p : Progress} :
    m.ValidWithin (k + 1) p ↔ m.ProgressValid (k - 1) (m.ValidWithin (k - 1)) p := by
  cases k with
  | zero =>
    have hnone : m.ValidWithin 0 = fun _ => False := rfl
    rw [Nat.zero_sub, hnone]
    rfl
  | succ n => rfl

theorem takeWithin_succ {k : Nat} {p : Progress} :
    m.takeWithin v (k + 1) p = m.takeWith v (m.takeWithin v (k - 1)) k p := by
  cases k with
  | zero =>
    have hnone : m.takeWithin v 0 = fun _ => none := rfl
    rw [Nat.zero_sub, hnone]
    rfl
  | succ n => rfl

theorem validWithin_start {levels : Nat} {id : NodeId} (hpos : 0 < levels) :
    m.ValidWithin levels (.start id) := by
  obtain ⟨k, rfl⟩ : ∃ k, levels = k + 1 := ⟨levels - 1, by omega⟩
  exact validWithin_succ.mpr fun _ _ => Nat.zero_le _

/-- What is valid, or has not begun, is valid. -/
theorem validWithin_of_started {k : Nat} {p : Progress}
    (hp : m.ValidWithin (k + 1) p ∨ ∃ c, p = .start c) : m.ValidWithin (k + 1) p := by
  rcases hp with hp | ⟨c, rfl⟩
  · exact hp
  · exact validWithin_start k.succ_pos

theorem children_of_kind {id : NodeId} {cs : List NodeId}
    (hkind : m.kind id = .sequence cs ∨ m.kind id = .alternation cs ∨
      m.kind id = .unordered cs ∨ m.kind id = .subset cs) : m.children id = cs := by
  unfold kind at hkind
  unfold children Node.children
  rcases hkind with h | h | h | h <;> rw [h] <;> rfl

/-! ## Taking a value keeps a match valid -/

/-- What taking a value does to the children: a valid child, or one that has not begun, becomes
a valid match of the same node. -/
def KeepsValid (valid : Progress → Prop) (take : Progress → Option Progress) : Prop :=
  ∀ p p', (valid p ∨ ∃ c, p = .start c) → take p = some p' → valid p' ∧ p'.node = p.node

theorem KeepsValid.start (hkeeps : KeepsValid valid take) {c : NodeId} {state : Progress}
    (htake : take (.start c) = some state) : valid state ∧ state.node = c :=
  hkeeps _ _ (.inr ⟨c, rfl⟩) htake

theorem beginSequence_valid (hkeeps : KeepsValid valid take) {levels index k : Nat}
    {id : NodeId} {cs : List NodeId} {r : Repeat} (hkind : m.kind id = .sequence cs)
    (h : m.beginSequence take k index (cs.drop index) = some r) :
    m.RepeatValid levels valid id r := by
  obtain ⟨front, c, behind, state, hcs, -, htake, rfl⟩ := beginSequence_eq_some h
  obtain ⟨hvalid, hnode⟩ := hkeeps.start htake
  refine ⟨cs, hkind, ?_, hvalid⟩
  rw [hnode, ← List.getElem?_drop, hcs]
  simp

theorem beginChoice_valid (hkeeps : KeepsValid valid take) {levels : Nat} {id : NodeId}
    {cs : List NodeId} {r : Repeat} (hkind : m.kind id = .alternation cs)
    (h : beginChoice take 0 cs = some r) : m.RepeatValid levels valid id r := by
  obtain ⟨front, c, behind, state, rfl, -, htake, rfl⟩ := beginChoice_eq_some h
  obtain ⟨hvalid, hnode⟩ := hkeeps.start htake
  exact ⟨_, hkind, by simp [hnode], hvalid⟩

/-- A group whose active child is replaced, all others that have begun being complete. -/
theorem groupValid_set {levels : Nat} {cs : List NodeId} {begun : List (Option Progress)}
    {i : Nat} {new : Progress} (hlength : begun.length = cs.length)
    (hnode : cs[i]? = some new.node) (hnew : valid new)
    (hothers : ∀ {j : Nat} {state}, j ≠ i → begun[j]? = some (some state) →
      cs[j]? = some state.node ∧ valid state ∧ m.satisfied levels state = true) :
    m.GroupValid levels valid cs (begun.set i (some new)) i := by
  have hi : i < begun.length := by
    rw [hlength]
    exact (List.getElem?_eq_some_iff.mp hnode).1
  have hget {j : Nat} {state} (hj : (begun.set i (some new))[j]? = some (some state)) :
      (j = i ∧ state = new) ∨ (j ≠ i ∧ begun[j]? = some (some state)) := by
    by_cases hij : i = j
    · subst hij
      rw [List.getElem?_set_self hi, Option.some.injEq, Option.some.injEq] at hj
      exact .inl ⟨rfl, hj.symm⟩
    · rw [List.getElem?_set_ne hij] at hj
      exact .inr ⟨Ne.symm hij, hj⟩
  refine ⟨by simpa using hlength, ⟨new, List.getElem?_set_self hi⟩, ?_, ?_, ?_⟩
  · intro j state hj
    rcases hget hj with ⟨rfl, rfl⟩ | ⟨hne, hj⟩
    · exact hnode
    · exact (hothers hne hj).1
  · intro j state hj
    rcases hget hj with ⟨rfl, rfl⟩ | ⟨hne, hj⟩
    · exact hnew
    · exact (hothers hne hj).2.1
  · intro j state hj hne
    rcases hget hj with ⟨rfl, rfl⟩ | ⟨-, hj⟩
    · exact absurd rfl hne
    · exact (hothers hne hj).2.2

/-- A group stays valid when one more child begins, if all that have begun are complete. -/
theorem beginGroup_valid (hkeeps : KeepsValid valid take) {levels : Nat} {id : NodeId}
    {cs : List NodeId} {begun : List (Option Progress)} {r : Repeat}
    (hkind : m.kind id = .unordered cs ∨ m.kind id = .subset cs)
    (hlength : begun.length = cs.length)
    (hbegun : ∀ {i : Nat} {state}, begun[i]? = some (some state) →
      cs[i]? = some state.node ∧ valid state ∧ m.satisfied levels state = true)
    (h : beginGroup take [] begun cs = some r) : m.RepeatValid levels valid id r := by
  obtain ⟨i, c, new, hnone, hc, htake, rfl⟩ := beginGroup_eq_some h
  obtain ⟨hvalid, hnode⟩ := hkeeps.start htake
  simp only [List.reverse_nil, List.nil_append, List.length_nil, Nat.zero_add]
  exact ⟨cs, hkind, groupValid_set hlength (by rw [hc, hnode]) hvalid fun _ hj => hbegun hj⟩

theorem beginRepeat_valid (hkeeps : KeepsValid valid take) {levels k : Nat} {id : NodeId}
    {r : Repeat} (h : m.beginRepeat v take k id = some (some r)) :
    m.RepeatValid levels valid id r := by
  rcases beginRepeat_eq_some h with ⟨name, target, state, hkind, htake, rfl⟩ |
    ⟨cs, hkind, hbegin⟩ | ⟨cs, hkind, hbegin⟩ | ⟨cs, hkind, hbegin⟩
  · obtain ⟨hvalid, rfl⟩ := hkeeps.start htake
    exact ⟨name, hkind, hvalid⟩
  · exact beginSequence_valid hkeeps hkind hbegin
  · exact beginChoice_valid hkeeps hkind hbegin
  · refine beginGroup_valid hkeeps hkind (by simp) ?_ hbegin
    intro i state hi
    rw [List.map_const', List.getElem?_replicate] at hi
    split at hi <;> simp at hi

theorem continueRepeat_valid (hkeeps : KeepsValid valid take) {levels : Nat} {id : NodeId}
    {r r' : Repeat} (hvalid : m.RepeatValid levels valid id r)
    (h : m.continueRepeat take levels id r = some r') : m.RepeatValid levels valid id r' := by
  cases r with
  | sequence index child =>
    obtain ⟨cs, hkind, hindex, hchild⟩ := hvalid
    rw [continueRepeat] at h
    cases htake : take child with
    | some child' =>
      simp only [htake, Option.some.injEq] at h
      subst h
      obtain ⟨hchild', hnode⟩ := hkeeps _ _ (.inl hchild) htake
      exact ⟨cs, hkind, by rw [hindex, hnode], hchild'⟩
    | none =>
      simp only [htake, children_of_kind (.inl hkind), Option.ite_none_right_eq_some] at h
      exact beginSequence_valid hkeeps hkind h.2
  | choice index child =>
    obtain ⟨cs, hkind, hindex, hchild⟩ := hvalid
    simp only [continueRepeat, Option.map_eq_some_iff] at h
    obtain ⟨child', htake, rfl⟩ := h
    obtain ⟨hchild', hnode⟩ := hkeeps _ _ (.inl hchild) htake
    exact ⟨cs, hkind, by rw [hindex, hnode], hchild'⟩
  | group begun active =>
    obtain ⟨cs, hkind, hgroup⟩ := hvalid
    obtain ⟨state, hactive⟩ := hgroup.active_begun
    simp only [continueRepeat, hactive, children_of_kind (.inr (.inr hkind))] at h
    cases htake : take state with
    | some state' =>
      simp only [htake, Option.some.injEq] at h
      subst h
      obtain ⟨hstate', hnode⟩ := hkeeps _ _ (.inl (hgroup.valid hactive)) htake
      refine ⟨cs, hkind, groupValid_set hgroup.length_eq ?_ hstate' ?_⟩
      · rw [hnode, hgroup.node_eq hactive]
      · intro j other hne hj
        exact ⟨hgroup.node_eq hj, hgroup.valid hj, hgroup.passed_satisfied hj hne⟩
    | none =>
      simp only [htake, Option.ite_none_right_eq_some] at h
      refine beginGroup_valid hkeeps hkind hgroup.length_eq ?_ h.2
      intro i other hi
      refine ⟨hgroup.node_eq hi, hgroup.valid hi, ?_⟩
      by_cases hia : i = active
      · subst hia
        rw [hactive, Option.some.injEq, Option.some.injEq] at hi
        exact hi ▸ h.1
      · exact hgroup.passed_satisfied hi hia
  | reference target =>
    obtain ⟨name, hkind, htarget⟩ := hvalid
    simp only [continueRepeat, Option.map_eq_some_iff] at h
    obtain ⟨target', htake, rfl⟩ := h
    obtain ⟨htarget', hnode⟩ := hkeeps _ _ (.inl htarget) htake
    exact ⟨name, by rw [hkind, hnode], htarget'⟩

theorem settled_valid {levels count : Nat} {id : NodeId} {r : Repeat}
    (hallows : (m.quantifier id).allows count = true) (hvalid : m.RepeatValid levels valid id r) :
    m.ProgressValid levels valid (m.settled id count r) := by
  unfold settled
  split
  next hopen => exact ⟨hallows, hopen, hvalid⟩
  next => exact Quantifier.fits_succ_iff.mpr hallows

theorem takeFresh_valid (hkeeps : KeepsValid valid take) {levels k count : Nat} {id : NodeId}
    {separated : Bool} {p : Progress}
    (h : m.takeFresh v take k id count separated = some p) :
    m.ProgressValid levels valid p ∧ p.node = id := by
  obtain ⟨hallows, ⟨c, hsep, hpos, -, -, rfl⟩ | ⟨-, ⟨r, hbegin, rfl⟩ | ⟨-, rfl⟩⟩⟩ :=
    takeFresh_eq_some_iff.mp h
  · exact ⟨⟨hpos, hallows, by simp [hsep]⟩, rfl⟩
  · exact ⟨settled_valid hallows (beginRepeat_valid hkeeps hbegin), node_settled ..⟩
  · exact ⟨Quantifier.fits_succ_iff.mpr hallows, rfl⟩

theorem takeWith_valid {k : Nat} (hkeeps : KeepsValid valid take) {p p' : Progress}
    (hvalid : m.ProgressValid (k - 1) valid p) (h : m.takeWith v take k p = some p') :
    m.ProgressValid (k - 1) valid p' ∧ p'.node = p.node := by
  obtain ⟨id, count, phase⟩ := p
  cases phase with
  | between => exact takeFresh_valid hkeeps h
  | separated => exact takeFresh_valid hkeeps h
  | within r =>
    obtain ⟨hallows, -, hrepeat⟩ := hvalid
    simp only [takeWith] at h
    cases hcontinue : m.continueRepeat take (k - 1) id r with
    | some r' =>
      simp only [hcontinue, Option.some.injEq] at h
      subst h
      exact ⟨settled_valid hallows (continueRepeat_valid hkeeps hrepeat hcontinue),
        node_settled ..⟩
    | none =>
      simp only [hcontinue, Option.ite_none_right_eq_some] at h
      exact takeFresh_valid hkeeps h.2

/-- With the levels of the match, taking a value keeps it valid and at its node. -/
theorem keepsValid_takeWithin (levels : Nat) :
    KeepsValid (m.ValidWithin levels) (m.takeWithin v levels) := by
  induction levels using Nat.strongRecOn with
  | ind levels ih =>
    intro p p' hp htake
    cases levels with
    | zero => simp [takeWithin] at htake
    | succ k =>
      have hvalid := validWithin_of_started hp
      rw [takeWithin_succ] at htake
      rw [validWithin_succ] at hvalid ⊢
      exact takeWith_valid (ih (k - 1) (by omega)) hvalid htake

theorem take_valid {p p' : Progress} (hvalid : m.ValidWithin fullDepth p)
    (htake : (m.take p v).next? = some p') :
    m.ValidWithin fullDepth p' ∧ p'.node = p.node := by
  rw [next?_take] at htake
  exact keepsValid_takeWithin fullDepth p p' (.inl hvalid) htake

/-- The matches that values lead to from the start of a grammar. -/
inductive Reachable (m : Matcher) (root : NodeId) : Progress → Prop
  | start : Reachable m root (.start root)
  | take {p p' : Progress} (h : Reachable m root p) (v : Value)
      (htake : (m.take p v).next? = some p') : Reachable m root p'

theorem Reachable.validWithin {root : NodeId} {p : Progress} (h : m.Reachable root p) :
    m.ValidWithin fullDepth p ∧ p.node = root := by
  induction h with
  | start => exact ⟨validWithin_start (by decide), rfl⟩
  | take h v htake ih =>
    obtain ⟨hvalid, hnode⟩ := take_valid ih.1 htake
    exact ⟨hvalid, hnode.trans ih.2⟩

/-! ## Matches that are not open -/

theorem isOpenWithin_succ {k count : Nat} {id : NodeId} {phase : Phase} :
    m.isOpenWithin (k + 1) (.mk id count phase) =
      match phase with
      | .within r => m.repeatOpen k id r || (m.quantifier id).allows (count + 1)
      | _ => (m.quantifier id).allows count := by
  cases phase <;> simp [isOpenWithin]

/-- Every repetition in progress is at a valid child. -/
theorem RepeatValid.exists_child {levels : Nat} {id : NodeId} {r : Repeat}
    (h : m.RepeatValid levels valid id r) : ∃ child, valid child := by
  cases r with
  | sequence index child =>
    obtain ⟨-, -, -, hchild⟩ := h
    exact ⟨child, hchild⟩
  | choice index child =>
    obtain ⟨-, -, -, hchild⟩ := h
    exact ⟨child, hchild⟩
  | group begun active =>
    obtain ⟨cs, -, hgroup⟩ := h
    obtain ⟨state, hactive⟩ := hgroup.active_begun
    exact ⟨state, hgroup.valid hactive⟩
  | reference target =>
    obtain ⟨-, -, htarget⟩ := h
    exact ⟨target, htarget⟩

/-- The levels below a repetition of a valid match with `k` levels left for it. -/
theorem RepeatValid.exists_pred {k : Nat} {id : NodeId} {r : Repeat}
    (h : m.RepeatValid (k - 1) (m.ValidWithin (k - 1)) id r) : ∃ j, k = j + 1 ∧ 0 < j := by
  obtain ⟨child, hchild⟩ := h.exists_child
  have hpos : 0 < k - 1 := Nat.pos_of_ne_zero fun hzero => by simp [hzero, ValidWithin] at hchild
  exact ⟨k - 1, by omega, hpos⟩

/-- Openness of a repetition is that of its child, which does not depend on the levels. -/
theorem repeatOpen_eq_of_child {levels j k k' : Nat} {id : NodeId} {r : Repeat}
    (h : m.RepeatValid levels valid id r)
    (hchild : ∀ p, valid p → ∀ k k', j ≤ k → j ≤ k' → m.isOpenWithin k p = m.isOpenWithin k' p)
    (hk : j ≤ k) (hk' : j ≤ k') : m.repeatOpen (k + 1) id r = m.repeatOpen (k' + 1) id r := by
  cases r with
  | sequence index child =>
    obtain ⟨cs, -, -, hvalid⟩ := h
    simp only [repeatOpen, hchild child hvalid k k' hk hk']
  | choice index child =>
    obtain ⟨cs, -, -, hvalid⟩ := h
    simp only [repeatOpen, hchild child hvalid k k' hk hk']
  | group begun active =>
    obtain ⟨cs, -, hgroup⟩ := h
    obtain ⟨state, hactive⟩ := hgroup.active_begun
    simp only [repeatOpen, hactive, hchild state (hgroup.valid hactive) k k' hk hk']
  | reference target =>
    obtain ⟨name, -, hvalid⟩ := h
    simp only [repeatOpen, hchild target hvalid k k' hk hk']

/-- Whether a valid match is open does not depend on the levels, if there are enough for it. -/
theorem isOpenWithin_eq {levels : Nat} (p : Progress) (hvalid : m.ValidWithin levels p)
    (k k' : Nat) (hk : levels ≤ k) (hk' : levels ≤ k') :
    m.isOpenWithin k p = m.isOpenWithin k' p := by
  induction levels using Nat.strongRecOn generalizing p k k' with
  | ind levels ih =>
    cases levels with
    | zero => exact absurd hvalid id
    | succ l =>
      obtain ⟨i, rfl⟩ : ∃ i, k = i + 1 := ⟨k - 1, by omega⟩
      obtain ⟨i', rfl⟩ : ∃ i', k' = i' + 1 := ⟨k' - 1, by omega⟩
      obtain ⟨id, count, phase⟩ := p
      rw [isOpenWithin_succ, isOpenWithin_succ]
      cases phase with
      | between => rfl
      | separated => rfl
      | within r =>
        obtain ⟨-, -, hrepeat⟩ := validWithin_succ.mp hvalid
        obtain ⟨j, rfl, hj⟩ := hrepeat.exists_pred
        obtain ⟨i, rfl⟩ : ∃ n, i = n + 1 := ⟨i - 1, by omega⟩
        obtain ⟨i', rfl⟩ : ∃ n, i' = n + 1 := ⟨i' - 1, by omega⟩
        have hopen := repeatOpen_eq_of_child hrepeat
          (fun p hp k k' hk hk' => ih j (by omega) p hp k k' hk hk')
          (show j ≤ i by omega) (show j ≤ i' by omega)
        simp only [hopen]

theorem repeatOpen_eq {levels k k' : Nat} {id : NodeId} {r : Repeat}
    (h : m.RepeatValid levels (m.ValidWithin levels) id r) (hk : levels < k) (hk' : levels < k') :
    m.repeatOpen k id r = m.repeatOpen k' id r := by
  obtain ⟨i, rfl⟩ : ∃ i, k = i + 1 := ⟨k - 1, by omega⟩
  obtain ⟨i', rfl⟩ : ∃ i', k' = i' + 1 := ⟨k' - 1, by omega⟩
  exact repeatOpen_eq_of_child h isOpenWithin_eq (Nat.le_of_lt_succ hk) (Nat.le_of_lt_succ hk')

theorem min_le_of_not_allows {q : Quantifier} (hproper : q.Proper) {count : Nat}
    (hallows : q.allows count = false) : q.min ≤ count := by
  cases hmax : q.max? with
  | none => simp [Quantifier.allows, hmax] at hallows
  | some max =>
    simp only [Quantifier.allows, hmax, decide_eq_false_iff_not, Nat.not_lt] at hallows
    exact Nat.le_trans (hproper.min_le max hmax) hallows

/-- A repetition that can take nothing more is complete, if its children that can take nothing more
are. -/
theorem repeatSatisfied_of_child {levels k : Nat} {id : NodeId} {r : Repeat}
    (h : m.RepeatValid levels valid id r)
    (hchild : ∀ p, valid p → m.isOpenWithin k p = false → m.satisfied levels p = true)
    (hopen : m.repeatOpen (k + 1) id r = false) :
    m.repeatSatisfied (levels + 1) id r = true := by
  cases r with
  | sequence index child =>
    obtain ⟨cs, hkind, hindex, hvalid⟩ := h
    simp only [repeatOpen, Bool.or_eq_false_iff, decide_eq_false_iff_not, Nat.not_lt] at hopen
    simp [repeatSatisfied, hchild child hvalid hopen.2, List.drop_eq_nil_of_le hopen.1]
  | choice index child =>
    obtain ⟨cs, -, -, hvalid⟩ := h
    simp only [repeatOpen] at hopen
    simpa [repeatSatisfied] using hchild child hvalid hopen
  | group begun active =>
    obtain ⟨cs, -, hgroup⟩ := h
    obtain ⟨state, hactive⟩ := hgroup.active_begun
    simp only [repeatOpen, hactive, Bool.or_eq_false_iff, List.any_eq_false] at hopen
    obtain ⟨hall, hstate⟩ := hopen
    simp only [repeatSatisfied, List.all_eq_true]
    rintro ⟨other?, c⟩ hmem
    have hother := (List.of_mem_zip hmem).1
    cases other? with
    | none => exact absurd rfl (hall none hother)
    | some other =>
      obtain ⟨i, hi⟩ := List.getElem?_of_mem hother
      by_cases hia : i = active
      · subst hia
        rw [hactive, Option.some.injEq, Option.some.injEq] at hi
        exact hi ▸ hchild state (hgroup.valid hactive) hstate
      · exact hgroup.passed_satisfied hi hia
  | reference target =>
    obtain ⟨name, -, hvalid⟩ := h
    simp only [repeatOpen] at hopen
    simpa [repeatSatisfied] using hchild target hvalid hopen

/-- A match that can take nothing more is complete: a repetition is kept only while it is open, and
a number of repetitions that cannot grow has reached the minimum. -/
theorem satisfied_of_not_open (hproper : ∀ id, (m.quantifier id).Proper) {levels : Nat}
    (hfull : levels ≤ fullDepth) (p : Progress) (hvalid : m.ValidWithin levels p) {k : Nat}
    (hk : levels ≤ k) (hopen : m.isOpenWithin k p = false) : m.satisfied levels p = true := by
  cases levels with
  | zero => exact absurd hvalid id
  | succ l =>
    obtain ⟨i, rfl⟩ : ∃ i, k = i + 1 := ⟨k - 1, by omega⟩
    obtain ⟨id, count, phase⟩ := p
    rw [isOpenWithin_succ] at hopen
    replace hvalid := validWithin_succ.mp hvalid
    cases phase with
    | between => simp [satisfied, isEnough, min_le_of_not_allows (hproper id) hopen]
    | separated =>
      simp only at hopen
      rw [hvalid.2.1] at hopen
      cases hopen
    | within r =>
      obtain ⟨-, hkept, hrepeat⟩ := hvalid
      obtain ⟨j, rfl, hj⟩ := hrepeat.exists_pred
      simp only [Nat.add_one_sub_one] at hrepeat
      have hlevels : m.repeatOpen i id r = m.repeatOpen fullDepth id r :=
        repeatOpen_eq hrepeat (by omega) (by omega)
      rw [Bool.or_eq_false_iff, hlevels, hkept] at hopen
      cases hopen.1

/-- The same for a repetition that is not kept. -/
theorem repeatSatisfied_of_not_open (hproper : ∀ id, (m.quantifier id).Proper) {levels : Nat}
    (hfull : levels ≤ fullDepth) {k : Nat} {id : NodeId} {r : Repeat}
    (h : m.RepeatValid levels (m.ValidWithin levels) id r) (hk : levels < k)
    (hopen : m.repeatOpen k id r = false) : m.repeatSatisfied (levels + 1) id r = true := by
  obtain ⟨i, rfl⟩ : ∃ i, k = i + 1 := ⟨k - 1, by omega⟩
  refine repeatSatisfied_of_child h ?_ hopen
  intro p hp hclosed
  exact satisfied_of_not_open hproper hfull p hp (Nat.le_of_lt_succ hk) hclosed

end Matcher

end StyleGrammar

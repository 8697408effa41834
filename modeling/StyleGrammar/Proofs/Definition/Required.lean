import StyleGrammar.Grammar.Match
import StyleGrammar.Proofs.Definition.Brackets
import StyleGrammar.Proofs.Definition.Integrity

/-!
# Groups that are required

A `!` behind brackets marks the node that was read inside them, and no other node
is made for the group (`define_required`).  The mark keeps the content of a node
from being nullable, but a node that may be repeated no times is nullable before
its content is asked for.  So the mark has no effect on it.
-/

namespace StyleGrammar

open List

namespace Definition

variable {source s r : List Char} {a a₁ : Arena} {inner p : Parser NodeId} {id root : NodeId}
  {text : String}

/-! ## Brackets around a whole text -/

/-- A reader that finds a fault at a place in every arena. -/
def Refuses (p : Parser NodeId) (r : List Char) : Prop :=
  ∀ source a id s, p.run ⟨source, r, a⟩ ≠ (.ok id, s)

theorem refuses_juxtaposition (hblank : r.dropWhile Blank = r) (hends : endsComponents r = true) :
    Refuses (juxtaposition p) r := by
  intro source a id s h
  unfold juxtaposition at h
  rw [run_skipBlanks_bind, hblank, run_rest_bind, run_bind] at h
  unfold components at h
  rw [run_skipBlanks_bind, hblank, run_rest_bind, hends] at h
  change (rest >>= fun r => if r.isEmpty then fail .unexpectedEnd else fail .emptyGroup :
    Parser NodeId).run ⟨source, r, a⟩ = _ at h
  rw [run_rest_bind] at h
  split at h <;> cases h

theorem Refuses.combined (h : Refuses p r) (hblank : r.dropWhile Blank = r) (c : Combinator) :
    Refuses (combined c p) r := by
  intro source a id s hrun
  unfold Definition.combined at hrun
  rw [run_skipBlanks_bind, hblank, run_rest_bind, run_bind] at hrun
  rcases hfirst : p.run ⟨source, r, a⟩ with ⟨e | first, s₁⟩
  · rw [hfirst] at hrun
    cases hrun
  · exact h _ _ _ _ hfirst

/-- A grammar starts with a component. -/
theorem starts_of_run {s₁ : State}
    (h : (grammarWith inner).run ⟨source, r, a⟩ = (.ok id, s₁)) : Starts (r.dropWhile Blank) := by
  have hblank := dropWhile_idempotent (p := Blank) (l := r)
  have hdropped : (readerAt inner 0).run ⟨source, r.dropWhile Blank, a⟩ = _ :=
    run_readerAt_dropWhile (by decide)
  have hnot : endsComponents (r.dropWhile Blank) = false := by
    rw [← Bool.not_eq_true]
    intro hends
    have hrefuses := (((refuses_juxtaposition (p := component inner) hblank hends).combined hblank
      .unordered).combined hblank .subset).combined hblank .alternation
    exact hrefuses _ _ _ _ (hdropped.trans h)
  cases hr : r.dropWhile Blank with
  | nil =>
    rw [hr] at hnot
    cases hnot
  | cons c l =>
    rw [hr] at hnot
    have hhead := head?_dropWhile_not Blank r
    rw [hr] at hhead
    exact ⟨c, l, rfl, by simpa using hhead, hnot⟩

/-- A text that is one component is read by the readers of all levels. -/
theorem run_grammarWith_of_component (hs : Starts s)
    (h : (component inner).run ⟨source, s, a⟩ = (.ok id, ⟨source, [], a₁⟩)) :
    (grammarWith inner).run ⟨source, s, a⟩ = (.ok id, ⟨source, [], a₁⟩) := by
  have hstep (g : Grouping)
      (hfirst : (readerAt inner (g.tightness + 1)).run ⟨source, s ++ [], a⟩ =
        (.ok id, ⟨source, left (g.tightness + 1) [], a₁⟩)) :
      (readerAt inner g.tightness).run ⟨source, s ++ [], a⟩ = (.ok id, ⟨source, [], a₁⟩) := by
    have hmore : (more inner g (s ++ []).length).run ⟨source, [], a₁⟩ =
        (.ok [], ⟨source, [], a₁⟩) :=
      run_more_of_follows (.inl rfl) (hs.append []).length_pos
    obtain ⟨_, hread⟩ := run_readerAt hs nil_suffix hfirst hmore
    exact hread.trans (if_pos rfl)
  rw [← append_nil s] at h
  have hread := hstep .alternation (hstep .subset (hstep .unordered (hstep .sequence h)))
  rwa [append_nil] at hread

theorem run_wholeGrammar_eq_ok {depth : Nat} {s₁ : State}
    (h : (wholeGrammar depth).run ⟨source, r, a⟩ = (.ok root, s₁)) :
    ∃ s₂, (grammarWithin depth).run ⟨source, r, a⟩ = (.ok root, s₂) ∧
      s₂.rest.dropWhile Blank = [] ∧ s₂.arena = s₁.arena := by
  unfold wholeGrammar at h
  rw [run_bind] at h
  rcases hrun : (grammarWithin depth).run ⟨source, r, a⟩ with ⟨e | id, s₂⟩
  · rw [hrun] at h
    cases h
  · rw [hrun] at h
    dsimp only at h
    rw [run_skipBlanks_bind, run_rest_bind] at h
    cases hrest : s₂.rest.dropWhile Blank with
    | nil =>
      rw [hrest] at h
      cases h
      exact ⟨s₂, rfl, hrest, rfl⟩
    | cons c l =>
      rw [hrest] at h
      cases h

/-- A text that is read as a whole is read in the same way inside brackets. -/
theorem run_group_of_whole {n m : Nat} (hle : n ≤ m) {s₂ : State}
    (hrun : (grammarWithin n).run ⟨source, r, a⟩ = (.ok root, s₂))
    (hend : s₂.rest.dropWhile Blank = []) (source' tail : List Char) :
    (group (grammarWithin m)).run ⟨source', r ++ ' ' :: ']' :: tail, a⟩ =
      (.ok root, ⟨source', tail, s₂.arena⟩) := by
  cases n with
  | zero => cases hrun
  | succ n =>
    obtain ⟨c, l, hr, -, hends⟩ := starts_of_run hrun
    have hdropped : (readerAt (grammarWithin n) 0).run ⟨source, r.dropWhile Blank, a⟩ = _ :=
      run_readerAt_dropWhile (by decide)
    rw [hr] at hdropped
    obtain ⟨-, q', hq, hrun'⟩ := carried_grammarWithin hle (inside_append tail _) source'
      (hdropped.trans hrun)
    have hhead : some c ≠ some ']' := by
      rintro ⟨⟩
      cases hends
    have hclose : q'.dropWhile Blank = ']' :: tail := by
      rcases hq.skipped with ⟨d, l', hd, -⟩ | ⟨-, hnil⟩
      · rw [hend] at hd
        cases hd
      · exact hnil
    unfold group
    rw [run_skipBlanks_bind, dropWhile_append, hr, isEmpty_cons, if_neg Bool.false_ne_true,
      run_rest_bind, cons_append, head?_cons, if_neg hhead]
    refine (run_bind_of_ok hrun').trans ?_
    rw [run_skipBlanks_bind, hclose]
    exact run_advance_bind (behind?_one (by decide)) _

end Definition

namespace Arena

open Definition

variable {a : Arena} {text : String} {root : NodeId}

/-- Marks a node as required. -/
def require (a : Arena) (id : NodeId) : Arena :=
  a.modify id fun n => { n with quantifier := { (a.node id).quantifier with required := true } }

/-- A required group is read as the text inside it, whose root is marked. -/
theorem define_required (h : (a.define text).1 = .ok root) :
    a.define ("[ " ++ text ++ " ]!") = (.ok root, (a.define text).2.require root) := by
  have hsource : ("[ " ++ text ++ " ]!").toList =
      '[' :: ' ' :: (text.toList ++ ' ' :: ']' :: ['!']) := by
    simp
  obtain ⟨s₁, hwhole, hdefined⟩ := run_of_define h
  obtain ⟨s₂, hrun, hend, harena⟩ := run_wholeGrammar_eq_ok hwhole
  rw [← hdefined, ← harena]
  generalize hlong : '[' :: ' ' :: (text.toList ++ ' ' :: ']' :: ['!']) = long at hsource
  have hdepth : text.toList.length + 1 ≤ long.length := by
    simp [← hlong]
  have hgroup : (group (grammarWithin long.length)).run
      ⟨long, ' ' :: (text.toList ++ ' ' :: ']' :: ['!']), a⟩ =
        (.ok root, ⟨long, ['!'], s₂.arena⟩) :=
    run_group_of_whole hdepth hrun hend long ['!']
  have hbang : (multipliers long long.length false root).run ⟨long, ['!'], s₂.arena⟩ =
      (.ok root, ⟨long, [], s₂.arena.require root⟩) := by
    subst hlong
    exact run_multipliers_mark (.inl rfl) _ false
  have hcomponent : (component (grammarWithin long.length)).run ⟨long, long, a⟩ =
      (.ok root, ⟨long, [], s₂.arena.require root⟩) := by
    unfold component
    rw [run_rest_bind]
    refine (run_bind_of_ok ?_).trans hbang
    subst hlong
    exact run_unquantified_bracket.trans hgroup
  have hstarts : Starts long := ⟨'[', _, hlong.symm, rfl, rfl⟩
  have hgrammar : (grammarWithin (long.length + 1)).run ⟨long, long, a⟩ =
      (.ok root, ⟨long, [], s₂.arena.require root⟩) :=
    run_grammarWith_of_component hstarts hcomponent
  have hread : (wholeGrammar (long.length + 1)).run ⟨long, long, a⟩ =
      (.ok root, ⟨long, [], s₂.arena.require root⟩) := by
    unfold wholeGrammar
    rw [run_bind_of_ok hgrammar, run_skipBlanks_bind, run_rest_bind]
    rfl
  rw [← hsource] at hread
  exact define_of_run hread

end Arena

/-! ## What the mark does to a match -/

namespace Matcher

variable {m : Matcher} {id : NodeId}

theorem contentNullable_of_required (h : (m.quantifier id).required = true) (levels : Nat) :
    m.contentNullable levels id = false := by
  cases levels with
  | zero => rfl
  | succ n => rw [contentNullable, h, Bool.not_true, Bool.false_and]

theorem nullable_of_required (h : (m.quantifier id).required = true) (levels : Nat) :
    m.nullable levels id = decide ((m.quantifier id).min = 0) := by
  rw [nullable, contentNullable_of_required h, Bool.or_false]

theorem isSatisfied_start_of_required (h : (m.quantifier id).required = true) :
    m.isSatisfied (.start id) = decide ((m.quantifier id).min = 0) := by
  unfold isSatisfied fullDepth Progress.start satisfied isEnough
  rw [contentNullable_of_required h, Bool.or_false]
  exact decide_eq_decide.mpr Nat.le_zero

end Matcher

namespace Arena

open Definition

variable {a b : Arena} {text : String} {root : NodeId}

theorem lt_size_of_define (h : (a.define text).1 = .ok root) : root < (a.define text).2.size := by
  by_contra hnot
  exact kind_ne_placeholder_of_define h (by rw [node_of_size_le (Nat.le_of_not_lt hnot)]; rfl)

theorem quantifier_require (hroot : root < a.size) : ((a.require root).node root).quantifier =
    { (a.node root).quantifier with required := true } := by
  unfold require
  rw [node_modify_self _ hroot]

/-- However an arena with a required group grows, nothing satisfies the group, and no sequence
passes over it, unless the text inside is one component that may be repeated no times. -/
theorem required_group (h : (a.define text).1 = .ok root)
    (hgrown : (a.define ("[ " ++ text ++ " ]!")).2.Extends b) (forbidden : List String) :
    let m : Matcher := ⟨b, forbidden⟩
    let min := ((a.define text).2.node root).quantifier.min
    (a.define ("[ " ++ text ++ " ]!")).1 = .ok root ∧
      (m.isSatisfied (.start root) = true ↔ min = 0) ∧
      (∀ levels, m.nullable levels root = true ↔ min = 0) ∧
      ∀ take levels index rest, take (.start root) = none →
        m.beginSequence take levels index (root :: rest) =
          if min = 0 then m.beginSequence take levels (index + 1) rest else none := by
  intro m min
  have hlt := lt_size_of_define h
  have hquantifier : m.quantifier root =
      { ((a.define text).2.node root).quantifier with required := true } := by
    have hsize : root < ((a.define text).2.require root).size := by
      rwa [require, size_modify]
    rw [define_required h] at hgrown
    change (b.node root).quantifier = _
    rw [hgrown.node_eq hsize, quantifier_require hlt]
  have hrequired : (m.quantifier root).required = true := by
    rw [hquantifier]
  have hmin : (m.quantifier root).min = min := by
    rw [hquantifier]
  have hnullable (levels : Nat) : m.nullable levels root = decide (min = 0) := by
    rw [Matcher.nullable_of_required hrequired, hmin]
  refine ⟨by rw [define_required h], ?_, fun levels => by rw [hnullable, decide_eq_true_eq], ?_⟩
  · rw [Matcher.isSatisfied_start_of_required hrequired, hmin, decide_eq_true_eq]
  · intro take levels index rest htake
    rw [Matcher.beginSequence, htake]
    simp only [hnullable, decide_eq_true_eq]

theorem required_pair : (empty.define "[ a? b? ]!").1 = .ok 2 ∧
    Matcher.isSatisfied ⟨(empty.define "[ a? b? ]!").2, []⟩ (.start 2) = false := by
  have hread : (empty.define "a? b?").1 = .ok 2 ∧
      ((empty.define "a? b?").2.node 2).quantifier.min ≠ 0 := by decide +kernel
  obtain ⟨hroot, hiff, -⟩ := required_group hread.1 (.refl _) []
  exact ⟨hroot, Bool.eq_false_iff.mpr fun h => hread.2 (hiff.mp h)⟩

/-- The mark has no effect on a group of one optional component. -/
theorem required_optional : (empty.define "a?").1 = .ok 0 ∧ (empty.define "[ a? ]!").1 = .ok 0 ∧
    Matcher.isSatisfied ⟨(empty.define "[ a? ]!").2, []⟩ (.start 0) = true := by
  decide +kernel

/-- One component that is not optional is enough. -/
example : Matcher.isSatisfied ⟨(empty.define "[ a? b ]!").2, []⟩ (.start 2) = false := by
  decide +kernel

end Arena

end StyleGrammar

import StyleGrammar.Proofs.Definition.Components
import Mathlib.Data.List.DropRight

/-!
# The levels of a grammar

Components, and what `&&`, `||` and `|` put together, stand at levels that hold
together ever more loosely.  A text that may stand at a level is read by the
reader of that level, and by those of all looser levels, which find a single
operand (`ReadsAt.of_le`).  Texts of one level with a combinator between them are
read as a group (`readsAt_group`).
-/

namespace StyleGrammar

open List

namespace Definition

variable {source s s' r : List Char} {c : Char} {a a' : Arena} {t : Tree} {q : Quantifier}
  {inner : Parser NodeId} {g : Grouping} {level : Nat}

/-- The reader of what stands at a level. -/
def readerAt (inner : Parser NodeId) : Nat → Parser NodeId
  | 0 => grammarWith inner
  | 1 => combined .subset (combined .unordered (juxtaposition (component inner)))
  | 2 => combined .unordered (juxtaposition (component inner))
  | 3 => juxtaposition (component inner)
  | _ => component inner

/-- The reader of the children of a group behind the first one. -/
def more (inner : Parser NodeId) : Grouping → (count : Nat) → Parser (List NodeId)
  | .alternation => moreOperands .alternation (readerAt inner 1)
  | .subset => moreOperands .subset (readerAt inner 2)
  | .unordered => moreOperands .unordered (readerAt inner 3)
  | .sequence => components (component inner)

/-- Only the reader of components leaves the blanks behind them. -/
def left (level : Nat) (r : List Char) : List Char :=
  if level < 4 then r.dropWhile Blank else r

/-- What may follow a text at a level: the end, a closing bracket, or something looser. -/
def Follows (level : Nat) (r : List Char) : Prop :=
  r = [] ∨ (∃ c r', (c = ']' ∨ c = ')') ∧ r = ' ' :: c :: r') ∨
    ∃ g : Grouping, g.tightness < level ∧ ∃ r', r = g.separator.toList ++ r'

theorem Follows.mono {level' : Nat} (hr : Follows level r) (hle : level ≤ level') :
    Follows level' r := by
  rcases hr with rfl | hr | ⟨g, hlt, hr⟩
  · exact .inl rfl
  · exact .inr (.inl hr)
  · exact .inr (.inr ⟨g, Nat.lt_of_lt_of_le hlt hle, hr⟩)

theorem Follows.ends (hr : Follows level r) : Ends r := by
  rcases hr with rfl | ⟨c, r', -, rfl⟩ | ⟨g, -, r', rfl⟩
  · exact .inl rfl
  · exact .inr ⟨_, rfl⟩
  · cases g <;> exact .inr ⟨_, rfl⟩

/-- Where a component starts. -/
def Starts (s : List Char) : Prop :=
  ∃ c s', s = c :: s' ∧ Blank c = false ∧ endsComponents (c :: s') = false

theorem Starts.append (hs : Starts s) (r : List Char) : Starts (s ++ r) := by
  rcases hs with ⟨c, s', rfl, hblank, hends⟩
  exact ⟨c, s' ++ r, rfl, hblank, hends⟩

theorem Starts.length_pos (hs : Starts s) : 0 < s.length := by
  rcases hs with ⟨c, s', rfl, -⟩
  exact Nat.succ_pos _

theorem Starts.dropWhile_eq (hs : Starts s) (r : List Char) :
    (s ++ r).dropWhile Blank = s ++ r := by
  rcases hs with ⟨c, s', rfl, hblank, -⟩
  rw [cons_append, dropWhile_cons_of_neg (by simp [hblank])]

/-! ## What is behind the first child of a group -/

def Combinator.grouping : Combinator → Grouping
  | alternation => .alternation
  | subset => .subset
  | unordered => .unordered

theorem Combinator.kind_eq (c : Combinator) (ids : List NodeId) :
    c.kind ids = c.grouping.kind ids := by
  cases c <;> rfl

theorem Combinator.tightness_le (c : Combinator) : c.grouping.tightness ≤ 2 := by
  cases c <;> decide

/-- A group that is not a sequence has a combinator. -/
theorem exists_combinator (hlt : g.tightness < 3) : ∃ c : Combinator, g = c.grouping := by
  cases g with
  | alternation => exact ⟨.alternation, rfl⟩
  | subset => exact ⟨.subset, rfl⟩
  | unordered => exact ⟨.unordered, rfl⟩
  | sequence => exact absurd hlt (by decide)

theorem Grouping.cases (g : Grouping) : g = .sequence ∨ ∃ c : Combinator, g = c.grouping := by
  cases g with
  | alternation => exact .inr ⟨.alternation, rfl⟩
  | subset => exact .inr ⟨.subset, rfl⟩
  | unordered => exact .inr ⟨.unordered, rfl⟩
  | sequence => exact .inl rfl

theorem readerAt_combinator (c : Combinator) :
    readerAt inner c.grouping.tightness =
      combined c (readerAt inner (c.grouping.tightness + 1)) := by
  cases c <;> rfl

theorem more_combinator (c : Combinator) (n : Nat) :
    more inner c.grouping n = moreOperands c (readerAt inner (c.grouping.tightness + 1)) n := by
  cases c <;> rfl

theorem run_peekCombinator_dropWhile :
    peekCombinator.run ⟨source, r.dropWhile Blank, a⟩ = peekCombinator.run ⟨source, r, a⟩ := by
  unfold peekCombinator
  rw [run_skipBlanks_bind, run_skipBlanks_bind, dropWhile_idempotent]

/-- A combinator is found, and a blank behind it. -/
theorem run_peekCombinator_separator (c : Combinator) :
    ∃ length, peekCombinator.run ⟨source, c.grouping.separator.toList ++ r, a⟩ =
        (.ok (some (c, length)), ⟨source, (c.grouping.separator.toList ++ r).dropWhile Blank, a⟩) ∧
      behind? length ((c.grouping.separator.toList ++ r).dropWhile Blank) = some (' ' :: r) := by
  cases c with
  | alternation => exact ⟨1, rfl, behind?_append ['|'] (' ' :: r)⟩
  | subset => exact ⟨2, rfl, behind?_append ['|', '|'] (' ' :: r)⟩
  | unordered => exact ⟨2, rfl, behind?_append ['&', '&'] (' ' :: r)⟩

/-- What may follow a group is not continued by its combinator. -/
theorem run_peekCombinator_of_follows {c : Combinator} (hr : Follows c.grouping.tightness r)
    (source : List Char) (a : Arena) :
    ∃ next, peekCombinator.run ⟨source, r, a⟩ = (.ok next, ⟨source, r.dropWhile Blank, a⟩) ∧
      ∀ length, next ≠ some (c, length) := by
  rcases hr with rfl | ⟨c', r', rfl | rfl, rfl⟩ | ⟨g, hlt, r', rfl⟩
  · exact ⟨none, rfl, by simp⟩
  · exact ⟨none, rfl, by simp⟩
  · exact ⟨none, rfl, by simp⟩
  · rcases exists_combinator (Nat.lt_trans hlt (Nat.lt_succ_of_le c.tightness_le)) with ⟨c', rfl⟩
    obtain ⟨length, hpeek, -⟩ := run_peekCombinator_separator c'
    refine ⟨_, hpeek, ?_⟩
    rintro length' heq
    cases heq
    exact Nat.lt_irrefl _ hlt

theorem run_moreOperands_dropWhile (c : Combinator) (operand : Parser NodeId) {n : Nat}
    (hn : 0 < n) :
    (moreOperands c operand n).run ⟨source, r.dropWhile Blank, a⟩ =
      (moreOperands c operand n).run ⟨source, r, a⟩ := by
  cases n with
  | zero => cases hn
  | succ n =>
    unfold moreOperands
    rw [run_bind, run_bind, run_peekCombinator_dropWhile]

/-- The children of a group end where something else follows. -/
theorem run_moreOperands_of_follows {c : Combinator} (hr : Follows c.grouping.tightness r)
    (operand : Parser NodeId) {n : Nat} (hn : 0 < n) :
    (moreOperands c operand n).run ⟨source, r, a⟩ = (.ok [], ⟨source, r.dropWhile Blank, a⟩) := by
  cases n with
  | zero => cases hn
  | succ n =>
    rcases run_peekCombinator_of_follows hr source a with ⟨next, hrun, hnext⟩
    unfold moreOperands
    rw [run_bind_of_ok hrun]
    rcases next with _ | ⟨c', length⟩
    · rfl
    · have hne : c' ≠ c := by
        rintro rfl
        exact hnext length rfl
      dsimp only
      rw [if_neg hne]
      rfl

theorem run_moreOperands_separator (c : Combinator) (operand : Parser NodeId) (n : Nat) :
    (moreOperands c operand (n + 1)).run ⟨source, c.grouping.separator.toList ++ s, a⟩ =
      (do
        let id ← operand
        return id :: (← moreOperands c operand n)).run ⟨source, ' ' :: s, a⟩ := by
  obtain ⟨length, hpeek, hbehind⟩ := run_peekCombinator_separator c
  rw [moreOperands, run_bind_of_ok hpeek]
  dsimp only
  rw [if_pos rfl, run_advance_bind hbehind]

theorem run_components_of_follows (hr : Follows 3 r) (p : Parser NodeId) {n : Nat} (hn : 0 < n) :
    (components p n).run ⟨source, r, a⟩ = (.ok [], ⟨source, r.dropWhile Blank, a⟩) := by
  have hends : endsComponents (r.dropWhile Blank) = true := by
    rcases hr with rfl | ⟨c, r', rfl | rfl, rfl⟩ | ⟨g, hlt, r', rfl⟩
    · rfl
    · rfl
    · rfl
    · rcases exists_combinator hlt with ⟨c, rfl⟩
      cases c <;> rfl
  cases n with
  | zero => cases hn
  | succ n =>
    rw [components, run_skipBlanks_bind, run_rest_bind, hends]
    rfl

theorem run_components_of_starts (hs : Starts s) (p : Parser NodeId) (n : Nat) :
    (components p (n + 1)).run ⟨source, s ++ r, a⟩ =
      (do
        let id ← p
        return id :: (← components p n)).run ⟨source, s ++ r, a⟩ := by
  have hends : endsComponents (s ++ r) = false := by
    rcases hs with ⟨c, s', rfl, -, hends⟩
    exact hends
  rw [components, run_skipBlanks_bind, hs.dropWhile_eq, run_rest_bind, hends]
  rfl

theorem run_components_dropWhile (p : Parser NodeId) {n : Nat} (hn : 0 < n) :
    (components p n).run ⟨source, r.dropWhile Blank, a⟩ = (components p n).run ⟨source, r, a⟩ := by
  cases n with
  | zero => cases hn
  | succ n =>
    rw [components, run_skipBlanks_bind, run_skipBlanks_bind, dropWhile_idempotent]

/-! ## Readers of a level -/

/-- All readers but that of components pass over the blanks in front. -/
theorem run_readerAt_dropWhile (hlevel : level < 4) :
    (readerAt inner level).run ⟨source, r.dropWhile Blank, a⟩ =
      (readerAt inner level).run ⟨source, r, a⟩ := by
  have hcombined (c : Combinator) (operand : Parser NodeId) :
      (combined c operand).run ⟨source, r.dropWhile Blank, a⟩ =
        (combined c operand).run ⟨source, r, a⟩ := by
    rw [combined, run_skipBlanks_bind, run_skipBlanks_bind, dropWhile_idempotent]
  rcases level with _ | _ | _ | _ | level
  · exact hcombined _ _
  · exact hcombined _ _
  · exact hcombined _ _
  · change (juxtaposition _).run _ = (juxtaposition _).run _
    rw [juxtaposition, run_skipBlanks_bind, run_skipBlanks_bind, dropWhile_idempotent]
  · exact absurd hlevel (by omega)

theorem run_more_of_follows (hr : Follows g.tightness r) {n : Nat} (hn : 0 < n) :
    (more inner g n).run ⟨source, r, a⟩ = (.ok [], ⟨source, r.dropWhile Blank, a⟩) := by
  rcases Grouping.cases g with rfl | ⟨c, rfl⟩
  · exact run_components_of_follows hr _ hn
  · rw [more_combinator]
    exact run_moreOperands_of_follows hr _ hn

theorem run_more_left {n : Nat} (hn : 0 < n) :
    (more inner g n).run ⟨source, left (g.tightness + 1) r, a⟩ =
      (more inner g n).run ⟨source, r, a⟩ := by
  rcases Grouping.cases g with rfl | ⟨c, rfl⟩
  · rfl
  · have hlt : c.grouping.tightness + 1 < 4 := Nat.lt_succ_of_le (Nat.succ_le_succ c.tightness_le)
    rw [more_combinator, left, if_pos hlt, run_moreOperands_dropWhile _ _ hn]

theorem run_more_separator (hs : Starts s) (n : Nat) :
    (more inner g (n + 1)).run ⟨source, g.separator.toList ++ (s ++ r), a⟩ =
      (do
        let id ← readerAt inner (g.tightness + 1)
        return id :: (← more inner g n)).run ⟨source, s ++ r, a⟩ := by
  rcases Grouping.cases g with rfl | ⟨c, rfl⟩
  · unfold more
    rw [← run_components_dropWhile _ (Nat.succ_pos n)]
    change (components (component inner) (n + 1)).run ⟨source, (s ++ r).dropWhile Blank, a⟩ = _
    rw [hs.dropWhile_eq, run_components_of_starts hs]
    rfl
  · have hlt : c.grouping.tightness + 1 < 4 := Nat.lt_succ_of_le (Nat.succ_le_succ c.tightness_le)
    rw [more_combinator, more_combinator, run_moreOperands_separator, run_bind, run_bind,
      ← run_readerAt_dropWhile hlt, dropWhile_cons_of_pos (by decide), hs.dropWhile_eq]

/-- A reader reads a first child with the reader of the next level, and then the others. -/
theorem run_readerAt (hs : Starts s) (hs' : s' <:+ s ++ r) {a₁ a₂ : Arena} {id : NodeId}
    {ids : List NodeId}
    (hfirst : (readerAt inner (g.tightness + 1)).run ⟨source, s ++ r, a⟩ =
      (.ok id, ⟨source, left (g.tightness + 1) r, a₁⟩))
    (hothers : (more inner g (s ++ r).length).run ⟨source, r, a₁⟩ = (.ok ids, ⟨source, s', a₂⟩)) :
    ∃ text, (readerAt inner g.tightness).run ⟨source, s ++ r, a⟩ =
      if ids = [] then (.ok id, ⟨source, s', a₂⟩)
      else (.ok a₂.size, ⟨source, s', a₂.push (newNode (g.kind (id :: ids)) text)⟩) := by
  have hlength : 0 < (s ++ r).length := (hs.append r).length_pos
  obtain ⟨text, htext⟩ := exists_between? hs'
  refine ⟨text, ?_⟩
  rw [← run_more_left hlength] at hothers
  rcases Grouping.cases g with rfl | ⟨c, rfl⟩
  · change (juxtaposition (component inner)).run _ = _
    change (components (component inner) _).run ⟨source, r, a₁⟩ = _ at hothers
    change (component inner).run _ = (_, ⟨source, r, a₁⟩) at hfirst
    rw [juxtaposition, run_skipBlanks_bind, hs.dropWhile_eq, run_rest_bind, run_bind,
      run_components_of_starts hs, run_bind_of_ok hfirst, run_bind_of_ok hothers]
    cases ids with
    | nil => rfl
    | cons second others => exact run_push htext
  · rw [more_combinator] at hothers
    rw [readerAt_combinator, combined, run_skipBlanks_bind, hs.dropWhile_eq, run_rest_bind,
      run_bind_of_ok hfirst, run_bind_of_ok hothers, ← c.kind_eq]
    cases ids with
    | nil => rfl
    | cons second others => exact run_push htext

/-! ## Texts at a level -/

/-- A text that may stand at a level is read as a tree there, whatever may follow it. -/
structure ReadsAt (inner : Parser NodeId) (level : Nat) (t : Tree) (q : Quantifier)
    (s : List Char) : Prop where
  starts : Starts s
  reads : ∀ {r}, Follows level r → Reads (readerAt inner level) t q (s ++ r) (left level r)

/-- The reader of a looser level finds a single operand. -/
theorem ReadsAt.lift (h : ReadsAt inner (g.tightness + 1) t q s) :
    ReadsAt inner g.tightness t q s where
  starts := h.starts
  reads := by
    intro r hr source a
    have hlength : 0 < (s ++ r).length := (h.starts.append r).length_pos
    have hleft : left g.tightness r = r.dropWhile Blank := by
      cases g <;> rfl
    have hsuffix : r.dropWhile Blank <:+ s ++ r := (dropWhile_suffix _).trans (suffix_append s r)
    rcases h.reads (hr.mono (Nat.le_succ _)) source a with ⟨id, a₁, hrun, hmade⟩
    obtain ⟨text, hread⟩ :=
      run_readerAt h.starts hsuffix hrun (run_more_of_follows hr hlength)
    refine ⟨id, a₁, ?_, hmade⟩
    rw [hread, if_pos rfl, hleft]

theorem exists_grouping (hlt : level < 4) : ∃ g : Grouping, g.tightness = level := by
  rcases level with _ | _ | _ | _ | level
  · exact ⟨.alternation, rfl⟩
  · exact ⟨.subset, rfl⟩
  · exact ⟨.unordered, rfl⟩
  · exact ⟨.sequence, rfl⟩
  · exact absurd hlt (by omega)

theorem ReadsAt.of_le {level' : Nat} (h : ReadsAt inner level t q s) (hle : level' ≤ level)
    (hlevel : level ≤ 4) : ReadsAt inner level' t q s := by
  induction level with
  | zero =>
    cases Nat.le_zero.mp hle
    exact h
  | succ level ih =>
    rcases Nat.eq_or_lt_of_le hle with rfl | hlt
    · exact h
    · rcases exists_grouping hlevel with ⟨g, rfl⟩
      exact ih h.lift (Nat.le_of_lt_succ hlt) (Nat.le_of_lt hlevel)

/-- The texts of the children of a group behind the first one. -/
def behind (g : Grouping) (ss : List (List Char)) : List Char :=
  ss.flatMap (g.separator.toList ++ ·)

theorem follows_behind (hr : Follows g.tightness r) (ss : List (List Char)) :
    Follows (g.tightness + 1) (behind g ss ++ r) := by
  cases ss with
  | nil => exact hr.mono (Nat.le_succ _)
  | cons s ss =>
    refine .inr (.inr ⟨g, Nat.lt_succ_self _, s ++ (behind g ss ++ r), ?_⟩)
    simp [behind]

theorem run_more {ts : List Tree} {ss : List (List Char)}
    (hreads : Forall₂ (fun t s => ReadsAt inner (g.tightness + 1) t t.quantifier s) ts ss)
    (hr : Follows g.tightness r) {n : Nat} (hn : (behind g ss).length < n) (source : List Char)
    (a : Arena) :
    ∃ ids a', (more inner g n).run ⟨source, behind g ss ++ r, a⟩ =
      (.ok ids, ⟨source, r.dropWhile Blank, a'⟩) ∧ a.Extends a' ∧ a'.HoldAll ts ids := by
  induction hreads generalizing n a with
  | nil => exact ⟨[], a, run_more_of_follows hr hn, .refl a, rfl⟩
  | @cons t s ts ss hfirst _ ih =>
    rcases n with _ | n
    · cases hn
    have hbehind : behind g (s :: ss) ++ r = g.separator.toList ++ (s ++ (behind g ss ++ r)) := by
      simp [behind]
    have hlength : (behind g ss).length < n := by
      have hseparator : 0 < g.separator.toList.length := by cases g <;> decide
      simp only [behind, flatMap_cons, length_append] at hn ⊢
      omega
    rcases hfirst.reads (follows_behind hr ss) source a with ⟨id, a₁, hrun, hmade⟩
    rcases ih hlength a₁ with ⟨ids, a₂, hrest, hext, hheld⟩
    refine ⟨id :: ids, a₂, ?_, hmade.extends.trans hext, id, ids, rfl, hmade.holds.mono hext, hheld⟩
    rw [hbehind, run_more_separator hfirst.starts, run_bind_of_ok hrun, run_bind,
      run_more_left (Nat.zero_lt_of_lt hlength), hrest]
    rfl

/-- A group of two children at least is read at its level. -/
theorem readsAt_group {ts : List Tree} {ss : List (List Char)}
    (hfirst : ReadsAt inner (g.tightness + 1) t t.quantifier s)
    (hothers : Forall₂ (fun t s => ReadsAt inner (g.tightness + 1) t t.quantifier s) ts ss)
    (hne : ts ≠ []) : ReadsAt inner g.tightness (.group g (t :: ts) q) .one (s ++ behind g ss) where
  starts := hfirst.starts.append _
  reads := by
    intro r hr source a
    have hleft : left g.tightness r = r.dropWhile Blank := by
      cases g <;> rfl
    have hlength : (behind g ss).length < (s ++ (behind g ss ++ r)).length := by
      have hs := hfirst.starts.length_pos
      simp only [length_append]
      omega
    rcases hfirst.reads (follows_behind hr ss) source a with ⟨id, a₁, hrun, hmade⟩
    rcases run_more hothers hr hlength source a₁ with ⟨ids, a₂, hmore, hext, hheld⟩
    have hids : ids ≠ [] := by
      rintro rfl
      cases ts with
      | nil => exact hne rfl
      | cons t ts =>
        rcases hheld with ⟨_, _, h, -⟩
        cases h
    have hstands : a₂.Stands (g.kind (id :: ids)) (.group g (t :: ts) q) :=
      ⟨id :: ids, rfl, id, ids, rfl, hmade.holds.mono hext, hheld⟩
    have hsuffix : r.dropWhile Blank <:+ s ++ (behind g ss ++ r) :=
      (dropWhile_suffix _).trans ((suffix_append _ r).trans (suffix_append s _))
    obtain ⟨text, hread⟩ := run_readerAt hfirst.starts hsuffix hrun hmore
    refine ⟨_, _, ?_, Arena.made_push (n := newNode _ text) (hmade.extends.trans hext) hstands⟩
    rw [append_assoc, hread, if_neg hids, hleft]
    rfl

end Definition

end StyleGrammar

import StyleGrammar.Proofs.Definition.Parsed
import StyleGrammar.Proofs.Definition.References

/-!
# Reading grammars back

What is written for a tree, with brackets around every group or only with those
that are needed, is read as that tree.  Components are read with their
multipliers, and brackets lead back to the loosest level (`readsAt_text`).
-/

namespace StyleGrammar

open List

namespace Definition

variable {source s r : List Char} {a : Arena} {t : Tree} {q : Quantifier} {inner : Parser NodeId}

/-! ## Components -/

/-- A component is read together with the multipliers behind it. -/
theorem readsAt_of_multipliers {u : Tree} {q' : Quantifier} {m : List Char} (hs : Starts s)
    (hm : ∀ {r}, Ends r → Stops (m ++ r))
    (hreads : ∀ {r}, Stops r → Reads (unquantified inner) u q' (s ++ r) r)
    (hmultipliers : ∀ {source start r : List Char} {a a' : Arena} {id : NodeId} {n : Nat},
      a.Made a' u q' id → Ends r → m ++ r <:+ start → m.length < n →
      ∃ id' a'', (multipliers start n false id).run ⟨source, m ++ r, a'⟩ =
        (.ok id', ⟨source, r, a''⟩) ∧ a.Made a'' t q id') :
    ReadsAt inner 4 t q (s ++ m) where
  starts := hs.append _
  reads := by
    intro r hr source a
    have hlength : m.length < (s ++ m ++ r).length := by
      have hpos := hs.length_pos
      simp only [length_append]
      omega
    have hstart : m ++ r <:+ s ++ m ++ r := by
      rw [append_assoc]
      exact suffix_append s (m ++ r)
    rcases hreads (hm hr.ends) source a with ⟨id, a₁, hrun, hmade⟩
    rcases @hmultipliers source (s ++ m ++ r) r _ _ _ _ hmade hr.ends hstart hlength with
      ⟨id', a₂, hrun', hmade'⟩
    refine ⟨id', a₂, ?_, hmade'⟩
    change (component inner).run _ = _
    rw [← append_assoc] at hrun
    rw [component, run_rest_bind, run_bind_of_ok hrun]
    exact hrun'

theorem readsAt_component (hs : Starts s) (hq : q.Writable)
    (hreads : ∀ {r}, Stops r → Reads (unquantified inner) t .one (s ++ r) r) :
    ReadsAt inner 4 t q (s ++ q.render.toList) :=
  readsAt_of_multipliers hs (stops_render hq) hreads fun hmade hr hstart hn =>
    multipliers_of_made hmade hq hr hstart hn

/-- One that has a quantifier already is repeated as a whole. -/
theorem readsAt_wrapper (hs : Starts s) (hq : q.Writable) (hplain : ¬q.Plain)
    (hquantified : t.quantifier ≠ .one)
    (hreads : ∀ {r}, Stops r → Reads (unquantified inner) t t.quantifier (s ++ r) r) :
    ReadsAt inner 4 (.group .sequence [t] q) q (s ++ q.render.toList) :=
  readsAt_of_multipliers hs (stops_render hq) hreads fun hmade hr hstart hn =>
    multipliers_of_quantifies (quantifies_of_ne_one hmade hquantified q) hq hplain hr hstart hn

/-- One that is repeated exactly once gets the mark, if there is one. -/
theorem readsAt_marked (hs : Starts s) (q : Quantifier)
    (hreads : ∀ {r}, Stops r → Reads (unquantified inner) t t.quantifier (s ++ r) r) :
    ReadsAt inner 4 (t.marked q.required) (t.marked q.required).quantifier (s ++ q.mark) := by
  refine readsAt_of_multipliers hs stops_mark hreads ?_
  intro source start r a a' id n hmade hr _ hn
  obtain ⟨n, rfl⟩ := Nat.exists_eq_succ_of_ne_zero (Nat.ne_zero_of_lt hn)
  unfold Quantifier.mark at hn ⊢
  cases hrequired : q.required with
  | false =>
    rw [Tree.marked_false]
    exact ⟨id, a', multipliers_of_ends hr n false, hmade⟩
  | true =>
    rw [hrequired] at hn
    rcases n with _ | n
    · exact absurd hn (by decide)
    · have hmarked : (t.marked true).quantifier =
          { (a'.node id).quantifier with required := true } := by
        rw [hmade.holds.2, Tree.marked, Tree.quantifier_requantified, Bool.or_true]
      rw [hmarked]
      exact ⟨id, _, run_multipliers_mark hr n false, (hmade.requantified _).modify _⟩

theorem reads_brackets {n : Nat} (h : ReadsAt (grammarWithin n) 0 t q s) :
    Reads (unquantified (grammarWithin (n + 1))) t q ('[' :: ' ' :: (s ++ ' ' :: ']' :: r)) r := by
  intro source a
  have hfollows : Follows 0 (' ' :: ']' :: r) := .inr (.inl ⟨']', r, .inl rfl, rfl⟩)
  rcases h.reads hfollows source a with ⟨id, a₁, hrun, hmade⟩
  refine ⟨id, a₁, ?_, hmade⟩
  have hhead : (s ++ ' ' :: ']' :: r).head? ≠ some ']' := by
    rcases h.starts with ⟨c, s', rfl, -, hends⟩
    intro heq
    cases heq
    cases hends
  rw [run_unquantified_bracket, group, run_skipBlanks_bind, dropWhile_cons_of_pos (by decide),
    h.starts.dropWhile_eq,
    run_rest_bind, if_neg hhead]
  change (grammarWithin (n + 1)).run _ = _ at hrun
  rw [run_bind_of_ok hrun]
  exact run_advance_bind (behind?_one (by decide)) _

theorem run_unquantified_call {name : List Char} (hne : name ≠ [])
    (hname : ∀ c ∈ name, isNameChar c = true) :
    (unquantified inner).run ⟨source, name ++ '(' :: r, a⟩ =
      (function inner (String.ofList name) (name ++ '(' :: r)).run ⟨source, '(' :: r, a⟩ := by
  have hparen : isNameChar '(' = false := by decide
  cases name with
  | nil => exact absurd rfl hne
  | cons c name =>
    rw [cons_append, run_unquantified_name (hname c mem_cons_self), ← cons_append,
      takeWhile_append_of_pos hname, dropWhile_append_of_pos hname,
      takeWhile_cons_of_neg (by simp [hparen]), dropWhile_cons_of_neg (by simp [hparen]),
      append_nil, head?_cons, if_pos rfl]

theorem reads_function_nil {name : List Char} (hne : name ≠ [])
    (hname : ∀ c ∈ name, isNameChar c = true) :
    Reads (unquantified inner) (.function (String.ofList name) [] q) .one
      (name ++ '(' :: ')' :: r) r := by
  intro source a
  refine ⟨a.size, a.push (newNode (.function (String.ofList name) []) (name ++ ['(', ')'])), ?_,
    Arena.made_push (.refl a) ⟨[], rfl, rfl⟩⟩
  have hraw : between? (name ++ '(' :: ')' :: r) r = some (name ++ ['(', ')']) := by
    rw [show name ++ '(' :: ')' :: r = name ++ ['(', ')'] ++ r by simp]
    exact between?_append _ r
  rw [run_unquantified_call hne hname]
  refine Eq.trans (run_advance_bind (behind?_one (by decide)) _) ?_
  refine (run_advance_bind (behind?_one (by decide)) _).trans ?_
  exact run_push hraw

theorem reads_function {name : List Char} (hne : name ≠ [])
    (hname : ∀ c ∈ name, isNameChar c = true) {n : Nat}
    (h : ReadsAt (grammarWithin n) 0 t t.quantifier s) :
    Reads (unquantified (grammarWithin (n + 1))) (.function (String.ofList name) [t] q) .one
      (name ++ '(' :: ' ' :: (s ++ ' ' :: ')' :: r)) r := by
  intro source a
  have hfollows : Follows 0 (' ' :: ')' :: r) := .inr (.inl ⟨')', r, .inr rfl, rfl⟩)
  rcases h.reads hfollows source a with ⟨id, a₁, hrun, hmade⟩
  have hstands : a₁.Stands (.function (String.ofList name) [id])
      (.function (String.ofList name) [t] q) :=
    ⟨[id], rfl, id, [], rfl, hmade.holds, rfl⟩
  have hraw : between? (name ++ '(' :: ' ' :: (s ++ ' ' :: ')' :: r)) r =
      some (name ++ '(' :: ' ' :: (s ++ [' ', ')'])) := by
    rw [show name ++ '(' :: ' ' :: (s ++ ' ' :: ')' :: r) =
      name ++ '(' :: ' ' :: (s ++ [' ', ')']) ++ r by simp]
    exact between?_append _ r
  refine ⟨a₁.size, _, ?_, Arena.made_push (n := newNode (.function (String.ofList name) [id])
    (name ++ '(' :: ' ' :: (s ++ [' ', ')']))) hmade.extends hstands⟩
  have hhead : (s ++ ' ' :: ')' :: r).head? ≠ some ')' := by
    rcases h.starts with ⟨c, s', rfl, -, hends⟩
    intro heq
    cases heq
    cases hends
  rw [run_unquantified_call hne hname]
  refine Eq.trans (run_advance_bind (behind?_one (by decide)) _) ?_
  rw [run_skipBlanks_bind, dropWhile_cons_of_pos (by decide), h.starts.dropWhile_eq,
    run_rest_bind, if_neg hhead]
  change (grammarWithin (n + 1)).run _ = _ at hrun
  rw [run_bind_of_ok hrun]
  refine (run_advance_bind (behind?_one (by decide)) _).trans ?_
  exact run_push hraw

/-! ## Trees -/

theorem starts_name (hne : s ≠ []) (hs : ∀ c ∈ s, isNameChar c = true) : Starts s := by
  cases s with
  | nil => exact absurd rfl hne
  | cons c s =>
    have hc := hs c mem_cons_self
    refine ⟨c, s, rfl, ?_, ?_⟩
    · apply eq_false_of_ne_true
      intro hblank
      simp only [Blank, Newline, Bool.or_eq_true, decide_eq_true_eq] at hblank
      rcases hblank with (rfl | rfl) | (rfl | rfl) | rfl <;> exact absurd hc (by decide)
    · apply eq_false_of_ne_true
      intro hends
      simp only [endsComponents, Bool.or_eq_true, decide_eq_true_eq] at hends
      rcases hends with ((rfl | rfl) | rfl) | rfl <;> exact absurd hc (by decide)

theorem starts_literal {text : String} (hne : text ≠ "") :
    Starts (Arena.renderLiteral text).toList := by
  unfold Arena.renderLiteral
  split
  next hdelimiter =>
    simp only [Bool.or_eq_true, decide_eq_true_eq] at hdelimiter
    rcases hdelimiter with rfl | rfl <;> exact ⟨_, [], rfl, rfl, rfl⟩
  next =>
    split
    next hword => exact starts_name (by simpa using hne) (isNameChar_of_word hword)
    next =>
      rw [String.toList_append, String.toList_append, append_assoc]
      exact ⟨'\'', _, rfl, rfl, rfl⟩

theorem length_le_behind (g : Grouping) {ss : List (List Char)} (hmem : s ∈ ss) :
    s.length ≤ (behind g ss).length := by
  induction ss with
  | nil => cases hmem
  | cons s' ss ih =>
    simp only [behind, flatMap_cons, length_append] at ih ⊢
    rcases mem_cons.mp hmem with rfl | hmem
    · omega
    · have hle := ih hmem
      omega

/-- The text of a group without its brackets. -/
theorem toList_intercalate (g : Grouping) (full : Bool) (level : Nat) (t : Tree) (ts : List Tree) :
    (g.separator.intercalate (Tree.texts full level (t :: ts))).toList =
      (t.text full level).toList ++ behind g (ts.map fun t => (t.text full level).toList) := by
  induction ts generalizing t with
  | nil => simp [behind]
  | cons u ts ih =>
    have hu := ih u
    rw [Tree.texts_cons] at hu ⊢
    rw [Tree.texts_cons, String.intercalate_cons_cons, String.toList_append,
      String.toList_append, hu,
      append_assoc]
    simp [behind]

/-- A text in brackets takes two levels of readers less its four characters. -/
theorem reads_bracketed {n : Nat} {q' : Quantifier}
    (h : ∀ {n}, s.length ≤ n → ReadsAt (grammarWithin n) 0 t q s)
    (hn : ('[' :: ' ' :: (s ++ [' ', ']']) ++ q'.render.toList).length ≤ n) (r : List Char) :
    Reads (unquantified (grammarWithin n)) t q ('[' :: ' ' :: (s ++ [' ', ']']) ++ r) r := by
  rcases n with _ | n
  · cases hn
  · have hlength : s.length ≤ n := by
      simp only [length_append, length_cons] at hn
      omega
    have hreads := reads_brackets (r := r) (h hlength)
    rw [cons_append, cons_append, append_assoc]
    exact hreads

theorem reads_call {name : List Char} (hne : name ≠ [])
    (hname : ∀ c ∈ name, isNameChar c = true) {n : Nat} {q' : Quantifier}
    (h : ∀ {n}, s.length ≤ n → ReadsAt (grammarWithin n) 0 t t.quantifier s)
    (hn : (name ++ '(' :: ' ' :: (s ++ [' ', ')']) ++ q'.render.toList).length ≤ n)
    (r : List Char) :
    Reads (unquantified (grammarWithin n)) (.function (String.ofList name) [t] q) .one
      (name ++ '(' :: ' ' :: (s ++ [' ', ')']) ++ r) r := by
  rcases n with _ | n
  · simp at hn
  · have hlength : s.length ≤ n := by
      simp only [length_append, length_cons] at hn
      omega
    have hreads := reads_function (q := q) (r := r) hne hname (h hlength)
    rw [append_assoc, cons_append, cons_append, append_assoc]
    exact hreads

/-- What is inside the brackets of a group. -/
def inside (full : Bool) (g : Grouping) (children : List Tree) : List Char :=
  (g.separator.intercalate (Tree.texts full (Tree.childLevel full g) children)).toList

theorem text_group (full : Bool) (level : Nat) (g : Grouping) (children : List Tree)
    (q : Quantifier) :
    (Tree.text full level (.group g children q)).toList =
      (if g.tightness < level || !q.isOne then
        '[' :: ' ' :: (inside full g children ++ [' ', ']'])
        else inside full g children) ++ q.render.toList := by
  rw [Tree.text_group, String.toList_append]
  split
  · simp only [String.toList_append, append_assoc, cons_append]
    rfl
  · rfl

/-- The level of the argument of a function. -/
def argumentLevel (full : Bool) : Nat := if full then 4 else 0

theorem text_function_nil (full : Bool) (level : Nat) (name : String) (q : Quantifier) :
    (Tree.text full level (.function name [] q)).toList =
      name.toList ++ ['(', ')'] ++ q.render.toList := by
  rw [Tree.text_function]
  simp only [isEmpty_nil, if_true, String.toList_append, append_assoc]
  rfl

theorem text_function_singleton (full : Bool) (level : Nat) (name : String) (t : Tree)
    (q : Quantifier) :
    (Tree.text full level (.function name [t] q)).toList =
      name.toList ++ '(' :: ' ' :: ((t.text full (argumentLevel full)).toList ++ [' ', ')']) ++
        q.render.toList := by
  rw [Tree.text_function, Tree.texts_cons, Tree.texts_nil, String.intercalate_singleton]
  simp only [isEmpty_cons, Bool.false_eq_true, if_false, String.toList_append, append_assoc,
    cons_append]
  rfl

/-- Whether a tree is read from the texts of another one at all levels, with readers that are deep
enough. -/
def ReadFrom (full : Bool) (t u : Tree) : Prop :=
  ∀ ⦃n level⦄, level ≤ 4 → (t.text full level).toList.length ≤ n →
    ReadsAt (grammarWithin n) level u u.quantifier (t.text full level).toList

theorem readsAt_inside {full : Bool} {g : Grouping} {children children' : List Tree}
    (hlength : 2 ≤ children.length)
    (hchildren : Forall₂ (ReadFrom full) children children') {n : Nat}
    (hn : (inside full g children).length ≤ n) :
    ReadsAt (grammarWithin n) g.tightness (.group g children' q) .one
      (inside full g children) := by
  have hle : g.tightness + 1 ≤ Tree.childLevel full g ∧ Tree.childLevel full g ≤ 4 := by
    cases full <;> cases g <;> decide
  cases hchildren with
  | nil => cases hlength
  | @cons t t' ts ts' hfirst hothers =>
    unfold inside at hn ⊢
    rw [toList_intercalate] at hn ⊢
    have hchild {u u' : Tree} (hu : ReadFrom full u u')
        (hn : (u.text full (Tree.childLevel full g)).toList.length ≤ n) :
        ReadsAt (grammarWithin n) (g.tightness + 1) u' u'.quantifier
          (u.text full (Tree.childLevel full g)).toList :=
      (hu hle.2 hn).of_le hle.1 hle.2
    refine readsAt_group (hchild hfirst ?_) ?_ ?_
    · rw [length_append] at hn
      omega
    · rw [forall₂_map_right_iff]
      refine ((forall₂_and_left _ _).mpr ⟨fun u hmem => hmem, hothers⟩).flip.imp ?_
      rintro u' u ⟨hmem, hu⟩
      have hle : (u.text full (Tree.childLevel full g)).toList.length ≤
          (behind g (ts.map fun u => (u.text full (Tree.childLevel full g)).toList)).length :=
        length_le_behind g (mem_map.mpr ⟨u, hmem, rfl⟩)
      refine hchild hu (Nat.le_trans hle ?_)
      rw [length_append] at hn
      omega
    · rintro rfl
      cases hothers
      simp at hlength

section ReadFrom

variable {full : Bool} {u : Tree}

theorem readFrom_function {name : String} {arguments : List Tree} (hcallable : Tree.Callable name)
    (hlength : arguments.length ≤ 1) (hq : q.Writable)
    (harguments : ∀ t ∈ arguments, ReadFrom full t t.unwrapped) :
    ReadFrom full (.function name arguments q)
      (.function name (Tree.unwrappedAll arguments) q) := by
  intro n level hlevel hn
  obtain ⟨hne, hchars⟩ := hcallable
  have hnil : name.toList ≠ [] := by simpa using hne
  have hof : String.ofList name.toList = name := String.ofList_toList
  rcases arguments with _ | ⟨t, _ | ⟨u, ts⟩⟩
  · rw [text_function_nil]
    refine ReadsAt.of_le (readsAt_component ((starts_name hnil hchars).append _) hq ?_)
      hlevel le_rfl
    intro r _
    have hreads : Reads (unquantified (grammarWithin n)) _ .one _ r :=
      reads_function_nil (q := q) hnil hchars
    rw [hof] at hreads
    rw [append_assoc]
    exact hreads
  · rw [text_function_singleton] at hn ⊢
    refine ReadsAt.of_le (readsAt_component ((starts_name hnil hchars).append _) hq ?_)
      hlevel le_rfl
    intro r _
    have hle : argumentLevel full ≤ 4 := by
      cases full <;> decide
    have hargument {n : Nat} (hn : (t.text full (argumentLevel full)).toList.length ≤ n) :=
      (harguments t mem_cons_self hle hn).of_le (Nat.zero_le _) hle
    have hreads := reads_call (q := q) hnil hchars hargument hn r
    rw [hof] at hreads
    exact hreads
  · simp at hlength

theorem readFrom_group {g : Grouping} {children children' : List Tree}
    (hlength : 2 ≤ children.length)
    (hq : q.Writable) (hchildren : Forall₂ (ReadFrom full) children children') :
    ReadFrom full (.group g children q) (.group g children' q) := by
  intro n level hlevel hn
  have hinside {n : Nat} (hn : (inside full g children).length ≤ n) :=
    readsAt_inside (q := q) hlength hchildren hn
  rw [text_group] at hn ⊢
  split at hn
  next hbracketed =>
    rw [if_pos hbracketed]
    refine ReadsAt.of_le (readsAt_component ⟨'[', _, rfl, rfl, rfl⟩ hq ?_) hlevel le_rfl
    intro r _
    exact reads_bracketed
      (fun hn => (hinside hn).of_le (Nat.zero_le _) (Nat.le_of_lt g.tightness_lt)) hn r
  next hbare =>
    rw [if_neg hbare]
    simp only [Bool.or_eq_true, decide_eq_true_eq, Bool.not_eq_true', not_or] at hbare
    have hone : q = .one := by simpa [Quantifier.isOne] using hbare.2
    subst hone
    have hnone : Quantifier.one.render.toList = [] := rfl
    rw [hnone, append_nil] at hn ⊢
    exact (hinside hn).of_le (Nat.le_of_not_lt hbare.1) (Nat.le_of_lt g.tightness_lt)

theorem inside_singleton (full : Bool) (g : Grouping) (t : Tree) :
    inside full g [t] = (t.text full (Tree.childLevel full g)).toList := by
  unfold inside
  rw [toList_intercalate]
  exact append_nil _

theorem childLevel_le (full : Bool) (g : Grouping) : Tree.childLevel full g ≤ 4 := by
  cases full <;> cases g <;> decide

/-- A single child in brackets. -/
theorem reads_singleton {n : Nat} (h : ReadFrom full t u)
    (hn : ('[' :: ' ' :: (inside full .sequence [t] ++ [' ', ']']) ++ q.render.toList).length ≤ n)
    (r : List Char) :
    Reads (unquantified (grammarWithin n)) u u.quantifier
      ('[' :: ' ' :: (inside full .sequence [t] ++ [' ', ']']) ++ r) r := by
  refine reads_bracketed (fun hn => ?_) hn r
  rw [inside_singleton] at hn ⊢
  exact (h (childLevel_le full .sequence) hn).of_le (Nat.zero_le _) (childLevel_le full .sequence)

/-- A child that has a quantifier already, and another one that is not plain. -/
theorem readFrom_wrapper (hq : q.Writable) (hplain : ¬q.Plain) (hquantified : u.quantifier ≠ .one)
    (h : ReadFrom full t u) : ReadFrom full (.group .sequence [t] q) (.group .sequence [u] q) := by
  intro n level hlevel hn
  have hone : q.isOne = false := by
    apply eq_false_of_ne_true
    intro hone
    rw [of_decide_eq_true hone] at hplain
    exact hplain ⟨rfl, rfl, rfl⟩
  rw [text_group, hone, Bool.not_false, Bool.or_true, if_pos rfl] at hn ⊢
  exact ReadsAt.of_le (readsAt_wrapper ⟨'[', _, rfl, rfl, rfl⟩ hq hplain hquantified
    fun _ => reads_singleton h hn _) hlevel le_rfl

/-- A child that is repeated exactly once. -/
theorem readFrom_plain (hplain : q.Plain) (h : ReadFrom full t u) :
    ReadFrom full (.group .sequence [t] q) (u.marked q.required) := by
  intro n level hlevel hn
  have hrender : q.render.toList = q.mark := by
    rw [Quantifier.render_toList, hplain.bounds_eq_empty]
    rfl
  rw [text_group] at hn ⊢
  split at hn
  next hbracketed =>
    rw [if_pos hbracketed, hrender]
    exact ReadsAt.of_le (readsAt_marked ⟨'[', _, rfl, rfl, rfl⟩ q fun _ => reads_singleton h hn _)
      hlevel le_rfl
  next hbare =>
    rw [if_neg hbare]
    simp only [Bool.or_eq_true, decide_eq_true_eq, Bool.not_eq_true', not_or] at hbare
    have hone : q = .one := by simpa [Quantifier.isOne] using hbare.2
    subst hone
    have hnone : Quantifier.one.render.toList = [] := rfl
    rw [hnone, append_nil, inside_singleton] at hn ⊢
    rw [show Quantifier.one.required = false from rfl, Tree.marked_false]
    exact (h (childLevel_le full .sequence) hn).of_le
      (Nat.le_trans (Nat.le_of_not_lt hbare.1) (by cases full <;> decide))
      (childLevel_le full .sequence)

end ReadFrom

/-- What is written for a tree at a level is read as that tree, but for groups that repeat a single
child exactly once. -/
theorem readFrom_of_parsed (ht : t.Parsed) (hsayable : t.Sayable) (full : Bool) :
    ReadFrom full t t.unwrapped := by
  induction ht with
  | @literal text q hq =>
    intro n level hlevel hn
    obtain ⟨hne, hquote⟩ := hsayable.literals text (mem_singleton.mpr rfl)
    rw [Tree.text_literal, String.toList_append]
    exact (readsAt_component (starts_literal hne) hq (reads_literal hne hquote)).of_le hlevel le_rfl
  | @dataType name q hprimitive hq =>
    intro n level hlevel hn
    rw [Tree.text_dataType, String.toList_append, String.toList_append, String.toList_append]
    refine ReadsAt.of_le (readsAt_component ⟨'<', _, rfl, rfl, rfl⟩ hq ?_) hlevel le_rfl
    intro r _
    rw [append_assoc, append_assoc]
    exact reads_dataType hprimitive
  | @reference name q hne hprimitive hchars hsuffix hq =>
    intro n level hlevel hn
    rw [Tree.text_reference, String.toList_append, String.toList_append, String.toList_append]
    refine ReadsAt.of_le (readsAt_component ⟨'<', _, rfl, rfl, rfl⟩ hq ?_) hlevel le_rfl
    intro r _
    rw [append_assoc, append_assoc]
    exact reads_reference hne hprimitive hchars hsuffix
  | @function name arguments q hlength hq _ ih =>
    exact readFrom_function (hsayable.functions name mem_cons_self) hlength hq
      fun t ht => ih t ht (hsayable.argument ht)
  | @group g children q hlength hq _ ih =>
    have hlength' : 2 ≤ (Tree.unwrappedAll children).length := by
      rwa [Tree.unwrappedAll_eq_map, length_map]
    rw [Tree.unwrapped, Tree.grouped_of_two hlength']
    refine readFrom_group hlength hq ?_
    rw [Tree.unwrappedAll_eq_map, forall₂_map_right_iff, forall₂_same]
    exact fun t ht => ih t ht (hsayable.child ht)
  | @wrapper t q hquantified hq ht ih =>
    have hread := ih (hsayable.child (mem_singleton.mpr rfl))
    rw [Tree.unwrapped, Tree.unwrappedAll, Tree.unwrappedAll, Tree.grouped]
    by_cases hplain : q.Plain
    · rw [if_pos hplain]
      exact readFrom_plain hplain hread
    · rw [if_neg hplain]
      exact readFrom_wrapper hq hplain (ht.quantifier_unwrapped hquantified) hread

/-- What is written for a tree at a level is read as that tree. -/
theorem readFrom_of_wellFormed (ht : t.WellFormed) (full : Bool) : ReadFrom full t t := by
  have hread := readFrom_of_parsed ht.parsed ht.sayable full
  rwa [ht.unwrapped_eq] at hread

theorem run_wholeGrammar {u : Tree} {full : Bool} (h : ReadFrom full t u) (source : List Char)
    (a : Arena) :
    ∃ id a', (wholeGrammar ((t.text full 0).toList.length + 1)).run
        ⟨source, (t.text full 0).toList, a⟩ = (.ok id, ⟨source, [], a'⟩) ∧
      a.Made a' u u.quantifier id := by
  rcases (h (Nat.zero_le 4) le_rfl).reads (.inl rfl) source a with ⟨id, a', hrun, hmade⟩
  refine ⟨id, a', ?_, hmade⟩
  rw [append_nil] at hrun
  change (grammarWithin (_ + 1)).run _ = (_, ⟨source, [], a'⟩) at hrun
  rw [wholeGrammar, run_bind_of_ok hrun]
  rfl

end Definition

namespace Arena

/-- Whether a text, when it is read into a new arena, yields a tree.  Its references then go to the
slots of their names. -/
def Defines (text : String) (t : Tree) : Prop :=
  ∃ root, (empty.define text).1 = .ok root ∧ (empty.define text).2.Holds t root ∧
    (empty.define text).2.Linked

theorem defines_of_readFrom {t u : Tree} {full : Bool} (h : Definition.ReadFrom full t u) :
    Defines (t.text full 0) u := by
  rcases Definition.run_wholeGrammar h (t.text full 0).toList empty with
    ⟨root, a', hrun, hmade⟩
  have hdefine : empty.define (t.text full 0) = (.ok root, a') := Definition.define_of_run hrun
  have hlinked := linked_empty.define (t.text full 0)
  unfold Defines
  rw [hdefine] at hlinked ⊢
  exact ⟨root, rfl, hmade.holds, hlinked⟩

theorem defines_text {t : Tree} (ht : t.WellFormed) (full : Bool) : Defines (t.text full 0) t :=
  defines_of_readFrom (Definition.readFrom_of_wellFormed ht full)

/-- Reading undoes writing: the text of any node that stands for a tree, and the text of the tree
with no more brackets than it needs, define the tree. -/
theorem defines_render {t : Tree} (ht : t.WellFormed) :
    (∀ (a : Arena) (id : NodeId), a.Holds t id → Defines (a.render id) t) ∧
      Defines (t.text false 0) t := by
  constructor
  · intro a id hholds
    rw [hholds.render_eq]
    exact defines_text ht true
  · exact defines_text ht false

/-- The grammar `[ a? ]# | <x>`, in which a list repeats what may be left out. -/
def optionalList : Tree :=
  .group .alternation
    [.group .sequence [.literal "a" ⟨0, some 1, none, false⟩] ⟨1, none, some ',', false⟩,
      .reference "x" .one] .one

theorem wellFormed_optionalList : optionalList.WellFormed := by
  have hone : Quantifier.one.Writable :=
    ⟨Quantifier.proper_one, by decide, by simp [Quantifier.one]⟩
  have hlist : (Tree.group .sequence [.literal "a" ⟨0, some 1, none, false⟩]
      ⟨1, none, some ',', false⟩).WellFormed := by
    refine .wrapper (by decide) (by simp [Quantifier.Plain])
      ⟨⟨by simp, .inr rfl⟩, by decide, by simp⟩ ?_
    exact .literal (by decide) (by decide) ⟨⟨by simp, .inl rfl⟩, by decide, by simp⟩
  have hreference : (Tree.reference "x" .one).WellFormed := by
    refine .reference (by decide) (by decide) ?_ (by decide) hone
    intro c hc
    cases List.mem_singleton.mp hc
    decide
  refine .group (Nat.le_refl 2) hone ?_
  intro t ht
  rcases List.mem_cons.mp ht with rfl | ht
  · exact hlist
  · rw [List.mem_singleton.mp ht]
    exact hreference

theorem defines_optionalList :
    (∃ (a : Arena) (id : NodeId), a.Holds optionalList id ∧ a.render id = "[ a? ]# | <x>" ∧
      Defines (a.render id) optionalList) ∧
      Defines "[ a? ]# | <x>" optionalList := by
  have htext (full : Bool) : optionalList.text full 0 = "[ a? ]# | <x>" := by
    cases full <;> decide +kernel
  have hdefines := (defines_render wellFormed_optionalList).2
  rw [htext] at hdefines
  refine ⟨?_, hdefines⟩
  rcases hdefines with ⟨root, -, hholds, -⟩
  generalize (empty.define "[ a? ]# | <x>").2 = a at hholds
  exact ⟨a, root, hholds, hholds.render_eq.trans (htext true),
    (defines_render wellFormed_optionalList).1 a root hholds⟩

/-- The blanks that a definition need not have are written. -/
example : (empty.define "[a?]#|<x>").1.toOption.map (empty.define "[a?]#|<x>").2.render =
    some "[ a? ]# | <x>" := by
  decide +kernel

end Arena

end StyleGrammar

import StyleGrammar.Proofs.Definition.Slices

/-!
# Running the reader of definitions

What each primitive of the reader does to its state, and what a property of
arenas needs to survive a whole reading.  A property that survives the
primitives survives every reader, also one that ends in a fault
(`keeps_grammarWithin`).
-/

namespace StyleGrammar

namespace Definition

variable {α β : Type} {s : State}

theorem run_bind (p : Parser α) (f : α → Parser β) (s : State) :
    (p >>= f).run s = match p.run s with
      | (.ok a, s') => (f a).run s'
      | (.error e, s') => (.error e, s') := by
  change (match p s with | (a, s') => ExceptT.bindCont f a s') = _
  change _ = match p s with
    | (.ok a, s') => (f a).run s'
    | (.error e, s') => (.error e, s')
  rcases p s with ⟨a, s'⟩
  cases a <;> rfl

@[simp] theorem run_pure (a : α) : (pure a : Parser α).run s = (.ok a, s) := rfl

@[simp] theorem run_fail (cause : GrammarCause) :
    (fail cause : Parser α).run s = (.error (.fault ⟨cause, s.column⟩), s) := rfl

@[simp] theorem run_throw (halt : Halt) : (throw halt : Parser α).run s = (.error halt, s) := rfl

@[simp] theorem run_checked_some (a : α) : (checked (some a)).run s = (.ok a, s) := rfl

@[simp] theorem run_rest : rest.run s = (.ok s.rest, s) := rfl

@[simp] theorem run_setRest (r : List Char) :
    (setRest r).run s = (.ok (), { s with rest := r }) := rfl

@[simp] theorem run_skipBlanks :
    skipBlanks.run s = (.ok (), { s with rest := s.rest.dropWhile Blank }) := rfl

@[simp] theorem run_slot (name : String) :
    (slot name).run s = (.ok (s.arena.slot name).1, { s with arena := (s.arena.slot name).2 }) :=
  rfl

@[simp] theorem run_quantifierOf (id : NodeId) :
    (quantifierOf id).run s = (.ok (s.arena.node id).quantifier, s) := rfl

@[simp] theorem run_setQuantifier (id : NodeId) (q : Quantifier) :
    (setQuantifier id q).run s =
      (.ok (), { s with arena := s.arena.modify id fun n => { n with quantifier := q } }) := rfl

theorem run_bind_of_ok {p : Parser α} {f : α → Parser β} {s s' : State} {a : α}
    (hrun : p.run s = (.ok a, s')) : (p >>= f).run s = (f a).run s' := by
  rw [run_bind, hrun]

theorem run_advance {count : Nat} {r : List Char} (h : behind? count s.rest = some r) :
    (advance count).run s = (.ok (), { s with rest := r }) := by
  rw [advance, run_bind_of_ok run_rest, h]
  rfl

/-- The node that is added for a text that was read. -/
def newNode (kind : NodeKind) (text : List Char) : Node :=
  ⟨kind, .one, String.ofList (trimmed whiteSpace text), none⟩

theorem run_push {kind : NodeKind} {source start r text : List Char} {a : Arena}
    (h : between? start r = some text) :
    (push kind start).run ⟨source, r, a⟩ =
      (.ok a.size, ⟨source, r, a.push (newNode kind text)⟩) := by
  rw [push, run_bind_of_ok run_rest, h]
  rfl

/-- What is pushed was read between two points of the text. -/
theorem run_push_eq_ok {kind : NodeKind} {start : List Char} {id : NodeId} {s' : State}
    (h : (push kind start).run s = (.ok id, s')) :
    ∃ text, between? start s.rest = some text ∧ id = s.arena.size ∧
      s' = { s with arena := s.arena.push (newNode kind text) } := by
  cases hslice : between? start s.rest with
  | none =>
    rw [push, run_bind_of_ok run_rest, hslice] at h
    cases h
  | some text =>
    rw [run_push hslice] at h
    cases h
    exact ⟨text, rfl, rfl, rfl⟩

@[simp] theorem checked_some_bind (x : α) (f : α → Parser β) : checked (some x) >>= f = f x := rfl

section

variable {source r : List Char} {a : Arena}

theorem run_rest_bind (f : List Char → Parser β) :
    (rest >>= f).run ⟨source, r, a⟩ = (f r).run ⟨source, r, a⟩ := rfl

theorem run_setRest_bind (r' : List Char) (f : Unit → Parser β) :
    (setRest r' >>= f).run ⟨source, r, a⟩ = (f ()).run ⟨source, r', a⟩ := rfl

theorem run_advance_bind {count : Nat} {r' : List Char} (h : behind? count r = some r')
    (f : Unit → Parser β) :
    (advance count >>= f).run ⟨source, r, a⟩ = (f ()).run ⟨source, r', a⟩ :=
  run_bind_of_ok (run_advance h)

theorem run_skipBlanks_bind (f : Unit → Parser β) :
    (skipBlanks >>= f).run ⟨source, r, a⟩ = (f ()).run ⟨source, r.dropWhile Blank, a⟩ := rfl

end

/-! ## Properties that survive a reading -/

/-- A reader keeps a property of the arena, and what it returns has a property of its own. -/
def Keeps (I : Arena → Prop) (post : α → Prop) (p : Parser α) : Prop :=
  ∀ s, I s.arena → I (p.run s).2.arena ∧ ∀ a, (p.run s).1 = .ok a → post a

variable {I : Arena → Prop} {post : α → Prop} {post' : β → Prop}

theorem Keeps.bind {p : Parser α} {f : α → Parser β} (hp : Keeps I post p)
    (hf : ∀ a, post a → Keeps I post' (f a)) : Keeps I post' (p >>= f) := by
  intro s hs
  obtain ⟨hp, hpost⟩ := hp s hs
  rw [run_bind]
  rcases hrun : p.run s with ⟨r, s'⟩
  rw [hrun] at hp hpost
  cases r with
  | error e => exact ⟨hp, by simp⟩
  | ok a => exact hf a (hpost a rfl) s' hp

theorem keeps_pure {a : α} (ha : post a) : Keeps I post (pure a : Parser α) := by
  intro s hs
  refine ⟨hs, ?_⟩
  rintro b hb
  cases hb
  exact ha

theorem keeps_fail {cause : GrammarCause} : Keeps I post (fail cause : Parser α) :=
  fun _ hs => ⟨hs, by simp⟩

/-- Nothing runs behind a fault. -/
theorem keeps_fail_bind {cause : GrammarCause} {f : α → Parser β} :
    Keeps I post' ((fail cause : Parser α) >>= f) := by
  have hfail : Keeps I (fun _ => False) (fail cause : Parser α) := keeps_fail
  exact hfail.bind fun _ h => h.elim

theorem keeps_throw {halt : Halt} : Keeps I post (throw halt : Parser α) :=
  fun _ hs => ⟨hs, by simp⟩

section

variable {f : List Char → Parser β}

/-- Looking at the text that is left keeps everything, and so do the steps that only move on. -/
theorem keeps_rest_bind (hf : ∀ r, Keeps I post' (f r)) : Keeps I post' (rest >>= f) := by
  intro s hs
  exact hf s.rest s hs

theorem keeps_setRest_bind {r : List Char} {g : Unit → Parser β} (hg : Keeps I post' (g ())) :
    Keeps I post' (setRest r >>= g) := by
  intro s hs
  exact hg { s with rest := r } hs

theorem keeps_checked_bind {slice? : Option α} {g : α → Parser β}
    (hg : ∀ x, slice? = some x → Keeps I post' (g x)) : Keeps I post' (checked slice? >>= g) := by
  cases slice? with
  | none => exact fun _ hs => ⟨hs, by rintro _ ⟨⟩⟩
  | some x => exact hg x rfl

theorem keeps_advance_bind {count : Nat} {g : Unit → Parser β} (hg : Keeps I post' (g ())) :
    Keeps I post' (advance count >>= g) := by
  rw [advance, bind_assoc]
  refine keeps_rest_bind fun r => ?_
  rw [bind_assoc]
  exact keeps_checked_bind fun _ _ => keeps_setRest_bind hg

theorem keeps_skipBlanks_bind (hf : ∀ r, Keeps I post' (f r)) :
    Keeps I post' (skipBlanks >>= fun _ => rest >>= f) := by
  intro s hs
  exact hf (s.rest.dropWhile Blank) { s with rest := s.rest.dropWhile Blank } hs

end

/-- What a property of arenas has to survive: a new node, the slot of a name and a reference to it,
and another quantifier among those that multipliers can make. -/
structure Survives (I : Arena → Prop) (good : Quantifier → Prop) : Prop where
  push : ∀ {a kind raw}, (∀ name target, kind ≠ .reference name target) → I a →
    I (a.push ⟨kind, .one, raw, none⟩)
  slot : ∀ {a name}, I a → I (a.slot name).2
  reference : ∀ {a name raw}, I a →
    I ((a.slot name).2.push ⟨.reference name (a.slot name).1, .one, raw, none⟩)
  quantifier : ∀ {a id q}, I a → good q → I (a.modify id fun n => { n with quantifier := q })
  good_of_node : ∀ {a id}, I a → good (a.node id).quantifier
  good_one_char : ∀ {c q}, quantifier? c = some q → good q
  good_bounds : ∀ {body q}, bounds? body = some q → good q
  good_required : ∀ {q}, good q → good { q with required := true }
  good_refined : ∀ {q b}, good q → good b → good { q with min := b.min, max? := b.max? }
  good_zero : ∀ {q}, good q → good { q with min := 0 }

variable {good : Quantifier → Prop}

theorem keeps_push (hI : Survives I good) {kind : NodeKind} {start : List Char}
    (hkind : ∀ name target, kind ≠ .reference name target) :
    Keeps I (fun _ => True) (push kind start) :=
  keeps_rest_bind fun _ => keeps_checked_bind fun _ _ =>
    fun _ hs => ⟨hI.push hkind hs, fun _ _ => trivial⟩

theorem keeps_reference (hI : Survives I good) {name : String} {start : List Char} :
    Keeps I (fun _ => True) (do
      let target ← slot name
      push (.reference name target) start) := by
  intro s hs
  rw [run_bind_of_ok (run_slot name), push, run_bind_of_ok run_rest]
  cases between? start s.rest with
  | none => exact ⟨hI.slot hs, fun _ _ => trivial⟩
  | some text => exact ⟨hI.reference hs, fun _ _ => trivial⟩

theorem keeps_quantifierOf (hI : Survives I good) {id : NodeId} :
    Keeps I good (quantifierOf id) := by
  intro s hs
  refine ⟨hs, ?_⟩
  rintro q hq
  cases hq
  exact hI.good_of_node hs

theorem keeps_setQuantifier (hI : Survives I good) {id : NodeId} {q : Quantifier}
    (hq : good q) : Keeps I (fun _ => True) (setQuantifier id q) :=
  fun _ hs => ⟨hI.quantifier hs hq, fun _ _ => trivial⟩

theorem keeps_peekCombinator : Keeps I (fun _ => True) peekCombinator := by
  unfold peekCombinator
  apply keeps_skipBlanks_bind
  intro r
  split
  · split
    · dsimp only
      split
      · exact keeps_pure trivial
      · exact keeps_pure trivial
      · exact keeps_pure trivial
      · exact keeps_checked_bind fun _ _ => keeps_fail
    · exact keeps_pure trivial
  · exact keeps_pure trivial

theorem keeps_moreOperands {c : Combinator} {operand : Parser NodeId}
    (hoperand : Keeps I (fun _ => True) operand) (count : Nat) :
    Keeps I (fun _ => True) (moreOperands c operand count) := by
  induction count with
  | zero => exact keeps_throw
  | succ n ih =>
    unfold moreOperands
    apply keeps_peekCombinator.bind
    intro next _
    split
    · split
      · apply keeps_advance_bind
        apply hoperand.bind
        intro _ _
        apply ih.bind
        intro _ _
        exact keeps_pure trivial
      · exact keeps_pure trivial
    · exact keeps_pure trivial

theorem keeps_combined (hI : Survives I good) {c : Combinator} {operand : Parser NodeId}
    (hoperand : Keeps I (fun _ => True) operand) :
    Keeps I (fun _ => True) (combined c operand) := by
  unfold combined
  apply keeps_skipBlanks_bind
  intro start
  apply hoperand.bind
  intro first _
  apply (keeps_moreOperands hoperand _).bind
  intro others _
  split
  · exact keeps_pure trivial
  · exact keeps_push hI (by cases c <;> simp [Combinator.kind])

theorem keeps_components {component : Parser NodeId}
    (hcomponent : Keeps I (fun _ => True) component) (count : Nat) :
    Keeps I (fun _ => True) (components component count) := by
  induction count with
  | zero => exact keeps_throw
  | succ n ih =>
    unfold components
    apply keeps_skipBlanks_bind
    intro r
    split
    · exact keeps_pure trivial
    · exact hcomponent.bind fun _ _ => ih.bind fun _ _ => keeps_pure trivial

theorem keeps_juxtaposition (hI : Survives I good) {component : Parser NodeId}
    (hcomponent : Keeps I (fun _ => True) component) :
    Keeps I (fun _ => True) (juxtaposition component) := by
  unfold juxtaposition
  apply keeps_skipBlanks_bind
  intro start
  apply (keeps_components hcomponent _).bind
  intro ids _
  split
  · apply keeps_rest_bind
    intro r
    split <;> exact keeps_fail
  · exact keeps_pure trivial
  · exact keeps_push hI (by simp)

theorem keeps_dataType (hI : Survives I good) {start : List Char} :
    Keeps I (fun _ => True) (dataType start) := by
  unfold dataType
  apply keeps_rest_bind
  intro r
  split
  · exact keeps_fail
  · apply keeps_checked_bind
    intro inner _
    apply keeps_advance_bind
    apply keeps_checked_bind
    intro name _
    dsimp only
    split
    · exact keeps_fail_bind
    · split
      · exact keeps_push hI (by simp)
      · split
        · exact keeps_push hI (by simp)
        · exact keeps_reference hI

theorem keeps_function (hI : Survives I good) {inner : Parser NodeId} {name : String}
    {start : List Char} (hinner : Keeps I (fun _ => True) inner) :
    Keeps I (fun _ => True) (function inner name start) := by
  have hchildren (children : List NodeId) :
      Keeps I (fun _ => True) (pure children : Parser (List NodeId)) := keeps_pure trivial
  unfold function
  apply keeps_advance_bind
  apply keeps_skipBlanks_bind
  intro r
  split
  case' isTrue => apply (hchildren []).bind
  case' isFalse =>
    apply hinner.bind
    intro id _
    apply (hchildren [id]).bind
  all_goals
    intro children _
    apply keeps_skipBlanks_bind
    intro r
    split
    · exact keeps_advance_bind (keeps_push hI (by simp))
    · exact keeps_fail

theorem keeps_range (hI : Survives I good) : Keeps I good range := by
  unfold range
  apply keeps_rest_bind
  intro r
  split
  · exact keeps_fail
  · apply keeps_checked_bind
    intro text _
    apply keeps_checked_bind
    intro body _
    split
    next q hbounds => exact keeps_advance_bind (keeps_pure (hI.good_bounds hbounds))
    next => exact keeps_fail

theorem keeps_quantify (hI : Survives I good) {id : NodeId} {q : Quantifier}
    {start : List Char} (hq : good q) : Keeps I (fun _ => True) (quantify id q start) := by
  unfold quantify
  apply (keeps_quantifierOf hI).bind
  intro old _
  split
  · exact (keeps_setQuantifier hI hq).bind fun _ _ => keeps_pure trivial
  · apply (keeps_push hI (by simp)).bind
    intro wrapper _
    exact (keeps_setQuantifier hI hq).bind fun _ _ => keeps_pure trivial

theorem keeps_multipliers (hI : Survives I good) {start : List Char} (count : Nat)
    (afterHash : Bool) (id : NodeId) :
    Keeps I (fun _ => True) (multipliers start count afterHash id) := by
  induction count generalizing afterHash id with
  | zero => exact keeps_throw
  | succ n ih =>
    unfold multipliers
    apply keeps_rest_bind
    intro r
    split
    · exact keeps_pure trivial
    · apply keeps_advance_bind
      apply (keeps_quantifierOf hI).bind
      intro q hq
      exact (keeps_setQuantifier hI (hI.good_required hq)).bind fun _ _ => ih _ _
    · apply (keeps_range hI).bind
      intro b hb
      split
      · apply (keeps_quantifierOf hI).bind
        intro q hq
        exact (keeps_setQuantifier hI (hI.good_refined hq hb)).bind fun _ _ => ih _ _
      · exact (keeps_quantify hI hb).bind fun _ _ => ih _ _
    · split
      · exact keeps_pure trivial
      next q hq =>
        apply keeps_advance_bind
        split
        · apply (keeps_quantifierOf hI).bind
          intro q hq
          exact (keeps_setQuantifier hI (hI.good_zero hq)).bind fun _ _ => ih _ _
        · exact (keeps_quantify hI (hI.good_one_char hq)).bind fun _ _ => ih _ _

theorem keeps_group {inner : Parser NodeId} (hinner : Keeps I (fun _ => True) inner) :
    Keeps I (fun _ => True) (group inner) := by
  unfold group
  apply keeps_skipBlanks_bind
  intro r
  dsimp only
  split
  · exact keeps_fail_bind
  · apply hinner.bind
    intro id _
    apply keeps_skipBlanks_bind
    intro r
    split
    · exact keeps_advance_bind (keeps_pure trivial)
    · exact keeps_fail

theorem keeps_unquantified (hI : Survives I good) {inner : Parser NodeId}
    (hinner : Keeps I (fun _ => True) inner) : Keeps I (fun _ => True) (unquantified inner) := by
  unfold unquantified
  apply keeps_rest_bind
  intro start
  split
  · exact keeps_fail
  · exact keeps_advance_bind (keeps_group hinner)
  · exact keeps_dataType hI
  · split
    · apply keeps_checked_bind
      intro r _
      split
      · exact keeps_fail
      · apply keeps_checked_bind
        intro text _
        apply keeps_checked_bind
        intro behind _
        exact keeps_setRest_bind (keeps_push hI (by simp))
    · split
      · exact keeps_advance_bind (keeps_push hI (by simp))
      · split
        · apply keeps_checked_bind
          intro name _
          apply keeps_advance_bind
          apply keeps_rest_bind
          intro r
          split
          · exact keeps_function hI hinner
          · exact keeps_push hI (by simp)
        · exact keeps_fail

theorem keeps_component (hI : Survives I good) {inner : Parser NodeId}
    (hinner : Keeps I (fun _ => True) inner) : Keeps I (fun _ => True) (component inner) := by
  unfold component
  apply keeps_rest_bind
  intro start
  apply (keeps_unquantified hI hinner).bind
  intro id _
  exact keeps_multipliers hI _ _ _

theorem keeps_grammarWithin (hI : Survives I good) (depth : Nat) :
    Keeps I (fun _ => True) (grammarWithin depth) := by
  induction depth with
  | zero => exact keeps_throw
  | succ n ih =>
    exact keeps_combined hI (keeps_combined hI (keeps_combined hI
      (keeps_juxtaposition hI (keeps_component hI ih))))

theorem keeps_wholeGrammar (hI : Survives I good) (depth : Nat) :
    Keeps I (fun _ => True) (wholeGrammar depth) := by
  unfold wholeGrammar
  apply (keeps_grammarWithin hI depth).bind
  intro root _
  apply keeps_skipBlanks_bind
  intro r
  split
  · exact keeps_pure trivial
  · exact keeps_fail

theorem define_eq (a : Arena) (text : String) :
    a.define text =
      let out := (wholeGrammar (text.toList.length + 1)).run ⟨text.toList, text.toList, a⟩
      (out.1.mapError (·.reported), out.2.arena) := rfl

theorem run_of_define {a : Arena} {text : String} {root : NodeId}
    (h : (a.define text).1 = .ok root) :
    ∃ s, (wholeGrammar (text.toList.length + 1)).run ⟨text.toList, text.toList, a⟩ =
      (.ok root, s) ∧ s.arena = (a.define text).2 := by
  rw [define_eq] at h ⊢
  rcases hrun : (wholeGrammar (text.toList.length + 1)).run ⟨text.toList, text.toList, a⟩ with
    ⟨halt | root', s⟩
  · rw [hrun] at h
    cases h
  · rw [hrun] at h
    cases h
    exact ⟨s, rfl, rfl⟩

theorem define_of_run {a : Arena} {text : String} {root : NodeId} {s : State}
    (h : (wholeGrammar (text.toList.length + 1)).run ⟨text.toList, text.toList, a⟩ =
      (.ok root, s)) : a.define text = (.ok root, s.arena) := by
  rw [define_eq, h]
  rfl

/-- A definition that is read, or that ends in a fault, keeps what survives its steps. -/
theorem define_keeps (hI : Survives I good) {a : Arena} (ha : I a) (text : String) :
    I (a.define text).2 := by
  rw [define_eq]
  exact (keeps_wholeGrammar hI _ _ ha).1

end Definition

end StyleGrammar

import StyleGrammar.Proofs.Definition.Levels
import StyleGrammar.Proofs.Definition.Lockstep

/-!
# Reading a text into two arenas

Every reader takes the same steps in two arenas, stops at the same place and ends
with the same fault or with nodes that are a pair.  So what a text defines does
not depend on the arena that it is read into (`alike_define`).
-/

namespace StyleGrammar

open List

namespace Definition

variable {b b' a a' : Arena} {ps : Pairs}

/-! ## Readers in lockstep -/

/-- Readings that stop at the same place, for the same reason or with results that are alike. -/
inductive SameEnd {α β : Type} (b b' : Arena) (ps : Pairs) (post : Pairs → α → β → Prop)
    (source : List Char) : Except Halt α × State → Except Halt β × State → Prop
  | ok {qs : Pairs} {a a' : Arena} {r : List Char} {x : α} {y : β} (hsub : ps ⊆ qs)
      (h : Lockstep b b' qs a a') (hpost : post qs x y) :
      SameEnd b b' ps post source (.ok x, ⟨source, r, a⟩) (.ok y, ⟨source, r, a'⟩)
  | error {qs : Pairs} {a a' : Arena} {r : List Char} (halt : Halt) (hsub : ps ⊆ qs)
      (h : Lockstep b b' qs a a') :
      SameEnd b b' ps post source (.error halt, ⟨source, r, a⟩) (.error halt, ⟨source, r, a'⟩)

/-- Two readers end the same way on every text, from all arenas in lockstep that have the pairs. -/
def Alike {α β : Type} (b b' : Arena) (ps : Pairs) (post : Pairs → α → β → Prop) (p : Parser α)
    (p' : Parser β) : Prop :=
  ∀ ⦃qs a a'⦄, ps ⊆ qs → Lockstep b b' qs a a' → ∀ source r,
    SameEnd b b' qs post source (p.run ⟨source, r, a⟩) (p'.run ⟨source, r, a'⟩)

/-- Results that are the same. -/
def Same {α : Type} (_ : Pairs) (x y : α) : Prop := x = y

/-- Results that are a pair of nodes. -/
def Paired (ps : Pairs) (id id' : NodeId) : Prop := (id, id') ∈ ps

section Alike

variable {α β γ δ : Type} {post : Pairs → α → β → Prop} {post' : Pairs → γ → δ → Prop}
variable {p : Parser α} {p' : Parser β} {f : α → Parser γ} {f' : β → Parser δ}

theorem Alike.mono {qs : Pairs} (h : Alike b b' ps post p p') (hsub : ps ⊆ qs) :
    Alike b b' qs post p p' :=
  fun _ _ _ hqs => h (List.Subset.trans hsub hqs)

theorem Alike.bind (hp : Alike b b' ps post p p')
    (hf : ∀ ⦃qs x y⦄, ps ⊆ qs → post qs x y → Alike b b' qs post' (f x) (f' y)) :
    Alike b b' ps post' (p >>= f) (p' >>= f') := by
  intro qs a a' hsub hlock source r
  rw [run_bind, run_bind]
  have hend := hp hsub hlock source r
  generalize p.run ⟨source, r, a⟩ = out at hend ⊢
  generalize p'.run ⟨source, r, a'⟩ = out' at hend ⊢
  cases hend with
  | error e hqs h => exact .error e hqs h
  | @ok rs a₁ a₁' r₁ x y hqs h hpost =>
    have hnext := hf (List.Subset.trans hsub hqs) hpost (Subset.refl rs) h source r₁
    dsimp only
    generalize (f x).run ⟨source, r₁, a₁⟩ = out at hnext ⊢
    generalize (f' y).run ⟨source, r₁, a₁'⟩ = out' at hnext ⊢
    cases hnext with
    | ok hrs h hpost => exact .ok (List.Subset.trans hqs hrs) h hpost
    | error e hrs h => exact .error e (List.Subset.trans hqs hrs) h

theorem alike_pure {x : α} {y : β} (h : ∀ qs, ps ⊆ qs → post qs x y) :
    Alike b b' ps post (pure x) (pure y) :=
  fun _ _ _ hsub hlock _ _ => .ok (Subset.refl _) hlock (h _ hsub)

theorem alike_fail (cause : GrammarCause) : Alike b b' ps post (fail cause) (fail cause) :=
  fun _ _ _ _ hlock _ _ => .error _ (Subset.refl _) hlock

theorem alike_throw {halt : Halt} : Alike b b' ps post (throw halt) (throw halt) :=
  fun _ _ _ _ hlock _ _ => .error _ (Subset.refl _) hlock

/-- Nothing runs behind a fault. -/
theorem alike_fail_bind (cause : GrammarCause) :
    Alike b b' ps post' (fail cause >>= f) (fail cause >>= f') := by
  have hfail : Alike b b' ps (fun _ _ _ => False) (fail cause : Parser α)
    (fail cause : Parser β) := alike_fail cause
  exact hfail.bind fun _ _ _ _ h => h.elim

end Alike

section Steps

variable {γ δ : Type} {post' : Pairs → γ → δ → Prop} {id id' : NodeId} {start : List Char}

/-- Both readers look at the same text. -/
theorem alike_rest_bind {f : List Char → Parser γ} {f' : List Char → Parser δ}
    (hf : ∀ r, Alike b b' ps post' (f r) (f' r)) : Alike b b' ps post' (rest >>= f) (rest >>= f') :=
  fun _ _ _ hsub hlock source r => hf r hsub hlock source r

theorem alike_setRest_bind {r : List Char} {f : Unit → Parser γ} {f' : Unit → Parser δ}
    (hf : Alike b b' ps post' (f ()) (f' ())) :
    Alike b b' ps post' (setRest r >>= f) (setRest r >>= f') :=
  fun _ _ _ hsub hlock source _ => hf hsub hlock source r

/-- Both readers take the same slice. -/
theorem alike_checked_bind {α : Type} {slice : Option α} {f : α → Parser γ} {f' : α → Parser δ}
    (hf : ∀ x, Alike b b' ps post' (f x) (f' x)) :
    Alike b b' ps post' (checked slice >>= f) (checked slice >>= f') := by
  cases slice with
  | none => exact fun _ _ _ _ hlock _ _ => .error _ (Subset.refl _) hlock
  | some x => exact hf x

theorem alike_advance_bind {count : Nat} {f : Unit → Parser γ} {f' : Unit → Parser δ}
    (hf : Alike b b' ps post' (f ()) (f' ())) :
    Alike b b' ps post' (advance count >>= f) (advance count >>= f') := by
  rw [advance, bind_assoc, bind_assoc]
  refine alike_rest_bind fun r => ?_
  rw [bind_assoc, bind_assoc]
  exact alike_checked_bind fun _ => alike_setRest_bind hf

theorem alike_skipBlanks_bind {f : List Char → Parser γ} {f' : List Char → Parser δ}
    (hf : ∀ r, Alike b b' ps post' (f r) (f' r)) :
    Alike b b' ps post' (skipBlanks >>= fun _ => rest >>= f)
      (skipBlanks >>= fun _ => rest >>= f') :=
  fun _ _ _ hsub hlock source r => hf (r.dropWhile Blank) hsub hlock source (r.dropWhile Blank)

theorem alike_push {kind kind' : NodeKind} (hkind : ps.Make kind kind') :
    Alike b b' ps Paired (push kind start) (push kind' start) := by
  refine alike_rest_bind fun r => alike_checked_bind fun text => ?_
  intro qs a a' hsub hlock source r
  exact .ok (subset_cons_self _ _) (hlock.push _ (hkind.mono hsub)) mem_cons_self

theorem alike_refer (name : String) :
    Alike b b' ps Paired (do push (.reference name (← slot name)) start)
      (do push (.reference name (← slot name)) start) := by
  intro qs a a' hsub hlock source r
  rw [run_bind_of_ok (run_slot name), run_bind_of_ok (run_slot name), push, push,
    run_bind_of_ok run_rest, run_bind_of_ok run_rest]
  cases between? start r with
  | none => exact .error _ (Subset.refl _) (hlock.slot name)
  | some text => exact .ok (subset_cons_self _ _) (hlock.refer name _) mem_cons_self

/-- The quantifiers of a pair of nodes are the same. -/
theorem alike_quantifierOf (hmem : (id, id') ∈ ps) :
    Alike b b' ps (fun _ q q' => q = q' ∧ q.Proper) (quantifierOf id) (quantifierOf id') := by
  intro qs a a' hsub hlock source r
  exact .ok (Subset.refl _) hlock
    ⟨(hlock.like (hsub hmem)).quantifier_eq, (hlock.new.2 _ (hsub hmem)).proper⟩

theorem alike_setQuantifier (hmem : (id, id') ∈ ps) {q : Quantifier} (hq : q.Proper) :
    Alike b b' ps (fun _ _ _ => True) (setQuantifier id q) (setQuantifier id' q) := by
  intro qs a a' hsub hlock source r
  exact .ok (Subset.refl _) (hlock.quantify (hsub hmem) hq) trivial

end Steps

/-! ## All readers -/

section Readers

variable {inner operand reader : Parser NodeId} {start : List Char} {id id' : NodeId}

theorem alike_peekCombinator : Alike b b' ps Same peekCombinator peekCombinator := by
  unfold peekCombinator
  apply alike_skipBlanks_bind
  intro r
  split
  · split
    · dsimp only
      split
      · exact alike_pure fun _ _ => rfl
      · exact alike_pure fun _ _ => rfl
      · exact alike_pure fun _ _ => rfl
      · exact alike_checked_bind fun _ => alike_fail _
    · exact alike_pure fun _ _ => rfl
  · exact alike_pure fun _ _ => rfl

/-- A pair in front of paired lists. -/
theorem alike_cons {p p' : Parser (List NodeId)} (hmem : (id, id') ∈ ps)
    (hp : Alike b b' ps Pairs.All p p') :
    Alike b b' ps Pairs.All (do return id :: (← p)) (do return id' :: (← p')) := by
  apply hp.bind
  intro qs ids ids' hsub hids
  exact alike_pure fun rs hrs => .cons (hrs (hsub hmem)) (Pairs.All.mono hids hrs)

theorem alike_moreOperands (c : Combinator) (hoperand : Alike b b' [] Paired operand operand)
    (count : Nat) :
    Alike b b' ps Pairs.All (moreOperands c operand count) (moreOperands c operand count) := by
  induction count generalizing ps with
  | zero => exact alike_throw
  | succ n ih =>
    unfold moreOperands
    apply alike_peekCombinator.bind
    rintro qs next _ - rfl
    split
    · split
      · apply alike_advance_bind
        apply (hoperand.mono (nil_subset _)).bind
        intro rs id id' _ hmem
        exact alike_cons hmem ih
      · exact alike_pure fun _ _ => .nil
    · exact alike_pure fun _ _ => .nil

theorem alike_combined (c : Combinator) (hoperand : Alike b b' [] Paired operand operand) :
    Alike b b' ps Paired (combined c operand) (combined c operand) := by
  unfold combined
  apply alike_skipBlanks_bind
  intro start
  apply (hoperand.mono (nil_subset _)).bind
  intro qs first first' _ hfirst
  apply (alike_moreOperands c hoperand _).bind
  intro rs others others' hsub hothers
  cases hothers with
  | nil => exact alike_pure fun _ hrs => hrs (hsub hfirst)
  | cons hsecond hmore =>
    refine alike_push ?_
    rw [c.kind_eq, c.kind_eq]
    exact .group _ (cons_ne_nil _ _) (.cons (hsub hfirst) (.cons hsecond hmore))

theorem alike_components (hreader : Alike b b' [] Paired reader reader) (count : Nat) :
    Alike b b' ps Pairs.All (components reader count) (components reader count) := by
  induction count generalizing ps with
  | zero => exact alike_throw
  | succ n ih =>
    unfold components
    apply alike_skipBlanks_bind
    intro r
    split
    · exact alike_pure fun _ _ => .nil
    · apply (hreader.mono (nil_subset _)).bind
      intro qs id id' _ hmem
      exact alike_cons hmem ih

theorem alike_juxtaposition (hreader : Alike b b' [] Paired reader reader) :
    Alike b b' ps Paired (juxtaposition reader) (juxtaposition reader) := by
  unfold juxtaposition
  apply alike_skipBlanks_bind
  intro start
  apply (alike_components hreader _).bind
  intro qs ids ids' _ hids
  cases hids with
  | nil =>
    apply alike_rest_bind
    intro r
    split <;> exact alike_fail _
  | cons hfirst hmore =>
    cases hmore with
    | nil => exact alike_pure fun _ hrs => hrs hfirst
    | cons hsecond hmore =>
      exact alike_push (.group .sequence (cons_ne_nil _ _) (.cons hfirst (.cons hsecond hmore)))

theorem alike_dataType : Alike b b' ps Paired (dataType start) (dataType start) := by
  unfold dataType
  apply alike_rest_bind
  intro r
  split
  · exact alike_fail _
  · apply alike_checked_bind
    intro inner
    apply alike_advance_bind
    apply alike_checked_bind
    intro name
    dsimp only
    split
    · exact alike_fail_bind _
    · split
      · exact alike_push (.function _ .nil)
      · split
        next hprimitive => exact alike_push (.dataType hprimitive)
        next => exact alike_refer _

theorem alike_function (name : String) (hinner : Alike b b' [] Paired inner inner) :
    Alike b b' ps Paired (function inner name start) (function inner name start) := by
  have harguments {qs : Pairs} {ids ids' : List NodeId} (hids : qs.All ids ids') :
      Alike b b' qs Pairs.All (pure ids) (pure ids') :=
    alike_pure fun _ hrs => hids.mono hrs
  unfold function
  apply alike_advance_bind
  apply alike_skipBlanks_bind
  intro r
  split
  case' isTrue => apply (harguments .nil).bind
  case' isFalse =>
    apply (hinner.mono (nil_subset _)).bind
    intro qs id id' _ hmem
    apply (harguments (.cons hmem .nil)).bind
  all_goals
    intro rs ids ids' _ hids
    apply alike_skipBlanks_bind
    intro r
    split
    · exact alike_advance_bind (alike_push (.function name hids))
    · exact alike_fail _

theorem alike_range : Alike b b' ps (fun _ q q' => q = q' ∧ q.Proper) range range := by
  unfold range
  apply alike_rest_bind
  intro r
  split
  · exact alike_fail _
  · apply alike_checked_bind
    intro text
    apply alike_checked_bind
    intro body
    split
    next q hbounds =>
      exact alike_advance_bind (alike_pure fun _ _ => ⟨rfl, proper_of_bounds? hbounds⟩)
    next => exact alike_fail _

theorem alike_quantify (hmem : (id, id') ∈ ps) {q : Quantifier} (hq : q.Proper) :
    Alike b b' ps Paired (quantify id q start) (quantify id' q start) := by
  unfold quantify
  apply (alike_quantifierOf hmem).bind
  rintro qs old _ hsub ⟨rfl, -⟩
  split
  · apply (alike_setQuantifier (hsub hmem) hq).bind
    intro rs _ _ hrs _
    exact alike_pure fun _ hts => hts (hrs (hsub hmem))
  · apply (alike_push (.group .sequence (cons_ne_nil _ _) (.cons (hsub hmem) .nil))).bind
    intro rs wrapper wrapper' _ hwrapper
    apply (alike_setQuantifier hwrapper hq).bind
    intro ts _ _ hts _
    exact alike_pure fun _ hus => hus (hts hwrapper)

theorem alike_multipliers (count : Nat) (afterHash : Bool) (hmem : (id, id') ∈ ps) :
    Alike b b' ps Paired (multipliers start count afterHash id)
      (multipliers start count afterHash id') := by
  -- A change of the quantifier in place, which the other multipliers follow.
  have hchange {n : Nat} {ps : Pairs} {id id' : NodeId} {afterHash : Bool} (hmem : (id, id') ∈ ps)
      (ih : ∀ {ps : Pairs} {id id' : NodeId}, (id, id') ∈ ps →
        Alike b b' ps Paired (multipliers start n afterHash id)
          (multipliers start n afterHash id'))
      {change : Quantifier → Quantifier} (hchange : ∀ q, q.Proper → (change q).Proper) :
      Alike b b' ps Paired
        (do
          setQuantifier id (change (← quantifierOf id))
          multipliers start n afterHash id)
        (do
          setQuantifier id' (change (← quantifierOf id'))
          multipliers start n afterHash id') := by
    apply (alike_quantifierOf hmem).bind
    rintro qs q _ hsub ⟨rfl, hq⟩
    apply (alike_setQuantifier (hsub hmem) (hchange q hq)).bind
    intro rs _ _ hrs _
    exact ih (hrs (hsub hmem))
  induction count generalizing ps afterHash id id' with
  | zero => exact alike_throw
  | succ n ih =>
    have hquantify {ps : Pairs} {id id' : NodeId} (afterHash : Bool) (hmem : (id, id') ∈ ps)
        {q : Quantifier} (hq : q.Proper) : Alike b b' ps Paired
          (do multipliers start n afterHash (← quantify id q start))
          (do multipliers start n afterHash (← quantify id' q start)) := by
      apply (alike_quantify hmem hq).bind
      intro qs _ _ _ hmem
      exact ih afterHash hmem
    unfold multipliers
    apply alike_rest_bind
    intro r
    split
    · exact alike_pure fun _ hqs => hqs hmem
    · apply alike_advance_bind
      exact hchange hmem (ih false) fun q hq => ⟨hq.min_le, hq.separator⟩
    · apply alike_range.bind
      rintro qs bounds _ hsub ⟨rfl, hbounds⟩
      split
      · exact hchange (hsub hmem) (ih false) fun q hq => ⟨hbounds.min_le, hq.separator⟩
      · exact hquantify false (hsub hmem) hbounds
    · split
      · exact alike_pure fun _ hqs => hqs hmem
      next q hq =>
        apply alike_advance_bind
        split
        · exact hchange hmem (ih false) fun q hq => ⟨fun _ _ => Nat.zero_le _, hq.separator⟩
        · exact hquantify _ hmem (proper_of_quantifier? hq)

theorem alike_group (hinner : Alike b b' [] Paired inner inner) :
    Alike b b' ps Paired (group inner) (group inner) := by
  unfold group
  apply alike_skipBlanks_bind
  intro r
  dsimp only
  split
  · exact alike_fail_bind _
  · apply (hinner.mono (nil_subset _)).bind
    intro qs id id' _ hmem
    apply alike_skipBlanks_bind
    intro r
    split
    · exact alike_advance_bind (alike_pure fun _ hrs => hrs hmem)
    · exact alike_fail _

theorem alike_unquantified (hinner : Alike b b' [] Paired inner inner) :
    Alike b b' ps Paired (unquantified inner) (unquantified inner) := by
  unfold unquantified
  apply alike_rest_bind
  intro start
  split
  · exact alike_fail _
  · exact alike_advance_bind (alike_group hinner)
  · exact alike_dataType
  · split
    · apply alike_checked_bind
      intro r
      split
      · exact alike_fail _
      · apply alike_checked_bind
        intro text
        apply alike_checked_bind
        intro behind
        exact alike_setRest_bind (alike_push (.literal _))
    · split
      · exact alike_advance_bind (alike_push (.literal _))
      · split
        · apply alike_checked_bind
          intro name
          apply alike_advance_bind
          apply alike_rest_bind
          intro r
          split
          · exact alike_function _ hinner
          · exact alike_push (.literal _)
        · exact alike_fail _

theorem alike_component (hinner : Alike b b' [] Paired inner inner) :
    Alike b b' ps Paired (component inner) (component inner) := by
  unfold component
  apply alike_rest_bind
  intro start
  apply (alike_unquantified hinner).bind
  intro qs id id' _ hmem
  exact alike_multipliers _ _ hmem

theorem alike_grammarWithin (depth : Nat) :
    Alike b b' ps Paired (grammarWithin depth) (grammarWithin depth) := by
  induction depth generalizing ps with
  | zero => exact alike_throw
  | succ n ih =>
    exact alike_combined _ (alike_combined _ (alike_combined _
      (alike_juxtaposition (alike_component ih))))

theorem alike_wholeGrammar (depth : Nat) :
    Alike b b' ps Paired (wholeGrammar depth) (wholeGrammar depth) := by
  unfold wholeGrammar
  apply (alike_grammarWithin depth).bind
  intro qs root root' _ hmem
  apply alike_skipBlanks_bind
  intro r
  split
  · exact alike_pure fun _ hrs => hrs hmem
  · exact alike_fail _

end Readers

/-- What a text defines does not depend on the arena. -/
theorem alike_define (a a' : Arena) (text : String) :
    ∃ ps, Lockstep a a' ps (a.define text).2 (a'.define text).2 ∧
      ((∃ e, (a.define text).1 = .error e ∧ (a'.define text).1 = .error e) ∨
        ∃ root root', (a.define text).1 = .ok root ∧ (a'.define text).1 = .ok root' ∧
          (root, root') ∈ ps) := by
  have hstart : Lockstep a a' [] a a' := .start
  have hend := alike_wholeGrammar (text.toList.length + 1) (Subset.refl []) hstart text.toList
    text.toList
  rw [define_eq, define_eq]
  generalize (wholeGrammar _).run ⟨text.toList, text.toList, a⟩ = out at hend ⊢
  generalize (wholeGrammar _).run ⟨text.toList, text.toList, a'⟩ = out' at hend ⊢
  cases hend with
  | ok hsub h hpost => exact ⟨_, h, .inr ⟨_, _, rfl, rfl, hpost⟩⟩
  | error halt hsub h => exact ⟨_, h, .inl ⟨halt.reported, rfl, rfl⟩⟩

end Definition

end StyleGrammar

import StyleGrammar.Proofs.Definition.Run
import Mathlib.Data.List.TakeWhile

/-!
# Reading a text inside brackets

A text that is read as a whole is read in the same way inside brackets: every
reader takes the same steps on it, makes the same nodes and stops in front of the
closing bracket (`Carries`).  The steps are bounded by the length of a longer text
then, but the bounds never matter, since every component takes a character.
-/

namespace StyleGrammar

open List

namespace Definition

variable {α β : Type} {tail r r' q q' start start' : List Char} {N : Nat}

/-! ## Texts inside brackets -/

/-- What is left inside brackets where `r` is left without them.  The blank in front of the closing
bracket may be passed over. -/
def Inside (tail r r' : List Char) : Prop :=
  r' = r ++ ' ' :: ']' :: tail ∨ r = [] ∧ r' = ']' :: tail

/-- What is left inside brackets behind blanks. -/
def Skipped (tail r r' : List Char) : Prop :=
  (∃ c l, r = c :: l ∧ r' = c :: (l ++ ' ' :: ']' :: tail)) ∨ r = [] ∧ r' = ']' :: tail

theorem inside_append (tail r : List Char) : Inside tail r (r ++ ' ' :: ']' :: tail) := .inl rfl

theorem Inside.eq_cons {c : Char} (h : Inside tail (c :: r) r') :
    r' = c :: (r ++ ' ' :: ']' :: tail) := by
  rcases h with h | ⟨hnil, -⟩
  · exact h
  · cases hnil

theorem Inside.length_le (h : Inside tail r r') : r.length ≤ r'.length := by
  rcases h with rfl | ⟨rfl, rfl⟩ <;> simp

theorem Skipped.inside (h : Skipped tail r r') : Inside tail r r' := by
  rcases h with ⟨c, l, rfl, rfl⟩ | h
  · exact .inl rfl
  · exact .inr h

theorem Inside.skipped (h : Inside tail r r') :
    Skipped tail (r.dropWhile Blank) (r'.dropWhile Blank) := by
  rcases h with rfl | ⟨rfl, rfl⟩
  · rw [dropWhile_append]
    cases hr : r.dropWhile Blank with
    | nil => exact .inr ⟨rfl, rfl⟩
    | cons c l => exact .inl ⟨c, l, rfl, rfl⟩
  · exact .inr ⟨rfl, rfl⟩

/-- What is found in a text is found at the same place inside brackets. -/
theorem Inside.seek? (h : Inside tail r r') {p : Char → Bool} {n : Nat}
    (hfound : Definition.seek? p r = some n) :
    r' = r ++ ' ' :: ']' :: tail ∧ Definition.seek? p r' = some n := by
  rcases h with rfl | ⟨rfl, -⟩
  · exact ⟨rfl, seek?_append_right hfound _⟩
  · cases hfound

/-- A class without the blank ends before the closing bracket. -/
theorem takeWhile_append_blank {p : Char → Bool} (hp : p ' ' = false) (l more : List Char) :
    (l ++ ' ' :: more).takeWhile p = l.takeWhile p ∧
      (l ++ ' ' :: more).dropWhile p = l.dropWhile p ++ ' ' :: more := by
  induction l with
  | nil => simp [hp]
  | cons c l ih => cases hc : p c <;> simp [hc, ih.1, ih.2]

theorem trimmed_append_blank (s : List Char) :
    trimmed whiteSpace (s ++ [' ']) = trimmed whiteSpace s := by
  have hblank : whiteSpace ' ' = true := by decide
  unfold trimmed
  rw [dropWhile_append]
  cases hs : s.dropWhile whiteSpace with
  | nil => simp [hblank]
  | cons c l => simp [hblank]

/-- The same text was read, inside the brackets and without them, but for a blank at its end. -/
theorem Inside.between? {text : List Char} (hstart : Inside tail start start') (hne : start ≠ [])
    (hr : Inside tail r r') (h : Definition.between? start r = some text) :
    ∃ text', Definition.between? start' r' = some text' ∧
      trimmed whiteSpace text' = trimmed whiteSpace text := by
  have hstart' : start' = start ++ ' ' :: ']' :: tail :=
    hstart.resolve_right fun hnil => hne hnil.1
  subst hstart'
  rcases hr with rfl | ⟨rfl, rfl⟩
  · unfold Definition.between? at h ⊢
    rw [bytes_append, bytes_append, Nat.add_sub_add_right]
    split at h
    next hle =>
      rw [if_pos (Nat.add_le_add_right hle _)]
      exact ⟨text, before?_append_right h _, rfl⟩
    next => cases h
  · have hwhole : Definition.between? (start ++ []) [] = some start := between?_append start []
    rw [append_nil, h] at hwhole
    cases hwhole
    refine ⟨start ++ [' '], ?_, trimmed_append_blank start⟩
    rw [show start ++ ' ' :: ']' :: tail = (start ++ [' ']) ++ ']' :: tail by simp]
    exact between?_append _ _

/-! ## Readers that are carried over -/

/-- A reader that succeeds on `r` does the same on `r'`.  What it leaves is shorter than `N`, by a
number that depends on the result. -/
def Carries (tail : List Char) (N : Nat) (taken : α → Nat) (p p' : Parser α)
    (r r' : List Char) : Prop :=
  ∀ (source' : List Char) ⦃source : List Char⦄ ⦃a : Arena⦄ ⦃x : α⦄ ⦃s : State⦄,
    p.run ⟨source, r, a⟩ = (.ok x, s) → s.rest.length + taken x ≤ N ∧
      ∃ q', Inside tail s.rest q' ∧ p'.run ⟨source', r', a⟩ = (.ok x, ⟨source', q', s.arena⟩)

/-- A reader of nodes that takes at least one character and is carried over from everywhere. -/
def Carried (tail : List Char) (p p' : Parser NodeId) : Prop :=
  ∀ ⦃r r'⦄, Inside tail r r' → Carries tail r.length (fun _ => 1) p p' r r'

variable {taken : α → Nat} {taken' : β → Nat} {p p' : Parser α} {f f' : α → Parser β}

theorem Carries.mono {N' : Nat} {taken₂ : α → Nat} (h : Carries tail N taken p p' r r')
    (hle : ∀ n x, n + taken x ≤ N → n + taken₂ x ≤ N') : Carries tail N' taken₂ p p' r r' := by
  intro source' source a x s hrun
  obtain ⟨hlen, hinside⟩ := h source' hrun
  exact ⟨hle _ _ hlen, hinside⟩

theorem carries_pure {x : α} (hr : Inside tail r r') (hN : r.length + taken x ≤ N) :
    Carries tail N taken (pure x) (pure x) r r' := by
  intro source' source a y s h
  cases h
  exact ⟨hN, r', hr, rfl⟩

theorem carries_fail {cause : GrammarCause} : Carries tail N taken (fail cause) p' r r' := by
  intro source' source a x s h
  cases h

theorem carries_fail_bind {cause : GrammarCause} {f : β → Parser α} :
    Carries tail N taken (fail cause >>= f) p' r r' := by
  intro source' source a x s h
  cases h

theorem carries_throw {halt : Halt} : Carries tail N taken (throw halt) p' r r' := by
  intro source' source a x s h
  cases h

theorem Carries.bind {N' : Nat} (hp : Carries tail N' taken p p' r r')
    (hf : ∀ x q q', q.length + taken x ≤ N' → Inside tail q q' →
      Carries tail N taken' (f x) (f' x) q q') :
    Carries tail N taken' (p >>= f) (p' >>= f') r r' := by
  intro source' source a y s h
  rw [run_bind] at h
  rcases hrun : p.run ⟨source, r, a⟩ with ⟨e | x, s₁⟩
  · rw [hrun] at h
    cases h
  · rw [hrun] at h
    obtain ⟨hlen, q', hq, hrun'⟩ := hp source' hrun
    obtain ⟨hlen', q'', hq', hrun''⟩ := hf x s₁.rest q' hlen hq source' h
    exact ⟨hlen', q'', hq', by rw [run_bind_of_ok hrun', hrun'']⟩

/-- A reader that takes a character takes none from the empty text. -/
theorem Carried.nil_bind {p p' : Parser NodeId} (hp : Carried tail p p') {f : NodeId → Parser β}
    {P' : Parser β} : Carries tail N taken' (p >>= f) P' [] r' := by
  intro source' source a y s h
  rw [run_bind] at h
  rcases hrun : p.run ⟨source, [], a⟩ with ⟨e | x, s₁⟩
  · rw [hrun] at h
    cases h
  · have hlen := (hp (inside_append tail []) source hrun).1
    simp at hlen

section Steps

variable {g g' : List Char → Parser β} {u u' : Unit → Parser β}

theorem carries_rest_bind (h : Carries tail N taken' (g r) (g' r') r r') :
    Carries tail N taken' (rest >>= g) (rest >>= g') r r' :=
  fun source' _ _ _ _ hrun => h source' hrun

theorem carries_setRest_bind (h : Carries tail N taken' (u ()) (u' ()) q q') :
    Carries tail N taken' (setRest q >>= u) (setRest q' >>= u') r r' :=
  fun source' _ _ _ _ hrun => h source' hrun

theorem carries_skipBlanks_bind (hr : Inside tail r r')
    (h : ∀ q q', q.length ≤ r.length → Skipped tail q q' →
      Carries tail N taken' (u ()) (u' ()) q q') :
    Carries tail N taken' (skipBlanks >>= u) (skipBlanks >>= u') r r' :=
  fun source' _ _ _ _ hrun => h _ _ (length_dropWhile_le Blank r) hr.skipped source' hrun

/-- A slice that is the same inside brackets. -/
theorem carries_checked_bind {slice slice' : Option α}
    (hsame : ∀ x, slice = some x → slice' = some x)
    (h : ∀ x, slice = some x → Carries tail N taken' (f x) (f' x) r r') :
    Carries tail N taken' (checked slice >>= f) (checked slice' >>= f') r r' := by
  cases hslice : slice with
  | none =>
    intro source' source a y s hrun
    cases hrun
  | some x =>
    rw [hsame x hslice]
    exact h x hslice

theorem carries_advance_bind {n : Nat}
    (h : ∀ q, behind? n r = some q →
      Carries tail N taken' (u ()) (u' ()) q (q ++ ' ' :: ']' :: tail)) :
    Carries tail N taken' (advance n >>= u) (advance n >>= u') r (r ++ ' ' :: ']' :: tail) := by
  intro source' source a y s hrun
  cases hslice : behind? n r with
  | none =>
    rw [advance, bind_assoc, run_rest_bind, hslice] at hrun
    cases hrun
  | some q =>
    rw [run_advance_bind hslice] at hrun
    rw [run_advance_bind (behind?_append_right hslice _)]
    exact h q hslice source' hrun

theorem carries_push {taken : NodeId → Nat} (kind : NodeKind) (hstart : Inside tail start start')
    (hr : Inside tail r r') (hlt : r.length < start.length)
    (hN : ∀ id, r.length + taken id ≤ N) :
    Carries tail N taken (push kind start) (push kind start') r r' := by
  intro source' source a x s h
  obtain ⟨text, hslice, rfl, rfl⟩ := run_push_eq_ok h
  have hne : start ≠ [] := length_pos_iff.mp (Nat.zero_lt_of_lt hlt)
  obtain ⟨text', hslice', htrimmed⟩ := hstart.between? hne hr hslice
  have hnode : newNode kind text' = newNode kind text := by rw [newNode, htrimmed, newNode]
  exact ⟨hN _, r', hr, by rw [run_push hslice', hnode]⟩

theorem carries_slot (name : String) (hr : Inside tail r r') :
    Carries tail r.length (fun _ => 0) (slot name) (slot name) r r' := by
  intro source' source a x s h
  cases h
  exact ⟨Nat.le_refl _, r', hr, rfl⟩

theorem carries_quantifierOf (id : NodeId) (hr : Inside tail r r') :
    Carries tail r.length (fun _ => 0) (quantifierOf id) (quantifierOf id) r r' := by
  intro source' source a x s h
  cases h
  exact ⟨Nat.le_refl _, r', hr, rfl⟩

theorem carries_setQuantifier (id : NodeId) (q : Quantifier) (hr : Inside tail r r') :
    Carries tail r.length (fun _ => 0) (setQuantifier id q) (setQuantifier id q) r r' := by
  intro source' source a x s h
  cases h
  exact ⟨Nat.le_refl _, r', hr, rfl⟩

end Steps

/-! ## Groups -/

section Groups

variable {inner inner' : Parser NodeId} {operand operand' : Parser NodeId}

/-- The same combinator is found. -/
theorem run_peekCombinator_inside (source' : List Char) (hr : Inside tail r r')
    {source : List Char} {a : Arena} {next : Option (Combinator × Nat)} {s : State}
    (h : peekCombinator.run ⟨source, r, a⟩ = (.ok next, s)) :
    s.rest.length ≤ r.length ∧ ∃ q', Inside tail s.rest q' ∧
      peekCombinator.run ⟨source', r', a⟩ = (.ok next, ⟨source', q', s.arena⟩) ∧
      ∀ c length, next = some (c, length) → 0 < length ∧ q' = s.rest ++ ' ' :: ']' :: tail := by
  have hle := length_dropWhile_le Blank r
  unfold peekCombinator at h ⊢
  rw [run_skipBlanks_bind, run_rest_bind] at h ⊢
  rcases hr.skipped with ⟨c, l, hq, hq'⟩ | ⟨hq, hq'⟩ <;> rw [hq] at h hle <;> rw [hq']
  · dsimp only at h ⊢
    by_cases hc : (c = '|' || c = '&') = true
    · have hp : decide (' ' = c) = false := by
        rcases (Bool.or_eq_true _ _).mp hc with hc | hc <;> rw [of_decide_eq_true hc] <;> decide
      have htake := (takeWhile_append_blank (p := fun d => decide (d = c)) hp (c :: l)
        (']' :: tail)).1
      rw [if_pos hc] at h ⊢
      rw [cons_append] at htake
      rw [htake]
      simp only [before?_takeWhile, checked_some_bind] at h
      split at h <;> cases h
      all_goals
        refine ⟨hle, _, .inl rfl, rfl, ?_⟩
        rintro _ _ ⟨⟩
        exact ⟨by decide, rfl⟩
    · rw [if_neg hc] at h ⊢
      cases h
      exact ⟨hle, _, .inl rfl, rfl, by rintro _ _ ⟨⟩⟩
  · cases h
    exact ⟨hle, _, .inr ⟨rfl, rfl⟩, rfl, by rintro _ _ ⟨⟩⟩

theorem carries_peekCombinator_bind {g g' : Option (Combinator × Nat) → Parser β}
    (hr : Inside tail r r')
    (hnone : ∀ q q', q.length ≤ r.length → Inside tail q q' →
      Carries tail N taken' (g none) (g' none) q q')
    (hsome : ∀ c length q, 0 < length → q.length ≤ r.length →
      Carries tail N taken' (g (some (c, length))) (g' (some (c, length))) q
        (q ++ ' ' :: ']' :: tail)) :
    Carries tail N taken' (peekCombinator >>= g) (peekCombinator >>= g') r r' := by
  intro source' source a y s h
  rw [run_bind] at h
  rcases hrun : peekCombinator.run ⟨source, r, a⟩ with ⟨e | next, s₁⟩
  · rw [hrun] at h
    cases h
  · rw [hrun] at h
    obtain ⟨hle, q', hq, hrun', hnext⟩ := run_peekCombinator_inside source' hr hrun
    rw [run_bind_of_ok hrun']
    rcases next with _ | ⟨c, length⟩
    · exact hnone _ _ hle hq source' h
    · obtain ⟨hlength, rfl⟩ := hnext c length rfl
      exact hsome c length _ hlength hle source' h

theorem carries_moreOperands (c : Combinator) (h : Carried tail operand operand') {n m : Nat}
    (hr : Inside tail r r') (hm : r.length < m) :
    Carries tail r.length (fun _ => 0) (moreOperands c operand n) (moreOperands c operand' m)
      r r' := by
  induction n generalizing m r r' with
  | zero => exact carries_throw
  | succ n ih =>
    cases m with
    | zero => exact absurd hm (Nat.not_lt_zero _)
    | succ m =>
      unfold moreOperands
      apply carries_peekCombinator_bind hr
      · intro q q' hq hinside
        exact carries_pure hinside hq
      · intro c' length q hlength hq
        dsimp only
        split
        · apply carries_advance_bind
          intro behind hbehind
          have hlt := length_lt_of_behind? hbehind hlength
          apply (h (inside_append tail behind)).bind
          intro id q₁ q₁' hq₁ hinside₁
          apply (ih hinside₁ (by omega)).bind
          intro ids q₂ q₂' hq₂ hinside₂
          exact carries_pure hinside₂ (by omega)
        · exact carries_pure (inside_append tail q) hq

theorem carried_combined (c : Combinator) (h : Carried tail operand operand') :
    Carried tail (combined c operand) (combined c operand') := by
  intro r r' hr
  unfold combined
  apply carries_skipBlanks_bind hr
  intro q q' hq hskipped
  apply carries_rest_bind
  apply (h hskipped.inside).bind
  intro first q₁ q₁' hq₁ hinside₁
  have hlong := hskipped.inside.length_le
  apply (carries_moreOperands c h hinside₁ (by omega)).bind
  intro others q₂ q₂' hq₂ hinside₂
  split
  · exact carries_pure hinside₂ (by omega)
  · exact carries_push _ hskipped.inside hinside₂ (by omega) fun _ => by omega

theorem carries_components (h : Carried tail operand operand') {n m : Nat}
    (hr : Inside tail r r') (hm : r.length < m) :
    Carries tail r.length List.length (components operand n) (components operand' m) r r' := by
  induction n generalizing m r r' with
  | zero => exact carries_throw
  | succ n ih =>
    cases m with
    | zero => exact absurd hm (Nat.not_lt_zero _)
    | succ m =>
      unfold components
      apply carries_skipBlanks_bind hr
      intro q q' hq hskipped
      apply carries_rest_bind
      have hends : endsComponents q' = endsComponents q := by
        rcases hskipped with ⟨c, l, rfl, rfl⟩ | ⟨rfl, rfl⟩ <;> rfl
      rw [hends]
      split
      · exact carries_pure hskipped.inside (by simpa using hq)
      · apply (h hskipped.inside).bind
        intro id q₁ q₁' hq₁ hinside₁
        apply (ih hinside₁ (by omega)).bind
        intro ids q₂ q₂' hq₂ hinside₂
        exact carries_pure hinside₂ (by rw [length_cons]; omega)

theorem carried_juxtaposition (h : Carried tail operand operand') :
    Carried tail (juxtaposition operand) (juxtaposition operand') := by
  intro r r' hr
  unfold juxtaposition
  apply carries_skipBlanks_bind hr
  intro q q' hq hskipped
  apply carries_rest_bind
  have hlong := hskipped.inside.length_le
  apply (carries_components h hskipped.inside (by omega)).bind
  intro ids q₁ q₁' hq₁ hinside₁
  rcases ids with _ | ⟨id, _ | ⟨id', ids⟩⟩ <;> simp only [length_cons, length_nil] at hq₁
  · apply carries_rest_bind
    split <;> exact carries_fail
  · exact carries_pure hinside₁ (by omega)
  · exact carries_push _ hskipped.inside hinside₁ (by omega) fun _ => by omega

end Groups

/-! ## Components -/

section Components

variable {inner inner' : Parser NodeId}

theorem carries_dataType (hr : Inside tail r r') :
    Carries tail r.length (fun _ => 1) (dataType r) (dataType r') r r' := by
  unfold dataType
  apply carries_rest_bind
  cases hfound : seek? (· = '>') r with
  | none => exact carries_fail
  | some stop =>
    obtain ⟨rfl, hfound'⟩ := hr.seek? hfound
    simp only [hfound']
    apply carries_checked_bind fun inner hinner => slice?_append_right hinner _
    intro inner _
    apply carries_advance_bind
    intro behind hbehind
    have hlt := length_lt_of_behind? hbehind (Nat.succ_pos stop)
    have hinside := inside_append tail behind
    apply carries_checked_bind fun name hname => hname
    intro name _
    split
    · exact carries_fail_bind
    · split
      · exact carries_push _ hr hinside hlt fun _ => hlt
      · split
        · exact carries_push _ hr hinside hlt fun _ => hlt
        · apply (carries_slot _ hinside).bind
          intro target q q' hq hinside'
          exact carries_push _ hr hinside' (by omega) fun _ => by omega

theorem carries_function (name : String) (h : Carried tail inner inner')
    (hstart : Inside tail start start') {c : Char} (hr : Inside tail (c :: r) r')
    (hle : (c :: r).length ≤ start.length) :
    Carries tail start.length (fun _ => 1) (function inner name start)
      (function inner' name start') (c :: r) r' := by
  unfold function
  rw [hr.eq_cons, ← cons_append]
  apply carries_advance_bind
  intro behind hbehind
  have hlt := length_lt_of_behind? hbehind Nat.one_pos
  apply carries_skipBlanks_bind (inside_append tail behind)
  intro q q' hq hskipped
  apply carries_rest_bind
  rcases hskipped with ⟨d, l, rfl, rfl⟩ | ⟨rfl, rfl⟩
  · have hinside : Inside tail (d :: l) (d :: (l ++ ' ' :: ']' :: tail)) := .inl rfl
    rw [head?_cons, head?_cons]
    by_cases hd : some d = some ')'
    case' pos =>
      rw [if_pos hd, if_pos hd]
      have hnone : Carries tail (d :: l).length (fun _ => 0) (pure ([] : List NodeId)) (pure []) _
          _ := carries_pure hinside (Nat.le_refl _)
      apply hnone.bind
    case' neg =>
      rw [if_neg hd, if_neg hd]
      apply (h hinside).bind
      intro id q₁ q₁' hq₁ hinside₁
      have hone : Carries tail q₁.length (fun _ => 0) (pure [id]) (pure [id]) _ _ :=
        carries_pure hinside₁ (Nat.le_refl _)
      apply hone.bind
    all_goals
      intro ids q₂ q₂' hq₂ hinside₂
      apply carries_skipBlanks_bind hinside₂
      intro q₃ q₃' hq₃ hskipped₃
      apply carries_rest_bind
      rcases hskipped₃ with ⟨d', l', rfl, rfl⟩ | ⟨rfl, rfl⟩
      · split
        next heq =>
          cases heq
          apply carries_advance_bind
          intro behind hbehind
          have hlt' := length_lt_of_behind? hbehind Nat.one_pos
          exact carries_push _ hstart (inside_append tail behind) (by omega) fun _ => by omega
        next => exact carries_fail
      · exact carries_fail
  · exact h.nil_bind

theorem carries_range (hr : Inside tail r r') :
    Carries tail r.length (fun _ => 1) range range r r' := by
  unfold range
  apply carries_rest_bind
  cases hfound : seek? (· = '\x7d') r with
  | none => exact carries_fail
  | some stop =>
    obtain ⟨rfl, hfound'⟩ := hr.seek? hfound
    simp only [hfound']
    apply carries_checked_bind fun text htext => before?_append_right htext _
    intro text _
    apply carries_checked_bind fun body hbody => hbody
    intro body _
    split
    · apply carries_advance_bind
      intro behind hbehind
      exact carries_pure (inside_append tail behind)
        (length_lt_of_behind? hbehind (Nat.succ_pos stop))
    · exact carries_fail

theorem carries_quantify (id : NodeId) (q : Quantifier) (hstart : Inside tail start start')
    (hr : Inside tail r r') (hlt : r.length < start.length) :
    Carries tail r.length (fun _ => 0) (quantify id q start) (quantify id q start') r r' := by
  unfold quantify
  apply (carries_quantifierOf id hr).bind
  intro old q₁ q₁' hq₁ hinside₁
  split
  · apply (carries_setQuantifier id q hinside₁).bind
    intro _ q₂ q₂' hq₂ hinside₂
    exact carries_pure hinside₂ (by omega)
  · have hwrap : Carries tail q₁.length (fun _ => 0) (push (.sequence [id]) start)
        (push (.sequence [id]) start') _ _ :=
      carries_push _ hstart hinside₁ (by omega) fun _ => Nat.le_refl _
    apply hwrap.bind
    intro wrapper q₂ q₂' hq₂ hinside₂
    apply (carries_setQuantifier wrapper q hinside₂).bind
    intro _ q₃ q₃' hq₃ hinside₃
    exact carries_pure hinside₃ (by omega)

/-- Nothing inside brackets looks like a multiplier of the last component. -/
theorem multipliers_of_nil (hr : Inside tail [] r') {source : List Char} {a : Arena} (n : Nat)
    (afterHash : Bool) (id : NodeId) :
    (multipliers start (n + 1) afterHash id).run ⟨source, r', a⟩ = (.ok id, ⟨source, r', a⟩) := by
  rcases hr with rfl | ⟨-, rfl⟩ <;> rfl

theorem carries_multipliers_nil (hr : Inside tail [] r') (n m : Nat) (afterHash : Bool)
    (id : NodeId) : Carries tail 0 (fun _ => 0) (multipliers start n afterHash id)
      (multipliers start' (m + 1) afterHash id) [] r' := by
  cases n with
  | zero => exact carries_throw
  | succ n =>
    intro source' source a x s h
    cases h
    exact ⟨Nat.le_refl _, r', hr, multipliers_of_nil hr m afterHash id⟩

theorem carries_multipliers (hstart : Inside tail start start') (hr : Inside tail r r')
    (hlt : r.length < start.length) {n m : Nat} (hm : r.length < m) (afterHash : Bool)
    (id : NodeId) :
    Carries tail r.length (fun _ => 0) (multipliers start n afterHash id)
      (multipliers start' m afterHash id) r r' := by
  -- A change of the quantifier in place, which the other multipliers follow.
  have hchange {n m : Nat} {r r' : List Char} (change : Quantifier → Quantifier) (id : NodeId)
      (hr : Inside tail r r') (ih : ∀ {q q'}, Inside tail q q' → q.length ≤ r.length →
        Carries tail q.length (fun _ => 0) (multipliers start n false id)
          (multipliers start' m false id) q q') :
      Carries tail r.length (fun _ => 0)
        (do setQuantifier id (change (← quantifierOf id)); multipliers start n false id)
        (do setQuantifier id (change (← quantifierOf id)); multipliers start' m false id) r r' := by
    apply (carries_quantifierOf id hr).bind
    intro old q₁ q₁' hq₁ hinside₁
    apply (carries_setQuantifier id (change old) hinside₁).bind
    intro _ q₂ q₂' hq₂ hinside₂
    exact (ih hinside₂ (by omega)).mono fun _ _ _ => by omega
  induction n generalizing m r r' afterHash id with
  | zero => exact carries_throw
  | succ n ih =>
    cases m with
    | zero => exact absurd hm (Nat.not_lt_zero _)
    | succ m =>
      rcases r with _ | ⟨c, l⟩
      · exact carries_multipliers_nil hr _ _ _ _
      have hquantify {q q' : List Char} (old : Quantifier) (afterHash : Bool)
          (hq : q.length < (c :: l).length) (hinside : Inside tail q q') :
          Carries tail q.length (fun _ => 0)
            (do multipliers start n afterHash (← quantify id old start))
            (do multipliers start' m afterHash (← quantify id old start')) q q' := by
        apply (carries_quantify id old hstart hinside (by omega)).bind
        intro id' q₁ q₁' hq₁ hinside₁
        exact (ih hinside₁ (by omega) (by omega) _ _).mono fun _ _ _ => by omega
      unfold multipliers
      apply carries_rest_bind
      rw [hr.eq_cons]
      split
      next heq => cases heq
      next heq =>
        cases heq
        rw [← cons_append]
        apply carries_advance_bind
        intro q hq
        have hq := length_lt_of_behind? hq Nat.one_pos
        refine (hchange _ id (inside_append tail q) fun hq' hle => ?_).mono fun _ _ _ => by omega
        exact ih hq' (by omega) (by omega) _ _
      next heq =>
        cases heq
        apply (carries_range (.inl rfl)).bind
        intro bounds q q' hq hinside
        cases afterHash with
        | true =>
          refine (hchange _ id hinside fun hq' hle => ?_).mono fun _ _ _ => by omega
          exact ih hq' (by omega) (by omega) _ _
        | false => exact (hquantify bounds false (by omega) hinside).mono fun _ _ _ => by omega
      next d behind hbang hbrace heq =>
        cases heq
        split
        next hq =>
          simp only [hq]
          exact carries_pure (.inl rfl) (Nat.le_refl _)
        next q hq =>
          simp only [hq]
          rw [← cons_append]
          apply carries_advance_bind
          intro behind hbehind
          have hlt' := length_lt_of_behind? hbehind Nat.one_pos
          have hinside := inside_append tail behind
          split
          · refine (hchange _ id hinside fun hq' hle => ?_).mono fun _ _ _ => by omega
            exact ih hq' (by omega) (by omega) _ _
          · exact (hquantify q _ hlt' hinside).mono fun _ _ _ => by omega

theorem carries_group (h : Carried tail inner inner') (hr : Inside tail r r') :
    Carries tail r.length (fun _ => 0) (group inner) (group inner') r r' := by
  unfold group
  apply carries_skipBlanks_bind hr
  intro q q' hq hskipped
  apply carries_rest_bind
  rcases hskipped with ⟨d, l, rfl, rfl⟩ | ⟨rfl, rfl⟩
  · have hinside : Inside tail (d :: l) (d :: (l ++ ' ' :: ']' :: tail)) := .inl rfl
    rw [head?_cons, head?_cons]
    by_cases hd : some d = some ']'
    · rw [if_pos hd, if_pos hd]
      exact carries_fail_bind
    · rw [if_neg hd, if_neg hd]
      apply (h hinside).bind
      intro id q₁ q₁' hq₁ hinside₁
      apply carries_skipBlanks_bind hinside₁
      intro q₂ q₂' hq₂ hskipped₂
      apply carries_rest_bind
      rcases hskipped₂ with ⟨d', l', rfl, rfl⟩ | ⟨rfl, rfl⟩
      · split
        next heq =>
          cases heq
          rw [← cons_append]
          apply carries_advance_bind
          intro behind hbehind
          have hlt := length_lt_of_behind? hbehind Nat.one_pos
          exact carries_pure (inside_append tail behind) (by omega)
        next => exact carries_fail
      · exact carries_fail
  · exact h.nil_bind

/-- A word is a literal or the name of a function. -/
theorem carries_word (h : Carried tail inner inner') {c : Char} {l : List Char}
    (hname : isNameChar c = true) (hstart : Inside tail (c :: l) start') :
    Carries tail (c :: l).length (fun _ => 1)
      (do
        let name := String.ofList
          (← checked (before? (bytes ((c :: l).takeWhile isNameChar)) (c :: l)))
        advance (bytes ((c :: l).takeWhile isNameChar))
        if (← rest).head? = some '(' then function inner name (c :: l)
        else push (.literal name) (c :: l))
      (do
        let name := String.ofList
          (← checked (before? (bytes (start'.takeWhile isNameChar)) start'))
        advance (bytes (start'.takeWhile isNameChar))
        if (← rest).head? = some '(' then function inner' name start'
        else push (.literal name) start')
      (c :: l) start' := by
  have htake := (takeWhile_append_blank (p := isNameChar) (by decide) (c :: l) (']' :: tail)).1
  have hlong : start' = c :: l ++ ' ' :: ']' :: tail := hstart.eq_cons
  subst hlong
  rw [htake]
  apply carries_checked_bind fun name hname => before?_append_right hname _
  intro name _
  apply carries_advance_bind
  intro behind hbehind
  have hstop : 0 < bytes ((c :: l).takeWhile isNameChar) := by
    rw [takeWhile_cons_of_pos hname, bytes_cons]
    exact Nat.add_pos_left c.utf8Size_pos _
  have hlt := length_lt_of_behind? hbehind hstop
  apply carries_rest_bind
  cases behind with
  | nil => exact carries_push _ hstart (.inl rfl) hlt fun _ => hlt
  | cons d behind =>
    rw [cons_append, head?_cons, head?_cons]
    by_cases hparen : some d = some '('
    · rw [if_pos hparen, if_pos hparen]
      exact carries_function _ h hstart (.inl rfl) hlt.le
    · rw [if_neg hparen, if_neg hparen]
      exact carries_push _ hstart (.inl rfl) hlt fun _ => hlt

theorem carried_unquantified (h : Carried tail inner inner') :
    Carried tail (unquantified inner) (unquantified inner') := by
  intro r r' hr
  rcases r with _ | ⟨c, l⟩
  · exact carries_rest_bind carries_fail
  · have hstart : Inside tail (c :: l) (c :: (l ++ ' ' :: ']' :: tail)) := .inl rfl
    unfold unquantified
    apply carries_rest_bind
    rw [hr.eq_cons]
    split
    next heq => cases heq
    next heq =>
      cases heq
      dsimp only
      rw [← cons_append]
      apply carries_advance_bind
      intro behind hbehind
      have hlt := length_lt_of_behind? hbehind Nat.one_pos
      exact (carries_group h (inside_append tail behind)).mono fun _ _ _ => by omega
    next heq =>
      cases heq
      exact carries_dataType hstart
    next d behind hbracket hangle heq =>
      cases heq
      simp only
      by_cases hquote : (decide (c = '\'') || decide (c = '"')) = true
      · rw [if_pos hquote, if_pos hquote]
        cases hopen : behind? 1 (c :: l) with
        | none => exact carries_checked_bind (by simp) (by simp)
        | some content =>
          have hlt := length_lt_of_behind? hopen Nat.one_pos
          have hopen' := behind?_append_right hopen (' ' :: ']' :: tail)
          rw [cons_append] at hopen'
          rw [hopen', checked_some_bind, checked_some_bind]
          cases hfound : seek? (· = c) content with
          | none => exact carries_fail
          | some stop =>
            obtain ⟨-, hfound'⟩ := (inside_append tail content).seek? hfound
            rw [hfound']
            dsimp only
            apply carries_checked_bind fun text htext => before?_append_right htext _
            intro text _
            cases hclose : behind? (stop + 1) content with
            | none => exact carries_checked_bind (by simp) (by simp)
            | some behind =>
              have hlt' := length_lt_of_behind? hclose (Nat.succ_pos stop)
              rw [behind?_append_right hclose, checked_some_bind, checked_some_bind]
              apply carries_setRest_bind
              exact carries_push _ hstart (inside_append tail behind) (by omega) fun _ => by omega
      · rw [if_neg hquote, if_neg hquote]
        by_cases hsign : (decide (c = ',') || decide (c = '/')) = true
        · rw [if_pos hsign, if_pos hsign, ← cons_append]
          apply carries_advance_bind
          intro behind hbehind
          have hlt := length_lt_of_behind? hbehind Nat.one_pos
          exact carries_push _ hstart (inside_append tail behind) hlt fun _ => hlt
        · rw [if_neg hsign, if_neg hsign]
          by_cases hname : isNameChar c = true
          · rw [if_pos hname, if_pos hname]
            exact carries_word h hname hstart
          · rw [if_neg hname]
            exact carries_fail

/-- A component is carried over with its multipliers. -/
theorem carried_component (h : Carried tail inner inner') :
    Carried tail (component inner) (component inner') := by
  intro r r' hr
  unfold component
  apply carries_rest_bind
  apply (carried_unquantified h hr).bind
  intro id q q' hq hinside
  have hlong := hr.length_le
  exact (carries_multipliers hr hinside (by omega) (by omega) false id).mono
    fun _ _ _ => by omega

theorem carried_grammarWithin {n m : Nat} (hle : n ≤ m) :
    Carried tail (grammarWithin n) (grammarWithin m) := by
  induction n generalizing m with
  | zero => exact fun _ _ _ => carries_throw
  | succ n ih =>
    cases m with
    | zero => exact absurd hle (Nat.not_succ_le_zero n)
    | succ m =>
      exact carried_combined _ (carried_combined _ (carried_combined _
        (carried_juxtaposition (carried_component (ih (Nat.le_of_succ_le_succ hle))))))

end Components

end Definition

end StyleGrammar

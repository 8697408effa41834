import StyleGrammar.Proofs.Definition.Run

/-!
# Definitions are read to an end

A reader of definitions never goes back: what is left of the text is a suffix of what was left.
Each pass of a loop takes a character, and what stands in brackets or parentheses is read only
behind the opening one.  So no bound on passes or on levels of brackets is ever used up, every slice
ends between two characters, and a reading is broken off only for a fault, which is placed where the
reader stopped (`Steps`).
-/

namespace StyleGrammar

namespace Definition

open List

/-! ## Going on -/

/-- A later state of reading the same text. -/
structure Later (s s' : State) : Prop where
  source_eq : s'.source = s.source
  suffix : s'.rest <:+ s.rest

/-- A later state, with less of the text left. -/
structure Beyond (s s' : State) : Prop extends Later s s' where
  shorter : s'.rest.length < s.rest.length

variable {s s' s'' : State}

theorem Later.refl (s : State) : Later s s := ⟨rfl, suffix_refl _⟩

theorem Later.trans (h : Later s s') (h' : Later s' s'') : Later s s'' :=
  ⟨h'.source_eq.trans h.source_eq, h'.suffix.trans h.suffix⟩

theorem Later.beyond (h : Later s s') (h' : Beyond s' s'') : Beyond s s'' :=
  ⟨h.trans h'.toLater, Nat.lt_of_lt_of_le h'.shorter h.suffix.length_le⟩

theorem Beyond.trans (h : Beyond s s') (h' : Later s' s'') : Beyond s s'' :=
  ⟨h.toLater.trans h', Nat.lt_of_le_of_lt h'.suffix.length_le h.shorter⟩

/-- Two readers take the same steps from a state: they end in the same way in the same later state,
after at least so many characters, or for a fault that is placed there. -/
structure Steps {α : Type} (least : Nat) (p p' : Parser α) (s : State) : Prop where
  same : p.run s = p'.run s
  later : Later s (p.run s).2
  taken : ∀ a, (p.run s).1 = .ok a → (p.run s).2.rest.length + least ≤ s.rest.length
  placed : ∀ halt, (p.run s).1 = .error halt → ∃ cause, halt = .fault ⟨cause, (p.run s).2.column⟩

variable {α β : Type} {least more : Nat} {p p' : Parser α} {f f' : α → Parser β}

theorem Steps.bind (hp : Steps least p p' s)
    (hf : ∀ a s', p.run s = (.ok a, s') → Later s s' → s'.rest.length + least ≤ s.rest.length →
      Steps more (f a) (f' a) s') :
    Steps (least + more) (p >>= f) (p' >>= f') s := by
  obtain ⟨hsame, hlater, htaken, hplaced⟩ := hp
  have hbind := run_bind p f s
  have hbind' := run_bind p' f' s
  rw [← hsame] at hbind'
  generalize hrun : p.run s = out at *
  obtain ⟨r, s'⟩ := out
  cases r with
  | error halt =>
    refine ⟨hbind.trans hbind'.symm, ?_, ?_, ?_⟩
    all_goals rw [hbind]
    · exact hlater
    · rintro a ⟨⟩
    · rintro _ ⟨⟩
      exact hplaced halt rfl
  | ok a =>
    have hstep := hf a s' rfl hlater (htaken a rfl)
    refine ⟨hbind.trans (hstep.same.trans hbind'.symm), ?_, ?_, ?_⟩
    all_goals rw [hbind]
    · exact hlater.trans hstep.later
    · intro b hb
      have h₁ := htaken a rfl
      have h₂ := hstep.taken b hb
      simp only at h₁ h₂ ⊢
      omega
    · exact hstep.placed

theorem Steps.mono (h : Steps more p p' s) (hle : least ≤ more) : Steps least p p' s :=
  ⟨h.same, h.later, fun a ha => by have := h.taken a ha; omega, h.placed⟩

/-- What is taken afterwards does not count. -/
theorem Steps.before (hp : Steps least p p' s)
    (hf : ∀ a s', p.run s = (.ok a, s') → Later s s' → s'.rest.length + least ≤ s.rest.length →
      Steps 0 (f a) (f' a) s') :
    Steps least (p >>= f) (p' >>= f') s :=
  hp.bind hf

/-- What was taken first does not count. -/
theorem Steps.andThen (hp : Steps least p p' s)
    (hf : ∀ a s', p.run s = (.ok a, s') → Later s s' → Steps more (f a) (f' a) s') :
    Steps more (p >>= f) (p' >>= f') s :=
  (hp.bind fun a s' hrun hlater _ => hf a s' hrun hlater).mono (Nat.le_add_left _ _)

/-- What is taken can depend on what was read first. -/
theorem Steps.counted (hp : Steps 0 p p' s)
    (hf : ∀ a s', p.run s = (.ok a, s') → Later s s' →
      ∃ more, s'.rest.length + (least - more) ≤ s.rest.length ∧ Steps more (f a) (f' a) s') :
    Steps least (p >>= f) (p' >>= f') s := by
  have hsteps : Steps 0 (p >>= f) (p' >>= f') s := hp.andThen fun a s' hrun hlater => by
    obtain ⟨more, -, hsteps⟩ := hf a s' hrun hlater
    exact hsteps.mono (Nat.zero_le _)
  refine ⟨hsteps.same, hsteps.later, ?_, hsteps.placed⟩
  have hlater := hp.later
  rw [run_bind]
  generalize hrun : p.run s = out at hlater
  obtain ⟨r, s'⟩ := out
  cases r with
  | error fault => rintro _ ⟨⟩
  | ok a =>
    intro b hb
    obtain ⟨more, hcount, hsteps⟩ := hf a s' hrun hlater
    have htaken := hsteps.taken b hb
    dsimp only
    omega

theorem Steps.beyond {a : α} (h : Steps 1 p p s) (hrun : p.run s = (.ok a, s')) : Beyond s s' := by
  have hlater := h.later
  have htaken := h.taken
  rw [hrun] at hlater htaken
  exact ⟨hlater, htaken a rfl⟩

theorem steps_pure (a : α) : Steps 0 (pure a : Parser α) (pure a) s :=
  ⟨rfl, .refl s, fun _ _ => Nat.le_refl _, by rintro _ ⟨⟩⟩

theorem steps_fail (cause : GrammarCause) :
    Steps least (fail cause : Parser α) (fail cause) s := by
  refine ⟨rfl, .refl s, ?_, ?_⟩
  · rintro _ ⟨⟩
  · rintro _ ⟨⟩
    exact ⟨cause, rfl⟩

theorem steps_fail_bind (cause : GrammarCause) :
    Steps least (fail cause >>= f) (fail cause >>= f') s := by
  have hfail : Steps (least + 0) (fail cause >>= f) (fail cause >>= f') s :=
    (steps_fail cause).bind (by rintro _ _ ⟨⟩)
  exact hfail

/-- A step that leaves the text alone. -/
theorem steps_still {a : α} {arena : Arena} (h : p.run s = (.ok a, { s with arena })) :
    Steps 0 p p s := by
  refine ⟨rfl, ?_, ?_, ?_⟩
  all_goals rw [h]
  · exact ⟨rfl, suffix_refl _⟩
  · exact fun _ _ => Nat.le_refl _
  · rintro _ ⟨⟩

theorem steps_push (kind : NodeKind) {start : List Char} (hstart : s.rest <:+ start) :
    Steps 0 (push kind start) (push kind start) s := by
  obtain ⟨text, hslice⟩ := exists_between? hstart
  exact steps_still (run_push hslice)

theorem steps_slot (name : String) : Steps 0 (slot name) (slot name) s :=
  steps_still (run_slot name)

theorem steps_quantifierOf (id : NodeId) : Steps 0 (quantifierOf id) (quantifierOf id) s :=
  steps_still (run_quantifierOf id)

theorem steps_setQuantifier (id : NodeId) (q : Quantifier) :
    Steps 0 (setQuantifier id q) (setQuantifier id q) s :=
  steps_still (run_setQuantifier id q)

theorem steps_rest_bind {f f' : List Char → Parser β} (h : Steps least (f s.rest) (f' s.rest) s) :
    Steps least (rest >>= f) (rest >>= f') s :=
  ⟨h.same, h.later, h.taken, h.placed⟩

/-- A slice that is in range. -/
theorem steps_checked_bind {slice : Option α} {x : α} (hslice : slice = some x)
    (h : Steps least (f x) (f' x) s) :
    Steps least (checked slice >>= f) (checked slice >>= f') s := by
  rw [hslice]
  exact h

theorem steps_setRest_bind {r : List Char} {f f' : Unit → Parser β} (hsuffix : r <:+ s.rest)
    (hshorter : r.length < s.rest.length)
    (h : Beyond s { s with rest := r } → Steps least (f ()) (f' ()) { s with rest := r }) :
    Steps (least + 1) (setRest r >>= f) (setRest r >>= f') s := by
  have hset : Steps 1 (setRest r) (setRest r) s :=
    ⟨rfl, ⟨rfl, hsuffix⟩, fun _ _ => hshorter, by rintro _ ⟨⟩⟩
  rw [Nat.add_comm]
  refine hset.bind ?_
  rintro _ _ ⟨⟩ hlater _
  exact h ⟨hlater, hshorter⟩

/-- Going on behind some bytes. -/
theorem steps_advance_bind {n : Nat} {r : List Char} {f f' : Unit → Parser β}
    (hslice : behind? n s.rest = some r) (hn : 0 < n)
    (h : Beyond s { s with rest := r } → Steps least (f ()) (f' ()) { s with rest := r }) :
    Steps (least + 1) (advance n >>= f) (advance n >>= f') s := by
  rw [advance, bind_assoc, bind_assoc]
  refine steps_rest_bind ?_
  rw [bind_assoc, bind_assoc]
  exact steps_checked_bind hslice
    (steps_setRest_bind (suffix_of_behind? hslice) (length_lt_of_behind? hslice hn) h)

/-- Going on behind a character of one byte. -/
theorem steps_advance_one_bind {c : Char} {r : List Char} {f f' : Unit → Parser β}
    (hrest : s.rest = c :: r) (hc : c.utf8Size = 1)
    (h : Beyond s { s with rest := r } → Steps least (f ()) (f' ()) { s with rest := r }) :
    Steps (least + 1) (advance 1 >>= f) (advance 1 >>= f') s :=
  steps_advance_bind (by rw [hrest]; exact behind?_one hc) Nat.one_pos h

theorem steps_skipBlanks : Steps 0 skipBlanks skipBlanks s :=
  ⟨rfl, ⟨rfl, dropWhile_suffix _⟩, fun _ _ => (dropWhile_suffix _).length_le, by rintro _ ⟨⟩⟩

theorem steps_skipBlanks_bind {f f' : Unit → Parser β}
    (h : Later s { s with rest := s.rest.dropWhile Blank } →
      Steps least (f ()) (f' ()) { s with rest := s.rest.dropWhile Blank }) :
    Steps least (skipBlanks >>= f) (skipBlanks >>= f') s := by
  refine steps_skipBlanks.andThen ?_
  rintro _ _ ⟨⟩ hlater
  exact h hlater

/-! ## Loops -/

variable {operand operand' reader reader' : Parser NodeId}

theorem steps_peekCombinator : Steps 0 peekCombinator peekCombinator s := by
  unfold peekCombinator
  refine steps_skipBlanks_bind fun _ => steps_rest_bind ?_
  split
  · split
    · dsimp only
      split
      · exact steps_pure _
      · exact steps_pure _
      · exact steps_pure _
      · exact steps_checked_bind (before?_takeWhile _ _) (steps_fail _)
    · exact steps_pure _
  · exact steps_pure _

/-- Behind a combinator less of the text is left. -/
theorem behind_of_peekCombinator {c : Combinator} {length : Nat}
    (h : peekCombinator.run s = (.ok (some (c, length)), s')) :
    0 < length ∧ ∃ r, behind? length s'.rest = some r := by
  unfold peekCombinator at h
  rw [run_bind, run_skipBlanks] at h
  dsimp only at h
  rw [run_bind, run_rest] at h
  dsimp only at h
  split at h
  next d r heq =>
    split at h
    next =>
      have hbehind := behind?_takeWhile (fun c => decide (c = d)) (s.rest.dropWhile Blank)
      simp only [before?_takeWhile, checked_some_bind] at h
      split at h
      next hlength =>
        cases h
        exact ⟨by decide, _, hlength ▸ hbehind⟩
      next hlength =>
        cases h
        exact ⟨by decide, _, hlength ▸ hbehind⟩
      next hlength =>
        cases h
        exact ⟨by decide, _, hlength ▸ hbehind⟩
      next => cases h
    next => cases h
  next => cases h

/-- With more passes than characters the passes are not used up: each takes one. -/
theorem steps_moreOperands (c : Combinator) {n : Nat} (hn : s.rest.length < n)
    (hoperand : ∀ s', Later s s' → Steps 1 operand operand' s') :
    Steps 0 (moreOperands c operand n) (moreOperands c operand' n) s := by
  induction n generalizing s with
  | zero => exact absurd hn (Nat.not_lt_zero _)
  | succ n ih =>
    unfold moreOperands
    refine steps_peekCombinator.andThen fun next s₁ hnext hs₁ => ?_
    cases next with
    | none => exact steps_pure _
    | some next =>
      obtain ⟨c', length⟩ := next
      dsimp only
      split
      · obtain ⟨hlength, r, hr⟩ := behind_of_peekCombinator hnext
        refine (steps_advance_bind hr hlength fun hs₂ => ?_).mono (Nat.zero_le 1)
        have hs := hs₁.beyond hs₂
        refine (hoperand _ hs.toLater).andThen fun id s₃ _ hs₃ => ?_
        have hlt := (hs.trans hs₃).shorter
        refine (ih (by omega) fun s' hs' => ?_).andThen fun ids s₄ _ _ => steps_pure _
        exact hoperand s' ((hs.toLater.trans hs₃).trans hs')
      · exact steps_pure _

theorem steps_combined (c : Combinator)
    (hoperand : ∀ s', Later s s' → Steps 1 operand operand' s') :
    Steps 1 (combined c operand) (combined c operand') s := by
  unfold combined
  refine steps_skipBlanks_bind fun hs => steps_rest_bind ?_
  refine (hoperand _ hs).before fun first s₁ _ hs₁ htaken => ?_
  have hmore : Steps 0 (moreOperands c operand (s.rest.dropWhile Blank).length)
      (moreOperands c operand' (s.rest.dropWhile Blank).length) s₁ :=
    steps_moreOperands c htaken fun s' hs' => hoperand s' ((hs.trans hs₁).trans hs')
  refine hmore.andThen fun others s₂ _ hs₂ => ?_
  cases others with
  | nil => exact steps_pure _
  | cons second others => exact steps_push _ (hs₁.trans hs₂).suffix

theorem steps_components {n : Nat} (hn : s.rest.length < n)
    (hreader : ∀ s', Later s s' → Steps 1 reader reader' s') :
    Steps 0 (components reader n) (components reader' n) s := by
  induction n generalizing s with
  | zero => exact absurd hn (Nat.not_lt_zero _)
  | succ n ih =>
    unfold components
    refine steps_skipBlanks_bind fun hs => steps_rest_bind ?_
    split
    · exact steps_pure _
    · refine ((hreader _ hs).before fun id s₁ _ hs₁ htaken => ?_).mono (Nat.zero_le _)
      have hlt : s₁.rest.length < s.rest.length := Nat.lt_of_lt_of_le htaken hs.suffix.length_le
      refine (ih (by omega) fun s' hs' => ?_).andThen fun ids s₂ _ _ => steps_pure _
      exact hreader s' ((hs.trans hs₁).trans hs')

/-- Each component takes a character. -/
theorem taken_components {n : Nat} {ids : List NodeId}
    (hreader : ∀ s', Later s s' → Steps 1 reader reader' s')
    (h : (components reader n).run s = (.ok ids, s')) :
    s'.rest.length + ids.length ≤ s.rest.length := by
  induction n generalizing s ids with
  | zero => cases h
  | succ n ih =>
    have hskip : Later s { s with rest := s.rest.dropWhile Blank } := steps_skipBlanks.later
    have hlength := hskip.suffix.length_le
    unfold components at h
    rw [run_bind, run_skipBlanks] at h
    dsimp only at h
    rw [run_bind, run_rest] at h
    dsimp only at h hlength
    split at h
    next =>
      cases h
      simpa using hlength
    next =>
      have hfirst := hreader _ hskip
      rw [run_bind] at h
      generalize hrun : reader.run { s with rest := s.rest.dropWhile Blank } = out at h hfirst
      obtain ⟨r, s₁⟩ := out
      cases r with
      | error fault => cases h
      | ok id =>
        have hlater := hfirst.later
        have htaken := hfirst.taken
        rw [hrun] at hlater htaken
        dsimp only at h
        rw [run_bind] at h
        generalize hmore : (components reader n).run s₁ = out at h
        obtain ⟨r, s₂⟩ := out
        cases r with
        | error fault => cases h
        | ok more =>
          cases h
          have hrest := ih (fun s' hs' => hreader s' ((hskip.trans hlater).trans hs')) hmore
          have := htaken id rfl
          simp only [length_cons] at *
          omega

theorem steps_juxtaposition (hreader : ∀ s', Later s s' → Steps 1 reader reader' s') :
    Steps 1 (juxtaposition reader) (juxtaposition reader') s := by
  unfold juxtaposition
  refine steps_skipBlanks_bind fun hs => steps_rest_bind ?_
  have hreader' (s' : State) (hs' : Later { s with rest := s.rest.dropWhile Blank } s') :
      Steps 1 reader reader' s' := hreader s' (hs.trans hs')
  have hids : Steps 0 (components reader ((s.rest.dropWhile Blank).length + 1))
      (components reader' ((s.rest.dropWhile Blank).length + 1))
      { s with rest := s.rest.dropWhile Blank } :=
    steps_components (Nat.lt_succ_self _) hreader'
  refine hids.counted fun ids s₁ hrun hs₁ => ?_
  have hcount := taken_components hreader' hrun
  match ids with
  | [] =>
    refine ⟨1, by simpa using hcount, steps_rest_bind ?_⟩
    split <;> exact steps_fail _
  | [id] => exact ⟨0, by simpa using hcount, steps_pure _⟩
  | first :: second :: ids =>
    refine ⟨0, ?_, steps_push _ hs₁.suffix⟩
    simp only [length_cons] at hcount ⊢
    omega

/-! ## Multipliers -/

theorem steps_quantify (id : NodeId) (q : Quantifier) {start : List Char}
    (hstart : s.rest <:+ start) : Steps 0 (quantify id q start) (quantify id q start) s := by
  unfold quantify
  refine (steps_quantifierOf id).andThen fun old s₁ _ hs₁ => ?_
  split
  · exact (steps_setQuantifier id q).andThen fun _ _ _ _ => steps_pure _
  · refine (steps_push _ (hs₁.suffix.trans hstart)).andThen fun wrapper s₂ _ _ => ?_
    exact (steps_setQuantifier wrapper q).andThen fun _ _ _ _ => steps_pure _

/-- What is found behind an opening character has that character in front. -/
theorem exists_of_seek?_cons {p : Char → Bool} {c : Char} {r : List Char} {stop : Nat}
    (hp : p c = false) (h : seek? p (c :: r) = some stop) :
    ∃ inner d behind, r = inner ++ d :: behind ∧ p d = true ∧ stop = bytes (c :: inner) := by
  obtain ⟨front, d, behind, heq, -, hd, rfl⟩ := exists_of_seek? h
  cases front with
  | nil =>
    cases heq
    rw [hp] at hd
    cases hd
  | cons c' inner =>
    cases heq
    exact ⟨inner, d, behind, rfl, hd, rfl⟩

/-- Bounds take at least their braces. -/
theorem steps_range {r : List Char} (hrest : s.rest = '\x7b' :: r) : Steps 1 range range s := by
  unfold range
  refine steps_rest_bind ?_
  rw [hrest]
  split
  · exact steps_fail _
  next stop hfound =>
    obtain ⟨inner, d, behind, rfl, hd, rfl⟩ := exists_of_seek?_cons (by decide) hfound
    obtain rfl := of_decide_eq_true hd
    refine steps_checked_bind (before?_succ (by decide)) ?_
    have hbody : slice? 1 (bytes ('\x7b' :: inner ++ ['\x7d']) - 1) ('\x7b' :: inner ++ ['\x7d']) =
        some inner := by
      rw [bytes_append]
      exact slice?_one (by decide)
    refine steps_checked_bind hbody ?_
    split
    · have hbehind : behind? (bytes ('\x7b' :: inner) + 1) s.rest = some behind := by
        rw [hrest]
        exact behind?_succ (by decide)
      refine steps_advance_bind hbehind (Nat.succ_pos _) fun _ => ?_
      exact steps_pure _
    · exact steps_fail _

theorem utf8Size_of_quantifier? {c : Char} {q : Quantifier} (h : quantifier? c = some q) :
    c.utf8Size = 1 := by
  unfold quantifier? at h
  split at h <;> first | rfl | cases h

/-- One multiplier, if there is one: whether it is a bare `#`, and the node it leads to. -/
def multiplier (start : List Char) (afterHash : Bool) (id : NodeId) :
    Parser (Option (Bool × NodeId)) := do
  match ← rest with
  | [] => return none
  | '!' :: _ =>
    advance 1
    setQuantifier id { ← quantifierOf id with required := true }
    return some (false, id)
  | '\x7b' :: _ =>
    let q ← range
    if afterHash then
      setQuantifier id { ← quantifierOf id with min := q.min, max? := q.max? }
      return some (false, id)
    else return some (false, ← quantify id q start)
  | c :: _ =>
    match quantifier? c with
    | none => return none
    | some q =>
      advance 1
      if afterHash && c = '?' then
        setQuantifier id { ← quantifierOf id with min := 0 }
        return some (false, id)
      else return some (c = '#', ← quantify id q start)

/-- The loop over multipliers makes one pass after the other. -/
theorem multipliers_succ (start : List Char) (n : Nat) (afterHash : Bool) (id : NodeId) :
    multipliers start (n + 1) afterHash id = do
      match ← multiplier start afterHash id with
      | some (afterHash, id) => multipliers start n afterHash id
      | none => return id := by
  rw [multipliers, multiplier, bind_assoc]
  congr 1
  funext r
  match r with
  | [] => rfl
  | c :: behind =>
    by_cases hbang : c = '!'
    · subst hbang
      simp only [bind_assoc, pure_bind]
    by_cases hbrace : c = '{'
    · subst hbrace
      simp only [bind_assoc]
      congr 1
      funext q
      split
      · simp only [bind_assoc, pure_bind]
      · simp only [bind_assoc, pure_bind]
    simp only
    cases quantifier? c with
    | none => rfl
    | some q =>
      simp only [bind_assoc]
      congr 1
      funext _
      split
      · simp only [bind_assoc, pure_bind]
      · simp only [bind_assoc, pure_bind]

/-- A pass over multipliers takes a character, if there is one of them. -/
theorem none_or_steps_multiplier {start : List Char} (hstart : s.rest <:+ start) (afterHash : Bool)
    (id : NodeId) :
    (multiplier start afterHash id).run s = (.ok none, s) ∨
      Steps 1 (multiplier start afterHash id) (multiplier start afterHash id) s := by
  unfold multiplier
  rw [run_bind, run_rest]
  refine Or.imp_right steps_rest_bind ?_
  dsimp only
  split
  next => exact .inl rfl
  next behind heq =>
    refine .inr (steps_advance_one_bind heq (by decide) fun _ => ?_)
    refine (steps_quantifierOf id).andThen fun q _ _ _ => ?_
    exact (steps_setQuantifier id _).andThen fun _ _ _ _ => steps_pure _
  next behind heq =>
    refine .inr ((steps_range heq).before fun q _ _ hs _ => ?_)
    split
    · refine (steps_quantifierOf id).andThen fun old _ _ _ => ?_
      exact (steps_setQuantifier id _).andThen fun _ _ _ _ => steps_pure _
    · exact (steps_quantify id q (hs.suffix.trans hstart)).andThen fun _ _ _ _ => steps_pure _
  next c behind _ _ heq =>
    split
    next => exact .inl rfl
    next q hq =>
      refine .inr (steps_advance_one_bind heq (utf8Size_of_quantifier? hq) fun hs => ?_)
      split
      · refine (steps_quantifierOf id).andThen fun old _ _ _ => ?_
        exact (steps_setQuantifier id _).andThen fun _ _ _ _ => steps_pure _
      · exact (steps_quantify id q (hs.suffix.trans hstart)).andThen fun _ _ _ _ => steps_pure _

theorem steps_multiplier {start : List Char} (hstart : s.rest <:+ start) (afterHash : Bool)
    (id : NodeId) :
    Steps 0 (multiplier start afterHash id) (multiplier start afterHash id) s := by
  rcases none_or_steps_multiplier hstart afterHash id with hnone | hsteps
  · exact steps_still hnone
  · exact hsteps.mono (Nat.zero_le 1)

theorem beyond_of_multiplier {start : List Char} {afterHash : Bool} {id : NodeId}
    {next : Bool × NodeId} (hstart : s.rest <:+ start)
    (h : (multiplier start afterHash id).run s = (.ok (some next), s')) : Beyond s s' := by
  rcases none_or_steps_multiplier hstart afterHash id with hnone | hsteps
  · cases hnone.symm.trans h
  · exact hsteps.beyond h

/-- With more passes than characters the passes are not used up: each takes one. -/
theorem steps_multipliers {start : List Char} (hstart : s.rest <:+ start) (afterHash : Bool)
    (id : NodeId) {n : Nat} (hn : s.rest.length < n) :
    Steps 0 (multipliers start n afterHash id) (multipliers start n afterHash id) s := by
  induction n generalizing s afterHash id with
  | zero => exact absurd hn (Nat.not_lt_zero _)
  | succ n ih =>
    rw [multipliers_succ]
    refine (steps_multiplier hstart afterHash id).andThen fun next s₁ hrun _ => ?_
    cases next with
    | none => exact steps_pure id
    | some next =>
      have hs := beyond_of_multiplier hstart hrun
      have := hs.shorter
      exact ih (hs.suffix.trans hstart) next.1 next.2 (by omega)

/-! ## Components -/

variable {inner inner' : Parser NodeId}

theorem steps_dataType {r : List Char} (hrest : s.rest = '<' :: r) :
    Steps 1 (dataType s.rest) (dataType s.rest) s := by
  have hstart : s.rest <:+ s.rest := suffix_refl _
  unfold dataType
  refine steps_rest_bind ?_
  split
  · exact steps_fail _
  next stop hfound =>
    rw [hrest] at hfound
    obtain ⟨inner, d, behind, rfl, hd, rfl⟩ := exists_of_seek?_cons (by decide) hfound
    obtain rfl := of_decide_eq_true hd
    refine steps_checked_bind (by rw [hrest]; exact slice?_one (by decide)) ?_
    have hbehind : behind? (bytes ('<' :: inner) + 1) s.rest = some behind := by
      rw [hrest]
      exact behind?_succ (by decide)
    dsimp only
    refine steps_advance_bind hbehind (Nat.succ_pos _) fun hs => ?_
    refine steps_checked_bind (before?_takeWhile _ _) ?_
    split
    · exact steps_fail_bind _
    · split
      · exact steps_push _ hs.suffix
      · split
        · exact steps_push _ hs.suffix
        · exact (steps_slot _).andThen fun _ _ _ hs₁ => steps_push _ (hs.trans hs₁).suffix

/-- What is in brackets is read behind the opening one. -/
theorem steps_group (hinner : ∀ s', Later s s' → Steps 1 inner inner' s') :
    Steps 1 (group inner) (group inner') s := by
  unfold group
  refine steps_skipBlanks_bind fun hs => steps_rest_bind ?_
  split
  · exact steps_fail_bind _
  · refine (hinner _ hs).before fun id s₁ _ hs₁ _ => ?_
    refine steps_skipBlanks_bind fun hs₂ => steps_rest_bind ?_
    split
    next behind heq =>
      refine (steps_advance_one_bind heq (by decide) fun _ => ?_).mono (Nat.zero_le 1)
      exact steps_pure _
    next => exact steps_fail _

/-- The end of a function behind its arguments. -/
def closeFunction (name : String) (start : List Char) (children : List NodeId) : Parser NodeId := do
  skipBlanks
  match ← rest with
  | ')' :: _ =>
    advance 1
    push (.function name children) start
  | _ => fail .unclosedGroup

theorem steps_closeFunction (name : String) {start : List Char} (hstart : s.rest <:+ start)
    (children : List NodeId) :
    Steps 0 (closeFunction name start children) (closeFunction name start children) s := by
  unfold closeFunction
  refine steps_skipBlanks_bind fun hs => steps_rest_bind ?_
  split
  next behind heq =>
    refine (steps_advance_one_bind heq (by decide) fun hs₁ => ?_).mono (Nat.zero_le 1)
    exact steps_push _ ((hs.beyond hs₁).suffix.trans hstart)
  next => exact steps_fail _

/-- The arguments of a function are read behind its parenthesis. -/
theorem steps_function (name : String) {start r : List Char} (hstart : s.rest <:+ start)
    (hrest : s.rest = '(' :: r) (hinner : ∀ s', Beyond s s' → Steps 1 inner inner' s') :
    Steps 1 (function inner name start) (function inner' name start) s := by
  unfold function
  refine steps_advance_one_bind hrest (by decide) fun hs₁ => ?_
  refine steps_skipBlanks_bind fun hs₂ => steps_rest_bind ?_
  have hs := hs₁.trans hs₂
  dsimp only
  split
  · refine (steps_pure []).andThen fun children _ _ hs₃ => ?_
    exact steps_closeFunction name ((hs.trans hs₃).suffix.trans hstart) children
  · refine ((hinner _ hs).andThen fun id _ _ hs₃ => ?_)
    refine (steps_pure [id]).andThen fun children _ _ hs₄ => ?_
    exact steps_closeFunction name (((hs.trans hs₃).trans hs₄).suffix.trans hstart) children

/-- A quoted text, behind its first quote. -/
theorem steps_quoted {c : Char} {r : List Char} (hrest : s.rest = c :: r) (hc : c.utf8Size = 1) :
    let p : Parser NodeId := do
      let r ← checked (behind? 1 s.rest)
      match seek? (· = c) r with
      | none => fail .unexpectedEnd
      | some stop =>
        let text ← checked (before? stop r)
        setRest (← checked (behind? (stop + 1) r))
        push (.literal (String.ofList text)) s.rest
    Steps 1 p p s := by
  have hopen : behind? 1 s.rest = some r := by
    rw [hrest]
    exact behind?_one hc
  intro p
  refine steps_checked_bind hopen ?_
  split
  · exact steps_fail _
  next stop hfound =>
    obtain ⟨text, d, behind, rfl, -, hd, rfl⟩ := exists_of_seek? hfound
    obtain rfl := of_decide_eq_true hd
    refine steps_checked_bind (before?_append _ _) (steps_checked_bind (behind?_succ hc) ?_)
    have hsuffix : behind <:+ s.rest := by
      rw [hrest]
      exact ((suffix_cons d behind).trans (suffix_append text _)).trans (suffix_cons d _)
    have hshorter : behind.length < s.rest.length := by
      rw [hrest]
      simp only [length_cons, length_append]
      omega
    refine steps_setRest_bind hsuffix hshorter fun _ => ?_
    exact steps_push _ hsuffix

theorem steps_unquantified (hinner : ∀ s', Beyond s s' → Steps 1 inner inner' s') :
    Steps 1 (unquantified inner) (unquantified inner') s := by
  unfold unquantified
  refine steps_rest_bind ?_
  split
  next => exact steps_fail _
  next behind heq =>
    refine (steps_advance_one_bind heq (by decide) fun hs => ?_).mono (Nat.le_add_left 1 1)
    exact steps_group fun s' hs' => hinner s' (hs.trans hs')
  next behind heq => exact steps_dataType heq
  next c behind _ _ heq =>
    split
    next hquote =>
      refine steps_quoted heq ?_
      simp only [Bool.or_eq_true, decide_eq_true_eq] at hquote
      rcases hquote with rfl | rfl <;> decide
    next =>
      split
      next hsign =>
        have hsize : c.utf8Size = 1 := by
          simp only [Bool.or_eq_true, decide_eq_true_eq] at hsign
          rcases hsign with rfl | rfl <;> decide
        refine steps_advance_one_bind heq hsize fun hs => ?_
        exact steps_push _ hs.suffix
      next =>
        split
        next hname =>
          have hstop : 0 < bytes (s.rest.takeWhile isNameChar) := by
            rw [heq, takeWhile_cons_of_pos hname, bytes_cons]
            exact Nat.add_pos_left c.utf8Size_pos _
          refine steps_checked_bind (before?_takeWhile _ _) ?_
          refine steps_advance_bind (behind?_takeWhile _ _) hstop fun hs => ?_
          refine steps_rest_bind ?_
          split
          next hopen =>
            obtain ⟨r, hr⟩ := head?_eq_some_iff.mp hopen
            have hbehind (s' : State) (hs' : Beyond _ s') : Steps 1 inner inner' s' :=
              hinner s' (hs.trans hs'.toLater)
            exact (steps_function _ hs.suffix hr hbehind).mono (Nat.zero_le 1)
          next => exact steps_push _ hs.suffix
        next => exact steps_fail _

theorem steps_component (hinner : ∀ s', Beyond s s' → Steps 1 inner inner' s') :
    Steps 1 (component inner) (component inner') s := by
  unfold component
  refine steps_rest_bind ?_
  refine (steps_unquantified hinner).before fun id s₁ _ hs₁ htaken => ?_
  exact steps_multipliers hs₁.suffix _ _ htaken

theorem steps_grammarWith (hinner : ∀ s', Beyond s s' → Steps 1 inner inner' s') :
    Steps 1 (grammarWith inner) (grammarWith inner') s := by
  refine steps_combined _ fun s₁ hs₁ => steps_combined _ fun s₂ hs₂ =>
    steps_combined _ fun s₃ hs₃ => steps_juxtaposition fun s₄ hs₄ =>
      steps_component fun s' hs' => hinner s' ?_
  exact (((hs₁.trans hs₂).trans hs₃).trans hs₄).beyond hs'

/-- Brackets nest less deeply than there are characters. -/
theorem steps_grammarWithin {n n' : Nat} (hn : s.rest.length < n) (hn' : s.rest.length < n') :
    Steps 1 (grammarWithin n) (grammarWithin n') s := by
  induction n generalizing n' s with
  | zero => exact absurd hn (Nat.not_lt_zero _)
  | succ n ih =>
    cases n' with
    | zero => exact absurd hn' (Nat.not_lt_zero _)
    | succ n' =>
      refine steps_grammarWith fun s' hs' => ih ?_ ?_
      all_goals
        have := hs'.shorter
        omega

/-- A grammar asks for the grammars in its brackets only behind where it began. -/
theorem grammarWith_congr {depth : Nat} (hdepth : s.rest.length < depth) {inner : Parser NodeId}
    (h : ∀ s', Beyond s s' → inner.run s' = (grammarWithin depth).run s') :
    (grammarWith inner).run s = (grammarWithin (depth + 1)).run s := by
  have hsteps : Steps 1 (grammarWith (grammarWithin depth)) (grammarWith inner) s := by
    refine steps_grammarWith fun s' hs' => ?_
    have hdepth' : s'.rest.length < depth := Nat.lt_trans hs'.shorter hdepth
    obtain ⟨-, hlater, htaken, hplaced⟩ := steps_grammarWithin hdepth' hdepth'
    exact ⟨(h s' hs').symm, hlater, htaken, hplaced⟩
  exact hsteps.same.symm

/-- How a grammar is read from a state, with more levels of brackets than characters.  How many they
are does not matter, and nothing but a fault breaks it off, at the place that was reached.  Each
pass of a loop and each descent leaves less of the text, of what was left before a suffix. -/
structure Progress (depth : Nat) (s : State) : Prop where
  later : Later s ((grammarWithin depth).run s).2
  levels : ∀ depth', s.rest.length < depth' →
    (grammarWithin depth').run s = (grammarWithin depth).run s
  placed : ∀ halt, ((grammarWithin depth).run s).1 = .error halt →
    ∃ cause, halt = .fault ⟨cause, ((grammarWithin depth).run s).2.column⟩
  combinator : ∀ c length s', peekCombinator.run s = (.ok (some (c, length)), s') →
    ∃ r, behind? length s'.rest = some r ∧ Beyond s { s' with rest := r }
  component : ∀ id s', (component (grammarWithin depth)).run s = (.ok id, s') → Beyond s s'
  multiplier : ∀ start afterHash id next s', s.rest <:+ start →
    (multiplier start afterHash id).run s = (.ok (some next), s') → Beyond s s'
  descent : ∀ inner, (∀ s', Beyond s s' → inner.run s' = (grammarWithin depth).run s') →
    (grammarWith inner).run s = (grammarWithin (depth + 1)).run s

theorem progress {depth : Nat} (hdepth : s.rest.length < depth) : Progress depth s where
  later := (steps_grammarWithin hdepth hdepth).later
  levels depth' hdepth' := (steps_grammarWithin hdepth' hdepth).same
  placed := (steps_grammarWithin hdepth hdepth).placed
  combinator c length s' h := by
    have hlater := (steps_peekCombinator (s := s)).later
    rw [h] at hlater
    obtain ⟨hlength, r, hr⟩ := behind_of_peekCombinator h
    have hbeyond : Beyond s' { s' with rest := r } :=
      ⟨⟨rfl, suffix_of_behind? hr⟩, length_lt_of_behind? hr hlength⟩
    exact ⟨r, hr, hlater.beyond hbeyond⟩
  component id s' h := by
    refine Steps.beyond (steps_component fun s' hs' => ?_) h
    have hdepth' := Nat.lt_trans hs'.shorter hdepth
    exact steps_grammarWithin hdepth' hdepth'
  multiplier _ _ _ _ _ hstart h := beyond_of_multiplier hstart h
  descent _ h := grammarWith_congr hdepth h

/-! ## Places of faults -/

end Definition

end StyleGrammar

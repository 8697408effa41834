import StyleGrammar.Proofs.Definition.Multipliers

/-!
# Reading components back

Literals, data types and references are read as what they were written for, up
to the multipliers behind them.
-/

namespace StyleGrammar

open List

namespace Definition

variable {source s s' r : List Char} {c : Char} {a a' : Arena} {t : Tree} {q : Quantifier}
  {inner : Parser NodeId}

/-- A reader makes a node for a tree from one text, and leaves another. -/
def Reads (p : Parser NodeId) (t : Tree) (q : Quantifier) (s s' : List Char) : Prop :=
  ∀ source a, ∃ id a', p.run ⟨source, s, a⟩ = (.ok id, ⟨source, s', a'⟩) ∧ a.Made a' t q id

/-! ## Where words end -/

/-- Where a word ends, and no function begins. -/
def Stops (r : List Char) : Prop := ∀ c ∈ r.head?, isNameChar c = false ∧ c ≠ '('

theorem Ends.stops (hr : Ends r) : Stops r := by
  intro c hc
  rcases hr with rfl | ⟨r', rfl⟩
  · cases hc
  · cases hc
    exact ⟨by decide, by decide⟩

theorem stops_mark (hr : Ends r) : Stops (q.mark ++ r) := by
  unfold Quantifier.mark
  cases q.required with
  | false => exact hr.stops
  | true =>
    intro c hc
    cases hc
    exact ⟨by decide, by decide⟩

/-- No multiplier continues a word. -/
theorem stops_render (hq : q.Writable) (hr : Ends r) : Stops (q.render.toList ++ r) := by
  by_cases hplain : q.Plain
  · rw [Quantifier.render_toList, hplain.bounds_eq_empty]
    exact stops_mark hr
  · rcases Quantifier.render_cases hq.proper hplain with
      ⟨c, hrender, hc⟩ | ⟨-, hrender⟩ | ⟨-, hrender⟩
    · rw [hrender]
      intro c' hc'
      cases hc'
      unfold quantifier? at hc
      split at hc <;> first | exact ⟨by decide, by decide⟩ | cases hc
    · rw [hrender]
      intro c hc
      cases hc
      exact ⟨by decide, by decide⟩
    · rw [hrender]
      intro c hc
      cases hc
      exact ⟨by decide, by decide⟩

theorem takeWhile_name (hs : ∀ c ∈ s, isNameChar c = true) (hr : Stops r) :
    (s ++ r).takeWhile isNameChar = s := by
  rw [takeWhile_append_of_pos hs]
  cases r with
  | nil => simp
  | cons c r => rw [takeWhile_cons_of_neg (by simp [(hr c rfl).1]), append_nil]

theorem dropWhile_name (hs : ∀ c ∈ s, isNameChar c = true) (hr : Stops r) :
    (s ++ r).dropWhile isNameChar = r := by
  rw [dropWhile_append_of_pos hs]
  cases r with
  | nil => rfl
  | cons c r => rw [dropWhile_cons_of_neg (by simp [(hr c rfl).1])]

theorem isNameChar_of_alphanumeric (hc : alphanumeric c = true) : isNameChar c = true := by
  unfold alphanumeric at hc
  unfold isNameChar
  split at hc
  next => simp [hc]
  next hle => simp [UInt32.not_lt.mp hle]

theorem isNameChar_of_word
    (hword : (s.all fun c => alphanumeric c || c = '-' || c = '_') = true) :
    ∀ c ∈ s, isNameChar c = true := by
  intro c hc
  have hword := all_eq_true.mp hword c hc
  simp only [Bool.or_eq_true, decide_eq_true_eq] at hword
  rcases hword with (hword | rfl) | rfl
  · exact isNameChar_of_alphanumeric hword
  · decide
  · decide

/-! ## Literals -/

theorem run_unquantified_name (hc : isNameChar c = true) :
    (unquantified inner).run ⟨source, c :: s, a⟩ =
      (if ((c :: s).dropWhile isNameChar).head? = some '(' then
          function inner (String.ofList ((c :: s).takeWhile isNameChar)) (c :: s)
        else push (.literal (String.ofList ((c :: s).takeWhile isNameChar))) (c :: s)).run
          ⟨source, (c :: s).dropWhile isNameChar, a⟩ := by
  have hne {c' : Char} (hc' : isNameChar c' = false) : c ≠ c' := by
    rintro rfl
    rw [hc] at hc'
    cases hc'
  have hquote : (c = '\'' || c = '"') = false := by
    simp [hne (show isNameChar '\'' = false by decide), hne (show isNameChar '"' = false by decide)]
  have hdelimiter : (c = ',' || c = '/') = false := by
    simp [hne (show isNameChar ',' = false by decide), hne (show isNameChar '/' = false by decide)]
  unfold unquantified
  rw [run_rest_bind]
  split
  next heq => cases heq
  next heq =>
    cases heq
    exact absurd hc (by decide)
  next heq =>
    cases heq
    exact absurd hc (by decide)
  next heq =>
    cases heq
    rw [hquote, hdelimiter, hc]
    simp only [before?_takeWhile, checked_some_bind]
    refine (run_advance_bind (behind?_takeWhile isNameChar (c :: s)) _).trans ?_
    rw [run_rest_bind]

/-- A word is read as a literal. -/
theorem reads_word (hne : s ≠ []) (hs : ∀ c ∈ s, isNameChar c = true) (hr : Stops r) :
    Reads (unquantified inner) (.literal (String.ofList s) q) .one (s ++ r) r := by
  intro source a
  cases s with
  | nil => exact absurd rfl hne
  | cons c s =>
    refine ⟨a.size, a.push (newNode (.literal (String.ofList (c :: s))) (c :: s)), ?_,
      Arena.made_push (.refl a) rfl⟩
    have hparen : r.head? ≠ some '(' := fun h => (hr '(' h).2 rfl
    rw [cons_append, run_unquantified_name (hs c mem_cons_self), ← cons_append,
      dropWhile_name hs hr, takeWhile_name hs hr, if_neg hparen]
    exact run_push (between?_append (c :: s) r)

/-- A quoted text is read as a literal. -/
theorem reads_quoted (hs : '\'' ∉ s) :
    Reads (unquantified inner) (.literal (String.ofList s) q) .one
      ('\'' :: (s ++ '\'' :: r)) r := by
  intro source a
  have hquote : ∀ c ∈ s, decide (c = '\'') = false := by
    intro c hc
    apply decide_eq_false
    rintro rfl
    exact hs hc
  have hopen : behind? 1 ('\'' :: (s ++ '\'' :: r)) = some (s ++ '\'' :: r) :=
    behind?_one (by decide)
  have hfound : seek? (· = '\'') (s ++ '\'' :: r) = some (bytes s) :=
    seek?_append hquote (by decide)
  have hclose : behind? (bytes s + 1) (s ++ '\'' :: r) = some r := behind?_succ (by decide)
  have hraw : between? ('\'' :: (s ++ '\'' :: r)) r = some ('\'' :: (s ++ ['\''])) := by
    rw [show '\'' :: (s ++ '\'' :: r) = '\'' :: (s ++ ['\'']) ++ r by simp]
    exact between?_append _ r
  refine ⟨a.size, a.push (newNode (.literal (String.ofList s)) ('\'' :: (s ++ ['\'']))), ?_,
    Arena.made_push (.refl a) rfl⟩
  refine Eq.trans ?_ (run_push hraw)
  unfold unquantified
  rw [run_rest_bind]
  change (if (decide ('\'' = '\'') || _) = true then _ else _ : Parser NodeId).run _ = _
  rw [if_pos (by decide), hopen, checked_some_bind, hfound]
  dsimp only
  rw [before?_append, checked_some_bind, hclose, checked_some_bind, run_setRest_bind]

/-- A literal is read back, as a delimiter, a word or a quoted text. -/
theorem reads_literal {text : String} (hne : text ≠ "") (hquote : '\'' ∉ text.toList)
    (hr : Stops r) :
    Reads (unquantified inner) (.literal text q) .one
      ((Arena.renderLiteral text).toList ++ r) r := by
  have hof : String.ofList text.toList = text := String.ofList_toList
  unfold Arena.renderLiteral
  split
  next hdelimiter =>
    simp only [Bool.or_eq_true, decide_eq_true_eq] at hdelimiter
    intro source a
    refine ⟨a.size, a.push (newNode (.literal text) text.toList), ?_,
      Arena.made_push (.refl a) rfl⟩
    refine Eq.trans ?_ (run_push (between?_append text.toList r))
    rcases hdelimiter with rfl | rfl <;> exact run_advance_bind (behind?_one (by decide)) _
  next =>
    split
    next hword =>
      rw [← hof, String.toList_ofList]
      exact reads_word (by simpa using hne) (isNameChar_of_word hword) hr
    next =>
      have hquoted : Reads (unquantified inner) (.literal _ q) .one _ r := reads_quoted hquote
      rw [hof] at hquoted
      rw [String.toList_append, String.toList_append, append_assoc, append_assoc]
      exact hquoted

/-! ## Data types and references -/

theorem run_unquantified_bracket :
    (unquantified inner).run ⟨source, '[' :: r, a⟩ = (group inner).run ⟨source, r, a⟩ := by
  unfold unquantified
  rw [run_rest_bind]
  exact run_advance_bind (behind?_one (by decide)) _

theorem run_unquantified_angle :
    (unquantified inner).run ⟨source, '<' :: s, a⟩ =
      (dataType ('<' :: s)).run ⟨source, '<' :: s, a⟩ :=
  rfl

/-- A name between angle brackets. -/
theorem run_dataType {start : List Char} (hne : s ≠ [])
    (hs : ∀ c ∈ s, Blank c = false ∧ c ≠ '[' ∧ c ≠ '>')
    (hsuffix : ['(', ')'].isSuffixOf s = false) :
    (dataType start).run ⟨source, '<' :: (s ++ '>' :: r), a⟩ =
      (if DataType.isPrimitive (String.ofList s) then push (.dataType (String.ofList s)) start
        else do
          let target ← slot (String.ofList s)
          push (.reference (String.ofList s) target) start).run ⟨source, r, a⟩ := by
  have hclosing : ∀ c ∈ '<' :: s, decide (c = '>') = false := by
    intro c hc
    apply decide_eq_false
    rcases mem_cons.mp hc with rfl | hc
    · decide
    · exact (hs c hc).2.2
  have hname : ∀ c ∈ s, (!Blank c && c != '[') = true := by
    intro c hc
    simp [(hs c hc).1, (hs c hc).2.1]
  have hfound : seek? (· = '>') ('<' :: (s ++ '>' :: r)) = some (bytes ('<' :: s)) :=
    seek?_append hclosing (by decide)
  have hinner : slice? 1 (bytes ('<' :: s)) ('<' :: (s ++ '>' :: r)) = some s :=
    slice?_one (by decide)
  have hbehind : behind? (bytes ('<' :: s) + 1) ('<' :: (s ++ '>' :: r)) = some r :=
    behind?_succ (by decide)
  have htrimmed : trimmed Blank s = s := trimmed_eq_self fun c hc => (hs c hc).1
  have htake : s.takeWhile (fun c => !Blank c && c != '[') = s :=
    takeWhile_eq_self_iff.mpr hname
  have hempty : s.isEmpty = false := isEmpty_eq_false_iff.mpr hne
  unfold dataType
  rw [run_rest_bind, hfound]
  dsimp only
  rw [hinner, checked_some_bind, run_advance_bind hbehind, htrimmed, before?_takeWhile,
    checked_some_bind, htake]
  simp only [hempty, hsuffix]
  rfl

/-- The names of primitive data types need no care. -/
theorem plain_of_isPrimitive {name : String} (h : DataType.isPrimitive name = true) :
    name.toList ≠ [] ∧ (∀ c ∈ name.toList, Blank c = false ∧ c ≠ '[' ∧ c ≠ '>') ∧
      ['(', ')'].isSuffixOf name.toList = false := by
  -- As a Boolean, since the characters to be tested are those of the name and not all that exist.
  have hplain : (name.toList != [] && (name.toList.all fun c => !Blank c && c != '[' && c != '>') &&
      !(['(', ')'].isSuffixOf name.toList)) = true := by
    unfold DataType.isPrimitive DataType.kinds? at h
    split at h <;> first | decide | cases h
  simpa [and_assoc] using hplain

/-- What was read of a name between angle brackets. -/
theorem between?_angle (name r : List Char) :
    between? ('<' :: (name ++ '>' :: r)) r = some ('<' :: (name ++ ['>'])) := by
  rw [show '<' :: (name ++ '>' :: r) = '<' :: (name ++ ['>']) ++ r by simp]
  exact between?_append _ r

theorem reads_dataType {name : String} (hprimitive : DataType.isPrimitive name = true) :
    Reads (unquantified inner) (.dataType name q) .one ('<' :: (name.toList ++ '>' :: r)) r := by
  intro source a
  rcases plain_of_isPrimitive hprimitive with ⟨hne, hchars, hsuffix⟩
  refine ⟨a.size, a.push (newNode (.dataType name) ('<' :: (name.toList ++ ['>']))), ?_,
    Arena.made_push (.refl a) rfl⟩
  rw [run_unquantified_angle, run_dataType hne hchars hsuffix, String.ofList_toList,
    if_pos hprimitive]
  exact run_push (between?_angle name.toList r)

theorem reads_reference {name : String} (hne : name ≠ "")
    (hprimitive : DataType.isPrimitive name = false)
    (hchars : ∀ c ∈ name.toList, Blank c = false ∧ c ≠ '[' ∧ c ≠ '>')
    (hsuffix : ['(', ')'].isSuffixOf name.toList = false) :
    Reads (unquantified inner) (.reference name q) .one ('<' :: (name.toList ++ '>' :: r)) r := by
  intro source a
  have hnil : name.toList ≠ [] := by simpa using hne
  refine ⟨(a.slot name).2.size, (a.slot name).2.push
      (newNode (.reference name (a.slot name).1) ('<' :: (name.toList ++ ['>']))), ?_,
    Arena.made_push (a.extends_slot name) ⟨_, rfl⟩⟩
  rw [run_unquantified_angle, run_dataType hnil hchars hsuffix, String.ofList_toList,
    if_neg (by simp [hprimitive]), run_bind_of_ok (run_slot name)]
  exact run_push (between?_angle name.toList r)

end Definition

end StyleGrammar

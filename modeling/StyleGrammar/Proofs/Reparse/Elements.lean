import StyleGrammar.Proofs.Reparse.PlainColors

/-!
# Which ids of elements are read back

An id is written as a name behind a number sign, and a name may begin with a digit.
But only a name that starts an identifier makes the number sign an id, so whether an
element is read back depends on the first two characters of its id.
-/

namespace StyleGrammar

open Reader Output Component Scan

namespace Element

/-- A written name with these characters starts an identifier: it does not begin with a digit, nor
with a hyphen that a digit or nothing follows. -/
def startsIdentifier : List Char → Bool
  | [] | ['-'] => false
  | '-' :: c :: _ => !c.isDigit
  | c :: _ => !c.isDigit

theorem isDigit_eq_false_of_not_isPlain {c : Char} (h : Escape.isPlain c = false) :
    c.isDigit = false := by
  by_contra hdigit
  simp [Escape.isPlain, Char.isAlphanum, hdigit] at h

/-- A character of a name is written as it is or begins with a backslash. -/
theorem nameChar_cases {c : Char} (h0 : c.val ≠ 0) :
    Escape.isPlain c = true ∧ Escape.nameChar c = [c] ∨
      Escape.isPlain c = false ∧ ∃ t, Escape.nameChar c = '\\' :: t := by
  unfold Escape.nameChar
  cases hplain : Escape.isPlain c with
  | true => exact .inl ⟨rfl, rfl⟩
  | false =>
    rw [if_neg (by simp), if_neg h0]
    split
    · exact .inr ⟨rfl, _, rfl⟩
    · exact .inr ⟨rfl, _, rfl⟩

theorem isName_eq_not_isDigit {c : Char} (hplain : Escape.isPlain c = true) (hdash : c ≠ '-') :
    (c.isAlpha || c = '_' || c.val = 0 || 0x80 ≤ c.val) = !c.isDigit := by
  cases hdigit : c.isDigit with
  | true =>
    rw [Bool.not_true, Bool.eq_false_iff]
    intro hname
    rw [isDigit_eq_false_of_isName hname] at hdigit
    cases hdigit
  | false => exact (isName_of_isPlain hplain hdigit).resolve_left hdash

/-- Behind a hyphen, a written name goes on an identifier unless a digit is next, or nothing. -/
theorem startsName_hyphen {c : Char} (h0 : c.val ≠ 0) (s : List Char) :
    startsName ('-' :: (Escape.nameChar c ++ s)) = !c.isDigit := by
  rcases nameChar_cases h0 with ⟨hplain, hchar⟩ | ⟨hplain, t, hchar⟩
  · rw [hchar]
    have hb : c ≠ '\\' := by rintro rfl; revert hplain; decide
    by_cases hdash : c = '-'
    · subst hdash
      rfl
    · have hname := isName_eq_not_isDigit hplain hdash
      simp only [List.cons_append, startsName, hdash, hb, decide_false, Bool.or_false, ← hname]
  · rw [hchar, isDigit_eq_false_of_not_isPlain hplain]
    simp [startsName]

theorem startsName_name {s : List Char} (hs : Scan.Sound s) :
    startsName (Escape.name s) = startsIdentifier s := by
  cases s with
  | nil => rfl
  | cons c r =>
    have h0 := hs c List.mem_cons_self
    by_cases hdash : c = '-'
    · subst hdash
      change startsName ('-' :: Escape.name r) = _
      cases r with
      | nil => rfl
      | cons d r =>
        have h0 := hs d (List.mem_cons_of_mem _ List.mem_cons_self)
        exact startsName_hyphen h0 (Escape.name r)
    · have hstarts : startsIdentifier (c :: r) = !c.isDigit := by
        unfold startsIdentifier
        split <;> simp_all
      rw [hstarts]
      change startsName (Escape.nameChar c ++ Escape.name r) = _
      rcases nameChar_cases h0 with ⟨hplain, hchar⟩ | ⟨hplain, t, hchar⟩
      · have hb : c ≠ '\\' := by rintro rfl; revert hplain; decide
        rw [hchar, List.singleton_append, startsName_cons hdash hb,
          isName_eq_not_isDigit hplain hdash]
      · have hword : Word ('\\' :: t) := hchar ▸ word_nameChar c
        rw [hchar, startsName_of_backslash hword, isDigit_eq_false_of_not_isPlain hplain]
        rfl

/-- The token behind the number sign of a written id. -/
theorem afterHash_name {s : List Char} (hs : Scan.Sound s) :
    (startsIdentifier s = true → afterHash (Escape.name s) = (.idHash (String.ofList s), [])) ∧
      (startsIdentifier s = false → ∀ id, (afterHash (Escape.name s)).1 ≠ .idHash id) := by
  have hname : name (Escape.name s) = (s, []) := by
    have := name_escapeName hs (name_of_apart (apart_nil wordStops))
    rwa [List.append_nil] at this
  unfold afterHash
  rw [startsName_name hs, hname]
  refine ⟨fun h => by rw [if_pos h], fun h id => ?_⟩
  rw [h]
  simp only [Bool.false_eq_true, if_false]
  split
  · split <;> simp
  · simp

theorem steadyHead_sound : SteadyHead (fun e : Element => Scan.Sound e.id.toList)
    (read : Reader Element) := by
  refine steadyHead_call _ (.expectLike fun t e ht h => ?_)
  cases t <;> cases h
  exact ht.sound

/-- An element is read back if and only if its id starts an identifier; else its text is no
element. -/
theorem readText_of_read {s : String} {e : Element} (h : readText Element s = .ok e)
    (compact : Bool) :
    (readText Element (textOf compact e)).toOption =
      if startsIdentifier e.id.toList then some e else none := by
  have hsound : Scan.Sound e.id.toList := steadyHead_sound.steady.good_of_run h
  obtain ⟨hstarts, hother⟩ := afterHash_name hsound
  have htoken (s : List Char) : Scan.token '#' s = afterHash s := by
    simp [Scan.token, single?, Scan.pair?]
  obtain ⟨ks, hks, hnil⟩ :=
    Makes.first (.char (show isWordChar '#' = true by decide) (word_name e.id.toList))
  rw [htoken] at hks hnil
  have hcontent : Makes closers (chars (char '#' ++ escapedName e.id.toList))
      (.token (afterHash (Escape.name e.id.toList)).1 .start :: ks) := by
    have := hks.mono (show closers ⊆ wordStops by decide)
    simpa using this
  have hcall := makes_call (show isFunctionName "element" = true by decide) hcontent
  have htext : chars (print compact e) =
      chars (call "element" (char '#' ++ escapedName e.id.toList)) := by
    simp [print, call]
  have hbare : bareAll (ofText (textOf compact e).toList) =
      [.block (.function "element") .start
        (.token (afterHash (Escape.name e.id.toList)).1 .start :: ks) .start] := by
    rw [textOf, toList_render, htext]
    exact hcall.bareAll_ofText
  have hopener {n : Nat} {content ls : List Component} :
      Takes (Ahead n (.block (.function "element") .start content .start :: ls))
        (Inside n content ls)
        () (functionNamed "element") := takes_opener (by simp [sameName])
  cases hid : startsIdentifier e.id.toList with
  | true =>
    have hafter := hstarts hid
    rw [hnil (by rw [hafter]), hafter, String.ofList_toList] at hbare
    have hread : Takes (Stand 0 [.block (.function "element") .start
        [.token (.idHash e.id) .start] .start]) (Ahead 0 []) e read := by
      refine (hopener.before fun _ hc => hc.ahead).bind
        (Takes.after (Takes.block ?_) fun _ hc => hc.ahead)
      refine Takes.after (Takes.before (takes_token ?_) fun _ hc => Stand.ahead hc)
        fun _ hc => hc.ahead
      rfl
    rw [readText, run_of_takes hbare hread]
    rfl
  | false =>
    have hread : Fails (Stand 0 [.block (.function "element") .start
        (.token (afterHash (Escape.name e.id.toList)).1 .start :: ks) .start])
        (read : Reader Element) := by
      refine (hopener.before fun _ hc => hc.ahead).bindFails (Fails.block ?_)
      refine Fails.before (fails_token ?_) fun _ hc => hc.ahead
      have hother := hother hid
      generalize (afterHash (Escape.name e.id.toList)).1 = t at hother
      cases t <;> first | rfl | exact absurd rfl (hother _)
    obtain ⟨fault, hfault⟩ := run_of_fails hbare hread.bind
    rw [readText, hfault]
    rfl

theorem readText_escapedId :
    readText Element "element(#a\\(b)" = .ok ⟨"a(b"⟩ ∧
      (readText Element (textOf false (⟨"a(b"⟩ : Element))).toOption = some ⟨"a(b"⟩ := by
  have h : readText Element "element(#a\\(b)" = .ok ⟨"a(b"⟩ := by decide +kernel
  exact ⟨h, readText_of_read h false⟩

/-- An id may begin with a digit, but its text is not read back. -/
theorem not_readText_digitId :
    (readText Element "element(#\\31 a)").toOption = some ⟨"1a"⟩ ∧
      textOf false (⟨"1a"⟩ : Element) = "element(#1a)" ∧
      (readText Element "element(#1a)").toOption = none := by
  decide +kernel

end Element

end StyleGrammar

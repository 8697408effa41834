import StyleGrammar.Proofs.Reparse.Values
import StyleGrammar.Proofs.Value.Delimiters

/-!
# The arguments of transforms and filters

The arguments of a function stand between the commas of its values that are in no
brackets.  Transforms count all commas, those in brackets too, and do not look at
what stands between them.  So a transform that is read never has more arguments than
it takes, but some of them can be empty, and commas in brackets can stand for missing
ones.  A filter that takes at most one argument is read with one value, which can be
a comma or a slash.
-/

namespace StyleGrammar

open Reader

namespace Sequence

theorem forall_mem_modifyHead {α : Type} {P : α → Prop} {f : α → α} {as : List α}
    (h : ∀ a ∈ as, P a) (hf : ∀ a, P a → P (f a)) : ∀ a ∈ as.modifyHead f, P a := by
  cases as with
  | nil => exact h
  | cons a as =>
    obtain ⟨ha, has⟩ := List.forall_mem_cons.mp h
    exact List.forall_mem_cons.mpr ⟨hf a ha, has⟩

theorem intercalate_modifyHead {α : Type} (s : List α) (a : α) {as : List (List α)} (h : as ≠ []) :
    List.intercalate s (as.modifyHead (a :: ·)) = a :: List.intercalate s as := by
  cases as with
  | nil => exact absurd rfl h
  | cons b as => cases as <;> rfl

section Pieces

variable {V : Type} [Term V] {good : V → Prop} {vs ws : List V} {v : V} {depth : Nat}

/-- How many brackets are open behind a value, if `depth` are open before it. -/
def depthBehind (depth : Nat) (v : V) : Nat :=
  match delimiter? v with
  | some '[' => depth + 1
  | some ']' => depth - 1
  | _ => depth

def IsComma (v : V) : Prop := delimiter? v = some ','

instance : DecidablePred (IsComma (V := V)) := fun _ => inferInstanceAs (Decidable (_ = _))

/-- What stands between the commas that are in no brackets, if `depth` brackets are open. -/
def pieces : (depth : Nat) → List V → List (List V)
  | _, [] => [[]]
  | 0, v :: vs =>
    if IsComma v then [] :: pieces 0 vs else (pieces (depthBehind 0 v) vs).modifyHead (v :: ·)
  | n + 1, v :: vs => (pieces (depthBehind (n + 1) v) vs).modifyHead (v :: ·)

/-- The arguments of a function.  Without values there are none. -/
def arguments (vs : List V) : List (List V) := if vs.isEmpty then [] else pieces 0 vs

/-- The number of commas in brackets, if `depth` are open. -/
def innerCommas : (depth : Nat) → List V → Nat
  | _, [] => 0
  | 0, v :: vs => innerCommas (depthBehind 0 v) vs
  | n + 1, v :: vs => (if IsComma v then 1 else 0) + innerCommas (depthBehind (n + 1) v) vs

@[simp] theorem pieces_nil (depth : Nat) : pieces depth ([] : List V) = [[]] := by
  cases depth <;> rfl

theorem pieces_zero (v : V) (vs : List V) :
    pieces 0 (v :: vs) =
      if IsComma v then [] :: pieces 0 vs
      else (pieces (depthBehind 0 v) vs).modifyHead (v :: ·) := rfl

theorem pieces_succ (n : Nat) (v : V) (vs : List V) :
    pieces (n + 1) (v :: vs) = (pieces (depthBehind (n + 1) v) vs).modifyHead (v :: ·) := rfl

theorem innerCommas_zero (v : V) (vs : List V) :
    innerCommas 0 (v :: vs) = innerCommas (depthBehind 0 v) vs := rfl

theorem innerCommas_succ (n : Nat) (v : V) (vs : List V) :
    innerCommas (n + 1) (v :: vs) =
      (if IsComma v then 1 else 0) + innerCommas (depthBehind (n + 1) v) vs := rfl

theorem depthBehind_comma (h : IsComma v) : depthBehind depth v = depth := by
  unfold depthBehind
  rw [h]
  rfl

/-- Each comma ends a piece or stands in brackets. -/
theorem length_pieces (depth : Nat) (vs : List V) :
    (pieces depth vs).length + innerCommas depth vs = 1 + vs.countP fun v => IsComma v := by
  induction vs generalizing depth with
  | nil => cases depth <;> rfl
  | cons v vs ih =>
    have hbehind := ih (depthBehind depth v)
    cases depth with
    | zero =>
      rw [pieces_zero, innerCommas_zero, List.countP_cons]
      by_cases hv : IsComma v
      · rw [depthBehind_comma hv] at hbehind ⊢
        simp only [hv, if_true, List.length_cons, decide_true]
        omega
      · simpa [hv] using hbehind
    | succ n =>
      rw [pieces_succ, innerCommas_succ, List.countP_cons, List.length_modifyHead]
      by_cases hv : IsComma v
      · simp only [hv, if_true, decide_true]
        omega
      · simpa [hv] using hbehind

theorem argumentCount_eq (vs : List V) :
    argumentCount vs = (arguments vs).length + innerCommas 0 vs := by
  cases vs with
  | nil => rfl
  | cons v vs =>
    rw [arguments, List.isEmpty_cons, if_neg Bool.false_ne_true, length_pieces]
    rfl

/-! Pieces of sequences with their brackets. -/

theorem depthBehind_good (hV : Lawful V good) (h : good v) (depth : Nat) :
    depthBehind depth v = depth := by
  unfold depthBehind
  rcases solid_or hV h with hv | hv | ⟨hv, -⟩ <;> rw [hv] <;> rfl

theorem depthBehind_open (hV : Lawful V good) (depth : Nat) :
    depthBehind depth (delimiter '[' : V) = depth + 1 := by
  unfold depthBehind
  rw [delimiter?_delimiter hV]
  rfl

theorem depthBehind_close (hV : Lawful V good) (depth : Nat) :
    depthBehind (depth + 1) (delimiter ']' : V) = depth := by
  unfold depthBehind
  rw [delimiter?_delimiter hV]
  rfl

/-- Between brackets no piece ends. -/
theorem pieces_inside (hV : Lawful V good) (h : Bracketed good vs) (depth : Nat) (ws : List V) :
    pieces (depth + 1) (vs ++ ws) = (pieces (depth + 1) ws).modifyHead (vs ++ ·) := by
  induction h generalizing depth ws with
  | nil =>
    rw [List.nil_append]
    cases pieces (depth + 1) ws <;> rfl
  | cons hv _ ih =>
    rw [List.cons_append, pieces_succ, depthBehind_good hV hv, ih, List.modifyHead_modifyHead]
    rfl
  | @brackets vs ws' _ _ ihinside ihbehind =>
    rw [List.append_assoc, List.cons_append, List.cons_append, pieces_succ, depthBehind_open hV,
      ihinside, pieces_succ, depthBehind_close hV, ihbehind]
    simp only [List.modifyHead_modifyHead]
    congr 1
    funext a
    simp

/-- Brackets and what stands in them belong to one piece. -/
theorem pieces_brackets (hV : Lawful V good) (h : Bracketed good vs) (ws : List V) :
    pieces 0 (delimiter '[' :: vs ++ delimiter ']' :: ws) =
      (pieces 0 ws).modifyHead (delimiter '[' :: vs ++ delimiter ']' :: ·) := by
  have hopen : ¬ IsComma (delimiter '[' : V) := by
    rw [IsComma, delimiter?_delimiter hV]
    decide
  rw [List.cons_append, pieces_zero, if_neg hopen, depthBehind_open hV, pieces_inside hV h,
    pieces_succ, depthBehind_close hV]
  simp only [List.modifyHead_modifyHead]
  rfl

/-- Brackets stand in pairs in each piece. -/
theorem bracketed_pieces (hV : Lawful V good) (h : Bracketed good vs) :
    ∀ a ∈ pieces 0 vs, Bracketed good a := by
  induction h with
  | nil => simpa using Bracketed.nil
  | @cons v vs hv _ ih =>
    rw [pieces_zero, depthBehind_good hV hv]
    split
    · exact List.forall_mem_cons.mpr ⟨.nil, ih⟩
    · exact forall_mem_modifyHead ih fun a ha => .cons hv ha
  | brackets hinside _ _ ih =>
    rw [pieces_brackets hV hinside]
    exact forall_mem_modifyHead ih fun a ha => .brackets hinside ha

theorem bracketed_arguments (hV : Lawful V good) (h : Bracketed good vs) :
    ∀ a ∈ arguments vs, Bracketed good a := by
  cases vs with
  | nil => simp [arguments]
  | cons v vs => exact bracketed_pieces hV h

end Pieces

variable {V : Type} [Term V]

theorem eq_delimiter {v : Form V} {c : Char} (h : delimiter? v = some c) : v = delimiter c := by
  unfold delimiter? at h
  split at h
  next d hleaf =>
    cases h
    exact Form.eq_of_leaf?_eq_some hleaf
  next => cases h

theorem pieces_ne_nil (depth : Nat) (vs : List V) : pieces depth vs ≠ [] := by
  induction vs generalizing depth with
  | nil => simp
  | cons v vs ih =>
    cases depth with
    | zero =>
      rw [pieces_zero]
      split
      · simp
      · simpa using ih _
    | succ n => simpa [pieces_succ] using ih _

theorem good_of_bracketed_singleton {good : V → Prop} {v : V} (h : Bracketed good [v]) :
    good v := by
  generalize hvs : [v] = vs at h
  cases h with
  | nil => cases hvs
  | cons hv =>
    cases hvs
    exact hv
  | brackets => simp at hvs

/-- The pieces and the commas between them are the whole sequence. -/
theorem intercalate_pieces (depth : Nat) (vs : List (Form V)) :
    List.intercalate [delimiter ','] (pieces depth vs) = vs := by
  induction vs generalizing depth with
  | nil => cases depth <;> rfl
  | cons v vs ih =>
    cases depth with
    | zero =>
      rw [pieces_zero]
      split
      next hv =>
        have hcons := List.exists_cons_of_ne_nil (pieces_ne_nil 0 vs)
        obtain ⟨a, as, has⟩ := hcons
        have hvs := ih 0
        rw [has] at hvs ⊢
        rw [List.intercalate_cons_cons, hvs, eq_delimiter hv]
        rfl
      next => rw [intercalate_modifyHead _ _ (pieces_ne_nil _ _), ih]
    | succ n => rw [pieces_succ, intercalate_modifyHead _ _ (pieces_ne_nil _ _), ih]

theorem intercalate_arguments (vs : List (Form V)) :
    List.intercalate [delimiter ','] (arguments vs) = vs := by
  cases vs with
  | nil => rfl
  | cons v vs => exact intercalate_pieces 0 (v :: vs)

end Sequence

variable {V : Type} [Term V]

/-- As many arguments as the function takes, and none of them empty. -/
def Transform.Proper (t : Transform V) : Prop :=
  (∀ a ∈ Sequence.arguments t.arguments, a ≠ []) ∧
    t.name.arity.1 ≤ (Sequence.arguments t.arguments).length ∧
    (Sequence.arguments t.arguments).length ≤ t.name.arity.2

/-- No argument, or a single value that is no delimiter. -/
def Filter.Proper (f : Filter V) : Prop :=
  f.arguments = [] ∨ ∃ v, f.arguments = [v] ∧ Sequence.delimiter? v = none

theorem lawful_value : Lawful Value (Form.Good (Nested.Good (nestingLimit - 1))) :=
  Form.lawful (Nested.lawful _)

theorem TransformName.arity_pos (t : TransformName) : 0 < t.arity.1 := by
  cases t <;> decide

/-- What is known of the arguments of a transform that was read.  They have their brackets in pairs
and lie within the bounds together with the commas in brackets; so they are never too many. -/
theorem Transform.arguments_of_read {s : String} {t : Transform Value}
    (h : readText (Transform Value) s = .ok t) :
    let as := Sequence.arguments t.arguments
    List.intercalate [Sequence.delimiter ','] as = t.arguments ∧
      (∀ a ∈ as, Sequence.Bracketed (Form.Good (Nested.Good (nestingLimit - 1))) a) ∧
      t.arguments ≠ [] ∧ t.name.arity.1 ≤ as.length + Sequence.innerCommas 0 t.arguments ∧
      as.length + Sequence.innerCommas 0 t.arguments ≤ t.name.arity.2 := by
  have hgood := (Transform.steadyHead_read lawful_value).steady.good_of_run h
  have harity := hgood.arity
  simp only [Sequence.argumentCount_eq, Bool.or_eq_false_iff, decide_eq_false_iff_not,
    not_lt] at harity
  refine ⟨Sequence.intercalate_arguments _,
    Sequence.bracketed_arguments lawful_value hgood.arguments, ?_,
    harity⟩
  intro hnil
  have hpos := t.name.arity_pos
  rw [hnil] at harity
  exact absurd harity.1 (by simpa [Sequence.arguments, Sequence.innerCommas] using hpos.ne')

/-- The arguments of a filter that was read are none or one value, which is no bracket. -/
theorem Filter.arguments_of_read {s : String} {f : Filter Value}
    (h : readText (Filter Value) s = .ok f) (hname : f.name ≠ .dropShadow) :
    f.Proper ∨ f.arguments = [Sequence.delimiter ','] ∨ f.arguments = [Sequence.delimiter '/'] := by
  have hgood := (Filter.steadyHead_read lawful_value).steady.good_of_run h
  have hlength : f.arguments.length ≤ 1 := by
    have hadmitted := hgood.admitted
    unfold FilterName.admits at hadmitted
    split at hadmitted
    next heq => exact absurd heq hname
    next => simpa using hadmitted
  cases harguments : f.arguments with
  | nil => exact .inl (.inl harguments)
  | cons v vs =>
    obtain rfl : vs = [] := by
      rw [harguments, List.length_cons] at hlength
      exact List.eq_nil_of_length_eq_zero (by omega)
    rcases Sequence.solid_or lawful_value
      (Sequence.good_of_bracketed_singleton (harguments ▸ hgood.arguments))
      with hv | hv | ⟨hv, -⟩
    · exact .inr (.inl (by rw [Sequence.eq_delimiter hv]))
    · exact .inr (.inr (by rw [Sequence.eq_delimiter hv]))
    · exact .inl (.inr ⟨v, harguments, hv⟩)

theorem Filter.not_proper_delimiter {f : Filter Value} {c : Char}
    (h : f.arguments = [Sequence.delimiter c]) : ¬ f.Proper := by
  rintro (hnil | ⟨v, hv, hnone⟩)
  · rw [hnil] at h
    cases h
  · rw [hv] at h
    cases h
    cases hnone

/-- What is read of the arguments of transforms and filters, and what is not looked at.  A transform
has its arguments and the commas in brackets within its bounds, so it has the right number of real
arguments unless one is empty or commas in brackets make up for missing ones.  A filter other than a
shadow has no argument or one, unless that is a comma or a slash. -/
theorem proper_iff_of_read (s : String) :
    (∀ t, readText (Transform Value) s = .ok t →
      t.name.arity.1 ≤
          (Sequence.arguments t.arguments).length + Sequence.innerCommas 0 t.arguments ∧
        (Sequence.arguments t.arguments).length + Sequence.innerCommas 0 t.arguments ≤
          t.name.arity.2 ∧
        List.intercalate [Sequence.delimiter ','] (Sequence.arguments t.arguments) = t.arguments ∧
        (∀ a ∈ Sequence.arguments t.arguments,
          Sequence.Bracketed (Form.Good (Nested.Good (nestingLimit - 1))) a) ∧
        (t.Proper ↔ (∀ a ∈ Sequence.arguments t.arguments, a ≠ []) ∧
          t.name.arity.1 ≤ (Sequence.arguments t.arguments).length)) ∧
    ∀ f, readText (Filter Value) s = .ok f → f.name ≠ .dropShadow →
      (f.Proper ↔ f.arguments ≠ [Sequence.delimiter ','] ∧
      f.arguments ≠ [Sequence.delimiter '/']) := by
  refine ⟨fun t h => ?_, fun f h hname => ?_⟩
  · obtain ⟨hjoined, hbracketed, -, hmin, hmax⟩ := Transform.arguments_of_read h
    refine ⟨hmin, hmax, hjoined, hbracketed, fun ⟨hne, hleast, _⟩ => ⟨hne, hleast⟩, ?_⟩
    rintro ⟨hne, hleast⟩
    exact ⟨hne, hleast, by omega⟩
  · constructor
    · intro hproper
      exact ⟨fun hcomma => Filter.not_proper_delimiter hcomma hproper,
        fun hslash => Filter.not_proper_delimiter hslash hproper⟩
    · rintro ⟨hcomma, hslash⟩
      rcases Filter.arguments_of_read h hname with hproper | heq | heq
      · exact hproper
      · exact absurd heq hcomma
      · exact absurd heq hslash

/-- A transform with two arguments, one of them in brackets, and a filter with one. -/
theorem proper_translate :
    (∃ t, readText (Transform Value) "translate(--a, [--b])" = .ok t ∧ t.Proper) ∧
      ∃ f, readText (Filter Value) "blur(--a)" = .ok f ∧ f.Proper := by
  have hread : (readText (Transform Value) "translate(--a, [--b])").toOption.any (fun t =>
      decide (t.name.arity.1 ≤ (Sequence.arguments t.arguments).length) &&
        (Sequence.arguments t.arguments).all fun a => !a.isEmpty) = true := by
    decide +kernel
  have hfilter : (readText (Filter Value) "blur(--a)").toOption.any (fun f =>
      decide (f.name ≠ .dropShadow) && f.arguments.all fun v =>
        (Sequence.delimiter? v).isNone) = true := by
    decide +kernel
  constructor
  · obtain ⟨t, ht, hcheck⟩ := exists_of_any hread
    rw [Bool.and_eq_true, decide_eq_true_eq, List.all_eq_true] at hcheck
    refine ⟨t, ht, ((proper_iff_of_read _).1 t ht).2.2.2.2.mpr ⟨fun a ha hnil => ?_, hcheck.1⟩⟩
    have hne := hcheck.2 a ha
    rw [hnil] at hne
    cases hne
  · obtain ⟨f, hf, hcheck⟩ := exists_of_any hfilter
    rw [Bool.and_eq_true, decide_eq_true_eq, List.all_eq_true] at hcheck
    have hdelimiter (c : Char) : f.arguments ≠ [Sequence.delimiter c] := by
      intro heq
      have hnone := hcheck.2 (Sequence.delimiter c) (by rw [heq]; exact List.mem_singleton_self _)
      cases hnone
    exact ⟨f, hf, ((proper_iff_of_read _).2 f hf hcheck.1).mpr ⟨hdelimiter ',', hdelimiter '/'⟩⟩

theorem Transform.not_proper_of_empty {t : Transform V}
    (h : (Sequence.arguments t.arguments).any List.isEmpty = true) : ¬ t.Proper := by
  obtain ⟨a, ha, hempty⟩ := List.any_eq_true.mp h
  exact fun hproper => hproper.1 a ha (List.isEmpty_iff.mp hempty)

/-- Two commas in brackets and nothing else are taken for three arguments, one comma for two of
them. The argument of a filter can be a comma or a slash. -/
theorem not_proper_comma :
    (∃ t, readText (Transform Value) "translate(,)" = .ok t ∧ ¬ t.Proper) ∧
      (∃ t, readText (Transform Value) "translate3d([,,])" = .ok t ∧ ¬ t.Proper) ∧
      ∀ s ∈ ["blur(,)", "blur(/)"],
        ∃ f, readText (Filter Value) s = .ok f ∧ f.name ≠ .dropShadow ∧ ¬ f.Proper := by
  have hcomma : (readText (Transform Value) "translate(,)").toOption.any (fun t =>
      (Sequence.arguments t.arguments).any List.isEmpty) = true := by decide +kernel
  have hbrackets : (readText (Transform Value) "translate3d([,,])").toOption.any (fun t =>
      decide ((Sequence.arguments t.arguments).length < t.name.arity.1)) = true := by
    decide +kernel
  have hfilters : ∀ s ∈ ["blur(,)", "blur(/)"], (readText (Filter Value) s).toOption.any (fun f =>
      decide (f.name ≠ .dropShadow) && f.arguments.any fun v =>
        (Sequence.delimiter? v).isSome) = true := by
    decide +kernel
  refine ⟨?_, ?_, fun s hs => ?_⟩
  · obtain ⟨t, ht, hempty⟩ := exists_of_any hcomma
    exact ⟨t, ht, Transform.not_proper_of_empty hempty⟩
  · obtain ⟨t, ht, hfew⟩ := exists_of_any hbrackets
    exact ⟨t, ht, fun hproper => absurd (of_decide_eq_true hfew) (not_lt.mpr hproper.2.1)⟩
  · obtain ⟨f, hf, hcheck⟩ := exists_of_any (hfilters s hs)
    rw [Bool.and_eq_true, decide_eq_true_eq, List.any_eq_true] at hcheck
    obtain ⟨hname, v, hv, hsome⟩ := hcheck
    refine ⟨f, hf, hname, ?_⟩
    rintro (hnil | ⟨w, hw, hnone⟩)
    · rw [hnil] at hv
      cases hv
    · rw [hw, List.mem_singleton] at hv
      rw [hv, hnone] at hsome
      cases hsome

end StyleGrammar

import StyleGrammar.Proofs.Output.Leaves
import StyleGrammar.Proofs.Reader.Left

/-!
# Outputs up to blanks

What is read component by component does not depend on blanks, so it is enough to
know the components of an output besides them.  A text *keeps* its components if
it has them whatever follows: the blanks at its end may be one with blanks that
follow.
-/

namespace StyleGrammar

open Component Scan

namespace Output

/-- A neat output with these components besides blanks. -/
def NeatDense (o : Output) (ds : List Component) : Prop := ∃ ks, NeatAs o ks ∧ dense ks = ds

/-- An output that trails, with these components besides blanks. -/
def TrailsDense (o : Output) (ds : List Component) : Prop := ∃ ks, TrailsAs o ks ∧ dense ks = ds

variable {a b o : Output} {k : Component} {ds es : List Component}

theorem NeatAs.neatDense (h : NeatAs o [k]) (hk : k.isSpace = false) : NeatDense o [k] :=
  ⟨[k], h, by rw [dense_cons hk, dense_nil]⟩

theorem NeatDense.of_chars (h : NeatDense a ds) (heq : chars o = chars a) : NeatDense o ds := by
  obtain ⟨ks, hks, hds⟩ := h
  exact ⟨ks, hks.of_chars heq, hds⟩

theorem NeatDense.append (ha : NeatDense a ds) (hb : TrailsDense b es) :
    NeatDense (a ++ b) (ds ++ es) := by
  obtain ⟨ks, hks, rfl⟩ := ha
  obtain ⟨ls, hls, rfl⟩ := hb
  exact ⟨ks ++ ls, hks.append hls, dense_append ks ls⟩

theorem TrailsDense.of_chars (h : TrailsDense a ds) (heq : chars o = chars a) :
    TrailsDense o ds := by
  obtain ⟨ks, ⟨hmakes, hapart⟩, hds⟩ := h
  exact ⟨ks, ⟨heq ▸ hmakes, heq ▸ hapart⟩, hds⟩

theorem TrailsDense.nil : TrailsDense [] [] := ⟨[], .nil, rfl⟩

theorem TrailsDense.append (ha : TrailsDense a ds) (hb : TrailsDense b es) :
    TrailsDense (a ++ b) (ds ++ es) := by
  obtain ⟨ks, hks, rfl⟩ := ha
  obtain ⟨ls, hls, rfl⟩ := hb
  exact ⟨ks ++ ls, hks.append hls, dense_append ks ls⟩

theorem TrailsDense.flatMap {α : Type} {f : α → Output} {g : α → List Component} {as : List α}
    (h : ∀ a ∈ as, TrailsDense (f a) (g a)) : TrailsDense (as.flatMap f) (as.flatMap g) := by
  induction as with
  | nil => exact .nil
  | cons a as ih =>
    rw [List.flatMap_cons, List.flatMap_cons]
    exact (h a List.mem_cons_self).append (ih fun b hb => h b (List.mem_cons_of_mem a hb))

@[simp] theorem dense_gap (compact : Bool) : dense (gap compact) = [] := by
  cases compact <;> rfl

/-! Separators. -/

theorem NeatDense.behindSpace (h : NeatDense o ds) : TrailsDense (char ' ' ++ o) ds := by
  obtain ⟨ks, hks, rfl⟩ := h
  exact ⟨_, hks.behindSpace, dense_blanks _ _⟩

theorem NeatDense.behindComma (compact : Bool) (h : NeatDense o ds) :
    TrailsDense (comma compact ++ o) (.token .comma .start :: ds) := by
  obtain ⟨ks, hks, rfl⟩ := h
  exact ⟨_, hks.behindComma compact, by simp⟩

theorem NeatDense.behindSlash (compact : Bool) (h : NeatDense o ds) :
    TrailsDense (delim compact '/' true ++ o) (.token (.delim '/') .start :: ds) := by
  obtain ⟨ks, hks, rfl⟩ := h
  exact ⟨_, hks.behindOperator compact (.inl rfl), by simp⟩

/-- Neat outputs with blanks between them. -/
theorem NeatDense.separated {os : List Output} {dss : List (List Component)}
    (h : List.Forall₂ NeatDense os dss) (hne : os ≠ []) :
    NeatDense (separated (char ' ') os) dss.flatten := by
  induction h with
  | nil => exact absurd rfl hne
  | @cons o ds os dss ho hos ih =>
    cases hos with
    | nil =>
      rw [List.flatten_cons, List.flatten_nil, List.append_nil]
      exact ho
    | cons ho' hos' =>
      have := ho.append (ih (by simp)).behindSpace
      rw [← List.append_assoc] at this
      exact this

/-- A function with an output as its content. -/
theorem NeatDense.call {name : String} (hname : isFunctionName name = true) (h : NeatDense o ds) :
    ∃ content, dense content = ds ∧
      NeatAs (call name o) [.block (.function name) .start content .start] := by
  obtain ⟨ks, hks, hds⟩ := h
  exact ⟨ks, hds, makes_call hname (hks.makes.mono (by decide)), begins_call hname o⟩

end Output

/-! Texts. -/

/-- A text adds components, and maybe blanks, to any state, whatever follows it that begins with one
of the stops. -/
def Keeps (stops s : List Char) (ds : List Component) : Prop :=
  ∀ next : Option Char, (∀ c ∈ next, c ∈ stops) → ∃ ks, dense ks = ds ∧ ∀ post, post.head? = next →
    ∀ f : Fold, f.after (lexes (s ++ post)) = (f.pushAll ks).after (lexes post)

variable {stops s t : List Char} {ds es : List Component}

theorem Makes.keeps {ks : List Component} (h : Makes stops s ks) : Keeps stops s (dense ks) :=
  fun _ hnext => ⟨ks, rfl, fun post hpost => h post fun c hc => hnext c (hpost.symm ▸ hc)⟩

namespace Keeps

theorem mono {stops' : List Char} (h : Keeps stops' s ds) (hsub : stops ⊆ stops') :
    Keeps stops s ds :=
  fun next hnext => h next fun c hc => hsub (hnext c hc)

/-- The components are those that the text has by itself. -/
theorem dense_eq (h : Keeps stops s ds) : dense (bareAll (ofText s)) = ds := by
  obtain ⟨ks, hks, hafter⟩ := h none (by simp)
  have := hafter [] rfl ⟨[], []⟩
  rw [List.append_nil, lexes_nil, Fold.after_nil, Fold.pushAll_of_nil] at this
  rw [Component.bareAll_ofText, this]
  simpa [Fold.finish] using hks

theorem append {c : Char} (h : Keeps stops s ds) (h' : Keeps stops (c :: t) es) (hc : c ∈ stops) :
    Keeps stops (s ++ c :: t) (ds ++ es) := by
  intro next hnext
  obtain ⟨ks, rfl, hks⟩ := h (some c) (by simpa using hc)
  obtain ⟨ls, rfl, hls⟩ := h' next hnext
  refine ⟨ks ++ ls, dense_append ks ls, fun post hpost f => ?_⟩
  rw [List.append_assoc, hks (c :: t ++ post) rfl, hls post hpost, Fold.pushAll_append]

theorem comma (h : Keeps stops s ds) : Keeps stops (',' :: s) (.token .comma .start :: ds) := by
  intro next hnext
  obtain ⟨ks, rfl, hks⟩ := h next hnext
  refine ⟨.token .comma .start :: ks, rfl, fun post hpost f => ?_⟩
  rw [List.cons_append, lexes_single rfl (by decide) (by decide), Fold.after_cons,
    Fold.step_token rfl (by intro o; cases o <;> simp [Token.closer?]), hks post hpost]
  rfl

/-- A slash and a blank. -/
theorem slash (h : Keeps stops (' ' :: s) ds) :
    Keeps stops ('/' :: ' ' :: s) (.token (.delim '/') .start :: ds) := by
  intro next hnext
  obtain ⟨ks, rfl, hks⟩ := h next hnext
  refine ⟨.token (.delim '/') .start :: ks, rfl, fun post hpost f => ?_⟩
  rw [List.cons_append, lexes_slash (by simp), Fold.after_cons, Fold.step_inert rfl, hks post hpost]
  rfl

/-- A blank, which may be one with blanks that follow. -/
theorem blank (h : Keeps stops s ds) : Keeps stops (' ' :: s) ds := by
  intro next hnext
  obtain ⟨ks, rfl, hks⟩ := h next hnext
  have hhead {post : List Char} (hpost : post.head? = next) :
      (s ++ post).head? = s.head?.or next := by
    rw [List.head?_append, hpost]
  cases hs : s.head?.or next with
  | none =>
    refine ⟨.blanks .start :: ks, rfl, fun post hpost f => ?_⟩
    rw [List.cons_append, lexes_blank (by simp [hhead hpost, hs]), Fold.after_cons, hks post hpost]
    rfl
  | some c =>
    by_cases hc : Blank c = true
    · refine ⟨ks, rfl, fun post hpost f => ?_⟩
      obtain ⟨r, hr⟩ : ∃ r, s ++ post = c :: r :=
        List.head?_eq_some_iff.mp ((hhead hpost).trans hs)
      rw [List.cons_append, hr, lexes_blank_blank hc, ← hr, hks post hpost]
    · refine ⟨.blanks .start :: ks, rfl, fun post hpost f => ?_⟩
      rw [List.cons_append, lexes_blank (by simpa [hhead hpost, hs] using hc), Fold.after_cons,
        hks post hpost]
      rfl

/-- A function whose content keeps its components. -/
theorem call {name : String} (hname : Output.isFunctionName name = true) (hstop : ')' ∈ stops)
    (h : Keeps stops s ds) :
    ∃ content, dense content = ds ∧ Makes stops (name.toList ++ '(' :: (s ++ [')']))
      [.block (.function name) .start content .start] := by
  obtain ⟨content, hcontent, hbefore⟩ := h (some ')') (by simpa using hstop)
  simp only [Output.isFunctionName, Bool.and_eq_true, bne_iff_ne, ne_eq] at hname
  have hcall : Makes stops (name.toList ++ '(' :: (s ++ [')']))
      [.block (.function (String.ofList name.toList)) .start content .start] :=
    Makes.call hname.1 hname.2 fun post => hbefore (')' :: post) rfl
  rw [String.ofList_toList] at hcall
  exact ⟨content, hcontent, hcall⟩

end Keeps

end StyleGrammar

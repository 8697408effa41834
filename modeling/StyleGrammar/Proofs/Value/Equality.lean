import Mathlib.Tactic.LinearCombination
import StyleGrammar.Proofs.Number.Rounding
import StyleGrammar.Value.Form

/-!
# Equality of values is a partial equivalence

Numbers are equal if they stand for the same number, so zeros of both signs are
equal and what is no number equals nothing, itself included.  Everything else is
compared part by part.  So equality of values is symmetric and transitive, which is
shown along the types: a type whose equality is that of another behind a map, or is
told by constructors, inherits it.
-/

namespace StyleGrammar

section Inheritance

variable {α β : Type} [BEq α] [BEq β]

/-- Equality behind a map. -/
theorem partialEquiv_of_map [PartialEquivBEq β] (f : α → β) (h : ∀ a b, (a == b) = (f a == f b)) :
    PartialEquivBEq α where
  symm {a b} hab := by
    rw [h] at hab ⊢
    exact PartialEquivBEq.symm hab
  trans {a b c} hab hbc := by
    rw [h] at hab hbc ⊢
    exact PartialEquivBEq.trans hab hbc

/-- A value is compared by what it is built from. -/
inductive Built (a : α) : Prop
  | intro {β : Type} [BEq β] [PartialEquivBEq β] (build : β → α) (x : β) (ha : a = build x)
      (hbeq : ∀ x y, (build x == build y) = (x == y))
      (hbuild : ∀ x b, (build x == b) = true → ∃ y, b = build y) : Built a

/-- A value that only the value itself is equal to. -/
theorem Built.constant {a : α} (hself : (a == a) = true) (h : ∀ b, (a == b) = true → b = a) :
    Built a :=
  .intro (fun _ : Unit => a) () rfl (fun _ _ => hself) fun _ b hb => ⟨(), h b hb⟩

theorem partialEquiv_of_built (h : ∀ a : α, Built a) : PartialEquivBEq α where
  symm {a b} hab := by
    obtain ⟨build, x, rfl, hbeq, hbuild⟩ := h a
    obtain ⟨y, rfl⟩ := hbuild x b hab
    rw [hbeq] at hab ⊢
    exact PartialEquivBEq.symm hab
  trans {a b c} hab hbc := by
    obtain ⟨build, x, rfl, hbeq, hbuild⟩ := h a
    obtain ⟨y, rfl⟩ := hbuild x b hab
    obtain ⟨z, rfl⟩ := hbuild y c hbc
    rw [hbeq] at hab hbc ⊢
    exact PartialEquivBEq.trans hab hbc

instance partialEquiv_prod [PartialEquivBEq α] [PartialEquivBEq β] : PartialEquivBEq (α × β) where
  symm {a b} hab := by
    have hab : (a.1 == b.1 && a.2 == b.2) = true := hab
    rw [Bool.and_eq_true] at hab
    exact Bool.and_eq_true_iff.mpr ⟨PartialEquivBEq.symm hab.1, PartialEquivBEq.symm hab.2⟩
  trans {a b c} hab hbc := by
    have hab : (a.1 == b.1 && a.2 == b.2) = true := hab
    have hbc : (b.1 == c.1 && b.2 == c.2) = true := hbc
    rw [Bool.and_eq_true] at hab hbc
    exact Bool.and_eq_true_iff.mpr
      ⟨PartialEquivBEq.trans hab.1 hbc.1, PartialEquivBEq.trans hab.2 hbc.2⟩

instance partialEquiv_option [PartialEquivBEq α] : PartialEquivBEq (Option α) := by
  refine partialEquiv_of_built fun a => ?_
  cases a with
  | none => exact .constant rfl fun b h => by cases b <;> first | rfl | cases h
  | some a =>
    refine .intro some a rfl (fun _ _ => rfl) fun x b h => ?_
    cases b with
    | none => cases h
    | some y => exact ⟨y, rfl⟩

instance partialEquiv_list [PartialEquivBEq α] : PartialEquivBEq (List α) where
  symm {as bs} h := by
    induction as generalizing bs with
    | nil => cases bs with
      | nil => rfl
      | cons => cases h
    | cons a as ih => cases bs with
      | nil => cases h
      | cons b bs =>
        rw [List.cons_beq_cons, Bool.and_eq_true] at h ⊢
        exact ⟨PartialEquivBEq.symm h.1, ih h.2⟩
  trans {as bs cs} h h' := by
    induction as generalizing bs cs with
    | nil => cases bs with
      | nil => exact h'
      | cons => cases h
    | cons a as ih => cases bs with
      | nil => cases h
      | cons b bs => cases cs with
        | nil => cases h'
        | cons c cs =>
          rw [List.cons_beq_cons, Bool.and_eq_true] at h h' ⊢
          exact ⟨PartialEquivBEq.trans h.1 h'.1, ih h.2 h'.2⟩

end Inheritance

/-! Numbers. -/

theorem Binary.same_comm (v w : Binary) : v.same w = w.same v := by
  cases v <;> cases w <;> simp [Binary.same, eq_comm]

theorem Binary.same_trans {u v w : Binary} (huv : u.same v = true) (hvw : v.same w = true) :
    u.same w = true := by
  cases v with
  | nan => cases u <;> cases huv
  | infinite s =>
    cases u <;> cases w <;> simp_all [Binary.same]
  | finite s m e =>
    cases u with
    | nan => cases huv
    | infinite => cases huv
    | finite s₁ m₁ e₁ =>
      cases w with
      | nan => cases hvw
      | infinite => cases hvw
      | finite s₂ m₂ e₂ =>
        have hpos : ((signedQuotient s m e).2 : Int) ≠ 0 := by
          exact_mod_cast (quotient_snd_pos m e).ne'
        have h : (signedQuotient s₁ m₁ e₁).1 * (signedQuotient s m e).2 =
            (signedQuotient s m e).1 * (signedQuotient s₁ m₁ e₁).2 := of_decide_eq_true huv
        have h' : (signedQuotient s m e).1 * (signedQuotient s₂ m₂ e₂).2 =
            (signedQuotient s₂ m₂ e₂).1 * (signedQuotient s m e).2 := of_decide_eq_true hvw
        have h'' : (signedQuotient s₁ m₁ e₁).1 * (signedQuotient s₂ m₂ e₂).2 =
            (signedQuotient s₂ m₂ e₂).1 * (signedQuotient s₁ m₁ e₁).2 := by
          refine mul_right_cancel₀ hpos ?_
          linear_combination ((signedQuotient s₂ m₂ e₂).2 : Int) * h +
            ((signedQuotient s₁ m₁ e₁).2 : Int) * h'
        exact decide_eq_true h''

instance : PartialEquivBEq Binary where
  symm {v w} h := (Binary.same_comm w v).trans h
  trans := Binary.same_trans

/-- Equal numbers have the same sign. -/
theorem Binary.isNegative_eq {v w : Binary} (h : v.same w = true) :
    v.isNegative = w.isNegative := by
  have hsigned (s : Bool) (m : Nat) (e : Int) :
      (Binary.finite s m e).isNegative = true ↔ (signedQuotient s m e).1 < 0 := by
    have hquotient : (quotient m e).1 = 0 ↔ m = 0 := by
      unfold quotient
      split <;> simp [Nat.shiftLeft_eq]
    cases s <;> simp [isNegative, signedQuotient, ← hquotient, Nat.pos_iff_ne_zero]
  cases v with
  | nan => cases h
  | infinite s => cases w <;> simp_all [Binary.same, isNegative]
  | finite s m e =>
    cases w with
    | nan => cases h
    | infinite => cases h
    | finite s' m' e' =>
      have hpos : (0 : Int) < (signedQuotient s m e).2 := by exact_mod_cast quotient_snd_pos m e
      have hpos' : (0 : Int) < (signedQuotient s' m' e').2 := by
        exact_mod_cast quotient_snd_pos m' e'
      have heq : (signedQuotient s m e).1 * (signedQuotient s' m' e').2 =
          (signedQuotient s' m' e').1 * (signedQuotient s m e).2 := of_decide_eq_true h
      rw [Bool.eq_iff_iff, hsigned, hsigned]
      constructor
      · intro hneg
        exact neg_of_mul_neg_left (heq ▸ mul_neg_of_neg_of_pos hneg hpos') hpos.le
      · intro hneg
        exact neg_of_mul_neg_left (heq.symm ▸ mul_neg_of_neg_of_pos hneg hpos) hpos'.le

instance : PartialEquivBEq Percentage := partialEquiv_of_map Percentage.fraction fun _ _ => rfl

instance : PartialEquivBEq NumberOrPercentage := by
  refine partialEquiv_of_built fun v => ?_
  cases v <;> refine .intro _ _ rfl (fun _ _ => rfl) fun _ w h => ?_ <;> cases w <;>
    first | exact ⟨_, rfl⟩ | cases h

instance : PartialEquivBEq Ratio :=
  partialEquiv_of_map (fun r => (r.first, r.second)) fun _ _ => rfl

instance {U : Type} [BEq U] [PartialEquivBEq U] : PartialEquivBEq (Dimension U) :=
  partialEquiv_of_map (fun d => (d.value, d.unit)) fun _ _ => rfl

/-! Names. -/

instance : PartialEquivBEq Ident := partialEquiv_of_map Ident.name fun _ _ => rfl

instance : PartialEquivBEq CustomIdent := partialEquiv_of_map CustomIdent.name fun _ _ => rfl

instance : PartialEquivBEq DashedIdent := partialEquiv_of_map DashedIdent.name fun _ _ => rfl

instance : PartialEquivBEq Quotation := partialEquiv_of_map Quotation.content fun _ _ => rfl

instance : PartialEquivBEq Url := partialEquiv_of_map Url.address fun _ _ => rfl

/-! Leaves. -/

instance : PartialEquivBEq Rgba :=
  partialEquiv_of_map (fun c => (c.red, c.green, c.blue, c.alpha)) fun _ _ => rfl

instance : PartialEquivBEq PlainColor := by
  refine partialEquiv_of_built fun c => ?_
  cases c with
  | current => exact .constant rfl fun c h => by cases c <;> first | rfl | cases h
  | named | system | hex =>
    refine .intro _ _ rfl (fun _ _ => rfl) fun _ c h => ?_
    cases c <;> first | exact ⟨_, rfl⟩ | cases h

instance : PartialEquivBEq Leaf := by
  refine partialEquiv_of_built fun l => ?_
  cases l <;> refine .intro _ _ rfl (fun _ _ => rfl) fun _ l h => ?_ <;> cases l <;>
    first | exact ⟨_, rfl⟩ | cases h

variable {V : Type}

/-! Calculations. -/

namespace Calc

mutual

theorem same_comm [BEq V] [PartialEquivBEq V] (a b : Calc V) : same a b = same b a := by
  cases a with
  | sum a a' => cases b <;> simp [same, same_comm a, same_comm a']
  | difference a a' => cases b <;> simp [same, same_comm a, same_comm a']
  | product a a' => cases b <;> simp [same, same_comm a, same_comm a']
  | quotient a a' => cases b <;> simp [same, same_comm a, same_comm a']
  | value v => cases b <;> simp [same, BEq.comm]
  | keyword k => cases b <;> simp [same, BEq.comm]
  | function f as => cases b <;> simp [same, sameAll_comm as, BEq.comm]

theorem sameAll_comm [BEq V] [PartialEquivBEq V] (as bs : List (Calc V)) :
    sameAll as bs = sameAll bs as := by
  cases as with
  | nil => cases bs <;> simp [sameAll]
  | cons a as => cases bs <;> simp [sameAll, same_comm a, sameAll_comm as]

end

mutual

theorem same_trans [BEq V] [PartialEquivBEq V] (a : Calc V) {b c : Calc V} (hab : same a b = true)
    (hbc : same b c = true) : same a c = true := by
  cases a with
  | sum a a' =>
    cases b <;> simp only [same, Bool.and_eq_true, Bool.false_eq_true] at hab
    cases c <;> simp only [same, Bool.and_eq_true, Bool.false_eq_true] at hbc
    simpa only [same, Bool.and_eq_true] using
      ⟨same_trans a hab.1 hbc.1, same_trans a' hab.2 hbc.2⟩
  | difference a a' =>
    cases b <;> simp only [same, Bool.and_eq_true, Bool.false_eq_true] at hab
    cases c <;> simp only [same, Bool.and_eq_true, Bool.false_eq_true] at hbc
    simpa only [same, Bool.and_eq_true] using
      ⟨same_trans a hab.1 hbc.1, same_trans a' hab.2 hbc.2⟩
  | product a a' =>
    cases b <;> simp only [same, Bool.and_eq_true, Bool.false_eq_true] at hab
    cases c <;> simp only [same, Bool.and_eq_true, Bool.false_eq_true] at hbc
    simpa only [same, Bool.and_eq_true] using
      ⟨same_trans a hab.1 hbc.1, same_trans a' hab.2 hbc.2⟩
  | quotient a a' =>
    cases b <;> simp only [same, Bool.and_eq_true, Bool.false_eq_true] at hab
    cases c <;> simp only [same, Bool.and_eq_true, Bool.false_eq_true] at hbc
    simpa only [same, Bool.and_eq_true] using
      ⟨same_trans a hab.1 hbc.1, same_trans a' hab.2 hbc.2⟩
  | value v =>
    cases b <;> simp only [same, Bool.false_eq_true] at hab
    cases c <;> simp only [same, Bool.false_eq_true] at hbc
    simpa only [same] using PartialEquivBEq.trans hab hbc
  | keyword k =>
    cases b <;> simp only [same, Bool.false_eq_true] at hab
    cases c <;> simp only [same, Bool.false_eq_true] at hbc
    simpa only [same] using PartialEquivBEq.trans hab hbc
  | function f as =>
    cases b <;> simp only [same, Bool.and_eq_true, Bool.false_eq_true] at hab
    cases c <;> simp only [same, Bool.and_eq_true, Bool.false_eq_true] at hbc
    simpa only [same, Bool.and_eq_true] using
      ⟨PartialEquivBEq.trans hab.1 hbc.1, sameAll_trans as hab.2 hbc.2⟩

theorem sameAll_trans [BEq V] [PartialEquivBEq V] (as : List (Calc V)) {bs cs : List (Calc V)}
    (hab : sameAll as bs = true) (hbc : sameAll bs cs = true) : sameAll as cs = true := by
  cases as with
  | nil =>
    cases bs with
    | nil => exact hbc
    | cons => cases hab
  | cons a as =>
    cases bs with
    | nil => cases hab
    | cons b bs =>
      cases cs with
      | nil => cases hbc
      | cons c cs =>
        simp only [sameAll, Bool.and_eq_true] at hab hbc ⊢
        exact ⟨same_trans a hab.1 hbc.1, sameAll_trans as hab.2 hbc.2⟩

end

end Calc

section Measures

variable [BEq V] [PartialEquivBEq V]

instance : PartialEquivBEq (MathFunction V) where
  symm {f g} h := by
    have h : (f.name == g.name && Calc.sameAll f.arguments g.arguments) = true := h
    rw [Bool.and_eq_true] at h
    refine Bool.and_eq_true_iff.mpr ⟨PartialEquivBEq.symm h.1, ?_⟩
    exact (Calc.sameAll_comm _ _).trans h.2
  trans {f g k} h h' := by
    have h : (f.name == g.name && Calc.sameAll f.arguments g.arguments) = true := h
    have h' : (g.name == k.name && Calc.sameAll g.arguments k.arguments) = true := h'
    rw [Bool.and_eq_true] at h h'
    exact Bool.and_eq_true_iff.mpr
      ⟨PartialEquivBEq.trans h.1 h'.1, Calc.sameAll_trans _ h.2 h'.2⟩

instance {D : Type} [BEq D] [PartialEquivBEq D] : PartialEquivBEq (Measure D V) := by
  refine partialEquiv_of_built fun m => ?_
  cases m <;> refine .intro _ _ rfl (fun _ _ => rfl) fun _ m h => ?_ <;> cases m <;>
    first | exact ⟨_, rfl⟩ | cases h

instance : PartialEquivBEq (LengthPercentageOrAuto V) := by
  refine partialEquiv_of_built fun m => ?_
  cases m with
  | auto => exact .constant rfl fun m h => by cases m <;> first | rfl | cases h
  | measure =>
    refine .intro _ _ rfl (fun _ _ => rfl) fun _ m h => ?_
    cases m <;> first | exact ⟨_, rfl⟩ | cases h

/-! Colors. -/

instance : PartialEquivBEq (ColorChannel V) := by
  refine partialEquiv_of_built fun c => ?_
  cases c <;> refine .intro _ _ rfl (fun _ _ => rfl) fun _ c h => ?_ <;> cases c <;>
    first | exact ⟨_, rfl⟩ | cases h

end Measures

namespace Color

mutual

theorem same_comm [BEq V] [PartialEquivBEq V] (c d : Color V) : same c d = same d c := by
  cases c with
  | plain => cases d <;> simp [same, BEq.comm]
  | function f => cases d <;> simp [same, sameFunction_comm f]
  | mix m => cases d <;> simp [same, sameMix_comm m]
  | lightDark l => cases d <;> simp [same, sameLightDark_comm l]
  | deviceCmyk x => cases d <;> simp [same, sameCmyk_comm x]

theorem same?_comm [BEq V] [PartialEquivBEq V] (c? d? : Option (Color V)) :
    same? c? d? = same? d? c? := by
  cases c? with
  | none => cases d? <;> simp [same?]
  | some c => cases d? <;> simp [same?, same_comm c]

theorem sameFunction_comm [BEq V] [PartialEquivBEq V] (f g : ColorFunction V) :
    sameFunction f g = sameFunction g f := by
  obtain ⟨s, p, o, cs, alpha?⟩ := f
  obtain ⟨s', p', o', cs', alpha?'⟩ := g
  rw [sameFunction, sameFunction, BEq.comm (a := s), BEq.comm (a := p), same?_comm o,
    BEq.comm (a := cs), BEq.comm (a := alpha?)]

theorem sameMix_comm [BEq V] [PartialEquivBEq V] (m m' : ColorMix V) :
    sameMix m m' = sameMix m' m := by
  obtain ⟨i, c, p, d, q⟩ := m
  obtain ⟨i', c', p', d', q'⟩ := m'
  rw [sameMix, sameMix, BEq.comm (a := i), same_comm c, BEq.comm (a := p), same_comm d,
    BEq.comm (a := q)]

theorem sameLightDark_comm [BEq V] [PartialEquivBEq V] (l l' : LightDark V) :
    sameLightDark l l' = sameLightDark l' l := by
  obtain ⟨light, dark⟩ := l
  obtain ⟨light', dark'⟩ := l'
  rw [sameLightDark, sameLightDark, same_comm light, same_comm dark]

theorem sameCmyk_comm [BEq V] [PartialEquivBEq V] (x y : DeviceCmyk V) :
    sameCmyk x y = sameCmyk y x := by
  obtain ⟨c, m, w, k, a, f⟩ := x
  obtain ⟨c', m', w', k', a', f'⟩ := y
  rw [sameCmyk, sameCmyk, BEq.comm (a := c), BEq.comm (a := m), BEq.comm (a := w),
    BEq.comm (a := k), BEq.comm (a := a), same?_comm f]

end

mutual

theorem same_trans [BEq V] [PartialEquivBEq V] (c : Color V) {d e : Color V}
    (hcd : same c d = true) (hde : same d e = true) : same c e = true := by
  cases c with
  | plain =>
    cases d <;> simp only [same, Bool.false_eq_true] at hcd
    cases e <;> simp only [same, Bool.false_eq_true] at hde
    simpa only [same] using PartialEquivBEq.trans hcd hde
  | function f =>
    cases d <;> simp only [same, Bool.false_eq_true] at hcd
    cases e <;> simp only [same, Bool.false_eq_true] at hde
    simpa only [same] using sameFunction_trans f hcd hde
  | mix m =>
    cases d <;> simp only [same, Bool.false_eq_true] at hcd
    cases e <;> simp only [same, Bool.false_eq_true] at hde
    simpa only [same] using sameMix_trans m hcd hde
  | lightDark l =>
    cases d <;> simp only [same, Bool.false_eq_true] at hcd
    cases e <;> simp only [same, Bool.false_eq_true] at hde
    simpa only [same] using sameLightDark_trans l hcd hde
  | deviceCmyk x =>
    cases d <;> simp only [same, Bool.false_eq_true] at hcd
    cases e <;> simp only [same, Bool.false_eq_true] at hde
    simpa only [same] using sameCmyk_trans x hcd hde
termination_by structural c

theorem same?_trans [BEq V] [PartialEquivBEq V] (c? : Option (Color V))
    {d? e? : Option (Color V)} (hcd : same? c? d? = true) (hde : same? d? e? = true) :
    same? c? e? = true := by
  cases c? with
  | none =>
    cases d? <;> simp only [same?, Bool.false_eq_true] at hcd
    exact hde
  | some c =>
    cases d? <;> simp only [same?, Bool.false_eq_true] at hcd
    cases e? <;> simp only [same?, Bool.false_eq_true] at hde
    simpa only [same?] using same_trans c hcd hde
termination_by structural c?

theorem sameFunction_trans [BEq V] [PartialEquivBEq V] (f : ColorFunction V) {g h : ColorFunction V}
    (hfg : sameFunction f g = true) (hgh : sameFunction g h = true) : sameFunction f h = true := by
  obtain ⟨s, p, o, cs, a⟩ := f
  obtain ⟨s', p', o', cs', a'⟩ := g
  obtain ⟨s'', p'', o'', cs'', a''⟩ := h
  simp only [sameFunction, Bool.and_eq_true] at hfg hgh ⊢
  obtain ⟨⟨⟨⟨hs, hp⟩, ho⟩, hcs⟩, ha⟩ := hfg
  obtain ⟨⟨⟨⟨hs', hp'⟩, ho'⟩, hcs'⟩, ha'⟩ := hgh
  exact ⟨⟨⟨⟨PartialEquivBEq.trans hs hs', PartialEquivBEq.trans hp hp'⟩, same?_trans o ho ho'⟩,
    PartialEquivBEq.trans hcs hcs'⟩, PartialEquivBEq.trans ha ha'⟩
termination_by structural f

theorem sameMix_trans [BEq V] [PartialEquivBEq V] (m : ColorMix V) {m' m'' : ColorMix V}
    (h : sameMix m m' = true) (h' : sameMix m' m'' = true) : sameMix m m'' = true := by
  obtain ⟨i, c, p, d, q⟩ := m
  obtain ⟨i', c', p', d', q'⟩ := m'
  obtain ⟨i'', c'', p'', d'', q''⟩ := m''
  simp only [sameMix, Bool.and_eq_true] at h h' ⊢
  obtain ⟨⟨⟨⟨hi, hc⟩, hp⟩, hd⟩, hq⟩ := h
  obtain ⟨⟨⟨⟨hi', hc'⟩, hp'⟩, hd'⟩, hq'⟩ := h'
  exact ⟨⟨⟨⟨PartialEquivBEq.trans hi hi', same_trans c hc hc'⟩, PartialEquivBEq.trans hp hp'⟩,
    same_trans d hd hd'⟩, PartialEquivBEq.trans hq hq'⟩
termination_by structural m

theorem sameLightDark_trans [BEq V] [PartialEquivBEq V] (l : LightDark V)
    {l' l'' : LightDark V} (h : sameLightDark l l' = true) (h' : sameLightDark l' l'' = true) :
    sameLightDark l l'' = true := by
  obtain ⟨light, dark⟩ := l
  obtain ⟨light', dark'⟩ := l'
  obtain ⟨light'', dark''⟩ := l''
  simp only [sameLightDark, Bool.and_eq_true] at h h' ⊢
  exact ⟨same_trans light h.1 h'.1, same_trans dark h.2 h'.2⟩
termination_by structural l

theorem sameCmyk_trans [BEq V] [PartialEquivBEq V] (x : DeviceCmyk V) {y z : DeviceCmyk V}
    (h : sameCmyk x y = true) (h' : sameCmyk y z = true) : sameCmyk x z = true := by
  obtain ⟨c, m, w, k, a, f⟩ := x
  obtain ⟨c', m', w', k', a', f'⟩ := y
  obtain ⟨c'', m'', w'', k'', a'', f''⟩ := z
  simp only [sameCmyk, Bool.and_eq_true] at h h' ⊢
  obtain ⟨⟨⟨⟨⟨hc, hm⟩, hw⟩, hk⟩, ha⟩, hf⟩ := h
  obtain ⟨⟨⟨⟨⟨hc', hm'⟩, hw'⟩, hk'⟩, ha'⟩, hf'⟩ := h'
  exact ⟨⟨⟨⟨⟨PartialEquivBEq.trans hc hc', PartialEquivBEq.trans hm hm'⟩,
    PartialEquivBEq.trans hw hw'⟩, PartialEquivBEq.trans hk hk'⟩, PartialEquivBEq.trans ha ha'⟩,
    same?_trans f hf hf'⟩
termination_by structural x

end

end Color

section Functions

variable [BEq V] [PartialEquivBEq V]

instance : PartialEquivBEq (Color V) where
  symm h := (Color.same_comm _ _).trans h
  trans := Color.same_trans _

instance : PartialEquivBEq (ColorFunction V) where
  symm h := (Color.sameFunction_comm _ _).trans h
  trans := Color.sameFunction_trans _

instance : PartialEquivBEq (ColorMix V) where
  symm h := (Color.sameMix_comm _ _).trans h
  trans := Color.sameMix_trans _

instance : PartialEquivBEq (LightDark V) where
  symm h := (Color.sameLightDark_comm _ _).trans h
  trans := Color.sameLightDark_trans _

instance : PartialEquivBEq (DeviceCmyk V) where
  symm h := (Color.sameCmyk_comm _ _).trans h
  trans := Color.sameCmyk_trans _

instance : PartialEquivBEq (SimpleColor V) := by
  refine partialEquiv_of_built fun c => ?_
  cases c <;> refine .intro _ _ rfl (fun _ _ => rfl) fun _ c h => ?_ <;> cases c <;>
    first | exact ⟨_, rfl⟩ | cases h

/-! Positions and gradients. -/

instance {S : Type} [BEq S] [PartialEquivBEq S] : PartialEquivBEq (AxisPosition S V) := by
  refine partialEquiv_of_built fun x => ?_
  cases x with
  | center => exact .constant rfl fun x h => by cases x <;> first | rfl | cases h
  | offset =>
    refine .intro _ _ rfl (fun _ _ => rfl) fun _ x h => ?_
    cases x <;> first | exact ⟨_, rfl⟩ | cases h
  | side s m? =>
    refine .intro (fun x : S × Option (LengthPercentage V) => .side x.1 x.2) (s, m?) rfl
      (fun _ _ => rfl) fun _ x h => ?_
    cases x <;> first | exact ⟨(_, _), rfl⟩ | cases h

instance : PartialEquivBEq (Position V) := partialEquiv_of_map (fun p => (p.x, p.y)) fun _ _ => rfl

instance {P : Type} [BEq P] [PartialEquivBEq P] : PartialEquivBEq (ColorStop P V) :=
  partialEquiv_of_map (fun s => (s.color, s.position?)) fun _ _ => rfl

instance {P : Type} [BEq P] [PartialEquivBEq P] : PartialEquivBEq (GradientItem P V) := by
  refine partialEquiv_of_built fun i => ?_
  cases i <;> refine .intro _ _ rfl (fun _ _ => rfl) fun _ i h => ?_ <;> cases i <;>
    first | exact ⟨_, rfl⟩ | cases h

instance : PartialEquivBEq LineDirection := by
  refine partialEquiv_of_built fun d => ?_
  cases d with
  | corner x y =>
    refine .intro (fun c : HorizontalSide × VerticalSide => .corner c.1 c.2) (x, y) rfl
      (fun _ _ => rfl) fun _ d h => ?_
    cases d <;> first | exact ⟨(_, _), rfl⟩ | cases h
  | angle | horizontal | vertical =>
    refine .intro _ _ rfl (fun _ _ => rfl) fun _ d h => ?_
    cases d <;> first | exact ⟨_, rfl⟩ | cases h

instance : PartialEquivBEq (LinearGradient V) :=
  partialEquiv_of_map (fun g => (g.repeating, g.direction, g.items)) fun _ _ => rfl

instance : PartialEquivBEq (EndingShape V) := by
  refine partialEquiv_of_built fun s => ?_
  cases s with
  | ellipseRadii x y =>
    refine .intro (fun r : LengthPercentage V × LengthPercentage V => .ellipseRadii r.1 r.2) (x, y)
      rfl (fun _ _ => rfl) fun _ s h => ?_
    cases s <;> first | exact ⟨(_, _), rfl⟩ | cases h
  | circleRadius | circleExtent | ellipseExtent =>
    refine .intro _ _ rfl (fun _ _ => rfl) fun _ s h => ?_
    cases s <;> first | exact ⟨_, rfl⟩ | cases h

instance : PartialEquivBEq (RadialGradient V) :=
  partialEquiv_of_map (fun g => (g.repeating, g.shape, g.position, g.items)) fun _ _ => rfl

instance : PartialEquivBEq (ConicGradient V) :=
  partialEquiv_of_map (fun g => (g.repeating, g.angle, g.position, g.items)) fun _ _ => rfl

instance : PartialEquivBEq (Gradient V) := by
  refine partialEquiv_of_built fun g => ?_
  cases g <;> refine .intro _ _ rfl (fun _ _ => rfl) fun _ g h => ?_ <;> cases g <;>
    first | exact ⟨_, rfl⟩ | cases h

instance : PartialEquivBEq Element := partialEquiv_of_map Element.id fun _ _ => rfl

instance : PartialEquivBEq (Paint V) :=
  partialEquiv_of_map (fun p => (p.name, p.arguments)) fun _ _ => rfl

end Functions

/-! Images. -/

namespace Image

mutual

theorem same_comm [BEq V] [PartialEquivBEq V] (i j : Image V) : same i j = same j i := by
  cases i with
  | url => cases j <;> simp [same, BEq.comm]
  | gradient => cases j <;> simp [same, BEq.comm]
  | imageSet os => cases j <;> simp [same, sameOptions_comm os]
  | crossFade is => cases j <;> simp [same, sameItems_comm is]
  | element => cases j <;> simp [same, BEq.comm]
  | paint => cases j <;> simp [same, BEq.comm]
termination_by structural i

theorem sameOption_comm [BEq V] [PartialEquivBEq V] (o o' : ImageSetOption V) :
    sameOption o o' = sameOption o' o := by
  obtain ⟨i, r, t⟩ := o
  obtain ⟨i', r', t'⟩ := o'
  rw [sameOption, sameOption, same_comm i, BEq.comm (a := r), BEq.comm (a := t)]
termination_by structural o

theorem sameItem_comm [BEq V] [PartialEquivBEq V] (i j : CrossFadeItem V) :
    sameItem i j = sameItem j i := by
  cases i with
  | image i s => cases j <;> simp [sameItem, same_comm i, BEq.comm]
  | color c s => cases j <;> simp [sameItem, BEq.comm]
termination_by structural i

theorem sameOptions_comm [BEq V] [PartialEquivBEq V] (os os' : List (ImageSetOption V)) :
    sameOptions os os' = sameOptions os' os := by
  cases os with
  | nil => cases os' <;> simp [sameOptions]
  | cons o os => cases os' <;> simp [sameOptions, sameOption_comm o, sameOptions_comm os]
termination_by structural os

theorem sameItems_comm [BEq V] [PartialEquivBEq V] (is js : List (CrossFadeItem V)) :
    sameItems is js = sameItems js is := by
  cases is with
  | nil => cases js <;> simp [sameItems]
  | cons i is => cases js <;> simp [sameItems, sameItem_comm i, sameItems_comm is]
termination_by structural is

end

mutual

theorem same_trans [BEq V] [PartialEquivBEq V] (i : Image V) {j k : Image V}
    (hij : same i j = true) (hjk : same j k = true) : same i k = true := by
  cases i with
  | url =>
    cases j <;> simp only [same, Bool.false_eq_true] at hij
    cases k <;> simp only [same, Bool.false_eq_true] at hjk
    simpa only [same] using PartialEquivBEq.trans hij hjk
  | gradient =>
    cases j <;> simp only [same, Bool.false_eq_true] at hij
    cases k <;> simp only [same, Bool.false_eq_true] at hjk
    simpa only [same] using PartialEquivBEq.trans hij hjk
  | imageSet os =>
    cases j <;> simp only [same, Bool.false_eq_true] at hij
    cases k <;> simp only [same, Bool.false_eq_true] at hjk
    simpa only [same] using sameOptions_trans os hij hjk
  | crossFade is =>
    cases j <;> simp only [same, Bool.false_eq_true] at hij
    cases k <;> simp only [same, Bool.false_eq_true] at hjk
    simpa only [same] using sameItems_trans is hij hjk
  | element =>
    cases j <;> simp only [same, Bool.false_eq_true] at hij
    cases k <;> simp only [same, Bool.false_eq_true] at hjk
    simpa only [same] using PartialEquivBEq.trans hij hjk
  | paint =>
    cases j <;> simp only [same, Bool.false_eq_true] at hij
    cases k <;> simp only [same, Bool.false_eq_true] at hjk
    simpa only [same] using PartialEquivBEq.trans hij hjk
termination_by structural i

theorem sameOption_trans [BEq V] [PartialEquivBEq V] (o : ImageSetOption V)
    {o' o'' : ImageSetOption V} (h : sameOption o o' = true) (h' : sameOption o' o'' = true) :
    sameOption o o'' = true := by
  obtain ⟨i, r, t⟩ := o
  obtain ⟨i', r', t'⟩ := o'
  obtain ⟨i'', r'', t''⟩ := o''
  simp only [sameOption, Bool.and_eq_true] at h h' ⊢
  exact ⟨⟨same_trans i h.1.1 h'.1.1, PartialEquivBEq.trans h.1.2 h'.1.2⟩,
    PartialEquivBEq.trans h.2 h'.2⟩
termination_by structural o

theorem sameItem_trans [BEq V] [PartialEquivBEq V] (i : CrossFadeItem V) {j k : CrossFadeItem V}
    (hij : sameItem i j = true) (hjk : sameItem j k = true) : sameItem i k = true := by
  cases i with
  | image i s =>
    cases j <;> simp only [sameItem, Bool.and_eq_true, Bool.false_eq_true] at hij
    cases k <;> simp only [sameItem, Bool.and_eq_true, Bool.false_eq_true] at hjk
    simpa only [sameItem, Bool.and_eq_true] using
      ⟨same_trans i hij.1 hjk.1, PartialEquivBEq.trans hij.2 hjk.2⟩
  | color c s =>
    cases j <;> simp only [sameItem, Bool.and_eq_true, Bool.false_eq_true] at hij
    cases k <;> simp only [sameItem, Bool.and_eq_true, Bool.false_eq_true] at hjk
    simpa only [sameItem, Bool.and_eq_true] using
      ⟨PartialEquivBEq.trans hij.1 hjk.1, PartialEquivBEq.trans hij.2 hjk.2⟩
termination_by structural i

theorem sameOptions_trans [BEq V] [PartialEquivBEq V] (os : List (ImageSetOption V))
    {os' os'' : List (ImageSetOption V)} (h : sameOptions os os' = true)
    (h' : sameOptions os' os'' = true) : sameOptions os os'' = true := by
  cases os with
  | nil =>
    cases os' <;> simp only [sameOptions, Bool.false_eq_true] at h
    exact h'
  | cons o os =>
    cases os' <;> simp only [sameOptions, Bool.and_eq_true, Bool.false_eq_true] at h
    cases os'' <;> simp only [sameOptions, Bool.and_eq_true, Bool.false_eq_true] at h'
    simpa only [sameOptions, Bool.and_eq_true] using
      ⟨sameOption_trans o h.1 h'.1, sameOptions_trans os h.2 h'.2⟩
termination_by structural os

theorem sameItems_trans [BEq V] [PartialEquivBEq V] (is : List (CrossFadeItem V))
    {js ks : List (CrossFadeItem V)} (h : sameItems is js = true) (h' : sameItems js ks = true) :
    sameItems is ks = true := by
  cases is with
  | nil =>
    cases js <;> simp only [sameItems, Bool.false_eq_true] at h
    exact h'
  | cons i is =>
    cases js <;> simp only [sameItems, Bool.and_eq_true, Bool.false_eq_true] at h
    cases ks <;> simp only [sameItems, Bool.and_eq_true, Bool.false_eq_true] at h'
    simpa only [sameItems, Bool.and_eq_true] using
      ⟨sameItem_trans i h.1 h'.1, sameItems_trans is h.2 h'.2⟩
termination_by structural is

end

end Image

section Forms

variable [BEq V] [PartialEquivBEq V]

instance : PartialEquivBEq (Image V) where
  symm h := (Image.same_comm _ _).trans h
  trans := Image.same_trans _

instance : PartialEquivBEq (ImageSet V) where
  symm h := (Image.sameOptions_comm _ _).trans h
  trans := Image.sameOptions_trans _

instance : PartialEquivBEq (CrossFade V) where
  symm h := (Image.sameItems_comm _ _).trans h
  trans := Image.sameItems_trans _

/-! Shapes. -/

instance : PartialEquivBEq (Sides V) :=
  partialEquiv_of_map (fun s => (s.top, s.right, s.bottom, s.left)) fun _ _ => rfl

instance : PartialEquivBEq (BorderRadius V) :=
  partialEquiv_of_map (fun r => (r.horizontal, r.vertical?)) fun _ _ => rfl

instance : PartialEquivBEq (InsetRect V) :=
  partialEquiv_of_map (fun r => (r.sides, r.radius?)) fun _ _ => rfl

instance : PartialEquivBEq (RectShape V) :=
  partialEquiv_of_map (fun r => (r.edges, r.radius?)) fun _ _ => rfl

instance : PartialEquivBEq (Xywh V) :=
  partialEquiv_of_map (fun r => (r.x, r.y, r.width, r.height, r.radius?)) fun _ _ => rfl

instance : PartialEquivBEq (ShapeRadius V) := by
  refine partialEquiv_of_built fun r => ?_
  cases r with
  | measure =>
    refine .intro _ _ rfl (fun _ _ => rfl) fun _ r h => ?_
    cases r <;> first | exact ⟨_, rfl⟩ | cases h
  | closestSide | farthestSide =>
    exact .constant rfl fun r h => by cases r <;> first | rfl | cases h

instance : PartialEquivBEq (Circle V) :=
  partialEquiv_of_map (fun c => (c.radius, c.center)) fun _ _ => rfl

instance : PartialEquivBEq (Ellipse V) :=
  partialEquiv_of_map (fun e => (e.radiusX, e.radiusY, e.center)) fun _ _ => rfl

instance : PartialEquivBEq (Point V) := partialEquiv_of_map (fun p => (p.x, p.y)) fun _ _ => rfl

instance : PartialEquivBEq (Polygon V) :=
  partialEquiv_of_map (fun p => (p.fillRule, p.points)) fun _ _ => rfl

instance : PartialEquivBEq Path :=
  partialEquiv_of_map (fun p => (p.fillRule, p.path)) fun _ _ => rfl

/-! Grids and easing. -/

instance : PartialEquivBEq (TrackBreadth V) := by
  refine partialEquiv_of_built fun b => ?_
  cases b with
  | measure | flex =>
    refine .intro _ _ rfl (fun _ _ => rfl) fun _ b h => ?_
    cases b <;> first | exact ⟨_, rfl⟩ | cases h
  | minContent | maxContent | auto =>
    exact .constant rfl fun b h => by cases b <;> first | rfl | cases h

instance : PartialEquivBEq (MinMax V) :=
  partialEquiv_of_map (fun m => (m.min, m.max)) fun _ _ => rfl

instance : PartialEquivBEq (FitContent V) := partialEquiv_of_map FitContent.limit fun _ _ => rfl

instance : PartialEquivBEq RepeatCount := by
  refine partialEquiv_of_built fun c => ?_
  cases c with
  | times =>
    refine .intro _ _ rfl (fun _ _ => rfl) fun _ c h => ?_
    cases c <;> first | exact ⟨_, rfl⟩ | cases h
  | autoFill | autoFit => exact .constant rfl fun c h => by cases c <;> first | rfl | cases h

instance : PartialEquivBEq (TrackListItem V) := by
  refine partialEquiv_of_built fun i => ?_
  cases i <;> refine .intro _ _ rfl (fun _ _ => rfl) fun _ i h => ?_ <;> cases i <;>
    first | exact ⟨_, rfl⟩ | cases h

instance : PartialEquivBEq (Repetition V) :=
  partialEquiv_of_map (fun r => (r.count, r.tracks)) fun _ _ => rfl

instance : PartialEquivBEq CubicBezier :=
  partialEquiv_of_map (fun b => (b.x1, b.y1, b.x2, b.y2)) fun _ _ => rfl

instance : PartialEquivBEq Steps :=
  partialEquiv_of_map (fun s => (s.count, s.position?)) fun _ _ => rfl

instance : PartialEquivBEq LinearStop :=
  partialEquiv_of_map (fun s => (s.value, s.times)) fun _ _ => rfl

instance : PartialEquivBEq Linear := partialEquiv_of_map Linear.stops fun _ _ => rfl

/-! Substitutions and counters. -/

instance : PartialEquivBEq (Attr V) :=
  partialEquiv_of_map (fun a => (a.name, a.type?, a.fallback?)) fun _ _ => rfl

instance : PartialEquivBEq (Env V) :=
  partialEquiv_of_map (fun e => (e.name, e.indices, e.fallback?)) fun _ _ => rfl

instance : PartialEquivBEq (Var V) :=
  partialEquiv_of_map (fun x => (x.name, x.fallback?)) fun _ _ => rfl

instance : PartialEquivBEq (CounterSymbol V) := by
  refine partialEquiv_of_built fun s => ?_
  cases s <;> refine .intro _ _ rfl (fun _ _ => rfl) fun _ s h => ?_ <;> cases s <;>
    first | exact ⟨_, rfl⟩ | cases h

instance : PartialEquivBEq (Symbols V) :=
  partialEquiv_of_map (fun s => (s.type?, s.symbols)) fun _ _ => rfl

instance : PartialEquivBEq (CounterStyle V) := by
  refine partialEquiv_of_built fun s => ?_
  cases s <;> refine .intro _ _ rfl (fun _ _ => rfl) fun _ s h => ?_ <;> cases s <;>
    first | exact ⟨_, rfl⟩ | cases h

instance : PartialEquivBEq (Counter V) :=
  partialEquiv_of_map (fun c => (c.name, c.style?)) fun _ _ => rfl

instance : PartialEquivBEq (Counters V) :=
  partialEquiv_of_map (fun c => (c.name, c.separator, c.style?)) fun _ _ => rfl

instance : PartialEquivBEq Leader := by
  refine partialEquiv_of_built fun l => ?_
  cases l with
  | dotted | solid | space => exact .constant rfl fun l h => by cases l <;> first | rfl | cases h
  | string =>
    refine .intro _ _ rfl (fun _ _ => rfl) fun _ l h => ?_
    cases l <;> first | exact ⟨_, rfl⟩ | cases h

instance : PartialEquivBEq (TargetUrl V) := by
  refine partialEquiv_of_built fun u => ?_
  cases u <;> refine .intro _ _ rfl (fun _ _ => rfl) fun _ u h => ?_ <;> cases u <;>
    first | exact ⟨_, rfl⟩ | cases h

instance : PartialEquivBEq (TargetCounter V) :=
  partialEquiv_of_map (fun c => (c.url, c.name, c.style?)) fun _ _ => rfl

instance : PartialEquivBEq (TargetCounters V) :=
  partialEquiv_of_map (fun c => (c.url, c.name, c.separator, c.style?)) fun _ _ => rfl

instance : PartialEquivBEq (TargetText V) :=
  partialEquiv_of_map (fun t => (t.url, t.part?)) fun _ _ => rfl

/-! Other functions. -/

instance : PartialEquivBEq (Transform V) :=
  partialEquiv_of_map (fun t => (t.name, t.arguments)) fun _ _ => rfl

instance : PartialEquivBEq (Filter V) :=
  partialEquiv_of_map (fun f => (f.name, f.arguments)) fun _ _ => rfl

instance : PartialEquivBEq (AnchorSize V) :=
  partialEquiv_of_map (fun a => (a.anchor?, a.dimension?, a.fallback?)) fun _ _ => rfl

instance : PartialEquivBEq Add := partialEquiv_of_map Add.depth fun _ _ => rfl

instance : PartialEquivBEq AlternateGlyph :=
  partialEquiv_of_map (fun g => (g.choice, g.names)) fun _ _ => rfl

instance : PartialEquivBEq Scroll :=
  partialEquiv_of_map (fun s => (s.scroller?, s.axis?)) fun _ _ => rfl

instance : PartialEquivBEq (View V) :=
  partialEquiv_of_map (fun v => (v.axis?, v.insets)) fun _ _ => rfl

/-! Values. -/

omit [PartialEquivBEq V] in
/-- Equal values have the same constructor. -/
theorem Form.ctorIdx_eq_of_beq {v w : Form V} (h : (v == w) = true) : v.ctorIdx = w.ctorIdx := by
  change instBEqForm.beq v w = true at h
  unfold instBEqForm.beq at h
  cases hindex : Nat.decEq v.ctorIdx w.ctorIdx with
  | isTrue heq => exact heq
  | isFalse hne =>
    rw [hindex] at h
    cases h

omit [PartialEquivBEq V] in
/-- The constructor is told by its index, so only one of them has to be looked at. -/
theorem Form.built {β : Type} [BEq β] [PartialEquivBEq β] (build : β → Form V) (x : β)
    (hbeq : ∀ x y, (build x == build y) = (x == y))
    (hbuild : ∀ x, Form.ctorElimType (motive := fun w => ∃ y, w = build y) (build x).ctorIdx) :
    Built (build x) :=
  .intro build x rfl hbeq fun x w h => Form.ctorElim _ w (ctorIdx_eq_of_beq h) (hbuild x)

instance : PartialEquivBEq (Form V) := by
  refine partialEquiv_of_built fun v => ?_
  cases v <;> exact Form.built _ _ (fun _ _ => rfl) fun _ => PULift.up fun y => ⟨y, rfl⟩

end Forms

/-- Equality of values is symmetric and transitive. -/
instance : (depth : Nat) → PartialEquivBEq (Nested depth)
  | 0 => inferInstanceAs (PartialEquivBEq Leaf)
  | depth + 1 =>
    have := instPartialEquivBEqNested depth
    inferInstanceAs (PartialEquivBEq (Form (Nested depth)))

end StyleGrammar

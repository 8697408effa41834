import StyleGrammar.Output
import Mathlib.Tactic.Common

/-!
# Writing under a limit

A step passes refusals on if from every destination it writes its whole text, or else fails with the
fault of the destination and leaves a part of its text from the beginning (`Step.PassesOn`).
Writing a piece is such a step; a step that drops the fault of another is not.  If all steps of an
output pass refusals on then so does their run: what a sink holds never passes its limit, and each
step only adds to it.
-/

namespace StyleGrammar

namespace Output

@[simp] theorem render_nil : render [] = "" := rfl

@[simp] theorem render_cons (p : Step) (o : Output) : render (p :: o) = p.text ++ render o := by
  simp [render]

end Output

namespace Sink

variable {k k' : Sink} {s t : String}

/-- What was written is within the limit. -/
def Within (k : Sink) : Prop := ∀ n ∈ k.limit?, k.written.utf8ByteSize ≤ n

theorem within_limited (n : Nat) : (limited n).Within := by
  intro m hm
  exact Nat.zero_le m

theorem within_unlimited : unlimited.Within := by
  intro m hm
  cases hm

theorem admits_iff (k : Sink) (s : String) :
    k.admits s = true ↔ ∀ n ∈ k.limit?, k.written.utf8ByteSize + s.utf8ByteSize ≤ n := by
  cases h : k.limit? <;> simp [admits, h]

theorem Within.admits_empty (h : k.Within) : k.admits "" = true := by
  rw [admits_iff]
  intro n hn
  simpa using h n hn

/-- Who has no room for a text has none for more. -/
theorem admits_append_of_not (h : k.admits s = false) (t : String) : k.admits (s ++ t) = false := by
  rw [← Bool.not_eq_true, admits_iff] at h ⊢
  intro hall
  refine h fun n hn => ?_
  have := hall n hn
  rw [String.utf8ByteSize_append] at this
  omega

/-- A sink that has taken a text. -/
structure Holds (k : Sink) (s : String) (k' : Sink) : Prop where
  limit_eq : k'.limit? = k.limit?
  written_eq : k'.written = k.written ++ s

theorem Holds.admits_eq (h : k.Holds s k') (t : String) : k'.admits t = k.admits (s ++ t) := by
  rw [Bool.eq_iff_iff, admits_iff, admits_iff, h.limit_eq, h.written_eq]
  simp only [String.utf8ByteSize_append, Nat.add_assoc]

theorem Holds.within (h : k.Holds s k') (hroom : k.admits s = true) : k'.Within := by
  rw [admits_iff] at hroom
  intro n hn
  rw [h.written_eq, String.utf8ByteSize_append]
  exact hroom n (h.limit_eq ▸ hn)

/-- How writing a text ends: with the whole text if there is room for it, and else with the fault of
the destination, behind a part of the text. -/
inductive Ends (k : Sink) (s : String) : EStateM.Result PrintFault Sink Unit → Prop
  | written (k' : Sink) (room : k.admits s = true) (holds : k.Holds s k') : Ends k s (.ok () k')
  | refused (k' : Sink) (noRoom : k.admits s = false) (front back : String)
      (split : s = front ++ back) (written : k'.written = k.written ++ front) :
      Ends k s (.error .refused k')

end Sink

namespace Step

/-- A step that does not drop a refusal. -/
def PassesOn (p : Step) : Prop := ∀ k : Sink, k.Within → k.Ends p.text (p.run k)

theorem passesOn_write (p : Piece) : (write p).PassesOn := by
  intro k _
  rw [text_write]
  change k.Ends p.render (write p k)
  unfold write
  split
  next h => exact .written _ h ⟨rfl, rfl⟩
  next h =>
    exact .refused _ (by simpa using h) "" p.render String.empty_append.symm
      String.append_empty.symm

/-- A step whose fault is dropped. -/
def attempt (p : Step) : Step := tryCatch p fun _ => pure ()

/-- Where the fault of a refused text is dropped, a part of the text passes for the whole. -/
theorem not_passesOn_attempt {s : String} (hs : s ≠ "") : ¬(write (.text s)).attempt.PassesOn := by
  intro h
  have hsize : s.utf8ByteSize ≠ 0 := by simpa using hs
  have htext : (write (.text s)).attempt.text = s := text_write (.text s)
  have hfull : (Sink.limited 0).admits s = false := by
    rw [← Bool.not_eq_true, Sink.admits_iff]
    simpa [Sink.limited] using hsize
  have hends := h (Sink.limited 0) (Sink.within_limited 0)
  have hrun : (write (.text s)).attempt.run (.limited 0) =
      .ok () { Sink.limited 0 with col := 0 + s.utf8ByteSize.toUInt32 } := by
    change EStateM.tryCatch (write (.text s)) (fun _ => pure ()) (.limited 0) = _
    simp only [EStateM.tryCatch, write, Piece.render, hfull]
    rfl
  rw [htext, hrun] at hends
  cases hends with
  | written k' room holds => exact absurd room (by rw [hfull]; exact Bool.false_ne_true)

end Step

namespace Output

variable {o o' : Output} {k : Sink}

/-- An output none of whose steps drops a refusal. -/
def PassesOn (o : Output) : Prop := ∀ p ∈ o, p.PassesOn

theorem run_cons (p : Step) (o : Output) (k : Sink) :
    run (p :: o) k = match p.run k with
      | .ok _ k => run o k
      | .error e k => .error e k := by
  change EStateM.bind p (fun _ => run o) k = _
  unfold EStateM.bind EStateM.run
  cases p k <;> rfl

/-- A run is its first step and the run of the others. -/
theorem PassesOn.ends (h : o.PassesOn) (hk : k.Within) : k.Ends o.render (run o k) := by
  induction o generalizing k with
  | nil => exact .written k hk.admits_empty ⟨rfl, String.append_empty.symm⟩
  | cons p o ih =>
    obtain ⟨hp, ho⟩ := List.forall_mem_cons.mp h
    have hends := hp k hk
    rw [run_cons, render_cons]
    generalize p.run k = out at hends ⊢
    cases hends with
    | refused k' noRoom front back split written =>
      refine .refused k' (Sink.admits_append_of_not noRoom _) front (back ++ render o) ?_ written
      rw [split, String.append_assoc]
    | written k' room holds =>
      have hrest := ih ho (holds.within room)
      have hroom := holds.admits_eq (render o)
      dsimp only
      generalize run o k' = out at hrest ⊢
      cases hrest with
      | written k'' room' holds' =>
        refine .written k'' (hroom ▸ room') ⟨holds'.limit_eq.trans holds.limit_eq, ?_⟩
        rw [holds'.written_eq, holds.written_eq, String.append_assoc]
      | refused k'' noRoom front back split written =>
        refine .refused k'' (hroom ▸ noRoom) (p.text ++ front) back ?_ ?_
        · rw [split, String.append_assoc]
        · rw [written, holds.written_eq, String.append_assoc]

/-- What becomes of an output whose whole text is `s` in a destination that takes `limit` bytes. -/
structure PrintsWithin (limit : Nat) (o : Output) (s : String) : Prop where
  full : ∃ k, Sink.unlimited.writeAll o = .ok k ∧ k.written = s
  ok_iff : (∃ k, (Sink.limited limit).writeAll o = .ok k) ↔ s.utf8ByteSize ≤ limit
  written : ∀ k, (Sink.limited limit).writeAll o = .ok k → k.written = s
  refused : ∀ r, (Sink.limited limit).writeAll o = .error r →
    r.fault = ⟨.fmtError, none⟩ ∧ ∃ back, s = r.written ++ back

theorem PassesOn.printsWithin (h : o.PassesOn) (limit : Nat) : PrintsWithin limit o o.render := by
  have hadmits : (Sink.limited limit).admits o.render = true ↔ o.render.utf8ByteSize ≤ limit := by
    rw [Sink.admits_iff]
    simp [Sink.limited]
  have hfull : ∃ k, Sink.unlimited.writeAll o = .ok k ∧ k.written = o.render := by
    have hends := h.ends Sink.within_unlimited
    unfold Sink.writeAll
    generalize run o Sink.unlimited = out at hends ⊢
    cases hends with
    | written k room holds => exact ⟨k, rfl, holds.written_eq.trans String.empty_append⟩
    | refused k noRoom => cases noRoom
  have hends := h.ends (Sink.within_limited limit)
  have hwrite : (Sink.limited limit).writeAll o = match run o (Sink.limited limit) with
      | .ok _ k => .ok k
      | .error fault k => .error { k with fault } := rfl
  generalize run o (Sink.limited limit) = out at hends hwrite
  cases hends with
  | written k room holds =>
    have hwritten : k.written = o.render := holds.written_eq.trans String.empty_append
    refine ⟨hfull, ⟨fun _ => hadmits.mp room, fun _ => ⟨k, hwrite⟩⟩, fun k' h' => ?_,
      fun r h' => ?_⟩
    · cases hwrite.symm.trans h'
      exact hwritten
    · cases hwrite.symm.trans h'
  | refused k noRoom front back split written =>
    have hlong : ¬o.render.utf8ByteSize ≤ limit := by
      rw [← hadmits, noRoom]
      exact Bool.false_ne_true
    refine ⟨hfull, ⟨fun ⟨k', h'⟩ => ?_, fun hle => absurd hle hlong⟩, fun k' h' => ?_,
      fun r h' => ?_⟩
    · cases hwrite.symm.trans h'
    · cases hwrite.symm.trans h'
    · cases hwrite.symm.trans h'
      exact ⟨rfl, back, by rw [split, written, show (Sink.limited limit).written = "" from rfl,
        String.empty_append]⟩

end Output

end StyleGrammar

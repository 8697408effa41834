import StyleGrammar.Proofs.Definition.RoundTrip

/-!
# Writing a definition that was read

The grammar of a text is written as a text that defines it again, in whatever
arena it was read.  A group that repeats a single child exactly once is not
written twice: its child comes back without it, and with its mark.

The quotes around a literal are always single ones, and nothing stands for a
literal that is empty or for a name between angle brackets that no function can
have.  Where all literals can be quoted and all functions be called, the literals
come back as they were (`defines_render_of_define`).
-/

namespace StyleGrammar

open List

namespace Arena

/-- A text that was read has a tree, and the text that is written for it defines the same tree but
for groups that repeat a single child exactly once.  The literals are the same. -/
theorem defines_render_of_define {a a' : Arena} {text : String} {root : NodeId}
    (h : a.define text = (.ok root, a')) :
    (∃ t, a'.Holds t root) ∧
      ∀ t, a'.Holds t root → t.Sayable →
        Defines (a'.render root) t.unwrapped ∧ t.unwrapped.literals = t.literals := by
  rcases parses_define h with ⟨t, hmade, ht⟩
  refine ⟨⟨t, hmade.holds⟩, fun u hholds hsayable => ⟨?_, u.literals_unwrapped⟩⟩
  obtain rfl : t = u := hmade.holds.eq hholds
  rw [hholds.render_eq]
  exact defines_of_readFrom (Definition.readFrom_of_parsed ht hsayable true)

/-- The grammar `a?{1} 'b c'`. -/
def repeatedOnce : Tree :=
  .group .sequence
    [.group .sequence [.literal "a" ⟨0, some 1, none, false⟩] .one, .literal "b c" .one] .one

theorem sayable_repeatedOnce : repeatedOnce.Sayable where
  literals := by
    have hliterals : repeatedOnce.literals = ["a", "b c"] := rfl
    rw [hliterals]
    exact forall_mem_cons.mpr
      ⟨⟨by decide, by decide⟩, forall_mem_singleton.mpr ⟨by decide, by decide⟩⟩
  functions := by
    have hfunctions : repeatedOnce.functions = [] := rfl
    rw [hfunctions]
    exact forall_mem_nil _

theorem holds_repeatedOnce : (empty.define "a?\x7b1\x7d 'b c'").2.Holds repeatedOnce 3 := by
  generalize ha : (empty.define "a?\x7b1\x7d 'b c'").2 = a
  have hliteral : (a.node 0).kind = .literal "a" ∧
      (a.node 0).quantifier = ⟨0, some 1, none, false⟩ ∧
      (a.node 1).kind = .sequence [0] ∧ (a.node 1).quantifier = .one ∧
      (a.node 2).kind = .literal "b c" ∧ (a.node 2).quantifier = .one ∧
      (a.node 3).kind = .sequence [1, 2] ∧ (a.node 3).quantifier = .one := by
    rw [← ha]
    decide +kernel
  obtain ⟨h₀, hq₀, h₁, hq₁, h₂, hq₂, h₃, hq₃⟩ := hliteral
  exact ⟨⟨[1, 2], h₃.symm, 1, [2], rfl, ⟨⟨[0], h₁.symm, 0, [], rfl, ⟨h₀, hq₀⟩, rfl⟩, hq₁⟩,
    2, [], rfl, ⟨h₂, hq₂⟩, rfl⟩, hq₃⟩

theorem defines_repeatedOnce :
    (empty.define "a?\x7b1\x7d 'b c'").2.render 3 = "[ a? ] 'b c'" ∧
      Defines "[ a? ] 'b c'" repeatedOnce.unwrapped ∧
      repeatedOnce.unwrapped.literals = repeatedOnce.literals := by
  have hdefine : empty.define "a?\x7b1\x7d 'b c'" =
      (.ok 3, (empty.define "a?\x7b1\x7d 'b c'").2) := by
    have hroot : (empty.define "a?\x7b1\x7d 'b c'").1.toOption = some 3 := by decide +kernel
    generalize empty.define "a?\x7b1\x7d 'b c'" = p at hroot ⊢
    rcases p with ⟨_ | id, a⟩
    · cases hroot
    · cases hroot
      rfl
  have hrender : (empty.define "a?\x7b1\x7d 'b c'").2.render 3 = "[ a? ] 'b c'" := by decide +kernel
  have hdefines := (defines_render_of_define hdefine).2 repeatedOnce holds_repeatedOnce
    sayable_repeatedOnce
  rw [hrender] at hdefines
  exact ⟨hrender, hdefines⟩

/-- A literal with a single quote in it is written between single quotes all the same, an empty one
is not written at all, and a function is called by whatever stood between angle brackets. -/
theorem not_defines_quoted :
    (empty.define "\"a'b\"").2.node 0 = ⟨.literal "a'b", .one, "\"a'b\"", none⟩ ∧
      (empty.define "\"a'b\"").2.render 0 = "'a'b'" ∧ (empty.define "'a'b'").1.isOk = false ∧
      (empty.define "''").1.isOk = true ∧ (empty.define "''").2.render 0 = "" ∧
      (empty.define "").1.isOk = false ∧
      (empty.define "<a'b()>").1.isOk = true ∧ (empty.define "<a'b()>").2.render 0 = "a'b()" ∧
      (empty.define "a'b()").1.isOk = false := by
  decide +kernel

end Arena

end StyleGrammar

import StyleGrammar.Proofs.Definition.Integrity
import Mathlib.Data.Fintype.Pigeonhole
import Mathlib.Logic.Function.Iterate

/-!
# Chains of references

A slot may be filled with a reference to another slot, or to itself, so references
form chains.  Resolving a node takes as many steps as there are nodes.  It does not
remember where it was: that many steps, all at references, visit one of them
twice, and then the chain is a cycle without an end.
-/

namespace StyleGrammar

open Relation

namespace Arena

variable {a : Arena} {id id' : NodeId}

def IsReference (a : Arena) (id : NodeId) : Prop :=
  ∃ name target, (a.node id).kind = .reference name target

/-- One step along a chain of references. -/
def Follows (a : Arena) (id id' : NodeId) : Prop :=
  ∃ name, (a.node id).kind = .reference name id'

/-- Whether the chain from one node comes to the other, after some steps or none. -/
def OnChain (a : Arena) (id id' : NodeId) : Prop := ReflTransGen a.Follows id id'

/-- The chain from a node comes to a node that it comes to again. -/
def Cyclic (a : Arena) (id : NodeId) : Prop :=
  ∃ id', a.OnChain id id' ∧ TransGen a.Follows id' id'

/-- The target of a reference.  Every other node is its own target. -/
def target (a : Arena) (id : NodeId) : NodeId :=
  match (a.node id).kind with
  | .reference _ target => target
  | _ => id

theorem follows_target (h : a.IsReference id) : a.Follows id (a.target id) := by
  obtain ⟨name, target, hkind⟩ := h
  exact ⟨name, by simp only [Arena.target, hkind]⟩

theorem Follows.eq_target (h : a.Follows id id') : id' = a.target id := by
  obtain ⟨name, hkind⟩ := h
  simp only [target, hkind]

theorem target_eq_self (h : ¬ a.IsReference id) : a.target id = id := by
  unfold target
  split
  next name target hkind => exact absurd ⟨name, target, hkind⟩ h
  next => rfl

theorem IsReference.lt_size (h : a.IsReference id) : id < a.size := by
  obtain ⟨name, target, hkind⟩ := h
  by_contra hle
  rw [node_of_size_le (Nat.le_of_not_lt hle)] at hkind
  cases hkind

theorem resolveWithin_eq (n : Nat) (id : NodeId) : a.resolveWithin n id = a.target^[n] id := by
  induction n generalizing id with
  | zero => rfl
  | succ n ih =>
    rw [Function.iterate_succ_apply]
    by_cases hreference : a.IsReference id
    · obtain ⟨name, target, hkind⟩ := hreference
      rw [← Follows.eq_target ⟨name, hkind⟩, ← ih]
      simp only [resolveWithin, hkind]
    · -- At the end of a chain the remaining steps stay where they are.
      have hself := target_eq_self hreference
      rw [hself, Function.iterate_fixed hself]
      unfold resolveWithin
      split
      next name target hkind => exact absurd ⟨name, target, hkind⟩ hreference
      next => rfl

theorem onChain_iterate (n : Nat) : a.OnChain id (a.target^[n] id) := by
  induction n with
  | zero => exact .refl
  | succ n ih =>
    rw [Function.iterate_succ_apply']
    by_cases hreference : a.IsReference (a.target^[n] id)
    · exact ih.tail (follows_target hreference)
    · rwa [target_eq_self hreference]

theorem OnChain.exists_iterate (h : a.OnChain id id') : ∃ n, id' = a.target^[n] id := by
  induction h with
  | refl => exact ⟨0, rfl⟩
  | tail _ hstep ih =>
    obtain ⟨n, rfl⟩ := ih
    exact ⟨n + 1, by rw [Function.iterate_succ_apply', hstep.eq_target]⟩

/-- A chain that comes to its end stays there. -/
theorem iterate_of_end {n m : Nat} (hend : ¬ a.IsReference (a.target^[n] id)) (hle : n ≤ m) :
    a.target^[m] id = a.target^[n] id := by
  rw [← Nat.sub_add_cancel hle, Function.iterate_add_apply,
    Function.iterate_fixed (target_eq_self hend)]

theorem transGen_iterate {n : Nat} (hpos : 0 < n)
    (h : ∀ k < n, a.IsReference (a.target^[k] id)) : TransGen a.Follows id (a.target^[n] id) := by
  obtain ⟨k, rfl⟩ := Nat.exists_eq_add_one_of_ne_zero (Nat.ne_of_gt hpos)
  have hstep : a.Follows (a.target^[k] id) (a.target^[k + 1] id) := by
    rw [Function.iterate_succ_apply']
    exact follows_target (h k (Nat.lt_add_one k))
  exact TransGen.tail' (onChain_iterate k) hstep

theorem isReference_of_resolve (h : a.IsReference (a.resolve id)) {k : Nat} (hle : k ≤ a.size) :
    a.IsReference (a.target^[k] id) := by
  by_contra hend
  rw [resolve, resolveWithin_eq, iterate_of_end hend hle] at h
  exact hend h

/-- As many steps as there are nodes, all at references, visit some node twice. -/
theorem exists_repeated (h : a.IsReference (a.resolve id)) :
    ∃ i j, i < j ∧ j ≤ a.size ∧ a.target^[i] id = a.target^[j] id := by
  let visited (k : Fin (a.size + 1)) : Fin a.size :=
    ⟨a.target^[k.val] id, (isReference_of_resolve h (Nat.le_of_lt_succ k.isLt)).lt_size⟩
  have hcard : Fintype.card (Fin a.size) < Fintype.card (Fin (a.size + 1)) := by simp
  obtain ⟨i, j, hne, heq⟩ := Fintype.exists_ne_map_eq_of_card_lt visited hcard
  have hsame : a.target^[i.val] id = a.target^[j.val] id := congrArg Fin.val heq
  by_cases hlt : i.val < j.val
  · exact ⟨i, j, hlt, Nat.le_of_lt_succ j.isLt, hsame⟩
  · have hgt : j.val < i.val := by
      have hne' : i.val ≠ j.val := fun h => hne (Fin.ext h)
      omega
    exact ⟨j, i, hgt, Nat.le_of_lt_succ i.isLt, hsame.symm⟩

/-- Nothing that is no reference lies behind a node that comes up twice: the first such node would
lie one round earlier as well. -/
theorem isReference_of_repeated {i j : Nat} (hlt : i < j)
    (hsame : a.target^[i] id = a.target^[j] id) (hj : a.IsReference (a.target^[j] id)) (n : Nat) :
    a.IsReference (a.target^[n] id) := by
  induction n using Nat.strongRecOn with
  | ind n ih =>
    by_cases hle : n ≤ j
    · by_contra hend
      rw [iterate_of_end hend hle] at hj
      exact hend hj
    · have hround : a.target^[n] id = a.target^[n - j + i] id := by
        conv_lhs => rw [← Nat.sub_add_cancel (Nat.le_of_not_le hle)]
        rw [Function.iterate_add_apply, Function.iterate_add_apply, hsame]
      rw [hround]
      exact ih (n - j + i) (by omega)

theorem isReference_of_onChain (h : a.IsReference (a.resolve id)) (hon : a.OnChain id id') :
    a.IsReference id' := by
  obtain ⟨i, j, hlt, hle, hsame⟩ := exists_repeated h
  obtain ⟨n, rfl⟩ := hon.exists_iterate
  exact isReference_of_repeated hlt hsame (isReference_of_resolve h hle) n

theorem cyclic_of_resolve (h : a.IsReference (a.resolve id)) : a.Cyclic id := by
  obtain ⟨i, j, hlt, -, hsame⟩ := exists_repeated h
  refine ⟨a.target^[i] id, onChain_iterate i, ?_⟩
  have hround : a.target^[j - i] (a.target^[i] id) = a.target^[i] id := by
    rw [← Function.iterate_add_apply, Nat.sub_add_cancel (Nat.le_of_lt hlt), hsame]
  have hstep : TransGen a.Follows (a.target^[i] id) (a.target^[j - i] (a.target^[i] id)) := by
    refine transGen_iterate (Nat.sub_pos_of_lt hlt) fun k _ => ?_
    rw [← Function.iterate_add_apply]
    exact isReference_of_onChain h (onChain_iterate (k + i))
  rwa [hround] at hstep

theorem onChain_resolve (a : Arena) (id : NodeId) : a.OnChain id (a.resolve id) := by
  rw [resolve, resolveWithin_eq]
  exact onChain_iterate a.size

/-- All nodes of a chain that ends have the same end. -/
theorem resolve_of_onChain (h : ¬ a.IsReference (a.resolve id)) (hon : a.OnChain id id') :
    a.resolve id' = a.resolve id := by
  obtain ⟨n, rfl⟩ := hon.exists_iterate
  rw [resolve, resolveWithin_eq] at h
  rw [resolve, resolve, resolveWithin_eq, resolveWithin_eq, ← Function.iterate_add_apply]
  exact iterate_of_end h (Nat.le_add_right a.size n)

theorem OnChain.lt_size (ha : a.Built) (hon : a.OnChain id id') (hlt : id < a.size) :
    id' < a.size := by
  induction hon with
  | refl => exact hlt
  | tail _ hstep _ =>
    obtain ⟨name, hkind⟩ := hstep
    exact ha.sound.lookup_lt (ha.linked _ _ _ hkind)

/-- Resolving a node follows its chain of references, within the arena, and comes to the end of it
when it has one: when it stops at a reference, the chain is cyclic and consists of references only.
Otherwise it stops at the same node from every node of the chain, the end itself among them. -/
theorem resolve_ends_chain (ha : a.Built) (id : NodeId) :
    a.OnChain id (a.resolve id) ∧
      (id < a.size → ∀ id', a.OnChain id id' → id' < a.size) ∧
      (a.IsReference (a.resolve id) →
        a.Cyclic id ∧ ∀ id', a.OnChain id id' → a.IsReference id') ∧
      (¬ a.IsReference (a.resolve id) →
        a.resolve (a.resolve id) = a.resolve id ∧
          ∀ id', a.OnChain id id' → a.resolve id' = a.resolve id) := by
  refine ⟨a.onChain_resolve id, fun hlt id' hon => hon.lt_size ha hlt, fun h => ?_, fun h => ?_⟩
  · exact ⟨cyclic_of_resolve h, fun id' hon => isReference_of_onChain h hon⟩
  · exact ⟨resolve_of_onChain h (a.onChain_resolve id), fun id' hon => resolve_of_onChain h hon⟩

/-- An alias of an alias, and a name that is defined as itself. -/
def aliases : Arena :=
  ((((empty.defineNamed "outer" "<inner>").2.defineNamed "inner" "<width>").2.defineNamed "width"
    "<length>").2.defineNamed "self" "<self>").2

theorem resolve_aliases :
    aliases.Built ∧ aliases.lookup? "width" = some 3 ∧
      (∀ id, aliases.OnChain 0 id → aliases.resolve id = 3) ∧
      aliases.lookup? "self" = some 6 ∧ aliases.Cyclic 6 ∧
      ∀ id, aliases.OnChain 6 id → aliases.IsReference id := by
  have hbuilt : aliases.Built :=
    .defineNamed _ _ (.defineNamed _ _ (.defineNamed _ _ (.defineNamed _ _ .empty)))
  have houter : aliases.resolve 0 = 3 := by decide +kernel
  have hwidth : ¬ aliases.IsReference 3 := by
    rintro ⟨name, target, hkind⟩
    have hkind' : (aliases.node 3).kind = .dataType "length" := by decide +kernel
    rw [hkind'] at hkind
    cases hkind
  have hself : aliases.resolve 6 = 6 := by decide +kernel
  have hreference : aliases.IsReference 6 := ⟨"self", 6, by decide +kernel⟩
  have hends := (resolve_ends_chain hbuilt 0).2.2.2 (by rwa [houter])
  have hcycle := (resolve_ends_chain hbuilt 6).2.2.1 (by rwa [hself])
  refine ⟨hbuilt, by decide +kernel, fun id hon => ?_, by decide +kernel, hcycle⟩
  rw [hends.2 id hon, houter]

end Arena

end StyleGrammar

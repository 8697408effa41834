import StyleGrammar.Proofs.Text.Case
import StyleGrammar.Value.FunctionTable

/-!
# The table of functions

Each kind has one entry in the table, with names that are in lower case and stand
in no other entry.  So a function stands for a kind exactly if its name, in lower
case, is one of the names of the kind.
-/

namespace StyleGrammar

open Reader

/-- The names of the functions that stand for values of a kind. -/
def namesOf (k : Kind) : List String := (functionTable.lookup k).getD []

theorem functionTable_regular :
    ∀ entry ∈ functionTable, namesOf entry.1 = entry.2 ∧ ∀ name ∈ entry.2,
      name.toList.map Char.toLower = name.toList ∧
        (functionTable.find? fun e => e.2.contains name).map Prod.fst = some entry.1 := by
  decide +kernel

variable {m n : String} {k : Kind}

theorem mem_functionTable (h : n ∈ namesOf k) : (k, namesOf k) ∈ functionTable := by
  unfold namesOf at h ⊢
  cases hlookup : functionTable.lookup k with
  | none =>
    rw [hlookup] at h
    cases h
  | some names =>
    obtain ⟨l, r, htable, -⟩ := List.lookup_eq_some_iff.mp hlookup
    rw [htable]
    exact List.mem_append_right _ List.mem_cons_self

theorem toLower_of_mem_namesOf (h : n ∈ namesOf k) : n.toLower = n :=
  toLower_eq_self ((functionTable_regular _ (mem_functionTable h)).2 n h).1

theorem functionKind?_of_mem (h : n ∈ namesOf k) : functionKind? n = some k := by
  rw [functionKind?, toLower_of_mem_namesOf h]
  exact ((functionTable_regular _ (mem_functionTable h)).2 n h).2

/-- The value of a query stands behind a name in the table, whatever the case of its letters. -/
theorem functionKind?_toLower (n : String) : functionKind? n.toLower = functionKind? n := by
  rw [functionKind?, functionKind?, toLower_toLower]

theorem functionKind?_congr (h : sameName m n = true) : functionKind? m = functionKind? n := by
  have hlower : m.toLower = n.toLower := by simpa [sameName] using h
  rw [functionKind?, functionKind?, hlower]

theorem toLower_mem_namesOf (h : functionKind? n = some k) : n.toLower ∈ namesOf k := by
  obtain ⟨entry, hfound, rfl⟩ := Option.map_eq_some_iff.mp h
  rw [(functionTable_regular entry (List.mem_of_find?_eq_some hfound)).1]
  simpa using List.find?_some hfound

theorem functionKind?_eq_some_iff : functionKind? n = some k ↔ n.toLower ∈ namesOf k := by
  refine ⟨toLower_mem_namesOf, fun h => ?_⟩
  rw [← functionKind?_toLower]
  exact functionKind?_of_mem h

end StyleGrammar

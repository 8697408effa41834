import StyleGrammar.Proofs.Reader.Left
import StyleGrammar.Proofs.Value.Decidable
import StyleGrammar.Proofs.Value.Lawful

/-!
# Values that are read back from their own text

A value is *reread* if its own text is read as it.  Its text is then one
component, and where that component stands the value is read, as long as the
limit on nesting leaves room.
-/

namespace StyleGrammar

open Reader Output Component Scan

/-- The own text of a value is read as the value. -/
def Reread {α : Type} [Readable α] [Printable α] (compact : Bool) (a : α) : Prop :=
  readText α (textOf compact a) = .ok a

instance {α : Type} [DecidableEq α] [Readable α] [Printable α] (compact : Bool) (a : α) :
    Decidable (Reread compact a) :=
  inferInstanceAs (Decidable (readText α (textOf compact a) = .ok a))

namespace Reader

variable {α : Type} {good : α → Prop}

theorem like_ofText (s : String) : Like (Cursor.ofText s) (Cursor.ofText s) :=
  ⟨⟨rfl, soundAll_ofText s.toList, .inl rfl⟩, .none⟩

/-- What a steady reader makes of a whole text is good. -/
theorem Steady.good_of_run {p : Reader α} (hp : Steady good p) {s : String} {a : α}
    (h : p.run s = .ok a) : good a := by
  obtain ⟨c, hentirely⟩ := of_run h
  obtain ⟨hread, -⟩ := of_entirely hentirely
  have hagree := hp _ _ (like_ofText s)
  rw [hread] at hagree
  cases hagree with
  | ok h => exact h.1

end Reader

/-! Room. -/

/-- There is room to read the components: `d` levels of readers, and what the limit on nesting
leaves above `n`. -/
structure Fits (d n : Nat) (ks : List Component) : Prop where
  levels : depthAll ks ≤ d
  nesting : n + 2 * depthAll ks ≤ 126

variable {d n : Nat} {ks ls : List Component}

theorem Fits.of_le (h : Fits d n ks) (hle : depthAll ls ≤ depthAll ks) : Fits d n ls := by
  have h1 := h.levels
  have h2 := h.nesting
  exact ⟨by omega, by omega⟩

theorem Fits.left (h : Fits d n (ks ++ ls)) : Fits d n ks :=
  h.of_le (by rw [depthAll_append]; omega)

theorem Fits.right (h : Fits d n (ks ++ ls)) : Fits d n ls :=
  h.of_le (by rw [depthAll_append]; omega)

theorem Fits.head {k : Component} (h : Fits d n (k :: ks)) : Fits d n [k] :=
  h.of_le (by simp [depthAll])

theorem Fits.tail {k : Component} (h : Fits d n (k :: ks)) : Fits d n ks :=
  h.of_le (by simp [depthAll])

/-- One level deeper there is room for what a block holds. -/
theorem Fits.content {t : Token} (h : Fits d n [.block t .start ks .start]) :
    ∃ d', d = d' + 1 ∧ n < nestingLimit ∧ Fits d' (n + 1) ks := by
  have h1 := h.levels
  have h2 := h.nesting
  simp only [depthAll, depth] at h1 h2
  have hlimit : nestingLimit = 128 := rfl
  exact ⟨d - 1, by omega, by omega, by omega, by omega⟩

variable {V : Type} [Term V] {good : V → Prop}

namespace Lawful

/-- A reader of tokens that are no values fails where a value is read. -/
theorem fails_expect (hV : Lawful V good) {α : Type} {P Q : Cursor → Prop} {v : V}
    {f : Token → Option α}
    (hf : ∀ t, f t ≠ none → (∀ n, t ≠ .function n) ∧ ∃ cause, Leaf.ofToken t = .error cause)
    (h : Takes P Q v read) : Fails P (expect f) := by
  intro c hc
  obtain ⟨c', hread, -⟩ := h c hc
  cases hnext : c.next with
  | error e => exact ⟨e, by change (c.next >>= fun r => _) = _; rw [hnext]; rfl⟩
  | ok x =>
    obtain ⟨t, c''⟩ := x
    cases ht : f t with
    | none => exact ⟨_, by rw [expect_of_next hnext, ht]⟩
    | some a =>
      obtain ⟨hfunction, cause, hcause⟩ := hf t (by simp [ht])
      rw [hV.token c c'' t hnext hfunction, hcause] at hread
      cases hread

end Lawful

theorem skip_gap (compact : Bool) : skip (gap compact) = [] := by cases compact <;> rfl

theorem Reader.Items.gap {α : Type} {p : Reader α} {n : Nat} {as : List α} {ks : List Component}
    (compact : Bool) (h : Items p n as ks) : Items p n as (Output.gap compact ++ ks) := by
  cases compact with
  | true => exact h
  | false => exact h.blanks

theorem makes_identifier {s : String} (h : IsName s) :
    Makes wordStops (chars (identifier s)) [.token (.ident s) .start] := by
  have hmakes := Makes.identifier (s := s.toList) (by simpa using h.nonempty) h.sound
  simpa [identifierText] using hmakes

/-- The component of a solid text. -/
theorem neatAs_of_dense {α : Type} [Printable α] {a : α} {compact : Bool}
    (hsolid : Solid (print compact a)) {k : Component}
    (h : dense (bareAll (ofText (textOf compact a).toList)) = [k]) :
    NeatAs (print compact a) [k] ∧ k.isSolid = true := by
  obtain ⟨⟨ks, hks, hmakes⟩, hbegins⟩ := hsolid
  have hspace : ∀ k ∈ ks, k.isSpace = false := fun k hk => by
    simpa [isSolid] using (show _ ∧ _ by simpa [isSolid] using hks k hk).1
  rw [textOf, toList_render, hmakes.bareAll_ofText, dense_eq_self hspace] at h
  subst h
  exact ⟨⟨hmakes, hbegins⟩, hks k List.mem_cons_self⟩

/-- A solid text that something is read from is one component, from which it is read at the top
level, and at any other that leaves room. -/
theorem exists_component {α : Type} [Readable α] [Printable α] {good : α → Prop}
    (hhead : AtHead good (read : Reader α)) {a b : α} {compact : Bool}
    (hsolid : Solid (print compact a)) (h : readText α (textOf compact a) = .ok b) :
    ∃ k, NeatAs (print compact a) [k] ∧ k.isSolid = true ∧
      ∀ n ls, (n = 0 ∨ n + 2 * k.depth ≤ 126) → Takes (Ahead n (k :: ls)) (Stand n ls) b read := by
  have htext : IsText 0 read b (ofText (textOf compact a).toList) := of_run h
  obtain ⟨k, hdense, -, htakes⟩ := htext.exists_dense hhead (soundAll_ofText _)
  obtain ⟨hneat, hk⟩ := neatAs_of_dense hsolid hdense
  exact ⟨k, hneat, hk, fun n ls hroom => htakes n ls (by omega)⟩

/-- A text is read as a value, also with `n` functions around it if those leave it little room below
the limit on nesting. -/
structure ReadsAs {α : Type} [Readable α] (n : Nat) (s : String) (a : α) : Prop where
  alone : readText α s = .ok a
  inside : 126 < n + 2 * depthAll (ofText s.toList) → IsText n read a (ofText s.toList)

theorem ReadsAs.exists_dense {α : Type} [Readable α] {good : α → Prop}
    (hhead : AtHead good (read : Reader α)) {a : α} {s : String} (h : ReadsAs n s a) :
    ∃ k, dense (bareAll (ofText s.toList)) = [k] ∧ ReadAt n a k := by
  by_cases hroom : 126 < n + 2 * depthAll (ofText s.toList)
  · obtain ⟨k, hdense, -, htakes⟩ := (h.inside hroom).exists_dense hhead (soundAll_ofText _)
    exact ⟨k, hdense, fun ls => htakes n ls (.inl rfl)⟩
  · have htext : IsText 0 read a (ofText s.toList) := of_run h.alone
    obtain ⟨k, hdense, hdepth, htakes⟩ := htext.exists_dense hhead (soundAll_ofText _)
    exact ⟨k, hdense, fun ls => htakes n ls (by omega)⟩

/-- The own text of a value is read as the value, with `n` functions around it. -/
abbrev RereadAt {α : Type} [Readable α] [Printable α] (compact : Bool) (n : Nat) (a : α) : Prop :=
  ReadsAs n (textOf compact a) a

theorem RereadAt.exists_component {α : Type} [Readable α] [Printable α] {good : α → Prop}
    (hhead : AtHead good (read : Reader α)) {a : α} {compact : Bool}
    (hsolid : Solid (print compact a)) (h : RereadAt compact n a) :
    ∃ k, NeatAs (print compact a) [k] ∧ k.isSpace = false ∧ ReadAt n a k := by
  obtain ⟨k, hdense, hread⟩ := ReadsAs.exists_dense hhead h
  exact ⟨k, (neatAs_of_dense hsolid hdense).1, (exists_of_dense hdense).1, hread⟩

/-- A component that a value is read from, wherever it stands. -/
structure ReadFrom {α : Type} [Readable α] (a : α) (k : Component) : Prop where
  solid : k.isSpace = false
  takes : ∀ n ls, n + 2 * k.depth ≤ 126 → Takes (Ahead n (k :: ls)) (Stand n ls) a read

theorem exists_readFrom {α : Type} [Readable α] [Printable α] {good : α → Prop}
    (hhead : AtHead good (read : Reader α)) {a : α} {compact : Bool}
    (hsolid : Solid (print compact a)) (h : Reread compact a) :
    ∃ k, Makes wordStops (chars (print compact a)) [k] ∧ k.isComma = false ∧ ReadFrom a k := by
  obtain ⟨k, hneat, hk, htakes⟩ := exists_component hhead hsolid h
  simp only [isSolid, Bool.and_eq_true, Bool.not_eq_true'] at hk
  exact ⟨k, hneat.makes, hk.2, hk.1, fun n ls hroom => htakes n ls (.inr hroom)⟩

theorem Lawful.opened (hV : Lawful V good) : AtHead good (read : Reader V) := fun r r' =>
  (hV.head r r').mono (fun _ => id) fun _ _ h => h.opened

end StyleGrammar

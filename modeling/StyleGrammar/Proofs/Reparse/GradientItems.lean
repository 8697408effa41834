import StyleGrammar.Proofs.Reparse.Keywords
import StyleGrammar.Proofs.Value.GradientItems

/-!
# Gradient items are read back as they are

Two neighbouring stops of one color that both have a position are printed as one
entry.  `merge` gives the entries that a list of items is printed as, whatever the
state of the printer; their items are again the list, up to stops whose color is
equal to the one before it.
-/

namespace StyleGrammar

open Reader Output Component Scan

namespace GradientItem

variable {P V : Type}

open Entry

/-! Entries and how they are printed. -/

section Merging

variable [BEq V]

/-- The entries that items are printed as. -/
def merge : List (GradientItem P V) → List (Entry P V)
  | [] => []
  | .stop ⟨c, some p⟩ :: .stop ⟨c', some q⟩ :: is =>
    if c == c' then .colorFromTo c p q :: merge is
    else .colorAt c p :: merge (.stop ⟨c', some q⟩ :: is)
  | .stop ⟨c, some p⟩ :: is => .colorAt c p :: merge is
  | .stop ⟨c, none⟩ :: is => .color c :: merge is
  | .hint p :: is => .hint p :: merge is

/-- The same item, or a stop at the same place whose color is equal. -/
inductive Alike : GradientItem P V → GradientItem P V → Prop
  | refl (i : GradientItem P V) : Alike i i
  | stop {c c' : Color V} {p? : Option P} (h : (c == c') = true) :
      Alike (.stop ⟨c, p?⟩) (.stop ⟨c', p?⟩)

theorem Alike.isStop_eq {i j : GradientItem P V} (h : Alike i j) : i.isStop = j.isStop := by
  cases h <;> rfl

theorem alike_merge (is : List (GradientItem P V)) :
    List.Forall₂ Alike ((merge is).flatMap items) is := by
  induction is using merge.induct with
  | case1 => exact .nil
  | case2 c p c' q is h ih =>
    rw [merge, if_pos h]
    exact .cons (.refl _) (.cons (.stop h) ih)
  | case3 c p c' q is h ih =>
    rw [merge, if_neg h]
    exact .cons (.refl _) ih
  | case4 c p is hne ih =>
    rw [merge]
    · exact .cons (.refl _) ih
    · exact hne
  | case5 c is ih =>
    rw [merge]
    exact .cons (.refl _) ih
  | case6 p is ih =>
    rw [merge]
    exact .cons (.refl _) ih

theorem map_isStop_of_alike {is js : List (GradientItem P V)} (h : List.Forall₂ Alike is js) :
    is.map isStop = js.map isStop := by
  induction h with
  | nil => rfl
  | cons hi _ ih => rw [List.map_cons, List.map_cons, hi.isStop_eq, ih]

/-- Where hints stand only behind stops, the entries are accepted. -/
theorem accepts_merge {is : List (GradientItem P V)} {afterStop : Bool}
    (hhead : ∀ i ∈ is.head?, afterStop = true ∨ i.isStop = true)
    (hchain : is.IsChain fun i j => i.isStop = true ∨ j.isStop = true) :
    accepts afterStop (merge is) = true := by
  induction is using merge.induct generalizing afterStop with
  | case1 => rfl
  | case2 c p c' q is h ih =>
    have hrest : accepts true (merge is) = true := ih (by simp) hchain.tail.tail
    rw [merge, if_pos h]
    simpa [accepts, isColor] using hrest
  | case3 c p c' q is h ih =>
    have hrest : accepts true (merge (.stop ⟨c', some q⟩ :: is)) = true := ih (by simp) hchain.tail
    rw [merge, if_neg h]
    simpa [accepts, isColor] using hrest
  | case4 c p is hne ih =>
    have hrest : accepts true (merge is) = true := ih (by simp) hchain.tail
    rw [merge]
    · simpa [accepts, isColor] using hrest
    · exact hne
  | case5 c is ih =>
    have hrest : accepts true (merge is) = true := ih (by simp) hchain.tail
    rw [merge]
    simpa [accepts, isColor] using hrest
  | case6 p is ih =>
    have hfirst : afterStop = true := by simpa [isStop] using hhead
    have hnext : ∀ j ∈ is.head?, j.isStop = true := by
      have := (List.isChain_cons.mp hchain).1
      simpa [isStop] using this
    have hrest : accepts false (merge is) = true := ih (by simpa using hnext) hchain.tail
    rw [merge]
    simpa [accepts, isColor, hfirst] using hrest

end Merging

/-- What was read is printed as entries that make a gradient. -/
theorem admitted_merge {is : List (GradientItem P V)} [Readable P] [Term V] {c c' : Cursor}
    (h : readAll c = .ok (is, c')) : Admitted (merge is) := by
  obtain ⟨⟨-, hhead, hchain⟩, hstops⟩ := of_readAll h
  refine (admitted_iff _).mpr ⟨accepts_merge hhead hchain, ?_⟩
  have hmap := map_isStop_of_alike (alike_merge is)
  have hcount (js : List (GradientItem P V)) : js.countP isStop = (js.map isStop).countP id := by
    rw [List.countP_map]
    rfl
  have hlast (js : List (GradientItem P V)) :
      js.getLast?.any isHint = (js.map isStop).getLast?.any fun stop => !stop := by
    rw [List.getLast?_map]
    cases js.getLast? <;> rfl
  rwa [hcount, hlast, hmap, ← hcount, ← hlast]

section Printing

variable [Printable P] [Printable V]

/-- What is printed between two commas. -/
def Entry.print (compact : Bool) : Entry P V → Output
  | .color c => Printable.print compact c
  | .colorAt c p => Printable.print compact c ++ (char ' ' ++ Printable.print compact p)
  | .colorFromTo c p q =>
    Printable.print compact c ++ (char ' ' ++ Printable.print compact p) ++
      (char ' ' ++ Printable.print compact q)
  | .hint p => Printable.print compact p

variable [BEq V]

/-- Behind an item with which the next one is not merged, the printer goes on with the entries. -/
theorem printRest_eq (compact : Bool) {is : List (GradientItem P V)}
    {last? : Option (GradientItem P V)} (h : ∀ i ∈ is.head?, merged? last? i = none) :
    printRest compact last? is =
      (merge is).flatMap fun e => Output.comma compact ++ e.print compact := by
  induction is using merge.induct generalizing last? with
  | case1 => rfl
  | case2 c p c' q is heq ih =>
    have hsecond : merged? (some (.stop ⟨c, some p⟩)) (.stop ⟨c', some q⟩ : GradientItem P V) =
        some q := by rw [merged?, if_pos heq]
    rw [printRest, h _ rfl, merge, if_pos heq]
    simp only [printRest, hsecond]
    rw [ih (by simp [merged?])]
    simp [Entry.print, Printable.print]
  | case3 c p c' q is heq ih =>
    have hsecond : merged? (some (.stop ⟨c, some p⟩)) (.stop ⟨c', some q⟩ : GradientItem P V) =
        none := by rw [merged?, if_neg heq]
    rw [printRest, h _ rfl, merge, if_neg heq]
    dsimp only
    rw [ih (by simpa using hsecond)]
    simp [Entry.print, Printable.print]
  | case4 c p is hne ih =>
    have hnext : ∀ i ∈ is.head?, merged? (some (.stop ⟨c, some p⟩)) i = none := by
      intro i hi
      cases is with
      | nil => cases hi
      | cons j js =>
        cases hi
        rcases i with ⟨c', _ | q⟩ | q
        · rfl
        · exact absurd rfl (hne c' q js)
        · rfl
    rw [printRest, h _ rfl, merge]
    · dsimp only
      rw [ih hnext]
      simp [Entry.print, Printable.print]
    · exact hne
  | case5 c is ih =>
    rw [printRest, h _ rfl, merge]
    dsimp only
    rw [ih fun i _ => by cases i <;> rfl]
    simp [Entry.print, Printable.print]
  | case6 p is ih =>
    rw [printRest, h _ rfl, merge]
    dsimp only
    rw [ih fun i _ => by cases i <;> rfl]
    simp [Entry.print, Printable.print]

theorem flatMap_eq_separated (separator : Output) {α : Type} (f : α → Output) {as : List α}
    (hne : as ≠ []) :
    (as.flatMap fun a => separator ++ f a) = separator ++ separated separator (as.map f) := by
  induction as with
  | nil => exact absurd rfl hne
  | cons a as ih =>
    cases as with
    | nil => simp [separated]
    | cons b bs =>
      rw [List.flatMap_cons, ih (by simp)]
      simp [separated]

/-- Items are printed as entries with commas between them. -/
theorem printAll_eq (compact : Bool) {is : List (GradientItem P V)} (hne : is ≠ []) :
    printAll compact is =
      separated (Output.comma compact) ((merge is).map (Entry.print compact)) := by
  cases is with
  | nil => exact absurd rfl hne
  | cons i is =>
    have hnone (j : GradientItem P V) : merged? none j = none := by cases j <;> rfl
    have hmerge : merge (i :: is) ≠ [] := by
      intro hnil
      have := alike_merge (i :: is)
      rw [hnil] at this
      cases this
    have hall : printRest compact none (i :: is) = _ := printRest_eq compact fun j _ => hnone j
    rw [flatMap_eq_separated _ _ hmerge, printRest, hnone, List.append_assoc] at hall
    exact List.append_cancel_left hall

end Printing

/-! What is printed is read. -/

/-- A value that is read from the one component which it is printed as. -/
def Restores {α : Type} [Readable α] [Printable α] (compact : Bool) (a : α) : Prop :=
  ∃ k, NeatAs (Printable.print compact a) [k] ∧ k.isSolid = true ∧
    ∀ ls, Takes (Ahead 0 (k :: ls)) (Stand 0 ls) a read

theorem restores_of_reread {α : Type} [Readable α] [Printable α] {good : α → Prop}
    (hhead : AtHead good (read : Reader α)) {a : α} {compact : Bool} (hsolid : PrintsSolid a)
    (h : Reread compact a) : Restores compact a := by
  obtain ⟨k, hneat, hk, htakes⟩ := exists_component hhead (hsolid compact) h
  exact ⟨k, hneat, hk, fun ls => htakes 0 ls (.inl rfl)⟩

/-- Blanks in front of a component do not count. -/
theorem segment_of_takes {α : Type} {p : Reader α} {a : α} {n : Nat} {k : Component}
    (hk : k.isSolid = true) (h : ∀ ls, Takes (Ahead n (k :: ls)) (Stand n ls) a p)
    {bs : List Component} (hbs : skip bs = []) : Segment n p a (bs ++ [k]) := by
  refine ⟨fun ls => ?_, ?_⟩
  · refine ((h ls).before fun c hc => hc.of_skip ?_).after fun c hc => hc.ahead
    rw [List.append_assoc, skip_append_of_skip_nil hbs]
    rfl
  · simp only [isSolid, Bool.and_eq_true, Bool.not_eq_true'] at hk
    simp only [List.forall_mem_append, List.forall_mem_singleton]
    exact ⟨isComma_of_skip_nil hbs, hk.2⟩

section Components

variable [Readable P] [Printable P] [Term V] {compact : Bool}

/-- The color and the positions of an entry are restored. -/
def Entry.Restored (compact : Bool) : Entry P V → Prop
  | .color c => Restores compact c
  | .colorAt c p => Restores compact c ∧ Restores compact p
  | .colorFromTo c p q => Restores compact c ∧ Restores compact p ∧ Restores compact q
  | .hint p => Restores compact p

/-- The components of an entry, behind blanks or not. -/
theorem exists_segments {e : Entry P V} (h : e.Restored compact) :
    ∃ ks, NeatAs (e.print compact) ks ∧ ∀ bs, skip bs = [] → Segments 0 e (bs ++ ks) := by
  have hblank : skip [Component.blanks .start] = [] := rfl
  cases e with
  | color c =>
    obtain ⟨k, hneat, hk, htakes⟩ := h
    exact ⟨_, hneat, fun bs hbs => .color (segment_of_takes hk htakes hbs)⟩
  | colorAt c p =>
    obtain ⟨⟨k, hneat, hk, htakes⟩, ⟨k', hneat', hk', htakes'⟩⟩ := h
    refine ⟨_, hneat.append hneat'.behindSpace, fun bs hbs => ?_⟩
    rw [← List.append_assoc]
    exact .colorAt (segment_of_takes hk htakes hbs) (segment_of_takes hk' htakes' hblank)
  | colorFromTo c p q =>
    obtain ⟨⟨k, hneat, hk, htakes⟩, ⟨k', hneat', hk', htakes'⟩, k'', hneat'', hk'', htakes''⟩ := h
    refine ⟨_, (hneat.append hneat'.behindSpace).append hneat''.behindSpace, fun bs hbs => ?_⟩
    rw [← List.append_assoc, ← List.append_assoc, List.append_assoc (bs ++ [k])]
    exact .colorFromTo (segment_of_takes hk htakes hbs) (segment_of_takes hk' htakes' hblank)
      (segment_of_takes hk'' htakes'' hblank)
  | hint p =>
    obtain ⟨k, hneat, hk, htakes⟩ := h
    exact ⟨_, hneat, fun bs hbs => .hint (segment_of_takes hk htakes hbs)⟩

theorem exists_allSegments {es : List (Entry P V)} (hne : es ≠ [])
    (h : ∀ e ∈ es, e.Restored compact) :
    ∃ ks, NeatAs (separated (Output.comma compact) (es.map (Entry.print compact))) ks ∧
      ∀ bs, skip bs = [] → AllSegments 0 es (bs ++ ks) := by
  induction es with
  | nil => exact absurd rfl hne
  | cons e es ih =>
    obtain ⟨ks, hneat, hsegments⟩ := exists_segments (h e List.mem_cons_self)
    cases es with
    | nil => exact ⟨ks, hneat, fun bs hbs => .last (hsegments bs hbs)⟩
    | cons e' es =>
      obtain ⟨ls, hneat', hall⟩ := ih (by simp) fun x hx => h x (List.mem_cons_of_mem e hx)
      have hboth := hneat.append (hneat'.behindComma compact)
      rw [← List.append_assoc] at hboth
      refine ⟨_, hboth, fun bs hbs => ?_⟩
      rw [← List.append_assoc]
      exact .cons (hsegments bs hbs) (hall _ (skip_gap compact))

/-- The colors and the positions of items are restored. -/
def Restored (compact : Bool) : GradientItem P V → Prop
  | .stop ⟨c, p?⟩ => Restores compact c ∧ ∀ p ∈ p?, Restores compact p
  | .hint p => Restores compact p

theorem restored_merge {is : List (GradientItem P V)} (h : ∀ i ∈ is, i.Restored compact) :
    ∀ e ∈ merge is, e.Restored compact := by
  induction is using merge.induct with
  | case1 => simp [merge]
  | case2 c p c' q is heq ih =>
    obtain ⟨hp, hq, his⟩ : _ ∧ _ ∧ _ := by simpa only [List.forall_mem_cons] using h
    rw [merge, if_pos heq]
    exact List.forall_mem_cons.mpr ⟨⟨hp.1, hp.2 p rfl, hq.2 q rfl⟩, ih his⟩
  | case3 c p c' q is heq ih =>
    obtain ⟨hp, his⟩ := List.forall_mem_cons.mp h
    rw [merge, if_neg heq]
    exact List.forall_mem_cons.mpr ⟨⟨hp.1, hp.2 p rfl⟩, ih his⟩
  | case4 c p is hne ih =>
    obtain ⟨hp, his⟩ := List.forall_mem_cons.mp h
    rw [merge]
    · exact List.forall_mem_cons.mpr ⟨⟨hp.1, hp.2 p rfl⟩, ih his⟩
    · exact hne
  | case5 c is ih =>
    obtain ⟨hc, his⟩ := List.forall_mem_cons.mp h
    rw [merge]
    exact List.forall_mem_cons.mpr ⟨hc.1, ih his⟩
  | case6 p is ih =>
    obtain ⟨hp, his⟩ := List.forall_mem_cons.mp h
    rw [merge]
    exact List.forall_mem_cons.mpr ⟨hp, ih his⟩

omit [Printable P] in
/-- Entries that make a gradient begin with a color. -/
theorem AllSegments.begins {n : Nat} {es : List (Entry P V)} {ks : List Component}
    (h : AllSegments n es ks) (hes : Admitted es) :
    ∃ (c : Color V) (Q : Cursor → Prop), Takes (Ahead n ks) Q c read := by
  have hfirst {e : Entry P V} {ks : List Component} (h : Segments n e ks) (he : e.isColor = true)
      (ls : List Component) :
      ∃ (c : Color V) (Q : Cursor → Prop), Takes (Ahead n (ks ++ ls)) Q c read := by
    cases h with
    | color hc => exact ⟨_, _, hc.takes ls⟩
    | colorAt hc _ =>
      rw [List.append_assoc]
      exact ⟨_, _, hc.takes _⟩
    | colorFromTo hc _ _ =>
      rw [List.append_assoc]
      exact ⟨_, _, hc.takes _⟩
    | hint => cases he
  cases h with
  | last he => simpa using hfirst he (hes.first _ rfl) []
  | cons he _ => exact hfirst he (hes.first _ rfl) _

/-- Items that make a gradient are printed as entries that make one, and are the items of those
entries, up to colors that are equal. -/
theorem exists_entries {is : List (GradientItem P V)} {c c' : Cursor}
    (hread : readAll c = .ok (is, c')) (h : ∀ i ∈ is, i.Restored compact) :
    ∃ es ks, NeatAs (printAll compact is) ks ∧ List.Forall₂ Alike (es.flatMap items) is ∧
      Admitted es ∧ ∀ bs, skip bs = [] → AllSegments 0 es (bs ++ ks) := by
  obtain ⟨⟨hne, -, -⟩, -⟩ := of_readAll hread
  have halike := alike_merge is
  have hentries : merge is ≠ [] := by
    intro hnil
    rw [hnil] at halike
    cases halike
    exact hne rfl
  obtain ⟨ks, hneat, hall⟩ := exists_allSegments hentries (restored_merge h)
  exact ⟨merge is, ks, printAll_eq compact hne ▸ hneat, halike, admitted_merge hread, hall⟩

end Components

end GradientItem

end StyleGrammar

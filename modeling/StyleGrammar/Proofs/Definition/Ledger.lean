import StyleGrammar.Proofs.Definition.Integrity

/-!
# What slots hold

Names are defined one after the other, some of them more than once and some of
the definitions broken.  In the end a slot holds what the last definition of its
name that could be read has made of it.  The nodes of that reading are as they
were, whatever was read before or after (`Ledger.defineNamed`,
`ledger_ofDefinitions`).
-/

namespace StyleGrammar

open List

namespace Definition

/-- Whether a text defines a grammar. -/
def Compiles (text : String) : Prop := (Arena.empty.define text).1.isOk = true

instance (text : String) : Decidable (Compiles text) :=
  inferInstanceAs (Decidable ((Arena.empty.define text).1.isOk = true))

variable {text : String}

/-- Whether a text can be read does not depend on what was read before. -/
theorem compiles_iff (a : Arena) : Compiles text ↔ ∃ root, (a.define text).1 = .ok root := by
  unfold Compiles
  obtain ⟨ps, -, ⟨e, h, h'⟩ | ⟨root, root', h, h', -⟩⟩ := alike_define .empty a text
  · rw [h, h']
    exact iff_of_false Bool.false_ne_true (by simp)
  · rw [h, h']
    exact iff_of_true rfl ⟨root', rfl⟩

theorem not_compiles_iff (a : Arena) : ¬Compiles text ↔ ∃ e, (a.define text).1 = .error e := by
  rw [compiles_iff a]
  cases (a.define text).1 <;> simp

end Definition

namespace Arena

open Definition

variable {a a' before : Arena} {name name' text : String} {id id' : NodeId}

theorem Extends.extendsBut (h : a.Extends a') (slot : NodeId) : a.ExtendsBut slot a' :=
  ⟨h.size_le, fun hlt _ => h.node_eq hlt, h.lookup_eq⟩

@[simp] theorem lookup_fill (a : Arena) (slot root : NodeId) (name : String) :
    (a.fill slot root).lookup? name = a.lookup? name := rfl

@[simp] theorem size_fill (a : Arena) (slot root : NodeId) : (a.fill slot root).size = a.size :=
  a.size_modify slot _

theorem node_fill_of_ne (a : Arena) {slot : NodeId} (root : NodeId) (hne : id ≠ slot) :
    (a.fill slot root).node id = a.node id := node_modify_of_ne _ hne

theorem node_fill_self (a : Arena) {slot : NodeId} (root : NodeId) (hslot : slot < a.size) :
    (a.fill slot root).node slot = { a.node root with name? := (a.node slot).name? } :=
  node_modify_self _ hslot

/-! What a definition of a name does, compared to reading its text behind the slot of the name. -/

theorem lookup_defineNamed (a : Arena) (name text name' : String) :
    (a.defineNamed name text).2.lookup? name' = ((a.slot name).2.define text).2.lookup? name' := by
  rcases a.defineNamed_eq name text with h | ⟨root, -, h⟩
  · rw [h]
  · rw [h, lookup_fill]

theorem size_defineNamed (a : Arena) (name text : String) :
    (a.defineNamed name text).2.size = ((a.slot name).2.define text).2.size := by
  rcases a.defineNamed_eq name text with h | ⟨root, -, h⟩
  · rw [h]
  · rw [h, size_fill]

theorem node_defineNamed_of_ne (text : String) (hne : id ≠ (a.slot name).1) :
    (a.defineNamed name text).2.node id = ((a.slot name).2.define text).2.node id := by
  rcases a.defineNamed_eq name text with h | ⟨root, -, h⟩
  · rw [h]
  · rw [h, node_fill_of_ne _ root hne]

theorem defineNamed_of_not_compiles (a : Arena) (name : String) (htext : ¬Compiles text) :
    (a.defineNamed name text).2 = ((a.slot name).2.define text).2 := by
  obtain ⟨e, herror⟩ := (not_compiles_iff (a.slot name).2).mp htext
  rcases a.defineNamed_eq name text with h | ⟨root, hroot, -⟩
  · exact h
  · rw [herror] at hroot
    cases hroot

theorem extends_slot_define (a : Arena) (name text : String) :
    a.Extends ((a.slot name).2.define text).2 :=
  (a.extends_slot name).trans ((a.slot name).2.extends_define text)

/-- The slot of the name is not new, or it is the first new node. -/
theorem extendsBut_defineNamed (a : Arena) (name text : String) :
    a.ExtendsBut (a.slot name).1 (a.defineNamed name text).2 where
  size_le := by
    rw [size_defineNamed]
    exact (a.extends_slot_define name text).size_le
  node_eq hlt hne := by
    rw [node_defineNamed_of_ne text hne, (a.extends_slot_define name text).node_eq hlt]
  lookup_eq h := by
    rw [lookup_defineNamed]
    exact (a.extends_slot_define name text).lookup_eq h

theorem lookup_defineNamed_self (a : Arena) (name text : String) :
    (a.defineNamed name text).2.lookup? name = some (a.slot name).1 := by
  rw [lookup_defineNamed]
  exact ((a.slot name).2.extends_define text).lookup_eq (a.lookup_slot name)

theorem Sound.defineNamed (ha : a.Sound) (name text : String) :
    (a.defineNamed name text).2.Sound := by
  have hdefined := (ha.slot name).define text
  have hlookup := a.lookup_defineNamed_self name text
  rw [lookup_defineNamed] at hlookup
  rcases a.defineNamed_eq name text with heq | ⟨root, -, heq⟩
  · rw [heq]
    exact hdefined
  · rw [heq]
    apply hdefined.fill
    rw [hdefined.lookup_name hlookup]
    simp

/-- The slot of a name is a slot, or it comes behind all nodes. -/
theorem Sound.slot_cases (ha : a.Sound) (name : String) :
    (a.node (a.slot name).1).name? ≠ none ∨ a.size ≤ (a.slot name).1 := by
  rcases a.slot_eq name with ⟨id, hid, h⟩ | ⟨-, h⟩ <;> rw [h]
  · left
    rw [ha.lookup_name hid]
    simp
  · exact .inr (Nat.le_refl _)

/-! ## One slot -/

/-- A slot that was filled from a text: the root of what was read into an arena is copied into the
slot, and the nodes and the slots of that reading are still there. -/
structure FilledFrom (a before : Arena) (slot : NodeId) (text : String) : Prop where
  sound : before.Sound
  root_eq : ∃ root, (before.define text).1 = .ok root ∧
    a.node slot = { (before.define text).2.node root with name? := (a.node slot).name? }
  size_le : (before.define text).2.size ≤ a.size
  node_eq : ∀ {id}, New before (before.define text).2 id →
    a.node id = (before.define text).2.node id
  lookup_eq : ∀ {name id}, (before.define text).2.lookup? name = some id →
    a.lookup? name = some id

/-- The slot is the root of the reading up to its name. -/
theorem FilledFrom.root_copied (h : a.FilledFrom before id text) :
    ∃ root, (before.define text).1 = .ok root ∧
      (a.node id).kind = ((before.define text).2.node root).kind ∧
      (a.node id).quantifier = ((before.define text).2.node root).quantifier ∧
      (a.node id).raw = ((before.define text).2.node root).raw := by
  obtain ⟨root, hroot, hnode⟩ := h.root_eq
  have hkind := congrArg Node.kind hnode
  have hquantifier := congrArg Node.quantifier hnode
  have hraw := congrArg Node.raw hnode
  dsimp only at hkind hquantifier hraw
  exact ⟨root, hroot, hkind, hquantifier, hraw⟩

/-- A slot stays filled if another one is. -/
theorem FilledFrom.extendsBut (h : a.FilledFrom before id text) (hext : a.ExtendsBut id' a')
    (hid : id < a.size) (hne : id ≠ id') (hname : (a.node id').name? ≠ none ∨ a.size ≤ id') :
    a'.FilledFrom before id text where
  sound := h.sound
  root_eq := by
    rw [hext.node_eq hid hne]
    exact h.root_eq
  size_le := h.size_le.trans hext.size_le
  node_eq := by
    intro j hnew
    have hlt := Nat.lt_of_lt_of_le hnew.lt h.size_le
    have hj : j ≠ id' := by
      rintro rfl
      rcases hname with hname | hle
      · rw [h.node_eq hnew] at hname
        exact hname hnew.name_eq
      · exact Nat.not_le_of_lt hlt hle
    rw [hext.node_eq hlt hj, h.node_eq hnew]
  lookup_eq hlookup := hext.lookup_eq (h.lookup_eq hlookup)

/-- The slot of a name that was just defined. -/
theorem filledFrom_defineNamed (ha : a.Sound) (name : String) (htext : Compiles text) :
    (a.defineNamed name text).2.FilledFrom (a.slot name).2 (a.slot name).1 text := by
  have hdefined := (ha.slot name).define text
  have hlookup := a.lookup_defineNamed_self name text
  rw [lookup_defineNamed] at hlookup
  obtain ⟨root, hroot⟩ := (compiles_iff (a.slot name).2).mp htext
  refine ⟨ha.slot name, ⟨root, hroot, ?_⟩, (a.size_defineNamed name text).ge, fun hnew => ?_,
    fun h => ?_⟩
  · rcases a.defineNamed_cases name text with ⟨e, herror, -⟩ | ⟨root', hroot', h⟩
    · rw [hroot] at herror
      cases herror
    · obtain rfl : root = root' := Except.ok.inj (hroot.symm.trans hroot')
      rw [h, node_fill_self _ root (hdefined.lookup_lt hlookup)]
  · refine node_defineNamed_of_ne text ?_
    rintro rfl
    have hnone := hnew.name_eq
    rw [hdefined.lookup_name hlookup] at hnone
    cases hnone
  · rw [lookup_defineNamed]
    exact h

/-! ## All slots -/

/-- The slots of all names but some are blank. -/
def BlankBut (a : Arena) (filled : String → Prop) : Prop :=
  ∀ {name slot}, ¬filled name → a.lookup? name = some slot →
    a.node slot = ⟨.placeholder, .one, "", some name⟩

/-- What all slots hold: the slots of the names with a text are filled from it, the others are
blank.  What was read for different names takes up different nodes. -/
structure Ledger (a : Arena) (text? : String → Option String) (before : String → Arena) :
    Prop where
  sound : a.Sound
  filled : ∀ {name text}, text? name = some text →
    ∃ slot, a.lookup? name = some slot ∧ a.FilledFrom (before name) slot text
  blank : a.BlankBut fun name => text? name ≠ none
  apart : ∀ {name name' text text'}, text? name = some text → text? name' = some text' →
    name ≠ name' → ((before name).define text).2.size ≤ (before name').size ∨
      ((before name').define text').2.size ≤ (before name).size

variable {text? : String → Option String} {before : String → Arena} {filled : String → Prop}

theorem Sound.slot_inj (ha : a.Sound) (h : a.lookup? name = some id)
    (h' : a.lookup? name' = some id) : name = name' :=
  Option.some.inj ((ha.lookup_name h).symm.trans (ha.lookup_name h'))

theorem BlankBut.slot (ha : a.Sound) (h : a.BlankBut filled) (name : String) :
    (a.slot name).2.BlankBut filled := by
  intro name' slot hname' hlookup
  have hext := a.extends_slot name
  by_cases hne : name' = name
  · subst hne
    rcases a.slot_eq name' with ⟨id, hid, hslot⟩ | ⟨hnone, -⟩
    · rw [hslot] at hlookup ⊢
      exact h hname' hlookup
    · rw [a.lookup_slot name'] at hlookup
      cases hlookup
      rw [node_slot_of_none hnone]
      rcases a.slot_eq name' with ⟨id, hid, -⟩ | ⟨-, hslot⟩
      · rw [hnone] at hid
        cases hid
      · rw [if_pos (by rw [hslot])]
  · rw [lookup_slot_of_ne hne] at hlookup
    rw [hext.node_eq (ha.lookup_lt hlookup)]
    exact h hname' hlookup

/-- The slots that a reading makes are blank, and it leaves the others as they are. -/
theorem BlankBut.lockstep {b b' : Arena} {ps : Pairs} (hb : b.Sound) (h : b.BlankBut filled)
    (hlock : Lockstep b b' ps a a') : a.BlankBut filled := by
  have hpush {a : Arena} (ha : a.Sound) (h : a.BlankBut filled) (n : Node) :
      (a.push n).BlankBut filled := by
    intro name slot hname hlookup
    rw [node_push_of_lt n (ha.lookup_lt hlookup)]
    exact h hname hlookup
  induction hlock with
  | start => exact h
  | push hlock raw hkind ih => exact hpush (hb.lockstep hlock) ih _
  | slot hlock name ih => exact BlankBut.slot (hb.lockstep hlock) ih name
  | refer hlock name raw ih =>
    exact hpush ((hb.lockstep hlock).slot name) (BlankBut.slot (hb.lockstep hlock) ih name) _
  | @quantify ps a a' id id' q hlock hmem hq ih =>
    intro name slot hname hlookup
    have hslot : slot ≠ id := by
      rintro rfl
      have hnone := (hlock.new.2 _ hmem).name_eq
      rw [(hb.lockstep hlock).lookup_name hlookup] at hnone
      cases hnone
    rw [node_modify_of_ne _ hslot]
    exact ih hname hlookup

theorem BlankBut.define (ha : a.Sound) (h : a.BlankBut filled) (text : String) :
    (a.define text).2.BlankBut filled := by
  obtain ⟨ps, hlock, -⟩ := alike_define a a text
  exact BlankBut.lockstep ha h hlock

theorem ledger_empty (before : String → Arena) : empty.Ledger (fun _ => none) before where
  sound := sound_empty
  filled h := by cases h
  blank _ h := by cases h
  apart h := by cases h

/-- A definition that can be read is what the slot of its name holds from then on.  Other slots
hold what they held, and so do all slots after a broken definition. -/
theorem Ledger.defineNamed (h : a.Ledger text? before) (name text : String) :
    (a.defineNamed name text).2.Ledger
      (fun n => if n = name ∧ Compiles text then some text else text? n)
      (fun n => if n = name ∧ Compiles text then (a.slot name).2 else before n) := by
  have hdefined : ((a.slot name).2.define text).2.BlankBut fun n => text? n ≠ none :=
    BlankBut.define (h.sound.slot name) (BlankBut.slot h.sound h.blank name) text
  have hsound := h.sound.defineNamed name text
  by_cases htext : Compiles text
  · have hext := a.extendsBut_defineNamed name text
    have hlookup := a.lookup_defineNamed_self name text
    have hbehind {n t : String} (ht : text? n = some t) :
        ((before n).define t).2.size ≤ (a.slot name).2.size := by
      obtain ⟨id, -, hfilled⟩ := h.filled ht
      exact hfilled.size_le.trans (a.extends_slot name).size_le
    simp only [htext, and_true]
    refine ⟨hsound, fun {n t} ht => ?_, fun {n id} hn hid => ?_, fun {n n' t t'} ht ht' hne => ?_⟩
    · by_cases hn : n = name
      · subst hn
        simp only [if_true, Option.some.injEq] at ht ⊢
        subst ht
        exact ⟨_, hlookup, filledFrom_defineNamed h.sound n htext⟩
      · rw [if_neg hn] at ht ⊢
        obtain ⟨id, hid, hfilled⟩ := h.filled ht
        refine ⟨id, hext.lookup_eq hid, hfilled.extendsBut hext (h.sound.lookup_lt hid) ?_
          (h.sound.slot_cases name)⟩
        rintro rfl
        exact hn (hsound.slot_inj (hext.lookup_eq hid) hlookup)
    · have hne : n ≠ name := by
        rintro rfl
        simp at hn
      simp only [if_neg hne] at hn
      have hslot : id ≠ (a.slot name).1 := by
        rintro rfl
        exact hne (hsound.slot_inj hid hlookup)
      rw [lookup_defineNamed] at hid
      rw [node_defineNamed_of_ne text hslot]
      exact hdefined hn hid
    · by_cases hn : n = name <;> by_cases hn' : n' = name
      · exact absurd (hn.trans hn'.symm) hne
      · rw [if_neg hn'] at ht'
        simp only [if_pos hn, if_neg hn']
        exact .inr (hbehind ht')
      · rw [if_neg hn] at ht
        simp only [if_neg hn, if_pos hn']
        exact .inl (hbehind ht)
      · rw [if_neg hn] at ht
        rw [if_neg hn'] at ht'
        simp only [if_neg hn, if_neg hn']
        exact h.apart ht ht' hne
  · have heq := a.defineNamed_of_not_compiles name htext
    have hext := a.extends_slot_define name text
    simp only [htext, and_false, if_false]
    rw [heq] at hsound ⊢
    refine ⟨hsound, fun {n t} ht => ?_, hdefined, h.apart⟩
    obtain ⟨id, hid, hfilled⟩ := h.filled ht
    have hlt := h.sound.lookup_lt hid
    exact ⟨id, hext.lookup_eq hid, hfilled.extendsBut (hext.extendsBut a.size) hlt
      (Nat.ne_of_lt hlt) (.inr (Nat.le_refl _))⟩

/-! ## One definition after the other -/

/-- The arena that some definitions of names build. -/
def ofDefinitions (definitions : List (String × String)) : Arena :=
  definitions.foldl (fun a d => (a.defineNamed d.1 d.2).2) empty

theorem ofDefinitions_append (definitions more : List (String × String)) :
    ofDefinitions (definitions ++ more) =
      more.foldl (fun a d => (a.defineNamed d.1 d.2).2) (ofDefinitions definitions) := foldl_append

/-- A slot that came up stays where it is. -/
theorem lookup_ofDefinitions_append (definitions more : List (String × String))
    (hid : (ofDefinitions definitions).lookup? name = some id) :
    (ofDefinitions (definitions ++ more)).lookup? name = some id := by
  rw [ofDefinitions_append]
  refine foldlRecOn (motive := fun a : Arena => a.lookup? name = some id) _ _ hid fun a ha d _ => ?_
  exact (a.extendsBut_defineNamed d.1 d.2).lookup_eq ha

/-- The last definition of a name that can be read. -/
def lastDefinition? (definitions : List (String × String)) (name : String) : Option String :=
  (definitions.filter fun d => d.1 = name ∧ Compiles d.2).getLast?.map Prod.snd

theorem lastDefinition?_append (definitions more : List (String × String)) (name : String) :
    lastDefinition? (definitions ++ more) name =
      (lastDefinition? more name).or (lastDefinition? definitions name) := by
  unfold lastDefinition?
  rw [filter_append, getLast?_append]
  cases (more.filter _).getLast? <;> rfl

theorem mem_of_lastDefinition? {definitions : List (String × String)}
    (h : lastDefinition? definitions name = some text) :
    (name, text) ∈ definitions ∧ Compiles text := by
  obtain ⟨⟨n, t⟩, hlast, rfl⟩ := Option.map_eq_some_iff.mp h
  obtain ⟨hmem, hkeep⟩ := mem_filter.mp (mem_of_getLast? hlast)
  obtain ⟨rfl, htext⟩ := of_decide_eq_true hkeep
  exact ⟨hmem, htext⟩

theorem lastDefinition?_eq_none_iff {definitions : List (String × String)} :
    lastDefinition? definitions name = none ↔
      ∀ text, (name, text) ∈ definitions → ¬Compiles text := by
  unfold lastDefinition?
  rw [Option.map_eq_none_iff, getLast?_eq_none_iff, filter_eq_nil_iff]
  constructor
  · intro h text hmem htext
    exact h (name, text) hmem (decide_eq_true ⟨rfl, htext⟩)
  · rintro h ⟨n, text⟩ hmem hkeep
    obtain ⟨rfl, htext⟩ := of_decide_eq_true hkeep
    exact h text hmem htext

/-- If the definitions of a name that can be read are the same, their order does not matter. -/
theorem lastDefinition?_eq_some_iff {definitions : List (String × String)}
    (hsame : ∀ t t', (name, t) ∈ definitions → Compiles t → (name, t') ∈ definitions →
      Compiles t' → t = t') :
    lastDefinition? definitions name = some text ↔
      (name, text) ∈ definitions ∧ Compiles text := by
  refine ⟨mem_of_lastDefinition?, fun ⟨hmem, htext⟩ => ?_⟩
  cases hlast : lastDefinition? definitions name with
  | none => exact absurd htext (lastDefinition?_eq_none_iff.mp hlast text hmem)
  | some t =>
    obtain ⟨hmem', ht⟩ := mem_of_lastDefinition? hlast
    rw [hsame t text hmem' ht hmem htext]

/-- The slots hold the last definitions that can be read. -/
theorem ledger_ofDefinitions (definitions : List (String × String)) :
    ∃ before, (ofDefinitions definitions).Ledger (lastDefinition? definitions) before := by
  induction definitions using reverseRecOn with
  | nil => exact ⟨fun _ => empty, ledger_empty _⟩
  | append_singleton definitions d ih =>
    obtain ⟨before, h⟩ := ih
    have hlast : lastDefinition? (definitions ++ [d]) = fun n =>
        if n = d.1 ∧ Compiles d.2 then some d.2 else lastDefinition? definitions n := by
      funext n
      rw [lastDefinition?_append]
      by_cases hd : d.1 = n ∧ Compiles d.2
      · rw [if_pos ⟨hd.1.symm, hd.2⟩]
        simp [lastDefinition?, hd]
      · rw [if_neg fun h => hd ⟨h.1.symm, h.2⟩]
        simp [lastDefinition?, hd]
    have harena : ofDefinitions (definitions ++ [d]) =
        ((ofDefinitions definitions).defineNamed d.1 d.2).2 := ofDefinitions_append _ _
    rw [hlast, harena]
    exact ⟨_, h.defineNamed d.1 d.2⟩

/-! ## The grammar of a slot -/

theorem FilledFrom.isFilled {before : Arena} (h : a.FilledFrom before id text) :
    a.isFilled id = true := by
  obtain ⟨root, hroot, hkind, -⟩ := h.root_copied
  unfold Arena.isFilled
  rw [hkind]
  simpa using kind_ne_placeholder_of_define hroot

theorem Ledger.isFilled_iff (h : a.Ledger text? before) (hid : a.lookup? name = some id) :
    a.isFilled id = true ↔ ∃ text, text? name = some text := by
  cases htext : text? name with
  | none =>
    have hnode := h.blank (not_not.mpr htext) hid
    simp [isFilled, hnode]
  | some text =>
    obtain ⟨id', hid', hfilled⟩ := h.filled htext
    cases hid.symm.trans hid'
    simpa using hfilled.isFilled

end Arena

namespace Definition

variable {b b' c c' a : Arena} {ps : Pairs}

/-- The nodes of a pair are made of pairs, or they refer to slots. -/
theorem Lockstep.made (h : Lockstep b b' ps c c') : ∀ p ∈ ps,
    ps.Make (c.node p.1).kind (c'.node p.2).kind ∨
      ∃ name target target', (c.node p.1).kind = .reference name target ∧
        (c'.node p.2).kind = .reference name target' := by
  have hcons {ps : Pairs} {a a' c c' : Arena} {n n' : Node} (hext : a.Extends c)
      (hext' : a'.Extends c') (hps : ∀ p ∈ ps, p.1 < a.size ∧ p.2 < a'.size)
      (ih : ∀ p ∈ ps, ps.Make (a.node p.1).kind (a'.node p.2).kind ∨
        ∃ name target target', (a.node p.1).kind = .reference name target ∧
          (a'.node p.2).kind = .reference name target')
      (hn : ps.Make n.kind n'.kind ∨ ∃ name target target', n.kind = .reference name target ∧
        n'.kind = .reference name target') :
      ∀ p ∈ (c.size, c'.size) :: ps,
        Pairs.Make ((c.size, c'.size) :: ps) ((c.push n).node p.1).kind
            ((c'.push n').node p.2).kind ∨
          ∃ name target target', ((c.push n).node p.1).kind = .reference name target ∧
            ((c'.push n').node p.2).kind = .reference name target' := by
    intro p hp
    rcases mem_cons.mp hp with rfl | hp
    · rw [Arena.node_push_self, Arena.node_push_self]
      exact hn.imp_left fun hmake => hmake.mono (subset_cons_self _ _)
    · obtain ⟨hlt, hlt'⟩ := hps p hp
      rw [(hext.trans (c.extends_push n)).node_eq hlt,
        (hext'.trans (c'.extends_push n')).node_eq hlt']
      exact (ih p hp).imp_left fun hmake => hmake.mono (subset_cons_self _ _)
  induction h with
  | start => simp
  | @push ps a a' kind kind' h raw hkind ih =>
    exact hcons (.refl a) (.refl a') (fun p hp => ⟨(h.new.2 p hp).lt, (h.new'.2 p hp).lt⟩) ih
      (.inl hkind)
  | @slot ps a a' h name ih =>
    intro p hp
    rw [(a.extends_slot name).node_eq (h.new.2 p hp).lt,
      (a'.extends_slot name).node_eq (h.new'.2 p hp).lt]
    exact ih p hp
  | @refer ps a a' h name raw ih =>
    exact hcons (a.extends_slot name) (a'.extends_slot name)
      (fun p hp => ⟨(h.new.2 p hp).lt, (h.new'.2 p hp).lt⟩) ih (.inr ⟨_, _, _, rfl, rfl⟩)
  | quantify h hmem hq ih =>
    intro p hp
    have hkind (a : Arena) (id j : NodeId) (q : Quantifier) :
        ((a.modify id fun n => { n with quantifier := q }).node j).kind = (a.node j).kind := by
      rw [Arena.node_modify]
      split <;> rfl
    rw [hkind, hkind]
    exact ih p hp

/-- Nodes that are pairs hold the same trees. -/
theorem exists_trees {ids ids' : List NodeId}
    (h : Forall₂ (fun id id' => ∃ t, a.Holds t id ∧ c'.Holds t id') ids ids') :
    ∃ ts, a.HoldAll ts ids ∧ c'.HoldAll ts ids' := by
  induction h with
  | nil => exact ⟨[], rfl, rfl⟩
  | cons hfirst hmore ih =>
    obtain ⟨t, ht, ht'⟩ := hfirst
    obtain ⟨ts, hts, hts'⟩ := ih
    exact ⟨t :: ts, ⟨_, _, rfl, ht, hts⟩, ⟨_, _, rfl, ht', hts'⟩⟩

/-- The nodes of a pair hold a tree, the same one. -/
theorem Lockstep.exists_tree (h : Lockstep b b' ps c c') (hc : c.Sound)
    (ha : ∀ p ∈ ps, a.node p.1 = c.node p.1) (p : NodeId × NodeId) (hp : p ∈ ps) :
    ∃ t, a.Holds t p.1 ∧ c'.Holds t p.2 := by
  obtain ⟨id, id'⟩ := p
  induction id using Nat.strongRecOn generalizing id' with
  | ind id ih =>
    have hnew := h.new.2 _ hp
    have hquantifier := (h.like hp).quantifier_eq
    have hbelow {ids ids' : List NodeId} (hids : ps.All ids ids')
        (hchildren : (c.node id).children = ids) :
        ∃ ts, a.HoldAll ts ids ∧ c'.HoldAll ts ids' := by
      have hall : Forall₂ (fun j j' => j ∈ ids ∧ (j, j') ∈ ps) ids ids' :=
        (forall₂_and_left _ _).mpr ⟨fun _ hj => hj, hids⟩
      refine exists_trees (hall.imp fun j j' hj => ih j ?_ j' hj.2)
      exact hc.child_older (hchildren ▸ hj.1) hnew.name_eq
    unfold Arena.Holds
    dsimp only at hquantifier ⊢
    rw [ha _ hp, ← hquantifier]
    rcases h.made _ hp with hmake | ⟨name, target, target', hkind, hkind'⟩
    · dsimp only at hmake
      unfold Node.children at hbelow
      generalize (c.node id).kind = kind at hmake hbelow ⊢
      generalize (c'.node id').kind = kind' at hmake ⊢
      cases hmake with
      | literal text => exact ⟨.literal text _, ⟨rfl, rfl⟩, rfl, rfl⟩
      | dataType hprimitive => exact ⟨.dataType _ _, ⟨rfl, rfl⟩, rfl, rfl⟩
      | function name hids =>
        obtain ⟨ts, hts, hts'⟩ := hbelow hids rfl
        exact ⟨.function name ts _, ⟨⟨_, rfl, hts⟩, rfl⟩, ⟨_, rfl, hts'⟩, rfl⟩
      | group g hne hids =>
        obtain ⟨ts, hts, hts'⟩ := hbelow hids (g.children_kind _)
        exact ⟨.group g ts _, ⟨⟨_, rfl, hts⟩, rfl⟩, ⟨_, rfl, hts'⟩, rfl⟩
    · rw [hkind, hkind']
      exact ⟨.reference name _, ⟨⟨target, rfl⟩, rfl⟩, ⟨target', rfl⟩, rfl⟩

end Definition

namespace Arena

/-- A node shows a definition: it holds the tree that the definition has when it is read alone. -/
def Shows (a : Arena) (id : NodeId) (text : String) : Prop :=
  ∃ root t, (empty.define text).1 = .ok root ∧ (empty.define text).2.Holds t root ∧ a.Holds t id

theorem FilledFrom.shows {a before : Arena} {id : NodeId} {text : String}
    (h : a.FilledFrom before id text) : a.Shows id text := by
  obtain ⟨root, hroot, hkind, hquantifier, -⟩ := h.root_copied
  obtain ⟨ps, hlock, ⟨e, herror, -⟩ | ⟨root₁, root₀, hroot₁, hroot₀, hmem⟩⟩ :=
    Definition.alike_define before empty text
  · rw [hroot] at herror
    cases herror
  · obtain rfl : root = root₁ := Except.ok.inj (hroot.symm.trans hroot₁)
    have hnodes (p : NodeId × NodeId) (hp : p ∈ ps) := h.node_eq (hlock.new.2 p hp)
    obtain ⟨t, ht, ht₀⟩ := hlock.exists_tree (h.sound.define text) hnodes _ hmem
    have hkept := hnodes _ hmem
    dsimp only at ht hkept
    unfold Holds at ht
    rw [hkept] at ht
    refine ⟨root₀, t, hroot₀, ht₀, ?_⟩
    unfold Holds
    rw [hkind, hquantifier]
    exact ht

/-- What shows a definition is written as the definition read alone. -/
theorem Shows.render_eq {a : Arena} {id root : NodeId} {text : String} (h : a.Shows id text)
    (hroot : (empty.define text).1 = .ok root) :
    a.render id = (empty.define text).2.render root := by
  obtain ⟨root', t, hroot', halone, ht⟩ := h
  cases hroot.symm.trans hroot'
  rw [ht.render_eq, halone.render_eq]

end Arena

end StyleGrammar

import StyleGrammar.Proofs.Reader.Success
import StyleGrammar.Value.Image

/-!
# The levels of blocks

Reading goes a level deeper into most blocks, but not into all: an image inside
another is read at the level of that one, and so are some functions that stand in
a fixed place of another.  `levels` counts as reading does.  Where all blocks
count it is the depth of the blocks.
-/

namespace StyleGrammar

namespace Component

/-- The functions that an image is written with. -/
def imageFunctions : List String :=
  ["url", "linear-gradient", "repeating-linear-gradient", "radial-gradient",
    "repeating-radial-gradient", "conic-gradient", "repeating-conic-gradient", "image-set",
    "cross-fade", "element", "paint"]

/-- Functions, and those directly inside them that are read at their level. -/
def uncountedFunctions : List (List String × List String) :=
  [(["image-set", "cross-fade", "symbols"], imageFunctions),
    (["image-set"], ["type"]),
    (["counter", "counters", "target-counter", "target-counters"], ["symbols"]),
    (["target-counter", "target-counters", "target-text"], ["attr", "url"])]

/-- Whether a block is read at the level of the one directly around it, by the tokens that open
them.  The brackets are those around the names of lines. -/
def uncounted (outer inner : Token) : Bool :=
  match outer, inner with
  | .function f, .function g =>
    uncountedFunctions.any fun entry =>
      entry.1.any (Reader.sameName f) && entry.2.any (Reader.sameName g)
  | .function f, .openSquare => Reader.sameName f "repeat"
  | _, _ => false

mutual

/-- The levels of blocks in a component.  Its own block is one unless the opener is `free`. -/
def levels (free : Token → Bool) : Component → Nat
  | token _ _ | blanks _ | comment _ => 0
  | block t _ content _ => levelsAll (uncounted t) content + if free t then 0 else 1

def levelsAll (free : Token → Bool) : List Component → Nat
  | [] => 0
  | k :: ks => max (levels free k) (levelsAll free ks)

end

variable {free : Token → Bool}

@[simp] theorem levelsAll_nil : levelsAll free [] = 0 := rfl

@[simp] theorem levelsAll_cons (k : Component) (ks : List Component) :
    levelsAll free (k :: ks) = max (k.levels free) (levelsAll free ks) := rfl

@[simp] theorem levels_token (t : Token) (l : Location) : (token t l).levels free = 0 := rfl

theorem levels_block (t : Token) (l stop : Location) (content : List Component) :
    (block t l content stop).levels free =
      levelsAll (uncounted t) content + if free t then 0 else 1 := rfl

@[simp] theorem levelsAll_append (ks ls : List Component) :
    levelsAll free (ks ++ ls) = max (levelsAll free ks) (levelsAll free ls) := by
  induction ks with
  | nil => simp
  | cons k ks ih => simp [ih, Nat.max_assoc]

theorem levels_of_isSpace {k : Component} (h : k.isSpace = true) : k.levels free = 0 := by
  cases k with
  | blanks | comment => rfl
  | token | block => cases h

theorem levelsAll_of_isSpace {ks : List Component} (h : ∀ k ∈ ks, k.isSpace = true) :
    levelsAll free ks = 0 := by
  induction ks with
  | nil => rfl
  | cons k ks ih =>
    obtain ⟨hk, hks⟩ := List.forall_mem_cons.mp h
    simp [levels_of_isSpace hk, ih hks]

/-- The blocks at the front are one level at most. -/
theorem levelsAll_le_succ (ks : List Component) :
    levelsAll free ks ≤ levelsAll (fun _ => true) ks + 1 := by
  induction ks with
  | nil => exact Nat.zero_le _
  | cons k ks ih =>
    have hk : k.levels free ≤ k.levels (fun _ => true) + 1 := by
      cases k with
      | token | blanks | comment => exact Nat.zero_le _
      | block t l content stop =>
        rw [levels_block, levels_block]
        split <;> omega
    simp only [levelsAll_cons]
    omega

/-! Where all blocks count. -/

mutual

/-- No block in a component is read at the level of the one around it. -/
def Counted (free : Token → Bool) : Component → Prop
  | token _ _ | blanks _ | comment _ => True
  | block t _ content _ => free t = false ∧ CountedAll (uncounted t) content

def CountedAll (free : Token → Bool) : List Component → Prop
  | [] => True
  | k :: ks => Counted free k ∧ CountedAll free ks

end

mutual

theorem levels_eq_depth {k : Component} {free : Token → Bool} (h : k.Counted free) :
    k.levels free = k.depth := by
  cases k with
  | token | blanks | comment => rfl
  | block t l content stop =>
    obtain ⟨ht, hcontent⟩ := h
    rw [levels_block, depth, levelsAll_eq_depthAll hcontent, ht]
    rfl

theorem levelsAll_eq_depthAll {ks : List Component} {free : Token → Bool}
    (h : CountedAll free ks) : levelsAll free ks = depthAll ks := by
  cases ks with
  | nil => rfl
  | cons k ks =>
    obtain ⟨hk, hks⟩ := h
    rw [levelsAll_cons, depthAll, levels_eq_depth hk, levelsAll_eq_depthAll hks]

end

end Component

end StyleGrammar

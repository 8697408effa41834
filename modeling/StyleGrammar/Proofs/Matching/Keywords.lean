import StyleGrammar.Proofs.Matching.Height

/-!
# Grammars of keywords

Trees of combinators over keywords.  Where no two of the keywords are the same
but for case, a value tells which child of a node it belongs to: at most one of
them takes it, and a word that begins with it is a word of that child.
-/

namespace StyleGrammar

/-- The text of a literal. -/
def NodeKind.literal? : NodeKind → Option String
  | .literal text => some text
  | _ => none

namespace Matcher

variable {V : Type}

/-- A keyword with any quantifier.  A comma would take the separators of a list for itself. -/
structure KeywordLeaf (m : Matcher) (id : NodeId) (text : String) : Prop where
  kind_eq : m.kind id = .literal text
  text_ne : text ≠ ","
  allows_zero : (m.quantifier id).allows 0 = true

/-- A combinator of some children, which stands once or not at all. -/
structure Combinator (m : Matcher) (id : NodeId) (cs : List NodeId) : Prop where
  kind_eq : m.kind id = .sequence cs ∨ m.kind id = .alternation cs ∨
    m.kind id = .unordered cs ∨ m.kind id = .subset cs
  children_ne : cs ≠ []
  quantifier_eq : m.quantifier id = .one ∨ m.quantifier id = .between 0 (some 1)

/-- A tree of combinators over keywords with no longer path than so many steps. -/
inductive KeywordTree (m : Matcher) : (height : Nat) → NodeId → Prop
  | leaf {n : Nat} {id : NodeId} {text : String} (hleaf : m.KeywordLeaf id text) :
      KeywordTree m n id
  | combinator {n : Nat} {id : NodeId} {cs : List NodeId} (hcombines : m.Combinator id cs)
      (hchildren : ∀ c ∈ cs, KeywordTree m n c) : KeywordTree m (n + 1) id

/-- The keywords of the tree at a node, from left to right. -/
def keywords (m : Matcher) : (height : Nat) → NodeId → List String
  | 0, id => (m.kind id).literal?.toList
  | n + 1, id => (m.kind id).literal?.toList ++ (m.below id).flatMap (keywords m n)

/-- No two texts are the same but for the case of their letters. -/
def Distinct (texts : List String) : Prop :=
  texts.Pairwise fun a b => Reader.sameName a b = false

variable {m : Matcher} {v : Form V}

theorem Combinator.below_eq {id : NodeId} {cs : List NodeId} (h : m.Combinator id cs) :
    m.below id = cs :=
  below_eq_children h.kind_eq

theorem Combinator.literal?_eq {id : NodeId} {cs : List NodeId} (h : m.Combinator id cs) :
    (m.kind id).literal? = none := by
  rcases h.kind_eq with hkind | hkind | hkind | hkind <;> rw [hkind] <;> rfl

theorem Combinator.allows_iff {id : NodeId} {cs : List NodeId} (h : m.Combinator id cs)
    {count : Nat} : (m.quantifier id).allows count = true ↔ count = 0 := by
  rcases h.quantifier_eq with hq | hq <;> rw [hq] <;>
    simp [Quantifier.allows, Quantifier.one, Quantifier.between]

theorem Combinator.separator?_eq {id : NodeId} {cs : List NodeId} (h : m.Combinator id cs) :
    (m.quantifier id).separator? = none := by
  rcases h.quantifier_eq with hq | hq <;> rw [hq] <;> rfl

theorem Combinator.required_eq {id : NodeId} {cs : List NodeId} (h : m.Combinator id cs) :
    (m.quantifier id).required = false := by
  rcases h.quantifier_eq with hq | hq <;> rw [hq] <;> rfl

theorem KeywordLeaf.below_eq {id : NodeId} {text : String} (h : m.KeywordLeaf id text) :
    m.below id = [] := by
  unfold below
  rw [h.kind_eq]

theorem KeywordTree.heightAtMost {n : Nat} {id : NodeId} (htree : m.KeywordTree n id) :
    m.HeightAtMost n id := by
  induction htree with
  | @leaf n id text hleaf =>
    cases n with
    | zero => exact hleaf.below_eq
    | succ n =>
      intro c hc
      rw [hleaf.below_eq] at hc
      cases hc
  | combinator hcombines hchildren ih =>
    intro c hc
    rw [hcombines.below_eq] at hc
    exact ih c hc

theorem KeywordLeaf.keywords_eq {n : Nat} {id : NodeId} {text : String}
    (h : m.KeywordLeaf id text) : m.keywords n id = [text] := by
  cases n <;> simp [keywords, h.kind_eq, h.below_eq, NodeKind.literal?]

theorem Combinator.keywords_eq {n : Nat} {id : NodeId} {cs : List NodeId}
    (h : m.Combinator id cs) : m.keywords (n + 1) id = cs.flatMap (m.keywords n) := by
  simp [keywords, h.literal?_eq, h.below_eq]

theorem KeywordTree.comma_notMem {n : Nat} {id : NodeId} (htree : m.KeywordTree n id) :
    "," ∉ m.keywords n id := by
  induction htree with
  | leaf hleaf =>
    rw [hleaf.keywords_eq, List.mem_singleton]
    exact hleaf.text_ne.symm
  | combinator hcombines hchildren ih =>
    rw [hcombines.keywords_eq, List.mem_flatMap]
    rintro ⟨c, hc, hmem⟩
    exact ih c hc hmem

/-! ## Values of keywords -/

theorem sameName_self (a : String) : Reader.sameName a a = true := by
  simp [Reader.sameName]

/-- The literals that take one value are the same but for case. -/
theorem sameName_of_isLiteral {a b : String} (ha : isLiteral v a = true)
    (hb : isLiteral v b = true) : Reader.sameName a b = true := by
  by_cases hdelim : ∃ c, v = .leaf (.delimiter c)
  · obtain ⟨c, rfl⟩ := hdelim
    simp only [isLiteral, decide_eq_true_eq] at ha hb
    rw [ha, hb]
    exact sameName_self _
  · rw [not_exists] at hdelim
    rw [isLiteral_of_ne_delimiter hdelim, Option.any_eq_true] at ha hb
    obtain ⟨i, hi, ha⟩ := ha
    obtain ⟨j, hj, hb⟩ := hb
    rw [hi, Option.some.injEq] at hj
    subst hj
    simp only [Reader.sameName, beq_iff_eq] at ha hb ⊢
    rw [ha, hb]

/-- Whether one of some keywords takes a value. -/
def Admits (texts : List String) (v : Form V) : Prop := ∃ text ∈ texts, isLiteral v text = true

theorem Admits.ne_comma {texts : List String} (h : Admits texts v) (hcomma : "," ∉ texts) :
    v ≠ .leaf (.delimiter ',') := by
  rintro rfl
  obtain ⟨text, hmem, htakes⟩ := h
  simp only [isLiteral, decide_eq_true_eq] at htakes
  rw [htakes] at hmem
  exact hcomma hmem

theorem isLiteral_keyword (text : String) :
    isLiteral (V := V) (.leaf (.keyword ⟨text⟩)) text = true := by
  simp [isLiteral, Form.ident?, sameName_self]

theorem content_leaf_iff {id : NodeId} {text : String} (h : m.KeywordLeaf id text)
    {w : List (Form V)} : m.Content id w ↔ ∃ v, w = [v] ∧ isLiteral v text = true := by
  rw [content_iff]
  simp only [takesWhole, h.kind_eq, Parts, NodeKind.Arranges, false_and, exists_false, or_false]

theorem takesWhole_combinator {id : NodeId} {cs : List NodeId} (h : m.Combinator id cs) :
    m.takesWhole id v = false := by
  unfold takesWhole
  rcases h.kind_eq with hkind | hkind | hkind | hkind <;> rw [hkind]

theorem parts_of_content {id : NodeId} {cs : List NodeId} (h : m.Combinator id cs)
    {w : List (Form V)} (hcontent : m.Content id w) : m.Parts (m.kind id).Arranges w := by
  rcases content_iff.mp hcontent with ⟨v, -, htakes⟩ | hparts
  · rw [takesWhole_combinator h] at htakes
    cases htakes
  · exact hparts

theorem Combinator.subset_of_arranges {id : NodeId} {cs ids : List NodeId}
    (h : m.Combinator id cs) (harranges : (m.kind id).Arranges ids) : ids ⊆ cs := by
  rcases h.kind_eq with hkind | hkind | hkind | hkind <;> rw [hkind] at harranges
  · cases harranges
    exact List.Subset.refl _
  · obtain ⟨c, hc, rfl⟩ := harranges
    simpa using hc
  · exact List.Perm.subset harranges
  · exact harranges.2.subset

/-! ## Which child a value belongs to -/

/-- No keyword of one child is one of the other. -/
def Apart (m : Matcher) (n : Nat) (c c' : NodeId) : Prop :=
  ∀ a ∈ m.keywords n c, ∀ b ∈ m.keywords n c', Reader.sameName a b = false

theorem Apart.symm {n : Nat} {c c' : NodeId} (h : m.Apart n c c') : m.Apart n c' c := by
  intro a ha b hb
  have hab := h b hb a ha
  simp only [Reader.sameName, beq_eq_false_iff_ne] at hab ⊢
  exact hab.symm

theorem Apart.not_admits {n : Nat} {c c' : NodeId} (h : m.Apart n c c')
    (hc : Admits (m.keywords n c) v) : ¬ Admits (m.keywords n c') v := by
  rintro ⟨b, hb, htakes'⟩
  obtain ⟨a, ha, htakes⟩ := hc
  have hab := h a ha b hb
  rw [sameName_of_isLiteral htakes htakes'] at hab
  cases hab

theorem Combinator.distinct {n : Nat} {id : NodeId} {cs : List NodeId} (h : m.Combinator id cs)
    (hdistinct : Distinct (m.keywords (n + 1) id)) :
    (∀ c ∈ cs, Distinct (m.keywords n c)) ∧ cs.Pairwise (m.Apart n) := by
  rw [h.keywords_eq] at hdistinct
  exact List.pairwise_flatMap.mp hdistinct

theorem apart_of_pairwise {n i j : Nat} {cs : List NodeId} {c c' : NodeId}
    (h : cs.Pairwise (m.Apart n)) (hc : cs[i]? = some c) (hc' : cs[j]? = some c') (hij : i ≠ j) :
    m.Apart n c c' := by
  obtain ⟨hi, rfl⟩ := List.getElem?_eq_some_iff.mp hc
  obtain ⟨hj, rfl⟩ := List.getElem?_eq_some_iff.mp hc'
  rcases Nat.lt_or_gt_of_ne hij with hlt | hgt
  · exact List.pairwise_iff_getElem.mp h i j hi hj hlt
  · exact (List.pairwise_iff_getElem.mp h j i hj hi hgt).symm

/-- A word that is not empty begins with one of the keywords. -/
theorem KeywordTree.admits_of_word {n : Nat} {id : NodeId} (htree : m.KeywordTree n id)
    {w : List (Form V)} (hword : m.Word id (v :: w)) : Admits (m.keywords n id) v := by
  induction htree generalizing w with
  | leaf hleaf =>
    obtain ⟨w', u, hu, hne, hcontent⟩ := hword.exists_content
    obtain ⟨v', rfl, htakes⟩ := (content_leaf_iff hleaf).mp hcontent
    obtain ⟨rfl, -⟩ := List.cons.inj hu
    rw [hleaf.keywords_eq]
    exact ⟨_, List.mem_singleton_self _, htakes⟩
  | combinator hcombines hchildren ih =>
    obtain ⟨w', u, hu, hne, hcontent⟩ := hword.exists_content
    cases w' with
    | nil => exact absurd rfl hne
    | cons v' w' =>
      obtain ⟨rfl, -⟩ := List.cons.inj hu
      obtain ⟨front, c, behind, a, b, harranges, -, hfirst, -⟩ :=
        (parts_of_content hcombines hcontent).exists_first
      have hc := hcombines.subset_of_arranges harranges (by simp : c ∈ front ++ c :: behind)
      obtain ⟨text, hmem, htakes⟩ := ih c hc hfirst
      rw [hcombines.keywords_eq]
      exact ⟨text, List.mem_flatMap.mpr ⟨c, hc, hmem⟩, htakes⟩

/-! ## Every match can be completed -/

/-- From every number of repetitions there is a way to the end. -/
theorem exists_repeats {q : Quantifier} (hproper : q.Proper) {content : List (Form V) → Prop}
    {w : List (Form V)} (hcontent : content w) (hempty : w = [] → q.required = false)
    (count : Nat) : ∃ u, Repeats q content count false u := by
  by_cases hmin : q.min ≤ count
  · exact ⟨[], .stop (.inl hmin)⟩
  · by_cases hw : w = []
    · exact ⟨[], .stop (.inr ⟨hempty hw, hw ▸ hcontent⟩)⟩
    · have hallows : q.allows count = true := by
        rw [← Quantifier.fits_succ_iff]
        intro max hmax
        exact Nat.le_trans (Nat.lt_of_not_le hmin) (hproper.min_le max hmax)
      obtain ⟨u, hrest⟩ := exists_repeats hproper hcontent hempty (count + 1)
      cases hsep : q.separator? with
      | none => exact ⟨w ++ u, .again (.inl hsep) hallows hw hcontent hrest⟩
      | some c =>
        rcases Nat.eq_zero_or_pos count with hzero | hpos
        · exact ⟨w ++ u, .again (.inr (.inl hzero)) hallows hw hcontent hrest⟩
        · exact ⟨_, .separate hsep hpos (.again (.inr (.inr rfl)) hallows hw hcontent hrest)⟩
termination_by q.min - count

theorem exists_parts {ids : List NodeId} (hwords : ∀ c ∈ ids, ∃ w : List (Form V), m.Word c w) :
    ∃ u : List (Form V), m.Parts (· = ids) u := by
  induction ids with
  | nil => exact ⟨[], [], rfl, by simp, rfl⟩
  | cons c ids ih =>
    obtain ⟨w, hword⟩ := hwords c List.mem_cons_self
    obtain ⟨u, hparts⟩ := ih fun d hd => hwords d (List.mem_cons_of_mem _ hd)
    exact ⟨w ++ u, hparts.cons hword fun ids hids => by rw [hids]⟩

theorem KeywordTree.exists_follow (hproper : ∀ id, (m.quantifier id).Proper) {n : Nat}
    {id : NodeId} (htree : m.KeywordTree n id) (count : Nat) :
    ∃ u : List (Form V), Repeats (m.quantifier id) (m.Content id) count false u := by
  induction htree generalizing count with
  | leaf hleaf =>
    have hcontent := (content_leaf_iff (V := V) hleaf).mpr ⟨_, rfl, isLiteral_keyword _⟩
    exact exists_repeats (hproper _) hcontent (by simp) count
  | @combinator n id cs hcombines hchildren ih =>
    have harranges : ∃ ids ⊆ cs, (m.kind id).Arranges ids := by
      obtain ⟨c, hc⟩ := List.exists_mem_of_ne_nil cs hcombines.children_ne
      rcases hcombines.kind_eq with hkind | hkind | hkind | hkind <;> rw [hkind]
      · exact ⟨cs, List.Subset.refl _, rfl⟩
      · exact ⟨[c], by simpa using hc, c, hc, rfl⟩
      · exact ⟨cs, List.Subset.refl _, List.Perm.refl _⟩
      · exact ⟨cs, List.Subset.refl _, hcombines.children_ne, List.Subperm.refl _⟩
    obtain ⟨ids, hsub, harranges⟩ := harranges
    obtain ⟨u, hparts⟩ := exists_parts fun c hc => by
      obtain ⟨w, hrest⟩ := ih c (hsub hc) 0
      exact ⟨w, word_iff_repeats.mpr hrest⟩
    have hcontent : m.Content id u := content_of_parts (hparts.mono fun ids' h => h ▸ harranges)
    exact exists_repeats (hproper _) hcontent (fun _ => hcombines.required_eq) count

theorem KeywordTree.exists_word (hproper : ∀ id, (m.quantifier id).Proper) {n : Nat} {id : NodeId}
    (htree : m.KeywordTree n id) : ∃ w : List (Form V), m.Word id w := by
  obtain ⟨w, hrest⟩ := htree.exists_follow hproper 0
  exact ⟨w, word_iff_repeats.mpr hrest⟩

theorem exists_repeatCompletes {levels : Nat} {valid : Progress → Prop} {id : NodeId}
    {cs : List NodeId} {r : Repeat} (hcombines : m.Combinator id cs)
    (hvalid : m.RepeatValid levels valid id r)
    (hwords : ∀ c ∈ cs, ∃ w : List (Form V), m.Word c w)
    (hchildren : ∀ p, valid p → p.node ∈ cs → ∃ u : List (Form V), m.Completes p u) :
    ∃ u : List (Form V), m.RepeatCompletes id r u := by
  have hbelow := hvalid.below
  rw [hcombines.below_eq] at hbelow
  have hcs := children_of_kind hcombines.kind_eq
  cases r with
  | sequence index child =>
    obtain ⟨_, -, -, hvalid, hmem⟩ := hbelow
    obtain ⟨a, hchild⟩ := hchildren child hvalid hmem
    have hdrop (c : NodeId) (hc : c ∈ (m.children id).drop (index + 1)) :
        ∃ w : List (Form V), m.Word c w := by
      rw [hcs] at hc
      exact hwords c (List.mem_of_mem_drop hc)
    obtain ⟨b, hbehind⟩ := exists_parts hdrop
    exact ⟨a ++ b, .sequence hchild hbehind⟩
  | choice index child =>
    obtain ⟨_, -, -, hvalid, hmem⟩ := hbelow
    obtain ⟨u, hchild⟩ := hchildren child hvalid hmem
    exact ⟨u, .choice hchild⟩
  | group begun active =>
    obtain ⟨_, -, hgroup⟩ := hbelow
    obtain ⟨state, hactive⟩ := hgroup.active_begun
    obtain ⟨hvalid, hmem⟩ := hgroup.valid hactive
    obtain ⟨a, hstate⟩ := hchildren state hvalid hmem
    have hunbegun (c : NodeId) (hc : c ∈ unbegun begun (m.children id)) :
        ∃ w : List (Form V), m.Word c w := by
      obtain ⟨i, -, hi⟩ := mem_unbegun_iff.mp hc
      rw [hcs] at hi
      exact hwords c (List.mem_of_getElem? hi)
    obtain ⟨b, hleft⟩ := exists_parts hunbegun
    refine ⟨a ++ b, .group hactive hstate (hleft.mono ?_)⟩
    rintro _ rfl
    unfold LeftArranges
    split
    · exact List.Perm.refl _
    · exact List.Subperm.refl _
  | reference target =>
    obtain ⟨name, hkind, -⟩ := hvalid
    rcases hcombines.kind_eq with h | h | h | h <;> rw [hkind] at h <;> cases h

theorem KeywordTree.exists_completes (hproper : ∀ id, (m.quantifier id).Proper) {n levels : Nat}
    {id : NodeId} {p : Progress} (htree : m.KeywordTree n id) (hnode : p.node = id)
    (hvalid : m.ValidWithin levels p) :
    ∃ u : List (Form V), m.Completes p u := by
  induction htree generalizing levels p with
  | @leaf n id text hleaf =>
    obtain ⟨id', count, phase⟩ := p
    obtain rfl : id' = id := hnode
    cases levels with
    | zero => cases hvalid
    | succ k =>
      replace hvalid := validWithin_succ.mp hvalid
      have hcontent := (content_leaf_iff (V := V) hleaf).mpr ⟨_, rfl, isLiteral_keyword _⟩
      cases phase with
      | between =>
        obtain ⟨u, hrest⟩ :=
          (KeywordTree.leaf hleaf : m.KeywordTree 0 id').exists_follow hproper count
        exact ⟨u, .between hrest⟩
      | separated =>
        obtain ⟨u, hrest⟩ :=
          (KeywordTree.leaf hleaf : m.KeywordTree 0 id').exists_follow hproper (count + 1)
        exact ⟨_, .separated (.again (.inr (.inr rfl)) hvalid.2.1 (by simp) hcontent hrest)⟩
      | within r =>
        obtain ⟨child, -, hbelow⟩ := hvalid.2.2.below.exists_child
        rw [hleaf.below_eq] at hbelow
        cases hbelow
  | @combinator n id cs hcombines hchildren ih =>
    obtain ⟨id', count, phase⟩ := p
    obtain rfl : id' = id := hnode
    cases levels with
    | zero => cases hvalid
    | succ k =>
      replace hvalid := validWithin_succ.mp hvalid
      have htree := KeywordTree.combinator hcombines hchildren
      cases phase with
      | between =>
        obtain ⟨u, hrest⟩ := htree.exists_follow hproper count
        exact ⟨u, .between hrest⟩
      | separated =>
        have hsep := hvalid.2.2
        rw [hcombines.separator?_eq] at hsep
        cases hsep
      | within r =>
        obtain ⟨a, hrepeat⟩ := exists_repeatCompletes (V := V) hcombines hvalid.2.2
          (fun c hc => (hchildren c hc).exists_word hproper)
          (fun p hp hmem => ih p.node hmem rfl hp)
        obtain ⟨b, hrest⟩ := htree.exists_follow hproper (count + 1)
        exact ⟨a ++ b, .within hrepeat hrest⟩

end Matcher

end StyleGrammar

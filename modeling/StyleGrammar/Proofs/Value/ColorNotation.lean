import StyleGrammar.Proofs.Reader.Left
import StyleGrammar.Proofs.Value.Heads

/-!
# The notations of color functions

The channels of a color stand one behind the other, and the opacity behind a slash;
or there are commas between all of them.  Both are read as the same channels.
-/

namespace StyleGrammar

open Reader Component

variable {V : Type} [Term V] {good : V → Prop}

/-! Channels. -/

/-- The tokens that channels begin with. -/
def beginsChannel : Token → Bool
  | .ident _ => true
  | t => beginsMeasure t

theorem wants_name (name : String) :
    Wants (fun t => ∃ n, t = .ident n ∧ n.toLower = name.toLower) (keyword name) := by
  refine Wants.expect fun t ht => ?_
  cases t with
  | ident n =>
    refine ⟨n, rfl, ?_⟩
    by_contra hn
    simp [sameName, hn] at ht
  | _ => exact absurd rfl ht

namespace ColorChannel

theorem wants_read : Wants (beginsChannel · = true) (read : Reader (ColorChannel V)) := by
  have hmeasure {t : Token} (h : beginsMeasure t = true) : beginsChannel t = true := by
    cases t <;> first | exact h | cases h
  refine .orElse ?_ (.orElse ?_ (Wants.expect fun t ht => ?_))
  · exact (Measure.wants_math.mono fun _ => hmeasure).map _
  · refine (Wants.expect fun t ht => ?_).map _
    exact hmeasure (Dimension.beginsMeasure_of_ofToken? ht).1
  · cases t <;> first | rfl | exact absurd rfl ht

theorem atHead_read (hV : Lawful V good) :
    AtHead (fun _ => True) (read : Reader (ColorChannel V)) := by
  intro r r'
  refine .orElse ?_ (.orElse ?_ (atHead_expect _ r r'))
  · exact ((MathFunction.steadyHead_read hV).atHead r r').map fun _ _ => trivial
  · exact (atHead_expect Dimension.ofToken? r r').map fun _ _ => trivial

variable {P Q : Cursor → Prop} {c : ColorChannel V}

theorem fails_comma (h : Takes P Q c read) : Fails P comma :=
  wants_read.fails_expect (fun t ht => by cases t <;> first | rfl | cases ht) h

theorem fails_slash (h : Takes P Q c read) : Fails P (delim '/') :=
  wants_read.fails_expect (fun t ht => by cases t <;> first | rfl | cases ht) h

/-- A channel of one identifier. -/
theorem takes_keyword {n : Nat} {ls : List Component} {name : String} :
    Takes (Ahead n (.token (.ident name) .start :: ls)) (Stand n ls)
      (keyword name.toLower : ColorChannel V) read := by
  have hmath : Fails (Ahead n (.token (.ident name) .start :: ls))
      (read : Reader (MathFunction V)) :=
    Measure.wants_math.fails_token (by simp [beginsMeasure])
  have hangle : Fails (Ahead n (.token (.ident name) .start :: ls)) (read : Reader Angle) :=
    fails_token (f := Dimension.ofToken?) rfl
  exact (hmath.map _).orElse ((hangle.map _).orElse (takes_token rfl))

/-- The channel that is read where an identifier stands. -/
theorem eq_keyword {d d' e : Cursor} {name : String} (hread : read d = .ok (c, d'))
    (hnext : d.next = .ok (.ident name, e)) : c = keyword name.toLower := by
  rcases of_orElse hread with h | h
  · obtain ⟨f, hf, -⟩ := of_map h
    obtain ⟨t, e', ht, hbegins⟩ := Measure.wants_math _ _ hf
    rw [hnext] at ht
    cases ht
    cases hbegins
  · rcases of_orElse h with h | h
    · obtain ⟨a, ha, -⟩ := of_map h
      have hangle : expect Dimension.ofToken? d = .ok (a, d') := ha
      rw [expect_of_next hnext] at hangle
      cases hangle
    · rw [expect_of_next hnext] at h
      cases h
      rfl

/-- A keyword is read from an identifier. -/
theorem of_keyword {d d' : Cursor} {name : String}
    (hread : read d = .ok ((keyword name : ColorChannel V), d')) :
    ∃ n, d.next = .ok (.ident n, d') ∧ name = n.toLower := by
  rcases of_orElse hread with h | h
  · obtain ⟨f, -, hf⟩ := of_map h
    cases hf
  · rcases of_orElse h with h | h
    · obtain ⟨a, -, ha⟩ := of_map h
      cases ha
    · obtain ⟨t, hnext, ht⟩ := of_expect h
      cases t <;> cases ht
      exact ⟨_, hnext, rfl⟩

/-- Where another channel stands, no color precedes it. -/
theorem fails_from (h : Takes P Q c read) (hne : c ≠ keyword "from") :
    Fails P (Reader.keyword "from") := by
  intro d hd
  obtain ⟨d', hread, -⟩ := h d hd
  cases hfrom : Reader.keyword "from" d with
  | error e => exact ⟨e, rfl⟩
  | ok x =>
    obtain ⟨t, e, hnext, name, rfl, hname⟩ := wants_name "from" d x hfrom
    refine absurd ?_ hne
    have hlower : "from".toLower = "from" := toLower_eq_self (by decide)
    rw [eq_keyword hread hnext, hname, hlower]

end ColorChannel

/-! Channels between blanks, and between commas. -/

namespace Color

/-- A run over the channels ends, maybe with an opacity, or reads a channel and goes on.  The first
channel is read at once. -/
theorem of_readChannels {count : Nat} {s s' : Channels V} {c c' : Cursor}
    (h : readChannels (count + 1) s c = .ok (s', c')) :
    s'.channels = s.channels ∨ ∃ x d d' legacy, read d = .ok (x, d') ∧ (s.channels = [] → d = c) ∧
      readChannels count { s with channels := s.channels ++ [x], legacy } d' = .ok (s', c') := by
  have halpha {t : Channels V} {d : Cursor} (ht : t.channels = s.channels)
      (h : (do return { t with alpha? := some (← (read : Reader (ColorChannel V))) }) d =
        .ok (s', c')) :
      s'.channels = s.channels := by
    obtain ⟨a, d', -, hpure⟩ := of_bind h
    cases hpure
    exact ht
  have hnext {d : Cursor} {legacy : Bool} (hd : s.channels = [] → d = c) (h : (do
        let x : ColorChannel V ← read
        readChannels count { s with channels := s.channels ++ [x], legacy }) d = .ok (s', c')) :
      ∃ x d d' legacy, read d = .ok (x, d') ∧ (s.channels = [] → d = c) ∧
        readChannels count { s with channels := s.channels ++ [x], legacy } d' = .ok (s', c') := by
    obtain ⟨x, d', hread, hrest⟩ := of_bind h
    exact ⟨x, d, d', legacy, hread, hd, hrest⟩
  obtain ⟨ended, c₁, hended, h⟩ := of_bind h
  cases hended
  by_cases hend : c.atEnd = true
  · rw [if_pos hend] at h
    cases h
    exact .inl rfl
  rw [if_neg hend] at h
  by_cases hlater : (!s.channels.isEmpty) = true
  · have hlate {d : Cursor} (hnil : s.channels = []) : d = c := by simp [hnil] at hlater
    rw [if_pos hlater] at h
    obtain ⟨slash, c₂, -, h⟩ := of_bind h
    cases slash with
    | true => exact .inl (halpha rfl h)
    | false =>
      simp only [Bool.false_eq_true, if_false] at h
      split at h
      · obtain ⟨found, c₃, -, h⟩ := of_bind h
        cases found with
        | true =>
          simp only [if_true] at h
          split at h
          · exact .inl (halpha (t := { s with legacy := true }) rfl h)
          · exact .inr (hnext hlate h)
        | false =>
          simp only [Bool.false_eq_true, if_false] at h
          split at h
          · cases h
          · exact .inr (hnext hlate h)
      · exact .inr (hnext hlate h)
  · rw [if_neg hlater] at h
    simp only [Bool.not_eq_true] at hlater
    simp only [hlater, Bool.false_and, Bool.false_eq_true, if_false] at h
    exact .inr (hnext (fun _ => rfl) h)

theorem exists_channels {count : Nat} {s s' : Channels V} {c c' : Cursor}
    (h : readChannels count s c = .ok (s', c')) : ∃ cs, s'.channels = s.channels ++ cs := by
  induction count generalizing s c with
  | zero =>
    cases h
    exact ⟨[], (List.append_nil _).symm⟩
  | succ count ih =>
    rcases of_readChannels h with heq | ⟨x, d, d', legacy, -, -, hrest⟩
    · exact ⟨[], by rw [heq, List.append_nil]⟩
    · obtain ⟨cs, hcs⟩ := ih hrest
      exact ⟨x :: cs, by rw [hcs, List.append_assoc]; rfl⟩

/-- In front of the arguments of a color function that starts from no color, `from` does not
stand. -/
theorem FunctionGood.notFrom {f : ColorFunction V} (h : FunctionGood f) (hnone : f.origin? = none) :
    (f.space = .color ∧ ∃ n, f.predefined? = some n ∧ n ≠ "from") ∨
      (f.space ≠ .color ∧ f.predefined? = none ∧
        ∃ x xs, f.channels = x :: xs ∧ x ≠ .keyword "from") := by
  obtain ⟨inner, c, c', hread⟩ := h.read
  obtain ⟨-, hlength, c₁, c₂, s, horigin, hspace, hchannels, hs⟩ := of_readArguments hread
  obtain ⟨rfl, e, hfails⟩ := horigin hnone
  have hlower : "from".toLower = "from" := toLower_eq_self (by decide)
  have hident {n : String} {d : Cursor} (hnext : c₁.next = .ok (.ident n, d)) :
      n.toLower ≠ "from" := by
    intro hn
    have hfrom : keyword "from" c₁ = .ok ((), d) := by
      rw [keyword, expect_of_next hnext]
      simp [sameName, hn, hlower]
    rw [hfails] at hfrom
    cases hfrom
  rcases hspace with ⟨hcolor, n, hn, hpredefined⟩ | ⟨hcolor, hpredefined, rfl⟩
  · obtain ⟨t, hnext, ht⟩ := of_expect hn
    cases t <;> cases ht
    exact .inl ⟨hcolor, _, hpredefined, hident hnext⟩
  · refine .inr ⟨hcolor, hpredefined, ?_⟩
    rcases of_readChannels hchannels with heq | ⟨x, d, d', legacy, hx, hd, hrest⟩
    · rw [hs, heq] at hlength
      cases hlength
    · obtain ⟨cs, hcs⟩ := exists_channels hrest
      refine ⟨x, cs, by rw [hs, hcs]; rfl, ?_⟩
      rintro rfl
      rw [hd rfl] at hx
      obtain ⟨n, hnext, hn⟩ := ColorChannel.of_keyword hx
      exact hident hnext hn.symm

/-- The component of an opacity, behind a slash. -/
def AlphaFrom (n : Nat) : Option (ColorChannel V) → List Component → Prop
  | none, ks => ks = []
  | some a, ks => ∃ k, ks = [.token (.delim '/') .start, k] ∧ ReadAt n a k

section Steps

variable {n count : Nat} {k : Component} {ls : List Component} {s s' : Channels V}
    {c : ColorChannel V}
  {R : Cursor → Prop}

theorem takes_channelsEnd : Takes (Left n []) (Left n []) s (readChannels (count + 1) s) :=
  takes_atEnd_left.bind (.pure s)

theorem takes_delim {c : Char} :
    Takes (Left n (.token (.delim c) .start :: ls)) (Left n ls) () (delim c) :=
  takes_left (by simp)

omit [Term V] in
theorem takes_word (name : String) :
    Takes (Left n (.token (.ident name) .start :: ls)) (Left n ls) () (keyword name) :=
  takes_left (by simp [sameName])

theorem takes_comma : Takes (Left n (.token .comma .start :: ls)) (Left n ls) () comma :=
  takes_left (by simp)

/-- An opacity behind a slash. -/
theorem takes_slashAlpha (hs : s.channels ≠ []) (ha : ReadAt n c k) :
    Takes (Left n [.token (.delim '/') .start, k]) (Left n []) { s with alpha? := some c }
      (readChannels (count + 1) s) := by
  have hlater : (!s.channels.isEmpty) = true := by simpa using hs
  refine takes_notAtEnd_left.bind ?_
  simp only [Bool.false_eq_true, if_false, hlater, if_true]
  exact takes_delim.succeeds.bind ((Takes.left ha).bind (.pure _))

omit [Term V] in
/-- Something that is looked for under a condition, where it is not. -/
theorem takes_unlessFound {α : Type} {P R : Cursor → Prop} {a : α} {b : Prop} [Decidable b]
    {q : Reader Bool} {p p' : Reader α} (hq : Takes P P false q) (h : Takes P R a p) :
    Takes P R a (if b then q >>= fun found => if found = true then p' else p else p) := by
  split
  · exact hq.bind h
  · exact h

/-- A channel with no comma before it. -/
theorem takes_spaced (hs : s.legacy = false) (hc : ReadAt n c k)
    (h : Takes (Left n ls) R s' (readChannels count { s with channels := s.channels ++ [c] })) :
    Takes (Left n (k :: ls)) R s' (readChannels (count + 1) s) := by
  have hread : Takes (Left n (k :: ls)) (Left n ls) c read := Takes.left hc
  refine takes_notAtEnd_left.bind ?_
  simp only [Bool.false_eq_true, if_false, hs]
  refine takes_unlessFound (ColorChannel.fails_slash hread).succeeds ?_
  refine takes_unlessFound (ColorChannel.fails_comma hread).succeeds ?_
  rw [← hs]
  exact hread.bind h

/-- A channel with a comma before it. -/
theorem takes_behindComma (hs : s.channels ≠ []) (hlegacy : s.legacy = true ∨ s.channels.length = 1)
    (hlength : s.channels.length ≠ 3) (hc : ReadAt n c k)
    (h : Takes (Left n ls) R s'
      (readChannels count { s with channels := s.channels ++ [c], legacy := true })) :
    Takes (Left n (.token .comma .start :: k :: ls)) R s' (readChannels (count + 1) s) := by
  have hlater : (!s.channels.isEmpty) = true := by simpa using hs
  have hslash : Fails (Left n (.token .comma .start :: k :: ls)) (delim '/') := fails_left rfl
  have hsome : (s.legacy || decide (s.channels.length = 1)) = true := by simpa using hlegacy
  refine takes_notAtEnd_left.bind ?_
  simp only [Bool.false_eq_true, if_false, hlater, if_true, hsome, Bool.and_self, hlength]
  exact hslash.succeeds.bind (takes_comma.succeeds.bind ((Takes.left hc).bind h))

/-- An opacity behind the last comma. -/
theorem takes_commaAlpha (hlegacy : s.legacy = true) (hlength : s.channels.length = 3)
    (ha : ReadAt n c k) :
    Takes (Left n [.token .comma .start, k]) (Left n []) { s with legacy := true, alpha? := some c }
      (readChannels (count + 1) s) := by
  have hlater : (!s.channels.isEmpty) = true := by
    cases hs : s.channels with
    | nil => simp [hs] at hlength
    | cons => rfl
  have hslash : Fails (Left n [.token .comma .start, k]) (delim '/') := fails_left rfl
  refine takes_notAtEnd_left.bind ?_
  simp only [Bool.false_eq_true, if_false, hlater, if_true, hlegacy, Bool.true_or, Bool.and_self,
    hlength]
  refine hslash.succeeds.bind (takes_comma.succeeds.bind ?_)
  rw [if_pos rfl]
  exact (Takes.left ha).bind (.pure _)

/-- Channels one behind the other, and the opacity behind a slash. -/
theorem takes_modern {cs : List (ColorChannel V)} {ks as : List Component}
    {alpha? : Option (ColorChannel V)} (hcs : List.Forall₂ (ReadAt n) cs ks)
    (halpha : AlphaFrom n alpha? as) (hlegacy : s.legacy = false) (hnone : s.alpha? = none)
    (hne : s.channels ++ cs ≠ []) (hcount : cs.length < count) :
    Takes (Left n (ks ++ as)) (Left n []) ⟨s.channels ++ cs, false, alpha?⟩
      (readChannels count s) := by
  induction hcs generalizing s count with
  | nil =>
    obtain ⟨channels, legacy, none'⟩ := s
    obtain ⟨count, rfl⟩ : ∃ m, count = m + 1 := ⟨count - 1, by omega⟩
    simp only [List.append_nil] at hne hlegacy hnone ⊢
    subst hlegacy hnone
    cases alpha? with
    | none =>
      cases halpha
      exact takes_channelsEnd
    | some a =>
      obtain ⟨k, rfl, ha⟩ := halpha
      exact takes_slashAlpha hne ha
  | @cons c k cs ks hc _ ih =>
    obtain ⟨count, rfl⟩ : ∃ m, count = m + 1 := ⟨count - 1, by simp at hcount; omega⟩
    refine takes_spaced hlegacy hc ?_
    have hrest : Takes (Left n (ks ++ as)) (Left n []) ⟨(s.channels ++ [c]) ++ cs, false, alpha?⟩
        (readChannels count { s with channels := s.channels ++ [c] }) :=
      ih hlegacy hnone (by simp) (by simpa using hcount)
    simpa using hrest

/-- The component of an opacity, behind a comma. -/
def LegacyAlphaFrom (n : Nat) : Option (ColorChannel V) → List Component → Prop
  | none, ks => ks = []
  | some a, ks => ∃ k, ks = [.token .comma .start, k] ∧ ReadAt n a k

/-- Three channels and an opacity between commas. -/
theorem takes_legacy {c₁ c₂ c₃ : ColorChannel V} {k₁ k₂ k₃ : Component} {as : List Component}
    {alpha? : Option (ColorChannel V)} (h₁ : ReadAt n c₁ k₁) (h₂ : ReadAt n c₂ k₂)
    (h₃ : ReadAt n c₃ k₃)
    (halpha : LegacyAlphaFrom n alpha? as) (hcount : 4 ≤ count) :
    Takes (Left n (k₁ :: .token .comma .start :: k₂ :: .token .comma .start :: k₃ :: as))
      (Left n [])
      ⟨[c₁, c₂, c₃], true, alpha?⟩ (readChannels count ⟨[], false, none⟩) := by
  obtain ⟨count, rfl⟩ : ∃ m, count = m + 4 := ⟨count - 4, by omega⟩
  refine takes_spaced rfl h₁ ?_
  refine takes_behindComma (by simp) (.inr rfl) (by simp) h₂ ?_
  refine takes_behindComma (by simp) (.inl rfl) (by simp) h₃ ?_
  cases alpha? with
  | none =>
    cases halpha
    exact takes_channelsEnd
  | some a =>
    obtain ⟨k, rfl, ha⟩ := halpha
    exact takes_commaAlpha rfl rfl ha

end Steps

/-- The components of a color that another starts from, in front of others. -/
inductive OriginFrom (n : Nat) (inner : Reader (Color V)) :
    Option (Color V) → List Component → List Component → Prop
  | none {ks : List Component} (h : Fails (Left n ks) (keyword "from")) :
    OriginFrom n inner none ks ks
  | some {c : Color V} {k : Component} {ks : List Component}
      (hc : ∀ ls, Takes (Ahead n (k :: ls)) (Stand n ls) c inner) :
      OriginFrom n inner (some c) (.token (.ident "from") .start :: k :: ks) ks

/-- The component of the name of a space, in front of others. -/
inductive PredefinedFrom : ColorSpace → Option String → List Component → List Component → Prop
  | none {space : ColorSpace} {ks : List Component} (h : space ≠ .color) :
      PredefinedFrom space none ks ks
  | some {name : String} {ks : List Component} (h : name.toLower = name) :
      PredefinedFrom .color (some name) (.token (.ident name) .start :: ks) ks

theorem takes_readArguments {n : Nat} {inner : Reader (Color V)} {space : ColorSpace}
    {origin? : Option (Color V)} {predefined? : Option String} {ks ks' ls : List Component}
    {s : Channels V} (horigin : OriginFrom n inner origin? ks ks')
    (hpredefined : PredefinedFrom space predefined? ks' ls)
    (hchannels : ∀ count, ls.length < count →
      Takes (Left n ls) (Left n []) s (readChannels count ⟨[], false, none⟩))
    (hlength : 3 ≤ s.channels.length) :
    Takes (Left n ks) (Left n [])
      (⟨space, predefined?, origin?, s.channels, s.alpha?⟩ : ColorFunction V)
      (readArguments inner space) := by
  have hlast : Takes (Left n ls) (Left n [])
      (⟨space, predefined?, origin?, s.channels, s.alpha?⟩ : ColorFunction V) (do
        let s ← readChannels ((← get).rest.length + 1) ⟨[], false, none⟩
        if s.channels.length < 3 then fail .invalidValue
        return ⟨space, predefined?, origin?, s.channels, s.alpha?⟩) := by
    refine Takes.get fun c hc => (hchannels _ (Nat.lt_succ_of_le hc.length_le)).bind ?_
    rw [if_neg (by omega)]
    exact .pure _
  have hrest : Takes (Left n ks') (Left n [])
      (⟨space, predefined?, origin?, s.channels, s.alpha?⟩ : ColorFunction V) (do
        let predefined? ← if space = .color then (some ·.toLower) <$> ident else pure none
        let s ← readChannels ((← get).rest.length + 1) ⟨[], false, none⟩
        if s.channels.length < 3 then fail .invalidValue
        return ⟨space, predefined?, origin?, s.channels, s.alpha?⟩) := by
    cases hpredefined with
    | none h =>
      rw [if_neg h]
      exact (Takes.pure none).bind hlast
    | @some name _ h =>
      have hname : Takes (Left n (.token (.ident name) .start :: ls)) (Left n ls) (some name)
          ((some ·.toLower) <$> ident) := by
        have hident : Takes (Left n (.token (.ident name) .start :: ls)) (Left n ls) name ident :=
          takes_left rfl
        have hlower := hident.map (some ·.toLower)
        rwa [h] at hlower
      exact hname.bind hlast
  cases horigin with
  | none h => exact h.succeeds.bind hrest
  | @some c k _ hc =>
    exact (takes_word "from").succeeds.bind (((Takes.left hc).map some).bind hrest)

end Color

end StyleGrammar

import StyleGrammar.Proofs.Value.Heads

/-!
# The grammar of gradient items

Between two commas stands a color with at most two positions, or a hint.  The
entries of a gradient are read if the first and the last of them are colors, no
two hints are neighbours and there are at least two stops.  The reader knows this
by one flag: whether a stop was read before.  `accepts` follows the flag over the
entries, and the run of the reader follows `accepts`.
-/

namespace StyleGrammar

open Reader Component

namespace Reader

variable {α : Type} {p : Reader α} {a : α} {n : Nat} {ks ls : List Component}

/-- Components that the reader takes, with `n` functions around them, and none is a comma. -/
structure Segment (n : Nat) (p : Reader α) (a : α) (ks : List Component) : Prop where
  takes : ∀ ls, Takes (Ahead n (ks ++ ls)) (Ahead n ls) a p
  commas : ∀ k ∈ ks, k.isComma = false

theorem Segment.last (h : Segment n p a ks) : Takes (Ahead n ks) (Ahead n []) a p := by
  simpa using h.takes []

/-- The whole text of something, if that does not begin with a comma. -/
theorem IsText.segment {good : α → Prop} {S : Token → Prop} (hp : AtHead good p)
    (hwants : Wants S p) (hS : ¬ S .comma) (hks : SoundAll ks) (h : IsText n p a ks) :
    Segment n p a (bareAll ks) := by
  obtain ⟨k, ls, hskip, hls, htakes⟩ := h.takes hp hks
  obtain ⟨bs, hbs, hsplit⟩ := exists_of_skip hskip
  have hbare : k.bare = k := bare_of_mem_bareAll (by rw [hsplit]; simp)
  rw [hsplit]
  refine ⟨fun ms => ?_, ?_⟩
  · refine ((htakes n (ls ++ ms) (.inl rfl)).before fun c hc => hc.of_skip ?_).after fun c hc =>
      hc.ahead.of_skip (skip_append_of_skip_nil hls ms)
    rw [List.append_assoc, skip_append_of_skip_nil hbs]
    rfl
  · simp only [List.forall_mem_append, List.forall_mem_cons]
    exact ⟨isComma_of_skip_nil hbs, hwants.isComma hS hbare (htakes n [] (.inl rfl)),
      isComma_of_skip_nil hls⟩

end Reader

namespace GradientItem

variable {P V : Type}

/-- What stands between two commas: a color with at most two positions, or a hint. -/
inductive Entry (P V : Type)
  | color (c : Color V)
  | colorAt (c : Color V) (p : P)
  | colorFromTo (c : Color V) (p q : P)
  | hint (p : P)

namespace Entry

def isColor : Entry P V → Bool
  | hint _ => false
  | _ => true

/-- How many stops an entry contributes. -/
def stops : Entry P V → Nat
  | color _ | colorAt _ _ => 1
  | colorFromTo _ _ _ => 2
  | hint _ => 0

/-- Two positions make two stops of the same color. -/
def items : Entry P V → List (GradientItem P V)
  | color c => [.stop ⟨c, none⟩]
  | colorAt c p => [.stop ⟨c, some p⟩]
  | colorFromTo c p q => [.stop ⟨c, some p⟩, .stop ⟨c, some q⟩]
  | hint p => [.hint p]

/-- The components of an entry, where the relations say what the components of a color and of a
position are. -/
inductive Written (C : Color V → List Component → Prop) (M : P → List Component → Prop) :
    Entry P V → List Component → Prop
  | color {c : Color V} {ks : List Component} (hc : C c ks) : Written C M (.color c) ks
  | colorAt {c : Color V} {p : P} {ks ls : List Component} (hc : C c ks) (hp : M p ls) :
      Written C M (.colorAt c p) (ks ++ ls)
  | colorFromTo {c : Color V} {p q : P} {ks ls ms : List Component} (hc : C c ks) (hp : M p ls)
      (hq : M q ms) : Written C M (.colorFromTo c p q) (ks ++ (ls ++ ms))
  | hint {p : P} {ks : List Component} (hp : M p ks) : Written C M (.hint p) ks

/-- Entries between commas. -/
inductive AllWritten (C : Color V → List Component → Prop) (M : P → List Component → Prop) :
    List (Entry P V) → List Component → Prop
  | last {e : Entry P V} {ks : List Component} (he : Written C M e ks) : AllWritten C M [e] ks
  | cons {e : Entry P V} {es : List (Entry P V)} {ks ls : List Component} {l : Location}
      (he : Written C M e ks) (h : AllWritten C M es ls) :
      AllWritten C M (e :: es) (ks ++ .token .comma l :: ls)

/-- Entries that make a gradient. -/
structure Admitted (es : List (Entry P V)) : Prop where
  first : ∀ e ∈ es.head?, e.isColor = true
  last : ∀ e ∈ es.getLast?, e.isColor = true
  apart : es.IsChain fun e e' => e.isColor = true ∨ e'.isColor = true
  stops : 2 ≤ (es.map Entry.stops).sum

/-- Whether a hint stands only behind a color, where `afterStop` says so of the first entry. -/
def accepts : (afterStop : Bool) → List (Entry P V) → Bool
  | _, [] => true
  | afterStop, e :: es => (afterStop || e.isColor) && accepts e.isColor es

theorem accepts_iff (afterStop : Bool) (es : List (Entry P V)) :
    accepts afterStop es = true ↔
      (∀ e ∈ es.head?, afterStop = true ∨ e.isColor = true) ∧
        es.IsChain fun e e' => e.isColor = true ∨ e'.isColor = true := by
  induction es generalizing afterStop with
  | nil => simp [accepts]
  | cons e es ih =>
    simp only [accepts, Bool.and_eq_true, Bool.or_eq_true, ih, List.isChain_cons]
    simp

theorem countP_isStop (es : List (Entry P V)) :
    (es.flatMap items).countP isStop = (es.map stops).sum := by
  induction es with
  | nil => rfl
  | cons e es ih =>
    rw [List.flatMap_cons, List.countP_append, ih, List.map_cons, List.sum_cons]
    cases e <;> rfl

theorem any_isStop (e : Entry P V) : e.items.any isStop = e.isColor := by
  cases e <;> rfl

theorem getLast?_flatMap_items (es : List (Entry P V)) :
    (es.flatMap items).getLast?.any isHint = es.getLast?.any fun e => !e.isColor := by
  cases es using List.reverseRecOn with
  | nil => rfl
  | append_singleton es e =>
    have hlast : e.items.getLast? ≠ none := by cases e <;> simp [items]
    rw [List.flatMap_append, List.getLast?_append, List.getLast?_append]
    cases e <;> simp [items, isHint, isStop, isColor]

theorem admitted_iff (es : List (Entry P V)) :
    Admitted es ↔ accepts false es = true ∧
      ¬ ((es.flatMap items).countP isStop < 2 ∨ (es.flatMap items).getLast?.any isHint = true) := by
  rw [accepts_iff, countP_isStop, getLast?_flatMap_items]
  constructor
  · rintro ⟨hfirst, hlast, hapart, hstops⟩
    refine ⟨⟨fun e he => .inr (hfirst e he), hapart⟩, ?_⟩
    rintro (h | h)
    · omega
    · obtain ⟨e, he, hcolor⟩ := (Option.any_eq_true _ _).mp h
      simp [hlast e he] at hcolor
  · rintro ⟨⟨hfirst, hapart⟩, h⟩
    obtain ⟨hstops, hlast⟩ := not_or.mp h
    refine ⟨fun e he => by simpa using hfirst e he, fun e he => ?_, hapart, by omega⟩
    by_contra hcolor
    exact hlast ((Option.any_eq_true _ _).mpr ⟨e, he, by simpa using hcolor⟩)

end Entry

open Entry

/-! What the reader makes of entries. -/

theorem countP_rest {n : Nat} {ks : List Component} {c : Cursor} (hc : Stand n ks c) :
    c.rest.countP isComma = ks.countP isComma := by
  rw [← hc.rest, bareAll_eq_map, List.countP_map]
  simp [Function.comp_def]

theorem countP_behind_comma (l : Location) (ks ls : List Component) :
    (ks ++ .token .comma l :: ls).countP isComma = ks.countP isComma + ls.countP isComma + 1 := by
  rw [List.countP_append, List.countP_cons_of_pos rfl, Nat.add_assoc]

theorem takes_takeComma_at {n : Nat} {l : Location} {ls : List Component} :
    Takes (Stand n (.token .comma l :: ls)) (Stand n ls) true takeComma := by
  intro c hc
  have hbare : Component.token .comma .start = .token .comma l :=
    bare_of_mem_bareAll (k := .token .comma l) (by rw [hc.rest]; exact List.mem_cons_self)
  cases hbare
  exact takes_takeComma c hc

section Reading

variable [Readable P] [Term V] {n : Nat} {ks ls : List Component} {e : Entry P V}
  {es : List (Entry P V)}

/-- Entries whose colors and positions the readers take. -/
abbrev Segments (n : Nat) : Entry P V → List Component → Prop :=
  Written (Segment n read) (Segment n read)

abbrev AllSegments (n : Nat) : List (Entry P V) → List Component → Prop :=
  AllWritten (Segment n read) (Segment n read)

theorem Segments.commas (h : Segments n e ks) : ∀ k ∈ ks, k.isComma = false := by
  cases h with
  | color hc => exact hc.commas
  | colorAt hc hp => exact List.forall_mem_append.mpr ⟨hc.commas, hp.commas⟩
  | colorFromTo hc hp hq =>
    simp only [List.forall_mem_append]
    exact ⟨hc.commas, hp.commas, hq.commas⟩
  | hint hp => exact hp.commas

variable (hP : Wants (beginsMeasure · = true) (read : Reader P))

include hP

theorem takes_readStops (h : Segments n e ks) (hcolor : e.isColor = true) :
    Takes (Ahead n ks) (Ahead n []) e.items readStops := by
  have hend : Takes (Ahead n []) (Ahead n []) none (attempt (read : Reader P)) :=
    hP.fails_end.attempt
  cases h with
  | color hc => exact hc.last.bind (hend.bind (hend.bind (.pure _)))
  | colorAt hc hp => exact (hc.takes _).bind (hp.last.attempt.bind (hend.bind (.pure _)))
  | colorFromTo hc hp hq =>
    exact (hc.takes _).bind ((hp.takes _).attempt.bind (hq.last.attempt.bind (.pure _)))
  | hint => cases hcolor

/-- Where a color stands there is no position. -/
theorem fails_position {c : Color V} (hc : Segment n read c ks) (ls : List Component) :
    Fails (Ahead n (ks ++ ls)) (read : Reader P) :=
  Color.wants_read.fails hP (fun _ ht hm => Measure.not_beginsColor hm ht) (hc.takes ls)

theorem takes_readEntry (h : Segments n e ks) {afterStop : Bool}
    (haccepts : afterStop = true ∨ e.isColor = true) :
    Takes (Ahead n ks) (Ahead n []) e.items (readEntry afterStop) := by
  cases afterStop with
  | false => exact takes_readStops hP h (by simpa using haccepts)
  | true =>
    cases hcolor : e.isColor with
    | false =>
      cases h with
      | hint hp => exact hp.last.attempt.bind (.pure _)
      | _ => cases hcolor
    | true =>
      have hposition : Fails (Ahead n ks) (read : Reader P) := by
        cases h with
        | color hc =>
          have := fails_position hP hc []
          rwa [List.append_nil] at this
        | colorAt hc _ => exact fails_position hP hc _
        | colorFromTo hc _ _ => exact fails_position hP hc _
        | hint => cases hcolor
      exact hposition.attempt.bind (takes_readStops hP h hcolor)

/-- Where a position stands there is no color. -/
theorem fails_readEntry (h : Segments n e ks) (hcolor : e.isColor = false) :
    Fails (Ahead n ks) (readEntry false : Reader (List (GradientItem P V))) := by
  cases h with
  | hint hp =>
    exact Fails.bind (hP.fails Color.wants_read (fun _ => Measure.not_beginsColor) hp.last)
  | _ => cases hcolor

/-- What a run of the reader does is what `accepts` says. -/
theorem takes_readEntries (h : AllSegments n es ks) {count : Nat}
    (hcount : ks.countP isComma ≤ count) {afterStop : Bool}
      (haccepts : accepts afterStop es = true) :
    Takes (Stand n ks) (Ahead n []) (es.flatMap items) (readEntries count afterStop) := by
  induction h generalizing count afterStop with
  | @last e ks he =>
    have haccepts : afterStop = true ∨ e.isColor = true := by simpa [accepts] using haccepts
    have hentry : Takes (Stand n (ks ++ [])) (Stand n []) e.items
        (untilComma (readEntry afterStop)) :=
      takes_untilComma (takes_readEntry hP he haccepts) (Segments.commas he) (by simp)
    rw [List.append_nil] at hentry
    rw [show [e].flatMap items = e.items by simp]
    cases count with
    | zero => exact hentry.after fun _ hc => hc.ahead
    | succ count =>
      have hcomma : Takes (Stand n []) (Stand n []) false takeComma :=
        Fails.succeeds (fails_end.before fun _ hc => hc.ahead)
      exact hentry.bind (hcomma.bind ((Takes.pure _).after fun _ hc => hc.ahead))
  | @cons e es ks ls l he h ih =>
    simp only [accepts, Bool.and_eq_true, Bool.or_eq_true] at haccepts
    have hentry : Takes (Stand n (ks ++ .token .comma l :: ls)) (Stand n (.token .comma l :: ls))
        e.items (untilComma (readEntry afterStop)) :=
      takes_untilComma (takes_readEntry hP he haccepts.1) (Segments.commas he) (by simp [isComma])
    rw [countP_behind_comma] at hcount
    cases count with
    | zero => omega
    | succ count =>
      have hcount : ls.countP isComma ≤ count := by omega
      have hmore := ih hcount haccepts.2
      rw [← any_isStop] at hmore
      exact hentry.bind (takes_takeComma_at.bind (hmore.bind (.pure _)))

theorem fails_readEntries (h : AllSegments n es ks) {count : Nat}
    (hcount : ks.countP isComma ≤ count) {afterStop : Bool}
      (haccepts : accepts afterStop es = false) :
    Fails (Stand n ks) (readEntries count afterStop : Reader (List (GradientItem P V))) := by
  induction h generalizing count afterStop with
  | @last e ks he =>
    obtain ⟨rfl, hcolor⟩ :
        afterStop = false ∧ e.isColor = false := by simpa [accepts] using haccepts
    have hentry : Fails (Stand n (ks ++ []))
        (untilComma (readEntry false : Reader (List (GradientItem P V)))) :=
      fails_untilComma (fails_readEntry hP he hcolor) (Segments.commas he) (by simp)
    rw [List.append_nil] at hentry
    cases count with
    | zero => exact hentry
    | succ count => exact hentry.bind
  | @cons e es ks ls l he h ih =>
    rw [countP_behind_comma] at hcount
    cases count with
    | zero => omega
    | succ count =>
      by_cases hfirst : afterStop = true ∨ e.isColor = true
      · have hentry : Takes (Stand n (ks ++ .token .comma l :: ls))
            (Stand n (.token .comma l :: ls))
            e.items (untilComma (readEntry afterStop)) :=
          takes_untilComma (takes_readEntry hP he hfirst) (Segments.commas he) (by simp [isComma])
        have hcount : ls.countP isComma ≤ count := by omega
        have hmore := ih hcount (show accepts e.isColor es = false by
          simpa [accepts, hfirst] using haccepts)
        rw [← any_isStop] at hmore
        exact hentry.bindFails (takes_takeComma_at.bindFails (Fails.bind hmore))
      · obtain ⟨rfl, hcolor⟩ : afterStop = false ∧ e.isColor = false := by simpa using hfirst
        have hentry : Fails (Stand n (ks ++ .token .comma l :: ls))
            (untilComma (readEntry false : Reader (List (GradientItem P V)))) :=
          fails_untilComma (fails_readEntry hP he hcolor) (Segments.commas he) (by simp [isComma])
        exact hentry.bind

/-- Admitted entries are read as their items. -/
theorem takes_readAll (h : AllSegments n es ks) (hes : Admitted es) :
    Takes (Stand n ks) (Ahead n []) (es.flatMap items) readAll := by
  obtain ⟨haccepts, hstops⟩ := (admitted_iff es).mp hes
  refine Takes.get fun c hc => (takes_readEntries hP h (countP_rest hc).ge haccepts).bind ?_
  have hcheck : ¬ ((es.flatMap items).countP isStop < 2 ||
      (es.flatMap items).getLast?.any isHint) = true := by rwa [Bool.or_eq_true, decide_eq_true_eq]
  rw [if_neg hcheck]
  exact Takes.pure _

theorem fails_readAll (h : AllSegments n es ks) (hes : ¬ Admitted es) :
    Fails (Stand n ks) (readAll : Reader (List (GradientItem P V))) := by
  refine Fails.get fun c hc => ?_
  have hcount := (countP_rest hc).ge
  cases haccepts : accepts false es with
  | false => exact Fails.bind (fails_readEntries hP h hcount haccepts)
  | true =>
    have hstops := mt (fun hnot => (admitted_iff es).mpr ⟨haccepts, hnot⟩) hes
    refine (takes_readEntries hP h hcount haccepts).bindFails ?_
    have hcheck : ((es.flatMap items).countP isStop < 2 ||
        (es.flatMap items).getLast?.any isHint) = true := by
      rw [Bool.or_eq_true, decide_eq_true_eq]
      exact not_not.mp hstops
    rw [if_pos hcheck]
    exact Fails.bind fun c _ => ⟨_, rfl⟩

end Reading

/-! What any text is read as. -/

/-- The first and the last item is a stop, and no two hints are neighbours. -/
structure Alternates (is : List (GradientItem P V)) : Prop where
  first : ∃ i ∈ is.head?, i.isStop = true
  last : ∃ i ∈ is.getLast?, i.isStop = true
  apart : is.IsChain fun i j => i.isStop = true ∨ j.isStop = true

section Results

variable [Readable P] [Term V] {is : List (GradientItem P V)} {afterStop : Bool} {c c' : Cursor}

theorem isStop_of_readStops (h : readStops c = .ok (is, c')) :
    is ≠ [] ∧ ∀ i ∈ is, i.isStop = true := by
  obtain ⟨color, c₁, -, h⟩ := of_bind h
  obtain ⟨p?, c₂, -, h⟩ := of_bind h
  obtain ⟨q?, c₃, -, h⟩ := of_bind h
  cases q? <;> cases h <;> simp [isStop]

/-- One entry is a hint behind a stop, or stops. -/
theorem readEntry_cases (h : readEntry afterStop c = .ok (is, c')) :
    (afterStop = true ∧ ∃ p, is = [.hint p]) ∨ is ≠ [] ∧ ∀ i ∈ is, i.isStop = true := by
  cases afterStop with
  | false => exact .inr (isStop_of_readStops h)
  | true =>
    obtain ⟨p?, c₁, -, h⟩ := of_bind h
    cases p? with
    | none => exact .inr (isStop_of_readStops h)
    | some p =>
      cases h
      exact .inl ⟨rfl, p, rfl⟩

theorem of_untilComma {α : Type} {p : Reader α} {a : α} (h : untilComma p c = .ok (a, c')) :
    ∃ d d', p d = .ok (a, d') := by
  unfold untilComma at h
  dsimp only at h
  cases hentirely : entirely p { c.leave with rest := (c.leave.rest.span fun k => !k.isComma).1 }
    with
  | error e =>
    rw [hentirely] at h
    cases h
  | ok x =>
    rw [hentirely] at h
    cases h
    exact ⟨_, _, (of_entirely hentirely).1⟩

/-- The flag that the reader keeps is whether it stands behind a stop. -/
theorem apart_of_readEntries {count : Nat} (h : readEntries count afterStop c = .ok (is, c')) :
    is ≠ [] ∧ (∀ i ∈ is.head?, afterStop = true ∨ i.isStop = true) ∧
      is.IsChain fun i j => i.isStop = true ∨ j.isStop = true := by
  have hentry {is : List (GradientItem P V)} {afterStop : Bool} {c c' : Cursor}
      (h : untilComma (readEntry afterStop) c = .ok (is, c')) :
      is ≠ [] ∧ (∀ i ∈ is.head?, afterStop = true ∨ i.isStop = true) ∧
        is.IsChain (fun i j => i.isStop = true ∨ j.isStop = true) ∧
        ∀ i ∈ is.getLast?, i.isStop = is.any isStop := by
    obtain ⟨d, d', hread⟩ := of_untilComma h
    rcases readEntry_cases hread with ⟨rfl, p, rfl⟩ | ⟨hne, hstops⟩
    · simp
    · refine ⟨hne, fun i hi => .inr (hstops i (List.mem_of_mem_head? hi)), ?_, fun i hi => ?_⟩
      · exact (List.pairwise_of_forall_mem_list fun i hi _ _ => .inl (hstops i hi)).isChain
      · have hmem := List.mem_of_mem_getLast? hi
        rw [hstops i hmem, eq_comm]
        exact List.any_eq_true.mpr ⟨i, hmem, hstops i hmem⟩
  induction count generalizing afterStop c is c' with
  | zero =>
    obtain ⟨hne, hhead, hchain, -⟩ := hentry h
    exact ⟨hne, hhead, hchain⟩
  | succ count ih =>
    obtain ⟨items, c₁, hitems, h⟩ := of_bind h
    obtain ⟨hne, hhead, hchain, hlast⟩ := hentry hitems
    obtain ⟨found, c₂, -, h⟩ := of_bind h
    cases found with
    | false =>
      cases h
      exact ⟨hne, hhead, hchain⟩
    | true =>
      obtain ⟨more, c₃, hmore, h⟩ := of_bind h
      cases h
      obtain ⟨-, hhead', hchain'⟩ := ih hmore
      refine ⟨by simp [hne], fun i hi => ?_, List.isChain_append.mpr ⟨hchain, hchain', ?_⟩⟩
      · rw [List.head?_append_of_ne_nil _ hne] at hi
        exact hhead i hi
      · intro i hi j hj
        rw [hlast i hi]
        exact hhead' j hj

theorem of_readAll (h : readAll c = .ok (is, c')) :
    (is ≠ [] ∧ (∀ i ∈ is.head?, false = true ∨ i.isStop = true) ∧
      is.IsChain fun i j => i.isStop = true ∨ j.isStop = true) ∧
      ¬ (is.countP isStop < 2 ∨ is.getLast?.any isHint = true) := by
  obtain ⟨d, c₀, hget, h⟩ := of_bind h
  cases hget
  obtain ⟨items, c₁, hitems, h⟩ := of_bind h
  by_cases hcheck : (items.countP isStop < 2 || items.getLast?.any isHint) = true
  · rw [if_pos hcheck] at h
    cases h
  · rw [if_neg hcheck] at h
    cases h
    exact ⟨apart_of_readEntries hitems, by simpa using hcheck⟩

theorem alternates_of_readAll (h : readAll c = .ok (is, c')) : Alternates is := by
  obtain ⟨⟨hne, hhead, hchain⟩, hstops⟩ := of_readAll h
  refine ⟨?_, ?_, hchain⟩
  · obtain ⟨i, hi⟩ := Option.ne_none_iff_exists'.mp (mt List.head?_eq_none_iff.mp hne)
    exact ⟨i, hi, by simpa using hhead i hi⟩
  · obtain ⟨i, hi⟩ := Option.ne_none_iff_exists'.mp (mt List.getLast?_eq_none_iff.mp hne)
    refine ⟨i, hi, ?_⟩
    simpa [hi, isHint] using (not_or.mp hstops).2

end Results

/-! Entries by their texts. -/

section Texts

variable {C C' : Color V → List Component → Prop} {M M' : P → List Component → Prop}
  {ks : List Component}

theorem Entry.Written.bare (hC : ∀ c ks, SoundAll ks → C c ks → C' c (bareAll ks))
    (hM : ∀ p ks, SoundAll ks → M p ks → M' p (bareAll ks)) {e : Entry P V} (h : Written C M e ks)
    (hks : SoundAll ks) : Written C' M' e (bareAll ks) := by
  cases h with
  | color hc => exact .color (hC _ _ hks hc)
  | colorAt hc hp =>
    obtain ⟨hks, hls⟩ := soundAll_append.mp hks
    rw [bareAll_append]
    exact .colorAt (hC _ _ hks hc) (hM _ _ hls hp)
  | colorFromTo hc hp hq =>
    obtain ⟨hks, hrest⟩ := soundAll_append.mp hks
    obtain ⟨hls, hms⟩ := soundAll_append.mp hrest
    rw [bareAll_append, bareAll_append]
    exact .colorFromTo (hC _ _ hks hc) (hM _ _ hls hp) (hM _ _ hms hq)
  | hint hp => exact .hint (hM _ _ hks hp)

theorem Entry.AllWritten.bare (hC : ∀ c ks, SoundAll ks → C c ks → C' c (bareAll ks))
    (hM : ∀ p ks, SoundAll ks → M p ks → M' p (bareAll ks)) {es : List (Entry P V)}
    (h : AllWritten C M es ks) (hks : SoundAll ks) : AllWritten C' M' es (bareAll ks) := by
  induction h with
  | last he => exact .last (he.bare hC hM hks)
  | cons he _ ih =>
    obtain ⟨hks, -, hls⟩ := soundAll_append.mp hks
    rw [bareAll_append]
    exact .cons (he.bare hC hM hks) (ih hls)

end Texts

/-- Entries between commas are read if they are admitted, and then as their items; and of any text
that is read the items alternate.  No text is both a color and a position
(`Measure.not_beginsColor`), so nothing is asked about that. -/
theorem readAll_eq_ok_iff {D : Type} [Readable D] (hD : OneNumber D) {depth : Nat}
    {es : List (Entry (Measure D (Nested depth)) (Nested depth))} {c : Cursor}
    (hsound : SoundAll c.rest)
    (h : AllWritten (IsText c.nesting read) (IsText c.nesting read) es c.rest) :
    (∀ is, (∃ c', readAll c = .ok (is, c')) ↔ Admitted es ∧ is = es.flatMap Entry.items) ∧
      ∀ d is d', (readAll : Reader (List (GradientItem (Measure D (Nested depth)) (Nested depth))))
        d =
        .ok (is, d') → Alternates is := by
  have hV := Nested.lawful depth
  have hwants := Measure.wants_read (V := Nested depth) hD
  have hsegments : AllSegments c.nesting es (bareAll c.rest) :=
    h.bare (fun _ _ hks hc => hc.segment (Color.atHead_read hV) Color.wants_read
      (by simp [beginsColor]) hks)
      (fun _ _ hks hp => hp.segment (Measure.atHead_read hV hD) hwants
        (by simp [beginsMeasure]) hks)
      hsound
  have hstand : Stand c.nesting (bareAll c.rest) c := ⟨rfl, rfl⟩
  refine ⟨fun is => ⟨?_, ?_⟩, fun d is d' => alternates_of_readAll⟩
  · rintro ⟨c', hread⟩
    by_cases hes : Admitted es
    · obtain ⟨c'', hread', -⟩ := takes_readAll hwants hsegments hes c hstand
      rw [hread] at hread'
      cases hread'
      exact ⟨hes, rfl⟩
    · obtain ⟨e, he⟩ := fails_readAll hwants hsegments hes c hstand
      rw [hread] at he
      cases he
  · rintro ⟨hes, rfl⟩
    obtain ⟨c', hread, -⟩ := takes_readAll hwants hsegments hes c hstand
    exact ⟨c', hread⟩

/-- `aqua 1px 2px, 10%, azure`: the first two of the three stops are of one color. -/
theorem readAll_doubleAndHint :
    let aqua : Color (Nested 0) := .plain (.named "aqua")
    let azure : Color (Nested 0) := .plain (.named "azure")
    let one : LengthPercentage (Nested 0) := .dimension ⟨Single.ofNat 1, .px⟩
    let two : LengthPercentage (Nested 0) := .dimension ⟨Single.ofNat 2, .px⟩
    let tenth : LengthPercentage (Nested 0) := .percentage ⟨(Single.ofNat 1).div (Single.ofNat 10)⟩
    let entries : List (Entry (LengthPercentage (Nested 0)) (Nested 0)) :=
      [.colorFromTo aqua one two, .hint tenth, .color azure]
    let c : Cursor := ⟨[.token (.ident "aqua") .start,
      .blanks .start, .token (.dimension false (Single.ofNat 1) (some 1) "px") .start,
      .blanks .start, .token (.dimension false (Single.ofNat 2) (some 2) "px") .start,
      .token .comma .start,
        .token (.percentage false ((Single.ofNat 1).div (Single.ofNat 10)) (some 10)) .start,
      .token .comma .start, .token (.ident "azure") .start], .start, none, 0⟩
    SoundAll c.rest ∧ AllWritten (IsText c.nesting read) (IsText c.nesting read) entries c.rest ∧
      ∃ c', readAll c = .ok ([.stop ⟨aqua, some one⟩, .stop ⟨aqua, some two⟩, .hint tenth,
        .stop ⟨azure, none⟩], c') := by
  intro aqua azure one two tenth entries c
  have hcolor (name : String) (h : PlainColor.ofToken? (.ident name) = some (.named name)) :
      IsText 0 read (.plain (.named name) : Color (Nested 0)) [.token (.ident name) .start] :=
    .of_takes rfl ((Color.takes_plain (by decide) h _).after fun _ hc => hc.ahead)
  have haqua := hcolor "aqua" (by decide +kernel)
  have hazure := hcolor "azure" (by decide +kernel)
  have hlength (k : Nat) : IsText 0 read
      (.dimension ⟨Single.ofNat k, .px⟩ : LengthPercentage (Nested 0))
      [.blanks .start, .token (.dimension false (Single.ofNat k) (some k) "px") .start] := by
    have hpx : Length.ofToken? (.dimension false (Single.ofNat k) (some k) "px") =
        some ⟨Single.ofNat k, .px⟩ := by
      have hunit : Keyword.ofName? LengthUnit "px" = some .px := by decide +kernel
      simp [Length.ofToken?, Dimension.ofToken?, hunit]
    refine .of_takes rfl ?_
    exact ((Measure.takes_dimension rfl (by simp) hpx).before fun _ hc => hc.of_skip rfl).after
      fun _ hc => hc.ahead
  have htenth : IsText 0 read tenth
      [.token (.percentage false ((Single.ofNat 1).div (Single.ofNat 10)) (some 10)) .start] :=
    ⟨_, rfl⟩
  have hname {name : String} (hne : name ≠ "") (h : Scan.Sound name.toList) :
      (Component.token (.ident name) .start).Sound := ⟨rfl, hne, h⟩
  have hsound : SoundAll c.rest := by
    refine ⟨hname (by decide) ?_, trivial, ⟨rfl, trivial⟩, trivial, ⟨rfl, trivial⟩, ⟨rfl, trivial⟩,
      ⟨rfl, trivial⟩, ⟨rfl, trivial⟩, hname (by decide) ?_, trivial⟩ <;> simp [Scan.Sound]
  have hwritten : AllWritten (IsText 0 read) (IsText 0 read) entries c.rest :=
    .cons (.colorFromTo haqua (hlength 1) (hlength 2))
      (.cons (.hint htenth) (.last (.color hazure)))
  have hadmitted : Admitted entries := by
    refine ⟨?_, ?_, ?_, by decide⟩ <;> simp [entries, isColor]
  refine ⟨hsound, hwritten, ?_⟩
  exact ((readAll_eq_ok_iff Length.oneNumber hsound hwritten).1 _).mpr ⟨hadmitted, rfl⟩

end GradientItem

end StyleGrammar

import StyleGrammar.Proofs.Definition.Tree
import Mathlib.Data.List.TakeWhile

/-!
# Reading multipliers back

The multipliers that are written for a quantifier are read as that quantifier.
They are put on a component that has none yet; one that has some becomes the
only child of a sequence (`multipliers_of_quantifies`).
-/

namespace StyleGrammar

open List

/-- What stands between the braces of a multiplier. -/
def Quantifier.inBraces (q : Quantifier) : String :=
  match q.max? with
  | some max => if max = q.min then toString q.min else toString q.min ++ "," ++ toString max
  | none => toString q.min ++ ","

/-- What is written behind the bounds of a quantifier. -/
def Quantifier.mark (q : Quantifier) : List Char := (if q.required then "!" else "").toList

theorem Quantifier.Plain.bounds_eq_empty {q : Quantifier} (hplain : q.Plain) : q.bounds = "" := by
  rcases hplain with ⟨hmin, hmax, hseparator⟩
  have hcomma : q.hasComma = false := by
    unfold hasComma
    rw [hseparator]
    rfl
  unfold bounds
  rw [hmin, hmax, hcomma]
  rfl

/-- What is written for bounds that are not plain: one character, or numbers in braces. -/
theorem Quantifier.bounds_eq {q : Quantifier} (hq : q.Proper) (hplain : ¬q.Plain) :
    (∃ c, q.bounds = String.singleton c ∧
      Definition.quantifier? c = some { q with required := false }) ∨
      q.bounds = (if q.hasComma then "#" else "") ++ braces q.inBraces := by
  rcases q with ⟨min, max?, separator?, required⟩
  have hnone (hcomma : hasComma ⟨min, max?, separator?, required⟩ = false) :
      separator? = none :=
    hq.separator.resolve_right (of_decide_eq_false hcomma)
  have hsome (hcomma : hasComma ⟨min, max?, separator?, required⟩ = true) :
      separator? = some ',' :=
    of_decide_eq_true hcomma
  unfold bounds
  split
  next hmin hmax hcomma => exact absurd ⟨hmin, hmax, hnone hcomma⟩ hplain
  next hmin hmax hcomma =>
    cases hmin
    cases hmax
    cases hnone hcomma
    exact .inl ⟨'?', rfl, rfl⟩
  next hmin hmax hcomma =>
    cases hmin
    cases hmax
    cases hnone hcomma
    exact .inl ⟨'*', rfl, rfl⟩
  next hmin hmax hcomma =>
    cases hmin
    cases hmax
    cases hnone hcomma
    exact .inl ⟨'+', rfl, rfl⟩
  next hmin hmax hcomma =>
    cases hmin
    cases hmax
    cases hsome hcomma
    exact .inl ⟨'#', rfl, rfl⟩
  next => exact .inr rfl

theorem Quantifier.render_toList (q : Quantifier) :
    q.render.toList = q.bounds.toList ++ q.mark := by
  unfold render mark
  rw [String.toList_append]

/-- The multipliers of a quantifier that is not plain: one character, or numbers in braces, perhaps
behind a `#`. -/
theorem Quantifier.render_cases {q : Quantifier} (hq : q.Proper) (hplain : ¬q.Plain) :
    (∃ c, q.render.toList = c :: q.mark ∧
      Definition.quantifier? c = some { q with required := false }) ∨
    (q.separator? = none ∧
      q.render.toList = '\x7b' :: (q.inBraces.toList ++ '\x7d' :: q.mark)) ∨
    (q.separator? = some ',' ∧
      q.render.toList = '#' :: '\x7b' :: (q.inBraces.toList ++ '\x7d' :: q.mark)) := by
  have hbraces : (braces q.inBraces).toList ++ q.mark =
      '\x7b' :: (q.inBraces.toList ++ '\x7d' :: q.mark) := by
    unfold braces
    rw [String.toList_append, String.toList_append, append_assoc]
    rfl
  rw [render_toList]
  rcases bounds_eq hq hplain with ⟨c, hbounds, hc⟩ | hbounds
  · refine .inl ⟨c, ?_, hc⟩
    rw [hbounds, String.toList_singleton, singleton_append]
  · rw [hbounds, String.toList_append, append_assoc, hbraces]
    cases hcomma : q.hasComma with
    | false => exact .inr (.inl ⟨hq.separator.resolve_right (of_decide_eq_false hcomma), rfl⟩)
    | true => exact .inr (.inr ⟨of_decide_eq_true hcomma, rfl⟩)

namespace Definition

/-! ## Numbers and bounds -/

theorem trimmed_eq_self {p : Char → Bool} {s : List Char} (h : ∀ c ∈ s, p c = false) :
    trimmed p s = s := by
  have hdrop {l : List Char} (h : ∀ c ∈ l, p c = false) : l.dropWhile p = l := by
    cases l with
    | nil => rfl
    | cons c l => rw [dropWhile_cons_of_neg (by simp [h c mem_cons_self])]
  unfold trimmed
  rw [hdrop h, hdrop (by simpa using h), reverse_reverse]

theorem isDigit_of_mem_toString {n : Nat} {c : Char} (hc : c ∈ (toString n).toList) :
    c.isDigit = true := by
  rw [Nat.toString_eq_ofList_toDigits, String.toList_ofList] at hc
  exact Nat.isDigit_of_mem_toDigits (by decide) (by decide) hc

theorem natural_toString (n : Nat) : Scan.natural (toString n).toList = n := by
  rw [Nat.toString_eq_ofList_toDigits, String.toList_ofList]
  exact Nat.ofDigitChars_ten_toDigits

theorem blank_of_isDigit {c : Char} (hc : c.isDigit = true) : Blank c = false := by
  apply eq_false_of_ne_true
  intro hblank
  simp only [Blank, Newline, Bool.or_eq_true, decide_eq_true_eq] at hblank
  rcases hblank with (rfl | rfl) | (rfl | rfl) | rfl <;> simp at hc

theorem trimmed_toString (n : Nat) : trimmed Blank (toString n).toList = (toString n).toList :=
  trimmed_eq_self fun _ hc => blank_of_isDigit (isDigit_of_mem_toString hc)

theorem isEmpty_toString (n : Nat) : (toString n).toList.isEmpty = false := by
  rw [Nat.toString_eq_ofList_toDigits, String.toList_ofList, isEmpty_eq_false_iff]
  exact Nat.toDigits_ne_nil

theorem ne_of_mem_toString {n : Nat} {c c' : Char} (hc : c ∈ (toString n).toList)
    (hc' : c'.isDigit = false) : c ≠ c' := by
  rintro rfl
  rw [isDigit_of_mem_toString hc] at hc'
  cases hc'

theorem natural?_toString {n : Nat} (hn : n < 1 <<< 32) :
    natural? (toString n).toList = some n := by
  have hany : ((toString n).toList.any fun c => !c.isDigit) = false := by
    simpa using fun c hc => isDigit_of_mem_toString (n := n) hc
  have hsign (ds : List Char) : (toString n).toList ≠ '+' :: ds := by
    intro heq
    exact ne_of_mem_toString (n := n) (heq ▸ mem_cons_self) (by decide) rfl
  have hlt : ¬1 <<< 32 ≤ n := Nat.not_le_of_lt hn
  unfold natural?
  rw [trimmed_toString]
  split
  next ds heq => exact absurd heq (hsign ds)
  next =>
    simp only [isEmpty_toString, hany, natural_toString, Bool.false_or,
      decide_eq_true_eq, if_neg hlt]

theorem bounds?_toString {n : Nat} (hn : n < 1 <<< 32) :
    bounds? (toString n).toList = some (.between n (some n)) := by
  have hdrop : (toString n).toList.dropWhile (· != ',') = [] :=
    dropWhile_eq_nil_iff.mpr fun c hc => bne_iff_ne.mpr (ne_of_mem_toString hc (by decide))
  unfold bounds?
  rw [hdrop, natural?_toString hn]
  rfl

theorem bounds?_range {min : Nat} (hmin : min < 1 <<< 32) (behind : List Char) :
    bounds? ((toString min).toList ++ ',' :: behind) =
      if (trimmed Blank behind).isEmpty then some (.between min none)
      else (natural? behind).bind fun max =>
        if min ≤ max then some (.between min (some max)) else none := by
  have hcomma : ∀ c ∈ (toString min).toList, (c != ',') = true :=
    fun c hc => bne_iff_ne.mpr (ne_of_mem_toString hc (by decide))
  unfold bounds?
  rw [dropWhile_append_of_pos hcomma, takeWhile_append_of_pos hcomma,
    dropWhile_cons_of_neg (by simp),
    takeWhile_cons_of_neg (by simp), append_nil, natural?_toString hmin]
  rfl

theorem bounds?_inBraces {q : Quantifier} (hq : q.Writable) :
    bounds? q.inBraces.toList = some (.between q.min q.max?) := by
  unfold Quantifier.inBraces
  cases hmax : q.max? with
  | none =>
    rw [String.toList_append, show ",".toList = [','] from rfl, bounds?_range hq.min_lt]
    rfl
  | some max =>
    dsimp only
    by_cases heq : max = q.min
    · rw [if_pos heq, bounds?_toString hq.min_lt, heq]
    · have hne : (trimmed Blank (toString max).toList).isEmpty = false := by
        rw [trimmed_toString]
        exact isEmpty_toString max
      rw [if_neg heq, String.toList_append, String.toList_append, append_assoc,
        show ",".toList ++ (toString max).toList = ',' :: (toString max).toList from rfl,
        bounds?_range hq.min_lt, hne, natural?_toString (hq.max_lt max hmax)]
      simp [hq.proper.min_le max hmax]

/-! ## Multipliers -/

variable {source start r : List Char} {a a' : Arena} {t : Tree} {q : Quantifier} {id : NodeId}

theorem mem_inBraces {c : Char} (hc : c ∈ q.inBraces.toList) : c.isDigit = true ∨ c = ',' := by
  unfold Quantifier.inBraces at hc
  have hdigit {n : Nat} (hc : c ∈ (toString n).toList) : c.isDigit = true ∨ c = ',' :=
    .inl (isDigit_of_mem_toString hc)
  have hcomma (hc : c ∈ ",".toList) : c.isDigit = true ∨ c = ',' := .inr (mem_singleton.mp hc)
  split at hc
  · split at hc
    · exact hdigit hc
    · rw [String.toList_append, String.toList_append, mem_append, mem_append] at hc
      exact hc.elim (fun hc => hc.elim hdigit hcomma) hdigit
  · rw [String.toList_append, mem_append] at hc
    exact hc.elim hdigit hcomma

theorem run_range (hq : q.Writable) :
    range.run ⟨source, '\x7b' :: (q.inBraces.toList ++ '\x7d' :: r), a⟩ =
      (.ok (.between q.min q.max?), ⟨source, r, a⟩) := by
  generalize hinner : q.inBraces.toList = inner
  have hclosing : ∀ c ∈ '\x7b' :: inner, decide (c = '\x7d') = false := by
    intro c hc
    apply decide_eq_false
    rintro rfl
    rcases mem_cons.mp hc with heq | hc
    · cases heq
    · rcases mem_inBraces (hinner ▸ hc) with h | h <;> cases h
  have hfound : seek? (· = '\x7d') ('\x7b' :: (inner ++ '\x7d' :: r)) =
      some (bytes ('\x7b' :: inner)) := seek?_append hclosing (by decide)
  have htext : before? (bytes ('\x7b' :: inner) + 1) ('\x7b' :: (inner ++ '\x7d' :: r)) =
      some ('\x7b' :: (inner ++ ['\x7d'])) := before?_succ (by decide)
  have hbody : slice? 1 (bytes ('\x7b' :: (inner ++ ['\x7d'])) - 1)
      ('\x7b' :: (inner ++ ['\x7d'])) = some inner := by
    rw [← cons_append, bytes_append]
    exact slice?_one (by decide)
  have hbehind : behind? (bytes ('\x7b' :: inner) + 1) ('\x7b' :: (inner ++ '\x7d' :: r)) =
      some r := behind?_succ (by decide)
  have hbounds : bounds? inner = some (.between q.min q.max?) := hinner ▸ bounds?_inBraces hq
  unfold range
  rw [run_rest_bind, hfound]
  dsimp only
  rw [htext, checked_some_bind, hbody, checked_some_bind, hbounds]
  dsimp only
  rw [run_advance_bind hbehind]
  rfl

/-- Where a component ends: at the end of the text, or at a space. -/
def Ends (r : List Char) : Prop := r = [] ∨ ∃ r', r = ' ' :: r'

theorem multipliers_of_ends (hr : Ends r) (n : Nat) (afterHash : Bool) :
    (multipliers start (n + 1) afterHash id).run ⟨source, r, a⟩ = (.ok id, ⟨source, r, a⟩) := by
  unfold multipliers
  rw [run_rest_bind]
  rcases hr with rfl | ⟨r', rfl⟩
  · rfl
  · rfl

/-- A quantifier can be put on a component that was read, whatever text is left. -/
def Quantifies (a a' : Arena) (start : List Char) (t : Tree) (id : NodeId) : Prop :=
  ∀ source r q, r <:+ start → ∃ id' a'',
    (quantify id q start).run ⟨source, r, a'⟩ = (.ok id', ⟨source, r, a''⟩) ∧ a.Made a'' t q id'

theorem quantifies_of_one (hmade : a.Made a' t .one id) : Quantifies a a' start t id := by
  intro source r q _
  refine ⟨id, _, ?_, hmade.modify q⟩
  rcases hmade with ⟨_, -, -, -, -, -, hquantifier⟩
  unfold quantify
  rw [run_bind, run_quantifierOf]
  dsimp only
  rw [hquantifier]
  rfl

/-- One that has a quantifier becomes the only child of a sequence. -/
theorem quantifies_of_ne_one (hmade : a.Made a' t t.quantifier id) (hne : t.quantifier ≠ .one)
    (q : Quantifier) : Quantifies a a' start (.group .sequence [t] q) id := by
  intro source r q' hstart
  obtain ⟨text, htext⟩ := exists_between? hstart
  have hstands : a'.Stands (.sequence [id]) (.group .sequence [t] q) :=
    ⟨[id], rfl, id, [], rfl, hmade.holds, rfl⟩
  have hmadePush : a.Made (a'.push (newNode (.sequence [id]) text)) _ .one a'.size :=
    Arena.made_push hmade.extends hstands
  have hpush : (push (.sequence [id]) start).run ⟨source, r, a'⟩ =
      (.ok a'.size, ⟨source, r, a'.push (newNode (.sequence [id]) text)⟩) := run_push htext
  refine ⟨a'.size, _, ?_, hmadePush.modify q'⟩
  have hone : t.quantifier.isOne = false := by simpa [Quantifier.isOne] using hne
  rcases hmade with ⟨_, -, -, -, -, -, hquantifier⟩
  unfold quantify
  rw [run_bind, run_quantifierOf]
  dsimp only
  rw [hquantifier, hone, if_neg Bool.false_ne_true, run_bind_of_ok hpush]
  rfl

/-- A mark adds to the quantifier that is there. -/
theorem run_multipliers_mark (hr : Ends r) (n : Nat) (afterHash : Bool) :
    (multipliers start (n + 2) afterHash id).run ⟨source, '!' :: r, a⟩ =
      (.ok id, ⟨source, r, a.modify id fun node =>
        { node with quantifier := { (a.node id).quantifier with required := true } }⟩) := by
  refine Eq.trans (run_advance_bind (behind?_one (by decide)) _) ?_
  rw [run_bind_of_ok (run_quantifierOf id), run_bind_of_ok (run_setQuantifier id _)]
  exact multipliers_of_ends hr n false

theorem multipliers_of_mark (hmade : a.Made a' t { q with required := false } id) (hr : Ends r)
    {n : Nat} (hn : q.mark.length < n) (afterHash : Bool) :
    ∃ a'', (multipliers start n afterHash id).run ⟨source, q.mark ++ r, a'⟩ =
      (.ok id, ⟨source, r, a''⟩) ∧ a.Made a'' t q id := by
  obtain ⟨n, rfl⟩ := Nat.exists_eq_succ_of_ne_zero (Nat.ne_zero_of_lt hn)
  unfold Quantifier.mark at hn ⊢
  cases hrequired : q.required with
  | false =>
    refine ⟨a', multipliers_of_ends hr n afterHash, ?_⟩
    rw [← hrequired] at hmade
    exact hmade
  | true =>
    rw [hrequired] at hn
    cases n with
    | zero => exact absurd hn (by decide)
    | succ n =>
      have hold : (a'.node id).quantifier = { q with required := false } := by
        rcases hmade with ⟨_, -, -, -, -, -, hquantifier⟩
        exact hquantifier
      have hnew : ({ (a'.node id).quantifier with required := true } : Quantifier) = q := by
        rw [hold, ← hrequired]
      refine ⟨a'.modify id fun n => { n with quantifier := q }, ?_, hmade.modify q⟩
      change (multipliers start (n + 2) afterHash id).run ⟨source, '!' :: r, a'⟩ = _
      rw [run_multipliers_mark hr, hnew]

theorem run_multipliers_char {c : Char} (hc : quantifier? c = some q) (n : Nat) :
    (multipliers start (n + 1) false id).run ⟨source, c :: r, a⟩ =
      (quantify id q start >>= multipliers start n (c = '#')).run ⟨source, r, a⟩ := by
  unfold quantifier? at hc
  split at hc <;> cases hc <;> exact run_advance_bind (behind?_one (by decide)) _

theorem run_multipliers_brace (n : Nat) (afterHash : Bool) :
    (multipliers start (n + 1) afterHash id).run ⟨source, '\x7b' :: r, a⟩ =
      (do
        let q ← range
        if afterHash then
          setQuantifier id { ← quantifierOf id with min := q.min, max? := q.max? }
          multipliers start n false id
        else multipliers start n false (← quantify id q start)).run ⟨source, '\x7b' :: r, a⟩ :=
  rfl

theorem run_multipliers_braces (hq : q.Writable) (n : Nat) :
    (multipliers start (n + 1) false id).run
        ⟨source, '\x7b' :: (q.inBraces.toList ++ '\x7d' :: r), a⟩ =
      (quantify id (.between q.min q.max?) start >>= multipliers start n false).run
        ⟨source, r, a⟩ := by
  rw [run_multipliers_brace, run_bind_of_ok (run_range hq)]
  rfl

/-- Bounds in braces refine a `#`. -/
theorem run_multipliers_refined (hq : q.Writable) (n : Nat) :
    (multipliers start (n + 1) true id).run
        ⟨source, '\x7b' :: (q.inBraces.toList ++ '\x7d' :: r), a⟩ =
      (multipliers start n false id).run ⟨source, r, a.modify id fun node =>
        { node with quantifier :=
          { (a.node id).quantifier with min := q.min, max? := q.max? } }⟩ := by
  rw [run_multipliers_brace, run_bind_of_ok (run_range hq)]
  rfl

theorem multipliers_of_char (hquantifies : Quantifies a a' start t id) (hr : Ends r) {c : Char}
    (hc : quantifier? c = some { q with required := false }) (hstart : q.mark ++ r <:+ start)
    {n : Nat} (hn : q.mark.length < n) :
    ∃ id' a'', (multipliers start (n + 1) false id).run ⟨source, c :: (q.mark ++ r), a'⟩ =
      (.ok id', ⟨source, r, a''⟩) ∧ a.Made a'' t q id' := by
  rcases hquantifies source (q.mark ++ r) { q with required := false } hstart with
    ⟨id', a₁, hrun, hmade⟩
  rcases multipliers_of_mark hmade hr hn (c = '#') with ⟨a₂, hmark, hmade'⟩
  refine ⟨id', a₂, ?_, hmade'⟩
  rw [run_multipliers_char hc, run_bind_of_ok hrun]
  exact hmark

theorem multipliers_of_braces (hquantifies : Quantifies a a' start t id) (hr : Ends r)
    (hq : q.Writable) (hseparator : q.separator? = none) (hstart : q.mark ++ r <:+ start)
    {n : Nat} (hn : q.mark.length < n) :
    ∃ id' a'', (multipliers start (n + 1) false id).run
        ⟨source, '\x7b' :: (q.inBraces.toList ++ '\x7d' :: (q.mark ++ r)), a'⟩ =
      (.ok id', ⟨source, r, a''⟩) ∧ a.Made a'' t q id' := by
  have hbetween : Quantifier.between q.min q.max? = { q with required := false } := by
    rw [hseparator]
    rfl
  rcases hquantifies source (q.mark ++ r) (.between q.min q.max?) hstart with
    ⟨id', a₁, hrun, hmade⟩
  rw [hbetween] at hmade
  rcases multipliers_of_mark hmade hr hn false with ⟨a₂, hmark, hmade'⟩
  refine ⟨id', a₂, ?_, hmade'⟩
  rw [run_multipliers_braces hq, run_bind_of_ok hrun]
  exact hmark

theorem multipliers_of_refined (hquantifies : Quantifies a a' start t id) (hr : Ends r)
    (hq : q.Writable) (hseparator : q.separator? = some ',')
    (hstart : '\x7b' :: (q.inBraces.toList ++ '\x7d' :: (q.mark ++ r)) <:+ start) {n : Nat}
    (hn : q.mark.length < n) :
    ∃ id' a'', (multipliers start (n + 2) false id).run
        ⟨source, '#' :: '\x7b' :: (q.inBraces.toList ++ '\x7d' :: (q.mark ++ r)), a'⟩ =
      (.ok id', ⟨source, r, a''⟩) ∧ a.Made a'' t q id' := by
  rcases hquantifies source _ ⟨1, none, some ',', false⟩ hstart with ⟨id', a₁, hrun, hmade⟩
  have hrefined : { (a₁.node id').quantifier with min := q.min, max? := q.max? } =
      { q with required := false } := by
    rcases hmade with ⟨_, -, -, -, -, -, hquantifier⟩
    rw [hquantifier, hseparator]
  have hmodify := hmade.modify { q with required := false }
  rcases multipliers_of_mark hmodify hr hn false with ⟨a₂, hmark, hmade'⟩
  refine ⟨id', a₂, ?_, hmade'⟩
  rw [run_multipliers_char rfl, run_bind_of_ok hrun, decide_eq_true rfl, run_multipliers_refined hq,
    hrefined]
  exact hmark

/-- The multipliers of a quantifier that is not plain are put on a component together. -/
theorem multipliers_of_quantifies (hquantifies : Quantifies a a' start t id) (hq : q.Writable)
    (hplain : ¬q.Plain) (hr : Ends r) (hstart : q.render.toList ++ r <:+ start) {n : Nat}
    (hn : q.render.toList.length < n) :
    ∃ id' a'', (multipliers start n false id).run ⟨source, q.render.toList ++ r, a'⟩ =
      (.ok id', ⟨source, r, a''⟩) ∧ a.Made a'' t q id' := by
  obtain ⟨n, rfl⟩ := Nat.exists_eq_succ_of_ne_zero (Nat.ne_zero_of_lt hn)
  rcases Quantifier.render_cases hq.proper hplain with
    ⟨c, hrender, hc⟩ | ⟨hseparator, hrender⟩ | ⟨hseparator, hrender⟩
  · rw [hrender] at hn hstart ⊢
    exact multipliers_of_char hquantifies hr hc ((suffix_cons c _).trans hstart)
      (Nat.lt_of_succ_lt_succ hn)
  · rw [hrender, cons_append, append_assoc] at hstart
    rw [hrender] at hn ⊢
    have hmark : q.mark.length < n := by
      simp at hn
      omega
    have hbraces : q.mark ++ r <:+ '\x7b' :: (q.inBraces.toList ++ '\x7d' :: (q.mark ++ r)) :=
      suffix_append ('\x7b' :: (q.inBraces.toList ++ ['\x7d'])) (q.mark ++ r) |>.trans (by simp)
    rw [cons_append, append_assoc]
    exact multipliers_of_braces hquantifies hr hq hseparator (hbraces.trans hstart) hmark
  · rw [hrender, cons_append, cons_append, append_assoc] at hstart
    rw [hrender] at hn ⊢
    rcases n with _ | n
    · simp at hn
    · have hmark : q.mark.length < n := by
        simp at hn
        omega
      rw [cons_append, cons_append, append_assoc]
      exact multipliers_of_refined hquantifies hr hq hseparator ((suffix_cons _ _).trans hstart)
        hmark

/-- The multipliers of any quantifier are put on a component that has none. -/
theorem multipliers_of_made (hmade : a.Made a' t .one id) (hq : q.Writable) (hr : Ends r)
    (hstart : q.render.toList ++ r <:+ start) {n : Nat} (hn : q.render.toList.length < n) :
    ∃ id' a'', (multipliers start n false id).run ⟨source, q.render.toList ++ r, a'⟩ =
      (.ok id', ⟨source, r, a''⟩) ∧ a.Made a'' t q id' := by
  by_cases hplain : q.Plain
  · have hone : Quantifier.one = { q with required := false } := by
      rcases hplain with ⟨hmin, hmax, hseparator⟩
      rw [hmin, hmax, hseparator]
      rfl
    rw [hone] at hmade
    rw [Quantifier.render_toList, hplain.bounds_eq_empty] at hn ⊢
    rcases multipliers_of_mark hmade hr hn false with ⟨a₁, hmark, hmade'⟩
    exact ⟨id, a₁, hmark, hmade'⟩
  · exact multipliers_of_quantifies (quantifies_of_one hmade) hq hplain hr hstart hn

end Definition

end StyleGrammar

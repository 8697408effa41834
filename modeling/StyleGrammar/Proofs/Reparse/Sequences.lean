import StyleGrammar.Proofs.Reparse.Values

/-!
# Sequences are read back as they are

What a sequence prints spells it, in whatever way its values stand next to each
other (`Sequence.prints_bracketed`).  Here the components that spell a sequence
are read as that sequence, and so are the functions that hold sequences: the
values inside a function have one level less, so that its arguments are read
back by induction on the levels.
-/

namespace StyleGrammar

open Reader Output Component Scan

variable {d n : Nat} {ks ls : List Component}

theorem Reader.Each.blanks {α : Type} {p : Reader α} {as : List α} (h : Each p n as ks) :
    Each p n as (.blanks .start :: ks) := by
  cases h with
  | nil hskip => exact .nil hskip
  | cons hne ha hlt h =>
    exact .cons hne (ha.before fun c hc => hc.of_skip rfl) (Nat.lt_succ_of_lt hlt) h

variable {V : Type} [Term V] {good : V → Prop}

namespace Sequence

/-- A value and the one component that it is read from. -/
def ReadFromOne (v : V) (ks : List Component) : Prop := ∃ k, ks = [k] ∧ ReadFrom v k

/-- Where a value is read, no bracket opens. -/
theorem fails_square (hV : Lawful V good) {P Q : Cursor → Prop} {v : V}
    (h : Takes P Q v Readable.read) : Fails P square := by
  refine hV.fails_expect (fun t ht => ?_) h
  have ht : t = .openSquare := by simpa using ht
  subst ht
  exact ⟨by simp, _, rfl⟩

/-- The components that spell a sequence are read item by item. -/
theorem exists_each (hV : Lawful V good) {vs : List V} (h : Spells ReadFromOne vs ks)
    (hfits : Fits d n ks) : ∃ vss, vss.flatten = vs ∧ Each (readItem (readWithin d)) n vss ks := by
  induction h generalizing d n with
  | nil => exact ⟨[], rfl, .nil rfl⟩
  | blanks _ ih =>
    obtain ⟨vss, hvss, heach⟩ := ih hfits.tail
    exact ⟨vss, hvss, heach.blanks⟩
  | @value v vs _ ls hv _ ih =>
    obtain ⟨k, rfl, hsolid, hread⟩ := hv
    obtain ⟨vss, rfl, heach⟩ := ih hfits.right
    have hvalue := hread n ls (by simpa [depthAll] using hfits.left.nesting)
    have hitem : Takes (Ahead n (k :: ls)) (Stand n ls) [v] (readItem (readWithin d)) :=
      (fails_square hV hvalue).succeeds.bind (hvalue.bind (.pure [v]))
    refine ⟨[v] :: vss, rfl, .cons ?_ hitem (by simp) heach⟩
    simp [skip_cons hsolid]
  | @brackets vs ws ks ls _ _ ih ih' =>
    obtain ⟨d', rfl, hlimit, hinside⟩ := hfits.head.content
    obtain ⟨vss, rfl, heach⟩ := ih hinside
    obtain ⟨wss, rfl, heach'⟩ := ih' hfits.tail
    have hcontent : Takes (Stand (n + 1) ks) (Ahead (n + 1) []) vss.flatten (readWithin (d' + 1)) :=
      (Takes.untilEnd heach).map List.flatten
    have hopen : Takes (Ahead n (.block .openSquare .start ks .start :: ls)) (Inside n ks ls) ()
        square :=
      takes_opener rfl
    have hitem : Takes (Ahead n (.block .openSquare .start ks .start :: ls)) (Stand n ls)
        (delimiter '[' :: vss.flatten ++ [delimiter ']']) (readItem (readWithin (d' + 1))) :=
      hopen.succeeds.bind ((Takes.nestedBlock hlimit hcontent).bind (.pure _))
    refine ⟨_ :: wss, ?_, .cons (by simp) hitem (by simp) heach'⟩
    simp

theorem takes_read (hV : Lawful V good) {vs : List V} (h : Spells ReadFromOne vs ks)
    (hfits : Fits nestingLimit n ks) :
    Takes (Stand n ks) (Ahead n []) vs (Sequence.read : Reader (List V)) := by
  obtain ⟨vss, rfl, heach⟩ := exists_each hV h hfits
  exact (Takes.untilEnd heach).map List.flatten

theorem takes_readFallback (hV : Lawful V good) {vs? : Option (List V)}
    (h : SpellsFallback ReadFromOne vs? ks) (hfits : Fits nestingLimit n ks) :
    Takes (Stand n ks) (Ahead n []) vs? (readFallback : Reader (Option (List V))) := by
  cases h with
  | none =>
    have hend : Fails (Stand n []) comma := fails_end.before fun _ hc => hc.ahead
    exact hend.succeeds.bind ((Takes.pure none).after fun _ hc => hc.ahead)
  | @some vs ks h =>
    have hcomma : Takes (Stand n (.token .comma .start :: ks)) (Stand n ks) () Reader.comma :=
      Takes.before (takes_token rfl) fun _ hc => hc.ahead
    exact hcomma.succeeds.bind ((takes_read hV h hfits.tail).map some)

/-- Neither is the comma of a fallback taken for something that stands before it. -/
theorem fails_fallback {α : Type} {vs? : Option (List V)} (h : SpellsFallback ReadFromOne vs? ks)
    {f : Token → Option α} (hf : f .comma = none) : Fails (Stand n ks) (expect f) := by
  cases h with
  | none => exact fails_end.before fun _ hc => hc.ahead
  | some _ => exact (fails_token hf).before fun _ hc => hc.ahead

theorem Bracketed.imp {P : V → Prop} {vs : List V} (h : Bracketed good vs)
    (himp : ∀ v ∈ vs, good v → P v) : Bracketed P vs := by
  induction h with
  | nil => exact .nil
  | cons hv _ ih =>
    exact .cons (himp _ List.mem_cons_self hv) (ih fun v hv => himp v (List.mem_cons_of_mem _ hv))
  | brackets _ _ ih ih' =>
    refine .brackets (ih fun v hv => himp v ?_) (ih' fun v hv => himp v ?_) <;> simp [hv]

end Sequence

/-! ## Functions over sequences -/

theorem makes_dashedIdentifier {s : String} (hdashed : isDashed s = true) (h : IsName s) :
    Makes wordStops (chars (dashedIdentifier s)) [.token (.ident s) .start] := by
  obtain ⟨r, hr⟩ := List.isPrefixOf_iff_prefix.mp hdashed
  have hs : s = String.ofList ('-' :: '-' :: r) := by
    rw [← String.ofList_toList (s := s), ← hr]
    rfl
  have hsound : Sound r := fun c hc => h.sound c (by rw [← hr]; simp [hc])
  subst hs
  simpa [dashedIdentifier, dashedIdentifier.dashless] using Makes.dashed hsound

/-- The content of a function, and what it is read as. -/
def HoldsContent {α : Type} (o : Output) (a : α) (p : Reader α) : Prop :=
  ∃ ks, Makes closers (chars o) ks ∧
    ∀ n, Fits nestingLimit n ks → Takes (Stand n ks) (Ahead n []) a p

theorem takes_call {α : Type} {p : Reader α} {a : α} (name : String)
    (h : Takes (Stand n ks) (Ahead n []) a p) :
    Takes (Ahead n (.block (.function name) .start ks .start :: ls)) (Stand n ls) a
      (functionNamed name >>= fun _ => block p) := by
  have hname : Takes (Ahead n (.block (.function name) .start ks .start :: ls)) (Inside n ks ls) ()
      (functionNamed name) :=
    takes_opener (by simp [sameName])
  exact hname.bind h.block

namespace Form

open Sequence

/-- A function is a value that is read from one component, if its content is. -/
theorem spelled_function {α : Type} {o : Output} {a : α} {p : Reader α} {name : String} {k : Kind}
    {compact : Bool} {v : Form V} (hcontent : HoldsContent o a p)
    (hname : isFunctionName name = true) (hkind : functionKind? name = some k)
    (hprint : print compact v = call name o) (hleaf : v.leaf? = none)
    (hread : ∀ n ks ls, Takes (Stand n ks) (Ahead n []) a p →
      Takes (Ahead n (.block (.function name) .start ks .start :: ls)) (Stand n ls) v
        (readFunction k)) :
    Spelled ReadFromOne compact v := by
  obtain ⟨ks, hks, htakes⟩ := hcontent
  have hmakes := makes_call hname hks
  have hbegins := begins_call hname o
  rw [← hprint] at hmakes hbegins
  refine .text ?_ ⟨_, rfl, rfl, fun n ls hn => ?_⟩ hmakes hbegins
  · unfold delimiter?
    rw [show Term.leaf? v = none from hleaf]
  rw [depth] at hn
  have hlimit : nestingLimit = 128 := rfl
  have hinside := htakes (n + 1) ⟨by omega, by omega⟩
  intro c hc
  obtain ⟨c', hnext, -⟩ := next_block hc
  change ∃ c', readForm c = .ok (v, c') ∧ _
  rw [readForm_function hnext hkind]
  exact (hread (n + 1) ks ls hinside).nestedAhead (by omega) c hc

variable {compact : Bool} {vs : List V} {vs? : Option (List V)}

/-- The content of a transform or a filter. -/
theorem holds_print (hV : Lawful V good) (h : Bracketed (Spelled ReadFromOne compact) vs) :
    HoldsContent (Sequence.print compact vs) vs Sequence.read := by
  obtain ⟨ks, hks, hspells⟩ := (prints_bracketed (delimiter?_delimiter hV '[')
    (delimiter?_delimiter hV ']') h false).spells
  exact ⟨ks, hks, fun n hfits => takes_read hV hspells hfits⟩

/-- A fallback behind something else, the reader of which goes on with that of the fallback. -/
theorem holds_fallback (hV : Lawful V good)
    (h : ∀ vs ∈ vs?, Bracketed (Spelled ReadFromOne compact) vs) {β : Type} {o : Output} {b : β}
    {q : Reader β} (ho : Makes wordStops (chars o) ks)
    (hq : ∀ n ls, Fits nestingLimit n ks → SpellsFallback (ReadFromOne (V := V)) vs? ls →
      Takes (Stand n ls) (Ahead n []) vs? (readFallback : Reader (Option (List V))) →
      Takes (Stand n (ks ++ ls)) (Ahead n []) b q) :
    HoldsContent (o ++ printFallback compact vs?) b q := by
  obtain ⟨⟨ls, hls, hspells⟩, hapart⟩ := prints_fallback (delimiter?_delimiter hV '[')
    (delimiter?_delimiter hV ']') h
  refine ⟨ks ++ ls, by rw [chars_append]; exact ho.append hls hapart (by decide), fun n hfits => ?_⟩
  exact hq n ls hfits.left hspells (takes_readFallback hV hspells hfits.right)

theorem takes_name {s : String} :
    Takes (Stand n (.token (.ident s) .start :: ls)) (Stand n ls) s ident :=
  Takes.before (takes_token rfl) fun _ hc => hc.ahead

theorem spelled_var (hV : Lawful V good) {x : Var V} (hx : x.Good good)
    (h : ∀ vs ∈ x.fallback?, Bracketed (Spelled ReadFromOne compact) vs) :
    Spelled ReadFromOne compact (var x) := by
  have hcontent : HoldsContent (dashedIdentifier x.name.name ++ printFallback compact x.fallback?) x
      (do
        let name ← read
        return ⟨name, ← readFallback⟩) := by
    refine holds_fallback hV h (makes_dashedIdentifier hx.dashed hx.name)
      fun n ls _ _ hfallback => ?_
    have hname : Takes (Stand n ([.token (.ident x.name.name) .start] ++ ls)) (Stand n ls) x.name
        read :=
      Takes.before (takes_token (by simp [hx.dashed])) fun _ hc => hc.ahead
    exact hname.bind (hfallback.bind (.pure _))
  exact spelled_function hcontent (show isFunctionName "var" = true by decide)
    (functionKind?_of_mem (k := .var) List.mem_cons_self) rfl rfl
    fun n ks ls h => (takes_call "var" h).map var

/-- The text of integers is read as the integers, up to what is none. -/
theorem exists_several {is : List Int} (h : ∀ i ∈ is, Reread compact i) :
    ∃ ks, Makes wordStops (chars (is.flatMap fun i => char ' ' ++ print compact i)) ks ∧
      ∀ n ls, Fits nestingLimit n ks → Fails (Stand n ls) integer →
        Several integer n ls is (ks ++ ls) := by
  induction is with
  | nil => exact ⟨[], .nil, fun n ls _ hstop => .nil hstop⟩
  | cons i is ih =>
    obtain ⟨hi, his⟩ := List.forall_mem_cons.mp h
    obtain ⟨ks, hks, hseveral⟩ := ih his
    have hhead (r r' : List Component) :
        Twin (Front 124 r r') (Opened 126 r r') (fun _ => True) (read : Reader Int) read := by
      have hinteger : Twin (Front 124 r r') (Opened 124 r r') (fun _ => True) integer integer :=
        Twin.expect fun _ _ _ _ => trivial
      exact hinteger.mono (fun _ => id) fun _ _ h => h.mono (by decide)
    obtain ⟨k, hk, -, hread⟩ := exists_readFrom hhead (prints_int i compact) hi
    have hapart : Apart wordStops (chars (is.flatMap fun i => char ' ' ++ print compact i)) :=
      (trails_flatMap fun i _ => trails_space (prints_int i compact).neat).2
    refine ⟨.blanks .start :: ([k] ++ ks), ?_, fun n ls hfits hstop => ?_⟩
    · rw [List.flatMap_cons, chars_append, chars_append, chars_char]
      exact (hk.blank (prints_int i compact).2.shows).append hks hapart (List.Subset.refl _)
    · have hinteger : Takes (Stand n (.blanks .start :: k :: (ks ++ ls))) (Stand n (ks ++ ls)) i
          integer :=
        (hread.takes n (ks ++ ls) (by simpa [depthAll] using hfits.tail.left.nesting)).before
          fun c hc => hc.ahead.of_skip rfl
      exact .cons hinteger (by grind) (hseveral n ls hfits.tail.right hstop)

theorem spelled_env (hV : Lawful V good) {e : Env V} (he : e.Good good)
    (hindices : ∀ i ∈ e.indices, Reread compact i)
    (h : ∀ vs ∈ e.fallback?, Bracketed (Spelled ReadFromOne compact) vs) :
    Spelled ReadFromOne compact (env e) := by
  obtain ⟨ks, hks, hseveral⟩ := exists_several hindices
  have hapart : Apart wordStops
      (chars (e.indices.flatMap fun i => char ' ' ++ print compact i)) :=
    (trails_flatMap fun i _ => trails_space (prints_int i compact).neat).2
  have hhead := (makes_identifier he.name).append hks hapart (List.Subset.refl _)
  rw [← chars_append] at hhead
  have hcontent : HoldsContent (identifier e.name ++
      (e.indices.flatMap fun i => char ' ' ++ print compact i) ++
        printFallback compact e.fallback?) e
      (do
        let name ← ident
        let indices ← many integer
        return ⟨name, indices, ← readFallback⟩) := by
    refine holds_fallback hV h hhead fun n ls hfits hspells hfallback => ?_
    rw [List.append_assoc]
    have hstop : Fails (Stand n ls) integer := fails_fallback hspells rfl
    exact takes_name.bind
      ((Takes.many (hseveral n ls hfits.right hstop)).bind (hfallback.bind (.pure _)))
  exact spelled_function hcontent (show isFunctionName "env" = true by decide)
    (functionKind?_of_mem (k := .env) List.mem_cons_self) rfl rfl
    fun n ks ls h => (takes_call "env" h).map env

/-- The text of a type or unit is read as it, if a fallback or nothing follows. -/
theorem exists_type (vs? : Option (List V)) {t? : Option String}
    (h : ∀ t ∈ t?, t = "%" ∨ IsName t) :
    ∃ ks, Makes wordStops (chars (Attr.printType t?)) ks ∧
      ∀ n ls, SpellsFallback ReadFromOne vs? ls →
        Takes (Stand n (ks ++ ls)) (Stand n ls) t? (attempt (expect Attr.typeOf?)) := by
  cases t? with
  | none =>
    have hnone (n : Nat) (ls : List Component) (hls : SpellsFallback ReadFromOne vs? ls) :
        Takes (Stand n ls) (Stand n ls) none (attempt (expect Attr.typeOf?)) :=
      (fails_fallback hls rfl).attempt
    exact ⟨[], .nil, hnone⟩
  | some t =>
    have hsome {token : Token} (htoken : Attr.typeOf? token = some t) (n : Nat)
        (ls : List Component) :
        Takes (Stand n ([.blanks .start, .token token .start] ++ ls)) (Stand n ls) (some t)
          (attempt (expect Attr.typeOf?)) :=
      ((takes_token htoken).before fun c hc => hc.ahead.of_skip rfl).attempt
    by_cases hpercent : t = "%"
    · subst hpercent
      have hmakes : Makes wordStops [' ', '%'] [.blanks .start, .token (.delim '%') .start] :=
        Makes.percent.blank ⟨'%', [], rfl, by decide⟩
      exact ⟨_, by simpa [Attr.printType] using hmakes, fun n ls _ => hsome rfl n ls⟩
    · have hname := (h t rfl).resolve_left hpercent
      have hmakes := (makes_identifier hname).blank (solid_identifier hname.nonempty).2.shows
      have hshape : chars (Attr.printType (some t)) = ' ' :: chars (identifier t) := by
        unfold Attr.printType
        split
        next heq => exact absurd (Option.some.inj heq) hpercent
        next heq =>
          cases heq
          simp
        next heq => cases heq
      exact ⟨_, hshape ▸ hmakes, fun n ls _ => hsome rfl n ls⟩

theorem spelled_attr (hV : Lawful V good) {a : Attr V} (ha : a.Good good)
    (h : ∀ vs ∈ a.fallback?, Bracketed (Spelled ReadFromOne compact) vs) :
    Spelled ReadFromOne compact (attr a) := by
  obtain ⟨ks, hks, htype⟩ := exists_type a.fallback? ha.type
  have hhead := (makes_identifier ha.name).append hks (Attr.trails_printType ha.type).2
    (List.Subset.refl _)
  rw [← chars_append] at hhead
  have hcontent : HoldsContent (identifier a.name ++ Attr.printType a.type? ++
      printFallback compact a.fallback?) a
      (do
        let name ← ident
        let type? ← attempt (expect Attr.typeOf?)
        return ⟨name, type?, ← readFallback⟩) := by
    refine holds_fallback hV h hhead fun n ls _ hspells hfallback => ?_
    rw [List.append_assoc]
    exact takes_name.bind ((htype n ls hspells).bind (hfallback.bind (.pure _)))
  exact spelled_function hcontent (show isFunctionName "attr" = true by decide)
    (functionKind?_of_mem (k := .attr) List.mem_cons_self)
    (Attr.print_eq compact a) rfl fun n ks ls h => (takes_call "attr" h).map attr

theorem spelled_paint (hV : Lawful V good) {p : Paint V} (hp : p.Good good)
    (h : Bracketed (Spelled ReadFromOne compact) p.arguments) :
    Spelled ReadFromOne compact (paint p) := by
  have harguments : (⟨p.name, p.arguments?.getD []⟩ : Paint V) = p := by
    obtain ⟨name, arguments⟩ := p
    cases arguments <;> rfl
  have hfallback : ∀ vs ∈ p.arguments?, Bracketed (Spelled ReadFromOne compact) vs := by
    intro vs hvs
    unfold Paint.arguments? at hvs
    split at hvs
    · cases hvs
    · cases hvs
      exact h
  have hcontent : HoldsContent (identifier p.name ++ printFallback compact p.arguments?) p
      (do
        let name ← ident
        let arguments? ← readFallback
        return ⟨name, arguments?.getD []⟩) := by
    refine holds_fallback hV hfallback (makes_identifier hp.name) fun n ls _ _ hfallback => ?_
    have hend : Takes (Ahead n []) (Ahead n []) p
        (pure (⟨p.name, p.arguments?.getD []⟩ : Paint V)) := by
      rw [harguments]
      exact .pure p
    exact takes_name.bind (hfallback.bind hend)
  exact spelled_function hcontent (show isFunctionName "paint" = true by decide)
    (functionKind?_of_mem (k := .paint) List.mem_cons_self)
    (Paint.print_eq compact p) rfl fun n ks ls h => (takes_call "paint" h).map paint

theorem transformName_mem_all (t : TransformName) : t ∈ (Keyword.all : List TransformName) := by
  cases t <;> simp [Keyword.all]

theorem ofName?_transformName (t : TransformName) :
    Keyword.ofName? TransformName (Keyword.name t) = some t :=
  ofName?_name (transformName_mem_all t) (by decide)

theorem functionKind?_transformName (t : TransformName) :
    functionKind? (Keyword.name t) = some .transform := by
  have hnames : ((Keyword.all : List TransformName).map fun t => (Keyword.name t).toLower) =
      namesOf .transform := by
    decide +kernel
  exact functionKind?_eq_some_iff.mpr (hnames ▸ List.mem_map_of_mem (transformName_mem_all t))

example : functionKind? "scalex" = functionKind? "scaleX" := by decide +kernel

theorem spelled_transform (hV : Lawful V good) {t : Transform V} (ht : t.Good good)
    (h : Bracketed (Spelled ReadFromOne compact) t.arguments) :
    Spelled ReadFromOne compact (transform t) := by
  refine spelled_function (holds_print hV h) (isFunctionName_transformName t.name)
    (functionKind?_transformName t.name) rfl rfl fun n ks ls h => Takes.map transform ?_
  refine Takes.place fun l =>
    (takes_opener (ofName?_transformName t.name)).bind (h.block.bind ?_)
  simp only [ht.arity]
  exact .pure t

theorem filterName_mem_all (f : FilterName) : f ∈ (Keyword.all : List FilterName) := by
  cases f <;> simp [Keyword.all]

theorem ofName?_filterName (f : FilterName) :
    Keyword.ofName? FilterName (Keyword.name f) = some f :=
  ofName?_name (filterName_mem_all f) (by decide)

theorem functionKind?_filterName (f : FilterName) :
    functionKind? (Keyword.name f) = some .filter := by
  have hnames : namesOf .filter = (Keyword.all : List FilterName).map Keyword.name := rfl
  exact functionKind?_of_mem (hnames ▸ List.mem_map_of_mem (filterName_mem_all f))

theorem spelled_filter (hV : Lawful V good) {f : Filter V} (hf : f.Good good)
    (h : Bracketed (Spelled ReadFromOne compact) f.arguments) :
    Spelled ReadFromOne compact (filter f) := by
  refine spelled_function (holds_print hV h) (isFunctionName_filterName f.name)
    (functionKind?_filterName f.name) rfl rfl fun n ks ls h => Takes.map filter ?_
  refine Takes.place fun l =>
    (takes_opener (ofName?_filterName f.name)).bind (h.block.bind ?_)
  simp only [hf.admitted]
  exact .pure f

end Form

/-! ## Values and lists -/

/-- A delimiter, or what is read from its own text. -/
theorem spelled_reread (hV : Lawful V good)
    (hleaf : ∀ (v : V) l, Term.leaf? v = some l → v = Term.ofLeaf l)
    {compact : Bool} {v : V} (hv : good v)
    (h : (∃ c, Term.leaf? v = some (.delimiter c)) ∨ Reread compact v) :
    Sequence.Spelled Sequence.ReadFromOne compact v := by
  have hdelimiter {c : Char} (hc : Sequence.delimiter? v = some c) :
      v = Term.ofLeaf (.delimiter c) := by
    unfold Sequence.delimiter? at hc
    split at hc
    next c' hv =>
      cases hc
      exact hleaf v _ hv
    next => cases hc
  have htoken {c : Char} {t : Token} (hc : Sequence.delimiter? v = some c)
      (hfunction : ∀ n, t ≠ .function n) (ht : Leaf.ofToken t = .ok (.delimiter c)) :
      Sequence.ReadFromOne v [.token t .start] := by
    refine ⟨_, rfl, rfl, fun n ls _ cursor hcursor => ?_⟩
    obtain ⟨c', hnext, hc', -⟩ := next_token hcursor
    exact ⟨c', by rw [hV.token cursor c' t hnext hfunction, ht, hdelimiter hc], hc'⟩
  rcases Sequence.solid_or hV hv with hcomma | hslash | ⟨hnone, hsolid⟩
  · exact .comma hcomma (htoken hcomma (by simp) rfl)
  · exact .slash hslash (htoken hslash (by simp) rfl)
  · have hreread : Reread compact v := by
      refine h.resolve_left ?_
      rintro ⟨c, hc⟩
      simp [Sequence.delimiter?, hc] at hnone
    obtain ⟨k, hmakes, -, hread⟩ := exists_readFrom hV.opened (hsolid compact) hreread
    exact .text hnone ⟨k, rfl, hread⟩ hmakes (hsolid compact).2

namespace Form

variable {compact : Bool} {inner : V → Prop}

/-- A function over sequences is restored if what it holds is, and any other value if it is read
from its own text.  Delimiters are in any case. -/
def Restorable (compact : Bool) (inner : V → Prop) : Form V → Prop
  | leaf (.delimiter _) => True
  | paint p => ∀ v ∈ p.arguments, inner v
  | attr a => ∀ vs ∈ a.fallback?, ∀ v ∈ vs, inner v
  | env e => (∀ i ∈ e.indices, Reread compact i) ∧ ∀ vs ∈ e.fallback?, ∀ v ∈ vs, inner v
  | var x => ∀ vs ∈ x.fallback?, ∀ v ∈ vs, inner v
  | transform t => ∀ v ∈ t.arguments, inner v
  | filter f => ∀ v ∈ f.arguments, inner v
  | v => Reread compact v

omit [Term V] in
theorem eq_leaf {v : Form V} {l : Leaf} (h : v.leaf? = some l) : v = leaf l := by
  cases v <;> cases h
  rfl

theorem Restorable.spelled (hV : Lawful V good)
    (hinner : ∀ v, good v → inner v → Sequence.Spelled Sequence.ReadFromOne compact v) {v : Form V}
    (hv : v.Good good) (h : v.Restorable compact inner) :
    Sequence.Spelled Sequence.ReadFromOne compact v := by
  have hheld {vs : List V} (hvs : Sequence.Bracketed good vs) (h : ∀ v ∈ vs, inner v) :
      Sequence.Bracketed (Sequence.Spelled Sequence.ReadFromOne compact) vs :=
    hvs.imp fun v hmem hgood => hinner v hgood (h v hmem)
  have hsimple {v : Form V} (hv : v.Good good)
      (h : (∃ c, v.leaf? = some (.delimiter c)) ∨ Reread compact v) :
      Sequence.Spelled Sequence.ReadFromOne compact v :=
    spelled_reread (lawful hV) (fun _ _ => eq_leaf) hv h
  cases v with
  | leaf l =>
    cases l with
    | delimiter c => exact hsimple hv (.inl ⟨c, rfl⟩)
    | _ => exact hsimple hv (.inr h)
  | paint p => exact spelled_paint hV hv (hheld hv.arguments h)
  | attr a => exact spelled_attr hV hv fun vs hvs => hheld (hv.fallback vs hvs) (h vs hvs)
  | env e => exact spelled_env hV hv h.1 fun vs hvs => hheld (hv.fallback vs hvs) (h.2 vs hvs)
  | var x => exact spelled_var hV hv fun vs hvs => hheld (hv.fallback vs hvs) (h vs hvs)
  | transform t => exact spelled_transform hV hv (hheld hv.arguments h)
  | filter f => exact spelled_filter hV hv (hheld hv.arguments h)
  | _ => exact hsimple hv (.inr h)

end Form

namespace Nested

/-- Values of every depth that are restored. -/
def Restorable (compact : Bool) : (depth : Nat) → Nested depth → Prop
  | 0 => fun l => (∃ c, l = Leaf.delimiter c) ∨ Reread compact l
  | n + 1 => Form.Restorable compact (Nested.Restorable compact n)

theorem Restorable.spelled {compact : Bool} {depth : Nat} {v : Nested depth}
    (hv : Nested.Good depth v) (h : Nested.Restorable compact depth v) :
    Sequence.Spelled Sequence.ReadFromOne compact v := by
  induction depth with
  | zero =>
    refine spelled_reread Leaf.lawful (fun v l hl => Option.some.inj hl) hv (h.imp_left ?_)
    rintro ⟨c, rfl⟩
    exact ⟨c, rfl⟩
  | succ n ih => exact Form.Restorable.spelled (Nested.lawful n) (fun v => ih) hv h

end Nested

namespace Value

/-- Values that their text gives back. -/
def Restorable (compact : Bool) (v : Value) : Prop :=
  Form.Restorable compact (Nested.Restorable compact (nestingLimit - 1)) v

/-- The values of a declaration are given back by their text, spaced or compact, if those that hold
no sequences are given back by their own and the text nests at most 60 levels deep. -/
theorem listOfText_listText (compact : Bool) {s : String} {vs : List Value}
    (hread : listOfText s = .ok vs) (h : ∀ v ∈ vs, v.Restorable compact)
    (hdepth : depthAll (ofText (listText compact vs).toList) ≤ 60) :
    listOfText (listText compact vs) = .ok vs := by
  have hV := Form.lawful (Nested.lawful (nestingLimit - 1))
  have hgood := (Sequence.steady_read hV).good_of_run hread
  have hspelled : Sequence.Bracketed (Sequence.Spelled Sequence.ReadFromOne compact) vs :=
    hgood.imp fun v hmem hv =>
      Form.Restorable.spelled (Nested.lawful _) (fun _ => Nested.Restorable.spelled) hv (h v hmem)
  obtain ⟨ks, hks, hspells⟩ := (Sequence.prints_bracketed (Sequence.delimiter?_delimiter hV '[')
    (Sequence.delimiter?_delimiter hV ']') hspelled false).spells
  have htext : bareAll (ofText (listText compact vs).toList) = ks := by
    rw [listText, toList_render]
    exact hks.bareAll_ofText
  rw [← depthAll_bareAll, htext] at hdepth
  have hlimit : nestingLimit = 128 := rfl
  have hfits : Fits nestingLimit 0 ks := ⟨by omega, by omega⟩
  exact run_of_takes htext (Sequence.takes_read hV hspells hfits)

/-- An empty fallback, a slash, and a transform and a comma in brackets. -/
def mixed : List Value :=
  [.var ⟨⟨"--x"⟩, some []⟩, .leaf (.delimiter '/'), .leaf (.delimiter '['),
    .transform ⟨.scale, [Form.leaf (.integer 2)]⟩, .leaf (.delimiter ','), .leaf (.delimiter ']')]

theorem reread_two (compact : Bool) :
    Reread compact (Form.leaf (.integer 2) : Nested (nestingLimit - 1)) := by
  cases compact <;> decide +kernel

/-- No separator and no bracket is lost, and the fallback stays, though it is empty. -/
theorem listOfText_mixed : listText true mixed = "var(--x,)/[scale(2),]" ∧
    listOfText (listText true mixed) = .ok mixed ∧
      listOfText (listText false mixed) = .ok mixed := by
  have hread : listOfText "var(--x,) / [scale(2) ,]" = .ok mixed := by
    decide +kernel
  have hmixed (compact : Bool) : ∀ v ∈ mixed, v.Restorable compact := by
    simp only [mixed, List.forall_mem_cons, List.not_mem_nil, false_implies, implies_true, and_true]
    refine ⟨fun vs hvs v hv => ?_, trivial, trivial, fun v hv => ?_, trivial, trivial⟩
    · cases hvs
      cases hv
    · rw [List.mem_singleton.mp hv]
      exact reread_two compact
  have hdepth (compact : Bool) : depthAll (ofText (listText compact mixed).toList) ≤ 60 := by
    cases compact <;> decide +kernel
  exact ⟨by decide +kernel, listOfText_listText true hread (hmixed true) (hdepth true),
    listOfText_listText false hread (hmixed false) (hdepth false)⟩

end Value

end StyleGrammar

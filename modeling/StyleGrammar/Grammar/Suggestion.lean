import StyleGrammar.Grammar.Match
import StyleGrammar.Value.Form

/-!
# Suggestions

What may come next in a match: keywords, data types, functions and delimiters, in the order of the
grammar and each one once.  Suggestions go as deep as matching does, but report a grammar that is
nested too deep, as well as data types and functions that nothing defines.
-/

namespace StyleGrammar

/-- Something that may come next. -/
inductive Suggestion
  | keyword (text : String)
  | dataType (name : String) (kinds : List Kind)
  | function (name : String) (kind : Kind)
  | delimiter (c : Char)
  deriving DecidableEq, Repr, Inhabited

namespace Suggestion

/-- A short text that stands for the suggestion. -/
def label : Suggestion → String
  | keyword text => text
  | dataType name _ => "<" ++ name ++ ">"
  | function name _ => name ++ "()"
  | delimiter c => String.singleton c

/-- A value to insert for the suggestion. -/
def defaultValue? : Suggestion → Option Value
  | keyword text => (readText Value text).toOption
  | dataType _ kinds => kinds.findSome? Kind.defaultValue?
  | function _ kind => kind.defaultValue?
  | delimiter c => some (.leaf (.delimiter c))

/-- The suggestion for a literal, a delimiter if it is one character that is no letter. -/
def ofLiteral (text : String) : Suggestion :=
  match text.toList with
  | [c] => if alphanumeric c then keyword text.toLower else delimiter c
  | _ => keyword text.toLower

end Suggestion

/-- Why there are no suggestions.  `raw` is the text of the node where the fault was met. -/
inductive SuggestionFault
  | unknownDataType (name raw : String)
  | nestingTooDeep (raw : String)
  deriving DecidableEq, Repr, Inhabited

def SuggestionFault.message : SuggestionFault → String
  | unknownDataType name raw =>
    "Unknown data type '" ++ name ++ "' in expression '" ++ raw ++ "'"
  | nestingTooDeep raw =>
    "Grammar nested deeper than " ++ toString Matcher.nestingLimit ++
      " levels in expression '" ++ raw ++ "'"

/-- Suggestions, perhaps with repetitions. -/
abbrev Offers := Except SuggestionFault (List Suggestion)

namespace Matcher

variable (m : Matcher)

def raw (id : NodeId) : String := (m.arena.node id).raw

def tooDeep (id : NodeId) : Offers := .error (.nestingTooDeep (m.raw id))

section Step

variable (offers : Progress → Offers)

/-- What may begin a sequence: its children up to the first one that has to take a value.  Also
whether there is no such child. -/
def headOffers : List NodeId → Except SuggestionFault (List Suggestion × Bool)
  | [] => .ok ([], true)
  | child :: rest => do
    let first ← offers (.start child)
    if m.isSatisfied (.start child) then
      let (others, all) ← headOffers rest
      return (first ++ others, all)
    else return (first, false)

/-- What may begin the children of a group that have not begun.  Also whether none of them has to
take a value. -/
def restOffers (unordered : Bool) :
    List (Option Progress) → List NodeId → Except SuggestionFault (List Suggestion × Bool)
  | none :: begun, child :: rest => do
    let first ← offers (.start child)
    let (others, all) ← restOffers unordered begun rest
    return (first ++ others, all && !(unordered && !m.isSatisfied (.start child)))
  | some _ :: begun, _ :: rest => restOffers unordered begun rest
  | _, _ => .ok ([], true)

/-- What may continue a repetition, and whether it may end here. -/
def repeatOffers (id : NodeId) : Repeat → Except SuggestionFault (List Suggestion × Bool)
  | .sequence index child => do
    let inside ← offers child
    if m.isSatisfied child then
      let (behind, all) ← m.headOffers offers ((m.children id).drop (index + 1))
      return (inside ++ behind, all)
    else return (inside, false)
  | .choice _ child | .reference child => do
    let inside ← offers child
    return (inside, m.isSatisfied child)
  | .group begun active =>
    let others := m.restOffers offers (m.isUnordered id) begun (m.children id)
    match begun[active]? with
    | some (some state) => do
      let inside ← offers state
      if m.isSatisfied state then
        let (behind, all) ← others
        return (inside ++ behind, all)
      else return (inside, false)
    | _ => others

/-- What may begin a repetition. -/
def freshOffers (id : NodeId) : Offers :=
  match m.kind id with
  | .literal text => .ok [.ofLiteral text]
  | .dataType name => .ok ((DataType.kinds? name).toList.map (.dataType name))
  | .function name _ =>
    match functionKind? name with
    | some kind => .ok [.function name.toLower kind]
    | none => .error (.unknownDataType name (m.raw id))
  | .placeholder => .error (.unknownDataType ((m.arena.node id).name?.getD "") (m.raw id))
  | .reference name target =>
    if !m.arena.isFilled target then .error (.unknownDataType name (m.raw id))
    else
      match DataType.compositeKinds? name with
      | some kinds => .ok [.dataType name kinds]
      | none => offers (.start target)
  | .sequence children => Prod.fst <$> m.headOffers offers children
  | .alternation children | .subset children | .unordered children =>
    List.flatten <$> children.mapM fun child => offers (.start child)

/-- What may come next, where `offers` says it for the children and `levels` are left for a new
repetition of the node. -/
def offersWith (levels : Nat) : Progress → Offers
  | .mk id count phase => do
    let q := m.quantifier id
    let fresh (count : Nat) (separated : Bool) : Offers :=
      if !q.allows count then .ok []
      else
        match q.separator?, 0 < count && !separated with
        | some c, true => .ok [.delimiter c]
        | _, _ => if levels = 0 then m.tooDeep id else m.freshOffers offers id
    match phase with
    | .between => fresh count false
    | .separated => fresh count true
    | .within r =>
      let (inside, complete) ← m.repeatOffers offers id r
      if complete then return inside ++ (← fresh (count + 1) false)
      else return inside

end Step

def offersWithin : (levels : Nat) → Progress → Offers
  | 0, p => m.tooDeep p.node
  | 1, p => m.offersWith (fun p => m.tooDeep p.node) 0 p
  | n + 2, p => m.offersWith (offersWithin n) (n + 1) p

/-- What may follow the values that were taken. -/
def suggestions (p : Progress) : Offers := List.eraseDups <$> m.offersWithin fullDepth p

/-- What may follow some values.  Rejected values are passed over, so that a mistake does not hide
what may follow the others. -/
def suggestionsAfter (p : Progress) : List Value → Offers
  | [] => m.suggestions p
  | v :: vs =>
    match m.take p v with
    | .rejected => suggestionsAfter p vs
    | .exhausted _ => .ok []
    | .continued next => suggestionsAfter next vs

end Matcher

end StyleGrammar

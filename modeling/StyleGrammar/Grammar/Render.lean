import StyleGrammar.Grammar.Arena

/-!
# The text of a grammar

A grammar is written with brackets around every group inside it, so that the text does not depend on
how tightly the combinators bind.
-/

namespace StyleGrammar

namespace Quantifier

def braces (s : String) : String := "\x7b" ++ s ++ "\x7d"

/-- Whether repetitions stand between commas. -/
def hasComma (q : Quantifier) : Bool := q.separator? = some ','

/-- The multiplier of a quantifier, without the exclamation mark. -/
def bounds (q : Quantifier) : String :=
  match q.min, q.max?, q.hasComma with
  | 1, some 1, false => ""
  | 0, some 1, false => "?"
  | 0, none, false => "*"
  | 1, none, false => "+"
  | 1, none, true => "#"
  | min, max?, comma =>
    (if comma then "#" else "") ++ braces (
      match max? with
      | some max => if max = min then toString min else toString min ++ "," ++ toString max
      | none => toString min ++ ",")

/-- The multipliers that stand behind a component. -/
def render (q : Quantifier) : String := q.bounds ++ if q.required then "!" else ""

end Quantifier

namespace Arena

/-- A literal that is no plain word or delimiter stands in quotes. -/
def renderLiteral (text : String) : String :=
  if text = "," || text = "/" then text
  else if text.toList.all fun c => alphanumeric c || c = '-' || c = '_' then text
  else "'" ++ text ++ "'"

/-- What stands between the children of a group. -/
def separatorOf : NodeKind → String
  | .unordered _ => " && "
  | .subset _ => " || "
  | .alternation _ => " | "
  | _ => " "

/-- The text of a node and the nodes below it, at most `depth` levels. -/
def renderWithin (a : Arena) : (depth : Nat) → (top : Bool) → NodeId → String
  | 0, _, _ => ""
  | n + 1, top, id =>
    let node := a.node id
    let children := node.children.map (a.renderWithin n false)
    match node.kind with
    | .literal text => renderLiteral text ++ node.quantifier.render
    | .dataType name | .reference name _ => "<" ++ name ++ ">" ++ node.quantifier.render
    | .placeholder => node.name?.getD ""
    | .function name _ =>
      let inside := if children.isEmpty then "" else " " ++ " ".intercalate children ++ " "
      name ++ "(" ++ inside ++ ")" ++ node.quantifier.render
    | kind =>
      let group := (separatorOf kind).intercalate children
      let bracketed := !top || !node.quantifier.isOne
      (if bracketed then "[ " ++ group ++ " ]" else group) ++ node.quantifier.render

/-- The text of a grammar.  Nodes are made of others, so no path is longer than there are nodes. -/
def render (a : Arena) (id : NodeId) : String := a.renderWithin (a.size + 1) true id

end Arena

end StyleGrammar

import StyleGrammar.Token.Scan

/-!
# Components

A text is read as a sequence of components: tokens, blanks, comments, and blocks.  A block is what a
function or an opening bracket encloses, up to the closing token that belongs to it; closing tokens
of other kinds inside are tokens like any other, and the end of the text closes every block that is
still open.  Each component knows the place where it ends.

The blocks are built by a fold over the lexemes of the text with the open blocks as its state.
-/

namespace StyleGrammar

/-- A lexeme and the place where it ends. -/
structure Located where
  lexeme : Lexeme
  stop : Location
  deriving DecidableEq, Repr, Inhabited

/-- The lexemes of a text that begins at a place. -/
def lexemes (place : Location) : List Char → List Located
  | [] => []
  | c :: r =>
    let l := Scan.lexeme c r
    have : l.2.length ≤ r.length := Scan.lexeme_length_le c r
    let stop := place.advance ((c :: r).take ((c :: r).length - l.2.length))
    ⟨l.1, stop⟩ :: lexemes stop l.2
termination_by s => s.length
decreasing_by simp [l] at this ⊢; omega

/-- A part of a text.  A block has its opening token, the place after it, its content, and the place
after its end. -/
inductive Component
  | token (t : Token) (stop : Location)
  | blanks (stop : Location)
  | comment (stop : Location)
  | block (opener : Token) (inside : Location) (content : List Component) (stop : Location)
  deriving Repr, Inhabited

namespace Component

/-- The place after a component. -/
def stop : Component → Location
  | token _ l | blanks l | comment l | block _ _ _ l => l

/-- Blanks and comments. -/
def isSpace : Component → Bool
  | blanks _ | comment _ => true
  | _ => false

/-- A comma that does not stand inside a block. -/
def isComma : Component → Bool
  | token .comma _ => true
  | _ => false

/-- A block whose end has not been reached, with the components read so far in it, last first. -/
structure Open where
  opener : Token
  inside : Location
  content : List Component

/-- The blocks that are open, innermost first, and the finished components around them. -/
structure Fold where
  opened : List Open
  done : List Component

/-- Adds a finished component to the innermost open block. -/
def Fold.push (f : Fold) (c : Component) : Fold :=
  match f.opened with
  | [] => { f with done := c :: f.done }
  | o :: os => { f with opened := { o with content := c :: o.content } :: os }

/-- Ends the innermost open block at a place. -/
def Fold.close (f : Fold) (stop : Location) : Fold :=
  match f.opened with
  | [] => f
  | o :: os => { f with opened := os }.push (.block o.opener o.inside o.content.reverse stop)

def Fold.step (f : Fold) (l : Located) : Fold :=
  match l.lexeme with
  | .blanks => f.push (.blanks l.stop)
  | .comment => f.push (.comment l.stop)
  | .token t =>
    if t.closer?.isSome then { f with opened := ⟨t, l.stop, []⟩ :: f.opened }
    else
      match f.opened with
      | o :: _ => if o.opener.closer? = some t then f.close l.stop else f.push (.token t l.stop)
      | [] => f.push (.token t l.stop)

/-- Ends every block that is still open. -/
def Fold.finish (f : Fold) (stop : Location) : List Component :=
  (f.opened.foldl (fun f _ => f.close stop) f).done.reverse

/-- The components of a text. -/
def ofText (s : List Char) : List Component :=
  let ls := lexemes .start s
  (ls.foldl Fold.step ⟨[], []⟩).finish (ls.getLast?.map Located.stop |>.getD .start)

end Component

end StyleGrammar

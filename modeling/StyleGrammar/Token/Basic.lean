import StyleGrammar.Number.Written
import StyleGrammar.Text.Quoted

/-!
# Tokens

The tokens of a style sheet.  Functions and opening brackets are tokens of their own; what they
enclose is not part of them.  `Token.describe` is the form in which messages show a token.
-/

namespace StyleGrammar

/-- A token.  `signed` says whether a number was written with a sign, and `int?` holds its value if
it was written as an integer.  A percentage stores the fraction of one that it stands for. -/
inductive Token
  | ident (name : String)
  | atKeyword (name : String)
  | hash (name : String)
  | idHash (name : String)
  | quotedString (text : String)
  | unquotedUrl (address : String)
  | delim (c : Char)
  | number (signed : Bool) (value : Single) (int? : Option Int)
  | percentage (signed : Bool) (fraction : Single) (int? : Option Int)
  | dimension (signed : Bool) (value : Single) (int? : Option Int) (unit : String)
  | colon
  | semicolon
  | comma
  | includeMatch
  | dashMatch
  | prefixMatch
  | suffixMatch
  | substringMatch
  | commentOpen
  | commentClose
  | function (name : String)
  | openParenthesis
  | openSquare
  | openCurly
  | badUrl (text : String)
  | badString (text : String)
  | closeParenthesis
  | closeSquare
  | closeCurly
  deriving DecidableEq, Repr, Inhabited

namespace Token

/-- The token that ends the block which a token begins. -/
def closer? : Token → Option Token
  | function _ | openParenthesis => some closeParenthesis
  | openSquare => some closeSquare
  | openCurly => some closeCurly
  | _ => none

def describeInt : Option Int → String
  | some n => "Some(" ++ toString n ++ ")"
  | none => "None"

/-- Fields between braces, each with its name. -/
def describeFields (name : String) (fields : List (String × String)) : String :=
  name ++ " \x7b " ++ ", ".intercalate (fields.map fun (n, v) => n ++ ": " ++ v) ++ " \x7d"

def describeText (name text : String) : String := name ++ "(" ++ Quoted.text text ++ ")"

/-- A token inside a message. -/
def describe : Token → String
  | ident n => describeText "Ident" n
  | atKeyword n => describeText "AtKeyword" n
  | hash n => describeText "Hash" n
  | idHash n => describeText "IDHash" n
  | quotedString t => describeText "QuotedString" t
  | unquotedUrl a => describeText "UnquotedUrl" a
  | delim c => "Delim(" ++ Quoted.char c ++ ")"
  | number s v i =>
    describeFields "Number"
      [("has_sign", toString s), ("value", Written.message v), ("int_value", describeInt i)]
  | percentage s v i =>
    describeFields "Percentage"
      [("has_sign", toString s), ("unit_value", Written.message v), ("int_value", describeInt i)]
  | dimension s v i u =>
    describeFields "Dimension"
      [("has_sign", toString s), ("value", Written.message v), ("int_value", describeInt i),
        ("unit", Quoted.text u)]
  | colon => "Colon"
  | semicolon => "Semicolon"
  | comma => "Comma"
  | includeMatch => "IncludeMatch"
  | dashMatch => "DashMatch"
  | prefixMatch => "PrefixMatch"
  | suffixMatch => "SuffixMatch"
  | substringMatch => "SubstringMatch"
  | commentOpen => "CDO"
  | commentClose => "CDC"
  | function n => describeText "Function" n
  | openParenthesis => "ParenthesisBlock"
  | openSquare => "SquareBracketBlock"
  | openCurly => "CurlyBracketBlock"
  | badUrl t => describeText "BadUrl" t
  | badString t => describeText "BadString" t
  | closeParenthesis => "CloseParenthesis"
  | closeSquare => "CloseSquareBracket"
  | closeCurly => "CloseCurlyBracket"

end Token

end StyleGrammar

import StyleGrammar.Text.Invisible

/-!
# Quotation in messages

Messages quote what they talk about: texts in double quotes, single characters in single quotes.
Inside, the quote and the backslash are escaped, and what does not show is spelled by its number.
-/

namespace StyleGrammar

namespace Quoted

/-- `\u` and the number of a character in braces. -/
def byNumber (c : Char) : List Char :=
  ['\\', 'u', '\x7b'] ++ Nat.toDigits 16 c.toNat ++ ['\x7d']

def escaped (quote c : Char) : List Char :=
  if c = quote || c = '\\' then ['\\', c]
  else if c = '\n' then ['\\', 'n']
  else if c = '\r' then ['\\', 'r']
  else if c = '\t' then ['\\', 't']
  else if c.val = 0 then ['\\', '0']
  else if invisible c then byNumber c
  else [c]

/-- A text in double quotes. -/
def text (s : String) : String :=
  String.ofList ('"' :: s.toList.flatMap (escaped '"') ++ ['"'])

/-- A character in single quotes. -/
def char (c : Char) : String := String.ofList ('\'' :: escaped '\'' c ++ ['\''])

end Quoted

end StyleGrammar

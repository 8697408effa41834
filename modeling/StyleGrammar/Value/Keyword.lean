import StyleGrammar.Output
import StyleGrammar.Reader

/-!
# Keywords

An enumeration of keywords lists its members and names each.  Names are looked up without regard to
the case of ASCII letters, and written as they are listed.
-/

namespace StyleGrammar

/-- A finite type whose members have names. -/
class Keyword (α : Type) where
  all : List α
  name : α → String

namespace Keyword

/-- The member with a name. -/
def ofName? (α : Type) [Keyword α] (s : String) : Option α :=
  (all : List α).find? fun a => Reader.sameName (name a) s

instance (priority := low) {α : Type} [Keyword α] : Readable α where
  read := Reader.expect fun | .ident n => ofName? α n | _ => none

instance (priority := low) {α : Type} [Keyword α] : Printable α where
  print _ a := Output.text (name a)

end Keyword

end StyleGrammar

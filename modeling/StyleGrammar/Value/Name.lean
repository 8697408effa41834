import StyleGrammar.Value.Keyword

/-!
# Names, strings and addresses
-/

namespace StyleGrammar

/-- The keywords that every property accepts. -/
def wideKeywords : List String := ["initial", "inherit", "unset", "revert", "revert-layer"]

def isWideKeyword (s : String) : Bool := wideKeywords.any (Reader.sameName s)

/-- Names with two leading hyphens are free for sheets to define. -/
def isDashed (s : String) : Bool := ['-', '-'].isPrefixOf s.toList

/-- An identifier with a meaning of its own, so one without the two hyphens. -/
structure Ident where
  name : String
  deriving BEq, DecidableEq, Repr, Inhabited

instance : Readable Ident where
  read := Reader.expect fun
    | .ident n => if isDashed n then none else some ⟨n⟩
    | _ => none

instance : Printable Ident where
  print _ i := Output.identifier i.name

/-- An identifier that a sheet defines, which must not be a keyword of every property. -/
structure CustomIdent where
  name : String
  deriving BEq, DecidableEq, Repr, Inhabited

def CustomIdent.isReserved (s : String) : Bool :=
  ("default" :: wideKeywords).any (Reader.sameName s)

instance : Readable CustomIdent where
  read := Reader.expect fun
    | .ident n => if CustomIdent.isReserved n then none else some ⟨n⟩
    | _ => none

instance : Printable CustomIdent where
  print _ i := Output.identifier i.name

/-- An identifier with two leading hyphens. -/
structure DashedIdent where
  name : String
  deriving BEq, DecidableEq, Repr, Inhabited

instance : Readable DashedIdent where
  read := Reader.expect fun
    | .ident n => if isDashed n then some ⟨n⟩ else none
    | _ => none

instance : Printable DashedIdent where
  print _ i := Output.dashedIdentifier i.name

/-- A quoted string. -/
structure Quotation where
  content : String
  deriving BEq, DecidableEq, Repr, Inhabited

instance : Readable Quotation where
  read := return ⟨← Reader.string⟩

instance : Printable Quotation where
  print _ s := Output.quoted s.content

/-- The address of a resource. -/
structure Url where
  address : String
  deriving BEq, DecidableEq, Repr, Inhabited

instance : Readable Url where
  read := return ⟨← Reader.url⟩

/-- Spaced output quotes an address.  Compact output does so only where escaping would be longer: it
compares both texts, so each is put together first and then written in one go. -/
instance : Printable Url where
  print compact u :=
    if compact then
      let quoted := quotedText u.address
      let bare := "url(" ++ addressText u.address ++ ")"
      if u.address.utf8ByteSize + 7 < bare.utf8ByteSize &&
          quoted.utf8ByteSize + 5 < bare.utf8ByteSize then
        Output.text "url(" ++ Output.text quoted ++ Output.char ')'
      else Output.text bare
    else Output.text "url(" ++ Output.quoted u.address ++ Output.char ')'

end StyleGrammar

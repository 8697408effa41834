import StyleGrammar.Value.Gradient
import StyleGrammar.Value.Sequence

/-!
# Images

An image is at an address, a gradient, a choice or blend of other images, a part of the document, or
painted by a script.
-/

namespace StyleGrammar

open Reader

/-- An element of the document, by its id. -/
structure Element where
  id : String
  deriving BEq, DecidableEq, Repr, Inhabited

instance : Readable Element where
  read := do
    functionNamed "element"
    block (expect fun | .idHash id => some ⟨id⟩ | _ => none)

instance : Printable Element where
  print _ e := Output.text "element(#" ++ Output.escapedName e.id.toList ++ Output.char ')'

/-- A script that paints, and its arguments. -/
structure Paint (V : Type) where
  name : String
  arguments : List V
  deriving BEq, Repr, Inhabited

section Paint

variable {V : Type}

instance [Term V] : Readable (Paint V) where
  read := do
    functionNamed "paint"
    block do
      let name ← ident
      let arguments? ← Sequence.readFallback
      return ⟨name, arguments?.getD []⟩

instance [Term V] : Printable (Paint V) where
  print compact p :=
    Output.call "paint"
      (Output.identifier p.name ++
        if p.arguments.isEmpty then []
        else Output.comma compact ++ Sequence.print compact p.arguments)

end Paint

mutual

/-- An image. -/
inductive Image (V : Type)
  | url (u : Url)
  | gradient (g : Gradient V)
  | imageSet (options : List (ImageSetOption V))
  | crossFade (items : List (CrossFadeItem V))
  | element (e : Element)
  | paint (p : Paint V)

/-- An image and the devices it is for. -/
structure ImageSetOption (V : Type) where
  image : Image V
  resolution? : Option Resolution
  fileType? : Option String

/-- An image or a color that is blended with others, and the share it has. -/
inductive CrossFadeItem (V : Type)
  | image (i : Image V) (share? : Option Percentage)
  | color (c : Color V) (share? : Option Percentage)

end

/-- Images for different devices. -/
structure ImageSet (V : Type) where
  options : List (ImageSetOption V)

/-- Images that are blended. -/
structure CrossFade (V : Type) where
  items : List (CrossFadeItem V)

namespace Image

variable {V : Type}

mutual

def same [BEq V] : Image V → Image V → Bool
  | url u, url u' => u == u'
  | gradient g, gradient g' => g == g'
  | imageSet os, imageSet os' => sameOptions os os'
  | crossFade is, crossFade is' => sameItems is is'
  | element e, element e' => e == e'
  | paint p, paint p' => p == p'
  | _, _ => false

def sameOption [BEq V] : ImageSetOption V → ImageSetOption V → Bool
  | ⟨i, r, t⟩, ⟨i', r', t'⟩ => same i i' && r == r' && t == t'

def sameItem [BEq V] : CrossFadeItem V → CrossFadeItem V → Bool
  | .image i s, .image i' s' => same i i' && s == s'
  | .color c s, .color c' s' => c == c' && s == s'
  | _, _ => false

def sameOptions [BEq V] : List (ImageSetOption V) → List (ImageSetOption V) → Bool
  | [], [] => true
  | o :: os, o' :: os' => sameOption o o' && sameOptions os os'
  | _, _ => false

def sameItems [BEq V] : List (CrossFadeItem V) → List (CrossFadeItem V) → Bool
  | [], [] => true
  | i :: is, i' :: is' => sameItem i i' && sameItems is is'
  | _, _ => false

end

def printFileType : Option String → Output
  | some t => Output.text " type(" ++ Output.quoted t ++ Output.char ')'
  | none => []

def printResolution (compact : Bool) : Option Resolution → Output
  | some r => Output.char ' ' ++ Printable.print compact r
  | none => []

mutual

def print [Term V] (compact : Bool) : Image V → Output
  | url u => Printable.print compact u
  | gradient g => Printable.print compact g
  | imageSet os => Output.call "image-set" (printOptions compact os)
  | crossFade is => Output.call "cross-fade" (printItems compact is)
  | element e => Printable.print compact e
  | paint p => Printable.print compact p

def printOption [Term V] (compact : Bool) : ImageSetOption V → Output
  | ⟨i, r, t⟩ => print compact i ++ printResolution compact r ++ printFileType t

def printItem [Term V] (compact : Bool) : CrossFadeItem V → Output
  | .image i s => print compact i ++ Color.printShare compact s
  | .color c s => Printable.print compact c ++ Color.printShare compact s

def printOptions [Term V] (compact : Bool) : List (ImageSetOption V) → Output
  | [] => []
  | [o] => printOption compact o
  | o :: os => printOption compact o ++ Output.comma compact ++ printOptions compact os

def printItems [Term V] (compact : Bool) : List (CrossFadeItem V) → Output
  | [] => []
  | [i] => printItem compact i
  | i :: is => printItem compact i ++ Output.comma compact ++ printItems compact is

end

def readFileType : Reader String := do
  functionNamed "type"
  block string

/-- An image or its address as a string, then a resolution and a file type in either order. -/
def readOption (inner : Reader (Image V)) : Reader (ImageSetOption V) := do
  let image ← (fun (s : String) => url ⟨s⟩) <$> string <|> inner
  match ← attempt read with
  | some r => return ⟨image, some r, ← attempt readFileType⟩
  | none =>
    let t? ← attempt readFileType
    return ⟨image, ← attempt read, t?⟩

def readSet (inner : Reader (Image V)) : Reader (ImageSet V) := do
  functionNamed "image-set"
  return ⟨← block (commaSeparated (readOption inner))⟩

/-- An image or a color; its share may stand before or behind it. -/
def readItem [Term V] (inner : Reader (Image V)) : Reader (CrossFadeItem V) := do
  let before? : Option Percentage ← attempt read
  let make ← CrossFadeItem.image <$> inner <|> CrossFadeItem.color <$> read
  match before? with
  | some p => return make (some p)
  | none => return make (← attempt read)

def readFade [Term V] (inner : Reader (Image V)) : Reader (CrossFade V) := do
  functionNamed "cross-fade"
  return ⟨← block (commaSeparated (readItem inner))⟩

/-- An image, with images inside it read by `inner`. -/
def readWith [Term V] (inner : Reader (Image V)) : Reader (Image V) :=
  url <$> read <|> gradient <$> read <|> (fun s => imageSet s.options) <$> readSet inner <|>
    (fun f => crossFade f.items) <$> readFade inner <|> element <$> read <|> paint <$> read

/-- An image with at most `depth` levels of images in it. -/
def readWithin [Term V] : (depth : Nat) → Reader (Image V)
  | 0 => fail .invalidValue
  | n + 1 => readWith (readWithin n)

end Image

mutual

/-- How deep the blocks of a component nest. -/
def Component.depth : Component → Nat
  | .token _ _ | .blanks _ | .comment _ => 0
  | .block _ _ content _ => Component.depthAll content + 1

def Component.depthAll : List Component → Nat
  | [] => 0
  | c :: cs => max c.depth (Component.depthAll cs)

end

namespace Image

variable {V : Type}

/-- Images inside images stand in blocks, so the depth of the blocks bounds theirs. -/
def readInner [Term V] : Reader (Image V) := do
  readWithin (Component.depthAll (← get).rest + 1)

instance [BEq V] : BEq (Image V) := ⟨same⟩
instance [BEq V] : BEq (ImageSetOption V) := ⟨sameOption⟩
instance [BEq V] : BEq (CrossFadeItem V) := ⟨sameItem⟩
instance [BEq V] : BEq (ImageSet V) := ⟨fun a b => sameOptions a.options b.options⟩
instance [BEq V] : BEq (CrossFade V) := ⟨fun a b => sameItems a.items b.items⟩

instance [Term V] : Printable (Image V) := ⟨print⟩
instance [Term V] : Printable (ImageSetOption V) := ⟨printOption⟩
instance [Term V] : Printable (CrossFadeItem V) := ⟨printItem⟩
instance [Term V] : Printable (ImageSet V) := ⟨fun compact s => print compact (.imageSet s.options)⟩
instance [Term V] : Printable (CrossFade V) := ⟨fun compact f => print compact (.crossFade f.items)⟩

instance [Term V] : Readable (Image V) := ⟨readInner⟩
instance [Term V] : Readable (ImageSetOption V) := ⟨readOption readInner⟩
instance [Term V] : Readable (CrossFadeItem V) := ⟨readItem readInner⟩
instance [Term V] : Readable (ImageSet V) := ⟨readSet readInner⟩
instance [Term V] : Readable (CrossFade V) := ⟨readFade readInner⟩

end Image

end StyleGrammar

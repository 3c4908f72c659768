import Mathlib.Data.List.DropRight
import YuToolbox.DictElements
import YuToolbox.DictText
import YuToolbox.DictTranslations

/-! Whole XML documents as `dict.py` reads them: with declarations, attributes, empty elements and
CDATA sections. Where the elements of a name have no attributes and hold one text each, what its
regular expressions cut out is what stands in the tree. -/
namespace YuToolbox.Dict

open LazyRegex

structure Section where
  chars : Text
  free : '<' ∉ chars

/-- A name and, behind a space, its attributes. -/
structure Start where
  name : Name
  attributes : Text
  spaced : attributes = [] ∨ attributes.head? = some ' '
  free : '<' ∉ attributes ∧ '>' ∉ attributes

def Start.chars (start : Start) : Text := start.name.chars ++ start.attributes

/-- Of an XML declaration or a processing instruction, what stands between the question marks. -/
structure Declaration where
  body : Text
  free : '<' ∉ body ∧ '>' ∉ body

def Declaration.chars (decl : Declaration) : Text := '?' :: decl.body ++ ['?']

/-- Text and markup in turn. -/
inductive Doc where
  | text (before : Piece)
  | declaration (before : Piece) (decl : Declaration) (rest : Doc)
  | empty (before : Piece) (start : Start) (rest : Doc)
  | cdata (before : Piece) (content : Section) (rest : Doc)
  | element (before : Piece) (start : Start) (children rest : Doc)

def Doc.serialise : Doc → Text
  | .text before => before.chars
  | .declaration before decl rest => before.chars ++ (tag decl.chars ++ rest.serialise)
  | .empty before start rest => before.chars ++ (tag (start.chars ++ ['/']) ++ rest.serialise)
  | .cdata before content rest => before.chars ++ (Dict.cdata content.chars ++ rest.serialise)
  | .element before start children rest =>
    before.chars ++ (tag start.chars ++ (children.serialise ++
      (tag ('/' :: start.name.chars) ++ rest.serialise)))

def Doc.Occurs (e : Name) : Doc → Prop
  | .text _ => False
  | .declaration _ _ rest => rest.Occurs e
  | .empty _ start rest => start.name.chars = e.chars ∨ rest.Occurs e
  | .cdata _ _ rest => rest.Occurs e
  | .element _ start children rest =>
    start.name.chars = e.chars ∨ children.Occurs e ∨ rest.Occurs e

/-- No element stands inside another one of its name. -/
def Doc.Flat : Doc → Prop
  | .text _ => True
  | .declaration _ _ rest => rest.Flat
  | .empty _ _ rest => rest.Flat
  | .cdata _ _ rest => rest.Flat
  | .element _ start children rest =>
    ¬ children.Occurs start.name ∧ children.Flat ∧ rest.Flat

instance Doc.decidableOccurs (e : Name) : (d : Doc) → Decidable (d.Occurs e)
  | .text _ => instDecidableFalse
  | .declaration _ _ rest => decidableOccurs e rest
  | .empty _ _ rest => @instDecidableOr _ _ _ (decidableOccurs e rest)
  | .cdata _ _ rest => decidableOccurs e rest
  | .element _ _ children rest =>
    @instDecidableOr _ _ _
      (@instDecidableOr _ _ (decidableOccurs e children) (decidableOccurs e rest))

instance Doc.decidableFlat : (d : Doc) → Decidable d.Flat
  | .text _ => instDecidableTrue
  | .declaration _ _ rest => decidableFlat rest
  | .empty _ _ rest => decidableFlat rest
  | .cdata _ _ rest => decidableFlat rest
  | .element _ _ children rest =>
    @instDecidableAnd _ _ _
      (@instDecidableAnd _ _ (decidableFlat children) (decidableFlat rest))

/-- The elements of a name have no attributes and are none of the empty ones. -/
def Doc.Bare (e : Name) : Doc → Prop
  | .text _ => True
  | .declaration _ _ rest => rest.Bare e
  | .empty _ start rest => start.name.chars ≠ e.chars ∧ rest.Bare e
  | .cdata _ _ rest => rest.Bare e
  | .element _ start children rest =>
    (start.name.chars = e.chars → start.attributes = []) ∧ children.Bare e ∧ rest.Bare e

def noPiece : Piece := ⟨[], List.not_mem_nil⟩

/-- The contents of the elements of a name, at any depth, in document order. -/
def Doc.elements (e : Name) : Doc → List Doc
  | .text _ => []
  | .declaration _ _ rest => rest.elements e
  | .empty _ start rest =>
    (if start.name.chars = e.chars then [.text noPiece] else []) ++ rest.elements e
  | .cdata _ _ rest => rest.elements e
  | .element _ start children rest =>
    (if start.name.chars = e.chars then [children] else []) ++
      (children.elements e ++ rest.elements e)

/-- The elements inside elements that a path of names leads to. -/
def Doc.find (path : List Name) (d : Doc) : List Doc :=
  path.foldl (fun docs e => docs.flatMap (Doc.elements e)) [d]

/-- The character data, that of sections included, in document order. -/
def Doc.characters : Doc → Text
  | .text before => before.chars
  | .declaration before _ rest => before.chars ++ rest.characters
  | .empty before _ rest => before.chars ++ rest.characters
  | .cdata before content rest => before.chars ++ (content.chars ++ rest.characters)
  | .element before _ children rest => before.chars ++ (children.characters ++ rest.characters)

/-- No `]]` comes before the terminator, and no bracket that would be one with it. -/
def Section.Closed (content : Section) : Prop :=
  ¬ cdataStop <:+: content.chars ∧ content.chars.getLast? ≠ some ']'

/-- Text without any markup. -/
def Doc.IsPlain (d : Doc) : Prop := ∃ piece, d = .text piece

/-- Text without any markup, or one section alone. -/
def Doc.Leaf (d : Doc) : Prop :=
  (∃ piece, d = .text piece ∧ ¬ cdataOpen <:+: piece.chars) ∨
    ∃ content, d = .cdata noPiece content (.text noPiece) ∧ content.Closed

/-- The same with blanks around a section, which itself has none at its ends. -/
def Doc.PaddedLeaf (d : Doc) : Prop :=
  (∃ piece, d = .text piece ∧ ¬ cdataOpen <:+: piece.chars) ∨
    ∃ before content after, d = .cdata before content (.text after) ∧
      (∀ c ∈ before.chars, isSpace c = true) ∧ (∀ c ∈ after.chars, isSpace c = true) ∧
      content.Closed ∧ strip content.chars = content.chars

section Elements

variable {e : Name}

theorem Start.gt_not_mem (start : Start) : '>' ∉ start.chars := by
  rw [Start.chars, List.mem_append, not_or]
  exact ⟨start.name.gt_not_mem, start.free.2⟩

theorem Start.lt_not_mem (start : Start) : '<' ∉ start.chars := by
  rw [Start.chars, List.mem_append, not_or]
  exact ⟨start.name.lt_not_mem, start.free.1⟩

theorem Declaration.gt_not_mem (decl : Declaration) : '>' ∉ decl.chars := by
  simpa [Declaration.chars] using decl.free.2

theorem Declaration.lt_not_mem (decl : Declaration) : '<' ∉ decl.chars := by
  simpa [Declaration.chars] using decl.free.1

end Elements

section Leaves

variable {d : Doc}

end Leaves

end YuToolbox.Dict

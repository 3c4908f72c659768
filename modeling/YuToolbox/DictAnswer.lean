import YuToolbox.DictDocument

/-! What `print_translations` prints of a whole document, said on its tree: the texts of its
elements come out in document order, as far as the first element that is looked at and missing. -/
namespace YuToolbox.Dict

open PrintingPrograms

/-- A name of letters and hyphens. -/
def plainName (s : Text) (h : s.all (fun c => c.isAlpha || c = '-') = true) : Name where
  chars := s
  plain := by
    intro c hc hspecial
    have hletter := List.all_eq_true.mp h c hc
    have hnone : special.all (fun c => !(c.isAlpha || c = '-')) = true := by decide
    have hother := List.all_eq_true.mp hnone c hspecial
    rw [hletter] at hother
    cases hother

namespace Tags

def originalQuery : Name := plainName "original-query".toList rfl

def phoneticSymbol : Name := plainName "phonetic-symbol".toList rfl

def customTranslation : Name := plainName "custom-translation".toList rfl

def source : Name := plainName "source".toList rfl

def name : Name := plainName "name".toList rfl

def translation : Name := plainName "translation".toList rfl

def content : Name := plainName "content".toList rfl

def yodaoWebDict : Name := plainName "yodao-web-dict".toList rfl

def webTranslation : Name := plainName "web-translation".toList rfl

def key : Name := plainName "key".toList rfl

def trans : Name := plainName "trans".toList rfl

def value : Name := plainName "value".toList rfl

def summary : Name := plainName "summary".toList rfl

def all : List Name := [originalQuery, phoneticSymbol, customTranslation, source, name, translation,
  content, yodaoWebDict, webTranslation, key, trans, value, summary]

end Tags

/-- The first line; the phonetic symbol is looked at before it. -/
def Doc.queryLine (d : Doc) : Option Text := do
  let query ← (d.elements Tags.originalQuery).getLast?
  let _phonetic ← (d.elements Tags.phoneticSymbol).head?
  return bold ++ underline ++ query.characters ++ normal

def Doc.customLines (withColor : Bool) (cus : Doc) : List (Option Text) :=
  (cus.find [Tags.source, Tags.name]).head?.map (fun name =>
      red ++ "Translations from ".toList ++ name.characters ++ defaultColor) ::
    ((cus.find [Tags.translation, Tags.content]).take 5).map (fun content =>
      some (if withColor then green ++ content.characters ++ defaultColor
        else content.characters))

def Doc.webLine (withColor : Bool) (web : Doc) : Option Text := do
  let key ← (web.elements Tags.key).head?
  let value ← (web.find [Tags.trans, Tags.value]).head?
  return if withColor then
      bold ++ strip key.characters ++ ":\t".toList ++ defaultColor ++ green ++
        strip value.characters ++ normal
    else strip value.characters

/-- The first five web translations of one dictionary. -/
def Doc.dictionaryWebs (trans : Doc) : List Doc := (trans.elements Tags.webTranslation).take 5

/-- Those of all dictionaries. -/
def Doc.webs (d : Doc) : List Doc :=
  (d.elements Tags.yodaoWebDict).flatMap Doc.dictionaryWebs

def yodaoHeading : Text := red ++ "Translations from yodao:".toList ++ defaultColor

/-- The lines of the web translations, and the heading in front of them if it was not printed. -/
def headed (printed : Bool) (lines : List (Option Text)) : List (Option Text) :=
  if printed || lines.isEmpty then lines else some yodaoHeading :: lines

def Doc.speakLine (d : Doc) : Option Text :=
  (d.elements Tags.phoneticSymbol).head?.map
    (fun phonetic => bold ++ green ++ phonetic.characters ++ normal)

def Doc.answer (withColor : Bool) (d : Doc) : List (Option Text) :=
  d.queryLine :: ((d.elements Tags.customTranslation).flatMap (Doc.customLines withColor) ++
    (headed false (d.webs.map (Doc.webLine withColor)) ++
      [some (red ++ "[Speak]".toList ++ normal), d.speakLine]))

/-- The elements that are looked for can be found in the text. -/
structure Doc.Regular (d : Doc) : Prop where
  flat : d.Flat
  bare : ∀ e ∈ Tags.all, d.Bare e

/-- The name of a source is plain text, and so is what it translates to or a section alone. -/
structure Doc.CustomReadable (cus : Doc) : Prop where
  names : ∀ name ∈ cus.find [Tags.source, Tags.name], name.IsPlain
  contents : ∀ content ∈ cus.find [Tags.translation, Tags.content], content.Leaf

structure Doc.WebReadable (web : Doc) : Prop where
  keys : ∀ key ∈ web.elements Tags.key, key.PaddedLeaf
  values : ∀ value ∈ web.find [Tags.trans, Tags.value], value.PaddedLeaf

/-- All texts that are looked at are such that the regular expressions read them as they are. -/
structure Doc.Readable (d : Doc) : Prop extends d.Regular where
  queries : ∀ query ∈ d.elements Tags.originalQuery, query.Leaf
  phonetics : ∀ phonetic ∈ d.elements Tags.phoneticSymbol, phonetic.Leaf
  customs : ∀ cus ∈ d.elements Tags.customTranslation, cus.CustomReadable
  webs : ∀ web ∈ d.webs, web.WebReadable

section Lookup

variable {d : Doc}

end Lookup

section Lines

variable {d : Doc}

end Lines

def bare (n : Name) : Start := ⟨n, [], Or.inl rfl, List.not_mem_nil, List.not_mem_nil⟩

/-- An element that holds nothing but a document. -/
def inside (n : Name) (d rest : Doc) : Doc := .element noPiece (bare n) d rest

end YuToolbox.Dict

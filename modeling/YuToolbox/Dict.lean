import YuToolbox.LazyRegex

/-! The two readers of `dict.py`: `get_elements`, which cuts the contents of the elements of
one name out of an XML text, and `get_text`, which unwraps a CDATA section. -/
namespace YuToolbox.Dict

open LazyRegex

abbrev Text := List Char

/-- A tag with its name, which a closing tag has behind a slash. -/
def tag (name : Text) : Text := '<' :: name ++ ['>']

/-- `"<" + elem + ">" + "(.*?)</" + elem + ">"` with `re.DOTALL`, for an element name without
characters that regular expressions give a meaning. -/
def elementPattern (elem : Text) : Pattern Char :=
  literal (tag elem) ++ .lazyGroup :: literal (tag ('/' :: elem))

/-- Group 1 of each match. -/
def getElements (xml elem : Text) : List Text :=
  (finditer (elementPattern elem) xml).map (fun groups => groups.headD [])

def cdataOpen : Text := ['!', '[', 'C', 'D', 'A', 'T', 'A', '[']

def cdataStop : Text := [']', ']']

/-- `"\!\[CDATA\[(.*?)\]\]"` with `re.DOTALL`. -/
def textre : Pattern Char := literal cdataOpen ++ .lazyGroup :: literal cdataStop

def getText (xml : Text) : Text :=
  match search textre xml with
  | none => xml
  | some groups => groups.headD []

end YuToolbox.Dict

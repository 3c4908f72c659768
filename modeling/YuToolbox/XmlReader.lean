import Mathlib.Data.List.Basic
import Mathlib.Tactic.Common

/-! A reader for XML content made of elements: tags with double-quoted attributes, and
blanks between them. Text, comments and declarations are refused. -/
namespace YuToolbox.Xml

abbrev Text := List Char

def isChar (c : Char) : Bool :=
  c == '\t' || c == '\n' || c == '\r' || (32 ≤ c.toNat && c.toNat != 65534 && c.toNat != 65535)

def isSpace (c : Char) : Bool := c == ' ' || c == '\t' || c == '\n' || c == '\r'

/-- Blanks in an attribute are read as spaces. -/
def normalize (c : Char) : Char := if isSpace c then ' ' else c

def digitValue (base : ℕ) (c : Char) : Option ℕ :=
  let d :=
    if '0' ≤ c ∧ c ≤ '9' then c.toNat-48
    else if 'a' ≤ c ∧ c ≤ 'f' then c.toNat-87
    else if 'A' ≤ c ∧ c ≤ 'F' then c.toNat-55
    else base
  if d < base then some d else none

def charReference (base : ℕ) (digits : Text) : Option Char :=
  if digits.isEmpty then none
  else
    (digits.foldlM (fun n c => (digitValue base c).map (fun d => n*base+d)) 0).bind (fun n =>
      if (Char.ofNat n).toNat = n ∧ isChar (Char.ofNat n) then some (Char.ofNat n) else none)

/-- The character that `&name;` stands for; only the predefined entities are known. -/
def reference : Text → Option Char
  | '#' :: 'x' :: digits => charReference 16 digits
  | '#' :: digits => charReference 10 digits
  | name =>
    [("amp".toList, '&'), ("lt".toList, '<'), ("gt".toList, '>'), ("quot".toList, '"'),
      ("apos".toList, Char.ofNat 39)].lookup name

/-- The value of an attribute from what stands between its quotes: references are replaced
and `<` is refused. The first argument is the name of the reference being read. -/
def decodeFrom : Option Text → Text → Option Text
  | none, [] => some []
  | some _, [] => none
  | none, c :: raw =>
    if c = '<' then none
    else if c = '&' then decodeFrom (some []) raw
    -- the two characters of a line end are one
    else if c = '\r' ∧ raw.head? = some '\n' then decodeFrom none raw
    else if isChar c then (decodeFrom none raw).map (normalize c :: ·)
    else none
  | some name, c :: raw =>
    if c = ';' then (reference name).bind (fun d => (decodeFrom none raw).map (d :: ·))
    else decodeFrom (some (name ++ [c])) raw

def decode (raw : Text) : Option Text := decodeFrom none raw

def plain (c : Char) : Bool := isChar c && c != '<' && c != '&' && normalize c == c

/-- A tag as it is cut out of the text: what stands before each quoted value, the raw
value, and what stands behind the last one. -/
structure RawTag where
  values : List (Text × Text)
  tail : Text

def RawTag.text (t : RawTag) : Text :=
  '<' :: (t.values.flatMap (fun p => p.1 ++ '"' :: p.2 ++ ['"']) ++ t.tail ++ ['>'])

/-- Where the lexer is: between tags, in a tag, or between the quotes of a value. -/
inductive Mode where
  | content
  | tag (values : List (Text × Text)) (outside : Text)
  | value (values : List (Text × Text)) (outside raw : Text)

def lex : Mode → Text → Option (List RawTag)
  | .content, [] => some []
  | .tag _ _, [] => none
  | .value _ _ _, [] => none
  | .content, c :: text =>
    if c = '<' then lex (.tag [] []) text
    else if isSpace c then lex .content text
    else none
  | .tag values outside, c :: text =>
    if c = '"' then lex (.value values outside []) text
    else if c = '>' then (lex .content text).map (⟨values, outside⟩ :: ·)
    -- a tag inside a tag
    else if c = '<' then none
    else lex (.tag values (outside ++ [c])) text
  | .value values outside raw, c :: text =>
    if c = '"' then lex (.tag (values ++ [(outside, raw)]) []) text
    else lex (.value values outside (raw ++ [c])) text

inductive Tag where
  | start (name : Text) (attrs : List (Text × Text))
  | stop (name : Text)
  | empty (name : Text) (attrs : List (Text × Text))

def isNameStart (c : Char) : Bool := c.isAlpha || c == '_' || c == ':' || 128 ≤ c.toNat

def isNameChar (c : Char) : Bool := isNameStart c || c.isDigit || c == '-' || c == '.'

def isName : Text → Bool
  | [] => false
  | c :: cs => isNameStart c && cs.all isNameChar

def nameOnly (text : Text) : Option Text :=
  let name := text.takeWhile (!isSpace ·)
  if isName name && (text.dropWhile (!isSpace ·)).all isSpace then some name else none

def words (text : Text) : List Text := (text.splitOnP isSpace).filter (!·.isEmpty)

def attrName (word : Text) : Option Text :=
  if word.getLast? = some '=' ∧ isName word.dropLast then some word.dropLast else none

def attrsOf : List (Text × Text) → Option (List (Text × Text))
  | [] => some []
  | (outside, raw) :: more =>
    match outside.head?.map isSpace, words outside with
    | some true, [word] => do
      let name ← attrName word
      let value ← decode raw
      let rest ← attrsOf more
      some ((name, value) :: rest)
    | _, _ => none

def tagEnd (name : Text) (attrs : List (Text × Text)) (tail : Text) : Option Tag :=
  if tail.dropWhile isSpace = [] then some (.start name attrs)
  else if tail.dropWhile isSpace = ['/'] then some (.empty name attrs)
  else none

def tagOf (t : RawTag) : Option Tag :=
  match t.values with
  | [] =>
    if t.tail.head? = some '/' then (nameOnly t.tail.tail).map .stop
    else if t.tail.getLast? = some '/' then (nameOnly t.tail.dropLast).map (.empty · [])
    else (nameOnly t.tail).map (.start · [])
  | (outside, raw) :: more =>
    let name := outside.takeWhile (!isSpace ·)
    if isName name then do
      let attrs ← attrsOf ((outside.dropWhile (!isSpace ·), raw) :: more)
      -- no attribute stands twice in a tag
      if (attrs.map Prod.fst).Nodup then tagEnd name attrs t.tail else none
    else none

inductive Node where
  | element (name : Text) (attrs : List (Text × Text)) (children : List Node)

def Node.name : Node → Text
  | .element name _ _ => name

def Node.attr (key : Text) : Node → Option Text
  | .element _ attrs _ => attrs.lookup key

def Node.children : Node → List Node
  | .element _ _ children => children

/-- An element that is open: its start tag and the elements before it. -/
structure Frame where
  name : Text
  attrs : List (Text × Text)
  before : List Node

/-- The elements that tags form; every start tag needs its end tag. -/
def build : List Frame → List Node → List Tag → Option (List Node)
  | [], nodes, [] => some nodes
  | _ :: _, _, [] => none
  | stack, nodes, .empty name attrs :: tags => build stack (nodes ++ [.element name attrs []]) tags
  | stack, nodes, .start name attrs :: tags => build (⟨name, attrs, nodes⟩ :: stack) [] tags
  | [], _, .stop _ :: _ => none
  | frame :: stack, nodes, .stop name :: tags =>
    if frame.name = name then
      build stack (frame.before ++ [.element frame.name frame.attrs nodes]) tags
    else none

def read (text : Text) : Option (List Node) := do
  let raws ← lex .content text
  let tags ← raws.mapM tagOf
  build [] [] tags

section Decode

theorem length_decodeFrom {ref : Option Text} {raw value : Text}
    (h : decodeFrom ref raw = some value) : value.length ≤ raw.length := by
  induction raw generalizing ref value with
  | nil =>
    cases ref with
    | none =>
      obtain rfl := Option.some.inj h
      exact Nat.le_refl 0
    | some name => cases h
  | cons c raw ih =>
    cases ref with
    | none =>
      simp only [decodeFrom] at h
      split_ifs at h
      · exact Nat.le_succ_of_le (ih h)
      · exact Nat.le_succ_of_le (ih h)
      · obtain ⟨rest, hrest, rfl⟩ := Option.map_eq_some_iff.mp h
        exact Nat.succ_le_succ (ih hrest)
    | some name =>
      simp only [decodeFrom] at h
      split_ifs at h
      · obtain ⟨d, -, h⟩ := Option.bind_eq_some_iff.mp h
        obtain ⟨rest, hrest, rfl⟩ := Option.map_eq_some_iff.mp h
        exact Nat.succ_le_succ (ih hrest)
      · exact Nat.le_succ_of_le (ih h)

theorem length_decode {raw value : Text} (h : decode raw = some value) :
    value.length ≤ raw.length :=
  length_decodeFrom h

theorem decode_nil : decode [] = some [] := rfl

/-- An attribute is read unchanged exactly if all its characters are plain. -/
theorem decode_eq_self_iff (raw : Text) : decode raw = some raw ↔ ∀ c ∈ raw, plain c = true := by
  induction raw with
  | nil => simp [decode_nil]
  | cons c raw ih =>
    rw [List.forall_mem_cons, ← ih]
    constructor
    · intro h
      simp only [decode, decodeFrom] at h
      split_ifs at h with hlt hamp hcr hchar
      -- a reference or a line end is read as less than was written
      · exact absurd (length_decodeFrom h) (by simp)
      · exact absurd (length_decodeFrom h) (by simp)
      · obtain ⟨rest, hrest, hc⟩ := Option.map_eq_some_iff.mp h
        obtain ⟨hhead, rfl⟩ := List.cons.inj hc
        exact ⟨by simp [plain, hchar, hlt, hamp, hhead], hrest⟩
    · rintro ⟨hc, hraw⟩
      simp only [plain, Bool.and_eq_true, bne_iff_ne, beq_iff_eq] at hc
      obtain ⟨⟨⟨hchar, hlt⟩, hamp⟩, hnorm⟩ := hc
      have hcr : ¬ (c = '\r' ∧ raw.head? = some '\n') := by
        rintro ⟨rfl, -⟩
        exact absurd hnorm (by decide)
      rw [decode, decodeFrom, if_neg hlt, if_neg hamp, if_neg hcr, if_pos hchar, hnorm,
        show decodeFrom none raw = some raw from hraw]
      rfl

end Decode

section Lex

def Unquoted (text : Text) : Prop := ∀ c ∈ text, c ≠ '"' ∧ c ≠ '<' ∧ c ≠ '>'

instance (text : Text) : Decidable (Unquoted text) :=
  List.decidableBAll _ text

/-- A text is cut into these tags, whatever comes behind it. -/
def Lexes (text : Text) (raws : List RawTag) : Prop :=
  ∀ rest, lex .content (text ++ rest) = (lex .content rest).map (raws ++ ·)

theorem Lexes.nil : Lexes [] [] := fun rest => by simp

theorem Lexes.append {text text' : Text} {raws raws' : List RawTag} (h : Lexes text raws)
    (h' : Lexes text' raws') : Lexes (text ++ text') (raws ++ raws') := by
  intro rest
  rw [List.append_assoc, h, h', Option.map_map]
  congr 1
  funext tags
  simp only [Function.comp_apply, List.append_assoc]

def Spaces (text : Text) : Prop := ∀ c ∈ text, isSpace c = true

instance (text : Text) : Decidable (Spaces text) :=
  List.decidableBAll _ text

theorem Spaces.append {text text' : Text} (h : Spaces text) (h' : Spaces text') :
    Spaces (text ++ text') := by
  intro c hc
  exact (List.mem_append.mp hc).elim (h c) (h' c)

theorem Lexes.spaces {text : Text} (h : Spaces text) : Lexes text [] := by
  induction text with
  | nil => exact Lexes.nil
  | cons c text ih =>
    intro rest
    have hc : isSpace c = true := h c List.mem_cons_self
    have hlt : c ≠ '<' := by
      rintro rfl
      exact absurd hc (by decide)
    rw [List.cons_append, lex, if_neg hlt, if_pos hc]
    exact ih (fun d hd => h d (List.mem_cons_of_mem c hd)) rest

theorem lex_outside {text : Text} (h : Unquoted text) (values : List (Text × Text))
    (outside rest : Text) :
    lex (.tag values outside) (text ++ rest) = lex (.tag values (outside ++ text)) rest := by
  induction text generalizing outside with
  | nil => rw [List.nil_append, List.append_nil]
  | cons c text ih =>
    obtain ⟨hquote, hlt, hgt⟩ := h c List.mem_cons_self
    rw [List.cons_append, lex, if_neg hquote, if_neg hgt, if_neg hlt,
      ih (fun d hd => h d (List.mem_cons_of_mem c hd)), List.append_assoc]
    rfl

theorem lex_value {text : Text} (h : '"' ∉ text) (values : List (Text × Text))
    (outside raw rest : Text) :
    lex (.value values outside raw) (text ++ '"' :: rest) =
      lex (.tag (values ++ [(outside, raw ++ text)]) []) rest := by
  induction text generalizing raw with
  | nil => rw [List.nil_append, lex, if_pos rfl, List.append_nil]
  | cons c text ih =>
    have hc : c ≠ '"' := fun hc => h (hc ▸ List.mem_cons_self)
    rw [List.cons_append, lex, if_neg hc, ih (fun hm => h (List.mem_cons_of_mem c hm)),
      List.append_assoc]
    rfl

theorem lex_values {more : List (Text × Text)} (h : ∀ p ∈ more, Unquoted p.1 ∧ '"' ∉ p.2)
    (values : List (Text × Text)) (rest : Text) :
    lex (.tag values []) (more.flatMap (fun p => p.1 ++ '"' :: p.2 ++ ['"']) ++ rest) =
      lex (.tag (values ++ more) []) rest := by
  induction more generalizing values with
  | nil => rw [List.flatMap_nil, List.nil_append, List.append_nil]
  | cons p more ih =>
    obtain ⟨houtside, hraw⟩ := h p List.mem_cons_self
    rw [List.flatMap_cons, List.append_assoc, List.append_assoc, List.append_assoc,
      lex_outside houtside, List.cons_append, lex, if_pos rfl, List.cons_append, List.nil_append,
      lex_value hraw, List.nil_append, List.nil_append,
      ih (fun q hq => h q (List.mem_cons_of_mem p hq)), List.append_assoc]
    rfl

theorem Lexes.tag {t : RawTag} (h : ∀ p ∈ t.values, Unquoted p.1 ∧ '"' ∉ p.2)
    (htail : Unquoted t.tail) : Lexes t.text [t] := by
  intro rest
  rw [RawTag.text, List.cons_append, lex, if_pos rfl, List.append_assoc, List.append_assoc,
    lex_values h, lex_outside htail, List.cons_append, lex, if_neg (by decide), if_pos rfl]
  rfl

theorem Lexes.flatMap {α : Type*} {f : α → Text} {g : α → List RawTag} {xs : List α}
    (h : ∀ x ∈ xs, Lexes (f x) (g x)) : Lexes (xs.flatMap f) (xs.flatMap g) := by
  induction xs with
  | nil => exact Lexes.nil
  | cons x xs ih =>
    exact (h x List.mem_cons_self).append (ih (fun y hy => h y (List.mem_cons_of_mem x hy)))

theorem Lexes.spaces_append {indent text : Text} {raws : List RawTag} (h : Spaces indent)
    (ht : Lexes text raws) : Lexes (indent ++ text) raws :=
  (Lexes.spaces h).append ht

end Lex

section Refused

/-- Only a semicolon ends a reference. -/
theorem decodeFrom_reference_eq_none {raw : Text} (h : ';' ∉ raw) (name : Text) :
    decodeFrom (some name) raw = none := by
  induction raw generalizing name with
  | nil => rfl
  | cons c raw ih =>
    obtain ⟨hc, hraw⟩ := List.ne_and_not_mem_of_not_mem_cons h
    rw [decodeFrom, if_neg (Ne.symm hc), ih hraw]

theorem decode_eq_none {raw : Text} (hlt : '<' ∈ raw) (hsemi : ';' ∉ raw) : decode raw = none := by
  rw [decode]
  induction raw with
  | nil => cases hlt
  | cons c raw ih =>
    have hraw := List.not_mem_of_not_mem_cons hsemi
    by_cases hc : c = '<'
    · rw [decodeFrom, if_pos hc]
    · have hrest := ih ((List.mem_cons.mp hlt).resolve_left (Ne.symm hc)) hraw
      rw [decodeFrom, if_neg hc]
      split_ifs
      · exact decodeFrom_reference_eq_none hraw []
      · exact hrest
      · rw [hrest]
        rfl
      · rfl

/-- A `<` in a value is refused, in a reference as well when none ends behind it. -/
theorem decodeFrom_eq_none (ref : Option Text) (raw : Text) {w : Text} (hlt : '<' ∈ w)
    (hsemi : ';' ∉ w) : decodeFrom ref (raw ++ w) = none := by
  induction raw generalizing ref with
  | nil =>
    cases ref with
    | none => exact decode_eq_none hlt hsemi
    | some name => exact decodeFrom_reference_eq_none hsemi name
  | cons c raw ih =>
    cases ref with
    | none =>
      rw [List.cons_append, decodeFrom]
      split_ifs
      · rfl
      · exact ih _
      · exact ih _
      · rw [ih]
        rfl
      · rfl
    | some name =>
      rw [List.cons_append, decodeFrom]
      split_ifs
      · rw [ih]
        cases reference name <;> rfl
      · exact ih _

theorem lex_value_eq_none {text : Text} (h : '"' ∉ text) (values : List (Text × Text))
    (outside raw : Text) : lex (.value values outside raw) text = none := by
  induction text generalizing raw with
  | nil => rfl
  | cons c text ih =>
    obtain ⟨hc, htext⟩ := List.ne_and_not_mem_of_not_mem_cons h
    rw [lex, if_neg (Ne.symm hc), ih htext]

/-- A tag keeps the values that have been cut out of it. -/
theorem lex_keeps {text : Text} {raws : List RawTag} (p : Text × Text) :
    (∀ values outside, lex (.tag (p :: values) outside) text = some raws →
      ∃ t more, raws = t :: more ∧ t.values.head? = some p) ∧
    ∀ values outside raw, lex (.value (p :: values) outside raw) text = some raws →
      ∃ t more, raws = t :: more ∧ t.values.head? = some p := by
  induction text with
  | nil => exact ⟨nofun, nofun⟩
  | cons c text ih =>
    obtain ⟨htag, hvalue⟩ := ih
    constructor
    · intro values outside h
      rw [lex] at h
      split_ifs at h
      · exact hvalue values outside [] h
      · obtain ⟨more, -, rfl⟩ := Option.map_eq_some_iff.mp h
        exact ⟨_, more, rfl, rfl⟩
      · exact htag values _ h
    · intro values outside raw h
      rw [lex] at h
      split_ifs at h
      · exact htag (values ++ [(outside, raw)]) [] h
      · exact hvalue values outside _ h

end Refused

section Build

/-- Tags that form these elements, wherever they stand. -/
def Builds (tags : List Tag) (children : List Node) : Prop :=
  ∀ stack nodes rest, build stack nodes (tags ++ rest) = build stack (nodes ++ children) rest

theorem Builds.nil : Builds [] [] := fun stack nodes rest => by
  rw [List.nil_append, List.append_nil]

theorem Builds.append {tags tags' : List Tag} {children children' : List Node}
    (h : Builds tags children) (h' : Builds tags' children') :
    Builds (tags ++ tags') (children ++ children') := by
  intro stack nodes rest
  rw [List.append_assoc, h, h', List.append_assoc]

theorem Builds.empty (name : Text) (attrs : List (Text × Text)) :
    Builds [.empty name attrs] [.element name attrs []] := by
  intro stack nodes rest
  rw [List.cons_append, List.nil_append]
  cases stack <;> rfl

theorem Builds.element {tags : List Tag} {children : List Node} (h : Builds tags children)
    (name : Text) (attrs : List (Text × Text)) :
    Builds (.start name attrs :: tags ++ [.stop name]) [.element name attrs children] := by
  intro stack nodes rest
  have hstart : build stack nodes (.start name attrs :: (tags ++ .stop name :: rest)) =
      build (⟨name, attrs, nodes⟩ :: stack) [] (tags ++ .stop name :: rest) := by
    cases stack <;> rfl
  rw [List.append_assoc, List.cons_append, List.cons_append, List.nil_append, hstart, h, build,
    if_pos rfl, List.nil_append]

theorem Builds.flatMap {α : Type*} {f : α → List Tag} {g : α → Node}
    (h : ∀ x, Builds (f x) [g x]) (xs : List α) : Builds (xs.flatMap f) (xs.map g) := by
  induction xs with
  | nil => exact Builds.nil
  | cons x xs ih => exact (h x).append ih

end Build

end YuToolbox.Xml

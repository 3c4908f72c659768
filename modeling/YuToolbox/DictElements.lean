import YuToolbox.Dict

/-! `get_elements` on a serialised forest of XML nodes: the closing tag that the lazy group
stops at is that of the element, and no tag of another name is taken for one of this. -/
namespace YuToolbox.Dict

open LazyRegex

/-- Markup, and what means something in a regular expression. -/
def special : Text :=
  ['<', '>', '/', '.', '^', '$', '*', '+', '?', '\x7b', '\x7d', '[', ']', '\\', '|', '(', ')']

/-- A name of letters, digits, hyphens and whatever else is not special. -/
structure Name where
  chars : Text
  plain : ∀ c ∈ chars, c ∉ special

/-- A piece of text between tags. -/
structure Piece where
  chars : Text
  free : '<' ∉ chars

/-- Nodes side by side; an element has a forest of its own. -/
inductive Forest where
  | nil
  | text (piece : Piece) (rest : Forest)
  | element (name : Name) (children rest : Forest)

def Forest.serialise : Forest → Text
  | .nil => []
  | .text piece rest => piece.chars ++ rest.serialise
  | .element name children rest =>
    tag name.chars ++ (children.serialise ++ (tag ('/' :: name.chars) ++ rest.serialise))

def Forest.Occurs (e : Name) : Forest → Prop
  | .nil => False
  | .text _ rest => rest.Occurs e
  | .element name children rest => name.chars = e.chars ∨ children.Occurs e ∨ rest.Occurs e

/-- No element of the name stands inside another one. -/
def Forest.NotNested (e : Name) : Forest → Prop
  | .nil => True
  | .text _ rest => rest.NotNested e
  | .element name children rest =>
    (name.chars = e.chars → ¬ children.Occurs e) ∧ children.NotNested e ∧ rest.NotNested e

/-- The serialised contents of the elements of a name, in document order. -/
def Forest.contents (e : Name) : Forest → List Text
  | .nil => []
  | .text _ rest => rest.contents e
  | .element name children rest =>
    (if name.chars = e.chars then [children.serialise] else []) ++
      (children.contents e ++ rest.contents e)

section Tags

variable {b b' t : Text}

/-- What stands before the first `>` is determined. -/
theorem eq_of_start (hb : '>' ∉ b) (hb' : '>' ∉ b') (h : b ++ ['>'] <+: b' ++ '>' :: t) :
    b = b' := by
  induction b generalizing b' with
  | nil =>
    cases b' with
    | nil => rfl
    | cons c b' =>
      obtain ⟨hc, -⟩ := List.cons_prefix_cons.mp h
      exact absurd (hc ▸ List.mem_cons_self) hb'
  | cons c b ih =>
    cases b' with
    | nil =>
      obtain ⟨hc, -⟩ := List.cons_prefix_cons.mp h
      exact absurd (hc ▸ List.mem_cons_self) hb
    | cons c' b' =>
      obtain ⟨rfl, hrest⟩ := List.cons_prefix_cons.mp h
      rw [ih (List.not_mem_of_not_mem_cons hb) (List.not_mem_of_not_mem_cons hb') hrest]

/-- One tag stands at the start of another only if they are the same. -/
theorem tag_eq_of_start (hb : '>' ∉ b) (hb' : '>' ∉ b') (h : tag b <+: tag b' ++ t) : b = b' := by
  have hrest : b ++ ['>'] <+: b' ++ ['>'] ++ t := (List.cons_prefix_cons.mp h).2
  rw [List.append_assoc] at hrest
  exact eq_of_start hb hb' hrest

/-- A pattern that begins with a tag fails all over another tag. -/
theorem fails_tag (hb : '>' ∉ b) (hb' : '>' ∉ b') (hlt : '<' ∉ b') (hne : b ≠ b')
    (p : Pattern Char) (t : Text) : Fails (matchHere (literal (tag b) ++ p)) (tag b') t := by
  refine ⟨matchHere_literal_none (fun h => hne (tag_eq_of_start hb hb' h)), ?_⟩
  apply fails_of_not_mem
  simpa using hlt

end Tags

theorem Name.not_mem (n : Name) {c : Char} (h : c ∈ special) : c ∉ n.chars :=
  fun hc => n.plain c hc h

theorem Name.gt_not_mem (n : Name) : '>' ∉ n.chars := n.not_mem (by decide)

theorem Name.lt_not_mem (n : Name) : '<' ∉ n.chars := n.not_mem (by decide)

theorem Name.slash_not_mem (n : Name) : '/' ∉ n.chars := n.not_mem (by decide)

section Forest

variable (e : Name)

theorem fails_open_close (n : Name) (p : Pattern Char) (t : Text) :
    Fails (matchHere (literal (tag e.chars) ++ p)) (tag ('/' :: n.chars)) t := by
  have hgt : '>' ∉ '/' :: n.chars := List.not_mem_cons_of_ne_of_not_mem (by decide) n.gt_not_mem
  have hlt : '<' ∉ '/' :: n.chars := List.not_mem_cons_of_ne_of_not_mem (by decide) n.lt_not_mem
  apply fails_tag e.gt_not_mem hgt hlt
  intro he
  exact e.slash_not_mem (he ▸ List.mem_cons_self)

theorem fails_close_open (n : Name) (p : Pattern Char) (t : Text) :
    Fails (matchHere (literal (tag ('/' :: e.chars)) ++ p)) (tag n.chars) t := by
  have hgt : '>' ∉ '/' :: e.chars := List.not_mem_cons_of_ne_of_not_mem (by decide) e.gt_not_mem
  apply fails_tag hgt n.gt_not_mem n.lt_not_mem
  intro hn
  exact n.slash_not_mem (hn ▸ List.mem_cons_self)

theorem fails_close_close {n : Name} (hne : n.chars ≠ e.chars) (p : Pattern Char) (t : Text) :
    Fails (matchHere (literal (tag ('/' :: e.chars)) ++ p)) (tag ('/' :: n.chars)) t := by
  have hgt (n : Name) : '>' ∉ '/' :: n.chars :=
    List.not_mem_cons_of_ne_of_not_mem (by decide) n.gt_not_mem
  have hlt : '<' ∉ '/' :: n.chars := List.not_mem_cons_of_ne_of_not_mem (by decide) n.lt_not_mem
  exact fails_tag (hgt e) (hgt n) hlt (fun h => hne (List.cons.inj h).2.symm) p t

/-- Where no element of the name occurs, its closing tag does not stand. -/
theorem fails_closing {f : Forest} (h : ¬ f.Occurs e) (t : Text) :
    Fails (matchHere (literal (tag ('/' :: e.chars)))) f.serialise t := by
  rw [← List.append_nil (literal _)]
  induction f generalizing t with
  | nil => trivial
  | text piece rest ih =>
    rw [Forest.serialise, fails_append]
    exact ⟨fails_of_not_mem piece.free, ih h t⟩
  | element name children rest ihc ihr =>
    have hname : name.chars ≠ e.chars := fun hn => h (.inl hn)
    have hchildren := ihc (fun hc => h (.inr (.inl hc)))
    have hrest := ihr (fun hr => h (.inr (.inr hr)))
    -- over the opening tag, the children, the closing tag and the rest in turn
    simp only [Forest.serialise, fails_append]
    exact ⟨fails_close_open e name [] _, hchildren _, fails_close_close e hname [] _, hrest t⟩

theorem contents_of_not_occurs {f : Forest} (h : ¬ f.Occurs e) : f.contents e = [] := by
  induction f with
  | nil => rfl
  | text piece rest ih => exact ih h
  | element name children rest ihc ihr =>
    rw [Forest.contents, if_neg (fun hn => h (.inl hn)), ihc (fun hc => h (.inr (.inl hc))),
      ihr (fun hr => h (.inr (.inr hr)))]
    rfl

/-- The matches in a forest are the contents of its elements, and those behind it follow. -/
theorem finditer_serialise {f : Forest} (h : f.NotNested e) (t : Text) :
    finditer (elementPattern e.chars) (f.serialise ++ t) =
      (f.contents e).map (fun content => [content]) ++ finditer (elementPattern e.chars) t := by
  induction f generalizing t with
  | nil => rfl
  | text piece rest ih =>
    have hpiece : Fails (matchHere (elementPattern e.chars)) piece.chars (rest.serialise ++ t) :=
      fails_of_not_mem piece.free
    rw [Forest.serialise, Forest.contents, List.append_assoc, finditer_fails hpiece, ih h]
  | element name children rest ihc ihr =>
    obtain ⟨hinner, hchildren, hrest⟩ := h
    simp only [Forest.serialise, Forest.contents, List.append_assoc]
    by_cases hname : name.chars = e.chars
    · -- the lazy group passes the children and stops at the element's own closing tag
      have hinner := hinner hname
      have hmatch : matchHere (elementPattern e.chars) (tag e.chars ++ (children.serialise ++
          (tag ('/' :: e.chars) ++ (rest.serialise ++ t)))) =
            some ([children.serialise], rest.serialise ++ t) :=
        (matchHere_literal _ _ _).trans (lazyLoop_literal (fails_closing e hinner _))
      have hnext := finditer_match (u := tag e.chars ++ (children.serialise ++
        tag ('/' :: e.chars))) (by simp [tag]) (by simpa only [List.append_assoc] using hmatch)
      simp only [List.append_assoc] at hnext
      rw [hname, if_pos rfl, hnext, contents_of_not_occurs e hinner, ihr hrest]
      rfl
    · -- neither tag is one of this name, and the scan goes on among the children
      have hopen : Fails (matchHere (elementPattern e.chars)) (tag name.chars)
          (children.serialise ++ (tag ('/' :: name.chars) ++ (rest.serialise ++ t))) :=
        fails_tag e.gt_not_mem name.gt_not_mem name.lt_not_mem (fun h => hname h.symm) _ _
      have hclose : Fails (matchHere (elementPattern e.chars)) (tag ('/' :: name.chars))
          (rest.serialise ++ t) := fails_open_close e name _ _
      rw [if_neg hname, List.nil_append, finditer_fails hopen, ihc hchildren,
        finditer_fails hclose, ihr hrest, List.map_append, List.append_assoc]

end Forest

/-- Every element of the name, at any depth, is found once, in document order. -/
theorem getElements_serialise (f : Forest) (e : Name) (h : f.NotNested e) :
    getElements f.serialise e.chars = f.contents e := by
  have hall := finditer_serialise e h []
  rw [List.append_nil, finditer, finditer, finditerFrom, List.append_nil] at hall
  rw [getElements, finditer, hall, List.map_map]
  exact List.map_id _

def keyName : Name := ⟨['k', 'e', 'y'], by simp [special]⟩

/-- `<keys><key>a</key></keys>` -/
def keyForest : Forest :=
  .element ⟨['k', 'e', 'y', 's'], by simp [special]⟩
    (.element keyName (.text ⟨['a'], by decide⟩ .nil) .nil) .nil

theorem getElements_serialise_keys :
    getElements keyForest.serialise keyName.chars = keyForest.contents keyName :=
  getElements_serialise keyForest keyName
    ⟨fun h => absurd h (by decide), ⟨fun _ h => h, trivial, trivial⟩, trivial⟩

end YuToolbox.Dict

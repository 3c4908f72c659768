import YuToolbox.TaskFileRoundTrip

/-! A task line with a fetch URL through `oparse_taskfile`. The split at `" ` eats the closing
quote of the URL and nothing puts it back, so the value of the `url` attribute goes on into
the next tags. -/
namespace YuToolbox.TaskFile

open Awk

/-- Neither an equals sign nor a quote nor a blank. -/
def Word (w : Text) : Prop := ∀ c ∈ w, c ≠ '=' ∧ c ≠ '"' ∧ isBlank c = false

/-- `fetch_url="URL" K1="V1" … Kn="Vn" NAME` -/
structure FetchLine where
  url : Text
  fields : List (Text × Text)
  name : Text
  url_free : ∀ c ∈ url, c ≠ '"' ∧ isBlank c = false ∧ c ≠ '&' ∧ c ≠ '<' ∧ c ≠ '>'
  fields_word : ∀ f ∈ fields, Word f.1 ∧ Word f.2
  name_word : Word name

def quotedText (f : Text × Text) : Text := f.1 ++ "=\"".toList ++ f.2 ++ "\" ".toList

/-- A field as `split` leaves it. -/
def quotedPiece (f : Text × Text) : Text := f.1 ++ ['='] ++ ['"'] ++ f.2

def FetchLine.text (l : FetchLine) : Text :=
  quotedText ("fetch_url".toList, l.url) ++ l.fields.flatMap quotedText ++ l.name

/-- The emitted XML is well formed, its task has one `fetch` child with the URL, and no
parameter is the URL's. -/
def FetchLaw (tag : Text) (l : FetchLine) : Prop :=
  ∃ fuel xml node fetch, oparseTaskfile fuel ⟨[l.text], false⟩ (aligin tag) = some xml ∧
    Xml.read xml = some [node] ∧ node.name = "task".toList ∧
    node.children.filter (·.name = "fetch".toList) = [fetch] ∧
    fetch.attr "url".toList = some l.url ∧
    ∃ t, readTask node = some t ∧ "fetch_url".toList ∉ t.params.map Prod.fst

/-- What `parse_restraint` makes of a URL. -/
def fetchNode (space url : Text) : Text := space ++ "<fetch url=".toList ++ url ++ "/>".toList

/-- A URL as `parse_equation` cuts it out: nothing, or an opening quote and no closing one. -/
def OpenQuote (url : Text) : Prop := url = [] ∨ ∃ v, url = '"' :: v ∧ '"' ∉ v

/-- What the pieces read so far have left behind, the first of them included. -/
structure Emitted (algn : Text) (c : Collected) : Prop where
  params : ∃ params : List (Text × Text), c.paramContent = params.flatMap (paramLine algn)
  fetch : ∃ url, OpenQuote url ∧ c.giturl = fetchNode ("\t\t\t\t".toList ++ algn) url

theorem Word.quote_not_mem {w : Text} (h : Word w) : '"' ∉ w := fun hm => (h _ hm).2.1 rfl

theorem Word.equals_not_mem {w : Text} (h : Word w) : '=' ∉ w := fun hm => (h _ hm).1 rfl

section Pieces

variable {algn : Text}

theorem openQuote_quotedPiece {f : Text × Text} (hkey : '=' ∉ f.1) (hvalue : '"' ∉ f.2) :
    OpenQuote (parseEquation (quotedPiece f) false) := by
  have hpiece : quotedPiece f = f.1 ++ '=' :: ('"' :: f.2) := by simp [quotedPiece]
  have hurl := (parseEquation_equation hkey ('"' :: f.2)).2
  rw [List.takeWhile_cons_of_pos (by decide)] at hurl
  rw [hpiece, hurl]
  exact .inr ⟨_, rfl, fun hm => hvalue (List.takeWhile_subset _ hm)⟩

theorem openQuote_name {name : Text} (h : '=' ∉ name) :
    OpenQuote (parseEquation name false) := by
  have hq : ("=".toList).head? = some '=' := rfl
  have hname := splitFrom_whole hq h
  simp only [parseEquation, Bool.false_eq_true, if_false]
  refine .inl ?_
  rw [split]
  split
  · rfl
  · rw [hname]
    rfl

theorem parseRestraint_eq {pr : Text} (h : "fetch_url".toList <:+: pr) (space : Text) :
    parseRestraint pr space = fetchNode space (parseEquation pr false) := by
  rw [parseRestraint, if_pos ((matchesLiteral_iff _ _).mpr h)]
  rfl

theorem piece_fetch {pr : Text} (h : "fetch_url".toList <:+: pr) (c : Collected) :
    piece algn c pr =
      { c with giturl := fetchNode ("\t\t\t\t".toList ++ algn) (parseEquation pr false) } := by
  have hpos : 0 < (fetchNode ("\t\t\t\t".toList ++ algn) (parseEquation pr false)).length := by
    apply List.length_pos_iff.mpr
    exact List.append_ne_nil_of_right_ne_nil _ (List.cons_ne_nil '/' ['>'])
  rw [piece, parseRestraint_eq h, if_pos hpos]

/-- A later piece adds a parameter or replaces the URL by another open one. -/
theorem Emitted.piece {c : Collected} (hc : Emitted algn c) {pr : Text}
    (hpr : OpenQuote (parseEquation pr false)) : Emitted algn (piece algn c pr) := by
  by_cases h : "fetch_url".toList <:+: pr
  · rw [piece_fetch h]
    exact ⟨hc.params, _, hpr, rfl⟩
  · obtain ⟨params, hparams⟩ := hc.params
    rw [piece_eq algn h]
    refine ⟨⟨params ++ (pieceParam pr).toList, ?_⟩, hc.fetch⟩
    rw [List.flatMap_append, hparams]

theorem Emitted.foldl {prs : List Text} (h : ∀ pr ∈ prs, OpenQuote (parseEquation pr false))
    {c : Collected} (hc : Emitted algn c) : Emitted algn (prs.foldl (TaskFile.piece algn) c) := by
  induction prs generalizing c with
  | nil => exact hc
  | cons pr prs ih =>
    exact ih (fun q hq => h q (List.mem_cons_of_mem pr hq)) (hc.piece (h pr List.mem_cons_self))

end Pieces

section Line

variable (l : FetchLine)

theorem FetchLine.quote_not_mem_url : '"' ∉ l.url := fun h => (l.url_free _ h).1 rfl

theorem splitFrom_quotedText {f : Text × Text} (hkey : '"' ∉ f.1) (hvalue : '"' ∉ f.2)
    (hblank : ∀ c ∈ f.2, isBlank c = false) (text : Text) :
    splitFrom "\" ".toList [] 0 (quotedText f ++ text) =
      quotedPiece f :: splitFrom "\" ".toList [] 0 text := by
  have hkey : '"' ∉ f.1 ++ ['='] := by
    rw [List.mem_append, List.mem_singleton]
    exact fun h => h.elim hkey (by decide)
  apply splitFrom_equation hkey hvalue
  intro hspace
  exact absurd (hblank _ (List.mem_of_mem_head? hspace)) (by decide)

theorem splitFrom_fields {fields : List (Text × Text)} (h : ∀ f ∈ fields, Word f.1 ∧ Word f.2)
    {name : Text} (hname : '"' ∉ name) :
    splitFrom "\" ".toList [] 0 (fields.flatMap quotedText ++ name) =
      fields.map quotedPiece ++ [name] := by
  have hq : ("\" ".toList).head? = some '"' := rfl
  have hfield : ∀ f ∈ fields, ∀ text, splitFrom "\" ".toList [] 0 (quotedText f ++ text) =
      [quotedPiece f] ++ splitFrom "\" ".toList [] 0 text := by
    intro f hf text
    obtain ⟨hkey, hvalue⟩ := h f hf
    exact splitFrom_quotedText hkey.quote_not_mem hvalue.quote_not_mem
      (fun c hc => (hvalue c hc).2.2) text
  rw [splitFrom_flatMap hfield, splitFrom_whole hq hname, ← List.map_eq_flatMap]

theorem FetchLine.split_text : split "\" ".toList l.text =
    quotedPiece ("fetch_url".toList, l.url) :: (l.fields.map quotedPiece ++ [l.name]) := by
  have hne : l.text.isEmpty = false := rfl
  have hkey : '"' ∉ "fetch_url".toList := by decide
  have hblank : ∀ c ∈ l.url, isBlank c = false := fun c hc => (l.url_free c hc).2.1
  rw [split, hne, if_neg Bool.false_ne_true, FetchLine.text, List.append_assoc,
    splitFrom_quotedText hkey l.quote_not_mem_url hblank,
    splitFrom_fields l.fields_word l.name_word.quote_not_mem]

/-- The element emitted for the line: some parameters and a URL without its closing quote. -/
theorem FetchLine.taskText_eq (algn : Text) : ∃ (params : List (Text × Text)) (url : Text),
    OpenQuote url ∧
    taskText algn l.text = gettask l.name (params.flatMap (paramLine algn))
      (fetchNode ("\t\t\t\t".toList ++ algn) url) ("\t\t\t".toList ++ algn) := by
  have hfirst : "fetch_url".toList <:+: quotedPiece ("fetch_url".toList, l.url) :=
    ⟨[], ['='] ++ ['"'] ++ l.url, by simp [quotedPiece]⟩
  have hkey : '=' ∉ "fetch_url".toList := by decide
  have hstart : Emitted algn (piece algn ⟨[], []⟩ (quotedPiece ("fetch_url".toList, l.url))) := by
    rw [piece_fetch hfirst]
    exact ⟨⟨[], rfl⟩, _, openQuote_quotedPiece hkey l.quote_not_mem_url, rfl⟩
  -- a key or a name that holds `fetch_url` replaces the URL, but not by a closed one
  have hrest : ∀ pr ∈ l.fields.map quotedPiece ++ [l.name],
      OpenQuote (parseEquation pr false) := by
    intro pr hpr
    rcases List.mem_append.mp hpr with hpr | hpr
    · obtain ⟨f, hf, rfl⟩ := List.mem_map.mp hpr
      obtain ⟨hkey, hvalue⟩ := l.fields_word f hf
      exact openQuote_quotedPiece hkey.equals_not_mem hvalue.quote_not_mem
    · rw [List.mem_singleton.mp hpr]
      exact openQuote_name l.name_word.equals_not_mem
  obtain ⟨⟨params, hparams⟩, url, hurl, hgit⟩ := hstart.foldl hrest
  refine ⟨params, url, hurl, ?_⟩
  rw [taskText, l.split_text, List.foldl_cons]
  simp only [hparams, hgit]
  rw [← List.cons_append, List.getLastD_concat]

end Line

section Read

variable {algn : Text}

/-- What the open quote swallows: the end of its tag and the next tag, as far as a quote. -/
structure Swallowed (w tail : Text) : Prop where
  starts : ∃ more, w = "/>".toList ++ more
  lt_mem : '<' ∈ w
  semicolon_not_mem : ';' ∉ w
  quote_not_mem : '"' ∉ w
  stops : tail = [] ∨ ∃ rest, tail = '"' :: rest

theorem gettask_fetch (h : Xml.Spaces algn) (name : Text) (params : List (Text × Text))
    (url : Text) : ∃ w tail, Swallowed w tail ∧
      "\n".toList ++ gettask name (params.flatMap (paramLine algn))
        (fetchNode ("\t\t\t\t".toList ++ algn) url) ("\t\t\t".toList ++ algn) =
      ("\n\t\t\t".toList ++ algn ++ (openTask name).text) ++ ("\n\t\t\t\t".toList ++ algn) ++
        '<' :: ("fetch url=".toList ++ (url ++ (w ++ tail))) := by
  have hsemi : ';' ∉ algn := fun hm => absurd (h _ hm) (by decide)
  have hquote : '"' ∉ algn := fun hm => absurd (h _ hm) (by decide)
  cases params with
  | nil =>
    refine ⟨"/>".toList ++ ("\n\t\t\t".toList ++ algn ++ "\t<params/>\n\t\t\t".toList ++ algn ++
      "</task>".toList), [], ⟨⟨_, rfl⟩, ?_, ?_, ?_, .inl rfl⟩, ?_⟩
    · simp
    · simp [hsemi]
    · simp [hquote]
    · simp [gettask, openTask, Xml.RawTag.text, fetchNode]
  | cons p params =>
    -- the quote of the first parameter's name is the next one
    refine ⟨"/>".toList ++ ("\n\t\t\t".toList ++ algn ++ "\t<params>\n\t\t\t\t\t".toList ++ algn ++
      "<param name=".toList), '"' :: (p.1 ++ "\" value=\"".toList ++ p.2 ++ "\"/>".toList ++
      params.flatMap (paramLine algn) ++ "\n\t\t\t".toList ++ algn ++
      "\t</params>\n\t\t\t".toList ++ algn ++ "</task>".toList),
      ⟨⟨_, rfl⟩, ?_, ?_, ?_, .inr ⟨_, rfl⟩⟩, ?_⟩
    · simp
    · simp [hsemi]
    · simp [hquote]
    · simp [gettask, openTask, Xml.RawTag.text, fetchNode, paramLine, getparam]

/-- A first attribute that is refused refuses its tag. -/
theorem tagOf_eq_none {t : Xml.RawTag} {outside raw : Text}
    (ht : t.values.head? = some (outside, raw)) (hraw : Xml.decode raw = none) :
    Xml.tagOf t = none := by
  obtain ⟨more, hvalues⟩ := List.head?_eq_some_iff.mp ht
  have hattrs : ∀ outside, Xml.attrsOf ((outside, raw) :: more) = none := by
    intro outside
    rw [Xml.attrsOf]
    split
    · rw [hraw]
      cases Xml.attrName ‹_› <;> rfl
    · rfl
  rw [Xml.tagOf, hvalues]
  simp only [hattrs]
  split <;> rfl

theorem lex_fetch {w tail url : Text} (hw : Swallowed w tail) (hurl : OpenQuote url)
    {raws : List Xml.RawTag}
    (h : Xml.lex .content ('<' :: ("fetch url=".toList ++ (url ++ (w ++ tail)))) = some raws) :
    ∃ t ∈ raws, Xml.tagOf t = none := by
  have hfetch : Xml.Unquoted "fetch url=".toList := by decide
  rw [Xml.lex, if_pos rfl, Xml.lex_outside hfetch] at h
  rcases hurl with rfl | ⟨v, rfl, hv⟩
  · -- no value at all stands behind the equals sign
    obtain ⟨more, rfl⟩ := hw.starts
    have hslash : Xml.Unquoted "/".toList := by decide
    have htext : [] ++ ("/>".toList ++ more ++ tail) = "/".toList ++ '>' :: (more ++ tail) := rfl
    rw [htext, Xml.lex_outside hslash, Xml.lex, if_neg (by decide), if_pos rfl] at h
    obtain ⟨raws, -, rfl⟩ := Option.map_eq_some_iff.mp h
    exact ⟨_, List.mem_cons_self, rfl⟩
  · have hquote : '"' ∉ v ++ w := fun hm => (List.mem_append.mp hm).elim hv hw.quote_not_mem
    rw [List.cons_append, Xml.lex, if_pos rfl, ← List.append_assoc] at h
    rcases hw.stops with rfl | ⟨rest, rfl⟩
    -- without a parameter no quote follows, and the value never ends
    · rw [List.append_nil, Xml.lex_value_eq_none hquote] at h
      cases h
    -- with one it ends at the quote of the first name, behind the `<` of a tag
    · rw [Xml.lex_value hquote] at h
      obtain ⟨t, more, rfl, ht⟩ := (Xml.lex_keeps _).1 _ _ h
      have hraw := Xml.decodeFrom_eq_none none v hw.lt_mem hw.semicolon_not_mem
      exact ⟨t, List.mem_cons_self, tagOf_eq_none ht hraw⟩

/-- The task element of the line is no XML: the tag of its URL is never closed. -/
theorem FetchLine.read_eq_none (h : Xml.Spaces algn) (l : FetchLine) :
    Xml.read ("\n".toList ++ taskText algn l.text) = none := by
  obtain ⟨params, url, hurl, htext⟩ := l.taskText_eq algn
  obtain ⟨w, tail, hw, hgettask⟩ := gettask_fetch h l.name params url
  have hindent : Xml.Spaces ("\n\t\t\t\t".toList ++ algn) := Xml.Spaces.append (by decide) h
  have hopen := (lexes_openTask h l.name_word.quote_not_mem).append (Xml.Lexes.spaces hindent)
  rw [htext, hgettask, Xml.read, hopen]
  cases hlex : Xml.lex .content ('<' :: ("fetch url=".toList ++ (url ++ (w ++ tail)))) with
  | none => rfl
  | some raws =>
    obtain ⟨t, ht, hnone⟩ := lex_fetch hw hurl hlex
    have hmap := mapM_eq_none_of_mem (List.mem_append_right ([openTask l.name] ++ []) ht) hnone
    change (([openTask l.name] ++ [] ++ raws).mapM Xml.tagOf).bind (Xml.build [] []) = none
    rw [hmap]
    rfl

theorem FetchLine.oparseTaskfile_read {fuel : ℕ} {tag xml : Text} (l : FetchLine)
    (h : oparseTaskfile fuel ⟨[l.text], false⟩ (aligin tag) = some xml) :
    Xml.read xml = none := by
  rw [oparseTaskfile_eq h, List.flatMap_singleton]
  exact l.read_eq_none (spaces_aligin tag)

end Read

/-- On no line with a fetch URL is what the script emits well formed. -/
theorem fetchLaw_never (tag : Text) (l : FetchLine) : ¬ FetchLaw tag l ∧
    ∃ fuel xml, oparseTaskfile fuel ⟨[l.text], false⟩ (aligin tag) = some xml ∧
      Xml.read xml = none := by
  constructor
  · rintro ⟨fuel, xml, node, fetch, hrun, hread, -⟩
    rw [l.oparseTaskfile_read hrun] at hread
    cases hread
  · obtain ⟨fuel, hfuel⟩ := oparseTaskfile_readable (aligin tag) [l.text]
    exact ⟨fuel, _, hfuel, l.oparseTaskfile_read hfuel⟩

def gitLine : FetchLine where
  url := "git://a?m#b".toList
  fields := []
  name := "/t".toList
  url_free := by simp [isBlank]
  fields_word := by simp
  name_word := by simp [Word, isBlank]

/-- `fetch_url="git://a?m#b" /t` is not emitted as a task with a fetch node. -/
theorem fetchLaw_gitLine : ¬ ∀ (tag : Text) (l : FetchLine), FetchLaw tag l := by
  intro h
  obtain ⟨fuel, xml, node, fetch, hrun, hread, -⟩ := h "recipe".toList gitLine
  rw [gitLine.oparseTaskfile_read hrun] at hread
  cases hread

end YuToolbox.TaskFile

import Mathlib.Data.List.Forall2
import Mathlib.Data.List.Infix
import Mathlib.Data.List.TakeWhile
import YuToolbox.XmlReader

/-! Elements put in front of end tags, in the text and in the tree: where a document has its end
tags at the beginning of lines, new lines in front of them are new last children. -/
namespace YuToolbox.Xml

mutual

/-- Every element of a name, at any depth, with more elements behind its children. -/
def appendTo (name : Text) (extra : List Node) : Node → Node
  | .element n attrs children =>
    .element n attrs (appendToAll name extra children ++ if n = name then extra else [])

def appendToAll (name : Text) (extra : List Node) : List Node → List Node
  | [] => []
  | node :: nodes => appendTo name extra node :: appendToAll name extra nodes

end

def Tag.stops (name : Text) : Tag → Bool
  | .stop n => n == name
  | _ => false

/-- An element without an end tag. -/
def Tag.empties (name : Text) : Tag → Bool
  | .empty n _ => n == name
  | _ => false

def insertTags (name : Text) (extra tags : List Tag) : List Tag :=
  tags.flatMap (fun t => if t.stops name then extra ++ [t] else [t])

def Frame.append (name : Text) (extra : List Node) (frame : Frame) : Frame :=
  { frame with before := appendToAll name extra frame.before }

section Build

variable {name : Text} {extra : List Node}

theorem appendToAll_eq_map (nodes : List Node) :
    appendToAll name extra nodes = nodes.map (appendTo name extra) := by
  induction nodes with
  | nil => rfl
  | cons node nodes ih => rw [appendToAll, List.map_cons, ih]

theorem appendToAll_concat (nodes : List Node) (node : Node) :
    appendToAll name extra (nodes ++ [node]) =
      appendToAll name extra nodes ++ [appendTo name extra node] := by
  simp only [appendToAll_eq_map, List.map_append, List.map_cons, List.map_nil]

theorem insertTags_cons_of_not {t : Tag} (h : t.stops name = false) (new tags : List Tag) :
    insertTags name new (t :: tags) = t :: insertTags name new tags := by
  rw [insertTags, List.flatMap_cons, if_neg (by rw [h]; exact Bool.false_ne_true)]
  rfl

/-- In front of an end tag the new elements are children of the element it ends. -/
theorem build_insertTags_stop {new : List Tag} (hnew : Builds new extra) (n : Text)
    (stack : List Frame) (nodes : List Node) (tags : List Tag) :
    build stack nodes (insertTags name new (.stop n :: tags)) =
      build stack (nodes ++ if n = name then extra else [])
        (.stop n :: insertTags name new tags) := by
  by_cases hn : n = name
  · have hstop : insertTags name new (.stop n :: tags) =
        new ++ (.stop n :: insertTags name new tags) := by
      rw [insertTags, List.flatMap_cons, if_pos (by simp [Tag.stops, hn])]
      simp only [insertTags, List.append_assoc, List.singleton_append]
    rw [hstop, hnew, if_pos hn]
  · rw [insertTags_cons_of_not (by simp [Tag.stops, hn]), if_neg hn, List.append_nil]

/-- The tree of the tags with new ones in front of the end tags of a name. -/
theorem build_insertTags {new tags : List Tag} (hnew : Builds new extra)
    (h : ∀ t ∈ tags, t.empties name = false) (stack : List Frame) (nodes : List Node) :
    build (stack.map (Frame.append name extra)) (appendToAll name extra nodes)
        (insertTags name new tags) =
      (build stack nodes tags).map (appendToAll name extra) := by
  induction tags generalizing stack nodes with
  | nil => cases stack <;> rfl
  | cons t tags ih =>
    have htags : ∀ t ∈ tags, t.empties name = false :=
      fun u hu => h u (List.mem_cons_of_mem t hu)
    cases t with
    | start n attrs =>
      have hstack := ih htags (⟨n, attrs, nodes⟩ :: stack) []
      rw [insertTags_cons_of_not rfl]
      cases stack <;> exact hstack
    | empty n attrs =>
      have hn : n ≠ name := by
        have hempty := h _ List.mem_cons_self
        simpa only [Tag.empties, beq_eq_false_iff_ne] using hempty
      -- nothing is put into an element that is written as one tag
      have hnode : appendTo name extra (.element n attrs []) = .element n attrs [] := by
        rw [appendTo, if_neg hn]
        rfl
      have hnodes := ih htags stack (nodes ++ [.element n attrs []])
      rw [appendToAll_concat, hnode] at hnodes
      rw [insertTags_cons_of_not rfl]
      cases stack <;> exact hnodes
    | stop n =>
      rw [build_insertTags_stop hnew]
      cases stack with
      | nil => rfl
      | cons frame stack =>
        have hname : (Frame.append name extra frame).name = frame.name := rfl
        rw [List.map_cons, build, build, hname]
        by_cases hframe : frame.name = n
        · have hnodes := ih htags stack
            (frame.before ++ [.element frame.name frame.attrs nodes])
          rw [appendToAll_concat, appendTo] at hnodes
          subst hframe
          rw [if_pos rfl, if_pos rfl]
          exact hnodes
        · rw [if_neg hframe, if_neg hframe]
          rfl

end Build

section Markup

/-- A text that has been cut into whole tags is cut the same way when more stands behind it. -/
theorem lex_append {text : Text} {raws : List RawTag} {mode : Mode}
    (h : lex mode text = some raws) (rest : Text) :
    lex mode (text ++ rest) = (lex .content rest).map (raws ++ ·) := by
  induction text generalizing mode raws with
  | nil =>
    cases mode with
    | content =>
      obtain rfl := Option.some.inj h
      simp
    | tag values outside => cases h
    | value values outside raw => cases h
  | cons c text ih =>
    rw [List.cons_append]
    cases mode with
    | content =>
      simp only [lex] at h ⊢
      split_ifs at h ⊢
      · exact ih h
      · exact ih h
    | tag values outside =>
      simp only [lex] at h ⊢
      split_ifs at h ⊢
      · exact ih h
      · obtain ⟨more, hmore, rfl⟩ := Option.map_eq_some_iff.mp h
        rw [ih hmore, Option.map_map]
        rfl
      · exact ih h
    | value values outside raw =>
      simp only [lex] at h ⊢
      split_ifs at h ⊢
      · exact ih h
      · exact ih h

theorem Lexes.of_lex {text : Text} {raws : List RawTag} (h : lex .content text = some raws) :
    Lexes text raws :=
  lex_append h

theorem Lexes.lex_eq {text : Text} {raws : List RawTag} (h : Lexes text raws) :
    lex .content text = some raws := by
  have hlex := h []
  rw [List.append_nil] at hlex
  rw [hlex]
  simp [lex]

/-- The tag being cut out keeps the values it has, and the one being read as far as it goes. -/
theorem lex_prefix {text : Text} {raws : List RawTag} :
    (∀ values outside, lex (.tag values outside) text = some raws →
      ∃ t more, raws = t :: more ∧ values <+: t.values) ∧
    ∀ values outside raw, lex (.value values outside raw) text = some raws →
      ∃ t more rest, raws = t :: more ∧ values ++ [(outside, raw ++ rest)] <+: t.values := by
  induction text with
  | nil => exact ⟨nofun, nofun⟩
  | cons c text ih =>
    obtain ⟨htag, hvalue⟩ := ih
    constructor
    · intro values outside h
      rw [lex] at h
      split_ifs at h
      · obtain ⟨t, more, rest, hraws, hprefix⟩ := hvalue values outside [] h
        exact ⟨t, more, hraws, (List.prefix_append _ _).trans hprefix⟩
      · obtain ⟨more, -, rfl⟩ := Option.map_eq_some_iff.mp h
        exact ⟨_, more, rfl, List.prefix_refl _⟩
      · exact htag values _ h
    · intro values outside raw h
      rw [lex] at h
      split_ifs at h
      · obtain ⟨t, more, hraws, hprefix⟩ := htag _ _ h
        refine ⟨t, more, [], hraws, ?_⟩
        rwa [List.append_nil]
      · obtain ⟨t, more, rest, hraws, hprefix⟩ := hvalue _ _ _ h
        refine ⟨t, more, c :: rest, hraws, ?_⟩
        rwa [List.append_assoc] at hprefix

/-- No value has a `<` in it. -/
def NoMarkup (raws : List RawTag) : Prop := ∀ t ∈ raws, ∀ p ∈ t.values, '<' ∉ p.2

/-- Where no value has a `<`, every `<` of the text opens a tag. -/
theorem lex_cut {front back : Text} {raws : List RawTag} {mode : Mode}
    (h : lex mode (front ++ '<' :: back) = some raws) (hraws : NoMarkup raws) :
    ∃ before behind, raws = before ++ behind ∧ lex .content ('<' :: back) = some behind := by
  induction front generalizing mode raws with
  | nil =>
    cases mode with
    | content => exact ⟨[], raws, rfl, h⟩
    | tag values outside =>
      rw [List.nil_append, lex, if_neg (by decide), if_neg (by decide), if_pos rfl] at h
      cases h
    | value values outside raw =>
      rw [List.nil_append, lex, if_neg (by decide)] at h
      obtain ⟨t, more, rest, rfl, hprefix⟩ := lex_prefix.2 _ _ _ h
      have hmem : (outside, raw ++ ['<'] ++ rest) ∈ t.values :=
        hprefix.subset (List.mem_append_right _ List.mem_cons_self)
      have hfree := hraws t List.mem_cons_self _ hmem
      simp at hfree
  | cons c front ih =>
    rw [List.cons_append] at h
    cases mode with
    | content =>
      simp only [lex] at h
      split_ifs at h
      · exact ih h hraws
      · exact ih h hraws
    | tag values outside =>
      simp only [lex] at h
      split_ifs at h
      · exact ih h hraws
      · obtain ⟨more, hmore, rfl⟩ := Option.map_eq_some_iff.mp h
        obtain ⟨before, behind, rfl, hbehind⟩ :=
          ih hmore (fun t ht => hraws t (List.mem_cons_of_mem _ ht))
        exact ⟨_ :: before, behind, rfl, hbehind⟩
      · exact ih h hraws
    | value values outside raw =>
      simp only [lex] at h
      split_ifs at h
      · exact ih h hraws
      · exact ih h hraws

/-- What has been read of the tag that is being cut out. -/
def Mode.read : Mode → Text
  | .content => []
  | .tag values outside => '<' :: (values.flatMap (fun p => p.1 ++ '"' :: p.2 ++ ['"']) ++ outside)
  | .value values outside raw =>
    '<' :: (values.flatMap (fun p => p.1 ++ '"' :: p.2 ++ ['"']) ++ outside ++ '"' :: raw)

theorem text_infix_of_lex {text : Text} {raws : List RawTag} {mode : Mode}
    (h : lex mode text = some raws) {t : RawTag} (ht : t ∈ raws) :
    t.text <:+: mode.read ++ text := by
  induction text generalizing mode raws with
  | nil =>
    cases mode with
    | content =>
      obtain rfl := Option.some.inj h
      cases ht
    | tag values outside => cases h
    | value values outside raw => cases h
  | cons c text ih =>
    cases mode with
    | content =>
      simp only [lex] at h
      split_ifs at h with hlt hspace
      · have hin := ih h ht
        rw [hlt]
        exact hin
      · exact (ih h ht).trans (List.infix_cons (List.infix_refl _))
    | tag values outside =>
      simp only [lex] at h
      split_ifs at h with hquote hgt hlt
      · have hin := ih h ht
        rw [hquote]
        simpa only [Mode.read, List.append_assoc, List.cons_append, List.nil_append] using hin
      · obtain ⟨more, hmore, rfl⟩ := Option.map_eq_some_iff.mp h
        rcases List.mem_cons.mp ht with rfl | ht
        · refine ⟨[], text, ?_⟩
          simp [Mode.read, RawTag.text, hgt]
        · have hin := ih hmore ht
          exact hin.trans (List.IsSuffix.isInfix ⟨Mode.read (.tag values outside) ++ [c],
            by simp [Mode.read]⟩)
      · have hin := ih h ht
        simpa only [Mode.read, List.append_assoc, List.cons_append, List.nil_append] using hin
    | value values outside raw =>
      simp only [lex] at h
      split_ifs at h with hquote
      · have hin := ih h ht
        rw [hquote]
        simpa [Mode.read] using hin
      · have hin := ih h ht
        simpa [Mode.read] using hin

theorem digitValue_lt (base : ℕ) : digitValue base '<' = none := by
  have hdigit : ¬ ('0' ≤ '<' ∧ '<' ≤ '9') := by decide
  have hlower : ¬ ('a' ≤ '<' ∧ '<' ≤ 'f') := by decide
  have hupper : ¬ ('A' ≤ '<' ∧ '<' ≤ 'F') := by decide
  simp only [digitValue, if_neg hdigit, if_neg hlower, if_neg hupper, if_neg (Nat.lt_irrefl base)]

theorem foldlM_eq_none_of_mem {α β : Type*} {f : β → α → Option β} {x : α} {xs : List α}
    (hx : x ∈ xs) (h : ∀ b, f b x = none) (b : β) : xs.foldlM f b = none := by
  induction xs generalizing b with
  | nil => cases hx
  | cons y ys ih =>
    rw [List.foldlM_cons]
    rcases List.mem_cons.mp hx with rfl | hx
    · rw [h]
      rfl
    · cases f b y with
      | none => rfl
      | some b' => exact ih hx b'

theorem charReference_eq_none {digits : Text} (h : '<' ∈ digits) (base : ℕ) :
    charReference base digits = none := by
  have hfold := foldlM_eq_none_of_mem (f := fun n c =>
    (digitValue base c).map (fun d => n*base+d)) h
    (fun n => by rw [digitValue_lt, Option.map_none]) 0
  rw [charReference, hfold]
  split <;> rfl

theorem reference_eq_none {name : Text} (h : '<' ∈ name) : reference name = none := by
  unfold reference
  split
  · rename_i digits
    apply charReference_eq_none
    simpa using h
  · rename_i digits _
    apply charReference_eq_none
    simpa using h
  · rename_i name _ _
    apply List.lookup_eq_none_iff.mpr
    intro p hp
    rw [bne_iff_ne]
    rintro rfl
    have hfree : ∀ q ∈ [("amp".toList, '&'), ("lt".toList, '<'), ("gt".toList, '>'),
        ("quot".toList, '"'), ("apos".toList, Char.ofNat 39)], '<' ∉ q.1 := by decide
    exact hfree p hp h

/-- A value with a `<` in it is refused, also where it stands in a reference. -/
theorem decodeFrom_of_mem {raw : Text} : ('<' ∈ raw → decodeFrom none raw = none) ∧
    ∀ name, '<' ∈ name ∨ '<' ∈ raw → decodeFrom (some name) raw = none := by
  induction raw with
  | nil => exact ⟨nofun, fun name _ => rfl⟩
  | cons c raw ih =>
    obtain ⟨hplain, hname⟩ := ih
    constructor
    · intro h
      rw [decodeFrom]
      by_cases hc : c = '<'
      · rw [if_pos hc]
      · have hraw : '<' ∈ raw := (List.mem_cons.mp h).resolve_left (Ne.symm hc)
        rw [if_neg hc]
        split_ifs
        · exact hname [] (Or.inr hraw)
        · exact hplain hraw
        · rw [hplain hraw]
          rfl
        · rfl
    · intro name h
      rw [decodeFrom]
      split_ifs with hc
      · by_cases hin : '<' ∈ name
        · rw [reference_eq_none hin]
          rfl
        · have hraw : '<' ∈ raw := by
            rcases List.mem_cons.mp (h.resolve_left hin) with h | h
            · rw [hc] at h
              exact absurd h (by decide)
            · exact h
          rw [hplain hraw]
          cases reference name <;> rfl
      · apply hname
        rw [List.mem_append, List.mem_singleton]
        rcases h with h | h
        · exact Or.inl (Or.inl h)
        · rcases List.mem_cons.mp h with h | h
          · exact Or.inl (Or.inr h)
          · exact Or.inr h

theorem values_free_of_attrsOf {values : List (Text × Text)} {attrs : List (Text × Text)}
    (h : attrsOf values = some attrs) : ∀ p ∈ values, '<' ∉ p.2 := by
  induction values generalizing attrs with
  | nil => exact fun p hp => absurd hp List.not_mem_nil
  | cons p values ih =>
    obtain ⟨outside, raw⟩ := p
    rw [attrsOf] at h
    split at h
    · simp only [Option.bind_eq_bind, Option.bind_eq_some_iff] at h
      obtain ⟨name, -, value, hvalue, rest, hrest, -⟩ := h
      rw [List.forall_mem_cons]
      refine ⟨fun hlt => ?_, ih hrest⟩
      rw [decode, decodeFrom_of_mem.1 hlt] at hvalue
      cases hvalue
    · cases h

theorem values_free_of_tagOf {t : RawTag} {tag : Tag} (h : tagOf t = some tag) :
    ∀ p ∈ t.values, '<' ∉ p.2 := by
  obtain ⟨values, tail⟩ := t
  cases values with
  | nil => exact fun p hp => absurd hp List.not_mem_nil
  | cons p values =>
    obtain ⟨outside, raw⟩ := p
    simp only [tagOf] at h
    split at h
    · obtain ⟨attrs, hattrs, -⟩ := Option.bind_eq_some_iff.mp h
      have hfree := values_free_of_attrsOf hattrs
      rw [List.forall_mem_cons] at hfree ⊢
      exact hfree
    · cases h

theorem forall₂_of_mapM {α β : Type*} {f : α → Option β} {xs : List α} {ys : List β}
    (h : xs.mapM f = some ys) : List.Forall₂ (fun x y => f x = some y) xs ys := by
  induction xs generalizing ys with
  | nil =>
    obtain rfl := Option.some.inj h
    exact List.Forall₂.nil
  | cons x xs ih =>
    rw [List.mapM_cons] at h
    obtain ⟨y, hy, h⟩ := Option.bind_eq_some_iff.mp h
    obtain ⟨more, hmore, h⟩ := Option.bind_eq_some_iff.mp h
    obtain rfl := Option.some.inj h
    exact List.Forall₂.cons hy (ih hmore)

theorem exists_right_of_mem {α β : Type*} {R : α → β → Prop} {xs : List α} {ys : List β}
    (h : List.Forall₂ R xs ys) {x : α} (hx : x ∈ xs) : ∃ y ∈ ys, R x y := by
  induction h with
  | nil => cases hx
  | cons hxy _ ih =>
    rcases List.mem_cons.mp hx with rfl | hx
    · exact ⟨_, List.mem_cons_self, hxy⟩
    · obtain ⟨y, hy, hR⟩ := ih hx
      exact ⟨y, List.mem_cons_of_mem _ hy, hR⟩

theorem noMarkup_of_mapM {raws : List RawTag} {tags : List Tag} (h : raws.mapM tagOf = some tags) :
    NoMarkup raws := by
  intro t ht
  obtain ⟨tag, -, htag⟩ := exists_right_of_mem (forall₂_of_mapM h) ht
  exact values_free_of_tagOf htag

/-- The end tag of a name, written without blanks. -/
def stopTag (name : Text) : RawTag := ⟨[], '/' :: name⟩

theorem stopTag_text (name : Text) : (stopTag name).text = "</".toList ++ name ++ ">".toList := by
  simp [stopTag, RawTag.text]

/-- The text of an end tag stands nowhere but in that tag. -/
theorem stopTag_mem_iff {name text : Text} (hname : Unquoted name) {raws : List RawTag}
    {tags : List Tag} (hraws : lex .content text = some raws)
    (htags : raws.mapM tagOf = some tags) :
    stopTag name ∈ raws ↔ "</".toList ++ name ++ ">".toList <:+: text := by
  constructor
  · intro h
    have hin := text_infix_of_lex hraws h
    rwa [stopTag_text] at hin
  · rintro ⟨front, back, rfl⟩
    have htext : front ++ ("</".toList ++ name ++ ">".toList) ++ back =
        front ++ '<' :: ('/' :: name ++ '>' :: back) := by simp
    rw [htext] at hraws
    obtain ⟨before, behind, rfl, hbehind⟩ := lex_cut hraws (noMarkup_of_mapM htags)
    have hslash : Unquoted ('/' :: name) := List.forall_mem_cons.mpr ⟨by decide, hname⟩
    rw [lex, if_pos rfl, lex_outside hslash, lex, if_neg (by decide), if_pos rfl] at hbehind
    obtain ⟨more, -, rfl⟩ := Option.map_eq_some_iff.mp hbehind
    exact List.mem_append_right _ List.mem_cons_self

end Markup

section Lines

theorem isSpace_of_isNameChar {c : Char} (h : isNameChar c = true) : isSpace c = false := by
  rw [← Bool.not_eq_true]
  intro hc
  simp only [isSpace, Bool.or_eq_true, beq_iff_eq] at hc
  rcases hc with ((rfl | rfl) | rfl) | rfl <;> exact absurd h (by decide)

theorem isNameChar_of_mem {name : Text} (h : isName name = true) {c : Char} (hc : c ∈ name) :
    isNameChar c = true := by
  cases name with
  | nil => cases hc
  | cons d name =>
    rw [isName, Bool.and_eq_true, List.all_eq_true] at h
    rcases List.mem_cons.mp hc with rfl | hc
    · rw [isNameChar, h.1]
      rfl
    · exact h.2 c hc

theorem unquoted_of_isName {name : Text} (h : isName name = true) : Unquoted name := by
  intro c hc
  have hchar := isNameChar_of_mem h hc
  refine ⟨?_, ?_, ?_⟩ <;> rintro rfl <;> exact absurd hchar (by decide)

theorem tagOf_stopTag {name : Text} (h : isName name = true) :
    tagOf (stopTag name) = some (.stop name) := by
  have hfree : ∀ c ∈ name, (!isSpace c) = true := by
    intro c hc
    rw [isSpace_of_isNameChar (isNameChar_of_mem h hc)]
    rfl
  have htake : name.takeWhile (!isSpace ·) = name := List.takeWhile_eq_self_iff.mpr hfree
  have hdrop : name.dropWhile (!isSpace ·) = [] := List.dropWhile_eq_nil_iff.mpr hfree
  have hname : nameOnly name = some name := by
    simp only [nameOnly, htake, hdrop, h, List.all_nil, Bool.and_self, if_true]
  simp only [tagOf, stopTag, List.head?_cons, if_true, List.tail_cons, hname, Option.map_some]

theorem Tag.eq_stop {name : Text} {t : Tag} (h : t.stops name = true) : t = .stop name := by
  cases t with
  | stop n =>
    rw [Tag.stops, beq_iff_eq] at h
    rw [h]
  | start n attrs => cases h
  | empty n attrs => cases h

theorem insertTags_of_not {name : Text} {tags : List Tag} (h : ∀ t ∈ tags, t.stops name = false)
    (new : List Tag) : insertTags name new tags = tags := by
  induction tags with
  | nil => rfl
  | cons t tags ih =>
    rw [insertTags_cons_of_not (h t List.mem_cons_self),
      ih (fun u hu => h u (List.mem_cons_of_mem t hu))]

/-- A line of whole tags. An end tag of the name stands in front, without blanks in it, and no
element of the name is written as one tag. -/
def Laid (name line : Text) : Prop :=
  ∃ raws tags, lex .content line = some raws ∧ raws.mapM tagOf = some tags ∧
    (∀ t ∈ tags, t.empties name = false) ∧ (∀ t ∈ tags.tail, t.stops name = false) ∧
    ∀ raw ∈ raws, tagOf raw = some (.stop name) → raw = stopTag name

/-- A line of blanks and one tag. -/
theorem Laid.single {name indent : Text} {raw : RawTag} {tag : Tag} (hindent : Spaces indent)
    (hvalues : ∀ p ∈ raw.values, Unquoted p.1 ∧ '"' ∉ p.2) (htail : Unquoted raw.tail)
    (htag : tagOf raw = some tag) (hempty : tag.empties name = false)
    (hstop : tag.stops name = true → raw = stopTag name) : Laid name (indent ++ raw.text) := by
  refine ⟨[raw], [tag], ?_, ?_, ?_, nofun, ?_⟩
  · exact (Lexes.spaces_append hindent (Lexes.tag hvalues htail)).lex_eq
  · rw [List.mapM_cons, htag]
    rfl
  · intro t ht
    rwa [List.mem_singleton.mp ht]
  · intro r hr hread
    obtain rfl := List.mem_singleton.mp hr
    apply hstop
    rw [Option.some.inj (htag.symm.trans hread)]
    exact beq_self_eq_true name

theorem Laid.nil (name : Text) : Laid name [] := ⟨[], [], rfl, rfl, nofun, nofun, nofun⟩

/-- Lines with a new text in front of those that have the end tag of a name. -/
def insertLines (name new : Text) (lines : List Text) : Text :=
  lines.flatMap (fun line =>
    if "</".toList ++ name ++ ">".toList <:+: line then new ++ '\n' :: (line ++ ['\n'])
    else line ++ ['\n'])

variable {name : Text} {new : Text} {newRaws : List RawTag} {newTags : List Tag}

theorem Lexes.line {line : Text} {raws : List RawTag} (h : Lexes line raws) :
    Lexes (line ++ ['\n']) raws := by
  have hspaces : Spaces ['\n'] := by decide
  have hend := h.append (Lexes.spaces hspaces)
  rwa [List.append_nil] at hend

theorem Laid.insertLine {line : Text} (h : Laid name line) (hname : isName name = true)
    (hnew : Lexes new newRaws) (htags : newRaws.mapM tagOf = some newTags) :
    ∃ raws tags raws', Lexes (line ++ ['\n']) raws ∧ raws.mapM tagOf = some tags ∧
      (∀ t ∈ tags, t.empties name = false) ∧ Lexes (insertLines name new [line]) raws' ∧
      raws'.mapM tagOf = some (insertTags name newTags tags) := by
  obtain ⟨raws, tags, hraws, hread, hempty, htail, htight⟩ := h
  have hpairs := forall₂_of_mapM hread
  have hline : Lexes (line ++ ['\n']) raws := (Lexes.of_lex hraws).line
  have hiff := stopTag_mem_iff (unquoted_of_isName hname) hraws hread
  by_cases hin : "</".toList ++ name ++ ">".toList <:+: line
  · -- the end tag is the first of the line
    obtain ⟨t, ht, hstop⟩ := exists_right_of_mem hpairs (hiff.mpr hin)
    rw [tagOf_stopTag hname] at hstop
    obtain rfl := Option.some.inj hstop
    cases tags with
    | nil => cases ht
    | cons u tags =>
      have hself : (Tag.stop name).stops name = true := beq_self_eq_true name
      rcases List.mem_cons.mp ht with rfl | ht
      · refine ⟨raws, _, newRaws ++ raws, hline, hread, hempty, ?_, ?_⟩
        · have htext : insertLines name new [line] = (new ++ ['\n']) ++ (line ++ ['\n']) := by
            rw [insertLines, List.flatMap_cons, List.flatMap_nil, List.append_nil, if_pos hin,
              List.append_assoc]
            rfl
          rw [htext]
          exact hnew.line.append hline
        · rw [List.mapM_append, htags, hread, insertTags, List.flatMap_cons, if_pos hself]
          have hrest := insertTags_of_not htail newTags
          rw [insertTags, List.tail_cons] at hrest
          rw [hrest, List.append_assoc]
          rfl
      · rw [htail _ ht] at hself
        cases hself
  · have hfree : ∀ t ∈ tags, t.stops name = false := by
      intro t ht
      rw [← Bool.not_eq_true]
      intro hstop
      obtain rfl := Tag.eq_stop hstop
      obtain ⟨raw, hraw, htag⟩ := exists_right_of_mem hpairs.flip ht
      rw [htight raw hraw htag] at hraw
      exact hin (hiff.mp hraw)
    refine ⟨raws, tags, raws, hline, hread, hempty, ?_, ?_⟩
    · have htext : insertLines name new [line] = line ++ ['\n'] := by
        rw [insertLines, List.flatMap_cons, List.flatMap_nil, List.append_nil, if_neg hin]
      rw [htext]
      exact hline
    · rw [insertTags_of_not hfree, hread]

theorem insertLines_cons (line : Text) (lines : List Text) :
    insertLines name new (line :: lines) =
      insertLines name new [line] ++ insertLines name new lines := by
  simp only [insertLines, List.flatMap_cons, List.flatMap_nil, List.append_nil]

theorem insertLines_tags {lines : List Text} (h : ∀ line ∈ lines, Laid name line)
    (hname : isName name = true) (hnew : Lexes new newRaws)
    (htags : newRaws.mapM tagOf = some newTags) :
    ∃ raws tags raws', Lexes (lines.flatMap (· ++ ['\n'])) raws ∧ raws.mapM tagOf = some tags ∧
      (∀ t ∈ tags, t.empties name = false) ∧ Lexes (insertLines name new lines) raws' ∧
      raws'.mapM tagOf = some (insertTags name newTags tags) := by
  induction lines with
  | nil => exact ⟨[], [], [], Lexes.nil, rfl, nofun, Lexes.nil, rfl⟩
  | cons line lines ih =>
    obtain ⟨raws, tags, raws', hlex, hread, hempty, hlex', hread'⟩ :=
      (h line List.mem_cons_self).insertLine hname hnew htags
    obtain ⟨more, moreTags, more', mlex, mread, mempty, mlex', mread'⟩ :=
      ih (fun l hl => h l (List.mem_cons_of_mem line hl))
    refine ⟨raws ++ more, tags ++ moreTags, raws' ++ more', ?_, ?_, ?_, ?_, ?_⟩
    · rw [List.flatMap_cons]
      exact hlex.append mlex
    · rw [List.mapM_append, hread, mread]
      rfl
    · intro t ht
      exact (List.mem_append.mp ht).elim (hempty t) (mempty t)
    · rw [insertLines_cons]
      exact hlex'.append mlex'
    · rw [List.mapM_append, hread', mread', insertTags, insertTags, insertTags,
        List.flatMap_append]
      rfl

theorem read_of_lexes {text : Text} {raws : List RawTag} {tags : List Tag} (h : Lexes text raws)
    (htags : raws.mapM tagOf = some tags) : read text = build [] [] tags := by
  rw [read, h.lex_eq]
  simp only [Option.bind_eq_bind, Option.bind_some, htags]

/-- New lines in front of the end tags are new last children of the elements, and nothing else
of the document changes. -/
theorem read_insertLines {lines : List Text} (h : ∀ line ∈ lines, Laid name line)
    (hname : isName name = true) (hnew : Lexes new newRaws)
    (htags : newRaws.mapM tagOf = some newTags) {extra : List Node}
    (hbuild : Builds newTags extra) :
    read (insertLines name new lines) =
      (read (lines.flatMap (· ++ ['\n']))).map (appendToAll name extra) := by
  obtain ⟨raws, tags, raws', hlex, hread, hempty, hlex', hread'⟩ :=
    insertLines_tags h hname hnew htags
  rw [read_of_lexes hlex' hread', read_of_lexes hlex hread]
  exact build_insertTags hbuild hempty [] []

end Lines

end YuToolbox.Xml

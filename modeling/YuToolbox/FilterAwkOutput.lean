import YuToolbox.FilterAwk

/-! What comes out of `filter.awk`, whatever goes in: also blocks that never close, closing lines
alone, blocks on one line and flags that are handed on. -/
namespace YuToolbox.FilterAwk

open Awk

/-- The records that the range pattern passes over. -/
def outsideRecords : Bool → List Text → List Text
  | _, [] => []
  | inRange, record :: records =>
    let rest :=
      outsideRecords (rangeAfter inRange (isOpen record) (isClose record)) records
    if rangeFires inRange (isOpen record) then rest else record :: rest

/-- The records inside `<recipeSet>` blocks. -/
def insideRecords (lines : List Text) : List Text := rangeRecords isOpen isClose false lines

def isLine (line : Text) : Bool := !line.isEmpty

/-- The lines of the output that are not empty. -/
def outLines (input : List Text) : List Text := (records (filterAwk input)).filter isLine

/-- A block at the end of the input that is not closed. -/
structure Tail where
  lines : List Text
  opens : ∀ line ∈ lines.head?, isOpen line = true
  unclosed : ∀ line ∈ lines, isClose line = false

theorem exists_close (lines : List Text) :
    (∃ init last behind, lines = init ++ last :: behind ∧ (∀ line ∈ init, isClose line = false) ∧
      isClose last = true) ∨ ∀ line ∈ lines, isClose line = false := by
  induction lines with
  | nil => exact Or.inr (List.forall_mem_nil _)
  | cons line lines ih =>
    by_cases hclose : isClose line = true
    · exact Or.inl ⟨[], line, lines, rfl, List.forall_mem_nil _, hclose⟩
    · rw [Bool.not_eq_true] at hclose
      rcases ih with ⟨init, last, behind, rfl, hinit, hlast⟩ | hnone
      · left
        refine ⟨line :: init, last, behind, rfl, ?_, hlast⟩
        exact List.forall_mem_cons.mpr ⟨hclose, hinit⟩
      · exact Or.inr (List.forall_mem_cons.mpr ⟨hclose, hnone⟩)

/-- An opening line begins a block, or nothing behind it closes one. -/
theorem exists_block {line : Text} (hopen : isOpen line = true) (lines : List Text) :
    (∃ b : Block, ∃ behind, line :: lines = b.lines ++ behind) ∨
      ∀ l ∈ line :: lines, isClose l = false := by
  rcases exists_close (line :: lines) with ⟨init, last, behind, hlines, hinit, hlast⟩ | hnone
  · left
    have hopens : isOpen ((init ++ [last]).head (by simp)) = true := by
      cases init with
      | nil =>
        obtain ⟨rfl, -⟩ := List.cons.inj hlines
        exact hopen
      | cons first init =>
        obtain ⟨rfl, -⟩ := List.cons.inj hlines
        exact hopen
    refine ⟨⟨init, last, hopens, hinit, hlast⟩, behind, ?_⟩
    rw [hlines, Block.lines, List.append_assoc]
    rfl
  · exact Or.inr hnone

/-- Every input is made of lines outside, blocks, and perhaps a block that does not close. -/
theorem exists_items (input : List Text) :
    ∃ (items : List Item) (tail : Tail), input = items.flatMap Item.lines ++ tail.lines := by
  have hnil : ∃ tail : Tail, tail.lines = [] := ⟨⟨[], by simp, by simp⟩, rfl⟩
  -- by the length of what is left
  induction hn : input.length using Nat.strongRecOn generalizing input with
  | ind n ih =>
    cases input with
    | nil =>
      obtain ⟨tail, htail⟩ := hnil
      exact ⟨[], tail, by rw [htail, List.flatMap_nil, List.append_nil]⟩
    | cons line lines =>
      rw [List.length_cons] at hn
      by_cases hopen : isOpen line = true
      · rcases exists_block hopen lines with ⟨b, behind, hb⟩ | hnone
        · have hlength := congrArg List.length hb
          rw [List.length_cons, List.length_append, Block.lines, List.length_append,
            List.length_singleton] at hlength
          obtain ⟨items, tail, hbehind⟩ := ih behind.length (by omega) behind rfl
          refine ⟨.block b :: items, tail, ?_⟩
          rw [hb, hbehind, List.flatMap_cons, Item.lines, List.append_assoc]
        · exact ⟨[], ⟨line :: lines, by simpa using hopen, hnone⟩, rfl⟩
      · rw [Bool.not_eq_true] at hopen
        obtain ⟨items, tail, hlines⟩ := ih lines.length (by omega) lines rfl
        refine ⟨.outside line hopen :: items, tail, ?_⟩
        rw [hlines, List.flatMap_cons, Item.lines, List.append_assoc]
        rfl

/-- An open block prints nothing before it closes. -/
theorem foldl_record_unclosed {lines : List Text} (h : ∀ line ∈ lines, isClose line = false)
    {s : State} (hs : ∀ line ∈ lines.head?, rangeFires s.inRange (isOpen line) = true) :
    (lines.foldl record s).out = s.out := by
  induction lines generalizing s with
  | nil => rfl
  | cons line lines ih =>
    obtain ⟨hline, hlines⟩ := List.forall_mem_cons.mp h
    have hfires : rangeFires s.inRange (isOpen line) = true := hs line rfl
    have hnext : (record s line).inRange = true ∧ (record s line).out = s.out := by
      cases hd : isDebug line <;> simp [record, rangeAfter, hfires, hline, hd]
    rw [List.foldl_cons, ih hlines, hnext.2]
    intro l _
    rw [hnext.1]
    rfl

theorem filterAwk_items (items : List Item) (tail : Tail) :
    filterAwk (items.flatMap Item.lines ++ tail.lines) = printed false items := by
  have hfires (s : State) : ∀ line ∈ tail.lines.head?,
      rangeFires s.inRange (isOpen line) = true := by
    intro line hline
    rw [tail.opens line hline, rangeFires, Bool.or_true]
  rw [filterAwk, List.foldl_append, foldl_record_unclosed tail.unclosed (hfires _)]
  exact filterAwk_eq_printed items

def blankItem : Item := .outside [] rfl

/-- What stays, as items again: in front of a block there is an empty line. -/
def keptItems : Bool → List Item → List Item
  | _, [] => []
  | debug, .outside line h :: items => .outside line h :: keptItems debug items
  | debug, .block b :: items =>
    if debug || b.debug then keptItems (isDebug b.last) items
    else blankItem :: .block b :: keptItems (isDebug b.last) items

def allLines (items : List Item) : List Text := items.flatMap Item.lines

def outsides (items : List Item) : List Text :=
  items.flatMap (fun i => match i with | .outside line _ => [line] | .block _ => [])

section Kept

theorem printed_keptItems (debug : Bool) (items : List Item) :
    printed debug items = (allLines (keptItems debug items)).flatMap printLine := by
  induction items generalizing debug with
  | nil => rfl
  | cons item items ih =>
    cases item with
    | outside line h =>
      rw [printed, keptItems, ih]
      rfl
    | block b =>
      rw [printed, keptItems, ih]
      cases debug || b.debug with
      | true => rfl
      | false =>
        simp only [Bool.false_eq_true, if_false, allLines, List.flatMap_cons, List.flatMap_append,
          Block.text, Item.lines, blankItem, List.flatMap_nil, List.append_nil, List.append_assoc]

theorem mem_allLines_keptItems {debug : Bool} {items : List Item} {line : Text}
    (h : line ∈ allLines (keptItems debug items)) : line = [] ∨ line ∈ allLines items := by
  induction items generalizing debug with
  | nil => cases h
  | cons item items ih =>
    cases item with
    | outside l hl =>
      rcases List.mem_cons.mp h with rfl | h
      · exact Or.inr List.mem_cons_self
      · exact (ih h).imp_right (List.mem_cons_of_mem l)
    | block b =>
      rw [keptItems] at h
      split at h
      · exact (ih h).imp_right (List.mem_append_right b.lines)
      · have hblock (more : List Item) :
            allLines (blankItem :: .block b :: more) = [] :: (b.lines ++ allLines more) := rfl
        rw [hblock, List.mem_cons, List.mem_append] at h
        rcases h with rfl | h | h
        · exact Or.inl rfl
        · exact Or.inr (List.mem_append_left _ h)
        · exact (ih h).imp_right (List.mem_append_right b.lines)

theorem debug_of_mem_keptItems {debug : Bool} {items : List Item} {b : Block}
    (h : b ∈ blocks (keptItems debug items)) : b.debug = false := by
  induction items generalizing debug with
  | nil => cases h
  | cons item items ih =>
    cases item with
    | outside line hline => exact ih h
    | block b' =>
      rw [keptItems] at h
      split at h
      · exact ih h
      · rename_i hd
        rw [Bool.not_eq_true, Bool.or_eq_false_iff] at hd
        rcases List.mem_cons.mp h with rfl | h
        · exact hd.2
        · exact ih h

theorem outsides_keptItems (debug : Bool) (items : List Item) :
    (outsides (keptItems debug items)).filter isLine = (outsides items).filter isLine := by
  induction items generalizing debug with
  | nil => rfl
  | cons item items ih =>
    cases item with
    | outside line h =>
      have hline (more : List Item) :
          outsides (.outside line h :: more) = [line] ++ outsides more := rfl
      rw [keptItems, hline, hline, List.filter_append, List.filter_append, ih]
    | block b =>
      have hblock (more : List Item) : outsides (.block b :: more) = outsides more := rfl
      rw [keptItems, hblock]
      split
      · exact ih _
      · -- the empty line is none of those that are compared
        exact ih _

theorem keptItems_sublist (debug : Bool) (items : List Item) :
    ((allLines (keptItems debug items)).filter isLine).Sublist (allLines items) := by
  induction items generalizing debug with
  | nil => exact List.Sublist.refl _
  | cons item items ih =>
    cases item with
    | outside line h =>
      have hline (more : List Item) :
          allLines (.outside line h :: more) = [line] ++ allLines more := rfl
      rw [keptItems, hline, hline, List.filter_append]
      exact List.filter_sublist.append (ih debug)
    | block b =>
      have hblock (more : List Item) : allLines (.block b :: more) = b.lines ++ allLines more := rfl
      rw [keptItems, hblock]
      split
      · exact (ih _).trans (List.sublist_append_right _ _)
      · have hblank (more : List Item) :
            (allLines (blankItem :: more)).filter isLine = (allLines more).filter isLine := rfl
        rw [hblank, hblock, List.filter_append]
        exact List.filter_sublist.append (ih _)

/-- Blocks that are all free of debug lines stay as they are, but for the empty lines. -/
theorem keptItems_of_clean {items : List Item} (h : ∀ b ∈ blocks items, b.debug = false) :
    (allLines (keptItems false items)).filter isLine = (allLines items).filter isLine := by
  induction items with
  | nil => rfl
  | cons item items ih =>
    cases item with
    | outside line hl =>
      have hline (more : List Item) :
          allLines (.outside line hl :: more) = [line] ++ allLines more := rfl
      rw [keptItems, hline, hline, List.filter_append, List.filter_append, ih h]
    | block b =>
      obtain ⟨hb, hrest⟩ := List.forall_mem_cons.mp h
      have hlast : isDebug b.last = false := by
        rw [Block.debug, List.any_eq_false] at hb
        have hnot := hb b.last (List.mem_append_right _ List.mem_cons_self)
        rwa [Bool.not_eq_true] at hnot
      have hblock (more : List Item) : allLines (.block b :: more) = b.lines ++ allLines more := rfl
      have hblank (more : List Item) :
          (allLines (blankItem :: more)).filter isLine = (allLines more).filter isLine := rfl
      rw [keptItems, hb, hlast, Bool.or_self, if_neg Bool.false_ne_true, hblank, hblock, hblock,
        List.filter_append, List.filter_append, ih hrest]

end Kept

section Ranges

theorem outsideRecords_inside {body : List Text} (h : ∀ r ∈ body, isClose r = false)
    {stop : Text} (hs : isClose stop = true) (post : List Text) :
    outsideRecords true (body ++ stop :: post) = outsideRecords false post := by
  induction body with
  | nil => simp [outsideRecords, rangeFires, rangeAfter, hs]
  | cons r body ih =>
    obtain ⟨hr, hbody⟩ := List.forall_mem_cons.mp h
    rw [List.cons_append, outsideRecords]
    simp only [hr, rangeAfter, rangeFires, Bool.true_or, Bool.not_false, Bool.and_self, if_true]
    exact ih hbody

/-- The range pattern selects a block whole. -/
theorem ranges_block (b : Block) (post : List Text) :
    rangeRecords isOpen isClose false (b.lines ++ post) =
        b.lines ++ rangeRecords isOpen isClose false post ∧
      outsideRecords false (b.lines ++ post) = outsideRecords false post := by
  obtain ⟨init, last, hopens, hinit, hlast⟩ := b
  rw [Block.lines, List.append_assoc, List.singleton_append]
  cases init with
  | nil =>
    have hopen : isOpen last = true := hopens
    simp [rangeRecords, outsideRecords, rangeFires, rangeAfter, hopen, hlast]
  | cons first init =>
    have hopen : isOpen first = true := hopens
    obtain ⟨hfirst, hinit⟩ := List.forall_mem_cons.mp hinit
    have hin : rangeRecords isOpen isClose true (init ++ last :: post) =
        init ++ last :: rangeRecords isOpen isClose false post :=
      rangeRecords_inside hinit hlast post
    have hout := outsideRecords_inside hinit hlast post
    simp [rangeRecords, outsideRecords, rangeFires, rangeAfter, hopen, hfirst, hin, hout]

theorem ranges_unclosed {lines : List Text} (h : ∀ line ∈ lines, isClose line = false) :
    outsideRecords true lines = [] := by
  induction lines with
  | nil => rfl
  | cons line lines ih =>
    obtain ⟨hline, hlines⟩ := List.forall_mem_cons.mp h
    rw [outsideRecords]
    simp only [hline, rangeAfter, rangeFires, Bool.true_or, Bool.not_false, Bool.and_self, if_true]
    exact ih hlines

theorem Tail.outside (tail : Tail) : outsideRecords false tail.lines = [] := by
  obtain ⟨lines, hopens, hunclosed⟩ := tail
  cases lines with
  | nil => rfl
  | cons line lines =>
    obtain ⟨hline, hlines⟩ := List.forall_mem_cons.mp hunclosed
    have hopen : isOpen line = true := hopens line rfl
    simp only [outsideRecords, hopen, hline, rangeAfter, rangeFires, Bool.or_true, Bool.not_false,
      Bool.and_self, if_true]
    exact ranges_unclosed hlines

theorem outsideRecords_items (items : List Item) (tail : Tail) :
    outsideRecords false (allLines items ++ tail.lines) = outsides items := by
  induction items with
  | nil => exact tail.outside
  | cons item items ih =>
    cases item with
    | outside line h =>
      have hline : outsideRecords false (line :: (allLines items ++ tail.lines)) =
          line :: outsideRecords false (allLines items ++ tail.lines) := by
        simp [outsideRecords, rangeFires, rangeAfter, h]
      exact hline.trans (congrArg (line :: ·) ih)
    | block b =>
      have hblock := (ranges_block b (allLines items ++ tail.lines)).2
      rw [← List.append_assoc] at hblock
      exact hblock.trans ih

theorem insideRecords_items (items : List Item) :
    insideRecords (allLines items) = (blocks items).flatMap Block.lines := by
  unfold insideRecords
  induction items with
  | nil => rfl
  | cons item items ih =>
    cases item with
    | outside line h =>
      have hline : rangeRecords isOpen isClose false (line :: allLines items) =
          rangeRecords isOpen isClose false (allLines items) := by
        simp [rangeRecords, rangeFires, rangeAfter, h]
      exact hline.trans ih
    | block b =>
      have hblock := (ranges_block b (allLines items)).1
      rw [ih] at hblock
      exact hblock

end Ranges

theorem newline_not_mem_keptItems {items : List Item} (h : ∀ line ∈ allLines items, '\n' ∉ line)
    (debug : Bool) : ∀ line ∈ allLines (keptItems debug items), '\n' ∉ line := by
  intro line hline
  rcases mem_allLines_keptItems hline with rfl | hline
  · exact List.not_mem_nil
  · exact h line hline

theorem records_filterAwk {items : List Item} (h : ∀ line ∈ allLines items, '\n' ∉ line)
    (tail : Tail) :
    records (filterAwk (allLines items ++ tail.lines)) = allLines (keptItems false items) := by
  have hout := filterAwk_items items tail
  rw [printed_keptItems] at hout
  rw [allLines, hout, records_lines (newline_not_mem_keptItems h false)]

theorem nil_opens : ∀ line ∈ ([] : List Text).head?, isOpen line = true := by
  intro line hline
  cases hline

theorem nil_unclosed : ∀ line ∈ ([] : List Text), isClose line = false := List.forall_mem_nil _

def noTail : Tail where
  lines := []
  opens := nil_opens
  unclosed := nil_unclosed

/-- Of any lines, in the output no block has a debug line, and the lines outside of blocks are those
of the input. The output has only lines of the input, in their order, and empty ones, and a second
pass removes nothing more. -/
theorem filterAwk_output (input : List Text) (h : ∀ line ∈ input, '\n' ∉ line) :
    (∀ line ∈ insideRecords (records (filterAwk input)), isDebug line = false) ∧
      (outsideRecords false (records (filterAwk input))).filter isLine =
        (outsideRecords false input).filter isLine ∧
      (outLines input).Sublist input ∧
      outLines (records (filterAwk input)) = outLines input := by
  obtain ⟨items, tail, rfl⟩ := exists_items input
  have hfree : ∀ line ∈ allLines items, '\n' ∉ line :=
    fun line hline => h line (List.mem_append_left _ hline)
  have hrecords := records_filterAwk hfree tail
  rw [allLines] at hrecords
  have hclean : ∀ b ∈ blocks (keptItems false items), b.debug = false :=
    fun b hb => debug_of_mem_keptItems hb
  have hnone (more : List Text) : more ++ noTail.lines = more := List.append_nil more
  simp only [outLines, hrecords]
  refine ⟨fun line hline => ?_, ?_, ?_, ?_⟩
  · rw [insideRecords_items] at hline
    obtain ⟨b, hb, hline⟩ := List.mem_flatMap.mp hline
    have hnot := List.any_eq_false.mp (hclean b hb) line hline
    rwa [Bool.not_eq_true] at hnot
  · have hkept := outsideRecords_items (keptItems false items) noTail
    rw [hnone] at hkept
    rw [hkept, outsides_keptItems, ← outsideRecords_items items tail]
    rfl
  · exact (keptItems_sublist false items).trans (List.sublist_append_left _ _)
  · have hagain := records_filterAwk (newline_not_mem_keptItems hfree false) noTail
    rw [hnone] at hagain
    rw [hagain, keptItems_of_clean hclean]

theorem filterAwk_output_oneBlock :
    outLines (records (filterAwk
      ["<recipeSet>".toList, "VARIANT=debug".toList, "</recipeSet>".toList, "a".toList])) =
        outLines ["<recipeSet>".toList, "VARIANT=debug".toList, "</recipeSet>".toList,
          "a".toList] :=
  (filterAwk_output _ (by simp)).2.2.2

end YuToolbox.FilterAwk

import Mathlib.Data.List.Chain
import YuToolbox.AwkInput

/-! `filter.awk`: recipeSet blocks that mention a debug variant are dropped. The debug
branch leaves with `next` before the closing tag is looked at, so a block whose closing
line is the matching one hands its debug flag on to the block after it. -/
namespace YuToolbox.FilterAwk

open Awk

def isOpen (line : Text) : Bool := matchesLiteral "<recipeSet>".toList line
def isClose (line : Text) : Bool := matchesLiteral "</recipeSet>".toList line
def isDebug (line : Text) : Bool := matchesGap "VARIANT".toList "debug".toList line

theorem isDebug_iff (line : Text) : isDebug line = true ↔
    ∃ a b c, line = a ++ "VARIANT".toList ++ b ++ "debug".toList ++ c :=
  matchesGap_iff _ _ line

/-- The variables that some rule reads; `curr_pos` and `target_pos` are only written. -/
structure State where
  debug : Bool
  stage : Text
  inRange : Bool
  out : Text
  deriving DecidableEq

def begin : State := { debug := false, stage := [], inRange := false, out := [] }

def record (s : State) (line : Text) : State :=
  if rangeFires s.inRange (isOpen line) then
    let s := { s with
      inRange := rangeAfter s.inRange (isOpen line) (isClose line)
      stage := s.stage ++ "\n".toList ++ line }
    -- `next`: neither the closing tag is looked at nor the stage cleared
    if isDebug line then { s with debug := true }
    else if isClose line then
      let s := if s.debug then { s with debug := false }
        else { s with out := s.out ++ printLine s.stage }
      { s with stage := [] }
    else s
  else { s with out := s.out ++ printLine line }

def filterAwk (records : List Text) : Text := (records.foldl record begin).out

/-- From a line with `<recipeSet>` to the first line from there on with `</recipeSet>`;
`init` is empty when that is the same line. -/
structure Block where
  init : List Text
  last : Text
  opens : isOpen ((init ++ [last]).head (by simp)) = true
  init_open : ∀ line ∈ init, isClose line = false
  last_closes : isClose last = true

def Block.lines (b : Block) : List Text := b.init ++ [b.last]

def Block.debug (b : Block) : Bool := b.lines.any isDebug

def Block.text (b : Block) : Text := printLine [] ++ b.lines.flatMap printLine

inductive Item
  | outside (line : Text) (h : isOpen line = false)
  | block (b : Block)

def Item.lines : Item → List Text
  | .outside line _ => [line]
  | .block b => b.lines

def Item.kept : Item → Text
  | .outside line _ => printLine line
  | .block b => if b.debug then [] else b.text

def blocks (items : List Item) : List Block :=
  items.filterMap (fun i => match i with | .outside _ _ => none | .block b => some b)

def FilterLaw (items : List Item) : Prop :=
  filterAwk (items.flatMap Item.lines) = items.flatMap Item.kept

def staged (lines : List Text) : Text := lines.flatMap (fun line => "\n".toList ++ line)

theorem printLine_staged (lines : List Text) (h : lines ≠ []) :
    printLine (staged lines) = printLine [] ++ lines.flatMap printLine := by
  induction lines with
  | nil => exact absurd rfl h
  | cons line lines ih =>
    cases lines with
    | nil => simp [staged, printLine]
    | cons next lines =>
      have hrest := ih (by simp)
      simp only [staged, printLine, List.flatMap_cons, List.append_assoc, List.nil_append]
        at hrest ⊢
      rw [hrest]

/-- The state after a whole block: what decides is the flag before it, its lines, and
whether its closing line was taken by the debug branch. -/
theorem foldl_record_block (init : List Text) (last : Text) (s : State)
    (hopen : s.inRange = true ∨ isOpen ((init ++ [last]).head (by simp)) = true)
    (hinit : ∀ line ∈ init, isClose line = false) (hlast : isClose last = true) :
    (init ++ [last]).foldl record s =
      { debug := isDebug last
        stage := if isDebug last then s.stage ++ staged (init ++ [last]) else []
        inRange := false
        out := s.out ++ if s.debug || (init ++ [last]).any isDebug then []
          else printLine (s.stage ++ staged (init ++ [last])) } := by
  -- on the lines before the closing one; the stage and the flag build up in `s`
  induction init generalizing s with
  | nil =>
    have hfires : rangeFires s.inRange (isOpen last) = true := by
      simpa [rangeFires] using hopen
    obtain ⟨debug, stage, inRange, out⟩ := s
    cases hd : isDebug last <;> cases debug <;>
      simp [record, staged, rangeAfter, hfires, hlast, hd]
  | cons line init ih =>
    have hfires : rangeFires s.inRange (isOpen line) = true := by
      simpa [rangeFires] using hopen
    have hclose : isClose line = false := hinit line List.mem_cons_self
    have hstep : record s line = { s with
        inRange := true
        stage := s.stage ++ "\n".toList ++ line
        debug := s.debug || isDebug line } := by
      cases hd : isDebug line <;> simp [record, rangeAfter, hfires, hclose, hd]
    rw [List.cons_append, List.foldl_cons, hstep,
      ih _ (Or.inl rfl) (fun line' h' => hinit line' (List.mem_cons_of_mem _ h'))]
    simp [staged, Bool.or_assoc]

/-- What the script prints from the start of an item, given the flag it finds. -/
def printed : Bool → List Item → Text
  | _, [] => []
  | debug, .outside line _ :: items => printLine line ++ printed debug items
  | debug, .block b :: items =>
    (if debug || b.debug then [] else b.text) ++ printed (isDebug b.last) items

/-- Between items the range is closed, and text is staged only under a raised flag. -/
theorem foldl_record_items (items : List Item) (s : State) (hr : s.inRange = false)
    (hs : s.debug = false → s.stage = []) :
    ((items.flatMap Item.lines).foldl record s).out = s.out ++ printed s.debug items := by
  induction items generalizing s with
  | nil => simp [printed]
  | cons item items ih =>
    rw [List.flatMap_cons, List.foldl_append]
    cases item with
    | outside line h =>
      have hstep : record s line = { s with out := s.out ++ printLine line } := by
        simp [record, rangeFires, hr, h]
      simp only [Item.lines, List.foldl_cons, List.foldl_nil, hstep]
      rw [ih { s with out := s.out ++ printLine line } hr hs]
      simp only [printed, List.append_assoc]
    | block b =>
      have hblock := foldl_record_block b.init b.last s (Or.inr b.opens) b.init_open b.last_closes
      simp only [Item.lines, Block.lines]
      rw [hblock, ih _ rfl (by intro h; simp only at h; simp [h])]
      simp only [printed, Block.debug, Block.lines, List.append_assoc]
      congr 2
      -- text staged by the block before is printed only where that one was dropped
      cases hd : s.debug with
      | true => simp
      | false =>
        rw [hs hd, List.nil_append, printLine_staged _ (by simp)]
        rfl

theorem filterAwk_eq_printed (items : List Item) :
    filterAwk (items.flatMap Item.lines) = printed false items := by
  rw [filterAwk, foldl_record_items items begin rfl (fun _ => rfl)]
  rfl

theorem Block.text_ne_nil (b : Block) : b.text ≠ [] := by
  simp [Block.text, printLine]

/-- A raised flag only ever removes output. -/
theorem printed_length_le (items : List Item) (debug : Bool) :
    (printed debug items).length ≤ (items.flatMap Item.kept).length := by
  induction items generalizing debug with
  | nil => exact le_rfl
  | cons item items ih =>
    rw [List.flatMap_cons, List.length_append]
    cases item with
    | outside line h =>
      simp only [printed, Item.kept, List.length_append]
      exact Nat.add_le_add_left (ih debug) _
    | block b =>
      have hrest := ih (isDebug b.last)
      have hhead : (if (debug || b.debug) = true then [] else b.text).length ≤
          (if b.debug = true then [] else b.text).length := by
        cases debug <;> cases b.debug <;> simp
      simp only [printed, Item.kept, List.length_append]
      exact Nat.add_le_add hhead hrest

theorem printed_eq_kept_iff (items : List Item) (debug : Bool) :
    printed debug items = items.flatMap Item.kept ↔
      (∀ b ∈ (blocks items).head?, debug = true → b.debug = true) ∧
        (blocks items).IsChain (fun b c => isDebug b.last = true → c.debug = true) := by
  induction items generalizing debug with
  | nil => simp [printed, blocks]
  | cons item items ih =>
    rw [List.flatMap_cons]
    cases item with
    | outside line h =>
      have hblocks : blocks (.outside line h :: items) = blocks items := by simp [blocks]
      rw [hblocks, ← ih debug]
      simp only [printed, Item.kept]
      exact List.append_right_inj _
    | block b =>
      have hblocks : blocks (.block b :: items) = b :: blocks items := by simp [blocks]
      rw [hblocks, List.isChain_cons, ← ih (isDebug b.last)]
      simp only [printed, Item.kept, List.head?_cons, Option.mem_some_iff, forall_eq']
      by_cases hlost : debug = true ∧ b.debug = false
      · -- the flag swallows a block that should stay, which no later output makes up for
        refine iff_of_false (fun h => ?_) (fun h => by simp [h.1 hlost.1] at hlost)
        have hlen := congrArg List.length h
        have hle := printed_length_le items (isDebug b.last)
        have hpos := List.length_pos_of_ne_nil b.text_ne_nil
        simp only [hlost.1, hlost.2, Bool.true_or, if_true, List.nil_append, Bool.false_eq_true,
          if_false, List.length_append] at hlen
        omega
      · have hsame : (if (debug || b.debug) = true then [] else b.text) =
            if b.debug = true then [] else b.text := by
          cases debug <;> cases hb : b.debug <;> simp [hb] at hlost ⊢
        rw [hsame, List.append_right_inj]
        refine ⟨fun h => ⟨fun hd => ?_, h⟩, fun h => h.2⟩
        by_contra hb
        exact hlost ⟨hd, by simpa using hb⟩

/-- The filtering law holds exactly when no block that ends in a debug line is followed,
outside lines aside, by a block without one. -/
theorem filter_law_iff (items : List Item) :
    FilterLaw items ↔
      (blocks items).IsChain (fun b c => isDebug b.last = true → c.debug = true) := by
  rw [FilterLaw, filterAwk_eq_printed, printed_eq_kept_iff]
  simp

def lineBlock (line : Text) (ho : isOpen line = true) (hc : isClose line = true) : Block where
  init := []
  last := line
  opens := ho
  init_open := by simp
  last_closes := hc

/-- A one-line debug block swallows the block after it. -/
theorem filter_law_debug_on_close :
    ¬ FilterLaw
      [.block (lineBlock "<recipeSet>VARIANT=debug</recipeSet>".toList (by decide) (by decide)),
        .block (lineBlock "<recipeSet>a</recipeSet>".toList (by decide) (by decide))] := by
  rw [FilterLaw]
  decide

end YuToolbox.FilterAwk

import Mathlib.Data.List.DropRight
import YuToolbox.DictPath
import YuToolbox.PrintingPrograms

/-! `print_translations` of `dict.py`, which looks at the first of what it finds without asking
whether there is one. -/
namespace YuToolbox.Dict

open PrintingPrograms

inductive PyError where
  | indexError
  | reError

def green : Text := "\x1b[1;32m".toList

def defaultColor : Text := "\x1b[0;49m".toList

def bold : Text := "\x1b[1m".toList

def underline : Text := "\x1b[4m".toList

def normal : Text := "\x1b[m".toList

def red : Text := "\x1b[1;31m".toList

/-- A negative index counts from the end. -/
def position (l : List Text) (i : ℤ) : ℤ := if i < 0 then i + l.length else i

/-- `l[i]`. -/
def pyIndex (l : List Text) (i : ℤ) : Prog PyError Text Text :=
  if 0 ≤ position l i ∧ position l i < l.length then pure (l.getD (position l i).toNat [])
  else throw .indexError

def isSpace (c : Char) : Bool := c ∈ [' ', '\t', '\n', '\r', '\x0b', '\x0c']

def strip (s : Text) : Text := (s.dropWhile isSpace).rdropWhile isSpace

/-- `get_elements_by_path` for a string and a path with slashes. -/
def pathIn (xml path : Text) : Except PyError (List Text) :=
  getElementsByPath compilePlain (.str xml) (.str path)

/-- The body of the loop over the custom translations. -/
def printCustom (withColor : Bool) (cus : Text) : Prog PyError Text Unit := do
  let source ← MonadExcept.ofExcept (pathIn cus "source/name".toList)
  print (red ++ "Translations from ".toList ++ (← pyIndex source 0) ++ defaultColor)
  let contents ← MonadExcept.ofExcept (pathIn cus "translation/content".toList)
  if withColor then
    (contents.take 5).foldlM (fun _ content => print (green ++ getText content ++ defaultColor)) ()
  else (contents.take 5).foldlM (fun _ content => print (getText content)) ()

/-- The body of the loop over the web translations; the heading comes before the first one. -/
def printWeb (withColor printed : Bool) (web : Text) : Prog PyError Text Bool := do
  if !printed then print (red ++ "Translations from yodao:".toList ++ defaultColor)
  let keys := getElements web "key".toList
  let values ← MonadExcept.ofExcept (pathIn web "trans/value".toList)
  let _summaries ← MonadExcept.ofExcept (pathIn web "trans/summary".toList)
  let key := strip (← pyIndex keys 0)
  let value := strip (← pyIndex values 0)
  if withColor then
    print (bold ++ getText key ++ ":\t".toList ++ defaultColor ++ green ++ getText value ++ normal)
  else print (getText value)
  return true

def printYodao (withColor printed : Bool) (trans : Text) : Prog PyError Text Bool := do
  let webtrans := getElements trans "web-translation".toList
  (webtrans.take 5).foldlM (printWeb withColor) printed

/-- Nothing looks at `detailed`. -/
def printTranslations (xml : Text) (withColor _detailed : Bool) : Prog PyError Text Unit := do
  let originalQuery := getElements xml "original-query".toList
  let queryword := getText (← pyIndex originalQuery (0-1))
  let customTranslations := getElements xml "custom-translation".toList
  let phoneticSymbol := getElements xml "phonetic-symbol".toList
  let phonetic := getText (← pyIndex phoneticSymbol 0)
  print (bold ++ underline ++ queryword ++ normal)
  customTranslations.foldlM (fun _ cus => printCustom withColor cus) ()
  let yodaoTranslations := getElements xml "yodao-web-dict".toList
  let _printed ← yodaoTranslations.foldlM (printYodao withColor) false
  print (red ++ "[Speak]".toList ++ normal)
  print (bold ++ green ++ phonetic ++ normal)

def NoKeyOrValue (web : Text) : Prop :=
  getElements web "key".toList = [] ∨ pathIn web "trans/value".toList = .ok []

/-- Something that is looked at first is not there. -/
def Lacks (xml : Text) : Prop :=
  getElements xml "original-query".toList = [] ∨ getElements xml "phonetic-symbol".toList = [] ∨
    (∃ cus ∈ getElements xml "custom-translation".toList,
      pathIn cus "source/name".toList = .ok []) ∨
    ∃ trans ∈ getElements xml "yodao-web-dict".toList,
      ∃ web ∈ (getElements trans "web-translation".toList).take 5, NoKeyOrValue web

section Raises

theorem raisesIff_pyIndex (l : List Text) (i : ℤ) :
    RaisesIff .indexError (¬ (0 ≤ position l i ∧ position l i < l.length)) (pyIndex l i) := by
  unfold pyIndex
  split
  · rename_i h
    exact (RaisesIff.of_pure _ _).congr (iff_of_false id (not_not_intro h))
  · rename_i h
    exact (RaisesIff.of_throw _).congr (iff_of_true trivial h)

theorem raisesIff_first (l : List Text) : RaisesIff .indexError (l = []) (pyIndex l 0) := by
  apply (raisesIff_pyIndex l 0).congr
  rw [← List.length_eq_zero_iff, position, if_neg (by omega)]
  omega

theorem raisesIff_last (l : List Text) : RaisesIff .indexError (l = []) (pyIndex l (0-1)) := by
  apply (raisesIff_pyIndex l (0-1)).congr
  rw [← List.length_eq_zero_iff, position, if_pos (by omega)]
  omega

theorem exists_byPath (xs p : List Text) :
    ∃ l, (byPath compilePlain xs p : Except PyError (List Text)) = .ok l := by
  induction p generalizing xs with
  | nil => exact ⟨xs, byPath_self _ xs⟩
  | cons name p ih =>
    rw [byPath_cons, level_ok rfl]
    exact ih _

/-- No path is one that raises something. -/
theorem exists_pathIn (xml path : Text) : ∃ l, pathIn xml path = .ok l := exists_byPath _ _

theorem pathIn_bind {α : Type} {xml path : Text} {l : List Text} (h : pathIn xml path = .ok l)
    (f : List Text → Prog PyError Text α) :
    (MonadExcept.ofExcept (pathIn xml path) >>= f) = f l := by
  rw [h]
  exact pure_bind l f

theorem raisesIff_printAll (contents : List Text) (shown : Text → Text) :
    RaisesIff .indexError False
      (contents.foldlM (fun _ content => print (shown content)) () : Prog PyError Text Unit) := by
  have hround : ∀ (b : Unit) (content : Text),
      RaisesIff PyError.indexError False (print (shown content)) :=
    fun _ content => RaisesIff.of_print _ _
  apply (RaisesIff.foldlM hround contents ()).congr
  simp

theorem raisesIff_printCustom (withColor : Bool) (cus : Text) :
    RaisesIff .indexError (pathIn cus "source/name".toList = .ok [])
      (printCustom withColor cus) := by
  obtain ⟨source, hsource⟩ := exists_pathIn cus "source/name".toList
  obtain ⟨contents, hcontents⟩ := exists_pathIn cus "translation/content".toList
  have hiff : source = [] ↔ pathIn cus "source/name".toList = .ok [] := by
    rw [hsource, Except.ok.injEq]
  unfold printCustom
  rw [pathIn_bind hsource]
  apply ((raisesIff_first source).bind_never ?_).congr hiff
  intro first
  apply RaisesIff.print_bind
  rw [pathIn_bind hcontents]
  cases withColor
  · exact raisesIff_printAll _ _
  · exact raisesIff_printAll _ _

theorem raisesIff_printWeb (withColor printed : Bool) (web : Text) :
    RaisesIff .indexError (NoKeyOrValue web) (printWeb withColor printed web) := by
  obtain ⟨values, hvalues⟩ := exists_pathIn web "trans/value".toList
  obtain ⟨summaries, hsummaries⟩ := exists_pathIn web "trans/summary".toList
  have hiff : getElements web "key".toList = [] ∨ values = [] ↔ NoKeyOrValue web := by
    rw [NoKeyOrValue, hvalues, Except.ok.injEq]
  -- what comes behind the heading is the same with a heading and without
  have hlast : RaisesIff .indexError (getElements web "key".toList = [] ∨ values = []) (do
      let key := strip (← pyIndex (getElements web "key".toList) 0)
      let value := strip (← pyIndex values 0)
      if withColor then
        print (bold ++ getText key ++ ":\t".toList ++ defaultColor ++ green ++ getText value ++
          normal)
      else print (getText value)
      return true) := by
    apply (raisesIff_first _).bind
    intro key
    apply (raisesIff_first values).bind_never
    intro value
    cases withColor
    · exact RaisesIff.print_bind (RaisesIff.of_pure _ _)
    · exact RaisesIff.print_bind (RaisesIff.of_pure _ _)
  unfold printWeb
  simp only [pathIn_bind hvalues, pathIn_bind hsummaries]
  cases printed
  · exact (RaisesIff.print_bind hlast).congr hiff
  · exact hlast.congr hiff

theorem raisesIff_printYodao (withColor printed : Bool) (trans : Text) :
    RaisesIff .indexError
      (∃ web ∈ (getElements trans "web-translation".toList).take 5, NoKeyOrValue web)
      (printYodao withColor printed trans) :=
  RaisesIff.foldlM (raisesIff_printWeb withColor) _ _

theorem raisesIff_printTranslations (xml : Text) (withColor detailed : Bool) :
    RaisesIff .indexError (Lacks xml) (printTranslations xml withColor detailed) := by
  unfold printTranslations Lacks
  apply (raisesIff_last _).bind
  intro query
  apply (raisesIff_first _).bind
  intro phonetic
  apply RaisesIff.print_bind
  apply (RaisesIff.foldlM (fun _ cus => raisesIff_printCustom withColor cus) _ _).bind
  intro _
  apply (RaisesIff.foldlM (raisesIff_printYodao withColor) _ _).bind_never
  intro _
  apply RaisesIff.print_bind
  exact RaisesIff.of_print _ _

end Raises

/-- `print_translations` raises IndexError exactly for the responses that lack something, with
colors and without, and comes to its end on all others. -/
theorem printTranslations_raises_iff (xml : Text) (withColor detailed : Bool) (out : List Text) :
    ((exec (printTranslations xml withColor detailed) out).1 = .error .indexError ↔ Lacks xml) ∧
      ((exec (printTranslations xml withColor detailed) out).1 = .ok () ↔ ¬ Lacks xml) := by
  obtain ⟨hraise, hend⟩ := raisesIff_printTranslations xml withColor detailed out
  by_cases hlacks : Lacks xml
  · have herror := hraise hlacks
    refine ⟨iff_of_true herror hlacks, iff_of_false ?_ (not_not_intro hlacks)⟩
    rw [herror]
    exact nofun
  · obtain ⟨_, hok⟩ := hend hlacks
    refine ⟨iff_of_false ?_ hlacks, iff_of_true hok hlacks⟩
    rw [hok]
    exact nofun

end YuToolbox.Dict

import YuToolbox.Dict

/-! `get_elements_by_path` of `dict.py`: the contents that elements have inside elements, for any
names, also such that mean something in a regular expression or are none. -/
namespace YuToolbox.Dict

/-- An argument that is a string or a list of strings. -/
inductive StrOrList where
  | str (s : Text)
  | list (l : List Text)

section Path

variable {ε : Type} (compile : Text → Except ε (Text → List Text))

/-- `re.compile` with `re.DOTALL` is a parameter: it raises `re.error`, or says what group 1 is in
each match that `finditer` finds in a text. -/
def getElementsOf (xml elem : Text) : Except ε (List Text) := do
  let p ← compile ("<".toList ++ elem ++ ">".toList ++ "(.*?)</".toList ++ elem ++ ">".toList)
  return p xml

/-- `for item in xml: result += get_elements(item, name)`. -/
def level (xml : List Text) (name : Text) : Except ε (List Text) :=
  xml.foldlM (fun result item => return result ++ (← getElementsOf compile item name)) []

/-- The function behind its two tests for strings. -/
def byPath (xml elem : List Text) : Except ε (List Text) :=
  if xml.length = 0 then return []
  else
    match elem with
    | [] => return xml
    | [name] => level compile xml name
    | name :: next :: names => do
      let subitems ← level compile xml name
      byPath subitems (next :: names)

def getElementsByPath (xml elem : StrOrList) : Except ε (List Text) :=
  let xml := match xml with
    | .str s => [s]
    | .list l => l
  let elem := match elem with
    | .str s => s.splitOn '/'
    | .list l => l
  byPath compile xml elem

section Level

variable {compile} {name : Text} {p : Text → List Text} {err : ε}

/-- The pattern of a name. -/
def pattern (name : Text) : Text :=
  "<".toList ++ name ++ ">".toList ++ "(.*?)</".toList ++ name ++ ">".toList

theorem level_ok (h : compile (pattern name) = .ok p) (xml : List Text) :
    level compile xml name = .ok (xml.flatMap p) := by
  -- in the middle of the loop there is a result already
  have hfold : ∀ result, xml.foldlM
      (fun result item => return result ++ (← getElementsOf compile item name)) result =
        (.ok (result ++ xml.flatMap p) : Except ε (List Text)) := by
    induction xml with
    | nil =>
      intro result
      rw [List.flatMap_nil, List.append_nil]
      rfl
    | cons item xml ih =>
      intro result
      have hitem : getElementsOf compile item name = .ok (p item) := by
        rw [getElementsOf, ← pattern, h]
        rfl
      rw [List.foldlM_cons, hitem, List.flatMap_cons, ← List.append_assoc]
      exact ih (result ++ p item)
  exact hfold []

/-- A name that is no regular expression is noticed at the first item. -/
theorem level_error (h : compile (pattern name) = .error err) {xml : List Text} (hne : xml ≠ []) :
    level compile xml name = .error err := by
  obtain ⟨item, xml, rfl⟩ := List.exists_cons_of_ne_nil hne
  have hitem : getElementsOf compile item name = .error err := by
    rw [getElementsOf, ← pattern, h]
    rfl
  rw [level, List.foldlM_cons, hitem]
  rfl

end Level

theorem byPath_nil (elem : List Text) : byPath compile [] elem = .ok [] := by
  unfold byPath
  rfl

theorem byPath_self (xml : List Text) : byPath compile xml [] = .ok xml := by
  unfold byPath
  cases xml <;> rfl

/-- All the exits come to one level after the other. -/
theorem byPath_cons (xml : List Text) (name : Text) (names : List Text) :
    byPath compile xml (name :: names) =
      level compile xml name >>= fun subitems => byPath compile subitems names := by
  cases xml with
  | nil =>
    -- the exit for no fragments gives what the levels would come to
    rw [byPath_nil]
    exact (byPath_nil compile names).symm
  | cons item xml =>
    cases names with
    | nil =>
      simp only [byPath_self]
      exact (bind_pure _).symm
    | cons next names => rfl

/-- A path is walked in one go or in two. -/
theorem byPath_append (xs p q : List Text) :
    byPath compile xs (p ++ q) = byPath compile xs p >>= fun ys => byPath compile ys q := by
  induction p generalizing xs with
  | nil =>
    rw [byPath_self]
    rfl
  | cons name p ih =>
    rw [List.cons_append, byPath_cons, byPath_cons, bind_assoc]
    exact congrArg _ (funext ih)

/-- The fragments do not see each other. -/
theorem byPath_append_left (xs ys p : List Text) :
    byPath compile (xs ++ ys) p =
      byPath compile xs p >>= fun a => byPath compile ys p >>= fun b => .ok (a ++ b) := by
  induction p generalizing xs ys with
  | nil =>
    simp only [byPath_self]
    rfl
  | cons name p ih =>
    simp only [byPath_cons]
    cases hname : compile (pattern name) with
    | ok f =>
      rw [level_ok hname, level_ok hname, level_ok hname, List.flatMap_append]
      exact ih (xs.flatMap f) (ys.flatMap f)
    | error err =>
      -- the first fragment that there is raises it
      by_cases hxs : xs = []
      · subst hxs
        rw [List.nil_append, show level compile [] name = .ok [] from rfl]
        show _ = byPath compile [] p >>= _
        rw [byPath_nil]
        cases level compile ys name >>= fun subitems => byPath compile subitems p <;> rfl
      · rw [level_error hname hxs, level_error hname (by simp [hxs])]
        rfl

/-- The path lookup goes level by level and fragment by fragment, in the order of both; a path
with slashes is the list of its names. -/
theorem path_compositional (xs ys p q : List Text) :
    (getElementsByPath compile (.list xs) (.list (p ++ q)) =
        getElementsByPath compile (.list xs) (.list p) >>= fun zs =>
          getElementsByPath compile (.list zs) (.list q)) ∧
      (getElementsByPath compile (.list (xs ++ ys)) (.list p) =
        getElementsByPath compile (.list xs) (.list p) >>= fun a =>
          getElementsByPath compile (.list ys) (.list p) >>= fun b => .ok (a ++ b)) ∧
      ∀ x, p ≠ [] → (∀ name ∈ p, '/' ∉ name) →
        getElementsByPath compile (.str x) (.str (List.intercalate "/".toList p)) =
          getElementsByPath compile (.list [x]) (.list p) := by
  refine ⟨byPath_append compile xs p q, byPath_append_left compile xs ys p, ?_⟩
  intro x hp hslash
  exact congrArg (byPath compile [x]) (List.splitOn_intercalate '/' hslash hp)

end Path

/-- Of a pattern, the lazy group, and letters that stand for themselves. -/
def readPattern : Text → LazyRegex.Pattern Char
  | '(' :: '.' :: '*' :: '?' :: ')' :: rest => .lazyGroup :: readPattern rest
  | c :: rest => .char c :: readPattern rest
  | [] => []

/-- `re.compile` of the pattern of a name without characters that mean something. -/
def compilePlain {ε : Type} (text : Text) : Except ε (Text → List Text) :=
  .ok (fun xml => (LazyRegex.finditer (readPattern text) xml).map (fun groups => groups.headD []))

end YuToolbox.Dict

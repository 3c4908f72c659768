import YuToolbox.DictAnswer
import YuToolbox.PercentCoding

/-! `dict.py` from its arguments to what it prints: the words become a URL, and the service on the
other side, which reads the query of it, is asked for just these words. -/
namespace YuToolbox.Dict

open PercentCoding PrintingPrograms

def alwaysSafe : Text :=
  "ABCDEFGHIJKLMNOPQRSTUVWXYZabcdefghijklmnopqrstuvwxyz0123456789_.-".toList

def quoter (safe : Text) (b : UInt8) : Text :=
  if char b ∈ alwaysSafe ++ safe then [char b] else percent b

/-- `urllib.quote`. -/
def quote (s : Bytes) (safe : Text) : Text := s.flatMap (quoter safe)

/-- `urllib.quote_plus`. -/
def quotePlus (s : Bytes) : Text :=
  if byte ' ' ∈ s then (quote s [' ']).map (fun c => if c = ' ' then '+' else c)
  else quote s []

/-- The URL that `crawl_xml` opens. -/
def crawlUrl (queryword : Bytes) : Text :=
  "http://dict.yodao.com/search?keyfrom=dict.python&q=".toList ++ quotePlus queryword ++
    "&xmlDetail=true&doctype=xml".toList

inductive Stop where
  | exit (status : ℤ)
  | urlError
  | raised (e : PyError)

/-- `urlopen` gives a page or raises. -/
def crawlXml (urlopen : Text → Option Text) (queryword : Bytes) : Prog Stop Text Text :=
  match urlopen (crawlUrl queryword) with
  | some xml => pure xml
  | none => throw .urlError

def usageText : Text := "usage: dict.py word_to_translate".toList

def usage : Prog Stop Text Unit := print usageText

/-- `" ".join(argv)`. -/
def joined (argv : List Bytes) : Bytes := List.intercalate [byte ' '] argv

def main (urlopen : Text → Option Text) (argv : List Bytes) : Prog Stop Text Unit := do
  if argv.length ≤ 0 then
    usage
    throw (.exit 1)
  let xml ← crawlXml urlopen (joined argv)
  rename .raised (printTranslations xml true false)

/-- Of a URL, what stands between the question mark and a fragment. -/
def queryOf (url : Text) : Text := ((url.dropWhile (· ≠ '?')).drop 1).takeWhile (· ≠ '#')

/-- What the service is asked. -/
def fields (queryword : Bytes) : List (Bytes × Bytes) :=
  [(bytes "keyfrom".toList, bytes "dict.python".toList), (bytes "q".toList, queryword),
    (bytes "xmlDetail".toList, bytes "true".toList), (bytes "doctype".toList, bytes "xml".toList)]

/-- A service that reads the query of the URL and has a document for some of them, with texts that
can be read. -/
structure Service where
  answer : List (Bytes × Bytes) → Option Doc
  readable : ∀ query d, answer query = some d → d.Readable

def Service.urlopen (service : Service) (url : Text) : Option Text :=
  (service.answer (parse (queryOf url))).map Doc.serialise

section Quote

def plusCode (b : UInt8) : Text := if b = byte ' ' then ['+'] else quoter [] b

theorem hexDigit_mem {n : ℕ} (h : n < 16) : hexDigit n ∈ alwaysSafe := by
  interval_cases n <;> decide

/-- Whatever the byte is, only safe characters stand for it. -/
theorem mem_plusCode {b : UInt8} {c : Char} (h : c ∈ plusCode b) :
    c ∈ alwaysSafe ++ ['+', '%'] := by
  have hlt := b.toNat_lt
  rw [plusCode] at h
  split at h
  · rw [List.mem_singleton.mp h]
    decide
  · rw [quoter, List.append_nil] at h
    split at h
    · rename_i hsafe
      rw [List.mem_singleton.mp h]
      exact List.mem_append_left _ hsafe
    · rw [percent, List.mem_cons, List.mem_cons, List.mem_singleton] at h
      rcases h with rfl | rfl | rfl
      · decide
      · exact List.mem_append_left _ (hexDigit_mem (by omega))
      · exact List.mem_append_left _ (hexDigit_mem (by omega))

theorem space_not_mem_percent (b : UInt8) : ' ' ∉ percent b := by
  have hlt := b.toNat_lt
  have hdigit {n : ℕ} (h : n < 16) : ' ' ≠ hexDigit n := by
    intro hspace
    have hmem := hexDigit_mem h
    rw [← hspace] at hmem
    exact absurd hmem (by decide)
  rw [percent, List.mem_cons, List.mem_cons, List.mem_singleton]
  rintro (h | h | h)
  · exact absurd h (by decide)
  · exact hdigit (by omega) h
  · exact hdigit (by omega) h

theorem char_eq_iff {b : UInt8} {c : Char} (hc : char (byte c) = c) : char b = c ↔ b = byte c := by
  constructor
  · rintro rfl
    exact (byte_char b).symm
  · rintro rfl
    exact hc

/-- With spaces and without, byte by byte. -/
theorem quotePlus_eq (s : Bytes) : quotePlus s = s.flatMap plusCode := by
  have hchar (b : UInt8) : char b = ' ' ↔ b = byte ' ' := char_eq_iff rfl
  unfold quotePlus quote
  split
  · rw [List.map_flatMap]
    apply List.flatMap_congr
    intro b _
    by_cases hb : b = byte ' '
    · subst hb
      rfl
    · have hne : char b ≠ ' ' := fun h => hb ((hchar b).mp h)
      -- no letter is a space, so the replacement changes nothing
      have hkeep : ' ' ∉ quoter [' '] b := by
        rw [quoter]
        split
        · intro h
          exact hne (List.mem_singleton.mp h).symm
        · exact space_not_mem_percent b
      have hid : (quoter [' '] b).map (fun c => if c = ' ' then '+' else c) = quoter [' '] b := by
        nth_rewrite 2 [← List.map_id (quoter [' '] b)]
        apply List.map_congr_left
        intro c hc
        have hc' : c ≠ ' ' := ne_of_mem_of_not_mem hc hkeep
        exact if_neg hc'
      have hsame : quoter [' '] b = quoter [] b := by
        simp only [quoter, List.mem_append, List.mem_singleton, hne, or_false, List.not_mem_nil]
      rw [hid, hsame, plusCode, if_neg hb]
  · rename_i hspace
    apply List.flatMap_congr
    intro b hb
    have hne : b ≠ byte ' ' := fun h => hspace (h ▸ hb)
    rw [plusCode, if_neg hne]

theorem decode_plusCode (b : UInt8) (s : Text) : decode (plusCode b ++ s) = b :: decode s := by
  rw [plusCode]
  split
  · rename_i hb
    subst hb
    rfl
  · rw [quoter, List.append_nil]
    split
    · rename_i hsafe
      have hplus : char b ≠ '+' := fun h => absurd (h ▸ hsafe) (by decide)
      have hpercent : char b ≠ '%' := fun h => absurd (h ▸ hsafe) (by decide)
      rw [List.singleton_append, decode_cons hplus hpercent, byte_char]
    · exact decode_percent b s

theorem safe_separates : ∀ c ∈ alwaysSafe ++ ['+', '%'], isSeparator c = false ∧ c ≠ '=' := by
  have hall : (alwaysSafe ++ ['+', '%']).all
      (fun c => decide (isSeparator c = false ∧ c ≠ '=')) = true := by decide
  intro c hc
  exact of_decide_eq_true (List.all_eq_true.mp hall c hc)

/-- The coding of `quote_plus`. -/
def plusCoding : Coding where
  code := plusCode
  decode_code := decode_plusCode
  free _ _ h := safe_separates _ (mem_plusCode h)

theorem quotePlus_encode (s : Bytes) : quotePlus s = plusCoding.encode s := quotePlus_eq s

theorem mem_quotePlus {s : Bytes} {c : Char} (h : c ∈ quotePlus s) :
    c ∈ alwaysSafe ++ ['+', '%'] := by
  rw [quotePlus_eq] at h
  obtain ⟨b, -, hc⟩ := List.mem_flatMap.mp h
  exact mem_plusCode hc

theorem form_fields (queryword : Bytes) :
    plusCoding.form (fields queryword) =
      "keyfrom=dict.python&q=".toList ++ quotePlus queryword ++
        "&xmlDetail=true&doctype=xml".toList := by
  have hkeyfrom : plusCoding.formField (bytes "keyfrom".toList, bytes "dict.python".toList) =
    "keyfrom=dict.python".toList := by decide
  have hdetail : plusCoding.formField (bytes "xmlDetail".toList, bytes "true".toList) =
    "xmlDetail=true".toList := by decide
  have hdoctype : plusCoding.formField (bytes "doctype".toList, bytes "xml".toList) =
    "doctype=xml".toList := by decide
  have hq : plusCoding.formField (bytes "q".toList, queryword) =
      "q=".toList ++ quotePlus queryword := by
    rw [quotePlus_encode]
    rfl
  rw [Coding.form, fields, List.map_cons, List.map_cons, List.map_cons, List.map_singleton,
    hkeyfrom, hq, hdetail, hdoctype]
  simp [List.intercalate]

theorem crawlUrl_eq (queryword : Bytes) :
    crawlUrl queryword =
      "http://dict.yodao.com/search".toList ++ '?' :: plusCoding.form (fields queryword) := by
  have hsplit : "http://dict.yodao.com/search?keyfrom=dict.python&q=".toList =
      "http://dict.yodao.com/search".toList ++ '?' :: "keyfrom=dict.python&q=".toList := by decide
  calc crawlUrl queryword
      = ("http://dict.yodao.com/search".toList ++ '?' :: "keyfrom=dict.python&q=".toList) ++
          quotePlus queryword ++ "&xmlDetail=true&doctype=xml".toList :=
        congrArg (fun t => t ++ quotePlus queryword ++ "&xmlDetail=true&doctype=xml".toList) hsplit
    _ = "http://dict.yodao.com/search".toList ++ '?' :: plusCoding.form (fields queryword) := by
      rw [form_fields]
      simp only [List.append_assoc, List.cons_append]

/-- The characters of the URL, with those that its own parts have. -/
def urlChars : Text := alwaysSafe ++ "+%:/?=&".toList

theorem mem_urlChars {s : Text} (h : s.all (fun c => decide (c ∈ urlChars)) = true) {c : Char}
    (hc : c ∈ s) : c ∈ urlChars :=
  of_decide_eq_true (List.all_eq_true.mp h c hc)

theorem mem_form_fields {queryword : Bytes} {c : Char}
    (h : c ∈ plusCoding.form (fields queryword)) : c ∈ urlChars := by
  rw [form_fields, List.mem_append, List.mem_append] at h
  rcases h with (h | h) | h
  · exact mem_urlChars (by decide) h
  · rcases List.mem_append.mp (mem_quotePlus h) with h | h
    · exact List.mem_append_left _ h
    · exact mem_urlChars (by decide) h
  · exact mem_urlChars (by decide) h

/-- The query of the URL is the form of what the service is asked. -/
theorem queryOf_crawlUrl (queryword : Bytes) :
    queryOf (crawlUrl queryword) = plusCoding.form (fields queryword) := by
  have hbefore : ∀ c ∈ "http://dict.yodao.com/search".toList, decide (c ≠ '?') = true := by
    intro c hc
    have hquestion : '?' ∉ "http://dict.yodao.com/search".toList := by decide
    exact decide_eq_true (ne_of_mem_of_not_mem hc hquestion)
  have hnone : ∀ c ∈ plusCoding.form (fields queryword), decide (c ≠ '#') = true := by
    intro c hc
    have hfragment : '#' ∉ urlChars := by decide
    exact decide_eq_true (ne_of_mem_of_not_mem (mem_form_fields hc) hfragment)
  have hstop : ¬ decide ('?' ≠ '?') = true := by decide
  rw [queryOf, crawlUrl_eq, List.dropWhile_append_of_pos hbefore, List.dropWhile_cons,
    if_neg hstop, List.drop_one, List.tail_cons, List.takeWhile_eq_self_iff.mpr hnone]

theorem parse_queryOf (queryword : Bytes) :
    parse (queryOf (crawlUrl queryword)) = fields queryword := by
  rw [queryOf_crawlUrl]
  exact plusCoding.parse_form (List.cons_ne_nil _ _)

end Quote

/-- Whatever bytes the words are made of, the service reads them back from the URL next to the
three fields that never change, and different words ask for different URLs. Nothing in the URL
could end the line that asks for it. -/
theorem crawl_query : Function.Injective crawlUrl ∧ ∀ queryword,
    parse (queryOf (crawlUrl queryword)) = fields queryword ∧
      ∀ c ∈ crawlUrl queryword, c ∈ urlChars := by
  refine ⟨fun s t h => ?_, fun queryword => ⟨parse_queryOf queryword, fun c hc => ?_⟩⟩
  · have hfields : fields s = fields t := by
      rw [← parse_queryOf s, h, parse_queryOf]
    simp only [fields, List.cons.injEq, Prod.mk.injEq] at hfields
    exact hfields.2.1.2
  · rw [crawlUrl_eq, List.mem_append, List.mem_cons] at hc
    rcases hc with hc | rfl | hc
    · exact mem_urlChars (by decide) hc
    · decide
    · exact mem_form_fields hc

end YuToolbox.Dict

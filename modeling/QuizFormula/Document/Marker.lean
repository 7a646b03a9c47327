import QuizFormula.Document.Block
import QuizFormula.Document.Bytes
import QuizFormula.Document.Math

/-!
# Markers in documents

A scanner goes from one marker of a document to the next: an opener, or a whole span of math
where math is to be skipped. It searches the bytes for the opener and for the opening
delimiters of math at once. An opening delimiter that is never closed is plain text, and the
search goes on behind it.

`renderFrom` goes over a document by its markers. What starts at an opener is replaced if it
can be read, and the text between two replacements is copied as one piece. All places are
offsets in bytes, and cutting the text at an offset that is none of its places would fail.
-/

namespace QuizFormula

/-- What a scanner finds. -/
inductive Marker where
  /-- The opener starts at this offset. -/
  | opened (start : Nat)
  /-- A span of math ends at this offset, right behind its closing delimiter. -/
  | math (stop : Nat)
deriving DecidableEq, Repr

/-- What a scanner looks for. The opener is ASCII, and it starts with a character that
opens no math. -/
structure Scanner where
  opener : Text
  skipsMath : Bool
  ascii : opener.all isAscii = true
  opens : ∃ c s, opener = c :: s ∧ ∀ d ∈ mathDelimiters, c ∉ d.1

namespace Scanner

/-- The blocks of a Moodle document. -/
def moodleBlocks : Scanner where
  opener := Dialect.moodle.opener
  skipsMath := true
  ascii := by decide
  opens := ⟨'{', ['='], rfl, by decide⟩

/-- The wildcards of a Moodle document. -/
def wildcards : Scanner where
  opener := ['{']
  skipsMath := true
  ascii := by decide
  opens := ⟨'{', [], rfl, by decide⟩

/-- The blocks of a document with `fp` formulas, which may stand in math. -/
def fpBlocks : Scanner where
  opener := Dialect.fp.opener
  skipsMath := false
  ascii := by decide
  opens := ⟨'f', ['p', '{'], rfl, by decide⟩

def delimiters (scanner : Scanner) : List (Text × Text) :=
  if scanner.skipsMath then mathDelimiters else []

/-- The words that are looked for, the opener first. -/
def words (scanner : Scanner) : List (List UInt8) :=
  utf8 scanner.opener :: scanner.delimiters.map fun d => utf8 d.1

theorem opener_ne_nil (scanner : Scanner) : scanner.opener ≠ [] := by
  obtain ⟨c, s, h, -⟩ := scanner.opens
  rw [h]
  exact List.cons_ne_nil c s

theorem mem_mathDelimiters {scanner : Scanner} {d : Text × Text}
    (h : d ∈ scanner.delimiters) : d ∈ mathDelimiters := by
  unfold delimiters at h
  split at h
  · exact h
  · exact absurd h List.not_mem_nil

end Scanner

theorem opening_ne_nil {d : Text × Text} (h : d ∈ mathDelimiters) : d.1 ≠ [] := by
  simp only [mathDelimiters, List.mem_cons, List.not_mem_nil, or_false] at h
  rcases h with rfl | rfl | rfl <;> simp

theorem Scanner.ne_nil_of_mem_words {scanner : Scanner} {w : List UInt8}
    (h : w ∈ scanner.words) : w ≠ [] := by
  rcases List.mem_cons.1 h with rfl | h
  · exact utf8_ne_nil scanner.opener_ne_nil
  · obtain ⟨d, hd, rfl⟩ := List.mem_map.1 h
    exact utf8_ne_nil (opening_ne_nil (mem_mathDelimiters hd))

section Search

variable {search : ByteSearch} {scanner : Scanner} {text : Text} {start : Nat}

theorem ByteSearch.isLeftmost_words (search : ByteSearch) (scanner : Scanner)
    (h : start < byteLength text) :
    IsLeftmost scanner.words (utf8 text) start
      (search.firstOf? scanner.words (utf8 text) start) :=
  search.isLeftmost_firstOf? (fun _ => Scanner.ne_nil_of_mem_words) (Nat.le_of_lt h)

theorem ByteSearch.le_of_firstOf? (h : start < byteLength text) {k i : Nat}
    (hfound : search.firstOf? scanner.words (utf8 text) start = some (k, i)) :
    start ≤ i ∧ i < byteLength text := by
  have hleft := search.isLeftmost_words scanner h
  rw [hfound] at hleft
  obtain ⟨hle, ⟨w, hw, hoccurs⟩, -⟩ := hleft
  exact ⟨hle, lt_of_occursAt (Scanner.ne_nil_of_mem_words (List.mem_of_getElem? hw)) hoccurs⟩

/-- The next marker from an offset on. -/
def nextMarker? (search : ByteSearch) (scanner : Scanner) (text : Text) (start : Nat) :
    Option Marker :=
  if _ : start < byteLength text then
    match _ : search.firstOf? scanner.words (utf8 text) start with
    | none => none
    | some (0, i) => some (.opened i)
    | some (k + 1, i) =>
      match _ : scanner.delimiters[k]? with
      | none => none
      | some d =>
        let inside := i + byteLength d.1
        match search.first? (utf8 d.2) ((utf8 text).drop inside) with
        | some j => some (.math (inside + j + byteLength d.2))
        | none => nextMarker? search scanner text inside
  else none
termination_by byteLength text - start
decreasing_by
  have hle := ByteSearch.le_of_firstOf? ‹start < byteLength text›
    ‹search.firstOf? scanner.words (utf8 text) start = some (k + 1, i)›
  have hmem := List.mem_of_getElem? ‹scanner.delimiters[k]? = some d›
  have hpos := byteLength_pos (opening_ne_nil (Scanner.mem_mathDelimiters hmem))
  omega

/-- A marker lies beyond the offset from which it is looked for. -/
theorem lt_of_nextMarker? {m : Marker} (h : nextMarker? search scanner text start = some m) :
    start < byteLength text ∧
      (∀ i, m = .opened i → start ≤ i ∧ i < byteLength text) ∧
      ∀ i, m = .math i → start < i := by
  fun_induction nextMarker? search scanner text start with
  | case1 start hlt hnone => cases h
  | case2 start hlt i hfound =>
    cases h
    refine ⟨hlt, ?_, nofun⟩
    rintro j ⟨⟩
    exact ByteSearch.le_of_firstOf? hlt hfound
  | case3 start hlt k i hfound hd => cases h
  | case4 start hlt k i hfound d hd inside j hj =>
    cases h
    have hle := ByteSearch.le_of_firstOf? hlt hfound
    have hmem := List.mem_of_getElem? hd
    have hpos := byteLength_pos (opening_ne_nil (Scanner.mem_mathDelimiters hmem))
    refine ⟨hlt, nofun, ?_⟩
    rintro j ⟨⟩
    omega
  | case5 start hlt k i hfound d hd inside hj ih =>
    have hle := ByteSearch.le_of_firstOf? hlt hfound
    obtain ⟨-, hopened, hmath⟩ := ih h
    refine ⟨hlt, fun j hj => ?_, fun j hj => ?_⟩
    · have hj := hopened j hj
      omega
    · have hj := hmath j hj
      omega
  | case6 start hlt => cases h

end Search

/-- Goes over a document from an offset on, where everything before the offset `copied` has
been written. What can be read at an opener is replaced by what is written for it and is
listed; where nothing can be read the scanner goes on with the next byte. There is no result
if the text has to be cut where it cannot be cut. -/
def renderFrom {α : Type} (search : ByteSearch) (scanner : Scanner) (p : Pattern α)
    (write : α → Text) (text : Text) (copied start : Nat) (out : Text) (found : List α) :
    Option (Text × List α) :=
  match _ : nextMarker? search scanner text start with
  | none =>
    match suffixAt? text copied with
    | none => none
    | some rest => some (out ++ rest, found)
  | some (.math stop) => renderFrom search scanner p write text copied stop out found
  | some (.opened i) =>
    match suffixAt? text i with
    | none => none
    | some s =>
      match _ : p.read? s with
      | none => renderFrom search scanner p write text copied (i + 1) out found
      | some (a, r) =>
        match slice? text copied i with
        | none => none
        | some part =>
          let stop := i + byteLength (s.take (s.length - r.length))
          renderFrom search scanner p write text stop stop (out ++ part ++ write a)
            (found ++ [a])
termination_by byteLength text - start
decreasing_by
  · obtain ⟨hlt, -, hmath⟩ := lt_of_nextMarker?
      ‹nextMarker? search scanner text start = some (.math stop)›
    have hstop := hmath stop rfl
    omega
  · obtain ⟨hlt, hopened, -⟩ := lt_of_nextMarker?
      ‹nextMarker? search scanner text start = some (.opened i)›
    have hi := hopened i rfl
    omega
  · obtain ⟨hlt, hopened, -⟩ := lt_of_nextMarker?
      ‹nextMarker? search scanner text start = some (.opened i)›
    have hi := hopened i rfl
    have hshorter := p.shorter ‹p.read? s = some (a, r)›
    have hpos : 0 < byteLength (s.take (s.length - r.length)) := by
      refine Nat.lt_of_lt_of_le ?_ (length_le_byteLength _)
      rw [List.length_take]
      omega
    omega

section Steps

variable {α : Type} {search : ByteSearch} {scanner : Scanner} {p : Pattern α}
  {write : α → Text} {text : Text} {copied start : Nat} {out : Text} {found : List α}

theorem renderFrom_of_none (h : nextMarker? search scanner text start = none) :
    renderFrom search scanner p write text copied start out found =
      (suffixAt? text copied).map fun rest => (out ++ rest, found) := by
  rw [renderFrom]
  split
  · cases suffixAt? text copied <;> rfl
  · simp_all
  · simp_all

theorem renderFrom_of_math {stop : Nat}
    (h : nextMarker? search scanner text start = some (.math stop)) :
    renderFrom search scanner p write text copied start out found =
      renderFrom search scanner p write text copied stop out found := by
  rw [renderFrom]
  split <;> simp_all

theorem renderFrom_of_unread {i : Nat} {s : Text}
    (h : nextMarker? search scanner text start = some (.opened i))
    (hs : suffixAt? text i = some s) (hread : p.read? s = none) :
    renderFrom search scanner p write text copied start out found =
      renderFrom search scanner p write text copied (i + 1) out found := by
  rw [renderFrom]
  split
  · simp_all
  · simp_all
  · rename_i h'
    rw [h] at h'
    cases h'
    simp only [hs]
    split <;> simp_all

theorem renderFrom_of_read {i : Nat} {s r part : Text} {a : α}
    (h : nextMarker? search scanner text start = some (.opened i))
    (hs : suffixAt? text i = some s) (hread : p.read? s = some (a, r))
    (hpart : slice? text copied i = some part) :
    renderFrom search scanner p write text copied start out found =
      renderFrom search scanner p write text (i + byteLength (s.take (s.length - r.length)))
        (i + byteLength (s.take (s.length - r.length))) (out ++ part ++ write a)
        (found ++ [a]) := by
  rw [renderFrom]
  split
  · simp_all
  · simp_all
  · rename_i h'
    rw [h] at h'
    cases h'
    simp only [hs]
    split <;> simp_all

end Steps

/-- A document with everything replaced that can be read at an opener, and what has been
read. -/
def renderMarked {α : Type} (search : ByteSearch) (scanner : Scanner) (p : Pattern α)
    (write : α → Text) (text : Text) : Option (Text × List α) :=
  renderFrom search scanner p write text 0 0 [] []

/-- The formula of a block, read from the opener on. -/
def blockFormula (d : Dialect) : Pattern Expr := ⟨block? d, length_lt_of_block?⟩

/-- The name of a wildcard, read from its brace on. -/
def bracedName : Pattern Text := ⟨bracedName?, length_lt_of_bracedName?⟩

end QuizFormula

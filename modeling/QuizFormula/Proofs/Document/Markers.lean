import QuizFormula.Document.Marker
import QuizFormula.Proofs.Document.Math
import QuizFormula.Proofs.Document.Occurrences

/-!
# The next marker

What marks a place of a text is seen from the text behind it: it starts with the opener, or
with math that is skipped and is closed. The first place that is marked is found character
by character (`firstMarker?`), and the search in the bytes finds the same one
(`nextMarker?_eq_firstMarker?`). Where it meets an opening delimiter that is never closed it
goes on two bytes further on, and misses nothing: the second character of the delimiter
opens nothing either (`unmarkedBefore_of_unclosed`).
-/

namespace QuizFormula

namespace Scanner

/-- A span of math where the scanner skips math. -/
def span? (scanner : Scanner) (s : Text) : Option (Text × Text) :=
  if scanner.skipsMath then mathSpan? s else none

/-- The text starts neither with the opener nor with math that is skipped. -/
structure Unmarked (scanner : Scanner) (s : Text) : Prop where
  opener : ¬ scanner.opener <+: s
  span : scanner.span? s = none

/-- No place of the first text is marked when the second text follows it. -/
def UnmarkedBefore (scanner : Scanner) : Text → Text → Prop
  | [], _ => True
  | c :: x, y => scanner.Unmarked (c :: (x ++ y)) ∧ scanner.UnmarkedBefore x y

/-- The marker at the start of a text that stands at the given offset. -/
def markerAt? (scanner : Scanner) (offset : Nat) (s : Text) : Option Marker :=
  match scanner.opener.isPrefixOf? s with
  | some _ => some (.opened offset)
  | none => (scanner.span? s).map fun x => .math (offset + byteLength x.1)

/-- The first marker in a text that stands at the given offset, looked for character by
character. -/
def firstMarker? (scanner : Scanner) : Nat → Text → Option Marker
  | _, [] => none
  | offset, c :: s =>
    (scanner.markerAt? offset (c :: s)).or (scanner.firstMarker? (offset + c.utf8Size) s)

end Scanner

variable {scanner : Scanner}

/-! ### Marked places -/

theorem unmarked_nil : scanner.Unmarked [] := by
  refine ⟨fun h => scanner.opener_ne_nil (List.prefix_nil.1 h), ?_⟩
  unfold Scanner.span?
  split <;> rfl

theorem markerAt?_eq_none_iff (offset : Nat) (s : Text) :
    scanner.markerAt? offset s = none ↔ scanner.Unmarked s := by
  unfold Scanner.markerAt?
  cases h : scanner.opener.isPrefixOf? s with
  | none =>
      rw [isPrefixOf?_eq_none_iff] at h
      rw [Option.map_eq_none_iff]
      exact ⟨fun hspan => ⟨h, hspan⟩, Scanner.Unmarked.span⟩
  | some r =>
      have hopener : scanner.opener <+: s := ⟨r, List.append_eq_of_isPrefixOf?_eq_some h⟩
      exact ⟨nofun, fun hs => absurd hopener hs.opener⟩

theorem span?_of_opener {s : Text} (h : scanner.opener <+: s) : scanner.span? s = none := by
  obtain ⟨c, w, hc, hother⟩ := scanner.opens
  obtain ⟨r, rfl⟩ := h
  have hdollar : c ≠ '$' := by
    rintro rfl
    exact hother _ List.mem_cons_self List.mem_cons_self
  have hslash : c ≠ '\\' := by
    rintro rfl
    exact hother (['\\', '('], ['\\', ')']) (by decide) List.mem_cons_self
  unfold Scanner.span?
  split
  · rw [hc, List.cons_append]
    exact mathSpan?_cons_of_ne hdollar hslash _
  · rfl

theorem markerAt?_eq_opened_iff (offset i : Nat) (s : Text) :
    scanner.markerAt? offset s = some (.opened i) ↔ i = offset ∧ scanner.opener <+: s := by
  constructor
  · intro h
    unfold Scanner.markerAt? at h
    split at h
    · rename_i r hr
      cases h
      exact ⟨rfl, r, List.append_eq_of_isPrefixOf?_eq_some hr⟩
    · simp at h
  · rintro ⟨rfl, r, rfl⟩
    rw [Scanner.markerAt?, List.isPrefixOf?_eq_some_iff_append_eq.2 rfl]

theorem markerAt?_eq_math_iff (offset stop : Nat) (s : Text) :
    scanner.markerAt? offset s = some (.math stop) ↔
      ∃ u r, scanner.span? s = some (u, r) ∧ stop = offset + byteLength u := by
  constructor
  · intro h
    unfold Scanner.markerAt? at h
    split at h
    · cases h
    · obtain ⟨⟨u, r⟩, hspan, heq⟩ := Option.map_eq_some_iff.1 h
      cases heq
      exact ⟨u, r, hspan, rfl⟩
  · rintro ⟨u, r, hspan, rfl⟩
    have hnone : scanner.opener.isPrefixOf? s = none := by
      rw [isPrefixOf?_eq_none_iff]
      intro hopener
      rw [span?_of_opener hopener] at hspan
      cases hspan
    simp only [Scanner.markerAt?, hnone, hspan, Option.map_some]

theorem unmarkedBefore_iff (x y : Text) :
    scanner.UnmarkedBefore x y ↔ ∀ u v, x = u ++ v → v ≠ [] → scanner.Unmarked (v ++ y) := by
  induction x with
  | nil =>
      refine ⟨fun _ u v h hv => ?_, fun _ => trivial⟩
      exact absurd (List.append_eq_nil_iff.1 h.symm).2 hv
  | cons c x ih =>
      rw [Scanner.UnmarkedBefore, ih]
      constructor
      · rintro ⟨hhere, hlater⟩ u v h hv
        cases u with
        | nil =>
            rw [List.nil_append] at h
            rwa [← h, List.cons_append]
        | cons k u => exact hlater u v (List.cons.inj h).2 hv
      · intro h
        exact ⟨h [] (c :: x) rfl (List.cons_ne_nil c x),
          fun u v hx => h (c :: u) v (by rw [hx, List.cons_append])⟩

/-- Characters that are not marked are passed over. -/
theorem firstMarker?_append {x y : Text} (h : scanner.UnmarkedBefore x y) (offset : Nat) :
    scanner.firstMarker? offset (x ++ y) = scanner.firstMarker? (offset + byteLength x) y := by
  induction x generalizing offset with
  | nil => rfl
  | cons c x ih =>
      obtain ⟨hhere, hlater⟩ := h
      rw [List.cons_append, Scanner.firstMarker?, (markerAt?_eq_none_iff offset _).2 hhere,
        Option.none_or, ih hlater, byteLength_cons, Nat.add_assoc]

theorem firstMarker?_of_markerAt? {offset : Nat} {s : Text} {m : Marker}
    (h : scanner.markerAt? offset s = some m) : scanner.firstMarker? offset s = some m := by
  cases s with
  | nil =>
      rw [(markerAt?_eq_none_iff offset []).2 unmarked_nil] at h
      cases h
  | cons c s => rw [Scanner.firstMarker?, h, Option.some_or]

theorem firstMarker?_eq_some_iff (offset : Nat) (s : Text) (m : Marker) :
    scanner.firstMarker? offset s = some m ↔
      ∃ x y, s = x ++ y ∧ scanner.UnmarkedBefore x y ∧
        scanner.markerAt? (offset + byteLength x) y = some m := by
  constructor
  · intro h
    induction s generalizing offset with
    | nil => cases h
    | cons c s ih =>
        rw [Scanner.firstMarker?, Option.or_eq_some_iff] at h
        rcases h with h | ⟨hnone, h⟩
        · exact ⟨[], c :: s, rfl, trivial, h⟩
        · obtain ⟨x, y, rfl, hx, hy⟩ := ih _ h
          refine ⟨c :: x, y, rfl, ⟨(markerAt?_eq_none_iff offset _).1 hnone, hx⟩, ?_⟩
          rwa [byteLength_cons, ← Nat.add_assoc]
  · rintro ⟨x, y, rfl, hx, hy⟩
    rw [firstMarker?_append hx, firstMarker?_of_markerAt? hy]

theorem firstMarker?_eq_none_iff (offset : Nat) (s : Text) :
    scanner.firstMarker? offset s = none ↔ scanner.UnmarkedBefore s [] := by
  induction s generalizing offset with
  | nil => exact ⟨fun _ => trivial, fun _ => rfl⟩
  | cons c s ih =>
      rw [Scanner.firstMarker?, Option.or_eq_none_iff, markerAt?_eq_none_iff, ih,
        Scanner.UnmarkedBefore, List.append_nil]

/-! ### Delimiters -/

theorem mathSpan?_of_unclosed {d : Text × Text} (hd : d ∈ mathDelimiters) {t : Text}
    (h : ¬ d.2 <:+: t) : mathSpan? (d.1 ++ t) = none := by
  rw [mathSpan?_eq_none_iff]
  intro d' hd' u hu
  simp only [mathDelimiters, List.mem_cons, List.not_mem_nil, or_false] at hd hd'
  -- Two delimiters at the same place are the same one.
  rcases hd with rfl | rfl | rfl <;> rcases hd' with rfl | rfl | rfl <;> simp_all

/-- The second character of an opening delimiter opens no math either. -/
theorem mathSpan?_of_unclosed_tail {d : Text × Text} (hd : d ∈ mathDelimiters) {q o : Char}
    (hopen : d.1 = [q, o]) {t : Text} (h : ¬ d.2 <:+: t) : mathSpan? (o :: t) = none := by
  simp only [mathDelimiters, List.mem_cons, List.not_mem_nil, or_false] at hd
  rcases hd with rfl | rfl | rfl
  · -- A third dollar sign would be the second one of another delimiter, closed even later.
    cases hopen
    rw [mathSpan?_eq_none_iff]
    intro d' hd' u hu hclose
    simp only [mathDelimiters, List.mem_cons, List.not_mem_nil, or_false] at hd'
    rcases hd' with rfl | rfl | rfl
    · obtain rfl : t = '$' :: u := (List.cons.inj hu).2
      exact h (hclose.trans (List.suffix_cons '$' u).isInfix)
    · exact absurd (List.cons.inj hu).1 (by decide)
    · exact absurd (List.cons.inj hu).1 (by decide)
  · cases hopen
    exact mathSpan?_cons_of_ne (by decide) (by decide) t
  · cases hopen
    exact mathSpan?_cons_of_ne (by decide) (by decide) t

theorem unmarked_of_mathSpan? {d : Text × Text} (hd : d ∈ mathDelimiters) {q : Char}
    (hq : q ∈ d.1) {s : Text} (h : mathSpan? (q :: s) = none) :
    scanner.Unmarked (q :: s) where
  opener hstarts := by
    obtain ⟨c, r, hc, hother⟩ := scanner.opens
    rw [hc, List.cons_prefix_cons] at hstarts
    exact hother d hd (hstarts.1 ▸ hq)
  span := by
    unfold Scanner.span?
    split
    · exact h
    · rfl

/-- Behind an opening delimiter that is never closed the next place to look at is two
characters further on. -/
theorem unmarkedBefore_of_unclosed {d : Text × Text} (hd : d ∈ mathDelimiters) {t : Text}
    (h : ¬ d.2 <:+: t) : scanner.UnmarkedBefore d.1 t := by
  obtain ⟨q, o, k, hopen, -⟩ := exists_isDelimiter hd
  have hfirst := mathSpan?_of_unclosed hd h
  have hsecond := mathSpan?_of_unclosed_tail hd hopen.pair h
  have hq : q ∈ d.1 := by rw [hopen.pair]; exact List.mem_cons_self
  have ho : o ∈ d.1 := by rw [hopen.pair]; exact List.mem_cons_of_mem q List.mem_cons_self
  rw [hopen.pair] at hfirst ⊢
  exact ⟨unmarked_of_mathSpan? hd hq hfirst, unmarked_of_mathSpan? hd ho hsecond, trivial⟩

theorem span?_of_through? {d : Text × Text} (hd : d ∈ scanner.delimiters) {t u r : Text}
    (h : through? d.2 t = some (u, r)) : scanner.span? (d.1 ++ t) = some (d.1 ++ u, r) := by
  have hskips : scanner.skipsMath = true := by
    by_contra hnot
    rw [Scanner.delimiters, if_neg hnot] at hd
    exact absurd hd List.not_mem_nil
  rw [Scanner.span?, if_pos hskips, mathSpan?_eq_some_iff]
  refine ⟨d, Scanner.mem_mathDelimiters hd, ?_⟩
  rw [delimited?_opening_append, h, Option.map_some]

/-! ### Markers behind what is not marked -/

theorem firstMarker?_of_opener {x y : Text}
    (h : scanner.UnmarkedBefore x (scanner.opener ++ y)) (offset : Nat) :
    scanner.firstMarker? offset (x ++ (scanner.opener ++ y)) =
      some (.opened (offset + byteLength x)) := by
  rw [firstMarker?_append h, firstMarker?_of_markerAt?]
  exact (markerAt?_eq_opened_iff _ _ _).2 ⟨rfl, List.prefix_append scanner.opener y⟩

theorem firstMarker?_of_closed {d : Text × Text} (hd : d ∈ scanner.delimiters)
    {x t u r : Text} (h : scanner.UnmarkedBefore x (d.1 ++ t))
    (hclosed : through? d.2 t = some (u, r)) (offset : Nat) :
    scanner.firstMarker? offset (x ++ (d.1 ++ t)) =
      some (.math (offset + byteLength x + byteLength (d.1 ++ u))) := by
  rw [firstMarker?_append h, firstMarker?_of_markerAt?]
  exact (markerAt?_eq_math_iff _ _ _).2 ⟨d.1 ++ u, r, span?_of_through? hd hclosed, rfl⟩

theorem firstMarker?_of_unclosed {d : Text × Text} (hd : d ∈ mathDelimiters) {x t : Text}
    (h : scanner.UnmarkedBefore x (d.1 ++ t)) (hunclosed : ¬ d.2 <:+: t) (offset : Nat) :
    scanner.firstMarker? offset (x ++ (d.1 ++ t)) =
      scanner.firstMarker? (offset + byteLength x + byteLength d.1) t := by
  rw [firstMarker?_append h, firstMarker?_append (unmarkedBefore_of_unclosed hd hunclosed)]

/-! ### The search in the bytes -/

theorem isAscii_delimiters : ∀ d ∈ mathDelimiters,
    d.1.all isAscii = true ∧ d.2.all isAscii = true := by
  decide

theorem words_eq :
    scanner.words = (scanner.opener :: scanner.delimiters.map Prod.fst).map utf8 := by
  rw [Scanner.words, List.map_cons, List.map_map]
  rfl

theorem isAscii_of_mem_words {w : Text}
    (h : w ∈ scanner.opener :: scanner.delimiters.map Prod.fst) :
    w.all isAscii = true ∧ w ≠ [] := by
  rcases List.mem_cons.1 h with rfl | h
  · exact ⟨scanner.ascii, scanner.opener_ne_nil⟩
  · obtain ⟨d, hd, rfl⟩ := List.mem_map.1 h
    have hmath := Scanner.mem_mathDelimiters hd
    exact ⟨(isAscii_delimiters d hmath).1, opening_ne_nil hmath⟩

/-- Where none of the words occurs the text is not marked. -/
theorem unmarked_of_not_occursAt {p y : Text}
    (h : ∀ w ∈ scanner.words, ¬ OccursAt w (utf8 (p ++ y)) (byteLength p)) :
    scanner.Unmarked y where
  opener := by
    rintro ⟨r, rfl⟩
    exact h _ List.mem_cons_self (occursAt_append p scanner.opener r)
  span := by
    unfold Scanner.span?
    split
    · rename_i hskips
      rw [mathSpan?_eq_none_iff]
      rintro d hd t rfl -
      refine h _ (List.mem_cons_of_mem _ (List.mem_map.2 ⟨d, ?_, rfl⟩)) (occursAt_append p d.1 t)
      rwa [Scanner.delimiters, if_pos hskips]
    · rfl

theorem unmarkedBefore_of_not_occursAt {a x y : Text}
    (h : ∀ w ∈ scanner.words, ∀ j, byteLength a ≤ j → j < byteLength (a ++ x) →
      ¬ OccursAt w (utf8 (a ++ (x ++ y))) j) : scanner.UnmarkedBefore x y := by
  rw [unmarkedBefore_iff]
  rintro u v rfl hv
  have hpos := byteLength_pos hv
  refine unmarked_of_not_occursAt (p := a ++ u) fun w hw => ?_
  have hnot := h w hw (byteLength (a ++ u)) (by simp) (by simp only [byteLength_append]; omega)
  simpa only [List.append_assoc] using hnot

theorem exists_of_occursAt {w a b : Text} {i : Nat} (hw : w.all isAscii = true) (hne : w ≠ [])
    (h : OccursAt (utf8 w) (utf8 (a ++ b)) i) (hle : byteLength a ≤ i) :
    ∃ x y, b = x ++ (w ++ y) ∧ i = byteLength (a ++ x) := by
  obtain ⟨p, y, hp, rfl⟩ := (occursAt_utf8_iff hw hne _ _).1 h
  obtain ⟨x, rfl, rfl⟩ := exists_append_of_byteLength_le hp hle
  exact ⟨x, y, rfl, rfl⟩

theorem ByteSearch.isLeftmost_utf8 (search : ByteSearch) {w : Text} (hne : w ≠ []) (t : Text) :
    IsLeftmost [utf8 w] (utf8 t) 0 ((search.first? (utf8 w) (utf8 t)).map fun i => (0, i)) :=
  search.isLeftmost_first? (utf8_ne_nil hne)

/-- The first place of a closing delimiter in the bytes ends what is read through it. -/
theorem through?_of_first? {search : ByteSearch} {close : Text}
    (hclose : close.all isAscii = true) (hne : close ≠ []) {t : Text} {j : Nat}
    (h : search.first? (utf8 close) (utf8 t) = some j) :
    ∃ m r, through? close t = some (m ++ close, r) ∧ byteLength m = j := by
  have hleft := search.isLeftmost_utf8 hne t
  rw [h] at hleft
  obtain ⟨-, ⟨w, hw, hoccurs⟩, -, hbefore⟩ := hleft
  cases hw
  obtain ⟨m, r, rfl, rfl⟩ := (occursAt_utf8_iff hclose hne _ _).1 hoccurs
  refine ⟨m, r, (through?_eq_some_iff hne _ _ _).2 ⟨m, rfl, rfl, ?_⟩, rfl⟩
  intro m' r' h'
  rcases List.append_eq_append_iff.1 h' with ⟨z, rfl, -⟩ | ⟨z, rfl, -⟩
  · simp
  · -- A place further to the left would have been found.
    cases z with
    | nil => simp
    | cons c z =>
        have hpos := byteLength_pos (List.cons_ne_nil c z)
        refine absurd ?_ (hbefore _ (List.mem_singleton_self _) (byteLength m') (Nat.zero_le _)
          (by rw [byteLength_append]; omega))
        rw [h']
        exact occursAt_append m' close r'

theorem not_infix_of_first? {search : ByteSearch} {close : Text} (hne : close ≠ []) {t : Text}
    (h : search.first? (utf8 close) (utf8 t) = none) : ¬ close <:+: t := by
  have hleft := search.isLeftmost_utf8 hne t
  rw [h] at hleft
  rintro ⟨m, r, rfl⟩
  rw [List.append_assoc] at hleft
  exact hleft _ (List.mem_singleton_self _) (byteLength m) (Nat.zero_le _)
    (occursAt_append m close r)

/-! ### What the search has found -/

/-- What is found first of all words is the first marked place, or an opening delimiter in
front of it. -/
theorem exists_of_firstOf? {search : ByteSearch} {a b : Text} {k i : Nat}
    (hlt : byteLength a < byteLength (a ++ b))
    (h : search.firstOf? scanner.words (utf8 (a ++ b)) (byteLength a) = some (k, i)) :
    ∃ w x y, (scanner.opener :: scanner.delimiters.map Prod.fst)[k]? = some w ∧
      b = x ++ (w ++ y) ∧ i = byteLength (a ++ x) ∧ scanner.UnmarkedBefore x (w ++ y) := by
  have hleft := search.isLeftmost_words scanner hlt
  rw [h] at hleft
  obtain ⟨hle, ⟨v, hv, hoccurs⟩, -, hbefore⟩ := hleft
  rw [words_eq, List.getElem?_map] at hv
  obtain ⟨w, hw, rfl⟩ := Option.map_eq_some_iff.1 hv
  obtain ⟨hascii, hne⟩ := isAscii_of_mem_words (List.mem_of_getElem? hw)
  obtain ⟨x, y, rfl, rfl⟩ := exists_of_occursAt hascii hne hoccurs hle
  exact ⟨w, x, y, hw, rfl, rfl, unmarkedBefore_of_not_occursAt hbefore⟩

theorem exists_opener_of_firstOf? {search : ByteSearch} {a b : Text} {i : Nat}
    (hlt : byteLength a < byteLength (a ++ b))
    (h : search.firstOf? scanner.words (utf8 (a ++ b)) (byteLength a) = some (0, i)) :
    ∃ x y, b = x ++ (scanner.opener ++ y) ∧ i = byteLength (a ++ x) ∧
      scanner.UnmarkedBefore x (scanner.opener ++ y) := by
  obtain ⟨w, x, y, hw, hfound⟩ := exists_of_firstOf? hlt h
  cases hw
  exact ⟨x, y, hfound⟩

theorem exists_delimiter_of_firstOf? {search : ByteSearch} {a b : Text} {k i : Nat}
    {d : Text × Text} (hd : scanner.delimiters[k]? = some d)
    (hlt : byteLength a < byteLength (a ++ b))
    (h : search.firstOf? scanner.words (utf8 (a ++ b)) (byteLength a) = some (k + 1, i)) :
    ∃ x t, b = x ++ (d.1 ++ t) ∧ i = byteLength (a ++ x) ∧
      scanner.UnmarkedBefore x (d.1 ++ t) := by
  obtain ⟨w, x, t, hw, hfound⟩ := exists_of_firstOf? hlt h
  rw [List.getElem?_cons_succ, List.getElem?_map, hd] at hw
  cases hw
  exact ⟨x, t, hfound⟩

theorem unmarkedBefore_of_firstOf?_eq_none {search : ByteSearch} {a b : Text}
    (hlt : byteLength a < byteLength (a ++ b))
    (h : search.firstOf? scanner.words (utf8 (a ++ b)) (byteLength a) = none) :
    scanner.UnmarkedBefore b [] := by
  have hleft := search.isLeftmost_words scanner hlt
  rw [h] at hleft
  refine unmarkedBefore_of_not_occursAt (a := a) fun w hw j hj _ => ?_
  rw [List.append_nil]
  exact hleft w hw j hj

theorem drop_behind (a x w y : Text) :
    (utf8 (a ++ (x ++ (w ++ y)))).drop (byteLength (a ++ x) + byteLength w) = utf8 y := by
  rw [← byteLength_append, ← List.append_assoc, ← List.append_assoc, utf8_append, byteLength,
    List.drop_left]

/-- The search in the bytes finds the marker that is found character by character. -/
theorem nextMarker?_eq_firstMarker? (search : ByteSearch) (scanner : Scanner) (a b : Text) :
    nextMarker? search scanner (a ++ b) (byteLength a) =
      scanner.firstMarker? (byteLength a) b := by
  generalize htext : a ++ b = text
  generalize hstart : byteLength a = start
  fun_induction nextMarker? search scanner text start generalizing a b with
  | case1 start hlt hnone =>
      subst htext hstart
      exact ((firstMarker?_eq_none_iff _ b).2
        (unmarkedBefore_of_firstOf?_eq_none hlt hnone)).symm
  | case2 start hlt i hfound =>
      subst htext hstart
      obtain ⟨x, y, rfl, rfl, hbefore⟩ := exists_opener_of_firstOf? hlt hfound
      rw [firstMarker?_of_opener hbefore, byteLength_append]
  | case3 start hlt k i hfound hd =>
      subst htext hstart
      obtain ⟨w, x, y, hw, -⟩ := exists_of_firstOf? hlt hfound
      rw [List.getElem?_cons_succ, List.getElem?_map, hd] at hw
      cases hw
  | case4 start hlt k i hfound d hd inside j hj =>
      subst htext hstart
      obtain ⟨x, t, rfl, rfl, hbefore⟩ := exists_delimiter_of_firstOf? hd hlt hfound
      have hmem := List.mem_of_getElem? hd
      have hmath := Scanner.mem_mathDelimiters hmem
      rw [drop_behind] at hj
      obtain ⟨m, r, hclosed, rfl⟩ := through?_of_first? (isAscii_delimiters d hmath).2
        (closing_ne_nil hmath) hj
      rw [firstMarker?_of_closed hmem hbefore hclosed]
      simp only [inside, byteLength_append, Nat.add_assoc]
  | case5 start hlt k i hfound d hd inside hj ih =>
      subst htext hstart
      obtain ⟨x, t, rfl, rfl, hbefore⟩ := exists_delimiter_of_firstOf? hd hlt hfound
      have hmath := Scanner.mem_mathDelimiters (List.mem_of_getElem? hd)
      rw [drop_behind] at hj
      -- The search goes on behind the delimiter, and so does the one by characters.
      have hinside : byteLength (a ++ x ++ d.1) = inside := byteLength_append _ _
      rw [ih (a ++ x ++ d.1) t (by simp) hinside,
        firstMarker?_of_unclosed hmath hbefore (not_infix_of_first? (closing_ne_nil hmath) hj),
        ← hinside, byteLength_append, byteLength_append]
  | case6 start hlt =>
      subst htext hstart
      have hb : b = [] := by
        by_contra hne
        have hpos := byteLength_pos hne
        rw [byteLength_append] at hlt
        omega
      rw [hb]
      rfl

end QuizFormula

import QuizFormula.Proofs.Document.Contents
import QuizFormula.Proofs.Document.Markers

/-!
# Going over a document by its markers

The passes over a document look at it character by character. Going from marker to marker
gives the same result (`renderMarked_eq`): between two markers nothing can be read, so the
text is copied as it is, and all places at which the text is cut lie between two characters.
Together with what the next marker is, this is `scanner_markers`.
-/

namespace QuizFormula

theorem append_eq_of_span? {scanner : Scanner} {s u r : Text}
    (h : scanner.span? s = some (u, r)) : u ++ r = s := by
  unfold Scanner.span? at h
  split at h
  · exact append_eq_of_mathSpan? h
  · cases h

theorem length_lt_of_span? {scanner : Scanner} {s u r : Text}
    (h : scanner.span? s = some (u, r)) : r.length < s.length := by
  unfold Scanner.span? at h
  split at h
  · exact length_lt_of_mathSpan? h
  · cases h

/-! ### From marker to marker

The text `z` has been passed over and is not copied yet, and no place of `x` is marked. -/

section Steps

variable {α : Type} {scanner : Scanner} {p : Pattern α}

theorem nextMarker?_eq_some (search : ByteSearch) {a z x y : Text}
    (hx : scanner.UnmarkedBefore x y) {m : Marker}
    (hm : scanner.markerAt? (byteLength (a ++ (z ++ x))) y = some m) :
    nextMarker? search scanner (a ++ (z ++ (x ++ y))) (byteLength (a ++ z)) = some m := by
  have hmarker := nextMarker?_eq_firstMarker? search scanner (a ++ z) (x ++ y)
  rwa [firstMarker?_append hx, ← byteLength_append, List.append_assoc, List.append_assoc,
    firstMarker?_of_markerAt? hm] at hmarker

theorem renderFrom_past_math (search : ByteSearch) (write : α → Text) {a z x u r : Text}
    (hx : scanner.UnmarkedBefore x (u ++ r)) (hspan : scanner.span? (u ++ r) = some (u, r))
    (out : Text) (found : List α) :
    renderFrom search scanner p write (a ++ (z ++ (x ++ (u ++ r)))) (byteLength a)
        (byteLength (a ++ z)) out found =
      renderFrom search scanner p write (a ++ (z ++ (x ++ (u ++ r)))) (byteLength a)
        (byteLength (a ++ (z ++ (x ++ u)))) out found := by
  have hmarker := nextMarker?_eq_some search (a := a) (z := z) hx
    ((markerAt?_eq_math_iff _ _ _).2 ⟨u, r, hspan, rfl⟩)
  rw [renderFrom_of_math hmarker, ← byteLength_append]
  simp only [List.append_assoc]

theorem renderFrom_past_read (search : ByteSearch) (write : α → Text)
    {a z x u r : Text} {v : α} (hx : scanner.UnmarkedBefore x (u ++ r))
    (hopener : scanner.opener <+: u ++ r) (hread : p.read? (u ++ r) = some (v, r))
    (out : Text) (found : List α) :
    renderFrom search scanner p write (a ++ (z ++ (x ++ (u ++ r)))) (byteLength a)
        (byteLength (a ++ z)) out found =
      renderFrom search scanner p write (a ++ (z ++ (x ++ (u ++ r))))
        (byteLength (a ++ (z ++ (x ++ u)))) (byteLength (a ++ (z ++ (x ++ u))))
        (out ++ (z ++ x) ++ write v) (found ++ [v]) := by
  have hmarker := nextMarker?_eq_some search (a := a) (z := z) hx
    ((markerAt?_eq_opened_iff _ _ _).2 ⟨rfl, hopener⟩)
  have hsuffix := suffixAt?_append (a ++ (z ++ x)) (u ++ r)
  have hpart := slice?_append a (z ++ x) (u ++ r)
  have htake : (u ++ r).take ((u ++ r).length - r.length) = u := by
    rw [List.length_append, Nat.add_sub_cancel, List.take_left]
  simp only [List.append_assoc] at hsuffix hpart
  rw [renderFrom_of_read hmarker hsuffix hread hpart, htake, ← byteLength_append]
  simp only [List.append_assoc]

/-- Where nothing can be read at an opener, the next place to look at is behind its first
character. -/
theorem renderFrom_past_opener (search : ByteSearch) (write : α → Text) {a z x y : Text} {c : Char}
    (hx : scanner.UnmarkedBefore x (c :: y)) (hopener : scanner.opener <+: c :: y)
    (hread : p.read? (c :: y) = none) (out : Text) (found : List α) :
    renderFrom search scanner p write (a ++ (z ++ (x ++ (c :: y)))) (byteLength a)
        (byteLength (a ++ z)) out found =
      renderFrom search scanner p write (a ++ (z ++ (x ++ (c :: y)))) (byteLength a)
        (byteLength (a ++ (z ++ (x ++ [c])))) out found := by
  have hmarker := nextMarker?_eq_some search (a := a) (z := z) hx
    ((markerAt?_eq_opened_iff _ _ _).2 ⟨rfl, hopener⟩)
  have hsuffix := suffixAt?_append (a ++ (z ++ x)) (c :: y)
  have hnext : byteLength (a ++ (z ++ x)) + 1 = byteLength (a ++ (z ++ (x ++ [c]))) := by
    obtain ⟨k, w, hk, -⟩ := scanner.opens
    obtain rfl : k = c := (List.cons_prefix_cons.1 (hk ▸ hopener)).1
    have hsize := utf8Size_eq_one (List.all_eq_true.1 scanner.ascii k (hk ▸ List.mem_cons_self))
    simp only [byteLength_append, byteLength_cons, hsize, byteLength_nil]
    omega
  simp only [List.append_assoc] at hsuffix
  rw [renderFrom_of_unread hmarker hsuffix hread, hnext]

theorem renderFrom_to_end (search : ByteSearch) (write : α → Text)
    {a z x : Text} (hx : scanner.UnmarkedBefore x []) (out : Text) (found : List α) :
    renderFrom search scanner p write (a ++ (z ++ x)) (byteLength a) (byteLength (a ++ z)) out
        found = some (out ++ (z ++ x), found) := by
  have hmarker := nextMarker?_eq_firstMarker? search scanner (a ++ z) x
  rw [(firstMarker?_eq_none_iff _ x).2 hx, List.append_assoc] at hmarker
  rw [renderFrom_of_none hmarker, suffixAt?_append, Option.map_some]

end Steps

/-! ### Passes -/

/-- The pattern `q` finds what `p` reads at the opener of the scanner, and copies the math
that the scanner skips. -/
structure Scanner.Serves {α : Type} (scanner : Scanner) (p : Pattern α)
    (q : Pattern (Segment α)) : Prop where
  read?_eq : ∀ s, q.read? s = ((scanner.span? s).map fun x => (.copied x.1, x.2)).or
    ((p.read? s).map fun x => (.found x.1, x.2))
  opener : ∀ {s r : Text} {a : α}, p.read? s = some (a, r) → scanner.opener <+: s
  rest : ∀ {s r : Text} {a : α}, p.read? s = some (a, r) → r <:+ s

namespace Scanner.Serves

variable {α : Type} {scanner : Scanner} {p : Pattern α} {q : Pattern (Segment α)}

theorem segments_append (h : scanner.Serves p q) {x y : Text} (hx : scanner.UnmarkedBefore x y) :
    segments q (x ++ y) = eachCopied x ++ segments q y := by
  induction x with
  | nil => rfl
  | cons c x ih =>
      obtain ⟨hhere, hlater⟩ := hx
      have hread : p.read? (c :: (x ++ y)) = none := by
        cases hp : p.read? (c :: (x ++ y)) with
        | none => rfl
        | some v => exact absurd (h.opener hp) hhere.opener
      rw [List.cons_append, segments_cons_of_read?_eq_none, ih hlater]
      · rfl
      · rw [h.read?_eq, hhere.span, hread]
        rfl

theorem segments_of_span (h : scanner.Serves p q) {s u r : Text}
    (hspan : scanner.span? s = some (u, r)) : segments q s = .copied u :: segments q r := by
  apply segments_of_read?
  rw [h.read?_eq, hspan]
  rfl

theorem segments_of_read (h : scanner.Serves p q) {s r : Text} {a : α}
    (hread : p.read? s = some (a, r)) : segments q s = .found a :: segments q r := by
  apply segments_of_read?
  rw [h.read?_eq, span?_of_opener (h.opener hread), hread]
  rfl

theorem segments_of_unread (h : scanner.Serves p q) {c : Char} {s : Text}
    (hopener : scanner.opener <+: c :: s) (hread : p.read? (c :: s) = none) :
    segments q (c :: s) = .copied [c] :: segments q s := by
  apply segments_cons_of_read?_eq_none
  rw [h.read?_eq, span?_of_opener hopener, hread]
  rfl

/-- From any place on, what the segments of the rest make up is written. -/
theorem renderFrom_eq (h : scanner.Serves p q) (search : ByteSearch) (write : α → Text)
    {text a z b : Text} {start : Nat} (htext : text = a ++ (z ++ b))
    (hstart : start = byteLength (a ++ z)) (out : Text) (found : List α) :
    renderFrom search scanner p write text (byteLength a) start out found =
      some (out ++ (z ++ assemble write (segments q b)),
        found ++ foundValues (segments q b)) := by
  induction hlength : b.length using Nat.strong_induction_on
    generalizing a z b start out found with
  | _ n ih =>
      subst htext hstart hlength
      cases hmarker : scanner.firstMarker? 0 b with
      | none =>
          have hb := (firstMarker?_eq_none_iff 0 b).1 hmarker
          have hsegments := h.segments_append hb
          rw [List.append_nil, segments_nil, List.append_nil] at hsegments
          rw [renderFrom_to_end search write hb, hsegments, assemble_eachCopied,
            foundValues_eachCopied, List.append_nil]
      | some m =>
          obtain ⟨x, y, rfl, hx, hat⟩ := (firstMarker?_eq_some_iff 0 b m).1 hmarker
          rw [h.segments_append hx, assemble_append, assemble_eachCopied, foundValues_append,
            foundValues_eachCopied, List.nil_append]
          cases m with
          | math stop =>
              obtain ⟨u, r, hspan, -⟩ := (markerAt?_eq_math_iff _ _ _).1 hat
              obtain rfl := append_eq_of_span? hspan
              have hshorter := length_lt_of_span? hspan
              rw [renderFrom_past_math search write hx hspan, h.segments_of_span hspan,
                ih r.length (by rw [List.length_append]; omega) (a := a) (z := z ++ (x ++ u))
                  (by simp) rfl out found rfl]
              simp [Segment.text]
          | opened i =>
              have hopener := ((markerAt?_eq_opened_iff _ _ _).1 hat).2
              cases hread : p.read? y with
              | some v =>
                  obtain ⟨v, r⟩ := v
                  have hshorter := p.shorter hread
                  obtain ⟨u, rfl⟩ := h.rest hread
                  rw [renderFrom_past_read search write hx hopener hread, h.segments_of_read hread,
                    ih r.length (by rw [List.length_append]; omega)
                      (a := a ++ (z ++ (x ++ u))) (z := []) (by simp) (by simp) _ _ rfl]
                  simp [Segment.text]
              | none =>
                  obtain ⟨c, s, rfl⟩ : ∃ c s, y = c :: s :=
                    List.exists_cons_of_ne_nil fun hnil =>
                      scanner.opener_ne_nil (List.prefix_nil.1 (hnil ▸ hopener))
                  rw [renderFrom_past_opener search write hx hopener hread,
                    h.segments_of_unread hopener hread,
                    ih s.length (by rw [List.length_append, List.length_cons]; omega)
                      (a := a) (z := z ++ (x ++ [c])) (by simp) rfl out found rfl]
                  simp [Segment.text]

end Scanner.Serves

theorem opener_of_block? {d : Dialect} {s r : Text} {e : Expr}
    (h : block? d s = some (e, r)) : d.opener <+: s := by
  unfold block? at h
  split at h
  · cases h
  · rename_i t ht
    exact ⟨t, List.append_eq_of_isPrefixOf?_eq_some ht⟩

theorem suffix_of_block? {d : Dialect} {s r : Text} {e : Expr}
    (h : block? d s = some (e, r)) : r <:+ s := by
  obtain ⟨u, -, rfl, -⟩ := ((block?_eq_some_iff d s r e).1 h).1.extends
  exact List.suffix_append u r

theorem serves_moodleBlocks :
    Scanner.moodleBlocks.Serves (blockFormula .moodle) ((math Expr).orElse (block .moodle)) where
  read?_eq _ := rfl
  opener := opener_of_block?
  rest := suffix_of_block?

theorem serves_fpBlocks : Scanner.fpBlocks.Serves (blockFormula .fp) (block .fp) where
  read?_eq _ := rfl
  opener := opener_of_block?
  rest := suffix_of_block?

theorem serves_wildcards :
    Scanner.wildcards.Serves bracedName ((math Text).orElse bracedWildcard) where
  read?_eq _ := rfl
  opener h := by
    obtain ⟨t, rfl, -⟩ := (bracedName?_eq_some_iff _ _ _).1 h
    exact ⟨t, rfl⟩
  rest h := by
    obtain ⟨t, rfl, hname⟩ := (bracedName?_eq_some_iff _ _ _).1 h
    rw [← append_eq_of_name? hname]
    exact (List.suffix_cons '}' _).trans ((List.suffix_append _ _).trans (List.suffix_cons '{' _))

theorem renderMarked_eq {α : Type} {scanner : Scanner} {p : Pattern α} {q : Pattern (Segment α)}
    (h : scanner.Serves p q) (search : ByteSearch) (write : α → Text) (text : Text) :
    renderMarked search scanner p write text =
      some (assemble write (segments q text), foundValues (segments q text)) :=
  h.renderFrom_eq search write (a := []) (z := []) rfl rfl [] []

/-! ### What a scanner finds -/

/-- The text can be cut at this offset. -/
def IsBoundary (s : Text) (i : Nat) : Prop := ∃ x y, s = x ++ y ∧ i = byteLength x

/-- At the start of a text, which stands behind `before`, is the opener, or a whole span of
math that ends with the first closing delimiter. -/
inductive MarkerAt (scanner : Scanner) (before : Text) : Text → Marker → Prop
  | opened (y : Text) :
    MarkerAt scanner before (scanner.opener ++ y) (.opened (byteLength before))
  | math {opening close m r : Text} (hdelimiters : (opening, close) ∈ scanner.delimiters)
    (hfirst : ∀ m' r', m ++ (close ++ r) = m' ++ (close ++ r') → m.length ≤ m'.length) :
    MarkerAt scanner before (opening ++ (m ++ (close ++ r)))
      (.math (byteLength (before ++ (opening ++ (m ++ close)))))

section Spec

variable {scanner : Scanner}

theorem exists_of_span? {s u r : Text} (h : scanner.span? s = some (u, r)) :
    ∃ opening close m, (opening, close) ∈ scanner.delimiters ∧ u = opening ++ (m ++ close) ∧
      ∀ m' r', m ++ (close ++ r) = m' ++ (close ++ r') → m.length ≤ m'.length := by
  unfold Scanner.span? at h
  split at h
  · rename_i hskips
    obtain ⟨⟨opening, close⟩, hd, hs⟩ := (mathSpan?_eq_some_iff s (u, r)).1 h
    unfold delimited? at hs
    split at hs
    · cases hs
    · obtain ⟨⟨a, r'⟩, hthrough, heq⟩ := Option.map_eq_some_iff.1 hs
      cases heq
      obtain ⟨m, rfl, rfl, hfirst⟩ := (through?_eq_some_iff (closing_ne_nil hd) _ _ _).1 hthrough
      exact ⟨opening, close, m, by rwa [Scanner.delimiters, if_pos hskips], rfl, hfirst⟩
  · cases h

theorem markerAt_iff (before s : Text) (m : Marker) :
    MarkerAt scanner before s m ↔ scanner.markerAt? (byteLength before) s = some m := by
  constructor
  · intro h
    cases h with
    | opened y =>
        exact (markerAt?_eq_opened_iff _ _ _).2 ⟨rfl, List.prefix_append scanner.opener y⟩
    | @math opening close m r hd hfirst =>
        have hne := closing_ne_nil (Scanner.mem_mathDelimiters hd)
        have hthrough := (through?_eq_some_iff hne _ _ r).2 ⟨m, rfl, rfl, hfirst⟩
        rw [byteLength_append before]
        exact (markerAt?_eq_math_iff _ _ _).2 ⟨_, r, span?_of_through? hd hthrough, rfl⟩
  · intro h
    cases m with
    | opened i =>
        obtain ⟨rfl, y, rfl⟩ := (markerAt?_eq_opened_iff _ _ _).1 h
        exact .opened y
    | math stop =>
        obtain ⟨u, r, hspan, rfl⟩ := (markerAt?_eq_math_iff _ _ _).1 h
        obtain rfl := append_eq_of_span? hspan
        obtain ⟨opening, close, m, hd, rfl, hfirst⟩ := exists_of_span? hspan
        rw [← byteLength_append, List.append_assoc, List.append_assoc]
        exact .math hd hfirst

theorem forall_not_markerAt_iff (before s : Text) :
    (∀ m, ¬ MarkerAt scanner before s m) ↔ scanner.Unmarked s := by
  simp only [markerAt_iff]
  rw [← markerAt?_eq_none_iff (byteLength before), Option.eq_none_iff_forall_ne_some]

/-- No place before `y` is marked. -/
theorem unmarkedBefore_iff_not_markerAt (a x y : Text) :
    scanner.UnmarkedBefore x y ↔ ∀ x' y' m, x ++ y = x' ++ y' → x'.length < x.length →
      ¬ MarkerAt scanner (a ++ x') y' m := by
  rw [unmarkedBefore_iff]
  constructor
  · intro h x' y' m hsplit hlt
    obtain ⟨v, rfl, rfl⟩ : ∃ v, x = x' ++ v ∧ y' = v ++ y := by
      rcases List.append_eq_append_iff.1 hsplit with ⟨v, rfl, rfl⟩ | ⟨v, rfl, rfl⟩
      · rw [List.length_append] at hlt
        omega
      · exact ⟨v, rfl, rfl⟩
    refine (forall_not_markerAt_iff (a ++ x') (v ++ y)).2 (h x' v rfl ?_) m
    rintro rfl
    simp at hlt
  · rintro h u v rfl hv
    have hpos := List.length_pos_iff.2 hv
    refine (forall_not_markerAt_iff (a ++ u) (v ++ y)).1 fun m => h u (v ++ y) m ?_ ?_
    · rw [List.append_assoc]
    · rw [List.length_append]
      omega

/-- No place of a text is marked; at its end nothing is left that could be. -/
theorem unmarkedBefore_nil_iff_not_markerAt (a b : Text) :
    scanner.UnmarkedBefore b [] ↔
      ∀ x y m, b = x ++ y → ¬ MarkerAt scanner (a ++ x) y m := by
  rw [unmarkedBefore_iff_not_markerAt a, List.append_nil]
  constructor
  · intro h x y m hb
    rcases eq_or_ne y [] with rfl | hne
    · exact (forall_not_markerAt_iff (a ++ x) []).2 unmarked_nil m
    · have hpos := List.length_pos_iff.2 hne
      refine h x y m hb ?_
      rw [hb, List.length_append]
      omega
  · exact fun h x y m hb _ => h x y m hb

theorem isBoundary_of_markerAt {a x y : Text} {m : Marker} (h : MarkerAt scanner (a ++ x) y m) :
    (∀ i, m = .opened i → byteLength a ≤ i ∧ IsBoundary (a ++ (x ++ y)) i ∧
      IsBoundary (a ++ (x ++ y)) (i + 1) ∧
      IsBoundary (a ++ (x ++ y)) (i + byteLength scanner.opener)) ∧
    ∀ i, m = .math i → byteLength a < i ∧ IsBoundary (a ++ (x ++ y)) i := by
  cases h with
  | opened y =>
      obtain ⟨c, w, hc, -⟩ := scanner.opens
      have hsize : c.utf8Size = 1 :=
        utf8Size_eq_one (List.all_eq_true.1 scanner.ascii c (hc ▸ List.mem_cons_self))
      refine ⟨?_, nofun⟩
      rintro i ⟨⟩
      refine ⟨by simp, ⟨a ++ x, scanner.opener ++ y, by simp, rfl⟩,
        ⟨a ++ x ++ [c], w ++ y, by simp [hc], ?_⟩,
        ⟨a ++ x ++ scanner.opener, y, by simp, (byteLength_append _ _).symm⟩⟩
      rw [byteLength_append _ [c], byteLength_cons, hsize, byteLength_nil]
  | @math opening close m r hd hfirst =>
      have hpos : 0 < byteLength opening :=
        byteLength_pos (opening_ne_nil (Scanner.mem_mathDelimiters hd))
      refine ⟨nofun, ?_⟩
      rintro i ⟨⟩
      refine ⟨?_, a ++ x ++ (opening ++ (m ++ close)), r, by simp, rfl⟩
      simp only [byteLength_append]
      omega

end Spec

/-- From any place at which a text can be cut, the next marker is the one at the smallest
place from there on that is marked: by the opener, or by math that is skipped and closed,
which is reported with the end of its first closing delimiter. There is none exactly if no
place is marked. The text can be cut where a marker is, behind its opener or its first
character, and at the end of math, which lies behind the place from which it was looked for.
So going over a document from marker to marker always comes to an end without cutting the
text anywhere else, and gives what the passes over documents give. -/
theorem scanner_markers (search : ByteSearch) :
    (∀ (scanner : Scanner) (a b : Text),
      (∀ m, nextMarker? search scanner (a ++ b) (byteLength a) = some m ↔
        ∃ x y, b = x ++ y ∧ MarkerAt scanner (a ++ x) y m ∧
          ∀ x' y' m', b = x' ++ y' → x'.length < x.length →
            ¬ MarkerAt scanner (a ++ x') y' m') ∧
      (nextMarker? search scanner (a ++ b) (byteLength a) = none ↔
        ∀ x y m, b = x ++ y → ¬ MarkerAt scanner (a ++ x) y m) ∧
      (∀ i, nextMarker? search scanner (a ++ b) (byteLength a) = some (.opened i) →
        byteLength a ≤ i ∧ IsBoundary (a ++ b) i ∧ IsBoundary (a ++ b) (i + 1) ∧
          IsBoundary (a ++ b) (i + byteLength scanner.opener)) ∧
      (∀ i, nextMarker? search scanner (a ++ b) (byteLength a) = some (.math i) →
        byteLength a < i ∧ IsBoundary (a ++ b) i)) ∧
    (∀ write text, renderMarked search .moodleBlocks (blockFormula .moodle) write text =
      some (assemble write (moodleSegments text), foundValues (moodleSegments text))) ∧
    (∀ write text, renderMarked search .wildcards bracedName write text =
      some (assemble write (wildcardSegments text), foundValues (wildcardSegments text))) ∧
    ∀ write text, renderMarked search .fpBlocks (blockFormula .fp) write text =
      some (assemble write (fpSegments text), foundValues (fpSegments text)) := by
  refine ⟨fun scanner a b => ?_, renderMarked_eq serves_moodleBlocks search,
    renderMarked_eq serves_wildcards search, renderMarked_eq serves_fpBlocks search⟩
  have hsome : ∀ m, nextMarker? search scanner (a ++ b) (byteLength a) = some m ↔
      ∃ x y, b = x ++ y ∧ MarkerAt scanner (a ++ x) y m ∧
        ∀ x' y' m', b = x' ++ y' → x'.length < x.length →
          ¬ MarkerAt scanner (a ++ x') y' m' := by
    intro m
    rw [nextMarker?_eq_firstMarker?, firstMarker?_eq_some_iff]
    constructor
    · rintro ⟨x, y, rfl, hbefore, hat⟩
      rw [← byteLength_append, ← markerAt_iff] at hat
      exact ⟨x, y, rfl, hat, (unmarkedBefore_iff_not_markerAt a x y).1 hbefore⟩
    · rintro ⟨x, y, rfl, hat, hbefore⟩
      rw [markerAt_iff, byteLength_append] at hat
      exact ⟨x, y, rfl, (unmarkedBefore_iff_not_markerAt a x y).2 hbefore, hat⟩
  have hnone : nextMarker? search scanner (a ++ b) (byteLength a) = none ↔
      ∀ x y m, b = x ++ y → ¬ MarkerAt scanner (a ++ x) y m := by
    rw [nextMarker?_eq_firstMarker?, firstMarker?_eq_none_iff,
      unmarkedBefore_nil_iff_not_markerAt a]
  refine ⟨hsome, hnone, fun i hi => ?_, fun i hi => ?_⟩
  · obtain ⟨x, y, rfl, hat, -⟩ := (hsome _).1 hi
    exact (isBoundary_of_markerAt hat).1 i rfl
  · obtain ⟨x, y, rfl, hat, -⟩ := (hsome _).1 hi
    exact (isBoundary_of_markerAt hat).2 i rfl

/-- A delimiter that is never closed, with a character of two bytes behind it, and one whose
only candidate for closing it overlaps with it. -/
theorem scanner_markers_unclosed :
    nextMarker? .plain .wildcards r"\( é {x}".toList 0 = some (.opened 6) ∧
      nextMarker? .plain .wildcards "$$$".toList 0 = none := by
  obtain ⟨hmarkers, -⟩ := scanner_markers .plain
  constructor
  · have hbefore : Scanner.wildcards.UnmarkedBefore r"\( é ".toList r"{x}".toList :=
      ⟨⟨by decide, by decide⟩, ⟨by decide, by decide⟩, ⟨by decide, by decide⟩,
        ⟨by decide, by decide⟩, ⟨by decide, by decide⟩, trivial⟩
    exact ((hmarkers .wildcards [] r"\( é {x}".toList).1 (.opened 6)).2
      ⟨r"\( é ".toList, r"{x}".toList, rfl, .opened ['x', '}'],
        (unmarkedBefore_iff_not_markerAt [] _ _).1 hbefore⟩
  · have hbefore : Scanner.wildcards.UnmarkedBefore "$$$".toList [] :=
      ⟨⟨by decide, by decide⟩, ⟨by decide, by decide⟩, ⟨by decide, by decide⟩, trivial⟩
    exact (hmarkers .wildcards [] "$$$".toList).2.1.2
      ((unmarkedBefore_nil_iff_not_markerAt [] _).1 hbefore)

end QuizFormula

import Mathlib.Data.List.Sort
import QuizFormula.Proofs.Session
import QuizFormula.Proofs.Translation.Carried

/-!
# The set of wildcards of a session

Going to Moodle, a translator keeps the names of the wildcards that it has met. They can be
told from the texts alone: they are the variables of the blocks that stand in the documents
of the session (`Translator.session_wildcards`). In which order the documents come does not
matter, since the names are kept in increasing order.
-/

namespace QuizFormula

/-- The wildcards of the accepted blocks of a document are the variables of the blocks that
stand in it. -/
theorem exists_mem_wildcards_iff (s n : Text) :
    (∃ e ∈ fpBlocks s, n ∈ Moodle.wildcards e) ↔
      n ≠ "pi".toList ∧ ∃ v, Dialect.fp.opener ++ v <:+: s ∧
        IsBlock .fp (Dialect.fp.opener ++ v) ∧ IsVariableIn n v := by
  have hnames : ∀ {e : Expr} {v : Text}, BlockAt .fp e (Dialect.fp.opener ++ v) [] →
      (n ∈ Moodle.wildcards e ↔ n ≠ "pi".toList ∧ IsVariableIn n v) := by
    intro e v h
    rw [← mem_variableNames_iff, Moodle.wildcards, ← h.wildcardNames_eq, List.mem_filter,
      decide_eq_true_eq, and_comm]
    rfl
  constructor
  · rintro ⟨e, he, hn⟩
    obtain ⟨u, hu, hblock, hdepth⟩ := (mem_fpBlocks_iff s e).1 he
    obtain ⟨v, rfl⟩ := hblock.opener_prefix
    obtain ⟨hpi, hvariable⟩ := (hnames hblock).1 hn
    exact ⟨hpi, v, hu, ⟨e, hblock, hdepth⟩, hvariable⟩
  · rintro ⟨hpi, v, hv, ⟨e, hblock, hdepth⟩, hn⟩
    exact ⟨e, (mem_fpBlocks_iff s e).2 ⟨_, hv, hblock, hdepth⟩, (hnames hblock).2 ⟨hpi, hn⟩⟩

namespace Translator

theorem job_session (t : Translator) (texts : List Text) : (t.session texts).2.job = t.job := by
  induction texts generalizing t with
  | nil => rfl
  | cons s texts ih => rw [session, ih, job_render]

/-- Going to Moodle, the names that are kept are those of the wildcards in accepted blocks. -/
theorem mem_names_session_toMoodle (texts : List Text) (n : Text) :
    n ∈ ((new .toMoodle).session texts).2.wildcards.names ↔
      ∃ s ∈ texts, ∃ e ∈ fpBlocks s, n ∈ Moodle.wildcards e := by
  have hblocks : ∀ s, (translateToMoodle s).wildcards = (fpBlocks s).flatMap Moodle.wildcards :=
    fun _ => rfl
  simp only [mem_wildcards_session, new, Job.translate, hblocks, Wildcards.names_empty,
    List.not_mem_nil, false_or, List.mem_flatMap]

theorem wildcardNames?_session_toMoodle (texts : List Text) :
    ((new .toMoodle).session texts).2.wildcardNames? =
      some ((new .toMoodle).session texts).2.wildcards.names := by
  rw [wildcardNames?, direction, job_session]
  rfl

/-- Names in increasing order are told by which names there are. -/
theorem names_session_perm {texts texts' : List Text} (h : texts.Perm texts') :
    ((new .toMoodle).session texts).2.wildcards.names =
      ((new .toMoodle).session texts').2.wildcards.names := by
  apply List.Pairwise.eq_of_mem_iff (Wildcards.increasing _) (Wildcards.increasing _)
  intro n
  simp only [mem_names_session_toMoodle, h.mem_iff]

/-- Going to Moodle, the wildcards after a session are, in increasing order, the variables
other than `pi` of the blocks that stand in its documents, and the order of the documents
does not matter. -/
theorem session_wildcards (texts : List Text) :
    ∃ names, ((new .toMoodle).session texts).2.wildcardNames? = some names ∧
      names.Pairwise (· < ·) ∧
      (∀ n, n ∈ names ↔ n ≠ "pi".toList ∧
        ∃ s ∈ texts, ∃ v, Dialect.fp.opener ++ v <:+: s ∧
          IsBlock .fp (Dialect.fp.opener ++ v) ∧ IsVariableIn n v) ∧
      ∀ texts', texts.Perm texts' →
        ((new .toMoodle).session texts').2.wildcardNames? = some names := by
  refine ⟨_, wildcardNames?_session_toMoodle texts, Wildcards.increasing _, ?_, ?_⟩
  · intro n
    rw [mem_names_session_toMoodle]
    simp only [exists_mem_wildcards_iff]
    constructor
    · rintro ⟨s, hs, hpi, h⟩
      exact ⟨hpi, s, hs, h⟩
    · rintro ⟨hpi, s, hs, h⟩
      exact ⟨s, hs, hpi, h⟩
  · intro texts' hperm
    rw [wildcardNames?_session_toMoodle, names_session_perm hperm]

/-- The first block has no end, and in it `fp` begins a block that has one. -/
example : ((new .toMoodle).session [r"y fp{x+fp{b_1*sin (a)+pi}".toList]).2.wildcardNames? =
    some ["a".toList, "b_1".toList] := by
  decide +kernel

/-! ### Wildcards and what is written -/

/-- Going to Moodle, the names that are kept are those that the written blocks refer to, and
those that stand in the arguments of `pi`. -/
theorem mem_names_session_iff (texts : List Text) (n : Text) :
    n ∈ ((new .toMoodle).session texts).2.wildcards.names ↔
      (∃ s ∈ texts, ∃ t ∈ Job.toMoodle.emitted s, n ∈ bracedNames t) ∨
      ∃ s ∈ texts, ∃ e ∈ Job.toMoodle.accepted s, n ∈ Job.toMoodle.carry e.underPi := by
  have hsplit : ∀ {s : Text} {e : Expr}, e ∈ fpBlocks s → (n ∈ Moodle.wildcards e ↔
      n ∈ bracedNames (Moodle.block e) ∨ n ∈ Job.toMoodle.carry e.underPi) := by
    intro s e he
    rw [← List.mem_append]
    exact (Job.toMoodle.referenceNames_append (wellFormed_of_mem_fpBlocks he)).mem_iff.symm
  rw [mem_names_session_toMoodle]
  constructor
  · rintro ⟨s, hs, e, he, hn⟩
    rcases (hsplit he).1 hn with hn | hn
    · exact .inl ⟨s, hs, _, List.mem_map_of_mem he, hn⟩
    · exact .inr ⟨s, hs, e, he, hn⟩
  · rintro (⟨s, hs, t, ht, hn⟩ | ⟨s, hs, e, he, hn⟩)
    · obtain ⟨e, he, rfl⟩ := List.mem_map.1 ht
      exact ⟨s, hs, e, he, (hsplit he).2 (.inl hn)⟩
    · exact ⟨s, hs, e, he, (hsplit he).2 (.inr hn)⟩

/-- The references in what is written for a block are those of the block, without those in
the arguments of `pi`. So going to Moodle, the wildcards after a session are those that the
blocks written in it refer to, and those that stand in the arguments of `pi`. -/
theorem references_carried (texts : List Text) :
    (∀ (j : Job) (v r : Text) (e : Expr),
      block? j.source (j.source.opener ++ (v ++ r)) = some (e, r) →
        (j.referenceNames (j.write e) ++ j.carry e.underPi).Perm
          (j.carry (j.source.wildcardNames v)) ∧
        ((j.referenceNames (j.write e)).Perm (j.carry (j.source.wildcardNames v)) ↔
          j.carry e.underPi = [])) ∧
    ∃ names, ((new .toMoodle).session texts).2.wildcardNames? = some names ∧
      ∀ n, n ∈ names ↔
        (∃ s ∈ texts, ∃ t ∈ Job.toMoodle.emitted s, IsName n ∧ '{' :: (n ++ ['}']) <:+: t) ∨
        ∃ s ∈ texts, ∃ e ∈ Job.toMoodle.accepted s, n ∈ Job.toMoodle.carry e.underPi := by
  constructor
  · intro j v r e h
    have hblock := ((block?_eq_some_iff _ _ _ _).1 h).1
    rw [← List.append_assoc, BlockAt.append_iff] at hblock
    rw [hblock.wildcardNames_eq]
    exact ⟨j.referenceNames_append hblock.wellFormed, j.referenceNames_perm_iff hblock.wellFormed⟩
  · refine ⟨_, wildcardNames?_session_toMoodle texts, ?_⟩
    simp only [← mem_bracedNames_iff]
    exact mem_names_session_iff texts

/-- Without an error, the variable in the arguments of `pi` is kept as a wildcard, and nothing
refers to it. -/
theorem reference_lost : ∃ e,
    block? .fp (Dialect.fp.opener ++ (r"pi(x)}".toList ++ [])) = some (e, []) ∧
    ((new .toMoodle).session [r"fp{pi(x)}".toList]).2.hasErrors = false ∧
    ¬ (Job.toMoodle.referenceNames (Job.toMoodle.write e)).Perm
      (Job.toMoodle.carry (Dialect.fp.wildcardNames r"pi(x)}".toList)) ∧
    ((new .toMoodle).session [r"fp{pi(x)}".toList]).2.wildcardNames? = some ["x".toList] ∧
    Job.toMoodle.emitted r"fp{pi(x)}".toList = [r"{=pi()}".toList] := by
  refine ⟨.last (.call "pi".toList (.cons (.last (.wildcard "x".toList)) .nil)), ?_⟩
  decide +kernel

end Translator

end QuizFormula

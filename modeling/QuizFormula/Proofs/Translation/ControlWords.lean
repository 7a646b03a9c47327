import QuizFormula.Proofs.Translation.Carried
import QuizFormula.Proofs.Translation.Reports

/-!
# Control words

TeX reads a backslash and the letters after it as one control word. In what is written for
`fp`, the operands of a formula are control words: a wildcard is its name without underscores
up to the first digit, and pi is a word of its own. So wildcards that differ in underscores
alone are the same operand, and a wildcard can be the operand for pi or the macro of the
result (`controlWords_operands`, `operands_collide`).
-/

namespace QuizFormula

/-- The control words in a text, where `escaped` says whether a backslash stands before it.
With any other character than a letter the backslash is a control symbol. -/
def controlWordsAfter : Bool → Text → List Text
  | _, [] => []
  | false, c :: t => controlWordsAfter (c = '\\') t
  | true, c :: t =>
    if c.isAlpha then (c :: t.takeWhile Char.isAlpha) :: controlWordsAfter false t
    else controlWordsAfter false t

def controlWords : Text → List Text := controlWordsAfter false

theorem controlWords_cons_of_ne {c : Char} (t : Text) (hc : c ≠ '\\') :
    controlWords (c :: t) = controlWords t :=
  congrArg (controlWordsAfter · t) (decide_eq_false hc)

/-- References by control words. -/
def References.controlWords : References where
  mark := '\\'
  isPart := Char.isAlpha
  names := QuizFormula.controlWords
  names_nil := rfl
  names_cons := controlWords_cons_of_ne
  separator := forall_mem_separators (by decide)

/-- A word begins with a letter, goes on to the next character that is none, and what comes
then is read by itself. -/
theorem controlWords_backslash {w t : Text} (hne : w ≠ []) (hw : ∀ c ∈ w, c.isAlpha = true)
    (ht : Stops Char.isAlpha t) : controlWords ('\\' :: (w ++ t)) = w :: controlWords t := by
  obtain ⟨c, w, rfl⟩ := List.exists_cons_of_ne_nil hne
  obtain ⟨hc, hw⟩ := List.forall_mem_cons.1 hw
  have hslash : '\\' ∉ w := fun h => absurd (hw _ h) (by decide)
  change (if c.isAlpha then (c :: (w ++ t).takeWhile Char.isAlpha) :: controlWords (w ++ t)
    else controlWords (w ++ t)) = _
  rw [if_pos hc, takeWhile_append_of_stops hw ht]
  exact congrArg _ (References.names_append (F := .controlWords) hslash t)

/-- The backslash after `out` makes a control symbol with the one after it. -/
example : controlWords r"\out\\a \x1+\FPpi".toList =
    ["out", "x", "FPpi"].map String.toList := by
  decide

/-- The control word of a wildcard, as TeX reads its macro. -/
def texWord (n : Text) : Text := (texName n).takeWhile Char.isAlpha

theorem texWord_of_isTexName {n : Text} (h : isTexName (texName n) = true) :
    texWord n = texName n :=
  List.takeWhile_eq_self_iff.2 (List.all_eq_true.1 h)

theorem texWord_ne_nil {n : Text} (hn : IsName n) : texWord n ≠ [] := by
  obtain ⟨c, t, rfl, hc, -⟩ := hn
  have hne : c ≠ '_' := by
    rintro rfl
    exact absurd hc (by decide)
  simp [texWord, texName, hne, hc]

namespace Fp

theorem hasControlWords_texMacro {n : Text} (hn : IsName n) :
    References.controlWords.HasNames (texMacro n) [texWord n] := by
  intro r _
  have hsplit : texMacro n ++ r =
      '\\' :: (texWord n ++ ((texName n).dropWhile Char.isAlpha ++ ' ' :: r)) := by
    rw [texMacro, texWord, ← List.append_assoc (List.takeWhile _ _),
      List.takeWhile_append_dropWhile]
    simp
  have hslash : '\\' ∉ (texName n).dropWhile Char.isAlpha := by
    intro h
    exact (isMacroName_texName hn).not_mem (by decide) ((List.dropWhile_sublist _).mem h)
  have hstops : Stops Char.isAlpha ((texName n).dropWhile Char.isAlpha ++ ' ' :: r) := by
    apply (stops_dropWhile _ _).append
    rw [stops_cons]
    decide
  rw [hsplit]
  change (controlWords _).Perm _
  rw [controlWords_backslash (texWord_ne_nil hn) (fun c hc => List.mem_takeWhile_imp hc) hstops]
  exact .of_eq (congrArg _ (References.names_append (F := .controlWords) hslash _))

theorem controlWords_texMacro {n : Text} (hn : IsName n) :
    controlWords (texMacro n) = [texWord n] :=
  List.perm_singleton.1 (hasControlWords_texMacro hn).names_perm

theorem hasControlWords_pi : References.controlWords.HasNames pi [piMacro] := by
  intro r hr
  have hletters : piMacro.all Char.isAlpha = true := by decide
  exact .of_eq (controlWords_backslash (by decide) (List.all_eq_true.1 hletters) hr)

/-- The control words of the operands of a formula. -/
def operandSurvey : Survey Text where
  number _ := []
  wildcard n := [texWord n]
  call n _ := if n = "pi".toList then [piMacro] else []

theorem finds_controlWords (precision : Nat) :
    References.controlWords.Finds (rendering precision) operandSurvey
      (fun n args => n = "pi".toList → args.length = 0) := by
  apply finds_of_mark rfl
  · exact fun _ => rfl
  · exact fun n hn => hasControlWords_texMacro hn
  · exact hasControlWords_pi
  · exact fun n arity hn => if_neg hn

/-- What is written for a block has the control words of its operands, of those that print
and evaluate, and twice that of the result. -/
theorem controlWords_block_perm (precision : Nat) {e : Expr} (he : e.WellFormed) :
    (controlWords (block precision e)).Perm
      (["FPprint", "FPeval", "out", "out"].map String.toList ++
        (e.rewrite constantPi).survey operandSurvey) := by
  have hopening : ∀ t, controlWords (blockOpening ++ t) =
      ["FPprint", "FPeval", "out"].map String.toList ++ controlWords t := fun _ => rfl
  have hclosing : controlWords blockClosing = ["out"].map String.toList := rfl
  have hstops : Stops Char.isAlpha blockClosing := (stops_cons _ ')' _).2 (by decide)
  have hrender := (finds_controlWords precision).hasNames he.rewrite_constantPi
    (fun c hc => length_of_mem_calls_constantPi he hc) blockClosing hstops
  rw [render_constantPi (fun _ => rfl) he] at hrender
  change (controlWords (e.render (rendering precision) ++ blockClosing)).Perm
    (_ ++ controlWords blockClosing) at hrender
  rw [hclosing] at hrender
  rw [block, hopening]
  exact (hrender.trans (List.perm_append_singleton _ _)).append_left _

theorem controlWords_standalone {n : Text} (hn : IsName n) :
    controlWords (standalone n) = ["FPprint".toList, texWord n] := by
  have hopening : ∀ t, controlWords (r"\FPprint{".toList ++ t) =
      "FPprint".toList :: controlWords t := fun _ => rfl
  have hstops : Stops Char.isAlpha ['}'] := (stops_cons _ _ _).2 (by decide)
  have hread : controlWords (texMacro n ++ ['}']) = [texWord n] :=
    List.perm_singleton.1 (hasControlWords_texMacro hn ['}'] hstops)
  have hwhole : controlWords (standalone n) =
      "FPprint".toList :: controlWords (texMacro n ++ ['}']) := hopening _
  rw [hwhole, hread]

end Fp

/-! ### The operands of a document -/

/-- The names of the wildcards of a Moodle document, in its blocks and outside of them. -/
def moodleVariables (s : Text) : List Text :=
  (moodleBlocks s).flatMap (Expr.survey wildcardSurvey) ++ looseWildcards s

theorem isName_of_mem_moodleVariables {s n : Text} (h : n ∈ moodleVariables s) : IsName n := by
  rcases List.mem_append.1 h with h | h
  · obtain ⟨e, he, hn⟩ := List.mem_flatMap.1 h
    exact (wellFormed_of_mem_moodleBlocks he).isName_of_mem_survey n hn
  · exact isName_of_mem_looseWildcards h

/-- Every variable whose macro is no TeX name is reported. -/
theorem naming_mem_diagnostics (o : Options) {s n : Text} (hn : n ∈ moodleVariables s)
    (h : isTexName (texName n) = false) :
    .naming (texName n) ∈ (translateToFp o s).diagnostics := by
  have hreport : .naming (texName n) ∈ namingReport n := (mem_namingReport_iff n _).2 ⟨h, rfl⟩
  rw [translateToFp_eq]
  rcases List.mem_append.1 hn with hn | hn
  · obtain ⟨e, he, hn⟩ := List.mem_flatMap.1 hn
    have hsurvey := Expr.mem_survey_of_mem_wildcards (v := Fp.report o.overflowLimit) hreport
      (wellFormed_of_mem_moodleBlocks he) hn
    exact List.mem_append_left _ (List.mem_flatMap.2 ⟨e, he, hsurvey⟩)
  · exact List.mem_append_right _ (List.mem_flatMap.2 ⟨n, hn, hreport⟩)

/-- If no name of a variable is reported, TeX reads each variable as one control word, its name
without underscores. Two variables are the same word exactly if these names are the same; a
variable is the word for pi exactly if this name is `FPpi`, and that of the result exactly if
it is `out`. The words in each written block are those of its operands and the ones that
print, evaluate and name the result, and besides printing there is only the variable in what
is written for it outside of blocks. -/
theorem controlWords_operands (o : Options) {s : Text}
    (hnaming : ∀ d ∈ (translateToFp o s).diagnostics, d.kind ≠ .variableNaming) :
    (∀ n ∈ moodleVariables s,
      texWord n = texName n ∧ controlWords (texMacro n) = [texWord n] ∧
      (∀ m ∈ moodleVariables s,
        controlWords (texMacro n) = controlWords (texMacro m) ↔ texName n = texName m) ∧
      (controlWords (texMacro n) = controlWords Fp.pi ↔ texName n = piMacro) ∧
      (controlWords (texMacro n) = ["out".toList] ↔ texName n = "out".toList)) ∧
    (∀ e ∈ moodleBlocks s,
      Fp.block o.fixedPrecision e <:+: (translateToFp o s).text ∧
      (controlWords (Fp.block o.fixedPrecision e)).Perm
        (["FPprint", "FPeval", "out", "out"].map String.toList ++
          (e.rewrite constantPi).survey Fp.operandSurvey)) ∧
    ∀ n ∈ looseWildcards s,
      Fp.standalone n <:+: (translateToFp o s).text ∧
      controlWords (Fp.standalone n) = ["FPprint".toList, texWord n] := by
  have hword : ∀ n ∈ moodleVariables s, texWord n = texName n := by
    intro n hn
    apply texWord_of_isTexName
    by_contra hreported
    exact hnaming _ (naming_mem_diagnostics o hn (Bool.eq_false_iff.2 hreported)) rfl
  have hread : ∀ n ∈ moodleVariables s, controlWords (texMacro n) = [texWord n] :=
    fun n hn => Fp.controlWords_texMacro (isName_of_mem_moodleVariables hn)
  have hpi : controlWords Fp.pi = [piMacro] := rfl
  refine ⟨?_, ?_, ?_⟩
  · intro n hn
    refine ⟨hword n hn, hread n hn, ?_, ?_, ?_⟩
    · intro m hm
      rw [hread n hn, hread m hm, hword n hn, hword m hm, List.singleton_inj]
    · rw [hread n hn, hword n hn, hpi, List.singleton_inj]
    · rw [hread n hn, hword n hn, List.singleton_inj]
  · intro e he
    exact ⟨infix_of_mem_scan o ((mem_moodleBlocks_iff s e).1 he),
      Fp.controlWords_block_perm _ (wellFormed_of_mem_moodleBlocks he)⟩
  · intro n hn
    exact ⟨infix_of_mem_scan o ((mem_looseWildcards_iff s n).1 hn),
      Fp.controlWords_standalone (isName_of_mem_looseWildcards hn)⟩

theorem controlWords_operands_pi :
    (∀ d ∈ (translateToFp .default r"{={a_b}-pi()} {c}".toList).diagnostics,
      d.kind ≠ .variableNaming) ∧
    "a_b".toList ∈ moodleVariables r"{={a_b}-pi()} {c}".toList ∧
    (controlWords (texMacro "a_b".toList) = controlWords Fp.pi ↔
      texName "a_b".toList = piMacro) := by
  have hnaming : ∀ d ∈ (translateToFp .default
      r"{={a_b}-pi()} {c}".toList).diagnostics, d.kind ≠ .variableNaming := by
    decide +kernel
  have hn : "a_b".toList ∈ moodleVariables r"{={a_b}-pi()} {c}".toList := by
    decide +kernel
  exact ⟨hnaming, hn, ((controlWords_operands .default hnaming).1 _ hn).2.2.2.1⟩

/-- Nothing is reported, and yet two variables are one operand, a variable is pi, and a
variable is the result. -/
theorem operands_collide :
    ((translateToFp .default r"{={a_b}-{ab}}".toList).diagnostics = [] ∧
      "a_b".toList ∈ moodleVariables r"{={a_b}-{ab}}".toList ∧
      "ab".toList ∈ moodleVariables r"{={a_b}-{ab}}".toList ∧
      controlWords (texMacro "a_b".toList) = controlWords (texMacro "ab".toList)) ∧
    ((translateToFp .default r"{={FPpi}-pi()}".toList).diagnostics = [] ∧
      "FPpi".toList ∈ moodleVariables r"{={FPpi}-pi()}".toList ∧
      controlWords (texMacro "FPpi".toList) = controlWords Fp.pi) ∧
    (translateToFp .default r"{={out}+1}".toList).diagnostics = [] ∧
      "out".toList ∈ moodleVariables r"{={out}+1}".toList ∧
      controlWords (texMacro "out".toList) = ["out".toList] := by
  decide +kernel

end QuizFormula

import QuizFormula.Proofs.Document.Reported

/-!
# Sessions

In a session documents are rendered one after the other by one translator. What a step
adds to the memory of the translator and to the log is what the contents of its document
give rise to, whatever has been met before. So what a session adds are the contributions
of its documents, in their order (`Translator.session_reports`).
-/

namespace QuizFormula

/-- The entry of the log is there for the diagnostic, at the level of its severity. -/
structure LogEvent.Records (v : LogEvent) (x : Diagnostic) : Prop where
  level : v.level = if x.isError then "ERROR".toList else "WARN".toList
  target : v.target = logTarget
  kind : v.kind = x.kind
  message : v.message = x.message

theorem Diagnostic.records_event (x : Diagnostic) : x.event.Records x where
  level := by cases x <;> rfl
  target := rfl
  kind := rfl
  message := rfl

theorem Diagnostic.forall₂_records (l : List Diagnostic) :
    List.Forall₂ LogEvent.Records (l.map Diagnostic.event) l := by
  rw [List.forall₂_map_left_iff, List.forall₂_same]
  exact fun x _ => x.records_event

namespace Translator

/-- What rendering the documents one after the other yields, and the translator
afterwards. -/
def session (t : Translator) : List Text → List Rendered × Translator
  | [] => ([], t)
  | s :: texts =>
    let x := t.render s
    let y := x.2.session texts
    (x.1 :: y.1, y.2)

/-! ### What a session adds -/

theorem texts_session (t : Translator) (texts : List Text) :
    (t.session texts).1.map Rendered.text =
      texts.map fun s => (t.job.translate s).text := by
  induction texts generalizing t with
  | nil => rfl
  | cons s texts ih => rw [session, List.map_cons, ih, job_render, List.map_cons, text_render]

theorem logs_session (t : Translator) (texts : List Text) :
    (t.session texts).1.map Rendered.log =
      texts.map fun s => (t.job.translate s).diagnostics.map Diagnostic.event := by
  induction texts generalizing t with
  | nil => rfl
  | cons s texts ih => rw [session, List.map_cons, ih, job_render, List.map_cons, render]

theorem diagnostics_session (t : Translator) (texts : List Text) :
    (t.session texts).2.diagnostics =
      t.diagnostics ++ texts.flatMap fun s => (t.job.translate s).diagnostics := by
  induction texts generalizing t with
  | nil => exact (List.append_nil _).symm
  | cons s texts ih =>
      rw [session, ih, job_render, diagnostics_render, List.flatMap_cons, List.append_assoc]

theorem mem_wildcards_session (t : Translator) (texts : List Text) (n : Text) :
    n ∈ (t.session texts).2.wildcards.names ↔
      n ∈ t.wildcards.names ∨ n ∈ texts.flatMap fun s => (t.job.translate s).wildcards := by
  induction texts generalizing t with
  | nil => simp [session]
  | cons s texts ih =>
      rw [session, ih, job_render, mem_wildcards_render, or_assoc, List.flatMap_cons,
        List.mem_append]

/-- The session adds what the contents of its documents give rise to: behind the
diagnostics from before come those of each document, and each rendering logs its own;
wildcards are added as the contents have them. -/
structure Adds (t : Translator) (texts : List Text) (found : List Contents) : Prop where
  diagnostics : (t.session texts).2.diagnostics =
    t.diagnostics ++ found.flatMap (Contents.diagnostics t.job)
  logs : List.Forall₂ (fun x c => List.Forall₂ LogEvent.Records x.log (c.diagnostics t.job))
    (t.session texts).1 found
  wildcards : ∀ n, n ∈ (t.session texts).2.wildcards.names ↔
    n ∈ t.wildcards.names ∨ n ∈ found.flatMap (Contents.wildcards t.job)

theorem map_eq_of_forall₂ {α β γ : Type} {R : α → β → Prop} {f : α → γ} {g : β → γ}
    {as : List α} {bs : List β} (h : List.Forall₂ R as bs) (hfg : ∀ a b, R a b → f a = g b) :
    as.map f = bs.map g := by
  induction h with
  | nil => rfl
  | cons h _ ih => rw [List.map_cons, List.map_cons, hfg _ _ h, ih]

theorem adds_of_hasContents (t : Translator) {texts : List Text} {found : List Contents}
    (h : List.Forall₂ (HasContents t.job.source) texts found) : t.Adds texts found := by
  have hdiagnostics : (texts.map fun s => (t.job.translate s).diagnostics) =
      found.map (Contents.diagnostics t.job) :=
    map_eq_of_forall₂ h fun _ _ hc => diagnostics_translate hc
  have hwildcards : (texts.map fun s => (t.job.translate s).wildcards) =
      found.map (Contents.wildcards t.job) :=
    map_eq_of_forall₂ h fun _ _ hc => wildcards_translate hc
  have hlogs : List.Forall₂ (List.Forall₂ LogEvent.Records)
      ((t.session texts).1.map Rendered.log) (found.map (Contents.diagnostics t.job)) := by
    rw [logs_session, ← hdiagnostics, List.forall₂_map_left_iff, List.forall₂_map_right_iff,
      List.forall₂_same]
    exact fun s _ => Diagnostic.forall₂_records _
  refine ⟨?_, ?_, ?_⟩
  · rw [diagnostics_session, List.flatMap, hdiagnostics, List.flatMap]
  · exact List.forall₂_map_right_iff.1 (List.forall₂_map_left_iff.1 hlogs)
  · intro n
    rw [mem_wildcards_session, List.flatMap, hwildcards, List.flatMap]

/-- A block that is opened and not accepted adds nothing to the memory and to the log. -/
theorem render_of_refused (t : Translator) {s : Text} (h : Refused t.job.source s) :
    (t.render s).2 = (t.render s.tail).2 ∧ (t.render s).1.log = (t.render s.tail).1.log := by
  obtain ⟨c, hc⟩ := HasContents.exists t.job.source s
  have htail := hc.of_refused h
  have hdiagnostics := (diagnostics_translate hc).trans (diagnostics_translate htail).symm
  have hwildcards := (wildcards_translate hc).trans (wildcards_translate htail).symm
  rw [render, render, remember, remember, hdiagnostics, hwildcards]
  exact ⟨rfl, rfl⟩

theorem exists_found (d : Dialect) (texts : List Text) :
    ∃ found, List.Forall₂ (HasContents d) texts found := by
  induction texts with
  | nil => exact ⟨[], .nil⟩
  | cons s texts ih =>
      obtain ⟨found, hfound⟩ := ih
      obtain ⟨c, hc⟩ := HasContents.exists d s
      exact ⟨c :: found, .cons hc hfound⟩

/-- The documents of a session have their contents in exactly one way and in the order of
their texts, and the session adds what these contents give rise to. A block that is opened
and not accepted leaves no trace: had its document begun one character later, the same
would be remembered and logged. -/
theorem session_reports (t : Translator) (texts : List Text) :
    (∃ found : List Contents,
      (∀ other, List.Forall₂ (HasContents t.job.source) texts other ↔ other = found) ∧
      List.Forall₂ (fun s c => InOrder s [] c.inBlocks ∧ InOrder s [] c.outside) texts found ∧
      t.Adds texts found) ∧
    ∀ s, Refused t.job.source s →
      (t.render s).2 = (t.render s.tail).2 ∧ (t.render s).1.log = (t.render s.tail).1.log := by
  refine ⟨?_, fun s => t.render_of_refused⟩
  obtain ⟨found, hfound⟩ := exists_found t.job.source texts
  refine ⟨found, ?_, hfound.imp fun _ _ h => h.inOrder, t.adds_of_hasContents hfound⟩
  intro other
  constructor
  · exact fun h => HasContents.rightUnique.forall₂ h hfound
  · rintro rfl
    exact hfound

/-- Where the brace is missing the block has read an unsupported call and a variable. -/
theorem session_reports_unclosed :
    Refused .moodle r"{=floor(1)+{x1}".toList ∧
      ((new (.toFp .default)).render r"{=floor(1)+{x1}".toList).2 =
        ((new (.toFp .default)).render r"{=floor(1)+{x1}".toList.tail).2 ∧
      ((new (.toFp .default)).render r"{=floor(1)+{x1}".toList).1.log =
        ((new (.toFp .default)).render r"{=floor(1)+{x1}".toList.tail).1.log := by
  have hrefused : Refused .moodle r"{=floor(1)+{x1}".toList := by decide +kernel
  exact ⟨hrefused, (session_reports (new (.toFp .default)) []).2 _ hrefused⟩

/-- Nothing is said of `floor`, and `x1` is the wildcard that is left outside of blocks. In
the same block with its brace both are reported. -/
example :
    ((new (.toFp .default)).render r"{=floor(1)+{x1}".toList).1.log =
      [Diagnostic.event (.naming "x1".toList)] ∧
    ((new (.toFp .default)).render r"{=floor(1)+{x1}}".toList).1.log =
      [Diagnostic.event (.unsupported "floor".toList .fp),
        Diagnostic.event (.naming "x1".toList)] := by
  decide +kernel

end Translator

end QuizFormula

import QuizFormula.Document.Translation
import QuizFormula.Wildcards

/-!
# Translators

A translator goes in one direction and remembers what it has met: every diagnostic
in order, and, going to Moodle, every wildcard once. Rendering a document yields the
translated text, the entries of the log, which are the new diagnostics, and the
translator with its longer memory. A translator is made for a direction with valid
options, or for a registered name with the default ones.
-/

namespace QuizFormula

/-- What a translator does. Only the direction to `fp` has options. -/
inductive Job where
  | toFp (options : Options)
  | toMoodle
deriving DecidableEq, Repr

namespace Job

def ofDirection (d : Direction) (o : Options) : Job :=
  match d with
  | .toFp => toFp o
  | .toMoodle => toMoodle

def direction : Job → Direction
  | toFp _ => .toFp
  | toMoodle => .toMoodle

def options? : Job → Option Options
  | toFp o => some o
  | toMoodle => none

def translate : Job → Text → Outcome
  | toFp o => translateToFp o
  | toMoodle => translateToMoodle

end Job

/-- A job and what has been met so far. -/
structure Translator where
  job : Job
  diagnostics : List Diagnostic
  wildcards : Wildcards

/-- What rendering a document yields. -/
structure Rendered where
  text : Text
  log : List LogEvent

namespace Translator

/-- The translator for a job that has met nothing yet. -/
def new (job : Job) : Translator := ⟨job, [], .empty⟩

/-- The translator for a direction with the default options. -/
def ofDirection (d : Direction) : Translator := new (.ofDirection d .default)

/-- The translator registered under a name, with the default options. -/
def ofName (s : Text) : Except Error Translator := (Direction.ofName s).map ofDirection

/-- The translator for a direction with the given options, which are checked for
either direction. -/
def withOptions (d : Direction) (o : Options) : Except Error Translator :=
  match o.check with
  | .error e => .error e
  | .ok () => .ok (new (.ofDirection d o))

def direction (t : Translator) : Direction := t.job.direction

def options? (t : Translator) : Option Options := t.job.options?

/-- The names of the wildcards so far. Only the direction to Moodle keeps them. -/
def wildcardNames? (t : Translator) : Option (List Text) :=
  match t.direction with
  | .toFp => none
  | .toMoodle => some t.wildcards.names

def hasErrors (t : Translator) : Bool := t.diagnostics.any Diagnostic.isError

/-- The translator after an outcome is added to its memory. -/
def remember (t : Translator) (x : Outcome) : Translator :=
  { t with
    diagnostics := t.diagnostics ++ x.diagnostics
    wildcards := t.wildcards.insertAll x.wildcards }

/-- The translation of a document, and the translator afterwards. -/
def render (t : Translator) (s : Text) : Rendered × Translator :=
  let x := t.job.translate s
  (⟨x.text, x.diagnostics.map Diagnostic.event⟩, t.remember x)

@[simp] theorem job_render (t : Translator) (s : Text) : (t.render s).2.job = t.job := rfl

theorem text_render (t : Translator) (s : Text) :
    (t.render s).1.text = (t.job.translate s).text := rfl

theorem diagnostics_render (t : Translator) (s : Text) :
    (t.render s).2.diagnostics = t.diagnostics ++ (t.job.translate s).diagnostics := rfl

theorem mem_wildcards_render (t : Translator) (s n : Text) :
    n ∈ (t.render s).2.wildcards.names ↔
      n ∈ t.wildcards.names ∨ n ∈ (t.job.translate s).wildcards :=
  Wildcards.mem_insertAll n t.wildcards _

end Translator

end QuizFormula

import QuizFormula.Document.Block
import QuizFormula.Document.Math
import QuizFormula.Target.Fp
import QuizFormula.Target.Moodle

/-!
# Translating documents

Going to `fp`, the blocks of a Moodle document are translated first and the
wildcards outside blocks after that, with math left alone both times. Going to
Moodle, the `fp` blocks are translated wherever they stand, in math as well. What is
no block stays as it is, character by character.

The outcome of a translation is the new text, what is to be reported, and which
wildcards are used. Reports come in the order of the blocks, and after them those on
wildcards outside blocks.
-/

namespace QuizFormula

/-- What a translation of a document yields. -/
structure Outcome where
  text : Text
  diagnostics : List Diagnostic
  /-- The wildcards that need values, as often as they are met. -/
  wildcards : List Text

/-- The blocks of a Moodle document outside math. -/
def moodleSegments (s : Text) : List (Segment Expr) :=
  segments ((math Expr).orElse (block .moodle)) s

/-- The wildcards in braces outside math. -/
def wildcardSegments (s : Text) : List (Segment Text) :=
  segments ((math Text).orElse bracedWildcard) s

def fpSegments (s : Text) : List (Segment Expr) := segments (block .fp) s

/-- A Moodle document with its blocks translated to `fp`. -/
def translateBlocks (precision : Nat) (s : Text) : Text :=
  assemble (Fp.block precision) (moodleSegments s)

/-- The translation of a Moodle document to `fp`. -/
def translateToFp (o : Options) (s : Text) : Outcome :=
  let wildcards := wildcardSegments (translateBlocks o.fixedPrecision s)
  { text := assemble Fp.standalone wildcards
    diagnostics :=
      (foundValues (moodleSegments s)).flatMap (Expr.survey (Fp.report o.overflowLimit)) ++
        (foundValues wildcards).flatMap namingReport
    wildcards := [] }

/-- The translation of a document with `fp` formulas to Moodle. -/
def translateToMoodle (s : Text) : Outcome :=
  { text := assemble Moodle.block (fpSegments s)
    diagnostics := (foundValues (fpSegments s)).flatMap (Expr.survey Moodle.report)
    wildcards := (foundValues (fpSegments s)).flatMap Moodle.wildcards }

end QuizFormula

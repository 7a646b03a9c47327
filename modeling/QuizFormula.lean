import QuizFormula.Label.Basic
import QuizFormula.Translator
import QuizFormula.Proofs.Grammar.Numeral
import QuizFormula.Proofs.Grammar.Rules
import QuizFormula.Proofs.Grammar.Reading
import QuizFormula.Proofs.Grammar.Block
import QuizFormula.Proofs.Grammar.Plain
import QuizFormula.Proofs.Grammar.WellFormed
import QuizFormula.Proofs.Document.Math
import QuizFormula.Proofs.Document.Inert
import QuizFormula.Proofs.Document.OnePass
import QuizFormula.Proofs.Grammar.Phrase
import QuizFormula.Proofs.Meaning.Value
import QuizFormula.Proofs.Translation.Rewriting
import QuizFormula.Proofs.Translation.ToFp
import QuizFormula.Proofs.Meaning.Literal
import QuizFormula.Proofs.Translation.Degree
import QuizFormula.Proofs.Translation.ToMoodle
import QuizFormula.Proofs.Grammar.Induction
import QuizFormula.Proofs.Translation.Writing
import QuizFormula.Proofs.Document.Contents
import QuizFormula.Proofs.Translation.MoodleRoundTrip
import QuizFormula.Proofs.Translation.References
import QuizFormula.Proofs.Translation.FpRoundTrip
import QuizFormula.Proofs.Document.Copies
import QuizFormula.Proofs.Translation.Composed
import QuizFormula.Proofs.Grammar.Characters
import QuizFormula.Proofs.Document.Openers
import QuizFormula.Proofs.Document.Settled
import QuizFormula.Proofs.Document.Reported
import QuizFormula.Proofs.Session
import QuizFormula.Proofs.Grammar.Words
import QuizFormula.Proofs.Grammar.Wildcards
import QuizFormula.Proofs.Grammar.Commas
import QuizFormula.Proofs.Document.Accepted
import QuizFormula.Proofs.Translation.Constants
import QuizFormula.Proofs.Translation.Carried
import QuizFormula.Proofs.Translation.FunctionNames
import QuizFormula.Proofs.Translation.Evaluated
import QuizFormula.Proofs.Session.WildcardSet
import QuizFormula.Proofs.Session.Errors
import QuizFormula.Proofs.Document.Divided
import QuizFormula.Proofs.Session.Options
import QuizFormula.Proofs.Translation.Nesting
import QuizFormula.Proofs.Translation.ControlWords
import QuizFormula.Proofs.Meaning.Beyond
import QuizFormula.Proofs.Meaning.Exact
import QuizFormula.Proofs.Document.Respaced
import QuizFormula.Proofs.Translation.Overflow
import QuizFormula.Proofs.Translation.Roots
import QuizFormula.Proofs.Session.Exponents
import QuizFormula.Proofs.Meaning.PlainLength
import QuizFormula.Proofs.Meaning.Printed
import QuizFormula.Proofs.Label.Runs
import QuizFormula.Proofs.Label.Encoding
import QuizFormula.Proofs.Document.Marked
import QuizFormula.Proofs.Session.Checks

import QuizFormula.Dialect

/-!
# Diagnostics

What cannot be carried over cleanly from one dialect to the other is reported, and
the translation goes on. A diagnostic is its cause; its kind, its severity and its
wording follow from the cause. Numbers and names are warned about, functions that
the target does not have are errors.
-/

namespace QuizFormula

inductive Severity where
  | warning
  | error
deriving DecidableEq, Repr

namespace Severity

def label : Severity → Text
  | warning => "Warning".toList
  | error => "Error".toList

/-- The level at which a severity is logged. -/
def level : Severity → Text
  | warning => "WARN".toList
  | error => "ERROR".toList

end Severity

/-- The kinds of diagnostics. -/
inductive DiagnosticKind where
  /-- A literal is out of the range of `fp`. -/
  | numericOverflow
  /-- The name of a variable is no TeX name. -/
  | variableNaming
  /-- A function exists in one dialect and not in the other. -/
  | unsupportedFunctionKnown
  /-- A function is not known at all. -/
  | unsupportedFunctionUnknown
deriving DecidableEq, Repr

namespace DiagnosticKind

def all : List DiagnosticKind :=
  [numericOverflow, variableNaming, unsupportedFunctionKnown, unsupportedFunctionUnknown]

def label : DiagnosticKind → Text
  | numericOverflow => "NumericOverflow".toList
  | variableNaming => "VariableNaming".toList
  | unsupportedFunctionKnown => "UnsupportedFunctionKnown".toList
  | unsupportedFunctionUnknown => "UnsupportedFunctionUnknown".toList

def severity : DiagnosticKind → Severity
  | numericOverflow => .warning
  | variableNaming => .warning
  | unsupportedFunctionKnown => .error
  | unsupportedFunctionUnknown => .error

def isError (k : DiagnosticKind) : Bool := k.severity = .error

/-- A message of the kind as it is shown to the user. -/
def display (k : DiagnosticKind) (message : Text) : Text :=
  k.severity.label ++ ": ".toList ++ message

end DiagnosticKind

/-- A problem met while a document is translated. -/
inductive Diagnostic where
  | overflow (literal : Text)
  | naming (name : Text)
  /-- The target lacks the function, and is known to lack it. -/
  | unsupported (name : Text) (target : Dialect)
  | unknown (name : Text)
deriving DecidableEq, Repr

namespace Diagnostic

def kind : Diagnostic → DiagnosticKind
  | overflow _ => .numericOverflow
  | naming _ => .variableNaming
  | unsupported _ _ => .unsupportedFunctionKnown
  | unknown _ => .unsupportedFunctionUnknown

def message : Diagnostic → Text
  | overflow literal =>
    "this number ".toList ++ literal ++ " will lead to overflow in FP".toList
  | naming name =>
    "the variable '".toList ++ name ++
      ("' is not compatible with LaTeX naming convention. " ++
        "You will need to change this name in your tex file.").toList
  | unsupported name target =>
    "Unsupported *function* '".toList ++ name ++ "' by ".toList ++ target.evaluator ++
      " in the expression.".toList
  | unknown name =>
    "Unsupported *function* '".toList ++ name ++ "' in the expression.".toList

def severity (d : Diagnostic) : Severity := d.kind.severity

def isError (d : Diagnostic) : Bool := d.kind.isError

end Diagnostic

/-- An entry of the log. -/
structure LogEvent where
  level : Text
  target : Text
  kind : DiagnosticKind
  message : Text
deriving DecidableEq, Repr

/-- The log target of every diagnostic. -/
def logTarget : Text := "quizconv::calculated".toList

def Diagnostic.event (d : Diagnostic) : LogEvent :=
  ⟨d.severity.level, logTarget, d.kind, d.message⟩

end QuizFormula

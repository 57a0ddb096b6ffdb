import Woof.Location

namespace Woof

/-- What can be wrong with a text. -/
inductive Fault where
  | applicationMissingOperator
  | applicationMissingClose
  | defineMissingSymbol
  | defineMissingForm
  | defineMissingClose
  | lambdaMissingParameters
  | lambdaDuplicateParameters
  | lambdaMissingParametersClose
  | lambdaMissingBody
  | lambdaMissingClose
  | specialUnparseable
  | unparsedInput
  | nestingTooDeep
deriving DecidableEq, Repr

namespace Fault

def all : List Fault :=
  [applicationMissingOperator, applicationMissingClose, defineMissingSymbol, defineMissingForm,
    defineMissingClose, lambdaMissingParameters, lambdaDuplicateParameters,
    lambdaMissingParametersClose, lambdaMissingBody, lambdaMissingClose, specialUnparseable,
    unparsedInput, nestingTooDeep]

/-- The name a fault is listed under. -/
def label : Fault → String
  | applicationMissingOperator => "APPLICATION_MISSING_OPERATOR"
  | applicationMissingClose => "APPLICATION_MISSING_CLOSE"
  | defineMissingSymbol => "DEFINE_MISSING_SYMBOL"
  | defineMissingForm => "DEFINE_MISSING_FORM"
  | defineMissingClose => "DEFINE_MISSING_CLOSE"
  | lambdaMissingParameters => "LAMBDA_MISSING_PARAMETERS"
  | lambdaDuplicateParameters => "LAMBDA_DUPLICATE_PARAMETERS"
  | lambdaMissingParametersClose => "LAMBDA_MISSING_PARAMETERS_CLOSE"
  | lambdaMissingBody => "LAMBDA_MISSING_BODY"
  | lambdaMissingClose => "LAMBDA_MISSING_CLOSE"
  | specialUnparseable => "SPECIAL_UNPARSEABLE"
  | unparsedInput => "UNPARSED_INPUT"
  | nestingTooDeep => "NESTING_TOO_DEEP"

def message : Fault → String
  | applicationMissingOperator => "application: missing operator"
  | applicationMissingClose => "application: missing close parenthesis"
  | defineMissingSymbol => "define: missing symbol"
  | defineMissingForm => "define: missing form"
  | defineMissingClose => "define: missing close curly"
  | lambdaMissingParameters => "lambda: missing parameter list"
  | lambdaDuplicateParameters => "lambda: duplicate parameter names"
  | lambdaMissingParametersClose => "lambda: missing parameter list close curly"
  | lambdaMissingBody => "lambda: missing body form"
  | lambdaMissingClose => "lambda: missing close curly"
  | specialUnparseable => "special form: unable to parse"
  | unparsedInput => "woof: unparsed input"
  | nestingTooDeep => "woof: nesting too deep"

def ofLabel? (label : String) : Option Fault := all.find? (·.label == label)

def ofMessage? (message : String) : Option Fault := all.find? (·.message == message)

theorem mem_all (f : Fault) : f ∈ all := by cases f <;> decide

end Fault

/-- A fault and where the construct begins that it was found in: at the opening delimiter, which is
not where reading stopped. -/
structure Diagnostic where
  fault : Fault
  location : Location
deriving DecidableEq, Repr

def Diagnostic.message (d : Diagnostic) : String :=
  d.fault.message ++ " at line " ++ toString d.location.line ++ ", column " ++
    toString d.location.column

end Woof

import Woof.Grammar.Program

namespace Woof

/-- Why a text was not read. -/
inductive ParseError where
  | malformed (diagnostic : Diagnostic)
  | interrupted (cause : Interrupt)
  /-- The grammar reads every text or errs, so that this never arises. -/
  | unmatched
deriving DecidableEq, Repr

variable {σ : Type}

/-- What becomes of an interrupt. Forms nested too deep are reported at the first token, and so is a
receiver that went too deep: the two are not told apart. -/
def ParseError.ofInterrupt (start : Cursor) : Interrupt → ParseError
  | .tooDeep | .refused .tooDeep =>
    .malformed ⟨.nestingTooDeep, (start.first?.getD ⟨'\n', 1, 1⟩).location⟩
  | cause => .interrupted cause

/-- What reading a program comes to. -/
def ParseError.ofRun (start : Cursor) :
    Except Interrupt (Outcome (List Form)) → Except ParseError (List Form)
  | .ok (.success fs _) => .ok fs
  | .ok (.error d) => .error (.malformed d)
  | .ok .failure => .error .unmatched
  | .error cause => .error (.ofInterrupt start cause)

/-- The forms of a text whose forms are nested at most as deep as the limit, and the record of the
receiver, which is told of each form as soon as it is read. -/
def parseWithin (limit : Nat) (receive : Receiver σ) (record : σ) (text : String) :
    Except ParseError (List Form) × σ :=
  let start := Cursor.ofText text
  let (run, record) := Grammar.program .woof limit receive start record
  (ParseError.ofRun start run, record)

def parseWith (receive : Receiver σ) (record : σ) (text : String) :
    Except ParseError (List Form) × σ :=
  parseWithin nestingLimit receive record text

/-- The forms of a text. -/
def parse (text : String) : Except ParseError (List Form) :=
  (parseWith Receiver.ignore () text).1

end Woof

import Woof.Binary64.Shortest
import Woof.Diagnostic
import Woof.Form

namespace Woof

/-- Anything that a parser may yield or that a caller may ask to be written.
The six kinds of form appear with fields that need not be those of a form. -/
inductive Value where
  | absent
  | bool (b : Bool)
  | int (n : Int)
  | float (x : Binary64)
  | text (s : String)
  | list (items : List Value)
  | tuple (items : List Value)
  | number (value : Value)
  | symbol (name : Value)
  | string (text : String)
  | lambda (params body : List Value)
  | define (doc : Option String) (name value : Value)
  | application (operator : Value) (operands : List Value)
  | token (l : Location)
  | diagnostic (d : Diagnostic)
deriving Inhabited

namespace Value

def ofToken (t : Token Char) : Value := token t

mutual

def ofForm : Form → Value
  | .number n => number (int n)
  | .symbol s => symbol (text s)
  | .string s => string s
  | .lambda ps fs => lambda (ps.map text) (ofForms fs)
  | .define doc s f => define doc (text s) (ofForm f)
  | .application f fs => application (ofForm f) (ofForms fs)

def ofForms : List Form → List Value
  | [] => []
  | f :: fs => ofForm f :: ofForms fs

end

mutual

/-- The characters that a value carries: those of its tokens and texts, in order. -/
def flatten : Value → String
  | text s => s
  | token l => l.symbol
  | list vs => flattenAll vs
  | tuple vs => flattenAll vs
  | _ => ""

def flattenAll : List Value → String
  | [] => ""
  | v :: vs => flatten v ++ flattenAll vs

end

@[simp] theorem ofForms_eq_map (fs : List Form) : ofForms fs = fs.map ofForm := by
  induction fs with
  | nil => rfl
  | cons f fs ih => simp [ofForms, ih]

end Value

end Woof

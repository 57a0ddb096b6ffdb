import Woof.Value.Basic

namespace Woof.Value

/-- The whole number that a plain value is equal to. Truth counts as one, falsehood as zero. -/
def whole? : Value → Option Int
  | bool b => some (if b then 1 else 0)
  | int n => some n
  | float x => x.toInt?
  | _ => none

/-- Goes on inside two forms, with the limit on the forms that are nested in them. -/
def compareInside (limit : Nat) (inside : Nat → Option Bool) : Option Bool :=
  match limit with
  | 0 => none
  | limit + 1 => inside limit

mutual

/-- Equality of values. Numbers of different kinds are compared by what they are worth; a form is
equal only to a form of its kind with equal fields; a list is never equal to a tuple. Nothing is
said of forms that are alike down to the limit on nesting. -/
def equalWithin (limit : Nat) : Value → Value → Option Bool
  | absent, absent => some true
  | text s, text t => some (s == t)
  | float x, float y => some (x.equal y)
  | list vs, list ws =>
    if vs.length = ws.length then equalAllWithin limit vs ws else some false
  | tuple vs, tuple ws => equalAllWithin limit vs ws
  | number v, number w => compareInside limit fun limit => equalWithin limit v w
  | symbol v, symbol w => compareInside limit fun limit => equalWithin limit v w
  | string s, string t => compareInside limit fun _ => some (s == t)
  | lambda ps fs, lambda qs gs => compareInside limit fun limit => do
    if ← equalAllWithin limit ps qs then equalAllWithin limit fs gs else return false
  | define d n v, define e m w => compareInside limit fun limit => do
    if d ≠ e then return false
    else if ← equalWithin limit n m then equalWithin limit v w else return false
  | application v vs, application w ws => compareInside limit fun limit => do
    if ← equalWithin limit v w then equalAllWithin limit vs ws else return false
  | token l, token m => some (l == m)
  | diagnostic d, diagnostic e => some (d == e)
  | v, w =>
    match whole? v, whole? w with
    | some m, some n => some (m == n)
    | _, _ => some false

/-- Compares in order up to the first difference; one of two different lengths is one. -/
def equalAllWithin (limit : Nat) : List Value → List Value → Option Bool
  | [], [] => some true
  | v :: vs, w :: ws => do
    if ← equalWithin limit v w then equalAllWithin limit vs ws else return false
  | _, _ => some false

end

def equal? (v w : Value) : Option Bool := equalWithin nestingLimit v w

end Woof.Value

import Woof.Grammar.Rule
import Woof.Parse

namespace Woof

/-- A parser as data: every way to build one from others, over values. -/
inductive Recipe where
  | next
  | atEnd
  | satisfying (wanted : Value → Bool)
  | succeed (value : Value)
  | reject (d : Diagnostic)
  | filter (wanted : Value → Bool) (p : Recipe)
  | map (f : Value → Value) (p : Recipe)
  | bind (p : Recipe) (k : Value → Recipe)
  | inOrder (ps : List Recipe)
  | firstOf (ps : List Recipe)
  /-- Both in order, giving the value of the first. -/
  | keepFirst (p q : Recipe)
  /-- Both in order, giving the value of the second. -/
  | keepSecond (p q : Recipe)
  | zeroOrMore (p : Recipe)
  | oneOrMore (p : Recipe)
  | anythingBut (p : Recipe)
  | optional (p : Recipe)
  | expecting (d : Diagnostic) (p : Recipe)
  | rescue (p : Recipe) (handler : Diagnostic → Recipe)
  /-- The same recipe under a label that a trace shows. -/
  | labelled (label : String) (p : Recipe)
  | rule (r : Rule)
  /-- A parser that is looked up when it is run. -/
  | ref (name : String)

namespace Recipe

/-- What a recipe needs from outside. -/
structure Surroundings (m : Type → Type) where
  /-- Stands around every run of a part of a recipe, the whole included. -/
  around : Recipe → Parser m Value → Parser m Value
  rule : Rule → Parser m Value
  ref : String → Parser m Value

variable {m : Type → Type} [Monad m]

mutual

/-- The parser that a recipe describes. -/
def parser (s : Surroundings m) (r : Recipe) : Parser m Value :=
  s.around r <|
    match r with
    | next => Value.ofToken <$> Parser.next
    | atEnd => (fun _ => Value.absent) <$> Parser.atEnd
    | satisfying wanted => Value.ofToken <$> Parser.satisfying fun t => wanted (.ofToken t)
    | succeed v => Parser.pure v
    | reject d => Parser.reject d
    | filter wanted p => Parser.filter wanted (parser s p)
    | map f p => f <$> parser s p
    | bind p k => parser s p >>= fun v => parser s (k v)
    | inOrder ps => Value.list <$> Parser.inOrder (parsers s ps)
    | firstOf ps => Parser.firstOf (parsers s ps)
    | keepFirst p q => do
      let v ← parser s p
      let _ ← parser s q
      return v
    | keepSecond p q => do
      let _ ← parser s p
      parser s q
    | zeroOrMore p => Value.list <$> Parser.zeroOrMore (parser s p)
    | oneOrMore p => Value.list <$> Parser.oneOrMore (parser s p)
    | anythingBut p => Value.ofToken <$> Parser.anythingBut (parser s p)
    | optional p => (·.getD .absent) <$> Parser.optional (parser s p)
    | expecting d p => Parser.expecting d (parser s p)
    | rescue p handler => Parser.rescue (parser s p) fun d => parser s (handler d)
    | labelled _ p => parser s p
    | rule r => s.rule r
    | ref name => s.ref name

def parsers (s : Surroundings m) : List Recipe → List (Parser m Value)
  | [] => []
  | p :: ps => parser s p :: parsers s ps

end

@[simp] theorem parsers_eq_map (s : Surroundings m) (ps : List Recipe) :
    parsers s ps = ps.map (parser s) := by
  induction ps with
  | nil => rfl
  | cons p ps ih => simp [parsers, ih]

/-- The labels that were passed, each with the offset at which its recipe began to run. -/
abbrev Trace : Type := Array (String × Nat)

/-- Puts a labelled recipe on the trace when it begins to run. -/
def traced (r : Recipe) (p : Parser (Watched Trace) Value) : Parser (Watched Trace) Value :=
  match r with
  | labelled label _ => fun c => do
    modify (·.push (label, c.offset))
    p c
  | _ => p

/-- Runs with named recipes, the names followed at most as deep as the limit. Rules are those of
the language; their forms are delivered to nobody. -/
def parserIn (definitions : String → Option Recipe) : Nat → Recipe → Parser (Watched Trace) Value
  | 0, _ => Parser.effect (throw .tooDeep)
  | limit + 1, r =>
    parser
      { around := traced
        rule := Rule.parser .woof nestingLimit Receiver.ignore
        ref := fun name =>
          match definitions name with
          | some q => parserIn definitions limit q
          | none => Parser.effect (throw (.undefined name)) }
      r

end Recipe

end Woof

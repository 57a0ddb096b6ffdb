import Woof.Parse
import Woof.Text.Newline
import Woof.Writer

namespace Woof

/-- A comment that names the writer and its version. -/
def headerLine (version : String) : String := "; written by woofparse " ++ version ++ "\n"

/-- What is written before the forms of a program. -/
def heading (version : String) (header : Bool) : String :=
  if header then headerLine version else ""

/-- The whole text that is written for a program. -/
def document (version : String) (limit : Nat) (header : Bool) (forms : List Value) :
    Writing String := do
  let body ← Writer.program limit forms
  return heading version header ++ body

/-- Why a program was not read from a file. -/
inductive ReadError where
  | missing
  | undecodable
  | unparsed (cause : ParseError)
deriving DecidableEq, Repr

/-- Files, which hold bytes, and streams, which hold text and are written at their end.
A stream that nobody wrote to is empty. -/
structure Shelf where
  files : String → Option ByteArray
  streams : String → String

namespace Shelf

variable {σ : Type}

def empty : Shelf := ⟨fun _ => none, fun _ => ""⟩

def putFile (s : Shelf) (name : String) (bytes : ByteArray) : Shelf :=
  { s with files := fun n => if n = name then some bytes else s.files n }

def putStream (s : Shelf) (name text : String) : Shelf :=
  { s with streams := fun n => if n = name then text else s.streams n }

@[simp] theorem files_putFile (s : Shelf) (name : String) (bytes : ByteArray) :
    (s.putFile name bytes).files name = some bytes := by simp [putFile]

theorem files_putFile_of_ne (s : Shelf) (name : String) (bytes : ByteArray) {other : String}
    (h : other ≠ name) : (s.putFile name bytes).files other = s.files other := by
  simp [putFile, h]

@[simp] theorem streams_putStream (s : Shelf) (name text : String) :
    (s.putStream name text).streams name = text := by simp [putStream]

theorem streams_putStream_of_ne (s : Shelf) (name text : String) {other : String}
    (h : other ≠ name) : (s.putStream name text).streams other = s.streams other := by
  simp [putStream, h]

/-- Writes a program to a file as UTF-8. The file is emptied when it is opened, before it is known
whether the program can be written. -/
def saveFile (s : Shelf) (version : String) (limit : Nat) (name : String) (header : Bool)
    (forms : List Value) : (Except WriteError Unit × List Cast) × Shelf :=
  let opened := s.putFile name ByteArray.empty
  match (document version limit header forms).run [] with
  | (.ok text, casts) => ((.ok (), casts), opened.putFile name text.toUTF8)
  | (.error e, casts) => ((.error e, casts), opened)

/-- Writes a program at the end of a stream; nothing is written of one that cannot be written. -/
def appendStream (s : Shelf) (version : String) (limit : Nat) (name : String) (header : Bool)
    (forms : List Value) : (Except WriteError Unit × List Cast) × Shelf :=
  match (document version limit header forms).run [] with
  | (.ok text, casts) => ((.ok (), casts), s.putStream name (s.streams name ++ text))
  | (.error e, casts) => ((.error e, casts), s)

/-- Reads the text that a file or a stream holds. -/
def parsed (limit : Nat) (receive : Receiver σ) (record : σ) (text : String) :
    Except ReadError (List Form) × σ :=
  let (result, record) := parseWithin limit receive record text
  (result.mapError .unparsed, record)

/-- Reads a file as UTF-8, every kind of line end as a newline. -/
def loadFile (s : Shelf) (limit : Nat) (name : String) (receive : Receiver σ) (record : σ) :
    Except ReadError (List Form) × σ :=
  match s.files name with
  | none => (.error .missing, record)
  | some bytes =>
    match String.fromUTF8? bytes with
    | none => (.error .undecodable, record)
    | some text => parsed limit receive record (String.ofList (Text.unifyNewlines text.toList))

/-- Reads a stream from its start, as it is. -/
def loadStream (s : Shelf) (limit : Nat) (name : String) (receive : Receiver σ) (record : σ) :
    Except ReadError (List Form) × σ :=
  parsed limit receive record (s.streams name)

end Shelf

end Woof

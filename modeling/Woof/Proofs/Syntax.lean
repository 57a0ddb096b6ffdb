import Woof.Form
import Woof.Grammar.Alphabet

namespace Woof.Form

mutual

/-- How many forms are nested in one another, the outermost included. -/
def depth : Form → Nat
  | number _ => 1
  | symbol _ => 1
  | string _ => 1
  | lambda _ body => depthAll body + 1
  | define _ _ value => depth value + 1
  | application operator operands => max (depth operator) (depthAll operands) + 1

def depthAll : List Form → Nat
  | [] => 0
  | f :: fs => max (depth f) (depthAll fs)

end

theorem depth_pos (f : Form) : 0 < f.depth := by cases f <;> simp [depth]

theorem exists_succ_of_depth_le {f : Form} {n : Nat} (h : f.depth ≤ n) : ∃ m, n = m + 1 := by
  have hp := f.depth_pos
  exact ⟨n - 1, by omega⟩

theorem depthAll_le_iff {fs : List Form} {n : Nat} :
    depthAll fs ≤ n ↔ ∀ f ∈ fs, f.depth ≤ n := by
  induction fs with
  | nil => simp [depthAll]
  | cons f fs ih => rw [depthAll, Nat.max_le, ih, List.forall_mem_cons]

theorem depthAll_append_le {fs gs : List Form} {n : Nat} :
    depthAll (fs ++ gs) ≤ n ↔ depthAll fs ≤ n ∧ depthAll gs ≤ n := by
  rw [depthAll_le_iff, depthAll_le_iff, depthAll_le_iff, List.forall_mem_append]

end Woof.Form

namespace Woof.Syntax

/-- Trivia at the front of a text, and the text after it. A comment goes on up to a newline, which
is not part of it, or up to the end. -/
inductive Trivia : List Char → List Char → Prop where
  | done (s : List Char) : Trivia s s
  | blank {c : Char} {s r : List Char} (isBlank : c ∈ Alphabet.woof.whitespace)
      (tail : Trivia s r) : Trivia (c :: s) r
  | comment {u s r : List Char} (inLine : ∀ c ∈ u, c ≠ '\n') (ends : ∀ c ∈ s.head?, c = '\n')
      (tail : Trivia s r) : Trivia (';' :: (u ++ s)) r

/-- A symbol start, then symbol starts and digits. -/
def IsName : List Char → Prop
  | [] => False
  | c :: cs =>
    c ∈ Alphabet.woof.symbolStarts ∧
      ∀ d ∈ cs, d ∈ Alphabet.woof.symbolStarts ∨ d ∈ Alphabet.woof.digits

instance : DecidablePred IsName
  | [] => .isFalse id
  | c :: cs =>
    have : Decidable (∀ d ∈ cs, d ∈ Alphabet.woof.symbolStarts ∨ d ∈ Alphabet.woof.digits) :=
      List.decidableBAll _ cs
    inferInstanceAs (Decidable (c ∈ Alphabet.woof.symbolStarts ∧
      ∀ d ∈ cs, d ∈ Alphabet.woof.symbolStarts ∨ d ∈ Alphabet.woof.digits))

/-- No name and no number could go on with this text. -/
def Apart (r : List Char) : Prop :=
  ∀ c ∈ r.head?, c ∉ Alphabet.woof.symbolStarts ∧ c ∉ Alphabet.woof.digits

/-- The whole of a name at the front of a text, and the text after it. -/
structure Symbol (name : String) (s r : List Char) : Prop where
  text : s = name.toList ++ r
  isName : IsName name.toList
  ends : Apart r

/-- The whole of a run of digits at the front of a text, worth its decimal value. -/
structure Number (n : Int) (s r : List Char) : Prop where
  exists_digits : ∃ ds, s = ds ++ r ∧ ds ≠ [] ∧ (∀ d ∈ ds, d ∈ Alphabet.woof.digits) ∧
    n = (Nat.ofDigitChars 10 ds 0 : Nat)
  ends : ∀ c ∈ r.head?, c ∉ Alphabet.woof.digits

/-- How the characters of a string are written: behind a backslash, a quote or a backslash; any
other character as it is. -/
inductive Characters : List Char → List Char → Prop where
  | nil : Characters [] []
  | plain {c : Char} {s v : List Char} (notQuote : c ≠ '\x22') (notBackslash : c ≠ '\\')
      (tail : Characters s v) : Characters (c :: s) (c :: v)
  | escaped {c : Char} {s v : List Char} (special : c = '\x22' ∨ c = '\\')
      (tail : Characters s v) : Characters ('\\' :: c :: s) (c :: v)

/-- A quote, the characters of a string and a quote at the front of a text. -/
def Str (value : String) (s r : List Char) : Prop :=
  ∃ body, s = '\x22' :: (body ++ '\x22' :: r) ∧ Characters body value.toList

/-- Any number of symbols, each after trivia. -/
inductive Symbols : List String → List Char → List Char → Prop where
  | nil (s : List Char) : Symbols [] s s
  | cons {name : String} {names : List String} {s s₁ s₂ r : List Char} (before : Trivia s s₁)
      (head : Symbol name s₁ s₂) (tail : Symbols names s₂ r) : Symbols (name :: names) s r

/-- A string after trivia, or nothing. -/
inductive Doc : Option String → List Char → List Char → Prop where
  | absent (s : List Char) : Doc none s s
  | present {doc : String} {s s₁ r : List Char} (before : Trivia s s₁) (text : Str doc s₁ r) :
      Doc (some doc) s r

mutual

/-- A form at the front of a text, and the text after it. -/
inductive FormText : Form → List Char → List Char → Prop where
  | symbol {name : String} {s r : List Char} (text : Symbol name s r) :
      FormText (.symbol name) s r
  | number {n : Int} {s r : List Char} (text : Number n s r) : FormText (.number n) s r
  | string {value : String} {s r : List Char} (text : Str value s r) :
      FormText (.string value) s r
  /-- An open parenthesis, one form or more, and a close parenthesis. -/
  | application {operator : Form} {operands : List Form} {s s₁ r : List Char}
      (parts : FormsText (operator :: operands) s s₁) (close : Trivia s₁ (')' :: r)) :
      FormText (.application operator operands) ('(' :: s) r
  /-- An open curly, the word define, a text about the value or none, a name, a form and a close
  curly. -/
  | define {doc : Option String} {name : String} {value : Form}
      {s s₁ s₂ s₃ s₄ s₅ s₆ s₇ r : List Char} (beforeWord : Trivia s s₁)
      (word : Symbol "define" s₁ s₂) (about : Doc doc s₂ s₃) (beforeName : Trivia s₃ s₄)
      (named : Symbol name s₄ s₅) (beforeValue : Trivia s₅ s₆) (body : FormText value s₆ s₇)
      (close : Trivia s₇ ('\x7d' :: r)) : FormText (.define doc name value) ('\x7b' :: s) r
  /-- An open curly, the word lambda, an open curly, names that are all different, a close curly,
  one form or more, and a close curly. -/
  | lambda {params : List String} {first : Form} {others : List Form}
      {s s₁ s₂ s₃ s₄ s₅ s₆ r : List Char} (beforeWord : Trivia s s₁)
      (word : Symbol "lambda" s₁ s₂) (openParams : Trivia s₂ ('\x7b' :: s₃))
      (names : Symbols params s₃ s₄) (distinct : params.Nodup)
      (closeParams : Trivia s₄ ('\x7d' :: s₅)) (body : FormsText (first :: others) s₅ s₆)
      (close : Trivia s₆ ('\x7d' :: r)) :
      FormText (.lambda params (first :: others)) ('\x7b' :: s) r

/-- Any number of forms, each after trivia. -/
inductive FormsText : List Form → List Char → List Char → Prop where
  | nil (s : List Char) : FormsText [] s s
  | cons {f : Form} {fs : List Form} {s s₁ s₂ r : List Char} (before : Trivia s s₁)
      (head : FormText f s₁ s₂) (tail : FormsText fs s₂ r) : FormsText (f :: fs) s r

end

/-- The text of a program: forms, and trivia before and after each. -/
def ProgramText (fs : List Form) (s : List Char) : Prop := ∃ r, FormsText fs s r ∧ Trivia r []

theorem Trivia.trans {s s₁ r : List Char} (h : Trivia s s₁) (h' : Trivia s₁ r) : Trivia s r := by
  induction h with
  | done => exact h'
  | blank hb _ ih => exact .blank hb (ih h')
  | comment hu he _ ih => exact .comment hu he (ih h')

theorem Trivia.length_le {s r : List Char} (h : Trivia s r) : r.length ≤ s.length := by
  induction h with
  | done => exact Nat.le_refl _
  | blank _ _ ih => exact Nat.le_succ_of_le ih
  | comment _ _ _ ih =>
    simp only [List.length_cons, List.length_append]
    omega

theorem Symbol.length_lt {name : String} {s r : List Char} (h : Symbol name s r) :
    r.length < s.length := by
  have hn := h.isName
  rw [h.text, List.length_append]
  cases hl : name.toList with
  | nil => simp [hl, IsName] at hn
  | cons => simp

theorem Symbols.length_le {names : List String} {s r : List Char} (h : Symbols names s r) :
    r.length ≤ s.length := by
  induction h with
  | nil => exact Nat.le_refl _
  | cons before head _ ih =>
    have h₁ := before.length_le
    have h₂ := head.length_lt
    omega

theorem Str.length_lt {value : String} {s r : List Char} (h : Str value s r) :
    r.length < s.length := by
  obtain ⟨body, rfl, -⟩ := h
  simp only [List.length_cons, List.length_append]
  omega

theorem Doc.length_le {doc : Option String} {s r : List Char} (h : Doc doc s r) :
    r.length ≤ s.length := by
  cases h with
  | absent => exact Nat.le_refl _
  | present before text =>
    have h₁ := before.length_le
    have h₂ := text.length_lt
    omega

theorem Number.length_lt {n : Int} {s r : List Char} (h : Number n s r) :
    r.length < s.length := by
  obtain ⟨ds, rfl, hne, -, -⟩ := h.exists_digits
  have hp := List.length_pos_iff.mpr hne
  rw [List.length_append]
  omega

mutual

theorem FormText.length_lt : {f : Form} → {s r : List Char} → FormText f s r → r.length < s.length
  | _, _, _, .symbol text => text.length_lt
  | _, _, _, .number text => text.length_lt
  | _, _, _, .string text => text.length_lt
  | _, _, _, .application parts close => by
    have h₁ := parts.length_le
    have h₂ := close.length_le
    simp only [List.length_cons] at h₂ ⊢
    omega
  | _, _, _, .define beforeWord word about beforeName named beforeValue body close => by
    have h₁ := beforeWord.length_le
    have h₂ := word.length_lt
    have h₃ := about.length_le
    have h₄ := beforeName.length_le
    have h₅ := named.length_lt
    have h₆ := beforeValue.length_le
    have h₇ := body.length_lt
    have h₈ := close.length_le
    simp only [List.length_cons] at h₈ ⊢
    omega
  | _, _, _, .lambda beforeWord word openParams names _ closeParams body close => by
    have h₁ := beforeWord.length_le
    have h₂ := word.length_lt
    have h₃ := openParams.length_le
    have h₄ := names.length_le
    have h₅ := closeParams.length_le
    have h₆ := body.length_le
    have h₇ := close.length_le
    simp only [List.length_cons] at h₃ h₅ h₇ ⊢
    omega

theorem FormsText.length_le :
    {fs : List Form} → {s r : List Char} → FormsText fs s r → r.length ≤ s.length
  | _, _, _, .nil _ => Nat.le_refl _
  | _, _, _, .cons before head tail => by
    have h₁ := before.length_le
    have h₂ := head.length_lt
    have h₃ := tail.length_le
    omega

end

end Woof.Syntax

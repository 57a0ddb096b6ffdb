import Mathlib.Data.List.Forall2
import Woof.Grammar.Program
import Woof.Proofs.Combinator
import Woof.Proofs.Cursor

namespace Woof

/-- A way to match the tokens of one text with those of another. Tokens that match carry the same
symbol; where they stand is left open. -/
structure Matching where
  Matches : Token Char → Token Char → Prop
  symbol_eq : ∀ {t u}, Matches t u → t.symbol = u.symbol

namespace Matching

variable {α β γ δ : Type} {V : α → β → Prop} {W : γ → δ → Prop}

/-- The tokens that remain at two places match one by one. -/
def Alike (M : Matching) (c d : Cursor) : Prop := List.Forall₂ M.Matches c.remaining d.remaining

/-- The same fault, at tokens that match. -/
inductive Diagnoses (M : Matching) : Diagnostic → Diagnostic → Prop where
  | mk (fault : Fault) {t u : Token Char} (token : M.Matches t u) :
      Diagnoses M ⟨fault, t⟩ ⟨fault, u⟩

/-- Two runs end in the same way: with related values at places that are alike, or with faults at
tokens that match, or with the same interrupt. -/
inductive Ends (M : Matching) (V : α → β → Prop) :
    Except Interrupt (Outcome α) → Except Interrupt (Outcome β) → Prop where
  | success {v : α} {w : β} {c d : Cursor} (value : V v w) (rest : M.Alike c d) :
      Ends M V (.ok (.success v c)) (.ok (.success w d))
  | failure : Ends M V (.ok .failure) (.ok .failure)
  | error {d e : Diagnostic} (diagnostic : M.Diagnoses d e) :
      Ends M V (.ok (.error d)) (.ok (.error e))
  | interrupt (i : Interrupt) : Ends M V (.error i) (.error i)

/-- From places that are alike, the two parsers end in the same way. -/
def Parses (M : Matching) (V : α → β → Prop) (p : Scan α) (q : Scan β) : Prop :=
  ∀ ⦃c d⦄, M.Alike c d → M.Ends V (p c) (q d)

variable {M : Matching} {p : Scan α} {q : Scan β}

theorem Alike.left_eq {c d : Cursor} (h : M.Alike c d) : c.left = d.left := by
  have hl := List.Forall₂.length_eq h
  simpa using hl

theorem Alike.seek {c d : Cursor} {t u : Token Char} {ts us : List (Token Char)}
    (hc : c.remaining = t :: ts) (hd : d.remaining = u :: us) (h : List.Forall₂ M.Matches ts us) :
    M.Alike (c.seek ts) (d.seek us) := by
  have hct : ts <:+ c.remaining := hc ▸ List.suffix_cons t ts
  have hdu : us <:+ d.remaining := hd ▸ List.suffix_cons u us
  rw [Alike, Cursor.remaining_seek hct, Cursor.remaining_seek hdu]
  exact h

namespace Ends

variable {y : Except Interrupt (Outcome β)}

theorem of_success {v : α} {c : Cursor} (h : M.Ends V (.ok (.success v c)) y) :
    ∃ w d, y = .ok (.success w d) ∧ V v w ∧ M.Alike c d := by
  cases h with
  | success value rest => exact ⟨_, _, rfl, value, rest⟩

theorem ne_success {x : Except Interrupt (Outcome α)} (h : M.Ends V x y)
    (hx : ∀ v c, x ≠ .ok (.success v c)) (w : β) (d : Cursor) : y ≠ .ok (.success w d) := by
  rintro rfl
  cases h with
  | success value rest => exact hx _ _ rfl

theorem of_failure (h : M.Ends V (.ok .failure) y) : y = .ok .failure := by
  cases h
  rfl

theorem of_error {d : Diagnostic} (h : M.Ends V (.ok (.error d)) y) :
    ∃ e, y = .ok (.error e) ∧ M.Diagnoses d e := by
  cases h with
  | error diagnostic => exact ⟨_, rfl, diagnostic⟩

theorem of_interrupt {i : Interrupt} (h : M.Ends V (.error i) y) : y = .error i := by
  cases h
  rfl

theorem mono {V' : α → β → Prop} {x : Except Interrupt (Outcome α)} (h : M.Ends V x y)
    (hv : ∀ {v w}, V v w → V' v w) : M.Ends V' x y := by
  cases h with
  | success value rest => exact .success (hv value) rest
  | failure => exact .failure
  | error diagnostic => exact .error diagnostic
  | interrupt i => exact .interrupt i

/-- What is made of two runs that end in the same way: every combinator goes on from there by the
outcome of its first part. -/
theorem bind {x : Except Interrupt (Outcome α)} {k : Outcome α → Except Interrupt (Outcome γ)}
    {l : Outcome β → Except Interrupt (Outcome δ)} (h : M.Ends V x y)
    (hs : ∀ {v w c d}, V v w → M.Alike c d → M.Ends W (k (.success v c)) (l (.success w d)))
    (hf : M.Ends W (k .failure) (l .failure))
    (he : ∀ {d e}, M.Diagnoses d e → M.Ends W (k (.error d)) (l (.error e))) :
    M.Ends W (x >>= k) (y >>= l) := by
  cases h with
  | success value rest => exact hs value rest
  | failure => exact hf
  | error diagnostic => exact he diagnostic
  | interrupt i => exact .interrupt i

end Ends

namespace Parses

theorem of_pure {v : α} {w : β} (h : V v w) : M.Parses V (pure v) (pure w) :=
  fun _ _ hc => .success h hc

theorem bind {k : α → Scan γ} {l : β → Scan δ} (h : M.Parses V p q)
    (hk : ∀ {v w}, V v w → M.Parses W (k v) (l w)) : M.Parses W (p >>= k) (q >>= l) := by
  intro c d hc
  exact (h hc).bind (fun hv hr => hk hv hr) .failure .error

theorem map {f : α → γ} {g : β → δ} (h : M.Parses V p q) (hf : ∀ {v w}, V v w → W (f v) (g w)) :
    M.Parses W (f <$> p) (g <$> q) := by
  intro c d hc
  exact (h hc).bind (fun hv hr => .success (hf hv) hr) .failure .error

theorem effect (x : Except Interrupt α) : M.Parses Eq (Parser.effect x) (Parser.effect x) := by
  intro c d hc
  cases x with
  | ok v => exact .success rfl hc
  | error i => exact .interrupt i

theorem reject {d e : Diagnostic} (h : M.Diagnoses d e) :
    M.Parses V (Parser.reject d) (Parser.reject e) :=
  fun _ _ _ => .error h

theorem next : M.Parses M.Matches Parser.next Parser.next := by
  intro c d hc
  have hf := hc
  rw [Alike] at hf
  rw [Parser.next, Parser.next]
  generalize hx : c.remaining = xs at hf
  generalize hy : d.remaining = ys at hf
  cases hf with
  | nil =>
    rw [Cursor.next?_of_remaining_nil hx, Cursor.next?_of_remaining_nil hy]
    exact .failure
  | cons head tail =>
    rw [Cursor.next?_of_remaining_cons hx, Cursor.next?_of_remaining_cons hy]
    exact .success head (.seek hx hy tail)

theorem atEnd : M.Parses Eq Parser.atEnd Parser.atEnd := by
  intro c d hc
  rw [Parser.atEnd, Parser.atEnd, hc.left_eq]
  split
  · exact .success rfl hc
  · exact .failure

theorem filter {f : α → Bool} {g : β → Bool} (h : M.Parses V p q)
    (hf : ∀ {v w}, V v w → f v = g w) : M.Parses V (Parser.filter f p) (Parser.filter g q) := by
  intro c d hc
  refine (h hc).bind ?_ .failure .error
  intro v w c₁ d₁ hv hr
  simp only [hf hv]
  split
  · exact .success hv hr
  · exact .failure

theorem satisfying {f : Token Char → Bool} (hf : ∀ {t u}, M.Matches t u → f t = f u) :
    M.Parses M.Matches (Parser.satisfying f) (Parser.satisfying f) :=
  next.filter hf

theorem char (x : Char) : M.Parses M.Matches (Parser.char x) (Parser.char x) :=
  satisfying fun h => by rw [M.symbol_eq h]

theorem charIn (xs : List Char) : M.Parses M.Matches (Parser.charIn xs) (Parser.charIn xs) :=
  satisfying fun h => by rw [M.symbol_eq h]

theorem firstOf {ps : List (Scan α)} {qs : List (Scan β)} (h : List.Forall₂ (M.Parses V) ps qs) :
    M.Parses V (Parser.firstOf ps) (Parser.firstOf qs) := by
  intro c d hc
  induction h with
  | nil => exact .failure
  | cons head _ ih =>
    rw [Parser.firstOf, Parser.firstOf]
    exact (head hc).bind .success ih .error

theorem anythingBut (h : M.Parses V p q) :
    M.Parses M.Matches (Parser.anythingBut p) (Parser.anythingBut q) := by
  intro c d hc
  exact (h hc).bind (fun _ _ => .failure) (next hc) .error

theorem optional (h : M.Parses V p q) :
    M.Parses (Option.Rel V) (Parser.optional p) (Parser.optional q) := by
  intro c d hc
  exact (h hc).bind (fun hv hr => .success (.some hv) hr) (.success .none hc) .error

theorem expecting (h : M.Parses V p q) {d e : Diagnostic} (hd : M.Diagnoses d e) :
    M.Parses V (Parser.expecting d p) (Parser.expecting e q) := by
  intro c c' hc
  exact (h hc).bind .success (.error hd) .error

theorem zeroOrMore (h : M.Parses V p q) :
    M.Parses (List.Forall₂ V) (Parser.zeroOrMore p) (Parser.zeroOrMore q) := by
  have go (vs : List α) (c : Cursor) : ∀ {ws d}, List.Forall₂ V vs ws → M.Alike c d →
      M.Ends (List.Forall₂ V) (Parser.repeatFrom p vs c) (Parser.repeatFrom q ws d) := by
    fun_induction Parser.repeatFrom p vs c with
    | case1 vs c ih =>
      intro ws d hvs hc
      rw [Parser.repeatFrom.eq_def q]
      refine (h hc).bind ?_ (.success (List.rel_reverse hvs) hc) .error
      intro v w c₁ d₁ hv hr
      -- both go on or both stop: as many tokens are left to the one as to the other
      simp only [← hc.left_eq, ← hr.left_eq]
      split
      · exact ih v c₁ ‹_› (.cons hv hvs) hr
      · exact .success (List.rel_reverse (.cons hv hvs)) hc
  intro c d hc
  exact go [] c .nil hc

theorem oneOrMore (h : M.Parses V p q) :
    M.Parses (List.Forall₂ V) (Parser.oneOrMore p) (Parser.oneOrMore q) := by
  refine h.zeroOrMore.filter ?_
  intro vs ws hv
  cases hv <;> rfl

theorem mono {V' : α → β → Prop} (h : M.Parses V p q) (hv : ∀ {v w}, V v w → V' v w) :
    M.Parses V' p q := by
  intro c d hc
  exact (h hc).mono hv

section Same

variable {p q : Scan α}

theorem zeroOrMore_same (h : M.Parses Eq p q) :
    M.Parses Eq (Parser.zeroOrMore p) (Parser.zeroOrMore q) :=
  h.zeroOrMore.mono fun hv => by rwa [List.forall₂_eq_eq_eq] at hv

theorem oneOrMore_same (h : M.Parses Eq p q) :
    M.Parses Eq (Parser.oneOrMore p) (Parser.oneOrMore q) :=
  h.oneOrMore.mono fun hv => by rwa [List.forall₂_eq_eq_eq] at hv

theorem optional_same (h : M.Parses Eq p q) :
    M.Parses Eq (Parser.optional p) (Parser.optional q) := by
  refine h.optional.mono fun hv => ?_
  cases hv with
  | some he => rw [he]
  | none => rfl

end Same

end Parses

/-- The runs of one parser are those of the other, from places that are alike. -/
theorem exists_steps_of_alike {p q : Scan α} (h : M.Parses Eq p q) {c c' d : Cursor} {vs : List α}
    (hs : Parser.Steps p c vs c') (hc : M.Alike c d) :
    ∃ d', Parser.Steps q d vs d' ∧ M.Alike c' d' := by
  induction hs generalizing d with
  | nil => exact ⟨d, .nil d, hc⟩
  | cons head less _ ih =>
    obtain ⟨_, d₁, hq, rfl, hr⟩ := (head ▸ h hc).of_success
    obtain ⟨d', hs, hd⟩ := ih hr
    have hl : d₁.left < d.left := by
      rw [← hc.left_eq, ← hr.left_eq]
      exact less
    exact ⟨d', .cons hq hl hs, hd⟩

section Grammar

open Woof.Grammar

variable {a : Alphabet} {inner : Scan Form}

theorem spell_eq {ts us : List (Token Char)} (h : List.Forall₂ M.Matches ts us) :
    spell ts = spell us := by
  have hs : ts.map Token.symbol = us.map Token.symbol := by
    induction h with
    | nil => rfl
    | cons head _ ih => rw [List.map_cons, List.map_cons, M.symbol_eq head, ih]
  rw [spell, spell, hs]

theorem parses_whitespace : M.Parses (List.Forall₂ M.Matches) (whitespace a) (whitespace a) :=
  (Parses.charIn _).oneOrMore

theorem parses_comment : M.Parses (List.Forall₂ M.Matches) comment comment :=
  (Parses.char ';').bind fun _ => (Parses.char '\n').anythingBut.zeroOrMore

theorem parses_trivia :
    M.Parses (List.Forall₂ (List.Forall₂ M.Matches)) (trivia a) (trivia a) :=
  (Parses.firstOf (.cons parses_whitespace (.cons parses_comment .nil))).zeroOrMore

theorem Parses.lexeme (h : M.Parses V p q) : M.Parses V (lexeme a p) (lexeme a q) :=
  parses_trivia.bind fun _ => h

theorem parses_delimiter (x : Char) : M.Parses M.Matches (delimiter a x) (delimiter a x) :=
  (Parses.char x).lexeme

theorem parses_number : M.Parses Eq (number a) (number a) := by
  refine Parses.lexeme ((Parses.charIn a.digits).oneOrMore.bind fun h => ?_)
  rw [spell_eq h]
  exact Parses.effect _

theorem parses_symbol : M.Parses Eq (symbol a) (symbol a) := by
  refine Parses.lexeme ((Parses.charIn _).bind fun hs => ?_)
  refine (Parses.firstOf (.cons (.charIn _) (.cons (.charIn _) .nil))).zeroOrMore.bind fun hr => ?_
  exact .of_pure (spell_eq (.cons hs hr))

theorem parses_keyword (word : String) : M.Parses Eq (keyword a word) (keyword a word) :=
  parses_symbol.filter fun h => by rw [h]

theorem parses_stringLiteral : M.Parses Eq (stringLiteral a) (stringLiteral a) := by
  have hb : M.Parses M.Matches backslashOrQuote backslashOrQuote :=
    .firstOf (.cons (.char _) (.cons (.char _) .nil))
  have hc : M.Parses M.Matches stringCharacter stringCharacter :=
    .firstOf (.cons ((Parses.char _).bind fun _ => hb) (.cons hb.anythingBut .nil))
  refine Parses.lexeme ((Parses.char _).bind fun _ => hc.zeroOrMore.bind fun h => ?_)
  exact (Parses.char _).bind fun _ => .of_pure (spell_eq h)

theorem parses_parameters {t u : Token Char} (h : M.Matches t u) :
    M.Parses Eq (parameters a t) (parameters a u) := by
  refine parses_symbol.zeroOrMore_same.bind fun hn => ?_
  rename_i names names'
  subst hn
  cases firstRepeated names with
  | none => exact .of_pure rfl
  | some name => exact .reject (.mk _ h)

theorem parses_application (h : M.Parses Eq inner inner) :
    M.Parses Eq (application a inner) (application a inner) := by
  refine (parses_delimiter _).bind fun ht => ?_
  refine (h.expecting (.mk _ ht)).bind fun ho => ?_
  refine h.zeroOrMore_same.bind fun hs => ?_
  refine ((parses_delimiter _).expecting (.mk _ ht)).bind fun _ => ?_
  exact .of_pure (by rw [ho, hs])

theorem parses_define (h : M.Parses Eq inner inner) :
    M.Parses Eq (define a inner) (define a inner) := by
  refine (parses_delimiter _).bind fun ht => (parses_keyword _).bind fun _ => ?_
  refine parses_stringLiteral.optional_same.bind fun hd => ?_
  refine (parses_symbol.expecting (.mk _ ht)).bind fun hn => ?_
  refine (h.expecting (.mk _ ht)).bind fun hv => ?_
  refine ((parses_delimiter _).expecting (.mk _ ht)).bind fun _ => ?_
  exact .of_pure (by rw [hd, hn, hv])

theorem parses_lambda (h : M.Parses Eq inner inner) :
    M.Parses Eq (lambda a inner) (lambda a inner) := by
  refine (parses_delimiter _).bind fun ht => (parses_keyword _).bind fun _ => ?_
  refine ((parses_delimiter _).expecting (.mk _ ht)).bind fun hu => ?_
  refine (parses_parameters hu).bind fun hn => ?_
  refine ((parses_delimiter _).expecting (.mk _ hu)).bind fun _ => ?_
  refine (h.oneOrMore_same.expecting (.mk _ ht)).bind fun hb => ?_
  refine ((parses_delimiter _).expecting (.mk _ ht)).bind fun _ => ?_
  exact .of_pure (by rw [hn, hb])

theorem parses_special (h : M.Parses Eq inner inner) :
    M.Parses Eq (special a inner) (special a inner) := by
  let rejected : Scan Form := openCurly a >>= fun t => Parser.reject ⟨.specialUnparseable, t⟩
  have ho : M.Parses Eq rejected rejected :=
    (parses_delimiter _).bind fun ht => .reject (.mk _ ht)
  exact .firstOf (.cons (parses_define h) (.cons (parses_lambda h) (.cons ho .nil)))

/-- What is read of a form, and what is wrong with it, does not depend on where it stands. -/
theorem parses_form (a : Alphabet) (limit : Nat) : M.Parses Eq (form a limit) (form a limit) := by
  induction limit with
  | zero => exact Parses.effect _
  | succ limit ih =>
    have hs : M.Parses Eq (symbolForm a) (symbolForm a) := parses_symbol.map fun h => by rw [h]
    have hn : M.Parses Eq (numberForm a) (numberForm a) := parses_number.map fun h => by rw [h]
    have ht : M.Parses Eq (stringForm a) (stringForm a) :=
      parses_stringLiteral.map fun h => by rw [h]
    exact .firstOf (.cons hs (.cons hn (.cons ht (.cons (parses_application ih)
      (.cons (parses_special ih) .nil)))))

theorem parses_endOfProgram (a : Alphabet) : M.Parses Eq (endOfProgram a) (endOfProgram a) := by
  let unparsed : Scan Unit := Parser.next >>= fun t => Parser.reject ⟨.unparsedInput, t⟩
  have hn : M.Parses Eq unparsed unparsed := Parses.next.bind fun ht => .reject (.mk _ ht)
  exact Parses.lexeme (.firstOf (.cons .atEnd (.cons hn .nil)))

end Grammar

end Matching

end Woof

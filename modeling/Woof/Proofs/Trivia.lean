import Woof.Proofs.Reading

namespace Woof.Grammar

open Woof.Parser

variable {α : Type}

/-- Whether a token carries one of the characters. -/
def among (xs : List Char) (t : Token Char) : Bool := xs.contains t.symbol

/-- Whether a token is inside its line. -/
def inLine (t : Token Char) : Bool := t.symbol != '\n'

/-- The tokens after whitespace and comments. A comment runs up to the newline. -/
def skip (a : Alphabet) : List (Token Char) → List (Token Char)
  | [] => []
  | t :: ts =>
    if among a.whitespace t then skip a ts
    else if t.symbol = ';' then skip a (ts.dropWhile inLine)
    else t :: ts
termination_by ts => ts.length
decreasing_by
  · simp
  · have h := (List.dropWhile_suffix inLine (l := ts)).length_le
    simp only [List.length_cons]
    omega

@[simp] theorem skip_nil (a : Alphabet) : skip a [] = [] := by rw [skip]

theorem skip_blank {a : Alphabet} {t : Token Char} (ts : List (Token Char))
    (h : among a.whitespace t = true) : skip a (t :: ts) = skip a ts := by
  rw [skip, if_pos h]

theorem skip_comment {a : Alphabet} {t : Token Char} (ts : List (Token Char))
    (h : among a.whitespace t = false) (hc : t.symbol = ';') :
    skip a (t :: ts) = skip a (ts.dropWhile inLine) := by
  rw [skip, if_neg (by simp [h]), if_pos hc]

theorem skip_other {a : Alphabet} {t : Token Char} (ts : List (Token Char))
    (h : among a.whitespace t = false) (hc : t.symbol ≠ ';') : skip a (t :: ts) = t :: ts := by
  rw [skip, if_neg (by simp [h]), if_neg hc]

theorem skip_suffix (a : Alphabet) (ts : List (Token Char)) : skip a ts <:+ ts := by
  fun_induction skip a ts with
  | case1 => exact List.suffix_rfl
  | case2 t ts h ih => exact ih.trans (List.suffix_cons t ts)
  | case3 t ts h hc ih =>
    exact ih.trans ((List.dropWhile_suffix inLine).trans (List.suffix_cons t ts))
  | case4 t ts h hc => exact List.suffix_rfl

theorem skip_dropWhile (a : Alphabet) (ts : List (Token Char)) :
    skip a (ts.dropWhile (among a.whitespace)) = skip a ts := by
  induction ts with
  | nil => rfl
  | cons t ts ih =>
    cases h : among a.whitespace t with
    | false => rw [List.dropWhile_cons_of_neg (by simp [h])]
    | true => rw [List.dropWhile_cons_of_pos h, ih, skip_blank ts h]

/-- The token after trivia, if there is one, begins no trivia. -/
theorem skip_eq_cons {a : Alphabet} {ts rest : List (Token Char)} {t : Token Char}
    (h : skip a ts = t :: rest) : among a.whitespace t = false ∧ t.symbol ≠ ';' := by
  fun_induction skip a ts with
  | case1 => simp at h
  | case2 u us hu ih => exact ih h
  | case3 u us hu hc ih => exact ih h
  | case4 u us hu hc =>
    obtain ⟨rfl, -⟩ := List.cons.inj h
    exact ⟨by simpa using hu, hc⟩

theorem skip_skip (a : Alphabet) (ts : List (Token Char)) : skip a (skip a ts) = skip a ts := by
  cases h : skip a ts with
  | nil => exact skip_nil a
  | cons t rest =>
    obtain ⟨hw, hc⟩ := skip_eq_cons h
    exact skip_other rest hw hc

/-- A run of whitespace, or a comment, at the front of a list. -/
def readPiece (a : Alphabet) (ts : List (Token Char)) : Reading (List (Token Char)) :=
  match ts with
  | [] => none
  | t :: rest =>
    if among a.whitespace t then
      some (t :: rest.takeWhile (among a.whitespace), rest.dropWhile (among a.whitespace))
    else if t.symbol = ';' then some (rest.takeWhile inLine, rest.dropWhile inLine)
    else none

theorem reads_charIn (xs : List Char) : Reads (charIn xs) (headIf (among xs)) :=
  Reads.satisfying _

theorem reads_char (x : Char) : Reads (char x) (headIf (·.symbol == x)) :=
  Reads.satisfying _

theorem reads_whitespace (a : Alphabet) :
    Reads (whitespace a) fun ts =>
      (some (readMany (headIf (among a.whitespace)) ts)).filter fun r => !r.1.isEmpty :=
  ((reads_charIn a.whitespace).zeroOrMore fun _ => rfl).filter _ fun _ => rfl

theorem reads_inLine : Reads (anythingBut (char '\n')) (headIf inLine) := by
  refine (reads_char '\n').anythingBut fun ts => ?_
  cases ts with
  | nil => rfl
  | cons t ts => cases h : t.symbol == '\n' <;> simp [headIf, inLine, bne, h]

theorem reads_comment :
    Reads comment fun ts =>
      (headIf (·.symbol == ';') ts).bind fun r => some (readMany (headIf inLine) r.2) :=
  (reads_char ';').bind (fun _ => reads_inLine.zeroOrMore fun _ => rfl) fun _ => rfl

theorem reads_piece (a : Alphabet) : Reads (firstOf [whitespace a, comment]) (readPiece a) := by
  refine (reads_whitespace a).firstOf_pair reads_comment fun ts => ?_
  cases ts with
  | nil => simp [readPiece, readMany_headIf, headIf, Option.filter]
  | cons t rest =>
    cases hw : among a.whitespace t with
    | true => simp [readPiece, readMany_headIf, hw, Option.filter]
    | false =>
      by_cases hc : t.symbol = ';' <;>
        simp [readPiece, readMany_headIf, headIf, hw, hc, Option.filter]

theorem readMany_piece (a : Alphabet) (ts : List (Token Char)) :
    (readMany (readPiece a) ts).2 = skip a ts := by
  induction hn : ts.length using Nat.strongRecOn generalizing ts with
  | ind n ih =>
    cases ts with
    | nil => rw [readMany_of_none rfl, skip_nil]
    | cons t ts =>
      cases hw : among a.whitespace t with
      | true =>
        have hs : (ts.dropWhile (among a.whitespace)).length < (t :: ts).length :=
          Nat.lt_succ_of_le (List.dropWhile_suffix _).length_le
        have hr : readPiece a (t :: ts) =
            some (t :: ts.takeWhile (among a.whitespace), ts.dropWhile (among a.whitespace)) := by
          simp [readPiece, hw]
        rw [readMany_of_some hr hs, ih _ (hn ▸ hs) _ rfl, skip_dropWhile, skip_blank ts hw]
      | false =>
        by_cases hc : t.symbol = ';'
        · have hs : (ts.dropWhile inLine).length < (t :: ts).length :=
            Nat.lt_succ_of_le (List.dropWhile_suffix _).length_le
          have hr : readPiece a (t :: ts) =
              some (ts.takeWhile inLine, ts.dropWhile inLine) := by
            simp [readPiece, hw, hc]
          rw [readMany_of_some hr hs, ih _ (hn ▸ hs) _ rfl, skip_comment ts hw hc]
        · have hr : readPiece a (t :: ts) = none := by simp [readPiece, hw, hc]
          rw [readMany_of_none hr, skip_other ts hw hc]

theorem reads_trivia (a : Alphabet) :
    Reads (trivia a) fun ts => some ((readMany (readPiece a) ts).1, skip a ts) := by
  refine (reads_piece a).zeroOrMore fun ts => ?_
  rw [← readMany_piece a ts]

/-- A lexeme is read off what trivia leaves. -/
theorem Reads.lexeme {p : Scan α} {f : List (Token Char) → Reading α} (a : Alphabet)
    (h : Reads p f) : Reads (lexeme a p) fun ts => f (skip a ts) :=
  (reads_trivia a).bind (fun _ => h) fun _ => rfl

theorem lexeme_apply (a : Alphabet) (p : Scan α) (c : Cursor) :
    lexeme a p c = p (c.seek (skip a c.remaining)) :=
  bind_of_success ((reads_trivia a).of_some rfl)

end Woof.Grammar

import Woof.Proofs.Trivia

namespace Woof

namespace Cursor

variable {c c' : Cursor} {t : Token Char}

/-- A place counts from the end of the text, so that it is the same seen from the next token. -/
theorem seek_of_next? (h : c.next? = some (t, c')) (ts : List (Token Char)) :
    c'.seek ts = c.seek ts := by
  rw [eq_seek_of_next? h, seek_seek]

theorem head?_of_next? (h : c.next? = some (t, c')) : c.remaining.head? = some t := by
  rw [remaining_of_next? h]
  rfl

theorem head?_of_next?_none (h : c.next? = none) : c.remaining.head? = none := by
  rw [next?_eq_none_iff, ← length_remaining, List.length_eq_zero_iff] at h
  rw [h]
  rfl

end Cursor

/-- Whether a scan over trivia is in a comment. -/
inductive Scanner.Mode where
  | outside
  | comment
deriving DecidableEq, Repr

/-- A scan over trivia, from token to token. -/
structure Scanner where
  mode : Scanner.Mode
  place : Cursor

namespace Scanner

/-- Outside a comment a blank is passed over, and a semicolon that is no blank begins a comment.
Inside a comment everything is passed over up to a newline or the end, where the comment is left.
The scan is over where there is no step. -/
def step (blanks : List Char) (s : Scanner) : Option Scanner :=
  match s.mode, s.place.next? with
  | .outside, none => none
  | .outside, some (t, c) =>
    if t.symbol ∈ blanks then some ⟨.outside, c⟩
    else if t.symbol = ';' then some ⟨.comment, c⟩
    else none
  | .comment, none => some ⟨.outside, s.place⟩
  | .comment, some (t, c) =>
    if t.symbol = '\n' then some ⟨.outside, s.place⟩ else some ⟨.comment, c⟩

/-- What a step can do. -/
inductive Moves (blanks : List Char) : Scanner → Scanner → Prop where
  | blank {c c' : Cursor} {t : Token Char} (next : c.next? = some (t, c'))
      (isBlank : t.symbol ∈ blanks) : Moves blanks ⟨.outside, c⟩ ⟨.outside, c'⟩
  | enter {c c' : Cursor} {t : Token Char} (next : c.next? = some (t, c'))
      (notBlank : t.symbol ∉ blanks) (semicolon : t.symbol = ';') :
      Moves blanks ⟨.outside, c⟩ ⟨.comment, c'⟩
  | inside {c c' : Cursor} {t : Token Char} (next : c.next? = some (t, c'))
      (notNewline : t.symbol ≠ '\n') : Moves blanks ⟨.comment, c⟩ ⟨.comment, c'⟩
  | leave {c : Cursor} (ended : ∀ t ∈ c.remaining.head?, t.symbol = '\n') :
      Moves blanks ⟨.comment, c⟩ ⟨.outside, c⟩

/-- The scan is outside of comments and neither a blank nor a semicolon is next. -/
def Stopped (blanks : List Char) (s : Scanner) : Prop :=
  s.mode = .outside ∧ ∀ t ∈ s.place.remaining.head?, t.symbol ∉ blanks ∧ t.symbol ≠ ';'

variable {blanks : List Char} {s s' : Scanner}

theorem step_cases (blanks : List Char) (s : Scanner) :
    (∃ s', s.step blanks = some s' ∧ Moves blanks s s') ∨
      s.step blanks = none ∧ Stopped blanks s := by
  obtain ⟨mode, c⟩ := s
  cases hn : c.next? with
  | none =>
    have hh := Cursor.head?_of_next?_none hn
    cases mode with
    | outside => exact .inr ⟨by simp [step, hn], rfl, by simp [hh]⟩
    | comment => exact .inl ⟨⟨.outside, c⟩, by simp [step, hn], .leave (by simp [hh])⟩
  | some r =>
    obtain ⟨t, c'⟩ := r
    have hh := Cursor.head?_of_next? hn
    cases mode with
    | outside =>
      by_cases hb : t.symbol ∈ blanks
      · exact .inl ⟨⟨.outside, c'⟩, by simp [step, hn, hb], .blank hn hb⟩
      by_cases hs : t.symbol = ';'
      · refine .inl ⟨⟨.comment, c'⟩, ?_, .enter hn hb hs⟩
        simp only [step, hn, if_neg hb, if_pos hs]
      · exact .inr ⟨by simp [step, hn, hb, hs], rfl, by simp [hh, hb, hs]⟩
    | comment =>
      by_cases ht : t.symbol = '\n'
      · exact .inl ⟨⟨.outside, c⟩, by simp [step, hn, ht], .leave (by simp [hh, ht])⟩
      · exact .inl ⟨⟨.comment, c'⟩, by simp [step, hn, ht], .inside hn ht⟩

theorem moves_of_step (h : s.step blanks = some s') : Moves blanks s s' := by
  rcases step_cases blanks s with ⟨s₁, hs, hm⟩ | ⟨hs, -⟩
  · rw [h] at hs
    exact Option.some.inj hs ▸ hm
  · rw [h] at hs
    cases hs

theorem stopped_of_step (h : s.step blanks = none) : Stopped blanks s := by
  rcases step_cases blanks s with ⟨s₁, hs, -⟩ | ⟨-, hs⟩
  · rw [h] at hs
    cases hs
  · exact hs

/-- A bound for the steps to come: one for each token, and one to leave the comment before it. -/
def work (s : Scanner) : Nat :=
  match s.mode with
  | .outside => 2 * s.place.left
  | .comment => 2 * s.place.left + 1

theorem work_of_step (h : s.step blanks = some s') : s'.work < s.work := by
  cases moves_of_step h with
  | blank next | enter next | inside next =>
    have hl := Cursor.left_of_next? next
    simp only [work]
    omega
  | leave => simp [work]

/-- The place where the scan is over. -/
def stop (blanks : List Char) (s : Scanner) : Cursor :=
  match _h : s.step blanks with
  | none => s.place
  | some s' => s'.stop blanks
termination_by s.work
decreasing_by exact work_of_step _h

theorem stopped_stop (blanks : List Char) (s : Scanner) :
    Stopped blanks ⟨.outside, s.stop blanks⟩ := by
  fun_induction stop blanks s with
  | case1 s h =>
    obtain ⟨hm, hn⟩ := stopped_of_step h
    exact ⟨rfl, hn⟩
  | case2 s s' h ih => exact ih

open Woof.Grammar

/-- The place that the trivia reaches to, seen from a scan that is under way. -/
def target (a : Alphabet) (s : Scanner) : Cursor :=
  match s.mode with
  | .outside => s.place.seek (skip a s.place.remaining)
  | .comment => s.place.seek (skip a (s.place.remaining.dropWhile inLine))

variable {a : Alphabet}

theorem target_of_step (h : s.step a.whitespace = some s') : s'.target a = s.target a := by
  cases moves_of_step h with
  | blank next isBlank =>
    have hb : among a.whitespace _ = true := List.contains_iff_mem.mpr isBlank
    simp only [target, Cursor.remaining_of_next? next, skip_blank _ hb]
    exact Cursor.seek_of_next? next _
  | enter next notBlank semicolon =>
    have hb := Bool.eq_false_iff.mpr fun h => notBlank (List.contains_iff_mem.mp h)
    simp only [target, Cursor.remaining_of_next? next, skip_comment _ hb semicolon]
    exact Cursor.seek_of_next? next _
  | inside next notNewline =>
    have hl : inLine _ = true := bne_iff_ne.mpr notNewline
    simp only [target, Cursor.remaining_of_next? next, List.dropWhile_cons_of_pos hl]
    exact Cursor.seek_of_next? next _
  | @leave c ended =>
    have hd : c.remaining.dropWhile inLine = c.remaining := by
      cases hr : c.remaining with
      | nil => rfl
      | cons t ts => simp [inLine, ended t (by simp [hr])]
    simp only [target, hd]

theorem skip_of_stopped (h : Stopped a.whitespace s) :
    skip a s.place.remaining = s.place.remaining := by
  cases hr : s.place.remaining with
  | nil => exact skip_nil a
  | cons t ts =>
    obtain ⟨hb, hs⟩ := h.2 t (by simp [hr])
    exact skip_other ts (Bool.eq_false_iff.mpr fun h => hb (List.contains_iff_mem.mp h)) hs

/-- No step moves the target, and the scan is over when it is there. -/
theorem stop_eq_target (s : Scanner) : s.stop a.whitespace = s.target a := by
  fun_induction stop a.whitespace s with
  | case1 s h =>
    have hs := stopped_of_step h
    rw [target, hs.1]
    simp only [skip_of_stopped hs, Cursor.seek_remaining]
  | case2 s s' h ih => rw [ih, target_of_step h]

end Scanner

namespace Grammar

open Woof.Parser

variable {a : Alphabet} {c : Cursor}

theorem exists_trivia (a : Alphabet) (c : Cursor) :
    ∃ pieces, trivia a c = .ok (.success pieces (Scanner.stop a.whitespace ⟨.outside, c⟩)) := by
  rw [Scanner.stop_eq_target]
  exact ⟨_, (reads_trivia a).of_some rfl⟩

theorem trivia_of_stopped (h : Scanner.Stopped a.whitespace ⟨.outside, c⟩) :
    trivia a c = .ok (.success [] c) := by
  have hp : readPiece a c.remaining = none := by
    cases hr : c.remaining with
    | nil => rfl
    | cons t ts =>
      obtain ⟨hb, hs⟩ := h.2 t (by simp [hr])
      simp [readPiece, among, hb, hs]
  rw [(reads_trivia a).run c, readMany_of_none hp, Scanner.skip_of_stopped h]
  simp [Outcome.landing]

theorem lexeme_of_trivia {α : Type} (p : Scan α) {pieces : List (List (Token Char))} {c' : Cursor}
    (h : trivia a c = .ok (.success pieces c')) : lexeme a p c = p c' :=
  bind_of_success h

/-- Trivia is skipped up to the place where the scan is over and not beyond it. From there nothing
more is skipped, so that to skip twice is to skip once. -/
theorem trivia_scanned (a : Alphabet) (c : Cursor) :
    ∃ pieces c', trivia a c = .ok (.success pieces c') ∧
      c' = Scanner.stop a.whitespace ⟨.outside, c⟩ ∧
      (∀ t, c'.first? = some t → t.symbol ∉ a.whitespace ∧ t.symbol ≠ ';') ∧
      trivia a c' = .ok (.success [] c') ∧
      ∀ {α : Type} (p : Scan α), lexeme a (lexeme a p) c = lexeme a p c := by
  obtain ⟨pieces, ht⟩ := exists_trivia a c
  have hs := Scanner.stopped_stop a.whitespace ⟨.outside, c⟩
  have h₂ := trivia_of_stopped hs
  refine ⟨pieces, _, ht, rfl, ?_, h₂, ?_⟩
  · intro t hf
    rw [Cursor.first?_eq_head?] at hf
    exact hs.2 t hf
  · intro α p
    rw [lexeme_of_trivia (lexeme a p) ht, lexeme_of_trivia p h₂, lexeme_of_trivia p ht]

/-- Where a newline is no blank, there is no trivia behind a comment. -/
theorem trivia_scanned_newline :
    let a : Alphabet := ⟨[], [], [' ']⟩
    let c := Cursor.ofText " ;;\n "
    let c' : Cursor := ⟨c.tokens, 3, by decide⟩
    Scanner.stop a.whitespace ⟨.outside, c⟩ = c' ∧
    c'.first? = some ⟨'\n', 1, 4⟩ ∧ ('\n' ∉ a.whitespace ∧ '\n' ≠ ';') ∧
    trivia a c' = .ok (.success [] c') := by
  intro a c c'
  have hs : Scanner.stop a.whitespace ⟨.outside, c⟩ = c' := by
    rw [Scanner.stop_eq_target]
    cbv
  have hf : c'.first? = some ⟨'\n', 1, 4⟩ := by decide
  obtain ⟨pieces, c₁, -, hc, hn, ht, -⟩ := trivia_scanned a c
  obtain rfl : c₁ = c' := hc.trans hs
  exact ⟨hs, hf, hn _ hf, ht⟩

end Grammar

end Woof

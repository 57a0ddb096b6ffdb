import Woof.Proofs.Onward
import Woof.Proofs.Refinement

namespace Woof.Grammar

open Woof.Parser Woof.Syntax

section Blanks

variable {α β : Type} {a : Alphabet} {p : Scan α} {k : α → Scan β} {c c' : Cursor}

/-- It makes no difference to the parser whether the trivia before it was skipped. -/
def IgnoresTrivia (a : Alphabet) (p : Scan α) : Prop :=
  ∀ c, p (c.seek (skip a c.remaining)) = p c

namespace IgnoresTrivia

theorem lexeme (a : Alphabet) (p : Scan α) : IgnoresTrivia a (Grammar.lexeme a p) := by
  intro c
  have hs := Cursor.remaining_seek (skip_suffix a c.remaining)
  rw [lexeme_apply, lexeme_apply, hs, skip_skip, Cursor.seek_seek]

theorem bind (h : IgnoresTrivia a p) : IgnoresTrivia a (p >>= k) := by
  intro c
  rw [bind_apply, bind_apply, h c]

theorem map (h : IgnoresTrivia a p) (f : α → β) : IgnoresTrivia a (f <$> p) := by
  intro c
  rw [map_apply, map_apply, h c]

theorem firstOf {ps : List (Scan α)} (h : ∀ p ∈ ps, IgnoresTrivia a p) :
    IgnoresTrivia a (Parser.firstOf ps) := by
  intro c
  induction ps with
  | nil => rfl
  | cons p ps ih =>
    have hs := ih fun q hq => h q (List.mem_cons_of_mem p hq)
    rw [Parser.firstOf, Parser.firstOf, h p List.mem_cons_self c, hs]

end IgnoresTrivia

theorem ignoresTrivia_special (inner : Scan Form) : IgnoresTrivia a (special a inner) := by
  apply IgnoresTrivia.firstOf
  intro p hp
  simp only [List.mem_cons, List.not_mem_nil, or_false] at hp
  rcases hp with rfl | rfl | rfl <;> exact (IgnoresTrivia.lexeme a _).bind

theorem ignoresTrivia_form (a : Alphabet) (limit : Nat) : IgnoresTrivia a (form a limit) := by
  cases limit with
  | zero => exact fun _ => rfl
  | succ limit =>
    apply IgnoresTrivia.firstOf
    intro p hp
    simp only [alternatives, List.mem_cons, List.not_mem_nil, or_false] at hp
    rcases hp with rfl | rfl | rfl | rfl | rfl
    · exact (IgnoresTrivia.lexeme a _).map _
    · exact (IgnoresTrivia.lexeme a _).map _
    · exact (IgnoresTrivia.lexeme a _).map _
    · exact (IgnoresTrivia.lexeme a _).bind
    · exact ignoresTrivia_special _

/-- Trivia between two places of a text is skipped from the first as from the second. -/
theorem skip_eq_of_trivia {ts us : List (Token Char)} (hs : us <:+ ts)
    (h : Trivia (symbols ts) (symbols us)) : skip .woof ts = skip .woof us := by
  have he : symbols (skip .woof ts) = symbols (skip .woof us) :=
    skip_of_trivia (h.trans (trivia_skip us)) (noTrivia_skip us)
  have hl : (skip .woof us).length = (skip .woof ts).length := by
    have := congrArg List.length he
    simpa using this.symm
  have hp : skip .woof us <:+ skip .woof ts :=
    List.suffix_of_suffix_length_le ((skip_suffix .woof us).trans hs) (skip_suffix .woof ts)
      (Nat.le_of_eq hl)
  exact (hp.eq_of_length hl).symm

/-- From two places with nothing but trivia between them, the parser ends the same. -/
theorem IgnoresTrivia.eq_of_trivia (h : IgnoresTrivia .woof p) (hc : c.Onward c')
    (ht : Trivia c.text c'.text) : p c = p c' := by
  have he : c.seek (skip .woof c.remaining) = c'.seek (skip .woof c'.remaining) := by
    rw [skip_eq_of_trivia hc.suffix ht]
    ext1
    · exact hc.tokens.symm
    · show c.tokens.size - _ = c'.tokens.size - _
      rw [hc.tokens]
  rw [← h c, ← h c', he]

end Blanks

variable {limit : Nat} {c c' : Cursor} {fs : List Form}

/-- Nothing but the limit on nesting interrupts the reading of a form. -/
theorem eq_tooDeep_of_form {i : Interrupt} (h : form .woof limit c = .error i) :
    i = .tooDeep := by
  have ha := Predictive.formAgrees limit (c := c) rfl
  rw [h] at ha
  cases ha
  rfl

theorem depth_le_of_form {f : Form} (h : form .woof limit c = .ok (.success f c')) :
    f.depth ≤ limit := by
  obtain ⟨s, ht, hf⟩ := sound_form limit h
  rcases form_complete hf limit c ht with ⟨-, hd⟩ | ⟨hd, -⟩
  · rw [hd] at h
    cases h
  · exact hd

theorem depth_le_of_steps (h : Steps (form .woof limit) c fs c') : ∀ f ∈ fs, f.depth ≤ limit := by
  induction h with
  | nil => simp
  | cons head _ _ ih => exact List.forall_mem_cons.mpr ⟨depth_le_of_form head, ih⟩

/-- How a run ends at the place up to which its forms are read. -/
inductive Stops (limit : Nat) (fs : List Form) (c : Cursor) :
    Except Interrupt (Outcome (List Form)) → Prop where
  | done (noForm : form .woof limit c = .ok .failure) (atEnd : skip .woof c.remaining = []) :
      Stops limit fs c (.ok (.success fs (c.seek [])))
  | unparsed {t : Token Char} {ts : List (Token Char)} (noForm : form .woof limit c = .ok .failure)
      (next : skip .woof c.remaining = t :: ts) :
      Stops limit fs c (.ok (.error ⟨.unparsedInput, t⟩))
  | faulty {d : Diagnostic} (errs : form .woof limit c = .ok (.error d)) :
      Stops limit fs c (.ok (.error d))
  | tooDeep (isDeep : form .woof limit c = .error .tooDeep) : Stops limit fs c (.error .tooDeep)

theorem unwatched_stops (hs : Steps (form .woof limit) c fs c')
    (hn : ∀ f c₁, form .woof limit c' ≠ .ok (.success f c₁)) :
    Stops limit fs c' (unwatched .woof limit c) := by
  match hf : form .woof limit c' with
  | .ok (.success f c₁) => exact absurd hf (hn f c₁)
  | .ok .failure =>
    have hz := zeroOrMore_of_steps hs hf
    cases hr : skip .woof c'.remaining with
    | nil =>
      have hu : unwatched .woof limit c = .ok (.success fs (c'.seek [])) := by
        rw [unwatched, bind_of_success hz, bind_of_success (endOfProgram_of_nil hr)]
        rfl
      rw [hu]
      exact .done hf hr
    | cons t ts =>
      have hu : unwatched .woof limit c = .ok (.error ⟨.unparsedInput, t⟩) := by
        rw [unwatched, bind_of_success hz]
        exact bind_of_error (endOfProgram_of_cons hr)
      rw [hu]
      exact .unparsed hf hr
  | .ok (.error d) =>
    have hu : unwatched .woof limit c = .ok (.error d) := bind_of_error (zeroOrMore_of_error hs hf)
    rw [hu]
    exact .faulty hf
  | .error i =>
    obtain rfl := eq_tooDeep_of_form hf
    have hu : unwatched .woof limit c = .error .tooDeep :=
      bind_of_interrupt (zeroOrMore_of_interrupt hs hf)
    rw [hu]
    exact .tooDeep hf

end Woof.Grammar

namespace Woof

open Woof.Grammar Woof.Parser

/-- Every text is read up to some place: the forms before it are delivered, one by one and in
order, and there the run ends, unless the receiver objected to a form. -/
theorem exists_run (limit : Nat) (text : String) :
    ∃ fs c, Steps (form .woof limit) (.ofText text) fs c ∧
      Stops limit fs c (unwatched .woof limit (.ofText text)) ∧
      ∀ {σ : Type} (receive : Receiver σ) (record : σ),
        parseWithin limit receive record text =
          receive.delivering text fs record (parseWithin limit Receiver.ignore () text).1 := by
  obtain ⟨fs, c, hs, hn⟩ := exists_form_steps limit (.ofText text)
  exact ⟨fs, c, hs, unwatched_stops hs hn, fun receive record =>
    parseWithin_of_steps receive record hs hn⟩

/-- A receiver is told of the forms that a text is read as, and of no others. -/
theorem parseWithin_of_ok {limit : Nat} {text : String} {fs : List Form}
    (h : (parseWithin limit Receiver.ignore () text).1 = .ok fs) {σ : Type} (receive : Receiver σ)
    (record : σ) :
    parseWithin limit receive record text = receive.delivering text fs record (.ok fs) := by
  obtain ⟨gs, c, -, hstop, hr⟩ := exists_run limit text
  rw [hr, h]
  rw [parseWithin_ignore] at h
  generalize unwatched .woof limit (.ofText text) = run at hstop h
  cases hstop with
  | done => rw [Except.ok.inj h]
  | unparsed | faulty | tooDeep => cases h

end Woof

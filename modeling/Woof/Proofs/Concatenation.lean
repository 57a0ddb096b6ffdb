import Woof.Proofs.Frame
import Woof.Proofs.Likeness
import Woof.Proofs.Position
import Woof.Proofs.Run

namespace Woof

open Woof.Grammar Woof.Parser Woof.Syntax

/-- A token matches the one that stands so many lines below it. -/
def Matching.below (lines : Nat) : Matching where
  Matches t u := u = { t with line := t.line + lines }
  symbol_eq := by
    rintro t u rfl
    rfl

/-- How many lines below its own place a text stands once another is put before it. -/
def linesBefore (s : String) : Nat := 1 + s.toList.count '\n'

/-- The place where the second of two texts begins. -/
theorem exists_second (s t : String) :
    ∃ c, Cursor.Onward (.ofText (s ++ "\n" ++ t)) c ∧ c.text = t.toList ∧
      (Matching.below (linesBefore s)).Alike (.ofText t) c := by
  have ht : (s ++ "\n" ++ t).toList = (s.toList ++ ['\n']) ++ t.toList := by simp
  have hr : (Cursor.ofText (s ++ "\n" ++ t)).remaining =
      Token.tag '\n' (s.toList ++ ['\n']) ++
        (Cursor.ofText t).remaining.map (Token.after '\n' (s.toList ++ ['\n'])) := by
    rw [Cursor.remaining_ofText, ht, Token.tag_append, Cursor.remaining_ofText]
  have hs : (Cursor.ofText t).remaining.map (Token.after '\n' (s.toList ++ ['\n'])) <:+
      (Cursor.ofText (s ++ "\n" ++ t)).remaining := by
    rw [hr]
    exact List.suffix_append _ _
  refine ⟨_, .of_seek hs, ?_, ?_⟩
  · rw [Cursor.text_seek hs, List.map_map, ← Cursor.text_ofText t]
    rfl
  · rw [Matching.Alike, Cursor.remaining_seek hs]
    refine List.forall₂_map_right_iff.mpr (List.forall₂_same.mpr fun u _ => ?_)
    show Token.after '\n' (s.toList ++ ['\n']) u = _
    rw [Token.after_append_newline, linesBefore, Nat.add_comm 1]

section Front

variable {limit : Nat} {fs gs : List Form} {c c' e : Cursor}

/-- The forms of a text are found in front of a newline too, and what is left of the text then is
trivia. -/
theorem forms_before_newline {s t : List Char} (h : ProgramText fs s) :
    ∃ r, FormsText fs (s ++ '\n' :: t) r ∧ Trivia r t := by
  obtain ⟨r, hf, ht⟩ := h
  obtain ⟨u, rfl, hu⟩ := hf.framed
  obtain ⟨w, rfl, hw⟩ := ht.framed
  rw [List.append_nil] at hu
  have hn : Trivia ('\n' :: t) t := .blank (by decide) (.done t)
  refine ⟨w ++ '\n' :: t, ?_, (hw _ (.newline [] t)).trans hn⟩
  have hb := hu _ (Closes.append_newline w t)
  simpa using hb

/-- Trivia before the forms makes no difference to how they are read or to what comes after. -/
theorem exists_steps_of_trivia (hc : c.Onward c') (ht : Trivia c.text c'.text)
    (hs : Steps (form .woof limit) c' gs e) :
    ∃ e', Steps (form .woof limit) c gs e' ∧ form .woof limit e' = form .woof limit e ∧
      endOfProgram .woof e' = endOfProgram .woof e := by
  have hf := (ignoresTrivia_form .woof limit).eq_of_trivia hc ht
  cases hs with
  | nil => exact ⟨c, .nil c, hf, (IgnoresTrivia.lexeme .woof _).eq_of_trivia hc ht⟩
  | cons head less tail =>
    exact ⟨e, .cons (hf.trans head) (Nat.lt_of_lt_of_le less hc.left_le) tail, rfl, rfl⟩

end Front

section Behind

variable {limit : Nat} {fs gs hs : List Form} {s t : String} {c start e : Cursor}

/-- Behind the forms of one text, those of the other are read one by one, and reading ends there as
it does in the other text alone. -/
theorem exists_steps_of_concat (h : (parseWithin limit Receiver.ignore () s).1 = .ok fs)
    (ht : Steps (form .woof limit) (.ofText t) gs c) :
    ∃ e, Steps (form .woof limit) (.ofText (s ++ "\n" ++ t)) (fs ++ gs) e ∧
      (Matching.below (linesBefore s)).Ends Eq (form .woof limit c) (form .woof limit e) ∧
      (Matching.below (linesBefore s)).Ends Eq (endOfProgram .woof c) (endOfProgram .woof e) := by
  obtain ⟨hp, -, hd⟩ := parseWithin_eq_ok_iff.mp h
  obtain ⟨r, hf, hr⟩ := forms_before_newline (t := t.toList) hp
  have hx : (Cursor.ofText (s ++ "\n" ++ t)).text = s.toList ++ '\n' :: t.toList := by
    rw [Cursor.text_ofText]
    simp
  rcases forms_complete hf limit _ hx with ⟨hn, -⟩ | ⟨-, c₁, hs₁, rfl⟩
  · have hd' := Form.depthAll_le_iff.mpr hd
    omega
  · -- from behind the last form of the first text to the start of the second there is only trivia
    obtain ⟨b, hb, hbt, ha⟩ := exists_second s t
    have ho : c₁.Onward b := by
      apply Cursor.Onward.of_left_le
      · rw [hb.tokens, (hs₁.onward (advances_form .woof limit)).tokens]
      · rw [← Cursor.length_text, ← Cursor.length_text, hbt]
        exact hr.length_le
    obtain ⟨e, hs₂, he⟩ := Matching.exists_steps_of_alike (Matching.parses_form .woof limit) ht ha
    obtain ⟨e', hs₃, hf', hend⟩ := exists_steps_of_trivia ho (hbt ▸ hr) hs₂
    refine ⟨e', hs₁.append hs₃, ?_, ?_⟩
    · rw [hf']
      exact Matching.parses_form .woof limit he
    · rw [hend]
      exact Matching.parses_endOfProgram .woof he

/-- Runs whose last steps are alike end alike. -/
theorem ends_unwatched {M : Matching} {run : Except Interrupt (Outcome (List Form))}
    (h : Stops limit gs c run) (hst : Steps (form .woof limit) start hs e)
    (hf : M.Ends Eq (form .woof limit c) (form .woof limit e))
    (hend : M.Ends Eq (endOfProgram .woof c) (endOfProgram .woof e)) :
    M.Ends (fun v w => v = gs ∧ w = hs) run (unwatched .woof limit start) := by
  cases h with
  | done noForm atEnd =>
    have hn := (noForm ▸ hf).of_failure
    rw [endOfProgram_of_nil atEnd] at hend
    obtain ⟨_, d, hd, -, hr⟩ := hend.of_success
    rw [unwatched, bind_of_success (zeroOrMore_of_steps hst hn), bind_of_success hd]
    exact .success ⟨rfl, rfl⟩ hr
  | unparsed noForm next =>
    have hn := (noForm ▸ hf).of_failure
    rw [endOfProgram_of_cons next] at hend
    obtain ⟨d, hd, hm⟩ := hend.of_error
    rw [unwatched, bind_of_success (zeroOrMore_of_steps hst hn), bind_of_error hd]
    exact .error hm
  | faulty errs =>
    obtain ⟨d, hd, hm⟩ := (errs ▸ hf).of_error
    rw [unwatched, bind_of_error (zeroOrMore_of_error hst hd)]
    exact .error hm
  | tooDeep isDeep =>
    have hn := (isDeep ▸ hf).of_interrupt
    rw [unwatched, bind_of_interrupt (zeroOrMore_of_interrupt hst hn)]
    exact .interrupt _

end Behind

/-- The place of a diagnostic, so many lines further down. -/
def Diagnostic.below (lines : Nat) (d : Diagnostic) : Diagnostic :=
  { d with location := { d.location with line := d.location.line + lines } }

theorem eq_below_of_diagnoses {lines : Nat} {d e : Diagnostic}
    (h : (Matching.below lines).Diagnoses d e) : e = d.below lines := by
  cases h with
  | mk fault token =>
    rw [token, Diagnostic.below]
    simp [Token.location]

/-- What reading comes to where the two runs end alike. Forms nested too deep are reported at the
first token, wherever they are, so that nothing is said of them. -/
theorem parseWithin_of_ends {limit lines : Nat} {fs gs : List Form} {t text : String}
    (h : (Matching.below lines).Ends (fun v w => v = gs ∧ w = fs ++ gs)
      (unwatched .woof limit (.ofText t)) (unwatched .woof limit (.ofText text))) :
    (∀ vs, (parseWithin limit Receiver.ignore () t).1 = .ok vs →
      (parseWithin limit Receiver.ignore () text).1 = .ok (fs ++ vs)) ∧
    ∀ d, (parseWithin limit Receiver.ignore () t).1 = .error (.malformed d) →
      d.fault ≠ .nestingTooDeep →
      (parseWithin limit Receiver.ignore () text).1 = .error (.malformed (d.below lines)) := by
  rw [parseWithin_ignore, parseWithin_ignore]
  generalize unwatched .woof limit (.ofText t) = x at h ⊢
  generalize unwatched .woof limit (.ofText text) = y at h ⊢
  cases h with
  | success value _ =>
    obtain ⟨rfl, rfl⟩ := value
    refine ⟨?_, by simp [ParseError.ofRun]⟩
    intro vs hv
    obtain rfl := Except.ok.inj hv
    rfl
  | failure => simp [ParseError.ofRun]
  | error diagnostic =>
    refine ⟨by simp [ParseError.ofRun], ?_⟩
    intro d hd _
    obtain rfl := ParseError.malformed.inj (Except.error.inj hd)
    rw [eq_below_of_diagnoses diagnostic]
    rfl
  | interrupt i =>
    refine ⟨by simp [ParseError.ofRun], ?_⟩
    intro d hd hn
    exact absurd (ParseError.fault_of_ofInterrupt (Except.error.inj hd)) hn

/-- A text that is read and another below it are read as the forms of the one and then those of the
other. What is wrong with the other is wrong with the two of them, at the same token so many lines
further down, and then the forms of the one and those of the other before the fault have been
delivered. -/
theorem parseWithin_concat {limit : Nat} {s : String} {fs : List Form}
    (h : (parseWithin limit Receiver.ignore () s).1 = .ok fs) (t : String) :
    (∀ gs, (parseWithin limit Receiver.ignore () t).1 = .ok gs →
      (parseWithin limit Receiver.ignore () (s ++ "\n" ++ t)).1 = .ok (fs ++ gs)) ∧
    ∀ fault symbol line column seen,
      parseWithin limit Receiver.collect #[] t =
        (.error (.malformed ⟨fault, symbol, line, column⟩), seen) → fault ≠ .nestingTooDeep →
      parseWithin limit Receiver.collect #[] (s ++ "\n" ++ t) =
        (.error (.malformed ⟨fault, symbol, line + 1 + s.toList.count '\n', column⟩),
          fs.toArray ++ seen) := by
  obtain ⟨gs, c, hs, hn⟩ := exists_form_steps limit (.ofText t)
  obtain ⟨e, hst, hf, hend⟩ := exists_steps_of_concat h hs
  have hends := parseWithin_of_ends (ends_unwatched (unwatched_stops hs hn) hst hf hend)
  refine ⟨hends.1, ?_⟩
  intro fault symbol line column seen hd hk
  rw [parseWithin_of_steps _ _ hs hn, Receiver.delivering_collect] at hd
  obtain ⟨hm, rfl⟩ := Prod.mk.inj hd
  have hl : line + 1 + s.toList.count '\n' = line + (linesBefore s : Nat) := by
    rw [linesBefore]
    omega
  rw [parseWithin_of_steps _ _ hst (hf.ne_success hn), Receiver.delivering_collect,
    hends.2 _ hm hk, hl]
  simp [Diagnostic.below]

theorem parseWithin_concat_comment :
    (parseWithin 1 Receiver.ignore () "x ;c").1 = .ok [.symbol "x"] ∧
    parseWithin 1 Receiver.collect #[] "y )" =
      (.error (.malformed ⟨.unparsedInput, ⟨")", 1, 3⟩⟩), #[.symbol "y"]) ∧
    parseWithin 1 Receiver.collect #[] ("x ;c" ++ "\n" ++ "y )") =
      (.error (.malformed ⟨.unparsedInput, ⟨")", 2, 3⟩⟩), #[.symbol "x", .symbol "y"]) := by
  have hs : (parseWithin 1 Receiver.ignore () "x ;c").1 = .ok [.symbol "x"] := by
    rw [parseWithin_ignore]
    cbv
  have ht : parseWithin 1 Receiver.collect #[] "y )" =
      (.error (.malformed ⟨.unparsedInput, ⟨")", 1, 3⟩⟩), #[.symbol "y"]) := by
    have hy : Steps (form .woof 1) (.ofText "y )") [.symbol "y"]
        ((Cursor.ofText "y )").seek [⟨' ', 1, 2⟩, ⟨')', 1, 3⟩]) :=
      .cons (by cbv) (by cbv) (.nil _)
    have hn : form .woof 1 ((Cursor.ofText "y )").seek [⟨' ', 1, 2⟩, ⟨')', 1, 3⟩]) =
        .ok .failure := by cbv
    rw [parseWithin_of_steps _ _ hy (by simp [hn]), parseWithin_ignore,
      Receiver.delivering_collect]
    cbv
  exact ⟨hs, ht, (parseWithin_concat hs "y )").2 _ _ _ _ _ ht (by decide)⟩

end Woof

import Woof.Grammar.Form
import Woof.Proofs.Lexeme

namespace Woof.Grammar

open Woof.Parser

variable {a : Alphabet} {inner : Scan Form} {limit : Nat} {c c' : Cursor} {t : Token Char}
  {ts rest : List (Token Char)}

/-- What is read of an application once it is open. -/
def afterParen (a : Alphabet) (inner : Scan Form) (opening : Token Char) : Scan Form := do
  let operator ← expecting ⟨.applicationMissingOperator, opening⟩ inner
  let operands ← zeroOrMore inner
  let _ ← expecting ⟨.applicationMissingClose, opening⟩ (closeParen a)
  return .application operator operands

/-- What is read of a definition after its word. -/
def afterDefine (a : Alphabet) (inner : Scan Form) (opening : Token Char) : Scan Form := do
  let doc ← optional (stringLiteral a)
  let name ← expecting ⟨.defineMissingSymbol, opening⟩ (symbol a)
  let value ← expecting ⟨.defineMissingForm, opening⟩ inner
  let _ ← expecting ⟨.defineMissingClose, opening⟩ (closeCurly a)
  return .define doc name value

/-- What is read of a function after its word. -/
def afterLambda (a : Alphabet) (inner : Scan Form) (opening : Token Char) : Scan Form := do
  let paramsOpening ← expecting ⟨.lambdaMissingParameters, opening⟩ (openCurly a)
  let params ← parameters a paramsOpening
  let _ ← expecting ⟨.lambdaMissingParametersClose, paramsOpening⟩ (closeCurly a)
  let body ← expecting ⟨.lambdaMissingBody, opening⟩ (oneOrMore inner)
  let _ ← expecting ⟨.lambdaMissingClose, opening⟩ (closeCurly a)
  return .lambda params body

theorem define_eq (a : Alphabet) (inner : Scan Form) :
    define a inner = openCurly a >>= fun opening =>
      keyword a "define" >>= fun _ => afterDefine a inner opening := rfl

theorem lambda_eq (a : Alphabet) (inner : Scan Form) :
    lambda a inner = openCurly a >>= fun opening =>
      keyword a "lambda" >>= fun _ => afterLambda a inner opening := rfl

theorem committed_afterDefine (a : Alphabet) (inner : Scan Form) (opening : Token Char) :
    Committed (afterDefine a inner opening) :=
  (Committed.optional _).bind fun _ => (Committed.expecting _ _).bind fun _ =>
    (Committed.expecting _ _).bind fun _ => (Committed.expecting _ _).bind fun _ =>
      Committed.of_pure _

theorem committed_afterParen (a : Alphabet) (inner : Scan Form) (opening : Token Char) :
    Committed (afterParen a inner opening) :=
  (Committed.expecting _ _).bind fun _ => (Committed.zeroOrMore _).bind fun _ =>
    (Committed.expecting _ _).bind fun _ => Committed.of_pure _

theorem committed_parameters (a : Alphabet) (opening : Location) :
    Committed (parameters a opening) := by
  refine (Committed.zeroOrMore _).bind fun names => ?_
  cases firstRepeated names with
  | none => exact Committed.of_pure _
  | some name => exact Committed.reject _

/-- Behind the symbols the parameters are read just if no two of them are the same. -/
theorem parameters_of_steps (place : Location) {names : List String}
    (h : Steps (symbol a) c names c') (hf : symbol a c' = .ok .failure) :
    parameters a place c = .ok (if names.Nodup then .success names c'
      else .error ⟨.lambdaDuplicateParameters, place⟩) := by
  rw [parameters, bind_of_success (zeroOrMore_of_steps h hf)]
  by_cases hd : names.Nodup
  · rw [firstRepeated_eq_none_iff.mpr hd, if_pos hd]
    rfl
  · cases hr : firstRepeated names with
    | none => exact absurd (firstRepeated_eq_none_iff.mp hr) hd
    | some name =>
      rw [if_neg hd]
      rfl

theorem committed_afterLambda (a : Alphabet) (inner : Scan Form) (opening : Token Char) :
    Committed (afterLambda a inner opening) :=
  (Committed.expecting _ _).bind fun _ => (committed_parameters a _).bind fun _ =>
    (Committed.expecting _ _).bind fun _ => (Committed.expecting _ _).bind fun _ =>
      (Committed.expecting _ _).bind fun _ => Committed.of_pure _

/-- The first character after trivia. -/
def ahead (a : Alphabet) (c : Cursor) : Option Char :=
  (skip a c.remaining).head?.map Token.symbol

theorem ahead_of_skip (h : skip a c.remaining = t :: ts) : ahead a c = some t.symbol := by
  rw [ahead, h]
  rfl

theorem readSymbol_eq_none (h : ∀ x ∈ ahead a c, x ∉ a.symbolStarts) :
    readSymbol a (skip a c.remaining) = none := by
  cases hs : skip a c.remaining with
  | nil => rfl
  | cons t ts => exact readSymbol_of_not_start (h t.symbol (ahead_of_skip hs))

theorem readNumber_eq_none (h : ∀ x ∈ ahead .woof c, x ∉ Alphabet.woof.digits) :
    readNumber (skip .woof c.remaining) = none := by
  cases hs : skip .woof c.remaining with
  | nil => rfl
  | cons t ts => exact readNumber_of_not_digit (h t.symbol (ahead_of_skip hs))

theorem headIf_eq_none {x : Char} (h : ahead a c ≠ some x) :
    headIf (·.symbol == x) (skip a c.remaining) = none := by
  cases hs : skip a c.remaining with
  | nil => rfl
  | cons t ts =>
    have hx : t.symbol ≠ x := fun e => h (e ▸ ahead_of_skip hs)
    simp [headIf, hx]

theorem readString_eq_none (h : ahead a c ≠ some '\x22') :
    readString (skip a c.remaining) = none := by
  cases hs : skip a c.remaining with
  | nil => rfl
  | cons t ts =>
    apply readString_of_not_quote
    intro hq
    exact h (hq ▸ ahead_of_skip hs)

theorem delimiter_of_ne {x : Char} (h : ahead a c ≠ some x) :
    delimiter a x c = .ok .failure :=
  (reads_delimiter a x).of_none (headIf_eq_none h)

theorem delimiter_of_skip {x : Char} (h : skip a c.remaining = t :: ts) (hx : t.symbol = x) :
    delimiter a x c = .ok (.success t (c.seek ts)) := by
  apply (reads_delimiter a x).of_some
  simp [h, headIf, hx]

theorem symbolForm_of_ahead (h : ∀ x ∈ ahead a c, x ∉ a.symbolStarts) :
    symbolForm a c = .ok .failure := by
  rw [symbolForm, map_apply, (reads_symbol a).of_none (readSymbol_eq_none h)]
  rfl

theorem numberForm_of_ahead (h : ∀ x ∈ ahead .woof c, x ∉ Alphabet.woof.digits) :
    numberForm .woof c = .ok .failure := by
  rw [numberForm, map_apply, reads_number.of_none (readNumber_eq_none h)]
  rfl

theorem stringForm_of_ahead (h : ahead a c ≠ some '\x22') : stringForm a c = .ok .failure := by
  rw [stringForm, map_apply, (reads_stringLiteral a).of_none (readString_eq_none h)]
  rfl

theorem application_of_ahead (h : ahead a c ≠ some '(') :
    application a inner c = .ok .failure :=
  bind_of_failure (delimiter_of_ne h)

theorem application_of_skip (h : skip a c.remaining = t :: ts) (ht : t.symbol = '(') :
    application a inner c = afterParen a inner t (c.seek ts) :=
  bind_of_success (delimiter_of_skip h ht)

theorem special_of_ahead (h : ahead a c ≠ some '\x7b') : special a inner c = .ok .failure := by
  have hd : define a inner c = .ok .failure := bind_of_failure (delimiter_of_ne h)
  have hl : lambda a inner c = .ok .failure := bind_of_failure (delimiter_of_ne h)
  rw [special, firstOf_cons_of_failure hd, firstOf_cons_of_failure hl]
  exact firstOf_cons_of_failure (bind_of_failure (delimiter_of_ne h))

theorem special_of_define (h : skip a c.remaining = t :: ts) (ht : t.symbol = '\x7b')
    (hw : readSymbol a (skip a ts) = some ("define", rest)) :
    special a inner c = afterDefine a inner t (c.seek rest) := by
  have hs : ts <:+ c.remaining := (List.suffix_cons t ts).trans (h ▸ skip_suffix a _)
  have hk : keyword a "define" (c.seek ts) = .ok (.success "define" (c.seek rest)) := by
    apply (reads_keyword a "define").of_some
    rw [Cursor.remaining_seek hs, hw]
    rfl
  have ho : openCurly a c = .ok (.success t (c.seek ts)) := delimiter_of_skip h ht
  have hd : define a inner c = afterDefine a inner t (c.seek rest) := by
    rw [define_eq, bind_of_success ho, bind_of_success hk]
  have hn := committed_afterDefine a inner t (c.seek rest)
  rw [special, firstOf_cons_of_ne (hd ▸ hn), hd]

theorem keyword_of_other {word : String}
    (hw : ∀ rest, readSymbol a (skip a ts) ≠ some (word, rest)) (hs : ts <:+ c.remaining) :
    keyword a word (c.seek ts) = .ok .failure := by
  apply (reads_keyword a word).of_none
  rw [Cursor.remaining_seek hs]
  cases hr : readSymbol a (skip a ts) with
  | none => rfl
  | some r =>
    have hne : r.1 ≠ word := by
      rintro rfl
      exact hw r.2 hr
    simp [Option.filter, hne]

theorem special_of_lambda (h : skip a c.remaining = t :: ts) (ht : t.symbol = '\x7b')
    (hw : readSymbol a (skip a ts) = some ("lambda", rest)) :
    special a inner c = afterLambda a inner t (c.seek rest) := by
  have hs : ts <:+ c.remaining := (List.suffix_cons t ts).trans (h ▸ skip_suffix a _)
  have hk : keyword a "lambda" (c.seek ts) = .ok (.success "lambda" (c.seek rest)) := by
    apply (reads_keyword a "lambda").of_some
    rw [Cursor.remaining_seek hs, hw]
    rfl
  have ho : openCurly a c = .ok (.success t (c.seek ts)) := delimiter_of_skip h ht
  have hd : define a inner c = .ok .failure := by
    rw [define_eq, bind_of_success ho]
    exact bind_of_failure (keyword_of_other (by simp [hw]) hs)
  have hl : lambda a inner c = afterLambda a inner t (c.seek rest) := by
    rw [lambda_eq, bind_of_success ho, bind_of_success hk]
  have hn := committed_afterLambda a inner t (c.seek rest)
  rw [special, firstOf_cons_of_failure hd, firstOf_cons_of_ne (hl ▸ hn), hl]

/-- Neither of the two words stands behind the curly. -/
theorem special_of_other (h : skip a c.remaining = t :: ts) (ht : t.symbol = '\x7b')
    (hd : ∀ rest, readSymbol a (skip a ts) ≠ some ("define", rest))
    (hl : ∀ rest, readSymbol a (skip a ts) ≠ some ("lambda", rest)) :
    special a inner c = .ok (.error ⟨.specialUnparseable, t⟩) := by
  have hs : ts <:+ c.remaining := (List.suffix_cons t ts).trans (h ▸ skip_suffix a _)
  have ho : openCurly a c = .ok (.success t (c.seek ts)) := delimiter_of_skip h ht
  have hdf : define a inner c = .ok .failure := by
    rw [define_eq, bind_of_success ho]
    exact bind_of_failure (keyword_of_other hd hs)
  have hlf : lambda a inner c = .ok .failure := by
    rw [lambda_eq, bind_of_success ho]
    exact bind_of_failure (keyword_of_other hl hs)
  rw [special, firstOf_cons_of_failure hdf, firstOf_cons_of_failure hlf, firstOf_cons_of_ne]
  · exact bind_of_success ho
  · rw [bind_of_success ho]
    exact Committed.reject _ _

theorem form_succ (a : Alphabet) (limit : Nat) :
    form a (limit + 1) =
      firstOf [symbolForm a, numberForm a, stringForm a, application a (form a limit),
        special a (form a limit)] := rfl

section Dispatch

variable {x : Char}

theorem form_of_start (h : ahead .woof c = some x) (hx : x ∈ Alphabet.woof.symbolStarts) :
    form .woof (limit + 1) c = symbolForm .woof c := by
  have hn : symbolForm .woof c ≠ .ok .failure := by
    cases hs : skip .woof c.remaining with
    | nil => simp [ahead, hs] at h
    | cons t ts =>
      obtain rfl : t.symbol = x := by simpa [ahead, hs] using h
      have hr : readSymbol .woof (skip .woof c.remaining) =
          some (spell (t :: ts.takeWhile (inName .woof)), ts.dropWhile (inName .woof)) := by
        simp [hs, readSymbol, among, hx]
      rw [symbolForm, map_apply, (reads_symbol .woof).of_some hr]
      simp [Bind.bind, Except.bind, pure, Except.pure]
  rw [form_succ, firstOf_cons_of_ne hn]

/-- Behind anything but the start of a symbol, the other kinds of form are tried. -/
theorem form_of_not_start (h : ∀ x ∈ ahead .woof c, x ∉ Alphabet.woof.symbolStarts) :
    form .woof (limit + 1) c =
      firstOf [numberForm .woof, stringForm .woof, application .woof (form .woof limit),
        special .woof (form .woof limit)] c := by
  rw [form_succ, firstOf_cons_of_failure (symbolForm_of_ahead h)]

theorem form_of_digit (h : ahead .woof c = some x) (hx : x ∈ Alphabet.woof.digits) :
    form .woof (limit + 1) c = numberForm .woof c := by
  have hn : numberForm .woof c ≠ .ok .failure := by
    cases hs : skip .woof c.remaining with
    | nil => simp [ahead, hs] at h
    | cons t ts =>
      obtain rfl : t.symbol = x := by simpa [ahead, hs] using h
      have ht : among Alphabet.woof.digits t = true := by simpa [among] using hx
      cases hr : readNumber (skip .woof c.remaining) with
      | none => simp [hs, readNumber, List.takeWhile_cons_of_pos ht] at hr
      | some r =>
        rw [numberForm, map_apply, reads_number.of_some hr]
        simp [Bind.bind, Except.bind, pure, Except.pure]
  have hs : ∀ y ∈ ahead .woof c, y ∉ Alphabet.woof.symbolStarts := by
    intro y hy hm
    obtain rfl : x = y := Option.some.inj (h.symm.trans hy)
    exact (Alphabet.classes_disjoint.1 x hm).1 hx
  rw [form_of_not_start hs, firstOf_cons_of_ne hn]

/-- Behind a mark, only strings, applications and curlies are left to try. -/
theorem form_of_mark (h : ∀ x ∈ ahead .woof c,
      x ∉ Alphabet.woof.symbolStarts ∧ x ∉ Alphabet.woof.digits) :
    form .woof (limit + 1) c =
      firstOf [stringForm .woof, application .woof (form .woof limit),
        special .woof (form .woof limit)] c := by
  rw [form_of_not_start fun x hx => (h x hx).1,
    firstOf_cons_of_failure (numberForm_of_ahead fun x hx => (h x hx).2)]

theorem not_in_class_of_mark (h : ahead .woof c = some x) (hx : x ∈ Alphabet.marks) :
    ∀ y ∈ ahead .woof c, y ∉ Alphabet.woof.symbolStarts ∧ y ∉ Alphabet.woof.digits := by
  intro y hy
  obtain rfl : x = y := Option.some.inj (h.symm.trans hy)
  exact Alphabet.not_mem_of_mark hx

theorem form_of_quote (h : ahead .woof c = some '\x22') :
    form .woof (limit + 1) c = stringForm .woof c := by
  rw [form_of_mark (not_in_class_of_mark h (by decide))]
  by_cases hn : stringForm .woof c = .ok .failure
  · have ha : application .woof (form .woof limit) c = .ok .failure :=
      application_of_ahead (by simp [h])
    have hs : special .woof (form .woof limit) c = .ok .failure :=
      special_of_ahead (by simp [h])
    rw [firstOf_cons_of_failure hn, firstOf_cons_of_failure ha, firstOf_singleton, hs, hn]
  · exact firstOf_cons_of_ne hn

theorem form_of_paren (h : skip .woof c.remaining = t :: ts) (ht : t.symbol = '(') :
    form .woof (limit + 1) c = afterParen .woof (form .woof limit) t (c.seek ts) := by
  have ha : ahead .woof c = some '(' := ht ▸ ahead_of_skip h
  have hs : stringForm .woof c = .ok .failure := stringForm_of_ahead (by simp [ha])
  have he : application .woof (form .woof limit) c =
      afterParen .woof (form .woof limit) t (c.seek ts) := application_of_skip h ht
  have hn := committed_afterParen .woof (form .woof limit) t (c.seek ts)
  rw [form_of_mark (not_in_class_of_mark ha (by decide)), firstOf_cons_of_failure hs,
    firstOf_cons_of_ne (he ▸ hn), he]

theorem form_of_curly (h : ahead .woof c = some '\x7b') :
    form .woof (limit + 1) c = special .woof (form .woof limit) c := by
  have hs : stringForm .woof c = .ok .failure := stringForm_of_ahead (by simp [h])
  have hp : application .woof (form .woof limit) c = .ok .failure :=
    application_of_ahead (by simp [h])
  rw [form_of_mark (not_in_class_of_mark h (by decide)), firstOf_cons_of_failure hs,
    firstOf_cons_of_failure hp, firstOf_singleton]

theorem form_of_other (h : ∀ x ∈ ahead .woof c,
      x ∉ Alphabet.woof.symbolStarts ∧ x ∉ Alphabet.woof.digits)
    (hq : ahead .woof c ≠ some '\x22') (hp : ahead .woof c ≠ some '(')
    (hb : ahead .woof c ≠ some '\x7b') : form .woof (limit + 1) c = .ok .failure := by
  rw [form_of_mark h, firstOf_cons_of_failure (stringForm_of_ahead hq),
    firstOf_cons_of_failure (application_of_ahead hp), firstOf_singleton, special_of_ahead hb]

end Dispatch

end Woof.Grammar

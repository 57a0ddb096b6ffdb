import Woof.Proofs.Program
import Woof.Proofs.Writing

namespace Woof.Syntax

theorem symbol_name {name : String} {s r : List Char} (h : Symbol name s r) :
    Writer.name (.text name) = pure name :=
  Writer.name_of_isName h.isName

theorem symbols_names {names : List String} {s r : List Char} (h : Symbols names s r) :
    ∀ name ∈ names, Writer.name (.text name) = pure name := by
  induction h with
  | nil => simp
  | cons _ head _ ih => exact List.forall_mem_cons.mpr ⟨symbol_name head, ih⟩

mutual

/-- What the grammar derives satisfies all that the writer asks for. -/
theorem FormText.wellFormed : {f : Form} → {s r : List Char} → FormText f s r → f.WellFormed
  | _, _, _, .symbol text => symbol_name text
  | _, _, _, .number text => by
    obtain ⟨ds, -, -, -, hn⟩ := text.exists_digits
    rw [Form.WellFormed, hn]
    exact Int.natCast_nonneg _
  | _, _, _, .string _ => trivial
  | _, _, _, .application parts _ => parts.wellFormed
  | _, _, _, .define _ _ _ _ named _ body _ => ⟨symbol_name named, body.wellFormed⟩
  | _, _, _, .lambda _ _ _ names distinct _ body _ =>
    ⟨symbols_names names, distinct, List.cons_ne_nil _ _, body.wellFormed⟩

theorem FormsText.wellFormed :
    {fs : List Form} → {s r : List Char} → FormsText fs s r → Form.WellFormedAll fs
  | _, _, _, .nil _ => trivial
  | _, _, _, .cons _ head tail => ⟨head.wellFormed, tail.wellFormed⟩

end

theorem ProgramText.wellFormed {fs : List Form} {s : List Char} (h : ProgramText fs s) :
    ∀ f ∈ fs, f.WellFormed := by
  obtain ⟨r, hf, -⟩ := h
  exact Form.wellFormedAll_iff.mp hf.wellFormed

end Woof.Syntax

namespace Woof

open Woof.Syntax

theorem toList_lines (fs : List Form) :
    (Writer.lines fs).toList = fs.flatMap fun f => f.text.toList ++ ['\n'] := by
  simp [Writer.lines, String.toList_join, List.flatMap_map]

/-- The text of well-formed forms is read as these forms, within the limit. -/
theorem parseWithin_lines {fs : List Form} (h : ∀ f ∈ fs, f.WellFormed) (limit : Nat) :
    (parseWithin limit Receiver.ignore () (Writer.lines fs)).1 =
      if 0 < limit ∧ Form.depthAll fs ≤ limit then .ok fs
      else .error (.tooDeep (Writer.lines fs)) := by
  apply parseWithin_complete
  rw [toList_lines]
  exact programText_lines h

theorem program_run {fs : List Form} (h : ∀ f ∈ fs, f.WellFormed) (limit : Nat)
    (casts : List Cast) :
    Writer.program limit (fs.map .ofForm) casts =
      if Form.depthAll fs ≤ limit then (.ok (Writer.lines fs), casts)
      else (.error .tooDeep, casts) := by
  rw [Writer.program_ofForms h limit, Writer.within]
  split <;> rfl

/-- What was written is read as forms equal to those that it was written for, unless they are
nested too deep for the reader, and these forms are written the same again, with no cast. -/
theorem parse_written (n m : Nat) {vs : List Value} {text : String} {casts casts' : List Cast}
    (h : Writer.program n vs casts = (.ok text, casts')) :
    (¬ (0 < m ∧ n ≤ m) ∧
      (parseWithin m Receiver.ignore () text).1 = .error (.tooDeep text)) ∨
    ∃ gs, (parseWithin m Receiver.ignore () text).1 = .ok gs ∧
      ∀ k, n ≤ k →
        Value.equalWithin k (.list vs) (.list (gs.map .ofForm)) = some true ∧
        ∀ record, Writer.program k (gs.map .ofForm) record = (.ok text, record) := by
  obtain ⟨gs, hw, hd, rfl, he⟩ := Writer.program_sound h
  have hp := parseWithin_lines hw m
  by_cases hm : 0 < m ∧ Form.depthAll gs ≤ m
  · rw [if_pos hm] at hp
    refine .inr ⟨gs, hp, ?_⟩
    intro k hk
    have hle : Form.depthAll gs ≤ k := Nat.le_trans hd hk
    refine ⟨he k hle, ?_⟩
    intro record
    rw [program_run hw, if_pos hle]
  · rw [if_neg hm] at hp
    exact .inl ⟨by omega, hp⟩

/-- The float 2.0 is written as a whole number, and read as one. -/
theorem parse_written_float :
    ∃ gs, (parseWithin 2 Receiver.ignore () "(f 2)\n").1 = .ok gs ∧
      ∀ k, 2 ≤ k →
        Value.equalWithin k
          (.list [.application (.symbol (.text "f"))
            [.number (.float (.finite false 4503599627370496 (-51)))]])
          (.list (gs.map .ofForm)) = some true ∧
        ∀ record, Writer.program k (gs.map .ofForm) record = (.ok "(f 2)\n", record) := by
  have hl : Writer.lines [.application (.symbol "f") [.number 2]] = "(f 2)\n" := by
    have hd : Nat.toDigits 10 2 = ['2'] := by decide
    simp [Writer.lines, Form.text, Form.texts, hd, Writer.spaced]
  have hw : Writer.program 2 [.application (.symbol (.text "f"))
      [.number (.float (.finite false 4503599627370496 (-51)))]] [] =
      (.ok "(f 2)\n", [⟨.finite false 4503599627370496 (-51)⟩]) := by
    have hn : Writer.form 1 (.number (.float (.finite false 4503599627370496 (-51)))) [] =
        (.ok (Form.number 2).text, [⟨.finite false 4503599627370496 (-51)⟩]) :=
      Writer.number_float rfl (by decide) []
    have hparts : List.mapM (Writer.form 1)
        [.number (.float (.finite false 4503599627370496 (-51)))] [] =
        (.ok [(Form.number 2).text], [⟨.finite false 4503599627370496 (-51)⟩]) := by
      rw [List.mapM_cons]
      exact Effect.bind_of_ok hn
    have hf : Writer.form 2 (.application (.symbol (.text "f"))
        [.number (.float (.finite false 4503599627370496 (-51)))]) [] =
        (.ok (Form.application (.symbol "f") [.number 2]).text,
          [⟨.finite false 4503599627370496 (-51)⟩]) :=
      (Effect.bind_of_ok (v := "f") rfl).trans (Effect.bind_of_ok hparts)
    rw [← hl, Writer.program, List.mapM_cons]
    exact Effect.bind_of_ok (Effect.bind_of_ok (Effect.bind_of_ok hf))
  rcases parse_written 2 2 hw with ⟨hn, -⟩ | hp
  · exact absurd ⟨by decide, by decide⟩ hn
  · exact hp

/-- The forms that a text is read as are well formed, so that only their depth can keep them from
being written, and what is written of them is read as the same forms. -/
theorem parsed_writable {limit : Nat} {text : String} {fs : List Form}
    (h : (parseWithin limit Receiver.ignore () text).1 = .ok fs) :
    (∀ f ∈ fs, f.WellFormed) ∧
    ∃ written, (∀ n record, Writer.program n (fs.map .ofForm) record =
        if ∀ f ∈ fs, f.depth ≤ n then (.ok written, record) else (.error .tooDeep, record)) ∧
      (parseWithin limit Receiver.ignore () written).1 = .ok fs := by
  obtain ⟨ht, hl⟩ := parseWithin_eq_ok_iff.mp h
  have hw := ht.wellFormed
  rw [← Form.depthAll_le_iff] at hl
  refine ⟨hw, Writer.lines fs, ?_, ?_⟩
  · intro n record
    rw [program_run hw]
    simp only [Form.depthAll_le_iff]
  · rw [parseWithin_lines hw, if_pos hl]

theorem parsed_writable_comment :
    (parseWithin 2 Receiver.ignore () " ;c\n(f)").1 = .ok [.application (.symbol "f") []] ∧
    ∃ written, (∀ n record,
        Writer.program n ([.application (.symbol "f") []].map .ofForm) record =
          if ∀ f ∈ [Form.application (.symbol "f") []], f.depth ≤ n then (.ok written, record)
          else (.error .tooDeep, record)) ∧
      (parseWithin 2 Receiver.ignore () written).1 = .ok [.application (.symbol "f") []] := by
  have hf : FormText (.symbol "f") ['f', ')'] [')'] :=
    .symbol ⟨rfl, by decide, apart_mark (by decide)⟩
  have ht : Trivia [' ', ';', 'c', '\n', '(', 'f', ')'] ['(', 'f', ')'] :=
    .blank (by decide) (.comment (u := ['c']) (by simp) (by simp)
      (.blank (by decide) (.done _)))
  have hp : ProgramText [.application (.symbol "f") []] " ;c\n(f)".toList :=
    ⟨[], .cons ht (.application (.cons (.done _) hf (.nil _)) (.done _)) (.nil _), .done []⟩
  have h : (parseWithin 2 Receiver.ignore () " ;c\n(f)").1 =
      .ok [.application (.symbol "f") []] := parseWithin_eq_ok_iff.mpr ⟨hp, by decide, by decide⟩
  exact ⟨h, (parsed_writable h).2⟩

end Woof

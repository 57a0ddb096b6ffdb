import Woof.Proofs.Shelf

namespace Woof.Value

open Woof.Text

/-- A float that is a whole number as that number. -/
def whole : Value → Value
  | float x =>
    match x.toInt? with
    | some n => int n
    | none => float x
  | v => v

mutual

/-- What comes back of a value from the file it was written to: every line end in its strings and
in the texts about its values is a newline, and its numbers are whole. Nothing else changes. -/
def reread : Value → Value
  | number v => number v.whole
  | string s => string (unified s)
  | lambda ps vs => lambda ps (rereadAll vs)
  | define doc n v => define (doc.map unified) n (reread v)
  | application v vs => application (reread v) (rereadAll vs)
  | v => v

def rereadAll : List Value → List Value
  | [] => []
  | v :: vs => reread v :: rereadAll vs

end

theorem rereadAll_eq_map (vs : List Value) : rereadAll vs = vs.map reread := by
  induction vs with
  | nil => rfl
  | cons v vs ih => rw [rereadAll, ih, List.map_cons]

section Written

variable {k : Nat} {v : Value} {casts casts' : List Cast}

/-- A truth is equal to a number too, but it is not written. -/
theorem whole_of_written {text : String} {n : Int}
    (h : Writer.number v casts = (.ok text, casts')) (he : equalWithin k v (int n) = some true) :
    v.whole = int n := by
  obtain ⟨m, casts₁, hw, -⟩ := Effect.exists_ok_of_bind h
  cases v with
  | int m => simpa [equalWithin, whole?, whole] using he
  | float x =>
    cases hx : x.toInt? with
    | none => simp [equalWithin, whole?, hx] at he
    | some m => simpa [equalWithin, whole?, whole, hx] using he
  | _ => cases hw

theorem eq_of_equalAll_texts {ps qs : List String}
    (h : equalAllWithin k (qs.map text) (ps.map text) = some true) : qs = ps := by
  induction ps generalizing qs with
  | nil => cases qs <;> simp [equalAllWithin] at h ⊢
  | cons p ps ih =>
    obtain ⟨u, us, hq, hu, hus⟩ := equalAll_cons_iff.mp h
    obtain ⟨q, qs, rfl, rfl, rfl⟩ := List.map_eq_cons_iff.mp hq
    have hp : q = p := by simpa [equalWithin] using hu
    rw [hp, ih hus]

end Written

mutual

/-- What was written is, once it is read again, the form that it was equal to. -/
theorem reread_of_written : (f : Form) → {limit k : Nat} → {v : Value} → {text : String} →
    {casts casts' : List Cast} → Writer.form limit v casts = (.ok text, casts') →
    equalWithin k v (ofForm f) = some true → v.reread = ofForm (f.mapStrings unified)
  | _, 0, _, _, _, _, _, h, _ => by cases h
  | .number n, limit + 1, k, v, _, _, _, h, he => by
    obtain ⟨k, rfl⟩ := exists_succ_of_equal he
    obtain ⟨u, rfl⟩ := exists_of_equal_number he
    have hu : equalWithin k u (int n) = some true := by
      rwa [ofForm, equalWithin, compareInside] at he
    rw [reread, whole_of_written h hu]
    rfl
  | .symbol s, limit + 1, k, v, written, _, _, h, he => by
    obtain ⟨k, rfl⟩ := exists_succ_of_equal he
    obtain ⟨u, rfl⟩ := exists_of_equal_symbol he
    obtain ⟨rfl, -⟩ := Writer.name_eq_ok h
    have hs : written = s := by simpa [ofForm, equalWithin, compareInside] using he
    rw [hs]
    rfl
  | .string s, limit + 1, k, v, _, _, _, _, he => by
    obtain ⟨k, rfl⟩ := exists_succ_of_equal he
    obtain rfl := equal_string_iff.mp he
    rfl
  | .lambda ps fs, limit + 1, k, v, _, _, _, h, he => by
    obtain ⟨k, rfl⟩ := exists_succ_of_equal he
    obtain ⟨qs, vs, rfl, hp, hb⟩ := equal_lambda_iff.mp he
    obtain ⟨names, texts, _, rfl, -, -, -, hw, -⟩ := Writer.form_lambda_eq_ok h
    rw [reread, rereadAll_of_written fs hw hb, eq_of_equalAll_texts hp]
    rfl
  | .define doc s f, limit + 1, k, v, _, _, _, h, he => by
    obtain ⟨k, rfl⟩ := exists_succ_of_equal he
    obtain ⟨m, u, rfl, hn, hv⟩ := equal_define_iff.mp he
    obtain ⟨defined, value, _, rfl, -, hw, -⟩ := Writer.form_define_eq_ok h
    have hs : defined = s := by simpa [equalWithin] using hn
    rw [reread, reread_of_written f hw hv, hs]
    rfl
  | .application f fs, limit + 1, k, v, _, _, _, h, he => by
    obtain ⟨k, rfl⟩ := exists_succ_of_equal he
    obtain ⟨u, us, rfl, ho, hs⟩ := equal_application_iff.mp he
    obtain ⟨operator, operands, _, hw, hws, -⟩ := Writer.form_application_eq_ok h
    rw [reread, reread_of_written f hw ho, rereadAll_of_written fs hws hs]
    rfl

theorem rereadAll_of_written : (fs : List Form) → {limit k : Nat} → {vs : List Value} →
    {texts : List String} → {casts casts' : List Cast} →
    vs.mapM (Writer.form limit) casts = (.ok texts, casts') →
    equalAllWithin k vs (ofForms fs) = some true →
    rereadAll vs = ofForms (Form.mapStringsAll unified fs)
  | [], _, _, vs, _, _, _, _, he => by
    cases vs with
    | nil => rfl
    | cons v vs => simp [ofForms, equalAllWithin] at he
  | f :: fs, _, _, vs, _, _, _, h, he => by
    obtain ⟨u, us, rfl, hu, hus⟩ := equalAll_cons_iff.mp he
    obtain ⟨text, _, texts, hw, hws, rfl⟩ := Effect.exists_ok_of_mapM_cons h
    rw [rereadAll, reread_of_written f hw hu, rereadAll_of_written fs hws hus]
    rfl

end

end Woof.Value

namespace Woof

open Woof.Text

variable {n : Nat} {vs : List Value} {text : String} {casts : List Cast}

theorem saveFile_of_program (h : Writer.program n vs [] = (.ok text, casts)) (shelf : Shelf)
    (version name : String) (header : Bool) :
    ∃ shelf', shelf.saveFile version n name header vs = ((.ok (), casts), shelf') := by
  have hd : (document version n header vs).run [] =
      (.ok (heading version header ++ text), casts) := Effect.bind_of_ok h
  rw [Shelf.saveFile, hd]
  exact ⟨_, rfl⟩

/-- What can be written can be saved in a file and, at every limit from its depth on, read from it
again, and all that the file changes is line ends in strings and in texts about values, and floats
for whole numbers. -/
theorem loadFile_saveFile_reread {version : String} (hv : OneLine version)
    (h : Writer.program n vs [] = (.ok text, casts)) (shelf : Shelf) (name : String)
    (header : Bool) :
    ∃ shelf' gs written, shelf.saveFile version n name header vs = ((.ok (), casts), shelf') ∧
      shelf'.files name = some written.toUTF8 ∧ Form.depthAll gs ≤ n ∧
      (∀ m, (shelf'.loadFile m name Receiver.ignore ()).1 =
        if 0 < m ∧ Form.depthAll gs ≤ m then .ok gs
        else .error (.unparsed (.tooDeep (unified written)))) ∧
      gs.map .ofForm = vs.map Value.reread ∧
      ∀ k, n ≤ k → (Value.equalWithin k (.list vs) (.list (gs.map .ofForm)) = some true ↔
        ∀ s ∈ Value.stringsAll vs, '\r' ∉ s.toList) := by
  obtain ⟨shelf', hs⟩ := saveFile_of_program h shelf version name header
  obtain ⟨fs, written, he, hf, hl⟩ := loadFile_of_saveFile hv hs
  obtain ⟨ls, _, hm, -⟩ := Effect.exists_ok_of_bind h
  obtain ⟨texts, hw, -⟩ := Writer.lines_mapM_eq_ok hm
  refine ⟨shelf', Form.mapStringsAll unified fs, written, hs, hf, he.depth_unified, hl, ?_,
    fun k hk => he.equal_unified_iff hk⟩
  rw [← Value.ofForms_eq_map, ← Value.rereadAll_eq_map,
    Value.rereadAll_of_written fs hw (he.equal n (Nat.le_refl n))]

theorem loadFile_saveFile_reread_returns :
    let two : Binary64 := .finite false 4503599627370496 (-51)
    let vs : List Value := [.define (some "a\r\nb") (.text "x") (.number (.float two)),
      .application (.symbol (.text "f")) [.string "\r"]]
    OneLine "1.2.0" ∧
    Writer.program 2 vs [] =
      (.ok (Writer.lines [.define (some "a\r\nb") "x" (.number 2),
        .application (.symbol "f") [.string "\r"]]), [⟨two⟩]) ∧
    ∃ shelf' gs, Shelf.empty.saveFile "1.2.0" 2 "f" true vs = ((.ok (), [⟨two⟩]), shelf') ∧
      (shelf'.loadFile 2 "f" Receiver.ignore ()).1 = .ok gs ∧
      gs.map Value.ofForm = [.define (some "a\nb") (.text "x") (.number (.int 2)),
        .application (.symbol (.text "f")) [.string "\n"]] := by
  intro two vs
  have hv : OneLine "1.2.0" := by decide
  have h : Writer.program 2 vs [] =
      (.ok (Writer.lines [.define (some "a\r\nb") "x" (.number 2),
        .application (.symbol "f") [.string "\r"]]), [⟨two⟩]) := by
    have hn : Writer.form 1 (.number (.float two)) [] = (.ok (Form.number 2).text, [⟨two⟩]) :=
      Writer.number_float rfl (by decide) []
    have hd : Writer.form 2 (.define (some "a\r\nb") (.text "x") (.number (.float two))) [] =
        (.ok (Form.define (some "a\r\nb") "x" (.number 2)).text, [⟨two⟩]) :=
      (Effect.bind_of_ok (v := "x") rfl).trans (Effect.bind_of_ok hn)
    rw [Writer.program, List.mapM_cons, List.mapM_cons]
    exact Effect.bind_of_ok (Effect.bind_of_ok (Effect.bind_of_ok hd))
  have hr : vs.map Value.reread = [.define (some "a\nb") (.text "x") (.number (.int 2)),
      .application (.symbol (.text "f")) [.string "\n"]] := rfl
  obtain ⟨shelf', gs, written, hs, -, hd, hl, hm, -⟩ :=
    loadFile_saveFile_reread hv h .empty "f" true
  refine ⟨hv, h, shelf', gs, hs, ?_, hm.trans hr⟩
  rw [hl, if_pos ⟨Nat.two_pos, hd⟩]

end Woof

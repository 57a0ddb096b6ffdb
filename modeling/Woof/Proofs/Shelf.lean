import Woof.Shelf
import Woof.Proofs.Newline

namespace Woof.Value

mutual

/-- The strings in a form and the texts about its values, at whatever depth. -/
def strings : Value → List String
  | string s => [s]
  | lambda _ vs => stringsAll vs
  | define doc _ v => doc.toList ++ strings v
  | application v vs => strings v ++ stringsAll vs
  | _ => []

def stringsAll : List Value → List String
  | [] => []
  | v :: vs => strings v ++ stringsAll vs

end

section Equality

variable {k : Nat} {v : Value}

theorem both_eq_true_iff {x y : Option Bool} :
    (do if ← x then y else return false) = some true ↔ x = some true ∧ y = some true := by
  cases x with
  | none => simp
  | some b => cases b <;> simp

theorem exists_of_equal_number {w : Value} (h : equalWithin k v (number w) = some true) :
    ∃ u, v = number u := by
  cases v with
  | number u => exact ⟨u, rfl⟩
  | _ => simp [equalWithin, whole?] at h

theorem exists_of_equal_symbol {w : Value} (h : equalWithin k v (symbol w) = some true) :
    ∃ u, v = symbol u := by
  cases v with
  | symbol u => exact ⟨u, rfl⟩
  | _ => simp [equalWithin, whole?] at h

theorem equal_string_iff {s : String} :
    equalWithin (k + 1) v (string s) = some true ↔ v = string s := by
  cases v with
  | string t => simp [equalWithin, compareInside]
  | _ => simp [equalWithin, whole?]

theorem equal_lambda_iff {ps ws : List Value} :
    equalWithin (k + 1) v (lambda ps ws) = some true ↔
      ∃ qs vs, v = lambda qs vs ∧ equalAllWithin k qs ps = some true ∧
        equalAllWithin k vs ws = some true := by
  cases v with
  | lambda qs vs =>
    rw [equalWithin, compareInside, both_eq_true_iff]
    simp
  | _ => simp [equalWithin, whole?]

theorem equal_define_iff {doc : Option String} {n w : Value} :
    equalWithin (k + 1) v (define doc n w) = some true ↔
      ∃ m u, v = define doc m u ∧ equalWithin k m n = some true ∧
        equalWithin k u w = some true := by
  cases v with
  | define d m u =>
    rw [equalWithin, compareInside]
    by_cases hd : d = doc
    · rw [if_neg (not_not.mpr hd), both_eq_true_iff]
      simp [hd]
    · rw [if_pos hd]
      simp [hd]
  | _ => simp [equalWithin, whole?]

theorem equal_application_iff {w : Value} {ws : List Value} :
    equalWithin (k + 1) v (application w ws) = some true ↔
      ∃ u us, v = application u us ∧ equalWithin k u w = some true ∧
        equalAllWithin k us ws = some true := by
  cases v with
  | application u us =>
    rw [equalWithin, compareInside, both_eq_true_iff]
    simp
  | _ => simp [equalWithin, whole?]

theorem equalAll_cons_iff {vs ws : List Value} {w : Value} :
    equalAllWithin k vs (w :: ws) = some true ↔
      ∃ u us, vs = u :: us ∧ equalWithin k u w = some true ∧
        equalAllWithin k us ws = some true := by
  cases vs with
  | nil => simp [equalAllWithin]
  | cons u us =>
    rw [equalAllWithin, both_eq_true_iff]
    simp

theorem length_eq_of_equalAll {vs ws : List Value} (h : equalAllWithin k vs ws = some true) :
    vs.length = ws.length := by
  induction ws generalizing vs with
  | nil => cases vs <;> simp [equalAllWithin] at h ⊢
  | cons w ws ih =>
    obtain ⟨u, us, rfl, -, hs⟩ := equalAll_cons_iff.mp h
    rw [List.length_cons, List.length_cons, ih hs]

theorem equal_list_iff {vs ws : List Value} :
    equalWithin k (list vs) (list ws) = some true ↔ equalAllWithin k vs ws = some true := by
  rw [equalWithin]
  by_cases hl : vs.length = ws.length
  · rw [if_pos hl]
  · rw [if_neg hl]
    refine ⟨fun h => absurd h (by simp), fun h => absurd (length_eq_of_equalAll h) hl⟩

/-- With no depth to look into them, nothing is said of two forms. -/
theorem exists_succ_of_equal {f : Form} (h : equalWithin k v (ofForm f) = some true) :
    ∃ n, k = n + 1 := by
  cases k with
  | zero =>
    exfalso
    cases f <;> cases v <;> simp [ofForm, equalWithin, compareInside, whole?] at h
  | succ n => exact ⟨n, rfl⟩

variable (g : String → String)

mutual

/-- A value that is equal to a form is equal to the form with its strings changed just where none
of them is. -/
theorem equal_mapStrings_iff : (f : Form) → {k : Nat} → {v : Value} →
    equalWithin k v (ofForm f) = some true →
    (equalWithin k v (ofForm (f.mapStrings g)) = some true ↔ ∀ s ∈ v.strings, g s = s)
  | .number n, k, v, h => by
    obtain ⟨u, rfl⟩ := exists_of_equal_number h
    simpa [Form.mapStrings, strings] using h
  | .symbol s, k, v, h => by
    obtain ⟨u, rfl⟩ := exists_of_equal_symbol h
    simpa [Form.mapStrings, strings] using h
  | .string s, k, v, h => by
    obtain ⟨k, rfl⟩ := exists_succ_of_equal h
    obtain rfl := equal_string_iff.mp h
    rw [Form.mapStrings, ofForm, equal_string_iff]
    simp [strings, eq_comm]
  | .lambda ps fs, k, v, h => by
    obtain ⟨k, rfl⟩ := exists_succ_of_equal h
    obtain ⟨qs, vs, rfl, hp, hb⟩ := equal_lambda_iff.mp h
    have hi := equalAll_mapStrings_iff fs hb
    rw [Form.mapStrings, ofForm, equal_lambda_iff, strings, ← hi]
    simp [hp]
  | .define doc s f, k, v, h => by
    obtain ⟨k, rfl⟩ := exists_succ_of_equal h
    obtain ⟨m, u, rfl, hn, hv⟩ := equal_define_iff.mp h
    have hi := equal_mapStrings_iff f hv
    have hd : doc = doc.map g ↔ ∀ s ∈ doc.toList, g s = s := by
      cases doc <;> simp [eq_comm]
    rw [Form.mapStrings, ofForm, equal_define_iff, strings, List.forall_mem_append, ← hi, ← hd]
    simp [hn]
  | .application f fs, k, v, h => by
    obtain ⟨k, rfl⟩ := exists_succ_of_equal h
    obtain ⟨u, us, rfl, ho, hs⟩ := equal_application_iff.mp h
    have hi := equal_mapStrings_iff f ho
    have his := equalAll_mapStrings_iff fs hs
    rw [Form.mapStrings, ofForm, equal_application_iff, strings, List.forall_mem_append, ← hi,
      ← his]
    simp

theorem equalAll_mapStrings_iff : (fs : List Form) → {k : Nat} → {vs : List Value} →
    equalAllWithin k vs (ofForms fs) = some true →
    (equalAllWithin k vs (ofForms (Form.mapStringsAll g fs)) = some true ↔
      ∀ s ∈ stringsAll vs, g s = s)
  | [], k, vs, h => by
    cases vs with
    | nil => simpa [Form.mapStringsAll, stringsAll] using h
    | cons => simp [ofForms, equalAllWithin] at h
  | f :: fs, k, vs, h => by
    obtain ⟨u, us, rfl, hu, hus⟩ := equalAll_cons_iff.mp h
    have hi := equal_mapStrings_iff f hu
    have his := equalAll_mapStrings_iff fs hus
    rw [Form.mapStringsAll, ofForms, equalAll_cons_iff, stringsAll, List.forall_mem_append, ← hi,
      ← his]
    simp

end

end Equality

end Woof.Value

namespace Woof

open Woof.Syntax Woof.Text

/-- The text has no line end in it. -/
def OneLine (text : String) : Prop := '\n' ∉ text.toList ∧ '\r' ∉ text.toList

instance (text : String) : Decidable (OneLine text) :=
  inferInstanceAs (Decidable ('\n' ∉ text.toList ∧ '\r' ∉ text.toList))

theorem exists_heading (version : String) :
    ∃ u, (heading version true).toList = ';' :: (u ++ version.toList ++ ['\n']) ∧
      '\n' ∉ u ∧ '\r' ∉ u := by
  have hs : "; written by woofparse ".toList = ';' :: " written by woofparse ".toList := by decide
  have he : "\n".toList = ['\n'] := by decide
  refine ⟨" written by woofparse ".toList, ?_, by decide, by decide⟩
  have hl : heading version true = headerLine version := if_pos rfl
  rw [hl]
  unfold headerLine
  simp only [String.toList_append, hs, he, List.cons_append]

/-- The comment that names the writer ends with its line, if the version does not end the line
before. -/
theorem heading_trivia {version : String} (hv : '\n' ∉ version.toList) (header : Bool)
    (s : List Char) : Trivia ((heading version header).toList ++ s) s := by
  cases header with
  | false => exact .done s
  | true =>
    obtain ⟨u, hu, hn, -⟩ := exists_heading version
    have hs : Trivia ('\n' :: s) s := .blank (by decide) (.done s)
    have hc : ∀ x ∈ u ++ version.toList, x ≠ '\n' := by
      rintro x hx rfl
      exact (List.mem_append.mp hx).elim hn hv
    rw [hu, List.cons_append, List.append_assoc]
    exact .comment hc (by simp) hs

theorem translates_heading {version : String} (hv : '\r' ∉ version.toList) (header : Bool) :
    Translates (heading version header).toList (heading version header).toList := by
  apply Translates.of_plain
  cases header with
  | false => simp [heading]
  | true =>
    obtain ⟨u, hu, -, hr⟩ := exists_heading version
    rw [hu]
    simp [hr, hv]

theorem fromUTF8?_toUTF8 (s : String) : String.fromUTF8? s.toUTF8 = some s :=
  dif_pos s.isValidUTF8

variable {version : String} {n : Nat} {shelf shelf' : Shelf} {name : String} {header : Bool}
  {vs : List Value} {casts : List Cast}

theorem document_eq_ok {text : String} {casts' : List Cast}
    (h : (document version n header vs).run casts = (.ok text, casts')) :
    ∃ body, Writer.program n vs casts = (.ok body, casts') ∧
      text = heading version header ++ body := by
  obtain ⟨body, casts₁, hb, hp⟩ := Effect.exists_ok_of_bind h
  obtain ⟨he, rfl⟩ := Prod.mk.inj hp
  exact ⟨body, hb, (Except.ok.inj he).symm⟩

/-- The forms as which values come out of a writer with this limit. -/
structure WrittenAs (n : Nat) (vs : List Value) (fs : List Form) : Prop where
  depth : Form.depthAll fs ≤ n
  equal : ∀ k, n ≤ k → Value.equalAllWithin k vs (Value.ofForms fs) = some true

namespace WrittenAs

variable {fs : List Form}

theorem depth_unified (h : WrittenAs n vs fs) :
    Form.depthAll (Form.mapStringsAll unified fs) ≤ n := by
  rw [Form.depthAll_mapStrings]
  exact h.depth

/-- With every line end in their strings a newline, the forms are still equal to the values just
where there was no other line end. -/
theorem equal_unified_iff (h : WrittenAs n vs fs) {k : Nat} (hk : n ≤ k) :
    Value.equalWithin k (.list vs)
        (.list ((Form.mapStringsAll unified fs).map .ofForm)) = some true ↔
      ∀ s ∈ Value.stringsAll vs, '\r' ∉ s.toList := by
  rw [Value.equal_list_iff, ← Value.ofForms_eq_map,
    Value.equalAll_mapStrings_iff unified fs (h.equal k hk)]
  simp only [unified_eq_self_iff]

end WrittenAs

theorem document_sound {text : String} {casts' : List Cast}
    (h : (document version n header vs).run casts = (.ok text, casts')) :
    ∃ fs, (∀ f ∈ fs, f.WellFormed) ∧ WrittenAs n vs fs ∧
      text = heading version header ++ Writer.lines fs := by
  obtain ⟨body, hb, rfl⟩ := document_eq_ok h
  obtain ⟨fs, hw, hd, rfl, he⟩ := Writer.program_sound hb
  refine ⟨fs, hw, ⟨hd, ?_⟩, rfl⟩
  intro k hk
  rw [Value.ofForms_eq_map]
  exact Value.equal_list_iff.mp (he k (Nat.le_trans hd hk))

theorem files_of_saveFile
    (h : shelf.saveFile version n name header vs = ((.ok (), casts), shelf')) :
    ∃ text, (document version n header vs).run [] = (.ok text, casts) ∧
      shelf'.files name = some text.toUTF8 := by
  rw [Shelf.saveFile] at h
  match hd : (document version n header vs).run [] with
  | (.ok text, made) =>
    rw [hd] at h
    obtain ⟨hc, rfl⟩ := Prod.mk.inj h
    obtain ⟨-, rfl⟩ := Prod.mk.inj hc
    exact ⟨text, rfl, Shelf.files_putFile _ _ _⟩
  | (.error e, made) =>
    rw [hd] at h
    cases h

theorem loadFile_of_files {text : String} (h : shelf.files name = some text.toUTF8) (m : Nat) :
    (shelf.loadFile m name Receiver.ignore ()).1 =
      (parseWithin m Receiver.ignore () (unified text)).1.mapError .unparsed := by
  rw [Shelf.loadFile, h]
  simp only [fromUTF8?_toUTF8]
  rfl

theorem unified_document {fs : List Form} (h : ∀ f ∈ fs, f.WellFormed)
    (hv : '\r' ∉ version.toList) (header : Bool) :
    unified (heading version header ++ Writer.lines fs) =
      heading version header ++ Writer.lines (fs.map (Form.mapStrings unified)) := by
  have hh := translates_heading hv header
  rw [unified, String.toList_append, (hh.append (Writer.translates_lines h)).eq,
    String.ofList_append, String.ofList_toList, String.ofList_toList]

theorem programText_document {fs : List Form} (h : ∀ f ∈ fs, f.WellFormed)
    (hv : '\n' ∉ version.toList) (header : Bool) :
    ProgramText fs (heading version header ++ Writer.lines fs).toList := by
  rw [String.toList_append, toList_lines]
  exact (programText_lines h).after_trivia (heading_trivia hv header _)

/-- What the file that a program was saved in holds, and what is read from it: the forms that were
written, with every line end in their strings read as a newline. -/
theorem loadFile_of_saveFile (hv : OneLine version)
    (h : shelf.saveFile version n name header vs = ((.ok (), casts), shelf')) :
    ∃ (fs : List Form) (written : String), WrittenAs n vs fs ∧
      shelf'.files name = some written.toUTF8 ∧
      ∀ m, (shelf'.loadFile m name Receiver.ignore ()).1 =
        if 0 < m ∧ Form.depthAll (Form.mapStringsAll unified fs) ≤ m
        then .ok (Form.mapStringsAll unified fs)
        else .error (.unparsed (.tooDeep (unified written))) := by
  obtain ⟨text, hd, hf⟩ := files_of_saveFile h
  obtain ⟨fs, hw, he, rfl⟩ := document_sound hd
  refine ⟨fs, _, he, hf, ?_⟩
  intro m
  have hws : ∀ f ∈ Form.mapStringsAll unified fs, f.WellFormed :=
    Form.wellFormedAll_iff.mp
      (Form.wellFormedAll_mapStrings unified fs (Form.wellFormedAll_iff.mpr hw))
  have hp := parseWithin_complete (programText_document hws hv.1 header) m
  rw [loadFile_of_files hf, unified_document hw hv.2, ← Form.mapStringsAll_eq_map, hp]
  split <;> rfl

/-- What was saved in a file is read as forms equal to those that were saved just where no string
among them and no text about a value holds a carriage return. Only a limit below their depth keeps
them from being read. -/
theorem loadFile_saveFile_equal_iff (hv : OneLine version)
    (h : shelf.saveFile version n name header vs = ((.ok (), casts), shelf')) :
    ∃ (gs : List Form) (written : String), Form.depthAll gs ≤ n ∧
      shelf'.files name = some written.toUTF8 ∧
      (∀ m, (shelf'.loadFile m name Receiver.ignore ()).1 =
        if 0 < m ∧ Form.depthAll gs ≤ m then .ok gs
        else .error (.unparsed (.tooDeep (unified written)))) ∧
      ∀ k, n ≤ k → (Value.equalWithin k (.list vs) (.list (gs.map .ofForm)) = some true ↔
        ∀ s ∈ Value.stringsAll vs, '\r' ∉ s.toList) := by
  obtain ⟨fs, written, he, hf, hl⟩ := loadFile_of_saveFile hv h
  exact ⟨_, written, he.depth_unified, hf, hl, fun k hk => he.equal_unified_iff hk⟩

theorem loadFile_saveFile_equal_iff_newline :
    OneLine "1.2.0" ∧
    ∃ shelf', Shelf.empty.saveFile "1.2.0" 1 "f" true [.string "a\nb"] = ((.ok (), []), shelf') ∧
      ∃ gs, (shelf'.loadFile 1 "f" Receiver.ignore ()).1 = .ok gs ∧
        Value.equalWithin 1 (.list [.string "a\nb"]) (.list (gs.map .ofForm)) = some true := by
  have hv : OneLine "1.2.0" := by decide
  have h : Shelf.empty.saveFile "1.2.0" 1 "f" true [.string "a\nb"] =
      ((.ok (), []), (Shelf.empty.saveFile "1.2.0" 1 "f" true [.string "a\nb"]).2) := rfl
  obtain ⟨gs, written, hd, -, hl, he⟩ := loadFile_saveFile_equal_iff hv h
  refine ⟨hv, _, h, gs, ?_, (he 1 (Nat.le_refl 1)).mpr (by decide)⟩
  rw [hl, if_pos ⟨Nat.one_pos, hd⟩]

/-- A carriage return in a string does not come back. -/
theorem loadFile_saveFile_return :
    (Shelf.empty.saveFile "0.0.0" nestingLimit "f" false [.string "a\rb"]).1 = (.ok (), []) ∧
    ((Shelf.empty.saveFile "0.0.0" nestingLimit "f" false [.string "a\rb"]).2.loadFile
      nestingLimit "f" Receiver.ignore ()).1 = .ok [.string "a\nb"] ∧
    (Value.list [.string "a\rb"]).equal? (.list ([.string "a\nb"].map .ofForm)) = some false := by
  have hf : (Shelf.empty.saveFile "0.0.0" nestingLimit "f" false [.string "a\rb"]).2.files "f" =
      some "\x22a\rb\x22\n".toUTF8 := Shelf.files_putFile _ _ _
  have hu : unified "\x22a\rb\x22\n" = "\x22a\nb\x22\n" := by decide
  have hw : ∀ f ∈ [Form.string "a\nb"], f.WellFormed := by simp [Form.WellFormed]
  have hv : '\n' ∉ "0.0.0".toList := by decide
  have hp : (parseWithin nestingLimit Receiver.ignore () "\x22a\nb\x22\n").1 =
      .ok [.string "a\nb"] :=
    parseWithin_eq_ok_iff.mpr
      ⟨programText_document hw hv false, by decide, by decide⟩
  refine ⟨rfl, ?_, by cbv⟩
  rw [loadFile_of_files hf, hu, hp]
  rfl

theorem Shelf.putFile_files_eq_iff {bytes : ByteArray} :
    (shelf.putFile name bytes).files name = shelf.files name ↔ shelf.files name = some bytes := by
  rw [Shelf.files_putFile]
  exact eq_comm

theorem document_eq_error {e : WriteError}
    (h : (Writer.program n vs).run [] = (.error e, casts)) (version : String) (header : Bool) :
    (document version n header vs).run [] = (.error e, casts) :=
  Effect.bind_of_error h

theorem saveFile_eq_error {e : WriteError}
    (h : (document version n header vs).run [] = (.error e, casts)) (shelf : Shelf)
    (name : String) :
    shelf.saveFile version n name header vs = ((.error e, casts), shelf.putFile name .empty) := by
  rw [Shelf.saveFile, h]

theorem appendStream_eq_error {e : WriteError}
    (h : (document version n header vs).run [] = (.error e, casts)) (shelf : Shelf)
    (name : String) :
    shelf.appendStream version n name header vs = ((.error e, casts), shelf) := by
  rw [Shelf.appendStream, h]

/-- A program that is refused empties the file that it was to be saved in, or makes an empty one,
and changes nothing else. So the file stays as it was just where it was there and empty; a stream
always stays as it was. -/
theorem files_saveFile_refused_iff {e : WriteError}
    (h : (Writer.program n vs).run [] = (.error e, casts)) (shelf : Shelf) (version : String)
    (name : String) (header : Bool) :
    shelf.saveFile version n name header vs = ((.error e, casts), shelf.putFile name .empty) ∧
    ((shelf.saveFile version n name header vs).2.files name = shelf.files name ↔
      shelf.files name = some .empty) ∧
    shelf.appendStream version n name header vs = ((.error e, casts), shelf) := by
  have hd := document_eq_error h version header
  have hs := saveFile_eq_error hd shelf name
  refine ⟨hs, ?_, appendStream_eq_error hd shelf name⟩
  rw [hs]
  exact Shelf.putFile_files_eq_iff

/-- A file that was not there is there afterwards. -/
theorem files_saveFile_refused_iff_missing :
    (Writer.program 1 [.symbol (.text "b"), .number (.int (-1))]).run [] =
      (.error .negative, []) ∧
    Shelf.empty.files "f" = none ∧
    (Shelf.empty.saveFile "1.2.0" 1 "f" true
      [.symbol (.text "b"), .number (.int (-1))]).2.files "f" ≠ none ∧
    Shelf.empty.appendStream "1.2.0" 1 "f" true [.symbol (.text "b"), .number (.int (-1))] =
      ((.error .negative, []), .empty) := by
  have h : (Writer.program 1 [.symbol (.text "b"), .number (.int (-1))]).run [] =
      (.error .negative, []) := rfl
  obtain ⟨-, hf, ha⟩ := files_saveFile_refused_iff h .empty "1.2.0" "f" true
  refine ⟨h, rfl, ?_, ha⟩
  intro hn
  cases hf.mp hn

/-- What a file held is lost if a program is refused that was to be saved in it. -/
theorem saveFile_refused_emptied :
    let shelf := Shelf.empty.putFile "f" "a\n".toUTF8
    let forms : List Value := [.symbol (.text "b"), .number (.int (-1))]
    let saved := shelf.saveFile "0.0.0" nestingLimit "f" true forms
    shelf.files "f" = some "a\n".toUTF8 ∧ saved.1 = (.error .negative, []) ∧
    saved.2.files "f" = some "".toUTF8 ∧ saved.2.files "f" ≠ shelf.files "f" := by
  refine ⟨rfl, rfl, rfl, ?_⟩
  intro h
  have hs := congrArg (·.map ByteArray.size) h
  revert hs
  decide

end Woof

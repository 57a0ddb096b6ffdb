import Woof.Writer
import Woof.Proofs.Alphabet
import Woof.Proofs.Numeral
import Woof.Proofs.Syntax

namespace Woof.Form

mutual

/-- The text that the writer gives a form. -/
def text : Form → String
  | number n => String.ofList (Nat.toDigits 10 n.toNat)
  | symbol s => s
  | string s => Writer.quoted s
  | lambda ps fs =>
    "\x7blambda \x7b" ++ Writer.spaced ps ++ "\x7d " ++ Writer.spaced (texts fs) ++ "\x7d"
  | define doc s f =>
    "\x7b" ++ Writer.spaced ("define" :: (doc.map Writer.quoted).toList ++ [s, text f]) ++ "\x7d"
  | application f fs => "(" ++ Writer.spaced (text f :: texts fs) ++ ")"

def texts : List Form → List String
  | [] => []
  | f :: fs => text f :: texts fs

end

mutual

/-- A form that a text can be given to: its numbers are not negative, its names pass the check of
the writer, the parameters of a function are all different and its body is not empty. -/
def WellFormed : Form → Prop
  | number n => 0 ≤ n
  | symbol s => Writer.name (.text s) = pure s
  | string _ => True
  | lambda ps fs =>
    (∀ p ∈ ps, Writer.name (.text p) = pure p) ∧ ps.Nodup ∧ fs ≠ [] ∧ WellFormedAll fs
  | define _ s f => Writer.name (.text s) = pure s ∧ WellFormed f
  | application f fs => WellFormed f ∧ WellFormedAll fs

def WellFormedAll : List Form → Prop
  | [] => True
  | f :: fs => WellFormed f ∧ WellFormedAll fs

end

theorem wellFormedAll_iff {fs : List Form} : WellFormedAll fs ↔ ∀ f ∈ fs, f.WellFormed := by
  induction fs with
  | nil => simp [WellFormedAll]
  | cons f fs ih => simp [WellFormedAll, ih]

theorem texts_eq_map (fs : List Form) : texts fs = fs.map text := by
  induction fs with
  | nil => rfl
  | cons f fs ih => rw [texts, ih, List.map_cons]

end Woof.Form

namespace Woof.Writer

open Woof.Syntax

theorem badCharacter?_eq_none_iff {characters : List Char} :
    badCharacter? characters = none ↔
      ∀ c ∈ characters, c ∈ Alphabet.woof.symbolStarts ∨ c ∈ Alphabet.woof.digits := by
  rw [badCharacter?, List.find?_eq_none]
  simp only [Bool.not_eq_true', Bool.not_eq_false, Bool.or_eq_true, List.contains_iff_mem]

theorem name_of_isName {s : String} (h : IsName s.toList) : name (.text s) = pure s := by
  rw [name]
  cases hl : s.toList with
  | nil => simp [hl, IsName] at h
  | cons c rest =>
    rw [hl] at h
    have hb := badCharacter?_eq_none_iff.mpr h.2
    simp [h.1, hb]

theorem name_eq_ok {v : Value} {t : String} {casts casts' : List Cast}
    (h : name v casts = (.ok t, casts')) : v = .text t ∧ IsName t.toList := by
  cases v with
  | text s =>
    rw [name] at h
    cases hl : s.toList with
    | nil =>
      rw [hl] at h
      cases h
    | cons c rest =>
      rw [hl] at h
      by_cases hc : c ∈ Alphabet.woof.symbolStarts
      · cases hb : badCharacter? rest with
        | some d =>
          simp only [List.contains_iff_mem.mpr hc, Bool.not_true, hb] at h
          cases h
        | none =>
          simp only [List.contains_iff_mem.mpr hc, Bool.not_true, hb] at h
          obtain rfl : s = t := Except.ok.inj (Prod.mk.inj h).1
          refine ⟨rfl, ?_⟩
          rw [hl]
          exact ⟨hc, badCharacter?_eq_none_iff.mp hb⟩
      · have hn : (!Alphabet.woof.symbolStarts.contains c) = true := by simpa using hc
        simp only [hn, if_true] at h
        cases h
  | _ => cases h

/-- The writer takes those names that the grammar reads as one symbol. -/
theorem name_eq_pure_iff {s : String} : name (.text s) = pure s ↔ IsName s.toList := by
  constructor
  · intro h
    exact (name_eq_ok (congrFun h [])).2
  · exact name_of_isName

/-- The first text, and each other behind a blank. -/
theorem toList_spaced_cons (t : String) (ts : List String) :
    (spaced (t :: ts)).toList = t.toList ++ ts.flatMap fun u => ' ' :: u.toList := by
  induction ts generalizing t with
  | nil => simp [spaced]
  | cons u us ih =>
    have hs : spaced (t :: u :: us) = t ++ " " ++ spaced (u :: us) := String.intercalate_cons_cons
    rw [hs, String.toList_append, ih]
    simp

end Woof.Writer

namespace Woof.Syntax

variable {r : List Char}

theorem apart_cons {c : Char} (h : c ∉ Alphabet.woof.symbolStarts ∧ c ∉ Alphabet.woof.digits) :
    Apart (c :: r) := by
  intro d hd
  obtain rfl : c = d := by simpa using hd
  exact h

theorem apart_mark {c : Char} (h : c ∈ Alphabet.marks) : Apart (c :: r) :=
  apart_cons (Alphabet.not_mem_of_mark h)

theorem apart_whitespace {c : Char} (h : c ∈ Alphabet.woof.whitespace) : Apart (c :: r) :=
  apart_cons (Alphabet.not_mem_of_whitespace h)

theorem apart_blank : Apart (' ' :: r) := apart_whitespace (by decide)

/-- Behind a blank, or with nothing more to come, what is before is kept apart. -/
theorem apart_blanks (ts : List String) (hr : Apart r) :
    Apart ((ts.flatMap fun u => ' ' :: u.toList) ++ r) := by
  cases ts with
  | nil => exact hr
  | cons u us => exact apart_blank

theorem symbol_toList {s : String} (h : Writer.name (.text s) = pure s) (hr : Apart r) :
    Symbol s (s.toList ++ r) r where
  text := rfl
  isName := Writer.name_eq_pure_iff.mp h
  ends := hr

theorem number_toDigits (n : Nat) (hr : Apart r) : Number n (Nat.toDigits 10 n ++ r) r where
  exists_digits := by
    refine ⟨Nat.toDigits 10 n, rfl, Nat.toDigits_ne_nil, ?_, ?_⟩
    · intro d hd
      exact Alphabet.mem_digits_iff.mpr (Nat.isDigit_of_mem_toDigits (by decide) (by decide) hd)
    · rw [Nat.ofDigitChars_ten_toDigits]
  ends := fun c hc => (hr c hc).2

theorem characters_escape (s : List Char) : Characters (s.flatMap Writer.escape) s := by
  induction s with
  | nil => exact .nil
  | cons c s ih =>
    rw [List.flatMap_cons, Writer.escape]
    split
    · rename_i h
      exact .escaped h.symm ih
    · rename_i h
      have hn := not_or.mp h
      exact .plain hn.2 hn.1 ih

theorem str_quoted (s : String) (r : List Char) : Str s ((Writer.quoted s).toList ++ r) r := by
  refine ⟨s.toList.flatMap Writer.escape, ?_, characters_escape s.toList⟩
  simp [Writer.quoted]

theorem blank_trivia (s : List Char) : Trivia (' ' :: s) s := .blank (by decide) (.done s)

theorem symbols_blanks {names : List String}
    (h : ∀ s ∈ names, Writer.name (.text s) = pure s) (hr : Apart r) :
    Symbols names ((names.flatMap fun u => ' ' :: u.toList) ++ r) r := by
  induction names with
  | nil => exact .nil r
  | cons s names ih =>
    have hs := symbol_toList (h s List.mem_cons_self) (apart_blanks names hr)
    have ht := ih fun u hu => h u (List.mem_cons_of_mem s hu)
    have he : ((s :: names).flatMap fun u => ' ' :: u.toList) ++ r =
        ' ' :: (s.toList ++ ((names.flatMap fun u => ' ' :: u.toList) ++ r)) := by simp
    rw [he]
    exact .cons (blank_trivia _) hs ht

theorem symbols_spaced {names : List String}
    (h : ∀ s ∈ names, Writer.name (.text s) = pure s) (hr : Apart r) :
    Symbols names ((Writer.spaced names).toList ++ r) r := by
  cases names with
  | nil => exact .nil r
  | cons s names =>
    have hs := symbol_toList (h s List.mem_cons_self) (apart_blanks names hr)
    have ht := symbols_blanks (fun u hu => h u (List.mem_cons_of_mem s hu)) hr
    rw [Writer.toList_spaced_cons, List.append_assoc]
    exact .cons (.done _) hs ht

/-- The text of the forms gives them back, whatever is kept apart from it. -/
def Printed (f : Form) : Prop := ∀ r, Apart r → FormText f (f.text.toList ++ r) r

theorem formsText_blanks {fs : List Form} (h : ∀ f ∈ fs, Printed f) (hr : Apart r) :
    FormsText fs ((fs.flatMap fun f => ' ' :: f.text.toList) ++ r) r := by
  induction fs with
  | nil => exact .nil r
  | cons f fs ih =>
    have ha : Apart ((fs.flatMap fun f => ' ' :: f.text.toList) ++ r) := by
      have hm := apart_blanks (fs.map Form.text) hr
      rwa [List.flatMap_map] at hm
    have hf := h f List.mem_cons_self _ ha
    have ht := ih fun g hg => h g (List.mem_cons_of_mem f hg)
    have he : ((f :: fs).flatMap fun f => ' ' :: f.text.toList) ++ r =
        ' ' :: (f.text.toList ++ ((fs.flatMap fun f => ' ' :: f.text.toList) ++ r)) := by simp
    rw [he]
    exact .cons (blank_trivia _) hf ht

theorem formsText_spaced {f : Form} {fs : List Form} (h : ∀ g ∈ f :: fs, Printed g)
    (hr : Apart r) :
    FormsText (f :: fs) ((Writer.spaced (Form.texts (f :: fs))).toList ++ r) r := by
  have ha : Apart ((fs.flatMap fun f => ' ' :: f.text.toList) ++ r) := by
    have hm := apart_blanks (fs.map Form.text) hr
    rwa [List.flatMap_map] at hm
  have hf := h f List.mem_cons_self _ ha
  have ht := formsText_blanks (fun g hg => h g (List.mem_cons_of_mem f hg)) hr
  rw [Form.texts_eq_map, List.map_cons, Writer.toList_spaced_cons, List.flatMap_map,
    List.append_assoc]
  exact .cons (.done _) hf ht

theorem printed_application {f : Form} {fs : List Form} (h : ∀ g ∈ f :: fs, Printed g) :
    Printed (.application f fs) := by
  intro r hr
  have hp := formsText_spaced h (apart_mark (by decide) : Apart (')' :: r))
  have he : (Form.application f fs).text.toList ++ r =
      '(' :: ((Writer.spaced (Form.texts (f :: fs))).toList ++ ')' :: r) := by
    simp [Form.text, Form.texts]
  rw [he]
  exact .application hp (.done _)

theorem isName_define : IsName "define".toList := by decide

theorem isName_lambda : IsName "lambda".toList := by decide

theorem doc_blank (doc : Option String) (s : List Char) :
    Doc doc (((doc.map Writer.quoted).toList.flatMap fun u => ' ' :: u.toList) ++ s) s := by
  cases doc with
  | none => exact .absent s
  | some d =>
    have he : (((some d).map Writer.quoted).toList.flatMap fun u => ' ' :: u.toList) ++ s =
        ' ' :: ((Writer.quoted d).toList ++ s) := by simp
    rw [he]
    exact .present (blank_trivia _) (str_quoted d s)

theorem printed_define {doc : Option String} {s : String} {f : Form}
    (hs : Writer.name (.text s) = pure s) (hf : Printed f) : Printed (.define doc s f) := by
  intro r hr
  have hv := hf ('\x7d' :: r) (apart_mark (by decide))
  have hn := symbol_toList hs (apart_blank : Apart (' ' :: (f.text.toList ++ '\x7d' :: r)))
  have hd := doc_blank doc (' ' :: (s.toList ++ ' ' :: (f.text.toList ++ '\x7d' :: r)))
  have ha : Apart (((doc.map Writer.quoted).toList.flatMap fun u => ' ' :: u.toList) ++
      ' ' :: (s.toList ++ ' ' :: (f.text.toList ++ '\x7d' :: r))) := apart_blanks _ apart_blank
  have he : (Form.define doc s f).text.toList ++ r =
      '\x7b' :: ("define".toList ++
        (((doc.map Writer.quoted).toList.flatMap fun u => ' ' :: u.toList) ++
          ' ' :: (s.toList ++ ' ' :: (f.text.toList ++ '\x7d' :: r)))) := by
    simp [Form.text, Writer.toList_spaced_cons]
  rw [he]
  exact .define (.done _) ⟨rfl, isName_define, ha⟩ hd (blank_trivia _) hn (blank_trivia _) hv
    (.done _)

theorem printed_lambda {ps : List String} {fs : List Form}
    (hp : ∀ p ∈ ps, Writer.name (.text p) = pure p) (hd : ps.Nodup) (hne : fs ≠ [])
    (h : ∀ g ∈ fs, Printed g) : Printed (.lambda ps fs) := by
  obtain ⟨f, fs, rfl⟩ := List.exists_cons_of_ne_nil hne
  intro r hr
  have hb := formsText_blanks h (apart_mark (by decide) : Apart ('\x7d' :: r))
  have hn := symbols_spaced hp (apart_mark (by decide) :
    Apart ('\x7d' :: (((f :: fs).flatMap fun f => ' ' :: f.text.toList) ++ '\x7d' :: r)))
  have he : (Form.lambda ps (f :: fs)).text.toList ++ r =
      '\x7b' :: ("lambda".toList ++ ' ' :: '\x7b' :: ((Writer.spaced ps).toList ++ '\x7d' ::
        (((f :: fs).flatMap fun f => ' ' :: f.text.toList) ++ '\x7d' :: r))) := by
    simp [Form.text, Form.texts, Form.texts_eq_map, Writer.toList_spaced_cons, List.flatMap_map]
  rw [he]
  exact .lambda (.done _) ⟨rfl, isName_lambda, apart_blank⟩ (blank_trivia _) hn hd (.done _) hb
    (.done _)

mutual

theorem printed : (f : Form) → f.WellFormed → Printed f
  | .number n, h => by
    intro r hr
    obtain ⟨m, rfl⟩ := Int.eq_ofNat_of_zero_le h
    have hn := number_toDigits m hr
    simpa [Form.text] using FormText.number hn
  | .symbol s, h => fun r hr => .symbol (symbol_toList h hr)
  | .string s, _ => fun r _ => .string (str_quoted s r)
  | .lambda ps fs, h => printed_lambda h.1 h.2.1 h.2.2.1 (printed_all fs h.2.2.2)
  | .define _ s f, h => printed_define h.1 (printed f h.2)
  | .application f fs, h =>
    printed_application (List.forall_mem_cons.mpr ⟨printed f h.1, printed_all fs h.2⟩)

theorem printed_all : (fs : List Form) → Form.WellFormedAll fs → ∀ f ∈ fs, Printed f
  | [], _ => by simp
  | f :: fs, h => List.forall_mem_cons.mpr ⟨printed f h.1, printed_all fs h.2⟩

end

theorem ProgramText.after_trivia {fs : List Form} {s s₁ : List Char} (ht : Trivia s s₁)
    (h : ProgramText fs s₁) : ProgramText fs s := by
  obtain ⟨r, hf, hr⟩ := h
  cases hf with
  | nil => exact ⟨s, .nil s, ht.trans hr⟩
  | cons before head tail => exact ⟨r, .cons (ht.trans before) head tail, hr⟩

theorem ProgramText.cons {f : Form} {fs : List Form} {s s₁ : List Char} (hf : FormText f s s₁)
    (h : ProgramText fs s₁) : ProgramText (f :: fs) s := by
  obtain ⟨r, hfs, hr⟩ := h
  exact ⟨r, .cons (.done s) hf hfs, hr⟩

/-- A form on each line makes a program. -/
theorem programText_lines {fs : List Form} (h : ∀ f ∈ fs, f.WellFormed) :
    ProgramText fs (fs.flatMap fun f => f.text.toList ++ ['\n']) := by
  induction fs with
  | nil => exact ⟨[], .nil [], .done []⟩
  | cons f fs ih =>
    have hp := ih fun g hg => h g (List.mem_cons_of_mem f hg)
    have hn := hp.after_trivia (.blank (by decide : '\n' ∈ Alphabet.woof.whitespace) (.done _))
    have hf := printed f (h f List.mem_cons_self) _ (apart_whitespace (by decide) :
      Apart ('\n' :: fs.flatMap fun f => f.text.toList ++ ['\n']))
    rw [List.flatMap_cons, List.append_assoc]
    exact .cons hf hn

end Woof.Syntax

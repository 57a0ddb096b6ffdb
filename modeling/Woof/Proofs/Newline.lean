import Mathlib.Data.List.Forall2
import Woof.Text.Newline
import Woof.Proofs.RoundTrip

namespace Woof.Text

theorem unifyNewlines_of_ne {c : Char} (h : c ≠ '\r') (s : List Char) :
    unifyNewlines (c :: s) = c :: unifyNewlines s := by
  rw [unifyNewlines]
  · intro rest hc
    exact absurd hc h
  · exact h

theorem unifyNewlines_return {s : List Char} (h : s.head? ≠ some '\n') :
    unifyNewlines ('\r' :: s) = '\n' :: unifyNewlines s := by
  rw [unifyNewlines]
  rintro rest rfl
  exact h rfl

theorem return_not_mem_unifyNewlines (s : List Char) : '\r' ∉ unifyNewlines s := by
  fun_induction unifyNewlines s with
  | case1 rest ih => simp [ih]
  | case2 rest _ ih => simp [ih]
  | case3 c rest _ hc ih =>
    have hne : '\r' ≠ c := fun he => hc he.symm
    simp [ih, hne]
  | case4 => simp

/-- Wherever the first text stands, the second is read in its place. -/
def Translates (s t : List Char) : Prop := ∀ r, unifyNewlines (s ++ r) = t ++ unifyNewlines r

namespace Translates

variable {s t s' t' : List Char}

theorem eq (h : Translates s t) : unifyNewlines s = t := by
  have hn := h []
  rwa [List.append_nil, unifyNewlines, List.append_nil] at hn

theorem append (h : Translates s t) (h' : Translates s' t') : Translates (s ++ s') (t ++ t') := by
  intro r
  rw [List.append_assoc, h, h', List.append_assoc]

theorem of_plain (h : '\r' ∉ s) : Translates s s := by
  intro r
  induction s with
  | nil => rfl
  | cons c s ih =>
    have hc : c ≠ '\r' := by
      rintro rfl
      exact h List.mem_cons_self
    have hs := ih fun hm => h (List.mem_cons_of_mem c hm)
    rw [List.cons_append, unifyNewlines_of_ne hc, hs, List.cons_append]

end Translates

/-- A text as it is read from a file. -/
def unified (s : String) : String := String.ofList (unifyNewlines s.toList)

theorem unified_eq_self_iff {s : String} : unified s = s ↔ '\r' ∉ s.toList := by
  constructor
  · intro h
    rw [← h, unified, String.toList_ofList]
    exact return_not_mem_unifyNewlines _
  · intro h
    rw [unified, (Translates.of_plain h).eq, String.ofList_toList]

end Woof.Text

namespace Woof.Form

variable (g : String → String)

mutual

/-- The form with the function applied to the strings in it and the texts about its values. -/
def mapStrings : Form → Form
  | number n => number n
  | symbol s => symbol s
  | string s => string (g s)
  | lambda ps fs => lambda ps (mapStringsAll fs)
  | define doc s f => define (doc.map g) s (mapStrings f)
  | application f fs => application (mapStrings f) (mapStringsAll fs)

def mapStringsAll : List Form → List Form
  | [] => []
  | f :: fs => mapStrings f :: mapStringsAll fs

end

theorem mapStringsAll_eq_map (fs : List Form) : mapStringsAll g fs = fs.map (mapStrings g) := by
  induction fs with
  | nil => rfl
  | cons f fs ih => rw [mapStringsAll, ih, List.map_cons]

mutual

theorem depth_mapStrings : (f : Form) → (f.mapStrings g).depth = f.depth
  | number _ | symbol _ | string _ => rfl
  | lambda _ fs => by rw [mapStrings, depth, depth, depthAll_mapStrings fs]
  | define _ _ f => by rw [mapStrings, depth, depth, depth_mapStrings f]
  | application f fs => by
    rw [mapStrings, depth, depth, depth_mapStrings f, depthAll_mapStrings fs]

theorem depthAll_mapStrings : (fs : List Form) → depthAll (mapStringsAll g fs) = depthAll fs
  | [] => rfl
  | f :: fs => by rw [mapStringsAll, depthAll, depthAll, depth_mapStrings f, depthAll_mapStrings fs]

end

mutual

/-- Nothing is asked of a string. -/
theorem wellFormed_mapStrings : (f : Form) → f.WellFormed → (f.mapStrings g).WellFormed
  | number _, h => h
  | symbol _, h => h
  | string _, _ => trivial
  | lambda ps fs, h => by
    obtain ⟨hp, hd, hne, hfs⟩ := h
    refine ⟨hp, hd, ?_, wellFormedAll_mapStrings fs hfs⟩
    rw [mapStringsAll_eq_map]
    simpa using hne
  | define _ _ f, h => ⟨h.1, wellFormed_mapStrings f h.2⟩
  | application f fs, h => ⟨wellFormed_mapStrings f h.1, wellFormedAll_mapStrings fs h.2⟩

theorem wellFormedAll_mapStrings :
    (fs : List Form) → WellFormedAll fs → WellFormedAll (mapStringsAll g fs)
  | [], _ => trivial
  | f :: fs, h => ⟨wellFormed_mapStrings f h.1, wellFormedAll_mapStrings fs h.2⟩

end

end Woof.Form

namespace Woof.Writer

open Woof.Syntax Woof.Text

theorem return_not_mem_name {s : String} (h : name (.text s) = pure s) : '\r' ∉ s.toList := by
  have hn := name_eq_pure_iff.mp h
  intro hm
  cases hl : s.toList with
  | nil => simp [hl] at hm
  | cons c cs =>
    rw [hl] at hn hm
    rcases List.mem_cons.mp hm with rfl | hr
    · exact absurd hn.1 (by decide)
    · exact absurd (hn.2 _ hr) (by decide)

theorem return_not_mem_toDigits (n : Nat) : '\r' ∉ Nat.toDigits 10 n := by
  intro hm
  exact absurd (Nat.isDigit_of_mem_toDigits (by decide) (by decide) hm) (by decide)

theorem return_not_mem_escape {c : Char} (h : c ≠ '\r') : '\r' ∉ escape c := by
  have hne : '\r' ≠ c := h.symm
  rw [escape]
  split <;> simp [hne]

/-- The characters of a string as they stand between quotes. A carriage return at its end stands
before the closing quote, so that no newline after the string can be taken for its other half. -/
theorem unifyNewlines_escaped (s r : List Char) :
    unifyNewlines (s.flatMap escape ++ '\x22' :: r) =
      (unifyNewlines s).flatMap escape ++ '\x22' :: unifyNewlines r := by
  fun_induction unifyNewlines s with
  | case1 rest ih =>
    have he : ('\r' :: '\n' :: rest).flatMap escape ++ '\x22' :: r =
        '\r' :: '\n' :: (rest.flatMap escape ++ '\x22' :: r) := by simp [escape]
    rw [he, unifyNewlines, ih]
    simp [escape]
  | case2 rest hn ih =>
    have he : ('\r' :: rest).flatMap escape ++ '\x22' :: r =
        '\r' :: (rest.flatMap escape ++ '\x22' :: r) := by simp [escape]
    -- what comes next is a backslash, a character of the string that is no newline, or the quote
    have hh : (rest.flatMap escape ++ '\x22' :: r).head? ≠ some '\n' := by
      cases rest with
      | nil => simp
      | cons c cs =>
        have hc : c ≠ '\n' := by
          rintro rfl
          exact hn cs rfl
        rw [List.flatMap_cons, escape]
        split <;> simp [hc]
    rw [he, unifyNewlines_return hh, ih]
    simp [escape]
  | case3 c rest _ hc ih =>
    have ht := Translates.of_plain (return_not_mem_escape hc)
    rw [List.flatMap_cons, List.append_assoc, ht, ih, List.flatMap_cons, List.append_assoc]
  | case4 =>
    rw [List.flatMap_nil, List.nil_append, unifyNewlines_of_ne (by decide)]
    rfl

theorem translates_quoted (s : String) :
    Translates (quoted s).toList (quoted (unified s)).toList := by
  intro r
  have hq (t : List Char) : unifyNewlines ('\x22' :: t) = '\x22' :: unifyNewlines t :=
    unifyNewlines_of_ne (by decide) t
  have he := unifyNewlines_escaped s.toList r
  simp [quoted, unified, hq, he]

theorem translates_spaced {ts us : List String}
    (h : List.Forall₂ (fun t u : String => Translates t.toList u.toList) ts us) :
    Translates (spaced ts).toList (spaced us).toList := by
  have hb {ts us : List String}
      (h : List.Forall₂ (fun t u : String => Translates t.toList u.toList) ts us) :
      Translates (ts.flatMap fun t => ' ' :: t.toList) (us.flatMap fun t => ' ' :: t.toList) := by
    induction h with
    | nil => exact .of_plain (by simp)
    | cons head _ ih => exact ((Translates.of_plain (s := [' ']) (by decide)).append head).append ih
  cases h with
  | nil => exact .of_plain (by decide)
  | cons head tail =>
    rw [toList_spaced_cons, toList_spaced_cons]
    exact head.append (hb tail)

theorem translates_names {ps : List String} (h : ∀ p ∈ ps, name (.text p) = pure p) :
    Translates (spaced ps).toList (spaced ps).toList :=
  translates_spaced (List.forall₂_same.mpr fun p hp => .of_plain (return_not_mem_name (h p hp)))

mutual

/-- The text of a form, read from a file, is that of the form with its strings read from a file. -/
theorem translates_text : (f : Form) → f.WellFormed →
    Translates f.text.toList (f.mapStrings unified).text.toList
  | .number n, _ => by
    rw [Form.mapStrings, Form.text, String.toList_ofList]
    exact .of_plain (return_not_mem_toDigits _)
  | .symbol s, h => .of_plain (return_not_mem_name h)
  | .string s, _ => translates_quoted s
  | .lambda ps fs, h => by
    obtain ⟨hp, -, -, hfs⟩ := h
    have hb := translates_spaced (translates_texts fs hfs)
    simp only [Form.mapStrings, Form.text, String.toList_append]
    exact ((((Translates.of_plain (by decide)).append (translates_names hp)).append
      (.of_plain (by decide))).append hb).append (.of_plain (by decide))
  | .define doc s f, h => by
    have hd : Translates "define".toList "define".toList := .of_plain (by decide)
    have hs : Translates s.toList s.toList := .of_plain (return_not_mem_name h.1)
    have hf := translates_text f h.2
    simp only [Form.mapStrings, Form.text, String.toList_append]
    refine ((Translates.of_plain (by decide)).append (translates_spaced ?_)).append
      (.of_plain (by decide))
    cases doc with
    | none => exact .cons hd (.cons hs (.cons hf .nil))
    | some d => exact .cons hd (.cons (translates_quoted d) (.cons hs (.cons hf .nil)))
  | .application f fs, h => by
    have hp := translates_spaced (.cons (translates_text f h.1) (translates_texts fs h.2))
    simp only [Form.mapStrings, Form.text, String.toList_append]
    exact ((Translates.of_plain (by decide)).append hp).append (.of_plain (by decide))

theorem translates_texts : (fs : List Form) → Form.WellFormedAll fs →
    List.Forall₂ (fun t u : String => Translates t.toList u.toList) (Form.texts fs)
      (Form.texts (Form.mapStringsAll unified fs))
  | [], _ => .nil
  | f :: fs, h => .cons (translates_text f h.1) (translates_texts fs h.2)

end

theorem translates_lines {fs : List Form} (h : ∀ f ∈ fs, f.WellFormed) :
    Translates (lines fs).toList (lines (fs.map (Form.mapStrings unified))).toList := by
  rw [toList_lines, toList_lines]
  induction fs with
  | nil => exact .of_plain (by simp)
  | cons f fs ih =>
    have hf := translates_text f (h f List.mem_cons_self)
    have hfs := ih fun g hg => h g (List.mem_cons_of_mem f hg)
    exact (hf.append (.of_plain (by decide))).append hfs

end Woof.Writer

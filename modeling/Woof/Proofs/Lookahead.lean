import Woof.Proofs.Frame
import Woof.Proofs.Run

namespace Woof.Cursor

variable {text : String} {c : Cursor}

/-- What is consumed and what remains make up the text. -/
theorem offset_add_length_text (h : (ofText text).Onward c) :
    c.offset + c.text.length = text.length := by
  have ht : c.tokens.size = text.length := by
    rw [h.tokens, ← String.length_toList]
    simp [ofText]
  have ho := c.offset_le
  rw [length_text, left]
  omega

theorem text_of_offset {u rest : String} (h : (ofText (u ++ rest)).Onward c)
    (ho : c.offset = u.length) : c.text = rest.toList := by
  have hs : c.text <:+ u.toList ++ rest.toList := by
    have hm := h.suffix.map Token.symbol
    rwa [← text, ← text, text_ofText, String.toList_append] at hm
  have hl := offset_add_length_text h
  rw [String.length_append, ho] at hl
  have he : c.text.length = rest.toList.length := by
    rw [String.length_toList]
    omega
  exact (List.suffix_of_suffix_length_le hs (List.suffix_append _ _) (Nat.le_of_eq he)).eq_of_length
    he

end Woof.Cursor

namespace Woof.Syntax

variable {f : Form} {s r : List Char}

/-- The text does not go on with the form: a symbol could go on with starts and digits, a number
with digits. Any other form ends with a mark of its own. -/
def Follows : Form → List Char → Prop
  | .symbol _, r => Apart r
  | .number _, r => ∀ c ∈ r.head?, c ∉ Alphabet.woof.digits
  | _, _ => True

theorem follows_nil (f : Form) : Follows f [] := by
  cases f <;> simp [Follows, Apart]

/-- What is found in front of a character does not depend on anything behind that character. -/
theorem Framed.before_char {J : List Char → List Char → Prop} {x : Char}
    (h : Framed J s (x :: r)) :
    ∃ u, s = u ++ x :: r ∧ ∀ r', J (u ++ x :: r') (x :: r') := by
  obtain ⟨u, hs, hu⟩ := h
  exact ⟨u, hs, fun r' => hu (x :: r') (.inl rfl)⟩

/-- The characters of a form by themselves, in front of any text that does not go on with it. -/
theorem FormText.exists_own (h : FormText f s r) :
    ∃ u, s = u ++ r ∧ ∀ r', Follows f r' → FormText f (u ++ r') r' := by
  cases h with
  | @symbol name _ _ text =>
    exact ⟨name.toList, text.text, fun r' hr => .symbol ⟨rfl, text.isName, hr⟩⟩
  | number text =>
    obtain ⟨ds, hs, hne, hds, hn⟩ := text.exists_digits
    exact ⟨ds, hs, fun r' hr => .number ⟨⟨ds, rfl, hne, hds, hn⟩, hr⟩⟩
  | string text =>
    obtain ⟨body, rfl, hb⟩ := text
    refine ⟨'\x22' :: (body ++ ['\x22']), by simp, ?_⟩
    intro r' _
    exact .string ⟨body, by simp, hb⟩
  | application parts close =>
    obtain ⟨u, rfl, hu⟩ := (parts.framed.comp close.framed).before_char
    refine ⟨'(' :: (u ++ [')']), by simp, ?_⟩
    intro r' _
    obtain ⟨_, hp, hc⟩ := hu r'
    simpa using FormText.application hp hc
  | define beforeWord word about beforeName named beforeValue body close =>
    have hv := beforeValue.framed.comp (body.framed.comp close.framed)
    have hn := about.framed.comp (beforeName.framed.comp (named.framed.comp hv))
    obtain ⟨u, rfl, hu⟩ := (beforeWord.framed.comp (word.framed.comp hn)).before_char
    refine ⟨'\x7b' :: (u ++ ['\x7d']), by simp, ?_⟩
    intro r' _
    obtain ⟨_, hbw, _, hw, _, hd, _, hbn, _, hn, _, hbv, _, hv, hc⟩ := hu r'
    simpa using FormText.define hbw hw hd hbn hn hbv hv hc
  | lambda beforeWord word openParams names distinct closeParams body close =>
    have hb := (Framed.char '\x7d' _).comp (body.framed.comp close.framed)
    have hp := (Framed.char '\x7b' _).comp (names.framed.comp (closeParams.framed.comp hb))
    have hw := word.framed.comp (openParams.framed.comp hp)
    obtain ⟨u, rfl, hu⟩ := (beforeWord.framed.comp hw).before_char
    refine ⟨'\x7b' :: (u ++ ['\x7d']), by simp, ?_⟩
    intro r' _
    obtain ⟨_, hbw, _, hw, _, ho, _, rfl, _, hn, _, hp, _, rfl, _, hb, hc⟩ := hu r'
    simpa using FormText.lambda hbw hw ho hn distinct hp hb hc

/-- As `FormText.exists_own`, with the trivia before the form. -/
theorem FormText.exists_own_after_trivia {x : List Char} (ht : Trivia x s) (h : FormText f s r) :
    ∃ u, x = u ++ r ∧ ∀ r', Follows f r' →
      ∃ s', Trivia (u ++ r') s' ∧ FormText f s' r' := by
  have hl := h.length_lt
  obtain ⟨v, rfl, hv⟩ := h.exists_own
  obtain ⟨w, rfl, hw⟩ := ht.framed
  refine ⟨w ++ v, (List.append_assoc w v r).symm, ?_⟩
  intro r' hr
  -- a form has characters, so that what follows the trivia begins as it did
  have hc : Closes (v ++ r) (v ++ r') := by
    cases v with
    | nil => exact absurd hl (Nat.lt_irrefl _)
    | cons c v => exact .inl rfl
  rw [List.append_assoc]
  exact ⟨v ++ r', hw _ hc, hv r' hr⟩

end Woof.Syntax

namespace Woof

open Woof.Grammar Woof.Syntax

/-- A form that was read from a text up to some place is read from every other text that begins in
the same way and does not go on with the form there, up to the same place; the beginning by itself
is a program of this one form. Only the form's own depth counts. -/
theorem form_eq_of_follows {limit : Nat} {u rest : String} {f : Form} {c : Cursor}
    (h : form .woof limit (.ofText (u ++ rest)) = .ok (.success f c)) (hc : c.offset = u.length) :
    f.depth ≤ limit ∧ ∀ n, f.depth ≤ n →
      (∀ other : String, Follows f other.toList → ∃ c',
        form .woof n (.ofText (u ++ other)) = .ok (.success f c') ∧
        c'.tokens = (Cursor.ofText (u ++ other)).tokens ∧ c'.offset = u.length) ∧
      (parseWithin n Receiver.ignore () u).1 = .ok [f] := by
  have hon := advances_form .woof limit h
  obtain ⟨s, ht, hf⟩ := sound_form limit h
  rw [Cursor.text_of_offset hon hc] at hf
  obtain ⟨w, hw, how⟩ := FormText.exists_own_after_trivia ht hf
  rw [Cursor.text_ofText, String.toList_append] at hw
  obtain rfl : u.toList = w := List.append_cancel_right hw
  refine ⟨depth_le_of_form h, fun n hn => ⟨?_, ?_⟩⟩
  · intro other ho
    obtain ⟨s', ht', hf'⟩ := how other.toList ho
    rw [← String.toList_append, ← Cursor.text_ofText] at ht'
    rcases form_complete hf' n _ ht' with ⟨hd, -⟩ | ⟨-, c', hp, hr⟩
    · omega
    · have hon' := advances_form .woof n hp
      have hl := Cursor.offset_add_length_text hon'
      rw [hr, String.length_toList, String.length_append] at hl
      exact ⟨c', hp, hon'.tokens, by omega⟩
  · obtain ⟨s', ht', hf'⟩ := how [] (follows_nil f)
    rw [List.append_nil] at ht'
    have hp := f.depth_pos
    refine parseWithin_eq_ok_iff.mpr ⟨⟨[], .cons ht' hf' (.nil []), .done []⟩, by omega, ?_⟩
    simpa using hn

/-- A number in a row with a symbol, in front of a parenthesis instead. -/
theorem form_eq_of_follows_number :
    ∃ c, form .woof 1 (.ofText (";(\n12" ++ "x")) = .ok (.success (.number 12) c) ∧
      c.offset = (";(\n12" : String).length ∧
      (∃ c', form .woof 1 (.ofText (";(\n12" ++ ")3")) = .ok (.success (.number 12) c') ∧
        c'.tokens = (Cursor.ofText (";(\n12" ++ ")3")).tokens ∧
        c'.offset = (";(\n12" : String).length) ∧
      (parseWithin 1 Receiver.ignore () ";(\n12").1 = .ok [.number 12] := by
  have h : form .woof 1 (.ofText (";(\n12" ++ "x")) =
      .ok (.success (.number 12) ((Cursor.ofText (";(\n12" ++ "x")).seek [⟨'x', 2, 3⟩])) := by cbv
  have hf : Follows (.number 12) (")3" : String).toList := by
    have hd : ')' ∉ Alphabet.woof.digits := by decide
    simpa [Follows] using hd
  obtain ⟨-, hr⟩ := form_eq_of_follows h rfl
  exact ⟨_, h, rfl, (hr 1 (by decide)).1 ")3" hf, (hr 1 (by decide)).2⟩

end Woof

import Woof.Cursor

namespace Woof.Cursor

/-- The place in the same text where the given tokens remain. -/
def seek (c : Cursor) (rest : List (Token Char)) : Cursor :=
  ⟨c.tokens, c.tokens.size - rest.length, Nat.sub_le _ _⟩

/-- The characters that remain. -/
def text (c : Cursor) : List Char := c.remaining.map Token.symbol

@[simp] theorem seek_seek (c : Cursor) (ts us : List (Token Char)) :
    (c.seek ts).seek us = c.seek us := rfl

@[simp] theorem seek_remaining (c : Cursor) : c.seek c.remaining = c := by
  have h := c.offset_le
  ext1
  · rfl
  · simp only [seek, length_remaining, left]
    omega

/-- Only tokens that remain can remain later on. -/
theorem remaining_seek {c : Cursor} {rest : List (Token Char)} (h : rest <:+ c.remaining) :
    (c.seek rest).remaining = rest := by
  have hs : rest <:+ c.tokens.toList := h.trans (List.drop_suffix _ _)
  have hd := List.suffix_iff_eq_drop.mp hs
  simpa [remaining, seek] using hd.symm

theorem left_seek {c : Cursor} {rest : List (Token Char)} (h : rest <:+ c.remaining) :
    (c.seek rest).left = rest.length := by
  rw [← length_remaining, remaining_seek h]

theorem offset_seek_lt {c : Cursor} {ts us : List (Token Char)} (h : ts <:+ c.remaining)
    (hl : us.length < ts.length) : (c.seek ts).offset < (c.seek us).offset := by
  have hr := h.length_le
  rw [length_remaining, left] at hr
  show c.tokens.size - ts.length < c.tokens.size - us.length
  omega

theorem text_seek {c : Cursor} {rest : List (Token Char)} (h : rest <:+ c.remaining) :
    (c.seek rest).text = rest.map Token.symbol := by
  rw [text, remaining_seek h]

theorem length_text (c : Cursor) : c.text.length = c.left := by simp [text]

theorem eq_seek_of_next? {c c' : Cursor} {t : Token Char} (h : c.next? = some (t, c')) :
    c' = c.seek c'.remaining := by
  unfold next? at h
  split at h
  · obtain ⟨-, rfl⟩ := Prod.mk.inj (Option.some.inj h)
    exact (seek_remaining _).symm
  · simp at h

theorem next?_of_remaining_nil {c : Cursor} (h : c.remaining = []) : c.next? = none := by
  rw [next?_eq_none_iff, ← length_remaining, h]
  rfl

theorem next?_of_remaining_cons {c : Cursor} {t : Token Char} {ts : List (Token Char)}
    (h : c.remaining = t :: ts) : c.next? = some (t, c.seek ts) := by
  cases hn : c.next? with
  | none =>
    have hl := next?_eq_none_iff.mp hn
    rw [← length_remaining, h] at hl
    simp at hl
  | some r =>
    obtain ⟨u, c'⟩ := r
    have hr := remaining_of_next? hn
    have hc := eq_seek_of_next? hn
    rw [h] at hr
    obtain ⟨rfl, rfl⟩ := List.cons.inj hr
    rw [← hc]

theorem first?_eq_head? (c : Cursor) : c.first? = c.remaining.head? := by
  simp [first?, remaining]

theorem remaining_ofText (text : String) :
    (ofText text).remaining = Token.tag '\n' text.toList := by
  simp [ofText, remaining]

theorem text_ofText (text : String) : (ofText text).text = text.toList := by
  rw [Cursor.text, remaining_ofText, Token.symbol_tag]

end Woof.Cursor

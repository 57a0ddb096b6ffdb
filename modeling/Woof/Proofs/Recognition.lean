import Woof.Proofs.Form
import Woof.Proofs.Spelling

namespace Woof.Grammar

open Woof.Parser Woof.Syntax

variable {limit : Nat} {c c' : Cursor} {s r : List Char}

theorem ahead_eq_head? (c : Cursor) : ahead .woof c = (symbols (skip .woof c.remaining)).head? := by
  rw [ahead, symbols, List.head?_map]

theorem text_seek_of_skip {rest : List (Token Char)} (h : rest <:+ skip .woof c.remaining) :
    (c.seek rest).text = symbols rest :=
  Cursor.text_seek (h.trans (skip_suffix .woof _))

section Soundness

theorem delimiter_sound {x : Char} {t : Token Char}
    (h : delimiter .woof x c = .ok (.success t c')) : Trivia c.text (x :: c'.text) := by
  obtain ⟨hr, -, -⟩ := (reads_delimiter .woof x).of_success h
  obtain ⟨hs, hx⟩ := headIf_eq_some_iff.mp hr
  have ht := trivia_skip c.remaining
  rw [hs] at ht
  rw [← beq_iff_eq.mp hx]
  exact ht

theorem symbol_sound {name : String} (h : symbol .woof c = .ok (.success name c')) :
    ∃ s, Trivia c.text s ∧ Symbol name s c'.text := by
  obtain ⟨hr, -, -⟩ := (reads_symbol .woof).of_success h
  exact ⟨_, trivia_skip c.remaining, symbol_of_readSymbol hr⟩

theorem keyword_sound {word name : String}
    (h : keyword .woof word c = .ok (.success name c')) :
    ∃ s, Trivia c.text s ∧ Symbol word s c'.text := by
  obtain ⟨hs, hw⟩ := filter_eq_success h
  rw [← beq_iff_eq.mp hw]
  exact symbol_sound hs

theorem number_sound {n : Int} (h : number .woof c = .ok (.success n c')) :
    ∃ s, Trivia c.text s ∧ Number n s c'.text := by
  obtain ⟨hr, -, -⟩ := reads_number.of_success h
  exact ⟨_, trivia_skip c.remaining, number_of_readNumber hr⟩

theorem stringLiteral_sound {value : String}
    (h : stringLiteral .woof c = .ok (.success value c')) :
    ∃ s, Trivia c.text s ∧ Str value s c'.text := by
  obtain ⟨hr, -, -⟩ := (reads_stringLiteral .woof).of_success h
  exact ⟨_, trivia_skip c.remaining, str_of_readString hr⟩

theorem doc_sound {doc : Option String}
    (h : optional (stringLiteral .woof) c = .ok (.success doc c')) : Doc doc c.text c'.text := by
  cases hr : readString (skip .woof c.remaining) with
  | none =>
    have hf := (reads_stringLiteral .woof).of_none hr
    rw [optional_of_failure hf] at h
    obtain ⟨rfl, rfl⟩ := Outcome.success.inj (Except.ok.inj h)
    exact .absent _
  | some v =>
    have hf := (reads_stringLiteral .woof).of_some hr
    rw [optional_of_success hf] at h
    obtain ⟨rfl, rfl⟩ := Outcome.success.inj (Except.ok.inj h)
    obtain ⟨s, ht, hs⟩ := stringLiteral_sound hf
    exact .present ht hs

theorem symbol_left_lt {name : String} (h : symbol .woof c = .ok (.success name c')) :
    c'.left < c.left := by
  obtain ⟨s, ht, hs⟩ := symbol_sound h
  have h₁ := ht.length_le
  have h₂ := hs.length_lt
  rw [Cursor.length_text] at h₁ h₂
  omega

theorem symbols_sound {names : List String} (h : Steps (symbol .woof) c names c') :
    Symbols names c.text c'.text := by
  induction h with
  | nil => exact .nil _
  | cons head _ _ ih =>
    obtain ⟨s, ht, hs⟩ := symbol_sound head
    exact .cons ht hs ih

theorem parameters_sound {place : Location} {names : List String}
    (h : parameters .woof place c = .ok (.success names c')) :
    Symbols names c.text c'.text ∧ names.Nodup := by
  obtain ⟨found, c₁, hz, -⟩ := bind_eq_success_iff.mp h
  obtain ⟨hs, hf⟩ := zeroOrMore_eq_success symbol_left_lt hz
  rw [parameters_of_steps place hs hf] at h
  by_cases hd : found.Nodup
  · rw [if_pos hd] at h
    obtain ⟨rfl, rfl⟩ := Outcome.success.inj (Except.ok.inj h)
    exact ⟨symbols_sound hs, hd⟩
  · rw [if_neg hd] at h
    cases h

/-- Whatever the parser reads is a form of the grammar. -/
def Sound (inner : Scan Form) : Prop :=
  ∀ ⦃c f c'⦄, inner c = .ok (.success f c') → ∃ s, Trivia c.text s ∧ FormText f s c'.text

variable {inner : Scan Form} {f : Form} {opening : Token Char}

theorem Sound.left_lt (h : Sound inner) (hi : inner c = .ok (.success f c')) :
    c'.left < c.left := by
  obtain ⟨s, ht, hf⟩ := h hi
  have h₁ := ht.length_le
  have h₂ := hf.length_lt
  rw [Cursor.length_text] at h₁ h₂
  omega

theorem Sound.steps (h : Sound inner) {fs : List Form} (hs : Steps inner c fs c') :
    FormsText fs c.text c'.text := by
  induction hs with
  | nil => exact .nil _
  | cons head _ _ ih =>
    obtain ⟨s, ht, hf⟩ := h head
    exact .cons ht hf ih

theorem Sound.afterParen (h : Sound inner)
    (hp : Grammar.afterParen .woof inner opening c = .ok (.success f c')) :
    FormText f ('(' :: c.text) c'.text := by
  obtain ⟨operator, c₁, ho, hp⟩ := bind_eq_success_iff.mp hp
  obtain ⟨operands, c₂, hz, hp⟩ := bind_eq_success_iff.mp hp
  obtain ⟨_, c₃, hc, hp⟩ := bind_eq_success_iff.mp hp
  obtain ⟨rfl, rfl⟩ := Outcome.success.inj (Except.ok.inj hp)
  have hi := expecting_eq_success ho
  obtain ⟨s, ht, hf⟩ := h hi
  obtain ⟨hs, -⟩ := zeroOrMore_eq_success h.left_lt hz
  exact .application (.cons ht hf (h.steps hs)) (delimiter_sound (expecting_eq_success hc))

theorem Sound.afterDefine (h : Sound inner) {s s₁ : List Char} (hb : Trivia s s₁)
    (hw : Symbol "define" s₁ c.text)
    (hp : Grammar.afterDefine .woof inner opening c = .ok (.success f c')) :
    FormText f ('\x7b' :: s) c'.text := by
  obtain ⟨doc, c₁, hd, hp⟩ := bind_eq_success_iff.mp hp
  obtain ⟨name, c₂, hn, hp⟩ := bind_eq_success_iff.mp hp
  obtain ⟨value, c₃, hv, hp⟩ := bind_eq_success_iff.mp hp
  obtain ⟨_, c₄, hc, hp⟩ := bind_eq_success_iff.mp hp
  obtain ⟨rfl, rfl⟩ := Outcome.success.inj (Except.ok.inj hp)
  obtain ⟨s₂, htn, hsn⟩ := symbol_sound (expecting_eq_success hn)
  obtain ⟨s₃, htv, hfv⟩ := h (expecting_eq_success hv)
  exact .define hb hw (doc_sound hd) htn hsn htv hfv (delimiter_sound (expecting_eq_success hc))

theorem Sound.afterLambda (h : Sound inner) {s s₁ : List Char} (hb : Trivia s s₁)
    (hw : Symbol "lambda" s₁ c.text)
    (hp : Grammar.afterLambda .woof inner opening c = .ok (.success f c')) :
    FormText f ('\x7b' :: s) c'.text := by
  obtain ⟨place, c₁, ho, hp⟩ := bind_eq_success_iff.mp hp
  obtain ⟨params, c₂, hps, hp⟩ := bind_eq_success_iff.mp hp
  obtain ⟨_, c₃, hpc, hp⟩ := bind_eq_success_iff.mp hp
  obtain ⟨body, c₄, hbs, hp⟩ := bind_eq_success_iff.mp hp
  obtain ⟨_, c₅, hc, hp⟩ := bind_eq_success_iff.mp hp
  obtain ⟨rfl, rfl⟩ := Outcome.success.inj (Except.ok.inj hp)
  obtain ⟨hns, hnd⟩ := parameters_sound hps
  obtain ⟨hz, hne⟩ := filter_eq_success (expecting_eq_success hbs)
  obtain ⟨hs, -⟩ := zeroOrMore_eq_success h.left_lt hz
  cases body with
  | nil => simp at hne
  | cons first others =>
    exact .lambda hb hw (delimiter_sound (expecting_eq_success ho)) hns hnd
      (delimiter_sound (expecting_eq_success hpc)) (h.steps hs)
      (delimiter_sound (expecting_eq_success hc))

theorem Sound.special (h : Sound inner)
    (hp : Grammar.special .woof inner c = .ok (.success f c')) :
    ∃ s, Trivia c.text s ∧ FormText f s c'.text := by
  obtain ⟨p, hm, he⟩ := exists_mem_of_firstOf (show Grammar.special .woof inner c ≠ .ok .failure by
    simp [hp])
  have hpc : p c = .ok (.success f c') := he.trans hp
  simp only [List.mem_cons, List.not_mem_nil, or_false] at hm
  rcases hm with rfl | rfl | rfl
  · obtain ⟨opening, c₁, ho, hk⟩ := bind_eq_success_iff.mp hpc
    obtain ⟨_, c₂, hw, hd⟩ := bind_eq_success_iff.mp hk
    obtain ⟨s, hb, hs⟩ := keyword_sound hw
    exact ⟨_, delimiter_sound ho, h.afterDefine hb hs hd⟩
  · obtain ⟨opening, c₁, ho, hk⟩ := bind_eq_success_iff.mp hpc
    obtain ⟨_, c₂, hw, hl⟩ := bind_eq_success_iff.mp hk
    obtain ⟨s, hb, hs⟩ := keyword_sound hw
    exact ⟨_, delimiter_sound ho, h.afterLambda hb hs hl⟩
  · obtain ⟨opening, c₁, -, hr⟩ := bind_eq_success_iff.mp hpc
    cases hr

theorem sound_form (limit : Nat) : Sound (form .woof limit) := by
  induction limit with
  | zero =>
    intro c f c' h
    cases h
  | succ limit ih =>
    intro c f c' h
    obtain ⟨p, hm, he⟩ := exists_mem_of_firstOf (show form .woof (limit + 1) c ≠ .ok .failure by
      simp [h])
    have hp : p c = .ok (.success f c') := he.trans h
    simp only [alternatives, List.mem_cons, List.not_mem_nil, or_false] at hm
    rcases hm with rfl | rfl | rfl | rfl | rfl
    · obtain ⟨name, hn, rfl⟩ := map_eq_success hp
      obtain ⟨s, ht, hs⟩ := symbol_sound hn
      exact ⟨s, ht, .symbol hs⟩
    · obtain ⟨n, hn, rfl⟩ := map_eq_success hp
      obtain ⟨s, ht, hs⟩ := number_sound hn
      exact ⟨s, ht, .number hs⟩
    · obtain ⟨value, hv, rfl⟩ := map_eq_success hp
      obtain ⟨s, ht, hs⟩ := stringLiteral_sound hv
      exact ⟨s, ht, .string hs⟩
    · obtain ⟨opening, c₁, ho, ha⟩ := bind_eq_success_iff.mp hp
      exact ⟨_, delimiter_sound ho, ih.afterParen ha⟩
    · exact ih.special hp

end Soundness

section Completeness

theorem noTrivia_cons {x : Char} (hw : x ∉ Alphabet.woof.whitespace) (hc : x ≠ ';') :
    NoTrivia (x :: r) := by
  intro y hy
  obtain rfl : x = y := by simpa using hy
  exact ⟨hw, hc⟩

theorem noTrivia_start {x : Char} (hx : x ∈ Alphabet.woof.symbolStarts) : NoTrivia (x :: r) := by
  obtain ⟨-, hw, hm⟩ := Alphabet.classes_disjoint.1 x hx
  refine noTrivia_cons hw ?_
  rintro rfl
  exact hm (by decide)

theorem noTrivia_digit {x : Char} (hx : x ∈ Alphabet.woof.digits) : NoTrivia (x :: r) := by
  obtain ⟨hw, hm⟩ := Alphabet.classes_disjoint.2.1 x hx
  refine noTrivia_cons hw ?_
  rintro rfl
  exact hm (by decide)

theorem noTrivia_mark {x : Char} (hx : x ∈ Alphabet.marks) (hc : x ≠ ';') : NoTrivia (x :: r) :=
  noTrivia_cons (fun hw => Alphabet.classes_disjoint.2.2 x hw hx) hc

theorem noTrivia_delimiter {x : Char} (hx : x ∈ Alphabet.delimiters) : NoTrivia (x :: r) :=
  noTrivia_mark (Alphabet.mark_of_delimiter hx).1 (Alphabet.mark_of_delimiter hx).2.1

/-- A text that a form starts with: a symbol start, a digit or one of three marks. -/
inductive Starts : List Char → Prop where
  | symbol {x : Char} {s : List Char} (h : x ∈ Alphabet.woof.symbolStarts) : Starts (x :: s)
  | number {x : Char} {s : List Char} (h : x ∈ Alphabet.woof.digits) : Starts (x :: s)
  | mark {x : Char} {s : List Char} (h : x ∈ ['\x22', '(', '\x7b']) : Starts (x :: s)

theorem symbol_starts {name : String} (h : Symbol name s r) : Starts s := by
  have hn := h.isName
  rw [h.text]
  cases hl : name.toList with
  | nil => simp [hl, IsName] at hn
  | cons x xs =>
    rw [hl] at hn
    exact .symbol hn.1

theorem number_head {n : Int} (h : Number n s r) :
    ∃ x xs, s = x :: xs ∧ x ∈ Alphabet.woof.digits := by
  obtain ⟨ds, rfl, hne, hds, -⟩ := h.exists_digits
  cases ds with
  | nil => exact absurd rfl hne
  | cons x xs => exact ⟨x, xs ++ r, rfl, hds x List.mem_cons_self⟩

theorem number_starts {n : Int} (h : Number n s r) : Starts s := by
  obtain ⟨x, xs, rfl, hx⟩ := number_head h
  exact .number hx

theorem formText_starts {f : Form} (h : FormText f s r) : Starts s := by
  cases h with
  | symbol text => exact symbol_starts text
  | number text => exact number_starts text
  | string text =>
    obtain ⟨body, rfl, -⟩ := text
    exact .mark (by decide)
  | application => exact .mark (by decide)
  | define => exact .mark (by decide)
  | lambda => exact .mark (by decide)

theorem Starts.noTrivia (h : Starts s) : NoTrivia s := by
  cases h with
  | symbol hx => exact noTrivia_start hx
  | number hx => exact noTrivia_digit hx
  | mark hx =>
    simp only [List.mem_cons, List.not_mem_nil, or_false] at hx
    rcases hx with rfl | rfl | rfl <;> exact noTrivia_mark (by decide) (by decide)

theorem ahead_of_trivia (h : Trivia c.text s) (hs : NoTrivia s) : ahead .woof c = s.head? := by
  rw [ahead_eq_head?, skip_of_trivia h hs]

theorem delimiter_complete {x : Char} (hx : x ∈ Alphabet.delimiters)
    (h : Trivia c.text (x :: r)) :
    ∃ t ts, skip .woof c.remaining = t :: ts ∧ t.symbol = x ∧
      delimiter .woof x c = .ok (.success t (c.seek ts)) ∧ (c.seek ts).text = r := by
  obtain ⟨t, ts, hs, ht, hr⟩ := List.map_eq_cons_iff.mp (skip_of_trivia h (noTrivia_delimiter hx))
  refine ⟨t, ts, hs, ht, delimiter_of_skip hs ht, ?_⟩
  rw [text_seek_of_skip (hs ▸ List.suffix_cons t ts)]
  exact hr

theorem readSymbol_complete {name : String} (h : Trivia c.text s) (hn : Symbol name s r) :
    ∃ rest, readSymbol .woof (skip .woof c.remaining) = some (name, rest) ∧
      symbol .woof c = .ok (.success name (c.seek rest)) ∧ (c.seek rest).text = r := by
  have hs := skip_of_trivia h (symbol_starts hn).noTrivia
  obtain ⟨rest, hr, he⟩ := readSymbol_of_symbol (hs.symm ▸ hn)
  have hp := (reads_symbol .woof).of_some hr
  refine ⟨rest, hr, hp, ?_⟩
  rw [← he, Cursor.text_seek ((reads_symbol .woof).suffix hr)]

/-- A curly and the word behind it. -/
theorem word_complete {name : String} {s₁ : List Char} (h : Trivia c.text ('\x7b' :: s))
    (ht : Trivia s s₁) (hn : Symbol name s₁ r) :
    ∃ t ts rest, skip .woof c.remaining = t :: ts ∧ t.symbol = '\x7b' ∧
      readSymbol .woof (skip .woof ts) = some (name, rest) ∧ (c.seek rest).text = r := by
  obtain ⟨t, ts, hs, hx, -, hr⟩ := delimiter_complete (by decide) h
  obtain ⟨rest, hw, -, he⟩ := readSymbol_complete (hr.symm ▸ ht) hn
  have hts : ts <:+ c.remaining := (List.suffix_cons t ts).trans (hs ▸ skip_suffix .woof _)
  rw [Cursor.remaining_seek hts] at hw
  exact ⟨t, ts, rest, hs, hx, hw, he⟩

theorem stringLiteral_complete {value : String} (h : Trivia c.text s) (hv : Str value s r) :
    ∃ c', stringLiteral .woof c = .ok (.success value c') ∧ c'.text = r := by
  have hs := skip_of_trivia h (formText_starts (.string hv)).noTrivia
  obtain ⟨rest, hr, he⟩ := readString_of_str (hs.symm ▸ hv)
  refine ⟨c.seek rest, (reads_stringLiteral .woof).of_some hr, ?_⟩
  rw [← he, Cursor.text_seek ((reads_stringLiteral .woof).suffix hr)]

theorem number_complete {n : Int} (h : Trivia c.text s) (hn : Number n s r) :
    ∃ c', number .woof c = .ok (.success n c') ∧ c'.text = r := by
  have hs := skip_of_trivia h (number_starts hn).noTrivia
  obtain ⟨rest, hr, he⟩ := readNumber_of_number (hs.symm ▸ hn)
  refine ⟨c.seek rest, reads_number.of_some hr, ?_⟩
  rw [← he, Cursor.text_seek (reads_number.suffix hr)]

/-- A text about a value is found where there is one: a name cannot be taken for it. -/
theorem doc_complete {doc : Option String} {name : String} {s₁ s₂ : List Char}
    (h : Doc doc c.text s) (ht : Trivia s s₁) (hn : Symbol name s₁ s₂) :
    ∃ c', optional (stringLiteral .woof) c = .ok (.success doc c') ∧ c'.text = s := by
  generalize hx : c.text = x at h
  cases h with
  | absent =>
    subst hx
    have hq : ahead .woof c ≠ some '\x22' := by
      rw [ahead_of_trivia ht (symbol_starts hn).noTrivia, hn.text]
      have hi := hn.isName
      cases hl : name.toList with
      | nil => simp [hl, IsName] at hi
      | cons y ys =>
        rw [hl] at hi
        simp only [List.cons_append, List.head?_cons, ne_eq, Option.some.injEq]
        rintro rfl
        exact absurd hi.1 (by decide)
    have hf := (reads_stringLiteral .woof).of_none (readString_eq_none hq)
    exact ⟨c, optional_of_failure hf, rfl⟩
  | present before text =>
    subst hx
    obtain ⟨c', hp, hr⟩ := stringLiteral_complete before text
    exact ⟨c', optional_of_success hp, hr⟩

/-- Before a closing mark there is no form. -/
theorem form_of_close {x : Char} (hx : x ∈ [')', '\x7d']) (h : Trivia c.text (x :: r)) :
    form .woof (limit + 1) c = .ok .failure := by
  have hm : x ∈ Alphabet.marks ∧ NoTrivia (x :: r) ∧ x ≠ '\x22' ∧ x ≠ '(' ∧ x ≠ '\x7b' := by
    simp only [List.mem_cons, List.not_mem_nil, or_false] at hx
    rcases hx with rfl | rfl <;>
      exact ⟨by decide, noTrivia_delimiter (by decide), by decide, by decide, by decide⟩
  obtain ⟨hmark, hn, hq, hp, hb⟩ := hm
  have ha : ahead .woof c = some x := ahead_of_trivia h hn
  exact form_of_other (not_in_class_of_mark ha hmark) (by simpa [ha] using hq)
    (by simpa [ha] using hp) (by simpa [ha] using hb)

theorem symbol_of_close {x : Char} (hx : x ∈ [')', '\x7d']) (h : Trivia c.text (x :: r)) :
    symbol .woof c = .ok .failure := by
  have hm : x ∈ Alphabet.marks ∧ NoTrivia (x :: r) := by
    simp only [List.mem_cons, List.not_mem_nil, or_false] at hx
    rcases hx with rfl | rfl <;> exact ⟨by decide, noTrivia_delimiter (by decide)⟩
  have ha : ahead .woof c = some x := ahead_of_trivia h hm.2
  exact (reads_symbol .woof).of_none
    (readSymbol_eq_none fun y hy => (not_in_class_of_mark ha hm.1 y hy).1)

theorem symbols_complete {names : List String} (h : Symbols names c.text r) :
    ∃ c', Steps (symbol .woof) c names c' ∧ c'.text = r := by
  generalize hx : c.text = x at h
  induction h generalizing c with
  | nil => exact ⟨c, .nil c, hx⟩
  | cons before head _ ih =>
    subst hx
    obtain ⟨rest, -, hp, hr⟩ := readSymbol_complete before head
    obtain ⟨c', hs, he⟩ := ih hr
    exact ⟨c', .cons hp (symbol_left_lt hp) hs, he⟩

theorem parameters_complete (place : Location) {x : Char} {names : List String}
    (h : Symbols names c.text s) (hd : names.Nodup) (hx : x ∈ [')', '\x7d'])
    (hc : Trivia s (x :: r)) :
    ∃ c', parameters .woof place c = .ok (.success names c') ∧ c'.text = s := by
  obtain ⟨c', hs, he⟩ := symbols_complete h
  refine ⟨c', ?_, he⟩
  rw [parameters_of_steps place hs (symbol_of_close hx (he ▸ hc)), if_pos hd]

/-- A parser of forms finds the form and leaves the text, or the form is too deep for it. -/
def Finds (limit : Nat) (p : Scan Form) (c : Cursor) (f : Form) (r : List Char) : Prop :=
  (limit < f.depth ∧ p c = .error .tooDeep) ∨
    (f.depth ≤ limit ∧ ∃ c', p c = .ok (.success f c') ∧ c'.text = r)

/-- As `Finds`, for forms in a row. -/
def FindsAll (limit : Nat) (c : Cursor) (fs : List Form) (r : List Char) : Prop :=
  (limit < Form.depthAll fs ∧
      ∃ vs c', Steps (form .woof limit) c vs c' ∧ form .woof limit c' = .error .tooDeep) ∨
    (Form.depthAll fs ≤ limit ∧ ∃ c', Steps (form .woof limit) c fs c' ∧ c'.text = r)

variable (opening : Token Char)

/-- A run of forms shows that the limit is not met, and ends before a closing mark. -/
theorem form_after_steps {f : Form} {fs : List Form} {x : Char}
    (hs : Steps (form .woof limit) c (f :: fs) c') (hx : x ∈ [')', '\x7d'])
    (h : Trivia c'.text (x :: r)) : form .woof limit c' = .ok .failure := by
  cases limit with
  | zero =>
    cases hs with
    | cons head _ _ => cases head
  | succ limit => exact form_of_close hx h

theorem afterParen_complete {operator : Form} {operands : List Form}
    (h : FindsAll limit c (operator :: operands) s) (hc : Trivia s (')' :: r)) :
    Finds (limit + 1) (afterParen .woof (form .woof limit) opening) c
      (.application operator operands) r := by
  rcases h with ⟨hd, vs, c', hs, hi⟩ | ⟨hd, c₂, hs, he⟩
  · refine .inl ⟨Nat.succ_lt_succ hd, ?_⟩
    cases hs with
    | nil => exact bind_of_interrupt (expecting_of_interrupt _ hi)
    | cons head _ tail =>
      rw [afterParen, bind_of_success (expecting_of_success _ head)]
      exact bind_of_interrupt (zeroOrMore_of_interrupt tail hi)
  · subst he
    have hf := form_after_steps hs (by decide) hc
    obtain ⟨t, ts, -, -, hp, hr⟩ := delimiter_complete (by decide) hc
    have hcl : closeParen .woof c₂ = .ok (.success t (c₂.seek ts)) := hp
    refine .inr ⟨Nat.succ_le_succ hd, c₂.seek ts, ?_, hr⟩
    cases hs with
    | cons head _ tail =>
      rw [afterParen, bind_of_success (expecting_of_success _ head),
        bind_of_success (zeroOrMore_of_steps tail hf),
        bind_of_success (expecting_of_success _ hcl)]
      rfl

theorem afterDefine_complete {doc : Option String} {name : String} {value : Form}
    {s₁ s₂ s₃ : List Char} (hd : Doc doc c.text s) (htn : Trivia s s₁)
    (hn : Symbol name s₁ s₂)
    (hv : ∀ c : Cursor, c.text = s₂ → Finds limit (form .woof limit) c value s₃)
    (hc : Trivia s₃ ('\x7d' :: r)) :
    Finds (limit + 1) (afterDefine .woof (form .woof limit) opening) c
      (.define doc name value) r := by
  obtain ⟨c₁, hp₁, rfl⟩ := doc_complete hd htn hn
  obtain ⟨rest, -, hp₂, hr₂⟩ := readSymbol_complete htn hn
  rcases hv _ hr₂ with ⟨hd, hi⟩ | ⟨hd, c₃, hp₃, rfl⟩
  · refine .inl ⟨Nat.succ_lt_succ hd, ?_⟩
    rw [afterDefine, bind_of_success hp₁, bind_of_success (expecting_of_success _ hp₂)]
    exact bind_of_interrupt (expecting_of_interrupt _ hi)
  · obtain ⟨t, ts, -, -, hp, hr⟩ := delimiter_complete (by decide) hc
    have hcl : closeCurly .woof c₃ = .ok (.success t (c₃.seek ts)) := hp
    refine .inr ⟨Nat.succ_le_succ hd, c₃.seek ts, ?_, hr⟩
    rw [afterDefine, bind_of_success hp₁, bind_of_success (expecting_of_success _ hp₂),
      bind_of_success (expecting_of_success _ hp₃), bind_of_success (expecting_of_success _ hcl)]
    rfl

theorem afterLambda_complete {params : List String} {first : Form} {others : List Form}
    {s₁ s₂ s₃ s₄ : List Char} (ho : Trivia c.text ('\x7b' :: s₁)) (hn : Symbols params s₁ s₂)
    (hd : params.Nodup) (hpc : Trivia s₂ ('\x7d' :: s₃))
    (hb : ∀ c : Cursor, c.text = s₃ → FindsAll limit c (first :: others) s₄)
    (hc : Trivia s₄ ('\x7d' :: r)) :
    Finds (limit + 1) (afterLambda .woof (form .woof limit) opening) c
      (.lambda params (first :: others)) r := by
  obtain ⟨t₁, ts₁, -, -, hp, hr₁⟩ := delimiter_complete (by decide) ho
  have hp₁ : openCurly .woof c = .ok (.success t₁ (c.seek ts₁)) := hp
  obtain ⟨c₂, hp₂, hr₂⟩ := parameters_complete t₁.location (hr₁ ▸ hn) hd (by decide) hpc
  obtain ⟨t₃, ts₃, -, -, hp, hr₃⟩ := delimiter_complete (by decide) (hr₂ ▸ hpc)
  have hp₃ : closeCurly .woof c₂ = .ok (.success t₃ (c₂.seek ts₃)) := hp
  have hstart (k : List String → Scan Form) :
      (expecting ⟨.lambdaMissingParameters, opening⟩ (openCurly .woof) >>= fun place =>
        parameters .woof place >>= fun ps =>
          expecting ⟨.lambdaMissingParametersClose, place⟩ (closeCurly .woof) >>= fun _ => k ps) c =
        k params (c₂.seek ts₃) := by
    rw [bind_of_success (expecting_of_success _ hp₁), bind_of_success hp₂,
      bind_of_success (expecting_of_success _ hp₃)]
  rcases hb _ hr₃ with ⟨hd, vs, c₄, hs, hi⟩ | ⟨hd, c₄, hs, rfl⟩
  · refine .inl ⟨Nat.succ_lt_succ hd, ?_⟩
    rw [afterLambda, hstart]
    exact bind_of_interrupt (expecting_of_interrupt _ (oneOrMore_of_interrupt hs hi))
  · have hf := form_after_steps hs (by decide) hc
    obtain ⟨t₅, ts₅, -, -, hp, hr₅⟩ := delimiter_complete (by decide) hc
    have hp₅ : closeCurly .woof c₄ = .ok (.success t₅ (c₄.seek ts₅)) := hp
    refine .inr ⟨Nat.succ_le_succ hd, c₄.seek ts₅, ?_, hr₅⟩
    rw [afterLambda, hstart, bind_of_success (expecting_of_success _ (oneOrMore_of_steps hs hf)),
      bind_of_success (expecting_of_success _ hp₅)]
    rfl

mutual

/-- Every form of the grammar is found, whatever trivia stands before it. -/
theorem form_complete : {f : Form} → {s r : List Char} → FormText f s r →
    ∀ (limit : Nat) (c : Cursor), Trivia c.text s → Finds limit (form .woof limit) c f r
  | f, _, _, _, 0, _, _ => .inl ⟨f.depth_pos, rfl⟩
  | .symbol name, _, _, .symbol text, limit + 1, c, ht => by
    obtain ⟨rest, -, hp, hr⟩ := readSymbol_complete ht text
    have hn : symbolForm .woof c = .ok (.success (.symbol name) (c.seek rest)) := by
      rw [symbolForm, map_apply, hp]
      rfl
    refine .inr ⟨Nat.le_add_left 1 limit, c.seek rest, ?_, hr⟩
    rw [form_succ, firstOf_cons_of_ne (by simp [hn]), hn]
  | _, _, _, .number text, limit + 1, c, ht => by
    obtain ⟨c', hp, hr⟩ := number_complete ht text
    obtain ⟨x, xs, rfl, hx⟩ := number_head text
    have ha : ahead .woof c = some x := ahead_of_trivia ht (noTrivia_digit hx)
    refine .inr ⟨Nat.le_add_left 1 limit, c', ?_, hr⟩
    rw [form_of_digit ha hx, numberForm, map_apply, hp]
    rfl
  | _, _, _, .string text, limit + 1, c, ht => by
    obtain ⟨c', hp, hr⟩ := stringLiteral_complete ht text
    have ha := ahead_of_trivia ht (formText_starts (.string text)).noTrivia
    obtain ⟨body, rfl, -⟩ := text
    refine .inr ⟨Nat.le_add_left 1 limit, c', ?_, hr⟩
    rw [form_of_quote ha, stringForm, map_apply, hp]
    rfl
  | _, _, _, .application parts close, limit + 1, c, ht => by
    obtain ⟨t, ts, hs, hx, -, hr⟩ := delimiter_complete (by decide) ht
    have hp := forms_complete parts limit (c.seek ts) hr
    have ha := afterParen_complete t hp close
    rwa [Finds, ← form_of_paren hs hx] at ha
  | _, _, _, .define beforeWord word about beforeName named beforeValue body close,
      limit + 1, c, ht => by
    obtain ⟨t, ts, rest, hs, hx, hw, hr⟩ := word_complete ht beforeWord word
    have hv (c' : Cursor) (hc : c'.text = _) :=
      form_complete body limit c' (hc ▸ beforeValue)
    have hd := afterDefine_complete t (hr ▸ about) beforeName named hv close
    have ha : ahead .woof c = some '\x7b' := hx ▸ ahead_of_skip hs
    rwa [Finds, ← special_of_define hs hx hw, ← form_of_curly ha] at hd
  | _, _, _, .lambda beforeWord word openParams names distinct closeParams body close,
      limit + 1, c, ht => by
    obtain ⟨t, ts, rest, hs, hx, hw, hr⟩ := word_complete ht beforeWord word
    have hb (c' : Cursor) (hc : c'.text = _) := forms_complete body limit c' hc
    have hl := afterLambda_complete t (hr ▸ openParams) names distinct closeParams hb close
    have ha : ahead .woof c = some '\x7b' := hx ▸ ahead_of_skip hs
    rwa [Finds, ← special_of_lambda hs hx hw, ← form_of_curly ha] at hl

theorem forms_complete : {fs : List Form} → {s r : List Char} → FormsText fs s r →
    ∀ (limit : Nat) (c : Cursor), c.text = s → FindsAll limit c fs r
  | _, _, _, .nil _, limit, c, ht => .inr ⟨Nat.zero_le _, c, .nil c, ht⟩
  | f :: fs, _, _, .cons before head tail, limit, c, ht => by
    have hm : Form.depthAll (f :: fs) = max f.depth (Form.depthAll fs) := rfl
    rcases form_complete head limit c (ht ▸ before) with ⟨hd, hi⟩ | ⟨hd, c₁, hp, hr⟩
    · exact .inl ⟨by omega, [], c, .nil c, hi⟩
    · have hl := (sound_form limit).left_lt hp
      rcases forms_complete tail limit c₁ hr with ⟨hds, vs, c', hs, hi⟩ | ⟨hds, c', hs, he⟩
      · exact .inl ⟨by omega, f :: vs, c', .cons hp hl hs, hi⟩
      · exact .inr ⟨by omega, c', .cons hp hl hs, he⟩

end

end Completeness

end Woof.Grammar

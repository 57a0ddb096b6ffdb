import Woof.Proofs.Nesting
import Woof.Proofs.Run

namespace Woof.Parser

variable {α β : Type} {p : Scan α} {k : α → Scan β} {c : Cursor} {d : Diagnostic}

theorem bind_eq_error (h : (p >>= k) c = .ok (.error d)) :
    p c = .ok (.error d) ∨ ∃ v c₁, p c = .ok (.success v c₁) ∧ k v c₁ = .ok (.error d) := by
  by_cases hp : p c = .ok (.error d)
  · exact .inl hp
  · right
    refine exists_success_of_bind h (by simp) ?_ (by simp)
    intro e he
    obtain rfl : d = e := by simpa using he
    exact hp

theorem expecting_eq_error {e : Diagnostic} (h : expecting e p c = .ok (.error d)) :
    d = e ∨ p c = .ok (.error d) := by
  by_cases hp : p c = .ok .failure
  · rw [expecting_of_failure e hp] at h
    exact .inl (Outcome.error.inj (Except.ok.inj h)).symm
  · rw [expecting_of_ne e hp] at h
    exact .inr h

theorem filter_eq_error {wanted : α → Bool} (h : filter wanted p c = .ok (.error d)) :
    p c = .ok (.error d) := by
  match hp : p c with
  | .ok (.success v c₁) =>
    cases hw : wanted v <;>
      simp [filter, hp, hw, Bind.bind, Except.bind, pure, Except.pure] at h
  | .ok .failure | .ok (.error e) | .error i =>
    rw [filter, hp] at h
    exact h

theorem optional_eq_error (h : optional p c = .ok (.error d)) : p c = .ok (.error d) := by
  match hp : p c with
  | .ok (.error e) =>
    rw [optional, hp] at h
    obtain rfl : e = d := Outcome.error.inj (Except.ok.inj h)
    rfl
  | .ok (.success v c₁) | .ok .failure | .error i =>
    rw [optional, hp] at h
    cases h

/-- The errors of the parser are its own, and those of the parser of the forms inside, which it runs
at the same place or further on. -/
def Raises (own : Diagnostic → Prop) (inner : Scan Form) (p : Scan α) : Prop :=
  ∀ ⦃c d⦄, p c = .ok (.error d) → own d ∨ ∃ c', c.Onward c' ∧ inner c' = .ok (.error d)

namespace Raises

variable {own : Diagnostic → Prop} {inner : Scan Form}

theorem of_reads {f : List (Token Char) → Reading α} (h : Reads p f) : Raises own inner p := by
  intro c d hp
  exact absurd hp h.ne_error

theorem of_pure (v : α) : Raises own inner (pure v : Scan α) := of_reads (Reads.of_pure v)

theorem of_inner : Raises own inner inner := by
  intro c d h
  exact .inr ⟨c, .refl c, h⟩

theorem reject (h : own d) : Raises own inner (Parser.reject d : Scan α) := by
  intro c e hr
  obtain rfl : d = e := Outcome.error.inj (Except.ok.inj hr)
  exact .inl h

theorem bind (h : Raises own inner p) (ha : Advances p) (hk : ∀ v, Raises own inner (k v)) :
    Raises own inner (p >>= k) := by
  intro c d hb
  rcases bind_eq_error hb with hp | ⟨v, c₁, hp, hv⟩
  · exact h hp
  · rcases hk v hv with ho | ⟨c', hc, hi⟩
    · exact .inl ho
    · exact .inr ⟨c', (ha hp).trans hc, hi⟩

theorem expecting (h : Raises own inner p) (hd : own d) :
    Raises own inner (Parser.expecting d p) := by
  intro c e he
  rcases expecting_eq_error he with rfl | hp
  · exact .inl hd
  · exact h hp

theorem optional (h : Raises own inner p) : Raises own inner (Parser.optional p) := by
  intro c d ho
  exact h (optional_eq_error ho)

theorem zeroOrMore (h : Raises own inner p) (ha : Advances p) :
    Raises own inner (Parser.zeroOrMore p) := by
  have go (values : List α) (c : Cursor) : ∀ {d}, repeatFrom p values c = .ok (.error d) →
      own d ∨ ∃ c', c.Onward c' ∧ inner c' = .ok (.error d) := by
    fun_induction repeatFrom p values c with
    | case1 values c ih =>
      intro d hr
      cases hp : p c with
      | error i =>
        rw [hp] at hr
        cases hr
      | ok o =>
        rw [hp] at hr
        cases o with
        | success v c₁ =>
          by_cases hl : c₁.left < c.left
          · simp only [Bind.bind, Except.bind, hl, if_true] at hr
            rcases ih v c₁ hl hr with ho | ⟨c', hc, hi⟩
            · exact .inl ho
            · exact .inr ⟨c', (ha hp).trans hc, hi⟩
          · simp only [Bind.bind, Except.bind, hl, if_false] at hr
            cases hr
        | failure => cases hr
        | error e =>
          obtain rfl : e = d := Outcome.error.inj (Except.ok.inj hr)
          exact h hp
  intro c d hz
  exact go [] c hz

theorem oneOrMore (h : Raises own inner p) (ha : Advances p) :
    Raises own inner (Parser.oneOrMore p) := by
  intro c d ho
  exact h.zeroOrMore ha (filter_eq_error ho)

end Raises

end Woof.Parser

namespace Woof.Grammar

open Woof.Parser Woof.Syntax

section Own

variable {a : Alphabet} {inner : Scan Form} {own : Diagnostic → Prop} {t : Token Char} {c : Cursor}
  {d : Diagnostic}

/-- One of the faults, at the place. -/
def At (faults : List Fault) (place : Location) (d : Diagnostic) : Prop :=
  d.fault ∈ faults ∧ d.location = place

theorem raises_delimiter (x : Char) : Raises own inner (delimiter a x) :=
  .of_reads (reads_delimiter a x)

theorem raises_afterParen (h : Advances inner) (t : Token Char) :
    Raises (At [.applicationMissingOperator, .applicationMissingClose] t) inner
      (afterParen a inner t) := by
  refine (Raises.of_inner.expecting (by simp [At])).bind (h.expecting _) fun _ => ?_
  refine (Raises.of_inner.zeroOrMore h).bind h.zeroOrMore fun _ => ?_
  exact ((raises_delimiter _).expecting (by simp [At])).bind ((advances_delimiter _).expecting _)
    fun _ => .of_pure _

theorem raises_afterDefine (h : Advances inner) (t : Token Char) :
    Raises (At [.defineMissingSymbol, .defineMissingForm, .defineMissingClose] t) inner
      (afterDefine a inner t) := by
  have hs := reads_stringLiteral a
  have hn := reads_symbol a
  refine (Raises.of_reads hs).optional.bind (Advances.of_reads hs).optional fun _ => ?_
  refine ((Raises.of_reads hn).expecting (by simp [At])).bind ((Advances.of_reads hn).expecting _)
    fun _ => ?_
  refine (Raises.of_inner.expecting (by simp [At])).bind (h.expecting _) fun _ => ?_
  exact ((raises_delimiter _).expecting (by simp [At])).bind ((advances_delimiter _).expecting _)
    fun _ => .of_pure _

theorem raises_parameters {place : Location} (h : own ⟨.lambdaDuplicateParameters, place⟩) :
    Raises own inner (parameters a place) := by
  have hn := reads_symbol a
  refine ((Raises.of_reads hn).zeroOrMore (.of_reads hn)).bind (Advances.of_reads hn).zeroOrMore
    fun names => ?_
  cases firstRepeated names with
  | none => exact .of_pure _
  | some name => exact .reject h

/-- The errors of a function are at its own curly or at that of its parameters. -/
theorem afterLambda_eq_error (h : Advances inner)
    (he : afterLambda a inner t c = .ok (.error d)) :
    At [.lambdaMissingParameters, .lambdaMissingBody, .lambdaMissingClose] t d ∨
    (∃ u c₁, openCurly a c = .ok (.success u c₁) ∧
      At [.lambdaDuplicateParameters, .lambdaMissingParametersClose] u d) ∨
    ∃ c', c.Onward c' ∧ inner c' = .ok (.error d) := by
  rcases bind_eq_error he with ho | ⟨u, c₁, ho, hk⟩
  · rcases expecting_eq_error ho with rfl | hp
    · exact .inl (by simp [At])
    · exact absurd hp (reads_delimiter a _).ne_error
  · have hu := expecting_eq_success ho
    have hr : Raises (fun d => At [.lambdaMissingBody, .lambdaMissingClose] t d ∨
        At [.lambdaDuplicateParameters, .lambdaMissingParametersClose] u d) inner (do
          let params ← parameters a u
          let _ ← expecting ⟨.lambdaMissingParametersClose, u⟩ (closeCurly a)
          let body ← expecting ⟨.lambdaMissingBody, t⟩ (oneOrMore inner)
          let _ ← expecting ⟨.lambdaMissingClose, t⟩ (closeCurly a)
          return Form.lambda params body) := by
      refine (raises_parameters (by simp [At])).bind (advances_parameters _) fun _ => ?_
      refine ((raises_delimiter _).expecting (by simp [At])).bind ((advances_delimiter _).expecting _)
        fun _ => ?_
      refine ((Raises.of_inner.oneOrMore h).expecting (by simp [At])).bind (h.oneOrMore.expecting _)
        fun _ => ?_
      exact ((raises_delimiter _).expecting (by simp [At])).bind ((advances_delimiter _).expecting _)
        fun _ => .of_pure _
    rcases hr hk with (hd | hd) | ⟨c', hc, hi⟩
    · exact .inl ⟨List.mem_cons_of_mem _ hd.1, hd.2⟩
    · exact .inr (.inl ⟨u, c₁, hu, hd⟩)
    · exact .inr (.inr ⟨c', ((advances_delimiter _) hu).trans hc, hi⟩)

end Own

/-- The word is the symbol that stands at the front of a text, after trivia. -/
def Leads (word : String) (s : List Char) : Prop := ∃ s₁ r, Trivia s s₁ ∧ Symbol word s₁ r

/-- What stands at the place that an error in a form gives. A form that is read from where the
construct begins ends with the same error. -/
inductive Opening (limit : Nat) (d : Diagnostic) (c : Cursor) : Prop where
  | application (kind : d.fault ∈ [.applicationMissingOperator, .applicationMissingClose])
      (opens : ∃ s, c.text = '(' :: s) (errs : form .woof limit c = .ok (.error d))
  | define (kind : d.fault ∈ [.defineMissingSymbol, .defineMissingForm, .defineMissingClose])
      (opens : ∃ s, c.text = '\x7b' :: s ∧ Leads "define" s)
      (errs : form .woof limit c = .ok (.error d))
  | lambda (kind : d.fault ∈ [.lambdaMissingParameters, .lambdaMissingBody, .lambdaMissingClose])
      (opens : ∃ s, c.text = '\x7b' :: s ∧ Leads "lambda" s)
      (errs : form .woof limit c = .ok (.error d))
  /-- The place is the curly of the parameters; the construct begins at an earlier one. -/
  | parameters (kind : d.fault ∈ [.lambdaDuplicateParameters, .lambdaMissingParametersClose])
      (o : Cursor) (tokens : o.tokens = c.tokens) (before : o.offset < c.offset)
      (opens : ∃ s s₁ s₂ r, o.text = '\x7b' :: s ∧ Trivia s s₁ ∧ Symbol "lambda" s₁ s₂ ∧
        Trivia s₂ c.text ∧ c.text = '\x7b' :: r)
      (errs : form .woof limit o = .ok (.error d))
  | special (kind : d.fault = .specialUnparseable)
      (opens : ∃ s, c.text = '\x7b' :: s ∧ ¬ Leads "define" s ∧ ¬ Leads "lambda" s)
      (errs : form .woof limit c = .ok (.error d))

/-- Some place from here on is the one that the error gives. -/
def Located (limit : Nat) (d : Diagnostic) (c : Cursor) : Prop :=
  ∃ place t, c.Onward place ∧ place.first? = some t ∧ d.location = t.location ∧
    Opening limit d place

variable {limit n m : Nat} {d : Diagnostic} {c c' : Cursor} {t : Token Char}
  {ts : List (Token Char)}

theorem form_eq_ok_of_le {o : Outcome Form} (hn : n ≤ m) (h : form .woof n c = .ok o) :
    form .woof m c = .ok o := by
  rw [form_extends .woof hn c (by simp [h]), h]

theorem Opening.mono (h : Opening n d c) (hn : n ≤ m) : Opening m d c := by
  cases h with
  | application kind opens errs => exact .application kind opens (form_eq_ok_of_le hn errs)
  | define kind opens errs => exact .define kind opens (form_eq_ok_of_le hn errs)
  | lambda kind opens errs => exact .lambda kind opens (form_eq_ok_of_le hn errs)
  | parameters kind o tokens before opens errs =>
    exact .parameters kind o tokens before opens (form_eq_ok_of_le hn errs)
  | special kind opens errs => exact .special kind opens (form_eq_ok_of_le hn errs)

/-- Two faults are found at the top level only. -/
theorem Opening.fault_ne (h : Opening n d c) :
    d.fault ≠ .unparsedInput ∧ d.fault ≠ .nestingTooDeep := by
  cases h <;> grind

theorem Located.mono (h : Located n d c') (hn : n ≤ m) (hc : c.Onward c') : Located m d c := by
  obtain ⟨place, t, ho, hf, hl, hm⟩ := h
  exact ⟨place, t, hc.trans ho, hf, hl, hm.mono hn⟩

/-- The place of the token after trivia. -/
structure Opens (c : Cursor) (t : Token Char) (ts : List (Token Char)) (place : Cursor) :
    Prop where
  onward : c.Onward place
  first : place.first? = some t
  text : place.text = t.symbol :: symbols ts
  form_eq : ∀ limit, form .woof limit place = form .woof limit c

theorem opens_of_skip (h : skip .woof c.remaining = t :: ts) : Opens c t ts (c.seek (t :: ts)) := by
  have hs : t :: ts <:+ c.remaining := h ▸ skip_suffix .woof _
  have hr := Cursor.remaining_seek hs
  refine ⟨.of_seek hs, ?_, ?_, ?_⟩
  · rw [Cursor.first?_eq_head?, hr]
    rfl
  · rw [Cursor.text_seek hs]
    rfl
  · intro limit
    have hi := ignoresTrivia_form .woof limit c
    rwa [h] at hi

theorem leads_of_readSymbol {word : String} {rest : List (Token Char)}
    (h : readSymbol .woof (skip .woof ts) = some (word, rest)) : Leads word (symbols ts) :=
  ⟨_, _, trivia_skip ts, symbol_of_readSymbol h⟩

theorem exists_readSymbol_of_leads {word : String} (h : Leads word (symbols ts)) :
    ∃ rest, readSymbol .woof (skip .woof ts) = some (word, rest) := by
  obtain ⟨s, r, ht, hw⟩ := h
  have hs := skip_of_trivia ht (symbol_starts hw).noTrivia
  obtain ⟨rest, hr, -⟩ := readSymbol_of_symbol (hs.symm ▸ hw)
  exact ⟨rest, hr⟩

/-- An error in what is read of an application, once it is open. -/
theorem located_of_afterParen (hs : skip .woof c.remaining = t :: ts) (ht : t.symbol = '(')
    (hi : ∀ c', form .woof limit c' = .ok (.error d) → Located limit d c')
    (h : form .woof (limit + 1) c = .ok (.error d)) : Located (limit + 1) d c := by
  have ho := opens_of_skip hs
  have hts : ts <:+ c.remaining := (List.suffix_cons t ts).trans (hs ▸ skip_suffix .woof _)
  have ha := h
  rw [form_of_paren hs ht] at ha
  rcases raises_afterParen (advances_form .woof limit) t ha with hd | ⟨c', hc, he⟩
  · refine ⟨_, t, ho.onward, ho.first, hd.2, .application hd.1 ⟨symbols ts, ?_⟩ ?_⟩
    · rw [ho.text, ht]
    · rw [ho.form_eq, h]
  · exact (hi c' he).mono (Nat.le_succ limit) ((Cursor.Onward.of_seek hts).trans hc)

theorem located_of_afterDefine {rest : List (Token Char)} (hs : skip .woof c.remaining = t :: ts)
    (ht : t.symbol = '\x7b') (hw : readSymbol .woof (skip .woof ts) = some ("define", rest))
    (hi : ∀ c', form .woof limit c' = .ok (.error d) → Located limit d c')
    (h : form .woof (limit + 1) c = .ok (.error d)) : Located (limit + 1) d c := by
  have ho := opens_of_skip hs
  have hts : ts <:+ c.remaining := (List.suffix_cons t ts).trans (hs ▸ skip_suffix .woof _)
  have hrest : rest <:+ c.remaining := ((reads_symbol .woof).suffix hw).trans hts
  have ha := h
  rw [form_of_curly (ht ▸ ahead_of_skip hs), special_of_define hs ht hw] at ha
  rcases raises_afterDefine (advances_form .woof limit) t ha with hd | ⟨c', hc, he⟩
  · refine ⟨_, t, ho.onward, ho.first, hd.2, .define hd.1 ⟨symbols ts, ?_, ?_⟩ ?_⟩
    · rw [ho.text, ht]
    · exact leads_of_readSymbol hw
    · rw [ho.form_eq, h]
  · exact (hi c' he).mono (Nat.le_succ limit) ((Cursor.Onward.of_seek hrest).trans hc)

theorem located_of_afterLambda {rest : List (Token Char)} (hs : skip .woof c.remaining = t :: ts)
    (ht : t.symbol = '\x7b') (hw : readSymbol .woof (skip .woof ts) = some ("lambda", rest))
    (hi : ∀ c', form .woof limit c' = .ok (.error d) → Located limit d c')
    (h : form .woof (limit + 1) c = .ok (.error d)) : Located (limit + 1) d c := by
  have ho := opens_of_skip hs
  have hts : ts <:+ c.remaining := (List.suffix_cons t ts).trans (hs ▸ skip_suffix .woof _)
  have hrt : rest <:+ ts := (reads_symbol .woof).suffix hw
  have hrest : rest <:+ c.remaining := hrt.trans hts
  have ha := h
  rw [form_of_curly (ht ▸ ahead_of_skip hs), special_of_lambda hs ht hw] at ha
  rcases afterLambda_eq_error (advances_form .woof limit) ha with
    hd | ⟨u, c₁, hu, hd⟩ | ⟨c', hc, he⟩
  · refine ⟨_, t, ho.onward, ho.first, hd.2, .lambda hd.1 ⟨symbols ts, ?_, ?_⟩ ?_⟩
    · rw [ho.text, ht]
    · exact leads_of_readSymbol hw
    · rw [ho.form_eq, h]
  · -- the place is the curly of the parameters, but the form begins at the curly before the word
    obtain ⟨hr, -, -⟩ := (reads_delimiter .woof _).of_success hu
    obtain ⟨hsu, hxu⟩ := headIf_eq_some_iff.mp hr
    have hou := opens_of_skip hsu
    rw [Cursor.remaining_seek hrest] at hsu
    have hlt : (c.seek (t :: ts)).offset < (c.seek (u :: c₁.remaining)).offset := by
      have hl : (u :: c₁.remaining).length ≤ rest.length := hsu ▸ (skip_suffix .woof rest).length_le
      have hr := hrt.length_le
      apply Cursor.offset_seek_lt (hs ▸ skip_suffix .woof _)
      exact Nat.lt_succ_of_le (Nat.le_trans hl hr)
    refine ⟨_, u, (Cursor.Onward.of_seek hrest).trans hou.onward, hou.first, hd.2,
      .parameters hd.1 (c.seek (t :: ts)) rfl hlt
        ⟨symbols ts, _, symbols rest, symbols c₁.remaining, ?_, trivia_skip ts,
          symbol_of_readSymbol hw, ?_, ?_⟩ ?_⟩
    · rw [ho.text, ht]
    · have htr := trivia_skip rest
      rw [hsu] at htr
      rw [hou.text]
      exact htr
    · rw [hou.text, beq_iff_eq.mp hxu]
    · rw [ho.form_eq, h]
  · exact (hi c' he).mono (Nat.le_succ limit) ((Cursor.Onward.of_seek hrest).trans hc)

theorem located_of_other (hs : skip .woof c.remaining = t :: ts) (ht : t.symbol = '\x7b')
    (hd : ∀ rest, readSymbol .woof (skip .woof ts) ≠ some ("define", rest))
    (hl : ∀ rest, readSymbol .woof (skip .woof ts) ≠ some ("lambda", rest))
    (h : form .woof (limit + 1) c = .ok (.error d)) : Located (limit + 1) d c := by
  have ho := opens_of_skip hs
  have ha := h
  rw [form_of_curly (ht ▸ ahead_of_skip hs), special_of_other hs ht hd hl] at ha
  obtain rfl := Outcome.error.inj (Except.ok.inj ha)
  refine ⟨_, t, ho.onward, ho.first, rfl, .special rfl ⟨symbols ts, ?_, ?_, ?_⟩ ?_⟩
  · rw [ho.text, ht]
  · intro hn
    obtain ⟨rest, hr⟩ := exists_readSymbol_of_leads hn
    exact hd rest hr
  · intro hn
    obtain ⟨rest, hr⟩ := exists_readSymbol_of_leads hn
    exact hl rest hr
  · rw [ho.form_eq, h]

/-- An error says that the next token opens a construct. -/
theorem opening_of_form_error (h : form .woof (limit + 1) c = .ok (.error d)) :
    ∃ t ts, skip .woof c.remaining = t :: ts ∧ (t.symbol = '(' ∨ t.symbol = '\x7b') := by
  have hne : form .woof (limit + 1) c ≠ .ok .failure := by simp [h]
  obtain ⟨p, hm, he⟩ := exists_mem_of_firstOf hne
  have hp : p c = .ok (.error d) := he.trans h
  have hopen {x : Char} (ha : ahead .woof c = some x) :
      ∃ t ts, skip .woof c.remaining = t :: ts ∧ t.symbol = x := by
    cases hs : skip .woof c.remaining with
    | nil => simp [ahead, hs] at ha
    | cons t ts => exact ⟨t, ts, rfl, by simpa [ahead, hs] using ha⟩
  simp only [alternatives, List.mem_cons, List.not_mem_nil, or_false] at hm
  rcases hm with rfl | rfl | rfl | rfl | rfl
  · exact absurd hp ((reads_symbol .woof).map _ fun _ => rfl).ne_error
  · exact absurd hp (reads_number.map _ fun _ => rfl).ne_error
  · exact absurd hp ((reads_stringLiteral .woof).map _ fun _ => rfl).ne_error
  · by_cases ha : ahead .woof c = some '('
    · obtain ⟨t, ts, hs, ht⟩ := hopen ha
      exact ⟨t, ts, hs, .inl ht⟩
    · rw [application_of_ahead ha] at hp
      cases hp
  · by_cases ha : ahead .woof c = some '\x7b'
    · obtain ⟨t, ts, hs, ht⟩ := hopen ha
      exact ⟨t, ts, hs, .inr ht⟩
    · rw [special_of_ahead ha] at hp
      cases hp

/-- An error in a form, at whatever depth, is located where its construct begins. -/
theorem located_of_form_error (limit : Nat) :
    ∀ c, form .woof limit c = .ok (.error d) → Located limit d c := by
  induction limit with
  | zero =>
    intro c h
    cases h
  | succ limit ih =>
    intro c h
    obtain ⟨t, ts, hs, ht | ht⟩ := opening_of_form_error h
    · exact located_of_afterParen hs ht ih h
    · by_cases hd : ∃ rest, readSymbol .woof (skip .woof ts) = some ("define", rest)
      · obtain ⟨rest, hw⟩ := hd
        exact located_of_afterDefine hs ht hw ih h
      · by_cases hl : ∃ rest, readSymbol .woof (skip .woof ts) = some ("lambda", rest)
        · obtain ⟨rest, hw⟩ := hl
          exact located_of_afterLambda hs ht hw ih h
        · exact located_of_other hs ht (not_exists.mp hd) (not_exists.mp hl) h

/-- What stands at the place that a diagnostic gives: where a construct begins, where what is left
unread begins, or where the text begins. -/
inductive Marks (limit : Nat) (d : Diagnostic) (c : Cursor) : Prop where
  | construct (opening : Opening limit d c)
  | unparsed (kind : d.fault = .unparsedInput)
      (next : ∃ x s, c.text = x :: s ∧ x ∉ Alphabet.woof.whitespace ∧ x ≠ ';')
      (fails : form .woof limit c = .ok .failure)
  | tooDeep (kind : d.fault = .nestingTooDeep) (first : c.offset = 0)

theorem marks_of_unparsed (hf : form .woof limit c = .ok .failure)
    (hs : skip .woof c.remaining = t :: ts) :
    Marks limit ⟨.unparsedInput, t⟩ (c.seek (t :: ts)) := by
  have ho := opens_of_skip hs
  obtain ⟨hw, hc⟩ := skip_eq_cons hs
  refine .unparsed rfl ⟨_, _, ho.text, ?_, hc⟩ ?_
  · simpa [among] using hw
  · rw [ho.form_eq, hf]

end Woof.Grammar

namespace Woof

open Woof.Grammar Woof.Syntax

theorem exists_first_of_ne_nil {text : String} (h : text.toList ≠ []) :
    ∃ t, (Cursor.ofText text).first? = some t := by
  rw [Cursor.first?_eq_head?, Cursor.remaining_ofText]
  cases ht : text.toList with
  | nil => exact absurd ht h
  | cons x xs => exact ⟨_, rfl⟩

/-- A text with nothing in it is read, so that forms nested too deep have a first token. -/
theorem exists_first_of_tooDeep {limit : Nat} (hl : 0 < limit) {text : String}
    (h : (parseWithin limit Receiver.ignore () text).1 = .error (.tooDeep text)) :
    ∃ t, (Cursor.ofText text).first? = some t := by
  apply exists_first_of_ne_nil
  intro ht
  have hp : ProgramText [] text.toList := ⟨_, .nil _, ht ▸ .done []⟩
  have hd : Form.depthAll [] ≤ limit := Nat.zero_le limit
  rw [parseWithin_complete hp, if_pos ⟨hl, hd⟩] at h
  cases h

/-- So has a text with a form that a receiver can object to. -/
theorem exists_first_of_objection {limit : Nat} {text : String} {fs : List Form} {c : Cursor}
    (hs : Parser.Steps (form .woof limit) (.ofText text) fs c) {σ : Type} {receive : Receiver σ}
    {record : σ} {stop : Objection × σ} (h : receive.feed fs record = .error stop) :
    ∃ t, (Cursor.ofText text).first? = some t := by
  apply exists_first_of_ne_nil
  intro ht
  have hx : (Cursor.ofText text).left = 0 := by
    rw [← Cursor.length_text, Cursor.text_ofText, ht]
    rfl
  cases hs with
  | nil => cases h
  | cons head less tail => omega

theorem exists_place_of_tooDeep {text : String} {t : Token Char} {d : Diagnostic}
    (ht : (Cursor.ofText text).first? = some t) (h : ParseError.tooDeep text = .malformed d)
    (limit : Nat) :
    ∃ place t, place.tokens = (Cursor.ofText text).tokens ∧ place.first? = some t ∧
      d.location = t.location ∧ Marks limit d place := by
  obtain rfl := ParseError.malformed.inj h
  refine ⟨.ofText text, t, rfl, ht, ?_, .tooDeep rfl rfl⟩
  rw [ht]
  rfl

/-- The place of every diagnostic is that of a token of the text, and there stands what the fault is
about: the delimiter that opens the construct, the first character that was left unread, or, where
forms are nested too deep, the first character of all. -/
theorem exists_place_of_malformed {limit : Nat} (hl : 0 < limit) {σ : Type} (receive : Receiver σ)
    (record : σ) {text : String} {d : Diagnostic}
    (h : (parseWithin limit receive record text).1 = .error (.malformed d)) :
    ∃ place t, place.tokens = (Cursor.ofText text).tokens ∧ place.first? = some t ∧
      d.location = t.location ∧ Marks limit d place := by
  obtain ⟨fs, c, hs, hstop, hr⟩ := exists_run limit text
  rw [hr receive record, Receiver.delivering] at h
  cases hf : receive.feed fs record with
  | error stop =>
    obtain ⟨e, r⟩ := stop
    rw [hf] at h
    cases e with
    | tooDeep =>
      obtain ⟨t, ht⟩ := exists_first_of_objection hs hf
      exact exists_place_of_tooDeep ht (Except.error.inj h) limit
    | other kind message => cases h
  | ok r =>
    rw [hf] at h
    have hi : (parseWithin limit Receiver.ignore () text).1 = .error (.malformed d) := h
    have hc := hs.onward (advances_form .woof limit)
    have hu := hi
    rw [parseWithin_ignore] at hu
    generalize unwatched .woof limit (.ofText text) = run at hstop hu
    cases hstop with
    | done => cases hu
    | unparsed noForm next =>
      obtain rfl := ParseError.malformed.inj (Except.error.inj hu)
      have ho := opens_of_skip next
      exact ⟨_, _, (hc.trans ho.onward).tokens, ho.first, rfl, marks_of_unparsed noForm next⟩
    | faulty errs =>
      obtain rfl := ParseError.malformed.inj (Except.error.inj hu)
      obtain ⟨place, t, ho, hf, hlt, hm⟩ := located_of_form_error limit c errs
      exact ⟨place, t, (hc.trans ho).tokens, hf, hlt, .construct hm⟩
    | tooDeep =>
      have hd : ParseError.tooDeep text = .malformed d := Except.error.inj hu
      obtain ⟨t, ht⟩ := exists_first_of_tooDeep hl (hi.trans (congrArg Except.error hd.symm))
      exact exists_place_of_tooDeep ht hd limit

theorem exists_place_of_malformed_parameters :
    (parseWithin 2 Receiver.ignore () "f\n(\x7blambda \x7bx x").1 =
      .error (.malformed ⟨.lambdaDuplicateParameters, ⟨"\x7b", 2, 10⟩⟩) ∧
    ∃ place t, place.tokens = (Cursor.ofText "f\n(\x7blambda \x7bx x").tokens ∧
      place.first? = some t ∧ (⟨"\x7b", 2, 10⟩ : Location) = t.location ∧
      Marks 2 ⟨.lambdaDuplicateParameters, ⟨"\x7b", 2, 10⟩⟩ place := by
  have h : (parseWithin 2 Receiver.ignore () "f\n(\x7blambda \x7bx x").1 =
      .error (.malformed ⟨.lambdaDuplicateParameters, ⟨"\x7b", 2, 10⟩⟩) := by
    rw [parseWithin_ignore]
    cbv
  exact ⟨h, exists_place_of_malformed (by decide) Receiver.ignore () h⟩

end Woof

import Woof.Proofs.Predictive

namespace Woof.Predictive

open Woof.Lexer

section Agreement

open Woof.Parser Woof.Grammar

variable {α β : Type} {deep deep' : Prop} {P Q : List Lexeme → Prop} {c : Cursor}
  {ls : List Lexeme}

/-- A run over characters ends as the run over lexemes does, with the same lexemes left, or it
meets the limit on nesting, which then is as low as said. -/
inductive Agrees (deep : Prop) :
    Except Interrupt (Outcome α) → Except Diagnostic (Option (α × Subtype P)) → Prop where
  | tooDeep (isDeep : deep) (r : Except Diagnostic (Option (α × Subtype P))) :
      Agrees deep (.error .tooDeep) r
  | success (v : α) {c : Cursor} {rest : List Lexeme} (left : P rest)
      (same : lexemes c.remaining = rest) :
      Agrees deep (.ok (.success v c)) (.ok (some (v, ⟨rest, left⟩)))
  | failure : Agrees deep (.ok .failure) (.ok none)
  | error (d : Diagnostic) : Agrees deep (.ok (.error d)) (.error d)

/-- As `Agrees`, where there is no failure. -/
inductive Commits (deep : Prop) :
    Except Interrupt (Outcome α) → Except Diagnostic (α × Subtype P) → Prop where
  | tooDeep (isDeep : deep) (r : Except Diagnostic (α × Subtype P)) :
      Commits deep (.error .tooDeep) r
  | success (v : α) {c : Cursor} {rest : List Lexeme} (left : P rest)
      (same : lexemes c.remaining = rest) :
      Commits deep (.ok (.success v c)) (.ok (v, ⟨rest, left⟩))
  | error (d : Diagnostic) : Commits deep (.ok (.error d)) (.error d)

theorem Agrees.mono {o : Except Interrupt (Outcome α)}
    {r : Except Diagnostic (Option (α × Subtype P))} (h : Agrees deep o r) (hd : deep → deep') :
    Agrees deep' o r := by
  cases h with
  | tooDeep isDeep => exact .tooDeep (hd isDeep) _
  | success v left same => exact .success v left same
  | failure => exact .failure
  | error d => exact .error d

theorem Commits.mono {o : Except Interrupt (Outcome α)} {r : Except Diagnostic (α × Subtype P)}
    (h : Commits deep o r) (hd : deep → deep') : Commits deep' o r := by
  cases h with
  | tooDeep isDeep => exact .tooDeep (hd isDeep) _
  | success v left same => exact .success v left same
  | error d => exact .error d

/-- A result without the proof that lexemes were taken. -/
def bare (r : Except Diagnostic (α × Subtype P)) : Except Diagnostic (α × List Lexeme) :=
  r.map fun x => (x.1, x.2.1)

theorem Commits.transfer {o : Except Interrupt (Outcome α)}
    {r : Except Diagnostic (α × Subtype P)} {r' : Except Diagnostic (α × Subtype Q)}
    (h : Commits deep o r) (he : bare r = bare r') : Commits deep o r' := by
  cases h with
  | tooDeep isDeep => exact .tooDeep isDeep r'
  | success v left same =>
    match r', he with
    | .ok (w, ⟨rest', left'⟩), he =>
      obtain ⟨rfl, rfl⟩ := Prod.mk.inj (Except.ok.inj he)
      exact .success v left' same
  | error d =>
    match r', he with
    | .error e, he =>
      obtain rfl := Except.error.inj he
      exact .error d

theorem Agrees.expecting {p : Scan α} {r : Except Diagnostic (Option (α × Subtype P))}
    (h : Agrees deep (p c) r) (d : Diagnostic) :
    Commits deep (Parser.expecting d p c) (required d r) := by
  generalize ho : p c = o at h
  cases h with
  | tooDeep isDeep =>
    rw [expecting_of_interrupt d ho]
    exact .tooDeep isDeep _
  | success v left same =>
    rw [expecting_of_success d ho]
    exact .success v left same
  | failure =>
    rw [expecting_of_failure d ho]
    exact .error d
  | error e =>
    rw [expecting_of_error d ho]
    exact .error e

/-- One run after another. -/
theorem Commits.bind {p : Scan α} {k : α → Scan β} {r : Except Diagnostic (α × Subtype P)}
    {g : α × Subtype P → Except Diagnostic (β × Subtype Q)} (h : Commits deep (p c) r)
    (hk : ∀ v c' rest (left : P rest), lexemes c'.remaining = rest →
      Commits deep (k v c') (g (v, ⟨rest, left⟩))) :
    Commits deep ((p >>= k) c) (r >>= g) := by
  generalize ho : p c = o at h
  cases h with
  | tooDeep isDeep =>
    rw [bind_of_interrupt ho]
    exact .tooDeep isDeep _
  | success v left same =>
    rw [bind_of_success ho]
    exact hk v _ _ left same
  | error d =>
    rw [bind_of_error ho]
    exact .error d

theorem agrees_token {x : Char} {kind : Kind} (hx : delimiter? x = some kind)
    (h : lexemes c.remaining = ls) :
    Agrees deep (delimiter .woof x c) (pure (token? kind ls)) := by
  cases ls with
  | nil =>
    rw [delimiter_of_other h hx (by simp)]
    exact .failure
  | cons l ls =>
    rw [token?]
    split
    · rename_i hk
      obtain ⟨c', hp, hl⟩ := delimiter_of_lexeme h (hk ▸ hx)
      rw [hp]
      exact .success _ _ hl
    · rename_i hk
      rw [delimiter_of_other h hx (by simpa using hk)]
      exact .failure

theorem agrees_symbol (h : lexemes c.remaining = ls) :
    Agrees deep (symbol .woof c) (pure (symbol? ls)) := by
  rw [symbol?.eq_def]
  split
  · obtain ⟨c', hp, hl⟩ := symbol_of_lexeme h rfl
    rw [hp]
    exact .success _ _ hl
  · rename_i hn
    rw [symbol_of_other h hn]
    exact .failure

theorem doc_success (h : lexemes c.remaining = ls) :
    ∃ c', optional (stringLiteral .woof) c = .ok (.success (doc ls).1 c') ∧
      lexemes c'.remaining = (doc ls).2.1 := by
  rw [doc.eq_def]
  split
  · obtain ⟨c', hp, hl⟩ := string_of_lexeme h rfl
    exact ⟨c', optional_of_success hp, hl⟩
  · rename_i hn
    exact ⟨c, optional_of_failure (string_of_other h hn), h⟩

theorem names_steps (h : lexemes c.remaining = ls) :
    ∃ c', Steps (symbol .woof) c (names ls).1 c' ∧ lexemes c'.remaining = (names ls).2.1 ∧
      symbol .woof c' = .ok .failure := by
  fun_induction names ls generalizing c with
  | case1 name start ls others rest hr he ih =>
    obtain ⟨c₁, hp, hl⟩ := symbol_of_lexeme h rfl
    obtain ⟨c', hs, hl', hf⟩ := ih hl
    rw [he] at hs hl'
    exact ⟨c', .cons hp (symbol_left_lt hp) hs, hl', hf⟩
  | case2 ls hn =>
    exact ⟨c, .nil c, h, symbol_of_other h hn⟩

theorem commits_parameters (place : Token Char) (h : lexemes c.remaining = ls) :
    Commits deep (parameters .woof place c)
      (distinct ⟨.lambdaDuplicateParameters, place⟩ (names ls)) := by
  obtain ⟨c', hs, hl, hf⟩ := names_steps h
  rw [parameters_of_steps place hs hf, distinct]
  by_cases hd : (names ls).1.Nodup
  · rw [if_pos hd, if_pos hd]
    exact .success _ _ hl
  · rw [if_neg hd, if_neg hd]
    exact .error _

/-- Forms of less than the given depth are read off characters as they are read off lexemes. -/
def FormAgrees (limit : Nat) : Prop :=
  ∀ ⦃c : Cursor⦄ ⦃ls : List Lexeme⦄, lexemes c.remaining = ls →
    Agrees (limit ≤ ls.length) (Grammar.form .woof limit c) (form ls)

variable {limit : Nat}

theorem forms_of_none (h : form ls = .ok none) :
    forms ls = .ok ([], ⟨ls, Nat.le_refl _⟩) := by
  rw [forms, h]
  rfl

theorem forms_of_error {d : Diagnostic} (h : form ls = .error d) : forms ls = .error d := by
  rw [forms, h]
  rfl

theorem bare_forms_of_some {f : Form} {rest : Rest ls} (h : form ls = .ok (some (f, rest))) :
    bare (forms ls) = (bare (forms rest.1)).map fun x => (f :: x.1, x.2) := by
  rw [forms, h]
  show bare (forms rest.1 >>= _) = _
  cases forms rest.1 with
  | error d => rfl
  | ok x => rfl

theorem bare_map (g : α → β) (r : Except Diagnostic (α × Subtype P)) :
    bare (r.map fun x => (g x.1, x.2)) = (bare r).map fun x => (g x.1, x.2) := by
  cases r with
  | error d => rfl
  | ok x => rfl

theorem FormAgrees.repeatFrom (hf : FormAgrees limit) (values : List Form) {c : Cursor}
    {ls : List Lexeme} (h : lexemes c.remaining = ls) :
    Commits (limit ≤ ls.length) (Parser.repeatFrom (Grammar.form .woof limit) values c)
      ((forms ls).map fun r => (values.reverse ++ r.1, r.2)) := by
  have ha := hf h
  generalize ho : Grammar.form .woof limit c = o at ha
  generalize hr : form ls = r at ha
  cases ha with
  | tooDeep isDeep =>
    rw [repeatFrom_of_interrupt values ho]
    exact .tooDeep isDeep _
  | failure =>
    rw [repeatFrom_of_failure values ho, forms_of_none hr]
    simp only [Except.map, List.append_nil]
    exact .success _ _ h
  | error d =>
    rw [repeatFrom_of_error values ho, forms_of_error hr]
    exact .error d
  | success f left same =>
    rw [repeatFrom_of_success values ho ((sound_form limit).left_lt ho)]
    have hi := (FormAgrees.repeatFrom hf (f :: values) same).mono
      fun hd => Nat.le_trans hd (Nat.le_of_lt left)
    refine hi.transfer ?_
    rw [bare_map, bare_map, bare_forms_of_some hr]
    cases bare (forms _) with
    | error d => rfl
    | ok x => simp [Except.map]
termination_by ls.length

theorem FormAgrees.zeroOrMore (hf : FormAgrees limit) (h : lexemes c.remaining = ls) :
    Commits (limit ≤ ls.length) (Parser.zeroOrMore (Grammar.form .woof limit) c) (forms ls) := by
  refine (hf.repeatFrom [] h).transfer ?_
  cases forms ls with
  | error d => rfl
  | ok x => rfl

theorem FormAgrees.oneOrMore (hf : FormAgrees limit) (d : Diagnostic)
    (h : lexemes c.remaining = ls) :
    Commits (limit ≤ ls.length)
      (Parser.expecting d (Parser.oneOrMore (Grammar.form .woof limit)) c)
      (nonempty d (forms ls)) := by
  have hc := hf.zeroOrMore h
  generalize ho : Parser.zeroOrMore (Grammar.form .woof limit) c = o at hc
  generalize forms ls = r at hc
  rw [Parser.expecting, Parser.oneOrMore, Parser.filter, ho]
  cases hc with
  | tooDeep isDeep => exact .tooDeep isDeep _
  | error e => exact .error e
  | success fs left same =>
    cases fs with
    | nil => exact .error d
    | cons f fs => exact .success _ left same

theorem FormAgrees.afterParen (hf : FormAgrees limit) (t : Token Char)
    (h : lexemes c.remaining = ls) :
    Commits (limit ≤ ls.length) (Grammar.afterParen .woof (Grammar.form .woof limit) t c)
      (application t ls) := by
  rw [application]
  refine Commits.bind ((hf h).expecting _) fun operator c₁ ls₁ h₁ hl₁ => ?_
  have hz := (hf.zeroOrMore hl₁).mono fun hd => Nat.le_trans hd (Nat.le_of_lt h₁)
  refine Commits.bind hz fun operands c₂ ls₂ h₂ hl₂ => ?_
  have hc : Agrees (limit ≤ ls.length) (closeParen .woof c₂) (pure (token? .closeParen ls₂)) :=
    agrees_token rfl hl₂
  refine Commits.bind (hc.expecting _) fun _ c₃ ls₃ h₃ hl₃ => ?_
  exact .success _ _ hl₃

theorem FormAgrees.afterDefine (hf : FormAgrees limit) (t : Token Char)
    (h : lexemes c.remaining = ls) :
    Commits (limit ≤ ls.length) (Grammar.afterDefine .woof (Grammar.form .woof limit) t c)
      (define t ls) := by
  rw [define]
  obtain ⟨c₁, hp, hl₁⟩ := doc_success h
  generalize doc ls = d at hp hl₁
  obtain ⟨about, ls₁, h₁⟩ := d
  rw [Grammar.afterDefine, bind_of_success hp]
  have hn : Agrees (limit ≤ ls.length) (symbol .woof c₁) (pure (symbol? ls₁)) := agrees_symbol hl₁
  refine Commits.bind (hn.expecting _) fun name c₂ ls₂ h₂ hl₂ => ?_
  have hv := (hf hl₂).mono fun hd => Nat.le_trans hd (Nat.le_of_lt (Nat.lt_of_lt_of_le h₂ h₁))
  refine Commits.bind (hv.expecting _) fun value c₃ ls₃ h₃ hl₃ => ?_
  have hc : Agrees (limit ≤ ls.length) (closeCurly .woof c₃) (pure (token? .closeCurly ls₃)) :=
    agrees_token rfl hl₃
  refine Commits.bind (hc.expecting _) fun _ c₄ ls₄ h₄ hl₄ => ?_
  exact .success _ _ hl₄

theorem FormAgrees.afterLambda (hf : FormAgrees limit) (t : Token Char)
    (h : lexemes c.remaining = ls) :
    Commits (limit ≤ ls.length) (Grammar.afterLambda .woof (Grammar.form .woof limit) t c)
      (lambda t ls) := by
  rw [lambda]
  have ho : Agrees (limit ≤ ls.length) (openCurly .woof c) (pure (token? .openCurly ls)) :=
    agrees_token rfl h
  refine Commits.bind (ho.expecting _) fun place c₁ ls₁ h₁ hl₁ => ?_
  refine Commits.bind (commits_parameters place hl₁) fun params c₂ ls₂ h₂ hl₂ => ?_
  have hp : Agrees (limit ≤ ls.length) (closeCurly .woof c₂) (pure (token? .closeCurly ls₂)) :=
    agrees_token rfl hl₂
  refine Commits.bind (hp.expecting _) fun _ c₃ ls₃ h₃ hl₃ => ?_
  have hle : ls₃.length ≤ ls.length := by omega
  have hb := (hf.oneOrMore ⟨.lambdaMissingBody, t⟩ hl₃).mono fun hd => Nat.le_trans hd hle
  refine Commits.bind hb fun body c₄ ls₄ h₄ hl₄ => ?_
  have hc : Agrees (limit ≤ ls.length) (closeCurly .woof c₄) (pure (token? .closeCurly ls₄)) :=
    agrees_token rfl hl₄
  refine Commits.bind (hc.expecting _) fun _ c₅ ls₅ h₅ hl₅ => ?_
  exact .success _ _ hl₅

theorem symbol?_eq_some {word : String} {rest : Rest ls} (h : symbol? ls = some (word, rest)) :
    ∃ start, ls = ⟨.symbol word, start⟩ :: rest.1 := by
  rw [symbol?.eq_def] at h
  split at h
  · rename_i name start us
    obtain ⟨rfl, rfl⟩ := Prod.mk.inj (Option.some.inj h)
    exact ⟨start, rfl⟩
  · cases h

/-- What is left of fewer lexemes. -/
theorem bare_bind {P Q : List Lexeme → Prop} (r : Except Diagnostic (α × Subtype P))
    (hw : ∀ rest, P rest → Q rest) :
    bare (do
      let (v, ⟨rest, left⟩) ← r
      return (v, (⟨rest, hw rest left⟩ : Subtype Q))) = bare r := by
  cases r with
  | error d => rfl
  | ok x => rfl

theorem FormAgrees.special (hf : FormAgrees limit) {t : Token Char} {us : List (Token Char)}
    (hs : skip .woof c.remaining = t :: us) (ht : t.symbol = '\x7b') (h : lexemes us = ls) :
    Commits (limit ≤ ls.length) (Grammar.special .woof (Grammar.form .woof limit) c)
      (Predictive.special t ls) := by
  have hus : us <:+ c.remaining := (List.suffix_cons t us).trans (hs ▸ skip_suffix .woof _)
  rw [Predictive.special]
  cases hw : symbol? ls with
  | none =>
    have hr : readSymbol .woof (skip .woof us) = none := by
      apply readSymbol_of_other h
      intro name start vs he
      rw [he, symbol?] at hw
      cases hw
    rw [special_of_other hs ht (by simp [hr]) (by simp [hr])]
    exact .error _
  | some x =>
    obtain ⟨word, ls₁, h₁⟩ := x
    obtain ⟨start, he⟩ := symbol?_eq_some hw
    obtain ⟨rest, hr, hl⟩ := readSymbol_of_lexeme (h.trans he) rfl
    have hrest : rest <:+ c.remaining := ((reads_symbol .woof).suffix hr).trans hus
    rw [← Cursor.remaining_seek hrest] at hl
    have hle (hd : limit ≤ ls₁.length) : limit ≤ ls.length :=
      Nat.le_trans hd (Nat.le_of_lt h₁)
    by_cases hd : word = "define"
    · subst hd
      rw [special_of_define hs ht hr]
      exact ((hf.afterDefine t hl).mono hle).transfer (bare_bind _ _).symm
    · simp only [hd, if_false]
      by_cases hm : word = "lambda"
      · subst hm
        rw [special_of_lambda hs ht hr]
        exact ((hf.afterLambda t hl).mono hle).transfer (bare_bind _ _).symm
      · rw [special_of_other hs ht (by simpa [hr] using hd) (by simpa [hr] using hm)]
        simp only [hm, if_false]
        exact .error _

theorem Commits.agrees {o : Except Interrupt (Outcome α)} {r : Except Diagnostic (α × Subtype P)}
    (h : Commits deep o r) (hw : ∀ rest, P rest → Q rest) :
    Agrees deep o (do
      let (v, ⟨rest, left⟩) ← r
      return some (v, (⟨rest, hw rest left⟩ : Subtype Q))) := by
  cases h with
  | tooDeep isDeep => exact .tooDeep isDeep _
  | success v left same => exact .success v _ same
  | error d => exact .error d

/-- Behind a delimiter, a form is opened or there is none. -/
theorem FormAgrees.delimiter (hf : FormAgrees limit) {t : Token Char} {us : List (Token Char)}
    {kind : Kind} (hs : skip .woof c.remaining = t :: us) (hk : delimiter? t.symbol = some kind) :
    Agrees (limit + 1 ≤ (lexemes us).length + 1) (Grammar.form .woof (limit + 1) c)
      (form (⟨kind, t⟩ :: lexemes us)) := by
  have hus : us <:+ c.remaining := (List.suffix_cons t us).trans (hs ▸ skip_suffix .woof _)
  have hl : lexemes (c.seek us).remaining = lexemes us := by rw [Cursor.remaining_seek hus]
  have ha := ahead_of_skip hs
  have hm := (delimiter?_mem hk).2
  simp only [List.mem_cons, List.not_mem_nil, or_false] at hm
  rw [form]
  rcases hm with rfl | rfl | rfl | rfl
  · have ht : t.symbol = '(' := delimiter?_inj hk rfl
    rw [form_of_paren hs ht]
    exact ((hf.afterParen t hl).mono Nat.succ_le_succ).agrees _
  · have ht : t.symbol = ')' := delimiter?_inj hk rfl
    rw [ht] at ha
    rw [form_of_other (not_in_class_of_mark ha (by decide)) (by simp [ha]) (by simp [ha])
      (by simp [ha])]
    exact .failure
  · have ht : t.symbol = '\x7b' := delimiter?_inj hk rfl
    rw [form_of_curly (ht ▸ ha)]
    exact ((hf.special hs ht rfl).mono Nat.succ_le_succ).agrees _
  · have ht : t.symbol = '\x7d' := delimiter?_inj hk rfl
    rw [ht] at ha
    rw [form_of_other (not_in_class_of_mark ha (by decide)) (by simp [ha]) (by simp [ha])
      (by simp [ha])]
    exact .failure

theorem FormAgrees.succ (hf : FormAgrees limit) : FormAgrees (limit + 1) := by
  intro c ls h
  cases ls with
  | nil =>
    have hs := skip_of_lexemes_nil h
    have ha : ahead .woof c = none := by
      rw [ahead, hs]
      rfl
    have hn : Grammar.form .woof (limit + 1) c = .ok .failure := by
      apply form_of_other <;> simp [ha]
    rw [hn, form]
    exact .failure
  | cons l ls =>
    obtain ⟨us, rest, hs, hk, hl⟩ := exists_scans h
    have ha := ahead_of_skip hs
    obtain ⟨kind, t⟩ := l
    cases hk with
    | symbol first read =>
      obtain ⟨c', hp, hc'⟩ := symbol_of_lexeme h rfl
      rw [form_of_start ha first, symbolForm, map_apply, hp, form]
      exact .success _ _ hc'
    | number first read =>
      obtain ⟨c', hp, hc'⟩ := number_of_lexeme h rfl
      rw [form_of_digit ha first, numberForm, map_apply, hp, form]
      exact .success _ _ hc'
    | string first read =>
      obtain ⟨c', hp, hc'⟩ := string_of_lexeme h rfl
      rw [form_of_quote (ha.trans (congrArg some first)), stringForm, map_apply, hp, form]
      exact .success _ _ hc'
    | unfinished first read =>
      have hn := string_of_other h (by simp)
      rw [form_of_quote (ha.trans (congrArg some first)), stringForm, map_apply, hn, form]
      exact .failure
    | other delimiter start digit quote =>
      have hne (x : Char) (k : Kind) (hx : delimiter? x = some k) : ahead .woof c ≠ some x := by
        intro he
        obtain rfl : t.symbol = x := Option.some.inj (ha.symm.trans he)
        rw [hx] at delimiter
        cases delimiter
      have hn : Grammar.form .woof (limit + 1) c = .ok .failure := by
        apply form_of_other _ _ (hne '(' _ rfl) (hne '\x7b' _ rfl)
        · intro x hx
          obtain rfl : t.symbol = x := Option.some.inj (ha.symm.trans hx)
          exact ⟨start, digit⟩
        · simpa [ha] using quote
      rw [hn, form]
      exact .failure
    | delimiter first =>
      subst hl
      exact hf.delimiter hs first

/-- The parser and the recursive descent agree on every form of every text. -/
theorem formAgrees (limit : Nat) : FormAgrees limit := by
  induction limit with
  | zero =>
    intro c ls h
    exact .tooDeep (Nat.zero_le _) _
  | succ limit ih => exact ih.succ

theorem program_of_some {f : Form} {rest : Rest ls} (h : form ls = .ok (some (f, rest))) :
    program ls = (f :: (program rest.1).1, (program rest.1).2) := by
  rw [program, h]

/-- Each form that is read off characters is the next form of the program. -/
theorem program_of_steps {c' : Cursor} {fs : List Form}
    (hs : Steps (Grammar.form .woof limit) c fs c') (h : lexemes c.remaining = ls) :
    (lexemes c'.remaining).length ≤ ls.length ∧
      program ls = (fs ++ (program (lexemes c'.remaining)).1,
        (program (lexemes c'.remaining)).2) := by
  induction hs generalizing ls with
  | nil =>
    subst h
    exact ⟨Nat.le_refl _, rfl⟩
  | cons head _ _ ih =>
    have ha := formAgrees limit h
    rw [head] at ha
    generalize hr : form ls = r at ha
    cases ha with
    | success f left same =>
      obtain ⟨hle, hp⟩ := ih same
      refine ⟨Nat.le_trans hle (Nat.le_of_lt left), ?_⟩
      rw [program_of_some hr, hp]
      rfl

/-- What a whole run comes to, once the forms before its end are known. -/
theorem unwatched_agrees {c' : Cursor} {fs : List Form}
    (hs : Steps (Grammar.form .woof limit) c fs c')
    (hn : ∀ f c₁, Grammar.form .woof limit c' ≠ .ok (.success f c₁))
    (h : lexemes c.remaining = ls) :
    (limit ≤ ls.length ∧ fs <+: (program ls).1 ∧ unwatched .woof limit c = .error .tooDeep) ∨
    (∃ c₁, program ls = (fs, none) ∧ unwatched .woof limit c = .ok (.success fs c₁)) ∨
    ∃ d, program ls = (fs, some d) ∧ unwatched .woof limit c = .ok (.error d) := by
  obtain ⟨hle, hp⟩ := program_of_steps hs h
  have ha := formAgrees limit (c := c') rfl
  generalize ho : Grammar.form .woof limit c' = o at ha
  generalize hr : form (lexemes c'.remaining) = r at ha
  cases ha with
  | tooDeep isDeep =>
    refine .inl ⟨Nat.le_trans isDeep hle, ?_, ?_⟩
    · rw [hp]
      exact List.prefix_append _ _
    · exact bind_of_interrupt (zeroOrMore_of_interrupt hs ho)
  | success f left same => exact absurd ho (hn _ _)
  | error d =>
    refine .inr (.inr ⟨d, ?_, ?_⟩)
    · rw [hp, program, hr]
      simp
    · exact bind_of_error (zeroOrMore_of_error hs ho)
  | failure =>
    have hz := zeroOrMore_of_steps hs ho
    have hf : program (lexemes c'.remaining) =
        ([], (lexemes c'.remaining).head?.map fun l => ⟨.unparsedInput, l.start⟩) := by
      rw [program, hr]
    rw [hf, List.append_nil] at hp
    cases hl : lexemes c'.remaining with
    | nil =>
      refine .inr (.inl ⟨c'.seek [], by rw [hp, hl]; rfl, ?_⟩)
      rw [unwatched, bind_of_success hz,
        bind_of_success (endOfProgram_of_nil (skip_of_lexemes_nil hl))]
      rfl
    | cons l ls' =>
      obtain ⟨us, rest, hsk, -, -⟩ := exists_scans hl
      refine .inr (.inr ⟨⟨.unparsedInput, l.start⟩, by rw [hp, hl]; rfl, ?_⟩)
      rw [unwatched, bind_of_success hz, bind_of_error (endOfProgram_of_cons hsk)]

end Agreement

/-- Reading characters and reading lexemes come to the same, for every receiver of the forms. Only
the limit on nesting can make a difference, and only if it is not above the number of lexemes; the
forms delivered until then are the same. -/
theorem parseWithin_eq_predictive {σ : Type} (limit : Nat) (receive : Receiver σ) (record : σ)
    (text : String) :
    parseWithin limit receive record text = parse receive record text ∨
    (limit ≤ (lexemes (Token.tag '\n' text.toList)).length ∧
      ∃ fs r, fs <+: (program (lexemes (Token.tag '\n' text.toList))).1 ∧
        receive.feed fs record = .ok r ∧
        parseWithin limit receive record text = (.error (.tooDeep text), r)) := by
  obtain ⟨fs, c', hs, hn⟩ := Grammar.exists_form_steps limit (.ofText text)
  have ha := unwatched_agrees hs hn (congrArg lexemes (Cursor.remaining_ofText text))
  rw [parseWithin_of_steps receive record hs hn, parseWithin_ignore, Receiver.delivering]
  rcases ha with ⟨hle, hpre, hu⟩ | ⟨c₁, hr, hu⟩ | ⟨d, hr, hu⟩
  · cases hf : receive.feed fs record with
    | ok r =>
      refine .inr ⟨hle, fs, r, hpre, hf, ?_⟩
      rw [hu]
      rfl
    | error stop =>
      -- The receiver puts an end to both runs before the limit is met.
      obtain ⟨gs, hg⟩ := hpre
      have hfg : receive.feed (program (lexemes (Token.tag '\n' text.toList))).1 record =
          .error stop := by
        rw [← hg, Receiver.feed_append, hf]
      left
      rw [parse, report, hfg]
  · left
    rw [parse, hr, report, hu]
    cases receive.feed fs record with
    | ok r => rfl
    | error stop => rfl
  · left
    rw [parse, hr, report, hu]
    cases receive.feed fs record with
    | ok r => rfl
    | error stop => rfl

end Woof.Predictive

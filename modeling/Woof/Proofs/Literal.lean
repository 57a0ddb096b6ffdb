import Woof.Proofs.Commitment
import Woof.Proofs.Printing

namespace Woof.Cursor

variable {c c₁ c₂ : Cursor}

/-- Two places further on in a text are one if the same remains. -/
theorem Onward.eq_of_text (h₁ : c.Onward c₁) (h₂ : c.Onward c₂) (h : c₁.text = c₂.text) :
    c₁ = c₂ := by
  have ht : c₁.tokens = c₂.tokens := h₁.tokens.trans h₂.tokens.symm
  have hl : c₁.left = c₂.left := by rw [← length_text, h, length_text]
  have ho₁ := c₁.offset_le
  have ho₂ := c₂.offset_le
  rw [left, left, ht] at hl
  rw [ht] at ho₁
  exact Cursor.ext ht (by omega)

end Woof.Cursor

namespace Woof.Syntax

variable {w s r : List Char}

/-- Trivia that is over whatever stands behind it: each comment ends with its newline. -/
inductive Gap : List Char → Prop where
  | nil : Gap []
  | blank {c : Char} {w : List Char} (isBlank : c ∈ Alphabet.woof.whitespace) (tail : Gap w) :
      Gap (c :: w)
  | comment {u w : List Char} (inLine : ∀ c ∈ u, c ≠ '\n') (tail : Gap w) :
      Gap (';' :: (u ++ '\n' :: w))

theorem Gap.trivia (h : Gap w) (s : List Char) : Trivia (w ++ s) s := by
  induction h with
  | nil => exact .done s
  | blank hb _ ih => exact .blank hb ih
  | comment hu _ ih =>
    rw [List.cons_append, List.append_assoc]
    exact .comment hu (by simp) (.blank (by decide) ih)

theorem characters_iff {body v : List Char} :
    Characters body v ↔ body = v.flatMap Writer.escape := by
  constructor
  · intro h
    induction h with
    | nil => rfl
    | plain hq hb _ ih =>
      rw [List.flatMap_cons, Writer.escape, if_neg (by simp [hq, hb]), ← ih]
      rfl
    | escaped hs _ ih =>
      rw [List.flatMap_cons, Writer.escape, if_pos hs.symm, ← ih]
      rfl
  · rintro rfl
    exact characters_escape v

/-- A string has no other text than the one that is written for it. -/
theorem str_iff {v : String} : Str v s r ↔ s = (Writer.quoted v).toList ++ r := by
  constructor
  · rintro ⟨body, rfl, hb⟩
    rw [characters_iff.mp hb]
    simp [Writer.quoted]
  · intro h
    rw [h]
    exact str_quoted v r

end Woof.Syntax

namespace Woof.Writer

/-- The characters with some others in place of each that is the given one. -/
def substitute (x : Char) (instead : List Char) (text : List Char) : List Char :=
  text.flatMap fun c => if c = x then instead else [c]

/-- Backslashes are doubled before the quotes are escaped, so that no backslash is doubled that was
put before a quote. -/
theorem flatMap_escape (text : List Char) :
    text.flatMap escape = substitute '\x22' ['\\', '\x22'] (substitute '\\' ['\\', '\\'] text) := by
  induction text with
  | nil => rfl
  | cons c text ih =>
    have hc : escape c = substitute '\x22' ['\\', '\x22'] (substitute '\\' ['\\', '\\'] [c]) := by
      by_cases hb : c = '\\'
      · subst hb
        decide
      · by_cases hq : c = '\x22'
        · subst hq
          decide
        · simp [escape, substitute, hb, hq]
    rw [List.flatMap_cons, hc, ih]
    simp [substitute]

end Woof.Writer

namespace Woof.Grammar

open Woof.Parser Woof.Syntax

variable {c c₁ c' : Cursor} {pieces : List (List (Token Char))}

/-- Where trivia ends, a string is read just if its literal stands there. -/
theorem stringLiteral_eq_success_iff (ht : trivia .woof c = .ok (.success pieces c₁)) {v : String} :
    stringLiteral .woof c = .ok (.success v c') ↔
      c₁.Onward c' ∧ c₁.text = (Writer.quoted v).toList ++ c'.text := by
  have hr := remaining_of_trivia ht
  have h₁ : c.Onward c₁ := Advances.of_reads (reads_trivia .woof) ht
  constructor
  · intro h
    have hc : c.Onward c' := Advances.of_reads (reads_stringLiteral .woof) h
    obtain ⟨hs, -, -⟩ := (reads_stringLiteral .woof).of_success h
    have he : c₁.text = (Writer.quoted v).toList ++ c'.text := by
      rw [Cursor.text, hr]
      exact str_iff.mp (str_of_readString hs)
    refine ⟨.of_left_le (hc.tokens.trans h₁.tokens.symm) ?_, he⟩
    rw [← Cursor.length_text, ← Cursor.length_text, he, List.length_append]
    omega
  · rintro ⟨hc, he⟩
    rw [Cursor.text, hr] at he
    obtain ⟨rest, hs, hrest⟩ := readString_of_str (str_iff.mpr he)
    have hp := (reads_stringLiteral .woof).of_some (c := c) hs
    have hsuf := (reads_stringLiteral .woof).suffix hs
    have hce : c.seek rest = c' := by
      refine (Cursor.Onward.of_seek hsuf).eq_of_text (h₁.trans hc) ?_
      rw [Cursor.text_seek hsuf]
      exact hrest
    rw [hp, hce]

theorem stringLiteral_eq_failure_iff (ht : trivia .woof c = .ok (.success pieces c₁)) :
    stringLiteral .woof c = .ok .failure ↔ ∀ v, ¬ (Writer.quoted v).toList <+: c₁.text := by
  rw [(reads_stringLiteral .woof).eq_failure_iff, ← remaining_of_trivia ht]
  constructor
  · rintro h v ⟨r, hr⟩
    obtain ⟨rest, hs, -⟩ := readString_of_str (str_iff.mpr hr.symm)
    rw [h] at hs
    cases hs
  · intro h
    cases hs : readString c₁.remaining with
    | none => rfl
    | some v => exact absurd ⟨_, (str_iff.mp (str_of_readString hs)).symm⟩ (h v.1)

theorem trivia_of_quote {u : String} (h : u.toList.head? = some '\x22') :
    ∃ pieces, trivia .woof (.ofText u) = .ok (.success pieces (.ofText u)) := by
  have ht := (reads_trivia .woof).of_some (c := .ofText u) rfl
  have hs : skip .woof (Cursor.ofText u).remaining = (Cursor.ofText u).remaining := by
    cases hr : (Cursor.ofText u).remaining with
    | nil => exact skip_nil _
    | cons t ts =>
      have hx : t.symbol = '\x22' := by
        rw [← Cursor.text_ofText, Cursor.text, hr] at h
        simpa using h
      refine skip_other ts ?_ (by simp [hx])
      rw [among_eq_false_iff, hx]
      decide
  rw [hs, Cursor.seek_remaining] at ht
  exact ⟨_, ht⟩

end Woof.Grammar

namespace Woof

open Woof.Grammar Woof.Parser Woof.Syntax

/-- A text with nothing before the string and nothing behind it. -/
def LiteralOf (v u : String) : Prop :=
  u.toList.head? = some '\x22' ∧
    ∃ c, stringLiteral .woof (.ofText u) = .ok (.success v c) ∧ c.left = 0

theorem head?_quoted (v : String) : (Writer.quoted v).toList.head? = some '\x22' := by
  simp [Writer.quoted]

theorem literalOf_iff {v u : String} : LiteralOf v u ↔ u = Writer.quoted v := by
  constructor
  · rintro ⟨hq, c, hc, hl⟩
    obtain ⟨pieces, ht⟩ := trivia_of_quote hq
    obtain ⟨-, he⟩ := (stringLiteral_eq_success_iff ht).mp hc
    have hn : c.text = [] := by rw [← List.length_eq_zero_iff, Cursor.length_text, hl]
    rw [Cursor.text_ofText, hn, List.append_nil] at he
    exact String.toList_inj.mp he
  · rintro rfl
    obtain ⟨c, hc, hr⟩ := stringLiteral_complete (c := .ofText (Writer.quoted v)) (.done _)
      (str_iff.mpr (by rw [Cursor.text_ofText, List.append_nil]))
    refine ⟨head?_quoted v, c, hc, ?_⟩
    rw [← Cursor.length_text, hr, List.length_nil]

/-- No literal begins another one. -/
theorem quoted_append_inj {v v' : String} {r r' : List Char}
    (h : (Writer.quoted v).toList ++ r = (Writer.quoted v').toList ++ r') : v = v' ∧ r = r' := by
  let c := Cursor.ofText (String.ofList ((Writer.quoted v).toList ++ r))
  have ht : c.text = (Writer.quoted v).toList ++ r := by
    rw [Cursor.text_ofText, String.toList_ofList]
  obtain ⟨c₁, h₁, hr⟩ := stringLiteral_complete (.done c.text) (str_iff.mpr ht)
  obtain ⟨c₂, h₂, hr'⟩ := stringLiteral_complete (.done c.text) (str_iff.mpr (ht.trans h))
  rw [h₁] at h₂
  obtain ⟨rfl, rfl⟩ := Outcome.success.inj (Except.ok.inj h₂)
  exact ⟨rfl, hr.symm.trans hr'⟩

/-- String literals are a code in which each string has one word and no word begins another. The
word of a string is read as that string, behind any trivia and before any text; what is read as a
string is its word; and reading fails just where no word stands behind the trivia. -/
theorem stringLiteral_code :
    (∀ (v : String) (w rest : List Char) (c : Cursor), Gap w →
      c.text = w ++ ((Writer.quoted v).toList ++ rest) →
      ∃ c', stringLiteral .woof c = .ok (.success v c') ∧ c.Onward c' ∧ c'.text = rest) ∧
    (∀ c, ∃ pieces c₁, trivia .woof c = .ok (.success pieces c₁) ∧
      (∀ v c', stringLiteral .woof c = .ok (.success v c') ↔
        c₁.Onward c' ∧ c₁.text = (Writer.quoted v).toList ++ c'.text) ∧
      (stringLiteral .woof c = .ok .failure ↔
        ∀ v, ¬ (Writer.quoted v).toList <+: c₁.text)) ∧
    (∀ v u, LiteralOf v u ↔ u = Writer.quoted v) ∧
    (∀ (v v' : String) (r r' : List Char),
      (Writer.quoted v).toList ++ r = (Writer.quoted v').toList ++ r' → v = v' ∧ r = r') ∧
    ∀ v : String, (Writer.quoted v).toList =
      '\x22' :: Writer.substitute '\x22' ['\\', '\x22']
        (Writer.substitute '\\' ['\\', '\\'] v.toList) ++ ['\x22'] := by
  refine ⟨?_, ?_, fun v u => literalOf_iff, fun v v' r r' => quoted_append_inj, ?_⟩
  · intro v w rest c hw hc
    have ht : Trivia c.text ((Writer.quoted v).toList ++ rest) := by
      rw [hc]
      exact hw.trivia _
    obtain ⟨c', hp, hr⟩ := stringLiteral_complete ht (str_quoted v rest)
    exact ⟨c', hp, Advances.of_reads (reads_stringLiteral .woof) hp, hr⟩
  · intro c
    have ht := (reads_trivia .woof).of_some (c := c) rfl
    exact ⟨_, _, ht, fun v c' => stringLiteral_eq_success_iff ht,
      stringLiteral_eq_failure_iff ht⟩
  · intro v
    rw [← Writer.flatMap_escape, Writer.quoted, String.toList_ofList]

/-- A backslash at the end of the string is not taken for an escape of the quote behind it, though
another quote follows. -/
theorem stringLiteral_code_backslash :
    Gap "; \x22\n ".toList ∧
      ∃ c, stringLiteral .woof (.ofText "; \x22\n \x22a\\\\\x22\x22") = .ok (.success "a\\" c) ∧
        c.text = ['\x22'] := by
  have hw : Gap "; \x22\n ".toList :=
    .comment (u := [' ', '\x22']) (by simp) (.blank (by decide) .nil)
  obtain ⟨c, hc, -, ht⟩ := stringLiteral_code.1 "a\\" _ ['\x22']
    (.ofText "; \x22\n \x22a\\\\\x22\x22") hw (by rw [Cursor.text_ofText]; decide)
  exact ⟨hw, c, hc, ht⟩

section Names

variable {name : String}

/-- The writer's check raises nothing against the name. -/
def Writer.Admits (name : String) : Prop :=
  ∀ casts e casts', Writer.name (.text name) casts ≠ (.error e, casts')

theorem Writer.admits_iff : Writer.Admits name ↔ IsName name.toList := by
  constructor
  · intro h
    match hn : Writer.name (.text name) [] with
    | (.ok t, casts) =>
      obtain ⟨he, ht⟩ := Writer.name_eq_ok hn
      rwa [Value.text.inj he]
    | (.error e, casts) => exact absurd hn (h [] e casts)
  · intro h casts e casts' he
    rw [Writer.name_of_isName h] at he
    cases he

/-- The whole of a text is read as a symbol just if it is a name. -/
theorem symbol_whole_iff :
    (∃ c, symbol .woof (.ofText name) = .ok (.success name c) ∧ c.left = 0) ↔
      IsName name.toList := by
  constructor
  · rintro ⟨c, hc, -⟩
    obtain ⟨s, -, hs⟩ := symbol_sound hc
    exact hs.isName
  · intro h
    have ht : (Cursor.ofText name).text = name.toList ++ [] := by
      rw [Cursor.text_ofText, List.append_nil]
    obtain ⟨rest, -, hp, hr⟩ := readSymbol_complete (.done _) ⟨ht, h, by simp [Apart]⟩
    refine ⟨_, hp, ?_⟩
    rw [← Cursor.length_text, hr, List.length_nil]

/-- The words that stand at a symbol: its own name and no other. -/
theorem keyword_iff_of_symbol {c c' : Cursor} (h : symbol .woof c = .ok (.success name c'))
    (word : String) :
    (∃ v c₁, keyword .woof word c = .ok (.success v c₁)) ↔ word = name := by
  constructor
  · rintro ⟨v, c₁, hk⟩
    obtain ⟨hs, hw⟩ := filter_eq_success hk
    rw [h] at hs
    obtain ⟨rfl, -⟩ := Outcome.success.inj (Except.ok.inj hs)
    exact (beq_iff_eq.mp hw).symm
  · rintro rfl
    exact ⟨word, c', filter_of_success h (beq_self_eq_true word)⟩

/-- The writer admits a name just if the grammar reads all of it as one symbol, and then the name is
read behind any trivia and before any text that does not go on with it, as the keyword that it
spells and as no other. -/
theorem name_iff_symbol (name : String) :
    (Writer.Admits name ↔
      ∃ c, symbol .woof (.ofText name) = .ok (.success name c) ∧ c.left = 0) ∧
    (Writer.Admits name → ∀ (w rest : List Char) (c : Cursor), Gap w → Apart rest →
      c.text = w ++ (name.toList ++ rest) →
      ∃ c', symbol .woof c = .ok (.success name c') ∧ c.Onward c' ∧ c'.text = rest ∧
        ∀ word, (∃ v c₁, keyword .woof word c = .ok (.success v c₁)) ↔ word = name) := by
  refine ⟨Writer.admits_iff.trans symbol_whole_iff.symm, ?_⟩
  intro h w rest c hw hr hc
  have ht : Trivia c.text (name.toList ++ rest) := by
    rw [hc]
    exact hw.trivia _
  obtain ⟨ts, -, hp, he⟩ := readSymbol_complete ht ⟨rfl, Writer.admits_iff.mp h, hr⟩
  exact ⟨c.seek ts, hp, Advances.of_reads (reads_symbol .woof) hp, he, keyword_iff_of_symbol hp⟩

/-- A name that goes on where a keyword ends. -/
theorem name_iff_symbol_defined :
    Writer.Admits "defined" ∧ Gap [' '] ∧ Apart [')'] ∧
      (∃ c, symbol .woof (.ofText " defined)") = .ok (.success "defined" c) ∧ c.text = [')']) ∧
      ¬ ∃ v c, keyword .woof "define" (.ofText " defined)") = .ok (.success v c) := by
  have hn : Writer.Admits "defined" := Writer.admits_iff.mpr (by decide)
  have hw : Gap [' '] := .blank (by decide) .nil
  have hr : Apart [')'] := apart_mark (by decide)
  obtain ⟨c, hc, -, ht, hk⟩ := (name_iff_symbol "defined").2 hn _ _ (.ofText " defined)") hw hr
    (by rw [Cursor.text_ofText]; decide)
  exact ⟨hn, hw, hr, ⟨c, hc, ht⟩, fun h => absurd ((hk "define").mp h) (by decide)⟩

end Names

end Woof

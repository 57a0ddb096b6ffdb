import Woof.Proofs.Lexeme
import Woof.Proofs.Syntax

namespace Woof.Grammar

open Woof.Parser Woof.Syntax

/-- The characters of a list of tokens. -/
abbrev symbols (ts : List (Token Char)) : List Char := ts.map Token.symbol

variable {ts rest : List (Token Char)} {s r : List Char}

theorem among_iff {xs : List Char} {t : Token Char} : among xs t = true ↔ t.symbol ∈ xs := by
  simp [among]

theorem among_eq_false_iff {xs : List Char} {t : Token Char} :
    among xs t = false ↔ t.symbol ∉ xs := by
  simp [among]

theorem inName_iff {t : Token Char} :
    inName .woof t = true ↔
      t.symbol ∈ Alphabet.woof.symbolStarts ∨ t.symbol ∈ Alphabet.woof.digits := by
  rw [inName, Bool.or_eq_true, among_iff, among_iff]

/-- What begins no trivia: the end, or any character that is neither blank nor a semicolon. -/
def NoTrivia (s : List Char) : Prop := ∀ c ∈ s.head?, c ∉ Alphabet.woof.whitespace ∧ c ≠ ';'

theorem noTrivia_skip (ts : List (Token Char)) : NoTrivia (symbols (skip .woof ts)) := by
  intro c hc
  cases h : skip .woof ts with
  | nil => simp [h] at hc
  | cons t rest =>
    obtain ⟨hw, hs⟩ := skip_eq_cons h
    obtain rfl : t.symbol = c := by simpa [h] using hc
    exact ⟨among_eq_false_iff.mp hw, hs⟩

theorem trivia_skip (ts : List (Token Char)) :
    Trivia (symbols ts) (symbols (skip .woof ts)) := by
  fun_induction skip .woof ts with
  | case1 => exact .done _
  | case2 t ts h ih => exact .blank (among_iff.mp h) ih
  | case3 t ts h hc ih =>
    have he : symbols (t :: ts) =
        ';' :: (symbols (ts.takeWhile inLine) ++ symbols (ts.dropWhile inLine)) := by
      rw [symbols, List.map_cons, hc, ← List.map_append, List.takeWhile_append_dropWhile]
    rw [he]
    refine .comment ?_ ?_ ih
    · intro c hm
      obtain ⟨u, hu, rfl⟩ := List.mem_map.mp hm
      have hl := List.all_eq_true.mp List.all_takeWhile u hu
      simpa [inLine] using hl
    · intro c hm
      have hh := List.head?_dropWhile_not inLine ts
      cases hd : ts.dropWhile inLine with
      | nil => simp [hd] at hm
      | cons u us =>
        obtain rfl : u.symbol = c := by simpa [hd] using hm
        simpa [hd, inLine] using hh
  | case4 t ts h hc => exact .done _

/-- Tokens split where their characters do. -/
theorem takeWhile_of_symbols (wanted : Token Char → Bool) {u : List Char}
    (h : symbols ts = u ++ r) (hu : ∀ t ∈ ts, t.symbol ∈ u → wanted t = true)
    (hr : ∀ t ∈ ts, t.symbol ∈ r.head? → wanted t = false) :
    symbols (ts.takeWhile wanted) = u ∧ symbols (ts.dropWhile wanted) = r := by
  obtain ⟨us, rs, rfl, rfl, rfl⟩ := List.map_eq_append_iff.mp h
  have ha : ∀ t ∈ us, wanted t = true := fun t ht =>
    hu t (List.mem_append_left rs ht) (List.mem_map_of_mem ht)
  have hd : rs.takeWhile wanted = [] ∧ rs.dropWhile wanted = rs := by
    cases rs with
    | nil => simp
    | cons t rs =>
      have hw := hr t (by simp) (by simp)
      simp [hw]
  rw [List.takeWhile_append_of_pos ha, List.dropWhile_append_of_pos ha, hd.1, hd.2]
  simp

/-- Trivia of the grammar is skipped up to where no trivia begins. -/
theorem skip_of_trivia (h : Trivia (symbols ts) s) (hs : NoTrivia s) :
    symbols (skip .woof ts) = s := by
  generalize hx : symbols ts = x at h
  induction h generalizing ts with
  | done x =>
    subst hx
    cases ts with
    | nil => simp
    | cons t ts =>
      obtain ⟨hw, hc⟩ := hs t.symbol (by simp)
      rw [skip_other ts (among_eq_false_iff.mpr hw) hc]
  | blank hb _ ih =>
    obtain ⟨t, us, rfl, rfl, rfl⟩ := List.map_eq_cons_iff.mp hx
    rw [skip_blank us (among_iff.mpr hb)]
    exact ih hs rfl
  | @comment u x r hu he _ ih =>
    obtain ⟨t, us, rfl, ht, hus⟩ := List.map_eq_cons_iff.mp hx
    have hb : t.symbol ∉ Alphabet.woof.whitespace := by
      rw [ht]
      decide
    have hd := takeWhile_of_symbols inLine hus
      (fun v _ hv => by simpa [inLine] using hu _ hv)
      (fun v _ hv => by simpa [inLine] using he _ hv)
    rw [skip_comment us (among_eq_false_iff.mpr hb) ht]
    exact ih hs hd.2

theorem headIf_eq_some_iff {wanted : Token Char → Bool} {t : Token Char} :
    headIf wanted ts = some (t, rest) ↔ ts = t :: rest ∧ wanted t = true := by
  cases ts with
  | nil => simp [headIf]
  | cons u us =>
    cases hw : wanted u with
    | false =>
      simp only [headIf, hw, Bool.false_eq_true, if_false, reduceCtorEq, List.cons.injEq, false_iff]
      rintro ⟨⟨rfl, -⟩, ht⟩
      simp [hw] at ht
    | true =>
      simp only [headIf, hw, if_true, Option.some.injEq, Prod.mk.injEq, List.cons.injEq]
      constructor
      · rintro ⟨rfl, rfl⟩
        exact ⟨⟨rfl, rfl⟩, hw⟩
      · exact fun h => h.1

theorem symbol_of_readSymbol {name : String} (h : readSymbol .woof ts = some (name, rest)) :
    Symbol name (symbols ts) (symbols rest) := by
  cases ts with
  | nil => simp [readSymbol] at h
  | cons t ts =>
    cases hs : among Alphabet.woof.symbolStarts t with
    | false => simp [readSymbol, hs] at h
    | true =>
      obtain ⟨rfl, rfl⟩ : spell (t :: ts.takeWhile (inName .woof)) = name ∧
          ts.dropWhile (inName .woof) = rest := by simpa [readSymbol, hs] using h
      refine ⟨?_, ?_, ?_⟩
      · rw [spell, String.toList_ofList, ← List.map_append, List.cons_append,
          List.takeWhile_append_dropWhile]
      · rw [spell, String.toList_ofList]
        refine ⟨among_iff.mp hs, ?_⟩
        intro d hd
        obtain ⟨u, hu, rfl⟩ := List.mem_map.mp hd
        exact inName_iff.mp (List.all_eq_true.mp List.all_takeWhile u hu)
      · intro c hc
        have hh := List.head?_dropWhile_not (inName .woof) ts
        cases hd : ts.dropWhile (inName .woof) with
        | nil => simp [hd] at hc
        | cons u us =>
          obtain rfl : u.symbol = c := by simpa [hd] using hc
          have hn : ¬ inName .woof u = true := by simpa [hd] using hh
          rwa [inName_iff, not_or] at hn

theorem readSymbol_of_symbol {name : String} (h : Symbol name (symbols ts) r) :
    ∃ rest, readSymbol .woof ts = some (name, rest) ∧ symbols rest = r := by
  obtain ⟨ht, hn, he⟩ := h
  cases hl : name.toList with
  | nil => simp [hl, IsName] at hn
  | cons c cs =>
    rw [hl] at ht hn
    obtain ⟨t, us, rfl, rfl, hus⟩ := List.map_eq_cons_iff.mp ht
    have hd := takeWhile_of_symbols (inName .woof) hus
      (fun u _ hu => inName_iff.mpr (hn.2 _ hu))
      (fun u _ hu => by
        rw [← Bool.not_eq_true, inName_iff, not_or]
        exact he _ hu)
    refine ⟨us.dropWhile (inName .woof), ?_, hd.2⟩
    have hs : spell (t :: us.takeWhile (inName .woof)) = name := by
      rw [← String.ofList_toList (s := name), hl, ← hd.1]
      rfl
    rw [readSymbol, if_pos (among_iff.mpr hn.1), hs]

theorem number_of_readNumber {n : Int} (h : readNumber ts = some (n, rest)) :
    Number n (symbols ts) (symbols rest) := by
  cases hd : ts.takeWhile (among Alphabet.woof.digits) with
  | nil => simp [readNumber, hd] at h
  | cons d ds =>
    obtain ⟨rfl, rfl⟩ : ((Nat.ofDigitChars 10 (symbols (d :: ds)) 0 : Nat) : Int) = n ∧
        ts.dropWhile (among Alphabet.woof.digits) = rest := by simpa [readNumber, hd] using h
    refine ⟨⟨symbols (d :: ds), ?_, by simp, ?_, rfl⟩, ?_⟩
    · rw [← hd, ← List.map_append, List.takeWhile_append_dropWhile]
    · intro c hc
      rw [← hd] at hc
      obtain ⟨u, hu, rfl⟩ := List.mem_map.mp hc
      exact among_iff.mp (List.all_eq_true.mp List.all_takeWhile u hu)
    · intro c hc
      have hh := List.head?_dropWhile_not (among Alphabet.woof.digits) ts
      cases hr : ts.dropWhile (among Alphabet.woof.digits) with
      | nil => simp [hr] at hc
      | cons u us =>
        obtain rfl : u.symbol = c := by simpa [hr] using hc
        exact among_eq_false_iff.mp (by simpa [hr] using hh)

theorem readNumber_of_number {n : Int} (h : Number n (symbols ts) r) :
    ∃ rest, readNumber ts = some (n, rest) ∧ symbols rest = r := by
  obtain ⟨⟨ds, ht, hne, hds, rfl⟩, he⟩ := h
  have hd := takeWhile_of_symbols (among Alphabet.woof.digits) ht
    (fun u _ hu => among_iff.mpr (hds _ hu))
    (fun u _ hu => among_eq_false_iff.mpr (he _ hu))
  refine ⟨ts.dropWhile (among Alphabet.woof.digits), ?_, hd.2⟩
  cases hw : ts.takeWhile (among Alphabet.woof.digits) with
  | nil =>
    rw [hw] at hd
    exact absurd hd.1.symm hne
  | cons u us =>
    rw [readNumber, hw]
    simp only [← hw, hd.1]

theorem escaped_iff {t : Token Char} :
    escaped t = true ↔ t.symbol = '\x22' ∨ t.symbol = '\\' := by
  simp [escaped, or_comm]

/-- What one character of a string is read from. -/
theorem readStringCharacter_eq_some_iff {u : Token Char} :
    readStringCharacter ts = some (u, rest) ↔
      (ts = u :: rest ∧ escaped u = false) ∨
        ∃ t, t.symbol = '\\' ∧ ts = t :: u :: rest ∧ escaped u = true := by
  cases ts with
  | nil => simp [readStringCharacter]
  | cons t ts =>
    by_cases ht : escaped t = true
    · by_cases hb : t.symbol = '\\'
      · simp only [readStringCharacter, ht, hb, beq_self_eq_true, Bool.not_true, Bool.false_eq_true,
          if_false, if_true, headIf_eq_some_iff]
        constructor
        · rintro ⟨rfl, hu⟩
          exact .inr ⟨t, hb, rfl, hu⟩
        · rintro (⟨he, hu⟩ | ⟨x, -, he, hu⟩)
          · obtain ⟨rfl, -⟩ := List.cons.inj he
            simp [ht] at hu
          · exact ⟨(List.cons.inj he).2, hu⟩
      · simp only [readStringCharacter, ht, hb, Bool.not_true, Bool.false_eq_true, if_false,
          beq_iff_eq, reduceCtorEq, false_iff]
        rintro (⟨he, hu⟩ | ⟨x, hx, he, hu⟩)
        · obtain ⟨rfl, -⟩ := List.cons.inj he
          simp [ht] at hu
        · obtain ⟨rfl, -⟩ := List.cons.inj he
          exact hb hx
    · rw [Bool.not_eq_true] at ht
      simp only [readStringCharacter, ht, Bool.not_false, if_true, Option.some.injEq, Prod.mk.injEq]
      constructor
      · rintro ⟨rfl, rfl⟩
        exact .inl ⟨rfl, ht⟩
      · rintro (⟨he, hu⟩ | ⟨x, hx, he, hu⟩)
        · exact ⟨(List.cons.inj he).1, (List.cons.inj he).2⟩
        · obtain ⟨rfl, -⟩ := List.cons.inj he
          rw [← Bool.not_eq_true, escaped_iff, not_or] at ht
          exact absurd hx ht.2

theorem length_of_readStringCharacter {u : Token Char}
    (h : readStringCharacter ts = some (u, rest)) : rest.length < ts.length := by
  rcases readStringCharacter_eq_some_iff.mp h with ⟨rfl, -⟩ | ⟨t, -, rfl, -⟩
  · simp
  · simp only [List.length_cons]
    omega

theorem characters_of_readMany (ts : List (Token Char)) :
    ∃ body, symbols ts = body ++ symbols (readMany readStringCharacter ts).2 ∧
      Characters body (symbols (readMany readStringCharacter ts).1) := by
  induction hn : ts.length using Nat.strongRecOn generalizing ts with
  | ind n ih =>
    cases hr : readStringCharacter ts with
    | none =>
      rw [readMany_of_none hr]
      exact ⟨[], rfl, .nil⟩
    | some v =>
      obtain ⟨u, rest⟩ := v
      have hl := length_of_readStringCharacter hr
      obtain ⟨body, hb, hc⟩ := ih _ (hn ▸ hl) rest rfl
      rw [readMany_of_some hr hl]
      rcases readStringCharacter_eq_some_iff.mp hr with ⟨rfl, hu⟩ | ⟨t, ht, rfl, hu⟩
      · rw [← Bool.not_eq_true, escaped_iff, not_or] at hu
        refine ⟨u.symbol :: body, ?_, .plain hu.1 hu.2 hc⟩
        simp only [symbols, List.map_cons, List.cons_append] at hb ⊢
        rw [hb]
      · refine ⟨'\\' :: u.symbol :: body, ?_, .escaped (escaped_iff.mp hu) hc⟩
        simp only [symbols, List.map_cons, List.cons_append] at hb ⊢
        rw [hb, ht]

/-- The characters of a string are read up to its closing quote. -/
theorem readMany_of_characters {body v : List Char} (h : Characters body v)
    (ht : symbols ts = body ++ '\x22' :: r) :
    ∃ cs q rest, readMany readStringCharacter ts = (cs, q :: rest) ∧ symbols cs = v ∧
      q.symbol = '\x22' ∧ symbols rest = r := by
  induction h generalizing ts with
  | nil =>
    obtain ⟨q, rest, rfl, hq, hr⟩ := List.map_eq_cons_iff.mp ht
    have hs : readStringCharacter (q :: rest) = none := by
      have he : escaped q = true := escaped_iff.mpr (.inl hq)
      simp [readStringCharacter, he, hq]
    exact ⟨[], q, rest, readMany_of_none hs, rfl, hq, hr⟩
  | @plain c s v hq hb _ ih =>
    obtain ⟨t, us, rfl, rfl, hus⟩ := List.map_eq_cons_iff.mp ht
    obtain ⟨cs, q, rest, hm, hv, hqs, hr⟩ := ih hus
    have he : escaped t = false := by
      rw [← Bool.not_eq_true, escaped_iff, not_or]
      exact ⟨hq, hb⟩
    have hs : readStringCharacter (t :: us) = some (t, us) :=
      readStringCharacter_eq_some_iff.mpr (.inl ⟨rfl, he⟩)
    refine ⟨t :: cs, q, rest, ?_, ?_, hqs, hr⟩
    · rw [readMany_of_some hs (by simp), hm]
    · rw [← hv]
      rfl
  | @escaped c s v hc _ ih =>
    obtain ⟨t, us', rfl, htb, hus'⟩ := List.map_eq_cons_iff.mp ht
    obtain ⟨u, us, rfl, rfl, hus⟩ := List.map_eq_cons_iff.mp hus'
    obtain ⟨cs, q, rest, hm, hv, hqs, hr⟩ := ih hus
    have hs : readStringCharacter (t :: u :: us) = some (u, us) :=
      readStringCharacter_eq_some_iff.mpr (.inr ⟨t, htb, rfl, escaped_iff.mpr hc⟩)
    refine ⟨u :: cs, q, rest, ?_, ?_, hqs, hr⟩
    · rw [readMany_of_some hs (by simp only [List.length_cons]; omega), hm]
    · rw [← hv]
      rfl

theorem str_of_readString {value : String} (h : readString ts = some (value, rest)) :
    Str value (symbols ts) (symbols rest) := by
  obtain ⟨⟨q, us⟩, hq, hm⟩ := Option.bind_eq_some_iff.mp h
  obtain ⟨rfl, hqs⟩ := headIf_eq_some_iff.mp hq
  obtain ⟨⟨q', us'⟩, hq', he⟩ := Option.map_eq_some_iff.mp hm
  obtain ⟨hr, hqs'⟩ := headIf_eq_some_iff.mp hq'
  obtain ⟨rfl, rfl⟩ := Prod.mk.inj he
  obtain ⟨body, hb, hc⟩ := characters_of_readMany us
  refine ⟨body, ?_, ?_⟩
  · rw [hr] at hb
    simp only [beq_iff_eq] at hqs hqs'
    simp only [symbols, List.map_cons, hqs, hqs'] at hb ⊢
    rw [hb]
  · rw [spell, String.toList_ofList]
    exact hc

theorem readString_of_str {value : String} (h : Str value (symbols ts) r) :
    ∃ rest, readString ts = some (value, rest) ∧ symbols rest = r := by
  obtain ⟨body, hb, hc⟩ := h
  obtain ⟨q, us, rfl, hq, hus⟩ := List.map_eq_cons_iff.mp hb
  obtain ⟨cs, q', rest, hm, hv, hq', hr⟩ := readMany_of_characters hc hus
  refine ⟨rest, ?_, hr⟩
  have hs : spell cs = value := by
    rw [← String.ofList_toList (s := value), ← hv]
    rfl
  simp [readString, headIf, hq, hm, hq', hs]

end Woof.Grammar

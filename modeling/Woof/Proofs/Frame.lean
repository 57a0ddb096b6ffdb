import Mathlib.Logic.Relation
import Woof.Proofs.Spelling

namespace Woof.Syntax

variable {r r' : List Char}

/-- What was read before the first text is over before the second too: that goes on with the same
character, or with a newline, or not at all. -/
def Closes (r r' : List Char) : Prop := r'.head? = r.head? ∨ ∀ c ∈ r'.head?, c = '\n'

namespace Closes

theorem nil (r : List Char) : Closes r [] := .inr (by simp)

theorem newline (r r' : List Char) : Closes r ('\n' :: r') := .inr (by simp)

theorem append_newline (r r' : List Char) : Closes r (r ++ '\n' :: r') := by
  cases r with
  | nil => exact newline [] r'
  | cons c r => exact .inl rfl

theorem append (h : Closes r r') (u : List Char) : Closes (u ++ r) (u ++ r') := by
  cases u with
  | nil => exact h
  | cons c u => exact .inl rfl

/-- Any condition that the end and a newline meet is met by the second text if by the first. -/
theorem forall_head {P : Char → Prop} (h : Closes r r') (hr : ∀ c ∈ r.head?, P c) (hn : P '\n') :
    ∀ c ∈ r'.head?, P c := by
  intro c hc
  rcases h with he | hc'
  · exact hr c (he ▸ hc)
  · exact hc' c hc ▸ hn

end Closes

variable {J K : List Char → List Char → Prop} {s s₁ : List Char}

/-- What the judgement finds at the front of the first text, up to the second, it finds in front of
every text that closes it. -/
def Framed (J : List Char → List Char → Prop) (s r : List Char) : Prop :=
  ∃ u, s = u ++ r ∧ ∀ r', Closes r r' → J (u ++ r') r'

namespace Framed

theorem map (h : Framed J s r) (hi : ∀ x y, J x y → K x y) : Framed K s r := by
  obtain ⟨u, hs, hu⟩ := h
  exact ⟨u, hs, fun r' hr => hi _ _ (hu r' hr)⟩

theorem char (x : Char) (r : List Char) : Framed (fun s r => s = x :: r) (x :: r) r :=
  ⟨[x], rfl, fun _ _ => rfl⟩

/-- One after the other: what the second finds closes what the first found. -/
theorem comp (h : Framed J s s₁) (h' : Framed K s₁ r) : Framed (Relation.Comp J K) s r := by
  obtain ⟨u, rfl, hu⟩ := h
  obtain ⟨v, rfl, hv⟩ := h'
  refine ⟨u ++ v, (List.append_assoc u v r).symm, ?_⟩
  intro r' hr
  rw [List.append_assoc]
  exact ⟨v ++ r', hu _ (hr.append v), hv r' hr⟩

end Framed

theorem Trivia.framed (h : Trivia s r) : Framed Trivia s r := by
  induction h with
  | done s => exact ⟨[], rfl, fun r' _ => .done r'⟩
  | @blank c s r hb _ ih =>
    obtain ⟨u, rfl, hu⟩ := ih
    exact ⟨c :: u, rfl, fun r' hr => .blank hb (hu r' hr)⟩
  | @comment w s r hw he _ ih =>
    obtain ⟨u, rfl, hu⟩ := ih
    refine ⟨';' :: (w ++ u), by simp, ?_⟩
    intro r' hr
    rw [List.cons_append, List.append_assoc]
    exact .comment hw ((hr.append u).forall_head he rfl) (hu r' hr)

theorem Symbol.framed {name : String} (h : Symbol name s r) : Framed (Symbol name) s r := by
  refine ⟨name.toList, h.text, ?_⟩
  intro r' hr
  have hn : '\n' ∉ Alphabet.woof.symbolStarts ∧ '\n' ∉ Alphabet.woof.digits := by decide
  exact ⟨rfl, h.isName, hr.forall_head h.ends hn⟩

theorem Number.framed {n : Int} (h : Number n s r) : Framed (Number n) s r := by
  obtain ⟨ds, hs, hne, hds, hn⟩ := h.exists_digits
  refine ⟨ds, hs, ?_⟩
  intro r' hr
  exact ⟨⟨ds, rfl, hne, hds, hn⟩, hr.forall_head h.ends (by decide)⟩

theorem Str.framed {value : String} (h : Str value s r) : Framed (Str value) s r := by
  obtain ⟨body, rfl, hb⟩ := h
  refine ⟨'\x22' :: (body ++ ['\x22']), by simp, ?_⟩
  intro r' _
  exact ⟨body, by simp, hb⟩

theorem Symbols.framed {names : List String} (h : Symbols names s r) :
    Framed (Symbols names) s r := by
  induction h with
  | nil s => exact ⟨[], rfl, fun r' _ => .nil r'⟩
  | cons before head _ ih =>
    refine (before.framed.comp (head.framed.comp ih)).map ?_
    rintro x y ⟨x₁, hb, x₂, hh, ht⟩
    exact .cons hb hh ht

theorem Doc.framed {doc : Option String} (h : Doc doc s r) : Framed (Doc doc) s r := by
  cases h with
  | absent => exact ⟨[], rfl, fun r' _ => .absent r'⟩
  | present before text =>
    refine (before.framed.comp text.framed).map ?_
    rintro x y ⟨x₁, hb, ht⟩
    exact .present hb ht

mutual

/-- A form does not depend on the text after it, beyond that it ends there. -/
theorem FormText.framed : {f : Form} → {s r : List Char} → FormText f s r →
    Framed (FormText f) s r
  | _, _, _, .symbol text => text.framed.map fun _ _ => .symbol
  | _, _, _, .number text => text.framed.map fun _ _ => .number
  | _, _, _, .string text => text.framed.map fun _ _ => .string
  | _, _, _, .application parts close => by
    have hc := close.framed.comp (Framed.char ')' _)
    refine ((Framed.char '(' _).comp (parts.framed.comp hc)).map ?_
    rintro x y ⟨_, rfl, _, hp, _, hc, rfl⟩
    exact .application hp hc
  | _, _, _, .define beforeWord word about beforeName named beforeValue body close => by
    have hv := body.framed.comp (close.framed.comp (Framed.char '\x7d' _))
    have hn := beforeName.framed.comp (named.framed.comp (beforeValue.framed.comp hv))
    have hw := beforeWord.framed.comp (word.framed.comp (about.framed.comp hn))
    refine ((Framed.char '\x7b' _).comp hw).map ?_
    rintro x y ⟨_, rfl, _, hbw, _, hw, _, hd, _, hbn, _, hn, _, hbv, _, hv, _, hc, rfl⟩
    exact .define hbw hw hd hbn hn hbv hv hc
  | _, _, _, .lambda beforeWord word openParams names distinct closeParams body close => by
    have hb := body.framed.comp (close.framed.comp (Framed.char '\x7d' _))
    have hp := names.framed.comp (closeParams.framed.comp ((Framed.char '\x7d' _).comp hb))
    have ho := openParams.framed.comp ((Framed.char '\x7b' _).comp hp)
    refine ((Framed.char '\x7b' _).comp (beforeWord.framed.comp (word.framed.comp ho))).map ?_
    rintro x y ⟨_, rfl, _, hbw, _, hw, _, ho, _, rfl, _, hn, _, hp, _, rfl, _, hb, _, hc, rfl⟩
    exact .lambda hbw hw ho hn distinct hp hb hc

theorem FormsText.framed : {fs : List Form} → {s r : List Char} → FormsText fs s r →
    Framed (FormsText fs) s r
  | _, _, _, .nil _ => ⟨[], rfl, fun r' _ => .nil r'⟩
  | _, _, _, .cons before head tail => by
    refine (before.framed.comp (head.framed.comp tail.framed)).map ?_
    rintro x y ⟨_, hb, _, hh, ht⟩
    exact .cons hb hh ht

end

end Woof.Syntax

import Woof.Value.Equality
import Woof.Proofs.Effect
import Woof.Proofs.Printing

namespace Woof.Writer

open Woof.Effect Woof.Syntax

section WellFormed

theorem names_mapM {ps : List String} (h : ∀ p ∈ ps, name (.text p) = pure p) :
    (ps.map Value.text).mapM name = pure ps := by
  induction ps with
  | nil => rfl
  | cons p ps ih =>
    have hp := h p List.mem_cons_self
    have hs := ih fun q hq => h q (List.mem_cons_of_mem p hq)
    rw [List.map_cons, List.mapM_cons, hp, hs]
    rfl

theorem parameters_text {ps : List String} (h : ∀ p ∈ ps, name (.text p) = pure p)
    (hd : ps.Nodup) : parameters (ps.map .text) = pure ps := by
  rw [parameters, names_mapM h, pure_bind, firstRepeated_eq_none_iff.mpr hd]

theorem numeral_of_nonneg {n : Int} (h : 0 ≤ n) : numeral n = pure (Form.number n).text := by
  obtain ⟨m, rfl⟩ := Int.eq_ofNat_of_zero_le h
  rw [numeral, if_neg (Int.not_lt.mpr h), Numeral.write_natCast]
  rfl

theorem numeral_of_neg {n : Int} (h : n < 0) : numeral n = throw .negative := if_pos h

theorem number_int {n : Int} (h : 0 ≤ n) :
    number (.int n) = pure (Form.number n).text := by
  rw [number, wholeNumber, pure_bind, numeral_of_nonneg h]

theorem wholeNumber_float {x : Binary64} {n : Int} (h : x.toInt? = some n) (casts : List Cast) :
    wholeNumber (.float x) casts = (.ok n, casts ++ [⟨x⟩]) := by
  rw [wholeNumber, h]
  rfl

theorem number_float {x : Binary64} {n : Int} (hx : x.toInt? = some n) (h : 0 ≤ n)
    (casts : List Cast) :
    number (.float x) casts = (.ok (Form.number n).text, casts ++ [⟨x⟩]) := by
  rw [number, bind_of_ok (wholeNumber_float hx casts), numeral_of_nonneg h]
  rfl

/-- What is written of something as deep as given. -/
def within {α : Type} (depth limit : Nat) (v : α) : Writing α :=
  if depth ≤ limit then pure v else throw .tooDeep

variable {α β : Type} {limit : Nat}

theorem within_of_le {depth : Nat} (h : depth ≤ limit) (v : α) :
    within depth limit v = pure v := if_pos h

theorem within_of_lt {depth : Nat} (h : limit < depth) (v : α) :
    within depth limit v = throw .tooDeep := if_neg (by omega)

/-- One part after another: the deeper of the two decides. -/
theorem within_bind_within (d e : Nat) (v : α) (w : β) {γ : Type} (k : α → β → γ) :
    (within d limit v >>= fun v => within e limit w >>= fun w => pure (k v w)) =
      within (max d e) limit (k v w) := by
  by_cases hd : d ≤ limit
  · rw [within_of_le hd, pure_bind]
    by_cases he : e ≤ limit
    · rw [within_of_le he, pure_bind, within_of_le (by omega)]
    · rw [within_of_lt (by omega), throw_bind, within_of_lt (by omega)]
  · rw [within_of_lt (by omega), throw_bind, within_of_lt (by omega)]

theorem within_bind (d : Nat) (v : α) (k : α → β) :
    (within d limit v >>= fun v => pure (k v)) = within d limit (k v) := by
  by_cases hd : d ≤ limit
  · rw [within_of_le hd, pure_bind, within_of_le hd]
  · rw [within_of_lt (by omega), throw_bind, within_of_lt (by omega)]

theorem within_succ (d : Nat) (v : α) : within (d + 1) (limit + 1) v = within d limit v := by
  simp [within]

mutual

/-- A well-formed form has its text, unless it is too deep. No cast is made. -/
theorem form_ofForm : (f : Form) → f.WellFormed → (limit : Nat) →
    form limit (.ofForm f) = within f.depth limit f.text
  | f, _, 0 => by
    rw [within_of_lt f.depth_pos, form]
  | .number n, h, limit + 1 => by
    rw [Form.depth, within_of_le (Nat.le_add_left 1 limit)]
    exact number_int h
  | .symbol s, h, limit + 1 => by
    rw [Form.depth, within_of_le (Nat.le_add_left 1 limit)]
    exact h
  | .string s, _, limit + 1 => by
    rw [Form.depth, within_of_le (Nat.le_add_left 1 limit)]
    rfl
  | .lambda ps fs, h, limit + 1 => by
    have hb := forms_ofForms fs h.2.2.2 limit
    have he : (Value.ofForms fs).isEmpty = false := by simpa using h.2.2.1
    rw [Value.ofForm, form, parameters_text h.1 h.2.1, pure_bind, he, hb, Form.depth, within_succ]
    exact within_bind _ _ _
  | .define doc s f, h, limit + 1 => by
    have hv := form_ofForm f h.2 limit
    rw [Value.ofForm, form, h.1, pure_bind, hv, Form.depth, within_succ]
    exact within_bind _ _ _
  | .application f fs, h, limit + 1 => by
    have ho := form_ofForm f h.1 limit
    have hb := forms_ofForms fs h.2 limit
    rw [Value.ofForm, form, ho, hb, Form.depth, within_succ]
    exact within_bind_within _ _ _ _ _

theorem forms_ofForms : (fs : List Form) → Form.WellFormedAll fs → (limit : Nat) →
    (Value.ofForms fs).mapM (form limit) = within (Form.depthAll fs) limit (Form.texts fs)
  | [], _, limit => by
    rw [Form.depthAll, within_of_le (Nat.zero_le limit)]
    rfl
  | f :: fs, h, limit => by
    have hf := form_ofForm f h.1 limit
    have hs := forms_ofForms fs h.2 limit
    rw [Value.ofForms, List.mapM_cons, hf, hs]
    exact within_bind_within _ _ _ _ _

end

/-- The text of a program. -/
def lines (fs : List Form) : String := String.join (fs.map fun f => f.text ++ "\n")

theorem program_ofForms {fs : List Form} (h : ∀ f ∈ fs, f.WellFormed) (limit : Nat) :
    program limit (fs.map .ofForm) = within (Form.depthAll fs) limit (lines fs) := by
  have hl : (fs.map Value.ofForm).mapM (line limit) =
      within (Form.depthAll fs) limit (fs.map fun f => f.text ++ "\n") := by
    induction fs with
    | nil =>
      rw [Form.depthAll, within_of_le (Nat.zero_le limit)]
      rfl
    | cons f fs ih =>
      have hs := ih fun g hg => h g (List.mem_cons_of_mem f hg)
      have hf : line limit (.ofForm f) = within f.depth limit (f.text ++ "\n") := by
        rw [line, form_ofForm f (h f List.mem_cons_self) limit]
        exact within_bind _ _ _
      rw [List.map_cons, List.mapM_cons, hf, hs]
      exact within_bind_within _ _ _ _ _
  rw [program, hl]
  exact within_bind _ _ _

end WellFormed

section Accepted

variable {casts casts' : List Cast} {limit : Nat}

theorem wholeNumber_eq_ok {v : Value} {n : Int} (h : wholeNumber v casts = (.ok n, casts')) :
    ∀ k, v.equalWithin k (.int n) = some true := by
  intro k
  cases v with
  | int m =>
    obtain rfl : m = n := Except.ok.inj (Prod.mk.inj h).1
    simp [Value.equalWithin, Value.whole?]
  | float x =>
    cases hx : x.toInt? with
    | none =>
      rw [wholeNumber, hx] at h
      cases h
    | some m =>
      rw [wholeNumber, hx] at h
      obtain rfl : m = n := Except.ok.inj (Prod.mk.inj h).1
      simp [Value.equalWithin, Value.whole?, hx]
  | _ => cases h

theorem number_eq_ok {v : Value} {t : String} (h : number v casts = (.ok t, casts')) :
    ∃ n : Nat, t = (Form.number n).text ∧ ∀ k, v.equalWithin k (.int n) = some true := by
  obtain ⟨n, casts₁, hw, hn⟩ := exists_ok_of_bind h
  rcases Int.lt_or_le n 0 with hneg | hnonneg
  · rw [numeral_of_neg hneg] at hn
    cases hn
  · obtain ⟨m, rfl⟩ := Int.eq_ofNat_of_zero_le hnonneg
    rw [numeral_of_nonneg hnonneg] at hn
    exact ⟨m, (Except.ok.inj (Prod.mk.inj hn).1).symm, wholeNumber_eq_ok hw⟩

theorem names_mapM_eq_ok {ps : List Value} {names : List String}
    (h : ps.mapM name casts = (.ok names, casts')) :
    ps = names.map .text ∧ ∀ p ∈ names, name (.text p) = pure p := by
  induction ps generalizing names casts with
  | nil =>
    obtain rfl : [] = names := Except.ok.inj (Prod.mk.inj h).1
    simp
  | cons p ps ih =>
    obtain ⟨s, casts₁, names, hs, hns, rfl⟩ := exists_ok_of_mapM_cons h
    obtain ⟨rfl, hn⟩ := name_eq_ok hs
    obtain ⟨rfl, hall⟩ := ih hns
    exact ⟨rfl, List.forall_mem_cons.mpr ⟨name_of_isName hn, hall⟩⟩

theorem parameters_eq_ok {ps : List Value} {names : List String}
    (h : parameters ps casts = (.ok names, casts')) :
    ps = names.map .text ∧ (∀ p ∈ names, name (.text p) = pure p) ∧ names.Nodup := by
  obtain ⟨found, casts₁, hm, hk⟩ := exists_ok_of_bind h
  cases hf : firstRepeated found with
  | some p =>
    rw [hf] at hk
    cases hk
  | none =>
    rw [hf] at hk
    obtain rfl : found = names := Except.ok.inj (Prod.mk.inj hk).1
    obtain ⟨hp, hn⟩ := names_mapM_eq_ok hm
    exact ⟨hp, hn, firstRepeated_eq_none_iff.mp hf⟩

/-- The form that a value is written as. -/
structure WrittenAs (v : Value) (text : String) (f : Form) : Prop where
  wellFormed : f.WellFormed
  text_eq : text = f.text
  equal : ∀ k, f.depth ≤ k → v.equalWithin k (.ofForm f) = some true

structure WrittenAsAll (vs : List Value) (texts : List String) (fs : List Form) : Prop where
  wellFormed : Form.WellFormedAll fs
  texts_eq : texts = Form.texts fs
  length_eq : vs.length = fs.length
  equal : ∀ k, Form.depthAll fs ≤ k → Value.equalAllWithin k vs (Value.ofForms fs) = some true

theorem equalAllWithin_texts (k : Nat) (ps : List String) :
    Value.equalAllWithin k (ps.map .text) (ps.map .text) = some true := by
  induction ps with
  | nil => rw [List.map_nil, Value.equalAllWithin]
  | cons p ps ih => simp [Value.equalAllWithin, Value.equalWithin, ih]

/-- One form after another. -/
theorem forms_sound {vs : List Value} {texts : List String}
    (hf : ∀ v text casts casts', form limit v casts = (.ok text, casts') →
      ∃ f, f.depth ≤ limit ∧ WrittenAs v text f)
    (h : vs.mapM (form limit) casts = (.ok texts, casts')) :
    ∃ fs, Form.depthAll fs ≤ limit ∧ WrittenAsAll vs texts fs := by
  induction vs generalizing texts casts with
  | nil =>
    obtain rfl : [] = texts := Except.ok.inj (Prod.mk.inj h).1
    refine ⟨[], Nat.zero_le limit, trivial, rfl, rfl, ?_⟩
    intro k _
    rw [Value.ofForms, Value.equalAllWithin]
  | cons v vs ih =>
    obtain ⟨text, casts₁, texts, hv, hvs, rfl⟩ := exists_ok_of_mapM_cons h
    obtain ⟨f, hd, hw⟩ := hf v text casts casts₁ hv
    obtain ⟨fs, hds, hws⟩ := ih hvs
    refine ⟨f :: fs, Nat.max_le.mpr ⟨hd, hds⟩, ⟨hw.wellFormed, hws.wellFormed⟩, ?_, ?_, ?_⟩
    · rw [Form.texts, ← hw.text_eq, ← hws.texts_eq]
    · rw [List.length_cons, List.length_cons, hws.length_eq]
    · intro k hk
      have hm := Nat.max_le.mp hk
      rw [Value.ofForms, Value.equalAllWithin, hw.equal k hm.1]
      exact hws.equal k hm.2

theorem writtenAs_lambda {names : List String} {vs : List Value} {texts : List String}
    {fs : List Form} (hn : ∀ p ∈ names, name (.text p) = pure p) (hd : names.Nodup)
    (hne : vs ≠ []) (h : WrittenAsAll vs texts fs) :
    WrittenAs (.lambda (names.map .text) vs)
      ("\x7blambda \x7b" ++ spaced names ++ "\x7d " ++ spaced texts ++ "\x7d")
      (.lambda names fs) := by
  have hfs : fs ≠ [] := by
    intro he
    have hl := h.length_eq
    rw [he] at hl
    exact hne (List.length_eq_zero_iff.mp hl)
  refine ⟨⟨hn, hd, hfs, h.wellFormed⟩, ?_, ?_⟩
  · rw [Form.text, h.texts_eq]
  · intro k hk
    obtain ⟨k, rfl⟩ := Form.exists_succ_of_depth_le hk
    have he := h.equal k (Nat.le_of_succ_le_succ hk)
    rw [Value.ofForm, Value.equalWithin, Value.compareInside, equalAllWithin_texts]
    exact he

theorem writtenAs_define {doc : Option String} {s : String} {v : Value} {text : String} {f : Form}
    (hs : name (.text s) = pure s) (h : WrittenAs v text f) :
    WrittenAs (.define doc (.text s) v)
      ("\x7b" ++ spaced ("define" :: (doc.map quoted).toList ++ [s, text]) ++ "\x7d")
      (.define doc s f) := by
  refine ⟨⟨hs, h.wellFormed⟩, ?_, ?_⟩
  · rw [Form.text, h.text_eq]
  · intro k hk
    obtain ⟨k, rfl⟩ := Form.exists_succ_of_depth_le hk
    have he := h.equal k (Nat.le_of_succ_le_succ hk)
    have hn : Value.equalWithin k (.text s) (.text s) = some true := by
      simp [Value.equalWithin]
    rw [Value.ofForm, Value.equalWithin, Value.compareInside, if_neg (by simp), hn]
    exact he

theorem writtenAs_application {v : Value} {vs : List Value} {text : String}
    {texts : List String} {f : Form} {fs : List Form} (h : WrittenAs v text f)
    (hs : WrittenAsAll vs texts fs) :
    WrittenAs (.application v vs) ("(" ++ spaced (text :: texts) ++ ")")
      (.application f fs) := by
  refine ⟨⟨h.wellFormed, hs.wellFormed⟩, ?_, ?_⟩
  · rw [Form.text, h.text_eq, hs.texts_eq]
  · intro k hk
    obtain ⟨k, rfl⟩ := Form.exists_succ_of_depth_le hk
    have hm := Nat.max_le.mp (Nat.le_of_succ_le_succ hk)
    rw [Value.ofForm, Value.equalWithin, Value.compareInside, h.equal k hm.1]
    exact hs.equal k hm.2

theorem form_lambda_eq_ok {ps vs : List Value} {text : String}
    (h : form (limit + 1) (.lambda ps vs) casts = (.ok text, casts')) :
    ∃ names texts casts₁, ps = names.map .text ∧ (∀ p ∈ names, name (.text p) = pure p) ∧
      names.Nodup ∧ vs ≠ [] ∧ vs.mapM (form limit) casts₁ = (.ok texts, casts') ∧
      text = "\x7blambda \x7b" ++ spaced names ++ "\x7d " ++ spaced texts ++ "\x7d" := by
  obtain ⟨names, casts₁, hp, hk⟩ := exists_ok_of_bind h
  obtain ⟨rfl, hn, hd⟩ := parameters_eq_ok hp
  cases he : vs.isEmpty with
  | true =>
    rw [he] at hk
    cases hk
  | false =>
    rw [he] at hk
    obtain ⟨texts, casts₂, hb, hr⟩ := exists_ok_of_bind hk
    obtain ⟨ht, rfl⟩ := Prod.mk.inj hr
    exact ⟨names, texts, casts₁, rfl, hn, hd, by simpa using he, hb, (Except.ok.inj ht).symm⟩

theorem form_define_eq_ok {doc : Option String} {s v : Value} {text : String}
    (h : form (limit + 1) (.define doc s v) casts = (.ok text, casts')) :
    ∃ defined value casts₁, s = .text defined ∧ name (.text defined) = pure defined ∧
      form limit v casts₁ = (.ok value, casts') ∧
      text =
        "\x7b" ++ spaced ("define" :: (doc.map quoted).toList ++ [defined, value]) ++ "\x7d" := by
  obtain ⟨defined, casts₁, hs, hk⟩ := exists_ok_of_bind h
  obtain ⟨rfl, hn⟩ := name_eq_ok hs
  obtain ⟨value, casts₂, hv, hr⟩ := exists_ok_of_bind hk
  obtain ⟨ht, rfl⟩ := Prod.mk.inj hr
  exact ⟨defined, value, casts₁, rfl, name_of_isName hn, hv, (Except.ok.inj ht).symm⟩

theorem form_application_eq_ok {v : Value} {vs : List Value} {text : String}
    (h : form (limit + 1) (.application v vs) casts = (.ok text, casts')) :
    ∃ operator operands casts₁, form limit v casts = (.ok operator, casts₁) ∧
      vs.mapM (form limit) casts₁ = (.ok operands, casts') ∧
      text = "(" ++ spaced (operator :: operands) ++ ")" := by
  obtain ⟨operator, casts₁, ho, hk⟩ := exists_ok_of_bind h
  obtain ⟨operands, casts₂, hvs, hr⟩ := exists_ok_of_bind hk
  obtain ⟨ht, rfl⟩ := Prod.mk.inj hr
  exact ⟨operator, operands, casts₁, ho, hvs, (Except.ok.inj ht).symm⟩

/-- Whatever the writer takes is written as a well-formed form that is equal to it. -/
theorem form_sound {v : Value} {text : String} (h : form limit v casts = (.ok text, casts')) :
    ∃ f, f.depth ≤ limit ∧ WrittenAs v text f := by
  induction limit generalizing v text casts casts' with
  | zero => cases h
  | succ limit ih =>
    have hall {vs texts casts casts'} := @forms_sound casts casts' limit vs texts
      fun v text casts casts' hv => ih hv
    cases v with
    | number v =>
      obtain ⟨n, rfl, he⟩ := number_eq_ok h
      refine ⟨.number n, Nat.le_add_left 1 limit, Int.natCast_nonneg n, rfl, ?_⟩
      intro k hk
      obtain ⟨k, rfl⟩ := Form.exists_succ_of_depth_le hk
      rw [Value.ofForm, Value.equalWithin, Value.compareInside]
      exact he k
    | symbol v =>
      obtain ⟨rfl, hn⟩ := name_eq_ok h
      refine ⟨.symbol text, Nat.le_add_left 1 limit, name_of_isName hn, rfl, ?_⟩
      intro k hk
      obtain ⟨k, rfl⟩ := Form.exists_succ_of_depth_le hk
      simp [Value.ofForm, Value.equalWithin, Value.compareInside]
    | string s =>
      obtain rfl : quoted s = text := Except.ok.inj (Prod.mk.inj h).1
      refine ⟨.string s, Nat.le_add_left 1 limit, trivial, rfl, ?_⟩
      intro k hk
      obtain ⟨k, rfl⟩ := Form.exists_succ_of_depth_le hk
      simp [Value.ofForm, Value.equalWithin, Value.compareInside]
    | lambda ps vs =>
      obtain ⟨names, texts, casts₁, rfl, hn, hd, hne, hb, rfl⟩ := form_lambda_eq_ok h
      obtain ⟨fs, hds, hw⟩ := hall hb
      exact ⟨.lambda names fs, Nat.succ_le_succ hds, writtenAs_lambda hn hd hne hw⟩
    | define doc s v =>
      obtain ⟨defined, value, casts₁, rfl, hn, hv, rfl⟩ := form_define_eq_ok h
      obtain ⟨f, hd, hw⟩ := ih hv
      exact ⟨.define doc defined f, Nat.succ_le_succ hd, writtenAs_define hn hw⟩
    | application v vs =>
      obtain ⟨operator, operands, casts₁, ho, hvs, rfl⟩ := form_application_eq_ok h
      obtain ⟨f, hd, hw⟩ := ih ho
      obtain ⟨fs, hds, hws⟩ := hall hvs
      exact ⟨.application f fs, Nat.succ_le_succ (Nat.max_le.mpr ⟨hd, hds⟩),
        writtenAs_application hw hws⟩
    | _ => cases h

theorem lines_mapM_eq_ok {vs : List Value} {ls : List String}
    (h : vs.mapM (line limit) casts = (.ok ls, casts')) :
    ∃ texts, vs.mapM (form limit) casts = (.ok texts, casts') ∧ ls = texts.map (· ++ "\n") := by
  induction vs generalizing ls casts with
  | nil =>
    obtain ⟨hl, rfl⟩ := Prod.mk.inj h
    obtain rfl := Except.ok.inj hl
    exact ⟨[], rfl, rfl⟩
  | cons v vs ih =>
    obtain ⟨l, casts₁, ls, hl, hls, rfl⟩ := exists_ok_of_mapM_cons h
    obtain ⟨text, casts₂, hf, hp⟩ := exists_ok_of_bind hl
    obtain ⟨he, rfl⟩ := Prod.mk.inj hp
    obtain rfl : text ++ "\n" = l := Except.ok.inj he
    obtain ⟨texts, hm, rfl⟩ := ih hls
    refine ⟨text :: texts, ?_, rfl⟩
    rw [List.mapM_cons, bind_of_ok hf, bind_of_ok hm]
    rfl

theorem program_sound {vs : List Value} {text : String}
    (h : program limit vs casts = (.ok text, casts')) :
    ∃ fs, (∀ f ∈ fs, f.WellFormed) ∧ Form.depthAll fs ≤ limit ∧ text = lines fs ∧
      ∀ k, Form.depthAll fs ≤ k →
        Value.equalWithin k (.list vs) (.list (fs.map .ofForm)) = some true := by
  obtain ⟨ls, casts₁, hl, hp⟩ := exists_ok_of_bind h
  obtain rfl := Except.ok.inj (Prod.mk.inj hp).1
  obtain ⟨texts, hm, rfl⟩ := lines_mapM_eq_ok hl
  obtain ⟨fs, hd, hw⟩ := forms_sound (fun _ _ _ _ hv => form_sound hv) hm
  refine ⟨fs, Form.wellFormedAll_iff.mp hw.wellFormed, hd, ?_, ?_⟩
  · rw [lines, hw.texts_eq, Form.texts_eq_map, List.map_map]
    rfl
  · intro k hk
    have he := hw.equal k hk
    rw [Value.ofForms_eq_map] at he
    rw [Value.equalWithin, if_pos (by simp [hw.length_eq]), he]

end Accepted

end Woof.Writer

import Woof.Proofs.Diagnosis
import Woof.Proofs.Frame

namespace Woof.Receiver

/-- A receiver that keeps so many forms objects to the one after them, if there is one. -/
theorem feed_collectUpTo (count : Nat) (e : Objection) (fs : List Form) (record : Array Form)
    (h : record.size ≤ count) :
    (collectUpTo count e).feed fs record =
      if count < record.size + fs.length then
        .error (e, record ++ (fs.take (count - record.size)).toArray)
      else .ok (record ++ fs.toArray) := by
  induction fs generalizing record with
  | nil =>
    have hn : ¬ count < record.size := by omega
    simp [feed, hn]
  | cons f fs ih =>
    by_cases hs : record.size < count
    · have hf : (collectUpTo count e).feed (f :: fs) record =
          (collectUpTo count e).feed fs (record.push f) := by
        simp [feed, collectUpTo, hs]
      have hk : count - record.size = (count - (record.size + 1)) + 1 := by omega
      have hl : record.size + (f :: fs).length = record.size + 1 + fs.length := by
        simp only [List.length_cons]
        omega
      have hp : (record.push f).size ≤ count := by
        rw [Array.size_push]
        exact hs
      rw [hf, ih (record.push f) hp, Array.size_push, hl, hk, List.take_succ_cons]
      simp
    · have hk : count - record.size = 0 := by omega
      have hl : count < record.size + (f :: fs).length := by
        simp only [List.length_cons]
        omega
      rw [if_pos hl, hk]
      simp [feed, collectUpTo, hs]

end Woof.Receiver

namespace Woof

open Woof.Grammar Woof.Parser Woof.Syntax

variable {limit : Nat} {fs : List Form}

/-- The text in front of the place up to which some forms were read is read as those forms. -/
theorem exists_text_of_steps {text : String} {c : Cursor}
    (h : Steps (form .woof limit) (.ofText text) fs c) :
    ∃ before after : String, text = before ++ after ∧ c.offset = before.length ∧
      (0 < limit → (parseWithin limit Receiver.ignore () before).1 = .ok fs) := by
  have hf := (sound_form limit).steps h
  rw [Cursor.text_ofText] at hf
  obtain ⟨u, hu, hb⟩ := hf.framed
  have hp : ProgramText fs (String.ofList u).toList := by
    have hn := hb [] (.nil _)
    rw [List.append_nil] at hn
    rw [String.toList_ofList]
    exact ⟨[], hn, .done []⟩
  refine ⟨.ofList u, .ofList c.text, ?_, ?_, ?_⟩
  · rw [← String.ofList_append, ← hu, String.ofList_toList]
  · have hl := congrArg List.length hu
    have ho := c.offset_le
    have ht : c.tokens.size = text.toList.length := by
      rw [(h.onward (advances_form .woof limit)).tokens, Cursor.ofText]
      simp
    rw [List.length_append, Cursor.length_text, Cursor.left] at hl
    rw [String.length_ofList]
    omega
  · intro hl
    exact parseWithin_eq_ok_iff.mpr ⟨hp, hl, depth_le_of_steps h⟩

/-- How reading a text ends once the forms are read that its front part holds, at the place after
that part. -/
inductive Ending (limit : Nat) (text before : String) (fs : List Form) (c : Cursor) :
    Except ParseError (List Form) → Prop where
  /-- There is no more form, and nothing but trivia. -/
  | read (front : (parseWithin limit Receiver.ignore () before).1 = .ok fs)
      (fails : form .woof limit c = .ok .failure)
      (ends : endOfProgram .woof c = .ok (.success () (c.seek []))) :
      Ending limit text before fs c (.ok fs)
  /-- No form could be read there. -/
  | faulty {d : Diagnostic} (kind : d.fault ≠ .unparsedInput ∧ d.fault ≠ .nestingTooDeep)
      (front : (parseWithin limit Receiver.ignore () before).1 = .ok fs)
      (errs : form .woof limit c = .ok (.error d)) :
      Ending limit text before fs c (.error (.malformed d))
  /-- There is no form there, and not the end either. -/
  | unparsed {d : Diagnostic} (kind : d.fault = .unparsedInput)
      (front : (parseWithin limit Receiver.ignore () before).1 = .ok fs)
      (fails : form .woof limit c = .ok .failure) (errs : endOfProgram .woof c = .ok (.error d)) :
      Ending limit text before fs c (.error (.malformed d))
  /-- The form there is nested too deep. -/
  | tooDeep (isDeep : form .woof limit c = .error .tooDeep) :
      Ending limit text before fs c (.error (.tooDeep text))

theorem ending_of_stops {text before : String} {c : Cursor}
    {run : Except Interrupt (Outcome (List Form))} (h : Stops limit fs c run)
    (hb : 0 < limit → (parseWithin limit Receiver.ignore () before).1 = .ok fs) :
    Ending limit text before fs c (ParseError.ofRun (.ofText text) run) := by
  have hpos (hf : form .woof limit c ≠ .error .tooDeep) : 0 < limit := by
    cases limit with
    | zero => exact absurd rfl hf
    | succ limit => exact Nat.succ_pos limit
  cases h with
  | done noForm atEnd =>
    have hl : 0 < limit := hpos (by simp [noForm])
    exact .read (hb hl) noForm (endOfProgram_of_nil atEnd)
  | unparsed noForm next =>
    have hl : 0 < limit := hpos (by simp [noForm])
    exact .unparsed rfl (hb hl) noForm (endOfProgram_of_cons next)
  | faulty errs =>
    have hl : 0 < limit := hpos (by simp [errs])
    obtain ⟨_, _, -, -, -, ho⟩ := located_of_form_error limit c errs
    exact .faulty ho.fault_ne (hb hl) errs
  | tooDeep isDeep => exact .tooDeep isDeep

/-- What a receiver gets: the forms at the top level one by one, in order, up to the place where
reading ends. It has no part in the result, but that it can object to a form. One that objects to
every form after so many has then kept just those, and its objection ends the reading as it is, but
that one which goes too deep is reported as if the forms did. -/
theorem exists_delivery (limit : Nat) (text : String) :
    ∃ (fs : List Form) (before after : String) (c : Cursor),
      text = before ++ after ∧ c.tokens = (Cursor.ofText text).tokens ∧
      c.offset = before.length ∧ Steps (form .woof limit) (.ofText text) fs c ∧
      Ending limit text before fs c (parseWithin limit Receiver.ignore () text).1 ∧
      parseWithin limit Receiver.collect #[] text =
        ((parseWithin limit Receiver.ignore () text).1, fs.toArray) ∧
      (∀ count e, parseWithin limit (Receiver.collectUpTo count e) #[] text =
        if count < fs.length then
          (.error (if e = .tooDeep then .tooDeep text else .interrupted (.refused e)),
            (fs.take count).toArray)
        else ((parseWithin limit Receiver.ignore () text).1, fs.toArray)) ∧
      ∀ {σ : Type} (receive : Receiver σ) (record : σ),
        parseWithin limit receive record text =
          match receive.feed fs record with
          | .ok r => ((parseWithin limit Receiver.ignore () text).1, r)
          | .error (e, r) => (.error (.ofObjection text e), r) := by
  obtain ⟨fs, c, hs, hstop, hr⟩ := exists_run limit text
  obtain ⟨before, after, ht, ho, hb⟩ := exists_text_of_steps hs
  refine ⟨fs, before, after, c, ht, (hs.onward (advances_form .woof limit)).tokens, ho, hs, ?_, ?_,
    ?_, hr⟩
  · rw [parseWithin_ignore]
    exact ending_of_stops hstop hb
  · rw [hr, Receiver.delivering_collect]
    simp
  · intro count e
    rw [hr, Receiver.delivering, Receiver.feed_collectUpTo count e fs #[] (Nat.zero_le count)]
    by_cases hc : count < fs.length
    · cases e <;> simp [hc, ParseError.ofObjection]
    · simp [hc]

/-- Two forms are read before a delimiter that closes nothing. The objection to the second is what
the reading ends with. -/
theorem exists_delivery_unparsed :
    let stop : Objection := .other "ValueError" "sink stop"
    ∃ before after : String, "x (y) )" = before ++ after ∧
      (parseWithin 2 Receiver.ignore () before).1 =
        .ok [.symbol "x", .application (.symbol "y") []] ∧
      parseWithin 2 Receiver.collect #[] "x (y) )" =
        (.error (.malformed ⟨.unparsedInput, ⟨")", 1, 7⟩⟩),
          #[.symbol "x", .application (.symbol "y") []]) ∧
      parseWithin 2 (Receiver.collectUpTo 1 stop) #[] "x (y) )" =
        (.error (.interrupted (.refused stop)), #[.symbol "x"]) := by
  intro stop
  let start := Cursor.ofText "x (y) )"
  let c₁ : Cursor := ⟨start.tokens, 1, by decide⟩
  let c₂ : Cursor := ⟨start.tokens, 5, by decide⟩
  have hx : form .woof 2 start = .ok (.success (.symbol "x") c₁) := by cbv
  have hy : form .woof 2 c₁ = .ok (.success (.application (.symbol "y") []) c₂) := by cbv
  have hs : Steps (form .woof 2) start [.symbol "x", .application (.symbol "y") []] c₂ :=
    .cons hx (by decide) (.cons hy (by decide) (.nil _))
  have hn : form .woof 2 c₂ = .ok .failure := by cbv
  have hi : (parseWithin 2 Receiver.ignore () "x (y) )").1 =
      .error (.malformed ⟨.unparsedInput, ⟨")", 1, 7⟩⟩) := by
    rw [parseWithin_ignore]
    cbv
  obtain ⟨fs, before, after, c, ht, -, -, hs', hend, hcollect, hupTo, -⟩ :=
    exists_delivery 2 "x (y) )"
  have hfs : fs = [.symbol "x", .application (.symbol "y") []] := by
    have hc := parseWithin_of_steps Receiver.collect #[] hs (by simp [hn])
    rw [hcollect, Receiver.delivering_collect] at hc
    simpa using (Prod.mk.inj hc).2
  subst hfs
  rw [hi] at hend hcollect
  refine ⟨before, after, ht, ?_, hcollect, hupTo 1 stop⟩
  cases hend with
  | faulty _ front | unparsed _ front => exact front

/-- A receiver that goes too deep on a form that is read without fault: its objection is not what
the reading ends with. -/
theorem parseWith_objection_tooDeep :
    parse "a" = .ok [.symbol "a"] ∧
    parseWith (Receiver.collectUpTo 0 .tooDeep) #[] "a" =
      (.error (.malformed ⟨.nestingTooDeep, ⟨"a", 1, 1⟩⟩), #[]) ∧
    (parseWith (Receiver.collectUpTo 0 .tooDeep) #[] "a").1 ≠
      .error (.interrupted (.refused .tooDeep)) := by
  have hs : FormText (.symbol "a") ['a'] [] := .symbol ⟨rfl, by decide, by simp [Apart]⟩
  have hp : parse "a" = .ok [.symbol "a"] := by
    apply parseWithin_eq_ok_iff.mpr
    exact ⟨⟨[], .cons (.done _) hs (.nil _), .done []⟩, by decide, by decide⟩
  have hd : parseWith (Receiver.collectUpTo 0 .tooDeep) #[] "a" =
      (.error (.malformed ⟨.nestingTooDeep, ⟨"a", 1, 1⟩⟩), #[]) := by
    rw [parseWith, parseWithin_of_ok hp]
    rfl
  refine ⟨hp, hd, ?_⟩
  rw [hd]
  simp

end Woof

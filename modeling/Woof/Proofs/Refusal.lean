import Woof.Proofs.Writing

namespace Woof

namespace Binary64

/-- The float is finite and equal to the whole number: m * 2^q = n, where a negative power stands on
the other side. -/
def IsWhole : Binary64 → Int → Prop
  | finite negative m q, n =>
    (if negative then -(m : Int) else m) * Nat.pow 2 q.toNat = n * Nat.pow 2 (-q).toNat
  | _, _ => False

/-- A quotient without remainder, over the whole numbers. -/
theorem quotient_eq_iff {num den : Nat} (hd : 0 < den) {n : Int} :
    (num % den = 0 ∧ ((num / den : Nat) : Int) = n) ↔ (num : Int) = n * den := by
  constructor
  · rintro ⟨hm, rfl⟩
    rw [← Int.natCast_mul, Nat.div_mul_cancel (Nat.dvd_of_mod_eq_zero hm)]
  · intro h
    have hz : (den : Int) ≠ 0 := by omega
    have hv : (den : Int) ∣ num := ⟨n, by rw [h, Int.mul_comm]⟩
    refine ⟨Nat.mod_eq_zero_of_dvd (Int.natCast_dvd_natCast.mp hv), ?_⟩
    rw [Int.natCast_ediv, h, Int.mul_ediv_cancel n hz]

theorem toInt?_eq_some_iff {x : Binary64} {n : Int} : x.toInt? = some n ↔ x.IsWhole n := by
  cases x with
  | nan => simp [toInt?, IsWhole]
  | infinite s => simp [toInt?, IsWhole]
  | finite s m q =>
    have hd : 0 < Nat.pow 2 (-q).toNat := Nat.pow_pos (by decide)
    have hq := @quotient_eq_iff (m * Nat.pow 2 q.toNat) _ hd
    simp only [toInt?, IsWhole, Option.ite_none_right_eq_some, Option.some.injEq]
    generalize Nat.pow 2 q.toNat = a at *
    generalize Nat.pow 2 (-q).toNat = den at *
    cases s with
    | false => simpa using hq
    | true =>
      have hn := hq (n := -n)
      have hneg (i j : Int) : -i = j ↔ i = -j := by omega
      rw [Int.neg_mul, Int.natCast_mul] at hn
      simpa only [if_true, Int.neg_mul, hneg] using hn

end Binary64

namespace Value

open Woof.Syntax

/-- The whole number that is written for a plain number. Truth values are no numbers. -/
def Worth : Value → Int → Prop
  | int m, n => m = n
  | float x, n => x.IsWhole n
  | _, _ => False

/-- A text that the grammar reads as one symbol. -/
def IsSymbolName : Value → Prop
  | text s => IsName s.toList
  | _ => False

mutual

/-- A value that can be written: a form all of whose parts can be. -/
def Writable : Value → Prop
  | number v => ∃ n, v.Worth n ∧ 0 ≤ n
  | symbol v => v.IsSymbolName
  | string _ => True
  | lambda ps vs => (∀ p ∈ ps, p.IsSymbolName) ∧ ps.Nodup ∧ vs ≠ [] ∧ WritableAll vs
  | define _ s v => s.IsSymbolName ∧ Writable v
  | application v vs => Writable v ∧ WritableAll vs
  | _ => False

def WritableAll : List Value → Prop
  | [] => True
  | v :: vs => Writable v ∧ WritableAll vs

end

mutual

/-- How many forms the writer finds nested in one another, the outermost included. -/
def depth : Value → Nat
  | lambda _ vs => depthAll vs + 1
  | define _ _ v => depth v + 1
  | application v vs => max (depth v) (depthAll vs) + 1
  | _ => 1

def depthAll : List Value → Nat
  | [] => 0
  | v :: vs => max (depth v) (depthAll vs)

end

theorem depthAll_le_iff {vs : List Value} {n : Nat} :
    depthAll vs ≤ n ↔ ∀ v ∈ vs, v.depth ≤ n := by
  induction vs with
  | nil => simp [depthAll]
  | cons v vs ih => rw [depthAll, Nat.max_le, ih, List.forall_mem_cons]

theorem depth_pos (v : Value) : 0 < v.depth := by cases v <;> simp [depth]

end Value

/-- One of the things that a value must satisfy to be written. -/
inductive Check where
  | number (v : Value)
  | name (v : Value)
  | distinct (params : List Value)
  | body (forms : List Value)
  | form (v : Value)

namespace Check

open Woof.Syntax

def Passes : Check → Prop
  | number v => ∃ n, v.Worth n ∧ 0 ≤ n
  | name v => v.IsSymbolName
  | distinct params => params.Nodup
  | body forms => forms ≠ []
  | form _ => False

/-- The cast that the check makes: of a float that is whole, whatever its sign. -/
def cast? : Check → Option Cast
  | number (.float x) => x.toInt?.map fun _ => ⟨x⟩
  | _ => none

/-- The value that a message about the check shows. -/
def subject? : Check → Option Value
  | number v => some v
  | name v => some v
  | form v => some v
  | _ => none

def Showable (c : Check) : Prop := ∀ v ∈ c.subject?, ∃ shown, v.display = .ok shown

/-- What is wrong where the check does not pass, with the value shown. -/
inductive Fails : Check → WriteError → Prop where
  | notWhole {v : Value} {shown : String} (notWorth : ∀ n, ¬ v.Worth n)
      (display : v.display = .ok shown) : Fails (number v) (.notWhole shown)
  | negative {v : Value} {n : Int} (worth : v.Worth n) (isNegative : n < 0) :
      Fails (number v) .negative
  | notText {v : Value} {shown : String} (notText : ∀ s, v = .text s → s = "")
      (display : v.display = .ok shown) : Fails (name v) (.nameNotText shown)
  | start {s : String} {c : Char} {rest : List Char} (text : s.toList = c :: rest)
      (notStart : c ∉ Alphabet.woof.symbolStarts) : Fails (name (.text s)) (.nameStart c s)
  | character {s : String} {u rest : List Char} {d : Char} (text : s.toList = u ++ d :: rest)
      (isName : IsName u) (notInName : d ∉ Alphabet.woof.symbolStarts ∧ d ∉ Alphabet.woof.digits) :
      Fails (name (.text s)) (.nameCharacter d s)
  | repeated {u rest : List String} {p : String} (different : u.Nodup) (again : p ∈ u) :
      Fails (distinct ((u ++ p :: rest).map .text)) (.duplicateParameter p)
  | emptyBody : Fails (body []) .emptyBody
  | notAForm {v : Value} {shown : String} (display : v.display = .ok shown) :
      Fails (form v) (.notAForm shown)

/-- The casts that the checks make, in order. -/
def casts (checks : List Check) : List Cast := checks.filterMap cast?

end Check

namespace Value

mutual

/-- The checks on a value in the order of a visit: its own before those on its parts, and these from
left to right. -/
def checks : Value → List Check
  | number v => [.number v]
  | symbol v => [.name v]
  | string _ => []
  | lambda ps vs => ps.map .name ++ [.distinct ps] ++ ([.body vs] ++ checksAll vs)
  | define _ s v => [.name s] ++ checks v
  | application v vs => checks v ++ checksAll vs
  | v => [.form v]

def checksAll : List Value → List Check
  | [] => []
  | v :: vs => checks v ++ checksAll vs

end

theorem checksAll_eq_flatMap (vs : List Value) : checksAll vs = vs.flatMap checks := by
  induction vs with
  | nil => rfl
  | cons v vs ih => rw [checksAll, ih, List.flatMap_cons]

mutual

theorem writable_iff (v : Value) : v.Writable ↔ ∀ c ∈ v.checks, c.Passes := by
  cases v with
  | lambda ps vs =>
    have hb := writableAll_iff vs
    simp [Writable, checks, hb, Check.Passes, or_imp, forall_and]
  | define doc s v =>
    have hv := writable_iff v
    simp [Writable, checks, hv, Check.Passes]
  | application v vs =>
    have ho := writable_iff v
    have hs := writableAll_iff vs
    simp [Writable, checks, ho, hs, or_imp, forall_and]
  | _ => simp [Writable, checks, Check.Passes]

theorem writableAll_iff (vs : List Value) :
    WritableAll vs ↔ ∀ c ∈ checksAll vs, c.Passes := by
  cases vs with
  | nil => simp [WritableAll, checksAll]
  | cons v vs =>
    have hv := writable_iff v
    have hs := writableAll_iff vs
    simp [WritableAll, checksAll, hv, hs, or_imp, forall_and]

end

end Value

namespace Writer

open Woof.Effect Woof.Syntax

/-- What a run comes to that makes the checks in order: it ends well if all of them pass, and
otherwise at the first that does not. In both cases the casts of the checks made are on record. -/
structure Verdict {α : Type} (checks : List Check) (x : Writing α) : Prop where
  accepts : (∀ c ∈ checks, c.Passes) →
    ∀ record, ∃ v, x record = (.ok v, record ++ Check.casts checks)
  refuses : ∀ {before c after}, checks = before ++ c :: after → (∀ b ∈ before, b.Passes) →
    ¬ c.Passes → ∀ record, ∃ e, x record = (.error e, record ++ Check.casts (before ++ [c])) ∧
      (c.Showable → c.Fails e)

namespace Verdict

variable {α β : Type} {x : Writing α} {k : α → Writing β} {cs ds : List Check} {c : Check}

theorem of_pure (v : α) : Verdict [] (pure v) where
  accepts _ record := ⟨v, by rw [Check.casts, List.filterMap_nil, List.append_nil]; rfl⟩
  refuses h := by simp at h

theorem of_check
    (hp : c.Passes → ∀ record, ∃ v, x record = (.ok v, record ++ c.cast?.toList))
    (hf : ¬ c.Passes → ∀ record, ∃ e, x record = (.error e, record ++ c.cast?.toList) ∧
      (c.Showable → c.Fails e)) : Verdict [c] x := by
  have hc : Check.casts [c] = c.cast?.toList := by
    cases h : c.cast? <;> simp [Check.casts, h]
  refine ⟨fun h => ?_, fun {before d after} hs _ hd => ?_⟩
  · rw [hc]
    exact hp (h c (by simp))
  · obtain ⟨rfl, hd', rfl⟩ : before = [] ∧ c = d ∧ after = [] := by
      cases before <;> simp_all
    subst hd'
    rw [List.nil_append, hc]
    exact hf hd

/-- One run after another, and the checks of one after those of the other. -/
theorem bind (h : Verdict cs x)
    (hk : ∀ {v record record'}, x record = (.ok v, record') → Verdict ds (k v)) :
    Verdict (cs ++ ds) (x >>= k) := by
  have ha (as bs : List Check) : Check.casts (as ++ bs) = Check.casts as ++ Check.casts bs :=
    List.filterMap_append
  refine ⟨fun hp record => ?_, fun {before c after} hs hb hc record => ?_⟩
  · obtain ⟨v, hv⟩ := h.accepts (fun c hc => hp c (List.mem_append_left ds hc)) record
    obtain ⟨w, hw⟩ := (hk hv).accepts (fun c hc => hp c (List.mem_append_right cs hc))
      (record ++ Check.casts cs)
    exact ⟨w, by rw [bind_of_ok hv, hw, ha, List.append_assoc]⟩
  · -- the check that fails is one of the second run if all of the first are before it
    have hsecond (as : List Check) (hbe : before = cs ++ as) (hds : ds = as ++ c :: after) :
        ∃ e, (x >>= k) record = (.error e, record ++ Check.casts (before ++ [c])) ∧
          (c.Showable → c.Fails e) := by
      subst hbe
      obtain ⟨v, hv⟩ := h.accepts (fun b hbm => hb b (List.mem_append_left as hbm)) record
      obtain ⟨e, he, hf⟩ := (hk hv).refuses hds
        (fun b hbm => hb b (List.mem_append_right cs hbm)) hc (record ++ Check.casts cs)
      exact ⟨e, by rw [bind_of_ok hv, he, List.append_assoc, List.append_assoc, ← ha], hf⟩
    rcases List.append_eq_append_iff.mp hs with ⟨as, hbe, hds⟩ | ⟨bs, hcs, hds⟩
    · exact hsecond as hbe hds
    · cases bs with
      | nil => exact hsecond [] (by simpa using hcs.symm) hds.symm
      | cons b bs =>
        obtain ⟨rfl, -⟩ := List.cons.inj hds
        obtain ⟨e, he, hf⟩ := h.refuses hcs hb hc record
        exact ⟨e, bind_of_error he, hf⟩

theorem map (h : Verdict cs x) (f : α → β) : Verdict cs (x >>= fun v => pure (f v)) := by
  have hb := h.bind (k := fun v => pure (f v)) fun _ => of_pure _
  rwa [List.append_nil] at hb

theorem mapM {f : α → Writing β} {g : α → List Check} {vs : List α}
    (h : ∀ v ∈ vs, Verdict (g v) (f v)) : Verdict (vs.flatMap g) (vs.mapM f) := by
  induction vs with
  | nil => exact of_pure []
  | cons v vs ih =>
    have hv := h v List.mem_cons_self
    have hvs := ih fun w hw => h w (List.mem_cons_of_mem v hw)
    rw [List.mapM_cons, List.flatMap_cons]
    exact hv.bind fun {w _ _} _ => hvs.map (w :: ·)

end Verdict

variable {α : Type} {c : Check}

theorem verdict_of_passes (hc : c.cast? = none) (hp : c.Passes) (v : α) :
    Verdict [c] (pure v) := by
  refine .of_check (fun _ record => ⟨v, ?_⟩) fun hn => absurd hp hn
  rw [hc, Option.toList_none, List.append_nil]
  rfl

theorem verdict_of_throw {e : WriteError} (hc : c.cast? = none) (hn : ¬ c.Passes)
    (hf : c.Showable → c.Fails e) : Verdict [c] (throw e : Writing α) := by
  refine .of_check (fun hp => absurd hp hn) fun _ record => ⟨e, ?_, hf⟩
  rw [hc, Option.toList_none, List.append_nil]
  rfl

/-- Fault is found with a value, and the value is shown. -/
theorem verdict_of_showing {v : Value} {error : String → WriteError} (hc : c.cast? = none)
    (hn : ¬ c.Passes) (hv : c.subject? = some v)
    (hf : ∀ {shown}, v.display = .ok shown → c.Fails (error shown)) :
    Verdict [c] (throw (.showing error v) : Writing α) := by
  refine verdict_of_throw hc hn fun hs => ?_
  obtain ⟨shown, hd⟩ := hs v hv
  rw [WriteError.showing, hd]
  exact hf hd

theorem verdict_name_text (s : String) : Verdict [.name (.text s)] (name (.text s)) := by
  rw [name]
  cases hl : s.toList with
  | nil =>
    have hn : ¬ IsName s.toList := by simp [hl, IsName]
    refine verdict_of_showing rfl hn rfl fun hd => .notText ?_ hd
    intro t ht
    obtain rfl := Value.text.inj ht
    exact String.toList_eq_nil_iff.mp hl
  | cons c rest =>
    by_cases hc : c ∈ Alphabet.woof.symbolStarts
    · simp only [List.contains_iff_mem.mpr hc, Bool.not_true, Bool.false_eq_true, if_false]
      cases hb : badCharacter? rest with
      | none =>
        have hn : IsName s.toList := hl ▸ ⟨hc, badCharacter?_eq_none_iff.mp hb⟩
        exact verdict_of_passes (c := .name (.text s)) rfl hn s
      | some d =>
        obtain ⟨hd, u, rest', rfl, hu⟩ := List.find?_eq_some_iff_append.mp hb
        simp only [Bool.not_eq_true', Bool.or_eq_false_iff, List.contains_eq_mem,
          decide_eq_false_iff_not, Bool.not_not, Bool.or_eq_true, decide_eq_true_eq] at hd hu
        refine verdict_of_throw rfl ?_ fun _ => .character (u := c :: u) hl ⟨hc, hu⟩ hd
        intro hn
        rw [Check.Passes, Value.IsSymbolName, hl] at hn
        rcases hn.2 d (by simp) with hs | hs
        · exact hd.1 hs
        · exact hd.2 hs
    · have hcf : (!Alphabet.woof.symbolStarts.contains c) = true := by simpa using hc
      simp only [hcf, if_true]
      refine verdict_of_throw rfl ?_ fun _ => .start hl hc
      intro hn
      rw [Check.Passes, Value.IsSymbolName, hl] at hn
      exact hc hn.1

theorem verdict_name (v : Value) : Verdict [.name v] (name v) := by
  cases v with
  | text s => exact verdict_name_text s
  | _ => exact verdict_of_showing rfl id rfl fun hd => .notText (fun s he => by cases he) hd

theorem verdict_number_float (x : Binary64) : Verdict [.number (.float x)] (number (.float x)) := by
  cases hx : x.toInt? with
  | none =>
    have hn : ∀ n, ¬ (Value.float x).Worth n := by
      intro n hw
      rw [Value.Worth, ← Binary64.toInt?_eq_some_iff, hx] at hw
      cases hw
    rw [number, wholeNumber, hx, throw_bind]
    refine verdict_of_showing (by simp [Check.cast?, hx]) ?_ rfl (.notWhole hn)
    rintro ⟨n, hw, -⟩
    exact hn n hw
  | some n =>
    have hw : (Value.float x).Worth n := Binary64.toInt?_eq_some_iff.mp hx
    have hc : (Check.number (.float x)).cast?.toList = [⟨x⟩] := by simp [Check.cast?, hx]
    refine .of_check (fun hp record => ?_) fun hn record => ?_
    · obtain ⟨m, hm, h0⟩ := hp
      have hmn : n = m := by
        rw [Value.Worth, ← Binary64.toInt?_eq_some_iff, hx] at hm
        exact Option.some.inj hm
      rw [number_float hx (hmn ▸ h0), hc]
      exact ⟨_, rfl⟩
    · rcases Int.lt_or_le n 0 with hneg | hnonneg
      · rw [number, bind_of_ok (wholeNumber_float hx record), hc, numeral_of_neg hneg]
        exact ⟨_, rfl, fun _ => .negative hw hneg⟩
      · exact absurd ⟨_, hw, hnonneg⟩ hn

theorem verdict_number (v : Value) : Verdict [.number v] (number v) := by
  cases v with
  | int n =>
    rw [number, wholeNumber, pure_bind]
    rcases Int.lt_or_le n 0 with hneg | hnonneg
    · rw [numeral_of_neg hneg]
      refine verdict_of_throw rfl ?_ fun _ => .negative rfl hneg
      rintro ⟨m, rfl, h0⟩
      exact absurd h0 (Int.not_le.mpr hneg)
    · rw [numeral_of_nonneg hnonneg]
      exact verdict_of_passes (c := .number (.int n)) rfl ⟨n, rfl, hnonneg⟩ _
  | float x => exact verdict_number_float x
  | _ =>
    show Verdict _ (throw _ >>= _)
    rw [throw_bind]
    exact verdict_of_showing rfl (by rintro ⟨n, hw, -⟩; exact hw) rfl (.notWhole fun n hw => hw)

theorem verdict_distinct {names : List String} :
    Verdict [.distinct (names.map .text)] (match firstRepeated names with
      | some p => throw (.duplicateParameter p)
      | none => return names : Writing (List String)) := by
  have hd : (names.map Value.text).Nodup ↔ firstRepeated names = none := by
    simp only [firstRepeated_eq_none_iff, List.Nodup, List.pairwise_map, ne_eq, Value.text.injEq]
  cases hf : firstRepeated names with
  | none =>
    exact verdict_of_passes (c := .distinct (names.map .text)) rfl (hd.mpr hf) names
  | some p =>
    refine verdict_of_throw rfl (fun hp => ?_) fun _ => ?_
    · rw [hd.mp hp] at hf
      cases hf
    · obtain ⟨u, rest, rfl, hu, hp⟩ := firstRepeated_eq_some hf
      exact .repeated hu hp

theorem verdict_parameters (ps : List Value) :
    Verdict (ps.map .name ++ [.distinct ps]) (parameters ps) := by
  have hn : Verdict (ps.map .name) (ps.mapM name) := by
    rw [List.map_eq_flatMap]
    exact .mapM fun p _ => verdict_name p
  refine hn.bind fun h => ?_
  obtain ⟨rfl, -⟩ := names_mapM_eq_ok h
  exact verdict_distinct

theorem verdict_body {vs : List Value} {ds : List Check} {x : Writing α} (h : Verdict ds x) :
    Verdict ([.body vs] ++ ds) (if vs.isEmpty then throw .emptyBody else x) := by
  cases vs with
  | nil =>
    have hn : Verdict [.body []] (throw .emptyBody : Writing α) :=
      verdict_of_throw rfl (fun hp => hp rfl) fun _ => .emptyBody
    have hx := hn.bind (k := fun _ => x) fun _ => h
    rwa [throw_bind] at hx
  | cons v vs =>
    have hp : Verdict [.body (v :: vs)] (pure ()) :=
      verdict_of_passes (c := .body (v :: vs)) rfl (List.cons_ne_nil v vs) ()
    have hx := hp.bind (k := fun _ => x) fun _ => h
    rwa [pure_bind] at hx

/-- The checks on a form and its parts decide whether it is written, and which casts are made. -/
theorem verdict_form {limit : Nat} {v : Value} (h : v.depth ≤ limit) :
    Verdict v.checks (form limit v) := by
  induction limit generalizing v with
  | zero => exact absurd v.depth_pos (by omega)
  | succ limit ih =>
    have hall {vs : List Value} (hs : Value.depthAll vs ≤ limit) :
        Verdict (Value.checksAll vs) (vs.mapM (form limit)) := by
      rw [Value.checksAll_eq_flatMap]
      exact .mapM fun w hw => ih (Value.depthAll_le_iff.mp hs w hw)
    cases v with
    | number v => exact verdict_number v
    | symbol v => exact verdict_name v
    | string s => exact .of_pure (quoted s)
    | lambda ps vs =>
      have hb := hall (Nat.le_of_succ_le_succ h)
      exact (verdict_parameters ps).bind fun _ => verdict_body (hb.map _)
    | define doc s v =>
      have hv := ih (Nat.le_of_succ_le_succ h)
      exact (verdict_name s).bind fun _ => hv.map _
    | application v vs =>
      have hm := Nat.max_le.mp (Nat.le_of_succ_le_succ h)
      exact (ih hm.1).bind fun _ => (hall hm.2).map _
    | _ => exact verdict_of_showing rfl id rfl .notAForm

theorem verdict_program {limit : Nat} {vs : List Value} (h : ∀ v ∈ vs, v.depth ≤ limit) :
    Verdict (vs.flatMap Value.checks) (program limit vs) :=
  (Verdict.mapM fun v hv => (verdict_form (h v hv)).map (· ++ "\n")).map String.join

end Writer

/-- The first of the checks that does not pass, if there is one. -/
theorem Check.exists_first {checks : List Check} (h : ¬ ∀ c ∈ checks, c.Passes) :
    ∃ before c after, checks = before ++ c :: after ∧ (∀ b ∈ before, b.Passes) ∧ ¬ c.Passes := by
  induction checks with
  | nil => simp at h
  | cons c checks ih =>
    by_cases hc : c.Passes
    · have hn : ¬ ∀ c ∈ checks, c.Passes := fun hs => h (List.forall_mem_cons.mpr ⟨hc, hs⟩)
      obtain ⟨before, d, after, rfl, hb, hd⟩ := ih hn
      exact ⟨c :: before, d, after, rfl, List.forall_mem_cons.mpr ⟨hc, hb⟩, hd⟩
    · exact ⟨[], c, checks, rfl, by simp, hc⟩

/-- The run ends with the error of the first check that does not pass. On record are the casts of
the checks before it, and its own. -/
def StopsAtDefect (checks : List Check) (record : List Cast)
    (run : Except WriteError String × List Cast) : Prop :=
  ∃ before c after e, checks = before ++ c :: after ∧ (∀ b ∈ before, b.Passes) ∧ ¬ c.Passes ∧
    run = (.error e, record ++ Check.casts (before ++ [c])) ∧ (c.Showable → c.Fails e)

/-- What a run of the writer comes to. There is a text exactly if what was given is writable, and
otherwise the first defect ends the run. -/
structure Settled (writable : Prop) (checks : List Check) (record : List Cast)
    (run : Except WriteError String × List Cast) : Prop where
  text_iff : (∃ text, run.1 = .ok text) ↔ writable
  casts_of_writable : writable → run.2 = record ++ Check.casts checks
  stops_of_not_writable : ¬ writable → StopsAtDefect checks record run

namespace Writer.Verdict

variable {checks : List Check} {x : Writing String}

theorem stopsAtDefect (h : Verdict checks x) (hn : ¬ ∀ c ∈ checks, c.Passes)
    (record : List Cast) : StopsAtDefect checks record (x record) := by
  obtain ⟨before, c, after, hs, hb, hc⟩ := Check.exists_first hn
  obtain ⟨e, he, hf⟩ := h.refuses hs hb hc record
  exact ⟨before, c, after, e, hs, hb, hc, he, hf⟩

theorem settled {writable : Prop} (h : Verdict checks x)
    (hw : writable ↔ ∀ c ∈ checks, c.Passes) (record : List Cast) :
    Settled writable checks record (x record) := by
  by_cases hp : writable
  · obtain ⟨text, ht⟩ := h.accepts (hw.mp hp) record
    rw [ht]
    exact ⟨iff_of_true ⟨text, rfl⟩ hp, fun _ => rfl, fun hn => absurd hp hn⟩
  · have hd := h.stopsAtDefect (mt hw.mpr hp) record
    have ⟨_, _, _, _, _, _, _, he, _⟩ := hd
    have ht : ¬ ∃ text, (x record).1 = .ok text := by simp [he]
    exact ⟨iff_of_false ht hp, fun hw => absurd hw hp, fun _ => hd⟩

end Writer.Verdict

/-- A value is written or refused, and so is a program: its forms in order, each as it would be
alone. -/
theorem settled_writing {limit : Nat} {v : Value} {vs : List Value} (h : v.depth ≤ limit)
    (hs : ∀ w ∈ vs, w.depth ≤ limit) (record : List Cast) :
    Settled v.Writable v.checks record (Writer.form limit v record) ∧
      Settled (∀ w ∈ vs, w.Writable) (vs.flatMap Value.checks) record
        (Writer.program limit vs record) := by
  have hw : (∀ w ∈ vs, w.Writable) ↔ ∀ c ∈ vs.flatMap Value.checks, c.Passes := by
    simp only [List.mem_flatMap, Value.writable_iff]
    grind
  exact ⟨(Writer.verdict_form h).settled v.writable_iff record,
    (Writer.verdict_program hs).settled hw record⟩

/-- A whole float, a float below zero and a truth value: the second of them is the first defect, and
both floats are cast. Behind a form that can be written the run is the same. -/
theorem settled_writing_negative :
    let v : Value := .application (.symbol (.text "f"))
      [.number (.float (.finite false 4503599627370496 (-51))),
        .number (.float (.finite true 6755399441055744 (-51))), .number (.bool true)]
    let casts : List Cast :=
      [⟨.finite false 4503599627370496 (-51)⟩, ⟨.finite true 6755399441055744 (-51)⟩]
    let vs : List Value := [.string "a", v]
    v.depth ≤ 2 ∧ (∀ w ∈ vs, w.depth ≤ 2) ∧
      Writer.form 2 v [] = (.error .negative, casts) ∧
      Writer.program 2 vs [] = (.error .negative, casts) ∧
      Settled v.Writable v.checks [] (Writer.form 2 v []) ∧
      Settled (∀ w ∈ vs, w.Writable) (vs.flatMap Value.checks) [] (Writer.program 2 vs []) := by
  intro v casts vs
  have hv : v.depth ≤ 2 := by decide
  have hvs : ∀ w ∈ vs, w.depth ≤ 2 := Value.depthAll_le_iff.mp (by decide)
  have htwo : Writer.form 1 (.number (.float (.finite false 4503599627370496 (-51)))) [] =
      (.ok (Form.number 2).text, [⟨.finite false 4503599627370496 (-51)⟩]) :=
    Writer.number_float rfl (by decide) []
  have hparts : List.mapM (Writer.form 1)
      [.number (.float (.finite false 4503599627370496 (-51))),
        .number (.float (.finite true 6755399441055744 (-51))), .number (.bool true)] [] =
      (.error .negative, casts) := by
    rw [List.mapM_cons]
    exact (Effect.bind_of_ok htwo).trans (Effect.bind_of_error rfl)
  have hf : Writer.form 2 v [] = (.error .negative, casts) :=
    (Effect.bind_of_ok (v := "f") rfl).trans (Effect.bind_of_error hparts)
  have hlines : vs.mapM (Writer.line 2) [] = (.error .negative, casts) := by
    rw [List.mapM_cons, List.mapM_cons]
    have hline : Writer.line 2 v [] = (.error .negative, casts) := Effect.bind_of_error hf
    exact (Effect.bind_of_ok rfl).trans (Effect.bind_of_error (Effect.bind_of_error hline))
  exact ⟨hv, hvs, hf, Effect.bind_of_error hlines, settled_writing hv hvs []⟩

end Woof

import Mathlib.Data.List.Nodup
import Mathlib.Order.Bounds.Basic
import Woof.Proofs.Consumption
import Woof.Proofs.Recognition

namespace Woof

/-- The name at the index is among those before it. -/
def RepeatedAt (names : List String) (i : Nat) : Prop := ∃ name ∈ names[i]?, name ∈ names.take i

section Names

variable {names : List String} {name : String}

theorem not_repeatedAt_of_nodup (h : names.Nodup) (i : Nat) : ¬ RepeatedAt names i := by
  rintro ⟨name, hi, hm⟩
  have hd : name ∈ names.drop i := List.mem_of_mem_head? (by rwa [List.head?_drop])
  exact List.disjoint_take_drop h le_rfl hm hd

/-- Behind names that are all different, a name that is one of them is the first that is repeated. -/
theorem isLeast_repeatedAt {u : List String} (hu : u.Nodup) (hm : name ∈ u) (rest : List String) :
    IsLeast {i | RepeatedAt (u ++ name :: rest) i} u.length := by
  constructor
  · exact ⟨name, by simp, by simpa using hm⟩
  · rintro i ⟨x, hx, hxm⟩
    by_contra hi
    have hlt : i < u.length := Nat.lt_of_not_le hi
    rw [List.getElem?_append_left hlt] at hx
    rw [List.take_append_of_le_length hlt.le] at hxm
    exact not_repeatedAt_of_nodup hu i ⟨x, hx, hxm⟩

theorem firstRepeated_eq_some_iff :
    firstRepeated names = some name ↔
      ∃ j, IsLeast {i | RepeatedAt names i} j ∧ names[j]? = some name := by
  constructor
  · intro h
    obtain ⟨u, rest, rfl, hu, hm⟩ := firstRepeated_eq_some h
    exact ⟨u.length, isLeast_repeatedAt hu hm rest, by simp⟩
  · rintro ⟨j, hj, hn⟩
    cases hf : firstRepeated names with
    | none => exact absurd hj.1 (not_repeatedAt_of_nodup (firstRepeated_eq_none_iff.mp hf) j)
    | some p =>
      obtain ⟨u, rest, rfl, hu, hm⟩ := firstRepeated_eq_some hf
      obtain rfl := (isLeast_repeatedAt hu hm rest).unique hj
      simpa using hn

end Names

namespace Parser

variable {α : Type} {p : Scan α} {c c' c₁ : Cursor} {vs ws : List α}

/-- Where the parser cannot go on, its run is the longest: any other is the beginning of it. -/
theorem Steps.longest (h : Steps p c vs c') (hn : ∀ v c₂, p c' ≠ .ok (.success v c₂))
    (h' : Steps p c ws c₁) : ws <+: vs := by
  induction h generalizing ws with
  | nil c =>
    cases h' with
    | nil => exact List.nil_prefix
    | cons head' => exact absurd head' (hn _ _)
  | cons head _ _ ih =>
    cases h' with
    | nil => exact List.nil_prefix
    | cons head' _ tail' =>
      obtain ⟨rfl, rfl⟩ := Outcome.success.inj (Except.ok.inj (head.symm.trans head'))
      exact List.cons_prefix_cons.mpr ⟨rfl, ih hn tail'⟩

end Parser

namespace Grammar

open Woof.Parser Woof.Syntax

variable {a : Alphabet} {c c' : Cursor} {names : List String}

/-- The longest run of symbols at a place, and the place behind it. -/
structure LongestRun (a : Alphabet) (c : Cursor) (names : List String) (c' : Cursor) : Prop where
  run : Steps (symbol a) c names c'
  longest : ∀ others c₁, Steps (symbol a) c others c₁ → others <+: names

theorem longestRun_of_failure (h : Steps (symbol a) c names c')
    (hf : symbol a c' = .ok .failure) : LongestRun a c names c' :=
  ⟨h, fun _ _ h' => h.longest (by simp [hf]) h'⟩

theorem LongestRun.failure (h : LongestRun a c names c') : symbol a c' = .ok .failure := by
  cases hr : readSymbol a (skip a c'.remaining) with
  | none => exact (reads_symbol a).of_none hr
  | some r =>
    -- one more symbol would make a run that is longer
    have hs := (reads_symbol a).of_some hr
    have hl := (h.longest _ _ (h.run.append (.cons hs (consumes_symbol hs) (.nil _)))).length_le
    rw [List.length_append] at hl
    exact absurd hl (Nat.not_succ_le_self _)

theorem exists_longestRun (a : Alphabet) (c : Cursor) : ∃ names c', LongestRun a c names c' := by
  obtain ⟨names, c', h, hn⟩ := exists_steps (fun h => consumes_symbol h) c
  exact ⟨names, c', h, fun _ _ h' => h.longest hn h'⟩

/-- In the language itself the runs of symbols are those of its grammar. -/
theorem LongestRun.symbols (h : LongestRun .woof c names c') :
    Symbols names c.text c'.text ∧
      ∀ others s, Symbols others c.text s → others <+: names := by
  refine ⟨symbols_sound h.run, fun others s hs => ?_⟩
  obtain ⟨c₁, h₁, -⟩ := symbols_complete hs
  exact h.longest others c₁ h₁

/-- The first repeated name is the one at the least index whose name occurs before it, and there is
none just if all names are different. So the parameters at a place are the longest run of symbols
there, whatever stands behind it, if these are all different; otherwise it is an error at the given
location, and never a failure. -/
theorem parameters_distinct :
    (∀ names : List String,
      (firstRepeated names = none ↔ names.Nodup) ∧
      ∀ name, firstRepeated names = some name ↔
        ∃ j, IsLeast {i | RepeatedAt names i} j ∧ names[j]? = some name) ∧
    (∀ (a : Alphabet) (c : Cursor),
      (∀ place, parameters a place c ≠ .ok .failure) ∧
      (∃ names c', LongestRun a c names c') ∧
      ∀ names c', LongestRun a c names c' → ∀ place, parameters a place c =
        .ok (if names.Nodup then .success names c'
          else .error ⟨.lambdaDuplicateParameters, place⟩)) ∧
    ∀ c names c', LongestRun .woof c names c' →
      Symbols names c.text c'.text ∧ ∀ others s, Symbols others c.text s → others <+: names := by
  refine ⟨fun names => ⟨firstRepeated_eq_none_iff, fun name => firstRepeated_eq_some_iff⟩, ?_,
    fun c names c' => LongestRun.symbols⟩
  intro a c
  exact ⟨fun place => committed_parameters a place c, exists_longestRun a c,
    fun names c' h place => parameters_of_steps place h.run h.failure⟩

/-- Of two names that occur twice, the one that is found is the one repeated first. What stands
behind the symbols is not looked at. -/
theorem parameters_distinct_interleaved :
    let c := Cursor.ofText "x y;\n y x("
    let names := ["x", "y", "y", "x"]
    let place : Location := ⟨"\x7b", 1, 1⟩
    (∃ j, IsLeast {i | RepeatedAt names i} j ∧ names[j]? = some "y") ∧
    (∃ c', LongestRun .woof c names c' ∧ Symbols names c.text c'.text ∧ c'.text = ['(']) ∧
    parameters .woof place c = .ok (.error ⟨.lambdaDuplicateParameters, place⟩) := by
  intro c names place
  let c₁ : Cursor := ⟨c.tokens, 1, by decide⟩
  let c₂ : Cursor := ⟨c.tokens, 3, by decide⟩
  let c₃ : Cursor := ⟨c.tokens, 7, by decide⟩
  let c' : Cursor := ⟨c.tokens, 9, by decide⟩
  have h₁ : symbol .woof c = .ok (.success "x" c₁) := by cbv
  have h₂ : symbol .woof c₁ = .ok (.success "y" c₂) := by cbv
  have h₃ : symbol .woof c₂ = .ok (.success "y" c₃) := by cbv
  have h₄ : symbol .woof c₃ = .ok (.success "x" c') := by cbv
  have hs : Steps (symbol .woof) c names c' :=
    .cons h₁ (by decide) (.cons h₂ (by decide) (.cons h₃ (by decide)
      (.cons h₄ (by decide) (.nil c'))))
  have hr : LongestRun .woof c names c' := longestRun_of_failure hs (by cbv)
  obtain ⟨hn, hp, hw⟩ := parameters_distinct
  refine ⟨((hn names).2 "y").mp (by decide), ⟨c', hr, (hw c names c' hr).1, by decide⟩, ?_⟩
  rw [(hp .woof c).2.2 names c' hr place, if_neg (by decide)]

end Grammar

end Woof

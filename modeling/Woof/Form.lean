namespace Woof

/-- A form of the language. A program is a list of forms. -/
inductive Form where
  | number (value : Int)
  | symbol (name : String)
  | string (text : String)
  /-- A function of the named parameters; a body read from a text is never empty. -/
  | lambda (params : List String) (body : List Form)
  | define (doc : Option String) (name : String) (value : Form)
  | application (operator : Form) (operands : List Form)

namespace Form

mutual

private def same : Form → Form → Bool
  | number m, number n => m == n
  | symbol s, symbol t => s == t
  | string s, string t => s == t
  | lambda ps fs, lambda qs gs => ps == qs && sameAll fs gs
  | define d s f, define e t g => d == e && s == t && same f g
  | application f fs, application g gs => same f g && sameAll fs gs
  | _, _ => false

private def sameAll : List Form → List Form → Bool
  | [], [] => true
  | f :: fs, g :: gs => same f g && sameAll fs gs
  | _, _ => false

end

mutual

private theorem same_iff : (f g : Form) → (same f g = true ↔ f = g)
  | number _, g => by cases g <;> simp [same]
  | symbol _, g => by cases g <;> simp [same]
  | string _, g => by cases g <;> simp [same]
  | lambda _ fs, g => by
    cases g with
    | lambda _ gs => simp [same, sameAll_iff fs gs]
    | _ => simp [same]
  | define _ _ f, g => by
    cases g with
    | define _ _ g => simp [same, same_iff f g, and_assoc]
    | _ => simp [same]
  | application f fs, g => by
    cases g with
    | application g gs => simp [same, same_iff f g, sameAll_iff fs gs]
    | _ => simp [same]

private theorem sameAll_iff : (fs gs : List Form) → (sameAll fs gs = true ↔ fs = gs)
  | [], gs => by cases gs <;> simp [sameAll]
  | f :: fs, gs => by
    cases gs with
    | nil => simp [sameAll]
    | cons g gs => simp [sameAll, same_iff f g, sameAll_iff fs gs]

end

instance : DecidableEq Form := fun f g => decidable_of_iff (same f g = true) (same_iff f g)

end Form

/-- How many forms may be nested in one another, the outermost included. -/
def nestingLimit : Nat := 400

/-- The first name that occurs among those before it, after the given names were seen. -/
def firstRepeatedAfter (seen : List String) : List String → Option String
  | [] => none
  | name :: rest => if name ∈ seen then some name else firstRepeatedAfter (name :: seen) rest

def firstRepeated (names : List String) : Option String := firstRepeatedAfter [] names

theorem firstRepeatedAfter_eq_none_iff {seen names : List String} :
    firstRepeatedAfter seen names = none ↔ names.Nodup ∧ ∀ name ∈ names, name ∉ seen := by
  induction names generalizing seen with
  | nil => simp [firstRepeatedAfter]
  | cons name rest ih =>
    by_cases h : name ∈ seen
    · simp [firstRepeatedAfter, h]
    · simp only [firstRepeatedAfter, h, if_false, ih, List.nodup_cons, List.mem_cons, not_or,
        forall_eq_or_imp, not_false_iff, true_and]
      constructor
      · rintro ⟨hn, hs⟩
        exact ⟨⟨fun hm => (hs name hm).1 rfl, hn⟩, fun n hm => (hs n hm).2⟩
      · rintro ⟨⟨hm, hn⟩, hs⟩
        exact ⟨hn, fun n hr => ⟨fun e => hm (e ▸ hr), hs n hr⟩⟩

theorem firstRepeated_eq_none_iff {names : List String} :
    firstRepeated names = none ↔ names.Nodup := by
  simp [firstRepeated, firstRepeatedAfter_eq_none_iff]

/-- What was seen before and stands among the names, or stands among them twice. -/
theorem firstRepeatedAfter_eq_some {seen names : List String} {p : String} (hs : seen.Nodup)
    (h : firstRepeatedAfter seen names = some p) :
    ∃ u rest, names = u ++ p :: rest ∧ (seen ++ u).Nodup ∧ p ∈ seen ++ u := by
  induction names generalizing seen with
  | nil => cases h
  | cons name names ih =>
    by_cases hn : name ∈ seen
    · rw [firstRepeatedAfter, if_pos hn] at h
      obtain rfl := Option.some.inj h
      exact ⟨[], names, rfl, by simpa using hs, by simpa using hn⟩
    · rw [firstRepeatedAfter, if_neg hn] at h
      obtain ⟨u, rest, rfl, hd, hp⟩ := ih (List.nodup_cons.mpr ⟨hn, hs⟩) h
      have he : (name :: seen ++ u).Perm (seen ++ name :: u) := List.perm_middle.symm
      exact ⟨name :: u, rest, rfl, he.nodup_iff.mp hd, he.mem_iff.mp hp⟩

/-- The first name that is among those before it. -/
theorem firstRepeated_eq_some {names : List String} {p : String}
    (h : firstRepeated names = some p) :
    ∃ u rest, names = u ++ p :: rest ∧ u.Nodup ∧ p ∈ u := by
  simpa using firstRepeatedAfter_eq_some List.nodup_nil h

end Woof

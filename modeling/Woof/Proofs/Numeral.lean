import Woof.Numeral

namespace Woof.Numeral

open Nat (ofDigitChars toDigits)

theorem decimalDigit?_of_isDigit {c : Char} (h : c.isDigit = true) :
    Text.decimalDigit? c = some (c.toNat - '0'.toNat) := by
  have hb := Char.isDigit_iff_toNat.mp h
  have h0 : '0'.toNat = 48 := rfl
  have h9 : '9'.toNat = 57 := rfl
  rw [h0, h9] at hb
  have hf : (decide (0x30 ≤ c.toNat) && decide (c.toNat < 0x30 + 10)) = true := by
    simp only [Bool.and_eq_true, decide_eq_true_eq]
    omega
  have hz : Text.zeros = 0x30 :: Text.zeros.tail := rfl
  rw [Text.decimalDigit?, hz, List.find?_cons, hf]
  rfl

theorem not_isBlank_of_isDigit {c : Char} (h : c.isDigit = true) : Text.isBlank c = false := by
  have hb := Char.isDigit_iff_toNat.mp h
  have h0 : '0'.toNat = 48 := rfl
  have h9 : '9'.toNat = 57 := rfl
  rw [h0, h9] at hb
  simp only [Text.isBlank, List.contains_eq_mem, decide_eq_false_iff_not, List.mem_cons,
    List.not_mem_nil, or_false]
  omega

/-- Digits continue a number by what they are worth. -/
theorem readMore_of_digits {cs : List Char} (h : ∀ c ∈ cs, c.isDigit = true) (value : Nat) :
    readMore value cs = some (ofDigitChars 10 cs value) := by
  induction cs generalizing value with
  | nil => rfl
  | cons c cs ih =>
    have hc := h c (by simp)
    have hu : c ≠ '_' := by
      rintro rfl
      revert hc
      decide
    rw [readMore.eq_3 _ _ _ (fun _ _ e _ => hu e), decimalDigit?_of_isDigit hc]
    simp only [Option.bind_eq_bind, Option.bind_some]
    rw [ih (fun d hd => h d (by simp [hd])), Nat.ofDigitChars_cons]

theorem strip_of_digits {cs : List Char} (h : ∀ c ∈ cs, c.isDigit = true) : strip cs = cs := by
  have hd {ds : List Char} (hs : ∀ c ∈ ds, c.isDigit = true) : ds.dropWhile Text.isBlank = ds := by
    cases ds with
    | nil => rfl
    | cons c ds =>
      rw [List.dropWhile_cons_of_neg]
      simp [not_isBlank_of_isDigit (hs c (by simp))]
  rw [strip, hd h, hd fun c hc => h c (List.mem_reverse.mp hc), List.reverse_reverse]

theorem readSigned_of_digits {cs : List Char} (h : ∀ c ∈ cs, c.isDigit = true) (hn : cs ≠ []) :
    readSigned cs = some ((ofDigitChars 10 cs 0 : Nat) : Int) := by
  cases cs with
  | nil => exact absurd rfl hn
  | cons c cs =>
    have hc := h c (by simp)
    have hm : c ≠ '-' := by
      rintro rfl
      revert hc
      decide
    have hp : c ≠ '+' := by
      rintro rfl
      revert hc
      decide
    have hs : readSigned (c :: cs) = (readUnsigned (c :: cs)).map Int.ofNat :=
      readSigned.eq_3 _ (fun _ e => hm (List.cons.inj e).1) (fun _ e => hp (List.cons.inj e).1)
    have hu : readUnsigned (c :: cs) = some (ofDigitChars 10 (c :: cs) 0) := by
      rw [readUnsigned, decimalDigit?_of_isDigit hc]
      simp only [Option.bind_eq_bind, Option.bind_some]
      rw [readMore_of_digits (fun d hd => h d (by simp [hd])), Nat.ofDigitChars_cons]
      simp
    rw [hs, hu]
    rfl

theorem countP_of_digits {cs : List Char} (h : ∀ c ∈ cs, c.isDigit = true) :
    (cs.countP fun c => (Text.decimalDigit? c).isSome) = cs.length := by
  rw [List.countP_eq_length]
  intro c hc
  rw [decimalDigit?_of_isDigit (h c hc)]
  rfl

/-- A group of digits stands for their decimal value, if it is converted at all. -/
theorem readGroup_of_digits {cs : List Char} (h : ∀ c ∈ cs, c.isDigit = true) (hn : cs ≠ [])
    (limit : Nat) :
    readGroup limit cs =
      if cs.length ≤ limit then .ok ((ofDigitChars 10 cs 0 : Nat) : Int)
      else .error (.oversized cs.length) := by
  rw [readGroup, countP_of_digits h, strip_of_digits h, readSigned_of_digits h hn]
  by_cases hl : cs.length ≤ limit
  · simp [hl, Nat.not_lt.mpr hl]
  · simp [hl, Nat.not_le.mp hl]

/-- The groups that a text is read in, from its front. The last one may be shorter. -/
def groups (text : List Char) : List (List Char) :=
  (List.range ((text.length + (groupSize - 1)) / groupSize)).map fun j =>
    (text.drop (groupSize * j)).take groupSize

theorem groups_of_ne_nil {text : List Char} (h : text ≠ []) :
    groups text = text.take groupSize :: groups (text.drop groupSize) := by
  have hp := List.length_pos_iff.mpr h
  have hc : (text.length + (groupSize - 1)) / groupSize =
      ((text.drop groupSize).length + (groupSize - 1)) / groupSize + 1 := by
    simp only [List.length_drop, groupSize]
    omega
  rw [groups, hc, List.range_succ_eq_map, List.map_cons, List.map_map, groups]
  have hd (j : Nat) : text.drop (groupSize * (j + 1)) =
      (text.drop groupSize).drop (groupSize * j) := by
    rw [List.drop_drop, Nat.mul_succ, Nat.add_comm]
  simp only [Function.comp_def, Nat.succ_eq_add_one, hd, Nat.mul_zero, List.drop_zero]

theorem length_le_of_mem_groups {text group : List Char} (h : group ∈ groups text) :
    group.length ≤ groupSize := by
  obtain ⟨j, -, rfl⟩ := List.mem_map.mp h
  exact List.length_take_le _ _

theorem flatten_groups (text : List Char) :
    (groups text).flatten = text ∧ ∀ group ∈ groups text, group ≠ [] := by
  induction hl : text.length using Nat.strongRecOn generalizing text with
  | ind n ih =>
    by_cases hn : text = []
    · subst hn
      exact ⟨by simp [groups, groupSize], by simp [groups, groupSize]⟩
    · have hp := List.length_pos_iff.mpr hn
      have hlt : (text.drop groupSize).length < n := by
        simp only [List.length_drop, groupSize]
        omega
      obtain ⟨hf, hne⟩ := ih _ hlt _ rfl
      rw [groups_of_ne_nil hn, List.flatten_cons, hf, List.forall_mem_cons]
      exact ⟨List.take_append_drop _ _, by simp [groupSize, hn], hne⟩

/-- Continues a number with one group, which is converted in one piece of at most so many digits. -/
def addGroup (limit : Nat) (value : Int) (group : List Char) : Except Unreadable Int :=
  (readGroup limit group).map (value * Nat.pow 10 group.length + ·)

/-- A text is read by converting its groups one after another. -/
theorem readFrom_eq_foldlM (limit : Nat) (value : Int) (text : List Char) :
    readFrom limit value text = (groups text).foldlM (addGroup limit) value := by
  fun_induction readFrom limit value text with
  | case1 value => rfl
  | case2 value c cs group ih =>
    rw [groups_of_ne_nil (by simp), List.foldlM_cons, addGroup]
    cases readGroup limit group with
    | error e => rfl
    | ok n => exact ih n

theorem addGroup_of_digits {cs : List Char} (h : ∀ c ∈ cs, c.isDigit = true) (hn : cs ≠ [])
    (limit value : Nat) :
    addGroup limit value cs =
      if cs.length ≤ limit then .ok ((ofDigitChars 10 cs value : Nat) : Int)
      else .error (.oversized cs.length) := by
  have hv : ofDigitChars 10 cs value = value * 10 ^ cs.length + ofDigitChars 10 cs 0 := by
    rw [Nat.ofDigitChars_eq_ofDigitChars_zero, Nat.mul_comm]
  rw [addGroup, readGroup_of_digits h hn, hv]
  by_cases hl : cs.length ≤ limit <;> simp [hl, Except.map]

theorem foldlM_addGroup_of_digits {gs : List (List Char)}
    (h : ∀ group ∈ gs, group ≠ [] ∧ ∀ c ∈ group, c.isDigit = true) (limit value : Nat) :
    (∀ group ∈ gs, group.length ≤ limit) ∧
        gs.foldlM (addGroup limit) value = .ok ((ofDigitChars 10 gs.flatten value : Nat) : Int) ∨
      ∃ group ∈ gs, limit < group.length ∧
        gs.foldlM (addGroup limit) (value : Int) = .error (.oversized group.length) := by
  induction gs generalizing value with
  | nil => exact .inl ⟨by simp, rfl⟩
  | cons g gs ih =>
    obtain ⟨⟨hne, hd⟩, hgs⟩ := List.forall_mem_cons.mp h
    rw [List.foldlM_cons, addGroup_of_digits hd hne, List.forall_mem_cons]
    by_cases hl : g.length ≤ limit
    · rw [if_pos hl, List.flatten_cons, Nat.ofDigitChars_append]
      rcases ih hgs (ofDigitChars 10 g value) with ⟨hall, hread⟩ | ⟨group, hm, hover, hread⟩
      · exact .inl ⟨⟨hl, hall⟩, hread⟩
      · exact .inr ⟨group, List.mem_cons_of_mem g hm, hover, hread⟩
    · rw [if_neg hl]
      exact .inr ⟨g, List.mem_cons_self, Nat.lt_of_not_le hl, rfl⟩

/-- The groups of a run of digits add up to its decimal value, however long the run is, if each of
them is converted. -/
theorem readFrom_of_digits {cs : List Char} (h : ∀ c ∈ cs, c.isDigit = true) (limit value : Nat) :
    (∀ group ∈ groups cs, group.length ≤ limit) ∧
        readFrom limit value cs = .ok ((ofDigitChars 10 cs value : Nat) : Int) ∨
      ∃ group ∈ groups cs, limit < group.length ∧
        readFrom limit value cs = .error (.oversized group.length) := by
  obtain ⟨hf, hne⟩ := flatten_groups cs
  have hd : ∀ group ∈ groups cs, group ≠ [] ∧ ∀ c ∈ group, c.isDigit = true := by
    intro group hg
    refine ⟨hne group hg, fun c hc => h c ?_⟩
    rw [← hf]
    exact List.mem_flatten.mpr ⟨group, hg, hc⟩
  have hr := foldlM_addGroup_of_digits hd limit value
  rwa [← readFrom_eq_foldlM, hf] at hr

theorem groupSize_le_conversionLimit : groupSize ≤ conversionLimit := by decide

/-- Groups are small enough to be converted, so that digits are read as what they are worth. -/
theorem readWithin_of_digits {text : String} (h : ∀ c ∈ text.toList, c.isDigit = true)
    {limit : Nat} (hl : groupSize ≤ limit) :
    readWithin limit text = .ok ((ofDigitChars 10 text.toList 0 : Nat) : Int) := by
  rcases readFrom_of_digits h limit 0 with ⟨-, hread⟩ | ⟨group, hm, hover, -⟩
  · exact hread
  · have hg := length_le_of_mem_groups hm
    omega

theorem read_of_digits {text : String} (h : ∀ c ∈ text.toList, c.isDigit = true) :
    read text = .ok ((ofDigitChars 10 text.toList 0 : Nat) : Int) :=
  readWithin_of_digits h groupSize_le_conversionLimit

section Writing

theorem groupBase_eq : groupBase = Nat.pow 10 groupSize := by
  unfold groupBase
  rfl

/-- A number below the group base has no more digits than a group. -/
theorem length_toDigits_le {n : Nat} (h : n < groupBase) :
    (toDigits 10 n).length ≤ groupSize := by
  have hs : 0 < groupSize := by decide
  rw [groupBase_eq] at h
  -- for any size, as powers of the real one are too large to be looked into
  generalize groupSize = s at hs h ⊢
  rw [Nat.pow_eq] at h
  exact (Nat.length_toDigits_le_iff (by decide) hs).mpr h

theorem toDigits_of_isDigit {d : Char} (h : d.isDigit = true) :
    d.toNat - '0'.toNat < 10 ∧ toDigits 10 (d.toNat - '0'.toNat) = [d] := by
  have hb := Char.isDigit_iff_toNat.mp h
  have h0 : '0'.toNat = 48 := rfl
  have h9 : '9'.toNat = 57 := rfl
  rw [h0, h9] at hb
  have hlt : d.toNat - '0'.toNat < 10 := by omega
  refine ⟨hlt, ?_⟩
  have hc : Nat.digitChar (d.toNat - '0'.toNat) = d := by
    apply Char.toNat_inj.mp
    rw [Nat.toNat_digitChar_of_lt_ten hlt]
    omega
  rw [Nat.toDigits_of_lt_base hlt, hc]

/-- Digits that continue a number other than zero stand behind its own digits. -/
theorem toDigits_ofDigitChars {cs : List Char} (h : ∀ c ∈ cs, c.isDigit = true) {value : Nat}
    (hv : 0 < value) : toDigits 10 (ofDigitChars 10 cs value) = toDigits 10 value ++ cs := by
  induction cs generalizing value with
  | nil => simp [ofDigitChars]
  | cons c cs ih =>
    obtain ⟨hlt, hd⟩ := toDigits_of_isDigit (h c List.mem_cons_self)
    have ha := Nat.toDigits_append_toDigits (by decide) hv hlt
    have hr := ih (fun d hd => h d (List.mem_cons_of_mem c hd))
      (show 0 < 10 * value + (c.toNat - '0'.toNat) by omega)
    rw [Nat.ofDigitChars_cons, hr, ← ha, hd, List.append_assoc, List.singleton_append]

theorem isDigit_of_mem_fill {group : List Char} (h : ∀ c ∈ group, c.isDigit = true) {c : Char}
    (hc : c ∈ fill group) : c.isDigit = true := by
  rcases List.mem_append.mp hc with hz | hd
  · rw [List.eq_of_mem_replicate hz]
    rfl
  · exact h c hd

theorem length_fill {group : List Char} (h : group.length ≤ groupSize) :
    (fill group).length = groupSize := by
  rw [fill, List.length_append, List.length_replicate]
  omega

/-- The digits of the last group of a number, behind those of all that is before it. -/
theorem toDigits_lastGroup {n : Nat} (h : groupBase ≤ n) :
    toDigits 10 (n / groupBase) ++ fill (toDigits 10 (n % groupBase)) = toDigits 10 n := by
  have hb : 0 < groupBase := Nat.lt_trans Nat.zero_lt_one one_lt_groupBase
  have hq : 0 < n / groupBase := Nat.div_pos h hb
  have hl := length_toDigits_le (Nat.mod_lt n hb)
  have hd : ∀ c ∈ fill (toDigits 10 (n % groupBase)), c.isDigit = true := fun c =>
    isDigit_of_mem_fill fun d => Nat.isDigit_of_mem_toDigits (by decide) (by decide)
  have hz : ofDigitChars 10 (fill (toDigits 10 (n % groupBase))) 0 = n % groupBase := by
    rw [fill, Nat.ofDigitChars_append, Nat.ofDigitChars_replicate_zero, Nat.mul_zero,
      Nat.ofDigitChars_ten_toDigits]
  have hv : ofDigitChars 10 (fill (toDigits 10 (n % groupBase))) (n / groupBase) = n := by
    rw [Nat.ofDigitChars_eq_ofDigitChars_zero, hz, length_fill hl, ← Nat.pow_eq, ← groupBase_eq]
    exact Nat.div_add_mod n groupBase
  rw [← toDigits_ofDigitChars hd hq, hv]

/-- The numbers that are converted to write a number, from its high end: its groups. -/
def pieces (n : Nat) : List Nat :=
  if n < groupBase then [n] else pieces (n / groupBase) ++ [n % groupBase]
termination_by n
decreasing_by
  have hb := one_lt_groupBase
  exact Nat.div_lt_self (by omega) hb

theorem lt_of_mem_pieces {n m : Nat} (h : m ∈ pieces n) : m < groupBase := by
  fun_induction pieces n with
  | case1 n hn =>
    obtain rfl := List.mem_singleton.mp h
    exact hn
  | case2 n hn ih =>
    rcases List.mem_append.mp h with hq | hr
    · exact ih hq
    · obtain rfl := List.mem_singleton.mp hr
      exact Nat.mod_lt _ (Nat.lt_trans Nat.zero_lt_one one_lt_groupBase)

theorem convertWithin_natCast (limit n : Nat) :
    convertWithin limit (n : Nat) =
      if (toDigits 10 n).length ≤ limit then .ok (toDigits 10 n) else .error {} := rfl

/-- A number is written as its decimal digits, if each of its groups is converted. -/
theorem digitsWithin_eq (limit n : Nat) :
    digitsWithin limit n =
      if ∀ m ∈ pieces n, (toDigits 10 m).length ≤ limit then .ok (toDigits 10 n)
      else .error {} := by
  fun_induction pieces n with
  | case1 n hn =>
    rw [digitsWithin, if_pos hn, convertWithin_natCast]
    simp
  | case2 n hn ih =>
    rw [digitsWithin, if_neg hn, convertWithin_natCast, ih]
    simp only [List.forall_mem_append, List.forall_mem_singleton]
    by_cases hr : (toDigits 10 (n % groupBase)).length ≤ limit
    · by_cases hq : ∀ m ∈ pieces (n / groupBase), (toDigits 10 m).length ≤ limit
      · rw [if_pos hr, if_pos hq, if_pos ⟨hq, hr⟩, ← toDigits_lastGroup (Nat.le_of_not_lt hn)]
        rfl
      · rw [if_pos hr, if_neg hq, if_neg (mt And.left hq)]
        rfl
    · rw [if_neg hr, if_neg (mt And.right hr)]
      rfl

theorem writeWithin_natCast (limit n : Nat) :
    writeWithin limit n =
      if ∀ m ∈ pieces n, (toDigits 10 m).length ≤ limit then .ok (String.ofList (toDigits 10 n))
      else .error {} := by
  have hw : writeWithin limit n = (digitsWithin limit n).map String.ofList := rfl
  rw [hw, digitsWithin_eq]
  split <;> rfl

theorem length_le_of_mem_pieces {n m : Nat} (h : m ∈ pieces n) :
    (toDigits 10 m).length ≤ groupSize :=
  length_toDigits_le (lt_of_mem_pieces h)

/-- Groups are small enough to be converted. -/
theorem write_natCast (n : Nat) : write n = .ok (String.ofList (toDigits 10 n)) := by
  rw [write, writeWithin_natCast, if_pos]
  exact fun m hm => Nat.le_trans (length_le_of_mem_pieces hm) groupSize_le_conversionLimit

end Writing

end Woof.Numeral

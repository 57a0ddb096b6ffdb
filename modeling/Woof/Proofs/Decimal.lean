import Woof.Proofs.Numeral

namespace Woof.Numeral

open Nat (ofDigitChars toDigits)

section Canonical

/-- The digits without the zeros in front of them; the last digit stays. -/
def trimZeros : List Char → List Char
  | '0' :: d :: ds => trimZeros (d :: ds)
  | ds => ds

theorem head_toDigits_ne_zero {n : Nat} (h : 0 < n) : (toDigits 10 n).head? ≠ some '0' := by
  induction n using Nat.strongRecOn with
  | ind n ih =>
    by_cases hn : n < 10
    · rw [Nat.toDigits_of_lt_base hn]
      simpa using Nat.pos_iff_ne_zero.mp h
    · have hq := ih (n / 10) (by omega) (by omega)
      rw [Nat.toDigits_of_base_le (by decide) (Nat.le_of_not_lt hn)]
      cases hd : toDigits 10 (n / 10) with
      | nil => exact absurd hd Nat.toDigits_ne_nil
      | cons d ds =>
        rw [hd] at hq
        exact hq

/-- Of the digits of a number, only zeros in front are lost. -/
theorem toDigits_eq_trimZeros {ds : List Char} (h : ∀ d ∈ ds, d.isDigit = true) (hne : ds ≠ []) :
    toDigits 10 (ofDigitChars 10 ds 0) = trimZeros ds := by
  fun_induction trimZeros ds with
  | case1 d ds ih =>
    rw [Nat.ofDigitChars_cons]
    exact ih (fun x hx => h x (List.mem_cons_of_mem _ hx)) (by simp)
  | case2 ds hz =>
    obtain ⟨d, ds, rfl⟩ := List.exists_cons_of_ne_nil hne
    obtain ⟨hlt, hd⟩ := toDigits_of_isDigit (h d List.mem_cons_self)
    rw [Nat.ofDigitChars_cons, Nat.mul_zero, Nat.zero_add]
    by_cases h0 : d.toNat - '0'.toNat = 0
    · rw [h0, Nat.toDigits_zero] at hd
      obtain rfl : '0' = d := (List.cons.inj hd).1
      cases ds with
      | nil => rfl
      | cons e es => exact absurd rfl (hz e es)
    · rw [toDigits_ofDigitChars (fun x hx => h x (List.mem_cons_of_mem d hx)) (by omega), hd]
      rfl

end Canonical

section Conversions

/-- A group is converted alike under all limits that are no less than its size. -/
theorem readGroup_of_length_le {limit : Nat} {group : List Char} (h : group.length ≤ limit) :
    readGroup limit group = readGroup group.length group := by
  have hc : (group.countP fun c => (Text.decimalDigit? c).isSome) ≤ group.length :=
    List.countP_le_length
  rw [readGroup, readGroup, if_neg (by omega), if_neg (by omega)]

theorem readWithin_of_groupSize_le {limit : Nat} (h : groupSize ≤ limit) (text : String) :
    readWithin limit text = readWithin groupSize text := by
  rw [readWithin, readWithin, readFrom_eq_foldlM, readFrom_eq_foldlM]
  have hg : ∀ group ∈ groups text.toList, group.length ≤ groupSize := fun group =>
    length_le_of_mem_groups
  generalize groups text.toList = gs at hg
  generalize (0 : Int) = value
  induction gs generalizing value with
  | nil => rfl
  | cons g gs ih =>
    obtain ⟨hl, hgs⟩ := List.forall_mem_cons.mp hg
    have ha : addGroup limit value g = addGroup groupSize value g := by
      rw [addGroup, addGroup, readGroup_of_length_le (Nat.le_trans hl h),
        readGroup_of_length_le hl]
    rw [List.foldlM_cons, List.foldlM_cons, ha]
    cases addGroup groupSize value g with
    | error e => rfl
    | ok m => exact ih hgs m

/-- What is left of a number after some rounds, each of which takes a group off its low end. -/
def leftAfter (n : Nat) : Nat → Nat
  | 0 => n
  | j + 1 => leftAfter (n / groupBase) j

/-- The rounds come to an end. The pieces of a number are what is left then and, behind it, the
groups that were taken off. -/
theorem exists_rounds (n : Nat) :
    ∃ k, (∀ j < k, groupBase ≤ leftAfter n j) ∧ leftAfter n k < groupBase ∧
      pieces n = leftAfter n k :: (List.range k).reverse.map fun j => leftAfter n j % groupBase := by
  fun_induction pieces n with
  | case1 n hn => exact ⟨0, by simp, hn, by simp [leftAfter]⟩
  | case2 n hn ih =>
    obtain ⟨k, hj, hk, he⟩ := ih
    refine ⟨k + 1, ?_, hk, ?_⟩
    · intro j hlt
      cases j with
      | zero => exact Nat.le_of_not_lt hn
      | succ j => exact hj j (Nat.lt_of_succ_lt_succ hlt)
    · rw [he, List.range_succ_eq_map, List.reverse_cons, List.map_append, ← List.map_reverse,
        List.map_map]
      simp [leftAfter, Function.comp_def]

end Conversions

/-- Numbers are read and written exactly, however many groups they take: digits are worth their
decimal value, a number is written as its decimal digits, and the two are inverse to each other but
for zeros in front. Writing takes so many rounds and no more. Nothing of more than one group is
converted in one piece: with any limit on what is converted, reading and writing fail just where a
group has more digits than that, and no group has more than four thousand. -/
theorem read_write_decimal (n : Nat) {ds : String} (h : ∀ d ∈ ds.toList, d.isDigit = true) :
    (read ds = .ok (ofDigitChars 10 ds.toList 0 : Nat) ∧
      (ds ≠ "" →
        write (ofDigitChars 10 ds.toList 0 : Nat) = .ok (String.ofList (trimZeros ds.toList)))) ∧
    (∃ text, write n = .ok text ∧ text.toList = toDigits 10 n ∧
      (text.toList.head? = some '0' → n = 0) ∧ read text = .ok n) ∧
    (∀ (text : String) (limit : Nat),
      readWithin limit text = (groups text.toList).foldlM (addGroup limit) 0 ∧
      (∀ group ∈ groups text.toList, group.length ≤ 4000) ∧
      (4000 ≤ limit → readWithin limit text = readWithin 4000 text)) ∧
    (∀ limit, readWithin limit ds = .ok (ofDigitChars 10 ds.toList 0 : Nat) ↔
      ∀ group ∈ groups ds.toList, group.length ≤ limit) ∧
    ∃ k, (∀ j < k, groupBase ≤ leftAfter n j) ∧ leftAfter n k < groupBase ∧
      pieces n = leftAfter n k :: ((List.range k).reverse.map fun j => leftAfter n j % groupBase) ∧
      (∀ m ∈ pieces n, (toDigits 10 m).length ≤ 4000) ∧
      ∀ limit, writeWithin limit n =
        if ∀ m ∈ pieces n, (toDigits 10 m).length ≤ limit
        then .ok (String.ofList (toDigits 10 n)) else .error {} := by
  refine ⟨⟨read_of_digits h, ?_⟩, ⟨_, write_natCast n, String.toList_ofList, ?_, ?_⟩, ?_, ?_, ?_⟩
  · intro hne
    have hl : ds.toList ≠ [] := by simpa using hne
    rw [write_natCast, toDigits_eq_trimZeros h hl]
  · intro h0
    rw [String.toList_ofList] at h0
    rcases Nat.eq_zero_or_pos n with hz | hp
    · exact hz
    · exact absurd h0 (head_toDigits_ne_zero hp)
  · have hd : ∀ d ∈ (String.ofList (toDigits 10 n)).toList, d.isDigit = true := by
      rw [String.toList_ofList]
      exact fun d => Nat.isDigit_of_mem_toDigits (by decide) (by decide)
    rw [read_of_digits hd, String.toList_ofList, Nat.ofDigitChars_ten_toDigits]
  · intro text limit
    exact ⟨readFrom_eq_foldlM limit 0 text.toList, fun group => length_le_of_mem_groups,
      fun hl => readWithin_of_groupSize_le hl text⟩
  · intro limit
    rw [readWithin]
    rcases readFrom_of_digits h limit 0 with ⟨hall, hread⟩ | ⟨group, hm, hover, hread⟩
    · exact iff_of_true hread hall
    · refine iff_of_false ?_ fun hall => absurd (hall group hm) (Nat.not_le.mpr hover)
      intro hok
      cases hread.symm.trans hok
  · obtain ⟨k, hj, hk, he⟩ := exists_rounds n
    exact ⟨k, hj, hk, he, fun m => length_le_of_mem_pieces, fun limit => writeWithin_natCast limit n⟩

/-- Zeros in front are lost, and one of two zeros. -/
theorem read_write_decimal_zeros :
    read "00120" = .ok 120 ∧ write 120 = .ok "120" ∧ read "00" = .ok 0 ∧ write 0 = .ok "0" := by
  obtain ⟨⟨hr, hw⟩, -⟩ := @read_write_decimal 0 "00120" (by simp)
  obtain ⟨⟨hr₀, hw₀⟩, -⟩ := @read_write_decimal 0 "00" (by simp)
  exact ⟨hr, hw (by decide), hr₀, hw₀ (by decide)⟩

end Woof.Numeral

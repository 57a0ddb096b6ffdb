import Mathlib.Data.List.Chain
import Mathlib.Data.Prod.Lex
import Woof.Token

namespace Woof.Token

variable {α : Type}

/-- Where a token stands, in the order of the text. -/
def position (t : Token α) : Nat ×ₗ Nat := toLex (t.line, t.column)

variable [DecidableEq α]

/-- The index just behind the last newline of a text, or 0 if it has none. -/
def lineStart (newline : α) (s : List α) : Nat := s.length - s.reverse.idxOf newline

example : lineStart '\n' ['a', '\n', 'b', '\n', 'c', 'd'] = 4 := by decide

/-- The column of what stands behind a text that begins at the given column. -/
def columnBehind (newline : α) (column : Nat) (s : List α) : Nat :=
  if newline ∈ s then s.length - lineStart newline s + 1 else column + s.length

/-- The token once another text is put before its own. The first line of its text, its newline
included, then goes on the last line of the other. -/
def after (newline : α) (s : List α) (t : Token α) : Token α where
  symbol := t.symbol
  line := t.line + s.count newline
  column := if t.line = 1 then t.column + (s.length - lineStart newline s) else t.column

variable {newline : α} {line column : Nat}

theorem length_sub_lineStart (newline : α) (s : List α) :
    s.length - lineStart newline s = s.reverse.idxOf newline := by
  have h := List.idxOf_le_length (a := newline) (l := s.reverse)
  rw [List.length_reverse] at h
  rw [lineStart]
  omega

/-- A text that ends its last line leaves the columns behind it as they are. -/
theorem after_append_newline (s : List α) (t : Token α) :
    after newline (s ++ [newline]) t = { t with line := t.line + (s.count newline + 1) } := by
  have h := length_sub_lineStart newline (s ++ [newline])
  rw [List.reverse_concat, List.idxOf_cons_self] at h
  rw [after, h]
  simp

theorem columnBehind_one (newline : α) (s : List α) :
    columnBehind newline 1 s = s.length - lineStart newline s + 1 := by
  by_cases hs : newline ∈ s
  · rw [columnBehind, if_pos hs]
  · have hl := List.idxOf_eq_length (mt List.mem_reverse.mp hs)
    rw [columnBehind, if_neg hs, length_sub_lineStart, hl, List.length_reverse, Nat.add_comm]

theorem columnBehind_cons (x : α) (s : List α) :
    columnBehind newline column (x :: s) =
      columnBehind newline (if x = newline then 1 else column + 1) s := by
  by_cases hs : newline ∈ s
  · have hr : newline ∈ s.reverse := List.mem_reverse.mpr hs
    rw [columnBehind, if_pos (List.mem_cons_of_mem x hs), columnBehind, if_pos hs,
      length_sub_lineStart, length_sub_lineStart, List.reverse_cons, List.idxOf_append_of_mem hr]
  · have hr : newline ∉ s.reverse := mt List.mem_reverse.mp hs
    by_cases hx : x = newline
    · subst hx
      rw [if_pos rfl, columnBehind_one, columnBehind, if_pos List.mem_cons_self,
        length_sub_lineStart, length_sub_lineStart, List.reverse_cons,
        List.idxOf_append_of_notMem hr, List.idxOf_cons_self, List.idxOf_eq_length hr]
    · have hxs : newline ∉ x :: s := List.not_mem_cons_of_ne_of_not_mem (Ne.symm hx) hs
      rw [if_neg hx, columnBehind, if_neg hxs, columnBehind, if_neg hs, List.length_cons]
      omega

/-- The first text is tagged as if nothing followed, and the second from where the first one ends. -/
theorem tagFrom_append (newline : α) (line column : Nat) (s t : List α) :
    tagFrom newline line column (s ++ t) =
      tagFrom newline line column s ++
        tagFrom newline (line + s.count newline) (columnBehind newline column s) t := by
  induction s generalizing line column with
  | nil => simp [tagFrom, columnBehind]
  | cons x s ih =>
    by_cases hx : x = newline
    · have hl : line + 1 + s.count newline = line + (s.count newline + 1) := by omega
      simp [tagFrom, columnBehind_cons, hx, ih, hl]
    · simp [tagFrom, columnBehind_cons, hx, ih]

/-- The line and the column of a symbol are those behind the text before it. -/
theorem getElem?_tagFrom (newline : α) (line column : Nat) (text : List α) (i : Nat) :
    (tagFrom newline line column text)[i]? = text[i]?.map fun x =>
      ⟨x, line + (text.take i).count newline, columnBehind newline column (text.take i)⟩ := by
  rcases Nat.lt_or_ge i text.length with hi | hi
  · have hs : text = text.take i ++ text[i] :: text.drop (i + 1) := by simp
    have hl : (text.take i).length = i := List.length_take_of_le hi.le
    have ha := tagFrom_append newline line column (text.take i) (text[i] :: text.drop (i + 1))
    rw [← hs] at ha
    rw [ha, List.getElem?_append_right (by simp [hl]), List.getElem?_eq_getElem hi]
    simp [hl, tagFrom]
  · rw [List.getElem?_eq_none (by simpa using hi), List.getElem?_eq_none hi, Option.map_none]

theorem tag_eq_mapIdx (newline : α) (text : List α) :
    tag newline text = text.mapIdx fun i x =>
      ⟨x, 1 + (text.take i).count newline, i - lineStart newline (text.take i) + 1⟩ := by
  refine List.ext_getElem? fun i => ?_
  rw [tag, getElem?_tagFrom, List.getElem?_mapIdx, columnBehind_one]
  rcases Nat.lt_or_ge i text.length with hi | hi
  · rw [List.length_take_of_le hi.le]
  · rw [List.getElem?_eq_none hi, Option.map_none, Option.map_none]

theorem head?_tagFrom (newline : α) (line column : Nat) (text : List α) :
    (tagFrom newline line column text).head? = text.head?.map fun x => ⟨x, line, column⟩ := by
  cases text <;> rfl

/-- Each token stands further on than the one before it, in the same line or in the next. -/
theorem pairwise_position (newline : α) (line column : Nat) (text : List α) :
    ((tagFrom newline line column text).map position).Pairwise (· < ·) := by
  rw [← List.isChain_iff_pairwise]
  induction text generalizing line column with
  | nil => exact .nil
  | cons x text ih =>
    rw [tagFrom, List.map_cons]
    split
    · refine (ih (line + 1) 1).cons ?_
      simp [head?_tagFrom, position, Prod.Lex.toLex_lt_toLex]
    · refine (ih line (column + 1)).cons ?_
      simp [head?_tagFrom, position, Prod.Lex.toLex_lt_toLex]

/-- A text that begins so many lines and columns further on: a column counts from the beginning of
the text in its first line only. -/
theorem tagFrom_add (newline : α) (line column n k : Nat) (text : List α) :
    tagFrom newline (line + n) (column + k) text =
      (tagFrom newline line column text).map fun t =>
        ⟨t.symbol, t.line + n, if t.line = line then t.column + k else t.column⟩ := by
  refine List.ext_getElem? fun i => ?_
  rw [List.getElem?_map, getElem?_tagFrom, getElem?_tagFrom, Option.map_map]
  congr 1
  funext x
  by_cases hm : newline ∈ text.take i
  · have hc := List.count_pos_iff.mpr hm
    simp [columnBehind, hm, hc.ne', Nat.add_right_comm]
  · simp [columnBehind, hm, List.count_eq_zero.mpr hm, Nat.add_right_comm]

theorem tag_append (newline : α) (s t : List α) :
    tag newline (s ++ t) = tag newline s ++ (tag newline t).map (after newline s) := by
  rw [tag, tagFrom_append, columnBehind_one, Nat.add_comm (s.length - _), tagFrom_add]
  rfl

/-- A token stands in the line that the newlines before it make, as far from its beginning as there
are symbols since the last of them. So each token stands further on than all before it and no two
stand at one place; and behind another text a text is tagged as it is alone, but for the lines of
the other and for what its first line goes on. -/
theorem tag_positions (newline : α) :
    (∀ text, tag newline text = text.mapIdx fun i x =>
      ⟨x, 1 + (text.take i).count newline, i - lineStart newline (text.take i) + 1⟩) ∧
    (∀ text, ((tag newline text).map position).Pairwise (· < ·)) ∧
    (∀ text, ((tag newline text).map position).Nodup) ∧
    ∀ s t, tag newline (s ++ t) = tag newline s ++ (tag newline t).map (after newline s) := by
  refine ⟨tag_eq_mapIdx newline, pairwise_position newline 1 1, fun text => ?_, tag_append newline⟩
  exact (pairwise_position newline 1 1 text).imp ne_of_lt

-- The newline that begins the second text closes the line that the first one leaves open.
example : tag '\n' (['a'] ++ ['\n', 'b']) = [⟨'a', 1, 1⟩, ⟨'\n', 1, 2⟩, ⟨'b', 2, 1⟩] := by decide

end Woof.Token

import Mathlib.Tactic

/-! # Overwriting a part of a list

Writing `ys` into a list from some position on, perhaps beyond its end. A list that
is stored in pieces is overwritten piece by piece.
-/
namespace SOI.Splice
variable {α : Type*} {l m ys zs : List α} {o n : ℕ}

/-- The list with `ys` in place of what stood from position `o` on. -/
def splice (l : List α) (o : ℕ) (ys : List α) : List α := l.take o ++ (ys ++ l.drop (o + ys.length))

theorem splice_nil (l : List α) (o : ℕ) : splice l o [] = l := by
  simp [splice]

theorem getElem?_splice (h : o ≤ l.length) (k : ℕ) :
    (splice l o ys)[k]? = if k < o then l[k]? else if k < o + ys.length then ys[k - o]? else l[k]? := by
  have hlength : (l.take o).length = o := by rw [List.length_take, Nat.min_eq_left h]
  rw [splice, List.getElem?_append, List.getElem?_append, hlength]
  split_ifs with hfront hlow hmiddle hmiddle
  · rw [List.getElem?_take, if_pos hfront]
  · rfl
  · omega
  · omega
  · rw [List.getElem?_drop]
    congr 1
    omega

theorem splice_append_left (h : o + ys.length ≤ l.length) : splice (l ++ m) o ys = splice l o ys ++ m := by
  rw [splice, splice, List.take_append_of_le_length (by omega), List.drop_append_of_le_length h]
  simp

theorem splice_append_right (h : l.length ≤ o) : splice (l ++ m) o ys = l ++ splice m (o - l.length) ys := by
  have hsub : o + ys.length - l.length = o - l.length + ys.length := by omega
  rw [splice, splice, List.take_append, List.drop_append, List.take_of_length_le h,
    List.drop_eq_nil_of_le (by omega : l.length ≤ o + ys.length), List.nil_append, List.append_assoc, hsub]

theorem splice_across (h : o + ys.length = l.length) :
    splice (l ++ m) o (ys ++ zs) = splice l o ys ++ splice m 0 zs := by
  have hfront : (l ++ m).take o = l.take o := List.take_append_of_le_length (by omega)
  have hback : (l ++ m).drop (o + (ys ++ zs).length) = m.drop zs.length := by
    rw [List.length_append, ← Nat.add_assoc, h, List.drop_append, List.drop_eq_nil_of_le (by omega), List.nil_append,
      Nat.add_sub_cancel_left]
  rw [splice, splice, splice, hfront, hback, h, List.drop_length]
  simp

theorem splice_splice (h : o ≤ l.length) : splice (splice l o ys) (o + ys.length) zs = splice l o (ys ++ zs) := by
  have hlength : o + ys.length ≤ (splice l o ys).length := by
    rw [splice, List.length_append, List.length_append, List.length_take, Nat.min_eq_left h]
    omega
  refine List.ext_getElem? fun k => ?_
  rw [getElem?_splice hlength, getElem?_splice h, getElem?_splice h, List.length_append, List.getElem?_append]
  split_ifs
  all_goals first | rfl | omega | (congr 1; omega)

/-- Of a list that is used up to `n` only, the used part is overwritten and perhaps made longer. -/
theorem take_splice (ho : o ≤ n) (hn : n ≤ l.length) :
    (splice l o ys).take (max n (o + ys.length)) = splice (l.take n) o ys := by
  have hlength : (l.take n).length = n := by rw [List.length_take, Nat.min_eq_left hn]
  refine List.ext_getElem? fun k => ?_
  rw [List.getElem?_take, getElem?_splice (ho.trans hn), getElem?_splice (by rw [hlength]; exact ho), List.getElem?_take]
  by_cases hk : k < o + ys.length
  · rw [if_pos (by omega), if_pos hk, if_pos hk]
    by_cases hko : k < o
    · rw [if_pos hko, if_pos hko, if_pos (by omega)]
    · rw [if_neg hko, if_neg hko]
  · rw [if_neg hk, if_neg hk, if_neg (by omega : ¬ k < o), if_neg (by omega : ¬ k < o)]
    by_cases hkn : k < n
    · rw [if_pos (by omega), if_pos hkn]
    · rw [if_neg (by omega), if_neg hkn]

end SOI.Splice

import SOI.Library.Intervals

/-! # Copying blocks of an addressed store

What a block of a store holds, and what a copy of one block to another does to it.
-/
namespace SOI.Copies
open Intervals
variable {α : Type*} {c c' : ℕ → α} {b : Block} {src dst len i n : ℕ} {x : α}

def contents (c : ℕ → α) (b : Block) : List α := (List.range b.len).map fun i => c (b.base + i)

/-- The store after `len` cells from `src` on have been copied to `dst`. -/
def copy (c : ℕ → α) (src dst len : ℕ) : ℕ → α := fun n => if dst ≤ n ∧ n < dst + len then c (src + (n - dst)) else c n

theorem contents_congr (h : ∀ n ∈ b.points, c' n = c n) : contents c' b = contents c b := by
  refine List.map_congr_left fun i hi => h _ ?_
  rw [mem_points, Block.stop]
  have hlt := List.mem_range.mp hi
  omega

theorem contents_copy (c : ℕ → α) (src dst len : ℕ) : contents (copy c src dst len) ⟨dst,len⟩ = contents c ⟨src,len⟩ := by
  refine List.map_congr_left fun i hi => ?_
  have hlt : i < len := List.mem_range.mp hi
  rw [copy, if_pos (by simp only; omega)]
  congr 1
  simp only
  omega

/-- Blocks apart from the copy keep what they hold. -/
theorem contents_copy_other (h : Disjoint b.points (⟨dst,len⟩ : Block).points) :
    contents (copy c src dst len) b = contents c b := by
  refine contents_congr fun n hn => if_neg fun hin => ?_
  exact Finset.disjoint_left.mp h hn (mem_points.mpr hin)

theorem contents_fill {f : ℕ → α} : contents (fun n => if b.base ≤ n ∧ n < b.stop then f (n - b.base) else c n) b =
    (List.range b.len).map f := by
  refine List.map_congr_left fun i hi => ?_
  have hlt := List.mem_range.mp hi
  dsimp only
  rw [if_pos (by unfold Block.stop; omega), Nat.add_sub_cancel_left]

theorem contents_set (h : i < b.len) :
    contents (Function.update c (b.base + i) x) b = (contents c b).set i x := by
  refine List.ext_getElem? fun k => ?_
  rw [List.getElem?_set, contents, contents, List.getElem?_map, List.getElem?_map, List.length_map, List.length_range, if_pos h]
  by_cases hk : i = k
  · subst hk
    rw [if_pos rfl, List.getElem?_range h]
    simp
  · rw [if_neg hk]
    by_cases hlt : k < b.len
    · rw [List.getElem?_range hlt]
      simp only [Option.map_some]
      rw [Function.update_of_ne (by omega)]
    · rw [List.getElem?_eq_none (by simpa using hlt)]
      rfl

theorem contents_update_other (h : n ∉ b.points) : contents (Function.update c n x) b = contents c b :=
  contents_congr fun k hk => by
    rw [Function.update_of_ne]
    rintro rfl
    exact h hk

end SOI.Copies

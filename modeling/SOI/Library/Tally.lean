import Mathlib.Tactic
import Mathlib.Data.Fintype.Card
import Mathlib.Data.Fintype.Basic

/-! # Counting the threads whose program counter meets a test

A tally is the number of threads at marked program counters; the mark may depend
on the thread. One step moves one thread, so a tally changes by what that thread
contributed before and after.
-/
namespace SOI.Tally
variable {τ α : Type*} [Fintype τ]

def tally (p : τ → α → Bool) (f : τ → α) : ℕ := (Finset.univ.filter fun t => p t (f t)).card

theorem tally_eq_zero {p : τ → α → Bool} {f : τ → α} : tally p f = 0 ↔ ∀ t, p t (f t) = false := by
  simp [tally, Finset.filter_eq_empty_iff]

theorem tally_pos {p : τ → α → Bool} {f : τ → α} : 0 < tally p f ↔ ∃ t, p t (f t) = true := by
  simp [tally, Finset.card_pos, Finset.filter_nonempty_iff]

theorem eq_of_tally_le_one {p : τ → α → Bool} {f : τ → α} (h : tally p f ≤ 1) {t u : τ}
    (ht : p t (f t) = true) (hu : p u (f u) = true) : t = u :=
  Finset.card_le_one.mp h t (by simp [ht]) u (by simp [hu])

theorem tally_le_one {p : τ → α → Bool} {f : τ → α}
    (h : ∀ t u, p t (f t) = true → p u (f u) = true → t = u) : tally p f ≤ 1 :=
  Finset.card_le_one.mpr fun t ht u hu => h t u (by simpa using ht) (by simpa using hu)

theorem unmarked_of_ne {p : τ → α → Bool} {f : τ → α} (h : tally p f ≤ 1) {t u : τ}
    (ht : p t (f t) = true) (hne : u ≠ t) : p u (f u) = false := by
  cases hu : p u (f u) with
  | false => rfl
  | true => exact absurd (eq_of_tally_le_one h hu ht) hne

variable [DecidableEq τ]

/-- Moving one thread exchanges its own contribution to the tally. -/
theorem tally_update (p : τ → α → Bool) (f : τ → α) (t : τ) (x : α) :
    tally p (Function.update f t x) + (p t (f t)).toNat = tally p f + (p t x).toNat := by
  have split : ∀ g : τ → α, tally p g =
      ((Finset.univ.erase t).filter fun u => p u (g u)).card + (p t (g t)).toNat := by
    intro g
    rw [tally, ← Finset.insert_erase (Finset.mem_univ t), Finset.filter_insert]
    cases hg : p t (g t) <;> simp
  have rest : ((Finset.univ.erase t).filter fun u => p u (Function.update f t x u)) =
      (Finset.univ.erase t).filter fun u => p u (f u) :=
    Finset.filter_congr fun u hu => by
      rw [Function.update_of_ne (Finset.ne_of_mem_erase hu)]
  have hnew := split (Function.update f t x)
  have hold := split f
  rw [rest, Function.update_self] at hnew
  omega

omit [DecidableEq τ] in
theorem sum_move {f g : τ → ℕ} (t : τ) (h : ∀ u, u ≠ t → f u = g u) : ∑ u, f u + g t = ∑ u, g u + f t := by
  classical
  have hothers : (Finset.univ.erase t).sum f = (Finset.univ.erase t).sum g :=
    Finset.sum_congr rfl fun u hu => h u (Finset.ne_of_mem_erase hu)
  have hf : f t + (Finset.univ.erase t).sum f = ∑ u, f u := Finset.add_sum_erase _ f (Finset.mem_univ t)
  have hg : g t + (Finset.univ.erase t).sum g = ∑ u, g u := Finset.add_sum_erase _ g (Finset.mem_univ t)
  omega

end SOI.Tally

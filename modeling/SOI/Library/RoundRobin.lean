import Mathlib.Tactic
import Mathlib.Data.Nat.Nth
import Mathlib.Data.List.Rotate

/-! # Taking turns within a class

At every time one of several classes is served, and the members of the served
class take turns. When a class is served once in every window of `m` times, each
of its `n` members has exactly one turn in every window of `m * n` times.
-/
namespace SOI.RoundRobin
variable {ι α : Type*} [DecidableEq ι]

/-- How often a class was served before a time. -/
def served (c : ℕ → ι) (g : ι) (t : ℕ) : ℕ := Nat.count (fun i => c i = g) t

/-- The member whose turn it is. -/
def turn (c : ℕ → ι) (members : ι → List α) (t : ℕ) : Option α :=
  (members (c t))[served c (c t) t % (members (c t)).length]?

variable {c : ℕ → ι} {g : ι} {m : ℕ} {members : ι → List α}

theorem served_succ (c : ℕ → ι) (g : ι) (t : ℕ) :
    served c g (t + 1) = served c g t + if c t = g then 1 else 0 := Nat.count_succ _ _

theorem served_windows (h : ∀ t, served c g (t + m) = served c g t + 1) (t n : ℕ) :
    served c g (t + m * n) = served c g t + n := by
  induction n with
  | zero => simp
  | succ n ih =>
    calc served c g (t + m * (n + 1)) = served c g (t + m * n + m) := by ring_nf
      _ = served c g t + (n + 1) := by rw [h, ih]; ring

theorem exists_served (h : ∀ t, served c g (t + m) = served c g t + 1) {t n v : ℕ}
    (hlow : served c g t ≤ v) (hhigh : v < served c g t + n) :
    ∃ i, t ≤ i ∧ i < t + m * n ∧ c i = g ∧ served c g i = v := by
  have hinf : (Set.ofPred fun i => c i = g).Infinite := by
    intro hfin
    have hbound := Nat.count_le_card hfin (t + m * (hfin.toFinset.card + 1))
    have hcount : Nat.count (fun i => c i = g) (t + m * (hfin.toFinset.card + 1)) =
      served c g t + (hfin.toFinset.card + 1) := served_windows h _ _
    omega
  have hclass := Nat.nth_mem_of_infinite hinf v
  have hcount : served c g (Nat.nth (fun i => c i = g) v) = v := Nat.count_nth_of_infinite hinf v
  refine ⟨_,?_,?_,hclass,hcount⟩
  · by_contra hlt
    have hmore : served c g (Nat.nth (fun i => c i = g) v) < served c g t :=
      Nat.count_strict_mono (p := fun i => c i = g) hclass (Nat.lt_of_not_le hlt)
    omega
  · exact Nat.nth_lt_of_lt_count (hhigh.trans_eq (served_windows h t n).symm)

/-- In every window of `m * n` times each place among `n` is reached once. -/
theorem existsUnique_served (h : ∀ t, served c g (t + m) = served c g t + 1) (t : ℕ) {n j : ℕ}
    (hj : j < n) : ∃! i, (t ≤ i ∧ i < t + m * n) ∧ c i = g ∧ served c g i % n = j := by
  have hn : 0 < n := by omega
  -- the one number in reach with this remainder
  let v := served c g t + (j + (n - served c g t % n)) % n
  have hv : v % n = j := by
    have hmod := Nat.mod_lt (served c g t) hn
    rw [show v % n = (served c g t % n + (j + (n - served c g t % n))) % n by simp [v, Nat.add_mod],
      show served c g t % n + (j + (n - served c g t % n)) = j + n by omega, Nat.add_mod_right, Nat.mod_eq_of_lt hj]
  obtain ⟨i,hlow,hhigh,hi,hcount⟩ := exists_served h (Nat.le_add_right _ _)
    (Nat.add_lt_add_left (Nat.mod_lt (j + (n - served c g t % n)) hn) (served c g t))
  refine ⟨i,⟨⟨hlow,hhigh⟩,hi,by rw [hcount]; exact hv⟩,?_⟩
  rintro i' ⟨⟨hlow',hhigh'⟩,hi',hcount'⟩
  have hrange : ∀ {i}, t ≤ i → i < t + m * n → c i = g →
      served c g t ≤ served c g i ∧ served c g i < served c g t + n := by
    intro i hlow hhigh hi
    rw [← served_windows h t n]
    exact ⟨Nat.count_monotone _ hlow,Nat.count_strict_mono hi hhigh⟩
  obtain ⟨hl,hh⟩ := hrange hlow hhigh hi
  obtain ⟨hl',hh'⟩ := hrange hlow' hhigh' hi'
  refine Nat.count_injective hi' hi (?_ : served c g i' = served c g i)
  have hsame : served c g i' ≡ served c g i [MOD n] := hcount'.trans (by rw [hcount]; exact hv.symm)
  rcases le_total (served c g i') (served c g i) with hle | hle
  · have hdvd := (Nat.modEq_iff_dvd' hle).mp hsame
    have := Nat.eq_zero_of_dvd_of_lt hdvd (by omega)
    omega
  · have hdvd := (Nat.modEq_iff_dvd' hle).mp hsame.symm
    have := Nat.eq_zero_of_dvd_of_lt hdvd (by omega)
    omega

/-- Every member of a class has exactly one turn in every window. -/
theorem existsUnique_turn [DecidableEq α] (h : ∀ t, served c g (t + m) = served c g t + 1)
    (hnd : (members g).Nodup) {x : α} (hx : x ∈ members g) (hclass : ∀ t, x ∈ members (c t) → c t = g) (t : ℕ) :
    ∃! i, (t ≤ i ∧ i < t + m * (members g).length) ∧ turn c members i = some x := by
  have hj := List.idxOf_lt_length_iff.mpr hx
  have hturn : ∀ i, turn c members i = some x ↔
      c i = g ∧ served c g i % (members g).length = (members g).idxOf x := by
    intro i
    constructor
    · intro hi
      obtain rfl := hclass i (List.mem_of_getElem? hi)
      refine ⟨rfl,?_⟩
      obtain ⟨hlt,hget⟩ := List.getElem?_eq_some_iff.mp hi
      exact (@List.Nodup.getElem_inj_iff _ _ hnd _ hlt _ hj).mp (hget.trans (List.getElem_idxOf hj).symm)
    · rintro ⟨rfl,hi⟩
      rw [turn, hi, List.getElem?_eq_getElem hj, List.getElem_idxOf]
  simpa only [hturn] using existsUnique_served h t hj

end SOI.RoundRobin

import Mathlib.Tactic

/-! # The first of the largest

A loop keeps the largest value that it has met and the name of the first element that has
it. Elements without a value are passed over.
-/
namespace SOI.FirstMax
variable {α : Type*} {value value' : α → Option ℤ} {name : α → ℤ} {start r : ℤ × ℤ} {xs : List α}

def keep (value : α → Option ℤ) (name : α → ℤ) (best : ℤ × ℤ) (a : α) : ℤ × ℤ :=
  (value a).elim best fun v => if best.1 < v then (v,name a) else best

/-- The value and the name of the first of the largest among those above the start, which is
kept if there is none. -/
def IsFirstMax (value : α → Option ℤ) (name : α → ℤ) (start : ℤ × ℤ) (xs : List α) (r : ℤ × ℤ) : Prop :=
  (r = start ∧ ∀ a ∈ xs, ∀ v ∈ value a, v ≤ start.1) ∨
    ∃ front a back, xs = front ++ a :: back ∧ value a = some r.1 ∧ name a = r.2 ∧ start.1 < r.1 ∧
      (∀ b ∈ front, ∀ v ∈ value b, v < r.1) ∧ ∀ b ∈ back, ∀ v ∈ value b, v ≤ r.1

theorem IsFirstMax.le (h : IsFirstMax value name start xs r) {a : α} {v : ℤ} (ha : a ∈ xs) (hv : value a = some v) :
    v ≤ r.1 := by
  rcases h with ⟨rfl,hall⟩ | ⟨front,b,back,rfl,hb,-,-,hfront,hback⟩
  · exact hall a ha v hv
  · rcases List.mem_append.mp ha with ha | ha
    · exact (hfront a ha v hv).le
    rcases List.mem_cons.mp ha with rfl | ha
    · exact (Option.some_injective _ (hv.symm.trans hb)).le
    · exact hback a ha v hv

theorem IsFirstMax.attained (h : IsFirstMax value name start xs r) (hne : r ≠ start) :
    ∃ a ∈ xs, value a = some r.1 ∧ name a = r.2 ∧ start.1 < r.1 := by
  rcases h with ⟨heq,-⟩ | ⟨front,a,back,rfl,ha,hname,hlt,-⟩
  · exact absurd heq hne
  · exact ⟨a,by simp,ha,hname,hlt⟩

theorem foldl_keep (value : α → Option ℤ) (name : α → ℤ) (start : ℤ × ℤ) (xs : List α) :
    IsFirstMax value name start xs (xs.foldl (keep value name) start) := by
  induction xs using List.reverseRecOn with
  | nil => exact Or.inl ⟨rfl,by simp⟩
  | append_singleton xs a ih =>
    rw [List.foldl_append, List.foldl_cons, List.foldl_nil]
    generalize xs.foldl (keep value name) start = r at ih
    have hless : start.1 ≤ r.1 := by
      rcases ih with ⟨rfl,-⟩ | ⟨-,-,-,-,-,-,hlt,-⟩
      · exact le_rfl
      · exact hlt.le
    -- an element that changes nothing goes behind the others
    have hkept : (∀ v ∈ value a, v ≤ r.1) → IsFirstMax value name start (xs ++ [a]) r := by
      intro ha
      rcases ih with ⟨rfl,hall⟩ | ⟨front,b,back,rfl,hb,hname,hlt,hfront,hback⟩
      · refine Or.inl ⟨rfl,fun b hb v hv => ?_⟩
        rcases List.mem_append.mp hb with hb | hb
        · exact hall b hb v hv
        · rw [List.mem_singleton.mp hb] at hv
          exact ha v hv
      · refine Or.inr ⟨front,b,back ++ [a],by simp,hb,hname,hlt,hfront,fun c hc v hv => ?_⟩
        rcases List.mem_append.mp hc with hc | hc
        · exact hback c hc v hv
        · rw [List.mem_singleton.mp hc] at hv
          exact ha v hv
    cases hv : value a with
    | none =>
      rw [keep, hv]
      exact hkept (by simp [hv])
    | some v =>
      rw [keep, hv, Option.elim_some]
      split
      · next hlt =>
        refine Or.inr ⟨xs,a,[],rfl,hv,rfl,hless.trans_lt hlt,fun b hb w hw => ?_,by simp⟩
        exact (ih.le hb hw).trans_lt hlt
      · next hge =>
        apply hkept
        rw [hv]
        rintro w ⟨⟩
        exact not_lt.mp hge

/-- Values may be left out, but not the largest one. -/
theorem IsFirstMax.restrict (h : IsFirstMax value name start xs r) (hsub : ∀ a v, value' a = some v → value a = some v)
    (hlargest : ∀ a, value a = some r.1 → value' a = some r.1) : IsFirstMax value' name start xs r := by
  rcases h with ⟨rfl,hall⟩ | ⟨front,a,back,rfl,ha,hname,hlt,hfront,hback⟩
  · exact Or.inl ⟨rfl,fun a ha v hv => hall a ha v (hsub a v hv)⟩
  · exact Or.inr ⟨front,a,back,rfl,hlargest a ha,hname,hlt,fun b hb v hv => hfront b hb v (hsub b v hv),
      fun b hb v hv => hback b hb v (hsub b v hv)⟩

theorem isFirstMax_finRange {n : ℕ} {value : Fin n → Option ℤ} {name : Fin n → ℤ} :
    IsFirstMax value name start (List.finRange n) r ↔ (r = start ∧ ∀ i, ∀ v ∈ value i, v ≤ start.1) ∨
      ∃ i, value i = some r.1 ∧ name i = r.2 ∧ start.1 < r.1 ∧ (∀ j < i, ∀ v ∈ value j, v < r.1) ∧
        ∀ j, ∀ v ∈ value j, v ≤ r.1 := by
  constructor
  · intro h
    have hle : ∀ j, ∀ v ∈ value j, v ≤ r.1 := fun j v hv => h.le (List.mem_finRange j) hv
    rcases h with ⟨rfl,hall⟩ | ⟨front,i,back,hlist,hi,hname,hlt,hfront,-⟩
    · exact Or.inl ⟨rfl,fun i => hall i (List.mem_finRange i)⟩
    refine Or.inr ⟨i,hi,hname,hlt,fun j hj => hfront j ?_,hle⟩
    have hmem := List.mem_finRange j
    have hsorted := List.pairwise_lt_finRange n
    rw [hlist] at hmem hsorted
    rcases List.mem_append.mp hmem with hmem | hmem
    · exact hmem
    rcases List.mem_cons.mp hmem with rfl | hmem
    · exact absurd hj (lt_irrefl _)
    · have hbehind := (List.pairwise_cons.mp (List.pairwise_append.mp hsorted).2.1).1 j hmem
      exact absurd hj (lt_asymm hbehind)
  · rintro (⟨rfl,hall⟩ | ⟨i,hi,hname,hlt,hbefore,hle⟩)
    · exact Or.inl ⟨rfl,fun i _ => hall i⟩
    obtain ⟨front,back,hlist⟩ := List.append_of_mem (List.mem_finRange i)
    have hsorted := List.pairwise_lt_finRange n
    rw [hlist] at hsorted
    refine Or.inr ⟨front,i,back,hlist,hi,hname,hlt,fun j hj => hbefore j ?_,fun j _ => hle j⟩
    exact (List.pairwise_append.mp hsorted).2.2 j hj i (by simp)

end SOI.FirstMax

import Mathlib.Tactic

/-! # Folds that may stop

A list of entries is worked through by a step that may stop. Often it depends on the
entry alone whether it does, and a part of the state is what the last entry that
mentions it says.
-/
namespace SOI.Folds
variable {σ α β ε : Type} {f : σ → α → Except ε σ} {stop : α → Option ε} {ls : List α} {e : ε} {a a' : σ}

/-- What the last entry that mentions a value says. -/
def lastValue (read : α → Option β) (raw : β) (ls : List α) : β := (ls.reverse.findSome? read).getD raw

/-- Whether the step stops, and how, depends on the entry alone. -/
structure StopsBy (f : σ → α → Except ε σ) (stop : α → Option ε) : Prop where
  goes_on : ∀ a l, stop l = none → ∃ a', f a l = .ok a'
  stops : ∀ a l e, stop l = some e → f a l = .error e

theorem StopsBy.foldlM_goes_on (h : StopsBy f stop) (hls : ls.findSome? stop = none) (a : σ) :
    ∃ a', ls.foldlM f a = .ok a' := by
  induction ls generalizing a with
  | nil => exact ⟨a,rfl⟩
  | cons l ls ih =>
    rw [List.findSome?_cons] at hls
    cases hl : stop l with
    | none =>
      rw [hl] at hls
      obtain ⟨b,hb⟩ := h.goes_on a l hl
      obtain ⟨c,hc⟩ := ih hls b
      refine ⟨c,?_⟩
      rw [List.foldlM_cons, hb]
      exact hc
    | some e =>
      rw [hl] at hls
      cases hls

theorem StopsBy.foldlM_stops (h : StopsBy f stop) (hls : ls.findSome? stop = some e) (a : σ) :
    ls.foldlM f a = .error e := by
  induction ls generalizing a with
  | nil => cases hls
  | cons l ls ih =>
    rw [List.findSome?_cons] at hls
    rw [List.foldlM_cons]
    cases hl : stop l with
    | none =>
      rw [hl] at hls
      obtain ⟨b,hb⟩ := h.goes_on a l hl
      rw [hb]
      exact ih hls b
    | some e' =>
      rw [hl] at hls
      obtain rfl : e' = e := Option.some.inj hls
      rw [h.stops a l e' hl]
      rfl

/-- The first entry that stops does so in another way than `e`: the entries in front of the
first of those others do not stop by `e`. -/
theorem findSome?_ne_iff {p : α → Bool} (hp : ∀ l, p l = false ↔ ∃ e', e' ≠ e ∧ stop l = some e') :
    ls.findSome? stop ≠ some e ↔ ∀ l ∈ ls.takeWhile p, stop l ≠ some e := by
  induction ls with
  | nil => simp
  | cons l ls ih =>
    rw [List.findSome?_cons]
    by_cases hl : p l = true
    · rw [List.takeWhile_cons_of_pos hl, List.forall_mem_cons]
      cases hstop : stop l with
      | none => simpa using ih
      | some e' =>
        obtain rfl : e' = e := by
          by_contra hne
          rw [(hp l).mpr ⟨e',hne,hstop⟩] at hl
          cases hl
        simp
    · obtain ⟨e',hne,hstop⟩ := (hp l).mp (Bool.eq_false_of_not_eq_true hl)
      rw [List.takeWhile_cons_of_neg hl, hstop]
      simp [hne]

theorem lastValue_cons (read : α → Option β) (raw : β) (l : α) (ls : List α) :
    lastValue read raw (l :: ls) = lastValue read ((read l).getD raw) ls := by
  unfold lastValue
  rw [List.reverse_cons, List.findSome?_append]
  cases ls.reverse.findSome? read with
  | some b => rfl
  | none => cases hl : read l <;> simp [hl]

theorem foldlM_lastValue {read : α → Option β} {π : σ → β} (h : ∀ a l a', f a l = .ok a' → π a' = (read l).getD (π a))
    (hfold : ls.foldlM f a = .ok a') : π a' = lastValue read (π a) ls := by
  induction ls generalizing a with
  | nil =>
    cases hfold
    rfl
  | cons l ls ih =>
    rw [List.foldlM_cons] at hfold
    cases hl : f a l with
    | error e =>
      rw [hl] at hfold
      cases hfold
    | ok b =>
      rw [hl] at hfold
      rw [ih hfold, h a l b hl, lastValue_cons]

end SOI.Folds

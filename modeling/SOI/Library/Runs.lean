import Mathlib.Tactic
import Mathlib.Data.Fintype.Basic

/-! # Finite runs of a partial step function

A step function takes a state and a label (a call, or the thread that moves) and
gives the next state, or `none` where the step is not enabled. A run is the list
of labels; guarded runs additionally meet a condition before every step.
-/
namespace SOI.Runs
variable {σ κ : Type*}

/-- The state after the listed steps, `none` as soon as one is not enabled. -/
def run (step : σ → κ → Option σ) : σ → List κ → Option σ
  | s, [] => some s
  | s, k :: ks => (step s k).bind fun t => run step t ks

/-- Every step of the run starts in a state that meets the condition. -/
def Meets (step : σ → κ → Option σ) (ok : σ → κ → Prop) : σ → List κ → Prop
  | _, [] => True
  | s, k :: ks => ok s k ∧ ∀ t, step s k = some t → Meets step ok t ks

variable {step : σ → κ → Option σ} {ok : σ → κ → Prop}

@[simp] theorem run_nil (s : σ) : run step s [] = some s := rfl

theorem run_cons_iff {s u : σ} {k : κ} {ks : List κ} :
    run step s (k :: ks) = some u ↔ ∃ t, step s k = some t ∧ run step t ks = some u := by
  simp only [run, Option.bind_eq_some_iff]

theorem run_append (s : σ) (ks ls : List κ) :
    run step s (ks ++ ls) = (run step s ks).bind fun t => run step t ls := by
  induction ks generalizing s with
  | nil => rfl
  | cons k ks ih =>
    simp only [List.cons_append, run]
    cases step s k with
    | none => rfl
    | some t => exact ih t

theorem meets_cons_of_some {s t : σ} {k : κ} {ks : List κ} (h : step s k = some t) :
    Meets step ok s (k :: ks) ↔ ok s k ∧ Meets step ok t ks := by
  simp [Meets, h]

theorem meets_cons_of_none {s : σ} {k : κ} {ks : List κ} (h : step s k = none) :
    Meets step ok s (k :: ks) ↔ ok s k := by
  simp [Meets, h]

theorem Meets.append {s t : σ} {ks ls : List κ} (hks : Meets step ok s ks) (hr : run step s ks = some t)
    (hls : Meets step ok t ls) : Meets step ok s (ks ++ ls) := by
  induction ks generalizing s with
  | nil =>
    cases hr
    exact hls
  | cons k ks ih =>
    obtain ⟨u,hu,ht⟩ := run_cons_iff.mp hr
    exact (meets_cons_of_some hu).mpr ⟨hks.1,ih (hks.2 u hu) ht⟩

instance decidableMeets [∀ s k, Decidable (ok s k)] (s : σ) :
    (ks : List κ) → Decidable (Meets step ok s ks)
  | [] => isTrue trivial
  | k :: ks =>
      match h : step s k with
      | none => decidable_of_iff _ (meets_cons_of_none h).symm
      | some t =>
          have : Decidable (Meets step ok t ks) := decidableMeets t ks
          decidable_of_iff _ (meets_cons_of_some h).symm

/-- What every enabled step that meets the condition preserves holds at the end
of every run whose steps all meet it. -/
theorem Meets.invariant {P : σ → Prop}
    (hstep : ∀ s k t, P s → ok s k → step s k = some t → P t)
    {s u : σ} {ks : List κ} (hm : Meets step ok s ks) (hs : P s)
    (hr : run step s ks = some u) : P u := by
  induction ks generalizing s with
  | nil => cases hr; exact hs
  | cons k ks ih =>
    obtain ⟨t, ht, hu⟩ := run_cons_iff.mp hr
    exact ih (hm.2 t ht) (hstep s k t hs hm.1 ht) hu

/-- Where every step that meets the condition does to a view of the state what an
abstract step does, every run does what the abstract steps do one after the other. -/
theorem Meets.refines {τ : Type*} {P : σ → Prop} {view : σ → τ} {abstract : τ → κ → τ}
    (hstep : ∀ s k t, P s → ok s k → step s k = some t → P t ∧ view t = abstract (view s) k)
    {s u : σ} {ks : List κ} (hm : Meets step ok s ks) (hs : P s) (hr : run step s ks = some u) :
    P u ∧ view u = ks.foldl abstract (view s) := by
  induction ks generalizing s with
  | nil => cases hr; exact ⟨hs,rfl⟩
  | cons k ks ih =>
    obtain ⟨t,ht,hu⟩ := run_cons_iff.mp hr
    obtain ⟨hPt,hview⟩ := hstep s k t hs hm.1 ht
    rw [List.foldl_cons, ← hview]
    exact ih (hm.2 t ht) hPt hu

/-- The labels lead from one state to another in a specification that leaves choices open. -/
def Traces {τ : Type*} (spec : τ → κ → τ → Prop) : τ → List κ → τ → Prop
  | a, [], b => a = b
  | a, k :: ks, b => ∃ c, spec a k c ∧ Traces spec c ks b

theorem Meets.simulates {τ : Type*} {P : σ → Prop} {view : σ → τ} {spec : τ → κ → τ → Prop}
    (hstep : ∀ s k t, P s → ok s k → step s k = some t → P t ∧ spec (view s) k (view t))
    {s u : σ} {ks : List κ} (hm : Meets step ok s ks) (hs : P s) (hr : run step s ks = some u) :
    P u ∧ Traces spec (view s) ks (view u) := by
  induction ks generalizing s with
  | nil => cases hr; exact ⟨hs,rfl⟩
  | cons k ks ih =>
    obtain ⟨t,ht,hu⟩ := run_cons_iff.mp hr
    obtain ⟨hPt,hspec⟩ := hstep s k t hs hm.1 ht
    obtain ⟨hPu,htrace⟩ := ih (hm.2 t ht) hPt hu
    exact ⟨hPu,view t,hspec,htrace⟩

/-- Where every step that meets the condition can be made and preserves a property, every
run whose steps meet it can be made as well. -/
theorem Meets.progress {P : σ → Prop} (hstep : ∀ s k, P s → ok s k → ∃ t, step s k = some t ∧ P t)
    {s : σ} {ks : List κ} (hm : Meets step ok s ks) (hs : P s) : ∃ u, run step s ks = some u ∧ P u := by
  induction ks generalizing s with
  | nil => exact ⟨s,rfl,hs⟩
  | cons k ks ih =>
    obtain ⟨t,ht,hP⟩ := hstep s k hs hm.1
    obtain ⟨u,hu,hPu⟩ := ih (hm.2 t ht) hP
    exact ⟨u,run_cons_iff.mpr ⟨t,ht,hu⟩,hPu⟩

theorem meets_of_mem {p : κ → Prop} {s : σ} {ks : List κ} (h : ∀ k ∈ ks, p k) : Meets step (fun _ k => p k) s ks := by
  induction ks generalizing s with
  | nil => trivial
  | cons k ks ih => exact ⟨h k (by simp),fun t _ => ih fun l hl => h l (by simp [hl])⟩

/-- A property of every state reached, as a condition on the steps. -/
theorem meets_reached_iff {P : σ → Prop} {s : σ} {ks : List κ} (hs : P s) :
    Meets step (fun s k => ∀ t, step s k = some t → P t) s ks ↔ ∀ ls, ls <+: ks → ∀ t, run step s ls = some t → P t := by
  induction ks generalizing s with
  | nil =>
    refine iff_of_true trivial fun ls hls t ht => ?_
    rw [List.prefix_nil.mp hls] at ht
    cases ht
    exact hs
  | cons k ks ih =>
    constructor
    · rintro ⟨hk,hrest⟩ ls hls t ht
      rcases List.prefix_cons_iff.mp hls with rfl | ⟨ls,rfl,hrest'⟩
      · cases ht
        exact hs
      · obtain ⟨u,hu,ht⟩ := run_cons_iff.mp ht
        exact (ih (hk u hu)).mp (hrest u hu) ls hrest' t ht
    · intro h
      have hk : ∀ t, step s k = some t → P t := fun t ht =>
        h [k] (by simp) t (run_cons_iff.mpr ⟨t,ht,rfl⟩)
      refine ⟨hk,fun u hu => (ih (hk u hu)).mpr fun ls hls t ht => ?_⟩
      exact h (k :: ls) (List.prefix_cons_iff.mpr (Or.inr ⟨ls,rfl,hls⟩)) t (run_cons_iff.mpr ⟨u,hu,ht⟩)

theorem meets_congr_of_mem {P : σ → Prop} {p : κ → Prop} {ok' : σ → κ → Prop}
    (hstep : ∀ s k t, P s → p k → ok s k → step s k = some t → P t) (hok : ∀ s k, P s → p k → (ok s k ↔ ok' s k))
    {s : σ} {ks : List κ} (hks : ∀ k ∈ ks, p k) (hs : P s) : Meets step ok s ks ↔ Meets step ok' s ks := by
  induction ks generalizing s with
  | nil => exact Iff.rfl
  | cons k ks ih =>
    have hp := hks k (by simp)
    have hrest : ∀ l ∈ ks, p l := fun l hl => hks l (by simp [hl])
    constructor
    · rintro ⟨hk,h⟩
      exact ⟨(hok s k hs hp).mp hk,fun t ht => (ih hrest (hstep s k t hs hp hk ht)).mp (h t ht)⟩
    · rintro ⟨hk',h⟩
      have hk := (hok s k hs hp).mpr hk'
      exact ⟨hk,fun t ht => (ih hrest (hstep s k t hs hp hk ht)).mpr (h t ht)⟩

theorem meets_congr {P : σ → Prop} {ok' : σ → κ → Prop} (hstep : ∀ s k t, P s → ok s k → step s k = some t → P t)
    (hok : ∀ s k, P s → (ok s k ↔ ok' s k)) {s : σ} {ks : List κ} (hs : P s) :
    Meets step ok s ks ↔ Meets step ok' s ks :=
  meets_congr_of_mem (p := fun _ => True) (fun s k t hs _ => hstep s k t hs) (fun s k hs _ => hok s k hs)
    (fun _ _ => trivial) hs

theorem meets_congr_of_run {P : σ → Prop} {p : κ → Prop} {ok' : σ → κ → Prop}
    (hstep : ∀ s k t, P s → p k → ok s k → step s k = some t → P t)
    (hok : ∀ s k t, P s → p k → step s k = some t → (ok s k ↔ ok' s k)) {s u : σ} {ks : List κ} (hks : ∀ k ∈ ks, p k)
    (hs : P s) (hr : run step s ks = some u) : Meets step ok s ks ↔ Meets step ok' s ks := by
  induction ks generalizing s with
  | nil => exact Iff.rfl
  | cons k ks ih =>
    obtain ⟨t,ht,hu⟩ := run_cons_iff.mp hr
    have hp := hks k (by simp)
    rw [meets_cons_of_some ht, meets_cons_of_some ht, ← hok s k t hs hp ht]
    refine and_congr_right fun hk => ?_
    exact ih (fun l hl => hks l (by simp [hl])) (hstep s k t hs hp hk ht) hu

theorem run_invariant {P : σ → Prop} (hstep : ∀ s k t, P s → step s k = some t → P t)
    {s u : σ} {ks : List κ} (hs : P s) (hr : run step s ks = some u) : P u := by
  induction ks generalizing s with
  | nil => cases hr; exact hs
  | cons k ks ih =>
    obtain ⟨t, ht, hu⟩ := run_cons_iff.mp hr
    exact ih (hstep s k t hs ht) hu

end SOI.Runs

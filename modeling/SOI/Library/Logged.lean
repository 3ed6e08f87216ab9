import Mathlib.Tactic

/-! # Computations that keep a log

A computation that may stop makes notes on its way. What holds of all of its notes, and
of its value if it has one, is shown part by part.
-/
namespace SOI.Logs

/-- The notes in order, and how the computation ends. -/
structure Logged (μ ε α : Type) where
  log : List μ
  result : Except ε α

variable {μ ε α β : Type} {S : μ → Prop} {P : α → Prop} {R : β → Prop} {c : Logged μ ε α}

def quietly (r : Except ε α) : Logged μ ε α := ⟨[],r⟩

def note (n : μ) (c : Logged μ ε α) : Logged μ ε α := ⟨n :: c.log,c.result⟩

def Logged.bind (c : Logged μ ε α) (f : α → Logged μ ε β) : Logged μ ε β :=
  match c.result with
  | .error e => ⟨c.log,.error e⟩
  | .ok a => ⟨c.log ++ (f a).log,(f a).result⟩

/-- Every note is one of `S`, also if the computation stops, and its value is one of `P`. -/
structure Holds (S : μ → Prop) (P : α → Prop) (c : Logged μ ε α) : Prop where
  log : ∀ n ∈ c.log, S n
  result : ∀ a, c.result = .ok a → P a

@[simp] theorem result_quietly (r : Except ε α) : (quietly r : Logged μ ε α).result = r := rfl

@[simp] theorem result_note (n : μ) (c : Logged μ ε α) : (note n c).result = c.result := rfl

@[simp] theorem result_bind (c : Logged μ ε α) (f : α → Logged μ ε β) :
    (c.bind f).result = c.result.bind fun a => (f a).result := by
  unfold Logged.bind
  cases c.result <;> rfl

theorem Holds.quietly {r : Except ε α} (h : ∀ a, r = .ok a → P a) : Holds S P (quietly r : Logged μ ε α) :=
  ⟨fun _ hn => absurd hn List.not_mem_nil,h⟩

theorem Holds.value {a : α} (h : P a) : Holds S P (Logs.quietly (.ok a) : Logged μ ε α) := by
  apply Holds.quietly
  rintro b ⟨⟩
  exact h

theorem Holds.note {n : μ} (hn : S n) (h : Holds S P c) : Holds S P (note n c) := by
  refine ⟨fun m hm => ?_,h.result⟩
  rcases List.mem_cons.mp hm with rfl | hm
  · exact hn
  · exact h.log m hm

theorem Holds.bind {f : α → Logged μ ε β} (h : Holds S P c) (hf : ∀ a, P a → Holds S R (f a)) :
    Holds S R (c.bind f) := by
  unfold Logged.bind
  cases hc : c.result with
  | error e =>
    refine ⟨h.log,fun b hb => ?_⟩
    cases hb
  | ok a =>
    have ha := hf a (h.result a hc)
    refine ⟨fun n hn => ?_,ha.result⟩
    rcases List.mem_append.mp hn with hn | hn
    · exact h.log n hn
    · exact ha.log n hn

theorem Holds.quietly_bind {r : Except ε α} {f : α → Logged μ ε β} (hf : ∀ a, r = .ok a → Holds S R (f a)) :
    Holds S R ((Logs.quietly r).bind f) := by
  have hr : Holds S (fun a => r = .ok a) (Logs.quietly r : Logged μ ε α) := Holds.quietly fun a ha => ha
  exact hr.bind hf

end SOI.Logs

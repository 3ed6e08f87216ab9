import SOI.Synchronization.SemaphoreBuffer

/-! # Token accounting of the semaphore buffer

Every stored element has a token: a unit of `empty`, a consumer that has taken one and
not yet erased, or a producer that has pushed and not yet done its `empty.v()`. No step
needs the mutex for this, so it holds with any number of threads inside the section.
-/
namespace SOI.SemaphoreBuffer
open Synchronization Runs Tally
variable {ι : Type} {s t : State ι} {side : Side} {i : ι}

def PutPC.pushed : PutPC → Bool
  | .display | .postEmpty => true
  | _ => false

def GetPC.admitted : GetPC → Bool
  | .acquire | .front | .erase => true
  | _ => false

def tokens [Fintype ι] (s : State ι) : ℕ :=
  s.empty + tally (fun _ => GetPC.admitted) s.get + (s.put .A).pushed.toNat + (s.put .B).pushed.toNat

/-- The step of a producer pushes an element and takes on its token, or hands the token
to `empty`, or does neither. -/
theorem putStep_moves {canOwn canOther : Guard} {other : Side} {arg : Char}
    (h : putStep side other canOwn canOther s arg = some t) :
    t.get = s.get ∧ ∃ pc, t.put = Function.update s.put side pc ∧
      t.values.length + s.empty + (s.put side).pushed.toNat = s.values.length + t.empty + pc.pushed.toNat := by
  cases putStep_puts h with
  | push hp =>
    refine ⟨rfl,.display,rfl,?_⟩
    simp [hp, State.goPut, PutPC.pushed]
    omega
  | postEmpty hp =>
    refine ⟨rfl,.testOther canOther,rfl,?_⟩
    simp [hp, State.goPut, PutPC.pushed, v]
    omega
  | idle hp | acquire hp | passes hp | testHolds hp | testFails hp | setWait hp | release hp | suspend hp
  | clearWait hp | display hp | otherPasses hp | otherHolds hp | otherFails hp | otherWaits hp | noneWaits hp
  | resumeOther hp | leave hp =>
    rw [hp]
    exact ⟨rfl,_,rfl,rfl⟩

/-- A consumer takes a token from `empty`, and gives it up with the element it erases,
if there is one. -/
theorem getStep_moves [DecidableEq ι] (h : getStep s i = some t) (hstored : s.get i = .erase → s.values ≠ []) :
    t.put = s.put ∧ ∃ pc, t.get = Function.update s.get i pc ∧
      t.values.length + s.empty + (s.get i).admitted.toNat = s.values.length + t.empty + pc.admitted.toNat := by
  cases getStep_gets h with
  | takeEmpty hp hm =>
    refine ⟨rfl,.acquire,rfl,?_⟩
    simp [hp, State.goGet, GetPC.admitted, hm]
    omega
  | erase hp =>
    have hpos := List.length_pos_of_ne_nil (hstored hp)
    refine ⟨rfl,.display,rfl,?_⟩
    simp [hp, State.goGet, GetPC.admitted]
    omega
  | idle hp | acquire hp | front hp | display hp | passesA hp | holdsA hp | failsA hp | waitsA hp | freeA hp
  | resumeA hp | passesB hp | holdsB hp | failsB hp | waitsB hp | freeB hp | resumeB hp | leave hp =>
    rw [hp]
    exact ⟨rfl,_,rfl,rfl⟩

variable [Fintype ι]

/-- A token is held for each consumer that has been admitted. -/
theorem stored_of_admitted (h : s.values.length = tokens s) (hi : (s.get i).admitted = true) : s.values ≠ [] := by
  have hpos : 0 < tally (fun _ => GetPC.admitted) s.get := tally_pos.mpr ⟨i,hi⟩
  intro hempty
  rw [hempty, List.length_nil, tokens] at h
  omega

theorem step_tokens [DecidableEq ι] {k : Thread ι} (h : s.values.length = tokens s) (he : step s k = some t) :
    t.values.length = tokens t := by
  unfold tokens at h ⊢
  cases k with
  | put side arg =>
    rw [step_put] at he
    obtain ⟨hget,pc,hput,hmoves⟩ := putStep_moves he
    rw [hget, hput]
    cases side with
    | A =>
      rw [Function.update_self, Function.update_of_ne (by decide)]
      omega
    | B =>
      rw [Function.update_self, Function.update_of_ne (by decide)]
      omega
  | get i =>
    have hstored : s.get i = .erase → s.values ≠ [] := by
      intro hp
      apply stored_of_admitted h
      rw [hp]
      rfl
    obtain ⟨hput,pc,hget,hmoves⟩ := getStep_moves he hstored
    have htally := tally_update (fun _ => GetPC.admitted) s.get i pc
    rw [hget, hput]
    omega

theorem tokens_initial : (initial : State ι).values.length = tokens (initial : State ι) := by
  have hnone : tally (fun _ => GetPC.admitted) (initial : State ι).get = 0 := tally_eq_zero.mpr fun _ => rfl
  rw [tokens, hnone]
  rfl

/-- The account of the stored elements, and what it means for the consumers. -/
structure Accounted (s : State ι) : Prop where
  stored : s.values.length =
    s.empty + tally (fun _ => GetPC.admitted) s.get + (s.put .A).pushed.toNat + (s.put .B).pushed.toNat
  front : ∀ i, s.get i = .front → s.values ≠ []
  erase : ∀ i, s.get i = .erase → s.values ≠ []

/-- In every interleaving, whether or not the section is exclusive, every stored element
has its token, and no consumer looks at or erases the front of an empty buffer. -/
theorem every_run_accounted [DecidableEq ι] (ks : List (Thread ι)) (s : State ι) (hr : run step initial ks = some s) :
    Accounted s := by
  have htokens : s.values.length = tokens s :=
    run_invariant (P := fun s => s.values.length = tokens s) (fun _ _ _ h he => step_tokens h he) tokens_initial hr
  refine ⟨htokens,?_,?_⟩
  · intro i hi
    apply stored_of_admitted htokens
    rw [hi]
    rfl
  · intro i hi
    apply stored_of_admitted htokens
    rw [hi]
    rfl

theorem two_admitted_accounted : ∃ s, run step (initial : State Bool)
    (List.replicate 20 (.put .A 'A') ++ [.get false,.get false,.get true,.get true,.get false]) = some s ∧
      s.values.length = 2 ∧ s.empty = 0 ∧ s.get false = .front ∧ Accounted s :=
  ⟨_,rfl,rfl,rfl,rfl,every_run_accounted
    (List.replicate 20 (.put .A 'A') ++ [.get false,.get false,.get true,.get true,.get false]) _ rfl⟩

end SOI.SemaphoreBuffer

import SOI.Library.Runs
import SOI.Library.Tally
import SOI.Synchronization.Primitives

/-! # The semaphore buffer as a step function

One producer for each side, any number of consumers. Every `p`, `v` and every
access to `values`, `waitA` and `waitB` is one step of the thread that makes it.
`putA` and `putB` are one procedure with the two sides exchanged.
-/
namespace SOI.SemaphoreBuffer
open Synchronization

inductive Side
  | A
  | B
  deriving DecidableEq, Repr

def Side.other : Side → Side
  | .A => .B
  | .B => .A

def can : Side → Guard
  | .A => canA
  | .B => canB

/-- Program points of `putA` and `putB`, named by the access made there. -/
inductive PutPC
  | idle
  | acquire
  | test (todo : Guard)
  | setWait
  | release
  | suspend
  | clearWait
  | push
  | display
  | postEmpty
  | testOther (todo : Guard)
  | testWait
  | resumeOther
  | leave
  deriving DecidableEq, Repr

inductive GetPC
  | idle
  | takeEmpty
  | acquire
  | front
  | erase
  | display
  | testA (todo : Guard)
  | testWaitA
  | resumeA
  | testB (todo : Guard)
  | testWaitB
  | resumeB
  | leave
  deriving DecidableEq, Repr

/-- The shared fields, then the program point and the locals of every thread. -/
structure State (ι : Type) where
  values : List Char
  mutex : ℕ
  empty : ℕ
  stop : Side → ℕ
  wait : Side → Bool
  put : Side → PutPC
  value : Side → Char
  get : ι → GetPC
  front : ι → Option Char

variable {ι : Type}

def initial : State ι where
  values := []
  mutex := 1
  empty := 0
  stop _ := 0
  wait _ := false
  put _ := .idle
  value _ := 'A'
  get _ := .idle
  front _ := none

def State.goPut (s : State ι) (side : Side) (pc : PutPC) : State ι :=
  { s with put := Function.update s.put side pc }

def State.goGet [DecidableEq ι] (s : State ι) (i : ι) (pc : GetPC) : State ι :=
  { s with get := Function.update s.get i pc }

/-- One step of a put for one side with its own guard and the other side's; `arg`
is the value of the call the producer starts when it is between two calls. -/
def putStep (side other : Side) (canOwn canOther : Guard) (s : State ι) (arg : Char) :
    Option (State ι) :=
  match s.put side with
  | .idle => some { s.goPut side .acquire with value := Function.update s.value side arg }
  | .acquire => (p s.mutex).map fun m => { s.goPut side (.test canOwn) with mutex := m }
  | .test [] => some (s.goPut side .clearWait)
  | .test (c :: todo) =>
      if c.holds s.values.length then some (s.goPut side (.test todo))
      else some (s.goPut side .setWait)
  | .setWait => some { s.goPut side .release with wait := Function.update s.wait side true }
  | .release => some { s.goPut side .suspend with mutex := v s.mutex }
  | .suspend => (p (s.stop side)).map fun m =>
      { s.goPut side .clearWait with stop := Function.update s.stop side m }
  | .clearWait => some { s.goPut side .push with wait := Function.update s.wait side false }
  | .push => some { s.goPut side .display with values := s.values ++ [s.value side] }
  | .display => some (s.goPut side .postEmpty)
  | .postEmpty => some { s.goPut side (.testOther canOther) with empty := v s.empty }
  | .testOther [] => some (s.goPut side .testWait)
  | .testOther (c :: todo) =>
      if c.holds s.values.length then some (s.goPut side (.testOther todo))
      else some (s.goPut side .leave)
  | .testWait =>
      if s.wait other then some (s.goPut side .resumeOther) else some (s.goPut side .leave)
  -- the source has no `else` here: the mutex is released as well
  | .resumeOther => some { s.goPut side .leave with
      stop := Function.update s.stop other (v (s.stop other)) }
  | .leave => some { s.goPut side .idle with mutex := v s.mutex }

def putA (s : State ι) (arg : Char) : Option (State ι) := putStep .A .B canA canB s arg
def putB (s : State ι) (arg : Char) : Option (State ι) := putStep .B .A canB canA s arg

def getStep [DecidableEq ι] (s : State ι) (i : ι) : Option (State ι) :=
  match s.get i with
  | .idle => some (s.goGet i .takeEmpty)
  | .takeEmpty => (p s.empty).map fun m => { s.goGet i .acquire with empty := m }
  | .acquire => (p s.mutex).map fun m => { s.goGet i .front with mutex := m }
  | .front => some { s.goGet i .erase with front := Function.update s.front i s.values.head? }
  | .erase => some { s.goGet i .display with values := s.values.tail }
  | .display => some (s.goGet i (.testA canA))
  | .testA [] => some (s.goGet i .testWaitA)
  | .testA (c :: todo) =>
      if c.holds s.values.length then some (s.goGet i (.testA todo))
      else some (s.goGet i (.testB canB))
  | .testWaitA =>
      if s.wait .A then some (s.goGet i .resumeA) else some (s.goGet i (.testB canB))
  | .resumeA => some { s.goGet i .idle with stop := Function.update s.stop .A (v (s.stop .A)) }
  | .testB [] => some (s.goGet i .testWaitB)
  | .testB (c :: todo) =>
      if c.holds s.values.length then some (s.goGet i (.testB todo)) else some (s.goGet i .leave)
  | .testWaitB =>
      if s.wait .B then some (s.goGet i .resumeB) else some (s.goGet i .leave)
  | .resumeB => some { s.goGet i .idle with stop := Function.update s.stop .B (v (s.stop .B)) }
  | .leave => some { s.goGet i .idle with mutex := v s.mutex }

inductive Thread (ι : Type)
  | put (side : Side) (arg : Char)
  | get (i : ι)
  deriving DecidableEq, Repr

def step [DecidableEq ι] (s : State ι) : Thread ι → Option (State ι)
  | .put .A arg => putA s arg
  | .put .B arg => putB s arg
  | .get i => getStep s i

theorem step_put [DecidableEq ι] (s : State ι) (side : Side) (arg : Char) :
    step s (.put side arg) = putStep side side.other (can side) (can side.other) s arg := by
  cases side <;> rfl

/-- What a step of a put can do, line by line. -/
inductive Puts (side other : Side) (canOwn canOther : Guard) (s : State ι) (arg : Char) : State ι → Prop
  | idle (hp : s.put side = .idle) : Puts side other canOwn canOther s arg
      { s.goPut side .acquire with value := Function.update s.value side arg }
  | acquire {m : ℕ} (hp : s.put side = .acquire) (hm : s.mutex = m + 1) :
      Puts side other canOwn canOther s arg { s.goPut side (.test canOwn) with mutex := m }
  | passes (hp : s.put side = .test []) : Puts side other canOwn canOther s arg (s.goPut side .clearWait)
  | testHolds {c : Comparison} {todo : Guard} (hp : s.put side = .test (c :: todo))
      (hc : c.holds s.values.length = true) : Puts side other canOwn canOther s arg (s.goPut side (.test todo))
  | testFails {c : Comparison} {todo : Guard} (hp : s.put side = .test (c :: todo))
      (hc : c.holds s.values.length = false) : Puts side other canOwn canOther s arg (s.goPut side .setWait)
  | setWait (hp : s.put side = .setWait) : Puts side other canOwn canOther s arg
      { s.goPut side .release with wait := Function.update s.wait side true }
  | release (hp : s.put side = .release) :
      Puts side other canOwn canOther s arg { s.goPut side .suspend with mutex := v s.mutex }
  | suspend {m : ℕ} (hp : s.put side = .suspend) (hm : s.stop side = m + 1) :
      Puts side other canOwn canOther s arg { s.goPut side .clearWait with stop := Function.update s.stop side m }
  | clearWait (hp : s.put side = .clearWait) : Puts side other canOwn canOther s arg
      { s.goPut side .push with wait := Function.update s.wait side false }
  | push (hp : s.put side = .push) : Puts side other canOwn canOther s arg
      { s.goPut side .display with values := s.values ++ [s.value side] }
  | display (hp : s.put side = .display) : Puts side other canOwn canOther s arg (s.goPut side .postEmpty)
  | postEmpty (hp : s.put side = .postEmpty) : Puts side other canOwn canOther s arg
      { s.goPut side (.testOther canOther) with empty := v s.empty }
  | otherPasses (hp : s.put side = .testOther []) : Puts side other canOwn canOther s arg (s.goPut side .testWait)
  | otherHolds {c : Comparison} {todo : Guard} (hp : s.put side = .testOther (c :: todo))
      (hc : c.holds s.values.length = true) : Puts side other canOwn canOther s arg (s.goPut side (.testOther todo))
  | otherFails {c : Comparison} {todo : Guard} (hp : s.put side = .testOther (c :: todo))
      (hc : c.holds s.values.length = false) : Puts side other canOwn canOther s arg (s.goPut side .leave)
  | otherWaits (hp : s.put side = .testWait) (hw : s.wait other = true) :
      Puts side other canOwn canOther s arg (s.goPut side .resumeOther)
  | noneWaits (hp : s.put side = .testWait) (hw : s.wait other = false) :
      Puts side other canOwn canOther s arg (s.goPut side .leave)
  | resumeOther (hp : s.put side = .resumeOther) : Puts side other canOwn canOther s arg
      { s.goPut side .leave with stop := Function.update s.stop other (v (s.stop other)) }
  | leave (hp : s.put side = .leave) :
      Puts side other canOwn canOther s arg { s.goPut side .idle with mutex := v s.mutex }

theorem putStep_puts {side other : Side} {canOwn canOther : Guard} {s t : State ι} {arg : Char}
    (h : putStep side other canOwn canOther s arg = some t) : Puts side other canOwn canOther s arg t := by
  cases hp : s.put side with
  | idle =>
    simp only [putStep, hp] at h
    cases h
    exact .idle hp
  | acquire =>
    simp only [putStep, hp, Option.map_eq_some_iff, p_eq_some] at h
    obtain ⟨m,hm,rfl⟩ := h
    exact .acquire hp hm
  | test todo =>
    cases todo with
    | nil =>
      simp only [putStep, hp] at h
      cases h
      exact .passes hp
    | cons c todo =>
      simp only [putStep, hp] at h
      split at h <;> cases h
      · next hc => exact .testHolds hp hc
      · next hc => exact .testFails hp (Bool.eq_false_of_not_eq_true hc)
  | setWait =>
    simp only [putStep, hp] at h
    cases h
    exact .setWait hp
  | release =>
    simp only [putStep, hp] at h
    cases h
    exact .release hp
  | suspend =>
    simp only [putStep, hp, Option.map_eq_some_iff, p_eq_some] at h
    obtain ⟨m,hm,rfl⟩ := h
    exact .suspend hp hm
  | clearWait =>
    simp only [putStep, hp] at h
    cases h
    exact .clearWait hp
  | push =>
    simp only [putStep, hp] at h
    cases h
    exact .push hp
  | display =>
    simp only [putStep, hp] at h
    cases h
    exact .display hp
  | postEmpty =>
    simp only [putStep, hp] at h
    cases h
    exact .postEmpty hp
  | testOther todo =>
    cases todo with
    | nil =>
      simp only [putStep, hp] at h
      cases h
      exact .otherPasses hp
    | cons c todo =>
      simp only [putStep, hp] at h
      split at h <;> cases h
      · next hc => exact .otherHolds hp hc
      · next hc => exact .otherFails hp (Bool.eq_false_of_not_eq_true hc)
  | testWait =>
    simp only [putStep, hp] at h
    split at h <;> cases h
    · next hw => exact .otherWaits hp hw
    · next hw => exact .noneWaits hp (Bool.eq_false_of_not_eq_true hw)
  | resumeOther =>
    simp only [putStep, hp] at h
    cases h
    exact .resumeOther hp
  | leave =>
    simp only [putStep, hp] at h
    cases h
    exact .leave hp

/-- What a step of a consumer can do, line by line. -/
inductive Gets [DecidableEq ι] (s : State ι) (i : ι) : State ι → Prop
  | idle (hp : s.get i = .idle) : Gets s i (s.goGet i .takeEmpty)
  | takeEmpty {m : ℕ} (hp : s.get i = .takeEmpty) (hm : s.empty = m + 1) :
      Gets s i { s.goGet i .acquire with empty := m }
  | acquire {m : ℕ} (hp : s.get i = .acquire) (hm : s.mutex = m + 1) : Gets s i { s.goGet i .front with mutex := m }
  | front (hp : s.get i = .front) :
      Gets s i { s.goGet i .erase with front := Function.update s.front i s.values.head? }
  | erase (hp : s.get i = .erase) : Gets s i { s.goGet i .display with values := s.values.tail }
  | display (hp : s.get i = .display) : Gets s i (s.goGet i (.testA canA))
  | passesA (hp : s.get i = .testA []) : Gets s i (s.goGet i .testWaitA)
  | holdsA {c : Comparison} {todo : Guard} (hp : s.get i = .testA (c :: todo)) (hc : c.holds s.values.length = true) :
      Gets s i (s.goGet i (.testA todo))
  | failsA {c : Comparison} {todo : Guard} (hp : s.get i = .testA (c :: todo)) (hc : c.holds s.values.length = false) :
      Gets s i (s.goGet i (.testB canB))
  | waitsA (hp : s.get i = .testWaitA) (hw : s.wait .A = true) : Gets s i (s.goGet i .resumeA)
  | freeA (hp : s.get i = .testWaitA) (hw : s.wait .A = false) : Gets s i (s.goGet i (.testB canB))
  | resumeA (hp : s.get i = .resumeA) :
      Gets s i { s.goGet i .idle with stop := Function.update s.stop .A (v (s.stop .A)) }
  | passesB (hp : s.get i = .testB []) : Gets s i (s.goGet i .testWaitB)
  | holdsB {c : Comparison} {todo : Guard} (hp : s.get i = .testB (c :: todo)) (hc : c.holds s.values.length = true) :
      Gets s i (s.goGet i (.testB todo))
  | failsB {c : Comparison} {todo : Guard} (hp : s.get i = .testB (c :: todo)) (hc : c.holds s.values.length = false) :
      Gets s i (s.goGet i .leave)
  | waitsB (hp : s.get i = .testWaitB) (hw : s.wait .B = true) : Gets s i (s.goGet i .resumeB)
  | freeB (hp : s.get i = .testWaitB) (hw : s.wait .B = false) : Gets s i (s.goGet i .leave)
  | resumeB (hp : s.get i = .resumeB) :
      Gets s i { s.goGet i .idle with stop := Function.update s.stop .B (v (s.stop .B)) }
  | leave (hp : s.get i = .leave) : Gets s i { s.goGet i .idle with mutex := v s.mutex }

theorem getStep_gets [DecidableEq ι] {s t : State ι} {i : ι} (h : getStep s i = some t) : Gets s i t := by
  cases hp : s.get i with
  | idle =>
    simp only [getStep, hp] at h
    cases h
    exact .idle hp
  | takeEmpty =>
    simp only [getStep, hp, Option.map_eq_some_iff, p_eq_some] at h
    obtain ⟨m,hm,rfl⟩ := h
    exact .takeEmpty hp hm
  | acquire =>
    simp only [getStep, hp, Option.map_eq_some_iff, p_eq_some] at h
    obtain ⟨m,hm,rfl⟩ := h
    exact .acquire hp hm
  | front =>
    simp only [getStep, hp] at h
    cases h
    exact .front hp
  | erase =>
    simp only [getStep, hp] at h
    cases h
    exact .erase hp
  | display =>
    simp only [getStep, hp] at h
    cases h
    exact .display hp
  | testA todo =>
    cases todo with
    | nil =>
      simp only [getStep, hp] at h
      cases h
      exact .passesA hp
    | cons c todo =>
      simp only [getStep, hp] at h
      split at h <;> cases h
      · next hc => exact .holdsA hp hc
      · next hc => exact .failsA hp (Bool.eq_false_of_not_eq_true hc)
  | testWaitA =>
    simp only [getStep, hp] at h
    split at h <;> cases h
    · next hw => exact .waitsA hp hw
    · next hw => exact .freeA hp (Bool.eq_false_of_not_eq_true hw)
  | resumeA =>
    simp only [getStep, hp] at h
    cases h
    exact .resumeA hp
  | testB todo =>
    cases todo with
    | nil =>
      simp only [getStep, hp] at h
      cases h
      exact .passesB hp
    | cons c todo =>
      simp only [getStep, hp] at h
      split at h <;> cases h
      · next hc => exact .holdsB hp hc
      · next hc => exact .failsB hp (Bool.eq_false_of_not_eq_true hc)
  | testWaitB =>
    simp only [getStep, hp] at h
    split at h <;> cases h
    · next hw => exact .waitsB hp hw
    · next hw => exact .freeB hp (Bool.eq_false_of_not_eq_true hw)
  | resumeB =>
    simp only [getStep, hp] at h
    cases h
    exact .resumeB hp
  | leave =>
    simp only [getStep, hp] at h
    cases h
    exact .leave hp

/-- Between acquiring the mutex, or being resumed from `stopA`/`stopB`, and
giving the section up. -/
def PutPC.inside : PutPC → Bool
  | .idle | .acquire | .suspend => false
  | _ => true

def GetPC.inside : GetPC → Bool
  | .idle | .takeEmpty | .acquire => false
  | _ => true

inductive Who (ι : Type)
  | producer (side : Side)
  | consumer (i : ι)
  deriving DecidableEq, Repr

def State.inside (s : State ι) : Who ι → Bool
  | .producer side => (s.put side).inside
  | .consumer i => (s.get i).inside

/-- The safety of the critical section and of both guarded pushes. -/
structure Safe (s : State ι) : Prop where
  exclusive : ∀ x y, s.inside x = true → s.inside y = true → x = y
  mutex_le : s.mutex ≤ 1
  pushA : s.put .A = .push → s.values.length < 5
  pushB : s.put .B = .push → 3 < s.values.length ∧ s.values.length < BUFFER_SIZE

end SOI.SemaphoreBuffer

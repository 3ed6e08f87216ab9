import SOI.Library.Linked
import SOI.Library.Intervals

/-! # The hole table and the allocator

Slots of the hole table are linked through `h_next`, both in the list of holes
and in the list of unused slots. Clicks are 32-bit. The code stops by a panic, at
a null pointer or, in the model, in a loop that makes too many turns; the last two
turn out to be impossible.
-/
namespace SOI.Memory
open Intervals

inductive Stop
  | panic (message : String)
  | nil
  | loop
  deriving DecidableEq, Repr

/-- Arithmetic on `phys_clicks`. -/
def wrap (n : ℕ) : ℕ := n % 2 ^ 32

def wrapSub (a b : ℕ) : ℕ := wrap (a + (2 ^ 32 - wrap b))

variable {N : ℕ}

structure Hole (N : ℕ) where
  h_next : Option (Fin N) := none
  h_base : ℕ := 0
  h_len : ℕ := 0

/-- The table `hole` with the heads of its two lists. -/
structure Table (N : ℕ) where
  hole : Fin N → Hole N
  hole_head : Option (Fin N)
  free_slots : Option (Fin N)

def Table.next (t : Table N) (s : Fin N) : Option (Fin N) := (t.hole s).h_next

def Table.block (t : Table N) (s : Fin N) : Block := ⟨(t.hole s).h_base,(t.hole s).h_len⟩

def Table.setNext (t : Table N) (s : Fin N) (next : Option (Fin N)) : Table N :=
  { t with hole := Function.update t.hole s { t.hole s with h_next := next } }

def Table.setBlock (t : Table N) (s : Fin N) (base len : ℕ) : Table N :=
  { t with hole := Function.update t.hole s { t.hole s with h_base := base, h_len := len } }

/-- Take `hp` out of the list of holes, `prev_ptr` being the hole ahead of it. -/
def unlink (t : Table N) (prev_ptr : Option (Fin N)) (hp : Fin N) : Except Stop (Table N) :=
  if some hp = t.hole_head then .ok { t with hole_head := t.next hp }
  else match prev_ptr with
    | none => .error .nil
    | some prev_ptr => .ok (t.setNext prev_ptr (t.next hp))

/-- Remove an entry from the hole list. -/
def del_slot (t : Table N) (prev_ptr : Option (Fin N)) (hp : Fin N) : Except Stop (Table N) :=
  (unlink t prev_ptr hp).map fun t => { t.setNext hp t.free_slots with free_slots := some hp }

/-- Half of `merge`: a hole absorbs its successor if they touch. Gives the hole
to go on with, or none at the end of the list. -/
def absorb (t : Table N) (hp : Fin N) : Except Stop (Table N × Option (Fin N)) :=
  match t.next hp with
  | none => .ok (t,none)
  | some next_ptr =>
    let h := t.hole hp
    let next := t.hole next_ptr
    if wrap (h.h_base + h.h_len) = next.h_base then
      (del_slot (t.setBlock hp h.h_base (wrap (h.h_len + next.h_len))) (some hp) next_ptr).map (·,some hp)
    else .ok (t,some next_ptr)

/-- Merge the first of three holes that may touch with its successors. -/
def merge (t : Table N) (hp : Fin N) : Except Stop (Table N) := do
  match ← absorb t hp with
  | (t,none) => .ok t
  | (t,some hp) => (absorb t hp).map Prod.fst

/-- `while (hp != NIL_HOLE && base > hp->h_base)`: the last hole below `base`. -/
def seekBelow (t : Table N) (base : ℕ) : ℕ → Option (Fin N) → Option (Fin N) → Except Stop (Option (Fin N))
  | 0, _, _ => .error .loop
  | _ + 1, prev_ptr, none => .ok prev_ptr
  | fuel + 1, prev_ptr, some hp =>
    if (t.hole hp).h_base < base then seekBelow t base fuel (some hp) (t.next hp) else .ok prev_ptr

/-- Return a block of free memory to the hole list. -/
def free_mem (t : Table N) (base clicks : ℕ) : Except Stop (Table N) :=
  if clicks = 0 then .ok t
  else match t.free_slots with
    | none => .error (.panic "Hole table full")
    | some new_ptr =>
      let t := { t.setBlock new_ptr base clicks with free_slots := t.next new_ptr }
      if t.hole_head.all fun hp => base ≤ (t.hole hp).h_base then
        merge { t.setNext new_ptr t.hole_head with hole_head := some new_ptr } new_ptr
      else do
        match ← seekBelow t base (N + 1) none t.hole_head with
        | none => .error .nil
        | some prev_ptr =>
          merge ((t.setNext new_ptr (t.next prev_ptr)).setNext prev_ptr (some new_ptr)) prev_ptr

/-- Walk along the holes up to one that fits, with its predecessor, or up to one
at which to give up. -/
def search (t : Table N) (stop fits : Hole N → Bool) :
    ℕ → Option (Fin N) → Option (Fin N) → Except Stop (Option (Option (Fin N) × Fin N))
  | 0, _, _ => .error .loop
  | _ + 1, _, none => .ok none
  | fuel + 1, prev_ptr, some hp =>
    if stop (t.hole hp) then .ok none
    else if fits (t.hole hp) then .ok (some (prev_ptr,hp))
    else search t stop fits fuel (some hp) (t.next hp)

/-- The loop of first fit: only holes below the swap area are looked at. -/
def firstFit (t : Table N) (swap_base clicks : ℕ) : Except Stop (Option (Option (Fin N) × Fin N)) :=
  search t (fun h => swap_base ≤ h.h_base) (fun h => clicks ≤ h.h_len) (N + 1) none t.hole_head

/-- The loop of `swap_out`: the first hole of the swap area that is big enough. -/
def swapHole (t : Table N) (swap_base size : ℕ) : Except Stop (Option (Option (Fin N) × Fin N)) :=
  search t (fun _ => false) (fun h => swap_base ≤ h.h_base && size ≤ h.h_len) (N + 1) none t.hole_head

def biggestFrom (t : Table N) (swap_base clicks : ℕ) : ℕ → Option (Option (Fin N) × Fin N) →
    Option (Fin N) → Option (Fin N) → Except Stop (Option (Option (Fin N) × Fin N))
  | 0, _, _, _ => .error .loop
  | _ + 1, best, _, none => .ok best
  | fuel + 1, best, prev_ptr, some hp =>
    if (t.hole hp).h_base < swap_base then
      let better := clicks ≤ (t.hole hp).h_len && best.all fun b => (t.hole b.2).h_len < (t.hole hp).h_len
      biggestFrom t swap_base clicks fuel (if better then some (prev_ptr,hp) else best) (some hp) (t.next hp)
    else .ok best

/-- The biggest hole below the swap area that is big enough, with its predecessor. -/
def findBiggestHole (t : Table N) (swap_base clicks : ℕ) : Except Stop (Option (Option (Fin N) × Fin N)) :=
  biggestFrom t swap_base clicks (N + 1) none none t.hole_head

/-- Bite a piece off a hole, and delete the hole if it is used up completely. -/
def biteOff (t : Table N) (prev_ptr : Option (Fin N)) (hp : Fin N) (clicks : ℕ) : Except Stop (ℕ × Table N) :=
  let h := t.hole hp
  let t := t.setBlock hp (wrap (h.h_base + clicks)) (h.h_len - clicks)
  if h.h_len - clicks = 0 then (del_slot t prev_ptr hp).map (h.h_base,·) else .ok (h.h_base,t)

structure MemMap where
  mem_vir : ℕ := 0
  mem_phys : ℕ := 0
  mem_len : ℕ := 0
  deriving DecidableEq, Repr

structure MProc where
  PAUSED : Bool := false
  WAITING : Bool := false
  SIGSUSPENDED : Bool := false
  TRACED : Bool := false
  REPLY : Bool := false
  ONSWAP : Bool := false
  D : MemMap := {}
  S : MemMap := {}
  deriving DecidableEq, Repr

def MProc.candidate (p : MProc) : Bool :=
  (p.PAUSED || p.WAITING || p.SIGSUSPENDED) && !(p.TRACED || p.REPLY || p.ONSWAP)

def MProc.size (p : MProc) : ℕ := wrapSub (p.S.mem_vir + p.S.mem_len) p.D.mem_vir

/-- The memory manager. `live` is a history variable: the blocks with at least one
click that have been handed out, or swapped to, and not been freed. -/
structure Manager (NR_PROCS : ℕ) where
  table : Table (2 * NR_PROCS)
  swap_base : ℕ
  swap_maxsize : ℕ := 0
  mproc : ℕ → MProc
  outswap : ℕ
  isWorstFit : ℤ := 0
  live : List Block := []

variable {NR_PROCS : ℕ}

/-- A block as a list, blocks without clicks being left out. -/
def owned (base clicks : ℕ) : List Block := if clicks = 0 then [] else [⟨base,clicks⟩]

/-- The tables when a process has been moved to `new_base` and its memory freed. -/
def moved (m : Manager NR_PROCS) (rmp new_base : ℕ) (table : Table (2 * NR_PROCS)) : Manager NR_PROCS :=
  let p := m.mproc rmp
  { m with
    table := table
    mproc := Function.update m.mproc rmp { p with
      ONSWAP := true
      D := { p.D with mem_phys := new_base }
      S := { p.S with mem_phys := wrap (new_base + wrapSub p.S.mem_vir p.D.mem_vir) } }
    outswap := rmp
    live := owned new_base p.size ++ m.live.erase ⟨p.D.mem_phys,p.size⟩ }

/-- Move the process to a hole of the swap area. -/
def swapTo (m : Manager NR_PROCS) (rmp : ℕ) (prev_ptr : Option (Fin (2 * NR_PROCS)))
    (hp : Fin (2 * NR_PROCS)) : Except Stop (Manager NR_PROCS) := do
  let p := m.mproc rmp
  let (new_base,table) ← biteOff m.table prev_ptr hp p.size
  let table ← free_mem table p.D.mem_phys p.size
  .ok (moved m rmp new_base table)

/-- The `do` loop of `swap_out`: go round the table, ending with `outswap` itself. -/
def swapFrom (LOW_USER : ℕ) (m : Manager NR_PROCS) : ℕ → ℕ → Except Stop (Bool × Manager NR_PROCS)
  | 0, _ => .error .loop
  | fuel + 1, rmp => do
    let rmp := if rmp + 1 = NR_PROCS then LOW_USER else rmp + 1
    let next := if rmp ≠ m.outswap then swapFrom LOW_USER m fuel rmp else .ok (false,m)
    if (m.mproc rmp).candidate then
      match ← swapHole m.table m.swap_base (m.mproc rmp).size with
      | none => next
      | some (prev_ptr,hp) => (swapTo m rmp prev_ptr hp).map (true,·)
    else next

/-- Try to find a process that can be swapped out. -/
def swap_out (LOW_USER : ℕ) (m : Manager NR_PROCS) : Except Stop (Bool × Manager NR_PROCS) :=
  swapFrom LOW_USER m NR_PROCS m.outswap

/-- The hole that the present policy takes for a request. -/
def chooseHole (m : Manager NR_PROCS) (clicks : ℕ) :
    Except Stop (Option (Option (Fin (2 * NR_PROCS)) × Fin (2 * NR_PROCS))) :=
  if m.isWorstFit = 0 then firstFit m.table m.swap_base clicks
  else findBiggestHole m.table m.swap_base clicks

/-- The loop of `alloc_mem`, which ends at one of its two `return`s: the base of a hole, or none. -/
def allocLoop (LOW_USER clicks : ℕ) : ℕ → Manager NR_PROCS → Except Stop (Option ℕ × Manager NR_PROCS)
  | 0, _ => .error .loop
  | fuel + 1, m => do
    match ← chooseHole m clicks with
    | some (prev_ptr,hp) =>
      (biteOff m.table prev_ptr hp clicks).map fun r =>
        (some r.1,{ m with table := r.2, live := owned r.1 clicks ++ m.live })
    | none =>
      match ← swap_out LOW_USER m with
      | (true,m) => allocLoop LOW_USER clicks fuel m
      | (false,m) => .ok (none,m)

/-- Allocate a block, swapping out other processes if needed. `NO_MEM` comes from the headers
of the system: nothing here keeps a block from starting at it. -/
def alloc_mem (NO_MEM LOW_USER clicks : ℕ) (m : Manager NR_PROCS) : Except Stop (ℕ × Manager NR_PROCS) :=
  (allocLoop LOW_USER clicks (NR_PROCS + 1) m).map fun r => (r.1.getD NO_MEM,r.2)

def do_worst_fit (w : ℤ) (m : Manager NR_PROCS) : Manager NR_PROCS :=
  if w = 0 then { m with isWorstFit := 0 }
  else if w = 1 then { m with isWorstFit := 1 }
  else m

def emptyTable (N : ℕ) : Table N where
  hole i := { h_next := if h : i + 1 < N then some ⟨i + 1,h⟩ else none }
  hole_head := none
  free_slots := if h : 0 < N then some ⟨0,h⟩ else none

/-- Return chunks of memory one after the other. -/
def freeAll : Table N → List Block → Except Stop (Table N)
  | t, [] => .ok t
  | t, b :: bs => (free_mem t b.base b.len).bind fun t => freeAll t bs

/-- The chunks that the kernel reports, up to the first empty one. -/
def mem_init (replies : List Block) (mproc : ℕ → MProc) (LOW_USER : ℕ) : Except Stop (Manager NR_PROCS) :=
  let chunks := replies.takeWhile fun b => b.len ≠ 0
  let swap_base := wrap (chunks.foldl (fun top b => max top (wrap b.stop)) 0 + 1)
  (freeAll (emptyTable (2 * NR_PROCS)) chunks).map fun t =>
    { table := t, swap_base := swap_base, swap_maxsize := wrapSub 0 swap_base, mproc := mproc,
      outswap := LOW_USER }

/-- Turning swapping on with an area of so many clicks. -/
def swap_on (size : ℕ) (m : Manager NR_PROCS) : Except Stop (Manager NR_PROCS) :=
  (free_mem m.table m.swap_base (min size m.swap_maxsize)).map fun t => { m with table := t }

end SOI.Memory

import SOI.Memory.SwapOut
import SOI.Library.Copies
import SOI.Library.Runs

/-! # Swapping processes out and in

The manager with the contents of the memory and of the swap file, and the queue of the
processes that are to be swapped in. `swap_in` is taken turn by turn, since
`check_pending` may do other calls after each of them. `rw_seg` copies between a
process and the swap file, which is counted in clicks from `swap_offset` on.
-/
namespace SOI.Memory
open Linked Intervals Copies
variable {α : Type} {NR_PROCS : ℕ}

structure Clicks (α : Type) where
  memory : ℕ → α
  file : ℕ → α

/-- `rw_seg`: whether it writes to the file, where the segment lies, the position in
the file and the number of clicks. -/
abbrev RwSeg (α : Type) := Bool → ℕ → ℕ → ℕ → Clicks α → Clicks α

/-- `rw_seg` copies a segment to the file or back. -/
structure CopiesSegments (rw_seg : RwSeg α) : Prop where
  out : ∀ base off clicks (c : Clicks α), rw_seg true base off clicks c =
    { c with file := fun k => if off ≤ k ∧ k < off + clicks then c.memory (base + (k - off)) else c.file k }
  back : ∀ base off clicks (c : Clicks α), rw_seg false base off clicks c =
    { c with memory := fun k => if base ≤ k ∧ k < base + clicks then c.file (off + (k - base)) else c.memory k }

/-- `swap_in` is under way where there is a `pmp`: it points to the head of the queue
or to the link of a process on it. -/
structure Swapper (NR_PROCS : ℕ) (α : Type) where
  manager : Manager NR_PROCS
  clicks : Clicks α
  swap_fd : Bool := false
  IN_USE : ℕ → Bool := fun _ => false
  SWAPIN : ℕ → Bool := fun _ => false
  mp_swapq : ℕ → Option ℕ := fun _ => none
  in_queue : Option ℕ := none
  pmp : Option (Option ℕ) := none

/-- `*pmp` -/
def Swapper.link (w : Swapper NR_PROCS α) (pmp : Option ℕ) : Option ℕ := pmp.elim w.in_queue w.mp_swapq

def Swapper.setLink (w : Swapper NR_PROCS α) (pmp rmp : Option ℕ) : Swapper NR_PROCS α :=
  match pmp with
  | none => { w with in_queue := rmp }
  | some p => { w with mp_swapq := Function.update w.mp_swapq p rmp }

/-- Try to find a process that can be swapped out; the one that is found is now
`outswap`, and its memory is in the file. -/
def Swapper.swap_out (rw_seg : RwSeg α) (LOW_USER : ℕ) (w : Swapper NR_PROCS α) :
    Except Stop (Bool × Swapper NR_PROCS α) :=
  (Memory.swap_out LOW_USER w.manager).map fun r =>
    let rmp := r.2.outswap
    let p := w.manager.mproc rmp
    let new_base := (r.2.mproc rmp).D.mem_phys
    let clicks :=
      if r.1 then rw_seg true p.D.mem_phys (wrapSub new_base w.manager.swap_base) p.size w.clicks else w.clicks
    (r.1,{ w with manager := r.2, clicks := clicks })

def Swapper.allocLoop (rw_seg : RwSeg α) (LOW_USER clicks : ℕ) :
    ℕ → Swapper NR_PROCS α → Except Stop (Option ℕ × Swapper NR_PROCS α)
  | 0, _ => .error .loop
  | fuel + 1, w =>
    (chooseHole w.manager clicks).bind fun hole =>
      match hole with
      | some (prev_ptr,hp) =>
        (biteOff w.manager.table prev_ptr hp clicks).map fun r =>
          (some r.1,{ w with manager := { w.manager with table := r.2, live := owned r.1 clicks ++ w.manager.live } })
      | none =>
        (w.swap_out rw_seg LOW_USER).bind fun r =>
          if r.1 then Swapper.allocLoop rw_seg LOW_USER clicks fuel r.2 else .ok (none,r.2)

def Swapper.alloc_mem (rw_seg : RwSeg α) (NO_MEM LOW_USER clicks : ℕ) (w : Swapper NR_PROCS α) :
    Except Stop (ℕ × Swapper NR_PROCS α) :=
  (Swapper.allocLoop rw_seg LOW_USER clicks (NR_PROCS + 1) w).map fun r => (r.1.getD NO_MEM,r.2)

def Swapper.free_mem (w : Swapper NR_PROCS α) (b : Block) : Except Stop (Swapper NR_PROCS α) :=
  (Memory.free_mem w.manager.table b.base b.len).map fun t =>
    { w with manager := { w.manager with table := t, live := w.manager.live.erase b } }

/-- `for (pmp = &in_queue; *pmp != NULL; pmp = &(*pmp)->mp_swapq) {}` -/
def Swapper.queueEnd (w : Swapper NR_PROCS α) : ℕ → Option ℕ → Except Stop (Option ℕ)
  | 0, _ => .error .loop
  | fuel + 1, pmp =>
    match w.link pmp with
    | none => .ok pmp
    | some rmp => w.queueEnd fuel (some rmp)

/-- Put a swapped out process on the queue of processes to be swapped in. -/
def Swapper.swap_inqueue (w : Swapper NR_PROCS α) (rmp : ℕ) : Except Stop (Swapper NR_PROCS α) :=
  if w.SWAPIN rmp then .ok w
  else (w.queueEnd (NR_PROCS + 1) none).map fun pmp =>
    { (w.setLink pmp (some rmp)).setLink (some rmp) none with SWAPIN := Function.update w.SWAPIN rmp true }

def Swapper.moveIn (rw_seg : RwSeg α) (w : Swapper NR_PROCS α) (pmp : Option ℕ) (rmp new_base size : ℕ) :
    Except Stop (Swapper NR_PROCS α) :=
  let p := w.manager.mproc rmp
  let old_base := p.D.mem_phys
  let p' := { p with
    ONSWAP := false
    D := { p.D with mem_phys := new_base }
    S := { p.S with mem_phys := wrap (new_base + wrapSub p.S.mem_vir p.D.mem_vir) } }
  (w.free_mem ⟨old_base,size⟩).map fun w =>
    { w.setLink pmp (w.mp_swapq rmp) with
      manager := { w.manager with mproc := Function.update w.manager.mproc rmp p' }
      clicks := rw_seg false new_base (wrapSub old_base w.manager.swap_base) size w.clicks
      SWAPIN := Function.update w.SWAPIN rmp false }

/-- One turn of the loop of `swap_in`, as far as `check_pending`. -/
def Swapper.turn (rw_seg : RwSeg α) (NO_MEM LOW_USER : ℕ) (w : Swapper NR_PROCS α) (pmp : Option ℕ) :
    Except Stop (Swapper NR_PROCS α) :=
  match w.link pmp with
  | none => .ok { w with pmp := none }
  | some rmp =>
    -- it was killed: the queue is cleaned here
    if !w.SWAPIN rmp then .ok (w.setLink pmp (w.mp_swapq rmp))
    else
      let size := (w.manager.mproc rmp).size
      (w.alloc_mem rw_seg NO_MEM LOW_USER size).bind fun r =>
        -- a block that starts at `NO_MEM` is lost
        if r.1 = NO_MEM then .ok { r.2 with pmp := some (some rmp) }
        else r.2.moveIn rw_seg pmp rmp r.1 size

/-- The loop of `swap_in` with nothing done in between. -/
def Swapper.swap_in (rw_seg : RwSeg α) (NO_MEM LOW_USER : ℕ) :
    ℕ → Swapper NR_PROCS α → Except Stop (Swapper NR_PROCS α)
  | 0, _ => .error .loop
  | fuel + 1, w =>
    match w.pmp with
    | none => .ok w
    | some pmp => (w.turn rw_seg NO_MEM LOW_USER pmp).bind fun w => Swapper.swap_in rw_seg NO_MEM LOW_USER fuel w

/-- Turn swapping on with an area of so many clicks, the file having been opened;
`EBUSY` when there is one already. -/
def Swapper.swap_on (w : Swapper NR_PROCS α) (size : ℕ) : Except Stop (Swapper NR_PROCS α) :=
  if w.swap_fd then .ok w
  else (Memory.swap_on size w.manager).map fun m => { w with manager := m, swap_fd := true }

def users (LOW_USER NR_PROCS : ℕ) : List ℕ := (List.range NR_PROCS).filter fun r => LOW_USER ≤ r

/-- `swap_off` before it calls `swap_in`: put all swapped out processes on the queue. -/
def Swapper.swap_offQueue (LOW_USER : ℕ) (w : Swapper NR_PROCS α) : Except Stop (Swapper NR_PROCS α) :=
  if !w.swap_fd then .ok w
  else (users LOW_USER NR_PROCS).foldlM
    (fun w rmp => if (w.manager.mproc rmp).ONSWAP then w.swap_inqueue rmp else .ok w) w

/-- The loop of `swap_off` that removes the holes of the swap area; it starts again
behind the first hole of those left. -/
def dropHoles {N : ℕ} (swap_base : ℕ) : ℕ → Table N → Option (Fin N) → Option (Fin N) → Except Stop (Table N)
  | 0, _, _, _ => .error .loop
  | _ + 1, t, _, none => .ok t
  | fuel + 1, t, prev_ptr, some hp =>
    if swap_base ≤ (t.hole hp).h_base then
      (del_slot t prev_ptr hp).bind fun t =>
        match t.hole_head with
        | none => .error .nil
        | some hp => dropHoles swap_base fuel t (some hp) (t.next hp)
    else dropHoles swap_base fuel t (some hp) (t.next hp)

/-- The rest of `swap_off`; `ENOMEM` while a process is on the swap file. -/
def Swapper.swap_off (LOW_USER : ℕ) (w : Swapper NR_PROCS α) : Except Stop (Swapper NR_PROCS α) :=
  if !w.swap_fd then .ok w
  else if (users LOW_USER NR_PROCS).any fun rmp => (w.manager.mproc rmp).ONSWAP then .ok w
  else
    let N := 2 * NR_PROCS
    (dropHoles w.manager.swap_base ((N + 1) * (N + 1)) w.manager.table none w.manager.table.hole_head).map fun t =>
      { w with manager := { w.manager with table := t }, swap_fd := false }

/-- The calls of the manager, the turns of `swap_in`, and what the rest of MM and the
processes do in between: a process takes over a block that was handed out, with the
contents it is to have, changes its flags, writes to its memory, or exits. -/
inductive SwapCall (α : Type)
  | do_worst_fit (w : ℤ)
  | alloc_mem (clicks : ℕ)
  | free_mem (b : Block)
  | swap_inqueue (rmp : ℕ)
  | swap_in
  | turn
  | swap_on (size : ℕ)
  | swap_offQueue
  | swap_off
  | start (rmp : ℕ) (D S : MemMap) (image : ℕ → α)
  | flags (rmp : ℕ) (PAUSED WAITING SIGSUSPENDED TRACED REPLY : Bool)
  | write (rmp i : ℕ) (x : α)
  | exit (rmp : ℕ)

def Swapper.setProc (w : Swapper NR_PROCS α) (rmp : ℕ) (p : MProc) : Swapper NR_PROCS α :=
  { w with manager := { w.manager with mproc := Function.update w.manager.mproc rmp p } }

def Swapper.setMemory (w : Swapper NR_PROCS α) (memory : ℕ → α) : Swapper NR_PROCS α :=
  { w with clicks := { w.clicks with memory := memory } }

def swapStep (rw_seg : RwSeg α) (NO_MEM LOW_USER : ℕ) (w : Swapper NR_PROCS α) :
    SwapCall α → Except Stop (Swapper NR_PROCS α)
  | .do_worst_fit n => .ok { w with manager := Memory.do_worst_fit n w.manager }
  | .alloc_mem clicks => (w.alloc_mem rw_seg NO_MEM LOW_USER clicks).map Prod.snd
  | .free_mem b => w.free_mem b
  | .swap_inqueue rmp => w.swap_inqueue rmp
  | .swap_in => .ok { w with pmp := some none }
  | .turn => w.pmp.elim (.ok w) (w.turn rw_seg NO_MEM LOW_USER)
  | .swap_on size => w.swap_on size
  | .swap_offQueue => w.swap_offQueue LOW_USER
  | .swap_off => w.swap_off LOW_USER
  | .start rmp D S image =>
    let p : MProc := { D := D, S := S }
    let memory := fun n => if p.range.base ≤ n ∧ n < p.range.stop then image (n - p.range.base) else w.clicks.memory n
    .ok { (w.setProc rmp p).setMemory memory with IN_USE := Function.update w.IN_USE rmp true }
  | .flags rmp PAUSED WAITING SIGSUSPENDED TRACED REPLY =>
    let p := w.manager.mproc rmp
    .ok (w.setProc rmp { p with
      PAUSED := PAUSED, WAITING := WAITING, SIGSUSPENDED := SIGSUSPENDED, TRACED := TRACED, REPLY := REPLY })
  | .write rmp i x =>
    .ok (w.setMemory (Function.update w.clicks.memory ((w.manager.mproc rmp).range.base + i) x))
  | .exit rmp =>
    (w.free_mem (w.manager.mproc rmp).range).map fun w =>
      { w.setProc rmp {} with
        IN_USE := Function.update w.IN_USE rmp false, SWAPIN := Function.update w.SWAPIN rmp false }

end SOI.Memory

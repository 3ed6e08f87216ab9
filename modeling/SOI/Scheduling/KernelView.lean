import SOI.Scheduling.Picking
import SOI.Scheduling.Services

/-! # The state of the kernel without its ready queues

The fields of the process table as functions of the slot, one for each field, so
that what an operation does is said by the functions it updates.
-/
namespace SOI.Scheduling
open Rendezvous
variable {ρ : Type}

@[ext] structure View (ρ : Type) where
  NO_MAP : ρ → Bool
  SENDING : ρ → Bool
  RECEIVING : ρ → Bool
  PENDING : ρ → Bool
  SIG_PENDING : ρ → Bool
  P_STOP : ρ → Bool
  priority : ρ → Priority
  getfrom : ρ → Source ρ
  int_blocked : ρ → Bool
  int_held : ρ → Bool
  nextheld : ρ → Option ρ
  callerq : ρ → Option ρ
  sendlink : ρ → Option ρ
  pending : ρ → ℕ
  pendcount : ρ → ℕ
  sendto : ρ → ρ
  messbuf : ρ → ℕ
  map : ρ → MemMap
  sig_procs : ℤ
  memory : ρ → ℕ → Letter ρ
  log : List (Event ρ (Letter ρ))
  interrupts : List (Interrupt ρ)
  held_head : Option ρ
  held_tail : Option ρ

def System.view (s : System ρ) : View ρ where
  NO_MAP rp := (s.flags rp).NO_MAP
  SENDING rp := (s.flags rp).SENDING
  RECEIVING rp := (s.flags rp).RECEIVING
  PENDING rp := (s.flags rp).PENDING
  SIG_PENDING rp := (s.flags rp).SIG_PENDING
  P_STOP rp := (s.flags rp).P_STOP
  priority rp := (s.table.proc rp).p_priority
  getfrom rp := (s.table.proc rp).p_getfrom
  int_blocked rp := (s.table.proc rp).p_int_blocked
  int_held rp := (s.table.proc rp).p_int_held
  nextheld rp := (s.table.proc rp).p_nextheld
  callerq rp := (s.rest rp).p_callerq
  sendlink rp := (s.rest rp).p_sendlink
  pending rp := (s.rest rp).p_pending
  pendcount rp := (s.rest rp).p_pendcount
  sendto rp := (s.post rp).p_sendto
  messbuf rp := (s.post rp).p_messbuf
  map rp := (s.post rp).p_map
  sig_procs := s.sig_procs
  memory := s.memory
  log := s.log
  interrupts := s.interrupts
  held_head := s.kernel.held_head
  held_tail := s.kernel.held_tail

def View.flagless (v : View ρ) (rp : ρ) : Bool :=
  !v.NO_MAP rp && !v.SENDING rp && !v.RECEIVING rp && !v.PENDING rp && !v.SIG_PENDING rp && !v.P_STOP rp

theorem flags_eq_iff (s : System ρ) (rp : ρ) : s.flags rp = {} ↔ s.view.flagless rp = true := by
  simp only [View.flagless, System.view]
  cases s.flags rp
  simp [and_assoc]

variable {s s' : System ρ} {t : Table ρ} {rp p : ρ}

theorem view_withTable (h : SameFields s.table t) : (s.withTable t).view = s.view := by
  have hflags : ∀ rp, (t.proc rp).p_flags = (s.table.proc rp).p_flags := h.field Proc.p_flags fun _ => rfl
  apply View.ext
  case NO_MAP => exact funext fun p => congrArg Flags.NO_MAP (hflags p)
  case SENDING => exact funext fun p => congrArg Flags.SENDING (hflags p)
  case RECEIVING => exact funext fun p => congrArg Flags.RECEIVING (hflags p)
  case PENDING => exact funext fun p => congrArg Flags.PENDING (hflags p)
  case SIG_PENDING => exact funext fun p => congrArg Flags.SIG_PENDING (hflags p)
  case P_STOP => exact funext fun p => congrArg Flags.P_STOP (hflags p)
  case priority => exact funext (h.field Proc.p_priority fun _ => rfl)
  case getfrom => exact funext (h.field Proc.p_getfrom fun _ => rfl)
  case int_blocked => exact funext (h.field Proc.p_int_blocked fun _ => rfl)
  case int_held => exact funext (h.field Proc.p_int_held fun _ => rfl)
  case nextheld => exact funext (h.field Proc.p_nextheld fun _ => rfl)
  all_goals rfl

variable [DecidableEq ρ]

theorem field_update {ι α β : Type} [DecidableEq ι] (field : α → β) (g : ι → α) (i : ι) (a : α) (p : ι) :
    field (Function.update g i a p) = Function.update (fun p => field (g p)) i (field a) p := by
  by_cases hp : p = i
  · rw [hp, Function.update_self, Function.update_self]
  · rw [Function.update_of_ne hp, Function.update_of_ne hp]

theorem view_setProc (s : System ρ) (rp : ρ) (f : Proc ρ → Proc ρ) :
    (s.setProc rp f).view = { s.view with
      NO_MAP := Function.update s.view.NO_MAP rp (f (s.table.proc rp)).p_flags.NO_MAP
      SENDING := Function.update s.view.SENDING rp (f (s.table.proc rp)).p_flags.SENDING
      RECEIVING := Function.update s.view.RECEIVING rp (f (s.table.proc rp)).p_flags.RECEIVING
      PENDING := Function.update s.view.PENDING rp (f (s.table.proc rp)).p_flags.PENDING
      SIG_PENDING := Function.update s.view.SIG_PENDING rp (f (s.table.proc rp)).p_flags.SIG_PENDING
      P_STOP := Function.update s.view.P_STOP rp (f (s.table.proc rp)).p_flags.P_STOP
      priority := Function.update s.view.priority rp (f (s.table.proc rp)).p_priority
      getfrom := Function.update s.view.getfrom rp (f (s.table.proc rp)).p_getfrom
      int_blocked := Function.update s.view.int_blocked rp (f (s.table.proc rp)).p_int_blocked
      int_held := Function.update s.view.int_held rp (f (s.table.proc rp)).p_int_held
      nextheld := Function.update s.view.nextheld rp (f (s.table.proc rp)).p_nextheld } := by
  apply View.ext
  case NO_MAP => exact funext (field_update (fun q : Proc ρ => q.p_flags.NO_MAP) s.table.proc rp _)
  case SENDING => exact funext (field_update (fun q : Proc ρ => q.p_flags.SENDING) s.table.proc rp _)
  case RECEIVING => exact funext (field_update (fun q : Proc ρ => q.p_flags.RECEIVING) s.table.proc rp _)
  case PENDING => exact funext (field_update (fun q : Proc ρ => q.p_flags.PENDING) s.table.proc rp _)
  case SIG_PENDING => exact funext (field_update (fun q : Proc ρ => q.p_flags.SIG_PENDING) s.table.proc rp _)
  case P_STOP => exact funext (field_update (fun q : Proc ρ => q.p_flags.P_STOP) s.table.proc rp _)
  case priority => exact funext (field_update Proc.p_priority s.table.proc rp _)
  case getfrom => exact funext (field_update Proc.p_getfrom s.table.proc rp _)
  case int_blocked => exact funext (field_update Proc.p_int_blocked s.table.proc rp _)
  case int_held => exact funext (field_update Proc.p_int_held s.table.proc rp _)
  case nextheld => exact funext (field_update Proc.p_nextheld s.table.proc rp _)
  all_goals rfl

theorem view_setRest (s : System ρ) (rp : ρ) (f : Rest ρ → Rest ρ) :
    (s.setRest rp f).view = { s.view with
      callerq := Function.update s.view.callerq rp (f (s.rest rp)).p_callerq
      sendlink := Function.update s.view.sendlink rp (f (s.rest rp)).p_sendlink
      pending := Function.update s.view.pending rp (f (s.rest rp)).p_pending
      pendcount := Function.update s.view.pendcount rp (f (s.rest rp)).p_pendcount } := by
  apply View.ext
  case callerq => exact funext (field_update Rest.p_callerq s.rest rp _)
  case sendlink => exact funext (field_update Rest.p_sendlink s.rest rp _)
  case pending => exact funext (field_update Rest.p_pending s.rest rp _)
  case pendcount => exact funext (field_update Rest.p_pendcount s.rest rp _)
  all_goals rfl

theorem view_setPost (s : System ρ) (rp : ρ) (f : Post ρ → Post ρ) :
    (s.setPost rp f).view = { s.view with
      sendto := Function.update s.view.sendto rp (f (s.post rp)).p_sendto
      messbuf := Function.update s.view.messbuf rp (f (s.post rp)).p_messbuf
      map := Function.update s.view.map rp (f (s.post rp)).p_map } := by
  apply View.ext
  case sendto => exact funext (field_update Post.p_sendto s.post rp _)
  case messbuf => exact funext (field_update Post.p_messbuf s.post rp _)
  case map => exact funext (field_update Post.p_map s.post rp _)
  all_goals rfl

section OneField
variable (s : System ρ) (rp : ρ)

theorem view_NO_MAP (b : Bool) : (s.setFlags rp fun f => { f with NO_MAP := b }).view =
    { s.view with NO_MAP := Function.update s.view.NO_MAP rp b } := by
  rw [System.setFlags, view_setProc]
  apply View.ext
  all_goals first | rfl | exact Function.update_eq_self _ _

theorem view_SENDING (b : Bool) : (s.setFlags rp fun f => { f with SENDING := b }).view =
    { s.view with SENDING := Function.update s.view.SENDING rp b } := by
  rw [System.setFlags, view_setProc]
  apply View.ext
  all_goals first | rfl | exact Function.update_eq_self _ _

theorem view_RECEIVING (b : Bool) : (s.setFlags rp fun f => { f with RECEIVING := b }).view =
    { s.view with RECEIVING := Function.update s.view.RECEIVING rp b } := by
  rw [System.setFlags, view_setProc]
  apply View.ext
  all_goals first | rfl | exact Function.update_eq_self _ _

theorem view_PENDING (b : Bool) : (s.setFlags rp fun f => { f with PENDING := b }).view =
    { s.view with PENDING := Function.update s.view.PENDING rp b } := by
  rw [System.setFlags, view_setProc]
  apply View.ext
  all_goals first | rfl | exact Function.update_eq_self _ _

theorem view_SIG_PENDING (b : Bool) : (s.setFlags rp fun f => { f with SIG_PENDING := b }).view =
    { s.view with SIG_PENDING := Function.update s.view.SIG_PENDING rp b } := by
  rw [System.setFlags, view_setProc]
  apply View.ext
  all_goals first | rfl | exact Function.update_eq_self _ _

theorem view_P_STOP (b : Bool) : (s.setFlags rp fun f => { f with P_STOP := b }).view =
    { s.view with P_STOP := Function.update s.view.P_STOP rp b } := by
  rw [System.setFlags, view_setProc]
  apply View.ext
  all_goals first | rfl | exact Function.update_eq_self _ _

theorem view_signalled : (s.setFlags rp fun f => { f with PENDING := true, SIG_PENDING := true }).view =
    { s.view with
      PENDING := Function.update s.view.PENDING rp true
      SIG_PENDING := Function.update s.view.SIG_PENDING rp true } := by
  rw [System.setFlags, view_setProc]
  apply View.ext
  all_goals first | rfl | exact Function.update_eq_self _ _

theorem view_getfrom (x : Source ρ) : (s.setProc rp fun p => { p with p_getfrom := x }).view =
    { s.view with getfrom := Function.update s.view.getfrom rp x } := by
  rw [view_setProc]
  apply View.ext
  all_goals first | rfl | exact Function.update_eq_self _ _

theorem view_int_blocked (x : Bool) : (s.setProc rp fun p => { p with p_int_blocked := x }).view =
    { s.view with int_blocked := Function.update s.view.int_blocked rp x } := by
  rw [view_setProc]
  apply View.ext
  all_goals first | rfl | exact Function.update_eq_self _ _

theorem view_int_held (x : Bool) : (s.setProc rp fun p => { p with p_int_held := x }).view =
    { s.view with int_held := Function.update s.view.int_held rp x } := by
  rw [view_setProc]
  apply View.ext
  all_goals first | rfl | exact Function.update_eq_self _ _

theorem view_nextheld (x : Option ρ) : (s.setProc rp fun p => { p with p_nextheld := x }).view =
    { s.view with nextheld := Function.update s.view.nextheld rp x } := by
  rw [view_setProc]
  apply View.ext
  all_goals first | rfl | exact Function.update_eq_self _ _

theorem view_callerq (x : Option ρ) : (s.setRest rp fun r => { r with p_callerq := x }).view =
    { s.view with callerq := Function.update s.view.callerq rp x } := by
  rw [view_setRest]
  apply View.ext
  all_goals first | rfl | exact Function.update_eq_self _ _

theorem view_sendlink (x : Option ρ) : (s.setRest rp fun r => { r with p_sendlink := x }).view =
    { s.view with sendlink := Function.update s.view.sendlink rp x } := by
  rw [view_setRest]
  apply View.ext
  all_goals first | rfl | exact Function.update_eq_self _ _

theorem view_pending (x : ℕ) : (s.setRest rp fun r => { r with p_pending := x }).view =
    { s.view with pending := Function.update s.view.pending rp x } := by
  rw [view_setRest]
  apply View.ext
  all_goals first | rfl | exact Function.update_eq_self _ _

theorem view_sendto (x : ρ) : (s.setPost rp fun p => { p with p_sendto := x }).view =
    { s.view with sendto := Function.update s.view.sendto rp x } := by
  rw [view_setPost]
  apply View.ext
  all_goals first | rfl | exact Function.update_eq_self _ _

theorem view_messbuf (x : ℕ) : (s.setPost rp fun p => { p with p_messbuf := x }).view =
    { s.view with messbuf := Function.update s.view.messbuf rp x } := by
  rw [view_setPost]
  apply View.ext
  all_goals first | rfl | exact Function.update_eq_self _ _

theorem view_map (x : MemMap) : (s.setPost rp fun p => { p with p_map := x }).view =
    { s.view with map := Function.update s.view.map rp x } := by
  rw [view_setPost]
  apply View.ext
  all_goals first | rfl | exact Function.update_eq_self _ _

end OneField

end SOI.Scheduling

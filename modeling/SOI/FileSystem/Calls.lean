import SOI.FileSystem.Operations
import SOI.Library.Runs

/-! # Calls of the file system and what each can do

The operations as steps of one transition system. For each operation, one theorem
says what a call that returns has done.
-/
namespace SOI.FileSystem
open Texts

def emptyFileSystem (malfunction_flag : Bool) : State where
  memory := fun _ => 0
  fat := fun _ => FREE_BLOCK
  fd_table := fun _ => emptyFileDescriptor
  file_count := 0
  open_file_fd_table := fun _ => ⟨NO_OPENED_FILE,0⟩
  opened_file_count := 0
  transaction_log := {}
  malfunction_flag := malfunction_flag

inductive Call
  | create (name : Text) (size : Int16)
  | open_ (name : Text)
  | close (name : Text)
  | read (name : Text) (size : Int16)
  | write (name : Text) (buffer : ℕ → Int8) (size : Int16)
  | delete_ (name : Text)

inductive Reply
  | create (status : FileCreateStatus)
  | open_ (status : FileOpenStatus)
  | close (status : FileCloseStatus)
  | read (status : FileReadStatus) (bytes : List Int8)
  | write (status : FileWriteStatus)
  | delete_ (status : FileDeleteStatus)
  deriving DecidableEq, Repr

def Reply.hasSaved : Reply → Bool
  | .create .FILE_CREATE_SUCCESS => true
  | .write .FILE_WRITE_SUCCESS => true
  | .delete_ .FILE_DELETE_SUCCESS => true
  | _ => false

def Outcome.map {α β : Type} (f : α → β) (o : Outcome α) : Outcome β :=
  { saves := o.saves, result := o.result.map fun r => (f r.1,r.2) }

/-- `past` is what `delete_` finds behind a full table of descriptors, if it can be read. -/
def perform (past : Option FileDescriptor) : Call → State → Outcome Reply
  | .create name size, s => (create name size s).map .create
  | .open_ name, s => (open_ name s).map .open_
  | .close name, s => (close name s).map .close
  | .read name size, s => (read name size s).map fun r => .read r.1 r.2
  | .write name buffer size, s => (write name buffer size s).map .write
  | .delete_ name, s => (delete_ past name s).map .delete_

def step (past : Option FileDescriptor) (s : State) (call : Call) : Option State :=
  (perform past call s).result.toOption.map Prod.snd

section
variable {α β γ : Type} {s s' : State} {a : α} {b : β} {name : Text} {size : Int16}

@[simp] theorem done_result : (done a s).result = .ok (a,s) := rfl

@[simp] theorem saved_result : (saved a s).result = .ok (a,s) := rfl

@[simp] theorem stopped_result {e : Stop} : (stopped e : Outcome α).result = .error e := rfl

theorem proceed_ok {r : Except Stop γ} {f : γ → Outcome α} :
    (proceed r f).result = .ok (a,s) ↔ ∃ c, r = .ok c ∧ (f c).result = .ok (a,s) := by
  cases r with
  | error e => simp [proceed]
  | ok c => simp [proceed]

theorem andThen_ok {o : Outcome α} {f : α → State → Outcome β} :
    (o.andThen f).result = .ok (b,s') ↔ ∃ a s, o.result = .ok (a,s) ∧ (f a s).result = .ok (b,s') := by
  unfold Outcome.andThen
  cases o.result with
  | error e => simp
  | ok r =>
    obtain ⟨c,t⟩ := r
    simp

theorem map_ok {f : α → β} {o : Outcome α} :
    (o.map f).result = .ok (b,s') ↔ ∃ a, o.result = .ok (a,s') ∧ f a = b := by
  unfold Outcome.map
  cases o.result with
  | error e => simp [Except.map]
  | ok r =>
    constructor
    · intro h
      simp only [Except.map, Except.ok.injEq, Prod.mk.injEq] at h
      exact ⟨r.1,by rw [← h.2],h.1⟩
    · rintro ⟨a,h,rfl⟩
      simp only [Except.ok.injEq] at h
      subst h
      rfl

/-- A file has been created: where it starts, the FAT and the log afterwards, its number. -/
structure Created (name : Text) (size : Int16) (s s' : State) where
  starting_block : Block
  fat : Block → Int16
  last : Int16
  i : Fin NUM_FILES
  not_full : s.file_count.toInt < NUM_FILES
  name_fits : MIN_NAME_SIZE ≤ name.length ∧ name.length ≤ MAX_NAME_SIZE
  fresh : duplicateName s name = false
  enough : blocksFor size.toInt ≤ countFreeBlocks s.fat
  first : firstFreeBlock s.fat = some starting_block
  marked : markNewFile s.fat starting_block size (blocksFor size.toInt).toNat = .ok (fat,last)
  index_eq : (i : ℤ) = s.file_count.toInt
  result : s' = addFile s i ⟨name,blockPtr starting_block,size⟩ fat last

theorem create_cases {st : FileCreateStatus} (h : (create name size s).result = .ok (st,s')) :
    (st ≠ .FILE_CREATE_SUCCESS ∧ s' = s) ∨ (st = .FILE_CREATE_SUCCESS ∧ Nonempty (Created name size s s')) := by
  unfold create at h
  split_ifs at h with hfull hname hdup hspace
  · cases h
    exact Or.inl ⟨by decide,rfl⟩
  · cases h
    exact Or.inl ⟨by decide,rfl⟩
  · cases h
    exact Or.inl ⟨by decide,rfl⟩
  · cases h
    exact Or.inl ⟨by decide,rfl⟩
  · cases hfirst : firstFreeBlock s.fat with
    | none =>
      rw [hfirst] at h
      cases h
      exact Or.inl ⟨by decide,rfl⟩
    | some starting_block =>
      simp only [hfirst, proceed_ok] at h
      obtain ⟨⟨fat,last⟩,hmarked,i,hindex,hdone⟩ := h
      cases hdone
      push Not at hname
      exact Or.inr ⟨rfl,⟨starting_block,fat,last,i,by omega,⟨hname.2,hname.1⟩,by simpa using hdup,by omega,hfirst,
        hmarked,(index_eq_ok hindex).symm,rfl⟩⟩

theorem Created.create_eq (c : Created name size s s') : create name size s = saved .FILE_CREATE_SUCCESS s' := by
  have hindex : index NUM_FILES s.file_count.toInt = .ok c.i := by rw [← c.index_eq, index_ok]
  have hname : ¬ (MAX_NAME_SIZE < name.length ∨ name.length < MIN_NAME_SIZE) := by
    rw [not_or, not_lt, not_lt]
    exact ⟨c.name_fits.2,c.name_fits.1⟩
  rw [create, if_neg (not_le.mpr c.not_full), if_neg hname, if_neg (by simp [c.fresh]),
    if_neg (not_lt.mpr c.enough), c.first]
  simp only [c.marked, hindex, proceed, c.result]

theorem open_cases {st : FileOpenStatus} (h : (open_ name s).result = .ok (st,s')) :
    (st ≠ .FILE_OPEN_SUCCESS ∧ s' = s) ∨ (st = .FILE_OPEN_SUCCESS ∧ ∃ i k, findFileIndexByName s name = some i ∧
      findOpenFileFreeSlot s = .ok k ∧
      s' = { s.setOpened k ⟨Int16.ofInt (i : ℕ),0⟩ with opened_file_count := s.opened_file_count + 1 }) := by
  unfold open_ at h
  split_ifs at h
  · cases h
    exact Or.inl ⟨by decide,rfl⟩
  · cases hfind : findFileIndexByName s name with
    | none =>
      rw [hfind] at h
      cases h
      exact Or.inl ⟨by decide,rfl⟩
    | some i =>
      simp only [hfind, proceed_ok] at h
      obtain ⟨k,hslot,hdone⟩ := h
      cases hdone
      exact Or.inr ⟨rfl,i,k,rfl,hslot,rfl⟩

theorem close_cases {st : FileCloseStatus} (h : (close name s).result = .ok (st,s')) :
    s' = s ∨ ∃ k, findOpenFileIndexByName s name = .ok k ∧ st = .FILE_CLOSE_SUCCESS ∧
      s' = { s.setOpened k ⟨NO_OPENED_FILE,0⟩ with opened_file_count := s.opened_file_count - 1 } := by
  obtain ⟨k,hslot,h⟩ := proceed_ok.mp h
  split_ifs at h
  · cases h
    exact Or.inl rfl
  · cases h
    exact Or.inr ⟨k,hslot,rfl,rfl⟩

def readSize (s : State) (k : Fin NUM_OPENED_FILES) (file : FileDescriptor) (size : Int16) : Int16 :=
  let offset := (s.open_file_fd_table k).offset.toInt
  if file.size.toInt < offset + size.toInt then Int16.ofInt (file.size.toInt - offset) else size

theorem readAt_cases {k : Fin NUM_OPENED_FILES} {file : FileDescriptor} {r : FileReadStatus × List Int8}
    (h : (readAt k file size s).result = .ok (r,s')) : s' = s ∨ s' = s.advance k (readSize s k file size) := by
  unfold readAt at h
  dsimp only at h
  split_ifs at h with hbehind hlong
  · cases h
    exact Or.inl rfl
  all_goals
    obtain ⟨block_idx,-,h⟩ := proceed_ok.mp h
    obtain ⟨bytes,-,h⟩ := proceed_ok.mp h
    cases h
    right
    simp only [readSize, hlong, if_true, if_false]

theorem read_cases {r : FileReadStatus × List Int8} (h : (read name size s).result = .ok (r,s')) :
    s' = s ∨ ∃ k n, s' = s.advance k n := by
  unfold read at h
  cases hfind : findFileIndexByName s name with
  | none =>
    rw [hfind] at h
    cases h
    exact Or.inl rfl
  | some i =>
    simp only [hfind, proceed_ok] at h
    obtain ⟨k,-,h⟩ := h
    split_ifs at h
    · cases h
      exact Or.inl rfl
    · obtain ⟨fd_index,-,h⟩ := proceed_ok.mp h
      exact (readAt_cases h).imp_right fun hmoved => ⟨k,_,hmoved⟩

theorem writeAt_cases {k : Fin NUM_OPENED_FILES} {start : Int16} {buffer : ℕ → Int8} {st : FileWriteStatus}
    (h : (writeAt k start buffer size s).result = .ok (st,s')) :
    (st = .FILE_WRITE_EXCEEDS_FILE_SIZE ∧ s' = s) ∨
      (st = .FILE_WRITE_SUCCESS ∧ writeAt k start buffer size s = saved st s' ∧
        ∃ memory, s' = ({ s with memory := memory } : State).advance k size) := by
  obtain ⟨found,hseek,h⟩ := proceed_ok.mp h
  cases found with
  | none =>
    cases h
    exact Or.inl ⟨rfl,rfl⟩
  | some block_idx =>
    obtain ⟨memory,hloop,h⟩ := proceed_ok.mp h
    cases h
    refine Or.inr ⟨rfl,?_,memory,rfl⟩
    simp only [writeAt, hseek, hloop, proceed]

def notedLog (log : TransactionLog) (new_block : Block) : TransactionLog :=
  if log.first_new_block = -1 then { log with first_new_block := blockPtr new_block } else log

theorem noteFirst_ok {new_block : Block} {u : Unit} :
    (noteFirst s new_block).result = .ok (u,s') ↔
      s' = { s with transaction_log := notedLog s.transaction_log new_block } := by
  unfold noteFirst notedLog
  split_ifs
  · simp [eq_comm]
  · exact ⟨fun h => by cases h; rfl,fun h => by rw [h]; rfl⟩

/-- One more block has been linked behind the last one. -/
structure Extended (fd_index : Fin NUM_FILES) (s s' : State) where
  new_block : Block
  last_block : Block
  first : firstFreeBlock s.fat = some new_block
  walked : lastBlock s.fat (NUM_BLOCKS + 1) (s.fd_table fd_index).starting_block = .ok last_block
  result : s' = { s with
    transaction_log := notedLog s.transaction_log new_block
    fat := Function.update (Function.update s.fat last_block (blockPtr new_block)) new_block END_OF_CHAIN }

theorem extend_cases {fd_index : Fin NUM_FILES} {more : Bool} (h : (extend fd_index s).result = .ok (more,s')) :
    (more = true ∧ Nonempty (Extended fd_index s s')) ∨
      (more = false ∧ firstFreeBlock s.fat = none ∧ transactionRollback s = .ok s') := by
  unfold extend at h
  cases hfirst : firstFreeBlock s.fat with
  | none =>
    simp only [hfirst, proceed_ok] at h
    obtain ⟨t,hrollback,h⟩ := h
    cases h
    exact Or.inr ⟨rfl,rfl,hrollback⟩
  | some new_block =>
    simp only [hfirst, proceed_ok, andThen_ok] at h
    obtain ⟨last_block,hwalked,u,t,hnoted,h⟩ := h
    obtain rfl := noteFirst_ok.mp hnoted
    split_ifs at h
    · cases h
    · cases h
      exact Or.inl ⟨rfl,⟨new_block,last_block,hfirst,hwalked,rfl⟩⟩

/-- What every extension keeps, and what every rollback establishes. -/
theorem extendBy_induction {fd_index : Fin NUM_FILES} {P Q : State → Prop}
    (hstep : ∀ s s', P s → Extended fd_index s s' → P s')
    (hback : ∀ s s', P s → firstFreeBlock s.fat = none → transactionRollback s = .ok s' → Q s')
    {n : ℕ} {enough : Bool} (hs : P s) (h : (extendBy fd_index n s).result = .ok (enough,s')) :
    (enough = true ∧ P s') ∨ (enough = false ∧ Q s') := by
  induction n generalizing s with
  | zero =>
    cases h
    exact Or.inl ⟨rfl,hs⟩
  | succ n ih =>
    obtain ⟨more,t,hextend,h⟩ := andThen_ok.mp h
    rcases extend_cases hextend with ⟨rfl,⟨hextended⟩⟩ | ⟨rfl,hnone,hrollback⟩
    · exact ih (hstep s t hs hextended) h
    · simp only [Bool.false_eq_true, if_false, done_result, Except.ok.injEq, Prod.mk.injEq] at h
      obtain ⟨rfl,rfl⟩ := h
      exact Or.inr ⟨rfl,hback s t hs hnone hrollback⟩

theorem grow_cases {file_idx fd_index : Fin NUM_FILES} {new_size : ℤ} {enough : Bool}
    (h : (grow file_idx fd_index new_size s).result = .ok (enough,s')) :
    ∃ t, (extendBy fd_index (blocksFor new_size - blocksFor (s.fd_table fd_index).size.toInt).toNat
        { s with transaction_log := growLog s file_idx (s.fd_table fd_index) new_size }).result = .ok (enough,t) ∧
      s' = if enough then finishGrowing t fd_index new_size else t := by
  obtain ⟨u,t,hstart,h⟩ := andThen_ok.mp h
  cases hstart
  obtain ⟨more,r,hextend,h⟩ := andThen_ok.mp h
  simp only [done_result, Except.ok.injEq, Prod.mk.injEq] at h
  obtain ⟨rfl,rfl⟩ := h
  exact ⟨r,hextend,rfl⟩

/-- The entries that `write` works on, when it gets so far. -/
structure Writing (name : Text) (s : State) where
  file_idx : Fin NUM_FILES
  k : Fin NUM_OPENED_FILES
  fd_index : Fin NUM_FILES
  found : findFileIndexByName s name = some file_idx
  slot : index NUM_OPENED_FILES file_idx = .ok k
  is_open : (s.open_file_fd_table k).idx ≠ NO_OPENED_FILE
  descriptor : index NUM_FILES (s.open_file_fd_table k).idx.toInt = .ok fd_index

def Writing.new_size (w : Writing name s) (size : Int16) : ℤ := (s.open_file_fd_table w.k).offset.toInt + size.toInt

def Writing.file (w : Writing name s) : FileDescriptor := s.fd_table w.fd_index

theorem Writing.write_eq (w : Writing name s) (buffer : ℕ → Int8) (size : Int16) :
    write name buffer size s =
      if w.file.size.toInt < w.new_size size then
        (grow w.file_idx w.fd_index (w.new_size size) s).andThen fun enough t =>
          if enough then writeAt w.k w.file.starting_block buffer size t else done .FILE_WRITE_NO_SPACE t
      else writeAt w.k w.file.starting_block buffer size s := by
  simp only [write, w.found, w.slot, proceed, if_neg w.is_open, w.descriptor]
  rfl

theorem write_cases {buffer : ℕ → Int8} {st : FileWriteStatus} (h : (write name buffer size s).result = .ok (st,s')) :
    (st ≠ .FILE_WRITE_SUCCESS ∧ s' = s) ∨ ∃ w : Writing name s, ∃ t,
      ((w.new_size size ≤ w.file.size.toInt ∧ t = s) ∨ (w.file.size.toInt < w.new_size size ∧
        (grow w.file_idx w.fd_index (w.new_size size) s).result = .ok (true,t))) ∧
        (writeAt w.k w.file.starting_block buffer size t).result = .ok (st,s') ∨
      (w.file.size.toInt < w.new_size size ∧ st = .FILE_WRITE_NO_SPACE ∧
        (grow w.file_idx w.fd_index (w.new_size size) s).result = .ok (false,s')) := by
  cases hfind : findFileIndexByName s name with
  | none =>
    simp only [write, hfind] at h
    cases h
    exact Or.inl ⟨by decide,rfl⟩
  | some file_idx =>
    have h' := h
    simp only [write, hfind, proceed_ok] at h'
    obtain ⟨k,hslot,h'⟩ := h'
    split_ifs at h' with hopen
    · cases h'
      exact Or.inl ⟨by decide,rfl⟩
    · obtain ⟨fd_index,hdescriptor,-⟩ := proceed_ok.mp h'
      let w : Writing name s := ⟨file_idx,k,fd_index,hfind,hslot,hopen,hdescriptor⟩
      rw [w.write_eq] at h
      split_ifs at h with hgrow
      · obtain ⟨enough,t,hgrown,h⟩ := andThen_ok.mp h
        cases enough with
        | true => exact Or.inr ⟨w,t,Or.inl ⟨Or.inr ⟨hgrow,hgrown⟩,h⟩⟩
        | false =>
          simp only [Bool.false_eq_true, if_false, done_result, Except.ok.injEq, Prod.mk.injEq] at h
          obtain ⟨rfl,rfl⟩ := h
          exact Or.inr ⟨w,t,Or.inr ⟨hgrow,rfl,hgrown⟩⟩
      · exact Or.inr ⟨w,s,Or.inl ⟨Or.inl ⟨not_lt.mp hgrow,rfl⟩,h⟩⟩

structure Deleted (past : Option FileDescriptor) (name : Text) (s s' : State) where
  file_idx : Fin NUM_FILES
  last : Fin NUM_FILES
  fat : Block → Int16
  fd_table : Fin NUM_FILES → FileDescriptor
  opened : (Fin NUM_OPENED_FILES → OpenedFile) × Int16
  found : findFileIndexByName s name = some file_idx
  cleared : clearChain (fun b => b = END_OF_CHAIN) (NUM_BLOCKS + 2) s.fat (s.fd_table file_idx).starting_block = .ok fat
  shifted : shiftDown s past = .ok fd_table
  last_eq : (last : ℤ) = s.file_count.toInt - 1
  closed : closeOpened file_idx (NUM_OPENED_FILES + 1) 0 (s.open_file_fd_table,s.opened_file_count) = .ok opened
  result : s' = removeFile s file_idx last fat fd_table opened

theorem delete_cases {past : Option FileDescriptor} {st : FileDeleteStatus}
    (h : (delete_ past name s).result = .ok (st,s')) :
    (st ≠ .FILE_DELETE_SUCCESS ∧ s' = s) ∨ (st = .FILE_DELETE_SUCCESS ∧ Nonempty (Deleted past name s s')) := by
  unfold delete_ at h
  cases hfind : findFileIndexByName s name with
  | none =>
    rw [hfind] at h
    cases h
    exact Or.inl ⟨by decide,rfl⟩
  | some file_idx =>
    simp only [hfind, proceed_ok] at h
    obtain ⟨fat,hcleared,fd_table,hshifted,last,hlast,opened,hclosed,h⟩ := h
    cases h
    exact Or.inr ⟨rfl,⟨file_idx,last,fat,fd_table,opened,hfind,hcleared,hshifted,(index_eq_ok hlast).symm,hclosed,rfl⟩⟩

theorem Deleted.delete_eq {past : Option FileDescriptor} (d : Deleted past name s s') :
    delete_ past name s = saved .FILE_DELETE_SUCCESS s' := by
  have hindex : index NUM_FILES (s.file_count.toInt - 1) = .ok d.last := by rw [← d.last_eq, index_ok]
  simp only [delete_, d.found, d.cleared, d.shifted, hindex, d.closed, proceed, d.result]

theorem shiftDown_eq {past : Option FileDescriptor} {fd_table : Fin NUM_FILES → FileDescriptor}
    (h : shiftDown s past = .ok fd_table) {i : Fin NUM_FILES} :
    (Live s i → ∀ hi : i + 1 < NUM_FILES, fd_table i = s.fd_table ⟨i + 1,hi⟩) ∧
      (¬ Live s i → fd_table i = s.fd_table i) := by
  unfold shiftDown at h
  dsimp only at h
  split_ifs at h with hfull
  · cases h
    exact ⟨fun hl hi => (if_pos hl).trans (dif_pos hi),fun hl => if_neg hl⟩
  · cases past with
    | none => cases h
    | some fd =>
      cases h
      exact ⟨fun hl hi => (if_pos hl).trans (dif_pos hi),fun hl => if_neg hl⟩

theorem Deleted.entry {past : Option FileDescriptor} (d : Deleted past name s s') (i : Fin NUM_FILES) :
    (∃ hi : i + 1 < NUM_FILES, i < d.last ∧ s'.fd_table i = s.fd_table ⟨i + 1,hi⟩) ∨
      (i = d.last ∧ s'.fd_table i = emptyFileDescriptor) ∨ (d.last < i ∧ s'.fd_table i = s.fd_table i) := by
  have htable : s'.fd_table = Function.update d.fd_table d.last emptyFileDescriptor :=
    congrArg State.fd_table d.result
  have hlast := d.last_eq
  have hlt := d.last.isLt
  rw [htable]
  rcases lt_trichotomy i d.last with hi | rfl | hi
  · have hlive : Live s i := by
      unfold Live
      omega
    refine Or.inl ⟨by omega,hi,?_⟩
    rw [Function.update_of_ne (ne_of_lt hi)]
    exact (shiftDown_eq d.shifted).1 hlive _
  · exact Or.inr (Or.inl ⟨rfl,Function.update_self ..⟩)
  · have hlive : ¬ Live s i := by
      unfold Live
      omega
    refine Or.inr (Or.inr ⟨hi,?_⟩)
    rw [Function.update_of_ne (ne_of_gt hi)]
    exact (shiftDown_eq d.shifted).2 hlive

theorem andThen_saves {o : Outcome α} {f : α → State → Outcome β} (h : o.result = .ok (a,s)) :
    (o.andThen f).saves = o.saves ++ (f a s).saves := by
  rw [Outcome.andThen, h]

/-- A success of `create`, `write` or `delete_` has ended by saving everything. -/
theorem perform_saves {past : Option FileDescriptor} {call : Call} {r : Reply}
    (h : (perform past call s).result = .ok (r,s')) (hsaved : r.hasSaved = true) :
    ∃ before, (perform past call s).saves = before ++ saveToDisk s' := by
  cases call with
  | create name size =>
    obtain ⟨st,hcreate,rfl⟩ := map_ok.mp h
    rcases create_cases hcreate with ⟨hst,-⟩ | ⟨rfl,⟨c⟩⟩
    · cases st <;> first | exact absurd rfl hst | cases hsaved
    · refine ⟨[],?_⟩
      show (create name size s).saves = _
      rw [c.create_eq]
      rfl
  | open_ name =>
    obtain ⟨st,-,rfl⟩ := map_ok.mp h
    cases hsaved
  | close name =>
    obtain ⟨st,-,rfl⟩ := map_ok.mp h
    cases hsaved
  | read name size =>
    obtain ⟨st,-,rfl⟩ := map_ok.mp h
    cases hsaved
  | write name buffer size =>
    obtain ⟨st,hwrite,rfl⟩ := map_ok.mp h
    rcases write_cases hwrite with ⟨hst,-⟩ | ⟨w,t,⟨ht,hat⟩ | ⟨-,rfl,-⟩⟩
    · cases st <;> first | exact absurd rfl hst | cases hsaved
    · rcases writeAt_cases hat with ⟨rfl,-⟩ | ⟨rfl,hsave,-⟩
      · cases hsaved
      · show ∃ before, (write name buffer size s).saves = _
        rw [w.write_eq]
        rcases ht with ⟨hle,rfl⟩ | ⟨hlt,hgrow⟩
        · rw [if_neg (not_lt.mpr hle), hsave]
          exact ⟨[],rfl⟩
        · rw [if_pos hlt, andThen_saves hgrow, if_pos rfl, hsave]
          exact ⟨_,rfl⟩
    · cases hsaved
  | delete_ name =>
    obtain ⟨st,hdelete,rfl⟩ := map_ok.mp h
    rcases delete_cases hdelete with ⟨hst,-⟩ | ⟨rfl,⟨d⟩⟩
    · cases st <;> first | exact absurd rfl hst | cases hsaved
    · refine ⟨[],?_⟩
      show (delete_ past name s).saves = _
      rw [d.delete_eq]
      rfl

/-- At most sizes, the FAT and the log have changed. -/
structure SameEntries (s t : State) : Prop where
  memory : t.memory = s.memory
  name : ∀ i, (t.fd_table i).name = (s.fd_table i).name
  starting_block : ∀ i, (t.fd_table i).starting_block = (s.fd_table i).starting_block
  file_count : t.file_count = s.file_count
  open_file_fd_table : t.open_file_fd_table = s.open_file_fd_table
  opened_file_count : t.opened_file_count = s.opened_file_count
  malfunction_flag : t.malfunction_flag = s.malfunction_flag

theorem SameEntries.refl (s : State) : SameEntries s s :=
  ⟨rfl,fun _ => rfl,fun _ => rfl,rfl,rfl,rfl,rfl⟩

theorem SameEntries.trans {t u : State} (h : SameEntries s t) (h' : SameEntries t u) : SameEntries s u where
  memory := h'.memory.trans h.memory
  name i := (h'.name i).trans (h.name i)
  starting_block i := (h'.starting_block i).trans (h.starting_block i)
  file_count := h'.file_count.trans h.file_count
  open_file_fd_table := h'.open_file_fd_table.trans h.open_file_fd_table
  opened_file_count := h'.opened_file_count.trans h.opened_file_count
  malfunction_flag := h'.malfunction_flag.trans h.malfunction_flag

theorem SameEntries.live {t : State} (h : SameEntries s t) (i : Fin NUM_FILES) : Live t i ↔ Live s i := by
  rw [Live, Live, h.file_count]

theorem sameEntries_setFileSize (s : State) (i : Fin NUM_FILES) (n : ℤ) : SameEntries s (setFileSize s i n) := by
  refine ⟨rfl,fun j => ?_,fun j => ?_,rfl,rfl,rfl,rfl⟩
  all_goals
    by_cases hj : j = i
    · subst hj
      simp [setFileSize]
    · simp [setFileSize, Function.update_of_ne hj]

/-- No transaction is marked as being in progress between calls. -/
def Idle (s : State) : Prop := s.transaction_log.in_progress = false

theorem rollback_ok (hp : s.transaction_log.in_progress = true) :
    transactionRollback s = .ok s' ↔ ∃ t, restoreOriginalFileSize s = .ok t ∧ ∃ u, clearNewAllocatedBlocks t = .ok u ∧
      ∃ v, restoreEndOfChain u = .ok v ∧ clearTransactionLog v = s' := by
  rw [transactionRollback, if_neg (by simp [hp])]
  simp only [bind_ok, Except.ok.injEq]

theorem idle_of_rollback (h : transactionRollback s = .ok s') : Idle s' := by
  by_cases hp : s.transaction_log.in_progress = true
  · obtain ⟨t,-,u,-,v,-,rfl⟩ := (rollback_ok hp).mp h
    rfl
  · rw [transactionRollback, if_pos (by simpa using hp)] at h
    cases h
    exact Bool.eq_false_of_not_eq_true hp

theorem sameEntries_rollback (h : transactionRollback s = .ok s') : SameEntries s s' := by
  by_cases hp : s.transaction_log.in_progress = true
  · obtain ⟨t,ht,u,hu,v,hv,rfl⟩ := (rollback_ok hp).mp h
    have hst : SameEntries s t := by
      unfold restoreOriginalFileSize at ht
      dsimp only at ht
      split_ifs at ht
      · obtain ⟨i,-,rfl⟩ := map_eq_ok.mp ht
        exact sameEntries_setFileSize s i _
      · cases ht
        exact SameEntries.refl s
    have htu : SameEntries t u := by
      unfold clearNewAllocatedBlocks at hu
      dsimp only at hu
      split_ifs at hu
      · obtain ⟨fat,-,rfl⟩ := map_eq_ok.mp hu
        exact ⟨rfl,fun _ => rfl,fun _ => rfl,rfl,rfl,rfl,rfl⟩
      · cases hu
        exact SameEntries.refl t
    have huv : SameEntries u (clearTransactionLog v) := by
      unfold restoreEndOfChain at hv
      dsimp only at hv
      split_ifs at hv
      · obtain ⟨b,-,rfl⟩ := map_eq_ok.mp hv
        exact ⟨rfl,fun _ => rfl,fun _ => rfl,rfl,rfl,rfl,rfl⟩
      · cases hv
        exact ⟨rfl,fun _ => rfl,fun _ => rfl,rfl,rfl,rfl,rfl⟩
    exact (hst.trans htu).trans huv
  · rw [transactionRollback, if_pos (by simpa using hp)] at h
    cases h
    exact SameEntries.refl s

theorem sameEntries_grow {file_idx fd_index : Fin NUM_FILES} {new_size : ℤ} {enough : Bool}
    (h : (grow file_idx fd_index new_size s).result = .ok (enough,s')) : SameEntries s s' := by
  obtain ⟨t,hextend,rfl⟩ := grow_cases h
  have hstep : ∀ u v, SameEntries s u → Extended fd_index u v → SameEntries s v := by
    intro u v hu e
    refine hu.trans ?_
    rw [e.result]
    exact ⟨rfl,fun _ => rfl,fun _ => rfl,rfl,rfl,rfl,rfl⟩
  have hback : ∀ u v, SameEntries s u → firstFreeBlock u.fat = none → transactionRollback u = .ok v →
      SameEntries s v := fun u v hu _ hrollback => hu.trans (sameEntries_rollback hrollback)
  have hstart : SameEntries s { s with transaction_log := growLog s file_idx (s.fd_table fd_index) new_size } :=
    ⟨rfl,fun _ => rfl,fun _ => rfl,rfl,rfl,rfl,rfl⟩
  rcases extendBy_induction hstep hback hstart hextend with ⟨rfl,hst⟩ | ⟨rfl,hst⟩
  · refine hst.trans ((sameEntries_setFileSize t fd_index new_size).trans ?_)
    exact ⟨rfl,fun _ => rfl,fun _ => rfl,rfl,rfl,rfl,rfl⟩
  · exact hst

theorem idle_of_grow {file_idx fd_index : Fin NUM_FILES} {new_size : ℤ} {enough : Bool}
    (h : (grow file_idx fd_index new_size s).result = .ok (enough,s')) : Idle s' := by
  obtain ⟨t,hextend,rfl⟩ := grow_cases h
  have hstep : ∀ u v : State, True → Extended fd_index u v → True := fun _ _ _ _ => trivial
  have hback : ∀ u v, True → firstFreeBlock u.fat = none → transactionRollback u = .ok v → Idle v :=
    fun u v _ _ hrollback => idle_of_rollback hrollback
  rcases extendBy_induction hstep hback trivial hextend with ⟨rfl,-⟩ | ⟨rfl,hidle⟩
  · rfl
  · exact hidle

theorem Idle.perform {past : Option FileDescriptor} {call : Call} {r : Reply} (hs : Idle s)
    (h : (perform past call s).result = .ok (r,s')) : Idle s' := by
  cases call with
  | create name size =>
    obtain ⟨st,hcreate,rfl⟩ := map_ok.mp h
    rcases create_cases hcreate with ⟨-,rfl⟩ | ⟨-,⟨c⟩⟩
    · exact hs
    · rw [c.result]
      rfl
  | open_ name =>
    obtain ⟨st,hopen,rfl⟩ := map_ok.mp h
    rcases open_cases hopen with ⟨-,rfl⟩ | ⟨-,i,k,-,-,rfl⟩
    · exact hs
    · exact hs
  | close name =>
    obtain ⟨st,hclose,rfl⟩ := map_ok.mp h
    rcases close_cases hclose with rfl | ⟨k,-,-,rfl⟩
    · exact hs
    · exact hs
  | read name size =>
    obtain ⟨st,hread,rfl⟩ := map_ok.mp h
    rcases read_cases hread with rfl | ⟨k,n,rfl⟩
    · exact hs
    · exact hs
  | write name buffer size =>
    obtain ⟨st,hwrite,rfl⟩ := map_ok.mp h
    rcases write_cases hwrite with ⟨-,rfl⟩ | ⟨w,t,⟨ht,hat⟩ | ⟨-,-,hgrow⟩⟩
    · exact hs
    · have htidle : Idle t := by
        rcases ht with ⟨-,rfl⟩ | ⟨-,hgrow⟩
        · exact hs
        · exact idle_of_grow hgrow
      rcases writeAt_cases hat with ⟨-,rfl⟩ | ⟨-,-,memory,rfl⟩
      · exact htidle
      · exact htidle
    · exact idle_of_grow hgrow
  | delete_ name =>
    obtain ⟨st,hdelete,rfl⟩ := map_ok.mp h
    rcases delete_cases hdelete with ⟨-,rfl⟩ | ⟨-,⟨d⟩⟩
    · exact hs
    · rw [d.result]
      rfl

/-- Only `create` and `delete_` change names, starting blocks or the number of files. -/
theorem perform_entries {past : Option FileDescriptor} {call : Call} {r : Reply}
    (h : (perform past call s).result = .ok (r,s')) :
    (∃ name size, call = .create name size ∧ Nonempty (Created name size s s')) ∨
      (∃ name, call = .delete_ name ∧ Nonempty (Deleted past name s s')) ∨
      (s'.file_count = s.file_count ∧ (∀ i, (s'.fd_table i).name = (s.fd_table i).name) ∧
        ∀ i, (s'.fd_table i).starting_block = (s.fd_table i).starting_block) := by
  have hsame : s' = s → s'.file_count = s.file_count ∧ (∀ i, (s'.fd_table i).name = (s.fd_table i).name) ∧
      ∀ i, (s'.fd_table i).starting_block = (s.fd_table i).starting_block := by
    rintro rfl
    exact ⟨rfl,fun _ => rfl,fun _ => rfl⟩
  cases call with
  | create name size =>
    obtain ⟨st,hcreate,rfl⟩ := map_ok.mp h
    rcases create_cases hcreate with ⟨-,heq⟩ | ⟨-,hcreated⟩
    · exact Or.inr (Or.inr (hsame heq))
    · exact Or.inl ⟨name,size,rfl,hcreated⟩
  | open_ name =>
    obtain ⟨st,hopen,rfl⟩ := map_ok.mp h
    rcases open_cases hopen with ⟨-,heq⟩ | ⟨-,i,k,-,-,rfl⟩
    · exact Or.inr (Or.inr (hsame heq))
    · exact Or.inr (Or.inr ⟨rfl,fun _ => rfl,fun _ => rfl⟩)
  | close name =>
    obtain ⟨st,hclose,rfl⟩ := map_ok.mp h
    rcases close_cases hclose with heq | ⟨k,-,-,rfl⟩
    · exact Or.inr (Or.inr (hsame heq))
    · exact Or.inr (Or.inr ⟨rfl,fun _ => rfl,fun _ => rfl⟩)
  | read name size =>
    obtain ⟨st,hread,rfl⟩ := map_ok.mp h
    rcases read_cases hread with heq | ⟨k,n,rfl⟩
    · exact Or.inr (Or.inr (hsame heq))
    · exact Or.inr (Or.inr ⟨rfl,fun _ => rfl,fun _ => rfl⟩)
  | write name buffer size =>
    obtain ⟨st,hwrite,rfl⟩ := map_ok.mp h
    rcases write_cases hwrite with ⟨-,heq⟩ | ⟨w,t,⟨ht,hat⟩ | ⟨-,-,hgrow⟩⟩
    · exact Or.inr (Or.inr (hsame heq))
    · have hentries : SameEntries s t := by
        rcases ht with ⟨-,rfl⟩ | ⟨-,hgrow⟩
        · exact SameEntries.refl t
        · exact sameEntries_grow hgrow
      rcases writeAt_cases hat with ⟨-,rfl⟩ | ⟨-,-,memory,rfl⟩
      · exact Or.inr (Or.inr ⟨hentries.file_count,hentries.name,hentries.starting_block⟩)
      · exact Or.inr (Or.inr ⟨hentries.file_count,hentries.name,hentries.starting_block⟩)
    · have hentries := sameEntries_grow hgrow
      exact Or.inr (Or.inr ⟨hentries.file_count,hentries.name,hentries.starting_block⟩)
  | delete_ name =>
    obtain ⟨st,hdelete,rfl⟩ := map_ok.mp h
    rcases delete_cases hdelete with ⟨-,heq⟩ | ⟨-,hdeleted⟩
    · exact Or.inr (Or.inr (hsame heq))
    · exact Or.inr (Or.inl ⟨name,rfl,hdeleted⟩)

theorem step_ok {past : Option FileDescriptor} {call : Call} (h : step past s call = some s') :
    ∃ r, (perform past call s).result = .ok (r,s') := by
  unfold step at h
  cases hr : (perform past call s).result with
  | error e =>
    rw [hr] at h
    cases h
  | ok r =>
    rw [hr] at h
    cases h
    exact ⟨r.1,rfl⟩

theorem step_iff {past : Option FileDescriptor} {call : Call} :
    step past s call = some s' ↔ ∃ r, (perform past call s).result = .ok (r,s') := by
  constructor
  · exact step_ok
  · rintro ⟨r,hr⟩
    rw [step, hr]
    rfl

theorem Writing.read_eq (w : Writing name s) : read name size s = readAt w.k w.file size s := by
  simp only [read, w.found, w.slot, proceed, if_neg w.is_open, w.descriptor]
  rfl

theorem read_writing {r : FileReadStatus × List Int8} (h : (read name size s).result = .ok (r,s')) :
    s' = s ∨ ∃ w : Writing name s, (readAt w.k w.file size s).result = .ok (r,s') := by
  cases hfind : findFileIndexByName s name with
  | none =>
    simp only [read, hfind] at h
    cases h
    exact Or.inl rfl
  | some file_idx =>
    have h' := h
    simp only [read, hfind, proceed_ok] at h'
    obtain ⟨k,hslot,h'⟩ := h'
    split_ifs at h' with hopen
    · cases h'
      exact Or.inl rfl
    · obtain ⟨fd_index,hdescriptor,-⟩ := proceed_ok.mp h'
      let w : Writing name s := ⟨file_idx,k,fd_index,hfind,hslot,hopen,hdescriptor⟩
      rw [w.read_eq] at h
      exact Or.inr ⟨w,h⟩

theorem exists_of_any {α : Type} {r : Except Stop α} {p : α → Bool} (h : r.toOption.any p = true) :
    ∃ a, r = .ok a ∧ p a = true := by
  cases r with
  | error e => cases h
  | ok a => exact ⟨a,rfl,h⟩

end
end SOI.FileSystem

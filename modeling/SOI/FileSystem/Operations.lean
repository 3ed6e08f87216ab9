import SOI.FileSystem.Persistency
import SOI.FileSystem.Repair

/-! # The operations

An operation gives the files that it rewrites, in order, and its status with the
new state, unless it stops.
-/
namespace SOI.FileSystem
open Texts

structure Outcome (α : Type) where
  saves : List DataFile := []
  result : Except Stop (α × State)

variable {α β : Type}

def done (a : α) (s : State) : Outcome α := { result := .ok (a,s) }

def stopped (e : Stop) : Outcome α := { result := .error e }

def saved (a : α) (s : State) : Outcome α := { saves := saveToDisk s, result := .ok (a,s) }

def Outcome.andThen (o : Outcome α) (f : α → State → Outcome β) : Outcome β :=
  match o.result with
  | .error e => { saves := o.saves, result := .error e }
  | .ok (a,s) => { saves := o.saves ++ (f a s).saves, result := (f a s).result }

/-- Go on with a value that may be missing. -/
def proceed {γ : Type} (r : Except Stop γ) (f : γ → Outcome α) : Outcome α :=
  match r with
  | .error e => stopped e
  | .ok c => f c

/-- Start from the files on disk; `s` is what the memory of the object held before. -/
def construct (s : State) (d : Disk) : Outcome Unit :=
  match restoreFromDisk s d >>= repair with
  | .ok s => saved () s.closed
  | .error (.thrown _) => saved () s.reset.closed
  | .error .notFound => saved () s.reset.closed
  | .error e => stopped e

inductive FileCreateStatus
  | FILE_CREATE_SUCCESS
  | FILE_CREATE_INVALID_SIZE
  | FILE_CREATE_INVALID_NAME
  | FILE_CREATE_TOO_MANY_FILES
  | FILE_CREATE_DUPLICATE_FILE
  | FILE_CREATE_NO_SPACE
  deriving DecidableEq, Repr

def orNone (b : Option Block) : Int16 := b.elim (-1) blockPtr

/-- Link so many blocks from `current_block` on, and end the chain. -/
def allocate : ℕ → Option Block → (Block → Int16) × Int16 → Except Stop ((Block → Int16) × Int16)
  | 0, _, r => .ok r
  | _ + 1, none, _ => .error .outOfRange
  | n + 1, some current_block, (fat,_) =>
    let fat := Function.update fat current_block END_OF_CHAIN
    let next_block := firstFreeBlock fat
    let link := if n = 0 then END_OF_CHAIN else orNone next_block
    allocate n next_block (Function.update fat current_block link,blockPtr current_block)

/-- The FAT and the last block of the log once the blocks of a new file are marked. -/
def markNewFile (fat : Block → Int16) (starting_block : Block) (size : Int16) (blocks_needed : ℕ) :
    Except Stop ((Block → Int16) × Int16) :=
  let marked := if size = 0 then (Function.update fat starting_block END_OF_CHAIN,blockPtr starting_block)
    else (fat,-1)
  allocate blocks_needed (some starting_block) marked

def blocksFor (size : ℤ) : ℤ := (size + BLOCK_SIZE - 1).tdiv BLOCK_SIZE

def addFile (s : State) (i : Fin NUM_FILES) (fd : FileDescriptor) (fat : Block → Int16) (last : Int16) : State :=
  { s with
    fat := fat
    fd_table := Function.update s.fd_table i fd
    file_count := s.file_count + 1
    transaction_log := { s.transaction_log with
      in_progress := false
      file_idx := s.file_count
      last_valid_block := last } }

def create (name : Text) (size : Int16) (s : State) : Outcome FileCreateStatus :=
  if NUM_FILES ≤ s.file_count.toInt then done .FILE_CREATE_TOO_MANY_FILES s
  else if MAX_NAME_SIZE < name.length ∨ name.length < MIN_NAME_SIZE then done .FILE_CREATE_INVALID_NAME s
  else if duplicateName s name then done .FILE_CREATE_DUPLICATE_FILE s
  else if countFreeBlocks s.fat < blocksFor size.toInt then done .FILE_CREATE_NO_SPACE s
  else match firstFreeBlock s.fat with
    | none => done .FILE_CREATE_NO_SPACE s
    | some starting_block =>
      proceed (markNewFile s.fat starting_block size (blocksFor size.toInt).toNat) fun (fat,last) =>
        proceed (index NUM_FILES s.file_count.toInt) fun i =>
          saved .FILE_CREATE_SUCCESS (addFile s i ⟨name,blockPtr starting_block,size⟩ fat last)

inductive FileOpenStatus
  | FILE_OPEN_SUCCESS
  | FILE_OPEN_TOO_MANY_FILES_OPENED
  | FILE_OPEN_DOESNT_EXIST
  | FILE_OPEN_NO_SPACE_FOR_OPEN_FILES
  deriving DecidableEq, Repr

def State.setOpened (s : State) (k : Fin NUM_OPENED_FILES) (file : OpenedFile) : State :=
  { s with open_file_fd_table := Function.update s.open_file_fd_table k file }

def open_ (name : Text) (s : State) : Outcome FileOpenStatus :=
  if NUM_FILES ≤ s.opened_file_count.toInt then done .FILE_OPEN_TOO_MANY_FILES_OPENED s
  else match findFileIndexByName s name with
    | none => done .FILE_OPEN_DOESNT_EXIST s
    | some file_idx =>
      proceed (findOpenFileFreeSlot s) fun free_slot =>
        done .FILE_OPEN_SUCCESS { s.setOpened free_slot ⟨Int16.ofInt file_idx,0⟩ with
          opened_file_count := s.opened_file_count + 1 }

inductive FileCloseStatus
  | FILE_CLOSE_SUCCESS
  | FILE_CLOSE_INVALID_INDEX
  | FILE_CLOSE_NOT_OPENED
  deriving DecidableEq, Repr

def close (name : Text) (s : State) : Outcome FileCloseStatus :=
  proceed (findOpenFileIndexByName s name) fun file_index =>
    if (s.open_file_fd_table file_index).idx = NO_OPENED_FILE then done .FILE_CLOSE_NOT_OPENED s
    else done .FILE_CLOSE_SUCCESS { s.setOpened file_index ⟨NO_OPENED_FILE,0⟩ with
      opened_file_count := s.opened_file_count - 1 }

/-- Go so many blocks along the chain. -/
def seek (fat : Block → Int16) : ℕ → Int16 → Except Stop Int16
  | 0, block_idx => .ok block_idx
  | n + 1, block_idx => (index NUM_BLOCKS block_idx.toInt).bind fun b => seek fat n (fat b)

/-- Go so many blocks along the chain, with a test for its end after each step. -/
def seekInChain (fat : Block → Int16) : ℕ → Int16 → Except Stop (Option Int16)
  | 0, block_idx => .ok (some block_idx)
  | n + 1, block_idx => (index NUM_BLOCKS block_idx.toInt).bind fun b =>
    if fat b = END_OF_CHAIN then .ok none else seekInChain fat n (fat b)

/-- How many blocks the loop `while (current_offset >= BLOCK_SIZE)` passes. -/
def blocksBefore (offset : ℤ) : ℕ := offset.toNat / BLOCK_SIZE

/-- The offset in the block after that loop. -/
def offsetInBlock (offset : ℤ) : ℤ := offset - BLOCK_SIZE * blocksBefore offset

def copyOut (memory : Fin MEMORY_SIZE → Int8) (start : ℤ) (n : ℕ) : Except Stop (List Int8) :=
  if h : 0 ≤ start ∧ start + n ≤ MEMORY_SIZE then
    .ok (List.ofFn fun k : Fin n => memory ⟨start.toNat + k,by have := k.isLt; omega⟩)
  else .error .outOfRange

def copyIn (memory : Fin MEMORY_SIZE → Int8) (start : ℤ) (n : ℕ) (bytes : ℕ → Int8) :
    Except Stop (Fin MEMORY_SIZE → Int8) :=
  if 0 ≤ start ∧ start + n ≤ MEMORY_SIZE then
    .ok fun a => if start ≤ a ∧ a < start + n then bytes (a - start).toNat else memory a
  else .error .outOfRange

def bytesInBlock (block_offset : ℤ) (bytes : ℕ) : ℕ := min ((BLOCK_SIZE : ℤ) - block_offset).toNat bytes

/-- The copying loop of `read`, with as much fuel as there are bytes. -/
def readLoop (s : State) : ℕ → Int16 → ℤ → ℕ → Except Stop (List Int8)
  | _, _, _, 0 => .ok []
  | 0, _, _, _ + 1 => .error .diverges
  | fuel + 1, block_idx, block_offset, bytes_to_read =>
    let bytes_in_block := bytesInBlock block_offset bytes_to_read
    let left := bytes_to_read - bytes_in_block
    (copyOut s.memory (block_idx.toInt * BLOCK_SIZE + block_offset) bytes_in_block).bind fun copied =>
      if left = 0 then .ok copied
      else (index NUM_BLOCKS block_idx.toInt).bind fun b =>
        if s.fat b = END_OF_CHAIN then .ok copied
        else (readLoop s fuel (s.fat b) 0 left).map (copied ++ ·)

inductive FileReadStatus
  | FILE_READ_SUCCESS
  | FILE_READ_INVALID_INDEX
  | FILE_READ_NOT_OPEN
  | FILE_READ_EOF
  deriving DecidableEq, Repr

def State.advance (s : State) (k : Fin NUM_OPENED_FILES) (size : Int16) : State :=
  s.setOpened k { s.open_file_fd_table k with offset := (s.open_file_fd_table k).offset + size }

/-- Read from the entry `k` of the table of open files; the bytes go to the buffer. -/
def readAt (k : Fin NUM_OPENED_FILES) (file : FileDescriptor) (size : Int16) (s : State) :
    Outcome (FileReadStatus × List Int8) :=
  let offset := (s.open_file_fd_table k).offset.toInt
  if file.size.toInt < offset then done (.FILE_READ_EOF,[]) s
  else
    let size := if file.size.toInt < offset + size.toInt then Int16.ofInt (file.size.toInt - offset) else size
    proceed (seek s.fat (blocksBefore offset) file.starting_block) fun block_idx =>
      proceed (readLoop s size.toInt.toNat block_idx (offsetInBlock offset) size.toInt.toNat) fun bytes =>
        done (.FILE_READ_SUCCESS,bytes) (s.advance k size)

def read (name : Text) (size : Int16) (s : State) : Outcome (FileReadStatus × List Int8) :=
  match findFileIndexByName s name with
  | none => done (.FILE_READ_INVALID_INDEX,[]) s
  | some file_idx =>
    proceed (index NUM_OPENED_FILES file_idx) fun k =>
      if (s.open_file_fd_table k).idx = NO_OPENED_FILE then done (.FILE_READ_NOT_OPEN,[]) s
      else proceed (index NUM_FILES (s.open_file_fd_table k).idx.toInt) fun fd_index =>
        readAt k (s.fd_table fd_index) size s

inductive FileWriteStatus
  | FILE_WRITE_SUCCESS
  | FILE_WRITE_INVALID_INDEX
  | FILE_WRITE_NOT_OPENED
  | FILE_WRITE_EXCEEDS_FILE_SIZE
  | FILE_WRITE_NO_SPACE
  | FILE_WRITE_ERROR
  deriving DecidableEq, Repr

def lastBlock (fat : Block → Int16) : ℕ → Int16 → Except Stop Block
  | 0, _ => .error .diverges
  | fuel + 1, last_block => (index NUM_BLOCKS last_block.toInt).bind fun b =>
    if fat b = END_OF_CHAIN then .ok b else lastBlock fat fuel (fat b)

def noteFirst (s : State) (new_block : Block) : Outcome Unit :=
  if s.transaction_log.first_new_block = -1 then
    let log := { s.transaction_log with first_new_block := blockPtr new_block }
    { saves := [saveTransactionLogsToDisk log], result := .ok ((),{ s with transaction_log := log }) }
  else done () s

/-- One block more for the file; false when there is none left. -/
def extend (fd_index : Fin NUM_FILES) (s : State) : Outcome Bool :=
  match firstFreeBlock s.fat with
  | none => proceed (transactionRollback s) fun s => done false s
  | some new_block =>
    proceed (lastBlock s.fat (NUM_BLOCKS + 1) (s.fd_table fd_index).starting_block) fun last_block =>
      (noteFirst s new_block).andThen fun _ s =>
        let fat := Function.update s.fat last_block (blockPtr new_block)
        if s.malfunction_flag then stopped .terminated
        else done true { s with fat := Function.update fat new_block END_OF_CHAIN }

def extendBy (fd_index : Fin NUM_FILES) : ℕ → State → Outcome Bool
  | 0, s => done true s
  | n + 1, s => (extend fd_index s).andThen fun more s => if more then extendBy fd_index n s else done false s

/-- The log with which a write that needs a longer file starts. -/
def growLog (s : State) (file_idx : Fin NUM_FILES) (file : FileDescriptor) (new_size : ℤ) : TransactionLog :=
  { s.transaction_log with
    in_progress := true
    file_idx := Int16.ofInt file_idx
    new_size := Int16.ofInt new_size
    last_valid_block := file.starting_block
    first_new_block := -1 }

/-- The new size is noted when all blocks are there. -/
def finishGrowing (s : State) (fd_index : Fin NUM_FILES) (new_size : ℤ) : State :=
  { setFileSize s fd_index new_size with transaction_log := { s.transaction_log with in_progress := false } }

/-- The part of `write` that makes the file longer. -/
def grow (file_idx fd_index : Fin NUM_FILES) (new_size : ℤ) (s : State) : Outcome Bool :=
  let file := s.fd_table fd_index
  let log := growLog s file_idx file new_size
  let additional_blocks_needed := blocksFor new_size - blocksFor file.size.toInt
  let started : Outcome Unit :=
    { saves := [saveTransactionLogsToDisk log], result := .ok ((),{ s with transaction_log := log }) }
  started.andThen fun _ s =>
    (extendBy fd_index additional_blocks_needed.toNat s).andThen fun enough s =>
      done enough (if enough then finishGrowing s fd_index new_size else s)

/-- The copying loop of `write`; `pos` bytes of the buffer have been written. -/
def writeLoop (fat : Block → Int16) (buffer : ℕ → Int8) : ℕ → (Fin MEMORY_SIZE → Int8) → ℕ → Int16 → ℤ → ℕ →
    Except Stop (Fin MEMORY_SIZE → Int8)
  | _, memory, _, _, _, 0 => .ok memory
  | 0, _, _, _, _, _ + 1 => .error .diverges
  | fuel + 1, memory, pos, block_idx, block_offset, bytes_to_write =>
    let bytes_in_block := bytesInBlock block_offset bytes_to_write
    let left := bytes_to_write - bytes_in_block
    (copyIn memory (block_idx.toInt * BLOCK_SIZE + block_offset) bytes_in_block fun n => buffer (pos + n)).bind
      fun memory =>
        if left = 0 then .ok memory
        else (index NUM_BLOCKS block_idx.toInt).bind fun b =>
          if fat b = END_OF_CHAIN then .ok memory
          else writeLoop fat buffer fuel memory (pos + bytes_in_block) (fat b) 0 left

/-- The part of `write` that copies the bytes, at the entry `k` of the table of open files. -/
def writeAt (k : Fin NUM_OPENED_FILES) (starting_block : Int16) (buffer : ℕ → Int8) (size : Int16) (s : State) :
    Outcome FileWriteStatus :=
  let offset := (s.open_file_fd_table k).offset.toInt
  proceed (seekInChain s.fat (blocksBefore offset) starting_block) fun found =>
    match found with
    | none => done .FILE_WRITE_EXCEEDS_FILE_SIZE s
    | some block_idx =>
      proceed (writeLoop s.fat buffer size.toInt.toNat s.memory 0 block_idx (offsetInBlock offset)
          size.toInt.toNat) fun memory =>
        saved .FILE_WRITE_SUCCESS ({ s with memory := memory }.advance k size)

def write (name : Text) (buffer : ℕ → Int8) (size : Int16) (s : State) : Outcome FileWriteStatus :=
  match findFileIndexByName s name with
  | none => done .FILE_WRITE_INVALID_INDEX s
  | some file_idx =>
    proceed (index NUM_OPENED_FILES file_idx) fun k =>
      if (s.open_file_fd_table k).idx = NO_OPENED_FILE then done .FILE_WRITE_NOT_OPENED s
      else proceed (index NUM_FILES (s.open_file_fd_table k).idx.toInt) fun fd_index =>
        let file := s.fd_table fd_index
        let new_size := (s.open_file_fd_table k).offset.toInt + size.toInt
        if file.size.toInt < new_size then
          (grow file_idx fd_index new_size s).andThen fun enough s =>
            if enough then writeAt k file.starting_block buffer size s else done .FILE_WRITE_NO_SPACE s
        else writeAt k file.starting_block buffer size s

inductive FileDeleteStatus
  | FILE_DELETE_SUCCESS
  | FILE_DELETE_DOESNT_EXIST
  deriving DecidableEq, Repr

/-- The table moved down by one, from its first entry on. What is read past the
table, if the program survives that, is overwritten at once. -/
def shiftDown (s : State) (past : Option FileDescriptor) : Except Stop (Fin NUM_FILES → FileDescriptor) :=
  let shifted (past : FileDescriptor) : Fin NUM_FILES → FileDescriptor := fun i =>
    if Live s i then if h : i + 1 < NUM_FILES then s.fd_table ⟨i + 1,h⟩ else past else s.fd_table i
  if s.file_count.toInt < NUM_FILES then .ok (shifted emptyFileDescriptor)
  else match past with
    | none => .error .outOfRange
    | some fd => .ok (shifted fd)

/-- Close every opened instance of the file, as far as the number of opened files reaches. -/
def closeOpened (file_idx : Fin NUM_FILES) : ℕ → ℕ → (Fin NUM_OPENED_FILES → OpenedFile) × Int16 →
    Except Stop ((Fin NUM_OPENED_FILES → OpenedFile) × Int16)
  | 0, _, _ => .error .diverges
  | fuel + 1, i, (table,count) =>
    if (i : ℤ) < count.toInt then
      (index NUM_OPENED_FILES i).bind fun k =>
        if (table k).idx.toInt = file_idx then
          closeOpened file_idx fuel (i + 1) (Function.update table k ⟨NO_OPENED_FILE,0⟩,count - 1)
        else closeOpened file_idx fuel (i + 1) (table,count)
    else .ok (table,count)

def removeFile (s : State) (file_idx : Fin NUM_FILES) (last : Fin NUM_FILES) (fat : Block → Int16)
    (fd_table : Fin NUM_FILES → FileDescriptor) (opened : (Fin NUM_OPENED_FILES → OpenedFile) × Int16) : State :=
  { s with
    fat := fat
    fd_table := Function.update fd_table last emptyFileDescriptor
    file_count := s.file_count - 1
    open_file_fd_table := opened.1
    opened_file_count := opened.2
    transaction_log := { s.transaction_log with
      in_progress := false
      file_idx := Int16.ofInt file_idx
      last_valid_block := (s.fd_table file_idx).starting_block } }

def delete_ (past : Option FileDescriptor) (name : Text) (s : State) : Outcome FileDeleteStatus :=
  match findFileIndexByName s name with
  | none => done .FILE_DELETE_DOESNT_EXIST s
  | some file_idx =>
    proceed (clearChain (fun b => b = END_OF_CHAIN) (NUM_BLOCKS + 2) s.fat (s.fd_table file_idx).starting_block)
      fun fat => proceed (shiftDown s past) fun fd_table =>
        proceed (index NUM_FILES (s.file_count.toInt - 1)) fun last =>
          proceed (closeOpened file_idx (NUM_OPENED_FILES + 1) 0 (s.open_file_fd_table,s.opened_file_count))
            fun opened => saved .FILE_DELETE_SUCCESS (removeFile s file_idx last fat fd_table opened)

end SOI.FileSystem

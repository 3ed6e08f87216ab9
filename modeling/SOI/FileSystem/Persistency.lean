import SOI.FileSystem.State

/-! # The text files

Five files in a data directory hold the persistent part of the state. Each file is
written as a whole; opening it for writing is taken to succeed.
-/
namespace SOI.FileSystem
open Texts

inductive DataFile
  | memory (text : Text)
  | fat (text : Text)
  | file_descriptors (text : Text)
  | transaction_log (text : Text)
  | file_count (text : Text)

/-- The contents of the files, `none` for one that cannot be opened. -/
structure Disk where
  memory : Option Text := none
  fat : Option Text := none
  file_descriptors : Option Text := none
  transaction_log : Option Text := none
  file_count : Option Text := none

def Disk.put (d : Disk) : DataFile → Disk
  | .memory text => { d with memory := some text }
  | .fat text => { d with fat := some text }
  | .file_descriptors text => { d with file_descriptors := some text }
  | .transaction_log text => { d with transaction_log := some text }
  | .file_count text => { d with file_count := some text }

def Disk.puts (d : Disk) (files : List DataFile) : Disk := files.foldl Disk.put d

def entryLine (label : Text) (i value : ℤ) : Text := label ++ (decimal i ++ ("]: ".toList ++ decimal value))

def memoryLine (i value : ℤ) : Text := entryLine "Memory[".toList i value

def fatLine (i value : ℤ) : Text := entryLine "FAT[".toList i value

def descriptorLines (fd : FileDescriptor) : List Text :=
  ["Name: ".toList ++ fd.name,"Starting Block: ".toList ++ decimal fd.starting_block.toInt,
    "Size: ".toList ++ decimal fd.size.toInt,"----".toList]

def logLines (log : TransactionLog) : List Text :=
  ["In Progress: ".toList ++ (if log.in_progress then "true".toList else "false".toList),
    "File Index: ".toList ++ decimal log.file_idx.toInt,"New Size: ".toList ++ decimal log.new_size.toInt,
    "Last Valid Block: ".toList ++ decimal log.last_valid_block.toInt,
    "First New Block: ".toList ++ decimal log.first_new_block.toInt]

def memoryText (memory : Fin MEMORY_SIZE → Int8) : Text :=
  unlines ((List.finRange MEMORY_SIZE).map fun i : Fin MEMORY_SIZE => memoryLine i (memory i).toInt)

def fatText (fat : Block → Int16) : Text :=
  unlines ((List.finRange NUM_BLOCKS).map fun b : Block => fatLine b (fat b).toInt)

def descriptorsText (fd_table : Fin NUM_FILES → FileDescriptor) : Text :=
  unlines ((List.ofFn fd_table).flatMap descriptorLines)

def logText (log : TransactionLog) : Text := unlines (logLines log)

def countText (file_count : Int16) : Text := unlines ["File Count: ".toList ++ decimal file_count.toInt]

def saveFATToDisk (fat : Block → Int16) : DataFile := .fat (fatText fat)

def saveFileDescriptorsToDisk (fd_table : Fin NUM_FILES → FileDescriptor) : DataFile :=
  .file_descriptors (descriptorsText fd_table)

def saveTransactionLogsToDisk (log : TransactionLog) : DataFile := .transaction_log (logText log)

def saveFileCountToDisk (file_count : Int16) : DataFile := .file_count (countText file_count)

def saveToDisk (s : State) : List DataFile :=
  [.memory (memoryText s.memory),saveFATToDisk s.fat,saveFileDescriptorsToDisk s.fd_table,
    saveTransactionLogsToDisk s.transaction_log,saveFileCountToDisk s.file_count]

def thrown {α : Type} (r : Except Exception α) : Except Stop α := r.mapError Stop.thrown

def opened (file : Option Text) : Except Stop (List Text) :=
  match file with
  | none => .error .notFound
  | some text => .ok (lines text)

def restoreMemoryLine (memory : Fin MEMORY_SIZE → Int8) (line : Text) : Except Stop (Fin MEMORY_SIZE → Int8) :=
  match find ":".toList line with
  | none => .ok memory
  | some pos => do
    let index_str ← thrown (substrLen line 7 ((pos : ℤ) - 7))
    let idx ← thrown (stoi index_str)
    let value_str ← thrown (substr line (pos + 2))
    let value ← thrown (stoi value_str)
    let i ← index MEMORY_SIZE idx
    .ok (Function.update memory i (Int8.ofInt value))

/-- A number that cannot be read is passed over here. -/
def storeFAT (fat : Block → Int16) (idx value : Except Exception ℤ) : Except Stop (Block → Int16) :=
  match idx, value with
  | .ok idx, .ok value => (index NUM_BLOCKS idx).map fun b => Function.update fat b (Int16.ofInt value)
  | _, _ => .ok fat

def restoreFATLine (fat : Block → Int16) (line : Text) : Except Stop (Block → Int16) :=
  match find "[".toList line, find "]".toList line, find ":".toList line with
  | some start_bracket, some end_bracket, some colon_pos => do
    let index_str ← thrown (substrLen line (start_bracket + 1) ((end_bracket : ℤ) - start_bracket - 1))
    let value_str ← thrown (substr line (colon_pos + 2))
    storeFAT fat (stoi index_str) (stoi value_str)
  | _, _, _ => .ok fat

def field (line : Text) (pos : ℕ) : Except Stop Int16 :=
  (thrown ((substr line pos).bind stoi)).map Int16.ofInt

/-- The descriptor being read, how many are complete, and the table. -/
structure DescriptorReader where
  fd : FileDescriptor := ⟨[],0,0⟩
  i : ℕ := 0
  fd_table : Fin NUM_FILES → FileDescriptor

def DescriptorReader.finish (r : DescriptorReader) : DescriptorReader :=
  if h : r.i < NUM_FILES then { r with i := r.i + 1, fd_table := Function.update r.fd_table ⟨r.i,h⟩ r.fd } else r

def restoreDescriptorLine (r : DescriptorReader) (line : Text) : Except Stop DescriptorReader :=
  if (find "Name:".toList line).isSome then
    (thrown (substr line 6)).map fun name => { r with fd := { r.fd with name := name } }
  else if (find "Starting Block:".toList line).isSome then
    (field line 15).map fun n => { r with fd := { r.fd with starting_block := n } }
  else if (find "Size:".toList line).isSome then
    (field line 6).map fun n => { r with fd := { r.fd with size := n } }
  else if line = "----".toList then .ok r.finish
  else .ok r

def restoreLogLine (log : TransactionLog) (line : Text) : Except Stop TransactionLog :=
  if (find "In Progress:".toList line).isSome then
    (thrown (substr line 13)).map fun flag => { log with in_progress := flag = "true".toList }
  else if (find "File Index:".toList line).isSome then
    (field line 12).map fun n => { log with file_idx := n }
  else if (find "New Size:".toList line).isSome then
    (field line 9).map fun n => { log with new_size := n }
  else if (find "Last Valid Block:".toList line).isSome then
    (field line 17).map fun n => { log with last_valid_block := n }
  else if (find "First New Block:".toList line).isSome then
    (field line 17).map fun n => { log with first_new_block := n }
  else .ok log

def restoreCountLine (file_count : Int16) (line : Text) : Except Stop Int16 :=
  if (find "File Count:".toList line).isSome then field line 12 else .ok file_count

def restoreDescriptors (fd_table : Fin NUM_FILES → FileDescriptor) (text : List Text) :
    Except Stop (Fin NUM_FILES → FileDescriptor) :=
  (text.foldlM restoreDescriptorLine { fd_table := fd_table }).map DescriptorReader.fd_table

def restoreFromDisk (s : State) (d : Disk) : Except Stop State := do
  let memory ← (← opened d.memory).foldlM restoreMemoryLine s.memory
  let fat ← (← opened d.fat).foldlM restoreFATLine s.fat
  let fd_table ← restoreDescriptors s.fd_table (← opened d.file_descriptors)
  let log ← (← opened d.transaction_log).foldlM restoreLogLine s.transaction_log
  let file_count ← (← opened d.file_count).foldlM restoreCountLine s.file_count
  .ok { s with
    memory := memory
    fat := fat
    fd_table := fd_table
    transaction_log := log
    file_count := file_count }

end SOI.FileSystem

import SOI.FileSystem.State

/-! # Rolling back a transaction -/
namespace SOI.FileSystem

/-- Free the blocks of a chain, up to a link at which to end. -/
def clearChain (ends : Int16 → Bool) : ℕ → (Block → Int16) → Int16 → Except Stop (Block → Int16)
  | 0, _, _ => .error .diverges
  | fuel + 1, fat, block_idx =>
    if ends block_idx then .ok fat
    else (index NUM_BLOCKS block_idx.toInt).bind fun b =>
      clearChain ends fuel (Function.update fat b FREE_BLOCK) (fat b)

def setFileSize (s : State) (i : Fin NUM_FILES) (size : ℤ) : State :=
  { s with fd_table := Function.update s.fd_table i { s.fd_table i with size := Int16.ofInt size } }

def restoreOriginalFileSize (s : State) : Except Stop State :=
  let log := s.transaction_log
  if log.file_idx ≠ -1 ∧ log.last_valid_block ≠ -1 then
    (index NUM_FILES log.file_idx.toInt).map fun i =>
      setFileSize s i ((log.last_valid_block.toInt + 1) * BLOCK_SIZE)
  else .ok s

def clearNewAllocatedBlocks (s : State) : Except Stop State :=
  let first := s.transaction_log.first_new_block
  if first ≠ -1 then
    (clearChain (fun b => b = -1 || b = END_OF_CHAIN) (NUM_BLOCKS + 2) s.fat first).map fun fat =>
      { s with fat := fat }
  else .ok s

def restoreEndOfChain (s : State) : Except Stop State :=
  let last := s.transaction_log.last_valid_block
  if last ≠ -1 then
    (index NUM_BLOCKS last.toInt).map fun b => { s with fat := Function.update s.fat b END_OF_CHAIN }
  else .ok s

def clearTransactionLog (s : State) : State := { s with transaction_log := { new_size := 0 } }

def transactionRollback (s : State) : Except Stop State :=
  if !s.transaction_log.in_progress then .ok s
  else do
    let s ← restoreOriginalFileSize s
    let s ← clearNewAllocatedBlocks s
    let s ← restoreEndOfChain s
    .ok (clearTransactionLog s)

def repair (s : State) : Except Stop State :=
  if s.transaction_log.in_progress then transactionRollback s else .ok s

end SOI.FileSystem

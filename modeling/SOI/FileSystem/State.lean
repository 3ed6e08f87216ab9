import SOI.Library.Linked
import SOI.Library.Text

/-! # The state of the file system

The arrays of the class `FileSystem` and the searches over them. Every access
checks its index; where the code would read or write past an array, it stops.
Names and other texts are lists of characters, which stand for bytes.
-/
namespace SOI.FileSystem
open Texts

abbrev BLOCK_SIZE : ℕ := 32

abbrev MEMORY_SIZE : ℕ := 2048

abbrev NUM_BLOCKS : ℕ := MEMORY_SIZE / BLOCK_SIZE

abbrev NUM_FILES : ℕ := 16

abbrev NUM_OPENED_FILES : ℕ := 8

abbrev FREE_BLOCK : Int16 := -1

abbrev NO_OPENED_FILE : Int16 := -1

abbrev END_OF_CHAIN : Int16 := -2

abbrev MAX_NAME_SIZE : ℕ := 10

abbrev MIN_NAME_SIZE : ℕ := 1

/-- Why the program does not go on: an index past an array, an endless loop,
`std::terminate`, or an exception. -/
inductive Stop
  | outOfRange
  | diverges
  | terminated
  | thrown (e : Exception)
  | notFound
  deriving DecidableEq, Repr

abbrev Block := Fin NUM_BLOCKS

def blockPtr (b : Block) : Int16 := Int16.ofInt b

def index (n : ℕ) (i : ℤ) : Except Stop (Fin n) :=
  if h : 0 ≤ i ∧ i < n then .ok ⟨i.toNat,by omega⟩ else .error .outOfRange

structure FileDescriptor where
  name : Text
  starting_block : Int16
  size : Int16
  deriving DecidableEq, Repr

structure OpenedFile where
  idx : Int16
  offset : Int16
  deriving DecidableEq, Repr

structure TransactionLog where
  in_progress : Bool := false
  file_idx : Int16 := -1
  new_size : Int16 := -1
  last_valid_block : Int16 := -1
  first_new_block : Int16 := -1
  deriving DecidableEq, Repr

structure State where
  memory : Fin MEMORY_SIZE → Int8
  fat : Block → Int16
  fd_table : Fin NUM_FILES → FileDescriptor
  file_count : Int16
  open_file_fd_table : Fin NUM_OPENED_FILES → OpenedFile
  opened_file_count : Int16
  transaction_log : TransactionLog
  malfunction_flag : Bool

def emptyFileDescriptor : FileDescriptor := ⟨[],-1,-1⟩

/-- What the constructor ends with, the arrays of files being restored. -/
def State.closed (s : State) : State :=
  { s with
    open_file_fd_table := fun _ => ⟨NO_OPENED_FILE,0⟩
    opened_file_count := 0
    transaction_log := {} }

/-- The values that the constructor sets when the data cannot be restored. -/
def State.reset (s : State) : State :=
  { s with
    memory := fun _ => 0
    fat := fun _ => FREE_BLOCK
    fd_table := fun _ => emptyFileDescriptor
    file_count := 0 }

def duplicateName (s : State) (name : Text) : Bool :=
  (List.finRange NUM_FILES).any fun i => (s.fd_table i).name = name

def countFreeBlocks (fat : Block → Int16) : ℕ := (List.finRange NUM_BLOCKS).countP fun b => fat b = FREE_BLOCK

def firstFreeBlock (fat : Block → Int16) : Option Block :=
  (List.finRange NUM_BLOCKS).find? fun b => fat b = FREE_BLOCK

/-- The file is in the part of the table in use. -/
def Live (s : State) (i : Fin NUM_FILES) : Prop := (i : ℤ) < s.file_count.toInt

instance (s : State) : DecidablePred (Live s) := fun _ => inferInstanceAs (Decidable (_ < _))

def findFileIndexByName (s : State) (name : Text) : Option (Fin NUM_FILES) :=
  (List.finRange NUM_FILES).find? fun i => Live s i && (s.fd_table i).name = name

def isOpenFor (s : State) (name : Text) (file : OpenedFile) : Bool :=
  file.idx ≠ NO_OPENED_FILE &&
    (List.finRange NUM_FILES).any fun i => (i : ℤ) = file.idx.toInt && Live s i && (s.fd_table i).name = name

/-- The loop goes on past the table when it finds nothing. -/
def findOpenFileIndexByName (s : State) (name : Text) : Except Stop (Fin NUM_OPENED_FILES) :=
  match (List.finRange NUM_OPENED_FILES).find? fun k => isOpenFor s name (s.open_file_fd_table k) with
  | some k => .ok k
  | none => .error .outOfRange

def findOpenFileFreeSlot (s : State) : Except Stop (Fin NUM_OPENED_FILES) :=
  match (List.finRange NUM_OPENED_FILES).find? fun k => (s.open_file_fd_table k).idx = NO_OPENED_FILE with
  | some k => .ok k
  | none => .error .outOfRange

section
variable {fat fat' : Block → Int16} {b : Block} {s : State} {name : Text} {i : Fin NUM_FILES}

@[simp] theorem ok_bind {ε α β : Type} (a : α) (f : α → Except ε β) : ((Except.ok a : Except ε α) >>= f) = f a := rfl

theorem bind_ok {ε α β : Type} {r : Except ε α} {f : α → Except ε β} {b : β} :
    (r >>= f) = .ok b ↔ ∃ a, r = .ok a ∧ f a = .ok b := by
  cases r with
  | error e => simp [Bind.bind, Except.bind]
  | ok a => simp

theorem map_eq_ok {ε α β : Type} {r : Except ε α} {f : α → β} {b : β} :
    r.map f = .ok b ↔ ∃ a, r = .ok a ∧ f a = b := by
  cases r with
  | error e => simp [Except.map]
  | ok a => simp [Except.map]

theorem index_ok {n : ℕ} (k : Fin n) : index n k = .ok k := by
  simp [index]

theorem index_eq_ok {n : ℕ} {i : ℤ} {k : Fin n} (h : index n i = .ok k) : i = k := by
  unfold index at h
  split at h
  · next hi =>
    cases h
    simp [hi.1]
  · cases h

theorem blockPtr_toInt (b : Block) : (blockPtr b).toInt = b := by
  have hlt : (b : ℕ) < 64 := b.isLt
  exact Int16.toInt_ofInt_of_le (by omega) (by omega)

theorem blockPtr_injective : Function.Injective blockPtr := by
  intro b c h
  have hint := congrArg Int16.toInt h
  rw [blockPtr_toInt, blockPtr_toInt] at hint
  exact Fin.ext (by omega)

theorem blockPtr_ne {n : Int16} (hn : n.toInt < 0) (b : Block) : blockPtr b ≠ n := by
  rintro rfl
  rw [blockPtr_toInt] at hn
  omega

theorem blockPtr_ne_end (b : Block) : END_OF_CHAIN ≠ blockPtr b := (blockPtr_ne (by decide) b).symm

theorem blockPtr_ne_free (b : Block) : blockPtr b ≠ FREE_BLOCK := blockPtr_ne (by decide) b

theorem index_blockPtr (b : Block) : index NUM_BLOCKS (blockPtr b).toInt = .ok b := by
  rw [blockPtr_toInt]
  exact index_ok b

theorem toInt_fileIndex (i : Fin NUM_FILES) : (Int16.ofInt i).toInt = i := by
  have hlt : (i : ℕ) < 16 := i.isLt
  exact Int16.toInt_ofInt_of_le (by omega) (by omega)

theorem fileIndex_ne (i : Fin NUM_FILES) : Int16.ofInt i ≠ -1 := by
  intro heq
  have hint := congrArg Int16.toInt heq
  rw [toInt_fileIndex, show (-1 : Int16).toInt = -1 from rfl] at hint
  omega

theorem index_fileIndex (i : Fin NUM_FILES) : index NUM_FILES (Int16.ofInt i).toInt = .ok i := by
  rw [toInt_fileIndex]
  exact index_ok i

theorem firstFree_free (h : firstFreeBlock fat = some b) : fat b = FREE_BLOCK := by
  simpa using List.find?_some h

theorem firstFree_isSome (h : fat b = FREE_BLOCK) : ∃ c, firstFreeBlock fat = some c := by
  rw [← Option.isSome_iff_exists, firstFreeBlock, List.find?_isSome]
  exact ⟨b,List.mem_finRange b,by simpa using h⟩

theorem find_live (h : findFileIndexByName s name = some i) : Live s i ∧ (s.fd_table i).name = name := by
  simpa [findFileIndexByName] using List.find?_some h

end
end SOI.FileSystem

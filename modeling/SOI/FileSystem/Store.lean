import SOI.FileSystem.Atomicity
import SOI.FileSystem.Deletion
import SOI.FileSystem.Addressing
import SOI.FileSystem.Names

/-! # A store of named files

What the file system is for: files with names and bytes, which stay when the program is
started again, and an offset for each file that is open. The program with its disk is
looked at as such a store.
-/
namespace SOI.FileSystem
open Runs Splice Texts

/-- A file, with its offset while it is open. -/
structure StoredFile where
  name : Text
  bytes : List Int8
  offset : Option ℕ := none

/-- The files in the order in which they have been created. -/
abbrev Store := List StoredFile

def Store.Has (store : Store) (name : Text) : Prop := ∃ f ∈ store, f.name = name

def Store.change (store : Store) (name : Text) (g : StoredFile → StoredFile) : Store :=
  store.map fun f => if f.name = name then g f else f

/-- A call with its reply, or a new start of the program, `raw` being what was in its
memory before. -/
inductive Event
  | call (call : Call) (reply : Reply)
  | restart (raw : State)

/-- What a store does. Only how much fits into it is left open, and what is in a new file. -/
inductive StoreStep : Store → Event → Store → Prop
  | created {store : Store} {name : Text} {size : Int16} {bytes : List Int8} (few : store.length < NUM_FILES)
      (legal : LegalName name) (new : ¬ store.Has name) (filled : bytes.length = size.toInt.toNat) :
      StoreStep store (.call (.create name size) (.create .FILE_CREATE_SUCCESS)) (store ++ [⟨name,bytes,none⟩])
  | full {store : Store} {name : Text} {size : Int16} (many : store.length = NUM_FILES) :
      StoreStep store (.call (.create name size) (.create .FILE_CREATE_TOO_MANY_FILES)) store
  | illegal {store : Store} {name : Text} {size : Int16} (illegal : ¬ LegalName name) :
      StoreStep store (.call (.create name size) (.create .FILE_CREATE_INVALID_NAME)) store
  | duplicate {store : Store} {name : Text} {size : Int16} (old : store.Has name) :
      StoreStep store (.call (.create name size) (.create .FILE_CREATE_DUPLICATE_FILE)) store
  | no_space (store : Store) (name : Text) (size : Int16) :
      StoreStep store (.call (.create name size) (.create .FILE_CREATE_NO_SPACE)) store
  | opened {store : Store} {f : StoredFile} (mem : f ∈ store) (closed : f.offset = none) :
      StoreStep store (.call (.open_ f.name) (.open_ .FILE_OPEN_SUCCESS))
        (store.change f.name fun f => { f with offset := some 0 })
  | open_missing {store : Store} {name : Text} (missing : ¬ store.Has name) :
      StoreStep store (.call (.open_ name) (.open_ .FILE_OPEN_DOESNT_EXIST)) store
  | closed {store : Store} {f : StoredFile} {o : ℕ} (mem : f ∈ store) (opened : f.offset = some o) :
      StoreStep store (.call (.close f.name) (.close .FILE_CLOSE_SUCCESS))
        (store.change f.name fun f => { f with offset := none })
  | read {store : Store} {f : StoredFile} {o : ℕ} {size : Int16} {bytes : List Int8} (mem : f ∈ store)
      (opened : f.offset = some o) (bytes_eq : bytes = (f.bytes.drop o).take size.toInt.toNat) :
      StoreStep store (.call (.read f.name size) (.read .FILE_READ_SUCCESS bytes))
        (store.change f.name fun f => { f with offset := some (o + bytes.length) })
  | read_missing {store : Store} {name : Text} {size : Int16} (missing : ¬ store.Has name) :
      StoreStep store (.call (.read name size) (.read .FILE_READ_INVALID_INDEX [])) store
  | read_closed {store : Store} {f : StoredFile} {size : Int16} (mem : f ∈ store) (closed : f.offset = none) :
      StoreStep store (.call (.read f.name size) (.read .FILE_READ_NOT_OPEN [])) store
  | written {store : Store} {f : StoredFile} {o : ℕ} {buffer : ℕ → Int8} {size : Int16} (mem : f ∈ store)
      (opened : f.offset = some o) :
      StoreStep store (.call (.write f.name buffer size) (.write .FILE_WRITE_SUCCESS)) (store.change f.name fun f =>
        { f with bytes := splice f.bytes o (bytesFrom buffer 0 size.toInt.toNat), offset := some (o + size.toInt.toNat) })
  | write_missing {store : Store} {name : Text} {buffer : ℕ → Int8} {size : Int16} (missing : ¬ store.Has name) :
      StoreStep store (.call (.write name buffer size) (.write .FILE_WRITE_INVALID_INDEX)) store
  | write_closed {store : Store} {f : StoredFile} {buffer : ℕ → Int8} {size : Int16} (mem : f ∈ store)
      (closed : f.offset = none) :
      StoreStep store (.call (.write f.name buffer size) (.write .FILE_WRITE_NOT_OPENED)) store
  | write_nothing {store : Store} {f : StoredFile} {o : ℕ} {buffer : ℕ → Int8} (mem : f ∈ store) (opened : f.offset = some o) :
      StoreStep store (.call (.write f.name buffer 0) (.write .FILE_WRITE_EXCEEDS_FILE_SIZE)) store
  | deleted {store : Store} {name : Text} (old : store.Has name) :
      StoreStep store (.call (.delete_ name) (.delete_ .FILE_DELETE_SUCCESS)) (store.filter fun f => f.name ≠ name)
  | delete_missing {store : Store} {name : Text} (missing : ¬ store.Has name) :
      StoreStep store (.call (.delete_ name) (.delete_ .FILE_DELETE_DOESNT_EXIST)) store
  | restarted (store : Store) (raw : State) :
      StoreStep store (.restart raw) (store.map fun f => { f with offset := none })

structure Machine where
  s : State
  d : Disk

def Machine.next (past : Option FileDescriptor) (m : Machine) : Event → Option Machine
  | .call call reply =>
    let o := perform past call m.s
    match o.result with
    | .error _ => none
    | .ok (r,s) => if r = reply then some ⟨s,m.d.puts o.saves⟩ else none
  | .restart raw =>
    let o := construct raw m.d
    o.result.toOption.map fun r => ⟨r.2,m.d.puts o.saves⟩

def Machine.empty : Machine := ⟨emptyFileSystem false,diskOf (emptyFileSystem false)⟩

theorem next_call {past : Option FileDescriptor} {m m' : Machine} {call : Call} {reply : Reply}
    (h : m.next past (.call call reply) = some m') :
    (perform past call m.s).result = .ok (reply,m'.s) ∧ m'.d = m.d.puts (perform past call m.s).saves := by
  rw [Machine.next] at h
  split at h
  · cases h
  · next r s hresult =>
    split_ifs at h with hr
    cases h
    rw [← hr]
    exact ⟨hresult,rfl⟩

/-- The offset of a file, as its slot in the table of open files has it. -/
def State.offsetOf (s : State) (i : Fin NUM_FILES) : Option ℕ :=
  if h : (i : ℕ) < NUM_OPENED_FILES then
    let file := s.open_file_fd_table ⟨i,h⟩
    if file.idx = NO_OPENED_FILE then none else some file.offset.toInt.toNat
  else none

def State.file (s : State) (i : Fin NUM_FILES) : StoredFile := ⟨(s.fd_table i).name,contents s i,s.offsetOf i⟩

def State.store (s : State) : Store := (List.ofFn s.file).take s.file_count.toInt.toNat

/-- Files are opened in the order of their numbers, the first file only is deleted, while no
other is open, no name has a newline, no size is negative, there is room for what is
written, and the object that starts again has its `malfunction_flag` down. -/
def Proper (m : Machine) : Event → Prop
  | .call (.create name size) _ => 0 ≤ size.toInt ∧ '\n' ∉ name
  | .call (.open_ name) _ =>
    ∀ i ∈ findFileIndexByName m.s name, ∀ k ∈ (findOpenFileFreeSlot m.s).toOption, (k : ℕ) = i
  | .call (.close _) _ => True
  | .call (.read _ size) _ => 0 ≤ size.toInt
  | .call (.write name buffer size) _ => OffsetSafe m.s (.write name buffer size)
  | .call (.delete_ name) _ => ∀ i ∈ findFileIndexByName m.s name, (i : ℕ) = 0 ∧
      ∀ k, (m.s.open_file_fd_table k).idx ≠ NO_OPENED_FILE → (k : ℕ) = 0
  | .restart raw => raw.malfunction_flag = false

instance (m : Machine) : (event : Event) → Decidable (Proper m event)
  | .call (.create _ _) _ => inferInstanceAs (Decidable (_ ∧ _))
  | .call (.open_ name) _ => inferInstanceAs (Decidable (∀ i ∈ findFileIndexByName m.s name,
      ∀ k ∈ (findOpenFileFreeSlot m.s).toOption, (k : ℕ) = i))
  | .call (.close _) _ => isTrue trivial
  | .call (.read _ _) _ => inferInstanceAs (Decidable (_ ≤ _))
  | .call (.write name buffer size) _ => inferInstanceAs (Decidable (OffsetSafe m.s (.write name buffer size)))
  | .call (.delete_ name) _ => inferInstanceAs (Decidable (∀ i ∈ findFileIndexByName m.s name, (i : ℕ) = 0 ∧
      ∀ k, (m.s.open_file_fd_table k).idx ≠ NO_OPENED_FILE → (k : ℕ) = 0))
  | .restart raw => inferInstanceAs (Decidable (raw.malfunction_flag = false))

end SOI.FileSystem

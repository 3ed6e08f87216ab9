import SOI.FileSystem.FatInvariant

/-! # The names in the table of descriptors

`duplicateName` looks at the whole table, `findFileIndexByName` at the part in use.
They agree because the entries in use have names of their own and the others have
none. `create` fills the first entry that is not in use, and `delete_` empties the
entry behind those that it has moved down.
-/
namespace SOI.FileSystem
open Runs Texts
variable {s s' : State} {name : Text} {size : Int16} {past : Option FileDescriptor} {i j : Fin NUM_FILES}

def LegalName (name : Text) : Prop := MIN_NAME_SIZE ≤ name.length ∧ name.length ≤ MAX_NAME_SIZE

/-- What the names in the table should be like. -/
structure NameTable (s : State) : Prop where
  count_nonneg : 0 ≤ s.file_count.toInt
  count_le : s.file_count.toInt ≤ NUM_FILES
  legal : ∀ i, Live s i → LegalName (s.fd_table i).name
  distinct : ∀ i j, Live s i → Live s j → i ≠ j → (s.fd_table i).name ≠ (s.fd_table j).name
  vacant : ∀ i, ¬ Live s i → (s.fd_table i).name = []

theorem nameTable_empty (flag : Bool) : NameTable (emptyFileSystem flag) := by
  have hlive : ∀ i, ¬ Live (emptyFileSystem flag) i := fun i hi => by
    have hlt : (i : ℤ) < 0 := hi
    omega
  have hcount : (0 : Int16).toInt ≤ NUM_FILES := by decide
  exact ⟨le_rfl,hcount,fun i hi => absurd hi (hlive i),fun i _ hi => absurd hi (hlive i),fun _ _ => rfl⟩

theorem NameTable.congr (h : NameTable s) (hcount : s'.file_count = s.file_count)
    (hname : ∀ i, (s'.fd_table i).name = (s.fd_table i).name) : NameTable s' := by
  have hlive : ∀ i, Live s' i ↔ Live s i := fun i => by rw [Live, Live, hcount]
  refine ⟨?_,?_,fun i hi => ?_,fun i j hi hj => ?_,fun i hi => ?_⟩
  · rw [hcount]
    exact h.count_nonneg
  · rw [hcount]
    exact h.count_le
  · rw [hname]
    exact h.legal i ((hlive i).mp hi)
  · rw [hname, hname]
    exact h.distinct i j ((hlive i).mp hi) ((hlive j).mp hj)
  · rw [hname]
    exact h.vacant i (mt (hlive i).mpr hi)

theorem duplicateName_iff : duplicateName s name = true ↔ ∃ i, (s.fd_table i).name = name := by
  simp [duplicateName]

theorem Created.ne_name (c : Created name size s s') (i : Fin NUM_FILES) : (s.fd_table i).name ≠ name := by
  intro hname
  have hfresh := c.fresh
  rw [duplicateName_iff.mpr ⟨i,hname⟩] at hfresh
  cases hfresh

theorem NameTable.create (h : NameTable s) (c : Created name size s s') : NameTable s' := by
  have hcount := c.count_eq
  have hnonneg := h.count_nonneg
  have hroom := c.not_full
  have hself : (s'.fd_table c.i).name = name := by rw [c.entry_self]
  have hold : ∀ j, Live s j → (s'.fd_table j).name = (s.fd_table j).name := fun j hj => by
    rw [c.entry_of_ne (c.ne_of_live hj)]
  refine ⟨by omega,by omega,fun i hi => ?_,fun i j hi hj hij => ?_,fun i hi => ?_⟩
  · rcases (c.live_iff i).mp hi with rfl | hi
    · rw [hself]
      exact c.name_fits
    · rw [hold i hi]
      exact h.legal i hi
  · rcases (c.live_iff i).mp hi with rfl | hi <;> rcases (c.live_iff j).mp hj with rfl | hj
    · exact absurd rfl hij
    · rw [hself, hold j hj]
      exact (c.ne_name j).symm
    · rw [hself, hold i hi]
      exact c.ne_name i
    · rw [hold i hi, hold j hj]
      exact h.distinct i j hi hj hij
  · rw [c.live_iff, not_or] at hi
    rw [c.entry_of_ne hi.1]
    exact h.vacant i hi.2

/-- The table moves down by one entry, whichever file is deleted. -/
theorem NameTable.delete (h : NameTable s) (d : Deleted past name s s') : NameTable s' := by
  have hcount := d.count_eq
  have hpos := d.count_pos
  have hle := h.count_le
  have hlast := d.last_eq
  refine ⟨by omega,by omega,fun i hi => ?_,fun i j hi hj hij => ?_,fun i hi => ?_⟩
  · obtain ⟨m,-,hm,heq⟩ := d.comes_from hi
    rw [heq]
    exact h.legal m hm
  · obtain ⟨m,hmi,hm,heqi⟩ := d.comes_from hi
    obtain ⟨n,hnj,hn,heqj⟩ := d.comes_from hj
    rw [heqi, heqj]
    refine h.distinct m n hm hn ?_
    rintro rfl
    exact hij (Fin.ext (by omega))
  · rcases d.entry i with ⟨-,hlt,-⟩ | ⟨-,heq⟩ | ⟨hgt,heq⟩
    · exact absurd ((d.live_iff i).mpr hlt) hi
    · rw [heq]
      rfl
    · rw [heq]
      refine h.vacant i ?_
      unfold Live
      rw [Fin.lt_def] at hgt
      omega

theorem NameTable.step {call : Call} (h : NameTable s) (hstep : step past s call = some s') : NameTable s' := by
  obtain ⟨r,hr⟩ := step_ok hstep
  rcases perform_entries hr with ⟨name,size,-,⟨c⟩⟩ | ⟨name,-,⟨d⟩⟩ | ⟨hcount,hname,-⟩
  · exact h.create c
  · exact h.delete d
  · exact h.congr hcount hname

theorem findFile_isSome : (findFileIndexByName s name).isSome = true ↔ ∃ i, Live s i ∧ (s.fd_table i).name = name := by
  simp [findFileIndexByName, List.find?_isSome]

/-- Where no vacant entry has the name, the two searches agree. -/
theorem NameTable.lookups_agree (h : NameTable s) (hname : LegalName name) :
    duplicateName s name = true ↔ (findFileIndexByName s name).isSome = true := by
  rw [duplicateName_iff, findFile_isSome]
  constructor
  · rintro ⟨i,hi⟩
    refine ⟨i,?_,hi⟩
    by_contra hlive
    have hlen := hname.1
    rw [← hi, h.vacant i hlive] at hlen
    exact absurd hlen (by decide)
  · rintro ⟨i,-,hi⟩
    exact ⟨i,hi⟩

/-- In every state reached the names are in order and the two searches agree, whatever
each call of `delete_` finds behind the table. -/
theorem names_in_order {flag : Bool} {calls : List (Option FileDescriptor × Call)}
    (hrun : run (fun s call => step call.1 s call.2) (emptyFileSystem flag) calls = some s) :
    NameTable s ∧ ∀ name, LegalName name →
      (duplicateName s name = true ↔ (findFileIndexByName s name).isSome = true) := by
  have htable : NameTable s := run_invariant (fun _ _ _ h hstep => h.step hstep) (nameTable_empty flag) hrun
  exact ⟨htable,fun _ => htable.lookups_agree⟩

/-- Of three files the first is deleted by the name of the second, and another is created. -/
theorem moved_names_in_order : ∃ s, run (fun s call => step call.1 s call.2) (emptyFileSystem true)
    [(none,.create ['a'] 0),(none,.create ['b'] 0),(none,.create ['c'] 33),(some ⟨['x'],5,7⟩,.delete_ ['b']),
      (none,.create ['a'] 0)] = some s ∧
    NameTable s ∧ ∀ name, LegalName name →
      (duplicateName s name = true ↔ (findFileIndexByName s name).isSome = true) := by
  have hruns : ((run (fun s call => step call.1 s call.2) (emptyFileSystem true)
      [(none,.create ['a'] 0),(none,.create ['b'] 0),(none,.create ['c'] 33),(some ⟨['x'],5,7⟩,.delete_ ['b']),
        (none,.create ['a'] 0)]).any fun _ => true) = true := by decide +kernel
  obtain ⟨s,hrun,-⟩ := (Option.any_eq_true _ _).mp hruns
  exact ⟨s,hrun,names_in_order hrun⟩

end SOI.FileSystem

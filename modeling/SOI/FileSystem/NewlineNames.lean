import SOI.FileSystem.RoundTrip

/-! # Tables with a newline in a name

Whether such a table can be read at all, and where its files then start.
-/
namespace SOI.FileSystem
open Texts
variable {fd_table t : Fin NUM_FILES → FileDescriptor} {fd : FileDescriptor} {name line : Text} {ls : List Text}

/-- Reading this line throws. -/
def UnreadableLine (line : Text) : Prop :=
  (restoreDescriptorLine { fd_table := fun _ => emptyFileDescriptor } line).isOk = false

instance : DecidablePred UnreadableLine := fun _ => inferInstanceAs (Decidable (_ = _))

/-- Whether a line is readable does not depend on what has been read. -/
theorem restoreDescriptorLine_throws (line : Text) :
    (∃ e, ∀ r, restoreDescriptorLine r line = .error (.thrown e)) ∨ ∀ r, ∃ r', restoreDescriptorLine r line = .ok r' := by
  have hfield : ∀ pos, (∃ e, field line pos = .error (.thrown e)) ∨ ∃ n, field line pos = .ok n := fun pos => by
    unfold field
    cases (substr line pos).bind stoi with
    | error e => exact Or.inl ⟨e,rfl⟩
    | ok n => exact Or.inr ⟨_,rfl⟩
  unfold restoreDescriptorLine
  split_ifs
  · cases substr line 6 with
    | error e => exact Or.inl ⟨e,fun r => rfl⟩
    | ok a => exact Or.inr fun r => ⟨_,rfl⟩
  · rcases hfield 15 with ⟨e,he⟩ | ⟨n,hn⟩
    · rw [he]
      exact Or.inl ⟨e,fun r => rfl⟩
    · rw [hn]
      exact Or.inr fun r => ⟨_,rfl⟩
  · rcases hfield 6 with ⟨e,he⟩ | ⟨n,hn⟩
    · rw [he]
      exact Or.inl ⟨e,fun r => rfl⟩
    · rw [hn]
      exact Or.inr fun r => ⟨_,rfl⟩
  · exact Or.inr fun r => ⟨_,rfl⟩
  · exact Or.inr fun r => ⟨_,rfl⟩

theorem line_unreadable (h : UnreadableLine line) : ∃ e, ∀ r, restoreDescriptorLine r line = .error (.thrown e) := by
  rcases restoreDescriptorLine_throws line with hthrows | hreads
  · exact hthrows
  · obtain ⟨r',hr⟩ := hreads { fd_table := fun _ => emptyFileDescriptor }
    rw [UnreadableLine, hr] at h
    cases h

theorem line_readable (h : ¬ UnreadableLine line) (r : DescriptorReader) : ∃ r', restoreDescriptorLine r line = .ok r' := by
  rcases restoreDescriptorLine_throws line with ⟨e,hthrows⟩ | hreads
  · exact absurd (show UnreadableLine line by rw [UnreadableLine, hthrows]; rfl) h
  · exact hreads r

theorem not_unreadable {r r' : DescriptorReader} (h : restoreDescriptorLine r line = .ok r') : ¬ UnreadableLine line := by
  intro hline
  obtain ⟨e,he⟩ := line_unreadable hline
  rw [he] at h
  cases h

theorem foldlM_readable (h : ∀ l ∈ ls, ¬ UnreadableLine l) (r : DescriptorReader) :
    ∃ r', ls.foldlM restoreDescriptorLine r = .ok r' := by
  induction ls generalizing r with
  | nil => exact ⟨r,rfl⟩
  | cons l ls ih =>
    obtain ⟨t,ht⟩ := line_readable (h l (by simp)) r
    obtain ⟨r',hr⟩ := ih (fun k hk => h k (by simp [hk])) t
    exact ⟨r',by rw [List.foldlM_cons, ht, ok_bind, hr]⟩

theorem foldlM_unreadable (hline : line ∈ ls) (h : UnreadableLine line) (r : DescriptorReader) :
    ∃ e, ls.foldlM restoreDescriptorLine r = .error (.thrown e) := by
  induction ls generalizing r with
  | nil => cases hline
  | cons l ls ih =>
    rw [List.foldlM_cons]
    by_cases hl : UnreadableLine l
    · obtain ⟨e,he⟩ := line_unreadable hl
      exact ⟨e,by rw [he]; rfl⟩
    · have hrest : line ∈ ls := by
        rcases List.mem_cons.mp hline with rfl | hrest
        · exact absurd h hl
        · exact hrest
      obtain ⟨t,ht⟩ := line_readable hl r
      rw [ht, ok_bind]
      exact ih hrest t

theorem readable_of_mem {r r' : DescriptorReader} (h : ls.foldlM restoreDescriptorLine r = .ok r') (hline : line ∈ ls) :
    ¬ UnreadableLine line := by
  intro hbad
  obtain ⟨e,he⟩ := foldlM_unreadable hline hbad r
  rw [he] at h
  cases h

/-- Behind the first line of the name there is one at which reading throws. -/
def UnreadableName (name : Text) : Prop := ∃ l ∈ (lines (name ++ ['\n'])).tail, UnreadableLine l

instance : DecidablePred UnreadableName := fun _ => inferInstanceAs (Decidable (∃ l ∈ _, UnreadableLine l))

def Unreadable (fd_table : Fin NUM_FILES → FileDescriptor) : Prop := ∃ i, UnreadableName (fd_table i).name

theorem name_readable (h : '\n' ∉ name) : ¬ UnreadableName name := by
  rintro ⟨l,hl,-⟩
  rw [lines_line h] at hl
  cases hl

theorem Plain.readable (h : Plain fd_table) : ¬ Unreadable fd_table := by
  rintro ⟨i,hi⟩
  exact name_readable (h i) hi

/-- The lines of a descriptor: the first one of the name, its other lines, and the rest. -/
theorem readLines_eq (fd : FileDescriptor) : ∃ front, lines (fd.name ++ ['\n']) = front :: (lines (fd.name ++ ['\n'])).tail ∧
    readLines fd = ["Name: ".toList ++ front] ++ (lines (fd.name ++ ['\n'])).tail ++
      ["Starting Block: ".toList ++ decimal fd.starting_block.toInt,"Size: ".toList ++ decimal fd.size.toInt] ++
      ["----".toList] := by
  obtain ⟨front,rest,hlines⟩ := lines_ended fd.name
  have hlabel : lines ("Name: ".toList ++ (fd.name ++ ['\n'])) = ("Name: ".toList ++ front) :: rest :=
    lines_label (by simp) hlines
  refine ⟨front,by rw [hlines]; rfl,?_⟩
  rw [readLines, List.append_assoc "Name: ".toList, hlabel, hlines]
  rfl

theorem exists_unreadable_iff : (∃ l ∈ readLines fd, UnreadableLine l) ↔ UnreadableName fd.name := by
  obtain ⟨front,-,hread⟩ := readLines_eq fd
  have hname := not_unreadable (read_name { fd_table := fun _ => emptyFileDescriptor } front)
  have hnumbers := fun l => @readable_of_mem l _ _ _
    (read_numbers { fd_table := fun _ => emptyFileDescriptor } fd.starting_block fd.size)
  have hdashes := not_unreadable (read_dashes { fd_table := fun _ => emptyFileDescriptor })
  rw [hread]
  constructor
  · rintro ⟨l,hl,hbad⟩
    simp only [List.mem_append, List.mem_cons, List.not_mem_nil, or_false] at hl
    rcases hl with ((rfl | hl) | rfl | rfl) | rfl
    · exact absurd hbad hname
    · exact ⟨l,hl,hbad⟩
    · exact absurd hbad (hnumbers _ (by simp))
    · exact absurd hbad (hnumbers _ (by simp))
    · exact absurd hbad hdashes
  · rintro ⟨l,hl,hbad⟩
    refine ⟨l,?_,hbad⟩
    simp only [List.mem_append]
    exact Or.inl (Or.inl (Or.inr hl))

theorem restore_unreadable (h : Unreadable fd_table) (fd_table' : Fin NUM_FILES → FileDescriptor) :
    ∃ e, restoreDescriptors fd_table' (lines (descriptorsText fd_table)) = .error (.thrown e) := by
  obtain ⟨i,hi⟩ := h
  obtain ⟨l,hl,hbad⟩ := exists_unreadable_iff.mpr hi
  have hmem : l ∈ (List.ofFn fd_table).flatMap readLines :=
    List.mem_flatMap.mpr ⟨_,List.mem_ofFn.mpr ⟨i,rfl⟩,hl⟩
  obtain ⟨e,he⟩ := foldlM_unreadable hmem hbad { fd_table := fd_table' }
  refine ⟨e,?_⟩
  rw [restoreDescriptors, descriptorsText, lines_readLines, he]
  rfl

theorem restore_readable (h : ¬ Unreadable fd_table) (fd_table' : Fin NUM_FILES → FileDescriptor) :
    ∃ t, restoreDescriptors fd_table' (lines (descriptorsText fd_table)) = .ok t := by
  have hall : ∀ l ∈ (List.ofFn fd_table).flatMap readLines, ¬ UnreadableLine l := by
    intro l hl hbad
    obtain ⟨d,hd,hl⟩ := List.mem_flatMap.mp hl
    obtain ⟨i,rfl⟩ := List.mem_ofFn.mp hd
    exact h ⟨i,exists_unreadable_iff.mp ⟨l,hl,hbad⟩⟩
  obtain ⟨r,hr⟩ := foldlM_readable hall { fd_table := fd_table' }
  refine ⟨r.fd_table,?_⟩
  rw [restoreDescriptors, descriptorsText, lines_readLines, hr]
  rfl

structure Started (i : Fin NUM_FILES) (r : DescriptorReader) : Prop where
  reached : i ≤ r.i
  fd : r.fd.starting_block ≠ -1
  entry : i < r.i → (r.fd_table i).starting_block ≠ -1

section
variable {i : Fin NUM_FILES} {r r' : DescriptorReader}

theorem finish_cases (r : DescriptorReader) : r.finish = r ∨
    ∃ hlt : r.i < NUM_FILES, r.finish = { r with i := r.i + 1, fd_table := Function.update r.fd_table ⟨r.i,hlt⟩ r.fd } := by
  unfold DescriptorReader.finish
  split_ifs with hlt
  · exact Or.inr ⟨hlt,rfl⟩
  · exact Or.inl rfl

theorem Started.finish (h : Started i r) : Started i r.finish ∧ i < r.finish.i := by
  rcases finish_cases r with hfinish | ⟨hlt,hfinish⟩
  · rw [hfinish]
    have hfull : ¬ r.i < NUM_FILES := fun hlt => by
      have hnext := congrArg DescriptorReader.i ((dif_pos hlt).symm.trans hfinish)
      exact absurd hnext (Nat.succ_ne_self _)
    exact ⟨h,by omega⟩
  · have hreached := h.reached
    rw [hfinish]
    refine ⟨⟨Nat.le_succ_of_le hreached,h.fd,fun hi => ?_⟩,Nat.lt_succ_of_le hreached⟩
    show (Function.update r.fd_table ⟨r.i,hlt⟩ r.fd i).starting_block ≠ -1
    by_cases hir : i = ⟨r.i,hlt⟩
    · rw [hir, Function.update_self]
      exact h.fd
    · rw [Function.update_of_ne hir]
      exact h.entry (Nat.lt_of_le_of_ne hreached fun heq => hir (Fin.ext heq))

theorem Started.short (h : Started i r) (hline : line.length < 15) (hr : restoreDescriptorLine r line = .ok r') :
    Started i r' := by
  rcases restoreDescriptorLine_cases hr with rfl | ⟨hfind,-⟩ | ⟨m,rfl⟩ | ⟨-,rfl⟩ | rfl
  · exact ⟨h.reached,h.fd,h.entry⟩
  · have hlength := find_length hfind
    rw [show "Starting Block:".toList.length = 15 from rfl] at hlength
    omega
  · exact ⟨h.reached,h.fd,h.entry⟩
  · exact h.finish.1
  · exact h

theorem complete_line {fd : FileDescriptor} (h : i < r.i ∧ r.fd_table i = fd)
    (hr : restoreDescriptorLine r line = .ok r') : i < r'.i ∧ r'.fd_table i = fd := by
  rcases restoreDescriptorLine_cases hr with rfl | ⟨-,n,-,rfl⟩ | ⟨n,rfl⟩ | ⟨-,rfl⟩ | rfl
  · exact h
  · exact h
  · exact h
  · rcases finish_cases r with hfinish | ⟨hlt,hfinish⟩
    · rwa [hfinish]
    · have hir : i ≠ ⟨r.i,hlt⟩ := by
        rintro rfl
        exact absurd h.1 (lt_irrefl _)
      rw [hfinish]
      exact ⟨Nat.lt_succ_of_lt h.1,(Function.update_of_ne hir ..).trans h.2⟩
  · exact h

theorem Started.read {fd : FileDescriptor} (h : Started i r) (hname : fd.name.length ≤ MAX_NAME_SIZE)
    (hstart : fd.starting_block ≠ -1) (hr : (readLines fd).foldlM restoreDescriptorLine r = .ok r') :
    i < r'.i ∧ (r'.fd_table i).starting_block ≠ -1 := by
  obtain ⟨front,hlines,hread⟩ := readLines_eq fd
  have hshort : ∀ l ∈ (lines (fd.name ++ ['\n'])).tail, l.length < 15 := by
    intro l hl
    have hlength := length_of_mem_lines (List.mem_of_mem_tail hl)
    have hmax : fd.name.length ≤ 10 := hname
    rw [List.length_append, List.length_singleton] at hlength
    omega
  rw [hread, foldlM_append_ok] at hr
  obtain ⟨u,hr,hdashes⟩ := hr
  obtain ⟨v,hr,hfields⟩ := foldlM_append_ok.mp hr
  obtain ⟨x,hfront,htail⟩ := foldlM_append_ok.mp hr
  simp only [List.foldlM_cons, List.foldlM_nil, read_name, ok_bind] at hfront
  cases hfront
  have hv : Started i v := foldlM_preserves (fun l hl r r' hr => hr.short (hshort l hl))
    (show Started i { r with fd := { r.fd with name := front } } from ⟨h.reached,h.fd,h.entry⟩) htail
  rw [read_numbers] at hfields
  cases hfields
  simp only [List.foldlM_cons, List.foldlM_nil, read_dashes, ok_bind] at hdashes
  cases hdashes
  have hu : Started i { v with fd := { v.fd with starting_block := fd.starting_block, size := fd.size } } :=
    ⟨hv.reached,hstart,hv.entry⟩
  exact ⟨hu.finish.2,hu.finish.1.entry hu.finish.2⟩

theorem readLines_plain {fd : FileDescriptor} (h : '\n' ∉ fd.name) : readLines fd = descriptorLines fd := by
  have hline : '\n' ∉ "Name: ".toList ++ fd.name := by simp [h]
  rw [readLines, lines_line hline]
  rfl

/-- Behind readable entries with a starting block, an entry is restored with one, even
if there is a newline in its name. -/
theorem restored_start {fd_table' : Fin NUM_FILES → FileDescriptor} (hplain : ∀ j < i, '\n' ∉ (fd_table j).name)
    (hstart : ∀ j ≤ i, (fd_table j).starting_block ≠ -1) (hname : (fd_table i).name.length ≤ MAX_NAME_SIZE)
    (h : restoreDescriptors fd_table' (lines (descriptorsText fd_table)) = .ok t) : (t i).starting_block ≠ -1 := by
  have hsplit : List.ofFn fd_table = (List.ofFn fd_table).take i ++ (fd_table i :: (List.ofFn fd_table).drop (i + 1)) := by
    conv_lhs => rw [← List.take_append_drop i (List.ofFn fd_table)]
    rw [List.drop_eq_getElem_cons (by simp), List.getElem_ofFn]
  have hfront : ∀ d ∈ (List.ofFn fd_table).take i, ∃ j < i, fd_table j = d := by
    intro d hd
    obtain ⟨n,hn,rfl⟩ := List.mem_take_iff_getElem.mp hd
    rw [List.length_ofFn] at hn
    exact ⟨⟨n,by omega⟩,by rw [Fin.lt_def]; simp only; omega,by rw [List.getElem_ofFn]⟩
  have hlines : ((List.ofFn fd_table).take i).flatMap readLines = ((List.ofFn fd_table).take i).flatMap descriptorLines := by
    refine List.flatMap_congr fun d hd => ?_
    obtain ⟨j,hj,rfl⟩ := hfront d hd
    exact readLines_plain (hplain j hj)
  have hlength : ((List.ofFn fd_table).take i).length = i := by
    have hlt := i.isLt
    rw [List.length_take, List.length_ofFn]
    omega
  rw [restoreDescriptors, descriptorsText, lines_readLines, hsplit, List.flatMap_append, List.flatMap_cons, hlines] at h
  obtain ⟨r,hall,rfl⟩ := map_eq_ok.mp h
  obtain ⟨u,hu,hbehind⟩ := foldlM_append_ok.mp hall
  obtain ⟨v,hv,hrest⟩ := foldlM_append_ok.mp hbehind
  obtain ⟨u',hu',hi,hfd,-⟩ := read_descriptors ((List.ofFn fd_table).take i) { fd_table := fd_table' } (by
    rw [hlength]
    have hlt := i.isLt
    simp only
    omega)
  obtain rfl : u' = u := Except.ok.inj (hu'.symm.trans hu)
  have hreached : u'.i = i := by
    rw [hi, hlength]
    exact Nat.zero_add _
  have hfd' : u'.fd.starting_block ≠ -1 := by
    rw [hfd]
    cases hlast : ((List.ofFn fd_table).take i).getLast? with
    | none => exact fun hzero => absurd (show (0 : Int16) = -1 from hzero) (by decide)
    | some d =>
      obtain ⟨j,hj,rfl⟩ := hfront d (List.mem_of_getLast? hlast)
      exact hstart j hj.le
  have hstarted : Started i u' := ⟨by omega,hfd',fun hlt => by omega⟩
  have hcomplete := hstarted.read hname (hstart i le_rfl) hv
  have hkept := foldlM_preserves (fun l _ r r' hr => @complete_line l i r r' (v.fd_table i) hr) ⟨hcomplete.1,rfl⟩ hrest
  rw [hkept.2]
  exact hcomplete.2

end

end SOI.FileSystem

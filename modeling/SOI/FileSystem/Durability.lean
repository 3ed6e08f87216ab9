import SOI.FileSystem.RoundTrip
import SOI.FileSystem.Calls

/-! # Durability of completed calls -/
namespace SOI.FileSystem
open Texts Runs
variable {s s' t raw : State} {past : Option FileDescriptor}

/-- Starting from the disk gives back the files of `s`, and there is nothing to repair. -/
def Rebuilds (raw : State) (d : Disk) (s : State) : Prop :=
  ∃ t, restoreFromDisk raw d = .ok t ∧ repair t = .ok t ∧ construct raw d = saved () t.closed ∧ SameFiles s t

theorem construct_ok {d : Disk} (hrestore : restoreFromDisk raw d = .ok t) (hrepair : repair t = .ok s) :
    construct raw d = saved () s.closed := by
  rw [construct, hrestore, ok_bind, hrepair]

theorem repair_idle (h : Idle s) : repair s = .ok s := by
  rw [repair, if_neg]
  rw [h]
  exact Bool.false_ne_true

theorem SameFiles.refl (s : State) : SameFiles s s := ⟨rfl,rfl,rfl,rfl⟩

/-- What has been saved is rebuilt if and only if no name in the table has a newline. -/
theorem rebuilds_iff (hidle : Idle s) : Rebuilds raw (diskOf s) s ↔ Plain s.fd_table := by
  constructor
  · rintro ⟨t,hrestore,-,-,hsame⟩
    rw [diskOf, restore_files] at hrestore
    cases hread : restoreDescriptors raw.fd_table (lines (descriptorsText s.fd_table)) with
    | error e =>
      rw [hread] at hrestore
      cases hrestore
    | ok u =>
      rw [hread] at hrestore
      cases hrestore
      rw [← hsame.fd_table]
      exact restored_plain hread
  · intro hplain
    have hrestore := restore_files raw s.memory s.fat s.fd_table s.transaction_log s.file_count
    rw [restore_descriptors hplain] at hrestore
    have hrepair : repair (raw.restored s.memory s.fat s.fd_table s.transaction_log s.file_count) = .ok _ :=
      repair_idle hidle
    exact ⟨_,hrestore,hrepair,construct_ok hrestore hrepair,rfl,rfl,rfl,rfl⟩

def NewlineFree : Call → Prop
  | .create name _ => '\n' ∉ name
  | _ => True

instance : DecidablePred NewlineFree
  | .create _ _ => inferInstanceAs (Decidable (_ ∉ _))
  | .open_ _ => isTrue trivial
  | .close _ => isTrue trivial
  | .read _ _ => isTrue trivial
  | .write _ _ _ => isTrue trivial
  | .delete_ _ => isTrue trivial

theorem SameEntries.plain (h : SameEntries s t) (hs : Plain s.fd_table) : Plain t.fd_table := by
  intro i
  rw [h.name i]
  exact hs i

theorem plain_update {fd_table : Fin NUM_FILES → FileDescriptor} {i : Fin NUM_FILES} {fd : FileDescriptor}
    (h : Plain fd_table) (hfd : '\n' ∉ fd.name) : Plain (Function.update fd_table i fd) := by
  intro j
  by_cases hj : j = i
  · subst hj
    rwa [Function.update_self]
  · rw [Function.update_of_ne hj]
    exact h j

theorem Deleted.plain {name : Text} (d : Deleted past name s s') (hs : Plain s.fd_table) : Plain s'.fd_table := by
  intro i
  rcases d.entry i with ⟨hi,-,heq⟩ | ⟨-,heq⟩ | ⟨-,heq⟩
  · rw [heq]
    exact hs _
  · rw [heq]
    exact List.not_mem_nil
  · rw [heq]
    exact hs i

theorem perform_plain {call : Call} {r : Reply} (hs : Plain s.fd_table) (hcall : NewlineFree call)
    (h : (perform past call s).result = .ok (r,s')) : Plain s'.fd_table := by
  rcases perform_entries h with ⟨name,size,rfl,⟨c⟩⟩ | ⟨name,rfl,⟨c⟩⟩ | ⟨-,hname,-⟩
  · rw [c.result]
    exact plain_update hs hcall
  · exact c.plain hs
  · intro i
    rw [hname]
    exact hs i

theorem run_idle {flag : Bool} {calls : List Call} (h : run (step past) (emptyFileSystem flag) calls = some s) :
    Idle s := by
  have hstep : ∀ t c u, Idle t → step past t c = some u → Idle u := by
    intro t c u ht hc
    obtain ⟨r,hr⟩ := step_ok hc
    exact ht.perform hr
  have hstart : Idle (emptyFileSystem flag) := rfl
  exact run_invariant hstep hstart h

theorem run_plain {s₀ : State} {calls : List Call} (hs : Plain s₀.fd_table) (hcalls : ∀ c ∈ calls, NewlineFree c)
    (h : run (step past) s₀ calls = some s) : Plain s.fd_table := by
  induction calls generalizing s₀ with
  | nil =>
    cases h
    exact hs
  | cons c cs ih =>
    obtain ⟨t,hc,hcs⟩ := run_cons_iff.mp h
    obtain ⟨r,hr⟩ := step_ok hc
    exact ih (perform_plain hs (hcalls c (by simp)) hr) (fun k hk => hcalls k (by simp [hk])) hcs

/-- After a run that ends with a successful `create`, `write` or `delete_`, starting
from the files on disk rebuilds the state exactly if no name then in the table has a
newline; so it always does when no file with such a name is created. -/
theorem durable {flag : Bool} {calls : List Call} {call : Call} {r : Reply}
    (hrun : run (step past) (emptyFileSystem flag) calls = some s)
    (hlast : (perform past call s).result = .ok (r,s')) (hsaved : r.hasSaved = true) (raw : State) (d : Disk) :
    (Rebuilds raw (d.puts (perform past call s).saves) s' ↔ Plain s'.fd_table) ∧
      ((∀ c ∈ calls ++ [call], NewlineFree c) → Rebuilds raw (d.puts (perform past call s).saves) s') := by
  obtain ⟨before,hsaves⟩ := perform_saves hlast hsaved
  have hdisk : d.puts (perform past call s).saves = diskOf s' := by
    rw [hsaves, Disk.puts, List.foldl_append]
    rfl
  have hiff : Rebuilds raw (d.puts (perform past call s).saves) s' ↔ Plain s'.fd_table := by
    rw [hdisk]
    exact rebuilds_iff ((run_idle hrun).perform hlast)
  refine ⟨hiff,fun hcalls => hiff.mpr ?_⟩
  have hplain : Plain s.fd_table :=
    run_plain (fun _ => List.not_mem_nil) (fun c hc => hcalls c (List.mem_append_left _ hc)) hrun
  exact perform_plain hplain (hcalls call (by simp)) hlast

theorem written_durable : ∃ s s', run (step none) (emptyFileSystem false) [.create ['a'] 0,.open_ ['a']] = some s ∧
    (perform none (.write ['a'] (fun _ => 7) 3) s).result = .ok (.write .FILE_WRITE_SUCCESS,s') ∧
      ∀ raw d, Rebuilds raw (Disk.puts d (perform none (.write ['a'] (fun _ => 7) 3) s).saves) s' := by
  have hruns : ((run (step none) (emptyFileSystem false) [.create ['a'] 0,.open_ ['a']]).any fun s =>
      (perform none (.write ['a'] (fun _ => 7) 3) s).result.toOption.any fun r =>
        r.1 = .write .FILE_WRITE_SUCCESS) = true := by decide
  obtain ⟨s,hrun,hwrites⟩ := (Option.any_eq_true _ _).mp hruns
  obtain ⟨⟨r,s'⟩,hwrite,hr⟩ := exists_of_any hwrites
  obtain rfl : r = .write .FILE_WRITE_SUCCESS := of_decide_eq_true hr
  exact ⟨s,s',hrun,hwrite,fun raw d => (durable hrun hwrite rfl raw d).2 (by decide)⟩

/-- A name with a newline in it is broken off when it is read back. -/
theorem newline_not_durable : ∃ s', (perform none (.create ['a','\n','b'] 0) (emptyFileSystem false)).result =
    .ok (.create .FILE_CREATE_SUCCESS,s') ∧ ∀ raw d,
      ¬ Rebuilds raw (Disk.puts d (perform none (.create ['a','\n','b'] 0) (emptyFileSystem false)).saves) s' := by
  have hcreates : ((perform none (.create ['a','\n','b'] 0) (emptyFileSystem false)).result.toOption.any fun r =>
      r.1 = .create .FILE_CREATE_SUCCESS && (r.2.fd_table 0).name = ['a','\n','b']) = true := by decide
  obtain ⟨⟨r,s'⟩,hcreate,hr⟩ := exists_of_any hcreates
  rw [Bool.and_eq_true, decide_eq_true_eq, decide_eq_true_eq] at hr
  obtain ⟨rfl,hname⟩ := hr
  obtain ⟨before,hsaves⟩ := perform_saves hcreate rfl
  have hstart : Idle (emptyFileSystem false) := rfl
  have hidle := hstart.perform hcreate
  refine ⟨s',hcreate,fun raw d hrebuilds => ?_⟩
  rw [hsaves, Disk.puts, List.foldl_append] at hrebuilds
  have hplain := (rebuilds_iff hidle).mp hrebuilds 0
  rw [hname] at hplain
  exact hplain (by decide)

end SOI.FileSystem

/-
# Writing a file

A write puts its content at the place that its path names, and nothing changes
at any other place (`FileSystem.find?_of_write?`). It makes no directory and
removes none, so every path names the same place as before
(`FileSystem.locate?_of_write?`). Therefore a path that was written can be read
(`FileSystem.read?_of_write?`), and can be written once more
(`FileSystem.exists_rewrite`): a file that could be opened can be filled.

Key definitions: `FileSystem.SameBut`.
Key theorems: `FileSystem.find?_of_write?`, `FileSystem.locate?_of_write?`,
`FileSystem.read?_of_write?`, `FileSystem.exists_rewrite`.
-/
import RegisterMachine.Command.FileSystem

namespace RegisterMachine
namespace FileSystem

/-- The file systems are the same but for the file that a path names in the first one. -/
structure SameBut (path : Bytes) (files later : FileSystem) : Prop where
  working : later.working = files.working
  find? : ∀ place, files.locate? path ≠ some place → later.find? place = files.find? place

theorem SameBut.refl (path : Bytes) (files : FileSystem) : SameBut path files files :=
  ⟨rfl, fun _ _ => rfl⟩

variable {files written : FileSystem} {path content : Bytes} {place : Place}

theorem ne_nil_of_locate? (h : files.locate? path = some place) : place ≠ [] := by
  unfold locate? at h
  simp only at h
  split at h
  · cases h
  · obtain ⟨directory, -, rfl⟩ := Option.map_eq_some_iff.mp h
    exact List.append_ne_nil_of_right_ne_nil _ (List.cons_ne_nil _ _)

theorem write?_eq_some_iff : files.write? path content = some written ↔
    ∃ place, files.locate? path = some place ∧ files.find? place ≠ some .directory ∧
      files.put place (.file content) = written := by
  unfold write?
  cases files.locate? path with
  | none => simp
  | some place => simp

/-- A write changes what stands at the place of its path, and no other place. -/
theorem find?_of_write? (h : files.write? path content = some written) (other : Place) :
    written.find? other =
      if files.locate? path = some other then some (.file content) else files.find? other := by
  obtain ⟨place, hplace, -, rfl⟩ := write?_eq_some_iff.mp h
  rw [find?_put files _ (ne_nil_of_locate? hplace), hplace]
  by_cases hother : other = place
  · rw [if_pos hother, if_pos (congrArg some hother.symm)]
  · rw [if_neg hother, if_neg fun heq => hother (Option.some.inj heq).symm]

/-- A write makes no directory and removes none. -/
theorem find?_directory_of_write? (h : files.write? path content = some written) (other : Place) :
    written.find? other = some .directory ↔ files.find? other = some .directory := by
  rw [find?_of_write? h]
  split
  · rename_i hother
    obtain ⟨place, hplace, hfile, -⟩ := write?_eq_some_iff.mp h
    obtain rfl : place = other := Option.some.inj (hplace.symm.trans hother)
    simp [hfile]
  · rfl

/-- After a write, every path names the place that it has named before. -/
theorem locate?_of_write? (h : files.write? path content = some written) (other : Bytes) :
    written.locate? other = files.locate? other := by
  have hworking : written.working = files.working := by
    obtain ⟨place, -, -, rfl⟩ := write?_eq_some_iff.mp h
    rfl
  have henter : written.enter = files.enter := by
    funext place component
    simp only [enter, find?_directory_of_write? h]
  unfold locate? start
  rw [hworking, henter]

theorem sameBut_of_write? (h : files.write? path content = some written) :
    SameBut path files written := by
  refine ⟨?_, fun place hplace => ?_⟩
  · obtain ⟨place, -, -, rfl⟩ := write?_eq_some_iff.mp h
    rfl
  · rw [find?_of_write? h, if_neg hplace]

/-- A file is read as it was written, under every path that names it; the other files are read as
before. -/
theorem read?_of_write? (h : files.write? path content = some written) (other : Bytes) :
    written.read? other =
      if files.locate? other = files.locate? path then some content else files.read? other := by
  obtain ⟨place, hplace, -, -⟩ := write?_eq_some_iff.mp h
  unfold read?
  rw [locate?_of_write? h]
  cases hother : files.locate? other with
  | none => simp [hplace]
  | some place' =>
    simp only [Option.bind_some, content?, find?_of_write? h, hplace]
    by_cases heq : place' = place
    · simp [heq]
    · simp [heq, Ne.symm heq]

/-- **A file that could be written can be written again.** It holds what was written last, and
nothing else has changed since before the first write. -/
theorem exists_rewrite (h : files.write? path content = some written) (text : Bytes) :
    ∃ final, written.write? path text = some final ∧ final.read? path = some text ∧
      SameBut path files final := by
  obtain ⟨place, hplace, hfile, -⟩ := write?_eq_some_iff.mp h
  have hplace' : written.locate? path = some place := by rw [locate?_of_write? h, hplace]
  have hfile' : written.find? place ≠ some .directory := by
    rwa [ne_eq, find?_directory_of_write? h]
  have hfinal : written.write? path text = some (written.put place (.file text)) :=
    write?_eq_some_iff.mpr ⟨place, hplace', hfile', rfl⟩
  have hsame := sameBut_of_write? h
  have hsame' := sameBut_of_write? hfinal
  refine ⟨_, hfinal, by rw [read?_of_write? hfinal, if_pos rfl], ?_, fun other hother => ?_⟩
  · rw [hsame'.working, hsame.working]
  · rw [hsame'.find? other (by rwa [locate?_of_write? h]), hsame.find? other hother]

end FileSystem
end RegisterMachine

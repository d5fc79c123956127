/-
# Numbers of source files

After any sequence of registrations the registry holds the normal forms of the
paths, each once and in the order in which they came first
(`Registry.registerAll_eq`). The number of a path is the place of its normal
form in that order, counted from 1: this is so when the path is registered, and
stays so, since a registration adds to the end and nowhere else
(`Registry.exists_register_append`). So numbers are equal just if the normal
forms are, and a number leads back to its normal form for ever.

There are no more than `2 ^ 32 - 1` numbers, so the statements are about
sequences with fewer than `2 ^ 32` normal forms.

Key definitions: `Registry.registerAll`, `Registry.numbers`.
Key theorems: `Registry.register_eq`, `Registry.registerAll_eq`,
`Registry.path_of_place`, `Registry.register_path_of_mem_numbers`,
`Registry.numbers_of_registrations`.
-/
import Mathlib.Algebra.Group.Nat.Defs
import Mathlib.Data.List.GetD
import Mathlib.Data.List.Induction
import Mathlib.Data.List.Nodup
import RegisterMachine.Proofs.NormalPaths
import RegisterMachine.Source.Registry

namespace RegisterMachine

/-! ### First occurrences -/

section

variable {normals : List Bytes} {normal : Bytes}

/-- What is there already does not come first once more. -/
theorem eraseDups_concat (normals : List Bytes) (normal : Bytes) :
    (normals ++ [normal]).eraseDups =
      if normal ∈ normals then normals.eraseDups else normals.eraseDups ++ [normal] := by
  rw [List.eraseDups_append, List.cons_removeAll]
  by_cases h : normal ∈ normals
  · simp [h]
  · simp [h, List.eraseDups_cons]

theorem nodup_eraseDups (normals : List Bytes) : normals.eraseDups.Nodup := by
  induction normals using List.reverseRecOn with
  | nil => exact List.nodup_nil
  | append_singleton normals normal ih =>
    rw [eraseDups_concat]
    split
    · exact ih
    · rename_i h
      rw [← List.mem_eraseDups] at h
      exact List.nodup_append.mpr ⟨ih, by simp, by grind⟩

/-- What comes first among fewer paths is no more. -/
theorem length_eraseDups_le (normals later : List Bytes) :
    normals.eraseDups.length ≤ (normals ++ later).eraseDups.length := by
  rw [List.eraseDups_append, List.length_append]
  exact Nat.le_add_right _ _

theorem idxOf_eraseDups_append (h : normal ∈ normals) (later : List Bytes) :
    (normals ++ later).eraseDups.idxOf normal = normals.eraseDups.idxOf normal := by
  rw [List.eraseDups_append, List.idxOf_append_of_mem (List.mem_eraseDups.mpr h)]

theorem idxOf_eraseDups_lt (h : normal ∈ normals) :
    normals.eraseDups.idxOf normal < normals.eraseDups.length :=
  List.idxOf_lt_length_of_mem (List.mem_eraseDups.mpr h)

end

namespace Registry

variable {registry : Registry} {normals : List Bytes} {path : Bytes}

/-! ### One registration -/

theorem exists_register_append (registry : Registry) (path : Bytes) :
    ∃ added, (registry.register path).1.paths = registry.paths ++ added := by
  unfold register
  simp only
  split
  · exact ⟨[], (List.append_nil _).symm⟩
  split
  · exact ⟨_, rfl⟩
  · exact ⟨[], (List.append_nil _).symm⟩

theorem register_of_mem (h : Path.normal path ∈ registry.paths) :
    registry.register path =
      (registry, (registry.paths.idxOf (Path.normal path) + 1).toUInt32) := by
  obtain ⟨index, hindex⟩ := Option.isSome_iff_exists.mp (List.isSome_idxOf?.mpr h)
  have hplace : registry.paths.idxOf (Path.normal path) = index := by
    rw [List.idxOf_eq_getD_idxOf?, hindex, Option.getD_some]
  simp only [register, hindex, hplace]

/-- **One registration.** A registry that holds what came first holds what came first once more, and
the number is the place in it. -/
theorem register_eq (h : registry.paths = normals.eraseDups)
    (hroom : (normals ++ [Path.normal path]).eraseDups.length < 2 ^ 32) :
    registry.register path =
      ({ paths := (normals ++ [Path.normal path]).eraseDups },
        ((normals ++ [Path.normal path]).eraseDups.idxOf (Path.normal path) + 1).toUInt32) := by
  by_cases hmem : Path.normal path ∈ normals
  · rw [register_of_mem (by rwa [h, List.mem_eraseDups]), eraseDups_concat, if_pos hmem, ← h]
  · have hnew : Path.normal path ∉ registry.paths := by rwa [h, List.mem_eraseDups]
    rw [eraseDups_concat, if_neg hmem, ← h, List.length_append, List.length_singleton] at hroom
    have hfree : registry.paths.length < maxFiles := by
      rw [maxFiles, show UInt32.size = 2 ^ 32 from rfl]
      omega
    have hplace : (registry.paths ++ [Path.normal path]).idxOf (Path.normal path) =
        registry.paths.length := by
      rw [List.idxOf_append, if_neg hnew, List.idxOf_cons_self, Nat.zero_add]
    rw [eraseDups_concat, if_neg hmem, ← h, hplace]
    simp only [register, List.idxOf?_eq_none_iff.mpr hnew, hfree, if_true]

/-! ### All registrations -/

/-- The registry after paths were registered in turn. -/
def registerAll (registry : Registry) (paths : List Bytes) : Registry :=
  paths.foldl (fun registry path => (registry.register path).1) registry

/-- The numbers that paths are given, registered in turn. -/
def numbers (registry : Registry) : List Bytes → List UInt32
  | [] => []
  | path :: rest => (registry.register path).2 :: numbers (registry.register path).1 rest

theorem registerAll_append (registry : Registry) (paths later : List Bytes) :
    registry.registerAll (paths ++ later) = (registry.registerAll paths).registerAll later :=
  List.foldl_append

theorem exists_registerAll_append (registry : Registry) (paths : List Bytes) :
    ∃ added, (registry.registerAll paths).paths = registry.paths ++ added := by
  induction paths generalizing registry with
  | nil => exact ⟨[], (List.append_nil _).symm⟩
  | cons path rest ih =>
    obtain ⟨first, hfirst⟩ := registry.exists_register_append path
    obtain ⟨others, hothers⟩ := ih (registry.register path).1
    exact ⟨first ++ others, hothers.trans (by rw [hfirst, List.append_assoc])⟩

/-- **All registrations.** The registry holds what came first, and the numbers are the places in it;
the induction is on the paths to come, behind `normals` that came before. -/
theorem registerAll_eq (registry : Registry) (normals paths : List Bytes)
    (h : registry.paths = normals.eraseDups)
    (hroom : (normals ++ paths.map Path.normal).eraseDups.length < 2 ^ 32) :
    (registry.registerAll paths).paths = (normals ++ paths.map Path.normal).eraseDups ∧
      (registry.numbers paths).map UInt32.toNat = (paths.map Path.normal).map fun normal =>
        (normals ++ paths.map Path.normal).eraseDups.idxOf normal + 1 := by
  induction paths generalizing registry normals with
  | nil => exact ⟨by rw [List.map_nil, List.append_nil]; exact h, rfl⟩
  | cons path rest ih =>
    have hmem : Path.normal path ∈ normals ++ [Path.normal path] :=
      List.mem_append_right _ List.mem_cons_self
    have happend : normals ++ (path :: rest).map Path.normal =
        normals ++ [Path.normal path] ++ rest.map Path.normal := by simp
    rw [happend] at hroom ⊢
    have hfewer := Nat.lt_of_le_of_lt (length_eraseDups_le _ _) hroom
    have hregister := register_eq h hfewer
    obtain ⟨hpaths, hnumbers⟩ := ih (registry.register path).1 _ (by rw [hregister]) hroom
    have hplace := idxOf_eraseDups_lt hmem
    have hfirst : (registry.register path).2.toNat =
        (normals ++ [Path.normal path]).eraseDups.idxOf (Path.normal path) + 1 := by
      rw [hregister, Nat.toUInt32_eq, UInt32.toNat_ofNat']
      omega
    refine ⟨hpaths, ?_⟩
    rw [numbers, List.map_cons, List.map_cons, List.map_cons, hfirst, hnumbers,
      idxOf_eraseDups_append hmem]

/-- A number leads to its path, whatever is registered behind it. -/
theorem path_of_place {file : UInt32} {normal : Bytes} {added : List Bytes}
    (h : registry.paths = normals.eraseDups ++ added) (hnormal : normal ∈ normals)
    (hfile : file.toNat = normals.eraseDups.idxOf normal + 1) : registry.path file = normal := by
  have hplace := idxOf_eraseDups_lt hnormal
  have hne : file ≠ 0 := by
    rintro rfl
    cases hfile
  rw [path, if_neg hne, hfile, Nat.add_sub_cancel, h, List.getD_append _ _ _ _ hplace,
    List.getD_eq_getElem _ _ hplace, List.getElem_idxOf]

section

variable {paths : List Bytes} (hroom : (paths.map Path.normal).eraseDups.length < 2 ^ 32)
include hroom

/-- Registered in turn, the paths leave their normal forms, each where it came first. -/
theorem paths_registerAll : (registerAll {} paths).paths = (paths.map Path.normal).eraseDups :=
  (registerAll_eq {} [] paths rfl hroom).1

theorem exists_normal_of_number {i : Nat} {file : UInt32}
    (h : (numbers {} paths)[i]? = some file) :
    ∃ normal, (paths.map Path.normal)[i]? = some normal ∧ normal ∈ paths.map Path.normal ∧
      file.toNat = (paths.map Path.normal).eraseDups.idxOf normal + 1 := by
  have hat := congrArg (·[i]?) (registerAll_eq {} [] paths rfl hroom).2
  simp only [List.nil_append, List.getElem?_map, h, Option.map_some] at hat
  obtain ⟨normal, hnormal, hplace⟩ := Option.map_eq_some_iff.mp hat.symm
  rw [← List.getElem?_map] at hnormal
  exact ⟨normal, hnormal, List.mem_of_getElem? hnormal, hplace.symm⟩

theorem mem_numbers_of_place {file : UInt32} {normal : Bytes}
    (hnormal : normal ∈ paths.map Path.normal)
    (hfile : file.toNat = (paths.map Path.normal).eraseDups.idxOf normal + 1) :
    file ∈ numbers {} paths := by
  have hin : file.toNat ∈ (numbers {} paths).map UInt32.toNat := by
    rw [(registerAll_eq {} [] paths rfl hroom).2, hfile]
    exact List.mem_map_of_mem hnormal
  obtain ⟨file', hin', heq⟩ := List.mem_map.mp hin
  exact UInt32.toNat_inj.mp heq ▸ hin'

theorem path_of_not_mem_numbers {file : UInt32} (h : file ∉ numbers {} paths) :
    (registerAll {} paths).path file = [] := by
  unfold path
  split
  · rfl
  rename_i hne
  rw [paths_registerAll hroom]
  refine List.getD_eq_default _ _ (Nat.not_lt.mp fun hlt => h ?_)
  have hpos : file.toNat ≠ 0 := fun heq => hne (UInt32.toNat_inj.mp heq)
  have hplace := (nodup_eraseDups (paths.map Path.normal)).idxOf_getElem _ hlt
  exact mem_numbers_of_place hroom (List.mem_eraseDups.mp (List.getElem_mem hlt)) (by omega)

theorem register_path_of_mem_numbers {file : UInt32} (h : file ∈ numbers {} paths) :
    (registerAll {} paths).register ((registerAll {} paths).path file) =
      (registerAll {} paths, file) := by
  obtain ⟨i, hi⟩ := List.getElem?_of_mem h
  obtain ⟨normal, -, hnormal, hplace⟩ := exists_normal_of_number hroom hi
  have hpaths := paths_registerAll hroom
  have hpath : (registerAll {} paths).path file = normal :=
    path_of_place (hpaths.trans (List.append_nil _).symm) hnormal hplace
  have hsame : Path.normal normal = normal := by
    obtain ⟨path, -, rfl⟩ := List.mem_map.mp hnormal
    exact Path.normal_normal path
  have hregistered : Path.normal normal ∈ (registerAll {} paths).paths := by
    rwa [hsame, hpaths, List.mem_eraseDups]
  rw [hpath, register_of_mem hregistered, hsame, hpaths, ← hplace, Nat.toUInt32_eq,
    UInt32.ofNat_toNat]

end

/-- **Registered paths are numbered 1, 2, 3, … in the order in which they came first.** Equal
numbers are numbers of the same normal form, a number leads to its normal form whatever is
registered later, and what is no number leads to nothing. A normal form is its own, so what a number
leads to has this number. -/
theorem numbers_of_registrations (paths : List Bytes)
    (h : (paths.map Path.normal).eraseDups.length < 2 ^ 32) :
    let normals := paths.map Path.normal
    let registry := registerAll {} paths
    let files := numbers {} paths
    files.map UInt32.toNat = normals.map (fun normal => normals.eraseDups.idxOf normal + 1) ∧
    (∀ (i j : Nat) (file file' : UInt32), files[i]? = some file → files[j]? = some file' →
      (file = file' ↔ normals[i]? = normals[j]?)) ∧
    (∀ (i : Nat) (file : UInt32), files[i]? = some file → ∀ later,
      normals[i]? = some ((registerAll {} (paths ++ later)).path file)) ∧
    0 ∉ files ∧ (∀ file, file ∉ files → registry.path file = []) ∧
    (∀ path, Path.normal (Path.normal path) = Path.normal path) ∧
    ∀ file ∈ files, registry.register (registry.path file) = (registry, file) := by
  intro normals registry files
  have hpaths : registry.paths = normals.eraseDups := paths_registerAll h
  refine ⟨(registerAll_eq {} [] paths rfl h).2, fun i j file file' hi hj => ?_,
    fun i file hi later => ?_, fun hzero => ?_, fun file hnot => path_of_not_mem_numbers h hnot,
    Path.normal_normal, fun file hin => register_path_of_mem_numbers h hin⟩
  · obtain ⟨normal, hnormal, hin, hplace⟩ := exists_normal_of_number h hi
    obtain ⟨normal', hnormal', -, hplace'⟩ := exists_normal_of_number h hj
    rw [← UInt32.toNat_inj, hplace, hplace', hnormal, hnormal', Nat.add_right_cancel_iff,
      List.idxOf_inj (List.mem_eraseDups.mpr hin), Option.some_inj]
  · obtain ⟨normal, hnormal, hin, hplace⟩ := exists_normal_of_number h hi
    obtain ⟨added, hadded⟩ := registry.exists_registerAll_append later
    rw [hpaths] at hadded
    rw [hnormal, registerAll_append, path_of_place hadded hin hplace]
  · obtain ⟨i, hi⟩ := List.getElem?_of_mem hzero
    obtain ⟨_, -, -, hplace⟩ := exists_normal_of_number h hi
    cases hplace

/-- Two spellings of one path share a number, and a second registration gives it again. -/
theorem numbers_of_registrations_of_spellings :
    let paths : List Bytes :=
      [ascii "b", ascii "./a//x/../c.asm", ascii "../../d/", ascii "a/c.asm", ascii "/..",
        ascii "b"]
    let files : List UInt32 := [1, 2, 3, 2, 4, 1]
    let registry : Registry :=
      { paths := [ascii "b", ascii "a/c.asm", ascii "../../d/", ascii "/"] }
    numbers {} paths = files ∧ registerAll {} paths = registry ∧
      (∀ later, (registerAll {} (paths ++ later)).path 2 = ascii "a/c.asm") ∧
      registry.path 5 = [] ∧ registry.register (ascii "a/c.asm") = (registry, 2) := by
  intro paths files registry
  have hfiles : numbers {} paths = files := by decide
  have hregistry : registerAll {} paths = registry := by decide
  have hroom : (paths.map Path.normal).eraseDups.length < 2 ^ 32 := by decide
  obtain ⟨-, -, hpath, -, hnone, -, hagain⟩ := numbers_of_registrations paths hroom
  rw [hfiles] at hpath hnone hagain
  rw [hregistry] at hnone hagain
  have hname : registry.path 2 = ascii "a/c.asm" := by decide
  refine ⟨hfiles, hregistry, fun later => ?_, hnone 5 (by decide), ?_⟩
  · have hcame : (paths.map Path.normal)[1]? = some (ascii "a/c.asm") := by decide
    rw [hpath 1 2 rfl later] at hcame
    exact Option.some.inj hcame
  · have hsecond := hagain 2 (by decide)
    rwa [hname] at hsecond

end Registry
end RegisterMachine

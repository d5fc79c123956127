/-
# Building beside the input

Without an output option, `build` writes the path of its input with another
extension. The folder of that path is the folder of the input, so the two name
the same place only if they are the same path
(`FileSystem.withExtension_eq_self_of_locate?`). They are that if the input has
the extension `.rvm` already (`Path.withExtension_eq_self_iff`): behind a name of
its own, so not in `.rvm` itself, and as the last one of several, as in
`a.asm.rvm`.

The extension of an input says nothing about what it holds. A source text in a
file of this extension is assembled as any other, and then `build` writes the
bytecode over it. The file is not what it was, since a text that can be
assembled does not begin with the magic number. In all other cases the input
holds what it has held (`runTool_build_input`).

Key definitions: `Path.HasExtension`, `FileSystem.Overwritten`.
Key theorems: `Path.withExtension_eq_self_iff`,
`FileSystem.withExtension_eq_self_of_locate?`, `read?_build`,
`runTool_build_input`.
-/
import RegisterMachine.Proofs.Detection
import RegisterMachine.Proofs.Outcomes

namespace RegisterMachine

/-! ### Folders, names and extensions -/

namespace Path

variable {folder name other extension letters path : Bytes}

/-- What may stand in front of a file name: nothing, or something that ends in a slash. -/
def IsFolder (folder : Bytes) : Prop := folder = [] ∨ folder.getLast? = some separator

/-- The file name of the path has this extension, behind a base that is not empty. -/
def HasExtension (extension path : Bytes) : Prop :=
  ∃ folder base, path = folder ++ (base ++ extension) ∧ IsFolder folder ∧ separator ∉ base ∧
    base ≠ []

theorem exists_folder (path : Bytes) :
    ∃ folder name, path = folder ++ name ∧ IsFolder folder ∧ separator ∉ name := by
  by_cases h : separator ∈ path
  · -- Seen from the end, the first slash is the last one.
    obtain ⟨name, folder, hpath, hname⟩ := List.eq_append_cons_of_mem (List.mem_reverse.mpr h)
    refine ⟨folder.reverse ++ [separator], name.reverse, ?_, Or.inr (by simp), by simpa using hname⟩
    rw [← List.reverse_reverse path, hpath]
    simp
  · exact ⟨[], path, rfl, Or.inl rfl, h⟩

theorem exists_components (h : IsFolder folder) :
    ∃ before, ∀ name, separator ∉ name → components (folder ++ name) = before ++ [name] := by
  have hsingle {name : Bytes} (hname : separator ∉ name) : name.splitOn separator = [name] :=
    List.splitOn_eq_singleton hname
  rcases h with rfl | h
  · exact ⟨[], fun name hname => hsingle hname⟩
  · obtain ⟨front, rfl⟩ := List.getLast?_eq_some_iff.mp h
    refine ⟨components front, fun name hname => ?_⟩
    rw [components, List.append_assoc, List.singleton_append, List.splitOn_append_cons_self,
      hsingle hname]
    rfl

theorem withExtension_append (h : IsFolder folder) (hname : separator ∉ name) (extension : Bytes) :
    withExtension extension (folder ++ name) = folder ++ (stem name ++ extension) := by
  obtain ⟨before, hbefore⟩ := exists_components h
  have hfolder : (folder ++ name).take ((folder ++ name).length - name.length) = folder := by
    rw [List.length_append, Nat.add_sub_cancel, List.take_left]
  simp only [withExtension, hbefore name hname, List.getLast?_concat, Option.getD_some, hfolder,
    List.append_assoc]

theorem mem_of_mem_stem {b : UInt8} (h : b ∈ stem name) : b ∈ name := by
  simp only [stem] at h
  split at h
  · exact h
  split at h
  · exact h
  · exact List.mem_of_mem_take h

theorem stem_ne_nil (h : name ≠ []) : stem name ≠ [] := by
  simp only [stem]
  split
  · exact h
  split
  · exact h
  · assumption

/-- The stem ends before the last dot, if something stands before and behind that. -/
theorem stem_append {base : Bytes} (hbase : base ≠ []) (hletters : letters ≠ [])
    (hdot : 46 ∉ letters) : stem (base ++ 46 :: letters) = base := by
  have hbehind : (base ++ 46 :: letters).reverse.takeWhile (· != 46) = letters.reverse := by
    have hall : ∀ b ∈ letters.reverse, (b != 46) = true := by
      intro b hb
      exact bne_iff_ne.mpr fun heq => hdot (heq ▸ List.mem_reverse.mp hb)
    rw [List.reverse_append, List.reverse_cons, List.append_assoc, List.singleton_append,
      List.takeWhile_append_of_pos hall, List.takeWhile_cons_of_neg (by simp), List.append_nil]
  have hlength : (base ++ 46 :: letters).length = base.length + letters.length + 1 := by
    simp [Nat.add_assoc]
  have hbefore : (base ++ 46 :: letters).take
      ((base ++ 46 :: letters).length - letters.reverse.length - 1) = base := by
    rw [hlength, List.length_reverse, Nat.add_right_comm, Nat.add_sub_cancel, Nat.add_sub_cancel,
      List.take_left]
  have hlong : ¬ (base ++ 46 :: letters).length ≤ 2 := by
    have := List.length_pos_iff.mpr hbase
    have := List.length_pos_iff.mpr hletters
    omega
  simp only [stem, hbehind, hbefore, hlong, decide_false, Bool.false_and, Bool.false_eq_true,
    if_false, hbase]

/-- **A path keeps its extension just if it has it already.** -/
theorem withExtension_eq_self_iff (letters : Bytes) (hletters : letters ≠ []) (hdot : 46 ∉ letters)
    (hseparator : separator ∉ letters) :
    withExtension (46 :: letters) path = path ↔ HasExtension (46 :: letters) path := by
  constructor
  · intro h
    obtain ⟨folder, name, rfl, hfolder, hname⟩ := exists_folder path
    rw [withExtension_append hfolder hname, List.append_cancel_left_eq] at h
    have hne : name ≠ [] := by
      rintro rfl
      exact absurd (List.append_eq_nil_iff.mp h).2 (List.cons_ne_nil _ _)
    refine ⟨folder, stem name, by rw [h], hfolder, ?_, stem_ne_nil hne⟩
    exact fun hmem => hname (mem_of_mem_stem hmem)
  · rintro ⟨folder, base, rfl, hfolder, hbase, hne⟩
    have hname : separator ∉ base ++ 46 :: letters := by
      rw [List.mem_append, List.mem_cons]
      rintro (h | h | h)
      · exact hbase h
      · cases h
      · exact hseparator h
    rw [withExtension_append hfolder hname, stem_append hne hletters hdot]

end Path

namespace FileSystem

variable {files : FileSystem} {path extension : Bytes} {place : Place}

/-- The last name of a place is the file name of every path that names it. -/
theorem getLast?_of_locate? (h : files.locate? path = some place) :
    place.getLast? = some ((Path.components path).getLast?.getD []) := by
  unfold locate? at h
  simp only at h
  split at h
  · cases h
  · obtain ⟨directory, -, rfl⟩ := Option.map_eq_some_iff.mp h
    exact List.getLast?_concat

/-- With another extension, a path names another place. -/
theorem withExtension_eq_self_of_locate? (hextension : Path.separator ∉ extension)
    (h : files.locate? path = some place)
    (h' : files.locate? (Path.withExtension extension path) = some place) :
    Path.withExtension extension path = path := by
  obtain ⟨folder, name, rfl, hfolder, hname⟩ := Path.exists_folder path
  have hexchanged : Path.separator ∉ Path.stem name ++ extension := by
    rw [List.mem_append]
    rintro (hmem | hmem)
    · exact hname (Path.mem_of_mem_stem hmem)
    · exact hextension hmem
  obtain ⟨before, hbefore⟩ := Path.exists_components hfolder
  rw [Path.withExtension_append hfolder hname] at h' ⊢
  have hlast := getLast?_of_locate? h
  rw [getLast?_of_locate? h', hbefore _ hexchanged, hbefore _ hname, List.getLast?_concat,
    List.getLast?_concat] at hlast
  exact congrArg (folder ++ ·) (Option.some.inj hlast)

/-- `build` would write these words over this input: it has the extension of bytecode files, and is
a source text. -/
structure Overwritten (files : FileSystem) (input : Bytes) (words : List Word) : Prop where
  extension : Path.HasExtension (ascii ".rvm") input
  words : ∃ source, SourceFile.load files input = .ok source ∧ source.words = .ok words

end FileSystem

/-! ### The input of `build` -/

namespace SourceFile

variable {files : FileSystem} {path : Bytes} {source : SourceFile} {words : List Word}

theorem read?_of_load (h : load files path = .ok source) :
    files.read? path = some source.content := by
  simp only [load, FileSystem.load] at h
  cases hread : files.read? path with
  | none =>
    rw [hread] at h
    cases h
  | some content =>
    rw [hread] at h
    simp only at h
    split at h
    · cases h
    · rename_i hcontent
      split at hcontent
      · cases hcontent
      · cases hcontent
        cases h
        rfl

theorem content_ne_layout (h : source.words = .ok words) :
    source.content ≠ Image.layout { code := words } := by
  intro hcontent
  have himage := Image.ofBytes_layout (writable_of_words h)
  rw [← hcontent] at himage
  obtain ⟨rejection, hrejection⟩ :=
    Program.assemble_of_hasMagic (Image.hasMagic_of_ofBytes himage) source.file
  simp only [SourceFile.words, assemble, hrejection] at h
  cases h

end SourceFile

section

variable {files : FileSystem} {a : Arguments} {words : List Word}

theorem FileSystem.exists_write?_of_read? {path content : Bytes}
    (h : files.read? path = some content) (text : Bytes) :
    ∃ written, files.write? path text = some written := by
  obtain ⟨place, hplace, hcontent⟩ := Option.bind_eq_some_iff.mp h
  have hfile : files.find? place ≠ some .directory := by
    intro hdirectory
    rw [content?, hdirectory] at hcontent
    cases hcontent
  exact ⟨_, write?_eq_some_iff.mpr ⟨place, hplace, hfile, rfl⟩⟩

/-- Words are written over the file of the output path, or that cannot be opened. -/
theorem Arguments.writeImage_cases (a : Arguments) (files : FileSystem)
    (h : Image.Writable words) :
    (files.write? a.bytecodePath [] = none ∧ (a.writeImage files words).files = files) ∨
      ∃ opened, files.write? a.bytecodePath [] = some opened ∧
        opened.write? a.bytecodePath (Image.layout { code := words }) =
          some (a.writeImage files words).files ∧
        (a.writeImage files words).exit = 0 := by
  have hbytes : Image.toBytes { code := words } = .ok (Image.layout { code := words }) :=
    Image.toBytes_of_writable h
  unfold writeImage
  simp only [hbytes]
  cases hopened : files.write? a.bytecodePath [] with
  | none => exact Or.inl ⟨rfl, rfl⟩
  | some opened =>
    obtain ⟨final, hfinal, -, -⟩ :=
      FileSystem.exists_rewrite hopened (Image.layout { code := words })
    refine Or.inr ⟨opened, rfl, ?_, rfl⟩
    simp only [hfinal, Option.getD_some]

theorem Arguments.read?_writeImage_of_ne (a : Arguments) (h : Image.Writable words) {path : Bytes}
    (hne : files.locate? path ≠ files.locate? a.bytecodePath) :
    (a.writeImage files words).files.read? path = files.read? path := by
  rcases a.writeImage_cases files h with ⟨-, hfiles⟩ | ⟨opened, hopened, hfinal, -⟩
  · rw [hfiles]
  · have hne' : opened.locate? path ≠ opened.locate? a.bytecodePath := by
      rwa [FileSystem.locate?_of_write? hopened, FileSystem.locate?_of_write? hopened]
    rw [FileSystem.read?_of_write? hfinal, if_neg hne', FileSystem.read?_of_write? hopened,
      if_neg hne]

/-- Without an output option, `build` leaves its input as it is, or overwrites it. -/
theorem read?_build (files : FileSystem) (hnone : a.output = []) :
    (∀ words, files.Overwritten a.input words →
      (build files a).exit = 0 ∧
        (build files a).files.read? a.input = some (Image.layout { code := words }) ∧
        files.read? a.input ≠ some (Image.layout { code := words })) ∧
    ((∀ words, ¬ files.Overwritten a.input words) →
      (build files a).files.read? a.input = files.read? a.input) := by
  have hpath : a.bytecodePath = Path.withExtension (ascii ".rvm") a.input := if_pos hnone
  have hself : Path.withExtension (ascii ".rvm") a.input = a.input ↔
      Path.HasExtension (ascii ".rvm") a.input :=
    Path.withExtension_eq_self_iff (ascii "rvm") (by decide) (by decide) (by decide)
  constructor
  · rintro words ⟨hextension, source, hload, hwords⟩
    have hbuild : build files a = a.writeImage files words := by
      simp only [build, hload, hwords]
    have hread := SourceFile.read?_of_load hload
    rw [hself.mpr hextension] at hpath
    rw [hbuild, hread]
    rcases a.writeImage_cases files (SourceFile.writable_of_words hwords) with
      ⟨hopened, -⟩ | ⟨opened, -, hfinal, hexit⟩
    · obtain ⟨opened, hsome⟩ := FileSystem.exists_write?_of_read? hread []
      rw [hpath, hsome] at hopened
      cases hopened
    · refine ⟨hexit, ?_, fun heq => SourceFile.content_ne_layout hwords (Option.some.inj heq)⟩
      rw [FileSystem.read?_of_write? hfinal, hpath, if_pos rfl]
  · intro hkept
    unfold build
    split
    · rfl
    · rename_i source hload
      split
      · rfl
      · rename_i words hwords
        refine a.read?_writeImage_of_ne (SourceFile.writable_of_words hwords) fun heq => ?_
        obtain ⟨place, hplace, -⟩ := Option.bind_eq_some_iff.mp (SourceFile.read?_of_load hload)
        rw [hpath, hplace] at heq
        have hsame := FileSystem.withExtension_eq_self_of_locate? (by decide) hplace heq.symm
        exact hkept words ⟨hself.mp hsame, source, hload, hwords⟩

end

/-- **`build` without an output option overwrites a source text that is named as a bytecode file,
and leaves every other input as it is.** Where it does, the exit status is 0, and what the file
holds then is its bytecode and not what it has held. -/
theorem runTool_build_input {files : FileSystem} {line : CommandLine} {r : Request}
    (h : line.request? = some r) (hbuild : r.command = .build)
    (hnone : (Arguments.outputValues r.given).getLast?.getD [] = []) :
    ∃ o, runTool files line = some o ∧
      (∀ words, files.Overwritten r.arguments.input words →
        o.exit = 0 ∧ o.files.read? r.arguments.input = some (Image.layout { code := words }) ∧
          files.read? r.arguments.input ≠ some (Image.layout { code := words })) ∧
      ((∀ words, ¬ files.Overwritten r.arguments.input words) →
        o.files.read? r.arguments.input = files.read? r.arguments.input) := by
  obtain ⟨first, -, -, harguments⟩ := CommandLine.of_request? h
  have houtput : r.arguments.output = [] := (Arguments.output_of_read harguments).trans hnone
  have hperform : r.perform files = some (build files r.arguments) := by
    rw [Request.perform, hbuild]
  exact ⟨_, (runTool_of_request?_eq_some h files).trans hperform, read?_build files houtput⟩

/-- A source text under a name with several dots is overwritten, also with an output option of which
the value is empty; under a name that is nothing but the extension it is left as it is. -/
theorem runTool_build_input_of_dots :
    let files : FileSystem :=
      { entries := [([ascii "d"], .directory), ([ascii "d", ascii "a.b.rvm"], .file (ascii "halt")),
          ([ascii ".rvm"], .file (ascii "halt"))] }
    let dotted : CommandLine := [ascii "-v", ascii "b", ascii "d/a.b.rvm", ascii "-o", []]
    let hidden : CommandLine := [ascii "build", ascii ".rvm"]
    (∃ o, runTool files dotted = some o ∧
      o.files.read? (ascii "d/a.b.rvm") =
        some (Image.magicBytes ++ [1, 0, 0, 0, 1, 0, 0, 0, 0, 0, 0])) ∧
    ∃ o, runTool files hidden = some o ∧ o.files.read? (ascii ".rvm") = some (ascii "halt") := by
  intro files dotted hidden
  let r : Request :=
    { command := .build, given := [ascii "d/a.b.rvm", ascii "-o", []]
      arguments := { input := ascii "d/a.b.rvm", options := { verbose := true } } }
  let r' : Request :=
    { command := .build, given := [ascii ".rvm"], arguments := { input := ascii ".rvm" } }
  let source : SourceFile :=
    { content := ascii "halt", registry := { paths := [ascii "d/a.b.rvm"] }, file := 1 }
  have hr : dotted.request? = some r := by decide
  have hr' : hidden.request? = some r' := by decide
  have hwritten : files.Overwritten r.arguments.input [0] :=
    ⟨⟨ascii "d/", ascii "a.b", by decide, Or.inr (by decide), by decide, by decide⟩, source,
      by decide, by decide⟩
  have hkept (words : List Word) : ¬ files.Overwritten r'.arguments.input words := by
    intro h
    have hself := (Path.withExtension_eq_self_iff (ascii "rvm") (by decide) (by decide)
      (by decide)).mpr h.extension
    revert hself
    decide
  have hbytes : Image.layout { code := [0] } =
      Image.magicBytes ++ [1, 0, 0, 0, 1, 0, 0, 0, 0, 0, 0] := by decide
  have hread' : files.read? r'.arguments.input = some (ascii "halt") := by decide
  obtain ⟨o, ho, hover, -⟩ := runTool_build_input hr rfl (by decide)
  obtain ⟨o', ho', -, hleft⟩ := runTool_build_input hr' rfl (by decide)
  rw [hread'] at hleft
  refine ⟨⟨o, ho, ?_⟩, o', ho', hleft hkept⟩
  rw [← hbytes]
  exact (hover [0] hwritten).2.1

/-- `build` overwrites a source text that is named as a bytecode file. -/
theorem runTool_build_overwrites_input :
    let files : FileSystem := { entries := [([ascii "a.rvm"], .file (ascii "halt"))] }
    let line : CommandLine := [ascii "build", ascii "a.rvm"]
    let final : FileSystem :=
      { entries := [([ascii "a.rvm"],
          .file (Image.magicBytes ++ [1, 0, 0, 0, 1, 0, 0, 0, 0, 0, 0]))] }
    runTool files line = some { files := final } ∧
      files.read? (ascii "a.rvm") = some (ascii "halt") ∧
      final.read? (ascii "a.rvm") ≠ files.read? (ascii "a.rvm") := by
  decide

end RegisterMachine

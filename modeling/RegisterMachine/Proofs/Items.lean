/-
# Arguments are items

The arguments of a command are items in a row: an output option with its value,
a shared option, with its value if it takes one, and the input. `Arguments.Item`
lists how each is written, apart from the way in which arguments are read, and
`Arguments.Says` gives what items say: of an option that is repeated, the last
one. Arguments are read if they can be cut into items with one input among them,
and then they say what the items say (`Arguments.ofList_grammar`).

The first argument of an item tells what kind of item it is, and how many
arguments belong to it. So there is only one way to cut
(`Arguments.Item.append_inj`), and a reading goes from one item to the next
(`Arguments.read_item`), also over a value that looks like an option or like
the input.

Key definitions: `SharedOption`, `Arguments.Item`, `Arguments.Spells`,
`Arguments.Says`.
Key theorems: `Options.recognise_written`, `Options.after_recognise`,
`Arguments.read_item`, `Arguments.Spells.unique`, `Arguments.ofList_grammar`.
-/
import Mathlib.Tactic.MkIffOfInductiveProp
import RegisterMachine.Command.Arguments
import RegisterMachine.Proofs.Literals

namespace RegisterMachine

/-! ### Shared options -/

/-- A shared option, as it is written. -/
inductive SharedOption where
  | verbose (flag : Bytes)
  | trace (flag : Bytes) (mode : TraceMode)
  | stepLimit (digits : Bytes)
deriving DecidableEq, Repr, Inhabited

namespace SharedOption

/-- The arguments that the option consists of. -/
def written : SharedOption → List Bytes
  | verbose flag => [flag]
  | trace flag _ => [flag]
  | stepLimit digits => [ascii "--max-steps", digits]

/-- The option is written as it has to be. -/
def WellFormed : SharedOption → Prop
  | verbose flag => flag = ascii "-v" ∨ flag = ascii "--verbose"
  | trace flag mode =>
    mode = .instructions ∧ (flag = ascii "--trace" ∨ flag = ascii "--trace=instr") ∨
      mode = .source ∧ flag = ascii "--trace=src"
  | stepLimit digits => Literal.Decimal digits ∧ Literal.denoted 10 digits < 2 ^ 64

/-- The option is for `run` only. -/
def isRunOnly : SharedOption → Bool
  | verbose _ => false
  | trace _ _ | stepLimit _ => true

/-- The options with this one on top. -/
def apply (options : Options) : SharedOption → Options
  | verbose _ => { options with verbose := true }
  | trace _ mode => { options with trace := mode }
  | stepLimit digits => { options with stepLimit := (Literal.denoted 10 digits).toUInt64 }

end SharedOption

namespace Options

theorem stepLimit?_eq_some_iff (text : Bytes) (n : UInt64) : stepLimit? text = some n ↔
    (Literal.Decimal text ∧ Literal.denoted 10 text < 2 ^ 64) ∧
      n = (Literal.denoted 10 text).toUInt64 := by
  have hmax : maxStepLimit = 2 ^ 64 - 1 := rfl
  rw [stepLimit?, Option.map_eq_some_iff]
  simp only [Option.filter_eq_some_iff, Literal.magnitude?_ten_eq_some_iff, decide_eq_true_iff,
    hmax]
  constructor
  · rintro ⟨limit, ⟨⟨hdecimal, rfl⟩, hle⟩, rfl⟩
    exact ⟨⟨hdecimal, by omega⟩, rfl⟩
  · rintro ⟨⟨hdecimal, hlt⟩, rfl⟩
    exact ⟨_, ⟨⟨hdecimal, rfl⟩, by omega⟩, rfl⟩

variable {options taken : Options} {withValue : Bool}

theorem recognise_written (options : Options) {o : SharedOption} (h : o.WellFormed)
    (rest : List Bytes) : options.recognise (o.written ++ rest) =
      .taken (o.apply options) (o.written.length == 2) := by
  cases o with
  | verbose flag => rcases h with rfl | rfl <;> rfl
  | trace flag mode => rcases h with ⟨rfl, rfl | rfl⟩ | ⟨rfl, rfl⟩ <;> rfl
  | stepLimit digits =>
    have hlimit : (digits :: rest).head?.bind stepLimit? = some _ :=
      (stepLimit?_eq_some_iff digits _).mpr ⟨h, rfl⟩
    have hwritten : (SharedOption.stepLimit digits).written ++ rest =
        ascii "--max-steps" :: digits :: rest := rfl
    rw [hwritten, recognise, if_neg (by decide), if_neg (by decide), if_neg (by decide),
      if_neg (by decide), if_pos rfl, hlimit]
    rfl

theorem exists_written_of_recognise {arguments : List Bytes}
    (h : options.recognise arguments = .taken taken withValue) :
    ∃ o : SharedOption, o.WellFormed ∧ o.written <+: arguments := by
  cases arguments with
  | nil => cases h
  | cons argument rest =>
    simp only [recognise] at h
    split at h
    · rename_i hverbose
      simp only [isVerbose, Bool.or_eq_true, beq_iff_eq] at hverbose
      exact ⟨.verbose argument, hverbose, List.prefix_append [argument] rest⟩
    split at h
    · rename_i htrace
      exact ⟨.trace argument .instructions, Or.inl ⟨rfl, htrace⟩,
        List.prefix_append [argument] rest⟩
    split at h
    · rename_i htrace
      exact ⟨.trace argument .source, Or.inr ⟨rfl, htrace⟩, List.prefix_append [argument] rest⟩
    split at h
    · cases h
    split at h
    · rename_i hlimit
      subst hlimit
      split at h
      · rename_i n hn
        obtain ⟨digits, hdigits, hn⟩ := Option.bind_eq_some_iff.mp hn
        obtain ⟨rest, rfl⟩ := List.head?_eq_some_iff.mp hdigits
        exact ⟨.stepLimit digits, ((stepLimit?_eq_some_iff digits n).mp hn).1,
          List.prefix_append [ascii "--max-steps", digits] rest⟩
      · cases h
    · cases h

/-- What stands at an index is a shared option, which is taken as a whole and changes the options,
or it is not, and then neither the index nor the options change. -/
theorem after_recognise (options : Options) (arguments : List Bytes) (index : Nat) :
    let found := options.recognise (arguments.drop index)
    (∃ o : SharedOption, o.WellFormed ∧ o.written <+: arguments.drop index ∧
      found = .taken (o.apply options) (o.written.length == 2) ∧
      found.after index options = (index + o.written.length - 1, o.apply options)) ∨
    ((∀ o : SharedOption, o.WellFormed → ¬ o.written <+: arguments.drop index) ∧
      (found = .unrelated ∨ found = .malformed) ∧
      found.after index options = (index, options)) := by
  intro found
  by_cases h : ∃ o : SharedOption, o.WellFormed ∧ o.written <+: arguments.drop index
  · obtain ⟨o, ho, rest, hrest⟩ := h
    have hfound : found = .taken (o.apply options) (o.written.length == 2) := by
      rw [← recognise_written options ho rest, hrest]
    refine Or.inl ⟨o, ho, ⟨rest, hrest⟩, hfound, ?_⟩
    rw [hfound]
    cases o <;> rfl
  · refine Or.inr ⟨fun o ho hprefix => h ⟨o, ho, hprefix⟩, ?_⟩
    cases hfound : found with
    | unrelated => exact ⟨Or.inl rfl, rfl⟩
    | malformed => exact ⟨Or.inr rfl, rfl⟩
    | taken taken withValue => exact absurd (exists_written_of_recognise hfound) h

end Options

/-! ### Items -/

namespace Arguments

/-- A part of the arguments of a command. -/
inductive Item where
  | output (option value : Bytes)
  | input (operand : Bytes)
  | shared (option : SharedOption)
deriving DecidableEq, Repr, Inhabited

namespace Item

/-- The arguments that the item consists of. -/
def written : Item → List Bytes
  | output option value => [option, value]
  | input operand => [operand]
  | shared option => option.written

/-- The item is written as it has to be, and is for the command. An output option takes any
value. -/
def WellFormed (allowRun : Bool) : Item → Prop
  | output option _ => option = ascii "-o" ∨ option = ascii "--output"
  | input operand => operand ≠ [] ∧ operand.head? ≠ some Literal.minus
  | shared option => option.WellFormed ∧ (option.isRunOnly = true → allowRun = true)

/-- The name of an output file that the item gives. -/
def output? : Item → Option Bytes
  | output _ value => some value
  | _ => none

/-- The input that the item gives. -/
def input? : Item → Option Bytes
  | input operand => some operand
  | _ => none

/-- The kind of trace that the item asks for. -/
def trace? : Item → Option TraceMode
  | shared (.trace _ mode) => some mode
  | _ => none

/-- The number of steps that the item allows. -/
def stepLimit? : Item → Option UInt64
  | shared (.stepLimit digits) => some (Literal.denoted 10 digits).toUInt64
  | _ => none

/-- The item asks for progress reports. -/
def isVerbose : Item → Bool
  | shared (.verbose _) => true
  | _ => false

end Item

/-- The arguments are these items in a row. -/
structure Spells (allowRun : Bool) (items : List Item) (arguments : List Bytes) : Prop where
  wellFormed : ∀ item ∈ items, item.WellFormed allowRun
  written : items.flatMap Item.written = arguments

/-- What items say, behind others that gave `input`, `output` and `options`: there is one input in
all, and of an option that is repeated the last one counts. -/
@[mk_iff]
structure Says (input : Option Bytes) (output : Bytes) (options : Options) (items : List Item)
    (a : Arguments) : Prop where
  input : input.toList ++ items.filterMap Item.input? = [a.input]
  output : a.output = (items.filterMap Item.output?).getLast?.getD output
  trace : a.options.trace = (items.filterMap Item.trace?).getLast?.getD options.trace
  stepLimit :
    a.options.stepLimit = (items.filterMap Item.stepLimit?).getLast?.getD options.stepLimit
  verbose : a.options.verbose = (options.verbose || items.any Item.isVerbose)

variable {allowRun : Bool} {input : Option Bytes} {output : Bytes} {options : Options}
  {arguments : List Bytes} {item : Item} {items : List Item} {a : Arguments}

/-! ### Reading an item -/

theorem unrelated_of_operand {operand : Bytes} (h : operand.head? ≠ some Literal.minus) :
    Options.isOutput operand = false ∧ isRunOnly operand = false ∧
      ∀ (options : Options) (rest : List Bytes),
        options.recognise (operand :: rest) = .unrelated := by
  have hne {flag : Bytes} (hflag : flag.head? = some Literal.minus) : operand ≠ flag := by
    rintro rfl
    exact h hflag
  have hnot {flag : Bytes} (hflag : flag.head? = some Literal.minus) :
      flag.isPrefixOf operand = false := by
    rw [Bool.eq_false_iff, ne_eq, List.isPrefixOf_iff_prefix]
    rintro ⟨rest, rfl⟩
    exact h (by rw [List.head?_append, hflag, Option.some_or])
  refine ⟨?_, ?_, fun options rest => ?_⟩
  · simp [Options.isOutput, hne (show (ascii "-o").head? = _ from rfl),
      hne (show (ascii "--output").head? = _ from rfl)]
  · simp [isRunOnly, hne (show (ascii "--max-steps").head? = _ from rfl),
      hnot (show (ascii "--trace").head? = _ from rfl)]
  · simp [Options.recognise, Options.isVerbose, hne (show (ascii "-v").head? = _ from rfl),
      hne (show (ascii "--verbose").head? = _ from rfl),
      hne (show (ascii "--trace").head? = _ from rfl),
      hne (show (ascii "--trace=instr").head? = _ from rfl),
      hne (show (ascii "--trace=src").head? = _ from rfl),
      hnot (show (ascii "--trace=").head? = _ from rfl),
      hne (show (ascii "--max-steps").head? = _ from rfl)]

/-- The first argument of a shared option names no output file, and shows whether the option is for
`run` only; at most one more argument belongs to it. -/
theorem exists_written_cons {o : SharedOption} (h : o.WellFormed) :
    ∃ flag, (o.written = [flag] ∨ ∃ value, o.written = [flag, value]) ∧
      Options.isOutput flag = false ∧ isRunOnly flag = o.isRunOnly := by
  cases o with
  | verbose flag => rcases h with rfl | rfl <;> exact ⟨_, Or.inl rfl, rfl, rfl⟩
  | trace flag mode =>
    rcases h with ⟨rfl, rfl | rfl⟩ | ⟨rfl, rfl⟩ <;> exact ⟨_, Or.inl rfl, rfl, rfl⟩
  | stepLimit digits => exact ⟨_, Or.inr ⟨digits, rfl⟩, rfl, rfl⟩

/-- Reading goes from an item to what follows it, with what the item says. -/
theorem read_item (h : item.WellFormed allowRun) (input : Option Bytes) (output : Bytes)
    (options : Options) (rest : List Bytes) :
    read allowRun input output options (item.written ++ rest) =
      match item with
      | .output _ value => read allowRun input value options rest
      | .input operand =>
        if input.isSome then .error (.unexpected operand)
        else read allowRun (some operand) output options rest
      | .shared o => read allowRun input output (o.apply options) rest := by
  cases item with
  | output option value => rcases h with rfl | rfl <;> rfl
  | input operand =>
    obtain ⟨hne, hhead⟩ := h
    obtain ⟨houtput, hrunOnly, hunrelated⟩ := unrelated_of_operand hhead
    have hoperand : isOperand operand = true := by
      cases operand with
      | nil => exact absurd rfl hne
      | cons first others => simpa [isOperand] using hhead
    rw [Item.written, List.singleton_append, read.eq_def]
    simp [houtput, hrunOnly, hunrelated, hoperand]
  | shared o =>
    obtain ⟨ho, hallowed⟩ := h
    obtain ⟨flag, hwritten, houtput, hrunOnly⟩ := exists_written_cons ho
    have hrefused : (isRunOnly flag && !allowRun) = false := by
      rw [hrunOnly]
      cases hrun : o.isRunOnly with
      | false => rfl
      | true => rw [hallowed hrun]; rfl
    have hrecognise := Options.recognise_written options ho rest
    rw [Item.written, read.eq_def]
    rcases hwritten with hwritten | ⟨value, hwritten⟩
    · rw [hwritten, List.singleton_append] at hrecognise ⊢
      simp only [houtput, hrefused, hrecognise, Bool.false_eq_true, if_false]
      rfl
    · rw [hwritten, List.cons_append, List.singleton_append] at hrecognise ⊢
      simp only [houtput, hrefused, hrecognise, Bool.false_eq_true, if_false]
      rfl

theorem exists_item_of_read {argument : Bytes} {rest : List Bytes}
    (h : read allowRun input output options (argument :: rest) = .ok a) :
    ∃ item : Item, item.WellFormed allowRun ∧ item.written <+: argument :: rest := by
  rw [read.eq_def] at h
  simp only at h
  split at h
  · rename_i houtput
    simp only [Options.isOutput, Bool.or_eq_true, beq_iff_eq] at houtput
    cases rest with
    | nil => cases h
    | cons value rest =>
      exact ⟨.output argument value, houtput, List.prefix_append [argument, value] rest⟩
  split at h
  · cases h
  rename_i hallowed
  have htaken {taken : Options} {withValue : Bool}
      (hrecognise : options.recognise (argument :: rest) = .taken taken withValue) :
      ∃ item : Item, item.WellFormed allowRun ∧ item.written <+: argument :: rest := by
    obtain ⟨o, ho, hprefix⟩ := Options.exists_written_of_recognise hrecognise
    obtain ⟨flag, hwritten, -, hrunOnly⟩ := exists_written_cons ho
    obtain rfl : flag = argument := by
      obtain ⟨others, hothers⟩ := hprefix
      rcases hwritten with hwritten | ⟨value, hwritten⟩ <;>
        exact (List.cons.inj (hwritten ▸ hothers)).1
    refine ⟨.shared o, ⟨ho, fun hrun => ?_⟩, hprefix⟩
    rw [hrunOnly, hrun] at hallowed
    simpa using hallowed
  cases hrecognise : options.recognise (argument :: rest) with
  | taken taken withValue => exact htaken hrecognise
  | malformed =>
    rw [hrecognise] at h
    cases h
  | unrelated =>
    rw [hrecognise] at h
    simp only at h
    split at h
    · cases h
    rename_i hoperand
    rw [not_not] at hoperand
    refine ⟨.input argument, ?_, List.prefix_append [argument] rest⟩
    cases argument with
    | nil => cases hoperand
    | cons first others => exact ⟨List.cons_ne_nil _ _, by simpa [isOperand] using hoperand⟩

/-! ### Only one way to cut -/

/-- Shared options in front of the same arguments are the same: they are told apart by what they
change. -/
theorem shared_append_inj {o o' : SharedOption} (h : o.WellFormed) (h' : o'.WellFormed)
    {rest rest' : List Bytes} (heq : o.written ++ rest = o'.written ++ rest') :
    o = o' ∧ rest = rest' := by
  have hrecognise := Options.recognise_written {} h rest
  rw [heq, Options.recognise_written {} h' rest', Recognition.taken.injEq] at hrecognise
  obtain ⟨happly, -⟩ := hrecognise
  cases o <;> cases o' <;>
    simp only [SharedOption.apply, Options.mk.injEq, SharedOption.written, SharedOption.WellFormed,
      List.cons_append, List.nil_append, List.cons.injEq] at happly heq h h' ⊢ <;>
    grind

/-- The first argument of an item, and whether it is recognised, tell the kind of the item. -/
theorem kind_of_written (h : item.WellFormed allowRun) (rest : List Bytes) :
    (item.written ++ rest).head?.any Options.isOutput = item.output?.isSome ∧
      (item.output? = none →
        (({} : Options).recognise (item.written ++ rest) = .unrelated ↔ item.input?.isSome)) := by
  cases item with
  | output option value =>
    refine ⟨?_, fun hnone => by cases hnone⟩
    rcases h with rfl | rfl <;> rfl
  | input operand =>
    obtain ⟨houtput, -, hunrelated⟩ := unrelated_of_operand h.2
    exact ⟨by simpa [Item.written, Item.output?] using houtput, fun _ => by
      simp [Item.written, hunrelated, Item.input?]⟩
  | shared o =>
    obtain ⟨flag, hwritten, houtput, -⟩ := exists_written_cons h.1
    refine ⟨?_, fun _ => ?_⟩
    · rcases hwritten with hwritten | ⟨value, hwritten⟩ <;>
        simp [Item.written, hwritten, houtput, Item.output?]
    · rw [Item.written, Options.recognise_written {} h.1]
      simp [Item.input?]

theorem Item.append_inj {item' : Item} (h : item.WellFormed allowRun)
    (h' : item'.WellFormed allowRun) {rest rest' : List Bytes}
    (heq : item.written ++ rest = item'.written ++ rest') : item = item' ∧ rest = rest' := by
  obtain ⟨houtput, hinput⟩ := kind_of_written h rest
  obtain ⟨houtput', hinput'⟩ := kind_of_written h' rest'
  rw [heq, houtput'] at houtput
  rw [heq] at hinput
  cases item with
  | output option value =>
    cases item' with
    | output option' value' => simpa [written, and_assoc] using heq
    | input operand' => cases houtput
    | shared o' => cases houtput
  | input operand =>
    cases item' with
    | output option' value' => cases houtput
    | input operand' => simpa [written] using heq
    | shared o' => cases (hinput' rfl).mp ((hinput rfl).mpr rfl)
  | shared o =>
    cases item' with
    | output option' value' => cases houtput
    | input operand' => cases (hinput rfl).mp ((hinput' rfl).mpr rfl)
    | shared o' =>
      obtain ⟨rfl, hrest⟩ := shared_append_inj h.1 h'.1 heq
      exact ⟨rfl, hrest⟩

theorem Item.written_ne_nil (item : Item) : item.written ≠ [] := by
  cases item with
  | output option value => exact List.cons_ne_nil _ _
  | input operand => exact List.cons_ne_nil _ _
  | shared o => cases o <;> exact List.cons_ne_nil _ _

theorem spells_nil_iff : Spells allowRun items [] ↔ items = [] := by
  constructor
  · intro h
    cases items with
    | nil => rfl
    | cons item items => exact absurd (List.append_eq_nil_iff.mp h.written).1 item.written_ne_nil
  · rintro rfl
    exact ⟨fun _ h => absurd h List.not_mem_nil, rfl⟩

theorem spells_append_iff (h : item.WellFormed allowRun) (rest : List Bytes) :
    Spells allowRun items (item.written ++ rest) ↔
      ∃ others, items = item :: others ∧ Spells allowRun others rest := by
  constructor
  · intro hspells
    cases items with
    | nil =>
      exact absurd (List.append_eq_nil_iff.mp hspells.written.symm).1 item.written_ne_nil
    | cons first others =>
      obtain ⟨hfirst, hothers⟩ := List.forall_mem_cons.mp hspells.wellFormed
      obtain ⟨rfl, hrest⟩ := Item.append_inj hfirst h hspells.written
      exact ⟨others, rfl, hothers, hrest⟩
  · rintro ⟨others, rfl, hothers, rfl⟩
    exact ⟨List.forall_mem_cons.mpr ⟨h, hothers⟩, rfl⟩

theorem exists_spells_append_iff (h : item.WellFormed allowRun) {rest : List Bytes}
    {p : List Item → Prop} :
    (∃ items, Spells allowRun items (item.written ++ rest) ∧ p items) ↔
      ∃ others, Spells allowRun others rest ∧ p (item :: others) := by
  constructor
  · rintro ⟨items, hitems, hp⟩
    obtain ⟨others, rfl, hothers⟩ := (spells_append_iff h rest).mp hitems
    exact ⟨others, hothers, hp⟩
  · rintro ⟨others, hothers, hp⟩
    exact ⟨_, (spells_append_iff h rest).mpr ⟨others, rfl, hothers⟩, hp⟩

/-- There is at most one way to cut arguments into items. -/
theorem Spells.unique {items' : List Item} (h : Spells allowRun items arguments)
    (h' : Spells allowRun items' arguments) : items = items' := by
  induction items generalizing items' arguments with
  | nil =>
    obtain rfl := h.written
    exact (spells_nil_iff.mp h').symm
  | cons item items ih =>
    obtain ⟨hitem, hitems⟩ := List.forall_mem_cons.mp h.wellFormed
    obtain rfl := h.written
    obtain ⟨others, rfl, hothers⟩ := (spells_append_iff hitem _).mp h'
    rw [ih ⟨hitems, rfl⟩ hothers]

/-! ### What items say -/

theorem says_nil_iff : Says input output options [] a ↔
    input = some a.input ∧ a.output = output ∧ a.options = options := by
  have hinput : input.toList = [a.input] ↔ input = some a.input := by
    cases input <;> simp
  rw [says_iff, List.filterMap_nil, List.append_nil, hinput]
  obtain ⟨trace, stepLimit, verbose⟩ := options
  obtain ⟨_, _, _, _, _⟩ := a
  simp

/-- The items say what the first one says, and what the others say behind it. -/
theorem says_cons_iff : Says input output options (item :: items) a ↔
    match item with
    | .output _ value => Says input value options items a
    | .input operand => input = none ∧ Says (some operand) output options items a
    | .shared o => Says input output (o.apply options) items a := by
  rw [says_iff]
  cases item with
  | output option value =>
    simp [says_iff, List.filterMap_cons, Item.output?, Item.input?, Item.trace?, Item.stepLimit?,
      Item.isVerbose, List.getLast?_cons]
  | input operand =>
    cases input with
    | none =>
      simp [says_iff, List.filterMap_cons, Item.output?, Item.input?, Item.trace?, Item.stepLimit?,
        Item.isVerbose]
    | some before => simp [List.filterMap_cons, Item.input?]
  | shared o =>
    cases o <;>
      simp [says_iff, List.filterMap_cons, Item.output?, Item.input?, Item.trace?, Item.stepLimit?,
        Item.isVerbose, SharedOption.apply, List.getLast?_cons]

/-- Arguments are read if they can be cut into items that say something, and they say that. The
induction is on how many arguments are left, since an item takes one or two. -/
theorem read_eq_ok_iff (arguments : List Bytes) :
    read allowRun input output options arguments = .ok a ↔
      ∃ items, Spells allowRun items arguments ∧ Says input output options items a := by
  induction hlength : arguments.length using Nat.strongRecOn
    generalizing arguments input output options with
  | ind n ih =>
  subst hlength
  cases arguments with
  | nil =>
    simp only [spells_nil_iff, exists_eq_left, says_nil_iff]
    cases input with
    | none => simp [read]
    | some before =>
      obtain ⟨_, _, _⟩ := a
      simp [read, eq_comm]
  | cons argument rest =>
    by_cases hitem : ∃ item : Item, item.WellFormed allowRun ∧ item.written <+: argument :: rest
    · obtain ⟨item, h, others, hothers⟩ := hitem
      have hshorter : others.length < (argument :: rest).length := by
        rw [← hothers, List.length_append]
        exact Nat.lt_add_of_pos_left (List.length_pos_iff.mpr item.written_ne_nil)
      have hothers' (input : Option Bytes) (output : Bytes) (options : Options) :
          read allowRun input output options others = .ok a ↔
            ∃ items, Spells allowRun items others ∧ Says input output options items a :=
        ih _ hshorter others rfl
      rw [← hothers, read_item h]
      simp only [exists_spells_append_iff h, says_cons_iff]
      cases item with
      | output option value => exact hothers' input value options
      | input operand =>
        cases input with
        | none => simpa using hothers' (some operand) output options
        | some before => simp
      | shared o => exact hothers' input output (o.apply options)
    · constructor
      · intro hread
        exact absurd (exists_item_of_read hread) hitem
      · rintro ⟨items, hitems, -⟩
        cases items with
        | nil => cases hitems.written
        | cons first others =>
          have hprefix : first.written <+: argument :: rest := ⟨_, hitems.written⟩
          exact absurd ⟨first, hitems.wellFormed _ List.mem_cons_self, hprefix⟩ hitem

/-- **Arguments are read if and only if they are items with one input among them.** There is only
one way to cut them into items, and what is read is what these items say, on top of the options
given before. What stands at an index of the arguments is taken as a shared option if it is written
as one, and if not, neither the index nor the options change. -/
theorem ofList_grammar (allowRun : Bool) (options : Options) (arguments : List Bytes) :
    ((∃ a, ofList allowRun options arguments = .ok a) ↔
      ∃ items, Spells allowRun items arguments ∧ (items.filterMap Item.input?).length = 1) ∧
    (∀ a, ofList allowRun options arguments = .ok a ↔
      ∃! items, Spells allowRun items arguments ∧ Says none [] options items a) ∧
    ∀ index, let found := options.recognise (arguments.drop index)
      (∃ o : SharedOption, o.WellFormed ∧ o.written <+: arguments.drop index ∧
        found = .taken (o.apply options) (o.written.length == 2) ∧
        found.after index options = (index + o.written.length - 1, o.apply options)) ∨
      ((∀ o : SharedOption, o.WellFormed → ¬ o.written <+: arguments.drop index) ∧
        (found = .unrelated ∨ found = .malformed) ∧
        found.after index options = (index, options)) := by
  refine ⟨⟨?_, ?_⟩, fun a => ⟨fun h => ?_, fun h => ?_⟩, options.after_recognise arguments⟩
  · rintro ⟨a, h⟩
    obtain ⟨items, hitems, hsays⟩ := (read_eq_ok_iff arguments).mp h
    have hinput : items.filterMap Item.input? = [a.input] := hsays.input
    exact ⟨items, hitems, by rw [hinput]; rfl⟩
  · rintro ⟨items, hitems, hone⟩
    obtain ⟨operand, hinput⟩ := List.length_eq_one_iff.mp hone
    let a : Arguments :=
      { input := operand
        output := (items.filterMap Item.output?).getLast?.getD []
        options :=
          { trace := (items.filterMap Item.trace?).getLast?.getD options.trace
            stepLimit := (items.filterMap Item.stepLimit?).getLast?.getD options.stepLimit
            verbose := options.verbose || items.any Item.isVerbose } }
    exact ⟨a, (read_eq_ok_iff arguments).mpr ⟨items, hitems, hinput, rfl, rfl, rfl, rfl⟩⟩
  · obtain ⟨items, hitems, hsays⟩ := (read_eq_ok_iff arguments).mp h
    exact ⟨items, ⟨hitems, hsays⟩, fun others hothers => hothers.1.unique hitems⟩
  · obtain ⟨items, ⟨hitems, hsays⟩, -⟩ := h
    exact (read_eq_ok_iff arguments).mpr ⟨items, hitems, hsays⟩

/-- The value of an output option may look like an option. -/
example : ofList false {} [ascii "-o", ascii "-v", ascii "a.asm"] =
    .ok { input := ascii "a.asm", output := ascii "-v" } := by decide

end Arguments
end RegisterMachine

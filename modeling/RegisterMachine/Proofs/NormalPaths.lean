/-
# Normal forms of paths

The texts that are in normal form are the empty one, `.`, `/`, and components
between slashes that are no `.` and not empty, with a `..` only in front of the
others and only in a path that does not start at the root. There may be a slash
at the end, but not behind a `..` (`Path.IsNormal`).

The components are collected on a stack, the last one on top. What is on the
stack stays of this form (`Path.Stacked.cancel`), so the normal form of a path
is in normal form (`Path.isNormal_normal`); and components of this form go onto
the stack one by one and nothing cancels (`Path.Stacked.foldl_cancel`), so a
text in normal form is its own normal form (`Path.normal_of_isNormal`).

Key definitions: `Path.Stacked`, `Path.IsNormal`.
Key theorems: `Path.isNormal_normal`, `Path.normal_of_isNormal`,
`Path.normal_normal`.
-/
import RegisterMachine.Source.Path

namespace RegisterMachine
namespace Path

variable {absolute : Bool} {component top : Bytes} {stack kept : List Bytes} {path : Bytes}

/-! ### The stack of components -/

/-- The components of a normal form, the last one first: a `..` has nothing but others below it, and
there is none if the path starts at the root. -/
def Stacked (absolute : Bool) : List Bytes → Prop
  | [] => True
  | top :: below =>
    (top ≠ [] ∧ top ≠ here ∧ separator ∉ top) ∧
      (top = up → absolute = false ∧ ∀ c ∈ below, c = up) ∧ Stacked absolute below

theorem Stacked.cancel (h : Stacked absolute stack) (hcomponent : separator ∉ component) :
    Stacked absolute (cancel absolute stack component) := by
  unfold Path.cancel
  split
  · exact h
  rename_i hkept
  rw [not_or] at hkept
  have hplain : component ≠ [] ∧ component ≠ here ∧ separator ∉ component :=
    ⟨hkept.1, hkept.2, hcomponent⟩
  split
  · rename_i hup
    cases stack with
    | nil =>
      cases absolute with
      | true => exact trivial
      | false => exact ⟨hup ▸ hplain, fun _ => ⟨rfl, by simp⟩, trivial⟩
    | cons top below =>
      obtain ⟨htop, hbelow, hrest⟩ := h
      simp only
      split
      · rename_i htopUp
        obtain ⟨habsolute, hall⟩ := hbelow htopUp
        refine ⟨hup ▸ hplain, fun _ => ⟨habsolute, ?_⟩, htop, hbelow, hrest⟩
        exact List.forall_mem_cons.mpr ⟨htopUp, hall⟩
      · exact hrest
  · rename_i hup
    exact ⟨hplain, fun heq => absurd heq hup, h⟩

theorem Stacked.foldl (h : Stacked absolute stack) (components : List Bytes)
    (hcomponents : ∀ c ∈ components, separator ∉ c) :
    Stacked absolute (components.foldl (Path.cancel absolute) stack) := by
  induction components generalizing stack with
  | nil => exact h
  | cons component rest ih =>
    obtain ⟨hcomponent, hrest⟩ := List.forall_mem_cons.mp hcomponents
    exact ih (h.cancel hcomponent) hrest

/-- On components of this form, the next one cancels nothing. -/
theorem Stacked.cancel_eq_cons (h : Stacked absolute (top :: stack)) :
    Path.cancel absolute stack top = top :: stack := by
  obtain ⟨⟨hne, hhere, -⟩, hup, -⟩ := h
  have hkept : ¬ (top = [] ∨ top = here) := not_or.mpr ⟨hne, hhere⟩
  rw [Path.cancel.eq_def, if_neg hkept]
  split
  · rename_i htop
    obtain ⟨habsolute, hbelow⟩ := hup htop
    subst htop habsolute
    cases stack with
    | nil => rfl
    | cons below rest => exact if_pos (hbelow below List.mem_cons_self)
  · rfl

theorem Stacked.foldl_cancel (h : Stacked absolute stack) :
    stack.reverse.foldl (Path.cancel absolute) [] = stack := by
  induction stack with
  | nil => rfl
  | cons top below ih =>
    have hbelow : Stacked absolute below := h.2.2
    rw [List.reverse_cons, List.foldl_append, ih hbelow]
    exact h.cancel_eq_cons

theorem Stacked.plain_of_mem (h : Stacked absolute stack) {c : Bytes} (hc : c ∈ stack) :
    c ≠ [] ∧ c ≠ here ∧ separator ∉ c := by
  induction stack with
  | nil => cases hc
  | cons top below ih =>
    rcases List.mem_cons.mp hc with rfl | hc
    · exact h.1
    · exact ih h.2.2 hc

theorem stacked_normalComponents (path : Bytes) :
    Stacked (isAbsolute path) (normalComponents path).reverse := by
  rw [normalComponents, List.reverse_reverse]
  have hempty : Stacked (isAbsolute path) [] := trivial
  exact hempty.foldl _ fun c hc => Bytes.not_mem_of_mem_splitOn separator path hc

/-! ### Texts in normal form -/

/-- The components with a slash between any two, and where it is asked for in front and at the
end. -/
def joined (absolute : Bool) (kept : List Bytes) (slash : Bool) : Bytes :=
  (if absolute then [separator] else []) ++ [separator].intercalate kept ++
    (if slash then [separator] else [])

/-- The text is in normal form. -/
inductive IsNormal : Bytes → Prop
  | empty : IsNormal []
  | here : IsNormal here
  | root : IsNormal [separator]
  | joined {absolute slash : Bool} {kept : List Bytes} (hne : kept ≠ [])
      (hkept : Stacked absolute kept.reverse) (hslash : slash = true → kept.getLast? ≠ some up) :
      IsNormal (joined absolute kept slash)

/-- The normal form of the path has a slash at its end, if it has components. -/
def keepsSlash (path : Bytes) : Bool :=
  (components path).getLast?.any marksDirectory && (normalComponents path).getLast?.any (· != up)

/-- A normal form is its components, if there are some, and else one of the short texts. -/
theorem normal_eq (h : path ≠ []) : normal path =
    if normalComponents path = [] then (if isAbsolute path then [separator] else here)
    else joined (isAbsolute path) (normalComponents path) (keepsSlash path) := by
  have hnormal : normal path =
      if isAbsolute path then
        separator :: [separator].intercalate (normalComponents path) ++
          (if keepsSlash path then [separator] else [])
      else if normalComponents path = [] then here
      else [separator].intercalate (normalComponents path) ++
        (if keepsSlash path then [separator] else []) := if_neg h
  rw [hnormal]
  by_cases hne : normalComponents path = []
  · have hslash : keepsSlash path = false := by simp [keepsSlash, hne]
    simp [hne, hslash]
  · cases isAbsolute path <;> simp [hne, joined]

theorem isNormal_normal (path : Bytes) : IsNormal (normal path) := by
  by_cases h : path = []
  · subst h
    exact .empty
  rw [normal_eq h]
  split
  · split
    · exact .root
    · exact .here
  · rename_i hne
    refine .joined hne (stacked_normalComponents path) fun hslash hup => ?_
    rw [keepsSlash, hup] at hslash
    simp at hslash

/-! ### Reading a normal form -/

variable (hne : kept ≠ []) (hkept : Stacked absolute kept.reverse) (slash : Bool)
include hne hkept

/-- A slash in front, or at the end, is next to an empty component. -/
theorem components_joined : components (joined absolute kept slash) =
    (if absolute then [[]] else []) ++ kept ++ (if slash then [[]] else []) := by
  have hbody : components ([separator].intercalate kept) = kept :=
    List.splitOn_intercalate separator
      (fun c hc => (hkept.plain_of_mem (List.mem_reverse.mpr hc)).2.2) hne
  have hlead (rest : Bytes) : components ([separator] ++ rest) = [[]] ++ components rest :=
    List.splitOn_append_cons_self [] rest
  have htrail (front : Bytes) : components (front ++ [separator]) = components front ++ [[]] :=
    List.splitOn_append_cons_self front []
  unfold joined
  cases absolute <;> cases slash <;>
    simp only [Bool.false_eq_true, if_false, if_true, List.nil_append, List.append_nil, hlead,
      htrail, hbody]

theorem isAbsolute_joined : isAbsolute (joined absolute kept slash) = absolute := by
  obtain ⟨first, rest, rfl⟩ := List.exists_cons_of_ne_nil hne
  obtain ⟨hfirst, -, hseparator⟩ :=
    hkept.plain_of_mem (List.mem_reverse.mpr List.mem_cons_self)
  obtain ⟨byte, others, rfl⟩ := List.exists_cons_of_ne_nil hfirst
  have hbyte : byte ≠ separator := fun heq => hseparator (heq ▸ List.mem_cons_self)
  cases absolute with
  | true => rfl
  | false => cases rest <;> simp [joined, isAbsolute, List.intercalate_cons_cons, hbyte]

theorem normalComponents_joined : normalComponents (joined absolute kept slash) = kept := by
  have hempty (stack : List Bytes) : cancel absolute stack [] = stack := if_pos (Or.inl rfl)
  have hfold := hkept.foldl_cancel
  rw [List.reverse_reverse] at hfold
  rw [normalComponents, components_joined hne hkept, isAbsolute_joined hne hkept]
  cases absolute <;> cases slash <;> simp [hempty, hfold]

theorem keepsSlash_joined (hslash : slash = true → kept.getLast? ≠ some up) :
    keepsSlash (joined absolute kept slash) = slash := by
  have hlast : kept.getLast? = some (kept.getLast hne) := List.getLast?_eq_some_getLast hne
  rw [keepsSlash, normalComponents_joined hne hkept, components_joined hne hkept]
  cases slash with
  | true =>
    have hup : kept.getLast hne ≠ up := fun heq => hslash rfl (by rw [hlast, heq])
    simp [hlast, hup, marksDirectory]
  | false =>
    obtain ⟨hempty, hhere, -⟩ := hkept.plain_of_mem (List.mem_reverse.mpr (kept.getLast_mem hne))
    by_cases hup : kept.getLast hne = up
    · simp [hlast, hup]
    · simp [hlast, hup, hempty, hhere, marksDirectory]

theorem normal_joined (hslash : slash = true → kept.getLast? ≠ some up) :
    normal (joined absolute kept slash) = joined absolute kept slash := by
  have hpath : joined absolute kept slash ≠ [] := by
    intro h
    have hkept := normalComponents_joined hne hkept slash
    rw [h] at hkept
    exact hne hkept.symm
  rw [normal_eq hpath, normalComponents_joined hne hkept, if_neg hne,
    isAbsolute_joined hne hkept, keepsSlash_joined hne hkept slash hslash]

omit hne hkept

theorem normal_of_isNormal (h : IsNormal path) : normal path = path := by
  cases h with
  | empty => rfl
  | here => decide
  | root => decide
  | joined hne hkept hslash => exact normal_joined hne hkept _ hslash

/-- **The normal form of a normal form is that form itself.** -/
theorem normal_normal (path : Bytes) : normal (normal path) = normal path :=
  normal_of_isNormal (isNormal_normal path)

end Path
end RegisterMachine

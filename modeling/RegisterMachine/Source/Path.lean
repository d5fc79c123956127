/-
# Paths as text

A path is its bytes; `/` separates its components. `Path.normal` is its
lexical normal form, found without asking any file system: repeated slashes and
`.` components go, a component and the `..` after it cancel, `..` directly
under the root goes, and a path of which nothing is left is `.`. A slash at the
end, or a last component `.` or `..` that went away, leaves the form with a
slash at its end, unless it ends in a `..`. `Path.withExtension` exchanges what
follows the last dot of the file name.

Key definitions: `Path.components`, `Path.normal`, `Path.withExtension`.
-/
import RegisterMachine.Text.Bytes

namespace RegisterMachine
namespace Path

/-- The byte between components. -/
def separator : UInt8 := 47

/-- The component that stays where it is. -/
def here : Bytes := [46]

/-- The component that goes one directory up. -/
def up : Bytes := [46, 46]

/-- What stands between the slashes; a slash at either end, or next to another, gives empty text. -/
def components (path : Bytes) : List Bytes := path.splitOn separator

/-- The path starts at the root and not at the working directory. -/
def isAbsolute (path : Bytes) : Bool := path.head? == some separator

/-- The components of the normal form, the last one first, after one more component. -/
def cancel (absolute : Bool) (kept : List Bytes) (component : Bytes) : List Bytes :=
  if component = [] ∨ component = here then kept
  else if component = up then
    match kept with
    | [] => if absolute then [] else [up]
    | last :: before => if last = up then up :: kept else before
  else component :: kept

/-- The components of the normal form. -/
def normalComponents (path : Bytes) : List Bytes :=
  ((components path).foldl (cancel (isAbsolute path)) []).reverse

/-- A last component after which the normal form names a directory. -/
def marksDirectory (component : Bytes) : Bool :=
  component == [] || component == here || component == up

/-- The lexical normal form of a path. The empty path is its own. -/
def normal (path : Bytes) : Bytes :=
  if path = [] then []
  else
    let kept := normalComponents path
    let body := [separator].intercalate kept
    let slash := (components path).getLast?.any marksDirectory &&
      kept.getLast?.any (· != up)
    if isAbsolute path then separator :: body ++ (if slash then [separator] else [])
    else if kept = [] then here
    else body ++ (if slash then [separator] else [])

/-- The part of a file name before its extension. A name has an extension if it holds a dot after
its first byte; then the extension starts at the last dot. No name of two bytes whose first is a
dot has one. -/
def stem (name : Bytes) : Bytes :=
  let dot : UInt8 := 46
  let behind := name.reverse.takeWhile (· != dot)
  let before := name.take (name.length - behind.length - 1)
  if name.length ≤ 2 && name.head? == some dot then name
  else if before = [] then name
  else before

/-- The path with `extension` (given with its dot) in place of the extension of its file name. -/
def withExtension (extension path : Bytes) : Bytes :=
  let parts := components path
  let name := parts.getLast?.getD []
  path.take (path.length - name.length) ++ stem name ++ extension

end Path
end RegisterMachine

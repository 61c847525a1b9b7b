import Cherokee.Action
import Mathlib.Data.List.Infix

/-!
# The files of the directory

`fileAfter path f acts` is the file at `path` behind the actions `acts`, when it was `f` before.
Only the actions on `path` count (`fileAfter_actsOn`), so a statement about a file holds among any
other actions of the server (`fileAfter_of_not_alters`).
-/

namespace Cherokee

/-- A file: its content, `none` when there is none of the name. -/
abbrev File := Option Bytes

namespace Action

/-- The file an action makes or changes. One that only reads it is not among these. -/
def alters : Action → Option Bytes
  | .openAppend path _ => some path
  | .append path _ => some path
  | .remove path _ => some path
  | .openTrunc path _ => some path
  | .write path _ => some path
  | _ => none

/-- What an action makes of its own file. A file that has been removed in between is written to no
more. -/
def onFile (f : File) : Action → File
  | .openAppend _ ok => if ok then some (f.getD []) else f
  | .append _ data => f.map (· ++ data)
  | .remove _ ok => if ok then none else f
  | .openTrunc _ ok => if ok then some [] else f
  | .write _ data => f.map fun content => data ++ content.drop data.length
  | _ => f

/-- What an action makes of the file at `path`: something, if it is its own file. -/
def on (path : Bytes) (f : File) (a : Action) : File :=
  if a.alters = some path then a.onFile f else f

end Action

/-- The file at `path` behind a list of actions, each of which finds it as the one before has left
it. -/
def fileAfter (path : Bytes) (f : File) (acts : List Action) : File :=
  acts.foldl (fun f a => a.on path f) f

/-- The actions on the file at `path`, in order. -/
def actsOn (path : Bytes) (acts : List Action) : List Action :=
  acts.filter fun a => a.alters = some path

@[simp] theorem fileAfter_nil (path : Bytes) (f : File) : fileAfter path f [] = f := rfl

@[simp] theorem fileAfter_cons (path : Bytes) (f : File) (a : Action) (acts : List Action) :
    fileAfter path f (a :: acts) = fileAfter path (a.on path f) acts := rfl

@[simp] theorem fileAfter_append (path : Bytes) (f : File) (as bs : List Action) :
    fileAfter path f (as ++ bs) = fileAfter path (fileAfter path f as) bs :=
  List.foldl_append

/-- Only the actions on the file count. -/
theorem fileAfter_actsOn (path : Bytes) (f : File) (acts : List Action) :
    fileAfter path f (actsOn path acts) = fileAfter path f acts := by
  induction acts generalizing f with
  | nil => rfl
  | cons a acts ih =>
    unfold actsOn at ih ⊢
    -- an action on another file leaves this one, so that it may be left out
    by_cases ha : a.alters = some path
    · rw [List.filter_cons_of_pos (by simpa using ha)]
      exact ih (a.on path f)
    · rw [List.filter_cons_of_neg (by simpa using ha), ih, fileAfter_cons, Action.on, if_neg ha]

/-- Actions on other files leave the file. -/
theorem fileAfter_of_not_alters {path : Bytes} {acts : List Action}
    (h : ∀ a ∈ acts, a.alters ≠ some path) (f : File) : fileAfter path f acts = f := by
  have hnone : actsOn path acts = [] := by
    refine List.filter_eq_nil_iff.mpr fun a ha => ?_
    simpa using h a ha
  rw [← fileAfter_actsOn, hnone]
  rfl

end Cherokee

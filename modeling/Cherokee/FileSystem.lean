import Cherokee.Paths
import Cherokee.Store
import Mathlib.Data.List.AList

/-!
# The files in `filedir`

An entry of the directory leads to a file by its number, and a descriptor stands for the file that
was opened under it. A file whose entry is removed lives on for the descriptors that are open: what
comes under the name later is another file.

* `FileSystem.file_afterAll`: seen through the entries, a list of actions does to the file at a path
  what `fileAfter` says.
* `FileSystem.read_afterAll`: through an open descriptor the content of the file is still what it
  was, with whatever has been appended, as long as nobody writes over the file.
-/

namespace Cherokee

/-- The name of a file in `filedir`: no directory and no path. A name with a slash or a byte zero in
it would lead elsewhere. -/
def PlainName (name : Bytes) : Prop :=
  name ≠ [] ∧ 0 ∉ name ∧ 47 ∉ name ∧ name ≠ lit "." ∧ name ≠ lit ".."

instance (name : Bytes) : Decidable (PlainName name) := inferInstanceAs (Decidable (_ ∧ _))

/-- The path of a file in `filedir`, as the code composes it of the directory and a name. -/
def PlainPath (path : Bytes) : Prop :=
  filedir <+: path ∧ PlainName (path.drop filedir.length)

instance (path : Bytes) : Decidable (PlainPath path) := inferInstanceAs (Decidable (_ ∧ _))

/-- A path is the directory and the name in it. -/
theorem PlainPath.eq {path : Bytes} (h : PlainPath path) :
    filedir ++ path.drop filedir.length = path := by
  obtain ⟨⟨name, rfl⟩, -⟩ := h
  rw [List.drop_left]

/-- A path in `filedir` is that of a file just if its name is one. -/
theorem plainPath_filedir {name : Bytes} : PlainPath (filedir ++ name) ↔ PlainName name := by
  unfold PlainPath
  rw [List.drop_left]
  exact and_iff_right (List.prefix_append filedir name)

/-- The directory, its files and the open descriptors. Files are numbered, so that two of them are
told apart also when one has had the name of the other; the last fields say that the numbers are
used as the file system uses them. -/
structure FileSystem where
  /-- The number of the file at a path. -/
  entries : AList fun _ : Bytes => ℕ
  /-- The content of a file. -/
  content : ℕ → Bytes
  /-- The number of the next new file. -/
  next : ℕ
  /-- The file a descriptor is open for. -/
  opened : ℤ → Option ℕ
  entries_plain : ∀ path ∈ entries, PlainPath path
  entries_below : ∀ path i, entries.lookup path = some i → i < next
  entries_apart : ∀ path path' i,
    entries.lookup path = some i → entries.lookup path' = some i → path = path'
  opened_below : ∀ fd i, opened fd = some i → i < next

/-- The file an action opens, makes, changes or removes, whether or not it succeeds. -/
def Action.touched : Action → Option Bytes
  | .openAppend path _ => some path
  | .append path _ => some path
  | .openRead path _ => some path
  | .remove path _ => some path
  | .openTrunc path _ => some path
  | .write path _ => some path
  | _ => none

/-- The file an action writes over, so that who reads it finds something else. Appending does
not. -/
def Action.overwritten : Action → Option Bytes
  | .openTrunc path ok => if ok then some path else none
  | .write path _ => some path
  | _ => none

/-- A file that is changed is touched: making it, emptying it, appending to it, writing to it and
removing it are all actions on its path. -/
theorem Action.touched_of_alters {a : Action} {path : Bytes} (h : a.alters = some path) :
    a.touched = some path := by
  cases a <;> first | exact h | cases h

/-- A file that is written over is touched, as every file that is changed. -/
theorem Action.touched_of_overwritten {a : Action} {path : Bytes} (h : a.overwritten = some path) :
    a.touched = some path := by
  cases a with
  | openTrunc p ok =>
    cases ok
    · cases h
    · exact h
  | write p data => exact h
  | _ => cases h

/-- The action opens or closes the descriptor of a file, so that the descriptor stands for another
one behind it. -/
def Action.Renews (fd : ℤ) : Action → Prop
  | .openRead _ d => d = some fd
  | .closeFile d => d = fd
  | _ => False

namespace FileSystem

/-- The number of the file at a path, if there is one. -/
def inode (fs : FileSystem) (path : Bytes) : Option ℕ := fs.entries.lookup path

/-- The file at a path, seen through its entry. -/
def file (fs : FileSystem) (path : Bytes) : File := (fs.inode path).map fs.content

/-- What is read through a descriptor, whether or not its file still has an entry. -/
def read (fs : FileSystem) (fd : ℤ) : Option Bytes := (fs.opened fd).map fs.content

/-- The names that `readdir` gives, in some order, with `filedir/` taken off each path. -/
def names (fs : FileSystem) : List Bytes := fs.entries.keys.map (·.drop filedir.length)

/-- An empty directory, and no descriptor open. -/
def empty : FileSystem where
  entries := ∅
  content _ := []
  next := 0
  opened _ := none
  entries_plain path h := absurd h (AList.notMem_empty path)
  entries_below path i h := by rw [AList.lookup_empty] at h; cases h
  entries_apart path _ i h := by rw [AList.lookup_empty] at h; cases h
  opened_below _ _ h := by cases h

/-! ### What an action does -/

/-- A new file, of which nothing has been written. It takes a number that no file has had. -/
def create (fs : FileSystem) (path : Bytes) (h : PlainPath path) : FileSystem where
  entries := fs.entries.insert path fs.next
  content := Function.update fs.content fs.next []
  next := fs.next + 1
  opened := fs.opened
  entries_plain p hp := by
    rcases AList.mem_insert _ |>.mp hp with rfl | hp
    · exact h
    · exact fs.entries_plain p hp
  entries_below p i hp := by
    by_cases hpp : p = path
    · subst hpp
      rw [AList.lookup_insert] at hp
      cases hp
      exact Nat.lt_succ_self _
    · rw [AList.lookup_insert_ne hpp] at hp
      exact Nat.lt_succ_of_lt (fs.entries_below p i hp)
  entries_apart p p' i hp hp' := by
    have hnew : ∀ q, fs.entries.lookup q = some fs.next → False := fun q hq =>
      absurd (fs.entries_below q _ hq) (Nat.lt_irrefl _)
    by_cases hpp : p = path <;> by_cases hpp' : p' = path
    · exact hpp.trans hpp'.symm
    · subst hpp
      rw [AList.lookup_insert] at hp
      cases hp
      rw [AList.lookup_insert_ne hpp'] at hp'
      exact (hnew p' hp').elim
    · subst hpp'
      rw [AList.lookup_insert] at hp'
      cases hp'
      rw [AList.lookup_insert_ne hpp] at hp
      exact (hnew p hp).elim
    · rw [AList.lookup_insert_ne hpp] at hp
      rw [AList.lookup_insert_ne hpp'] at hp'
      exact fs.entries_apart p p' i hp hp'
  opened_below fd i h := Nat.lt_succ_of_lt (fs.opened_below fd i h)

/-- `O_CREAT`: the file is there already, or it is made. -/
def ensure (fs : FileSystem) (path : Bytes) : FileSystem :=
  if (fs.inode path).isSome then fs
  else if h : PlainPath path then fs.create path h else fs

/-- The file at `path` with another content; the descriptors see it too. -/
def rewrite (fs : FileSystem) (path : Bytes) (f : Bytes → Bytes) : FileSystem :=
  match fs.inode path with
  | some i => { fs with content := Function.update fs.content i (f (fs.content i)) }
  | none => fs

/-- `remove`: the entry is gone, the file is not. Whoever has it open reads on from it. -/
def unlink (fs : FileSystem) (path : Bytes) : FileSystem where
  entries := fs.entries.erase path
  content := fs.content
  next := fs.next
  opened := fs.opened
  entries_plain p hp := fs.entries_plain p (AList.mem_erase.mp hp).2
  entries_below p i hp := by
    by_cases hpp : p = path
    · subst hpp
      rw [AList.lookup_erase] at hp
      cases hp
    · rw [AList.lookup_erase_ne hpp] at hp
      exact fs.entries_below p i hp
  entries_apart p p' i hp hp' := by
    by_cases hpp : p = path
    · subst hpp
      rw [AList.lookup_erase] at hp
      cases hp
    · by_cases hpp' : p' = path
      · subst hpp'
        rw [AList.lookup_erase] at hp'
        cases hp'
      · rw [AList.lookup_erase_ne hpp] at hp
        rw [AList.lookup_erase_ne hpp'] at hp'
        exact fs.entries_apart p p' i hp hp'
  opened_below := fs.opened_below

/-- `open(path, O_RDONLY)` has returned `fd`, which from now on stands for the file, whatever
becomes of its path. -/
def openFile (fs : FileSystem) (path : Bytes) (fd : ℤ) : FileSystem :=
  { fs with
    opened := Function.update fs.opened fd (fs.inode path)
    opened_below := fun d i h => by
      by_cases hd : d = fd
      · subst hd
        rw [Function.update_self] at h
        exact fs.entries_below path i h
      · rw [Function.update_of_ne hd] at h
        exact fs.opened_below d i h }

/-- `close(fd)`: the descriptor stands for no file until it is given out again. -/
def closeFile (fs : FileSystem) (fd : ℤ) : FileSystem :=
  { fs with
    opened := Function.update fs.opened fd none
    opened_below := fun d i h => by
      by_cases hd : d = fd
      · subst hd
        rw [Function.update_self] at h
        cases h
      · rw [Function.update_of_ne hd] at h
        exact fs.opened_below d i h }

/-- The file system behind an action. What fails changes nothing. -/
def after (fs : FileSystem) : Action → FileSystem
  | .openAppend path ok => if ok then fs.ensure path else fs
  | .append path data => fs.rewrite path (· ++ data)
  | .remove path ok => if ok then fs.unlink path else fs
  | .openTrunc path ok => if ok then (fs.ensure path).rewrite path fun _ => [] else fs
  | .write path data => fs.rewrite path fun content => data ++ content.drop data.length
  | .openRead path (some fd) => fs.openFile path fd
  | .closeFile fd => fs.closeFile fd
  | _ => fs

/-- The file system behind a list of actions, one after the other. -/
def afterAll (fs : FileSystem) (acts : List Action) : FileSystem := acts.foldl after fs

@[simp] theorem afterAll_nil (fs : FileSystem) : fs.afterAll [] = fs := rfl

@[simp] theorem afterAll_cons (fs : FileSystem) (a : Action) (acts : List Action) :
    fs.afterAll (a :: acts) = (fs.after a).afterAll acts := rfl

@[simp] theorem afterAll_append (fs : FileSystem) (as bs : List Action) :
    fs.afterAll (as ++ bs) = (fs.afterAll as).afterAll bs :=
  List.foldl_append

/-! ### The entries behind an action -/

section Entries

variable (fs : FileSystem) (path : Bytes)

/-- A file that has an entry holds what is under its number. -/
theorem file_of_inode {i : ℕ} (h : fs.inode path = some i) :
    fs.file path = some (fs.content i) := by
  rw [file, h]
  rfl

/-- There is no file where there is no entry, even when the bytes of one are still held through a
descriptor. -/
theorem file_eq_none : fs.file path = none ↔ fs.inode path = none := Option.map_eq_none_iff

/-- A file that is there has a plain path, since no other path is ever made into an entry. -/
theorem plain_of_file (h : fs.file path ≠ none) : PlainPath path := by
  refine fs.entries_plain path (AList.lookup_isSome.mp ?_)
  exact Option.isSome_iff_ne_none.mpr fun hn => h ((fs.file_eq_none path).mpr hn)

/-- The files that are there are those with entries, which is what `readdir` goes through. -/
theorem file_ne_none : fs.file path ≠ none ↔ path ∈ fs.entries := by
  rw [Ne, file_eq_none, inode, AList.lookup_eq_none, not_not]

/-- A file that is made has the next number, one that no file has had before. -/
theorem inode_create_self (h : PlainPath path) : (fs.create path h).inode path = some fs.next :=
  AList.lookup_insert _

/-- The numbers of the others stay when a file is made. -/
theorem inode_create_of_ne {p : Bytes} (hp : p ≠ path) (h : PlainPath path) :
    (fs.create path h).inode p = fs.inode p :=
  AList.lookup_insert_ne hp

@[simp] theorem inode_rewrite (f : Bytes → Bytes) (p : Bytes) :
    (fs.rewrite path f).inode p = fs.inode p := by
  unfold rewrite
  split <;> rfl

/-- An entry that is removed leads to no file, until one is made there again. -/
theorem inode_unlink_self : (fs.unlink path).inode path = none := AList.lookup_erase _ _

/-- The other entries stay when one is removed. -/
theorem inode_unlink_of_ne {p : Bytes} (hp : p ≠ path) : (fs.unlink path).inode p = fs.inode p :=
  AList.lookup_erase_ne hp

/-- A new file has no content, and no other file is touched. -/
theorem file_ensure (h : PlainPath path) (p : Bytes) :
    (fs.ensure path).file p = if p = path then some ((fs.file path).getD []) else fs.file p := by
  unfold ensure
  -- the file is there and stays, or it is made
  cases hi : fs.inode path with
  | some i =>
    simp only [Option.isSome_some, if_true]
    split
    · next hp => rw [hp, fs.file_of_inode path hi, Option.getD_some]
    · rfl
  | none =>
    simp only [Option.isSome_none, Bool.false_eq_true, if_false, dif_pos h]
    by_cases hp : p = path
    · subst hp
      rw [if_pos rfl, file_of_inode _ _ (fs.inode_create_self p h), (fs.file_eq_none p).mpr hi]
      exact congrArg some (Function.update_self ..)
    · rw [if_neg hp, file, file, inode_create_of_ne _ _ hp h]
      cases hq : fs.inode p with
      | none => rfl
      | some j =>
        refine congrArg some (Function.update_of_ne ?_ _ _)
        -- an old file has a number below the new one
        exact Nat.ne_of_lt (fs.entries_below p j hq)

/-- Where there is no file nothing is written, and nothing is made either. -/
theorem rewrite_of_none (h : fs.inode path = none) (f : Bytes → Bytes) :
    fs.rewrite path f = fs := by
  unfold rewrite
  rw [h]

/-- What is written goes under the number of the file. -/
theorem content_rewrite {i : ℕ} (h : fs.inode path = some i) (f : Bytes → Bytes) :
    (fs.rewrite path f).content = Function.update fs.content i (f (fs.content i)) := by
  unfold rewrite
  rw [h]

/-- Only the file at the path is rewritten: no two paths lead to one file. -/
theorem file_rewrite (f : Bytes → Bytes) (p : Bytes) :
    (fs.rewrite path f).file p = if p = path then (fs.file path).map f else fs.file p := by
  cases hi : fs.inode path with
  | none =>
    rw [fs.rewrite_of_none path hi]
    split
    · next hp => rw [hp, (fs.file_eq_none path).mpr hi]; rfl
    · rfl
  | some i =>
    rw [file, inode_rewrite, fs.content_rewrite path hi]
    by_cases hp : p = path
    · subst hp
      rw [if_pos rfl, hi, fs.file_of_inode p hi]
      exact congrArg some (Function.update_self ..)
    · rw [if_neg hp, file]
      cases hq : fs.inode p with
      | none => rfl
      | some j =>
        refine congrArg some (Function.update_of_ne ?_ _ _)
        rintro rfl
        -- two paths would lead to one file
        exact hp (fs.entries_apart p path j hq hi)

/-- A file that is removed is not there, and the others are. -/
theorem file_unlink (p : Bytes) :
    (fs.unlink path).file p = if p = path then none else fs.file p := by
  by_cases hp : p = path
  · subst hp
    rw [if_pos rfl, file_eq_none]
    exact fs.inode_unlink_self p
  · rw [if_neg hp, file, file, inode_unlink_of_ne _ _ hp]
    rfl

end Entries

/-- The names are those of the files that are there, with their paths in `filedir`. -/
theorem mem_names (fs : FileSystem) (name : Bytes) :
    name ∈ fs.names ↔ fs.file (filedir ++ name) ≠ none := by
  rw [file_ne_none, names, List.mem_map]
  constructor
  · rintro ⟨path, hpath, rfl⟩
    rwa [(fs.entries_plain path (AList.mem_keys.mp hpath)).eq]
  · intro h
    exact ⟨_, AList.mem_keys.mpr h, List.drop_left⟩

/-- No name is listed twice, since no two entries have one path. -/
theorem nodup_names (fs : FileSystem) : fs.names.Nodup := by
  refine List.Nodup.map_on (fun p hp q hq heq => ?_) fs.entries.keys_nodup
  rw [← (fs.entries_plain p (AList.mem_keys.mp hp)).eq, heq,
    (fs.entries_plain q (AList.mem_keys.mp hq)).eq]

/-- The names that are listed are plain: they hold no slash and no zero byte. -/
theorem plain_of_mem_names (fs : FileSystem) {name : Bytes} (h : name ∈ fs.names) :
    PlainName name :=
  plainPath_filedir.mp (fs.plain_of_file _ ((fs.mem_names name).mp h))

/-- **An action does to the file at a path what `Action.on` says.** -/
theorem file_after (fs : FileSystem) {a : Action}
    (ha : ∀ path, a.alters = some path → PlainPath path)
    (p : Bytes) : (fs.after a).file p = a.on p (fs.file p) := by
  unfold Action.on
  -- each action against what `onFile` says of it
  cases a with
  | openAppend path ok =>
    have h := ha path rfl
    cases ok
    · simp [after, Action.onFile]
    · simp only [after, if_true, file_ensure _ _ h, Action.alters, Option.some.injEq, Action.onFile,
        eq_comm (a := p)]
      split
      · next hp => rw [hp]
      · rfl
  | append path data =>
    simp only [after, file_rewrite, Action.alters, Option.some.injEq, Action.onFile,
      eq_comm (a := p)]
    split
    · next hp => rw [hp]
    · rfl
  | remove path ok =>
    cases ok
    · simp [after, Action.onFile]
    · simp only [after, if_true, file_unlink, Action.alters, Option.some.injEq, Action.onFile,
        eq_comm (a := p)]
  | openTrunc path ok =>
    have h := ha path rfl
    cases ok
    · simp [after, Action.onFile]
    · simp only [after, if_true, file_rewrite, file_ensure _ _ h, Action.alters, Option.some.injEq,
        Action.onFile, eq_comm (a := p)]
      split
      · rfl
      · rfl
  | write path data =>
    simp only [after, file_rewrite, Action.alters, Option.some.injEq, Action.onFile,
      eq_comm (a := p)]
    split
    · next hp => rw [hp]
    · rfl
  | openRead path fd =>
    cases fd <;> rfl
  | _ => rfl

/-- **The files behind a list of actions** are what the actions make of each of them, path by
path. -/
theorem file_afterAll (fs : FileSystem) {acts : List Action}
    (ha : ∀ a ∈ acts, ∀ path, a.alters = some path → PlainPath path) (p : Bytes) :
    (fs.afterAll acts).file p = fileAfter p (fs.file p) acts := by
  induction acts generalizing fs with
  | nil => rfl
  | cons a acts ih =>
    rw [afterAll_cons, ih _ fun b hb => ha b (List.mem_cons_of_mem _ hb),
      file_after fs (ha a List.mem_cons_self), fileAfter_cons]

/-! ### Open descriptors -/

/-- Numbers are given out upwards, one for each file that is made. -/
theorem next_le_ensure (fs : FileSystem) (path : Bytes) : fs.next ≤ (fs.ensure path).next := by
  unfold ensure
  split
  · exact Nat.le_refl _
  · split
    · exact Nat.le_succ _
    · exact Nat.le_refl _

@[simp] theorem next_rewrite (fs : FileSystem) (path : Bytes) (f : Bytes → Bytes) :
    (fs.rewrite path f).next = fs.next := by
  unfold rewrite
  split <;> rfl

/-- An action gives out no number twice, so a file that has been removed does not come back under
its number. -/
theorem next_le_after (fs : FileSystem) (a : Action) : fs.next ≤ (fs.after a).next := by
  cases a with
  | openAppend path ok =>
    rw [after]
    split
    · exact fs.next_le_ensure path
    · exact Nat.le_refl _
  | openTrunc path ok =>
    rw [after]
    split
    · rw [next_rewrite]
      exact fs.next_le_ensure path
    · exact Nat.le_refl _
  | append path data => exact (fs.next_rewrite path _).ge
  | write path data => exact (fs.next_rewrite path _).ge
  | remove path ok => cases ok <;> exact Nat.le_refl _
  | openRead path fd => cases fd <;> exact Nat.le_refl _
  | _ => exact Nat.le_refl _

section Kept

variable (fs : FileSystem) {i : ℕ} (hi : i < fs.next)
include hi

/-- A new file is no old one, so making a file leads no other path to a number in use. -/
theorem inode_ensure_ne {p : Bytes} (h : fs.inode p ≠ some i) (path : Bytes) :
    (fs.ensure path).inode p ≠ some i := by
  unfold ensure
  split
  · exact h
  · split
    · next hp =>
      by_cases hpp : p = path
      · subst hpp
        rw [inode_create_self]
        intro hn
        exact absurd (Option.some.inj hn) (Nat.ne_of_gt hi)
      · rwa [inode_create_of_ne _ _ hpp]
    · exact h

/-- What an old file holds is untouched when a file is made. -/
theorem content_ensure (path : Bytes) : (fs.ensure path).content i = fs.content i := by
  unfold ensure
  split
  · rfl
  · split
    · exact Function.update_of_ne (Nat.ne_of_lt hi) _ _
    · rfl

omit hi in
/-- What a file holds is untouched when another one is written. -/
theorem content_rewrite_of_ne {path : Bytes} (h : fs.inode path ≠ some i) (f : Bytes → Bytes) :
    (fs.rewrite path f).content i = fs.content i := by
  cases hj : fs.inode path with
  | none => rw [fs.rewrite_of_none path hj]
  | some j =>
    rw [fs.content_rewrite path hj]
    refine Function.update_of_ne ?_ _ _
    rintro rfl
    exact h hj

/-- A file that has no entry at a path gets none. -/
theorem inode_after_ne {p : Bytes} (h : fs.inode p ≠ some i) (a : Action) :
    (fs.after a).inode p ≠ some i := by
  -- only making a file adds an entry, and that is for a new number
  cases a with
  | openAppend path ok =>
    rw [after]
    split
    · exact fs.inode_ensure_ne hi h path
    · exact h
  | openTrunc path ok =>
    rw [after]
    split
    · rw [inode_rewrite]
      exact fs.inode_ensure_ne hi h path
    · exact h
  -- writing changes what a file holds, and no name
  | append path data =>
    rw [after]
    rwa [inode_rewrite]
  | write path data =>
    rw [after]
    rwa [inode_rewrite]
  | remove path ok =>
    rw [after]
    split
    · by_cases hp : p = path
      · subst hp
        -- a name that is taken away has no file behind it
        rw [inode_unlink_self]
        exact (Option.some_ne_none i).symm
      · rwa [inode_unlink_of_ne _ _ hp]
    · exact h
  | openRead path fd => cases fd <;> exact h
  | _ => exact h

/-- **An action that does not write over a file** leaves what it holds, and may append to it. -/
theorem content_after {a : Action}
    (h : ∀ path, a.overwritten = some path → fs.inode path ≠ some i) :
    fs.content i <+: (fs.after a).content i := by
  -- the actions that write: making, appending, truncating and writing over
  cases a with
  | openAppend path ok =>
    rw [after]
    split
    · rw [fs.content_ensure hi]
    · exact List.prefix_rfl
  | openTrunc path ok =>
    rw [after]
    split
    · next hok =>
      rw [content_rewrite_of_ne _ (fs.inode_ensure_ne hi (h path (if_pos hok)) path),
        fs.content_ensure hi]
    · exact List.prefix_rfl
  -- appending to this file adds to it, and appending to another one does not touch it
  | append path data =>
    rw [after]
    by_cases hp : fs.inode path = some i
    · rw [fs.content_rewrite path hp, Function.update_self]
      exact List.prefix_append _ _
    · rw [fs.content_rewrite_of_ne hp]
  | write path data =>
    rw [after]
    rw [fs.content_rewrite_of_ne (h path rfl)]
  -- removing takes a name away, and reading nothing at all
  | remove path ok =>
    cases ok <;> exact List.prefix_rfl
  | openRead path fd => cases fd <;> exact List.prefix_rfl
  | _ => exact List.prefix_rfl

end Kept

/-- What a file holds stays, with whatever is appended, behind any actions that do not write over
it. -/
theorem content_afterAll (fs : FileSystem) {i : ℕ} (hi : i < fs.next) {acts : List Action}
    (h : ∀ a ∈ acts, ∀ path, a.overwritten = some path → fs.inode path ≠ some i) :
    fs.content i <+: (fs.afterAll acts).content i := by
  induction acts generalizing fs with
  | nil => exact List.prefix_rfl
  | cons a acts ih =>
    have hlt : i < (fs.after a).next := Nat.lt_of_lt_of_le hi (fs.next_le_after a)
    -- behind the first action the file still has no entry at the paths that are written over
    refine (fs.content_after hi (h a List.mem_cons_self)).trans (ih _ hlt fun b hb path hpath => ?_)
    exact fs.inode_after_ne hi (h b (List.mem_cons_of_mem _ hb) path hpath) a

@[simp] theorem opened_ensure (fs : FileSystem) (path : Bytes) :
    (fs.ensure path).opened = fs.opened := by
  unfold ensure
  split
  · rfl
  · split <;> rfl

@[simp] theorem opened_rewrite (fs : FileSystem) (path : Bytes) (f : Bytes → Bytes) :
    (fs.rewrite path f).opened = fs.opened := by
  unfold rewrite
  split <;> rfl

/-- An action that neither opens nor closes the descriptor leaves it. -/
theorem opened_after (fs : FileSystem) {a : Action} {fd : ℤ} (h : ¬ a.Renews fd) :
    (fs.after a).opened fd = fs.opened fd := by
  cases a with
  | openAppend path ok => cases ok <;> simp [after]
  | openTrunc path ok => cases ok <;> simp [after]
  | append path data => simp [after]
  | write path data => simp [after]
  | remove path ok => cases ok <;> rfl
  | openRead path d =>
    cases d with
    | none => rfl
    | some d => exact Function.update_of_ne (fun hd => h (congrArg some hd.symm)) _ _
  | closeFile d => exact Function.update_of_ne (fun hd => h hd.symm) _ _
  | _ => rfl

/-- A descriptor that no action opens or closes stands for the file it has stood for. -/
theorem opened_afterAll (fs : FileSystem) {acts : List Action} {fd : ℤ}
    (h : ∀ a ∈ acts, ¬ a.Renews fd) : (fs.afterAll acts).opened fd = fs.opened fd := by
  induction acts generalizing fs with
  | nil => rfl
  | cons a acts ih =>
    rw [afterAll_cons, ih _ fun b hb => h b (List.mem_cons_of_mem _ hb),
      fs.opened_after (h a List.mem_cons_self)]

/-- The file a descriptor is open for holds `body`, and perhaps more behind it. -/
def Reads (fs : FileSystem) (fd : ℤ) (body : Bytes) : Prop :=
  ∃ i, fs.opened fd = some i ∧ body <+: fs.content i

/-- **What is read through a descriptor stays**, whatever is appended to the file and whatever
becomes of its entry, as long as nobody writes over it. -/
theorem Reads.afterAll {fs : FileSystem} {fd : ℤ} {body : Bytes} (h : fs.Reads fd body)
    {acts : List Action} (hfd : ∀ a ∈ acts, ¬ a.Renews fd)
    (hover : ∀ a ∈ acts, ∀ path, a.overwritten = some path → fs.inode path ≠ fs.opened fd) :
    (fs.afterAll acts).Reads fd body := by
  obtain ⟨i, hopened, hbody⟩ := h
  refine ⟨i, (fs.opened_afterAll hfd).trans hopened, hbody.trans ?_⟩
  -- the file has the number under which it was opened, and nobody writes over that
  refine fs.content_afterAll (fs.opened_below fd i hopened) fun a ha path hpath => ?_
  rw [← hopened]
  exact hover a ha path hpath

end FileSystem

end Cherokee

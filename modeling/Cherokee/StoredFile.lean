import Cherokee.Uploading

/-!
# The file an upload leaves

Every turn opens the file to append to it, also the first one, so a completed upload leaves the
content behind whatever the file held before.

* `HandleRecv.Accounted.tracked`: the file of an upload at any moment.
* `HandleRecv.stored_iff`: the file holds exactly the content exactly when it held nothing before.
-/

namespace Cherokee

namespace HandleRecv

/-- The file at `path`, when it was `f` before the actions. -/
structure Tracked (path : Bytes) (f : File) (acts : List Action) : Prop where
  opened : .openAppend path true ∈ acts →
    fileAfter path f acts = some (f.getD [] ++ appendedTo path acts)
  unopened : .openAppend path true ∉ acts →
    fileAfter path f acts = f ∧ appendedTo path acts = []

/-- An action that neither opens the file nor changes it. -/
theorem Tracked.other {path : Bytes} {f : File} {acts : List Action} (h : Tracked path f acts)
    {a : Action} (ha : a.alters ≠ some path) : Tracked path f (acts ++ [a]) := by
  have hon : fileAfter path f (acts ++ [a]) = fileAfter path f acts := by
    rw [fileAfter_append, fileAfter_cons, Action.on, if_neg ha, fileAfter_nil]
  have happ : appendedTo path (acts ++ [a]) = appendedTo path acts := by
    have hnone : a.appendedTo path = [] := by
      cases a <;> first | rfl | exact if_neg fun h => ha (congrArg some h)
    rw [appendedTo_append, appendedTo_cons, hnone, appendedTo_nil, List.append_nil, List.append_nil]
  have hmem : .openAppend path true ∈ acts ++ [a] ↔ .openAppend path true ∈ acts := by
    rw [List.mem_append, List.mem_singleton, or_iff_left]
    rintro rfl
    exact ha rfl
  refine ⟨fun hm => ?_, fun hm => ?_⟩
  · rw [hon, happ]
    exact h.opened (hmem.mp hm)
  · rw [hon, happ]
    exact h.unopened (mt hmem.mpr hm)

/-- An action that does no more to the files than to open the file at `path` and, when it is open,
to append to it. -/
def Stores (path : Bytes) (before : List Action) : Action → Prop
  | .openAppend p _ => p = path
  | .append p _ => p = path ∧ .openAppend path true ∈ before
  | .remove _ _ => False
  | .openTrunc _ _ => False
  | .write _ _ => False
  | _ => True

theorem Allowed.stores {u : Upload} {before : List Action} {a : Action} (h : Allowed u before a) :
    Stores u.path before a := by
  cases a with
  | openAppend => exact h.1
  | append => exact ⟨h.1, h.2.2.1⟩
  | remove => exact h.elim
  | openTrunc => exact h.elim
  | write => exact h.elim
  | _ => trivial

/-- The file behind one more action. -/
theorem Tracked.step {path : Bytes} {f : File} {before : List Action} (h : Tracked path f before)
    {a : Action} (ha : Stores path before a) : Tracked path f (before ++ [a]) := by
  cases a with
  | openAppend p ok =>
    obtain rfl : p = path := ha
    have happ : appendedTo p (before ++ [.openAppend p ok]) = appendedTo p before := by
      rw [appendedTo_append]
      exact List.append_nil _
    have hfile : fileAfter p f (before ++ [.openAppend p ok]) =
        if ok then some ((fileAfter p f before).getD []) else fileAfter p f before := by
      rw [fileAfter_append]
      exact if_pos rfl
    by_cases hm : .openAppend p true ∈ before
    · -- the file is open already
      have hf := h.opened hm
      refine ⟨fun _ => ?_, fun hno => absurd (List.mem_append_left _ hm) hno⟩
      rw [hfile, happ, hf]
      cases ok <;> rfl
    · obtain ⟨hf, hnil⟩ := h.unopened hm
      cases ok with
      | true =>
        -- the first open makes the file, or finds the one there
        refine ⟨fun _ => ?_, fun hno => absurd (List.mem_append_right _ List.mem_cons_self) hno⟩
        rw [hfile, happ, hnil, hf, if_pos rfl, List.append_nil]
      | false =>
        -- an open that fails changes nothing
        refine ⟨fun hyes => ?_, fun _ => ⟨?_, ?_⟩⟩
        · simp [hm] at hyes
        · rw [hfile, hf]
          rfl
        · rw [happ, hnil]
  -- appending goes behind what has been opened, and what is appended is accounted for
  | append p data =>
    obtain ⟨rfl, hm⟩ := ha
    have hf := h.opened hm
    refine ⟨fun _ => ?_, fun hno => absurd (List.mem_append_left _ hm) hno⟩
    have hfile : fileAfter p f (before ++ [.append p data]) =
        (fileAfter p f before).map (· ++ data) := by
      rw [fileAfter_append]
      exact if_pos rfl
    rw [hfile, hf, appendedTo_append]
    simp [Action.appendedTo]
  | remove => exact ha.elim
  | openTrunc => exact ha.elim
  | write => exact ha.elim
  | _ => exact h.other (Option.some_ne_none path).symm

/-- **The file of an upload at any moment.** -/
theorem Accounted.tracked {u : Upload} {f : File} {before acts : List Action}
    (h : Accounted u before acts) (ht : Tracked u.path f before) :
    Tracked u.path f (before ++ acts) := by
  induction acts generalizing before with
  | nil => rwa [List.append_nil]
  | cons a acts ih =>
    obtain ⟨ha, hacts⟩ := h
    have hnext := ih hacts (ht.step ha.stores)
    rwa [List.append_assoc] at hnext

theorem tracked_nil (path : Bytes) (f : File) : Tracked path f [] :=
  ⟨nofun, fun _ => ⟨rfl, rfl⟩⟩

/-- An upload leaves all other files. -/
theorem Accounted.fileAfter_of_ne {u : Upload} {before acts : List Action}
    (h : Accounted u before acts) {path : Bytes} (hne : path ≠ u.path) (f : File) :
    fileAfter path f acts = f := by
  induction acts generalizing before f with
  | nil => rfl
  | cons a acts ih =>
    obtain ⟨ha, hacts⟩ := h
    have hother : a.alters ≠ some path := by
      intro halters
      cases a with
      | openAppend p ok => exact hne ((Option.some.inj halters).symm.trans ha.1)
      | append p data => exact hne ((Option.some.inj halters).symm.trans ha.1)
      | remove => exact ha.elim
      | openTrunc => exact ha.elim
      | write => exact ha.elim
      | _ => cases halters
    rw [fileAfter_cons, Action.on, if_neg hother]
    exact ih hacts f

/-- An upload that is complete appends nothing more. -/
theorem Accounted.appendedTo_of_completed {u : Upload} {before acts : List Action}
    (h : Accounted u before acts) (hc : completed before ≠ []) : appendedTo u.path acts = [] := by
  induction acts generalizing before with
  | nil => rfl
  | cons a acts ih =>
    obtain ⟨ha, hacts⟩ := h
    have hrest : appendedTo u.path acts = [] := by
      refine ih hacts ?_
      rw [completed_append]
      exact fun hnil => hc (List.append_eq_nil_iff.mp hnil).1
    rw [appendedTo_cons, hrest, List.append_nil]
    cases a with
    | append path data => exact absurd ha.2.1 hc
    | _ => rfl

/-- An upload that is complete has stored its content. -/
theorem Accounted.stored {u : Upload} {acts : List Action} (h : Accounted u [] acts)
    (hdone : completed acts ≠ []) :
    .openAppend u.path true ∈ acts ∧ appendedTo u.path acts = u.content := by
  obtain ⟨x, hx⟩ := List.exists_mem_of_ne_nil _ hdone
  obtain ⟨a, ha, hax⟩ := List.mem_filterMap.mp hx
  obtain ⟨xs, ys, rfl⟩ := List.append_of_mem ha
  cases a with
  | processed method resource =>
    obtain ⟨-, -, hm, -, hcontent⟩ := h.allowed
    have hafter := (accounted_append.mp h).2.2
    have hrest : appendedTo u.path ys = [] := by
      refine hafter.appendedTo_of_completed ?_
      rw [completed_append, completed_append]
      simp [Action.completed]
    refine ⟨List.mem_append_left _ hm, ?_⟩
    rw [appendedTo_append, appendedTo_cons, hrest]
    simpa [Action.appendedTo] using hcontent
  | _ => cases hax

/-- **The file a completed upload leaves.** Whatever the cut and among whatever else the server
does, as long as nobody else touches the file: the content stands behind what the file held before,
so the file holds exactly the content exactly when it did not exist or was empty. -/
theorem stored_iff (u : Upload) (hlen : u.bytes.length ≤ maxSize) {s : List RecvResult}
    (hs : ∀ x ∈ s, x.Arrives) (hstream : stream s = u.bytes)
    (hdone : (lit "POST", u.resource) ∈ completed (run s none).acts) {acts : List Action}
    (halone : actsOn u.path acts = actsOn u.path (run s none).acts) (f : File) :
    fileAfter u.path f acts = some (f.getD [] ++ u.content) ∧
      (fileAfter u.path f acts = some u.content ↔ f = none ∨ f = some []) := by
  have haccounted := upload_accounted hlen hs (hstream ▸ List.prefix_rfl) (.inl rfl)
  rw [List.append_nil] at haccounted
  obtain ⟨hm, hcontent⟩ := haccounted.stored (List.ne_nil_of_mem hdone)
  have htracked : Tracked u.path f (run s none).acts := haccounted.tracked (tracked_nil u.path f)
  have hfile : fileAfter u.path f acts = some (f.getD [] ++ u.content) := by
    rw [← fileAfter_actsOn, halone, fileAfter_actsOn, htracked.opened hm, hcontent]
  refine ⟨hfile, ?_⟩
  rw [hfile, Option.some.injEq, List.append_left_eq_self]
  cases f with
  | none => simp
  | some content => simp

/-- An upload in one result of `recv`. -/
def whole (u : Upload) : List RecvResult := [.data u.bytes true]

theorem stored_iff_sample :
    fileAfter sampleUpload.path none (run (whole sampleUpload) none).acts =
      some sampleUpload.content := by
  refine (stored_iff sampleUpload (by decide +kernel) (s := whole sampleUpload) ?_ ?_ ?_ rfl
    none).2.mpr (.inl rfl)
  · intro x hx
    rw [List.mem_singleton.mp hx]
    exact .data _ true (by decide +kernel)
  · exact List.append_nil _
  · decide +kernel

/-- Uploading the same file again appends it once more. -/
theorem appended_again :
    ¬ ∀ (u : Upload) (s : List RecvResult), (∀ x ∈ s, x.Arrives) → stream s = u.bytes →
      (lit "POST", u.resource) ∈ completed (run s none).acts → ∀ f : File,
        fileAfter u.path f (run s none).acts = some u.content := by
  intro h
  have hagain := h sampleUpload (whole sampleUpload)
    (fun x hx => by rw [List.mem_singleton.mp hx]; exact .data _ true (by decide +kernel))
    (List.append_nil _) (by decide +kernel) (some sampleUpload.content)
  revert hagain
  decide +kernel

end HandleRecv

end Cherokee

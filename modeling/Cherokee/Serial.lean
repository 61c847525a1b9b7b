import Cherokee.Lib.Interleave
import Cherokee.StoredFile

/-!
# Two uploads under one name

Every turn of the receive loop opens the file and appends what it has released, so two uploads under
one name append to it in turns.

* `HandleRecv.serial_of_apart`: where the contents of the two do not overlap in time, the file is as
  if the one had been uploaded behind the other.
-/

open Interleave

namespace Cherokee

namespace HandleRecv

/-- What one of the two connections does in a history of both. -/
def actsOf (i : Bool) (zs : List (Bool × Action)) : List Action :=
  (zs.filter fun z => z.1 = i).map Prod.snd

/-- Content of the upload has been received, and the upload is not complete. -/
def Midway (u : Upload) (acts : List Action) : Prop :=
  u.preamble.length < (received acts).length ∧ completed acts = []

/-- At no moment are both uploads in the middle of their contents. -/
def Separate (u : Bool → Upload) (zs : List (Bool × Action)) : Prop :=
  ∀ xs, xs <+: zs →
    ¬ (Midway (u true) (actsOf true xs) ∧ Midway (u false) (actsOf false xs))

instance (u : Upload) (acts : List Action) : Decidable (Midway u acts) :=
  inferInstanceAs (Decidable (_ ∧ _))

instance (u : Bool → Upload) (zs : List (Bool × Action)) : Decidable (Separate u zs) :=
  decidable_of_iff (∀ xs ∈ zs.inits,
    ¬ (Midway (u true) (actsOf true xs) ∧ Midway (u false) (actsOf false xs)))
    (forall_congr' fun xs => by rw [List.mem_inits])

@[simp] theorem actsOf_append (i : Bool) (xs ys : List (Bool × Action)) :
    actsOf i (xs ++ ys) = actsOf i xs ++ actsOf i ys := by
  simp [actsOf]

theorem actsOf_cons_self (i : Bool) (a : Action) (zs : List (Bool × Action)) :
    actsOf i ((i, a) :: zs) = a :: actsOf i zs := by
  simp [actsOf]

/-- What has been appended, and by which of the two. -/
def appends (path : Bytes) (zs : List (Bool × Action)) : List (Bool × Bytes) :=
  zs.map fun z => (z.1, z.2.appendedTo path)

theorem merged_appends (path : Bytes) (zs : List (Bool × Action)) :
    merged (appends path zs) = appendedTo path (zs.map Prod.snd) := by
  induction zs with
  | nil => rfl
  | cons z zs ih => exact congrArg (z.2.appendedTo path ++ ·) ih

theorem writtenBy_appends (path : Bytes) (i : Bool) (zs : List (Bool × Action)) :
    writtenBy i (appends path zs) = appendedTo path (actsOf i zs) := by
  induction zs with
  | nil => rfl
  | cons z zs ih =>
    obtain ⟨j, a⟩ := z
    have hcons : appends path ((j, a) :: zs) = (j, a.appendedTo path) :: appends path zs := rfl
    rw [hcons]
    by_cases hj : j = i
    · subst hj
      rw [writtenBy_cons_self, actsOf_cons_self, appendedTo_cons, ih]
    · obtain rfl : i = !j := by cases i <;> cases j <;> simp_all
      rw [writtenBy_cons_other, ih]
      simp [actsOf]

/-- What an upload has appended has been received behind its preamble. -/
theorem Accounted.kept {u : Upload} {before acts : List Action} (h : Accounted u before acts)
    (hk : appendedTo u.path before ≠ [] → u.preamble.length < (received before).length)
    (hne : appendedTo u.path (before ++ acts) ≠ []) :
    u.preamble.length < (received (before ++ acts)).length := by
  induction acts generalizing before with
  | nil =>
    rw [List.append_nil] at hne ⊢
    exact hk hne
  | cons a acts ih =>
    obtain ⟨ha, hacts⟩ := h
    have hsplit : before ++ a :: acts = before ++ [a] ++ acts := by simp
    rw [hsplit] at hne ⊢
    refine ih hacts (fun happ => ?_) hne
    rw [received_append, List.length_append]
    by_cases hbefore : appendedTo u.path before = []
    · -- this is the first append
      rw [appendedTo_append, hbefore, List.nil_append] at happ
      cases a with
      | append path data =>
        obtain ⟨rfl, -, -, hpre⟩ := ha
        have hlen := hpre.length_le
        have hpos := List.length_pos_of_ne_nil happ
        rw [hbefore] at hlen
        simp only [Action.appendedTo, appendedTo_cons, appendedTo_nil, List.append_nil, if_pos,
          List.length_append] at hlen hpos
        omega
      | _ => exact absurd rfl happ
    · have := hk hbefore
      omega

/-- A history of two uploads under one name that both complete: any interleaving of what the calls
of the two connections do. -/
structure Concurrent (u : Bool → Upload) (s : Bool → List RecvResult) (zs : List (Bool × Action)) :
    Prop where
  fits : ∀ i, (u i).bytes.length ≤ maxSize
  path : (u false).path = (u true).path
  arrives : ∀ i, ∀ x ∈ s i, x.Arrives
  stream : ∀ i, stream (s i) = (u i).bytes
  done : ∀ i, (lit "POST", (u i).resource) ∈ completed (run (s i) none).acts
  acts : ∀ i, actsOf i zs = (run (s i) none).acts

section Concurrent

variable {u : Bool → Upload} {s : Bool → List RecvResult} {zs : List (Bool × Action)}

theorem Concurrent.path_eq (h : Concurrent u s zs) (i : Bool) : (u i).path = (u true).path := by
  cases i with
  | true => rfl
  | false => exact h.path

theorem Concurrent.accounted (h : Concurrent u s zs) (i : Bool) :
    Accounted (u i) [] (actsOf i zs) := by
  have haccounted := upload_accounted (h.fits i) (h.arrives i)
    (h.stream i ▸ List.prefix_rfl) (.inl rfl)
  rwa [List.append_nil, ← h.acts i] at haccounted

/-- What a connection does next is allowed where it stands. -/
theorem Concurrent.allowed (h : Concurrent u s zs) {xs ys : List (Bool × Action)} {i : Bool}
    {a : Action} (hzs : zs = xs ++ (i, a) :: ys) : Allowed (u i) (actsOf i xs) a := by
  have haccounted := h.accounted i
  rw [hzs, actsOf_append, actsOf_cons_self] at haccounted
  exact haccounted.allowed

/-- Uploads whose contents do not overlap in time do not overlap in the file. -/
theorem Concurrent.apart (h : Concurrent u s zs) (hsep : Separate u zs) :
    Apart (appends (u true).path zs) := by
  intro xs' i d ys' hmap hd
  obtain ⟨xs, zs', hzs, rfl, hrest⟩ := List.map_eq_append_iff.mp hmap
  obtain ⟨⟨j, a⟩, ys, rfl, hz, rfl⟩ := List.map_eq_cons_iff.mp hrest
  obtain ⟨rfl, rfl⟩ := Prod.mk.inj hz
  change writtenBy (!j) (appends _ xs) = [] ∨ writtenBy (!j) (appends _ ys) = []
  rw [writtenBy_appends, writtenBy_appends, ← h.path_eq (!j)]
  -- the upload that writes here is in the middle of its content
  have hmidway : Midway (u j) (actsOf j xs) := by
    have hallowed := h.allowed hzs
    cases a with
    | append path data =>
      obtain ⟨rfl, hc, -, hpre⟩ := hallowed
      refine ⟨?_, hc⟩
      have hlen := hpre.length_le
      have hdata : data ≠ [] := by
        rw [h.path_eq j] at hd
        simpa [Action.appendedTo] using hd
      have hpos := List.length_pos_of_ne_nil hdata
      simp only [List.length_append] at hlen
      omega
    | _ => exact absurd rfl hd
  -- so the other one is not
  have hother : ¬ Midway (u (!j)) (actsOf (!j) xs) := by
    intro hboth
    refine hsep xs (hzs ▸ List.prefix_append _ _) ?_
    cases j with
    | true => exact ⟨hmidway, hboth⟩
    | false => exact ⟨hboth, hmidway⟩
  have haccounted := h.accounted (!j)
  have hskip : actsOf (!j) zs = actsOf (!j) xs ++ actsOf (!j) ys := by
    rw [hzs, actsOf_append]
    congr 1
    cases j <;> simp [actsOf]
  rw [hskip, accounted_append, List.nil_append] at haccounted
  by_cases hc : completed (actsOf (!j) xs) = []
  · -- the other upload has not come to its content
    left
    by_contra hne
    exact hother ⟨haccounted.1.kept (fun hnil => absurd rfl hnil) hne, hc⟩
  · exact .inr (haccounted.2.appendedTo_of_completed hc)

/-- The file at any moment of a history. -/
theorem Concurrent.tracked (h : Concurrent u s zs) (f : File) {xs : List (Bool × Action)}
    (hxs : xs <+: zs) : Tracked (u true).path f (xs.map Prod.snd) := by
  induction xs using List.reverseRecOn with
  | nil => exact tracked_nil _ f
  | append_singleton xs z ih =>
    obtain ⟨i, a⟩ := z
    obtain ⟨ys, hys⟩ := hxs
    have hzs : zs = xs ++ (i, a) :: ys := by rw [← hys, List.append_assoc]; rfl
    have hstores := (h.allowed hzs).stores
    rw [h.path_eq i] at hstores
    rw [List.map_append]
    refine (ih (hzs ▸ List.prefix_append _ _)).step ?_
    cases a with
    | append path data =>
      refine ⟨hstores.1, ?_⟩
      obtain ⟨z, hz, hopen⟩ := List.mem_map.mp hstores.2
      exact List.mem_map.mpr ⟨z, List.mem_of_mem_filter hz, hopen⟩
    | _ => exact hstores

theorem Concurrent.stored (h : Concurrent u s zs) (i : Bool) :
    .openAppend (u true).path true ∈ (run (s i) none).acts ∧
      appendedTo (u true).path (run (s i) none).acts = (u i).content := by
  have hstored := (h.accounted i).stored (by rw [h.acts]; exact List.ne_nil_of_mem (h.done i))
  rwa [h.acts, h.path_eq i] at hstored

/-- The file behind one upload alone. -/
theorem Concurrent.fileAfter_run (h : Concurrent u s zs) (i : Bool) (f : File) :
    fileAfter (u true).path f (run (s i) none).acts = some (f.getD [] ++ (u i).content) := by
  have htracked : Tracked (u i).path f (actsOf i zs) := (h.accounted i).tracked (tracked_nil _ f)
  obtain ⟨hm, hcontent⟩ := h.stored i
  rw [h.acts, h.path_eq i] at htracked
  rw [htracked.opened hm, hcontent]

/-- **Two uploads under one name.** In every interleaving in which the contents of the two do not
overlap in time, the file is as if the one had been uploaded behind the other. -/
theorem serial_of_apart (h : Concurrent u s zs) (hsep : Separate u zs) (f : File) :
    fileAfter (u true).path f (zs.map Prod.snd) =
        fileAfter (u true).path f ((run (s true) none).acts ++ (run (s false) none).acts) ∨
      fileAfter (u true).path f (zs.map Prod.snd) =
        fileAfter (u true).path f ((run (s false) none).acts ++ (run (s true) none).acts) := by
  have hm : .openAppend (u true).path true ∈ zs.map Prod.snd := by
    have hopen := (h.stored true).1
    rw [← h.acts true] at hopen
    obtain ⟨z, hz, ha⟩ := List.mem_map.mp hopen
    exact List.mem_map.mpr ⟨z, List.mem_of_mem_filter hz, ha⟩
  have hfile := (h.tracked f List.prefix_rfl).opened hm
  have hwritten (i : Bool) : writtenBy i (appends (u true).path zs) = (u i).content := by
    rw [writtenBy_appends, h.acts, (h.stored i).2]
  rw [hfile, ← merged_appends, fileAfter_append, fileAfter_append, h.fileAfter_run, h.fileAfter_run,
    h.fileAfter_run, h.fileAfter_run, Option.getD_some, Option.getD_some]
  rcases merged_of_apart (h.apart hsep) with hmerged | hmerged
  · left
    rw [hmerged, hwritten, hwritten, List.append_assoc]
  · right
    rw [hmerged, hwritten, hwritten, List.append_assoc]

end Concurrent

/-- Uploads of two notes under one name. -/
def notes : Bool → Upload
  | true => { sampleUpload with content := lit "ab", content_free := by decide }
  | false => { sampleUpload with content := lit "xy", content_free := by decide }

/-- The first note comes in two parts, the second as a whole. -/
def scripts : Bool → List RecvResult
  | true => [.data ((notes true).preamble ++ lit "a") true,
      .data (lit "b" ++ delimiter (notes true).boundary) true]
  | false => whole (notes false)

/-- The second connection is served when the first has done `k` actions. -/
def history (k : ℕ) : List (Bool × Action) :=
  ((run (scripts true) none).acts.take k).map (true, ·) ++
    (run (scripts false) none).acts.map (false, ·) ++
    ((run (scripts true) none).acts.drop k).map (true, ·)

theorem actsOf_tagged (i j : Bool) (acts : List Action) :
    actsOf i (acts.map (j, ·)) = if j = i then acts else [] := by
  unfold actsOf
  rw [List.filter_map, List.map_map]
  by_cases h : j = i
  · rw [if_pos h]
    simp [Function.comp_def, h]
  · rw [if_neg h]
    simp [Function.comp_def, h]

theorem concurrent_history (k : ℕ) : Concurrent notes scripts (history k) where
  fits := by decide +kernel
  path := rfl
  arrives i := by
    cases i with
    | true =>
      intro x hx
      simp only [scripts, List.mem_cons, List.not_mem_nil, or_false] at hx
      rcases hx with rfl | rfl
      · exact .data _ true (by decide +kernel)
      · exact .data _ true (by decide +kernel)
    | false =>
      intro x hx
      rw [List.mem_singleton.mp hx]
      exact .data _ true (by decide +kernel)
  stream := by decide +kernel
  done := by decide +kernel
  acts i := by
    unfold history
    rw [actsOf_append, actsOf_append, actsOf_tagged, actsOf_tagged, actsOf_tagged]
    cases i with
    | true => simp
    | false => simp

theorem serial_of_apart_sample :
    fileAfter (notes true).path none ((history 0).map Prod.snd) =
        fileAfter (notes true).path none
          ((run (scripts true) none).acts ++ (run (scripts false) none).acts) ∨
      fileAfter (notes true).path none ((history 0).map Prod.snd) =
        fileAfter (notes true).path none
          ((run (scripts false) none).acts ++ (run (scripts true) none).acts) :=
  serial_of_apart (concurrent_history 0) (by decide +kernel) none

/-- The second note lands in the middle of the first. -/
theorem mixed_notes :
    ¬ ∀ (u : Bool → Upload) (s : Bool → List RecvResult) (zs : List (Bool × Action)),
      Concurrent u s zs → ∀ f : File,
        fileAfter (u true).path f (zs.map Prod.snd) =
            fileAfter (u true).path f ((run (s true) none).acts ++ (run (s false) none).acts) ∨
          fileAfter (u true).path f (zs.map Prod.snd) =
            fileAfter (u true).path f ((run (s false) none).acts ++ (run (s true) none).acts) := by
  intro h
  have hserial := h notes scripts (history 4) (concurrent_history 4) none
  revert hserial
  decide +kernel

end HandleRecv

end Cherokee

import Mathlib.Data.List.Infix
import Mathlib.Tactic.Common

/-!
# Records in a text

A text made of records that stand one behind the other, in a frame. A reader that takes a record
from the front of any text tells all of them apart (`readAll_eq_some_iff`); the frame comes off
again when both its ends are known (`unframe_eq_some_iff`).
-/

namespace Records

variable {α β : Type}

/-- `read` takes exactly the records `write b` with `Ok b` from the front of a text. -/
structure Reads (read : List α → Option (β × List α)) (write : β → List α) (Ok : β → Prop) :
    Prop where
  read_iff : ∀ text b rest, read text = some (b, rest) ↔ Ok b ∧ text = write b ++ rest
  write_ne_nil : ∀ b, write b ≠ []

/-- The records of a text, of which at most `n` are read; the text ends with the last of them. -/
def readAll (read : List α → Option (β × List α)) : ℕ → List α → Option (List β)
  | _, [] => some []
  | 0, _ :: _ => none
  | n + 1, c :: text => (read (c :: text)).bind fun p => (readAll read n p.2).map (p.1 :: ·)

section Reads

variable {read : List α → Option (β × List α)} {write : β → List α} {Ok : β → Prop}

/-- There are no more records than bytes. -/
theorem Reads.length_le (h : Reads read write Ok) (bs : List β) :
    bs.length ≤ (bs.flatMap write).length := by
  induction bs with
  | nil => exact Nat.zero_le _
  | cons b bs ih =>
    have hpos := List.length_pos_of_ne_nil (h.write_ne_nil b)
    rw [List.flatMap_cons, List.length_append, List.length_cons]
    omega

theorem Reads.readAll_iff (h : Reads read write Ok) {n : ℕ} {text : List α} {bs : List β} :
    readAll read n text = some bs ↔
      bs.length ≤ n ∧ (∀ b ∈ bs, Ok b) ∧ text = bs.flatMap write := by
  induction n, text using readAll.induct generalizing bs with
  | case1 n =>
    rw [readAll, Option.some.injEq]
    constructor
    · rintro rfl
      exact ⟨Nat.zero_le _, List.forall_mem_nil _, rfl⟩
    · rintro ⟨-, -, hbs⟩
      -- no text is left, so there is no record to read
      have hlen := h.length_le bs
      rw [← hbs] at hlen
      exact (List.length_eq_zero_iff.mp (Nat.le_zero.mp hlen)).symm
  | case2 c text =>
    rw [readAll]
    refine iff_of_false nofun ?_
    -- text without a record to read it
    rintro ⟨hlen, -, htext⟩
    rw [List.length_eq_zero_iff.mp (Nat.le_zero.mp hlen)] at htext
    cases htext
  | case3 n c text ih =>
    rw [readAll, Option.bind_eq_some_iff]
    constructor
    -- one record is read, and the records behind it by the induction hypothesis
    · rintro ⟨⟨b, rest⟩, hread, hrest⟩
      obtain ⟨bs', hbs', rfl⟩ := Option.map_eq_some_iff.mp hrest
      obtain ⟨hb, htext⟩ := (h.read_iff _ _ _).mp hread
      obtain ⟨hlen, hall, hrest⟩ := (ih (b, rest)).mp hbs'
      refine ⟨Nat.succ_le_succ hlen, List.forall_mem_cons.mpr ⟨hb, hall⟩, ?_⟩
      rw [htext, List.flatMap_cons, ← hrest]
    · rintro ⟨hlen, hall, htext⟩
      cases bs with
      | nil => cases htext
      | cons b bs =>
        obtain ⟨hb, hall⟩ := List.forall_mem_cons.mp hall
        refine ⟨(b, bs.flatMap write), (h.read_iff _ _ _).mpr ⟨hb, htext⟩, ?_⟩
        rw [(ih (b, bs.flatMap write)).mpr ⟨Nat.le_of_succ_le_succ hlen, hall, rfl⟩]
        rfl

/-- **A text is the records that are read from it**, and no other text is. -/
theorem Reads.readAll_eq_some_iff (h : Reads read write Ok) {text : List α} {bs : List β} :
    readAll read text.length text = some bs ↔ (∀ b ∈ bs, Ok b) ∧ text = bs.flatMap write := by
  rw [h.readAll_iff]
  refine and_iff_right_of_imp ?_
  rintro ⟨-, rfl⟩
  exact h.length_le bs

end Reads

section Frame

variable [DecidableEq α]

/-- What stands between the two parts of a frame. -/
def unframe (before after text : List α) : Option (List α) :=
  let rest := text.drop before.length
  if before <+: text ∧ after <:+ rest then some (rest.take (rest.length - after.length)) else none

theorem unframe_eq_some_iff {before after text middle : List α} :
    unframe before after text = some middle ↔ text = before ++ middle ++ after := by
  unfold unframe
  constructor
  · simp only [Option.ite_none_right_eq_some, Option.some.injEq, and_imp]
    rintro ⟨rest, rfl⟩
    rw [List.drop_left]
    rintro ⟨front, rfl⟩ rfl
    rw [List.length_append, Nat.add_sub_cancel, List.take_left, List.append_assoc]
  · rintro rfl
    rw [List.append_assoc, List.drop_left, if_pos ⟨List.prefix_append _ _, List.suffix_append _ _⟩,
      List.length_append, Nat.add_sub_cancel, List.take_left]

end Frame

end Records

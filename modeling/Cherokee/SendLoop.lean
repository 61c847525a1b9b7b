import Cherokee.FailedSend
import Cherokee.Progress

/-!
# The send loop

The send loop of `HandleSend::process` leaves when a `send` or `sendfile` has no room or fails, and
when the counter has reached the length of the body. It has no exit for a `sendfile` that returns
`0`. `HandleSend.sendLoop` takes a list of answers, and so always leaves; here the system answers
without end, and `HandleSend.sendTurn` is one iteration.

The head and a page are as long as the response says, so that every `send` takes something. The file
of a download is read anew by every `sendfile`, and its length was taken before: when it has become
shorter, every `sendfile` behind its end takes nothing.

* `HandleSend.sendTurn_advances`: what one iteration does to the bytes that are left.
* `HandleSend.send_loop_leaves_iff`: the loop leaves exactly when it does not starve.
-/

namespace Cherokee

namespace HandleSend

/-! ### One iteration -/

/-- The part of an iteration for the head. The `i`-th answer of the system is the next one. The loop
leaves where the answer is an error or `EAGAIN`. -/
def headPart (answers : ℕ → SendResult) (i : ℕ) (r : Response) : (ℕ × Response) ⊕ Response :=
  if r.status = .handleHead then
    match answers i with
    | .accepted n _ => .inl (i + 1, (sendHead r n).1)
    | _ => .inr r
  else .inl (i, r)

/-- `break` once the body is sent. -/
def unlessComplete (i : ℕ) (r : Response) : (ℕ × Response) ⊕ Response :=
  if r.status = .handleComplete then .inr r else .inl (i, r)

/-- The part of an iteration for the body, by the type of the body: a page from memory, a file by
`sendfile`, and an empty body without a call. A file that has become shorter is asked for again and
again. -/
def bodyPart (answers : ℕ → SendResult) (i : ℕ) (r : Response) : (ℕ × Response) ⊕ Response :=
  if r.status = .handleBody then
    match r.bodyType with
    | .htmlType =>
      match answers i with
      | .accepted n _ => unlessComplete (i + 1) (sendBody r r.msgBody n).1
      | _ => .inr r
    | .fileType =>
      match answers i with
      | .accepted n disk => unlessComplete (i + 1) (sendBody r disk n).1
      | _ => .inr r
    | .emptyType => .inr { r with status := .handleComplete, curStatusHasSendLen := 0 }
  else .inl (i, r)

/-- One iteration of the send loop: the head, the body, and the test for an error. -/
def sendTurn (answers : ℕ → SendResult) : ℕ × Response → (ℕ × Response) ⊕ Response
  | (i, r) =>
    match headPart answers i r with
    | .inr q => .inr q
    | .inl (i, r) =>
      match bodyPart answers i r with
      | .inr q => .inr q
      | .inl (i, r) => if r.status = .handleError then .inr r else .inl (i, r)

/-! ### The loop on a list of answers -/

/-- The answers from the `i`-th on, as many as are asked for, in the form that the loop of a call
takes. -/
def upcoming (answers : ℕ → SendResult) : ℕ → ℕ → List SendResult
  | _, 0 => []
  | i, len + 1 => answers i :: upcoming answers (i + 1) len

section Upcoming

variable {answers : ℕ → SendResult} {i j len : ℕ} {r q : Response}

/-- The part for the head is a turn of the loop on the list. -/
theorem sendLoop_headPart_inr (h : headPart answers i r = .inr q) (request : Option Request) :
    (sendLoop (upcoming answers i (len + 1)) request r).response = q := by
  unfold headPart at h
  split at h
  · next hs =>
    cases hx : answers i with
    | accepted n disk => simp [hx] at h
    | again => simpa [upcoming, sendLoop, hs, hx] using h
    | failed => simpa [upcoming, sendLoop, hs, hx] using h
  · cases h

/-- The part for the head goes on: it has taken one answer, or none when the head has been sent
before. -/
theorem sendLoop_headPart_inl (h : headPart answers i r = .inl (j, q)) (request : Option Request) :
    ∃ used ≤ 1, ∀ len, (sendLoop (upcoming answers i (len + used)) request r).response =
      (sendLoop (upcoming answers j len) request q).response := by
  unfold headPart at h
  split at h
  · next hs =>
    refine ⟨1, Nat.le_refl 1, fun len => ?_⟩
    cases hx : answers i with
    | accepted n disk =>
      simp only [hx, Sum.inl.injEq, Prod.mk.injEq] at h
      obtain ⟨rfl, rfl⟩ := h
      simp only [upcoming, sendLoop, hs, hx, Stage.prepend]
    | again => simp [hx] at h
    | failed => simp [hx] at h
  · cases h
    exact ⟨0, Nat.zero_le 1, fun _ => rfl⟩

/-- The loop is left because the body has been sent. -/
theorem unlessComplete_inr (h : unlessComplete i r = .inr q) :
    q = r ∧ r.status = .handleComplete := by
  unfold unlessComplete at h
  split at h
  · next hc => exact ⟨(Sum.inr.inj h).symm, hc⟩
  · cases h

/-- The loop goes on because the body has not been sent. -/
theorem unlessComplete_inl (h : unlessComplete i r = .inl (j, q)) :
    (j = i ∧ q = r) ∧ r.status ≠ .handleComplete := by
  unfold unlessComplete at h
  split at h
  · cases h
  · next hc =>
    cases h
    exact ⟨⟨rfl, rfl⟩, hc⟩

/-- The part for the body is a turn of the loop on the list. -/
theorem sendLoop_bodyPart_inr (h : bodyPart answers i r = .inr q) (request : Option Request) :
    (sendLoop (upcoming answers i (len + 1)) request r).response = q := by
  unfold bodyPart at h
  split at h
  · next hs =>
    cases hb : r.bodyType with
    | emptyType =>
      rw [sendLoop_empty _ request hs hb]
      simpa [hb] using h
    | htmlType =>
      cases hx : answers i with
      | accepted n disk =>
        obtain ⟨rfl, hc⟩ := unlessComplete_inr (by simpa only [hb, hx] using h)
        simp [upcoming, sendLoop, hs, hb, hx, hc]
      | again => simpa [upcoming, sendLoop, hs, hb, hx] using h
      | failed => simpa [upcoming, sendLoop, hs, hb, hx] using h
    | fileType =>
      cases hx : answers i with
      | accepted n disk =>
        obtain ⟨rfl, hc⟩ := unlessComplete_inr (by simpa only [hb, hx] using h)
        simp [upcoming, sendLoop, hs, hb, hx, hc]
      | again => simpa [upcoming, sendLoop, hs, hb, hx] using h
      | failed => simpa [upcoming, sendLoop, hs, hb, hx] using h
  · cases h

/-- The part for the body goes on: it has taken one answer, or none when the head is still being
sent. -/
theorem sendLoop_bodyPart_inl (h : bodyPart answers i r = .inl (j, q)) (request : Option Request) :
    ∃ used ≤ 1, ∀ len, (sendLoop (upcoming answers i (len + used)) request r).response =
      (sendLoop (upcoming answers j len) request q).response := by
  unfold bodyPart at h
  split at h
  · next hs =>
    refine ⟨1, Nat.le_refl 1, fun len => ?_⟩
    cases hb : r.bodyType with
    | emptyType => simp [hb] at h
    | htmlType =>
      cases hx : answers i with
      | accepted n disk =>
        obtain ⟨⟨rfl, rfl⟩, hc⟩ := unlessComplete_inl (by simpa only [hb, hx] using h)
        simp [upcoming, sendLoop, hs, hb, hx, hc, Stage.prepend]
      | again => simp [hb, hx] at h
      | failed => simp [hb, hx] at h
    | fileType =>
      cases hx : answers i with
      | accepted n disk =>
        obtain ⟨⟨rfl, rfl⟩, hc⟩ := unlessComplete_inl (by simpa only [hb, hx] using h)
        simp [upcoming, sendLoop, hs, hb, hx, hc, Stage.prepend]
      | again => simp [hb, hx] at h
      | failed => simp [hb, hx] at h
  · cases h
    exact ⟨0, Nat.zero_le 1, fun _ => rfl⟩

end Upcoming

/-- **The iterations are the loop of the call**: where they leave, the loop on the answers they have
taken leaves the same response. -/
theorem sendLoop_iter {answers : ℕ → SendResult} {n i len : ℕ} {r q : Response}
    (h : Loop.iter (sendTurn answers) n (i, r) = some q) (hlen : 2 * n ≤ len)
    (request : Option Request) : (sendLoop (upcoming answers i len) request r).response = q := by
  induction n generalizing i r len with
  | zero => cases h
  | succ n ih =>
    -- an iteration takes two answers at most
    obtain ⟨len, rfl⟩ : ∃ len', len = len' + 2 := ⟨len - 2, by omega⟩
    unfold Loop.iter sendTurn at h
    cases hhead : headPart answers i r with
    | inr q' =>
      simp only [hhead, Option.some.injEq] at h
      exact (@sendLoop_headPart_inr answers i (len + 1) r q' hhead request).trans h
    | inl p =>
      obtain ⟨j, r₁⟩ := p
      simp only [hhead] at h
      -- the part for the head has taken `used` answers, and the loop on the list goes on behind
      -- them
      obtain ⟨used, hused, hsame⟩ := sendLoop_headPart_inl hhead request
      rw [show len + 2 = len + 2 - used + used by omega, hsame]
      cases hbody : bodyPart answers j r₁ with
      | inr q' =>
        simp only [hbody, Option.some.injEq] at h
        rw [show len + 2 - used = len + 1 - used + 1 by omega]
        exact (sendLoop_bodyPart_inr hbody request).trans h
      | inl p =>
        obtain ⟨l, r₂⟩ := p
        simp only [hbody] at h
        obtain ⟨used', hused', hsame'⟩ := sendLoop_bodyPart_inl hbody request
        rw [show len + 2 - used = len + 2 - used - used' + used' by omega, hsame']
        by_cases he : r₂.status = .handleError
        · -- no branch of the loop is for a response in error
          simp only [if_pos he, Option.some.injEq] at h
          unfold sendLoop
          rw [he]
          exact h
        · simp only [if_neg he] at h
          -- the answers that are left are enough for the other iterations
          exact ih h (by omega)

/-! ### What is left -/

/-- The response is as long as it says, but for a file, whose length was taken before and may have
changed since. -/
structure Measured (r : Response) : Prop where
  headLen : toSize r.beforeBodyMsgLen = r.beforeBodyMsg.length
  bodyLen : r.bodyType = .htmlType → r.msgBody.length = r.msgBodyLen

/-- An entry of `responseStatus` is as long as it says. -/
theorem measured_of_sound {r : Response} (h : r.Sound) : Measured r := ⟨h.headLen, h.bodyLen⟩

/-- Sending keeps what is to be sent, and so its length. -/
theorem SameContent.measured {r q : Response} (h : SameContent r q) (hr : Measured r) :
    Measured q := by
  unfold SameContent at h
  rw [h]
  exact ⟨hr.headLen, hr.bodyLen⟩

/-- What is left to be sent, with one more for the step from the head to the body. This is what gets
less from iteration to iteration, unless the loop starves. -/
def left (r : Response) : ℕ :=
  match r.status with
  | .handleHead => toSize r.beforeBodyMsgLen - r.curStatusHasSendLen + 1 + r.msgBodyLen
  | .handleBody => r.msgBodyLen - r.curStatusHasSendLen
  | _ => 0

/-- Behind a part of the head, the rest of the head and the body are left. -/
theorem left_head {r : Response} (hs : r.status = .handleHead) :
    left r = toSize r.beforeBodyMsgLen - r.curStatusHasSendLen + 1 + r.msgBodyLen := by
  rw [left, hs]

/-- Behind a part of the body, the rest of the body is left. -/
theorem left_body {r : Response} (hs : r.status = .handleBody) :
    left r = r.msgBodyLen - r.curStatusHasSendLen := by
  rw [left, hs]

/-- A `send` of the head takes something, or the head has been sent. -/
theorem sendHead_left {r : Response} (hs : r.status = .handleHead) (hr : Measured r) {n : ℕ}
    (hn : 0 < n) : left (sendHead r n).1 < left r := by
  have hdata : (chunk r.beforeBodyMsg (toSize r.beforeBodyMsgLen) r.curStatusHasSendLen n).length =
      min n (toSize r.beforeBodyMsgLen - r.curStatusHasSendLen) := by
    rw [chunk, List.length_take, List.length_drop, hr.headLen]
    omega
  rw [left_head hs]
  unfold sendHead
  simp only
  split
  · rw [left_body rfl]
    simp only
    omega
  · rw [left_head (by exact hs)]
    simp only
    omega

/-- A `send` or `sendfile` of the body that goes on has taken something, or it is for a file that
ends before the offset. -/
theorem sendBody_left {r : Response} (hs : r.status = .handleBody) {msg : Bytes}
    {n : ℕ} (hn : 0 < n) (hlive : (sendBody r msg n).1.status ≠ .handleComplete) :
    left (sendBody r msg n).1 < left r ∨
      ((sendBody r msg n).1 = r ∧ msg.length ≤ r.curStatusHasSendLen ∧
        r.curStatusHasSendLen < r.msgBodyLen) := by
  have hdata : (chunk msg r.msgBodyLen r.curStatusHasSendLen n).length =
      min (min n (r.msgBodyLen - r.curStatusHasSendLen)) (msg.length - r.curStatusHasSendLen) := by
    rw [chunk, List.length_take, List.length_drop]
  unfold sendBody at hlive ⊢
  simp only at hlive ⊢
  split at hlive
  · exact absurd rfl hlive
  · next hgoes =>
    rw [if_neg hgoes]
    by_cases hshort : msg.length ≤ r.curStatusHasSendLen
    · -- nothing is behind the offset, and the response stays as it is
      have hnone : (chunk msg r.msgBodyLen r.curStatusHasSendLen n).length = 0 := by omega
      refine .inr ⟨?_, hshort, by omega⟩
      rw [hnone]
      rfl
    · rw [left_body hs, left_body (by exact hs)]
      simp only
      exact .inl (by omega)

/-- A `sendfile` behind the end of its file changes nothing. -/
theorem sendBody_idle {r : Response} {msg : Bytes} (hshort : msg.length ≤ r.curStatusHasSendLen)
    (hlen : r.curStatusHasSendLen < r.msgBodyLen) (n : ℕ) : (sendBody r msg n).1 = r := by
  have hnone : chunk msg r.msgBodyLen r.curStatusHasSendLen n = [] := by
    rw [chunk, List.drop_eq_nil_of_le hshort, List.take_nil]
  unfold sendBody
  simp only
  rw [hnone, List.length_nil, Nat.add_zero, if_neg (by omega)]

/-! ### Iterations that go on -/

/-- The `i`-th answer is for a `sendfile` that finds the file no longer than its offset, with the
length of the response still to be reached. -/
structure Idles (answers : ℕ → SendResult) (i : ℕ) (r : Response) : Prop where
  status : r.status = .handleBody
  file : r.bodyType = .fileType
  short : r.curStatusHasSendLen < r.msgBodyLen
  answer : ∃ n disk, answers i = .accepted n disk ∧ disk.length ≤ r.curStatusHasSendLen

/-- What an iteration makes of a response that is being sent. -/
structure Advances (answers : ℕ → SendResult) (i : ℕ) (r : Response) (j : ℕ) (q : Response) :
    Prop where
  sending : Sending q
  same : SameContent r q
  /-- Something is sent, or the iteration repeats itself. -/
  step : left q < left r ∨ Idles answers i r ∧ j = i + 1 ∧ q = r

section Turn

variable {answers : ℕ → SendResult} (hpos : ∀ i n disk, answers i = .accepted n disk → 0 < n)
  {i j : ℕ} {r q : Response}

include hpos

/-- The part for the head takes something of it, or steps to the body. -/
theorem headPart_advances (hs : r.status = .handleHead) (hm : Measured r)
    (h : headPart answers i r = .inl (j, q)) :
    Sending q ∧ SameContent r q ∧ left q < left r := by
  unfold headPart at h
  rw [if_pos hs] at h
  cases hx : answers i with
  | accepted n disk =>
    simp only [hx, Sum.inl.injEq, Prod.mk.injEq] at h
    obtain ⟨-, rfl⟩ := h
    have hsame := accept_sameContent [] r n
    simp only [accept, hs] at hsame
    exact ⟨sendHead_status hs n, hsame, sendHead_left hs hm (hpos i n disk hx)⟩
  | again => simp [hx] at h
  | failed => simp [hx] at h

/-- The part for the body takes something of it, or finds its file at an end too early. -/
theorem bodyPart_advances (hs : r.status = .handleBody) (hm : Measured r)
    (h : bodyPart answers i r = .inl (j, q)) : Advances answers i r j q := by
  -- a `send` or `sendfile` of `msg` that does not complete the response
  have hsends {msg disk : Bytes} {n : ℕ} (hx : answers i = .accepted n disk)
      (hgoes : unlessComplete (i + 1) (sendBody r msg n).1 = .inl (j, q))
      (hidle : msg.length ≤ r.curStatusHasSendLen → r.curStatusHasSendLen < r.msgBodyLen →
        Idles answers i r) : Advances answers i r j q := by
    obtain ⟨⟨rfl, rfl⟩, hlive⟩ := unlessComplete_inl hgoes
    have hsame : SameContent r (sendBody r msg n).1 := by
      unfold sendBody
      simp only
      split <;> rfl
    refine ⟨.inr ((sendBody_status hs msg n).resolve_right hlive), hsame, ?_⟩
    rcases sendBody_left hs (hpos i n disk hx) hlive with hless | ⟨hstays, hshort, hlen⟩
    · exact .inl hless
    · exact .inr ⟨hidle hshort hlen, rfl, hstays⟩
  unfold bodyPart at h
  rw [if_pos hs] at h
  cases hb : r.bodyType with
  | emptyType => simp [hb] at h
  | htmlType =>
    cases hx : answers i with
    | accepted n disk =>
      -- a page has the length of the response
      refine hsends hx (by simpa only [hb, hx] using h) fun hshort hlen => ?_
      have hpage := hm.bodyLen hb
      omega
    | again => simp [hb, hx] at h
    | failed => simp [hb, hx] at h
  | fileType =>
    cases hx : answers i with
    | accepted n disk =>
      exact hsends hx (by simpa only [hb, hx] using h) fun hshort hlen =>
        ⟨hs, hb, hlen, n, disk, hx, hshort⟩
    | again => simp [hb, hx] at h
    | failed => simp [hb, hx] at h

/-- **What one iteration does**: it leaves, sends something, or repeats itself behind the end of a
file. -/
theorem sendTurn_advances (hr : Sending r) (hm : Measured r)
    (h : sendTurn answers (i, r) = .inl (j, q)) : Advances answers i r j q := by
  unfold sendTurn at h
  cases hhead : headPart answers i r with
  | inr q' => simp [hhead] at h
  | inl p =>
    obtain ⟨k, r₁⟩ := p
    cases hbody : bodyPart answers k r₁ with
    | inr q' => simp [hhead, hbody] at h
    | inl p =>
      obtain ⟨l, r₂⟩ := p
      have hlast : l = j ∧ r₂ = q := by
        simp only [hhead, hbody] at h
        split at h
        · cases h
        · cases h
          exact ⟨rfl, rfl⟩
      obtain ⟨rfl, rfl⟩ := hlast
      rcases hr with hs | hs
      · obtain ⟨hsending, hsame, hless⟩ := headPart_advances hpos hs hm hhead
        rcases hsending with hs₁ | hs₁
        · -- the head is not complete: the body is left alone
          unfold bodyPart at hbody
          rw [if_neg (by rw [hs₁]; exact nofun)] at hbody
          cases hbody
          exact ⟨.inl hs₁, hsame, .inl hless⟩
        · obtain ⟨hsending, hsame', hstep⟩ := bodyPart_advances hpos hs₁ (hsame.measured hm) hbody
          refine ⟨hsending, hsame.trans hsame', .inl ?_⟩
          rcases hstep with hless' | ⟨-, -, rfl⟩
          · omega
          · exact hless
      · -- nothing is done for the head of a response in its body
        unfold headPart at hhead
        rw [if_neg (by rw [hs]; exact nofun)] at hhead
        cases hhead
        exact bodyPart_advances hpos hs hm hbody

end Turn

/-- An iteration behind the end of a file repeats itself: `sendfile` answers `0`, nothing is
counted, and nothing ends the loop. -/
theorem sendTurn_idles {answers : ℕ → SendResult} {i : ℕ} {r : Response} (h : Idles answers i r) :
    sendTurn answers (i, r) = .inl (i + 1, r) := by
  obtain ⟨n, disk, hx, hshort⟩ := h.answer
  have hhead : headPart answers i r = .inl (i, r) := if_neg (by rw [h.status]; exact nofun)
  have hbody : bodyPart answers i r = .inl (i + 1, r) := by
    unfold bodyPart
    rw [if_pos h.status, h.file, hx]
    simp only
    rw [sendBody_idle hshort h.short]
    exact if_neg (by rw [h.status]; exact nofun)
  unfold sendTurn
  simp only [hhead, hbody]
  exact if_neg (by rw [h.status]; exact nofun)

/-! ### The whole loop -/

/-- From some iteration on every `sendfile` finds the file no longer than its offset, with the
length of the response still to be reached. -/
def Starves (answers : ℕ → SendResult) (r : Response) : Prop :=
  ∃ t i q, Loop.turns (sendTurn answers) t (0, r) = some (i, q) ∧ ∀ j, i ≤ j → Idles answers j q

/-- A loop that starves does not leave, since each of its iterations repeats the one before. -/
theorem never_of_starves {answers : ℕ → SendResult} {r : Response} (h : Starves answers r) (n : ℕ) :
    Loop.iter (sendTurn answers) n (0, r) = none := by
  obtain ⟨t, i, q, ht, hidles⟩ := h
  refine Loop.never_of_turns_never ht (fun n => ?_) n
  refine Loop.iter_eq_none_of_forall (P := fun s => s.2 = q ∧ i ≤ s.1) ?_ ⟨rfl, Nat.le_refl i⟩ n
  rintro ⟨j, p⟩ ⟨rfl, hj⟩
  exact ⟨(j + 1, p), sendTurn_idles (hidles j hj), rfl, Nat.le_succ_of_le hj⟩

/-- A loop that does not leave starves: what is left to be sent is a natural number, so from some
iteration on it does not get less, and then every iteration idles. -/
theorem starves_of_never {answers : ℕ → SendResult}
    (hpos : ∀ i n disk, answers i = .accepted n disk → 0 < n) {r : Response} (hr : Sending r)
    (hm : Measured r) (hnever : ∀ n, Loop.iter (sendTurn answers) n (0, r) = none) :
    Starves answers r := by
  have hkeeps : ∀ s s', Sending s.2 ∧ Measured s.2 → sendTurn answers s = .inl s' →
      (Sending s'.2 ∧ Measured s'.2) ∧ left s'.2 ≤ left s.2 := by
    rintro ⟨i, p⟩ ⟨j, q⟩ ⟨hp, hmp⟩ hturn
    have hadv := sendTurn_advances hpos hp hmp hturn
    refine ⟨⟨hadv.sending, hadv.same.measured hmp⟩, ?_⟩
    rcases hadv.step with hless | ⟨-, -, rfl⟩
    · exact hless.le
    · exact Nat.le_refl _
  obtain ⟨t, ⟨i, q⟩, ht, ⟨hq, hmq⟩, hstill⟩ :=
    Loop.exists_stall (m := fun s => left s.2) hkeeps (s := (0, r)) ⟨hr, hm⟩ hnever
  -- behind the stall every iteration repeats itself
  have hidle (k : ℕ) (hk : Loop.turns (sendTurn answers) k (i, q) = some (i + k, q)) :
      Idles answers (i + k) q ∧
        Loop.turns (sendTurn answers) (k + 1) (i, q) = some (i + (k + 1), q) := by
    obtain ⟨⟨j, p⟩, hnext⟩ := Loop.iter_eq_none_iff.mp (Loop.never_of_turns ht hnever (k + 1))
    have hone : Loop.turns (sendTurn answers) 1 (i + k, q) = some (j, p) := by
      rw [← Loop.turns_add hk]
      exact hnext
    have hturn : sendTurn answers (i + k, q) = .inl (j, p) := by
      unfold Loop.turns at hone
      cases hs : sendTurn answers (i + k, q) with
      | inl s =>
        rw [hs] at hone
        exact congrArg Sum.inl (Option.some.inj hone)
      | inr s =>
        rw [hs] at hone
        cases hone
    have hsame : left p = left q := hstill (k + 1) (j, p) hnext
    rcases (sendTurn_advances hpos (r := q) hq hmq hturn).step with hless | ⟨hidles, rfl, rfl⟩
    · exact absurd hless (by omega)
    · exact ⟨hidles, hnext⟩
  have hall (k : ℕ) : Loop.turns (sendTurn answers) k (i, q) = some (i + k, q) := by
    induction k with
    | zero => rfl
    | succ k ih => exact (hidle k ih).2
  refine ⟨t, i, q, ht, fun j hj => ?_⟩
  obtain ⟨k, rfl⟩ := Nat.exists_eq_add_of_le hj
  exact (hidle k (hall k)).1

/-- An entry of `responseStatus` between two calls: a response that has not been constructed yet, or
one that is being sent. -/
def Sendable (r : Response) : Prop := r.status = .handleInit ∨ Sending r ∧ r.Sound

/-- **Every entry is one of these**, whatever has been handed over and sent before. -/
theorem sendable_of_visits (vs : List Visit) (request : Option Request) {r : Response}
    (hr : (visits vs request none).response = some r) : Sendable r := by
  have hnone : EntryTracks [] [] none := ⟨rfl, nofun⟩
  have htracks := visits_tracks vs request hnone
  rw [hr] at htracks
  have hsound := Conn.sound_of_tracks htracks
  cases htracks.1 with
  | idle status => exact .inl (status.resolve_right htracks.2)
  | head _ _ status => exact .inr ⟨.inl status, hsound (.inl status)⟩
  | body _ _ _ status => exact .inr ⟨.inr status, hsound (.inr status)⟩

/-- A response that comes to the send loop is being sent, and as long as it says. -/
theorem Sendable.enters {w : World} {request : Option Request} {r : Response} (h : Sendable r)
    (hproceed : (initStage w request r).flow = .proceed) :
    Sending (initStage w request r).response ∧ Measured (initStage w request r).response := by
  rcases h with hi | ⟨hsending, hsound⟩
  · rw [initStage_of_init hi] at hproceed ⊢
    rcases operaStage_opens w request hi with ho | hl
    · exact ⟨.inl ho.status, measured_of_sound ho.sound⟩
    · -- the other branches leave the call before the loop
      have hflow : (operaStage w request r).flow = .proceed := hproceed
      rcases hl.exit with ⟨hleave, -⟩ | ⟨f, hcrash, -⟩
      · cases hflow.symm.trans hleave
      · cases hflow.symm.trans hcrash
  · rw [initStage_of_not_init hsending.not_init]
    exact ⟨hsending, measured_of_sound hsound⟩

/-- **The send loop leaves unless it starves.** Take any response a call of `HandleSend::process`
comes to the send loop with, and any answers of the system in which no `send` or `sendfile` accepts
`0` bytes with bytes left to take. The loop leaves after finitely many iterations exactly when it is
not so that from some iteration on every `sendfile` finds the file no longer than its offset, with
the length taken by `fstat` still to be reached. -/
theorem send_loop_leaves_iff {w : World} {request : Option Request} {r : Response} (hr : Sendable r)
    (hproceed : (initStage w request r).flow = .proceed) {answers : ℕ → SendResult}
    (hpos : ∀ i n disk, answers i = .accepted n disk → 0 < n) :
    (∃ n q, Loop.iter (sendTurn answers) n (0, (initStage w request r).response) = some q) ↔
      ¬ Starves answers (initStage w request r).response := by
  obtain ⟨hsending, hmeasured⟩ := hr.enters hproceed
  constructor
  · rintro ⟨n, q, hleft⟩ hstarves
    rw [never_of_starves hstarves n] at hleft
    cases hleft
  · intro hfed
    by_contra hnever
    push Not at hnever
    refine hfed (starves_of_never hpos hsending hmeasured fun n => ?_)
    cases hn : Loop.iter (sendTurn answers) n (0, (initStage w request r).response) with
    | none => rfl
    | some q => exact absurd hn (hnever n q)

/-- A download of `a.txt`. -/
def download : Response :=
  { Response.init sampleWorld.fresh with bodyFileName := lit "/downl/a.txt" }

/-- A system with room for everything, and `a.txt` as it is now. -/
def roomFor (disk : Bytes) (_ : ℕ) : SendResult := .accepted 4096 disk

theorem send_loop_leaves_download :
    ¬ Starves (roomFor (lit "hello")) (initStage sampleWorld none download).response :=
  (@send_loop_leaves_iff sampleWorld none download (.inl rfl) (by decide +kernel)
    (roomFor (lit "hello"))
    (by
      rintro i n disk ⟨⟩
      decide)).mp
    (by
      obtain ⟨q, hq⟩ := Option.isSome_iff_exists.mp
        (show (Loop.iter (sendTurn (roomFor (lit "hello"))) 1
          (0, (initStage sampleWorld none download).response)).isSome by decide +kernel)
      exact ⟨1, q, hq⟩)

/-- The file has five bytes when it is opened, and none when it is sent: another client has put a
new one in its place. -/
theorem send_loop_starved :
    ¬ ∀ (w : World) (request : Option Request) (r : Response) (answers : ℕ → SendResult),
      Sendable r → (initStage w request r).flow = .proceed →
      (∀ i n disk, answers i = .accepted n disk → 0 < n) →
      ∃ n q, Loop.iter (sendTurn answers) n (0, (initStage w request r).response) = some q := by
  intro h
  obtain ⟨n, q, hleft⟩ :=
    h sampleWorld none download (roomFor []) (.inl rfl) (by decide +kernel) (by
    rintro i n disk ⟨⟩
    decide)
  have hstarves : Starves (roomFor []) (initStage sampleWorld none download).response := by
    refine ⟨1, 2, { (initStage sampleWorld none download).response with status := .handleBody },
      by decide +kernel, fun j _ => ?_⟩
    exact ⟨rfl, by decide +kernel, by decide +kernel, 4096, [], rfl, Nat.zero_le _⟩
  rw [never_of_starves hstarves n] at hleft
  cases hleft

end HandleSend

end Cherokee

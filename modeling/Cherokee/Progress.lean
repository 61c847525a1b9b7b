import Cherokee.Isolation

/-!
# Owed responses can be sent

A call of `HandleSend` that finds room sends its response completely. A response that is entered
again, after `del` or where a file does not open, is then for the file list or for a redirection,
and is not entered a third time.

* `HandleSend.sendLoop_completes`: the send loop, when the system takes all it is given.
* `Conn.settles_in_two`: two calls that find room send an owed response, if they return.
-/

namespace Cherokee

namespace HandleSend

/-! ### The send loop with room -/

theorem chunk_length {msg : Bytes} {len sent n : ℕ} (hmsg : len ≤ msg.length) (hn : len ≤ n) :
    (chunk msg len sent n).length = len - sent := by
  unfold chunk
  rw [List.length_take, List.length_drop]
  omega

/-- The body goes at once where there is room for it. -/
theorem sendBody_completes {r : Response} {msg : Bytes} {n : ℕ} (hmsg : r.msgBodyLen ≤ msg.length)
    (hn : r.msgBodyLen ≤ n) : (sendBody r msg n).1.status = .handleComplete := by
  unfold sendBody
  simp only
  rw [chunk_length hmsg hn, if_pos (by omega)]

/-- The head goes at once where there is room for it. -/
theorem sendHead_completes {r : Response} {n : ℕ} (hr : r.Sound) (hn : r.beforeBodyMsg.length ≤ n) :
    (sendHead r n).1 = { r with status := .handleBody, curStatusHasSendLen := 0 } := by
  unfold sendHead
  simp only
  rw [hr.headLen, chunk_length le_rfl hn, if_pos (by omega)]

theorem sendLoop_body {r : Response} (hs : r.status = .handleBody) (hr : r.Sound)
    (request : Option Request) {n : ℕ} {disk : Bytes} (hn : r.msgBodyLen ≤ n)
    (hdisk : r.msgBodyLen ≤ disk.length) :
    (sendLoop [.accepted n disk] request r).flow = .proceed ∧
      (sendLoop [.accepted n disk] request r).response.status = .handleComplete := by
  cases hb : r.bodyType with
  | emptyType =>
    rw [sendLoop_empty _ _ hs hb]
    exact ⟨rfl, rfl⟩
  | htmlType =>
    have hdone := sendBody_completes (hr.bodyLen hb).ge hn
    unfold sendLoop
    simp only [hs, hb, hdone, if_true]
    exact ⟨trivial, trivial⟩
  | fileType =>
    have hdone := sendBody_completes hdisk hn
    unfold sendLoop
    simp only [hs, hb, hdone, if_true]
    exact ⟨trivial, trivial⟩

/-- **A response is sent completely** where there is room, and the file is as long as it was. -/
theorem sendLoop_completes {r : Response} (hs : Sending r) (hr : r.Sound)
    (request : Option Request) :
    ∃ results, (sendLoop results request r).flow = .proceed ∧
      (sendLoop results request r).response.status = .handleComplete := by
  let n := r.beforeBodyMsg.length + r.msgBodyLen
  let disk : Bytes := List.replicate r.msgBodyLen 0
  have hn : r.msgBodyLen ≤ n := Nat.le_add_left _ _
  have hdisk : r.msgBodyLen ≤ disk.length := (List.length_replicate ..).ge
  rcases hs with hs | hs
  · have hhead := sendHead_completes (n := n) hr (Nat.le_add_right _ _)
    have hbody := sendLoop_body (r := (sendHead r n).1) (n := n) (by rw [hhead])
      (by rw [hhead]; exact ⟨hr.headLen, hr.announces, hr.bodyLen⟩) request
      (by rw [hhead]; exact hn) (show (sendHead r n).1.msgBodyLen ≤ disk.length by
        rw [hhead]
        exact hdisk)
    refine ⟨[.accepted n disk, .accepted n disk], ?_⟩
    unfold sendLoop
    simp only [hs]
    exact hbody
  · exact ⟨[.accepted n disk], sendLoop_body hs hr request hn hdisk⟩

/-! ### Re-entry -/

/-- The resources of a response that is entered again. -/
def Again (name : Bytes) : Prop := name = lit "/" ∨ name = lit "/redirect"

theorem operaStage_again (w : World) (request : Option Request) (r : Response)
    (h : (operaStage w request r).flow = .leave) :
    Again (operaStage w request r).response.bodyFileName := by
  revert h
  unfold operaStage
  split
  · exact nofun
  · split_ifs
    · unfold filelistStage
      simp only
      split <;> exact nofun
    · unfold downlStage
      simp only
      split
      · exact fun _ => .inr rfl
      · exact nofun
    · exact fun _ => .inl rfl
    · unfold putStage
      simp only
      split
      · exact nofun
      · exact fun _ => .inr rfl
    · exact nofun

/-- A response that is entered again is not entered a third time. -/
theorem operaStage_of_again (w : World) (request : Option Request) {r : Response}
    (h : Again r.bodyFileName) : (operaStage w request r).flow ≠ .leave := by
  unfold operaStage
  rcases h with h | h
  · rw [h]
    change (filelistStage w request r).flow ≠ _
    unfold filelistStage
    simp only
    split <;> exact nofun
  · rw [h]
    exact nofun

end HandleSend

namespace Conn

open HandleSend

/-! ### Calls that find room -/

/-- Some call of `HandleSend` leaves nothing owed, if it returns. -/
def Settles (k : Conn) (w : World) : Prop :=
  ∃ results, let c := process w results k.request k.response
    c.crash = none → (ledger (k.log ++ c.acts)).owed = false

/-- Two calls of `HandleSend` leave nothing owed, if they return, whatever files they find. -/
def SettlesInTwo (k : Conn) : Prop :=
  ∀ w, ∃ results, let c := process w results k.request k.response
    c.crash = none →
      (ledger (k.log ++ c.acts)).owed = false ∨ ∀ w', (k.after c).Settles w'

/-- Behind a response that is complete nothing is owed. -/
theorem owed_of_complete {w : World} {results : List SendResult} {request : Option Request}
    {r : Response} {s : Stage} (h : initStage w request r = s) (hs : s.flow = .proceed)
    (ht : (sendLoop results s.request s.response).flow = .proceed)
    (hc : (sendLoop results s.request s.response).response.status = .handleComplete)
    (log : List Action) :
    (ledger (log ++ (process w results request (some r)).acts)).owed = false := by
  rw [process_proceed h hs ht]
  change (ledger (log ++ (_ ++ (finish w _ _).acts))).owed = false
  rw [finish, if_pos hc, ← List.append_assoc, ledger_append, Ledger.enters_finished]
  rfl

/-- A call that sends a response completely returns. -/
theorem returns_of_complete {w : World} {results : List SendResult} {request : Option Request}
    {r : Response} {s : Stage} (h : initStage w request r = s) (hs : s.flow = .proceed)
    (ht : (sendLoop results s.request s.response).flow = .proceed)
    (hc : (sendLoop results s.request s.response).response.status = .handleComplete) :
    (process w results request (some r)).crash = none := by
  rw [process_proceed h hs ht]
  change (finish w _ _).crash = none
  rw [finish, if_pos hc]

/-- A response that is being sent announces its body. -/
theorem sound_of_tracks {stream : Bytes} {ps : List (Bytes × Bytes)} {r : Response}
    (h : EntryTracks stream ps (some r)) (hs : Sending r) : r.Sound := by
  cases h.1 with
  | idle status => rcases hs with h | h <;> rcases status with h' | h' <;> cases h.symm.trans h'
  | head _ _ _ sound => exact sound
  | body _ _ _ _ sound => exact sound

/-- A response that is being sent. -/
theorem settles_sending {k : Conn} {r : Response} (hr : k.response = some r) (hs : Sending r)
    (sound : r.Sound) (w : World) : k.Settles w := by
  obtain ⟨results, hflow, hcomplete⟩ := sendLoop_completes hs sound k.request
  refine ⟨results, fun _ => ?_⟩
  rw [hr]
  exact owed_of_complete (initStage_of_not_init hs.not_init) rfl hflow hcomplete k.log

/-- A response that is entered: it is sent, or it is entered again. -/
theorem settles_entered {k : Conn} {r : Response} (hr : k.response = some r)
    (hi : r.status = .handleInit) (w : World) :
    ∃ results, let c := process w results k.request k.response
      c.crash = none → (ledger (k.log ++ c.acts)).owed = false ∨
        (operaStage w k.request r).flow = .leave ∧
          ∃ next, c.response = some next ∧ next.status = .handleInit ∧ Again next.bodyFileName := by
  rw [hr]
  rcases operaStage_opens w k.request hi with ho | hl
  · obtain ⟨results, hflow, hcomplete⟩ := sendLoop_completes (.inl ho.status) ho.sound
      (operaStage w k.request r).request
    refine ⟨results, fun _ => .inl ?_⟩
    exact owed_of_complete (initStage_of_init hi) ho.flow hflow hcomplete k.log
  · refine ⟨[], fun hcrash => .inr ?_⟩
    rcases hl.exit with ⟨hflow, -⟩ | ⟨f, hflow, -⟩
    · refine ⟨hflow, _, ?_, hl.status, operaStage_again w k.request r hflow⟩
      rw [process_leave (initStage_of_init hi) hflow]
      rfl
    · rw [process_crash (initStage_of_init hi) hflow] at hcrash
      cases hcrash

/-- A response that is entered again is sent. -/
theorem settles_again {k : Conn} {r : Response} (hr : k.response = some r)
    (hi : r.status = .handleInit) (ha : Again r.bodyFileName) (w : World) : k.Settles w := by
  obtain ⟨results, h⟩ := settles_entered hr hi w
  refine ⟨results, fun hcrash => ?_⟩
  rcases h hcrash with howed | ⟨hleave, -⟩
  · exact howed
  · exact absurd hleave (operaStage_of_again w k.request ha)

/-- **An owed response can be sent**, by two calls that find room. -/
theorem settles_in_two {k : Conn} (hk : k.Sound)
    (ht : EntryTracks (onWire k.log) (responses k.log) k.response)
    (howed : (ledger k.log).owed = true) : k.SettlesInTwo := by
  intro w
  obtain ⟨r, hr⟩ := Option.ne_none_iff_exists'.mp (hk.held howed)
  rcases hk.response r hr with hi | hs
  · obtain ⟨results, h⟩ := settles_entered hr hi w
    refine ⟨results, fun hcrash => ?_⟩
    rcases h hcrash with hnothing | ⟨-, next, hnext, hinit, hagain⟩
    · exact .inl hnothing
    · exact .inr fun w' => settles_again hnext hinit hagain w'
  · rw [hr] at ht
    obtain ⟨results, h⟩ := settles_sending hr hs (sound_of_tracks ht hs) w
    exact ⟨results, fun hcrash => .inl (h hcrash)⟩

end Conn

end Cherokee

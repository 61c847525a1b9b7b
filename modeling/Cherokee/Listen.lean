import Cherokee.Lib.Transition
import Mathlib.Data.Nat.Notation

/-!
# The listening socket (`AcceptConn::process`, `WebServer::waitEpoll`)

The listening socket is registered edge-triggered and not one-shot: epoll reports it once for all
the connections that have arrived since its last report. Every report becomes one `AcceptConn`, and
an `AcceptConn` calls `accept` once.

* `Listener.deficit_of_run`: the backlog against the reports and the `AcceptConn`s of a run.
* `Listener.backlog_empty_iff`: no connection is forgotten exactly when no two arrivals share a
  report and no `accept` fails.
-/

namespace Cherokee

/-- The listening socket and the events for it. -/
structure Listener (C : Type) where
  /-- The connections that are established and wait to be accepted. -/
  backlog : List C
  /-- A connection has arrived since `epoll_wait` reported the socket last. -/
  reported : Bool
  /-- The `AcceptConn`s that are queued or running. -/
  events : ℕ
  /-- The connections accepted. -/
  accepted : List C

namespace Listener

variable {C : Type}

/-- A step. -/
inductive Label (C : Type) where
  /-- A connection is established. -/
  | arrive (c : C)
  /-- `epoll_wait` returns the report, and `waitEpoll` makes an `AcceptConn` of it. -/
  | report
  /-- `AcceptConn::process`; `accept` returns a connection or `-1`. -/
  | process (accepts : Bool)
deriving DecidableEq

/-- One step. -/
def step (s : Listener C) : Label C → Option (Listener C)
  | .arrive c => some { s with backlog := s.backlog ++ [c], reported := true }
  | .report =>
    if s.reported then some { s with reported := false, events := s.events + 1 } else none
  | .process accepts =>
    if 0 < s.events then
      match accepts, s.backlog with
      | true, c :: rest => some { s with
          backlog := rest, events := s.events - 1, accepted := s.accepted ++ [c] }
      -- "Failed to accept new connection"
      | _, _ => some { s with events := s.events - 1 }
    else none

/-- Nothing has happened yet. -/
def init : Listener C := ⟨[], false, 0, []⟩

/-- No report is pending, and no `AcceptConn` is queued or running. -/
def Quiet (s : Listener C) : Prop := s.reported = false ∧ s.events = 0

/-- No arrival is merged into a report that is pending, and no `accept` fails while a connection
waits. -/
def Single (s : Listener C) : Label C → Prop
  | .arrive _ => s.reported = false
  | .report => True
  | .process accepts => accepts = true ∨ s.backlog = []

end Listener

/-- The listening socket. -/
def listener (C : Type) : Machine (Listener C) (Listener.Label C) where
  start := Listener.init
  step := Listener.step

namespace Listener

variable {C : Type}

/-- `m` connections wait for which there is neither a report nor an `AcceptConn`. -/
def Deficit (s : Listener C) (m : ℕ) : Prop :=
  s.backlog.length = s.events + s.reported.toNat + m

/-- A step forgets one connection, unless it meets the condition. -/
theorem Deficit.step {s t : Listener C} {m : ℕ} (h : s.Deficit m) {l : Label C}
    (hstep : s.step l = some t) :
    (s.Single l ∧ t.Deficit m) ∨ (¬ s.Single l ∧ t.Deficit (m + 1)) := by
  unfold Deficit at *
  cases l with
  -- a connection that arrives is reported, unless a report is on its way already
  | arrive c =>
    obtain rfl := Option.some.inj hstep
    simp only [Single, List.length_append, List.length_singleton, Bool.toNat_true]
    cases hreported : s.reported with
    | false =>
      rw [hreported, Bool.toNat_false] at h
      exact .inl ⟨rfl, by omega⟩
    | true =>
      rw [hreported, Bool.toNat_true] at h
      exact .inr ⟨nofun, by omega⟩
  -- a report becomes an `AcceptConn`
  | report =>
    obtain ⟨hreported, ht⟩ := Option.ite_none_right_eq_some.mp hstep
    obtain rfl := Option.some.inj ht
    rw [hreported, Bool.toNat_true] at h
    simp only [Bool.toNat_false]
    exact .inl ⟨trivial, by omega⟩
  | process accepts =>
    obtain ⟨hpos, ht⟩ := Option.ite_none_right_eq_some.mp hstep
    -- there is a connection for every `AcceptConn`
    obtain ⟨c, rest, hbacklog⟩ : ∃ c rest, s.backlog = c :: rest :=
      List.exists_cons_of_length_pos (by omega)
    rw [hbacklog, List.length_cons] at h
    rw [hbacklog] at ht
    cases accepts with
    | true =>
      obtain rfl := Option.some.inj ht
      -- it accepts one connection, the one it stands for
      refine .inl ⟨.inl rfl, ?_⟩
      simp only
      omega
    | false =>
      obtain rfl := Option.some.inj ht
      -- it fails, and its connection stays in the backlog
      refine .inr ⟨by simp [Single, hbacklog], ?_⟩
      simp only [List.length_cons]
      omega

/-- The connections forgotten in a run are those of the steps that miss the condition. -/
theorem deficit_of_run {ls : List (Label C)} {s t : Listener C} {m : ℕ} (h : s.Deficit m)
    (hrun : (listener C).run s ls = some t) :
    ∃ m', t.Deficit m' ∧ m ≤ m' ∧ (m' = m ↔ (listener C).Along Single s ls) := by
  induction ls generalizing s m with
  | nil =>
    obtain rfl := Option.some.inj hrun
    exact ⟨m, h, Nat.le_refl m, iff_of_true rfl trivial⟩
  | cons l ls ih =>
    obtain ⟨u, hu, hrest⟩ := Option.bind_eq_some_iff.mp hrun
    have halong : (listener C).Along Single s (l :: ls) ↔
        s.Single l ∧ (listener C).Along Single u ls := by
      simp only [Machine.Along, hu]
    rcases h.step hu with ⟨hsingle, hnext⟩ | ⟨hsingle, hnext⟩
    · obtain ⟨m', ht, hle, hiff⟩ := ih hnext hrest
      refine ⟨m', ht, hle, ?_⟩
      rw [halong, hiff, and_iff_right hsingle]
    · obtain ⟨m', ht, hle, -⟩ := ih hnext hrest
      refine ⟨m', ht, by omega, ?_⟩
      rw [halong]
      exact iff_of_false (by omega) fun h => hsingle h.1

/-- **No waiting connection is forgotten** exactly when no two arrivals share a report and no
`accept` fails while a connection waits. -/
theorem backlog_empty_iff {ls : List (Label C)} {s : Listener C}
    (hrun : (listener C).run (listener C).start ls = some s) (hquiet : s.Quiet) :
    s.backlog = [] ↔ (listener C).Along Single (listener C).start ls := by
  have hstart : (listener C).start.Deficit 0 := rfl
  obtain ⟨m, hs, -, hiff⟩ := deficit_of_run hstart hrun
  obtain ⟨hreported, hevents⟩ := hquiet
  rw [Deficit, hreported, hevents, Bool.toNat_false, Nat.zero_add] at hs
  rw [← hiff, ← hs, List.length_eq_zero_iff]

/-- Two connections, each with its own report. -/
theorem backlog_empty_iff_sample :
    ∃ s, (listener ℕ).run (listener ℕ).start
        [.arrive 1, .report, .arrive 2, .process true, .report, .process true] = some s ∧
      s.accepted = [1, 2] ∧ s.backlog = [] := by
  have hrun : (listener ℕ).run (listener ℕ).start
      [.arrive 1, .report, .arrive 2, .process true, .report, .process true] =
        some ⟨[], false, 0, [1, 2]⟩ := rfl
  refine ⟨_, hrun, rfl, (backlog_empty_iff hrun ⟨rfl, rfl⟩).mpr ?_⟩
  exact ⟨rfl, trivial, rfl, .inl rfl, trivial, .inl rfl, trivial⟩

/-- Two connections that arrive before the report is fetched: the second waits for ever. -/
theorem forgotten_connection :
    ¬ ∀ s, (listener ℕ).Reachable Machine.anyStep s → s.Quiet → s.backlog = [] := by
  intro h
  have hrun : (listener ℕ).run (listener ℕ).start
      [.arrive 1, .arrive 2, .report, .process true] = some ⟨[2], false, 0, [1]⟩ := rfl
  have hnil := h _ (Machine.reachable_of_run .start hrun (Machine.along_anyStep _ _)) ⟨rfl, rfl⟩
  cases hnil

end Listener

end Cherokee

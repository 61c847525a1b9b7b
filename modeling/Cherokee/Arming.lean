import Cherokee.Lib.Simulation
import Cherokee.Overlap

/-!
# One handler for each descriptor, until it is armed

A client's descriptor is registered one-shot: epoll reports it once, and not again before
`modifyWaitFd` arms it. So the handler that is made for a report has the descriptor to itself, in
the queue and with a worker, up to the step in which it arms the descriptor or closes it. Behind
that step the handler goes on, and it may be overtaken: `Crew.disturbed` is such a run.

`armedCrew` is `crew` with a record of the handlers that have come to this step, which nothing in
the system looks at (`ArmedCrew.run_crew`).

* `ArmedCrew.Sole`: the handlers that have not come to it are for different descriptors, each of
  them open and silent.
* `ArmedCrew.sole_of_reachable`: this holds as long as no handler closes the descriptor of another
  one that has not come to it, and it fails behind any step in which one does.
-/

namespace Cherokee

namespace Op

/-- The step arms the descriptor of its handler, or may decide on a step that does. -/
def leads : Op → Bool
  | .modifyWaitFd _ => true
  | .responseComplete => true
  | .responseError => true
  | _ => false

/-- The step arms the descriptor of its handler, or closes it. -/
def releases : Op → Bool
  | .modifyWaitFd _ => true
  | .close => true
  | _ => false

/-- The step belongs to the end of `HandleSend::process`, behind the two `modifyWaitFd`. -/
def late : Op → Bool
  | .bodyType => true
  | .fileMsgFd => true
  | .closeFile _ => true
  | _ => false

/-- The step decides on no other, and has nothing to do with the descriptor being armed or
closed. -/
def calm : Op → Bool
  | .setBodyFileName _ => true
  | .setStatus _ => true
  | .eraseRequest => true
  | .eraseResponse => true
  | .deleteWaitFd => true
  | _ => false

/-- The descriptor that a step of a handler for `fd` closes. -/
def shuts (fd : ℤ) : Op → Option ℤ
  | .close => some fd
  | .closeFile d => some d
  | _ => none

variable {op : Op} (fresh : Uninit) (e : Entries)

/-- A calm step decides on nothing. -/
theorem run_of_calm (h : op.calm = true) : (op.run fresh e).2 = [] := by
  cases op <;> first | rfl | cases h

/-- A step that arms or closes the descriptor decides on nothing. -/
theorem run_of_releases (h : op.releases = true) : (op.run fresh e).2 = [] := by
  cases op <;> first | rfl | cases h

/-- A step that arms or closes the descriptor is none of the calm ones, so that a handler which has
only calm steps left has done so already. -/
theorem not_calm_of_releases (h : op.releases = true) : op.calm = false := by
  cases op <;> first | rfl | cases h

/-- What closes a descriptor closes the one of the handler, or comes late. -/
theorem releases_or_late_of_shuts {fd d : ℤ} (h : op.shuts fd = some d) :
    op.releases = true ∨ op.late = true := by
  cases op with
  | close => exact .inl rfl
  | closeFile _ => exact .inr rfl
  | _ => cases h

/-- A step that arms or closes the descriptor does the one or the other. -/
theorem leads_or_shuts_of_releases (h : op.releases = true) (fd : ℤ) :
    op.leads = true ∨ op.shuts fd = some fd := by
  cases op with
  | modifyWaitFd _ => exact .inl rfl
  | close => exact .inr rfl
  | _ => cases h

/-- A step that cannot lead to arming the descriptor decides on none that can. -/
theorem run_of_not_leads (h : op.leads = false) : ∀ o ∈ (op.run fresh e).2, o.leads = false := by
  cases op with
  | modifyWaitFd _ => cases h
  | responseComplete => cases h
  | responseError => cases h
  -- the tests of `HandleRecv` decide on erasing and on closing
  | requestComplete => dsimp only [run]; split <;> decide
  | requestError => dsimp only [run]; split <;> decide
  | bodyType => dsimp only [run]; split <;> decide
  | fileMsgFd => exact List.forall_mem_singleton.mpr rfl
  | _ => exact List.forall_mem_nil _

end Op

/-! ### The rest of a way out -/

/-- Behind a step that is not calm there is none that leads to arming the descriptor: a handler arms
it once, and not when it has closed it. -/
def ArmsOnce (ops : List Op) : Prop := ops.Pairwise fun o o' => o.calm = true ∨ o'.leads = false

/-- The steps of the end of `HandleSend::process` come behind one that arms the descriptor. -/
def ArmsFirst : List Op → Prop
  | [] => True
  | o :: os => o.releases = true ∨ o.late = false ∧ ArmsFirst os

instance (ops : List Op) : Decidable (ArmsOnce ops) :=
  inferInstanceAs (Decidable (ops.Pairwise fun o o' => o.calm = true ∨ o'.leads = false))

instance decidableArmsFirst : (ops : List Op) → Decidable (ArmsFirst ops)
  | [] => .isTrue trivial
  | o :: os =>
    have : Decidable (ArmsFirst os) := decidableArmsFirst os
    inferInstanceAs (Decidable (o.releases = true ∨ o.late = false ∧ ArmsFirst os))

/-- Every way out arms the descriptor once at most, and not when it has closed it. -/
theorem Exit.armsOnce (exit : Exit) : ArmsOnce exit.ops := by
  cases exit <;> simp [ArmsOnce, ops, Op.calm, Op.leads]

/-- No way out closes a file before it has armed or closed the descriptor. -/
theorem Exit.armsFirst (exit : Exit) : ArmsFirst exit.ops := by
  cases exit <;> simp [ArmsFirst, ops, Op.releases, Op.late]

/-- What a step decides on arms the descriptor once at most. -/
theorem Op.armsOnce_run (op : Op) (fresh : Uninit) (e : Entries) : ArmsOnce (op.run fresh e).2 := by
  cases op with
  | requestComplete => dsimp only [run]; split <;> decide
  | requestError => dsimp only [run]; split <;> decide
  | responseComplete => dsimp only [run]; split <;> decide
  | responseError => dsimp only [run]; split <;> decide
  | bodyType => dsimp only [run]; split <;> decide
  | fileMsgFd => exact List.pairwise_singleton _ _
  | _ => exact List.Pairwise.nil

/-- What a step decides on closes no file before it has armed or closed the descriptor, as long as
the step is not itself one of the end. -/
theorem Op.armsFirst_run {op : Op} (hlate : op.late = false) (fresh : Uninit) (e : Entries) :
    ArmsFirst (op.run fresh e).2 := by
  cases op with
  | requestComplete => dsimp only [run]; split <;> decide
  | requestError => dsimp only [run]; split <;> decide
  | responseComplete => dsimp only [run]; split <;> decide
  | responseError => dsimp only [run]; split <;> decide
  | bodyType => cases hlate
  | fileMsgFd => cases hlate
  | closeFile _ => cases hlate
  | _ => exact trivial

/-- One part of a way out behind another. -/
theorem armsFirst_append {ops more : List Op} (h : ArmsFirst ops) (hmore : ArmsFirst more) :
    ArmsFirst (ops ++ more) := by
  induction ops with
  | nil => exact hmore
  | cons o os ih => exact h.imp id fun ⟨hlate, hos⟩ => ⟨hlate, ih hos⟩

/-- What is left of a way out behind its first step. Either this step decides on nothing, or nothing
of what was to come behind it arms the descriptor. -/
theorem armsOnce_run_append {op : Op} {ops : List Op} (h : ArmsOnce (op :: ops)) (fresh : Uninit)
    (e : Entries) : ArmsOnce ((op.run fresh e).2 ++ ops) := by
  obtain ⟨hfirst, hops⟩ := List.pairwise_cons.mp h
  refine List.pairwise_append.mpr ⟨op.armsOnce_run fresh e, hops, fun o ho o' ho' => ?_⟩
  rcases hfirst o' ho' with hcalm | hleads
  · rw [Op.run_of_calm fresh e hcalm] at ho
    cases ho
  · exact .inr hleads

/-- Behind a step that arms or closes the descriptor nothing arms it. -/
theorem not_leads_of_releases {op : Op} {ops : List Op} (h : ArmsOnce (op :: ops))
    (hop : op.releases = true) : ∀ o ∈ ops, o.leads = false := by
  intro o ho
  refine ((List.pairwise_cons.mp h).1 o ho).resolve_left ?_
  rw [Op.not_calm_of_releases hop]
  exact Bool.false_ne_true

/-! ### The system -/

/-- The state of `crew`, and which handlers have come to arm or to close their descriptors. The
record stands beside the state, and no step looks at it. -/
structure ArmedCrew where
  crew : Crew
  /-- The handler has armed its descriptor, or closed it. -/
  released : ℕ → Bool

namespace ArmedCrew

/-- The next step of the way out of the handler `n`, and its descriptor. -/
def upcoming (s : Crew) (n : ℕ) : Option (ℤ × Op) :=
  match s.workers n with
  | some ⟨e, .leaving (op :: _)⟩ => some (e.fd, op)
  | _ => none

/-- The record behind a step: the handler that makes it is entered when the step arms or closes its
descriptor. -/
def record (s : ArmedCrew) : Crew.Label → ℕ → Bool
  | .next n _ =>
    if (upcoming s.crew n).any fun p => p.2.releases then Function.update s.released n true
    else s.released
  | _ => s.released

/-- One step: the one of `crew`. The record follows. -/
def step (s : ArmedCrew) (l : Crew.Label) : Option ArmedCrew :=
  (s.crew.step l).map fun crew => ⟨crew, s.record l⟩

/-- The handler `n` has been made and has its descriptor still to itself: it is queued, or with a
worker that has not armed or closed the descriptor. -/
def Live (s : ArmedCrew) (n : ℕ) (e : Event) : Prop :=
  (n, e) ∈ s.crew.workQueue ∨
    s.released n = false ∧ ∃ todo, s.crew.workers n = some ⟨e, todo⟩

/-- The descriptors of the handlers that have not armed or closed them. -/
structure Sole (s : ArmedCrew) : Prop where
  /-- No two of them are for one descriptor. -/
  single : ∀ n e m e', s.Live n e → s.Live m e' → e.fd = e'.fd → n = m
  opened : ∀ n e, s.Live n e → s.crew.opened e.fd = true
  /-- epoll does not report the descriptor. -/
  silent : ∀ n e, s.Live n e → ∀ i ∈ s.crew.interest e.fd, i.armed = false

/-- No handler but `n` is for `d`, of those that have not armed or closed their descriptors. -/
def FreeBut (s : ArmedCrew) (n : ℕ) (d : ℤ) : Prop :=
  (∀ t ∈ s.crew.workQueue, t.2.fd = d → t.1 = n) ∧
    ∀ m < s.crew.made, s.released m = false → ∀ w ∈ s.crew.workers m, w.event.fd = d → m = n

/-- A handler closes no descriptor that is another handler's, neither as its own nor as the one of a
file. -/
def Spares (s : ArmedCrew) : Crew.Label → Prop
  | .next n _ => ∀ p ∈ upcoming s.crew n, ∀ d ∈ p.2.shuts p.1, s.FreeBut n d
  | _ => True

instance (s : ArmedCrew) (n : ℕ) (d : ℤ) : Decidable (s.FreeBut n d) :=
  inferInstanceAs (Decidable (_ ∧ _))

instance (s : ArmedCrew) : (l : Crew.Label) → Decidable (s.Spares l)
  | .next n _ => inferInstanceAs
      (Decidable (∀ p ∈ upcoming s.crew n, ∀ d ∈ p.2.shuts p.1, s.FreeBut n d))
  | .accept _ => .isTrue trivial
  | .report _ _ _ => .isTrue trivial
  | .take => .isTrue trivial
  | .access _ _ _ => .isTrue trivial

end ArmedCrew

/-- `crew`, with the record. -/
def armedCrew : Machine ArmedCrew Crew.Label where
  start := ⟨Crew.init, fun _ => false⟩
  step := ArmedCrew.step

namespace Crew

/-! ### What a step does to a handler -/

/-- epoll reports a descriptor only when it is armed. -/
theorem armed_of_report {s t : Crew} {fd : ℤ} {readable writable : Bool}
    (h : s.step (.report fd readable writable) = some t) :
    ∃ out, s.interest fd = some ⟨true, out⟩ := by
  unfold step at h
  simp only at h
  split at h
  · next out hout => exact ⟨out, hout⟩
  · cases h

/-- An access before the way out: the handler goes on, or comes to one of the ways out. -/
theorem access_eq_some {s t : Crew} {n : ℕ} {f : Entries → Entries} {exit : Option Exit}
    (h : s.step (.access n f exit) = some t) : ∃ e o, s.workers n = some ⟨e, .body⟩ ∧
      (o = some ⟨e, .body⟩ ∨ ∃ x : Exit, o = Worker.leave e x.ops) ∧
      t.workers = Function.update s.workers n o ∧ t.workQueue = s.workQueue ∧ t.made = s.made ∧
      t.opened = s.opened ∧ t.interest = s.interest := by
  unfold step at h
  simp only at h
  split at h
  · next e hworker =>
    rw [Option.ite_none_right_eq_some] at h
    obtain rfl := Option.some.inj h.2
    refine ⟨e, _, hworker, ?_, rfl, rfl, rfl, rfl, rfl⟩
    cases exit with
    | none => exact .inl rfl
    | some x => exact .inr ⟨x, rfl⟩
  · cases h

/-- A step of a way out. -/
theorem next_eq_some {s t : Crew} {n : ℕ} {fresh : Uninit} (h : s.step (.next n fresh) = some t) :
    ∃ e op ops more, s.workers n = some ⟨e, .leaving (op :: ops)⟩ ∧
      more = (op.run fresh (s.entries e.fd)).2 ∧
      t.workers = Function.update s.workers n (Worker.leave e (more ++ ops)) ∧
      t.workQueue = s.workQueue ∧ t.made = s.made ∧
      t.opened = (s.setDescriptors e.fd op).opened ∧
      t.interest = (s.setDescriptors e.fd op).interest := by
  unfold step at h
  simp only at h
  split at h
  · next e op ops hworker =>
    obtain rfl := Option.some.inj h
    refine ⟨e, op, ops, _, hworker, rfl, ?_, ?_, ?_, ?_, ?_⟩ <;> cases op <;> rfl
  · cases h

/-- The descriptors that are open behind a step. -/
theorem opened_setDescriptors (s : Crew) (fd : ℤ) (op : Op) (d : ℤ) :
    (s.setDescriptors fd op).opened d = if op.shuts fd = some d then false else s.opened d := by
  cases op with
  | close => simp [setDescriptors, Op.shuts, Function.update_apply, eq_comm]
  | closeFile d' => simp [setDescriptors, Op.shuts, Function.update_apply, eq_comm]
  | _ => exact (if_neg (Option.some_ne_none d).symm).symm

/-- What epoll holds of the descriptors behind a step. -/
theorem interest_setDescriptors (s : Crew) (fd : ℤ) (op : Op) (d : ℤ) :
    (s.setDescriptors fd op).interest d =
      if op.shuts fd = some d then none
      else if d = fd then op.register (s.interest fd) else s.interest d := by
  cases op with
  | close =>
    by_cases hd : d = fd
    · simp [setDescriptors, Op.shuts, hd]
    · simp [setDescriptors, Op.shuts, hd, Ne.symm hd]
  | closeFile d' =>
    have hsame : (if d = fd then s.interest fd else s.interest d) = s.interest d := by
      split
      · next hd => rw [hd]
      · rfl
    change Function.update s.interest d' none d =
      if some d' = some d then none else if d = fd then s.interest fd else s.interest d
    rw [hsame]
    simp [Function.update_apply, eq_comm]
  | _ => exact (Function.update_apply ..).trans (if_neg (Option.some_ne_none d).symm).symm

/-- A step that does not arm the descriptor registers nothing new. -/
theorem mem_register {op : Op} (h : op.releases = false) {o : Option Interest} {i : Interest}
    (hi : i ∈ op.register o) : i ∈ o := by
  cases op with
  | modifyWaitFd _ => cases h
  | deleteWaitFd => cases hi
  | close => cases hi
  | _ => exact hi

/-- No step of a handler registers a descriptor. -/
theorem register_ne_none {op : Op} {o : Option Interest} (h : op.register o ≠ none) : o ≠ none := by
  rintro rfl
  cases op <;> exact h rfl

end Crew

namespace ArmedCrew

variable {s t : ArmedCrew}

/-! ### The record -/

/-- A step is one of `crew`, with the record behind it. -/
theorem step_eq_some {l : Crew.Label} (h : s.step l = some t) :
    s.crew.step l = some t.crew ∧ t.released = s.record l := by
  obtain ⟨crew, hcrew, rfl⟩ := Option.map_eq_some_iff.mp h
  exact ⟨hcrew, rfl⟩

/-- **The record changes nothing**: the runs are those of `crew`. -/
theorem run_crew (s : ArmedCrew) (ls : List Crew.Label) :
    (armedCrew.run s ls).map crew = Cherokee.crew.run s.crew ls := by
  induction ls generalizing s with
  | nil => rfl
  | cons l ls ih =>
    change ((s.step l).bind fun t => armedCrew.run t ls).map crew =
      (s.crew.step l).bind fun t => Cherokee.crew.run t ls
    -- both take the step or neither does, as the record is not looked at
    rw [step]
    cases s.crew.step l with
    | none => rfl
    | some u => exact ih ⟨u, s.record l⟩

/-- What the record says of a step of a way out. -/
theorem record_next {n : ℕ} {fresh : Uninit} {e : Event} {op : Op} {ops : List Op}
    (hworker : s.crew.workers n = some ⟨e, .leaving (op :: ops)⟩) :
    s.record (.next n fresh) =
      if op.releases then Function.update s.released n true else s.released := by
  have hupcoming : upcoming s.crew n = some (e.fd, op) := by
    unfold upcoming
    rw [hworker]
  change (if (upcoming s.crew n).any (fun p => p.2.releases) then
    Function.update s.released n true else s.released) = _
  rw [hupcoming]
  rfl

/-! ### In every run -/

/-- The handlers, what is left of their ways out, and what the record says of them. It is on what is
left that the invariant on the descriptors rests: a handler that has armed its descriptor does not
arm it again, and one that has not closes no file. -/
structure Sound (s : ArmedCrew) : Prop where
  numbered : s.crew.Numbered
  registered : ∀ d, s.crew.interest d ≠ none → s.crew.opened d = true
  /-- Nothing is recorded of a handler that has not been made, or that is queued. -/
  unmade : ∀ n, s.crew.made ≤ n → s.released n = false
  queued : ∀ q ∈ s.crew.workQueue, s.released q.1 = false
  body : ∀ n e, s.crew.workers n = some ⟨e, .body⟩ → s.released n = false
  once : ∀ n e ops, s.crew.workers n = some ⟨e, .leaving ops⟩ → ArmsOnce ops
  first : ∀ n e ops, s.crew.workers n = some ⟨e, .leaving ops⟩ → s.released n = false →
    ArmsFirst ops
  spent : ∀ n e ops, s.crew.workers n = some ⟨e, .leaving ops⟩ → s.released n = true →
    ∀ o ∈ ops, o.leads = false

/-- At the start there is no handler. -/
theorem sound_init : Sound armedCrew.start where
  numbered := Crew.numbered_init
  registered := nofun
  unmade _ _ := rfl
  queued := nofun
  body := nofun
  once := nofun
  first := nofun
  spent := nofun

/-- A step in which no worker does anything. -/
theorem Sound.frame (h : s.Sound) (hnumbered : t.crew.Numbered)
    (hregistered : ∀ d, t.crew.interest d ≠ none → t.crew.opened d = true)
    (hmade : s.crew.made ≤ t.crew.made) (hqueue : ∀ q ∈ t.crew.workQueue, t.released q.1 = false)
    (hworkers : t.crew.workers = s.crew.workers) (hreleased : t.released = s.released) :
    t.Sound where
  numbered := hnumbered
  registered := hregistered
  unmade n hn := by
    rw [hreleased]
    exact h.unmade n (hmade.trans hn)
  queued := hqueue
  body := by
    rw [hworkers, hreleased]
    exact h.body
  once := by
    rw [hworkers]
    exact h.once
  first := by
    rw [hworkers, hreleased]
    exact h.first
  spent := by
    rw [hworkers, hreleased]
    exact h.spent

/-- An accept registers the descriptor it opens, and no worker does anything. -/
theorem Sound.accept (h : s.Sound) {fd : ℤ} (hstep : s.step (.accept fd) = some t) : t.Sound := by
  obtain ⟨hcrew, hrecord⟩ := step_eq_some hstep
  obtain ⟨-, ht⟩ := Crew.accept_eq_some.mp hcrew
  have hn := h.numbered
  refine h.frame (ht ▸ ⟨hn.workers, hn.queued, hn.nodup⟩) ?_ (ht ▸ le_rfl) ?_ (ht ▸ rfl) hrecord
  · rw [ht]
    intro d hd
    by_cases hdf : d = fd
    · rw [hdf]
      exact Function.update_self _ _ _
    · exact (Function.update_of_ne hdf _ _).trans
        (h.registered d fun hnone => hd ((Function.update_of_ne hdf _ _).trans hnone))
  · rw [ht, hrecord]
    exact h.queued

/-- A report makes a handler with a number of which nothing has been recorded. -/
theorem Sound.report (h : s.Sound) {fd : ℤ} {readable writable : Bool}
    (hstep : s.step (.report fd readable writable) = some t) : t.Sound := by
  obtain ⟨hcrew, hrecord⟩ := step_eq_some hstep
  obtain ⟨out, harmed⟩ := Crew.armed_of_report hcrew
  have ht := Crew.report_eq_some hcrew
  refine h.frame (h.numbered.report hcrew) ?_ (ht ▸ Nat.le_add_right _ _) ?_ (ht ▸ rfl) hrecord
  · rw [ht]
    intro d hd
    refine h.registered d fun hnone => hd ?_
    refine (Function.update_of_ne ?_ _ _).trans hnone
    rintro rfl
    cases harmed.symm.trans hnone
  · rw [ht, hrecord]
    intro q hq
    rcases List.mem_append.mp hq with hq | hq
    · exact h.queued q hq
    · obtain ⟨e, -, rfl⟩ := List.mem_map.mp hq
      exact h.unmade _ le_rfl

/-- The handler that is taken has its whole body before it, and nothing is recorded of it. -/
theorem Sound.take (h : s.Sound) (hstep : s.step .take = some t) : t.Sound := by
  obtain ⟨hcrew, hrecord⟩ := step_eq_some hstep
  have hnumbered := h.numbered.take hcrew
  obtain ⟨n, e, rest, hqueue, ht⟩ := Crew.take_eq_some hcrew
  have hreleased : s.released n = false := h.queued (n, e) (hqueue ▸ List.mem_cons_self)
  -- the handler that is taken has its whole body before it
  have hold {m : ℕ} {w : Worker} (hm : t.crew.workers m = some w) :
      m = n ∧ w = ⟨e, .body⟩ ∨ s.crew.workers m = some w := by
    rw [ht] at hm
    simp only at hm
    by_cases hmn : m = n
    · subst hmn
      rw [Function.update_self] at hm
      exact .inl ⟨rfl, (Option.some.inj hm).symm⟩
    · rw [Function.update_of_ne hmn] at hm
      exact .inr hm
  have hrecord : t.released = s.released := hrecord
  refine ⟨hnumbered, ht ▸ h.registered, fun m hm => ?_, fun q hq => ?_, fun m e' hm => ?_,
    fun m e' ops hm => ?_, fun m e' ops hm => ?_, fun m e' ops hm => ?_⟩
  · rw [hrecord]
    exact h.unmade m (by rwa [ht] at hm)
  · rw [hrecord]
    rw [ht] at hq
    exact h.queued q (hqueue ▸ List.mem_cons_of_mem _ hq)
  · rw [hrecord]
    rcases hold hm with ⟨rfl, -⟩ | hm
    · exact hreleased
    · exact h.body m e' hm
  · rcases hold hm with ⟨-, hw⟩ | hm
    · cases hw
    · exact h.once m e' ops hm
  · rw [hrecord]
    rcases hold hm with ⟨-, hw⟩ | hm
    · cases hw
    · exact h.first m e' ops hm
  · rw [hrecord]
    rcases hold hm with ⟨-, hw⟩ | hm
    · cases hw
    · exact h.spent m e' ops hm

/-- A step of the handler `n`, whose record behind it is `r`, and of which `o` is left. -/
theorem Sound.works (h : s.Sound) {n : ℕ} {w : Worker} {o : Option Worker} {r : Bool}
    (hnumbered : t.crew.Numbered)
    (hregistered : ∀ d, t.crew.interest d ≠ none → t.crew.opened d = true)
    (hworker : s.crew.workers n = some w)
    (hworkers : t.crew.workers = Function.update s.crew.workers n o)
    (hqueue : t.crew.workQueue = s.crew.workQueue) (hmade : t.crew.made = s.crew.made)
    (hreleased : t.released = Function.update s.released n r)
    (hbody : ∀ e, o = some ⟨e, .body⟩ → r = false)
    (hleaving : ∀ e ops, o = some ⟨e, .leaving ops⟩ → ArmsOnce ops ∧ (r = false → ArmsFirst ops) ∧
      (r = true → ∀ op ∈ ops, op.leads = false)) : t.Sound := by
  have hn := h.numbered.workers n w hworker
  have hrecord {m : ℕ} (hm : m ≠ n) : t.released m = s.released m := by
    rw [hreleased, Function.update_of_ne hm]
  have hself : t.released n = r := by rw [hreleased, Function.update_self]
  -- the handlers behind the step: `n`, of which `o` is left, and the others
  have hold {m : ℕ} {w' : Worker} (hm : t.crew.workers m = some w') :
      m = n ∧ o = some w' ∨ m ≠ n ∧ s.crew.workers m = some w' := by
    rw [hworkers] at hm
    by_cases hmn : m = n
    · subst hmn
      rw [Function.update_self] at hm
      exact .inl ⟨rfl, hm⟩
    · rw [Function.update_of_ne hmn] at hm
      exact .inr ⟨hmn, hm⟩
  refine ⟨hnumbered, hregistered, fun m hm => ?_, fun q hq => ?_, fun m e' hm => ?_,
    fun m e' ops hm => ?_, fun m e' ops hm hr => ?_, fun m e' ops hm hr => ?_⟩
  · rw [hmade] at hm
    rw [hrecord (Nat.ne_of_gt (hn.trans_le hm))]
    exact h.unmade m hm
  · rw [hqueue] at hq
    -- the handler `n` is with a worker, and so it is not queued
    have hqn : q.1 ≠ n := fun hqn => by
      cases (h.numbered.queued q hq).2.symm.trans (hqn ▸ hworker)
    rw [hrecord hqn]
    exact h.queued q hq
  · rcases hold hm with ⟨rfl, ho⟩ | ⟨hne, hm⟩
    · exact hself.trans (hbody e' ho)
    · exact (hrecord hne).trans (h.body m e' hm)
  · rcases hold hm with ⟨-, ho⟩ | ⟨-, hm⟩
    · exact (hleaving e' ops ho).1
    · exact h.once m e' ops hm
  · rcases hold hm with ⟨rfl, ho⟩ | ⟨hne, hm⟩
    · exact (hleaving e' ops ho).2.1 (hself.symm.trans hr)
    · exact h.first m e' ops hm ((hrecord hne).symm.trans hr)
  · rcases hold hm with ⟨rfl, ho⟩ | ⟨hne, hm⟩
    · exact (hleaving e' ops ho).2.2 (hself.symm.trans hr)
    · exact h.spent m e' ops hm ((hrecord hne).symm.trans hr)

/-- An access arms nothing and closes nothing: the handler is still before its way out, or has come
to it. -/
theorem Sound.access (h : s.Sound) {n : ℕ} {f : Entries → Entries} {exit : Option Exit}
    (hstep : s.step (.access n f exit) = some t) : t.Sound := by
  obtain ⟨hcrew, hrecord⟩ := step_eq_some hstep
  obtain ⟨w, o, hworks⟩ := Crew.works_of_access hcrew
  have hnumbered := h.numbered.works hworks
  obtain ⟨e, o, hworker, ho, hworkers, hqueue, hmade, hopened, hinterest⟩ :=
    Crew.access_eq_some hcrew
  have hreleased := h.body n e hworker
  refine h.works (r := false) hnumbered ?_ hworker hworkers hqueue hmade ?_ (fun _ _ => rfl) ?_
  · rw [hopened, hinterest]
    exact h.registered
  · rw [← hreleased, Function.update_eq_self]
    exact hrecord
  · rintro e' ops rfl
    rcases ho with ho | ⟨x, ho⟩
    · cases ho
    · -- it has come to a way out
      cases Crew.mem_leave ho.symm
      exact ⟨x.armsOnce, fun _ => x.armsFirst, nofun⟩

/-- A step of a way out. If it arms or closes the descriptor it decides on nothing, and nothing that
is left arms it again; if it does not, what it decides on comes in the right order. -/
theorem Sound.next (h : s.Sound) {n : ℕ} {fresh : Uninit}
    (hstep : s.step (.next n fresh) = some t) : t.Sound := by
  obtain ⟨hcrew, hrecord⟩ := step_eq_some hstep
  obtain ⟨w, o, touched, hworks⟩ := Crew.works_of_next hcrew
  have hnumbered := h.numbered.works hworks
  obtain ⟨e, op, ops, more, hworker, hmore, hworkers, hqueue, hmade, hopened, hinterest⟩ :=
    Crew.next_eq_some hcrew
  have honce := h.once n e _ hworker
  rw [record_next hworker] at hrecord
  refine h.works (r := op.releases || s.released n) hnumbered ?_ hworker hworkers hqueue hmade ?_
    (fun e' ho => ?_) fun e' ops' ho => ?_
  -- what is registered behind the step was registered before, and has not been closed
  · rw [hopened, hinterest]
    intro d hd
    rw [Crew.interest_setDescriptors] at hd
    rw [Crew.opened_setDescriptors]
    split_ifs at hd ⊢ with hshuts hdf
    · exact absurd rfl hd
    · exact h.registered d (hdf ▸ Crew.register_ne_none hd)
    · exact h.registered d hd
  · rw [hrecord]
    cases op.releases with
    | true => rfl
    | false => exact (Function.update_eq_self n s.released).symm
  · cases Crew.mem_leave ho
  · cases Crew.mem_leave ho
    rw [hmore]
    refine ⟨armsOnce_run_append honce fresh _, fun hr => ?_, fun hr o ho => ?_⟩
    -- it has still to arm the descriptor, so the step is none of the end
    · obtain ⟨hop, hr⟩ := Bool.or_eq_false_iff.mp hr
      obtain ⟨hlate, hops⟩ := (h.first n e _ hworker hr).resolve_left (Bool.eq_false_iff.mp hop)
      exact armsFirst_append (Op.armsFirst_run hlate fresh _) hops
    -- this step arms or closes it, or one before has
    · rcases Bool.or_eq_true_iff.mp hr with hop | hr
      · rw [Op.run_of_releases fresh _ hop] at ho
        exact not_leads_of_releases honce hop o ho
      · have hspent := h.spent n e _ hworker hr
        rcases List.mem_append.mp ho with ho | ho
        · exact Op.run_of_not_leads fresh _ (hspent op List.mem_cons_self) o ho
        · exact hspent o (List.mem_cons_of_mem _ ho)

/-- Every step keeps the handlers sound. -/
theorem Sound.step (h : s.Sound) {l : Crew.Label} (hstep : s.step l = some t) : t.Sound := by
  cases l with
  | accept fd => exact h.accept hstep
  | report fd readable writable => exact h.report hstep
  | take => exact h.take hstep
  | access n f exit => exact h.access hstep
  | next n fresh => exact h.next hstep

/-- The handlers are sound in every run, whatever they close. -/
theorem sound_of_reachable {G : ArmedCrew → Crew.Label → Prop} (h : armedCrew.Reachable G s) :
    s.Sound :=
  h.invariant sound_init fun _ _ _ _ hs _ hstep => hs.step hstep

/-! ### The handlers that have their descriptors to themselves -/

/-- At the start there is no handler, and so none that has a descriptor to itself. -/
theorem sole_init : Sole armedCrew.start := by
  have hnone (n : ℕ) (e : Event) : ¬ Live armedCrew.start n e := by
    rintro (hqueue | ⟨-, todo, hworker⟩)
    · cases hqueue
    · cases hworker
  exact ⟨fun n e _ _ hn => absurd hn (hnone n e), fun n e hn => absurd hn (hnone n e),
    fun n e hn => absurd hn (hnone n e)⟩

/-- No handler becomes one of them, and their descriptors are left alone. -/
theorem Sole.shrinks (h : s.Sole) (hlive : ∀ n e, t.Live n e → s.Live n e)
    (hopened : ∀ n e, t.Live n e → t.crew.opened e.fd = s.crew.opened e.fd)
    (hsilent : ∀ n e, t.Live n e → ∀ i ∈ t.crew.interest e.fd, i ∈ s.crew.interest e.fd) :
    t.Sole where
  single n e m e' hn hm := h.single n e m e' (hlive n e hn) (hlive m e' hm)
  opened n e hn := (hopened n e hn).trans (h.opened n e (hlive n e hn))
  silent n e hn i hi := h.silent n e (hlive n e hn) i (hsilent n e hn i hi)

/-- An accepted descriptor was free, and so none of theirs. -/
theorem Sole.accept (h : s.Sole) {fd : ℤ} (hstep : s.step (.accept fd) = some t) : t.Sole := by
  obtain ⟨hcrew, hrecord⟩ := step_eq_some hstep
  obtain ⟨hfree, ht⟩ := Crew.accept_eq_some.mp hcrew
  have hlive (n : ℕ) (e : Event) (hn : t.Live n e) : s.Live n e := by
    unfold Live at hn
    rw [ht, hrecord] at hn
    exact hn
  have hne (n : ℕ) (e : Event) (hn : t.Live n e) : e.fd ≠ fd := by
    intro hfd
    have hopened := h.opened n e (hlive n e hn)
    rw [hfd, hfree] at hopened
    cases hopened
  refine h.shrinks hlive (fun n e hn => ?_) fun n e hn i hi => ?_
  · rw [ht]
    exact Function.update_of_ne (hne n e hn) _ _
  · rw [ht] at hi
    exact (Function.update_of_ne (hne n e hn) _ s.crew.interest).symm.trans hi

/-- A descriptor that epoll reports is armed, and so none of theirs: the handler that is made for it
is the only one. -/
theorem Sole.report (h : s.Sole) (hs : s.Sound) {fd : ℤ} {readable writable : Bool}
    (hstep : s.step (.report fd readable writable) = some t) : t.Sole := by
  obtain ⟨hcrew, hrecord⟩ := step_eq_some hstep
  obtain ⟨out, harmed⟩ := Crew.armed_of_report hcrew
  have ht := Crew.report_eq_some hcrew
  have hne {n : ℕ} {e : Event} (hn : s.Live n e) : e.fd ≠ fd := by
    intro hfd
    cases h.silent n e hn ⟨true, out⟩ (hfd ▸ harmed)
  have hopen : s.crew.opened fd = true :=
    hs.registered fd (by rw [harmed]; exact Option.some_ne_none _)
  -- the new handler, and those before
  have hcases {n : ℕ} {e : Event} (hn : t.Live n e) : s.Live n e ∨ n = s.crew.made ∧ e.fd = fd := by
    unfold Live at hn
    rw [ht, hrecord] at hn
    rcases hn with hqueue | hworker
    · rcases List.mem_append.mp hqueue with hqueue | hnew
      · exact .inl (.inl hqueue)
      · obtain ⟨e', he', heq⟩ := List.mem_map.mp hnew
        cases heq
        exact .inr ⟨rfl, (WebServer.mem_dispatch he').1⟩
    · exact .inl (.inr hworker)
  refine ⟨fun n e m e' hn hm hfd => ?_, fun n e hn => ?_, fun n e hn i hi => ?_⟩
  -- two for one descriptor, each of them the new one or one before
  · rcases hcases hn with hn | ⟨rfl, hnfd⟩ <;> rcases hcases hm with hm | ⟨rfl, hmfd⟩
    · exact h.single n e m e' hn hm hfd
    · exact absurd (hfd.trans hmfd) (hne hn)
    · exact absurd (hfd.symm.trans hnfd) (hne hm)
    · rfl
  · rw [ht]
    rcases hcases hn with hn | ⟨-, hfd⟩
    · exact h.opened n e hn
    · exact hfd ▸ hopen
  · rw [ht] at hi
    rcases hcases hn with hn | ⟨-, hfd⟩
    · exact h.silent n e hn i ((Function.update_of_ne (hne hn) _ s.crew.interest).symm.trans hi)
    · simp only [hfd, Function.update_self, Option.mem_def, Option.some.injEq] at hi
      rw [← hi]

/-- A worker takes a handler: it was one of them in the queue, and it is one of them with the
worker. -/
theorem Sole.take (h : s.Sole) (hstep : s.step .take = some t) : t.Sole := by
  obtain ⟨hcrew, hrecord⟩ := step_eq_some hstep
  obtain ⟨n, e, rest, hqueue, ht⟩ := Crew.take_eq_some hcrew
  refine h.shrinks (fun m e' hm => ?_) (fun _ _ _ => ht ▸ rfl) fun _ _ _ i hi => by rwa [ht] at hi
  unfold Live at hm
  rw [ht, hrecord] at hm
  rcases hm with hm | ⟨hreleased, todo, hworker⟩
  · exact .inl (hqueue ▸ List.mem_cons_of_mem _ hm)
  · simp only at hworker
    by_cases hmn : m = n
    · -- the one that is taken was queued
      subst hmn
      rw [Function.update_self] at hworker
      cases hworker
      exact .inl (hqueue ▸ List.mem_cons_self)
    · rw [Function.update_of_ne hmn] at hworker
      exact .inr ⟨hreleased, todo, hworker⟩

/-- An access arms nothing and closes nothing, so the handler is one of them if it was. -/
theorem Sole.access (h : s.Sole) {n : ℕ} {f : Entries → Entries} {exit : Option Exit}
    (hstep : s.step (.access n f exit) = some t) : t.Sole := by
  obtain ⟨hcrew, hrecord⟩ := step_eq_some hstep
  obtain ⟨e, o, hworker, ho, hworkers, hqueue, -, hopened, hinterest⟩ := Crew.access_eq_some hcrew
  refine h.shrinks (fun m e' hm => ?_) (fun _ _ _ => by rw [hopened]) fun _ _ _ i hi => by
    rwa [hinterest] at hi
  unfold Live at hm
  rw [hqueue, hrecord, hworkers] at hm
  refine hm.imp id fun ⟨hreleased, todo, hm⟩ => ⟨hreleased, ?_⟩
  -- of `n` its event is left as it is, and the others are untouched
  by_cases hmn : m = n
  · subst hmn
    rw [Function.update_self] at hm
    have he : e' = e := by
      rcases ho with rfl | ⟨x, rfl⟩
      · cases hm
        rfl
      · cases Crew.mem_leave hm
        rfl
    exact ⟨.body, he ▸ hworker⟩
  · rw [Function.update_of_ne hmn] at hm
    exact ⟨todo, hm⟩

/-- What `FreeBut` says of the handlers. -/
theorem freeBut_iff (hs : s.Sound) {n : ℕ} {d : ℤ} :
    s.FreeBut n d ↔ ∀ m e, s.Live m e → e.fd = d → m = n := by
  constructor
  · rintro ⟨hqueue, hworkers⟩ m e hm hfd
    rcases hm with hm | ⟨hreleased, todo, hm⟩
    · exact hqueue _ hm hfd
    · exact hworkers m (hs.numbered.workers m _ hm) hreleased _ hm hfd
  · intro hfree
    refine ⟨fun q hq hfd => hfree q.1 q.2 (.inl hq) hfd, fun m _ hreleased w hw hfd => ?_⟩
    exact hfree m w.event (.inr ⟨hreleased, w.todo, hw⟩) hfd

section Next

variable {n : ℕ} {fresh : Uninit} {e : Event} {op : Op} {ops : List Op}

/-- The handlers behind a step of the handler `n` of which they have been some before; `n` itself is
none of them any more if the step arms or closes its descriptor. -/
theorem live_of_next (hs : s.Sound) (hstep : s.step (.next n fresh) = some t)
    (hworker : s.crew.workers n = some ⟨e, .leaving (op :: ops)⟩) {m : ℕ} {e' : Event}
    (hm : t.Live m e') : s.Live m e' ∧ (m = n → e' = e ∧ op.releases = false) := by
  obtain ⟨hcrew, hrecord⟩ := step_eq_some hstep
  rw [record_next hworker] at hrecord
  obtain ⟨e₀, op₀, ops₀, more, hworker₀, -, hworkers, hqueue, -, -, -⟩ := Crew.next_eq_some hcrew
  cases hworker.symm.trans hworker₀
  unfold Live at hm
  rw [hqueue, hworkers] at hm
  -- a queued handler is none with a worker; of those with workers `n` has gone on
  rcases hm with hm | ⟨hreleased, todo, hm⟩
  · refine ⟨.inl hm, fun hmn => ?_⟩
    cases (hs.numbered.queued _ hm).2.symm.trans (hmn ▸ hworker)
  · by_cases hmn : m = n
    · subst hmn
      rw [Function.update_self] at hm
      cases Crew.mem_leave hm
      rw [hrecord] at hreleased
      cases hop : op.releases with
      | true =>
        rw [hop, if_pos rfl, Function.update_self] at hreleased
        cases hreleased
      | false =>
        rw [hop, if_neg Bool.false_ne_true] at hreleased
        exact ⟨.inr ⟨hreleased, _, hworker⟩, fun _ => ⟨rfl, rfl⟩⟩
    · rw [Function.update_of_ne hmn] at hm
      refine ⟨.inr ⟨?_, todo, hm⟩, fun h => absurd h hmn⟩
      rw [← hreleased, hrecord]
      split
      · exact (Function.update_of_ne hmn _ _).symm
      · rfl

/-- The other handlers are left as they were. -/
theorem live_next (hstep : s.step (.next n fresh) = some t)
    (hworker : s.crew.workers n = some ⟨e, .leaving (op :: ops)⟩) {m : ℕ} {e' : Event}
    (hm : s.Live m e') (hmn : m ≠ n) : t.Live m e' := by
  obtain ⟨hcrew, hrecord⟩ := step_eq_some hstep
  rw [record_next hworker] at hrecord
  obtain ⟨_, _, _, _, -, -, hworkers, hqueue, -, -, -⟩ := Crew.next_eq_some hcrew
  unfold Live
  rw [hqueue, hworkers, hrecord, Function.update_of_ne hmn]
  refine hm.imp id fun ⟨hreleased, hm⟩ => ⟨?_, hm⟩
  split
  · exact (Function.update_of_ne hmn _ _).trans hreleased
  · exact hreleased

/-- The next step of a handler on its way out closes no descriptor of another one. -/
theorem spares_next_iff (hs : s.Sound)
    (hworker : s.crew.workers n = some ⟨e, .leaving (op :: ops)⟩) :
    s.Spares (.next n fresh) ↔
      ∀ m e', s.Live m e' → op.shuts e.fd = some e'.fd → m = n := by
  have hupcoming : upcoming s.crew n = some (e.fd, op) := by
    unfold upcoming
    rw [hworker]
  unfold Spares
  simp only [hupcoming, Option.mem_some_iff, forall_eq', freeBut_iff hs]
  exact ⟨fun h m e' hm hd => h _ hd m e' hm rfl, fun h d hd m e' hm hfd => h m e' hm (hfd ▸ hd)⟩

/-- **A step of a way out**: the handler arms or closes its own descriptor, which is then no longer
its own, and lets the others be. -/
theorem Sole.next (h : s.Sole) (hs : s.Sound) (hspares : s.Spares (.next n fresh))
    (hstep : s.step (.next n fresh) = some t) : t.Sole := by
  obtain ⟨hcrew, -⟩ := step_eq_some hstep
  obtain ⟨e, op, ops, more, hworker, -, -, -, -, hopened, hinterest⟩ := Crew.next_eq_some hcrew
  rw [spares_next_iff hs hworker] at hspares
  -- the handlers that have their descriptors to themselves are among those that had
  have hlive {m : ℕ} {e' : Event} (hm : t.Live m e') := live_of_next hs hstep hworker hm
  -- the step closes the descriptor of none of them: of no other by assumption, and not its own as
  -- it is still its own
  have hkept {m : ℕ} {e' : Event} (hm : t.Live m e') : op.shuts e.fd ≠ some e'.fd := by
    intro hshuts
    obtain ⟨hbefore, hself⟩ := hlive hm
    obtain rfl := hspares m e' hbefore hshuts
    obtain ⟨rfl, hreleases⟩ := hself rfl
    -- it closes a file before it has armed its descriptor
    rcases hbefore with hqueue | ⟨hreleased, -⟩
    · cases (hs.numbered.queued _ hqueue).2.symm.trans hworker
    · obtain ⟨hlate, -⟩ := (hs.first m e' _ hworker hreleased).resolve_left
        (Bool.eq_false_iff.mp hreleases)
      rcases Op.releases_or_late_of_shuts hshuts with h | h
      · cases hreleases.symm.trans h
      · cases hlate.symm.trans h
  -- behind a step that arms it the descriptor is nobody's
  have harmed {m : ℕ} {e' : Event} (hm : t.Live m e') (hleads : op.leads = true)
      (hreleases : op.releases = true) : e'.fd ≠ e.fd := by
    intro hfd
    obtain ⟨hbefore, hself⟩ := hlive hm
    have hreleased : s.released n = false := by
      refine Bool.eq_false_iff.mpr fun hreleased => ?_
      cases (hs.spent n e _ hworker hreleased op List.mem_cons_self).symm.trans hleads
    have hown := h.single m e' n e hbefore (.inr ⟨hreleased, _, hworker⟩) hfd
    cases (hself hown).2.symm.trans hreleases
  refine h.shrinks (fun m e' hm => (hlive hm).1) (fun m e' hm => ?_) fun m e' hm i hi => ?_
  · rw [hopened, Crew.opened_setDescriptors, if_neg (hkept hm)]
  · rw [hinterest, Crew.interest_setDescriptors, if_neg (hkept hm)] at hi
    split at hi
    · next hfd =>
      rw [hfd]
      refine Crew.mem_register (Bool.eq_false_iff.mpr fun hreleases => ?_) hi
      rcases Op.leads_or_shuts_of_releases hreleases e.fd with hleads | hshuts
      · exact harmed hm hleads hreleases hfd
      · exact hkept hm (hfd ▸ hshuts)
    · exact hi

end Next

/-- Every step that spares the others keeps the descriptors apart. -/
theorem Sole.step (h : s.Sole) (hs : s.Sound) {l : Crew.Label} (hspares : s.Spares l)
    (hstep : s.step l = some t) : t.Sole := by
  cases l with
  | accept fd => exact h.accept hstep
  | report fd readable writable => exact h.report hs hstep
  | take => exact h.take hstep
  | access n f exit => exact h.access hstep
  | next n fresh => exact h.next hs hspares hstep

/-- A handler that closes the descriptor of another one leaves that one without. -/
theorem spares_of_sole (hs : s.Sound) {l : Crew.Label} (hstep : s.step l = some t) (ht : t.Sole) :
    s.Spares l := by
  cases l with
  | next n fresh =>
    obtain ⟨hcrew, -⟩ := step_eq_some hstep
    obtain ⟨e, op, ops, more, hworker, -, -, -, -, hopened, -⟩ := Crew.next_eq_some hcrew
    refine (spares_next_iff hs hworker).mpr fun m e' hm hshuts => ?_
    -- another handler would be left with a descriptor that is not open
    by_contra hmn
    have hopen := ht.opened m e' (live_next hstep hworker hm hmn)
    rw [hopened, Crew.opened_setDescriptors, if_pos hshuts] at hopen
    cases hopen
  | _ => trivial

/-- **A handler has its descriptor to itself until it arms or closes it**, in every run in which no
handler closes the descriptor of another one that has not: no two of the handlers that are queued,
or with workers and have not come so far, are for one descriptor, and the descriptor of each is open
and not reported. Where a handler does close the descriptor of another one, this is no longer so. -/
theorem sole_of_reachable (h : armedCrew.Reachable Spares s) :
    s.Sole ∧ ∀ l t, armedCrew.step s l = some t → (t.Sole ↔ s.Spares l) := by
  have hs := sound_of_reachable h
  have hsole : s.Sole := by
    refine h.invariant sole_init fun u l t hu hsole hspares hstep => ?_
    exact hsole.step (sound_of_reachable hu) hspares hstep
  exact ⟨hsole, fun l t hstep => ⟨spares_of_sole hs hstep, fun hl => hsole.step hs hl hstep⟩⟩

/-- Two handlers for one connection, of which the first has armed the descriptor. -/
theorem sole_of_reachable_overlapping :
    ∃ s, armedCrew.run armedCrew.start Crew.overlapping = some s ∧ s.Sole ∧
      s.released 0 = true ∧ (s.crew.workers 0).map Worker.event = some ⟨5, .recv⟩ ∧
      s.Live 1 ⟨5, .recv⟩ := by
  -- the first handler has armed the descriptor and is still at work, when the second one is taken
  have hrun : (armedCrew.run armedCrew.start Crew.overlapping).map (fun s => (s.released 0,
      (s.crew.workers 0).map Worker.event, s.released 1, s.crew.workers 1)) =
      some (true, some ⟨5, .recv⟩, false, some ⟨⟨5, .recv⟩, .body⟩) := by
    decide +kernel
  obtain ⟨s, hs, hstate⟩ := Option.map_eq_some_iff.mp hrun
  obtain ⟨hfirst, hstate⟩ := Prod.mk.inj hstate
  obtain ⟨hworker, hstate⟩ := Prod.mk.inj hstate
  obtain ⟨hsecond, hbody⟩ := Prod.mk.inj hstate
  have hreach : armedCrew.Reachable Spares s :=
    Machine.reachable_of_run .start hs (by decide +kernel)
  exact ⟨s, hs, (sole_of_reachable hreach).1, hfirst, hworker, .inr ⟨hsecond, .body, hbody⟩⟩

end ArmedCrew

end Cherokee

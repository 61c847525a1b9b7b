import Cherokee.RequestTable

/-!
# Splitting the resource of a request

`HandleRecv` hands over the second word of the request line, and `HandleSend` splits it at its
second slash. The word may be missing: extraction then leaves the empty string of a new `Request`,
behind whose end the split begins.

* `HandleRecv.Answers`: every resource handed over is that of the request line read last, in every
  run (`Conn.answers_of_reachable`).
* `Conn.split_returns_iff`: the split of what a `GET` or `PUT` hands over returns exactly when the
  request line has a second word, in which an `int` can count to the next slash.
-/

open Search

namespace Cherokee

/-! ### The words of a request line -/

/-- The second word of a line, which may be empty: it is what a second extraction reads. -/
def secondWord (line : Bytes) : Bytes := firstWord (behindWord line)

namespace IStringStream

/-- Extraction behind an extraction reads the next word, or leaves the string empty when there is
none. -/
theorem extract_behind (line : Bytes) :
    (extract ⟨behindWord line, behindWord line ≠ []⟩ []).1 = secondWord line := by
  cases hbehind : behindWord line with
  | nil =>
    rw [secondWord, hbehind]
    rfl
  | cons c rest =>
    rw [secondWord, hbehind]
    simp only [ne_eq, List.cons_ne_nil, not_false_eq_true, decide_true, extract_line]
    split
    · next h => exact h.symm
    · rfl

end IStringStream

namespace Request

/-- **The request line of a new request** is taken apart into its words: the first is the method,
and the second the resource. -/
theorem setRequestLine_words {r : Request} (hm : r.requestMethod = []) (hr : r.requestResource = [])
    (line : Bytes) :
    (r.setRequestLine line).requestMethod = firstWord line ∧
      (r.setRequestLine line).requestResource = secondWord line := by
  unfold setRequestLine
  rw [hm, hr]
  simp only [IStringStream.extract_line]
  -- without a first word there is no second one either
  by_cases hword : firstWord line = []
  · have hsecond : secondWord line = [] := by
      have hbehind : behindWord line = [] := by
        unfold behindWord
        rw [firstWord_eq_nil_iff.mp hword]
        rfl
      rw [secondWord, hbehind]
      rfl
    rw [if_pos hword, hword, hsecond]
    exact ⟨rfl, rfl⟩
  · rw [if_neg hword]
    exact ⟨rfl, IStringStream.extract_behind line⟩

end Request

/-! ### The split -/

namespace HandleSend

/-- The position at which the loop of the split stops: the next slash behind the first byte, or the
end. -/
def slashIndex (name : Bytes) : ℕ := 1 + ((name.drop 1).takeWhile (· ≠ 47)).length

/-- A word that can be split: it is not empty, and an `int` counts to its end or to a slash behind
its first byte. -/
structure Splittable (word : Bytes) : Prop where
  named : word ≠ []
  short : word.length < 2 ^ 31 ∨ 47 ∈ (word.drop 1).take (2 ^ 31 - 1)

/-- The stretch before an element ends within `n` elements when the list does, or the element is
among them. -/
theorem takeWhile_length_lt_iff (s : Bytes) (c : UInt8) (n : ℕ) :
    (s.takeWhile (· ≠ c)).length < n ↔ s.length < n ∨ c ∈ s.take n := by
  induction s generalizing n with
  | nil => simp
  | cons x s ih =>
    cases n with
    | zero => simp
    | succ n =>
      -- the element stands here, or in what is behind
      by_cases hx : x = c
      · simp [hx]
      · have hne : c ≠ x := fun h => hx h.symm
        rw [List.takeWhile_cons, if_pos (by simpa using hx), List.take_succ_cons, List.length_cons,
          List.length_cons, Nat.add_lt_add_iff_right, Nat.add_lt_add_iff_right, List.mem_cons, ih n]
        simp only [hne, false_or]

/-- The loop stops before its `int` overflows exactly when the word can be split. -/
theorem slashIndex_lt_iff {name : Bytes} (h : name ≠ []) :
    slashIndex name < 2 ^ 31 ↔ Splittable name := by
  have hpos := List.length_pos_of_ne_nil h
  have hstretch := takeWhile_length_lt_iff (name.drop 1) 47 (2 ^ 31 - 1)
  rw [List.length_drop] at hstretch
  constructor
  · intro hlt
    refine ⟨h, (hstretch.mp ?_).imp_left fun hlen => by omega⟩
    unfold slashIndex at hlt
    omega
  · rintro ⟨-, hshort⟩
    have hlt := hstretch.mpr (hshort.imp_left fun hlen => by omega)
    unfold slashIndex
    omega

/-- **The split returns** exactly from what can be split. -/
theorem splitResource_isOk_iff (name : Bytes) :
    (∃ p, splitResource name = .ok p) ↔ Splittable name := by
  unfold splitResource
  by_cases hroot : name = lit "/"
  · rw [if_pos hroot, hroot]
    exact ⟨fun _ => ⟨by decide, .inl (by decide)⟩, fun _ => ⟨_, rfl⟩⟩
  rw [if_neg hroot]
  change (∃ p, (if 2 ^ 31 ≤ slashIndex name then _ else _) = Except.ok p) ↔ _
  -- the index overflows in the loop
  by_cases hwide : 2 ^ 31 ≤ slashIndex name
  · rw [if_pos hwide]
    constructor
    · rintro ⟨p, ⟨⟩⟩
    · intro h
      have hlt := (slashIndex_lt_iff h.named).mpr h
      omega
  rw [if_neg hwide]
  by_cases hnil : name = []
  · -- the length less one wraps, and the first part begins behind the end of the string
    subst hnil
    constructor
    · rintro ⟨p, ⟨⟩⟩
    · exact fun h => absurd rfl h.named
  refine iff_of_true ?_ ((slashIndex_lt_iff hnil).mp (Nat.not_le.mp hwide))
  have hpos := List.length_pos_of_ne_nil hnil
  have hsize : toSize ((name.length : ℤ) - 1) ≤ name.length - 1 := by
    unfold toSize
    omega
  by_cases hslash : slashIndex name < toSize ((name.length : ℤ) - 1)
  · -- both parts begin inside the string
    have hopera : substr name 1 (slashIndex name - 1) =
        .ok ((name.drop 1).take (slashIndex name - 1)) := if_pos (by omega)
    have hname : substr name (slashIndex name + 1) npos =
        .ok ((name.drop (slashIndex name + 1)).take npos) := if_pos (by omega)
    refine ⟨((name.drop 1).take (slashIndex name - 1), (name.drop (slashIndex name + 1)).take npos),
      ?_⟩
    change (if slashIndex name < _ then _ else _) = _
    rw [if_pos hslash]
    change (substr name 1 (slashIndex name - 1) >>= fun opera =>
      substr name (slashIndex name + 1) npos >>= fun filename => .ok (opera, filename)) = _
    rw [hopera, hname]
    rfl
  -- no slash in front of the last byte makes it a redirect
  · refine ⟨(lit "redirect", []), ?_⟩
    change (if slashIndex name < _ then _ else _) = _
    rw [if_neg hslash]

end HandleSend

/-! ### Every hand-over is for the request line read last -/

/-- The request line that an action has read, if it has read one. -/
def Action.lineRead : Action → Option Bytes
  | .requestLine line => some line
  | _ => none

/-- The request line read last among the actions. -/
def lastLine (acts : List Action) : Option Bytes := (acts.filterMap Action.lineRead).getLast?

/-- The line read last is in the second part, or else in the first. -/
theorem lastLine_append (xs ys : List Action) :
    lastLine (xs ++ ys) = (lastLine ys).or (lastLine xs) := by
  rw [lastLine, List.filterMap_append, List.getLast?_append]
  rfl

/-- The resource that is handed over for a request line: its second word for `GET` and `PUT`, and
the redirect for `POST`. -/
def AsksFor (line name : Bytes) : Prop :=
  ((firstWord line = lit "GET" ∨ firstWord line = lit "PUT") ∧ name = secondWord line) ∨
    (firstWord line = lit "POST" ∧ name = lit "/redirect")

namespace HandleRecv

open Request

/-- Every resource handed over is for the request line read last in front of it; `last` has been
read before the actions. -/
def Answers : Option Bytes → List Action → Prop
  | _, [] => True
  | last, a :: acts =>
    (∀ name, a = .setBodyFileName name → ∃ line, last = some line ∧ AsksFor line name) ∧
      Answers (a.lineRead.or last) acts

/-- The resources of two lists are for their lines when those of the first are, and those of the
second are with the line read last by then. -/
theorem answers_append {last : Option Bytes} {xs ys : List Action} :
    Answers last (xs ++ ys) ↔ Answers last xs ∧ Answers ((lastLine xs).or last) ys := by
  induction xs generalizing last with
  | nil => exact ⟨fun h => ⟨trivial, h⟩, fun h => h.2⟩
  | cons a xs ih =>
    have hlast : (lastLine (a :: xs)).or last = (lastLine xs).or (a.lineRead.or last) := by
      rw [← List.singleton_append, lastLine_append, Option.or_assoc]
      cases a <;> rfl
    rw [List.cons_append, Answers, Answers, ih, hlast, and_assoc]

/-- Where nothing is handed over there is nothing to answer. -/
theorem answers_quiet {acts : List Action} (h : ∀ name, .setBodyFileName name ∉ acts)
    (last : Option Bytes) : Answers last acts := by
  induction acts generalizing last with
  | nil => trivial
  | cons a acts ih =>
    refine ⟨fun name ha => absurd (ha ▸ List.mem_cons_self) (h name), ih (fun name hm => ?_) _⟩
    exact h name (List.mem_cons_of_mem a hm)

/-- A hand-over in the list is for the line read last in front of it. -/
theorem Answers.at {last : Option Bytes} {before after : List Action} {name : Bytes}
    (h : Answers last (before ++ .setBodyFileName name :: after)) :
    ∃ line, (lastLine before).or last = some line ∧ AsksFor line name :=
  (answers_append.mp h).2.1 name rfl

/-- The request is for the request line `last`, once it has read one; before that it has neither
method nor resource. -/
structure Parsed (last : Option Bytes) (r : Request) : Prop where
  fresh : r.status = .handleInit → r.requestMethod = [] ∧ r.requestResource = []
  parsed : r.status ≠ .handleInit → r.status ≠ .handleError →
    ∃ line, last = some line ∧ r.requestMethod = firstWord line ∧
    r.requestResource = secondWord line

/-- What the stages behind the request line do to a request: its words stay, and it moves on from
the head to the body and its end. -/
structure Advances (r r' : Request) : Prop where
  method : r'.requestMethod = r.requestMethod
  resource : r'.requestResource = r.requestResource
  status : r'.status = r.status ∨
    (r.status = .handleHead ∨ r.status = .handleBody) ∧
      (r'.status = .handleBody ∨ r'.status = .handleComplete)

/-- A stage may leave the request as it is. -/
theorem Advances.refl (r : Request) : Advances r r := ⟨rfl, rfl, .inl rfl⟩

/-- A request for a line stays for it as it advances. -/
theorem Parsed.advances {last : Option Bytes} {r r' : Request} (h : Parsed last r)
    (ha : Advances r r') : Parsed last r' := by
  -- it stays in its stage, or moves on towards its end
  rcases ha.status with hs | ⟨hs, hs'⟩
  · refine ⟨fun hi => ?_, fun hi he => ?_⟩
    · rw [ha.method, ha.resource]
      exact h.fresh (hs ▸ hi)
    · rw [ha.method, ha.resource]
      exact h.parsed (hs ▸ hi) (hs ▸ he)
  · refine ⟨fun hi => ?_, fun _ _ => ?_⟩
    · rcases hs' with hs' | hs' <;> cases hi.symm.trans hs'
    · rw [ha.method, ha.resource]
      refine h.parsed ?_ ?_ <;> rcases hs with hs | hs <;> rw [hs] <;> exact nofun

/-! ### A turn of the receive loop -/

/-- Behind the stage of the request line a request is for the line read last, which it may just have
read. -/
theorem requestLineStage_parsed {last : Option Bytes} {r : Request} (h : Parsed last r) :
    Parsed ((lastLine (requestLineStage r).2).or last) (requestLineStage r).1 := by
  unfold requestLineStage
  by_cases hs : r.status = .handleInit
  · rw [if_pos hs]
    cases hc : cutLine r.recvMsg with
    | none => exact h
    | some p =>
      obtain ⟨line, rest⟩ := p
      obtain ⟨hm, hr⟩ := h.fresh hs
      obtain ⟨hmethod, hresource⟩ := setRequestLine_words hm hr line
      exact ⟨nofun, fun _ _ => ⟨line, rfl, hmethod, hresource⟩⟩
  · rw [if_neg hs]
    exact h

/-- The header stage advances a request: headers touch neither method nor resource. -/
theorem headStage_advances {r r' : Request} (h : headStage r = .ok r') : Advances r r' := by
  unfold headStage at h
  split at h
  · next hs =>
    refine lineLoop_leaves (P := fun r₁ => r₁.requestMethod = r.requestMethod ∧
      r₁.requestResource = r.requestResource ∧ r₁.status = .handleHead) ?_ ?_ ?_ headTurn_decreasing
      ⟨rfl, rfl, hs⟩ h
    · rintro r₁ ⟨hm, hr, hs₁⟩
      exact ⟨hm, hr, .inl (hs₁.trans hs.symm)⟩
    · rintro r₁ m ⟨hm, hr, -⟩
      unfold endHead
      split <;> exact ⟨hm, hr, .inr ⟨.inl hs, .inl rfl⟩⟩
    · rintro r₁ r₂ m line ⟨hm, hr, hs₁⟩ ho
      obtain ⟨_, _, rfl⟩ := addHeaderOpt_fields ho
      exact ⟨hm, hr, hs₁⟩
  · cases h
    exact .refl r

/-- So does the stage of the start boundary, when it goes on. -/
theorem beginStage_advances {r r' : Request} (h : beginStage r = .ok (some r')) :
    Advances r r' ∧ r'.status = r.status := by
  unfold beginStage at h
  split at h
  · split at h
    · split at h
      · cases h
      · split at h
        · cases h
          exact ⟨⟨rfl, rfl, .inl rfl⟩, rfl⟩
        · cases h
    · cases h
      exact ⟨.refl r, rfl⟩
  · cases h
    exact ⟨.refl r, rfl⟩

/-- So does the stage of the part header. -/
theorem partStage_advances {r r' : Request} (h : partStage r = .ok r') :
    Advances r r' ∧ r'.status = r.status := by
  unfold partStage at h
  split at h
  · refine lineLoop_leaves (P := fun r₁ => Advances r r₁ ∧ r₁.status = r.status) (fun _ ha => ha)
      (fun _ _ ha => ⟨⟨ha.1.method, ha.1.resource, ha.1.status⟩, ha.2⟩) ?_ partTurn_decreasing
      ⟨.refl r, rfl⟩ h
    intro r₁ r₂ m line ha ho
    obtain ⟨name, rfl⟩ := addPartLine_fields ho
    exact ⟨⟨ha.1.method, ha.1.resource, ha.1.status⟩, ha.2⟩
  · cases h
    exact ⟨.refl r, rfl⟩

/-- Two stages that advance a request one after the other advance it. -/
theorem Advances.trans {r r' r'' : Request} (h : Advances r r') (h' : Advances r' r'') :
    Advances r r'' := by
  refine ⟨h'.method.trans h.method, h'.resource.trans h.resource, ?_⟩
  rcases h.status with hs | ⟨hs, hs'⟩
  · rw [← hs]
    exact h'.status
  · refine .inr ⟨hs, ?_⟩
    rcases h'.status with hsame | ⟨-, hs''⟩
    · rwa [hsame]
    · exact hs''

/-- A stage behind the request line, as a turn: the request advances, and no request line is
read. -/
structure Turn.Behind (r : Request) (t : Turn) : Prop where
  advances : Advances r t.request
  line : lastLine t.acts = none

/-- A stage that does nothing to the request is one, as long as it reads no line. -/
theorem behind_refl (r : Request) {acts : List Action} (h : lastLine acts = none) (flow : Flow) :
    Turn.Behind r ⟨r, acts, flow⟩ :=
  ⟨.refl r, h⟩

/-- A request in its body is completed, which is an advance. -/
theorem behind_complete {r r' : Request} (hs : r.status = .handleBody) (h : Advances r r')
    (name : Bytes) : (complete r' name).Behind r :=
  ⟨⟨h.method, h.resource, .inr ⟨.inr hs, .inr rfl⟩⟩, rfl⟩

/-- The content stage only advances an upload, however its loop ends. -/
theorem contentStage_behind (ofs : Bool) {r : Request} (hs : r.status = .handleBody) :
    (contentStage ofs r).Behind r := by
  unfold contentStage
  by_cases hc : r.fileMsgStatus = .fileContent
  · rw [if_pos hc]
    cases ofs with
    | false => exact behind_refl r rfl _
    | true =>
      rw [if_pos rfl]
      generalize contentLoop r.boundary? r.recvMsg = content
      obtain ⟨written, recvMsg, ended⟩ := content
      -- it waits, is complete, or does not return
      cases ended with
      | wait => exact ⟨⟨rfl, rfl, .inl rfl⟩, rfl⟩
      | complete => exact ⟨⟨rfl, rfl, .inr ⟨.inr hs, .inr rfl⟩⟩, rfl⟩
      | crash f => exact ⟨⟨rfl, rfl, .inl rfl⟩, rfl⟩
  · rw [if_neg hc]
    split
    · exact behind_complete hs (.refl r) _
    · exact behind_refl r rfl _

/-- The stages of an upload only advance it, one after the other. -/
theorem postStage_behind (ofs : Bool) {r : Request} (hs : r.status = .handleBody) :
    (postStage ofs r).Behind r := by
  unfold postStage
  by_cases hmul : r.isMultipart = true
  · rw [if_pos hmul]
    -- the stage of the start boundary throws, completes the request, or goes on
    cases hbegin : beginStage r with
    | error f => exact behind_refl r rfl _
    | ok o =>
      cases o with
      | none => exact behind_complete hs (.refl r) _
      | some r₁ =>
        obtain ⟨h₁, hs₁⟩ := beginStage_advances hbegin
        simp only
        cases hpart : partStage r₁ with
        | error f => exact ⟨h₁, rfl⟩
        | ok r₂ =>
          obtain ⟨h₂, hs₂⟩ := partStage_advances hpart
          have hcontent := contentStage_behind ofs (hs₂.trans (hs₁.trans hs))
          exact ⟨(h₁.trans h₂).trans hcontent.advances, hcontent.line⟩
  · rw [if_neg hmul]
    exact behind_complete hs (.refl r) _

/-- The body stage only advances a request, by its method. -/
theorem bodyStage_behind (ofs : Bool) (r : Request) : (bodyStage ofs r).Behind r := by
  unfold bodyStage
  by_cases hs : r.status = .handleBody
  · rw [if_pos hs]
    split_ifs
    · exact behind_complete hs (.refl r) _
    · exact postStage_behind ofs hs
    · exact behind_refl r rfl _
    · exact behind_refl r rfl _
  · rw [if_neg hs]
    exact behind_refl r rfl _

/-- **Behind a turn the request is for the request line read last**, in this turn or before. -/
theorem recvTurn_parsed {last : Option Bytes} {r : Request} (h : Parsed last r) (buf : Bytes)
    (ofs : Bool) :
    Parsed ((lastLine (recvTurn buf ofs r).acts).or last) (recvTurn buf ofs r).request := by
  have hpush : Parsed last (r.push buf) := ⟨h.fresh, h.parsed⟩
  have hline := requestLineStage_parsed hpush
  rw [recvTurn_eq]
  cases hhead : headStage (requestLineStage (r.push buf)).1 with
  | error f => exact hline
  | ok r' =>
    have hbody := bodyStage_behind ofs r'
    have hlast :
      lastLine (.recvd buf :: (requestLineStage (r.push buf)).2 ++ (bodyStage ofs r').acts)
        = lastLine (requestLineStage (r.push buf)).2 := by
      rw [lastLine_append, hbody.line]
      rfl
    have hadvanced := (hline.advances (headStage_advances hhead)).advances hbody.advances
    rw [← hlast] at hadvanced
    exact hadvanced

/-- **What a turn hands over** is for the request line read last: only a turn that completes a
request, or has a `PUT`, hands anything over. -/
theorem recvTurn_answers {last : Option Bytes} {r : Request} (h : Parsed last r)
    (hlive : r.status ≠ .handleComplete) (buf : Bytes) (ofs : Bool) :
    Answers last (recvTurn buf ofs r).acts := by
  have hparsed := recvTurn_parsed h buf ofs
  obtain ⟨before, ends, hacts, hbefore, hend⟩ := recvTurn_ends buf ofs hlive
  have hquiet : ∀ name, Action.setBodyFileName name ∉ before := fun name hm => hbefore _ hm
  -- the end of the turn parses no line
  have hlast : lastLine (recvTurn buf ofs r).acts = lastLine before := by
    rw [hacts, lastLine_append]
    cases hend <;> rfl
  rw [hlast] at hparsed
  rw [hacts, answers_append]
  refine ⟨answers_quiet hquiet last, ?_⟩
  cases hend with
  | again => trivial
  | openFails path => exact answers_quiet (by simp) _
  | crashes => trivial
  -- a complete request is answered for the resource of its line, or with the redirect
  | completes flow status method =>
    obtain ⟨line, hline, hm, hr⟩ := hparsed.parsed (by rw [status]; decide)
      (by rw [status]; decide)
    refine ⟨?_, answers_quiet (by simp) _⟩
    rintro name ⟨⟩
    refine ⟨line, hline, ?_⟩
    rw [hm, hr, askedFor]
    rw [hm] at method
    rcases method with hget | hpost
    · rw [if_pos hget]
      exact .inl ⟨.inl hget, rfl⟩
    · rw [if_neg (by rw [hpost]; decide)]
      exact .inr ⟨hpost, rfl⟩
  -- a `PUT` is answered for the resource of its line
  | puts flow status method =>
    obtain ⟨line, hline, hm, hr⟩ := hparsed.parsed (by rw [status]; decide)
      (by rw [status]; decide)
    refine ⟨?_, answers_quiet (by simp) _⟩
    rintro name ⟨⟩
    exact ⟨line, hline, .inl ⟨.inr (hm ▸ method), hr⟩⟩

/-! ### Calls -/

/-- The actions behind the receive loop hand nothing over and read nothing. -/
theorem finish_quiet (r : Request) : (∀ name, .setBodyFileName name ∉ (finish r).2) ∧
    lastLine (finish r).2 = none := by
  unfold finish
  split_ifs <;> exact ⟨by simp, rfl⟩

/-- What a call has handed over, and what it leaves. -/
structure Call.Answered (last : Option Bytes) (c : Call) : Prop where
  answers : Answers last c.acts
  parsed : c.crash = none → ∀ q ∈ c.request,
    q.status ≠ .handleComplete ∧ Parsed ((lastLine c.acts).or last) q

/-- A call that ends behind the receive loop has handed over what the loop has, and leaves an open
request for the line read last. -/
theorem finish_answered {last : Option Bytes} {x : Received} (ha : Answers last x.acts)
    (hp : Parsed ((lastLine x.acts).or last) x.request) : x.finish.Answered last := by
  obtain ⟨hquiet, hline⟩ := finish_quiet x.request
  unfold Received.finish
  cases hcrash : x.crash with
  | some f => exact ⟨ha, nofun⟩
  | none =>
    refine ⟨answers_append.mpr ⟨ha, answers_quiet hquiet _⟩, fun _ q hq => ?_⟩
    have hlast : lastLine (x.acts ++ (finish x.request).2) = lastLine x.acts := by
      rw [lastLine_append, hline]
      rfl
    have hq' : q ∈ (finish x.request).1 := hq
    change q.status ≠ _ ∧ Parsed ((lastLine (x.acts ++ (finish x.request).2)).or last) q
    rw [hlast]
    unfold finish at hq'
    split_ifs at hq' with hc he
    · cases hq'
    · cases hq'
    · obtain rfl := Option.some.inj hq'
      exact ⟨hc, hp⟩

/-- **A call hands over what its request line asks for.** By induction on the results of `recv`,
with the line read last carried along. -/
theorem recvLoop_answered (results : List RecvResult) {last : Option Bytes} {r : Request}
    (h : Parsed last r) (hlive : r.status ≠ .handleComplete) :
    (recvLoop results r).finish.Answered last := by
  induction results generalizing last r with
  | nil => exact finish_answered ⟨nofun, trivial⟩ h
  | cons x rest ih =>
    cases x with
    | again => exact finish_answered ⟨nofun, trivial⟩ h
    | closed => exact finish_answered trivial ⟨nofun, fun _ he => absurd rfl he⟩
    | failed => exact finish_answered trivial ⟨nofun, fun _ he => absurd rfl he⟩
    | data buf ofs =>
      have hanswers := recvTurn_answers h hlive buf ofs
      have hparsed := recvTurn_parsed h buf ofs
      have hends := recvTurn_ends buf ofs hlive
      unfold recvLoop
      simp only
      generalize recvTurn buf ofs r = t at hanswers hparsed hends
      -- the loop goes on with what the turn has left, or ends
      cases hflow : t.flow with
      | again =>
        simp only
        rw [Received.finish_prepend]
        have hrest := ih hparsed (hends.live hflow)
        refine ⟨answers_append.mpr ⟨hanswers, hrest.answers⟩, fun hcrash q hq => ?_⟩
        have hq' := hrest.parsed hcrash q hq
        rwa [Call.prepend_acts, lastLine_append, Option.or_assoc]
      | leave => exact finish_answered hanswers hparsed
      | crash f => exact finish_answered hanswers hparsed

end HandleRecv

namespace Conn

open HandleRecv

/-- What holds of the log of a connection, and of its request while it is open. -/
structure AnswersLines (k : Conn) : Prop where
  answers : Answers none k.log
  parsed : k.ended = false → ∀ q ∈ k.request,
    q.status ≠ .handleComplete ∧ Parsed (lastLine k.log) q

/-- A new request has read no line. -/
theorem init_parsed (last : Option Bytes) : Parsed last Request.init :=
  ⟨fun _ => ⟨rfl, rfl⟩, fun h => absurd rfl h⟩

/-- The request that a call begins with is one under way, for the line read last. -/
theorem AnswersLines.entry {k : Conn} (hk : k.AnswersLines) (hopen : k.ended = false) :
    (k.request.getD Request.init).status ≠ .handleComplete ∧
      Parsed (lastLine k.log) (k.request.getD Request.init) := by
  cases hq : k.request with
  | none => exact ⟨nofun, init_parsed _⟩
  | some q => exact hk.parsed hopen q hq

/-- An action that hands nothing over and reads no request line. -/
def Mute (a : Action) : Prop := a.handedOver = none ∧ a.lineRead = none

/-- The actions of a response are of this kind. -/
theorem mute_of_serving {a : Action} (h : a.Serving) : Mute a := by
  cases a <;> first | exact ⟨rfl, rfl⟩ | cases h

/-- **The actions of `HandleSend::process`**, whatever it finds: those of a response, and those that
close the connection. -/
theorem send_actions (w : HandleSend.World) (results : List HandleSend.SendResult)
    (request : Option Request) (response : Option Response) :
    ∀ a ∈ (HandleSend.process w results request response).acts,
      a.Serving ∨ a = .shutdown ∨ a = .closeClient := by
  by_cases h : ∀ r ∈ response, r.status = .handleInit ∨ HandleSend.Sending r
  · exact fun a ha => .inl (send_serving w results request h a ha)
  · -- a response that is neither new nor being sent: the loop leaves at once, or not at all
    push Not at h
    obtain ⟨r, rfl, hi, hs⟩ := h
    have hstage : HandleSend.initStage w request r = ⟨request, r, [], .proceed⟩ :=
      HandleSend.initStage_of_not_init hi
    cases hstatus : r.status with
    | handleInit => exact absurd hstatus hi
    | handleHead => exact absurd (.inl hstatus) hs
    | handleBody => exact absurd (.inr hstatus) hs
    | handleComplete =>
      -- no branch of the send loop is for a complete response
      have hloop : HandleSend.sendLoop results request r = ⟨request, r, [], .crash .diverges⟩ := by
        unfold HandleSend.sendLoop
        rw [hstatus]
      unfold HandleSend.process
      simp only [hstage, hloop]
      intro a ha
      cases ha
    | handleError =>
      -- a response in error leaves it before anything is sent
      have hloop : HandleSend.sendLoop results request r = ⟨request, r, [], .proceed⟩ := by
        unfold HandleSend.sendLoop
        rw [hstatus]
      rw [HandleSend.process_proceed hstage rfl (by rw [hloop])]
      simp only [hloop, HandleSend.finish, hstatus]
      rw [if_neg (by decide), if_pos trivial]
      unfold HandleSend.closeStray HandleSend.Call.prepend
      intro a ha
      split at ha <;> simp at ha <;> rcases ha with rfl | rfl | rfl | rfl <;> simp [Action.Serving]

/-- **A call of `HandleSend` hands nothing over** and reads no line, whatever it finds. -/
theorem send_mute (w : HandleSend.World) (results : List HandleSend.SendResult)
    (request : Option Request) (response : Option Response) :
    ∀ a ∈ (HandleSend.process w results request response).acts, Mute a := by
  intro a ha
  rcases send_actions w results request response a ha with h | rfl | rfl
  · exact mute_of_serving h
  · exact ⟨rfl, rfl⟩
  · exact ⟨rfl, rfl⟩

/-- Mute actions read no line. -/
theorem lastLine_mute {acts : List Action} (h : ∀ a ∈ acts, Mute a) : lastLine acts = none := by
  rw [lastLine, List.filterMap_eq_nil_iff.mpr fun a ha => (h a ha).2]
  rfl

/-- A call of `HandleRecv` keeps what holds of the log, as what it hands over is for the line read
last. -/
theorem AnswersLines.recv {k : Conn} (hk : k.AnswersLines) (hopen : k.ended = false)
    (results : List RecvResult) (fresh : Uninit) :
    (k.after (Handler.call (.recv results fresh) k.request k.response)).AnswersLines := by
  have hentry := hk.entry hopen
  have hcall := recvLoop_answered results hentry.2 hentry.1
  refine ⟨answers_append.mpr ⟨hk.answers, ?_⟩, fun hopen' q hq => ?_⟩
  · rw [Option.or_none]
    exact hcall.answers
  · have hparsed := hcall.parsed (crash_of_open hopen') q hq
    rw [← lastLine_append] at hparsed
    exact hparsed

/-- A call of `HandleSend` keeps it, as it is mute; a request that it marks or makes is for no
line. -/
theorem AnswersLines.send {k : Conn} (hk : k.AnswersLines) (hopen : k.ended = false)
    (w : HandleSend.World) (results : List HandleSend.SendResult) :
    (k.after (Handler.call (.send w results) k.request k.response)).AnswersLines := by
  have hmute := send_mute w results k.request k.response
  have hline : lastLine (k.log ++ (HandleSend.process w results k.request k.response).acts) =
      lastLine k.log := by
    rw [lastLine_append, lastLine_mute hmute]
    rfl
  have hquiet : ∀ name, Action.setBodyFileName name ∉
      (HandleSend.process w results k.request k.response).acts := by
    intro name hm
    cases (hmute _ hm).1
  refine ⟨answers_append.mpr ⟨hk.answers, answers_quiet hquiet _⟩, fun _ q hq => ?_⟩
  change q.status ≠ _ ∧
    Parsed (lastLine (k.log ++ (HandleSend.process w results k.request k.response).acts)) q
  rw [hline]
  have hentry := hk.entry hopen
  rcases HandleSend.process_request_cases w results k.request k.response q hq with rfl | rfl
  · exact hentry
  · exact ⟨nofun, ⟨nofun, fun _ he => absurd rfl he⟩⟩

/-- **In every run every resource handed over is for the request line read last.** -/
theorem answers_of_reachable {left : Option Response} {G : Conn → Handler → Prop} {k : Conn}
    (h : (connection left).Reachable G k) : Answers none k.log := by
  have hstart : AnswersLines (connection left).start := by
    refine ⟨trivial, fun _ q hq => ?_⟩
    cases hq
  refine (h.invariant hstart ?_).answers
  intro k h k' _ hk _ hstep
  obtain ⟨hopen, rfl⟩ := step_eq_some.mp hstep
  -- a call of either handler keeps it
  cases h with
  | recv results fresh => exact hk.recv hopen results fresh
  | send w results => exact hk.send hopen w results

/-- **When the split returns.** In every run, what is handed over for the request line `line` of a
`GET` or `PUT` is split, with no length wrapping below zero, exactly when the line has a second word
that can be split. -/
theorem split_returns_iff {left : Option Response} {k : Conn}
    (h : (connection left).Reachable Machine.anyStep k) {before after : List Action}
    {name line : Bytes} (hlog : k.log = before ++ .setBodyFileName name :: after)
    (hline : lastLine before = some line)
    (hm : firstWord line = lit "GET" ∨ firstWord line = lit "PUT") :
    (∃ p, HandleSend.splitResource name = .ok p) ∧ 0 ≤ (name.length : ℤ) - 1 ↔
      HandleSend.Splittable (secondWord line) := by
  have hanswers := answers_of_reachable h
  rw [hlog] at hanswers
  obtain ⟨line', hline', hands⟩ := hanswers.at
  rw [hline, Option.some_or] at hline'
  obtain rfl := Option.some.inj hline'
  have hname : name = secondWord line := by
    rcases hands with ⟨-, hname⟩ | ⟨hpost, -⟩
    · exact hname
    · rw [hpost] at hm
      exact absurd hm (by decide)
  rw [hname, HandleSend.splitResource_isOk_iff]
  refine ⟨And.left, fun hs => ⟨hs, ?_⟩⟩
  have hpos := List.length_pos_of_ne_nil hs.named
  omega

/-- A request line and the end of its head, received at once. -/
def requestFor (line : Bytes) : List Handler :=
  [.recv [.data (line ++ crlf) true] HandleSend.sampleWorld.fresh]

theorem split_returns_iff_download :
    ∃ k before after, (connection none).run (connection none).start
        (requestFor (lit "GET /downl/a HTTP/1.1\r\n")) = some k ∧
      k.log = before ++ .setBodyFileName (lit "/downl/a") :: after ∧
      ∃ p, HandleSend.splitResource (lit "/downl/a") = .ok p := by
  obtain ⟨k, hk⟩ := Option.isSome_iff_exists.mp (show ((connection none).run (connection none).start
    (requestFor (lit "GET /downl/a HTTP/1.1\r\n"))).isSome by decide +kernel)
  have hlog : ((connection none).run (connection none).start
      (requestFor (lit "GET /downl/a HTTP/1.1\r\n"))).map Conn.log = some
        ([.recvd (lit "GET /downl/a HTTP/1.1\r\n\r\n"),
          .requestLine (lit "GET /downl/a HTTP/1.1\r\n")] ++ .setBodyFileName (lit "/downl/a") ::
          [.modifyWaitFd true true true, .processed (lit "GET") (lit "/downl/a")]) := by
    decide +kernel
  rw [hk] at hlog
  have hlog := Option.some.inj hlog
  refine ⟨k, _, _, hk, hlog, ?_⟩
  exact ((split_returns_iff (Machine.reachable_of_run .start hk (Machine.along_anyStep _ _)) hlog
    rfl (.inl (by decide))).mpr ⟨by decide, .inl (by decide)⟩).1

/-- A `GET` without a second word hands over the empty string, and the split of it throws. -/
theorem split_nameless :
    ¬ ∀ (left : Option Response) (k : Conn) (before after : List Action) (name line : Bytes),
      (connection left).Reachable Machine.anyStep k →
        k.log = before ++ .setBodyFileName name :: after → lastLine before = some line →
          firstWord line = lit "GET" ∨ firstWord line = lit "PUT" →
            (∃ p, HandleSend.splitResource name = .ok p) ∧ 0 ≤ (name.length : ℤ) - 1 := by
  intro h
  obtain ⟨k, hk⟩ := Option.isSome_iff_exists.mp (show ((connection none).run (connection none).start
    (requestFor (lit "GET\r\n"))).isSome by decide +kernel)
  have hlog : ((connection none).run (connection none).start
      (requestFor (lit "GET\r\n"))).map Conn.log = some
        ([.recvd (lit "GET\r\n\r\n"), .requestLine (lit "GET\r\n")] ++ .setBodyFileName [] ::
          [.modifyWaitFd true true true, .processed (lit "GET") []]) := by
    decide +kernel
  rw [hk] at hlog
  have hsplit := (h none k _ _ [] (lit "GET\r\n")
    (Machine.reachable_of_run .start hk (Machine.along_anyStep _ _)) (Option.some.inj hlog) rfl
    (.inl (by decide))).2
  revert hsplit
  decide

end Conn

end Cherokee

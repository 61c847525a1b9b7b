import Cherokee.PartialSends
import Cherokee.Store
import Mathlib.Data.List.TakeWhile

/-!
# Dispatch

`HandleSend::process` takes the resource of a new response apart, acts on it, and constructs a
response. Three branches construct none in the same call: a file that does not open, a removed file,
and an upload that does not open put a fresh `Response` with a name of the program's own in the
place of the old one, `/redirect` or `/`, and the next call is driven by that name.

A call is read through three projections of its actions: the resources it takes apart, what it does
to the files, and the responses it constructs. One lemma for a branch that constructs
(`HandleSend.serves_built`) and one for a branch that re-enters (`HandleSend.serves_reenter`) give
all three, behind any number of later calls (`HandleSend.sends_settled`).

* `HandleSend.resource_served`: a resource acts on the files at most once and is answered within two
  calls.
-/

namespace Cherokee

/-! ### The split -/

/-- The resource is one byte, the operation, a slash and a file name, which is not empty. The
operation has no slash of its own. -/
structure NamesFile (resource op filename : Bytes) : Prop where
  form : ∃ c, resource = c :: (op ++ 47 :: filename)
  op : 47 ∉ op
  filename : filename ≠ []

namespace HandleSend

/-- The split of a resource with a slash behind its first byte: the operation in front of that slash
and the file name behind it, or a redirect when nothing is behind it. -/
theorem splitResource_slash (c : UInt8) {op : Bytes} (hop : 47 ∉ op) (filename : Bytes)
    (hint : op.length + 1 < 2 ^ 31) (hlong : (c :: (op ++ 47 :: filename)).length ≤ maxSize) :
    splitResource (c :: (op ++ 47 :: filename)) =
      if filename = [] then .ok (lit "redirect", []) else .ok (op, filename) := by
  have hroot : c :: (op ++ 47 :: filename) ≠ lit "/" := by
    intro h
    have hlen := congrArg List.length h
    rw [List.length_cons, List.length_append, List.length_cons] at hlen
    change _ = 1 at hlen
    omega
  -- the operation is the stretch between the first character and the next `/`
  have hstretch : ((c :: (op ++ 47 :: filename)).drop 1).takeWhile (· ≠ 47) = op := by
    rw [List.drop_one, List.tail_cons, List.takeWhile_append_of_pos fun x hx => ?_,
      List.takeWhile_cons_of_neg (by decide), List.append_nil]
    exact decide_eq_true fun h => hop (h ▸ hx)
  have hlen : (c :: (op ++ 47 :: filename)).length = op.length + filename.length + 2 := by
    rw [List.length_cons, List.length_append, List.length_cons]
    omega
  -- (op ++ 47 :: filename)).length : ℤ) - 1) = :: the last index of the string, which the source
  -- compares with the place of the slash
  have hsize : toSize (((c :: (op ++ 47 :: filename)).length : ℤ) - 1) =
      op.length + filename.length + 1 := by
    rw [hlen] at hlong ⊢
    unfold maxSize at hlong
    unfold toSize
    omega
  unfold splitResource
  rw [if_neg hroot]
  simp only
  rw [hstretch, if_neg (by omega), hsize]
  -- nothing behind the slash makes it a redirect
  by_cases hname : filename = []
  · rw [if_pos hname, if_neg (by rw [hname, List.length_nil]; omega)]
  · -- a file name behind the `/`: both parts are cut out
    have hpos := List.length_pos_of_ne_nil hname
    have hopera : substr (c :: (op ++ 47 :: filename)) 1 (1 + op.length - 1) = .ok op := by
      unfold substr
      rw [if_pos (by omega), List.drop_one, List.tail_cons, Nat.add_sub_cancel_left,
        List.take_left]
    have hrest : substr (c :: (op ++ 47 :: filename)) (1 + op.length + 1) npos =
        .ok filename := by
      have hdrop : (c :: (op ++ 47 :: filename)).drop (1 + op.length + 1) = filename := by
        rw [show 1 + op.length + 1 = op.length + 1 + 1 by omega, List.drop_succ_cons,
          ← List.drop_drop, List.drop_left, List.drop_one, List.tail_cons]
      unfold maxSize at hlong
      unfold substr npos
      rw [if_pos (by omega), hdrop, List.take_of_length_le (by omega)]
    rw [if_neg hname, if_pos (by omega), hopera, hrest]
    rfl

/-- A resource that names a file falls into its operation and the name. -/
theorem splitResource_names {resource op filename : Bytes} (h : NamesFile resource op filename)
    (hshort : resource.length < 2 ^ 31) : splitResource resource = .ok (op, filename) := by
  obtain ⟨c, rfl⟩ := h.form
  have hlen : (c :: (op ++ 47 :: filename)).length = op.length + filename.length + 2 := by
    rw [List.length_cons, List.length_append, List.length_cons]
    omega
  rw [splitResource_slash c h.op filename (by omega) (by unfold maxSize; omega), if_neg h.filename]

/-- A resource that is neither `/` nor names a file is redirected: it has no slash behind its first
byte, or nothing behind that slash. -/
theorem splitResource_other {resource : Bytes} (hnil : resource ≠ []) (hroot : resource ≠ lit "/")
    (hshort : resource.length < 2 ^ 31) (h : ∀ op filename, ¬ NamesFile resource op filename) :
    splitResource resource = .ok (lit "redirect", []) := by
  cases resource with
  | nil => exact absurd rfl hnil
  | cons c rest =>
    by_cases hslash : 47 ∈ rest
    · -- the first slash is the last byte
      obtain ⟨op, filename, rfl, hop⟩ := List.eq_append_cons_of_mem hslash
      have hname : filename = [] := by
        by_contra hne
        exact h op filename ⟨⟨c, rfl⟩, hop, hne⟩
      have hlen : (c :: (op ++ 47 :: filename)).length = op.length + filename.length + 2 := by
        rw [List.length_cons, List.length_append, List.length_cons]
        omega
      rw [splitResource_slash c hop filename (by omega) (by unfold maxSize; omega), if_pos hname]
    · -- without a slash the index runs to the end
      have hstretch : ((c :: rest).drop 1).takeWhile (· ≠ 47) = rest := by
        rw [List.drop_one, List.tail_cons]
        refine List.takeWhile_eq_self_iff.mpr fun x hx => ?_
        exact decide_eq_true fun hx' => hslash (hx' ▸ hx)
      have hlen : (c :: rest).length = rest.length + 1 := rfl
      -- rest).length : ℤ) - 1) = rest.length := by :: that is where the string ends, so there is
      -- nothing behind the operation
      have hsize : toSize (((c :: rest).length : ℤ) - 1) = rest.length := by
        rw [hlen] at hshort ⊢
        unfold toSize
        omega
      unfold splitResource
      rw [if_neg hroot]
      simp only
      rw [hstretch, hsize, if_neg (by omega), if_neg (by omega)]

end HandleSend

/-! ### Readings of a call -/

namespace Action

/-- The resource that an action takes apart; a complete response leaves an entry without one, whose
dispatch takes nothing apart. -/
def taken : Action → Option Bytes
  | dispatch name => if name = [] then none else some name
  | _ => none

/-- The action opens, changes or removes a file. -/
def onFiles : Action → Bool
  | openRead _ _ => true
  | a => a.alters.isSome

/-- The response that an action constructs, if it does. -/
def constructed : Action → Option Response
  | built r => some r
  | _ => none

/-- The action takes no resource apart, touches no file and constructs no response. -/
structure Later (a : Action) : Prop where
  taken : a.taken = none
  onFiles : a.onFiles = false
  constructed : a.constructed = none

/-- Writing to the connection is something that later calls may do. -/
theorem Writing.later {a : Action} (h : a.Writing) : a.Later := by
  cases a <;> first | exact h.elim | exact ⟨rfl, rfl, rfl⟩

end Action

/-! ### Responses -/

/-- What a resource is answered with: one of the four forms in which the source constructs a
response. -/
inductive Reply where
  /-- The list of the files. -/
  | page (body : Bytes)
  /-- The file that has been opened. -/
  | file (fd : ℤ) (size : Fin (2 ^ 63))
  /-- An upload has been written. -/
  | stored
  /-- `302` to the list of the files. -/
  | redirect
deriving DecidableEq, Repr

namespace Reply

open HandleSend

/-- The status line and the header lines of a reply, and the blank line behind them. -/
def head : Reply → Bytes
  | page body => headOf (lit "HTTP/1.1 200 OK" ::
      (lit "Content-Length: " ++ toDecimal body.length) :: htmlLines none)
  | file _ size => headOf (lit "HTTP/1.1 200 OK" ::
      (lit "Content-Length: " ++ toDecimal size) ::
        fileLines (toDecimal (toSize ((size : ℤ) - 1))))
  | stored => headOf (lit "HTTP/1.1 200 OK" :: lit "Content-Length: 0" :: htmlLines none)
  | redirect => headOf (lit "HTTP/1.1 302 Moved Temporarily" ::
      lit "Content-Length: 0" :: htmlLines (some (lit "/")))

/-- The body of a response is the one of the reply, with its type and its length. -/
def HasBody (r : Response) : Reply → Prop
  | page body => r.bodyType = .htmlType ∧ r.msgBody = body ∧ r.msgBodyLen = body.length
  | file fd size => r.bodyType = .fileType ∧ r.fileMsgFd = fd ∧ r.msgBodyLen = size
  | stored => r.bodyType = .emptyType
  | redirect => r.bodyType = .emptyType

/-- The response has been constructed as the reply, and nothing of it has been sent. -/
structure In (a : Reply) (r : Response) : Prop where
  status : r.status = .handleHead
  unsent : r.curStatusHasSendLen = 0
  head : r.beforeBodyMsg = a.head
  headLen : r.beforeBodyMsgLen = toInt a.head.length
  body : a.HasBody r

end Reply

namespace HandleSend

/-- The page of the directory: the lines of the template in front of the label, a row for each file
in the place of the label, and the lines behind it. -/
def listPage (w : World) : Bytes :=
  let lines := linesOf (w.page.getD [])
  (lines.takeWhile (· ≠ filelistLabel)).flatMap (· ++ lit "\n") ++
    ((w.filedir.getD []).filter fun name => name ≠ lit "." ∧ name ≠ lit "..").flatMap fileRow ++
    (lines.dropWhile (· ≠ filelistLabel)).tail.flatMap (· ++ lit "\n")

/-- The directory can be listed: the template has the line that the rows replace, `opendir` works,
and the page is no longer than a string can be. -/
structure World.Lists (w : World) : Prop where
  label : filelistLabel ∈ linesOf (w.page.getD [])
  filedir : w.filedir.isSome
  room : (listPage w).length ≤ maxSize

/-- A directory that can be listed gives its page. -/
theorem getFileListPage_lists {w : World} (h : w.Lists) :
    getFileListPage w [] = .ok (listPage w) := by
  obtain ⟨names, hnames⟩ := Option.isSome_iff_exists.mp h.filedir
  have hroom := h.room
  have hlabel := h.label
  unfold listPage at hroom ⊢
  unfold getFileListPage getFileVec
  rw [hnames] at hroom ⊢
  simp only [bind, Except.bind, List.span_eq_takeWhile_dropWhile, Option.getD_some, List.nil_append]
    at hroom ⊢
  generalize linesOf (w.page.getD []) = lines at hlabel hroom ⊢
  cases hbehind : lines.dropWhile (· ≠ filelistLabel) with
  | nil =>
    have hall := List.dropWhile_eq_nil_iff.mp hbehind filelistLabel hlabel
    exact absurd rfl (of_decide_eq_true hall)
  | cons label after =>
    rw [hbehind] at hroom
    exact if_pos hroom

/-! ### Later calls -/

/-- The response is being sent, or its entry has no name: a call takes no resource apart for it. -/
def Settled (response : Option Response) : Prop :=
  ∃ r, response = some r ∧ (Sending r ∨ r.status = .handleInit ∧ r.bodyFileName = [])

/-- A call that ends behind the send loop has taken nothing apart at its end, and leaves an entry
for which nothing will be. -/
theorem later_of_sendEnd {w : World} {c : Call} {last : List Action} (h : SendEnd w c last) :
    (∀ a ∈ last, a.Later) ∧ c.crash = none ∧ Settled c.response := by
  cases h with
  | finishes crash response =>
    refine ⟨fun a ha => ?_, crash, _, response, .inr ⟨rfl, rfl⟩⟩
    rcases List.mem_append.mp ha with ha | ha
    · simp only [List.mem_cons, List.not_mem_nil, or_false] at ha
      rcases ha with rfl | rfl <;> exact ⟨rfl, rfl, rfl⟩
    · exact forall_mem_closeStray w (fun _ => ⟨rfl, rfl, rfl⟩) a ha
  | waits r crash response sending =>
    exact ⟨List.forall_mem_singleton.mpr ⟨rfl, rfl, rfl⟩, crash, r, response, .inl sending⟩

/-- A call behind the one that has constructed the response only sends on, or finds an entry without
a name. -/
theorem process_settled (w : World) (results : List SendResult) (request : Option Request)
    {response : Option Response} (h : Settled response) :
    (∀ a ∈ (process w results request response).acts, a.Later) ∧
      Settled (process w results request response).response := by
  obtain ⟨r, rfl, hsending | ⟨hinit, hunnamed⟩⟩ := h
  -- of the ends of a call, only the one that resumes is for a response being sent
  · cases process_ends w results request (.inr hsending) with
    | resumes writes last sending acts writing ends =>
      obtain ⟨hlast, -, hresponse⟩ := later_of_sendEnd ends
      rw [acts]
      refine ⟨fun a ha => ?_, hresponse⟩
      rcases List.mem_append.mp ha with ha | ha
      · exact (writing a ha).later
      · exact hlast a ha
    | opens _ _ _ _ status => exact absurd status hsending.not_init
    | reenters _ _ status => exact absurd status hsending.not_init
    | crashes _ _ _ status => exact absurd status hsending.not_init
  · rw [process_gone w results request hinit hunnamed]
    exact ⟨List.forall_mem_singleton.mpr ⟨rfl, rfl, rfl⟩, r, rfl, .inr ⟨hinit, hunnamed⟩⟩

/-- **Any number of later calls** takes nothing apart, touches no file and constructs nothing. By
induction on the calls, each of which leaves a settled entry. -/
theorem sends_settled (calls : List (World × List SendResult)) (request : Option Request)
    {response : Option Response} (h : Settled response) :
    ∀ a ∈ (sends calls request response).acts, a.Later := by
  induction calls generalizing request response with
  | nil => exact nofun
  | cons x calls ih =>
    obtain ⟨hacts, hresponse⟩ := process_settled x.1 x.2 request h
    have hrest := ih (process x.1 x.2 request response).request hresponse
    rw [sends_cons]
    cases (process x.1 x.2 request response).crash with
    | some f => exact hacts
    | none =>
      intro a ha
      rcases List.mem_append.mp ha with ha | ha
      · exact hacts a ha
      · exact hrest a ha

/-! ### What the calls do for a resource -/

/-- What calls do for a resource: the resources they take apart, their actions on files, and the
response they construct, before which nothing is sent on the connection. -/
structure Serves (acts : List Action) (names : List Bytes) (files : List Action)
    (reply : Option Reply) : Prop where
  names : acts.filterMap Action.taken = names
  files : acts.filter Action.onFiles = files
  reply : List.Forall₂ Reply.In reply.toList (acts.filterMap Action.constructed)
  unsent : onWire (acts.takeWhile fun a => a.constructed.isNone) = []

/-- Preparing a response takes no resource apart. -/
theorem preparing_taken {files : List Action} (h : ∀ a ∈ files, a.Preparing) :
    files.filterMap Action.taken = [] := by
  refine List.filterMap_eq_nil_iff.mpr fun a ha => ?_
  have hprep := h a ha
  cases a <;> first | exact hprep.elim | rfl

/-- All that prepares a response is done to files. -/
theorem preparing_onFiles {files : List Action} (h : ∀ a ∈ files, a.Preparing) :
    files.filter Action.onFiles = files := by
  refine List.filter_eq_self.mpr fun a ha => ?_
  have hprep := h a ha
  cases a <;> first | exact hprep.elim | rfl

/-- Preparing constructs nothing. -/
theorem preparing_constructed {files : List Action} (h : ∀ a ∈ files, a.Preparing) :
    ∀ a ∈ files, a.constructed = none := by
  intro a ha
  have hprep := h a ha
  cases a <;> first | exact hprep.elim | rfl

/-- A resource that is answered in the call that takes it apart: the files are touched in front of
the response, and what is behind it is for later. -/
theorem serves_of_acts {name : Bytes} (named : name ≠ []) {files later : List Action}
    (hfiles : ∀ a ∈ files, a.Preparing) (hlater : ∀ a ∈ later, a.Later) {r : Response}
    {reply : Reply} (hreply : reply.In r) :
    Serves (.dispatch name :: files ++ .built r :: later) [name] files (some reply) := by
  have htaken : later.filterMap Action.taken = [] :=
    List.filterMap_eq_nil_iff.mpr fun a ha => (hlater a ha).taken
  have honFiles : later.filter Action.onFiles = [] :=
    List.filter_eq_nil_iff.mpr fun a ha => by rw [(hlater a ha).onFiles]; exact nofun
  have hconstructed : later.filterMap Action.constructed = [] :=
    List.filterMap_eq_nil_iff.mpr fun a ha => (hlater a ha).constructed
  have hquiet : files.filterMap Action.constructed = [] :=
    List.filterMap_eq_nil_iff.mpr (preparing_constructed hfiles)
  -- nothing has been built in front of `r`
  have hbefore : ∀ a ∈ .dispatch name :: files, a.constructed.isNone = true := by
    intro a ha
    rcases List.mem_cons.mp ha with rfl | ha
    · rfl
    · rw [preparing_constructed hfiles a ha]
      rfl
  -- the name taken, the files worked on, the reply, and what is on the wire before it
  refine ⟨?_, ?_, ?_, ?_⟩
  · have hname : (Action.dispatch name).taken = some name := if_neg named
    rw [List.cons_append, List.filterMap_cons, hname, List.filterMap_append,
      preparing_taken hfiles, List.filterMap_cons, htaken]
    rfl
  · rw [List.cons_append, List.filter_cons_of_neg Bool.false_ne_true, List.filter_append,
      preparing_onFiles hfiles, List.filter_cons_of_neg Bool.false_ne_true, honFiles,
      List.append_nil]
  · rw [List.cons_append, List.filterMap_cons, List.filterMap_append, hquiet,
      List.filterMap_cons, hconstructed]
    exact .cons hreply .nil
  · rw [List.takeWhile_append_of_pos hbefore, List.takeWhile_cons_of_neg Bool.false_ne_true,
      List.append_nil]
    refine onWire_silent fun a ha => ?_
    rcases List.mem_cons.mp ha with rfl | ha
    · trivial
    · exact (hfiles a ha).silent

/-- A resource that is left for re-entry, with what the calls behind do: they construct the
response, and the first call has touched the files. -/
theorem serves_behind {name : Bytes} (named : name ≠ []) {files acts : List Action}
    (hfiles : ∀ a ∈ files, a.Preparing) {names : List Bytes} {reply : Option Reply}
    (hacts : Serves acts names [] reply) :
    Serves ((.dispatch name :: files ++ [.modifyWaitFd true true true]) ++ acts)
      (name :: names) files
      reply := by
  have hquiet : files.filterMap Action.constructed = [] :=
    List.filterMap_eq_nil_iff.mpr (preparing_constructed hfiles)
  -- the first call sends nothing and constructs nothing
  have hbefore : ∀ a ∈ .dispatch name :: files ++ [.modifyWaitFd true true true],
      a.Silent ∧ a.constructed.isNone = true := by
    intro a ha
    rcases List.mem_append.mp ha with ha | ha
    · rcases List.mem_cons.mp ha with rfl | ha
      · exact ⟨trivial, rfl⟩
      · rw [preparing_constructed hfiles a ha]
        exact ⟨(hfiles a ha).silent, rfl⟩
    · rw [List.mem_singleton.mp ha]
      exact ⟨trivial, rfl⟩
  -- the second call adds a name and the reply; the files are those of the first
  refine ⟨?_, ?_, ?_, ?_⟩
  · have hname : (Action.dispatch name).taken = some name := if_neg named
    rw [List.filterMap_append, hacts.names, List.cons_append, List.filterMap_cons, hname,
      List.filterMap_append, preparing_taken hfiles]
    rfl
  · rw [List.filter_append, hacts.files, List.append_nil, List.cons_append,
      List.filter_cons_of_neg Bool.false_ne_true, List.filter_append, preparing_onFiles hfiles,
      List.filter_cons_of_neg Bool.false_ne_true, List.filter_nil, List.append_nil]
  · rw [List.filterMap_append, List.cons_append, List.filterMap_cons, List.filterMap_append, hquiet]
    exact hacts.reply
  · rw [List.takeWhile_append_of_pos fun a ha => (hbefore a ha).2, onWire_append,
      onWire_silent fun a ha => (hbefore a ha).1, hacts.unsent]
    rfl

section Resource

variable {w : World} {request q : Option Request} {r r' : Response} {files : List Action}

/-- A call whose branch constructs the response does what the branch has done, constructs, and is
then like any later call. -/
theorem process_built (results : List SendResult) (init : r.status = .handleInit)
    (hstage : operaStage w request r = built q r' files) (hstatus : r'.status = .handleHead) :
    ∃ later, (process w results request (some r)).acts =
        .dispatch r.bodyFileName :: files ++ .built r' :: later ∧ (∀ a ∈ later, a.Later) ∧
      (process w results request (some r)).crash = none ∧
      Settled (process w results request (some r)).response := by
  have hloop := sendLoop_sends results q (r := r') (.inl hstatus)
  have hinit : initStage w request r = (built q r' files).prepend [.dispatch r.bodyFileName] := by
    rw [initStage_of_init init, hstage]
  rw [process_proceed hinit rfl hloop.flow]
  obtain ⟨last, hlast, hend⟩ := finish_ends w (sendLoop results q r').request hloop.status
    (((built q r' files).prepend [.dispatch r.bodyFileName]).acts ++ (sendLoop results q r').acts)
  obtain ⟨hbehind, hcrash, hresponse⟩ := later_of_sendEnd hend
  refine ⟨(sendLoop results q r').acts ++ last, hlast.trans ?_, fun a ha => ?_, hcrash, hresponse⟩
  · change .dispatch r.bodyFileName :: (files ++ [.built r']) ++ _ ++ _ = _
    simp
  · rcases List.mem_append.mp ha with ha | ha
    · exact (hloop.writes a ha).later
    · exact hbehind a ha

/-- **A branch that constructs the response**, and any number of calls behind it: the resource is
served by the first one. -/
theorem serves_built (init : r.status = .handleInit) (named : r.bodyFileName ≠ [])
    (hstage : operaStage w request r = built q r' files) (hfiles : ∀ a ∈ files, a.Preparing)
    {reply : Reply} (hreply : reply.In r') (results : List SendResult)
    (rest : List (World × List SendResult)) :
    Serves (sends ((w, results) :: rest) request (some r)).acts [r.bodyFileName] files
      (some reply) := by
  obtain ⟨later, hacts, hlater, hcrash, hresponse⟩ :=
    process_built results init hstage hreply.status
  rw [sends_cons, hcrash]
  change Serves ((process w results request (some r)).acts ++ _) _ _ _
  rw [hacts, List.append_assoc, List.cons_append]
  refine serves_of_acts named hfiles (fun a ha => ?_) hreply
  rcases List.mem_append.mp ha with ha | ha
  · exact hlater a ha
  · exact sends_settled rest _ hresponse a ha

/-- **A branch that re-enters**: the calls behind it are driven by the name it leaves. Without a
second call there is no answer. -/
theorem serves_reenter (init : r.status = .handleInit) (named : r.bodyFileName ≠ []) {name : Bytes}
    (hstage : operaStage w request r = reenter w q name files) (hfiles : ∀ a ∈ files, a.Preparing)
    (results : List SendResult) (rest : List (World × List SendResult)) (reply : World → Reply)
    (hrest : ∀ x rest', rest = x :: rest' →
      Serves (sends (x :: rest') q (some { Response.init w.fresh with bodyFileName := name })).acts
        [name] [] (some (reply x.1))) :
    Serves (sends ((w, results) :: rest) request (some r)).acts
      (r.bodyFileName :: (rest.head?.map fun _ => name).toList) files
      (rest.head?.map fun x => reply x.1) := by
  have hinit : initStage w request r =
      (reenter w q name files).prepend [.dispatch r.bodyFileName] := by
    rw [initStage_of_init init, hstage]
  rw [sends_cons, process_leave hinit rfl]
  change Serves ((.dispatch r.bodyFileName :: files ++ [.modifyWaitFd true true true]) ++
    (sends rest q (some { Response.init w.fresh with bodyFileName := name })).acts) _ _ _
  refine serves_behind named hfiles ?_
  -- no call behind, or the one that finds the new name
  cases rest with
  | nil => exact ⟨rfl, rfl, .nil, rfl⟩
  | cons x rest => exact hrest x rest rfl

end Resource

/-! ### The branches -/

/-- A response constructed with the head of a reply, and with its body, is constructed as that
reply. -/
theorem construct_in {a : Reply} {r : Response} {bodyType : MsgBodyType} {head : Bytes}
    (hhead : head = a.head) (hbody : a.HasBody (construct r bodyType head)) :
    a.In (construct r bodyType head) where
  status := rfl
  unsent := rfl
  head := hhead
  headLen := by
    rw [← hhead]
    rfl
  body := hbody

/-- The branch `opera == "/"`, when the page is built: the response has the page as its body. -/
theorem filelistStage_page {w : World} {r : Response} {page : Bytes}
    (h : getFileListPage w r.msgBody = .ok page) (request : Option Request) :
    ∃ r', filelistStage w request r = built request r' [] ∧ (Reply.page page).In r' := by
  unfold filelistStage getStatusLine
  simp only [h]
  refine ⟨_, rfl, construct_in ?_ ⟨rfl, rfl, rfl⟩⟩
  rw [← getMessageHeader_html (toDecimal_ne_nil _), head_eq]
  rfl

/-- The branch `opera == "/"`, when the directory can be listed, from an entry with no page in
it. -/
theorem filelistStage_built {w : World} (h : w.Lists) (request : Option Request) {r : Response}
    (hr : r.msgBody = []) :
    ∃ r', filelistStage w request r = built request r' [] ∧ (Reply.page (listPage w)).In r' :=
  filelistStage_page (by rw [hr]; exact getFileListPage_lists h) request

/-- The branch `opera == "downl"`, when the file opens: the response has the descriptor and the size
of the file. -/
theorem downlStage_built {w : World} {filename : Bytes} {fd : ℤ} {size : Fin (2 ^ 63)}
    (h : w.openRead (cStr (lit "filedir/" ++ filename)) = some (fd, size))
    (request : Option Request) (r : Response) :
    ∃ r', downlStage w request r filename =
        built request r' [.openRead (cStr (lit "filedir/" ++ filename)) (some fd)] ∧
      (Reply.file fd size).In r' := by
  unfold downlStage getStatusLine
  simp only [h]
  refine ⟨_, rfl, construct_in ?_ ⟨rfl, rfl, rfl⟩⟩
  rw [← getMessageHeader_file (toDecimal_ne_nil _) (toDecimal_ne_nil _), head_eq]
  rfl

/-- The branch `opera == "put"`, when the file opens; without a `Request` one is made. -/
theorem putStage_built {w : World} {filename : Bytes}
    (h : w.openTrunc (cStr (lit "filedir/" ++ filename)) = true) (request : Option Request)
    (r : Response) :
    ∃ r', putStage w request r filename =
        built (some (request.getD Request.init)) r'
          [.openTrunc (cStr (lit "filedir/" ++ filename)) true,
            .write (cStr (lit "filedir/" ++ filename)) (request.getD Request.init).recvMsg] ∧
      Reply.stored.In r' := by
  unfold putStage getStatusLine
  simp only [h, if_true]
  refine ⟨_, rfl, construct_in ?_ rfl⟩
  rw [← getMessageHeader_html (by decide), head_eq]
  rfl

/-- The last branch constructs the redirect to the list, and touches nothing. -/
theorem redirectStage_built (request : Option Request) (r : Response) :
    ∃ r', redirectStage request r = built request r' [] ∧ Reply.redirect.In r' := by
  unfold redirectStage getStatusLine
  refine ⟨_, rfl, construct_in ?_ rfl⟩
  rw [← getMessageHeader_html (by decide), head_eq]
  rfl

/-- What the branches come to for an operation and a file name, one case for each outcome of what
they open. -/
inductive OperaEnd (w : World) (request : Option Request) (r : Response) (opera filename : Bytes) :
    Stage → Prop where
  /-- The page cannot be built. -/
  | unlisted (root : opera = lit "/") (r' : Response) (f : Fault) :
      OperaEnd w request r opera filename ⟨request, r', [], .crash f⟩
  | page (root : opera = lit "/") (page : Bytes) (r' : Response) (reply : (Reply.page page).In r') :
      OperaEnd w request r opera filename (built request r' [])
  | file (downl : opera = lit "downl") (fd : ℤ) (size : Fin (2 ^ 63)) (r' : Response)
      (reply : (Reply.file fd size).In r') : OperaEnd w request r opera filename
        (built request r' [.openRead (cStr (lit "filedir/" ++ filename)) (some fd)])
  /-- The file to be downloaded does not open. -/
  | missing (downl : opera = lit "downl") : OperaEnd w request r opera filename
      (reenter w request (lit "/redirect") [.openRead (cStr (lit "filedir/" ++ filename)) none])
  | removes (del : opera = lit "del") : OperaEnd w request r opera filename
      (reenter w request (lit "/") [.remove (cStr (lit "filedir/" ++ filename))
        (w.remove (cStr (lit "filedir/" ++ filename)))])
  | stores (put : opera = lit "put")
      (opens : w.openTrunc (cStr (lit "filedir/" ++ filename)) = true) (r' : Response)
      (reply : Reply.stored.In r') : OperaEnd w request r opera filename
        (built (some (request.getD Request.init)) r'
          [.openTrunc (cStr (lit "filedir/" ++ filename)) true,
            .write (cStr (lit "filedir/" ++ filename)) (request.getD Request.init).recvMsg])
  /-- The file to be written does not open. -/
  | unstored (put : opera = lit "put")
      (fails : w.openTrunc (cStr (lit "filedir/" ++ filename)) = false) :
      OperaEnd w request r opera filename
        (reenter w request (lit "/redirect") [.openTrunc (cStr (lit "filedir/" ++ filename)) false])
  | redirects (other : opera ∉ [lit "/", lit "downl", lit "del", lit "put"]) (r' : Response)
      (reply : Reply.redirect.In r') : OperaEnd w request r opera filename (built request r' [])

/-- **The branches of `HANDLE_INIT`**: the outcome is one of those, by the operation and by what it
opens, in the order in which the source asks. -/
theorem operaStage_ends {r : Response} {opera filename : Bytes}
    (hsplit : splitResource r.bodyFileName = .ok (opera, filename)) (w : World)
    (request : Option Request) : OperaEnd w request r opera filename (operaStage w request r) := by
  rw [operaStage_of_split hsplit]
  by_cases hroot : opera = lit "/"
  -- the list: the page is made, or its template does not open
  · rw [if_pos hroot]
    cases hpage : getFileListPage w r.msgBody with
    | error f =>
      have hstage : filelistStage w request r =
          ⟨request, (getStatusLine r (lit "HTTP/1.1") (lit "200") (lit "OK")).1, [], .crash f⟩ := by
        unfold filelistStage getStatusLine
        simp only [hpage]
      rw [hstage]
      exact .unlisted hroot _ f
    | ok page =>
      obtain ⟨r', hstage, hin⟩ := filelistStage_page hpage request
      rw [hstage]
      exact .page hroot page r' hin
  rw [if_neg hroot]
  by_cases hdownl : opera = lit "downl"
  -- a download: the file opens, or the browser is sent back
  · rw [if_pos hdownl]
    cases hopen : w.openRead (cStr (lit "filedir/" ++ filename)) with
    | none =>
      unfold downlStage getStatusLine
      simp only [hopen]
      exact .missing hdownl
    | some p =>
      obtain ⟨fd, size⟩ := p
      obtain ⟨r', hstage, hin⟩ := downlStage_built hopen request r
      rw [hstage]
      exact .file hdownl fd size r' hin
  rw [if_neg hdownl]
  by_cases hdel : opera = lit "del"
  -- a deletion answers with the list, whether or not there was a file
  · rw [if_pos hdel]
    exact .removes hdel
  rw [if_neg hdel]
  by_cases hput : opera = lit "put"
  -- a `PUT`, or a `GET` of the same resource: the file is emptied and written
  · rw [if_pos hput]
    cases hopen : w.openTrunc (cStr (lit "filedir/" ++ filename)) with
    | true =>
      obtain ⟨r', hstage, hin⟩ := putStage_built hopen request r
      rw [hstage]
      exact .stores hput hopen r' hin
    | false =>
      unfold putStage
      simp only [hopen, Bool.false_eq_true, if_false]
      exact .unstored hput hopen
  · rw [if_neg hput]
    -- every other operation is redirected
    obtain ⟨r', hstage, hin⟩ := redirectStage_built request r
    rw [hstage]
    exact .redirects (by simp [hroot, hdownl, hdel, hput]) r' hin

section Answers

variable {request : Option Request} {r : Response}

/-- A resource of no operation is redirected, in the first call. -/
theorem serves_redirect (init : r.status = .handleInit) (named : r.bodyFileName ≠ [])
    {op filename : Bytes} (hsplit : splitResource r.bodyFileName = .ok (op, filename))
    (hop : op ∉ [lit "/", lit "downl", lit "del", lit "put"])
    (calls : List (World × List SendResult)) (hcalls : calls ≠ []) :
    Serves (sends calls request (some r)).acts [r.bodyFileName] [] (some .redirect) := by
  obtain ⟨⟨w, results⟩, rest, rfl⟩ := List.exists_cons_of_ne_nil hcalls
  simp only [List.mem_cons, List.not_mem_nil, or_false, not_or] at hop
  obtain ⟨hroot, hdownl, hdel, hput⟩ := hop
  obtain ⟨r', hstage, hin⟩ := redirectStage_built request r
  have hopera : operaStage w request r = built request r' [] := by
    rw [operaStage_of_split hsplit, if_neg hroot, if_neg hdownl, if_neg hdel, if_neg hput]
    exact hstage
  exact serves_built init named hopera nofun hin results rest

/-- The page of the first call answers `/`, as it can be listed in that call. -/
theorem serves_page (init : r.status = .handleInit) (blank : r.msgBody = [])
    (root : r.bodyFileName = lit "/") {w : World} (hlists : w.Lists) (results : List SendResult)
    (rest : List (World × List SendResult)) :
    Serves (sends ((w, results) :: rest) request (some r)).acts [lit "/"] []
      (some (.page (listPage w))) := by
  obtain ⟨r', hstage, hin⟩ := filelistStage_built hlists request blank
  have hopera : operaStage w request r = built request r' [] := by
    unfold operaStage
    rw [root]
    exact hstage
  rw [← root]
  exact serves_built init (by rw [root]; decide) hopera nofun hin results rest

/-- The re-entry for `/redirect` is redirected by the call that finds it. -/
theorem serves_redirected (u : Uninit) (q : Option Request) (x : World × List SendResult)
    (rest : List (World × List SendResult)) :
    Serves (sends (x :: rest) q
      (some { Response.init u with bodyFileName := lit "/redirect" })).acts [lit "/redirect"] []
        (some .redirect) :=
  serves_redirect (r := { Response.init u with bodyFileName := lit "/redirect" }) rfl
    (show lit "/redirect" ≠ [] by decide)
    (show splitResource (lit "/redirect") = .ok (lit "redirect", []) by decide)
    (by decide) _ nofun

variable {op filename : Bytes} (w : World) (results : List SendResult)
  (rest : List (World × List SendResult))

/-- `downl`: the file is opened once. It answers when it opens, and otherwise the second call
redirects. -/
theorem serves_downl (init : r.status = .handleInit) (named : r.bodyFileName ≠ [])
    (hsplit : splitResource r.bodyFileName = .ok (lit "downl", filename)) :
    let path := cStr (lit "filedir/" ++ filename)
    (∀ fd size, w.openRead path = some (fd, size) →
      Serves (sends ((w, results) :: rest) request (some r)).acts [r.bodyFileName]
        [.openRead path (some fd)] (some (.file fd size))) ∧
    (w.openRead path = none →
      Serves (sends ((w, results) :: rest) request (some r)).acts
        (r.bodyFileName :: (rest.head?.map fun _ => lit "/redirect").toList)
        [.openRead path none] (rest.head?.map fun _ => .redirect)) := by
  intro path
  have hopera : operaStage w request r = downlStage w request r filename :=
    operaStage_of_split hsplit w request
  have hprep (fd : Option ℤ) : ∀ a ∈ [Action.openRead path fd], a.Preparing :=
    List.forall_mem_singleton.mpr trivial
  constructor
  · intro fd size hopen
    -- the file opens: the answer is sent from it
    obtain ⟨r', hstage, hin⟩ := downlStage_built hopen request r
    exact serves_built init named (hopera.trans hstage) (hprep _) hin results rest
  · intro hfail
    -- the file does not open: the resource is dispatched again as the redirect
    have hstage : operaStage w request r =
        reenter w request (lit "/redirect") [.openRead path none] := by
      rw [hopera]
      unfold downlStage getStatusLine
      simp only
      rw [show w.openRead (cStr (lit "filedir/" ++ filename)) = none from hfail]
    refine serves_reenter init named hstage (hprep _) results rest (fun _ => .redirect) ?_
    intro x rest' _
    exact serves_redirected w.fresh request x rest'

/-- `del`: the file is removed once, and the page of the second call answers. -/
theorem serves_del (init : r.status = .handleInit) (named : r.bodyFileName ≠ [])
    (hsplit : splitResource r.bodyFileName = .ok (lit "del", filename))
    (hlists : ∀ x ∈ rest.head?, x.1.Lists) :
    let path := cStr (lit "filedir/" ++ filename)
    Serves (sends ((w, results) :: rest) request (some r)).acts
      (r.bodyFileName :: (rest.head?.map fun _ => lit "/").toList)
      [.remove path (w.remove path)] (rest.head?.map fun x => .page (listPage x.1)) := by
  intro path
  have hstage : operaStage w request r =
      reenter w request (lit "/") [.remove path (w.remove path)] :=
    operaStage_of_split hsplit w request
  have hprep : ∀ a ∈ [Action.remove path (w.remove path)], a.Preparing :=
    List.forall_mem_singleton.mpr trivial
  refine serves_reenter init named hstage hprep results rest (fun w => .page (listPage w)) ?_
  rintro x rest' rfl
  exact serves_page (r := { Response.init w.fresh with bodyFileName := lit "/" }) rfl rfl rfl
    (hlists x rfl) x.2 rest'

/-- `put`: the file is opened for writing once, and the `Request` is written to it. Where it does
not open, the second call redirects. -/
theorem serves_put (init : r.status = .handleInit) (named : r.bodyFileName ≠ [])
    (hsplit : splitResource r.bodyFileName = .ok (lit "put", filename)) :
    let path := cStr (lit "filedir/" ++ filename)
    (w.openTrunc path = true →
      Serves (sends ((w, results) :: rest) request (some r)).acts [r.bodyFileName]
        [.openTrunc path true, .write path (request.getD Request.init).recvMsg] (some .stored)) ∧
    (w.openTrunc path = false →
      Serves (sends ((w, results) :: rest) request (some r)).acts
        (r.bodyFileName :: (rest.head?.map fun _ => lit "/redirect").toList)
        [.openTrunc path false] (rest.head?.map fun _ => .redirect)) := by
  intro path
  have hopera (request : Option Request) :
      operaStage w request r = putStage w request r filename :=
    operaStage_of_split hsplit w request
  constructor
  · intro hopen
    -- the file opens: the body is written, if only that of the `Request` `operator[]` makes
    obtain ⟨r', hstage, hin⟩ := putStage_built hopen request r
    refine serves_built init named ((hopera _).trans hstage) (fun a ha => ?_) hin results rest
    simp only [List.mem_cons, List.not_mem_nil, or_false] at ha
    rcases ha with rfl | rfl <;> trivial
  · intro hfail
    -- the file does not open: the resource is dispatched again as the redirect
    have hstage : operaStage w request r =
        reenter w request (lit "/redirect") [.openTrunc path false] := by
      rw [hopera]
      unfold putStage
      simp only
      rw [show w.openTrunc (cStr (lit "filedir/" ++ filename)) = false from hfail]
      rfl
    have hprep : ∀ a ∈ [Action.openTrunc path false], a.Preparing :=
      List.forall_mem_singleton.mpr trivial
    refine serves_reenter init named hstage hprep results rest (fun _ => .redirect) ?_
    intro x rest' _
    exact serves_redirected w.fresh request x rest'

/-- Any other resource is redirected, whether it has another operation or none. -/
theorem serves_other (init : r.status = .handleInit) (named : r.bodyFileName ≠ [])
    (short : r.bodyFileName.length < 2 ^ 31) (hroot : r.bodyFileName ≠ lit "/")
    (hother : ∀ op filename, NamesFile r.bodyFileName op filename →
      op ∉ [lit "downl", lit "del", lit "put"]) :
    Serves (sends ((w, results) :: rest) request (some r)).acts [r.bodyFileName] []
      (some .redirect) := by
  -- it names a file for another operation, or names none
  by_cases hnames : ∃ op filename, NamesFile r.bodyFileName op filename
  · obtain ⟨op, filename, h⟩ := hnames
    refine serves_redirect init named (splitResource_names h short) ?_ _ nofun
    -- an operation has no slash
    have hop : op ≠ lit "/" := fun heq => h.op (heq ▸ by decide)
    exact List.not_mem_cons_of_ne_of_not_mem hop (hother op filename h)
  · refine serves_redirect init named (splitResource_other named hroot short ?_) (by decide) _ nofun
    exact fun op filename h => hnames ⟨op, filename, h⟩

end Answers

/-- Calls without an action on files leave every file as it is. -/
theorem Serves.unchanged {acts : List Action} {names : List Bytes} {reply : Option Reply}
    (h : Serves acts names [] reply) (path : Bytes) (f : File) : fileAfter path f acts = f := by
  refine fileAfter_of_not_alters (fun a ha halters => ?_) f
  have honFiles := List.filter_eq_nil_iff.mp h.files a ha
  cases a <;> simp [Action.onFiles, Action.alters] at honFiles halters

/-- **A resource acts once and is answered.** Take a response in `HANDLE_INIT` with a name shorter
than `2 ^ 31` bytes, and any number of calls with any answers of the system. The operations `downl`,
`del` and `put` act on `filedir/<filename>` exactly as listed, `/` lists the files, and everything
else is redirected and touches no file. Each is answered in the first call, or, where the branch
re-enters, in the second; no call behind that takes anything apart, acts on a file or constructs a
response. -/
theorem resource_served {r : Response} (init : r.status = .handleInit) (blank : r.msgBody = [])
    (named : r.bodyFileName ≠ []) (short : r.bodyFileName.length < 2 ^ 31)
    (request : Option Request) (w : World) (results : List SendResult)
    (rest : List (World × List SendResult)) :
    let acts := (sends ((w, results) :: rest) request (some r)).acts
    let name := r.bodyFileName
    let behind (next : Bytes) := name :: (rest.head?.map fun _ => next).toList
    (∀ op filename, NamesFile name op filename →
      let path := cStr (lit "filedir/" ++ filename)
      (op = lit "downl" →
        (∀ fd size, w.openRead path = some (fd, size) →
          Serves acts [name] [.openRead path (some fd)] (some (.file fd size))) ∧
        (w.openRead path = none →
          Serves acts (behind (lit "/redirect")) [.openRead path none]
            (rest.head?.map fun _ => .redirect))) ∧
      (op = lit "del" → (∀ x ∈ rest.head?, x.1.Lists) →
        Serves acts (behind (lit "/")) [.remove path (w.remove path)]
          (rest.head?.map fun x => .page (listPage x.1))) ∧
      (op = lit "put" →
        (w.openTrunc path = true →
          Serves acts [name] [.openTrunc path true, .write path (request.getD Request.init).recvMsg]
            (some .stored)) ∧
        (w.openTrunc path = false →
          Serves acts (behind (lit "/redirect")) [.openTrunc path false]
            (rest.head?.map fun _ => .redirect)))) ∧
      (name = lit "/" → w.Lists → Serves acts [name] [] (some (.page (listPage w)))) ∧
      (name ≠ lit "/" →
        (∀ op filename, NamesFile name op filename → op ∉ [lit "downl", lit "del", lit "put"]) →
          Serves acts [name] [] (some .redirect) ∧ ∀ path f, fileAfter path f acts = f) := by
  intro acts name behind
  refine ⟨fun op filename hnames => ?_, fun hroot hlists => ?_, fun hroot hother => ?_⟩
  · intro path
    -- the operation and the file name are the two parts of the resource
    have hsplit := splitResource_names hnames short
    refine ⟨?_, ?_, ?_⟩
    · rintro rfl
      exact serves_downl w results rest init named hsplit
    · rintro rfl hlists
      exact serves_del w results rest init named hsplit hlists
    · rintro rfl
      exact serves_put w results rest init named hsplit
  · -- the list page is served under its own name
    have hpage : Serves acts [lit "/"] [] (some (.page (listPage w))) :=
      serves_page init blank hroot hlists results rest
    rwa [← hroot] at hpage
  · have hserves : Serves acts [name] [] (some .redirect) :=
      serves_other w results rest init named short hroot hother
    exact ⟨hserves, hserves.unchanged⟩

/-- A file is removed in the first call, the page is constructed in the second and sent in the
third. -/
def removal : List (World × List SendResult) :=
  [(sampleWorld, []), (sampleWorld, [.again]),
    (sampleWorld, [.accepted 4096 [], .accepted 4096 []])]

theorem resource_served_removal :
    Serves (sends removal none
        (some { Response.init sampleWorld.fresh with bodyFileName := lit "/del/a.txt" })).acts
      [lit "/del/a.txt", lit "/"] [.remove (lit "filedir/a.txt") true]
      (some (.page (listPage sampleWorld))) :=
  ((resource_served (r := { Response.init sampleWorld.fresh with bodyFileName := lit "/del/a.txt" })
    rfl rfl (show lit "/del/a.txt" ≠ [] by decide)
    (show (lit "/del/a.txt").length < 2 ^ 31 by decide) none sampleWorld [] removal.tail).1
      (lit "del") (lit "a.txt") ⟨⟨47, rfl⟩, by decide, by decide⟩).2.1 rfl
    (by
      rintro x ⟨⟩
      exact ⟨by decide, rfl, by decide +kernel⟩)

end HandleSend

end Cherokee

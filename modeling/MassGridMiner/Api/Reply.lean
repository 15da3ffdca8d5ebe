import MassGridMiner.Api.Bounds
import MassGridMiner.Api.Readable

/-!
# Replies

The bytes of a reply are queued piece by piece: the message, the sections, and the brackets.  The
one behind the last section is left to the loop, which is told by a flag that it is missing.
Where commands are joined, the reply of each is a member of an object.

## Main definitions

* `IoData` — the queue, and the flag.
* `ApiServer.queued` — what is queued for a request.
* `ApiServer.answer` — the value that is meant.
* `ApiServer.Answered`, `ApiServer.Readable` — that is what is queued; and the condition.
* `answered_iff_readable` — the first holds exactly under the second.
-/

namespace MassGridMiner

open JsonText

/-! ## The queue -/

/-- `struct io_data`. -/
structure IoData where
  data : List UInt8
  close : Bool

/-- What `io_reinit` makes of it. -/
def IoData.start : IoData := ⟨[], false⟩

/-- `io_add`. -/
def IoData.add (io : IoData) (buf : List UInt8) : IoData := { io with data := io.data ++ buf }

/-- `JSON_CLOSE`, where it is JSON. -/
def jsonClose (isjson : Bool) : List UInt8 := if isjson then [0x5d] else []

/-- `JSON_END`, where it is JSON. -/
def jsonEnd (isjson : Bool) : List UInt8 := if isjson then literal ",\"id\":1\x7d" else []

/-- `JSON1`, a name and `JSON2`. -/
def jsonName (name : List UInt8) : List UInt8 := 0x22 :: (name ++ [0x22, 0x3a, 0x5b])

section
variable (printDouble : ℕ → Float → List UInt8) (isjson : Bool)

/-- What a command adds for a section, without the bracket behind it. -/
def Section.text (s : Section) : List UInt8 :=
  (if isjson then comma :: jsonName s.heading.text
    else if s.inText then s.heading.text ++ [comma] else []) ++
  s.lists.flatMap fun (root, precom) => printDataText printDouble root isjson precom

/-- What a command does for its sections. -/
def IoData.sections (io : IoData) : Sections → IoData
  | .ofLoop s =>
    { data := io.data ++ s.text printDouble isjson, close := isjson || io.close }
  | .own ss => io.add (ss.flatMap fun s => s.text printDouble isjson ++ jsonClose isjson)

/-- `head_join`. -/
def IoData.headJoin (io : IoData) (cmdptr : List UInt8) (firstjoin : Bool) : IoData :=
  let ptr := (escapeString isjson (.ofMem cmdptr)).bytes
  if isjson then io.add ((if firstjoin then [0x7b] else [comma]) ++ jsonName ptr)
  else io.add (literal "CMD=" ++ ptr ++ [separator])

/-- `tail_join`. -/
def IoData.tailJoin (io : IoData) : IoData where
  data := io.data ++ (if io.close then [0x5d] else []) ++ jsonEnd isjson ++ jsonClose isjson
  close := false

/-- `send_result`, with the NUL that ends the reply. -/
def IoData.sendResult (io : IoData) : IoData :=
  io.add ((if io.close then [0x5d] else []) ++ jsonEnd isjson ++ [0])

end

/-- A reply that is read as it is meant. -/
def CmdReply.Readable (b : Build) (st : ApiState) (reply : CmdReply) : Prop :=
  reply.status.Readable b st ∧ ∀ s ∈ reply.sections.toList, ListsReadable s.lists

namespace ApiServer
variable (srv : ApiServer) (printDouble : ℕ → Float → List UInt8) (isjson : Bool)

/-- What `message` adds. -/
def messageText (call : MessageCall) (perProc : Bool) : List UInt8 :=
  (if isjson then 0x7b :: jsonName (literal "STATUS") else []) ++
    (message srv.build srv.st perProc printDouble isjson call).2.text ++ jsonClose isjson

/-- What a command adds, or the loop for a message of its own. -/
def addReply (io : IoData) (reply : CmdReply) (perProc : Bool) : IoData :=
  (io.add (srv.messageText printDouble isjson reply.status perProc)).sections printDouble isjson
    reply.sections

/-- What one thing that the loop does adds. -/
def queue (io : IoData) : ApiEvent → IoData
  | .headJoin cmd firstjoin => io.headJoin isjson cmd firstjoin
  | .tailJoin => io.tailJoin isjson
  | .sendResult => io.sendResult isjson
  | event =>
    match srv.reply isjson event with
    | some (reply, perProc) => srv.addReply printDouble isjson io reply perProc
    | none => io

/-- What is queued for a request. -/
def queued (events : List ApiEvent) : List UInt8 :=
  (events.foldl (srv.queue printDouble isjson) .start).data

/-! ## What is meant -/

/-- The last member of every object of a reply. -/
def idMember : List UInt8 × Tree := (literal "id", .number [0x31])

/-- The object that a reply is meant to be. -/
def replyTree (reply : CmdReply) (perProc : Bool) : Tree :=
  .object ((literal "STATUS",
      .array [messageTree srv.build srv.st perProc printDouble reply.status]) ::
    (reply.sections.toList.map fun s => (s.heading.text, listsTree printDouble s.lists)) ++
    [idMember])

/-- The object that what the loop does once is meant to come to. -/
def eventTree (event : ApiEvent) : Tree :=
  match srv.reply true event with
  | some (reply, perProc) => srv.replyTree printDouble reply perProc
  | none => .null

/-- The commands that are joined, with what is done for each. -/
def joinedParts : List ApiEvent → List (List UInt8 × ApiEvent)
  | .headJoin cmd _ :: event :: .tailJoin :: events => (cmd, event) :: joinedParts events
  | _ => []

/-- The value that a request is meant to be answered with. -/
def answer : List ApiEvent → Tree
  | [event, .sendResult] => srv.eventTree printDouble event
  | events => .object (((joinedParts events).map fun part =>
      ((CStr.ofMem part.1).bytes, .array [srv.eventTree printDouble part.2])) ++ [idMember])

/-! ## One reply -/

end ApiServer

theorem plain_heading (heading : Heading) : ∀ c ∈ heading.text, Plain c := by
  have hdigits : ∀ n, ∀ c ∈ printUint n, Plain c := fun n c hc => by
    obtain ⟨hlo, hhi⟩ := (intPart_printUint n).1.2 c hc
    refine ⟨UInt8.le_trans (by decide) hlo, ?_, ?_⟩
    · rintro rfl
      exact absurd hlo (by decide)
    · rintro rfl
      exact absurd hhi (by decide)
  cases heading with
  | minecoin id =>
      cases id with
      | none => exact plain_of_all (by decide +kernel)
      | some id =>
          rw [Heading.text, List.forall_mem_append]
          exact ⟨plain_of_all (by decide +kernel), hdigits _⟩
  | _ => exact plain_of_all (by decide +kernel)

section
variable {printDouble : ℕ → Float → List UInt8}

/-- A member of a reply, with an array. -/
theorem exact_named {name text : List UInt8} {v : Tree} {P : Prop} (hname : ∀ c ∈ name, Plain c)
    (H : Exact Value (0x5b :: text) v P) :
    Exact JsonText.Member (jsonName name ++ text) (name, v) P := by
  have htext : jsonName name ++ text = 0x22 :: (name ++ 0x22 :: 0x3a :: 0x5b :: text) := by
    simp [jsonName]
  rw [htext]
  exact (exact_member (exactStr_raw name) H).congr (and_iff_right hname)

/-- An array of one thing. -/
theorem exact_one {text : List UInt8} {v : Tree} {P : Prop} (H : Exact Value text v P) :
    Exact Value (0x5b :: (text ++ [0x5d])) (.array [v]) P :=
  (exact_array (exact_listed H (exact_close rfl (by decide) (by decide)))).congr
    (and_iff_left trivial)

/-- Every object of a reply ends with the same member. -/
theorem exact_id :
    Exact (Behind JsonText.Member 0x7d) (jsonEnd true) [ApiServer.idMember] True := by
  have htext : jsonEnd true =
      0x2c :: (0x22 :: (literal "id" ++ 0x22 :: 0x3a :: [0x31]) ++ [0x7d]) := by
    decide +kernel
  have hplain : ∀ c ∈ literal "id", Plain c := plain_of_all (by decide +kernel)
  have hone : IsNumber [0x31] := ⟨[], [0x31], [], [], .inl rfl,
    ⟨⟨by decide, by simp⟩, by decide⟩, .inl rfl, .inl rfl, rfl⟩
  rw [htext]
  exact (exact_comma (by decide) (exact_listed
    (exact_member (exactStr_raw _) (exact_number (by decide)))
    (exact_close rfl (by decide) (by decide)))).congr
      (iff_true_intro ⟨⟨hplain, hone⟩, trivial⟩)

theorem exact_behind_sections (H : PrintsDoubles printDouble) (ss : List Section) :
    Exact (Behind JsonText.Member 0x7d)
      (ss.flatMap (fun s => comma :: (jsonName s.heading.text ++ listsText printDouble s.lists)) ++
        jsonEnd true)
      (ss.map (fun s => (s.heading.text, listsTree printDouble s.lists)) ++ [ApiServer.idMember])
      (∀ s ∈ ss, ListsReadable s.lists) := by
  induction ss with
  | nil => exact exact_id.congr (by simp)
  | cons s ss ih =>
      rw [List.flatMap_cons, List.append_assoc, List.cons_append, List.map_cons, List.cons_append,
        List.forall_mem_cons]
      exact exact_comma (by decide)
        (exact_listed (exact_named (plain_heading s.heading) (exact_lists H s.lists)) ih)

end

namespace ApiServer
variable (srv : ApiServer) (printDouble : ℕ → Float → List UInt8)

/-- The text of a reply with all its brackets. -/
def replyText (reply : CmdReply) (perProc : Bool) : List UInt8 :=
  0x7b :: ((jsonName (literal "STATUS") ++ (objectText printDouble
      (messageRoot srv.build srv.st perProc reply.status (reply.status.param2.passed true)) ++
        [0x5d])) ++
    (reply.sections.toList.flatMap (fun s =>
      comma :: (jsonName s.heading.text ++ listsText printDouble s.lists)) ++ jsonEnd true))

variable {printDouble}

/-- **One reply.** -/
theorem exact_reply (H : PrintsDoubles printDouble) (reply : CmdReply) (perProc : Bool) :
    Exact Value (srv.replyText printDouble reply perProc) (srv.replyTree printDouble reply perProc)
      (reply.Readable srv.build srv.st) := by
  have hstatus : ∀ c ∈ literal "STATUS", Plain c := plain_of_all (by decide +kernel)
  exact exact_object (exact_listed
    (exact_named hstatus (exact_one (exact_message srv.build srv.st perProc H reply.status)))
    (exact_behind_sections H reply.sections.toList))

/-- What the loop adds behind a command is what is missing. -/
theorem queue_reply (printDouble : ℕ → Float → List UInt8) {event : ApiEvent} {reply : CmdReply}
    {perProc : Bool} (hreply : srv.reply true event = some (reply, perProc)) {io : IoData}
    (hclose : io.close = false) :
    (srv.queue printDouble true io event).data ++
        (if (srv.queue printDouble true io event).close then [0x5d] else []) ++ jsonEnd true =
      io.data ++ srv.replyText printDouble reply perProc := by
  have hqueue : srv.queue printDouble true io event =
      srv.addReply printDouble true io reply perProc := by
    cases event with
    | call | message => simp only [queue, hreply]
    | _ => cases hreply
  have hmessage : (message srv.build srv.st perProc printDouble true reply.status).2.text =
      objectText printDouble
        (messageRoot srv.build srv.st perProc reply.status (reply.status.param2.passed true)) :=
    printDataText_json _ false
  rw [hqueue, addReply, replyText]
  cases reply.sections with
  | ofLoop s =>
      simp [IoData.sections, IoData.add, messageText, hmessage, jsonClose, Section.text, comma,
        listsText, Sections.toList]
  | own ss =>
      simp [IoData.sections, IoData.add, messageText, hmessage, jsonClose, Section.text, comma,
        listsText, Sections.toList, hclose]

/-! ## Joined replies -/

/-- What is done for parts that are joined. -/
def joinEvents : Bool → List (List UInt8 × ApiEvent) → List ApiEvent
  | _, [] => [.sendResult]
  | firstjoin, (cmd, event) :: parts =>
    .headJoin cmd firstjoin :: event :: .tailJoin :: joinEvents false parts

theorem joinedParts_joinEvents (firstjoin : Bool) (parts : List (List UInt8 × ApiEvent)) :
    joinedParts (joinEvents firstjoin parts) = parts := by
  induction parts generalizing firstjoin with
  | nil => rfl
  | cons part parts ih => rw [joinEvents, joinedParts, ih]

variable (printDouble)

/-- The text of what is done once. -/
def eventText (event : ApiEvent) : List UInt8 :=
  match srv.reply true event with
  | some (reply, perProc) => srv.replyText printDouble reply perProc
  | none => []

/-- The text of parts that are joined. -/
def joinText : Bool → List (List UInt8 × ApiEvent) → List UInt8
  | _, [] => []
  | firstjoin, (cmd, event) :: parts =>
    (if firstjoin then [0x7b] else [comma]) ++
      (jsonName (escapeString true (.ofMem cmd)).bytes ++
        (srv.eventText printDouble event ++ [0x5d])) ++
      joinText false parts

variable {printDouble}

theorem foldl_joinEvents (firstjoin : Bool) (parts : List (List UInt8 × ApiEvent))
    (hreply : ∀ part ∈ parts, (srv.reply true part.2).isSome) (io : IoData)
    (hclose : io.close = false) :
    ((joinEvents firstjoin parts).foldl (srv.queue printDouble true) io).data =
      io.data ++ srv.joinText printDouble firstjoin parts ++ jsonEnd true ++ [0] := by
  induction parts generalizing firstjoin io with
  | nil =>
      simp [joinEvents, joinText, queue, IoData.sendResult, IoData.add, hclose]
  | cons part parts ih =>
      obtain ⟨cmd, event⟩ := part
      rw [List.forall_mem_cons] at hreply
      obtain ⟨⟨reply, perProc⟩, hevent⟩ := Option.isSome_iff_exists.mp hreply.1
      have hhead : (io.headJoin true cmd firstjoin).close = false := hclose
      have htext := srv.queue_reply printDouble hevent hhead
      have hqueue : srv.queue printDouble true io (.headJoin cmd firstjoin) =
          io.headJoin true cmd firstjoin := rfl
      rw [joinEvents, List.foldl_cons, List.foldl_cons, List.foldl_cons, ih false hreply.2 _ rfl,
        hqueue, joinText, eventText, hevent]
      generalize srv.queue printDouble true (io.headJoin true cmd firstjoin) event = io' at htext ⊢
      have htail : (srv.queue printDouble true io' .tailJoin).data =
          (io.headJoin true cmd firstjoin).data ++ srv.replyText printDouble reply perProc ++
            [0x5d] := congrArg (· ++ [0x5d]) htext
      rw [htail]
      simp [IoData.headJoin, IoData.add]

/-- What is done once is read as it is meant. -/
def EventReadable : ApiEvent → Prop
  | .headJoin cmd _ => Printable (CStr.ofMem cmd).bytes
  | event => ∀ reply, srv.reply true event = some reply → reply.1.Readable srv.build srv.st

theorem eventReadable_iff {event : ApiEvent} {reply : CmdReply} {perProc : Bool}
    (hreply : srv.reply true event = some (reply, perProc)) :
    srv.EventReadable event ↔ reply.Readable srv.build srv.st := by
  have hevent : srv.EventReadable event ↔
      ∀ reply, srv.reply true event = some reply → reply.1.Readable srv.build srv.st := by
    cases event with
    | headJoin => cases hreply
    | _ => rfl
  rw [hevent, hreply]
  constructor
  · exact fun h => h (reply, perProc) rfl
  · rintro h _ ⟨⟩
    exact h

theorem exact_event (H : PrintsDoubles printDouble) {event : ApiEvent}
    (hreply : (srv.reply true event).isSome) :
    Exact Value (srv.eventText printDouble event) (srv.eventTree printDouble event)
      (srv.EventReadable event) := by
  obtain ⟨⟨reply, perProc⟩, hevent⟩ := Option.isSome_iff_exists.mp hreply
  rw [eventText, eventTree, hevent]
  exact (srv.exact_reply H reply perProc).congr (srv.eventReadable_iff hevent).symm

/-- A part that is read as it is meant. -/
def PartReadable (part : List UInt8 × ApiEvent) : Prop :=
  Printable (CStr.ofMem part.1).bytes ∧ srv.EventReadable part.2

theorem exact_part (H : PrintsDoubles printDouble) (part : List UInt8 × ApiEvent)
    (hreply : (srv.reply true part.2).isSome) :
    Exact JsonText.Member
      (jsonName (escapeString true (.ofMem part.1)).bytes ++
        (srv.eventText printDouble part.2 ++ [0x5d]))
      ((CStr.ofMem part.1).bytes, .array [srv.eventTree printDouble part.2])
      (srv.PartReadable part) := by
  have htext : ∀ name text : List UInt8, jsonName name ++ text =
      0x22 :: (name ++ 0x22 :: 0x3a :: 0x5b :: text) := by
    simp [jsonName]
  rw [htext, bytes_escapeString]
  exact (exact_member (exactStr_escaped _ _) (exact_one (srv.exact_event H hreply))).congr
    (and_congr_left' (and_iff_left rfl))

theorem exact_behind_parts (H : PrintsDoubles printDouble) (parts : List (List UInt8 × ApiEvent))
    (hreply : ∀ part ∈ parts, (srv.reply true part.2).isSome) :
    Exact (Behind JsonText.Member 0x7d) (srv.joinText printDouble false parts ++ jsonEnd true)
      (parts.map (fun part =>
        ((CStr.ofMem part.1).bytes, Tree.array [srv.eventTree printDouble part.2])) ++ [idMember])
      (∀ part ∈ parts, srv.PartReadable part) := by
  induction parts with
  | nil => exact exact_id.congr (by simp)
  | cons part parts ih =>
      rw [List.forall_mem_cons] at hreply
      have hparts := exact_comma (by decide)
        (exact_listed (srv.exact_part H part hreply.1) (ih hreply.2))
      rw [joinText, if_neg Bool.false_ne_true, List.append_assoc, List.append_assoc,
        List.forall_mem_cons]
      exact hparts

theorem forall_partReadable_iff (firstjoin : Bool) (parts : List (List UInt8 × ApiEvent)) :
    (∀ part ∈ parts, srv.PartReadable part) ↔
      ∀ event ∈ joinEvents firstjoin parts, srv.EventReadable event := by
  have hreadable : ∀ event, event = .tailJoin ∨ event = .sendResult → srv.EventReadable event := by
    rintro event (rfl | rfl) reply h <;> cases h
  induction parts generalizing firstjoin with
  | nil =>
      exact iff_of_true (List.forall_mem_nil _) (by simpa [joinEvents] using hreadable _ (.inr rfl))
  | cons part parts ih =>
      have hhead : srv.EventReadable (.headJoin part.1 firstjoin) ↔
          Printable (CStr.ofMem part.1).bytes := Iff.rfl
      rw [List.forall_mem_cons]
      refine (and_congr_right' (ih false)).trans ?_
      simp only [joinEvents, List.forall_mem_cons, PartReadable, and_assoc, hhead,
        hreadable .tailJoin (.inl rfl), true_and]

/-- **Joined replies.**  There has to be one. -/
theorem isText_join_iff (H : PrintsDoubles printDouble) (parts : List (List UInt8 × ApiEvent))
    (hreply : ∀ part ∈ parts, (srv.reply true part.2).isSome) :
    IsText (srv.joinText printDouble true parts ++ jsonEnd true)
        (.object (parts.map (fun part =>
          ((CStr.ofMem part.1).bytes, .array [srv.eventTree printDouble part.2])) ++ [idMember])) ↔
      parts ≠ [] ∧ ∀ part ∈ parts, srv.PartReadable part := by
  cases parts with
  | nil =>
      have htext : jsonEnd true = 0x2c :: (literal "\"id\":1\x7d") := by decide +kernel
      constructor
      · rintro ⟨rest, hvalue, -⟩
        rw [joinText, List.nil_append, htext] at hvalue
        exact absurd hvalue not_value_comma
      · exact fun h => absurd rfl h.1
  | cons part parts =>
      rw [List.forall_mem_cons] at hreply
      have hparts := exact_object (exact_listed (srv.exact_part H part hreply.1)
        (srv.exact_behind_parts H parts hreply.2))
      rw [joinText, if_pos rfl, List.append_assoc, List.append_assoc, List.forall_mem_cons]
      exact hparts.isText_iff.trans (and_iff_right (List.cons_ne_nil _ _)).symm

/-! ## What the loop does -/

/-- A command of the table, or a message. -/
def Replied (table : CmdTable) : ApiEvent → Prop
  | .call c _ => c ∈ table.cmds
  | .message _ => True
  | _ => False

theorem isSome_reply (isjson : Bool) {event : ApiEvent} (H : Replied srv.table event) :
    (srv.reply isjson event).isSome := by
  cases event with
  | call c param =>
      rw [reply, Option.isSome_map]
      exact srv.isSome_commandReply isjson H param
  | message msg => rfl
  | _ => exact absurd H id

section
variable {table : CmdTable} {groups : ApiGroups} {group : UInt8}

theorem replied_callOrDeny {c : Cmd} (hc : c ∈ table.cmds) {param : Option (List UInt8)}
    {cmdbuf : List UInt8} {event : ApiEvent}
    (H : callOrDeny groups group c param cmdbuf = some event) : Replied table event := by
  rw [callOrDeny] at H
  split at H
  · cases H
    exact hc
  · obtain ⟨commands, -, rfl⟩ := Option.map_eq_some_iff.mp H
    split
    · exact hc
    · trivial

theorem exists_of_runSingle {cmd : List UInt8} {param : Option (List UInt8)}
    {events : List ApiEvent} (H : runSingle table groups group cmd param = some events) :
    ∃ event, events = [event, .sendResult] ∧ Replied table event := by
  rw [runSingle] at H
  split at H
  · cases H
    exact ⟨_, rfl, trivial⟩
  · rename_i c hfind
    obtain ⟨cmdbuf, -, H⟩ := Option.bind_eq_some_iff.mp H
    obtain ⟨event, hevent, rfl⟩ := Option.map_eq_some_iff.mp H
    exact ⟨event, rfl, replied_callOrDeny (List.mem_of_find?_eq_some hfind) hevent⟩

/-- No command is found before there was one. -/
theorem strstr_separator (name : List UInt8) :
    (strstr (enclosed separator name) [separator]).isSome = false := by
  rw [Bool.eq_false_iff, Ne, isSome_strstr_iff]
  intro h
  have hlen := h.length_le
  simp [enclosed] at hlen

/-- A joined request is done part by part, and there are none only if all are empty. -/
theorem exists_of_runJoin {room : ℕ} {cmd : List (List UInt8)} {cmdsbuf : List UInt8}
    {firstjoin : Bool} {events : List ApiEvent}
    (H : runJoin table groups group room cmd cmdsbuf firstjoin = some events) :
    ∃ parts, events = joinEvents firstjoin parts ∧ (∀ part ∈ parts, Replied table part.2) ∧
      (cmdsbuf = [separator] → (parts ≠ [] ↔ ∃ part ∈ cmd, part ≠ [])) := by
  induction cmd generalizing cmdsbuf firstjoin events with
  | nil =>
      cases H
      exact ⟨[], rfl, by simp, by simp⟩
  | cons cmdptr cmd ih =>
      rw [runJoin] at H
      split at H
      · rename_i hempty
        obtain ⟨parts, rfl, hreplied, hnone⟩ := ih H
        exact ⟨parts, rfl, hreplied, fun hbuf => (hnone hbuf).trans (by simp [hempty])⟩
      · rename_i hne
        -- a part with a name is done, unless its name was seen
        have hpart : ∀ {event cmdsbuf'}, Replied table event →
            (runJoin table groups group room cmd cmdsbuf' false).map
              ([.headJoin cmdptr firstjoin, event, .tailJoin] ++ ·) = some events →
            ∃ parts, events = joinEvents firstjoin parts ∧
              (∀ part ∈ parts, Replied table part.2) ∧
              (cmdsbuf = [separator] → (parts ≠ [] ↔ ∃ part ∈ cmdptr :: cmd, part ≠ [])) := by
          intro event cmdsbuf' hevent hrun
          obtain ⟨later, hlater, rfl⟩ := Option.map_eq_some_iff.mp hrun
          obtain ⟨parts, rfl, hreplied, -⟩ := ih hlater
          exact ⟨(cmdptr, event) :: parts, rfl, List.forall_mem_cons.mpr ⟨hevent, hreplied⟩,
            fun _ => iff_of_true (List.cons_ne_nil _ _) ⟨cmdptr, List.mem_cons_self, hne⟩⟩
        split at H
        · exact hpart (show Replied table (.message .invcmd) from trivial) H
        · rename_i c hfind
          have hc := List.mem_of_find?_eq_some hfind
          obtain ⟨buf, hbuf, H⟩ := Option.bind_eq_some_iff.mp H
          split at H
          · rename_i hfound
            obtain ⟨parts, rfl, hreplied, -⟩ := ih H
            refine ⟨parts, rfl, hreplied, ?_⟩
            rintro rfl
            have hname : buf = enclosed separator cmdptr := by
              rw [cmdbuf] at hbuf
              split at hbuf
              · exact (Option.some.inj hbuf).symm
              · cases hbuf
            rw [hname, strstr_separator] at hfound
            cases hfound
          · dsimp only at H
            split at H
            · obtain ⟨event, hevent, H⟩ := Option.bind_eq_some_iff.mp H
              refine hpart ?_ H
              split at hevent
              · exact replied_callOrDeny hc hevent
              · cases hevent
                trivial
            · cases H

end

/-- The request has a part that is not empty, if it has parts. -/
def AsksSomething : Request → Prop
  | .failed _ => True
  | .command cmd _ => cmdJoin ∈ cmd → ∃ part ∈ cmd.splitOn cmdJoin, part ≠ []

/-- The loop answers a request once, or part by part. -/
theorem exists_of_serve {request : Request} {events : List ApiEvent}
    (H : serve srv.table srv.groups srv.group request = some events) :
    (∃ event, events = [event, .sendResult] ∧ Replied srv.table event ∧ AsksSomething request) ∨
      ∃ parts, events = joinEvents true parts ∧ (∀ part ∈ parts, Replied srv.table part.2) ∧
        (parts ≠ [] ↔ AsksSomething request) := by
  cases request with
  | failed msg =>
      cases H
      exact .inl ⟨_, rfl, trivial, trivial⟩
  | command cmd param =>
      rw [serve] at H
      split at H
      · rename_i hjoin
        obtain ⟨parts, rfl, hreplied, hnone⟩ := exists_of_runJoin H
        exact .inr ⟨parts, rfl, hreplied, (hnone rfl).trans ⟨fun h _ => h, fun h => h hjoin⟩⟩
      · rename_i hjoin
        obtain ⟨event, rfl, hreplied⟩ := exists_of_runSingle H
        exact .inl ⟨event, rfl, hreplied, fun h => absurd h hjoin⟩

/-! ## Requests in JSON -/

section
variable (printDouble : ℕ → Float → List UInt8) (jsonLoads : List UInt8 → Option Json)
  (printReal : Float → List UInt8) (buf : List UInt8)

/-- What a request comes to. -/
def served : Option (List ApiEvent) :=
  serve srv.table srv.groups srv.group (parseRequest jsonLoads printReal buf)

/-- A request in JSON is answered: no buffer is written past its end, and what is queued in front
of the final NUL is the value that is meant. -/
def Answered : Prop :=
  srv.AllFit printDouble jsonLoads printReal buf ∧
    ∀ events, srv.served jsonLoads printReal buf = some events →
      ∃ text, srv.queued printDouble (isJsonRequest buf) events = text ++ [0] ∧
        IsText text (srv.answer printDouble events)

/-- Everything printed for a request is short, there is something to answer, and everything shown
is read as it is meant. -/
def Readable : Prop :=
  srv.AllShort printDouble jsonLoads printReal buf ∧
    ∀ events, srv.served jsonLoads printReal buf = some events →
      AsksSomething (parseRequest jsonLoads printReal buf) ∧
        ∀ event ∈ events, srv.EventReadable event

end

/-- There is one text in front of the final NUL. -/
theorem exists_text_iff {queued text : List UInt8} {P : List UInt8 → Prop}
    (H : queued = text ++ [0]) : (∃ text, queued = text ++ [0] ∧ P text) ↔ P text := by
  constructor
  · rintro ⟨text', h, hP⟩
    obtain rfl := List.append_cancel_right (h.symm.trans H)
    exact hP
  · exact fun hP => ⟨text, H, hP⟩

/-- What is queued for one command. -/
theorem isText_single_iff (H : PrintsDoubles printDouble) {event : ApiEvent}
    (hreplied : Replied srv.table event) :
    (∃ text, srv.queued printDouble true [event, .sendResult] = text ++ [0] ∧
        IsText text (srv.answer printDouble [event, .sendResult])) ↔
      srv.EventReadable event := by
  have hsome := srv.isSome_reply true hreplied
  obtain ⟨⟨reply, perProc⟩, hevent⟩ := Option.isSome_iff_exists.mp hsome
  have htext : srv.eventText printDouble event = srv.replyText printDouble reply perProc := by
    rw [eventText, hevent]
  have hqueue : srv.queued printDouble true [event, .sendResult] =
      srv.eventText printDouble event ++ [0] := by
    have hsend : ∀ io : IoData, (io.sendResult true).data =
        io.data ++ (if io.close then [0x5d] else []) ++ jsonEnd true ++ [0] := by
      simp [IoData.sendResult, IoData.add]
    have hstart : IoData.start.close = false := rfl
    rw [htext]
    exact (hsend _).trans (congrArg (· ++ [0]) (srv.queue_reply printDouble hevent hstart))
  rw [exists_text_iff hqueue]
  exact (srv.exact_event H hsome).isText_iff

/-- What is queued for commands that are joined. -/
theorem isText_joined_iff (H : PrintsDoubles printDouble) {parts : List (List UInt8 × ApiEvent)}
    (hreplied : ∀ part ∈ parts, Replied srv.table part.2) :
    (∃ text, srv.queued printDouble true (joinEvents true parts) = text ++ [0] ∧
        IsText text (srv.answer printDouble (joinEvents true parts))) ↔
      parts ≠ [] ∧ ∀ event ∈ joinEvents true parts, srv.EventReadable event := by
  have hreply : ∀ part ∈ parts, (srv.reply true part.2).isSome := fun part hp =>
    srv.isSome_reply true (hreplied part hp)
  have hqueue : srv.queued printDouble true (joinEvents true parts) =
      (srv.joinText printDouble true parts ++ jsonEnd true) ++ [0] :=
    srv.foldl_joinEvents true parts hreply .start rfl
  have hanswer : srv.answer printDouble (joinEvents true parts) =
      .object ((joinedParts (joinEvents true parts)).map (fun part =>
        ((CStr.ofMem part.1).bytes, .array [srv.eventTree printDouble part.2])) ++ [idMember]) := by
    rcases parts with _ | ⟨⟨cmd, event⟩, parts⟩
    · rfl
    · cases event <;> rfl
  rw [joinedParts_joinEvents] at hanswer
  rw [exists_text_iff hqueue, hanswer, srv.isText_join_iff H parts hreply]
  exact and_congr_right' (srv.forall_partReadable_iff true parts)

/-- **Replies in JSON.**  For every request in JSON, and every state of the program, what is queued
is the value that is meant exactly if it is short, there is something to answer, and nothing needs
an escape that it does not get, or gets one that it does not need. -/
theorem answered_iff_readable (H : PrintsDoubles printDouble)
    (jsonLoads : List UInt8 → Option Json) (printReal : Float → List UInt8) {buf : List UInt8}
    (hjson : isJsonRequest buf = true) :
    srv.Answered printDouble jsonLoads printReal buf ↔
      srv.Readable printDouble jsonLoads printReal buf := by
  have hfit : srv.AllFit printDouble jsonLoads printReal buf ↔
      srv.AllShort printDouble jsonLoads printReal buf := by
    simp only [AllFit, AllShort, Replies, forall_fits_iff]
  refine and_congr hfit (forall₂_congr fun events hserve => ?_)
  rw [hjson]
  rcases srv.exists_of_serve hserve with ⟨event, rfl, hreplied, hasks⟩ |
    ⟨parts, rfl, hreplied, hasks⟩
  · have hsend : srv.EventReadable .sendResult := by
      intro reply h
      cases h
    rw [srv.isText_single_iff H hreplied, List.forall_mem_cons, List.forall_mem_singleton]
    exact ⟨fun h => ⟨hasks, h, hsend⟩, fun h => h.2.1⟩
  · rw [srv.isText_joined_iff H hreplied, hasks]

end ApiServer

/-- A printer that takes every number for zero. -/
def zeroPrinter (_prec : ℕ) (x : Float) : List UInt8 :=
  if x.isFinite then [0x30] else literal "nan"

theorem printsDoubles_zeroPrinter : PrintsDoubles zeroPrinter where
  finite _ x hx := by
    rw [zeroPrinter, if_pos hx]
    exact isNumber_printUint 0
  other _ x hx := by
    rw [zeroPrinter, if_neg hx]
    exact List.mem_cons_self

/-- A client asks for the version. -/
theorem answered_iff_readable_version :
    privilegedServer.Answered zeroPrinter
        (fun _ => some (.object [("command", .string (cstr "version"))])) (fun _ => [])
        (literal "\x7b\"command\":\"version\"\x7d") ↔
      privilegedServer.Readable zeroPrinter
        (fun _ => some (.object [("command", .string (cstr "version"))])) (fun _ => [])
        (literal "\x7b\"command\":\"version\"\x7d") :=
  privilegedServer.answered_iff_readable printsDoubles_zeroPrinter _ _ (by decide +kernel)

/-- A client joins nothing to nothing, and the answer lacks the brace that opens it. -/
theorem not_answered_emptyJoin :
    ApiServer.isJsonRequest (literal "\x7b\"command\":\"+\"\x7d") = true ∧
      ¬ privilegedServer.Answered zeroPrinter
        (fun _ => some (.object [("command", .string (cstr "+"))])) (fun _ => [])
        (literal "\x7b\"command\":\"+\"\x7d") := by
  have hjson : ApiServer.isJsonRequest (literal "\x7b\"command\":\"+\"\x7d") = true := by
    decide +kernel
  refine ⟨hjson, ?_⟩
  rintro ⟨-, hanswered⟩
  have hserved : privilegedServer.served
      (fun _ => some (.object [("command", .string (cstr "+"))])) (fun _ => [])
      (literal "\x7b\"command\":\"+\"\x7d") = some (ApiServer.joinEvents true []) := by
    decide +kernel
  have H := hanswered _ hserved
  rw [hjson, privilegedServer.isText_joined_iff printsDoubles_zeroPrinter
    (List.forall_mem_nil _)] at H
  exact H.1 rfl

end MassGridMiner

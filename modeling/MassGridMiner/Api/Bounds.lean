import MassGridMiner.Api.Commands

/-!
# The buffers of a reply

Every message and every list is printed into a buffer of a fixed size, and nothing asks how long
it is.  A request is answered within the buffers exactly if each text that it makes the program
print is short enough.

## Main definitions

* `CmdReply.buffers` — the buffers that are written.
* `CmdReply.Short` — the condition on the strings of the program and of the request.
* `allFit_iff_allShort` — the first fit exactly under the second.
-/

namespace MassGridMiner

open CStr

namespace ApiServer
variable (srv : ApiServer) (printDouble : ℕ → Float → List UInt8) (isjson : Bool)

/-- The buffers of `message`, and those of the lists. -/
def buffers (reply : CmdReply) (perProc : Bool) : List TextBuffer :=
  let (buf, buf2) := message srv.build srv.st perProc printDouble isjson reply.status
  buf :: buf2 :: reply.lists.map fun (root, precom) =>
    printData printDouble root isjson precom

/-- The text of the message is short enough, and each list is, the escaped text of the message
in its own. -/
def Short (reply : CmdReply) (perProc : Bool) : Prop :=
  describeRoom srv.build srv.st perProc isjson reply.status < tmpbufsiz ∧
    messageRoom srv.build srv.st perProc printDouble isjson reply.status < tmpbufsiz ∧
    ∀ list ∈ reply.lists, listRoom printDouble list.1 isjson list.2 < tmpbufsiz

theorem forall_fits_iff (reply : CmdReply) (perProc : Bool) :
    (∀ buf ∈ srv.buffers printDouble isjson reply perProc, buf.Fits) ↔
      srv.Short printDouble isjson reply perProc := by
  rw [buffers, List.forall_mem_cons, List.forall_mem_cons, ← and_assoc,
    fits_message_iff, Short, List.forall_mem_map, and_assoc]
  simp only [fits_printData_iff]

section
variable (jsonLoads : List UInt8 → Option Json) (printReal : Float → List UInt8)
  (buf : List UInt8)

/-- A request is one in JSON. -/
def isJsonRequest : Bool := (CStr.ofMem buf).bytes.head? = some 0x7b

/-- What holds of everything that is replied to a request. -/
def Replies (P : CmdReply → Bool → Prop) : Prop :=
  ∀ events, serve srv.table srv.groups srv.group (parseRequest jsonLoads printReal buf) =
    some events → ∀ event ∈ events, ∀ reply,
      srv.reply (isJsonRequest buf) event = some reply → P reply.1 reply.2

/-- Everything that a request makes the program print stays in its buffer. -/
def AllFit : Prop :=
  srv.Replies jsonLoads printReal buf fun reply perProc =>
    ∀ buffer ∈ srv.buffers printDouble (isJsonRequest buf) reply perProc, buffer.Fits

/-- Everything that a request makes the program print is short. -/
def AllShort : Prop :=
  srv.Replies jsonLoads printReal buf fun reply perProc =>
    srv.Short printDouble (isJsonRequest buf) reply perProc

/-- **The buffers of the API.**  For every request, and every state of the program, all that is
printed stays in its buffer exactly if all of it is short enough. -/
theorem allFit_iff_allShort :
    srv.AllFit printDouble jsonLoads printReal buf ↔
      srv.AllShort printDouble jsonLoads printReal buf := by
  simp only [AllFit, AllShort, Replies, forall_fits_iff]

end

end ApiServer

/-- Text with neither a separator nor a backslash in it is copied as it is. -/
theorem copyadvanceafter_of_notMem {ch : UInt8} {s : List UInt8} (hch : ch ∉ s) (hs : 0x5c ∉ s) :
    copyadvanceafter ch s = (s, []) := by
  induction s with
  | nil => rfl
  | cons c s ih =>
      rw [List.mem_cons, not_or] at hch hs
      rw [copyadvanceafter.eq_2 _ _ _ fun _ _ h _ => hs.1 h.symm, if_neg (Ne.symm hch.1),
        ih hch.2 hs.2]
      rfl

/-- A client with all privileges. -/
def privilegedServer : ApiServer where
  build := default
  env := default
  st := default
  groups := fun _ => none
  group := privGroup

/-- Signs that are escaped. -/
def equalsSigns : CStr :=
  ⟨List.replicate 8000 0x3d, fun h => absurd (List.eq_of_mem_replicate h) (by decide)⟩

/-- A pool is to be added, and of it nothing is said but these. -/
def addpoolRequest : List UInt8 := literal "addpool|" ++ equalsSigns.bytes

theorem mem_equalsSigns {c : UInt8} (H : c ∈ equalsSigns.bytes) : c = 0x3d :=
  List.eq_of_mem_replicate H

/-- The loop calls the function of the command. -/
theorem serve_addpoolRequest (jsonLoads : List UInt8 → Option Json)
    (printReal : Float → List UInt8) :
    serve privilegedServer.table privilegedServer.groups privilegedServer.group
        (parseRequest jsonLoads printReal addpoolRequest) =
      some [.call ⟨literal "addpool", true, false⟩ (some equalsSigns.bytes), .sendResult] := by
  have hnul : 0 ∉ addpoolRequest := by
    rw [addpoolRequest, List.mem_append, not_or]
    exact ⟨by decide +kernel, equalsSigns.nul_free⟩
  have hsplit : addpoolRequest = literal "addpool" ++ separator :: equalsSigns.bytes := by
    have hname : literal "addpool|" = literal "addpool" ++ [separator] := by decide +kernel
    rw [addpoolRequest, hname, List.append_assoc, List.singleton_append]
  have hcut : cut separator addpoolRequest = (literal "addpool", some equalsSigns.bytes) := by
    rw [hsplit, cut_append_cons (by decide +kernel)]
  have hrequest : parseRequest jsonLoads printReal addpoolRequest =
      .command (literal "addpool") (some equalsSigns.bytes) := by
    simp only [parseRequest, bytes_ofMem hnul, hcut]
    exact if_pos (by decide +kernel)
  rw [hrequest, serve, if_neg (by decide +kernel), runSingle]
  have hfind : privilegedServer.table.cmds.find? (fun c => c.name == literal "addpool") =
      some ⟨literal "addpool", true, false⟩ := by
    decide +kernel
  have hroom : cmdbuf (literal "addpool") = some (enclosed separator (literal "addpool")) := by
    decide +kernel
  have hpriv : isPrivGroup privilegedServer.group = true := by decide
  simp only [hfind, hroom, Option.bind_some, callOrDeny, hpriv, if_true, Option.map_some]

/-- The function of the command refuses what has no comma in it. -/
theorem reply_addpool (isjson : Bool) {s : CStr} (hs : s.bytes ≠ []) (hcomma : comma ∉ s.bytes)
    (hback : 0x5c ∉ s.bytes) :
    privilegedServer.reply isjson (.call ⟨literal "addpool", true, false⟩ (some s.bytes)) =
      some (say Msg.invpdp 0 (.escaped s), false) := by
  have hmem : ("addpool", addpool) ∈ commandFuncs privilegedServer.build privilegedServer.env
      privilegedServer.st (Cmd.perProc ⟨literal "addpool", true, false⟩) isjson
      privilegedServer.table privilegedServer.groups privilegedServer.group := by
    simp only [commandFuncs, List.mem_cons, true_or, or_true]
  have hstr : CStr.ofMem s.bytes = s := CStr.ext (bytes_ofMem s.nul_free)
  have hgiven : given (some s) = some s := by
    simp only [given, Option.filter_some, decide_eq_true hs, if_true]
  have hdetails : pooldetails s.bytes = none := by
    rw [pooldetails, copyadvanceafter_of_notMem hcomma hback]
    rfl
  have hproc : Cmd.perProc ⟨literal "addpool", true, false⟩ = false := by decide +kernel
  rw [ApiServer.reply, privilegedServer.commandReply_eq isjson hmem rfl, hproc]
  simp only [Option.map_some, hstr, addpool, hgiven, hdetails]

/-- The request is refused with its own text, each sign of it escaped. -/
theorem not_allFit_addpool :
    addpoolRequest.length < tmpbufsiz ∧
      ¬ privilegedServer.AllFit (fun _ _ => []) (fun _ => none) (fun _ => []) addpoolRequest := by
  have hlen : equalsSigns.bytes.length = 8000 := List.length_replicate
  constructor
  · have hname : (literal "addpool|").length = 8 := by decide +kernel
    rw [addpoolRequest, List.length_append, hlen, hname]
    decide
  · intro h
    have hne : equalsSigns.bytes ≠ [] := fun hnil => by
      rw [hnil] at hlen
      cases hlen
    have hall := h _ (serve_addpoolRequest _ _) _ List.mem_cons_self _
      (reply_addpool _ hne (fun h => absurd (mem_equalsSigns h) (by decide))
        (fun h => absurd (mem_equalsSigns h) (by decide)))
    have hroom := ((privilegedServer.forall_fits_iff _ _ _ _).mp hall).1
    have hjson : ApiServer.isJsonRequest addpoolRequest = false := by decide +kernel
    have hescaped : escapedRoom false equalsSigns.bytes = 16000 := by
      rw [escapedRoom, List.countP_eq_length.mpr fun c hc => by rw [mem_equalsSigns hc]; rfl, hlen]
    have hfind : ((codes default).find? fun c => c.code == Msg.invpdp) =
        some ⟨.err, Msg.invpdp, .str, "Invalid addpool details '%s'"⟩ := rfl
    rw [hjson, describeRoom, pieces] at hroom
    simp only [say, privilegedServer, hfind, CodeParameters.args, Param2.passed, CStr.printed,
      List.map_cons, List.sum_cons, length_escapeString, hescaped, tmpbufsiz] at hroom
    omega

end MassGridMiner

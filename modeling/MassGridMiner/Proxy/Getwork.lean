import MassGridMiner.Api.Readable
import MassGridMiner.Lib.Buffer
import MassGridMiner.Lib.Format
import MassGridMiner.Lib.Hex
import MassGridMiner.Lib.JsonObject
import MassGridMiner.Stratum.Json

/-!
# Replies to getwork requests

A request over HTTP asks for work or submits some.  The reply is an object with the id of the
request, put together by hand in memory of a size that is reckoned from the text of the id.
Without an id the text is a zero; the reply to a submission leaves that out.

## Main definitions

* `handleGetwork` — the reply to a request.
* `RepliesRight` — it is inside its memory, and an object with the right id.
* `repliesRight_iff` — so it is unless a submission has no id.
-/

namespace MassGridMiner

open JsonText

/-! ## The id -/

mutual

/-- A value as it is written, where a real number is printed in some way. -/
def jsonTree (printReal : Float → List UInt8) : Json → Tree
  | .null => .null
  | .bool b => .bool b
  | .integer n => .number (printInt n)
  | .real x => .number (printReal x)
  | .string s => .string s.bytes
  | .array xs => .array (jsonTrees printReal xs)
  | .object ms => .object (jsonMemberTrees printReal ms)

/-- The elements of an array. -/
def jsonTrees (printReal : Float → List UInt8) : List Json → List Tree
  | [] => []
  | x :: xs => jsonTree printReal x :: jsonTrees printReal xs

/-- The members of an object. -/
def jsonMemberTrees (printReal : Float → List UInt8) :
    List (String × Json) → List (List UInt8 × Tree)
  | [] => []
  | (k, v) :: ms => (literal k, jsonTree printReal v) :: jsonMemberTrees printReal ms

end

/-! ## The functions -/

/-- What the reply depends on: what memory holds when it is given out, the JSON library, the name
of the user, the client, what becomes of a submission, whether the device is disabled, and the
work. -/
structure GetworkEnv where
  heap : ℕ → UInt8
  jsonLoads : List UInt8 → Option Json
  dumps : Json → CStr
  username : Option CStr
  clientFound : Bool
  disabled : Bool
  rejreason : CStr → Option CStr
  target : Bytes 32
  data : Bytes 128
  midstate : Bytes 32
  scrypt : Bool

/-- A response: its status and its body. -/
structure GetworkReply where
  status : ℕ
  body : List UInt8

/-- The errors, with their codes and texts. -/
inductive GetworkError
  | parse
  | method
  | username
  | client
  | disabled
  deriving DecidableEq

def GetworkError.code : GetworkError → ℤ
  | .parse => -32700
  | .method => -32601
  | .username => -4096
  | .client => -32603
  | .disabled => -10

def GetworkError.msg : GetworkError → List UInt8
  | .parse => literal "JSON parse error"
  | .method => literal "Only getwork supported"
  | .username => literal "Please provide a username"
  | .client => literal "Failed creating new cgpu"
  | .disabled => literal "Virtual device has been disabled"

/-- The status it is sent with. -/
def GetworkError.status : GetworkError → ℕ
  | .username => 401
  | _ => 500

section
variable (env : GetworkEnv)

/-- `malloc`. -/
def GetworkEnv.malloc (n : ℕ) : List UInt8 := (List.range n).map env.heap

/-- `realloc` to a size that is no smaller. -/
def GetworkEnv.realloc (buf : List UInt8) (n : ℕ) : List UInt8 :=
  buf ++ (env.malloc n).drop buf.length

/-- `MHD_create_response_from_buffer`. -/
def createResponse (status : ℕ) (buf : List UInt8) (size : ℕ) : Option GetworkReply :=
  if size ≤ buf.length then some ⟨status, buf.take size⟩ else none

/-- The size of the id's text; it is 1 without one. -/
def idstrSz (idstr : Option CStr) : ℕ := (idstr.map CStr.length).getD 1

/-- `idstr ?: "0"`. -/
def idstrOrZero (idstr : Option CStr) : List UInt8 := (idstr.map CStr.bytes).getD [0x30]

/-- `getwork_gen_error`. -/
def getworkGenError (err : GetworkError) (idstr : Option CStr) : Option GetworkReply := do
  let replysz := 0x40 + err.msg.length + idstrSz idstr
  let text := format
    (literal "\x7b\"result\":null,\"error\":\x7b\"code\":%s,\"message\":\"%s\"\x7d,\"id\":%s\x7d")
    [printInt err.code, err.msg, idstrOrZero idstr]
  let reply ← memcpy (env.malloc replysz) 0 (text.take (replysz - 1) ++ [0])
  createResponse err.status reply text.length

/-- The reply to a submission. -/
def submitReply (rejreason : Option CStr) (idstr : Option CStr) : Option GetworkReply := do
  let text := format (literal "\x7b\"error\":null,\"result\":%s,\"id\":%s\x7d")
    [if rejreason.isSome then literal "false" else literal "true", CStr.printed idstr]
  let reply ← memcpy (env.malloc (36 + idstrSz idstr)) 0 (text ++ [0])
  createResponse 200 reply text.length

/-- `bin2hex` to an index, with its terminator. -/
def bin2hexAt (buf : List UInt8) (off : ℕ) (bs : List UInt8) : Option (List UInt8) :=
  memcpy buf off (bin2hex bs ++ [0])

/-- The text with the second hash. -/
def hash1Text : List UInt8 :=
  literal "\",\"hash1\":\"00000000000000000000000000000000000000000000000000000000000000000000008000000000000000000000000000000000000000000000000000010000\"\x7d,\"id\":"

/-- The reply with work. -/
def workReply (idstr : Option CStr) : Option GetworkReply := do
  let sz := idstrSz idstr
  let replysz := 590 + sz
  let reply ← memcpy (env.malloc replysz) 0
    (literal "\x7b\"error\":null,\"result\":\x7b\"target\":\"")
  let reply ← bin2hexAt reply 34 env.target.toList
  let reply ← memcpy reply 98 (literal "\",\"data\":\"")
  let reply ← bin2hexAt reply 108 env.data.toList
  let reply ← memcpy reply 364 (literal "\",\"midstate\":\"")
  let reply ← bin2hexAt reply 378 env.midstate.toList
  let reply ← memcpy reply 442 hash1Text
  let reply ← memcpy reply 589 ((idstrOrZero idstr).take sz)
  let reply ← memcpy reply (589 + sz) (literal "\x7d")
  if env.scrypt then
    let replysz := replysz + 21
    let reply := env.realloc reply replysz
    let reply ← memcpy reply (443 + 21) ((reply.drop 443).take (replysz - (443 + 21)))
    let reply ← memcpy reply 443 (literal ",\"algorithm\":\"scrypt\"")
    createResponse 200 reply replysz
  else createResponse 200 reply replysz

/-- `bfg_json_obj_string`. -/
def bfgJsonObjString (json : Json) (key : String) (fail : List UInt8) : List UInt8 :=
  match json.get key with
  | none => fail
  | some val => ((jsonStringValue val).map CStr.bytes).getD fail

/-- `handle_getwork` behind the request, with the text of the id and what is submitted. -/
def getworkReply (idstr submit : Option CStr) : Option GetworkReply :=
  match env.username with
  | none => getworkGenError env .username idstr
  | some _ =>
    if !env.clientFound then getworkGenError env .client idstr
    else
      match submit with
      | some submit => submitReply env (env.rejreason submit) idstr
      | none =>
        if env.disabled then getworkGenError env .disabled idstr else workReply env idstr

/-- `handle_getwork`. -/
def handleGetwork (upbuf : List UInt8) : Option GetworkReply :=
  if upbuf = [] then getworkReply env none none
  else
    match env.jsonLoads upbuf with
    | none => getworkGenError env .parse none
    | some json =>
      let idstr := (json.get "id").map env.dumps
      if bfgJsonObjString json "method" (literal "getwork") ≠ literal "getwork" then
        getworkGenError env .method idstr
      else getworkReply env idstr (jsonArrayString (json.get "params") 0)

/-! ## What is to be replied -/

/-- The id of a request. -/
def requestId (upbuf : List UInt8) : Option Json :=
  if upbuf = [] then none else (env.jsonLoads upbuf).bind fun json => json.get "id"

/-- What the id is in the reply. -/
def idTree (printReal : Float → List UInt8) : Option Json → Tree
  | none => .number [0x30]
  | some id => jsonTree printReal id

/-- Every write and the response are inside their memory, and the response is an object with the
id of the request. -/
def RepliesRight (printReal : Float → List UInt8) (upbuf : List UInt8) : Prop :=
  ∃ reply ms, handleGetwork env upbuf = some reply ∧
    IsText reply.body (.object (ms ++ [(literal "id", idTree printReal (requestId env upbuf))])) ∧
    ∀ m ∈ ms, m.1 ≠ literal "id"

/-- A request is taken for a submission. -/
def Submits (upbuf : List UInt8) : Prop :=
  ∃ json submit, upbuf ≠ [] ∧ env.jsonLoads upbuf = some json ∧
    bfgJsonObjString json "method" (literal "getwork") = literal "getwork" ∧
    env.username.isSome ∧ env.clientFound ∧ jsonArrayString (json.get "params") 0 = some submit

end

/-! ## The texts -/

/-- A text in quotes. -/
def inQuotes (s : List UInt8) : List UInt8 := 0x22 :: (s ++ [0x22])

/-- An error, as an object. -/
def errorText (err : GetworkError) (id : List UInt8) : List UInt8 :=
  writtenObject [(literal "result", literal "null"),
    (literal "error", writtenObject [(literal "code", printInt err.code),
      (literal "message", inQuotes err.msg)]), (literal "id", id)]

/-- The reply to a submission, as an object. -/
def submitText (accepted : Bool) (id : List UInt8) : List UInt8 :=
  writtenObject [(literal "error", literal "null"),
    (literal "result", if accepted then literal "true" else literal "false"), (literal "id", id)]

/-- The second hash. -/
def hash1 : List UInt8 :=
  literal "00000000000000000000000000000000000000000000000000000000000000000000008000000000000000000000000000000000000000000000000000010000"

/-- The members of a reply with work. -/
def workMembers (env : GetworkEnv) : List (List UInt8 × List UInt8) :=
  [(literal "target", inQuotes (bin2hex env.target.toList)),
    (literal "data", inQuotes (bin2hex env.data.toList)),
    (literal "midstate", inQuotes (bin2hex env.midstate.toList))] ++
  (if env.scrypt then [(literal "algorithm", inQuotes (literal "scrypt"))] else []) ++
  [(literal "hash1", inQuotes hash1)]

/-- A reply with work, as an object. -/
def workText (env : GetworkEnv) (id : List UInt8) : List UInt8 :=
  writtenObject [(literal "error", literal "null"),
    (literal "result", writtenObject (workMembers env)), (literal "id", id)]

/-- The pieces of the format of an error. -/
theorem errorFormat_pieces :
    (0x25 ∉ literal "\x7b\"result\":null,\"error\":\x7b\"code\":" ∧
      literal
          "\x7b\"result\":null,\"error\":\x7b\"code\":%s,\"message\":\"%s\"\x7d,\"id\":%s\x7d" =
        literal "\x7b\"result\":null,\"error\":\x7b\"code\":" ++ 0x25 :: 0x73 ::
          literal ",\"message\":\"%s\"\x7d,\"id\":%s\x7d") ∧
    (0x25 ∉ literal ",\"message\":\"" ∧
      literal ",\"message\":\"%s\"\x7d,\"id\":%s\x7d" =
        literal ",\"message\":\"" ++ 0x25 :: 0x73 :: literal "\"\x7d,\"id\":%s\x7d") ∧
    (0x25 ∉ literal "\"\x7d,\"id\":" ∧
      literal "\"\x7d,\"id\":%s\x7d" =
        literal "\"\x7d,\"id\":" ++ 0x25 :: 0x73 :: literal "\x7d") ∧
    literal "\x7b\"result\":null,\"error\":\x7b\"code\":" =
      0x7b :: 0x22 :: (literal "result" ++ 0x22 :: 0x3a :: (literal "null" ++ 0x2c :: 0x22 ::
        (literal "error" ++ 0x22 :: 0x3a :: 0x7b :: 0x22 :: (literal "code" ++ [0x22, 0x3a])))) ∧
    literal ",\"message\":\"" = 0x2c :: 0x22 :: (literal "message" ++ [0x22, 0x3a, 0x22]) ∧
    literal "\"\x7d,\"id\":" = 0x22 :: 0x7d :: 0x2c :: 0x22 :: (literal "id" ++ [0x22, 0x3a]) ∧
    format (literal "\x7d") [] = [0x7d] := by
  simp only [literal_eq]
  decide +kernel

/-- The pieces of the format of the reply to a submission. -/
theorem submitFormat_pieces :
    (0x25 ∉ literal "\x7b\"error\":null,\"result\":" ∧
      literal "\x7b\"error\":null,\"result\":%s,\"id\":%s\x7d" =
        literal "\x7b\"error\":null,\"result\":" ++ 0x25 :: 0x73 :: literal ",\"id\":%s\x7d") ∧
    (0x25 ∉ literal ",\"id\":" ∧
      literal ",\"id\":%s\x7d" = literal ",\"id\":" ++ 0x25 :: 0x73 :: literal "\x7d") ∧
    literal "\x7b\"error\":null,\"result\":" =
      0x7b :: 0x22 :: (literal "error" ++ 0x22 :: 0x3a :: (literal "null" ++ 0x2c :: 0x22 ::
        (literal "result" ++ [0x22, 0x3a]))) ∧
    literal ",\"id\":" = 0x2c :: 0x22 :: (literal "id" ++ [0x22, 0x3a]) ∧
    format (literal "\x7d") [] = [0x7d] := by
  simp only [literal_eq]
  decide +kernel

/-- How many conversions are in these formats, and how long they are. -/
theorem length_formats :
    (conversions (literal
        "\x7b\"result\":null,\"error\":\x7b\"code\":%s,\"message\":\"%s\"\x7d,\"id\":%s\x7d") = 3 ∧
      (literal
        "\x7b\"result\":null,\"error\":\x7b\"code\":%s,\"message\":\"%s\"\x7d,\"id\":%s\x7d").length =
          58) ∧
    conversions (literal "\x7b\"error\":null,\"result\":%s,\"id\":%s\x7d") = 2 ∧
      (literal "\x7b\"error\":null,\"result\":%s,\"id\":%s\x7d").length = 34 := by
  simp only [literal_eq]
  decide +kernel

/-- The fixed pieces of a reply with work, and how long they are. -/
theorem workReply_pieces :
    (literal "\x7b\"error\":null,\"result\":\x7b\"target\":\"" =
        0x7b :: 0x22 :: (literal "error" ++ 0x22 :: 0x3a :: (literal "null" ++ 0x2c :: 0x22 ::
          (literal "result" ++ 0x22 :: 0x3a :: 0x7b :: 0x22 ::
            (literal "target" ++ [0x22, 0x3a, 0x22])))) ∧
      literal "\",\"data\":\"" = 0x22 :: 0x2c :: 0x22 :: (literal "data" ++ [0x22, 0x3a, 0x22]) ∧
      literal "\",\"midstate\":\"" =
        0x22 :: 0x2c :: 0x22 :: (literal "midstate" ++ [0x22, 0x3a, 0x22]) ∧
      literal ",\"algorithm\":\"scrypt\"" =
        0x2c :: 0x22 :: (literal "algorithm" ++ 0x22 :: 0x3a :: 0x22 ::
          (literal "scrypt" ++ [0x22])) ∧
      hash1Text.drop 1 = 0x2c :: 0x22 :: (literal "hash1" ++ 0x22 :: 0x3a :: 0x22 ::
        (hash1 ++ 0x22 :: 0x7d :: 0x2c :: 0x22 :: (literal "id" ++ [0x22, 0x3a])))) ∧
    (literal "\x7b\"error\":null,\"result\":\x7b\"target\":\"").length = 34 ∧
      (literal "\",\"data\":\"").length = 10 ∧ (literal "\",\"midstate\":\"").length = 14 ∧
      hash1Text.length = 147 ∧ hash1Text.head? = some 0x22 ∧ literal "\x7d" = [0x7d] ∧
      (literal ",\"algorithm\":\"scrypt\"").length = 21 := by
  simp only [hash1Text, hash1, literal_eq]
  decide +kernel

/-- The other literals in the replies, as bytes. -/
theorem literals_reply :
    literal "null" = [0x6e, 0x75, 0x6c, 0x6c] ∧ literal "true" = [0x74, 0x72, 0x75, 0x65] ∧
      literal "false" = [0x66, 0x61, 0x6c, 0x73, 0x65] ∧
      literal "(null)" = [0x28, 0x6e, 0x75, 0x6c, 0x6c, 0x29] ∧
      literal "result" ≠ literal "id" ∧ literal "error" ≠ literal "id" ∧ printInt 0 = [0x30] := by
  decide +kernel

/-- The format of an error is that of an object. -/
theorem format_error (err : GetworkError) (id : List UInt8) :
    format
        (literal "\x7b\"result\":null,\"error\":\x7b\"code\":%s,\"message\":\"%s\"\x7d,\"id\":%s\x7d")
        [printInt err.code, err.msg, id] = errorText err id := by
  obtain ⟨hcode, hmessage, hid, hcodeKeys, hmessageKey, hidKey, hclose⟩ := errorFormat_pieces
  rw [format_literal (printInt err.code) [err.msg, id] hcode,
    format_literal err.msg [id] hmessage, format_literal id [] hid, hcodeKeys, hmessageKey, hidKey,
    hclose]
  simp [errorText, writtenObject, writtenMembers, inQuotes]

/-- The format of the reply to a submission is that of an object. -/
theorem format_submit (accepted : Bool) (id : List UInt8) :
    format (literal "\x7b\"error\":null,\"result\":%s,\"id\":%s\x7d")
        [if accepted then literal "true" else literal "false", id] = submitText accepted id := by
  obtain ⟨hresult, hid, hresultKeys, hidKey, hclose⟩ := submitFormat_pieces
  rw [format_literal _ [id] hresult, format_literal id [] hid, hresultKeys, hidKey, hclose]
  simp [submitText, writtenObject, writtenMembers]

/-- The pieces of the reply with work make up an object. -/
theorem pieces_work (env : GetworkEnv) (id : List UInt8) :
    literal "\x7b\"error\":null,\"result\":\x7b\"target\":\"" ++ bin2hex env.target.toList ++
        literal "\",\"data\":\"" ++ bin2hex env.data.toList ++ literal "\",\"midstate\":\"" ++
        bin2hex env.midstate.toList ++ [0x22] ++
        (if env.scrypt then literal ",\"algorithm\":\"scrypt\"" else []) ++
        (hash1Text.drop 1 ++ id ++ [0x7d]) = workText env id := by
  obtain ⟨htarget, hdata, hmidstate, halgorithm, hhash⟩ := workReply_pieces.1
  rw [htarget, hdata, hmidstate, halgorithm, hhash]
  cases hscrypt : env.scrypt <;>
    simp [workText, workMembers, writtenObject, writtenMembers, inQuotes, hscrypt]

/-! ## The memory -/

variable (env : GetworkEnv)

@[simp] theorem GetworkEnv.length_malloc (n : ℕ) : (env.malloc n).length = n := by
  simp [GetworkEnv.malloc]

theorem length_idstrOrZero (idstr : Option CStr) : (idstrOrZero idstr).length = idstrSz idstr := by
  cases idstr <;> rfl

/-- A response of what was written. -/
theorem createResponse_of_prefix {buf text : List UInt8} (status : ℕ) (h : text <+: buf) :
    createResponse status buf text.length = some ⟨status, text⟩ := by
  obtain ⟨left, rfl⟩ := h
  rw [createResponse, if_pos (by simp), List.take_left]

theorem GetworkError.sizes (err : GetworkError) :
    (printInt err.code).length ≤ 6 ∧ ∀ c ∈ err.msg, Plain c := by
  have hall : (printInt err.code).length ≤ 6 ∧ err.msg.all (fun c => Plain c) = true := by
    cases err <;> decide +kernel
  exact ⟨hall.1, plain_of_all hall.2⟩

theorem length_bool (b : Bool) :
    4 ≤ (if b then literal "false" else literal "true").length ∧
      (if b then literal "false" else literal "true").length ≤ 5 := by
  rw [literals_reply.2.1, literals_reply.2.2.1]
  cases b <;> decide

/-- An error fits. -/
theorem getworkGenError_eq (err : GetworkError) (idstr : Option CStr) :
    getworkGenError env err idstr = some ⟨err.status, errorText err (idstrOrZero idstr)⟩ := by
  have hsize := length_idstrOrZero idstr
  have hcode := (err.sizes).1
  have hlen : (errorText err (idstrOrZero idstr)).length + 1 ≤
      0x40 + err.msg.length + idstrSz idstr := by
    have h := length_format_literal
      "\x7b\"result\":null,\"error\":\x7b\"code\":%s,\"message\":\"%s\"\x7d,\"id\":%s\x7d"
      [printInt err.code, err.msg, idstrOrZero idstr] 3 58 rfl length_formats.1
    rw [format_error] at h
    simp only [List.map_cons, List.map_nil, List.sum_cons, List.sum_nil] at h
    omega
  have htake : (errorText err (idstrOrZero idstr)).take (0x40 + err.msg.length + idstrSz idstr - 1) =
      errorText err (idstrOrZero idstr) := List.take_of_length_le (by omega)
  have hroom : (errorText err (idstrOrZero idstr) ++ [0]).length ≤
      0x40 + err.msg.length + idstrSz idstr := by
    rw [List.length_append, List.length_singleton]
    omega
  obtain ⟨buf, hcopy, hstarts⟩ := memcpy_zero (env.length_malloc _) hroom
  simp only [getworkGenError, format_error, htake, hcopy, Option.bind_eq_bind, Option.bind_some]
  exact createResponse_of_prefix _ ((List.prefix_append _ _).trans hstarts.isPrefix)

/-- The reply to a submission fits where the text of the id is as long as is reckoned. -/
theorem submitReply_eq (rejreason : Option CStr) {idstr : Option CStr}
    (hid : (CStr.printed idstr).length = idstrSz idstr) :
    submitReply env rejreason idstr =
      some ⟨200, submitText rejreason.isNone (CStr.printed idstr)⟩ := by
  have htext : format (literal "\x7b\"error\":null,\"result\":%s,\"id\":%s\x7d")
      [if rejreason.isSome then literal "false" else literal "true", CStr.printed idstr] =
        submitText rejreason.isNone (CStr.printed idstr) := by
    rw [← format_submit]
    cases rejreason <;> rfl
  have hroom : (submitText rejreason.isNone (CStr.printed idstr) ++ [0]).length ≤
      36 + idstrSz idstr := by
    have h := length_format_literal "\x7b\"error\":null,\"result\":%s,\"id\":%s\x7d"
      [if rejreason.isSome then literal "false" else literal "true", CStr.printed idstr] 2 34 rfl
      length_formats.2
    have hbool := (length_bool rejreason.isSome).2
    rw [htext] at h
    simp only [List.map_cons, List.map_nil, List.sum_cons, List.sum_nil] at h
    rw [List.length_append, List.length_singleton]
    omega
  obtain ⟨buf, hcopy, hstarts⟩ := memcpy_zero (env.length_malloc _) hroom
  simp only [submitReply, htext, hcopy, Option.bind_eq_bind, Option.bind_some]
  exact createResponse_of_prefix _ ((List.prefix_append _ _).trans hstarts.isPrefix)

/-- It does not fit without an id. -/
theorem submitReply_none (rejreason : Option CStr) : submitReply env rejreason none = none := by
  have h := length_format_literal "\x7b\"error\":null,\"result\":%s,\"id\":%s\x7d"
    [if rejreason.isSome then literal "false" else literal "true", CStr.printed none] 2 34 rfl
    length_formats.2
  have hbool := (length_bool rejreason.isSome).1
  have hnull : (CStr.printed none).length = 6 := by
    rw [CStr.printed, literals_reply.2.2.2.1]
    rfl
  simp only [List.map_cons, List.map_nil, List.sum_cons, List.sum_nil] at h
  rw [submitReply, memcpy_eq_none]
  · rfl
  · rw [env.length_malloc, List.length_append, List.length_singleton, idstrSz, Option.map_none,
      Option.getD_none]
    omega

/-- Bytes are spelled behind what was written before; the terminator goes into what is left. -/
theorem starts_bin2hexAt {buf done : List UInt8} {n off : ℕ} (h : Starts buf done n)
    (bs : List UInt8) (hoff : off = done.length) (hroom : off + 2 * bs.length < n) :
    ∃ buf', bin2hexAt buf off bs = some buf' ∧ Starts buf' (done ++ bin2hex bs) n := by
  have hroom' : off + (bin2hex bs ++ [0]).length ≤ n := by
    rw [List.length_append, length_bin2hex, List.length_singleton]
    omega
  obtain ⟨buf', hcopy, hstarts⟩ := h.copy hoff hroom'
  refine ⟨buf', hcopy, ?_, hstarts.length_eq⟩
  rw [← List.append_assoc] at hstarts
  exact (List.prefix_append _ _).trans hstarts.isPrefix

/-- The part of a reply with work in front of the place where the algorithm goes. -/
def workFront : List UInt8 :=
  literal "\x7b\"error\":null,\"result\":\x7b\"target\":\"" ++ bin2hex env.target.toList ++
    literal "\",\"data\":\"" ++ bin2hex env.data.toList ++ literal "\",\"midstate\":\"" ++
    bin2hex env.midstate.toList ++ [0x22]

theorem length_workFront : (workFront env).length = 443 := by
  have hlen := workReply_pieces.2
  simp only [workFront, List.length_append, length_bin2hex, Vector.length_toList,
    List.length_singleton, hlen.1, hlen.2.1, hlen.2.2.1]

/-- The pieces of the reply fill the memory. -/
theorem work_pieces (idstr : Option CStr) :
    ∃ b₁ b₂ b₃ b₄ b₅ b₆ b₇ b₈ : List UInt8,
      memcpy (env.malloc (590 + idstrSz idstr)) 0
        (literal "\x7b\"error\":null,\"result\":\x7b\"target\":\"") = some b₁ ∧
      bin2hexAt b₁ 34 env.target.toList = some b₂ ∧
      memcpy b₂ 98 (literal "\",\"data\":\"") = some b₃ ∧
      bin2hexAt b₃ 108 env.data.toList = some b₄ ∧
      memcpy b₄ 364 (literal "\",\"midstate\":\"") = some b₅ ∧
      bin2hexAt b₅ 378 env.midstate.toList = some b₆ ∧
      memcpy b₆ 442 hash1Text = some b₇ ∧
      memcpy b₇ 589 ((idstrOrZero idstr).take (idstrSz idstr)) = some b₈ ∧
      memcpy b₈ (589 + idstrSz idstr) (literal "\x7d") =
        some (workFront env ++ (hash1Text.drop 1 ++ idstrOrZero idstr ++ [0x7d])) := by
  obtain ⟨hlen₁, hlen₂, hlen₃, hlen₄, hhead, hclose, -⟩ := workReply_pieces.2
  have hhash : hash1Text = 0x22 :: hash1Text.drop 1 := by
    obtain ⟨rest, hrest⟩ := List.head?_eq_some_iff.mp hhead
    rw [hrest]
    rfl
  have hid := length_idstrOrZero idstr
  have htake : (idstrOrZero idstr).take (idstrSz idstr) = idstrOrZero idstr :=
    List.take_of_length_le hid.le
  obtain ⟨b₁, h₁, s₁⟩ := memcpy_zero (env.length_malloc (590 + idstrSz idstr))
    (show (literal "\x7b\"error\":null,\"result\":\x7b\"target\":\"").length ≤ _ by omega)
  obtain ⟨b₂, h₂, s₂⟩ := starts_bin2hexAt s₁ env.target.toList
    (show 34 = _ by simp [hlen₁]) (by simp; omega)
  obtain ⟨b₃, h₃, s₃⟩ := s₂.copy (show 98 = _ by simp [hlen₁])
    (show 98 + (literal "\",\"data\":\"").length ≤ _ by omega)
  obtain ⟨b₄, h₄, s₄⟩ := starts_bin2hexAt s₃ env.data.toList
    (show 108 = _ by simp [hlen₁, hlen₂]) (by simp; omega)
  obtain ⟨b₅, h₅, s₅⟩ := s₄.copy (show 364 = _ by simp [hlen₁, hlen₂])
    (show 364 + (literal "\",\"midstate\":\"").length ≤ _ by omega)
  obtain ⟨b₆, h₆, s₆⟩ := starts_bin2hexAt s₅ env.midstate.toList
    (show 378 = _ by simp [hlen₁, hlen₂, hlen₃]) (by simp; omega)
  obtain ⟨b₇, h₇, s₇⟩ := s₆.copy (show 442 = _ by simp [hlen₁, hlen₂, hlen₃])
    (show 442 + hash1Text.length ≤ _ by omega)
  obtain ⟨b₈, h₈, s₈⟩ := s₇.copy (show 589 = _ by simp [hlen₁, hlen₂, hlen₃, hlen₄])
    (show 589 + ((idstrOrZero idstr).take (idstrSz idstr)).length ≤ _ by rw [htake]; omega)
  obtain ⟨b₉, h₉, s₉⟩ := s₈.copy
    (show 589 + idstrSz idstr = _ by simp [htake, hid, hlen₁, hlen₂, hlen₃, hlen₄]; omega)
    (show 589 + idstrSz idstr + (literal "\x7d").length ≤ _ by
      rw [hclose, List.length_singleton]; omega)
  refine ⟨b₁, b₂, b₃, b₄, b₅, b₆, b₇, b₈, h₁, h₂, h₃, h₄, h₅, h₆, h₇, h₈, ?_⟩
  have hall := s₉.eq (by simp [htake, hid, hlen₁, hlen₂, hlen₃, hlen₄, hclose]; omega)
  rw [h₉, hall, htake, hclose]
  nth_rewrite 1 [hhash]
  simp [workFront]

/-- The reply with work fits. -/
theorem workReply_eq (idstr : Option CStr) :
    workReply env idstr = some ⟨200, workText env (idstrOrZero idstr)⟩ := by
  obtain ⟨b₁, b₂, b₃, b₄, b₅, b₆, b₇, b₈, h₁, h₂, h₃, h₄, h₅, h₆, h₇, h₈, h₉⟩ :=
    work_pieces env idstr
  have hfront := length_workFront env
  have htext := pieces_work env (idstrOrZero idstr)
  set tail := hash1Text.drop 1 ++ idstrOrZero idstr ++ [0x7d] with htail
  have htaillen : tail.length = 147 + idstrSz idstr := by
    simp [htail, workReply_pieces.2.2.2.2.1, length_idstrOrZero]
    omega
  have hlen : (workFront env ++ tail).length = 590 + idstrSz idstr := by
    rw [List.length_append, hfront, htaillen]
    omega
  simp only [workReply, h₁, h₂, h₃, h₄, h₅, h₆, h₇, h₈, h₉, Option.bind_eq_bind, Option.bind_some]
  split
  · next hscrypt =>
    rw [if_pos hscrypt] at htext
    set ins := literal ",\"algorithm\":\"scrypt\"" with hins
    have hinslen : ins.length = 21 := workReply_pieces.2.2.2.2.2.2.2
    set ext := (env.malloc (590 + idstrSz idstr + 21)).drop (workFront env ++ tail).length with hext
    have hextlen : ext.length = ins.length := by
      rw [hext, List.length_drop, env.length_malloc, hlen, hinslen]
      omega
    have hrealloc : env.realloc (workFront env ++ tail) (590 + idstrSz idstr + 21) =
        workFront env ++ tail ++ ext := rfl
    -- what is moved is all there is behind the place
    have hmoved : ((workFront env ++ tail ++ ext).drop 443).take
        (590 + idstrSz idstr + 21 - (443 + 21)) = tail := by
      have hcount : 590 + idstrSz idstr + 21 - (443 + 21) = tail.length := by omega
      rw [hcount, ← hfront, List.append_assoc, List.drop_left, List.take_left]
    obtain ⟨moved, hmove, hinsert⟩ := memcpy_insert (workFront env) tail hextlen
    rw [hfront, hinslen] at hmove
    rw [hfront] at hinsert
    rw [hrealloc, hmoved, hmove, Option.bind_some, hinsert, Option.bind_some]
    have hall : 590 + idstrSz idstr + 21 = (workFront env ++ ins ++ tail).length := by
      simp only [List.length_append, hfront, hinslen, htaillen]
      omega
    rw [hall, createResponse_of_prefix 200 (List.prefix_refl _), ← htext]
    rfl
  · next hscrypt =>
    rw [if_neg hscrypt, List.append_nil] at htext
    rw [← hlen, createResponse_of_prefix 200 (List.prefix_refl _), ← htext]
    rfl

/-! ## The objects -/

theorem plain_getworkKeys :
    (∀ k ∈ ["result", "error", "code", "message", "id", "target", "data", "midstate", "algorithm",
      "hash1", "scrypt"], ∀ c ∈ literal k, Plain c) ∧ ∀ c ∈ hash1, Plain c := by
  have hall : (∀ k ∈ ["result", "error", "code", "message", "id", "target", "data", "midstate",
      "algorithm", "hash1", "scrypt"], (literal k).all (fun c => Plain c) = true) ∧
        hash1.all (fun c => Plain c) = true := by
    simp only [hash1, literal_eq]
    decide +kernel
  exact ⟨fun k hk => plain_of_all (hall.1 k hk), plain_of_all hall.2⟩

theorem plain_bin2hex (bs : List UInt8) : ∀ c ∈ bin2hex bs, Plain c := by
  have hdigits : ∀ i : Fin 16, Plain hexDigits[i] := by decide
  induction bs with
  | nil => simp [bin2hex]
  | cons b bs ih =>
      intro c hc
      rcases List.mem_cons.mp hc with rfl | hc
      · exact hdigits ⟨_, Nat.mod_lt _ (by decide)⟩
      · rcases List.mem_cons.mp hc with rfl | hc
        · exact hdigits ⟨_, Nat.mod_lt _ (by decide)⟩
        · exact ih c hc

/-- The literals of a reply are values. -/
theorem reads_literals : Reads (literal "null") .null ∧ Reads (literal "true") (.bool true) ∧
    Reads (literal "false") (.bool false) := by
  rw [literals_reply.1, literals_reply.2.1, literals_reply.2.2.1]
  exact ⟨reads_null, reads_bool true, reads_bool false⟩

/-- A member with a key of the replies. -/
theorem readsMember_of_key {k : String} {text : List UInt8} {v : Tree}
    (hk : k ∈ ["result", "error", "code", "message", "id", "target", "data", "midstate",
      "algorithm", "hash1", "scrypt"]) (h : Reads text v) :
    ReadsMember (literal k, text) (literal k, v) := ⟨rfl, plain_getworkKeys.1 k hk, h⟩

section
variable {id : List UInt8} {v : Tree}

theorem isText_errorText (err : GetworkError) (h : Reads id v) :
    IsText (errorText err id) (.object ([(literal "result", Tree.null),
      (literal "error", Tree.object [(literal "code", Tree.number (printInt err.code)),
        (literal "message", Tree.string err.msg)])] ++ [(literal "id", v)])) := by
  have herror := reads_writtenObject
    (.cons (readsMember_of_key (k := "code") (by simp) (reads_number (isNumber_printInt err.code)))
      (.cons (readsMember_of_key (k := "message") (by simp) (reads_string err.sizes.2)) .nil))
  exact isText_writtenObject (.cons (readsMember_of_key (by simp) reads_literals.1)
    (.cons (readsMember_of_key (by simp) herror) (.cons (readsMember_of_key (by simp) h) .nil)))

theorem isText_submitText (accepted : Bool) (h : Reads id v) :
    IsText (submitText accepted id) (.object ([(literal "error", Tree.null),
      (literal "result", Tree.bool accepted)] ++ [(literal "id", v)])) := by
  have hbool : Reads (if accepted then literal "true" else literal "false") (.bool accepted) := by
    cases accepted with
    | true => exact reads_literals.2.1
    | false => exact reads_literals.2.2
  exact isText_writtenObject (.cons (readsMember_of_key (by simp) reads_literals.1)
    (.cons (readsMember_of_key (by simp) hbool) (.cons (readsMember_of_key (by simp) h) .nil)))

/-- The members of a reply with work are strings. -/
theorem exists_workMembers : ∃ m ms, List.Forall₂ ReadsMember (workMembers env) (m :: ms) := by
  have hhex : ∀ bs, Reads (inQuotes (bin2hex bs)) (.string (bin2hex bs)) := fun bs =>
    reads_string (plain_bin2hex bs)
  have hhash : Reads (inQuotes hash1) (.string hash1) := reads_string plain_getworkKeys.2
  have hname : Reads (inQuotes (literal "scrypt")) (.string (literal "scrypt")) :=
    reads_string (plain_getworkKeys.1 "scrypt" (by simp))
  rw [workMembers]
  split
  · exact ⟨_, _, .cons (readsMember_of_key (by simp) (hhex _))
      (.cons (readsMember_of_key (by simp) (hhex _)) (.cons (readsMember_of_key (by simp) (hhex _))
        (.cons (readsMember_of_key (by simp) hname)
          (.cons (readsMember_of_key (by simp) hhash) .nil))))⟩
  · exact ⟨_, _, .cons (readsMember_of_key (by simp) (hhex _))
      (.cons (readsMember_of_key (by simp) (hhex _)) (.cons (readsMember_of_key (by simp) (hhex _))
        (.cons (readsMember_of_key (by simp) hhash) .nil)))⟩

theorem exists_isText_workText (h : Reads id v) :
    ∃ work, IsText (workText env id) (.object ([(literal "error", Tree.null),
      (literal "result", Tree.object work)] ++ [(literal "id", v)])) := by
  obtain ⟨m, ms, hmembers⟩ := exists_workMembers env
  exact ⟨_, isText_writtenObject (.cons (readsMember_of_key (by simp) reads_literals.1)
    (.cons (readsMember_of_key (by simp) (reads_writtenObject hmembers))
      (.cons (readsMember_of_key (by simp) h) .nil)))⟩

/-! ## The replies of a request -/

/-- A reply that is an object whose last member, and no other, is the id. -/
def Carries (reply : GetworkReply) (v : Tree) : Prop :=
  ∃ ms, IsText reply.body (.object (ms ++ [(literal "id", v)])) ∧ ∀ m ∈ ms, m.1 ≠ literal "id"

/-- An error carries the id. -/
theorem carries_error (err : GetworkError) {idstr : Option CStr}
    (h : Reads (idstrOrZero idstr) v) :
    ∃ reply, getworkGenError env err idstr = some reply ∧ Carries reply v := by
  refine ⟨_, getworkGenError_eq env err idstr, _, isText_errorText err h, ?_⟩
  simp [literals_reply.2.2.2.2.1, literals_reply.2.2.2.2.2.1]

/-- The reply to a submission carries the id, if there is one. -/
theorem carries_submit (rejreason : Option CStr) {idstr : CStr} (h : Reads idstr.bytes v) :
    ∃ reply, submitReply env rejreason (some idstr) = some reply ∧ Carries reply v := by
  have hid : (CStr.printed (some idstr)).length = idstrSz (some idstr) := rfl
  refine ⟨_, submitReply_eq env rejreason hid, _, isText_submitText rejreason.isNone h, ?_⟩
  simp [literals_reply.2.2.2.2.1, literals_reply.2.2.2.2.2.1]

/-- The reply with work carries the id. -/
theorem carries_work {idstr : Option CStr} (h : Reads (idstrOrZero idstr) v) :
    ∃ reply, workReply env idstr = some reply ∧ Carries reply v := by
  obtain ⟨work, htext⟩ := exists_isText_workText env h
  refine ⟨_, workReply_eq env idstr, _, htext, ?_⟩
  simp [literals_reply.2.2.2.2.1, literals_reply.2.2.2.2.2.1]

/-- The reply behind the request carries the id, unless something is submitted without one. -/
theorem carries_getworkReply {idstr submit : Option CStr} (h : Reads (idstrOrZero idstr) v)
    (hsubmits : env.username.isSome → env.clientFound → submit.isSome → idstr.isSome) :
    ∃ reply, getworkReply env idstr submit = some reply ∧ Carries reply v := by
  unfold getworkReply
  cases huser : env.username with
  | none => exact carries_error env .username h
  | some user =>
    cases hclient : env.clientFound with
    | false => exact carries_error env .client h
    | true =>
      cases submit with
      | none =>
        cases env.disabled with
        | true => exact carries_error env .disabled h
        | false => exact carries_work env h
      | some submit =>
        have hid : idstr.isSome := hsubmits (by rw [huser]; rfl) hclient rfl
        obtain ⟨idstr, rfl⟩ := Option.isSome_iff_exists.mp hid
        exact carries_submit env _ h

end

section
variable (env : GetworkEnv) (printReal : Float → List UInt8) {upbuf : List UInt8}

/-- Without an id, the text of a zero is read as the zero. -/
theorem reads_zero : Reads [0x30] (.number [0x30]) := by
  rw [← literals_reply.2.2.2.2.2.2]
  exact reads_number (isNumber_printInt 0)

/-- The text of the id is read as the id. -/
theorem reads_idstrOrZero {id : Option Json}
    (hdumps : ∀ x, id = some x → Reads (env.dumps x).bytes (jsonTree printReal x)) :
    Reads (idstrOrZero (id.map env.dumps)) (idTree printReal id) := by
  cases id with
  | none => exact reads_zero
  | some x => exact hdumps x rfl

/-- A request that is no submission without an id is replied to as it should. -/
theorem repliesRight_of_not
    (hdumps : ∀ id, requestId env upbuf = some id →
      Reads (env.dumps id).bytes (jsonTree printReal id))
    (H : ¬(Submits env upbuf ∧ requestId env upbuf = none)) :
    RepliesRight env printReal upbuf := by
  suffices hcarries : ∃ reply, handleGetwork env upbuf = some reply ∧
      Carries reply (idTree printReal (requestId env upbuf)) by
    obtain ⟨reply, hreply, ms, htext, hkeys⟩ := hcarries
    exact ⟨reply, ms, hreply, htext, hkeys⟩
  rw [handleGetwork]
  by_cases hempty : upbuf = []
  · have hid : requestId env upbuf = none := by rw [requestId, if_pos hempty]
    rw [if_pos hempty, hid]
    exact carries_getworkReply env reads_zero (fun _ _ hsubmit => absurd hsubmit (by simp))
  · rw [if_neg hempty]
    cases hload : env.jsonLoads upbuf with
    | none =>
      have hid : requestId env upbuf = none := by
        rw [requestId, if_neg hempty, hload, Option.bind_none]
      rw [hid]
      exact carries_error env .parse reads_zero
    | some json =>
      have hid : requestId env upbuf = json.get "id" := by
        rw [requestId, if_neg hempty, hload, Option.bind_some]
      rw [hid] at hdumps H ⊢
      have hreads := reads_idstrOrZero env printReal hdumps
      by_cases hmethod :
          bfgJsonObjString json "method" (literal "getwork") = literal "getwork"
      · dsimp only
        rw [if_neg (not_not.mpr hmethod)]
        refine carries_getworkReply env hreads (fun huser hclient hsubmit => ?_)
        obtain ⟨submit, hsubmit⟩ := Option.isSome_iff_exists.mp hsubmit
        have hsubmits : Submits env upbuf :=
          ⟨json, submit, hempty, hload, hmethod, huser, hclient, hsubmit⟩
        rw [Option.isSome_map, Option.isSome_iff_ne_none]
        exact fun hnone => H ⟨hsubmits, hnone⟩
      · dsimp only
        rw [if_pos hmethod]
        exact carries_error env .method hreads

/-- The reply to a submission without an id is written past its memory. -/
theorem handleGetwork_none (hsubmits : Submits env upbuf) (hid : requestId env upbuf = none) :
    handleGetwork env upbuf = none := by
  obtain ⟨json, submit, hempty, hload, hmethod, huser, hclient, hsubmit⟩ := hsubmits
  rw [requestId, if_neg hempty, hload, Option.bind_some] at hid
  obtain ⟨user, huser⟩ := Option.isSome_iff_exists.mp huser
  simp only [handleGetwork, if_neg hempty, hload, hid, hmethod, not_true_eq_false,
    ne_eq, if_false, getworkReply, huser, hclient, Bool.not_true, Bool.false_eq_true, hsubmit,
    Option.map_none]
  exact submitReply_none env _

/-- The reply to a request is inside its memory, and an object with the id of the request,
exactly if the request is no submission without an id. -/
theorem repliesRight_iff
    (hdumps : ∀ id, requestId env upbuf = some id →
      Reads (env.dumps id).bytes (jsonTree printReal id)) :
    RepliesRight env printReal upbuf ↔
      ¬(Submits env upbuf ∧ requestId env upbuf = none) := by
  constructor
  · rintro ⟨reply, ms, hreply, -⟩ ⟨hsubmits, hid⟩
    rw [handleGetwork_none env hsubmits hid] at hreply
    cases hreply
  · exact repliesRight_of_not env printReal hdumps

end

/-- A submission, with an id or without. -/
def submission (id : List (String × Json)) : Json :=
  .object (id ++ [("params", .array [.string (.ofMem (literal "00"))])])

/-- The text of a submission with the id 1, and of one without. -/
def submissionWithId : List UInt8 := literal "\x7b\"id\":1,\"params\":[\"00\"]\x7d"

def submissionWithoutId : List UInt8 := literal "\x7b\"params\":[\"00\"]\x7d"

/-- A miner that is sent one of them by a user it knows. -/
def submitEnv : GetworkEnv where
  heap := fun _ => 0
  jsonLoads := fun text =>
    if text = submissionWithId then some (submission [("id", .integer 1)])
    else if text = submissionWithoutId then some (submission [])
    else none
  dumps := fun v => match v with
    | .integer n => .ofMem (printInt n)
    | _ => .ofMem (literal "null")
  username := some (.ofMem (literal "user"))
  clientFound := true
  disabled := false
  rejreason := fun _ => some (.ofMem (literal "unknown-work"))
  target := Vector.replicate 32 0
  data := Vector.replicate 128 0
  midstate := Vector.replicate 32 0
  scrypt := false

/-- The two texts are not empty, and differ. -/
theorem submissions_ne : submissionWithId ≠ [] ∧ submissionWithoutId ≠ [] ∧
    submissionWithoutId ≠ submissionWithId := by
  decide +kernel

theorem jsonLoads_withId :
    submitEnv.jsonLoads submissionWithId = some (submission [("id", .integer 1)]) :=
  if_pos rfl

theorem jsonLoads_withoutId :
    submitEnv.jsonLoads submissionWithoutId = some (submission []) :=
  (if_neg submissions_ne.2.2).trans (if_pos rfl)

/-- The id of the one that has one. -/
theorem requestId_submissionWithId :
    requestId submitEnv submissionWithId = some (.integer 1) := by
  rw [requestId, if_neg submissions_ne.1, jsonLoads_withId]
  rfl

/-- It is submitted and replied to as it should. -/
theorem repliesRight_withId :
    RepliesRight submitEnv (fun _ => [0x30]) submissionWithId := by
  have hdumps : ∀ id, requestId submitEnv submissionWithId = some id →
      Reads (submitEnv.dumps id).bytes (jsonTree (fun _ => [0x30]) id) := by
    intro id hid
    rw [requestId_submissionWithId] at hid
    cases hid
    have htext : (submitEnv.dumps (.integer 1)).bytes = printInt 1 := by decide +kernel
    rw [htext]
    exact reads_number (isNumber_printInt 1)
  refine (repliesRight_iff submitEnv _ hdumps).mpr ?_
  rintro ⟨-, hnone⟩
  rw [requestId_submissionWithId] at hnone
  cases hnone

/-- The reply to the other is longer than its memory. -/
theorem not_repliesRight_withoutId :
    ¬RepliesRight submitEnv (fun _ => [0x30]) submissionWithoutId := by
  have hsubmits : Submits submitEnv submissionWithoutId :=
    ⟨submission [], .ofMem (literal "00"), submissions_ne.2.1, jsonLoads_withoutId, rfl, rfl, rfl,
      rfl⟩
  have hid : requestId submitEnv submissionWithoutId = none := by
    rw [requestId, if_neg submissions_ne.2.1, jsonLoads_withoutId]
    rfl
  rintro ⟨reply, ms, hreply, -⟩
  rw [handleGetwork_none submitEnv hsubmits hid] at hreply
  cases hreply

end MassGridMiner

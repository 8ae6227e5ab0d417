import Mpt.Array.Heap

/-! # Reply contexts

A reply context keeps the id of a request until it is answered.  The id moves to a
detached handle when the answer is deferred.  The context lives as long as there
are references or handles.
-/

namespace Mpt.Event

/-- `struct reply_data`.  `serial` numbers the requests, it is not part of the code. -/
structure ReplyData where
  max : Nat
  len : Nat
  val : List Byte
  serial : Nat

namespace ReplyData

/-- The stored id. -/
def id (rd : ReplyData) : List Byte := rd.val.take rd.len

end ReplyData

/-- `val[0] |= 0x80` -/
def setFlag : List Byte → List Byte
  | [] => []
  | b :: val => (b ||| 0x80) :: val

/-- `val[0] &= 0x7f` -/
def clearFlag : List Byte → List Byte
  | [] => []
  | b :: val => (b &&& 0x7f) :: val

/-- `mpt_reply_set` for the request with number `serial`. -/
def replySet (rd : ReplyData) (src : Data) (serial : Nat) : ReplyData × Except Error Nat :=
  if rd.max < src.len then
    (rd, .error .badValue)
  else
    ({ rd with val := src.content ++ rd.val.drop src.len, len := src.len, serial := serial },
      .ok (rd.max - src.len))

/-- `struct reply_context_defer`.  `send` is false for a null function, `vptr` while
    the interface pointer of the reply context is intact. -/
structure Context where
  send : Bool
  ptr : Nat
  ref : Nat
  vptr : Bool
  data : ReplyData

/-- The members that a conversion can give access to. -/
inductive Part where
  | ctx
  | data
  deriving Repr, DecidableEq

inductive ConvType where
  | replyPtr
  | replyDataPtr
  | other
  deriving Repr, DecidableEq

/-- `contextConv`: both pointer types get the address of the reply context. -/
def contextConv : ConvType → Option Part
  | .replyPtr => some .ctx
  | .replyDataPtr => some .ctx
  | .other => none

/-- A call of the send function: the number of the request, the id as it is handed
    over, the message and the result. -/
structure Sent where
  serial : Nat
  id : List Byte
  msg : Option (List Byte)
  ok : Bool

/-- Which requests for memory and which calls of the send function succeed. -/
structure ReplyEnv where
  malloc : Nat → Bool
  send : Nat → Bool

/-- `contextSend` -/
def contextSend (env : ReplyEnv) (ctx : Context) (sends : List Sent) (rd : ReplyData)
    (msg : Option (List Byte)) : List Sent × ReplyData × Except Error Nat :=
  if rd.len = 0 then
    -- reply already sent
    (sends, rd, .error .badArgument)
  else if ctx.send = false then
    (sends, { rd with len := 0 }, .ok 0)
  else if ctx.ptr = 0 then
    -- no reply target available
    (sends, rd, .ok 0)
  else
    let rd := { rd with val := setFlag rd.val }
    let ok := env.send sends.length
    let sends := sends ++ [⟨rd.serial, rd.id, msg, ok⟩]
    if ok then
      (sends, { rd with len := 0 }, .ok 0)
    else
      (sends, { rd with val := clearFlag rd.val }, .error .badOperation)

/-- The context and its detached handles; `owners` counts the references that callers
    hold, `requests` are the ids that have been set. -/
structure ReplyWorld where
  ctx : Option Context
  handles : List ReplyData
  owners : Nat
  requests : List (List Byte)
  sends : List Sent
  mallocs : Nat
  frees : Nat
  fault : Bool

namespace ReplyWorld

/-- `mpt_reply_deferrable`, where there is memory for the context. -/
def deferrable (len : Nat) (send : Bool) (ptr : Nat) : ReplyWorld :=
  ⟨some ⟨send, ptr, 1, true, ⟨len, 0, List.replicate (max len 4) 0, 0⟩⟩, [], 1, [], [], 0, 0, false⟩

/-- Access to memory that is freed, or through a pointer that is overwritten. -/
def crash (w : ReplyWorld) : ReplyWorld := { w with fault := true }

def free (w : ReplyWorld) : ReplyWorld := { w with ctx := none, frees := w.frees + 1 }

/-- `contextDetach` -/
def contextDetach (w : ReplyWorld) : ReplyWorld :=
  match w.ctx with
  | none => w.crash
  | some ctx =>
      match Heap.refcountLower ctx.ref with
      | (ref, false) => { w with ctx := some { ctx with ref := ref } }
      | (_, true) => w.free

/-- `contextUnref` -/
def contextUnref (env : ReplyEnv) (w : ReplyWorld) : ReplyWorld :=
  match w.ctx with
  | none => w.crash
  | some ctx =>
      match Heap.refcountLower ctx.ref with
      | (ref, false) => { w with ctx := some { ctx with ref := ref, send := false } }
      | (_, true) =>
          if ctx.send ∧ ctx.data.len ≠ 0 then
            let (sends, _, _) := contextSend env ctx w.sends ctx.data none
            { w with sends := sends }.free
          else
            w.free

/-- `contextRef` -/
def contextRef (w : ReplyWorld) : ReplyWorld × Nat :=
  match w.ctx with
  | none => (w.crash, 0)
  | some ctx =>
      let (ref, ret) := Heap.refcountRaise ctx.ref
      ({ w with ctx := some { ctx with ref := ref } }, ret)

/-- `contextSet`: the direct reply. -/
def contextSet (env : ReplyEnv) (w : ReplyWorld) (msg : Option (List Byte)) :
    ReplyWorld × Except Error Nat :=
  match w.ctx with
  | none => (w.crash, .error .badArgument)
  | some ctx =>
      if ctx.vptr = false then
        (w.crash, .error .badArgument)
      else
        let (sends, data, ret) := contextSend env ctx w.sends ctx.data msg
        ({ w with ctx := some { ctx with data := data }, sends := sends }, ret)

/-- `contextDefer`: the new handle is the last one. -/
def contextDefer (env : ReplyEnv) (w : ReplyWorld) : ReplyWorld × Bool :=
  match w.ctx with
  | none => (w.crash, false)
  | some ctx =>
      if ctx.vptr = false then
        (w.crash, false)
      else if ctx.data.len = 0 then
        (w, false)
      else
        match Heap.refcountRaise ctx.ref with
        | (_, 0) => (w, false)
        | (ref, _ + 1) =>
            let w := { w with mallocs := w.mallocs + 1 }
            if env.malloc (w.mallocs - 1) then
              -- reply data belongs to new context
              ({ w with
                ctx := some { ctx with ref := ref, data := { ctx.data with len := 0 } }
                handles := w.handles ++ [ctx.data] }, true)
            else
              ({ w with ctx := some { ctx with ref := (Heap.refcountLower ref).1 } }, false)

/-- `deferReply` -/
def deferReply (env : ReplyEnv) (w : ReplyWorld) (pos : Nat) (msg : Option (List Byte)) :
    ReplyWorld × Except Error Nat :=
  match w.handles[pos]?, w.ctx with
  | some rd, some ctx =>
      match contextSend env ctx w.sends rd msg with
      | (sends, rd, .error e) =>
          if msg.isSome then
            ({ w with sends := sends, handles := w.handles.set pos rd }, .error e)
          else
            ({ w with sends := sends, handles := w.handles.eraseIdx pos }.contextDetach, .ok 0)
      | (sends, _, .ok ret) =>
          ({ w with sends := sends, handles := w.handles.eraseIdx pos }.contextDetach, .ok ret)
  | _, _ => (w.crash, .error .badArgument)

/-- `mpt_reply_set` on a member of the context.  In the place of the reply data the
    reply context starts with its interface pointer, which is overwritten. -/
def set (w : ReplyWorld) (part : Part) (src : Data) : ReplyWorld × Except Error Nat :=
  match w.ctx, part with
  | none, _ => (w.crash, .error .badArgument)
  | some ctx, .ctx => ({ w with ctx := some { ctx with vptr := false } }, .ok 0)
  | some ctx, .data =>
      let (data, ret) := replySet ctx.data src w.requests.length
      ({ w with ctx := some { ctx with data := data }, requests := w.requests ++ [src.content] },
        ret)

end ReplyWorld

end Mpt.Event

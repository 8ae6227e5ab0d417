import Mpt.Config.PathSplit
import Mpt.Message.Reads

/-! # Assignment messages

The message has the elements of a path, each with a zero behind it, and then a value.  Both
are copied to a buffer of the function, and the path and the value that the handler gets are
two ranges of it.
-/

namespace Mpt.Config

/-- The handler of an assignment with its context: it gets a path and the bytes of a value, or
    null pointers for both. -/
abbrev AssignHandler := Option (Path × List Byte) → Int

/-- What was done: the arguments of the calls of the handler, the result, and the references
    to the global configuration that are held yet. -/
structure Assigned where
  calls : List (Option (Path × List Byte))
  ret : Except Error Int
  held : Nat

/-- The loop over the elements: the length of the path behind them, which is `plen` so far. -/
def pathLen (start : List Byte) (len : Int) (plen : Nat) : Option Nat :=
  if len = 0 then
    some plen
  else
    match found : start.findIdx? (· = 0) with
    | none => none
    | some i => pathLen (start.drop (i + 1)) (len - 1) (plen + (i + 1))
termination_by start.length
decreasing_by
  obtain ⟨inside, _⟩ := List.findIdx?_eq_some_iff_getElem.mp found
  rw [List.length_drop]
  omega

/-- The size of the buffer for path and value. -/
def assignBuffer : Nat := 1024

/-- The path to the first bytes of a buffer. -/
def bufferPath (buf : Mem Byte) (len : Nat) : Path :=
  { Path.init false 0 0 with base := .text buf, len := len }

/-- The part behind the header: `glob` references were taken, and `buf` is what the buffer has
    at first. -/
def assignContent (m buf : Mem Byte) (tmp : Message) (len : Int) (proc : AssignHandler) (glob : Nat) :
    Assigned :=
  let content := (tmp.read assignBuffer).2.map m
  if assignBuffer ≤ content.length then
    ⟨[], .error .missingBuffer, glob - 1⟩
  else
    match pathLen content len 0 with
    | none => ⟨[], .error .badValue, glob - 1⟩
    | some plen =>
        let buf := buf.write 0 content
        let args := some (bufferPath buf plen, buf.read plen (content.length - plen))
        ⟨[args], .ok (proc args), glob - 1⟩

/-- `mpt_message_assign`: without a handler `assign` of the global configuration is taken,
    which there always is. -/
def messageAssign (m buf : Mem Byte) (msg : Option Message) (len : Int)
    (proc : Option AssignHandler) (global : AssignHandler) : Assigned :=
  let glob := if proc.isNone then 1 else 0
  let proc := proc.getD global
  match msg with
  | none => ⟨[none], .ok (proc none), glob - 1⟩
  | some tmp =>
      if len < 0 then
        match (tmp.read 2).2.map m with
        | [_, arg] => assignContent m buf (tmp.read 2).1 arg.toInt8.toInt proc glob
        | _ => ⟨[], .error .missingData, glob⟩
      else
        assignContent m buf tmp len proc glob

/-- The number of elements and what comes behind the header, where there is one. -/
def assignParts (len : Int) (bytes : List Byte) : Option (Int × List Byte) :=
  if len < 0 then
    match bytes with
    | _ :: arg :: content => some (arg.toInt8.toInt, content)
    | _ => none
  else
    some (len, bytes)

/-- Nothing is assigned, and the result is an error. -/
def Refused (done : Assigned) : Prop :=
  done.calls = [] ∧ ∃ e, done.ret = .error e

/-- The handler is called once for these names and this value, and its result is returned. -/
def Passed (proc : AssignHandler) (names : List (List Byte)) (value : List Byte) (done : Assigned) : Prop :=
  ∃ p, done.calls = [some (p, value)] ∧ Path.Yields p names ∧ done.ret = .ok (proc (some (p, value)))

/-- What is done with the bytes of a message. -/
structure AssignsBytes (proc : AssignHandler) (len : Int) (bytes : List Byte) (done : Assigned) :
    Prop where
  passed : ∀ names value, (∀ e ∈ names, 0 ∉ e) →
    assignParts len bytes = some ((names.length : Int), textBytes 0 names ++ value) →
    (textBytes 0 names ++ value).length < 1024 → Passed proc names value done
  few : ∀ k content, assignParts len bytes = some (k, content) → 0 ≤ k →
    (content.count 0 : Int) < k → Refused done
  long : ∀ k content, assignParts len bytes = some (k, content) → 1024 ≤ content.length →
    Refused done
  header : assignParts len bytes = none → Refused done

/-- The message is assigned, and no reference to the global configuration is left. -/
structure Assigns (m : Mem Byte) (msg : Option Message) (len : Int) (proc : AssignHandler)
    (done : Assigned) : Prop where
  bytes : ∀ tmp, msg = some tmp → AssignsBytes proc len (tmp.bytes.map m) done
  released : done.held = 0

section Elements

theorem pathLen_zero (start : List Byte) (plen : Nat) : pathLen start 0 plen = some plen := by
  unfold pathLen
  rfl

theorem pathLen_step {start : List Byte} {len : Int} {i : Nat} (plen : Nat) (more : len ≠ 0)
    (found : start.findIdx? (· = 0) = some i) :
    pathLen start len plen = pathLen (start.drop (i + 1)) (len - 1) (plen + (i + 1)) := by
  rw [pathLen, if_neg more]
  split
  · rename_i none
    cases none.symm.trans found
  · rename_i j eq
    cases eq.symm.trans found
    rfl

theorem pathLen_names (names : List (List Byte)) (value : List Byte) (plen : Nat)
    (free : ∀ e ∈ names, 0 ∉ e) :
    pathLen (textBytes 0 names ++ value) names.length plen =
      some (plen + (textBytes 0 names).length) := by
  induction names generalizing plen with
  | nil => simpa using pathLen_zero value plen
  | cons e es ih =>
      obtain ⟨head, tail⟩ := List.forall_mem_cons.mp free
      have bytes : textBytes 0 (e :: es) ++ value = e ++ 0 :: (textBytes 0 es ++ value) := by
        simp [textBytes_cons]
      have rest : (e ++ 0 :: (textBytes 0 es ++ value)).drop (e.length + 1) =
          textBytes 0 es ++ value := by
        rw [List.drop_append, List.drop_of_length_le (by omega)]
        simp
      rw [bytes, pathLen_step plen (by simp only [List.length_cons]; omega) (Path.findIdx?_sep head),
        rest]
      have one : ((e :: es).length : Int) - 1 = es.length := by
        simp only [List.length_cons]
        omega
      rw [one, ih _ tail, textBytes_cons]
      simp
      omega

/-- Each element takes one zero. -/
theorem pathLen_few (start : List Byte) (len : Int) (plen : Nat) (few : (start.count 0 : Int) < len) :
    pathLen start len plen = none := by
  fun_induction pathLen start len plen with
  | case1 => omega
  | case2 => rfl
  | case3 start len plen more i found ih =>
      apply ih
      obtain ⟨inside, zero, _⟩ := List.findIdx?_eq_some_iff_getElem.mp found
      have split : start.count 0 = (start.take (i + 1)).count 0 + (start.drop (i + 1)).count 0 := by
        rw [← List.count_append, List.take_append_drop]
      have mem : (0 : Byte) ∈ start.take (i + 1) := by
        rw [List.take_add_one, List.getElem?_eq_getElem inside]
        simp at zero
        simp [zero]
      have some := List.count_pos_iff.mpr mem
      omega

end Elements

section Content

variable {m buf : Mem Byte} {tmp : Message} {len : Int} {proc : AssignHandler} {glob : Nat}

/-- The path to the elements at the start of the buffer. -/
theorem bufferPath_yields {names : List (List Byte)} {value : List Byte}
    (free : ∀ e ∈ names, 0 ∉ e) (short : (textBytes 0 names ++ value).length < 1024) :
    Path.Yields (bufferPath (buf.write 0 (textBytes 0 names ++ value)) (textBytes 0 names).length)
      names := by
  have whole := Mem.read_write_self buf 0 (textBytes 0 names ++ value)
  have front := (Path.read_split _ _ whole).1
  have rep : Path.TextRep (bufferPath (buf.write 0 (textBytes 0 names ++ value))
      (textBytes 0 names).length) names := by
    refine ⟨rfl, ?_, .inl rfl, free⟩
    calc (buf.write 0 (textBytes 0 names ++ value)).read 0 ((textBytes 0 names).length - 1)
        = ((buf.write 0 (textBytes 0 names ++ value)).read 0 (textBytes 0 names).length).take
            ((textBytes 0 names).length - 1) := by
          rw [Mem.take_read, Nat.min_eq_left (Nat.sub_le _ _)]
      _ = (textBytes 0 names).dropLast := by
          rw [front, List.dropLast_eq_take]
  refine (Path.yields_iff rep rfl PathBase.noConfusion).mpr fun e mem => ?_
  have part : e.length ≤ (textBytes 0 names).length := by
    have sub := (List.sublist_flatten_of_mem (List.mem_map_of_mem (f := (· ++ [0])) mem)).length_le
    rw [← List.flatMap_def, List.length_append] at sub
    exact Nat.le_trans (Nat.le_add_right _ _) sub
  rw [List.length_append] at short
  omega

/-- What is read to the buffer. -/
theorem read_content (tmp : Message) (m : Mem Byte) (size : Nat) :
    (tmp.read size).2.map m = (tmp.bytes.map m).take size :=
  (Message.reader_step m tmp size).1

theorem assignContent_passed {names : List (List Byte)} {value : List Byte}
    (free : ∀ e ∈ names, 0 ∉ e) (bytes : tmp.bytes.map m = textBytes 0 names ++ value)
    (short : (textBytes 0 names ++ value).length < 1024) :
    Passed proc names value (assignContent m buf tmp names.length proc glob) := by
  have content : (tmp.read assignBuffer).2.map m = textBytes 0 names ++ value := by
    rw [read_content, bytes]
    exact List.take_of_length_le (Nat.le_of_lt short)
  have behind := (Path.read_split _ _ (Mem.read_write_self buf 0 (textBytes 0 names ++ value))).2
  rw [Nat.zero_add] at behind
  have size : (textBytes 0 names ++ value).length - (textBytes 0 names).length = value.length := by
    rw [List.length_append, Nat.add_sub_cancel_left]
  unfold assignContent
  rw [content]
  simp only
  rw [if_neg (by unfold assignBuffer; omega), pathLen_names names value 0 free, Nat.zero_add]
  simp only
  rw [size, behind]
  exact ⟨_, rfl, bufferPath_yields free short, rfl⟩

theorem assignContent_few (few : ((tmp.bytes.map m).count 0 : Int) < len) :
    Refused (assignContent m buf tmp len proc glob) := by
  unfold assignContent
  simp only
  split
  · exact ⟨rfl, _, rfl⟩
  · rename_i short
    rw [read_content, List.length_take] at short
    rw [read_content, List.take_of_length_le (by omega), pathLen_few _ _ _ few]
    exact ⟨rfl, _, rfl⟩

theorem assignContent_long (long : 1024 ≤ (tmp.bytes.map m).length) :
    Refused (assignContent m buf tmp len proc glob) := by
  unfold assignContent
  simp only
  rw [if_pos]
  · exact ⟨rfl, _, rfl⟩
  · rw [read_content, List.length_take]
    exact Nat.le_min.mpr ⟨Nat.le_refl _, long⟩

theorem assignContent_held : (assignContent m buf tmp len proc glob).held = glob - 1 := by
  unfold assignContent
  simp only
  split
  · rfl
  · split
    · rfl
    · rfl

/-- Content with this number of elements before it is treated alike, with a header or without. -/
theorem assignContent_assigns {bytes : List Byte} {k : Int}
    (parts : assignParts len bytes = some (k, tmp.bytes.map m)) :
    AssignsBytes proc len bytes (assignContent m buf tmp k proc glob) := by
  constructor
  · intro names value free eq short
    obtain ⟨rfl, content⟩ := Prod.mk.inj (Option.some.inj (parts.symm.trans eq))
    exact assignContent_passed free content short
  · intro k' content eq _ few
    obtain ⟨rfl, rfl⟩ := Prod.mk.inj (Option.some.inj (parts.symm.trans eq))
    exact assignContent_few few
  · intro k' content eq long
    obtain ⟨rfl, rfl⟩ := Prod.mk.inj (Option.some.inj (parts.symm.trans eq))
    exact assignContent_long long
  · intro none
    cases parts.symm.trans none

/-- A header with the number of elements is read from the message. -/
theorem header_some {cmd arg : Byte} {content : List Byte}
    (eq : tmp.bytes.map m = cmd :: arg :: content) :
    (tmp.read 2).2.map m = [cmd, arg] ∧ (tmp.read 2).1.bytes.map m = content := by
  obtain ⟨front, rest⟩ := Message.reader_step m tmp 2
  rw [eq] at front rest
  exact ⟨front, rest⟩

theorem header_none (short : (tmp.bytes.map m).length < 2) :
    (tmp.read 2).2.map m = tmp.bytes.map m := by
  rw [read_content, List.take_of_length_le (Nat.le_of_lt short)]

theorem assignParts_none {bytes : List Byte} (negative : len < 0) (short : bytes.length < 2) :
    assignParts len bytes = none := by
  unfold assignParts
  rw [if_pos negative]
  match bytes, short with
  | [], _ => rfl
  | [_], _ => rfl

end Content

section Assign

variable (m buf : Mem Byte) (msg : Option Message) (len : Int) (proc : Option AssignHandler)
  (global : AssignHandler)

/-- The header is missing where one is needed. -/
def Headless : Prop := len < 0 ∧ ∃ tmp, msg = some tmp ∧ tmp.length < 2

theorem messageAssign_headless (headless : Headless msg len) :
    messageAssign m buf msg len proc global =
      ⟨[], .error .missingData, if proc.isNone then 1 else 0⟩ := by
  obtain ⟨negative, tmp, rfl, short⟩ := headless
  rw [Message.length_eq, ← List.length_map (f := m)] at short
  have none : (tmp.read 2).2.map m = tmp.bytes.map m := header_none short
  unfold messageAssign
  simp only
  rw [if_pos negative, none]
  match tmp.bytes.map m, short with
  | [], _ => rfl
  | [_], _ => rfl

/-- Message and number of elements are put together by the part behind the header. -/
theorem messageAssign_content (tmp : Message) (headed : ¬ Headless (some tmp) len) :
    ∃ tmp' k, messageAssign m buf (some tmp) len proc global =
        assignContent m buf tmp' k (proc.getD global) (if proc.isNone then 1 else 0) ∧
      assignParts len (tmp.bytes.map m) = some (k, tmp'.bytes.map m) := by
  unfold messageAssign assignParts
  simp only
  by_cases negative : len < 0
  · have long : 2 ≤ (tmp.bytes.map m).length := by
      rw [List.length_map, ← Message.length_eq]
      exact Nat.le_of_not_lt fun short => headed ⟨negative, tmp, rfl, short⟩
    obtain ⟨cmd, rest, eq⟩ := List.exists_cons_of_length_pos (Nat.lt_of_lt_of_le Nat.zero_lt_two long)
    rw [eq, List.length_cons] at long
    obtain ⟨arg, content, rfl⟩ := List.exists_cons_of_length_pos (Nat.le_of_succ_le_succ long)
    obtain ⟨front, behind⟩ := header_some eq
    rw [if_pos negative, if_pos negative, front, eq]
    exact ⟨_, _, rfl, by rw [behind]⟩
  · rw [if_neg negative, if_neg negative]
    exact ⟨tmp, len, rfl, rfl⟩

theorem messageAssign_bytes (tmp : Message) :
    AssignsBytes (proc.getD global) len (tmp.bytes.map m)
      (messageAssign m buf (some tmp) len proc global) := by
  by_cases headless : Headless (some tmp) len
  · have none : assignParts len (tmp.bytes.map m) = none := by
      obtain ⟨negative, _, eq, short⟩ := headless
      cases eq
      exact assignParts_none negative (by rwa [List.length_map, ← Message.length_eq])
    rw [messageAssign_headless m buf _ len proc global headless]
    constructor
    · intro names value _ eq
      cases none.symm.trans eq
    · intro k content eq
      cases none.symm.trans eq
    · intro k content eq
      cases none.symm.trans eq
    · exact fun _ => ⟨rfl, _, rfl⟩
  · obtain ⟨tmp', k, eq, parts⟩ := messageAssign_content m buf len proc global tmp headless
    rw [eq]
    exact assignContent_assigns parts

theorem messageAssign_held :
    (messageAssign m buf msg len proc global).held = 0 ↔ ¬ (proc = none ∧ Headless msg len) := by
  by_cases headless : Headless msg len
  · rw [messageAssign_headless m buf msg len proc global headless]
    cases proc with
    | none => simp [headless]
    | some proc => simp
  · have free : ¬ (proc = none ∧ Headless msg len) := fun both => headless both.2
    refine iff_of_true ?_ free
    have one : (if proc.isNone then 1 else 0) - 1 = 0 := by
      split
      · rfl
      · rfl
    cases msg with
    | none => exact one
    | some tmp =>
        obtain ⟨tmp', k, eq, _⟩ := messageAssign_content m buf len proc global tmp headless
        rw [eq, assignContent_held, one]

/-- A message is assigned, and the reference to the global configuration is given back, unless
    a header is missing that should tell the number of elements to the global configuration. -/
theorem message_assigns :
    Assigns m msg len (proc.getD global) (messageAssign m buf msg len proc global) ↔
      ¬ (proc = none ∧ Headless msg len) := by
  rw [← messageAssign_held m buf msg len proc global]
  constructor
  · exact fun done => done.released
  · intro released
    refine ⟨?_, released⟩
    rintro tmp rfl
    exact messageAssign_bytes m buf len proc global tmp

end Assign

/-- The message is empty, and the reference is kept. -/
theorem empty_held : ¬ ∀ (m buf : Mem Byte) (msg : Option Message) (len : Int)
    (proc : Option AssignHandler) (global : AssignHandler),
    Assigns m msg len (proc.getD global) (messageAssign m buf msg len proc global) := by
  intro all
  have released := (all (fun _ => 0) (fun _ => 0) (some ⟨0, 0, []⟩) (-1) none fun _ => 0).released
  cases released

end Mpt.Config

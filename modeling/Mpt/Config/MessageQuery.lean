import Mpt.Config.PathSplit
import Mpt.Message.Fragments

/-! # Query messages

A message has the paths of elements that are asked for, and the reply has the texts of their
values.  Each path is copied to a buffer that the path owns.  Requests for memory are granted.
-/

namespace Mpt.Config

namespace Path

/-- `mpt_path_fini` -/
def fini (p : Path) : Path :=
  match p.base with
  | .array _ => { p with base := .null, off := 0, len := 0 }
  | _ => p

/-- The bytes of a path. -/
def bytes (p : Path) : List Byte := p.mem.read p.off p.len

end Path

section Next

variable (m fresh : Mem Byte)

/-- The part of `mpt_config_message_next` behind the search for an argument of `len` bytes. -/
def takePath (p : Path) (sep : Int) (tmp : Message) (len : Nat) : Path × Message × Int :=
  let addr := fresh.set len 0
  let (tmp, taken) := tmp.read len
  let b : Store := ⟨addr.write 0 (taken.map m), Store.allocSize (len + 1), 0⟩
  let p := { p.fini with base := .array b }
  -- consume path and separator
  let tmp := if 0 ≤ sep then (tmp.read 1).1 else tmp
  (p, tmp, if taken.length ≠ 0 then taken.length else 1)

/-- `mpt_config_message_next`: path and message behind it, and the result.  `fresh` is what is
    in the memory for a path. -/
def messageNext (p : Path) (sep : Int) (msg : Message) : Path × Message × Int :=
  -- consume header argument
  if sep < 0 then
    match (msg.read 1).2 with
    | [] => ((p.set none 0).1, msg, 0)
    | arg :: _ => takePath m fresh p (m arg).toInt8.toInt (msg.read 1).1 1
  else
    match msg.argv m sep with
    -- `MissingData`
    | (_, none) => (p, msg, -0x10)
    | (tmp, some len) => takePath m fresh p sep tmp len

/-- Repeated calls of `mpt_config_message_next`: the paths, and the result that is the last. -/
def nexts (p : Path) (sep : Int) (msg : Message) : (fuel : Nat) → Option (List (List Byte) × Int)
  | 0 => none
  | fuel + 1 =>
      match messageNext m fresh p sep msg with
      | (p, msg, ret) =>
          if ret ≤ 0 then some ([], ret)
          else (nexts p sep msg fuel).map fun r => (p.bytes :: r.1, r.2)

end Next

/-- What a query does: it fails, or calls its handler with a value that has a text or none. -/
inductive Query where
  | failed (code : Nat)
  | value (txt : Option (List Byte))
  deriving DecidableEq

namespace Query

/-- The header of a reply, `MessageParamGet` without argument. -/
def header : List Byte := [5, 0]

/-- `_add_reply` to the content of the reply array, where there is a text. -/
def addReply (arr : Option (List Byte)) (txt : List Byte) : Option (List Byte) :=
  match arr with
  | none => some (header ++ txt)
  | some content =>
      if content = [] then some (header ++ txt) else some (content ++ 0 :: txt)

/-- The loop of `mpt_config_reply`: the reply array and the number of values or the error, or
    that a text was used that is not there. -/
inductive Collected where
  | crash
  | done (arr : Option (List Byte)) (ret : Int)
  deriving DecidableEq

end Query

open Query

/-- The configuration, which need not answer the same query the same way again. -/
abbrev Answers := Nat → List Byte → Query

/-- The loop of `mpt_config_reply`. -/
def replyLoop (m fresh : Mem Byte) (query : Answers) (sep : Int) (p : Path) (msg : Message)
    (arr : Option (List Byte)) (ret i : Nat) : (fuel : Nat) → Option Collected
  | 0 => none
  | fuel + 1 =>
      match messageNext m fresh p sep msg with
      | (p, msg, next) =>
          if next ≤ 0 then
            some (.done arr ret)
          else
            match query i p.bytes with
            | .failed code => some (.done arr (if ret = 0 then -code - 1 else ret))
            -- the length of a text that is not there
            | .value none => some .crash
            | .value (some txt) =>
                replyLoop m fresh query sep p msg (addReply arr txt) (ret + 1) (i + 1) fuel

/-- The text of the reply without values. -/
def failedText : List Byte := "failed to get config elements".toList.map fun c => .ofNat c.toNat

/-- `mpt_context_reply` with a text. -/
def contextReply (code : Int) : List (List Byte) :=
  if code < -128 ∨ 127 < code then [] else [[1, (Int8.ofInt code).toUInt8] ++ failedText]

/-- The replies of `mpt_config_reply` to a message, and whether it comes to its end: with a
    reply context, and `query` that of the configuration or of the global one. -/
structure Replied where
  sent : List (List Byte)
  crashed : Bool
  deriving DecidableEq

/-- `MPT_PATH_INIT` -/
def initPath : Path := Path.init false 46 0

/-- `mpt_config_reply`.  A round for each byte, and one more, is enough. -/
def configReply (m fresh : Mem Byte) (query : Answers) (sep : Int) (msg : Message) : Option Replied :=
  match replyLoop m fresh query sep initPath msg none 0 0 (msg.length + 1) with
  | none => none
  | some .crash => some ⟨[], true⟩
  | some (.done none ret) => some ⟨contextReply ret, false⟩
  | some (.done (some content) _) => some ⟨[content], false⟩

/-! ## What query messages are for -/

/-- The values of the queries up to the first that fails. -/
def values (query : Answers) (i : Nat) : List (List Byte) → List (Option (List Byte))
  | [] => []
  | path :: paths =>
      match query i path with
      | .failed _ => []
      | .value txt => txt :: values query (i + 1) paths

/-- Texts with single zeros between them. -/
def joinTexts : List (List Byte) → List Byte
  | [] => []
  | txt :: txts => txt ++ txts.flatMap (0 :: ·)

/-- The paths are delivered in their order, and then the end. -/
def Delivers (m fresh : Mem Byte) (sep : Int) (msg : Message) (paths : List (List Byte)) : Prop :=
  ∃ ret, nexts m fresh initPath sep msg (msg.length + 1) = some (paths, ret) ∧ ret ≤ 0

/-- There is one reply, with the texts of the values. -/
def Reports (m fresh : Mem Byte) (query : Answers) (sep : Int) (msg : Message)
    (paths : List (List Byte)) : Prop :=
  configReply m fresh query sep msg =
    some ⟨[header ++ joinTexts ((values query 0 paths).map (·.getD []))], false⟩

/-- The search for an argument ends at this separator. -/
def Separates (sep : Byte) : Prop := sep = 0 ∨ isGraph sep.toNat = true ∨ sep ∈ spaces

/-- All paths are empty, and the separators are found; there is a value, and no value is
    without a text. -/
structure Blank (query : Answers) (sep : Byte) (paths : List (List Byte)) : Prop where
  empty : ∀ path ∈ paths, path = []
  found : paths.length ≤ 1 ∨ Separates sep
  some : values query 0 paths ≠ []
  texts : ∀ txt ∈ values query 0 paths, txt ≠ none

section Argument

variable {m : Mem Byte} {msg : Message} {sep : Byte} {n : Nat}

/-- Characters that are neither tokens nor quotes are passed over. -/
theorem tokScan_plain (prev : Byte) (pos : Nat) (escape : sep ∉ quotes) (other : sep ∉ spaces) :
    tokScan spaces quotes 0 prev pos (List.replicate n sep) = .error (0, if n = 0 then prev else sep) := by
  induction n generalizing prev pos with
  | zero => rfl
  | succ n ih =>
      rw [List.replicate_succ, tokScan, if_neg (by simp), if_neg escape, if_neg other, ih]
      simp

theorem tokScan_token (prev : Byte) (pos : Nat) (escape : sep ∉ quotes) (token : sep ∈ spaces) :
    tokScan spaces quotes 0 prev pos (List.replicate (n + 1) sep) = .ok pos := by
  rw [List.replicate_succ, tokScan, if_neg (by simp), if_neg escape, if_pos token]

theorem nextIndex_self : nextIndex sep (List.replicate (n + 1) sep) = 0 := by
  simp [nextIndex, List.replicate_succ, List.findIdx?_cons]

theorem nextIndex_other {tok : Byte} (other : tok ≠ sep) : nextIndex tok (List.replicate n sep) = n := by
  have none : (List.replicate n sep).findIdx? (· == tok) = none := by
    rw [List.findIdx?_eq_none_iff]
    intro x mem
    rw [List.eq_of_mem_replicate mem]
    simpa using Ne.symm other
  rw [nextIndex, none]
  simp

/-- No separator that ends words is a quote or a backslash. -/
theorem quote_graph (graph : isGraph sep.toNat = false) : sep ∉ quotes ∧ sep ≠ 92 := by
  constructor
  · intro mem
    simp only [quotes, List.mem_cons, List.not_mem_nil, or_false] at mem
    rcases mem with rfl | rfl <;> exact absurd graph (by decide)
  · rintro rfl
    exact absurd graph (by decide)

/-- An argument before separators only is empty, or has all of them. -/
theorem argLen_seps [Decidable (Separates sep)] :
    argLen sep.toNat (List.replicate (n + 1) sep) = if Separates sep then 0 else n + 1 := by
  unfold argLen
  by_cases zero : sep = 0
  · subst zero
    rw [if_pos (by decide), if_pos (.inl rfl), nextIndex_self]
  · have some : ¬ (sep.toNat : Int) = 0 := by
      intro eq
      exact zero (UInt8.toNat_inj.mp (by simpa using eq))
    rw [if_neg some]
    by_cases graph : isGraph sep.toNat = false
    · obtain ⟨escape, _⟩ := quote_graph graph
      rw [if_pos graph]
      by_cases token : sep ∈ spaces
      · rw [if_pos (.inr (.inr token)), tokScan_token 32 0 escape token]
        rfl
      · have no : ¬ Separates sep := by
          rintro (none | yes | mem)
          · exact zero none
          · exact absurd graph (by simp [yes])
          · exact token mem
        rw [if_neg no, tokScan_plain 32 0 escape token]
        exact nextIndex_other (Ne.symm zero)
    · have yes : isGraph sep.toNat = true := by simpa using graph
      have same : UInt8.ofInt (sep.toNat : Int) = sep := by
        apply UInt8.toNat_inj.mp
        have small := sep.toNat_lt
        simp [UInt8.ofInt]
        omega
      rw [if_neg graph, if_pos (.inr (.inl yes)), same, nextIndex_self]

/-- The parts of a message of separators do not disturb each other. -/
theorem argClear_seps (sep : Byte) (bytes : msg.bytes.map m = List.replicate n sep) :
    Message.ArgClear m msg sep.toNat := by
  intro _
  have same := Message.bytes_settle msg.base msg.used msg.cont
  have last := Message.settle_used msg.base msg.used msg.cont
  rw [show (⟨msg.base, msg.used, msg.cont⟩ : Message) = msg from rfl] at same
  generalize Message.settle msg.base msg.used msg.cont = s at same last
  have all : ∀ x ∈ s.bytes.map m, x = sep := by
    rw [same, bytes]
    exact fun x mem => List.eq_of_mem_replicate mem
  have parts : s.bytes.map m = m.read s.base s.used ++ (flat s.cont).map m := by
    rw [Message.bytes_eq, List.map_append, map_addresses]
  have trims : Message.TrimClear m s := by
    unfold Message.TrimClear
    rw [memfcn_flat, memfcn_flat]
    by_cases space : isSpace sep = true
    · refine .inr (List.findIdx?_eq_none_iff.mpr fun x mem => ?_)
      rw [all x (by rw [parts]; exact List.mem_append_right _ mem), space]
      rfl
    · by_cases empty : s.used = 0
      · have none := congrArg (List.map m) (last empty)
        rw [parts] at none
        rw [(List.append_eq_nil_iff.mp none).2]
        exact .inr rfl
      · left
        obtain ⟨k, eq⟩ := Nat.exists_eq_succ_of_ne_zero empty
        have first : m s.base = sep := by
          apply all
          rw [parts, eq, Nat.succ_eq_add_one, Mem.read_succ]
          exact List.mem_cons_self
        simp only [flat_cons, flat_nil, List.append_nil]
        rw [eq, Nat.succ_eq_add_one, addresses_succ, List.map_cons, List.findIdx?_cons, first, if_pos]
        · rfl
        · simpa using space
  refine ⟨trims, fun graph => .inr ?_⟩
  obtain ⟨escape, slash⟩ := quote_graph graph
  have front : m.read (s.trim m).base (s.trim m).used = List.replicate (s.trim m).used sep := by
    refine List.eq_replicate_iff.mpr ⟨Mem.length_read _ _ _, fun x mem => all x ?_⟩
    have whole := Message.trim_eq trims
    rw [Message.bytes_eq, List.map_append, map_addresses] at whole
    have inside : x ∈ trimmed (s.bytes.map m) := by
      rw [← whole]
      exact List.mem_append_left _ mem
    exact List.mem_of_mem_drop inside
  rw [front]
  by_cases token : sep ∈ spaces
  · cases (s.trim m).used with
    | zero => exact ⟨rfl, by decide⟩
    | succ k => rw [tokScan_token 32 0 escape token]; trivial
  · rw [tokScan_plain 32 0 escape token]
    refine ⟨rfl, ?_⟩
    split
    · decide
    · exact slash

end Argument

section Calls

variable {m fresh : Mem Byte} {msg : Message} {p : Path} {sep : Byte} {n : Nat}

/-- No length of a path is set. -/
theorem takePath_len (empty : p.len = 0) (sep : Int) (tmp : Message) (len : Nat) :
    (takePath m fresh p sep tmp len).1.len = 0 := by
  change p.fini.len = 0
  unfold Path.fini
  split
  · rfl
  · exact empty

theorem messageNext_len (m fresh : Mem Byte) (empty : p.len = 0) (sep : Int) (msg : Message) :
    (messageNext m fresh p sep msg).1.len = 0 := by
  unfold messageNext
  split
  · split
    · rfl
    · exact takePath_len empty _ _ _
  · split
    · exact empty
    · exact takePath_len empty _ _ _

theorem bytes_empty (empty : p.len = 0) : p.bytes = [] := by
  unfold Path.bytes
  rw [empty]
  rfl

theorem nexts_empty {sep : Int} {fuel : Nat} {paths : List (List Byte)} {ret : Int} (empty : p.len = 0)
    (run : nexts m fresh p sep msg fuel = some (paths, ret)) : ∀ path ∈ paths, path = [] := by
  induction fuel generalizing p msg paths with
  | zero => cases run
  | succ fuel ih =>
      have left := messageNext_len m fresh empty sep msg
      unfold nexts at run
      rcases next : messageNext m fresh p sep msg with ⟨p', msg', ret'⟩
      rw [next] at run left
      simp only at run left
      split at run
      · cases run
        exact fun _ mem => nomatch mem
      · obtain ⟨⟨rest, last⟩, more, eq⟩ := Option.map_eq_some_iff.mp run
        obtain ⟨rfl, rfl⟩ := Prod.mk.inj eq
        exact List.forall_mem_cons.mpr ⟨bytes_empty left, ih left more⟩

/-- So many calls deliver an empty path each, and the next one reports the end. -/
def Feeds (m fresh : Mem Byte) (sep : Int) (p : Path) (msg : Message) : Nat → Prop
  | 0 => ∃ p' msg', messageNext m fresh p sep msg = (p', msg', -0x10)
  | n + 1 => ∃ p' msg' ret, messageNext m fresh p sep msg = (p', msg', ret) ∧ 0 < ret ∧
      p'.bytes = [] ∧ Feeds m fresh sep p' msg' n

theorem nexts_feeds {sep : Int} {fuel : Nat} (feeds : Feeds m fresh sep p msg n) (enough : n < fuel) :
    nexts m fresh p sep msg fuel = some (List.replicate n [], -0x10) := by
  induction n generalizing p msg fuel with
  | zero =>
      obtain ⟨fuel, rfl⟩ := Nat.exists_eq_succ_of_ne_zero (Nat.ne_of_gt enough)
      obtain ⟨p', msg', next⟩ := feeds
      rw [nexts, next]
      rfl
  | succ n ih =>
      obtain ⟨fuel, rfl⟩ := Nat.exists_eq_succ_of_ne_zero (Nat.ne_of_gt (Nat.zero_lt_of_lt enough))
      obtain ⟨p', msg', ret, next, some, bytes, rest⟩ := feeds
      rw [nexts, next]
      simp only
      rw [if_neg (by omega), ih rest (by omega), bytes]
      rfl

/-- Nothing is left of the message. -/
theorem feeds_none (bytes : msg.bytes.map m = []) : Feeds m fresh sep.toNat p msg 0 := by
  unfold Feeds messageNext
  rw [if_neg (by omega)]
  have clear := argClear_seps sep (n := 0) bytes
  rcases Message.argv_eq clear with ⟨_, done⟩ | ⟨some, _⟩
  · generalize msg.argv m sep.toNat = r at done
    obtain ⟨tmp, ret⟩ := r
    obtain rfl : ret = none := done
    exact ⟨_, _, rfl⟩
  · exact absurd bytes some

/-- A call takes an empty path, or all separators where none is found. -/
theorem next_seps (fresh : Mem Byte) [Decidable (Separates sep)] (empty : p.len = 0)
    (bytes : msg.bytes.map m = List.replicate (n + 1) sep) :
    ∃ p' msg' ret, messageNext m fresh p sep.toNat msg = (p', msg', ret) ∧ 0 < ret ∧ p'.len = 0 ∧
      msg'.bytes.map m = if Separates sep then List.replicate n sep else [] := by
  have left := messageNext_len m fresh empty sep.toNat msg
  have clear := argClear_seps sep bytes
  unfold messageNext at left ⊢
  rw [if_neg (by omega)] at left ⊢
  rcases Message.argv_eq clear with ⟨none, _⟩ | ⟨_, tmp, same, next⟩
  · rw [bytes, List.replicate_succ] at none
    cases none
  · have whole : tmp.bytes.map m = List.replicate (n + 1) sep := by
      rw [same, bytes]
      split
      · rfl
      · unfold trimmed
        rw [List.replicate_succ, List.findIdx?_cons]
        split
        · rfl
        · rename_i space
          have none : (List.replicate n sep).findIdx? (!isSpace ·) = none := by
            rw [List.findIdx?_eq_none_iff]
            intro x mem
            rw [List.eq_of_mem_replicate mem]
            simpa using space
          rw [none]
          rfl
    rw [whole, argLen_seps] at next
    rw [next] at left ⊢
    obtain ⟨_, _, rest⟩ := Message.read_arg m tmp (if Separates sep then 0 else n + 1)
      (by rw [whole, List.length_replicate]; split <;> omega)
    refine ⟨_, _, _, rfl, ?_, left, ?_⟩
    · split <;> omega
    · rw [if_pos (by omega)]
      refine Eq.trans rest ?_
      rw [whole]
      split
      · rfl
      · rw [List.drop_of_length_le (by simp)]

theorem feeds_separates (separates : Separates sep) (empty : p.len = 0)
    (bytes : msg.bytes.map m = List.replicate n sep) : Feeds m fresh sep.toNat p msg n := by
  induction n generalizing p msg with
  | zero => exact feeds_none bytes
  | succ n ih =>
      classical
      obtain ⟨p', msg', ret, next, some, left, rest⟩ := next_seps fresh empty bytes
      rw [if_pos separates] at rest
      exact ⟨p', msg', ret, next, some, bytes_empty left, ih left rest⟩

theorem feeds_one (other : ¬ Separates sep) (empty : p.len = 0)
    (bytes : msg.bytes.map m = List.replicate (n + 1) sep) : Feeds m fresh sep.toNat p msg 1 := by
  classical
  obtain ⟨p', msg', ret, next, some, left, rest⟩ := next_seps fresh empty bytes
  rw [if_neg other] at rest
  exact ⟨p', msg', ret, next, some, bytes_empty left, feeds_none rest⟩

end Calls

section Reply

variable {m fresh : Mem Byte} {msg : Message} {p : Path} {query : Answers} {n : Nat}

/-- The loop of `mpt_config_reply` over the paths. -/
def collect (query : Answers) (arr : Option (List Byte)) (ret i : Nat) : List (List Byte) → Collected
  | [] => .done arr ret
  | path :: paths =>
      match query i path with
      | .failed code => .done arr (if ret = 0 then -code - 1 else ret)
      | .value none => .crash
      | .value (some txt) => collect query (addReply arr txt) (ret + 1) (i + 1) paths

theorem replyLoop_feeds (query : Answers) {sep : Int} {fuel : Nat} (feeds : Feeds m fresh sep p msg n) (enough : n < fuel)
    (arr : Option (List Byte)) (ret i : Nat) :
    replyLoop m fresh query sep p msg arr ret i fuel =
      some (collect query arr ret i (List.replicate n [])) := by
  induction n generalizing p msg fuel arr ret i with
  | zero =>
      obtain ⟨fuel, rfl⟩ := Nat.exists_eq_succ_of_ne_zero (Nat.ne_of_gt enough)
      obtain ⟨p', msg', next⟩ := feeds
      rw [replyLoop, next]
      rfl
  | succ n ih =>
      obtain ⟨fuel, rfl⟩ := Nat.exists_eq_succ_of_ne_zero (Nat.ne_of_gt (Nat.zero_lt_of_lt enough))
      obtain ⟨p', msg', r, next, some, bytes, rest⟩ := feeds
      rw [replyLoop, next, List.replicate_succ, collect]
      simp only
      rw [if_neg (by omega), bytes]
      cases query i [] with
      | failed code => rfl
      | value txt =>
          cases txt with
          | none => rfl
          | some txt => exact ih rest (by omega) _ _ _

/-- A value without a text is not survived. -/
theorem collect_crash (arr : Option (List Byte)) (ret i : Nat) (paths : List (List Byte))
    (missing : none ∈ values query i paths) : collect query arr ret i paths = .crash := by
  induction paths generalizing arr ret i with
  | nil => cases missing
  | cons path paths ih =>
      unfold values at missing
      unfold collect
      cases answer : query i path with
      | failed code =>
          rw [answer] at missing
          cases missing
      | value txt =>
          rw [answer] at missing
          cases txt with
          | none => rfl
          | some txt =>
              rcases List.mem_cons.mp missing with same | more
              · cases same
              · exact ih _ _ _ more

theorem collect_texts (arr : Option (List Byte)) (ret i : Nat) (paths : List (List Byte))
    (texts : ∀ txt ∈ values query i paths, txt ≠ none) :
    ∃ ret', collect query arr ret i paths =
      .done (((values query i paths).map (·.getD [])).foldl addReply arr) ret' := by
  induction paths generalizing arr ret i with
  | nil => exact ⟨_, rfl⟩
  | cons path paths ih =>
      unfold values at texts ⊢
      unfold collect
      cases answer : query i path with
      | failed code => exact ⟨_, rfl⟩
      | value txt =>
          rw [answer] at texts
          obtain ⟨first, rest⟩ := List.forall_mem_cons.mp texts
          cases txt with
          | none => exact absurd rfl first
          | some txt => exact ih _ _ _ rest

/-- Texts behind others are put behind a zero. -/
theorem addReply_content (txts : List (List Byte)) (content : List Byte) (some_ : content ≠ []) :
    txts.foldl addReply (some content) = some (content ++ txts.flatMap (0 :: ·)) := by
  induction txts generalizing content with
  | nil => simp
  | cons txt txts ih =>
      have add : addReply (some content) txt = some (content ++ 0 :: txt) := if_neg some_
      rw [List.foldl_cons, add, ih _ (by simp)]
      simp

theorem addReply_texts {txts : List (List Byte)} (some_ : txts ≠ []) :
    txts.foldl addReply none = some (header ++ joinTexts txts) := by
  obtain ⟨txt, txts, rfl⟩ := List.exists_cons_of_ne_nil some_
  rw [List.foldl_cons]
  refine (addReply_content txts (header ++ txt) (by simp [header])).trans ?_
  simp [joinTexts]

/-- No text comes with the reply of an error. -/
theorem contextReply_other (code : Int) (txt : List Byte) : contextReply code ≠ [header ++ txt] := by
  unfold contextReply
  split
  · exact fun no => nomatch no
  · intro same
    have first := congrArg List.head? (List.cons.inj same).1
    exact absurd first (by simp [header])

/-- The reply for empty paths has the texts where there are values, and all have a text. -/
theorem reports_iff (sep : Int) (feeds : Feeds m fresh sep initPath msg n) (enough : n ≤ msg.length) :
    Reports m fresh query sep msg (List.replicate n []) ↔
      values query 0 (List.replicate n []) ≠ [] ∧
        ∀ txt ∈ values query 0 (List.replicate n []), txt ≠ none := by
  have loop := replyLoop_feeds query feeds (Nat.lt_succ_of_le enough) none 0 0
  unfold Reports configReply
  rw [loop]
  by_cases missing : none ∈ values query 0 (List.replicate n [])
  · rw [collect_crash _ _ _ _ missing]
    refine iff_of_false (fun same => ?_) fun all => all.2 none missing rfl
    cases congrArg (Option.map Replied.crashed) same
  · have texts : ∀ txt ∈ values query 0 (List.replicate n []), txt ≠ none := by
      rintro txt mem rfl
      exact missing mem
    obtain ⟨ret, done⟩ := collect_texts none 0 0 _ texts
    rw [done]
    by_cases some_ : values query 0 (List.replicate n []) = []
    · rw [some_]
      refine iff_of_false (fun same => ?_) fun all => all.1 rfl
      have sent : contextReply ret = [header ++ joinTexts []] :=
        Option.some.inj (congrArg (Option.map Replied.sent) same)
      exact contextReply_other ret _ sent
    · rw [addReply_texts (by simpa using some_)]
      exact iff_of_true rfl ⟨some_, texts⟩

end Reply

section Answered

variable {m fresh : Mem Byte} {msg : Message} {query : Answers} {sep : Byte} {paths : List (List Byte)}

theorem textBytes_empty (sep : Byte) (n : Nat) :
    textBytes sep (List.replicate n []) = List.replicate n sep := by
  induction n with
  | zero => rfl
  | succ n ih =>
      rw [List.replicate_succ, textBytes_cons, ih]
      rfl

/-- Empty paths are fed one by one where the separators are found, or there are no two of them. -/
theorem feeds_found (fresh : Mem Byte) (n : Nat) (bytes : msg.bytes.map m = List.replicate n sep)
    (found : n ≤ 1 ∨ Separates sep) : Feeds m fresh sep.toNat initPath msg n := by
  by_cases separates : Separates sep
  · exact feeds_separates separates rfl bytes
  · have few := found.resolve_right separates
    match n, few with
    | 0, _ => exact feeds_none bytes
    | 1, _ => exact feeds_one separates rfl bytes

/-- Paths are delivered that are empty, with separators that are found. -/
theorem delivers_iff (bytes : msg.bytes.map m = textBytes sep paths) :
    Delivers m fresh sep.toNat msg paths ↔
      (∀ path ∈ paths, path = []) ∧ (paths.length ≤ 1 ∨ Separates sep) := by
  have size : msg.length = (textBytes sep paths).length := by
    rw [← bytes, List.length_map, Message.length_eq]
  have empties (empty : ∀ path ∈ paths, path = []) : paths = List.replicate paths.length [] :=
    List.eq_replicate_iff.mpr ⟨rfl, empty⟩
  constructor
  · rintro ⟨ret, run, _⟩
    have empty := nexts_empty rfl run
    refine ⟨empty, ?_⟩
    by_contra no
    obtain ⟨many, other⟩ := not_or.mp no
    obtain ⟨n, eq⟩ := Nat.exists_eq_succ_of_ne_zero (show paths.length ≠ 0 by omega)
    rw [empties empty, textBytes_empty, eq] at bytes
    rw [empties empty, textBytes_empty, List.length_replicate] at size
    rw [nexts_feeds (feeds_one other rfl bytes) (by omega)] at run
    have one := congrArg List.length (Prod.mk.inj (Option.some.inj run)).1
    rw [List.length_replicate] at one
    omega
  · rintro ⟨empty, found⟩
    have feeds := feeds_found fresh paths.length
      (by rw [bytes, empties empty, textBytes_empty, List.length_replicate]) found
    rw [empties empty, textBytes_empty, List.length_replicate] at size
    refine ⟨-0x10, ?_, by decide⟩
    rw [nexts_feeds feeds (by omega), ← empties empty]

/-- The paths are delivered, and the reply has the texts, exactly where no path has a length
    and each value has a text. -/
theorem queries_answered (m fresh : Mem Byte) (query : Answers) (sep : Byte) (msg : Message)
    (paths : List (List Byte)) (bytes : msg.bytes.map m = textBytes sep paths) :
    (Delivers m fresh sep.toNat msg paths ∧ Reports m fresh query sep.toNat msg paths) ↔
      Blank query sep paths := by
  have reports (empty : ∀ path ∈ paths, path = []) (found : paths.length ≤ 1 ∨ Separates sep) :
      Reports m fresh query sep.toNat msg paths ↔
        values query 0 paths ≠ [] ∧ ∀ txt ∈ values query 0 paths, txt ≠ none := by
    have empties : paths = List.replicate paths.length [] := List.eq_replicate_iff.mpr ⟨rfl, empty⟩
    have seps : msg.bytes.map m = List.replicate paths.length sep := by
      rw [bytes, empties, textBytes_empty, List.length_replicate]
    have size := congrArg List.length seps
    rw [List.length_map, ← Message.length_eq, List.length_replicate] at size
    rw [empties]
    exact reports_iff sep.toNat (feeds_found fresh paths.length seps found) (by omega)
  constructor
  · rintro ⟨delivers, replied⟩
    obtain ⟨empty, found⟩ := (delivers_iff bytes).mp delivers
    obtain ⟨some_, texts⟩ := (reports empty found).mp replied
    exact ⟨empty, found, some_, texts⟩
  · intro blank
    exact ⟨(delivers_iff bytes).mpr ⟨blank.empty, blank.found⟩,
      (reports blank.empty blank.found).mpr ⟨blank.some, blank.texts⟩⟩

end Answered

/-- Two empty paths in two parts. -/
theorem blanks_answered : (Delivers (fun _ => 44) (fun _ => 0) 44 ⟨0, 1, [⟨8, 1⟩]⟩ [[], []] ∧
    Reports (fun _ => 44) (fun _ => 0) (fun _ _ => .value (some [65])) 44 ⟨0, 1, [⟨8, 1⟩]⟩ [[], []]) ↔
      Blank (fun _ _ => .value (some [65])) 44 [[], []] :=
  queries_answered (fun _ => 44) (fun _ => 0) (fun _ _ => .value (some [65])) 44 ⟨0, 1, [⟨8, 1⟩]⟩
    [[], []] (by decide)

/-- The path `a` is delivered without a length. -/
theorem path_without_length : ¬ ∀ (m fresh : Mem Byte) (query : Answers) (sep : Byte) (msg : Message)
    (paths : List (List Byte)), (∀ path ∈ paths, sep ∉ path) →
    msg.bytes.map m = textBytes sep paths →
      Delivers m fresh sep.toNat msg paths ∧ Reports m fresh query sep.toNat msg paths := by
  intro all
  have free : ∀ path ∈ [[97]], (0 : Byte) ∉ path := by
    simp
  have right := all (fun i => if i = 0 then 97 else 0) (fun _ => 0) (fun _ _ => .value (some [65])) 0
    ⟨0, 2, []⟩ [[97]] free (by decide)
  have empty := ((delivers_iff (by decide)).mp right.1).1
  exact absurd (empty [97] (by simp)) (by decide)

end Mpt.Config

import Mpt.Config.Post
import Mpt.Message.Argv
import Mpt.Parse.Append

/-! # Characters from a source

A parser takes one character after another and gathers it behind its path.  Behind the
last one there is a code for the end of the input, or for a failure to read it.
-/

namespace Mpt

/-- The numbers of the error codes. -/
def Error.code : Error → Int
  | badArgument => -1
  | badValue => -2
  | badType => -3
  | badOperation => -4
  | badEncoding => -8
  | missingData => -16
  | missingBuffer => -17

namespace Parse

/-- `isdigit` -/
def isDigit (c : Byte) : Bool := 48 ≤ c && c ≤ 57

/-- `isalnum` -/
def isAlnum (c : Byte) : Bool := isDigit c || 65 ≤ c && c ≤ 90 || 97 ≤ c && c ≤ 122

/-- `isprint` -/
def isPrint (c : Byte) : Bool := 32 ≤ c && c ≤ 126

/-- `isupper` -/
def isUpper (c : Byte) : Bool := 65 ≤ c && c ≤ 90

/-- `tolower` -/
def toLower (c : Byte) : Byte := if isUpper c then c + 32 else c

/-- `struct parser_format` -/
structure Format where
  sstart : Byte
  send : Byte
  ostart : Byte
  assign : Byte
  oend : Byte
  esc : List Byte
  com : List Byte
  deriving Repr, DecidableEq

namespace Format

/-- `MPT_PARSER_FORMAT_INIT` -/
def init : Format := ⟨123, 125, 0, 61, 0, [34, 39, 0], [35, 0, 0, 0]⟩

/-- `MPT_iscomment` -/
def isComment (fmt : Format) (c : Byte) : Bool := c ≠ 0 && fmt.com.contains c

/-- `MPT_isescape` -/
def isEscape (fmt : Format) (c : Byte) : Bool := c ≠ 0 && fmt.esc.contains c

end Format

/-- A space in a description stands for no character. -/
def described (c : Byte) : Byte := if isSpace c then 0 else c

/-- A field of `n` characters: what comes before a space, and zeros behind it. -/
def describedSet (n : Nat) (str : List Byte) : List Byte :=
  let set := (str.takeWhile (! isSpace ·)).take n
  set ++ List.replicate (n - set.length) 0

/-- The end of `mpt_parse_format`: comment characters, and escape characters behind a space. -/
def formatSets (fmt : Format) (str : List Byte) : Format :=
  match str with
  | [] => fmt
  | _ =>
      let fmt' := { fmt with com := describedSet 4 str }
      let rest := str.drop ((str.takeWhile (! isSpace ·)).take 4).length
      match rest.dropWhile isSpace with
      | [] => fmt'
      | rest => { fmt' with esc := describedSet 3 rest }

/-- `mpt_parse_format`: the format, and the character for its type. -/
def parseFormat : Option (List Byte) → Format × Byte
  | none => (.init, 42)
  | some str =>
      let ret := match str with
        | _ :: type :: _ => type
        | _ => 42
      let fmt := match str with
        | start :: _ => { Format.init with sstart := described start }
        | [] => .init
      match str.drop 2 with
      | [] => (fmt, ret)
      | [send] => ({ fmt with send := described send }, ret)
      | [send, ostart] =>
          ({ fmt with send := described send, ostart := described ostart }, ret)
      | [send, ostart, assign] =>
          ({ fmt with
            send := described send, ostart := described ostart, assign := described assign }, ret)
      | send :: ostart :: assign :: oend :: str =>
          (formatSets { fmt with
            send := described send, ostart := described ostart, assign := described assign
            oend := described oend } str, ret)

/-- `MPT_NAMEFLAG` -/
inductive NameFlag where
  | numStart
  | numCont
  | special
  | space
  | empty
  | binary
  deriving Repr, DecidableEq

def NameFlag.bit : NameFlag → Nat
  | numStart => 1
  | numCont => 2
  | special => 4
  | space => 8
  | empty => 16
  | binary => 32

/-- What a character in a name needs to be taken, if it needs something: the first one has
    its own flag for digits. -/
def nameNeeds (first : Bool) (c : Byte) : Option (NameFlag × Error) :=
  if isSpace c then some (.space, .badType)
  else if isDigit c then some (if first then .numStart else .numCont, .badValue)
  else if ! isPrint c then some (.binary, .badValue)
  else if ! isAlnum c then some (.special, .badValue)
  else none

/-- The loop of `mpt_parse_ncheck` -/
def ncheckLoop (take : Nat) (first : Bool) : List Byte → Except Error Unit
  | [] => .ok ()
  | c :: name =>
      match nameNeeds first c with
      | some (flag, err) => if has take flag.bit then ncheckLoop take false name else .error err
      | none => ncheckLoop take false name

/-- `mpt_parse_ncheck` -/
def ncheck (name : Data) (take : Nat) : Except Error Unit :=
  -- name required
  if name.len = 0 then
    if has take NameFlag.empty.bit then .ok () else .error .missingData
  else
    match name with
    | .null _ => .error .badArgument
    | .bytes name => ncheckLoop take true name

/-- A letter of `mpt_parse_accept` with the bits it stands for. -/
def acceptBits (c : Byte) : Option Nat :=
  match (toLower c).toNat with
  | 102 => some 1
  | 99 => some 2
  | 110 => some 3
  | 115 => some 4
  | 119 => some 8
  | 101 => some 16
  | 98 => some 32
  | _ => none

/-- The loop of `mpt_parse_accept`: the flags of sections and options, and the length. -/
def acceptLoop (sect opt len : Nat) : List Byte → Except Error (Nat × Nat × Nat)
  | [] => .ok (sect, opt, len)
  | c :: str =>
      if isSpace c then .ok (sect, opt, len)
      else
        match acceptBits c with
        | none => .error .badValue
        | some bits =>
            if isUpper c then acceptLoop (sect ||| bits) opt (len + 1) str
            else acceptLoop sect (opt ||| bits) (len + 1) str

/-- `mpt_parse_accept` -/
def accept : Option (List Byte) → Except Error (Nat × Nat × Nat)
  | none => .ok (255, 255, 0)
  | some [] => .ok (2, 2, 0)
  | some str => acceptLoop 0 0 0 str

/-- `struct parser_context` with its source and its path: the characters to come and the
    code behind them, the line, the flags for names, the number of valid bytes behind the
    path, the last and the current operation.  Every request for memory takes one of the
    grants. -/
structure Parser where
  input : List Byte
  fin : Error
  line : Nat
  sect : Nat
  opt : Nat
  valid : Nat
  prev : Nat
  curr : Nat
  path : Config.Path
  grants : Nat → Option (Mem Byte)

namespace Parser

/-- The line of the first character is 1. -/
def begun (s : Parser) : Parser := { s with line := if s.line = 0 then 1 else s.line }

/-- One character is taken from the source. -/
def passed (s : Parser) (c : Byte) (rest : List Byte) : Parser :=
  { s.begun with input := rest, line := s.begun.line + if c = 10 then 1 else 0 }

/-- `mpt_path_addchar` with the path of the parser -/
def addchar (s : Parser) (c : Byte) : Parser × Except Error Nat :=
  let (path, r) := s.path.addchar c (s.grants 0)
  ({ s with path := path, grants := fun n => s.grants (n + 1) }, r)

/-- `mpt_path_delchar` with the path of the parser -/
def delchar (s : Parser) : Parser := { s with path := s.path.delchar.1 }

/-- `parse->valid = mpt_path_valid(path)`, a number of 16 bits. -/
def keep (s : Parser) : Parser :=
  match s.path.valid with
  | (path, .ok n) => { s with path := path, valid := n % 2 ^ 16 }
  | (path, .error e) => { s with path := path, valid := (e.code % 2 ^ 16).toNat }

/-- `mpt_parse_getchar` -/
def getchar (s : Parser) : Parser × Except Error Byte :=
  match s.input with
  | [] => (s.begun, .error s.fin)
  | c :: rest =>
      let s := s.passed c rest
      if c = 0 then (s, .ok 0)
      else
        match s.addchar c with
        | (s, .error _) => (s, .error .badArgument)
        | (s, .ok _) => (s, .ok c)

/-- `mpt_parse_endline`: the number of characters before the end of the line. -/
def endline (s : Parser) : Parser × Except Error Nat :=
  let line := s.input.takeWhile (· ≠ 10)
  match s.input.dropWhile (· ≠ 10) with
  | [] => ({ s.begun with input := [] }, .error s.fin)
  | c :: rest => (s.passed c rest, .ok line.length)

theorem endline_input (s : Parser) : s.endline.1.input = (s.input.dropWhile (· ≠ 10)).tail := by
  unfold endline
  cases h : s.input.dropWhile (· ≠ 10) <;> rfl

/-- `mpt_parse_nextvis` -/
def nextvis (com : List Byte) (s : Parser) : Parser × Except Error Byte :=
  match _left : s.input with
  | [] => (s.begun, .error s.fin)
  | c :: rest =>
      let s' := s.passed c rest
      if c = 0 then (s', .ok 0)
      else if isSpace c then nextvis com s'
      else if com.contains c then
        match _end : s'.endline with
        | (s, .error e) => (s, .error e)
        | (s, .ok _) => nextvis com s
      else (s', .ok c)
termination_by s.input.length
decreasing_by
  · rw [_left]
    exact Nat.lt_succ_self _
  · have eq : s.input = ((s'.input).dropWhile (· ≠ 10)).tail := by
      rw [← endline_input, _end]
    have shorter := List.length_dropWhile_le (fun x : Byte => decide (x ≠ 10)) s'.input
    rw [_left, eq, List.length_tail, List.length_cons]
    exact Nat.lt_succ_of_le (Nat.le_trans (Nat.sub_le _ _) shorter)

theorem nextvis_nil (com : List Byte) {s : Parser} (left : s.input = []) :
    s.nextvis com = (s.begun, .error s.fin) := by
  rw [nextvis]
  split
  · rfl
  · next eq =>
    rw [left] at eq
    cases eq

theorem nextvis_cons (com : List Byte) {s : Parser} {c : Byte} {rest : List Byte}
    (left : s.input = c :: rest) : s.nextvis com =
      if c = 0 then (s.passed c rest, .ok 0)
      else if isSpace c then (s.passed c rest).nextvis com
      else if com.contains c then
        match (s.passed c rest).endline with
        | (s, .error e) => (s, .error e)
        | (s, .ok _) => s.nextvis com
      else (s.passed c rest, .ok c) := by
  rw [nextvis]
  split
  · next eq =>
    rw [left] at eq
    cases eq
  · next eq =>
    obtain ⟨rfl, rfl⟩ := List.cons.inj (left.symm.trans eq)
    split
    · rfl
    · split
      · rfl
      · split
        · dsimp only
          split
          · next eq =>
            rw [eq]
          · next eq =>
            rw [eq]
        · rfl

/-- The bytes behind the path as a name. -/
def word (s : Parser) (len : Nat) : Data :=
  match s.path.base with
  | .null => .null len
  | _ => .bytes (s.path.mem.read (s.path.off + s.path.len) len)

/-- `mpt_path_add` with the path of the parser -/
def addPath (s : Parser) (len : Nat) : Parser × Except Error Nat :=
  let (path, r) := s.path.add len (s.grants 0)
  ({ s with path := path, grants := fun n => s.grants (n + 1) }, r)

/-- `mpt_path_invalidate` with the path of the parser, for no result. -/
def invalidate (s : Parser) : Parser := { s with path := s.path.invalidate.1 }

end Parser

end Parse

end Mpt

import Mpt.Core

/-! # Messages in a log

`mpt_logfile_push` writes a message as text to one of three streams.  The header selects the stream
and whether the bytes behind it are text or have delimiters.
-/

namespace Mpt.Log

/-- `FILE` -/
inductive File where
  | stdout
  | stderr
  | opened (n : Nat)
  deriving DecidableEq

/-- The flags of a log for the stream: `state & 0x3` -/
inductive Target where
  | none
  | normal
  | error
  | history
  deriving DecidableEq

/-- The flags `state` of a log. -/
structure State where
  target : Target
  /-- `PrintRestore` -/
  restore : Bool
  /-- `PrintColor` -/
  color : Bool
  /-- `Active` -/
  active : Bool
  /-- the flags that are for others -/
  others : Byte
  deriving DecidableEq

/-- `struct logfile` -/
structure Logfile where
  file : Option File
  state : State
  mode : Byte
  ignore : Byte
  lsep : Byte
  deriving DecidableEq

/-- What is written to which stream. -/
abbrev Written := List (File × Byte)

def writes (fd : File) (l : List Byte) : Written := l.map fun b => (fd, b)

def ascii (s : String) : List Byte := s.toList.map fun c => c.toNat.toUInt8

/-- `mpt_ansi_code` -/
def ansiCode (type : Byte) : Option (List Byte) :=
  if type &&& 0x20 ≠ 0 then none
  else if type = 0 then some (27 :: ascii "[1m")
  else if 0x10 ≤ type then some (27 :: ascii "[32m")
  else if 0x8 ≤ type then some (27 :: ascii "[34m")
  else if 0x4 ≤ type then some (27 :: ascii "[33m")
  else if 0x3 ≤ type then some (27 :: ascii "[35m")
  else some (27 :: ascii "[31m")

/-- `mpt_ansi_reset` -/
def ansiReset : List Byte := 27 :: ascii "[0m"

/-- `mpt_log_identifier` -/
def logIdentifier (type : Byte) : Option String :=
  let level := type &&& 0x1f
  if type = 0 then none
  else if type &&& 0x20 ≠ 0 then
    if 0x10 ≤ level then some "DEBUG"
    else if 0x8 ≤ level then some "INFO"
    else if 0x4 ≤ level then some "WARNING"
    else if 0x3 ≤ level then some "ERROR"
    else if 0x2 ≤ level then some "CRITICAL"
    else if 0x1 ≤ level then some "FATAL"
    else none
  else
    if 0x10 ≤ level then some "debug"
    else if 0x8 ≤ level then some "info"
    else if 0x4 ≤ level then some "warning"
    else if 0x3 ≤ level then some "error"
    else if 0x2 ≤ level then some "critical"
    else if 0x1 ≤ level then some "fatal"
    else none

/-- `mpt_newline_native`, on a UNIX system -/
def newlineNative : Byte := 2

/-- `mpt_newline_string` -/
def newlineString (type : Byte) : List Byte :=
  let type := if type = 0 then newlineNative else type
  if type = 2 then [10] else if type = 1 then [13] else [13, 10]

/-- `mpt_output_flags`: the stream and `PrintRestore` -/
def outputFlags (arg max : Byte) : Target × Bool :=
  if arg = 0 then (.normal, false)
  else if arg &&& 0x20 ≠ 0 then (.history, decide (arg &&& 0xdf ≠ 0))
  else if max ≠ 0 ∧ max ≤ arg then (.none, false)
  else (.error, false)

/-- The stream that the flags select. -/
def Logfile.selected (log : Logfile) : Option File :=
  match log.state.target with
  | .none => none
  | .normal => some .stdout
  | .error => some .stderr
  | .history => some (log.file.getD .stderr)

def Logfile.setRestore (log : Logfile) (restore : Bool) : Logfile :=
  { log with state := { log.state with restore := restore } }

variable (tty : File → Bool)

/-- The end of a segment with the mode `val`. -/
def segment (fd : File) (log : Logfile) (val : Byte) (start : Option (List Byte)) :
    Logfile × List Byte :=
  let name := if val &&& 0x20 ≠ 0 then ascii "()" else []
  let reset := decide (val &&& 0x80 ≠ 0) && log.state.restore
  let log := if reset then log.setRestore false else log
  let text := name ++ (if reset then ansiReset else []) ++
    (if val &&& 0x40 ≠ 0 then ascii ": " else [])
  match start with
  | none => (log, text)
  | some code => if tty fd then (log.setRestore true, text ++ code) else (log, text)

/-- One byte of a message with delimiters. -/
def delimit (fd : File) (log : Logfile) (val : Byte) : Logfile × List Byte :=
  if val = 0 then
    (log, ascii ": ")
  else if val = 1 then
    segment tty fd { log with mode := 0xe1 } log.mode (if log.state.color then ansiCode 0 else none)
  else if val = 2 then
    segment tty fd { log with mode := 0xc2 } log.mode none
  else if val = 3 ∨ val = 4 then
    segment tty fd { log with mode := 0xc0 } (log.mode &&& 0x8f) none
  else
    ({ log with mode := log.mode ||| 0xc0 }, [val])

def delimitAll (fd : File) (log : Logfile) : List Byte → Logfile × List Byte
  | [] => (log, [])
  | val :: l =>
      let (log, text) := delimit tty fd log val
      let (log, rest) := delimitAll fd log l
      (log, text ++ rest)

/-- The end of a message. -/
def finish (log : Logfile) : List Byte :=
  (if log.mode &&& 0x80 ≠ 0 ∧ log.mode &&& 0xf ≠ 0 then [0xe2, 0x80, 0xa6] else []) ++
    (if log.state.restore then ansiReset else []) ++ newlineString log.lsep

/-- `mpt_logfile_push` in a message -/
def proceed (log : Logfile) (src : Data) : Logfile × Written × Except Error Nat :=
  if log.state.target = .none ∧ log.state.restore = false then
    (log, [], .error .badArgument)
  else if src.len = 0 then
    ({ log with state := { log.state with target := .none, restore := false, active := false } },
      log.selected.elim [] fun fd => writes fd (finish log), .ok 0)
  else
    match src with
    | .null _ => (log, [], .error .missingData)
    | .bytes l =>
        match log.selected with
        | none => (log, [], .ok l.length)
        | some fd =>
            if log.mode &&& 0x80 = 0 then
              -- the result of `fwrite` is the number of objects
              (log, writes fd l, .ok 1)
            else
              let (log, text) := delimitAll tty fd log l
              (log, writes fd text, .ok l.length)

/-- The type of an output or answer message -/
def typeOf (cmd arg : Byte) : Option Byte :=
  if cmd = 0 then some (arg &&& 0x7f)
  else if cmd = 1 then some (if 0x80 ≤ arg then 0x3 else if arg ≠ 0 then 0x8 else 0x10)
  else none

/-- The mode of a message: no continuation and function flags -/
def modeOf (cmd arg : Byte) : Byte := if cmd = 0 then arg &&& 0x9f else 0

/-- An argument as a signed number -/
def signed (arg : Byte) : Int := if arg < 0x80 then arg.toNat else arg.toNat - 256

/-- What is written for the header. -/
def introduction (log : Logfile) (fd : File) (cmd arg type : Byte) : List Byte :=
  let mark := if log.file.all fun file => fd = file then ascii "# " else []
  let code := if log.state.color ∧ tty fd then ansiCode (type &&& 0xdf) else none
  let restore := if code.isSome then ansiReset else []
  if cmd = 1 then
    mark ++ code.getD [] ++ ascii "@" ++
      (if arg ≠ 0 then ascii ("[" ++ toString (signed arg) ++ "]: ") else ascii ": ") ++ restore
  else
    match logIdentifier type with
    | some id => mark ++ code.getD [] ++ ascii "[" ++ ascii id ++ ascii "] " ++ restore
    | none => mark

/-- The flags and the stream for what is no muted message. -/
def direct (file : Option File) (flags : Target × Bool) : Target × Bool × File :=
  match flags.1 with
  | .history =>
      match file with
      | some file => (.history, false, file)
      | none => (.error, false, .stderr)
  | .error => (.error, flags.2, .stderr)
  | target => (target, flags.2, .stdout)

/-- `mpt_logfile_push` without a message: the bytes behind the header are pushed as they are, and
    the result of this is not looked at. -/
def start (log : Logfile) (src : Data) : Logfile × Written × Except Error Nat :=
  match src with
  | .null _ => (log, [], .error .badArgument)
  | .bytes (cmd :: arg :: rest) =>
      let log := { log with
        state := { log.state with target := .none, restore := false }, mode := modeOf cmd arg }
      match typeOf cmd arg with
      | none => (log, [], .error .badType)
      | some type =>
          let flags := outputFlags type log.ignore
          if flags.1 = .none then
            ({ log with state := { log.state with active := true, restore := true } }, [],
              .ok (rest.length + 2))
          else
            let (target, restore, fd) := direct log.file flags
            let text := writes fd (introduction tty log fd cmd arg type)
            let log := { log with
              state := { log.state with active := true, target := target, restore := restore } }
            if rest = [] then
              (log, text, .ok (rest.length + 2))
            else
              let (log, more, _) := proceed tty log (.bytes rest)
              (log, text ++ more, .ok (rest.length + 2))
  | .bytes _ => (log, [], .error .missingData)

/-- `mpt_logfile_push` -/
def logfilePush (log : Logfile) (src : Data) : Logfile × Written × Except Error Nat :=
  if log.state.active then proceed tty log src else start tty log src

def pushes (log : Logfile) : List Data → Logfile × Written × List (Except Error Nat)
  | [] => (log, [], [])
  | src :: more =>
      let (log, text, result) := logfilePush tty log src
      let (log, rest, results) := pushes log more
      (log, text ++ rest, result :: results)

/-! ## Messages in pieces -/

/-- The log and what is written once more text of a message has come. -/
def effect (log : Logfile) (l : List Byte) : Logfile × Written :=
  match log.selected with
  | none => (log, [])
  | some fd =>
      if log.mode &&& 0x80 = 0 then (log, writes fd l)
      else ((delimitAll tty fd log l).1, writes fd (delimitAll tty fd log l).2)

/-- What is not changed by text. -/
structure Kept (log log' : Logfile) : Prop where
  same : log' = { log with
    mode := log'.mode, state := { log.state with restore := log'.state.restore } }
  marked : log'.mode &&& 0x80 = 0 ↔ log.mode &&& 0x80 = 0

/-- There is a message, and it is not lost. -/
def Going (log : Logfile) : Prop :=
  log.state.active = true ∧ (log.state.target = .none → log.state.restore = true)

/-- The result of a push in a message -/
def count (log : Logfile) (l : List Byte) : Nat :=
  if log.selected.isSome ∧ log.mode &&& 0x80 = 0 then 1 else l.length

/-- The log behind a message. -/
def closed (log : Logfile) : Logfile :=
  { log with state := { log.state with target := .none, restore := false, active := false } }

theorem Kept.refl (log : Logfile) : Kept log log := ⟨rfl, Iff.rfl⟩

theorem Kept.trans {a b c : Logfile} (ab : Kept a b) (bc : Kept b c) : Kept a c := by
  refine ⟨?_, bc.marked.trans ab.marked⟩
  rw [bc.same, ab.same]

theorem Kept.selected {log log' : Logfile} (h : Kept log log') : log'.selected = log.selected := by
  rw [h.same]
  rfl

theorem Kept.target {log log' : Logfile} (h : Kept log log') :
    log'.state.target = log.state.target := by
  rw [h.same]

theorem Kept.closed {log log' : Logfile} (h : Kept log log') :
    Log.closed log' = { Log.closed log with mode := log'.mode } := by
  rw [h.same]
  rfl

theorem writes_append (fd : File) (l l' : List Byte) :
    writes fd (l ++ l') = writes fd l ++ writes fd l' := List.map_append

theorem marked_or (mode : Byte) : (mode ||| 0xc0) &&& 0x80 ≠ 0 := by
  obtain ⟨v⟩ := mode
  revert v
  decide +kernel

theorem segment_same (fd : File) (log : Logfile) (val : Byte) (start : Option (List Byte)) :
    (segment tty fd log val start).1 =
      log.setRestore (segment tty fd log val start).1.state.restore := by
  unfold segment
  simp only
  generalize (decide (val &&& 0x80 ≠ 0) && log.state.restore) = reset
  cases reset with
  | false =>
      cases start with
      | none => rfl
      | some code => cases terminal : tty fd <;> rfl
  | true =>
      cases start with
      | none => rfl
      | some code => cases terminal : tty fd <;> rfl

theorem segment_kept (fd : File) {log : Logfile} (mode : Byte) (val : Byte)
    (start : Option (List Byte)) (marked : log.mode &&& 0x80 ≠ 0) (next : mode &&& 0x80 ≠ 0) :
    Kept log (segment tty fd { log with mode := mode } val start).1 := by
  have same := segment_same tty fd { log with mode := mode } val start
  refine ⟨?_, iff_of_false ?_ marked⟩
  · rw [same]
    rfl
  · rw [same]
    exact next

theorem delimit_kept (fd : File) {log : Logfile} (val : Byte) (marked : log.mode &&& 0x80 ≠ 0) :
    Kept log (delimit tty fd log val).1 := by
  unfold delimit
  split
  · exact .refl log
  split
  · exact segment_kept tty fd 0xe1 _ _ marked (by decide)
  split
  · exact segment_kept tty fd 0xc2 _ _ marked (by decide)
  split
  · exact segment_kept tty fd 0xc0 _ _ marked (by decide)
  · exact ⟨rfl, iff_of_false (marked_or log.mode) marked⟩

theorem delimitAll_kept (fd : File) {log : Logfile} (l : List Byte)
    (marked : log.mode &&& 0x80 ≠ 0) : Kept log (delimitAll tty fd log l).1 := by
  induction l generalizing log with
  | nil => exact .refl log
  | cons val l ih =>
      have one := delimit_kept tty fd val marked
      exact one.trans (ih fun zero => marked (one.marked.mp zero))

theorem delimitAll_append (fd : File) (log : Logfile) (l l' : List Byte) :
    delimitAll tty fd log (l ++ l') =
      ((delimitAll tty fd (delimitAll tty fd log l).1 l').1,
        (delimitAll tty fd log l).2 ++ (delimitAll tty fd (delimitAll tty fd log l).1 l').2) := by
  induction l generalizing log with
  | nil => rfl
  | cons val l ih =>
      simp only [List.cons_append, delimitAll, ih, List.append_assoc]

theorem effect_kept (log : Logfile) (l : List Byte) : Kept log (effect tty log l).1 := by
  unfold effect
  cases log.selected with
  | none => exact .refl log
  | some fd =>
      simp only
      split
      · exact .refl log
      · rename_i marked
        exact delimitAll_kept tty fd l marked

theorem effect_nil (log : Logfile) : effect tty log [] = (log, []) := by
  unfold effect
  cases log.selected with
  | none => rfl
  | some fd =>
      simp only
      split <;> rfl

/-- Text in two pieces is the text. -/
theorem effect_append (log : Logfile) (l l' : List Byte) :
    effect tty log (l ++ l') =
      ((effect tty (effect tty log l).1 l').1,
        (effect tty log l).2 ++ (effect tty (effect tty log l).1 l').2) := by
  have kept := effect_kept tty log l
  cases selected : log.selected with
  | none => simp [effect, selected]
  | some fd =>
      by_cases plain : log.mode &&& 0x80 = 0
      · simp [effect, selected, plain, writes_append]
      · have next := kept.selected.trans selected
        have marked := fun zero => plain (kept.marked.mp zero)
        unfold effect at next marked ⊢
        simp only [selected, if_neg plain] at next marked ⊢
        simp only [next, if_neg marked, delimitAll_append, writes_append]

theorem Going.effect {log : Logfile} (going : Going log) (l : List Byte) :
    Going (effect tty log l).1 := by
  have kept := effect_kept tty log l
  refine ⟨?_, ?_⟩
  · rw [kept.same]
    exact going.1
  · intro none
    have muted : log.selected = Option.none := by
      rw [kept.target] at none
      unfold Logfile.selected
      rw [none]
    rw [kept.target] at none
    unfold Log.effect
    rw [muted]
    exact going.2 none

theorem count_kept {log log' : Logfile} (h : Kept log log') (l : List Byte) :
    count log' l = count log l := by
  unfold count
  rw [h.selected]
  simp only [h.marked]

theorem proceed_text {log : Logfile} (going : Going log) {l : List Byte} (some_ : l ≠ []) :
    proceed tty log (.bytes l) = ((effect tty log l).1, (effect tty log l).2, .ok (count log l)) := by
  have open_ : ¬ (log.state.target = .none ∧ log.state.restore = false) := by
    rintro ⟨none, plain⟩
    rw [going.2 none] at plain
    cases plain
  have length : (Data.bytes l).len ≠ 0 := fun zero => some_ (List.length_eq_zero_iff.mp zero)
  unfold proceed effect count
  rw [if_neg open_, if_neg length]
  cases log.selected with
  | none => rfl
  | some fd => by_cases plain : log.mode &&& 0x80 = 0 <;> simp [plain]

theorem proceed_end {log : Logfile} (going : Going log) :
    proceed tty log (.null 0) =
      (closed log, log.selected.elim [] fun fd => writes fd (finish log), .ok 0) := by
  have open_ : ¬ (log.state.target = .none ∧ log.state.restore = false) := by
    rintro ⟨none, plain⟩
    rw [going.2 none] at plain
    cases plain
  unfold proceed closed
  rw [if_neg open_]
  rfl

/-- The pushes of a message behind its header. -/
theorem pushes_text {log : Logfile} (going : Going log) {chunks : List (List Byte)}
    (filled : ∀ c ∈ chunks, c ≠ []) :
    pushes tty log (chunks.map .bytes ++ [.null 0]) =
      (closed (effect tty log chunks.flatten).1,
        (effect tty log chunks.flatten).2 ++
          log.selected.elim [] fun fd => writes fd (finish (effect tty log chunks.flatten).1),
        chunks.map (fun c => .ok (count log c)) ++ [.ok 0]) := by
  induction chunks generalizing log with
  | nil =>
      simp only [List.map_nil, List.nil_append, List.flatten_nil, effect_nil, pushes, logfilePush,
        going.1, if_true, proceed_end tty going, List.append_nil]
  | cons c chunks ih =>
      have kept := effect_kept tty log c
      have rest := ih (going.effect tty c) fun c' mem => filled c' (List.mem_cons_of_mem _ mem)
      have counts := fun c' => count_kept kept c'
      simp only [List.map_cons, List.cons_append, List.flatten_cons, effect_append, pushes,
        logfilePush, going.1, if_true, proceed_text tty going (filled c List.mem_cons_self), rest,
        counts, kept.selected, List.append_assoc]

/-- The pushes of a message: header and first text, more text, and the end. -/
def message (cmd arg : Byte) (first : List Byte) (chunks : List (List Byte)) : List Data :=
  .bytes (cmd :: arg :: first) :: (chunks.map .bytes ++ [.null 0])

/-- The log behind a header and what is written for it. -/
def opened (log : Logfile) (cmd arg type : Byte) : Logfile × Written :=
  let flags := outputFlags type log.ignore
  if flags.1 = .none then
    ({ log with
      state := { log.state with target := .none, active := true, restore := true },
      mode := modeOf cmd arg }, [])
  else
    ({ log with
      state := { log.state with
        target := (direct log.file flags).1, active := true, restore := (direct log.file flags).2.1 },
      mode := modeOf cmd arg },
      writes (direct log.file flags).2.2
        (introduction tty { log with
          state := { log.state with target := .none, restore := false }, mode := modeOf cmd arg }
          (direct log.file flags).2.2 cmd arg type))

section

variable {log : Logfile} {cmd arg type : Byte}

theorem direct_target (file : Option File) {flags : Target × Bool} (some_ : flags.1 ≠ .none) :
    (direct file flags).1 ≠ .none := by
  unfold direct
  obtain ⟨target, restore⟩ := flags
  cases target with
  | none => exact absurd rfl some_
  | normal => nofun
  | error => nofun
  | history => cases file <;> nofun

theorem opened_going : Going (opened tty log cmd arg type).1 := by
  unfold opened
  simp only
  split
  · exact ⟨rfl, fun _ => rfl⟩
  · rename_i some_
    exact ⟨rfl, fun none => absurd none (direct_target log.file some_)⟩

theorem opened_mode : (opened tty log cmd arg type).1.mode = modeOf cmd arg := by
  unfold opened
  simp only
  split <;> rfl

/-- A muted message has no stream. -/
theorem opened_selected (log : Logfile) (cmd arg type : Byte) :
    (opened tty log cmd arg type).1.selected.isSome ↔ (outputFlags type log.ignore).1 ≠ .none := by
  unfold opened
  simp only
  split
  · rename_i none
    simp [Logfile.selected, none]
  · rename_i some_
    have target := direct_target log.file some_
    refine iff_of_true ?_ some_
    unfold Logfile.selected
    simp only
    cases known : (direct log.file (outputFlags type log.ignore)).1 with
    | none => exact absurd known target
    | normal => rfl
    | error => rfl
    | history => rfl

theorem opened_closed :
    closed (opened tty log cmd arg type).1 =
      { closed log with mode := modeOf cmd arg } := by
  unfold opened
  simp only
  split <;> rfl

/-- The first push opens the message and has the effect of its text. -/
theorem start_text (accepted : typeOf cmd arg = some type) (first : List Byte) :
    start tty log (.bytes (cmd :: arg :: first)) =
      ((effect tty (opened tty log cmd arg type).1 first).1,
        (opened tty log cmd arg type).2 ++ (effect tty (opened tty log cmd arg type).1 first).2,
        .ok (first.length + 2)) := by
  have going : Going (opened tty log cmd arg type).1 := opened_going tty
  have stream := opened_selected tty log cmd arg type
  unfold start
  simp only [accepted]
  by_cases muted : (outputFlags type log.ignore).1 = .none
  · have none : (opened tty log cmd arg type).1.selected = none := by
      cases selected : (opened tty log cmd arg type).1.selected with
      | none => rfl
      | some fd => exact absurd muted (stream.mp (by rw [selected]; rfl))
    unfold effect
    simp only [none]
    unfold opened
    simp only [muted, if_true]
    rfl
  · by_cases empty : first = []
    · subst empty
      rw [effect_nil]
      unfold opened
      simp only [muted, if_false, if_true, List.append_nil]
    · have more := proceed_text tty going empty
      unfold opened at more ⊢
      simp only [muted, empty, if_false] at more ⊢
      rw [more]

/-- All pushes of a message -/
theorem pushes_message (inactive : log.state.active = false) (accepted : typeOf cmd arg = some type)
    (first : List Byte) {chunks : List (List Byte)} (filled : ∀ c ∈ chunks, c ≠ []) :
    pushes tty log (message cmd arg first chunks) =
      (closed (effect tty (opened tty log cmd arg type).1 (first ++ chunks.flatten)).1,
        (opened tty log cmd arg type).2 ++
          ((effect tty (opened tty log cmd arg type).1 (first ++ chunks.flatten)).2 ++
            (opened tty log cmd arg type).1.selected.elim [] fun fd => writes fd
              (finish (effect tty (opened tty log cmd arg type).1 (first ++ chunks.flatten)).1)),
        .ok (first.length + 2) ::
          (chunks.map (fun c => .ok (count (opened tty log cmd arg type).1 c)) ++ [.ok 0])) := by
  have going : Going (opened tty log cmd arg type).1 := opened_going tty
  have kept := effect_kept tty (opened tty log cmd arg type).1 first
  have counts := fun c => count_kept kept c
  have rest := pushes_text tty (going.effect tty first) filled
  unfold message
  simp only [pushes, logfilePush, inactive, Bool.false_eq_true, if_false,
    start_text tty accepted, rest, counts, kept.selected, effect_append, List.append_assoc]

end

/-- The text does not depend on the pieces or on what the mode was before, every push returns the
    number of its bytes, and but for the mode the log is as before. -/
structure Unchunked (log : Logfile) (cmd arg : Byte) (first : List Byte) (chunks : List (List Byte)) :
    Prop where
  text : (pushes tty log (message cmd arg first chunks)).2.1 =
    (pushes tty log (message cmd arg (first ++ chunks.flatten) [])).2.1
  alone : ∀ mode, (pushes tty { log with mode := mode } (message cmd arg first chunks)).2.1 =
    (pushes tty log (message cmd arg first chunks)).2.1
  counts : (pushes tty log (message cmd arg first chunks)).2.2 =
    .ok (first.length + 2) :: (chunks.map (fun c => .ok c.length) ++ [.ok 0])
  ended : ∃ mode, (pushes tty log (message cmd arg first chunks)).1 =
    { closed log with mode := mode }

/-- The message is muted or has delimiters, or it comes byte by byte behind the first push. -/
def Counted (log : Logfile) (cmd arg type : Byte) (chunks : List (List Byte)) : Prop :=
  (outputFlags type log.ignore).1 = .none ∨ modeOf cmd arg &&& 0x80 ≠ 0 ∨
    ∀ c ∈ chunks, c.length = 1

theorem counts_iff (log : Logfile) (chunks : List (List Byte)) :
    (chunks.map fun c => (.ok (count log c) : Except Error Nat)) =
        chunks.map (fun c => .ok c.length) ↔
      log.selected.isSome = false ∨ log.mode &&& 0x80 ≠ 0 ∨ ∀ c ∈ chunks, c.length = 1 := by
  rw [List.map_inj_left]
  unfold count
  by_cases stream : log.selected.isSome = true
  · by_cases plain : log.mode &&& 0x80 = 0
    · simp [stream, plain, eq_comm]
    · simp [plain]
  · simp [stream]

/-- A message has the same text for all ways to cut it, and leaves the log as it was; the numbers of
    bytes are returned where the message is muted or has delimiters, or comes byte by byte. -/
theorem log_unchunked {log : Logfile} {cmd arg type : Byte} (inactive : log.state.active = false)
    (accepted : typeOf cmd arg = some type) (first : List Byte) {chunks : List (List Byte)}
    (filled : ∀ c ∈ chunks, c ≠ []) :
    Unchunked tty log cmd arg first chunks ↔ Counted log cmd arg type chunks := by
  have cut := pushes_message tty inactive accepted first filled
  have whole := pushes_message tty inactive accepted (first ++ chunks.flatten)
    (show ∀ c ∈ ([] : List (List Byte)), c ≠ [] from nofun)
  have stream := opened_selected tty log cmd arg type
  have muted : (opened tty log cmd arg type).1.selected.isSome = false ↔
      (outputFlags type log.ignore).1 = .none := by
    rw [← Bool.not_eq_true, stream, not_not]
  have counted := counts_iff (opened tty log cmd arg type).1 chunks
  rw [muted, opened_mode] at counted
  constructor
  · intro unchunked
    have counts := unchunked.counts
    rw [cut] at counts
    exact counted.mp (List.append_cancel_right (List.cons.inj counts).2)
  · intro able
    refine ⟨?_, ?_, ?_, ?_⟩
    · rw [cut, whole]
      simp only [List.flatten_nil, List.append_nil]
    · intro mode
      have other := pushes_message tty
        (show ({ log with mode := mode } : Logfile).state.active = false from inactive) accepted first
        filled
      rw [cut, other]
      rfl
    · rw [cut, counted.mpr able]
    · have last := (effect_kept tty (opened tty log cmd arg type).1 (first ++ chunks.flatten)).closed
      rw [opened_closed] at last
      rw [cut]
      exact ⟨_, last⟩

/-- A log that writes to the standard streams. -/
def plainLog : Logfile := ⟨none, ⟨.none, false, false, false, 0⟩, 0, 0, 0⟩

theorem marked_counted :
    Unchunked (fun _ => false) plainLog 0 0x83 [1, 2] [[35, 35, 3], [36]] :=
  (log_unchunked (fun _ => false) rfl (show typeOf 0 0x83 = some 3 by decide) [1, 2]
    (by decide)).mpr (.inr (.inl (by decide)))

/-- Two bytes of text behind the header. -/
theorem two_returned_one :
    ¬ ∀ log cmd arg type first chunks, log.state.active = false → typeOf cmd arg = some type →
      (∀ c ∈ chunks, c ≠ []) → Unchunked (fun _ => false) log cmd arg first chunks := by
  intro all
  have counts := (all plainLog 0 0 0 [] [[35, 35]] rfl (by decide) (by decide)).counts
  exact absurd counts (by decide)

end Mpt.Log

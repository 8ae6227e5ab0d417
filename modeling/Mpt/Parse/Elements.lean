import Mpt.Parse.Scan

/-! # The elements of a configuration text

Four parsers find the next element in a text: the name of a section or an option gathers
behind the path and becomes an element of it, the value of an option gathers behind its
name.  `config` takes one element after the other and hands it on.
-/

namespace Mpt.Parse

/-- What a parser returns: an element, nothing at the end of the text, or an error. -/
abbrev Result := Except Error (Option Event)

/-- One pass through the body of a loop: its end, or the next character. -/
inductive Turn (σ ρ : Type) where
  | stop (s : Parser) (r : ρ)
  | next (s : Parser) (x : σ)

/-- The end of a loop with what a parser returns. -/
def Turn.leave {σ ρ : Type} (r : Parser × ρ) : Turn σ ρ := .stop r.1 r.2

/-- A loop that takes characters until its body ends it, or until there are no more.  The body
    does not take any when it goes on. -/
def scan {σ ρ : Type} (body : σ → Parser → Byte → Turn σ ρ) (fails : Parser → Error → Parser × ρ) :
    List Byte → σ → Parser → Parser × ρ
  | [], _, s => fails { s.begun with input := [] } s.fin
  | c :: rest, x, s =>
      match { s with input := c :: rest }.getchar with
      | (s, .error e) => fails s e
      | (s, .ok c) =>
          match body x s c with
          | .stop s r => (s, r)
          | .next s x => scan body fails rest x s

/-- A loop whose first character is there already. -/
def scanFrom {σ ρ : Type} (body : σ → Parser → Byte → Turn σ ρ)
    (fails : Parser → Error → Parser × ρ) (c : Byte) (x : σ) (s : Parser) : Parser × ρ :=
  match body x s c with
  | .stop s r => (s, r)
  | .next s x => scan body fails s.input x s

/-- The loop of `mpt_parse_data`, with the escape that is open and the character before. -/
def dataBody (fmt : Format) (x : Byte × Option Byte) (s : Parser) (c : Byte) :
    Turn (Byte × Option Byte) (Except Error Byte) :=
  let (match_, last) := x
  -- escape release and begin conditions
  if match_ ≠ 0 then
    if c = match_ then
      if last ≠ some 92 then .next s.delchar.keep (0, some c)
      else .next (s.delchar.delchar.addchar c).1.keep (match_, some c)
    else .next s.keep (match_, some c)
  else if fmt.isEscape c then .next s (c, some c)
  -- option end detected
  else if c = fmt.oend then .stop s (.ok c)
  -- unescaped newline
  else if c = 10 then .stop s (.ok c)
  -- comments: continue to line end without save
  else if fmt.oend = 0 && fmt.isComment c && last.any isSpace then .stop s.endline.1 (.ok c)
  -- add current trailing data to valid area
  else if ! isSpace c then .next s.keep (0, some c)
  else .next s (0, some c)

/-- `mpt_parse_data` -/
def data (fmt : Format) (s : Parser) : Parser × Except Error Nat :=
  match scan (dataBody fmt) (fun s e => (s, .error e)) s.input (0, none) s with
  | (s, curr) =>
      if fmt.oend ≠ 0 ∧ curr.toOption ≠ some fmt.oend then
        ({ s with curr := 4 }, .error .badValue)
      else
        (s, .ok s.valid)

namespace Parser

/-- The name of a section becomes an element of the path. -/
def openSection (s : Parser) : Parser × Result :=
  match ncheck (s.word s.valid) s.sect with
  | .error _ => (s, .error .badType)
  | .ok _ =>
      match s.addPath s.valid with
      | (s, .error _) => (s, .error .badOperation)
      | (s, .ok _) => (s, .ok (some .section_))

/-- The name of an option becomes an element of the path, and its value is read. -/
def assign (s : Parser) (fmt : Format) (err : Error) : Parser × Result :=
  match ncheck (s.word s.valid) s.opt with
  | .error _ => (s, .error .badType)
  | .ok _ =>
      match s.addPath s.valid with
      | (s, .error _) => (s, .error err)
      | (s, .ok _) =>
          -- clear trailing path data
          match data fmt { s.invalidate with valid := 0 } with
          | (s, .error e) => (s, .error e)
          | (s, .ok 0) => (s, .ok (some .option))
          | (s, .ok _) => (s, .ok (some .optionData))

/-- What was read is data without a name. -/
def nameless (s : Parser) : Parser × Result :=
  ({ s with curr := 4 },
    if has s.opt NameFlag.empty.bit then .ok (some .data) else .error .badType)

end Parser

/-- The loop of `mpt_parse_option` -/
def optionBody (fmt : Format) (_ : Unit) (s : Parser) (c : Byte) : Turn Unit Result :=
  -- option assign condition
  if isSpace c then
    if fmt.assign = 0 then .leave (s.assign fmt .missingBuffer)
    else if c = 10 then
      if fmt.oend ≠ 0 ∧ c ≠ fmt.oend then .stop s (.error .badValue) else .leave s.nameless
    else .next s ()
  else if c = fmt.assign then .leave (s.assign fmt .missingBuffer)
  -- option end detected
  else if c = fmt.oend then .leave s.nameless
  -- comments: continue to line end without save
  else if fmt.isComment c then
    if fmt.oend ≠ 0 then .stop s (.error .badValue) else .leave s.endline.1.nameless
  else .next s.keep ()

/-- The error when the source ends in an element. -/
def broken (e : Error) : Error := if e = .badValue then .missingData else .badArgument

/-- `mpt_parse_option` -/
def option (fmt : Format) (s : Parser) : Parser × Result :=
  -- get next visible character, no save
  match s.nextvis fmt.com with
  | (s, .error e) =>
      let s := { s with curr := if s.valid ≠ 0 then 11 else 3 }
      if e ≠ .badValue then (s, .error .badArgument)
      else if s.path.len ≠ 0 then (s, .error .missingData)
      else (s, .ok none)
  | (s, .ok c) =>
      if fmt.ostart ≠ 0 ∧ c ≠ fmt.ostart ∧ s.valid ≠ 0 then
        ({ s with curr := 11 }, .error .badValue)
      else
        match { s with curr := 11 }.addchar c with
        | (s, .error _) => (s, .error .missingBuffer)
        | (s, .ok _) => scanFrom (optionBody fmt) (fun s e => (s, .error (broken e))) c () s

/-- What follows the loop of `mpt_parse_format_pre`, with the character that ended it. -/
def preEnd (fmt : Format) (s : Parser) (curr : Option Byte) : Parser × Result :=
  -- last chance to get section start
  if fmt.sstart ≠ 0 ∧ curr = some fmt.sstart then
    { s with curr := 9 }.openSection
  -- try to pass as data
  else if fmt.oend ≠ 0 ∧ curr = some fmt.oend then
    -- set zero length option name
    match ncheck (s.word 0) s.opt with
    | .error _ => ({ s with curr := 4 }, .error .badType)
    | .ok _ => ({ s with curr := 4 }, .ok (some .data))
  else
    ({ s with curr := 8 }, .error .badValue)

/-- The loop of `mpt_parse_format_pre` -/
def preBody (fmt : Format) (_ : Unit) (s : Parser) (c : Byte) : Turn Unit Result :=
  -- found section end
  if c = fmt.send then .stop { s with curr := 2 } (.ok (some .sectEnd))
  -- found section start
  else if c = fmt.sstart then .leave (preEnd fmt s (some c))
  -- parse option name
  else if c = fmt.ostart then .leave (option fmt s)
  -- parse option data
  else if c = fmt.assign then .leave ({ s with curr := 11 }.assign fmt .badOperation)
  -- data end found
  else if c = fmt.oend then .leave (preEnd fmt s (some c))
  -- comments: continue to line end without save
  else if fmt.isComment c then .leave (preEnd fmt s.endline.1 (some c))
  -- validate current length character
  else if ! isSpace c then .next { s with curr := 8 }.keep ()
  -- get next visible character, no save
  else if c = 10 then
    match { s with curr := 8 }.nextvis fmt.com with
    | (s, curr) =>
        let char := match curr with
          | .ok c => c
          | .error e => .ofNat (e.code % 256).toNat
        match s.addchar char with
        | (s, .error _) => .stop s (.error .missingBuffer)
        | (s, .ok _) => .leave (preEnd fmt s curr.toOption)
  else .next { s with curr := 8 } ()

/-- `mpt_parse_format_pre` -/
def formatPre (fmt : Format) (s : Parser) : Parser × Result :=
  -- get next visible character, no save
  match s.nextvis fmt.com with
  | (s, .error _) => (s, if s.path.len = 0 then .ok none else .error .missingData)
  | (s, .ok c) =>
      if c = fmt.sstart then
        { s with curr := 1 }.openSection
      else
        match { s with curr := 8 }.addchar c with
        | (s, .error _) => (s, .error .missingBuffer)
        | (s, .ok _) => scanFrom (preBody fmt) (fun s _ => preEnd fmt s none) c () s

/-- The end of a section's name in `mpt_parse_format_enc` -/
def encName (s : Parser) : Parser × Result :=
  match s.openSection with
  | (s, .error e) => (s, .error e)
  | (s, .ok r) => ({ s with valid := 0 }, .ok r)

/-- The loop of `mpt_parse_format_enc` -/
def encBody (fmt : Format) (_ : Unit) (s : Parser) (c : Byte) : Turn Unit Result :=
  if c = 0 then .stop s (.error .missingData)
  -- found valid section separator
  else if isSpace c then .leave (encName s)
  else if fmt.isComment c then .leave (encName s.endline.1)
  else .next s.keep ()

/-- `mpt_parse_format_enc` behind the first character. -/
def encStart (fmt : Format) (s : Parser) (c : Byte) : Parser × Result :=
  -- section start missed
  if c ≠ fmt.sstart then
    match s.addchar c with
    | (s, .error _) => ({ s with curr := 3 }, .error .missingBuffer)
    | (s, .ok _) =>
        if fmt.ostart ≠ 0 then
          if c ≠ fmt.ostart then ({ s with curr := 3 }, .error .badValue) else option fmt s
        else
          option fmt s.keep
  else
    -- first character of section name
    match { s with curr := 1 }.nextvis fmt.com with
    | (s, .error _) => (s, .error .missingData)
    | (s, .ok c) =>
        if c = 0 then
          (s, .error .missingData)
        else
          match { s with curr := 9 }.addchar c with
          | (s, .error _) => (s, .error .missingBuffer)
          | (s, .ok _) =>
              scan (encBody fmt) (fun s _ => (s, .error .missingData)) s.input () s.keep

/-- `mpt_parse_format_enc` -/
def formatEnc (fmt : Format) (s : Parser) : Parser × Result :=
  -- same-character section start/end
  if fmt.sstart = fmt.send then
    if s.prev = 2 then
      encStart fmt s fmt.sstart
    else
      match s.nextvis fmt.com with
      -- no further data and no section end
      | (s, .error _) => ({ s with curr := 0 }, .ok none)
      | (s, .ok c) =>
          -- section start == end detected
          if s.path.len ≠ 0 ∧ c = fmt.sstart then ({ s with curr := 2 }, .ok (some .sectEnd))
          else encStart fmt s c
  else
    -- get next visible character
    match s.nextvis fmt.com with
    | (s, .error e) =>
        ({ s with curr := 8 },
          .error (if s.path.len = 0 ∧ e = .badValue then e else .missingData))
    | (s, .ok c) => encStart fmt s c

/-- The loop of `mpt_parse_format_sep` -/
def sepBody (fmt : Format) (_ : Unit) (s : Parser) (c : Byte) : Turn Unit Result :=
  if c = fmt.send then .leave { s with curr := 9 }.openSection
  else if fmt.isComment c then .stop { s with curr := 1 } (.error .badValue)
  else if ! isSpace c then .next s.keep ()
  else if c = 10 then .stop { s with curr := 1 } (.error .badValue)
  else .next s ()

/-- The name of a section in `mpt_parse_format_sep` -/
def sepName (fmt : Format) (s : Parser) : Parser × Result :=
  let find (s : Parser) (c : Byte) :=
    scanFrom (sepBody fmt) (fun s _ => ({ s with curr := 1 }, .error .badValue)) c () s
  -- find section name start
  if fmt.send ≠ fmt.sstart then
    match s.getchar with
    | (s, .error e) => ({ s with curr := 1 }, .error (broken e))
    | (s, .ok c) => find s c
  else
    find s fmt.sstart

/-- `mpt_parse_format_sep` -/
def formatSep (fmt : Format) (s : Parser) : Parser × Result :=
  -- last operation was section end
  if s.prev % 16 = 2 then
    sepName fmt { s with curr := 1 }
  else
    -- get next visible character, no save
    match s.nextvis fmt.com with
    | (s, .error e) =>
        if e = .badValue then (s, .ok none) else ({ s with curr := 8 }, .error .badArgument)
    | (s, .ok c) =>
        -- section start missed
        if c ≠ fmt.sstart then
          if c ≠ fmt.ostart then
            match { s with curr := 8 }.addchar c with
            | (s, .error _) => (s, .error .badOperation)
            | (s, .ok _) => option fmt s.keep
          else
            option fmt s
        -- reached path separator
        else if s.path.len ≠ 0 then
          ({ s with curr := 2 }, .ok (some .sectEnd))
        -- get first name element
        else
          sepName fmt s

/-- The types of a format. -/
inductive FormatType where
  | option
  | enc
  | sep
  | pre
  deriving Repr, DecidableEq

/-- The parser of a type. -/
def FormatType.next : FormatType → Format → Parser → Parser × Result
  | option => Parse.option
  | enc => formatEnc
  | sep => formatSep
  | pre => formatPre

/-- What is handed on for an element. -/
structure Call where
  event : Event
  path : Config.Path
  val : Option (List Byte)
  prev : Nat

/-- The element that was found, with the valid bytes behind the path if it has data. -/
def Parser.call (s : Parser) (e : Event) : Call :=
  ⟨e, s.path,
    if has e.flags Event.data.flags then
      some (s.path.mem.read (s.path.off + s.path.len) s.valid)
    else none,
    s.prev⟩

/-- The last path element is removed, or trailing data. -/
def Parser.left (s : Parser) (e : Event) : Parser × Except Error Nat :=
  let (path, r) := if has e.flags Event.sectEnd.flags then s.path.del else s.path.invalidate
  ({ s with path := path }, r)

/-- The parse state is cycled. -/
def Parser.cycled (s : Parser) : Parser := { s with prev := s.curr, curr := 0, valid := 0 }

/-- `mpt_parse_config`, for at most so many elements. -/
def config {σ : Type} (next : Parser → Parser × Result) (save : σ → Call → Option σ) :
    Nat → σ → Parser → Option (σ × Parser × Int)
  | 0, _, _ => none
  | fuel + 1, x, s =>
      match next s with
      | (s, .error e) => some (x, s, e.code)
      | (s, .ok none) => some (x, s, 0)
      | (s, .ok (some e)) =>
          -- save to configuration
          match save x (s.call e) with
          | none => some (x, s, -128)
          | some x =>
              match s.left e with
              | (s, .error _) => some (x, s, Error.missingData.code)
              | (s, .ok _) => config next save fuel x s.cycled

end Mpt.Parse

import Mpt.Number.StringDest

/-! # Bindings in a text

`mpt_output_bind_string` sends the destinations of a text as one message.  The message is opened by
the first of them.  Reports go to the same output, and the result is the one of the last read.
-/

namespace Mpt.Plot.Bind

open Number (stringDest changes isspace numeral Ends)

/-- What the output is called for. -/
inductive Call where
  | await
  | header (clear : Bool)
  /-- `valsrc` with all states and `laydest` -/
  | binding (src lay grf wld dim : Nat)
  /-- `push(0, 0)` -/
  | finish
  /-- `push(1, 0)` -/
  | withdraw
  /-- the parts of a log message in front of its text -/
  | logHeader
  | logFrom
  | logStart
  | logText (what : String) (dim : Nat) (descr : List Char)
  deriving DecidableEq

/-- The results of the output: of the calls that are made once at most, of the bindings in their
    order and of the first part of the log messages. -/
structure Answers where
  await : Int
  header : Int
  binding : Nat → Int
  finish : Int
  withdraw : Int
  log : Nat → List Char → Int

/-- The calls with their results -/
abbrev Trace := List (Call × Int)

/-- The destination, and what may be read next. -/
structure Reader where
  change : Nat
  lay : Nat
  grf : Nat
  wld : Nat

inductive Read where
  | stop
  | bad
  | skip (what : String)
  | dest (lay grf wld : Nat)

/-- One round of the loop up to the output. -/
def Reader.next (r : Reader) (descr : List Char) : Read × Reader × List Char :=
  let (vals, len) := stringDest r.change ':' (some descr)
  if len = 0 then (.stop, r, descr)
  else if len < 0 then (.bad, r, descr)
  else
    let rest := descr.drop len.toNat
    if changes vals = 0 then (.skip "identical data destination", { r with change := 0 }, rest)
    else
      let r : Reader := ⟨changes vals, (vals.getD 0 none).getD r.lay, (vals.getD 1 none).getD r.grf,
        (vals.getD 2 none).getD r.wld⟩
      if r.lay = 0 ∨ r.grf = 0 ∨ r.wld = 0 then (.skip "illegal data destination", r, rest)
      else (.dest r.lay r.grf r.wld, { r with change := 3 }, rest)

/-- `mpt_output_log` with the name of the function: nothing follows a header that is refused. -/
def report (a : Answers) (what : String) (dim : Nat) (descr : List Char) : Trace :=
  if a.log dim descr < 0 then [(.logHeader, a.log dim descr)]
  else [(.logHeader, a.log dim descr), (.logFrom, 0), (.logStart, 0), (.logText what dim descr, 0),
    (.finish, 0)]

/-- The message ends, or it is withdrawn. -/
def ending (a : Answers) (len : Int) : Trace × Int :=
  if a.finish < 0 then ([(.finish, a.finish), (.withdraw, a.withdraw)], -1)
  else ([(.finish, a.finish)], len)

/-- The bindings of a destination; a number is the last. -/
def send (a : Answers) (dim lay grf wld : Nat) (rest : Trace × Int) : Trace × Int :=
  let x := a.binding (2 * dim - 2)
  let y := a.binding (2 * dim - 1)
  if x < 0 then ([(.binding 0 lay grf wld 0, x), (.withdraw, a.withdraw)], -1)
  else if y < 0 then
    ([(.binding 0 lay grf wld 0, x), (.binding dim lay grf wld 1, y), (.withdraw, a.withdraw)], -1)
  else
    let (trace, ret) := if dim = 255 then ending a 255 else rest
    ((.binding 0 lay grf wld 0, x) :: (.binding dim lay grf wld 1, y) :: trace, ret)

theorem stringDest_nil (change : Nat) (sep : Char) :
    (stringDest change sep (some [])).2 = 0 ∨ (stringDest change sep (some [])).2 = -1 := by
  by_cases few : Number.limit change ≤ 7
  · obtain ⟨k, le, ret, -⟩ := (Number.stringDest_result few sep []).1 (Number.readable_nil sep _)
    rw [ret, Nat.le_zero.mp le]
    exact .inl rfl
  · rw [Number.stringDest_many few]
    exact .inr rfl

theorem next_shorter {r r' : Reader} {descr rest : List Char} {read : Read}
    (h : r.next descr = (read, r', rest)) (stop : read ≠ .stop) (bad : read ≠ .bad) :
    rest.length < descr.length := by
  have some_ : descr ≠ [] := by
    rintro rfl
    unfold Reader.next at h
    rcases dest : stringDest r.change ':' (some []) with ⟨vals, len⟩
    have none := stringDest_nil r.change ':'
    rw [dest] at h none
    simp only at h none
    rcases none with rfl | rfl
    · exact stop (Prod.mk.inj h).1.symm
    · exact bad (Prod.mk.inj h).1.symm
  have length := List.length_pos_iff.mpr some_
  unfold Reader.next at h
  rcases dest : stringDest r.change ':' (some descr) with ⟨vals, len⟩
  rw [dest] at h
  simp only at h
  split at h
  · exact absurd (Prod.mk.inj h).1.symm stop
  split at h
  · exact absurd (Prod.mk.inj h).1.symm bad
  have shorter : (descr.drop len.toNat).length < descr.length := by
    rw [List.length_drop]
    omega
  split at h
  · rw [← (Prod.mk.inj (Prod.mk.inj h).2).2]
    exact shorter
  split at h
  · rw [← (Prod.mk.inj (Prod.mk.inj h).2).2]
    exact shorter
  · rw [← (Prod.mk.inj (Prod.mk.inj h).2).2]
    exact shorter

/-- The loop of `mpt_output_bind_string` -/
def bindLoop (a : Answers) (r : Reader) (dim : Nat) (opened : Bool) (descr : List Char) : Trace × Int :=
  match _h : r.next descr with
  | (.stop, _, _) => ending a 0
  | (.bad, _, _) => (report a "bad data destination" dim descr, dim - 1)
  | (.skip what, r, rest) =>
      let (trace, ret) := bindLoop a r dim opened rest
      (report a what dim descr ++ trace, ret)
  | (.dest lay grf wld, r, rest) =>
      if opened then send a dim lay grf wld (bindLoop a r (dim + 1) true rest)
      else if a.await < 0 then ([(.await, a.await)], -2)
      else if a.header < 0 then ([(.await, a.await), (.header false, a.header)], a.header)
      else
        let (trace, ret) := send a dim lay grf wld (bindLoop a r (dim + 1) true rest)
        ((.await, a.await) :: (.header false, a.header) :: trace, ret)
termination_by descr.length
decreasing_by all_goals exact next_shorter _h nofun nofun

/-- `mpt_output_bind_string` -/
def bindString (a : Answers) (descr : Option (List Char)) : Trace × Int :=
  match descr with
  | none =>
      if a.await < 0 then ([(.await, a.await)], -2)
      else if a.header < 0 then ([(.await, a.await), (.header true, a.header)], a.header)
      else if a.finish < 0 then
        ([(.await, a.await), (.header true, a.header), (.finish, a.finish), (.withdraw, a.withdraw)],
          a.finish)
      else ([(.await, a.await), (.header true, a.header), (.finish, a.finish)], 0)
  | some descr => bindLoop a ⟨3, 1, 1, 1⟩ 1 false descr

/-! ## What is read -/

/-- What is read from a text, each with the reader and the text before. -/
def reads (r : Reader) (descr : List Char) : List (Reader × Read × List Char) :=
  match _h : r.next descr with
  | (.stop, _, _) => [(r, .stop, descr)]
  | (.bad, _, _) => [(r, .bad, descr)]
  | (.skip what, r', rest) => (r, .skip what, descr) :: reads r' rest
  | (.dest lay grf wld, r', rest) => (r, .dest lay grf wld, descr) :: reads r' rest
termination_by descr.length
decreasing_by all_goals exact next_shorter _h nofun nofun

/-- The loop for what is read -/
def play (a : Answers) (dim : Nat) (opened : Bool) : List (Reader × Read × List Char) → Trace × Int
  | [] => ending a 0
  | (_, .stop, _) :: _ => ending a 0
  | (_, .bad, descr) :: _ => (report a "bad data destination" dim descr, dim - 1)
  | (_, .skip what, descr) :: l =>
      (report a what dim descr ++ (play a dim opened l).1, (play a dim opened l).2)
  | (_, .dest lay grf wld, _) :: l =>
      if opened then send a dim lay grf wld (play a (dim + 1) true l)
      else if a.await < 0 then ([(.await, a.await)], -2)
      else if a.header < 0 then ([(.await, a.await), (.header false, a.header)], a.header)
      else
        ((.await, a.await) :: (.header false, a.header) ::
            (send a dim lay grf wld (play a (dim + 1) true l)).1,
          (send a dim lay grf wld (play a (dim + 1) true l)).2)

theorem bindLoop_play (a : Answers) (r : Reader) (dim : Nat) (opened : Bool) (descr : List Char) :
    bindLoop a r dim opened descr = play a dim opened (reads r descr) := by
  induction length : descr.length using Nat.strongRecOn generalizing r dim opened descr with
  | ind n ih =>
      rw [bindLoop.eq_def, reads.eq_def]
      rcases next : r.next descr with ⟨read, r', rest⟩
      cases read with
      | stop => rfl
      | bad => rfl
      | skip what =>
          have shorter := next_shorter next nofun nofun
          have more := fun dim opened => ih _ (length ▸ shorter) r' dim opened rest rfl
          simp only [more, play]
      | dest lay grf wld =>
          have shorter := next_shorter next nofun nofun
          have more := fun dim opened => ih _ (length ▸ shorter) r' dim opened rest rfl
          simp only [more, play]

/-- The message is open or not; it has only bindings, and it ends or is withdrawn. -/
def Closed : Bool → Trace → Prop
  | opened, [] => opened = false
  | false, (.header _, ret) :: l => Closed (decide (0 ≤ ret)) l
  | false, _ :: l => Closed false l
  | true, (.binding .., _) :: l => Closed true l
  | true, (.finish, ret) :: l => Closed (decide (ret < 0)) l
  | true, (.withdraw, _) :: l => Closed false l
  | true, _ :: _ => False

/-- The number of destinations with both bindings sent -/
def sent : Trace → Nat
  | [] => 0
  | (.binding _ _ _ _ 1, ret) :: l => (if 0 ≤ ret then 1 else 0) + sent l
  | _ :: l => sent l

/-- In an open message: a binding is refused, or it is the one for the last dimension there can be,
    or the text ends with the destinations and the end of the message is refused. -/
def Completes (a : Answers) : (dim : Nat) → List (Reader × Read × List Char) → Prop
  | _, [] => a.finish < 0
  | _, (_, .stop, _) :: _ => a.finish < 0
  | dim, (_, .dest .., _) :: l =>
      a.binding (2 * dim - 2) < 0 ∨ a.binding (2 * dim - 1) < 0 ∨ dim = 255 ∨ Completes a (dim + 1) l
  | _, _ :: _ => False

/-- No destination is read before the end, or the message is refused, or it is complete. -/
def Closes (a : Answers) : List (Reader × Read × List Char) → Prop
  | (_, .skip _, _) :: l => Closes a l
  | (r, .dest lay grf wld, descr) :: l =>
      a.await < 0 ∨ a.header < 0 ∨ Completes a 1 ((r, .dest lay grf wld, descr) :: l)
  | _ => True

section

variable {a : Answers}

theorem closed_report (what : String) (dim : Nat) (descr : List Char) (l : Trace) :
    Closed false (report a what dim descr ++ l) ↔ Closed false l := by
  unfold report
  split <;> simp [Closed]

theorem sent_report (what : String) (dim : Nat) (descr : List Char) (l : Trace) :
    sent (report a what dim descr ++ l) = sent l := by
  unfold report
  split <;> simp [sent]

theorem open_report (what : String) (dim : Nat) (descr : List Char) (l : Trace) :
    ¬ Closed true (report a what dim descr ++ l) := by
  unfold report
  split <;> simp [Closed]

/-- The end of the text in an open message -/
theorem ending_open {dim : Nat} (later : dim ≠ 1) :
    (Closed true (ending a 0).1 ∧
      (0 ≤ (ending a 0).2 → (ending a 0).2 = dim - 1 + sent (ending a 0).1)) ↔ a.finish < 0 := by
  unfold ending
  by_cases fail : a.finish < 0
  · simp [Closed, fail]
  · simp [Closed, fail, sent]
    omega

theorem play_open (dim : Nat) {l : List (Reader × Read × List Char)} (range : 1 ≤ dim ∧ dim ≤ 255)
    (later : dim = 1 → ∃ r lay grf wld descr l', l = (r, .dest lay grf wld, descr) :: l') :
    (Closed true (play a dim true l).1 ∧
      (0 ≤ (play a dim true l).2 → (play a dim true l).2 = dim - 1 + sent (play a dim true l).1)) ↔
      Completes a dim l := by
  induction l generalizing dim with
  | nil =>
      refine ending_open fun one => ?_
      obtain ⟨_, _, _, _, _, _, nil⟩ := later one
      cases nil
  | cons entry l ih =>
      obtain ⟨r, read, descr⟩ := entry
      cases read with
      | stop =>
          refine ending_open fun one => ?_
          obtain ⟨_, _, _, _, _, _, eq⟩ := later one
          cases eq
      | bad =>
          have wrong := open_report (a := a) "bad data destination" dim descr []
          rw [List.append_nil] at wrong
          exact iff_of_false (fun h => wrong h.1) id
      | skip what => exact iff_of_false (fun h => open_report what dim descr _ h.1) id
      | dest lay grf wld =>
          simp only [play, if_true, Completes]
          unfold send
          by_cases x : a.binding (2 * dim - 2) < 0
          · simp [x, Closed]
          by_cases y : a.binding (2 * dim - 1) < 0
          · simp [x, y, Closed]
          have done : 0 ≤ a.binding (2 * dim - 1) := Int.not_lt.mp y
          by_cases last : dim = 255
          · subst last
            unfold ending
            by_cases fail : a.finish < 0
            · simp [x, y, Closed, fail]
            · simp [x, y, Closed, fail, sent, done]
          · have more := ih (dim + 1) (by omega) (fun one => absurd one (by omega))
            simp only [x, y, last, if_false, false_or]
            refine Iff.trans ?_ more
            simp only [Closed, sent, done, if_true]
            refine and_congr_right fun _ => imp_congr_right fun _ => ?_
            push_cast
            omega

theorem play_closed (l : List (Reader × Read × List Char)) :
    (Closed false (play a 1 false l).1 ∧
      (0 ≤ (play a 1 false l).2 → (play a 1 false l).2 = sent (play a 1 false l).1)) ↔
      Closes a l := by
  have ended : (Closed false (ending a 0).1 ∧
      (0 ≤ (ending a 0).2 → (ending a 0).2 = sent (ending a 0).1)) ↔ True := by
    unfold ending
    by_cases fail : a.finish < 0 <;> simp [Closed, fail, sent]
  induction l with
  | nil => exact ended
  | cons entry l ih =>
      obtain ⟨r, read, descr⟩ := entry
      cases read with
      | stop => exact ended
      | bad =>
          have closed := closed_report (a := a) "bad data destination" 1 descr []
          have none := sent_report (a := a) "bad data destination" 1 descr []
          rw [List.append_nil] at closed none
          refine iff_of_true ⟨closed.mpr rfl, fun _ => ?_⟩ trivial
          simp only [play, none, sent]
          rfl
      | skip what =>
          simp only [play, Closes, closed_report, sent_report]
          exact ih
      | dest lay grf wld =>
          have opened := play_open (a := a) 1 (l := (r, .dest lay grf wld, descr) :: l) (by omega)
            (fun _ => ⟨r, lay, grf, wld, descr, l, rfl⟩)
          simp only [play, if_true] at opened
          simp only [play, Bool.false_eq_true, if_false, Closes]
          by_cases waits : a.await < 0
          · simp [waits, Closed]
          by_cases refused : a.header < 0
          · rw [if_neg waits, if_pos refused]
            have open_ : Closed false [(.await, a.await), (.header false, a.header)] :=
              decide_eq_false (Int.not_le.mpr refused)
            exact iff_of_true ⟨open_, fun start => absurd refused (Int.not_lt.mpr start)⟩
              (.inr (.inl refused))
          · have started : 0 ≤ a.header := Int.not_lt.mp refused
            simp only [waits, refused, if_false, false_or]
            refine Iff.trans ?_ opened
            simp only [Closed, sent, started, decide_true]
            refine and_congr_right fun _ => imp_congr_right fun _ => ?_
            push_cast
            omega

/-- What cannot be read is refused, unless there is no field at its very start. -/
theorem refused_iff (l : List (Reader × Read × List Char)) :
    (∀ r read d, (r, read, d) ∈ l → Number.Unreadable ':' (Number.limit r.change)
      (d.dropWhile isspace) → (stringDest r.change ':' (some d)).2 < 0) ↔
      ∀ r read d, (r, read, d) ∈ l → Number.limit r.change ≤ 7 → d.takeWhile isspace = [] →
        ¬ Number.NoField ':' d := by
  constructor
  · intro refused r read d mem few blank none
    have whole : d.dropWhile isspace = d := by
      have parts := List.takeWhile_append_dropWhile (p := isspace) (l := d)
      rwa [blank] at parts
    have wrong : Number.Unreadable ':' (Number.limit r.change) (d.dropWhile isspace) := by
      rw [whole]
      exact Number.noField_unreadable none (Number.limit_pos r.change)
    obtain ⟨k, ret, start⟩ := (Number.stringDest_result few ':' d).2 wrong
    have negative := refused r read d mem wrong
    rw [ret, start.mpr ⟨blank, none⟩] at negative
    cases negative
  · intro fields r read d mem wrong
    by_cases few : Number.limit r.change ≤ 7
    · obtain ⟨k, ret, start⟩ := (Number.stringDest_result few ':' d).2 wrong
      have some_ : k ≠ 0 := fun zero =>
        fields r read d mem few (start.mp zero).1 (start.mp zero).2
      omega
    · rw [Number.stringDest_many few]
      decide

/-! ## Texts of destinations -/

/-- A text that starts with pairs of numbers from 1 to 255, each up to its end or white space, and
    what follows them. -/
inductive Destinations : List Char → List (Nat × Nat) → List Char → Prop where
  | nil {rest : List Char} : Destinations rest [] rest
  | cons {front lay grf rest tail : List Char} {l g : Nat} {ds : List (Nat × Nat)}
      (space : front.all isspace = true) (first : numeral lay = some (l, []))
      (second : numeral grf = some (g, [])) (low : 0 < l ∧ 0 < g) (high : l ≤ 255 ∧ g ≤ 255)
      (ends : Ends rest) (more : Destinations rest ds tail) :
      Destinations (front ++ (lay ++ ':' :: (grf ++ rest))) ((l, g) :: ds) tail

/-- Nothing is refused. -/
structure Good (a : Answers) : Prop where
  await : 0 ≤ a.await
  header : 0 ≤ a.header
  binding : ∀ n, 0 ≤ a.binding n
  finish : 0 ≤ a.finish

/-- The bindings that are sent. -/
def bindings : Trace → List (Nat × Nat × Nat × Nat × Nat)
  | [] => []
  | (.binding src lay grf wld dim, _) :: l => (src, lay, grf, wld, dim) :: bindings l
  | _ :: l => bindings l

/-- The bindings of x and y for destinations from this dimension on. -/
def expected (dim : Nat) : List (Nat × Nat) → List (Nat × Nat × Nat × Nat × Nat)
  | [] => []
  | (l, g) :: ds => (0, l, g, 1, 0) :: (dim, l, g, 1, 1) :: expected (dim + 1) ds

theorem length_expected (dim : Nat) (ds : List (Nat × Nat)) :
    (expected dim ds).length = 2 * ds.length := by
  induction ds generalizing dim with
  | nil => rfl
  | cons d ds ih =>
      simp only [expected, List.length_cons, ih]
      omega

theorem bindings_report (what : String) (dim : Nat) (descr : List Char) (l : Trace) :
    bindings (report a what dim descr ++ l) = bindings l := by
  unfold report
  split <;> simp [bindings]

theorem bindings_ending (len : Int) : bindings (ending a len).1 = [] := by
  unfold ending
  split <;> rfl

/-- White space is skipped, or it is the end. -/
theorem next_blank (r : Reader) (change : r.change = 3 ∨ r.change = 0) {blank : List Char}
    (space : blank.all isspace = true) :
    r.next blank = if blank = [] then (.stop, r, [])
      else (.skip "identical data destination", { r with change := 0 }, []) := by
  have none : blank.dropWhile isspace = [] := by
    rw [List.dropWhile_eq_nil_iff]
    exact fun c mem => List.all_eq_true.mp space c mem
  have all := List.takeWhile_append_dropWhile (p := isspace) (l := blank)
  rw [none, List.append_nil] at all
  have dest : stringDest r.change ':' (some blank) = ([], (blank.length : Int)) := by
    obtain ⟨n, eq, few⟩ : ∃ n, (if r.change = 0 then 7 else r.change) = n + 1 ∧ n < 7 := by
      rcases change with three | zero
      · exact ⟨2, by rw [three]; rfl, by decide⟩
      · exact ⟨6, by rw [zero]; rfl, by decide⟩
    unfold stringDest
    simp only [eq]
    rw [if_neg (by omega)]
    simp only [all, none]
    rw [Number.destLoop.eq_def]
    simp only [Number.scan_nil]
  unfold Reader.next
  simp only [dest]
  by_cases empty : blank = []
  · subst empty
    rfl
  · have some_ : blank.length ≠ 0 := fun zero => empty (List.length_eq_zero_iff.mp zero)
    rw [if_neg (by omega), if_neg (by omega), if_neg empty]
    simp [changes]

theorem next_pair (r : Reader) (change : r.change = 3) (wld : r.wld = 1)
    {front lay grf rest : List Char} {l g : Nat}
    (space : front.all isspace = true) (first : numeral lay = some (l, []))
    (second : numeral grf = some (g, [])) (low : 0 < l ∧ 0 < g) (high : l ≤ 255 ∧ g ≤ 255)
    (ends : Ends rest) :
    r.next (front ++ (lay ++ ':' :: (grf ++ rest))) = (.dest l g 1, ⟨3, l, g, 1⟩, rest) := by
  have dest := Number.stringDest_pair space first second high ends
  have left : (front ++ (lay ++ ':' :: (grf ++ rest))).drop
      (front.length + lay.length + 1 + grf.length) = rest := by
    have parts : front ++ (lay ++ ':' :: (grf ++ rest)) = (front ++ lay ++ [':'] ++ grf) ++ rest := by
      simp
    rw [parts, List.drop_left']
    simp only [List.length_append, List.length_singleton]
  unfold Reader.next
  simp only [change, dest]
  rw [if_neg (by omega), if_neg (by omega), Int.toNat_natCast, left]
  simp [changes, wld]
  omega

theorem blank_bindings (r : Reader) (change : r.change = 3) {blank : List Char}
    (space : blank.all isspace = true) (dim : Nat) (opened : Bool) :
    bindings (play a dim opened (reads r blank)).1 = [] := by
  have one := next_blank r (.inl change) space
  rw [reads.eq_def]
  by_cases empty : blank = []
  · rw [if_pos empty] at one
    rw [one]
    exact bindings_ending 0
  · rw [if_neg empty] at one
    have two := next_blank { r with change := 0 } (.inr rfl)
      (show ([] : List Char).all isspace = true from rfl)
    rw [if_pos rfl] at two
    rw [one]
    simp only
    rw [reads.eq_def, two]
    simp only [play, bindings_report]
    exact bindings_ending 0

/-- The destinations get their bindings as far as there are dimensions, and nothing else does where
    only white space follows. -/
theorem play_bindings (good : Good a) {text rest : List Char} {ds : List (Nat × Nat)}
    (h : Destinations text ds rest) (r : Reader) (change : r.change = 3) (wld : r.wld = 1) (dim : Nat)
    (range : 1 ≤ dim ∧ dim ≤ 255) (opened : Bool) :
    expected dim (ds.take (256 - dim)) <+: bindings (play a dim opened (reads r text)).1 ∧
      (rest.all isspace = true ∨ 256 - dim ≤ ds.length →
        bindings (play a dim opened (reads r text)).1 = expected dim (ds.take (256 - dim))) := by
  induction h generalizing r dim opened with
  | nil =>
      refine ⟨by rw [List.take_nil]; exact List.nil_prefix, fun all => ?_⟩
      rcases all with space | enough
      · rw [List.take_nil]
        exact blank_bindings r change space dim opened
      · rw [List.length_nil] at enough
        omega
  | @cons front lay grf rest tail l g ds space first second low high ends more ih =>
      have one := next_pair r change wld space first second low high ends
      have x : ¬ a.binding (2 * dim - 2) < 0 := Int.not_lt.mpr (good.binding _)
      have y : ¬ a.binding (2 * dim - 1) < 0 := Int.not_lt.mpr (good.binding _)
      have both : expected dim (((l, g) :: ds).take (256 - dim)) <+:
            bindings (send a dim l g 1 (play a (dim + 1) true (reads ⟨3, l, g, 1⟩ rest))).1 ∧
          (tail.all isspace = true ∨ 256 - dim ≤ ((l, g) :: ds).length →
            bindings (send a dim l g 1 (play a (dim + 1) true (reads ⟨3, l, g, 1⟩ rest))).1 =
              expected dim (((l, g) :: ds).take (256 - dim))) := by
        unfold send
        simp only [x, y, if_false]
        by_cases last : dim = 255
        · subst last
          simp only [if_true, bindings, bindings_ending]
          exact ⟨List.prefix_refl _, fun _ => rfl⟩
        · obtain ⟨front, all⟩ := ih ⟨3, l, g, 1⟩ rfl rfl (dim + 1) (by omega) true
          simp only [last, if_false, bindings]
          rw [show 256 - dim = 256 - (dim + 1) + 1 by omega, List.take_succ_cons]
          simp only [expected, List.length_cons]
          refine ⟨List.cons_prefix_cons.mpr ⟨rfl, List.cons_prefix_cons.mpr ⟨rfl, front⟩⟩, ?_⟩
          intro enough
          rw [all (enough.imp_right fun many => by omega)]
      rw [reads.eq_def, one]
      simp only [play]
      cases opened with
      | true => exact both
      | false =>
          simp only [Bool.false_eq_true, Int.not_lt.mpr good.await, Int.not_lt.mpr good.header,
            if_false, bindings]
          exact both

end

/-- The first reader -/
def Reader.start : Reader := ⟨3, 1, 1, 1⟩

/-- The message is closed, the bindings sent are counted, what cannot be read is refused, and the
    destinations of the text get their bindings. -/
structure Binds (a : Answers) (text : List Char) : Prop where
  closed : Closed false (bindString a (some text)).1
  counted : 0 ≤ (bindString a (some text)).2 →
    (bindString a (some text)).2 = sent (bindString a (some text)).1
  refused : ∀ r read d, (r, read, d) ∈ reads .start text →
    Number.Unreadable ':' (Number.limit r.change) (d.dropWhile isspace) →
      (stringDest r.change ':' (some d)).2 < 0
  bound : ∀ ds rest, Destinations text ds rest → Good a →
    expected 1 ds <+: bindings (bindString a (some text)).1 ∧
      (rest.all isspace = true → bindings (bindString a (some text)).1 = expected 1 ds)

/-- Nothing is sent, or the message is refused, or it is the one with all dimensions; where something
    is read, a number or a separator stands at its very start or white space does, and there are no
    more destinations than dimensions. -/
structure Bindable (a : Answers) (text : List Char) : Prop where
  closes : Closes a (reads .start text)
  read : ∀ r read d, (r, read, d) ∈ reads .start text → Number.limit r.change ≤ 7 →
    d.takeWhile isspace = [] → ¬ Number.NoField ':' d
  few : ∀ ds rest, Destinations text ds rest → Good a → ds.length ≤ 255

theorem bindString_play (a : Answers) (text : List Char) :
    bindString a (some text) = play a 1 false (reads .start text) := bindLoop_play a _ 1 false text

/-- The bindings of a text are sent in a closed message and counted exactly where nothing is sent or
    refused, or where all dimensions are used. -/
theorem text_bound (a : Answers) (text : List Char) : Binds a text ↔ Bindable a text := by
  have play := bindString_play a text
  have closes := play_closed (a := a) (reads .start text)
  have refused := refused_iff (reads .start text)
  have bindings := fun ds rest (h : Destinations text ds rest) (good : Good a) =>
    play_bindings good h .start rfl rfl 1 (by decide) false
  rw [← play] at closes bindings
  constructor
  · intro binds
    refine ⟨closes.mp ⟨binds.closed, binds.counted⟩, refused.mp binds.refused, ?_⟩
    intro ds rest h good
    by_contra many
    have all := (bindings ds rest h good).2 (.inr (by omega))
    have longer := (binds.bound ds rest h good).1.length_le
    rw [all, length_expected, length_expected, List.length_take] at longer
    omega
  · intro able
    refine ⟨(closes.mpr able.closes).1, (closes.mpr able.closes).2, refused.mpr able.read, ?_⟩
    intro ds rest h good
    obtain ⟨front, all⟩ := bindings ds rest h good
    rw [List.take_of_length_le (able.few ds rest h good)] at front all
    exact ⟨front, fun space => all (.inl space)⟩

/-- One destination that is sent. -/
theorem one_uncounted : ¬ ∀ a text, Binds a text := by
  intro all
  let a : Answers := ⟨0, 0, fun _ => 0, 0, 0, fun _ _ => 0⟩
  have binds := all a ['1', ':', '1']
  have closes := (play_closed (a := a) (reads .start ['1', ':', '1'])).mp
    (bindString_play a ['1', ':', '1'] ▸ ⟨binds.closed, binds.counted⟩)
  have one : Reader.start.next ['1', ':', '1'] = (.dest 1 1 1, ⟨3, 1, 1, 1⟩, []) := by rfl
  have two : (⟨3, 1, 1, 1⟩ : Reader).next [] = (.stop, ⟨3, 1, 1, 1⟩, []) := by rfl
  rw [reads.eq_def, one] at closes
  simp only at closes
  rw [reads.eq_def, two] at closes
  simp [Closes, Completes, a] at closes

end Mpt.Plot.Bind

import Mpt.Core

/-! # Reading lines

`_readline` is used if no library offers a replacement.  It reads a line in pieces into a buffer that
grows with each of them; the position is moved by the length of the first piece every time.
-/

namespace Mpt.Loader

def newline : Byte := 10

/-- What `fgets` stores in front of the zero when there is room for `n` characters, and what is left
    in the file. -/
def fgetsChars : (n : Nat) → List Byte → List Byte × List Byte
  | 0, l => ([], l)
  | _ + 1, [] => ([], [])
  | n + 1, c :: l =>
      if c = newline then ([c], l) else (c :: (fgetsChars n l).1, (fgetsChars n l).2)

/-- `fgets`, which has no result at the end of the file. -/
def fgets (size : Nat) (input : List Byte) : Option (List Byte × List Byte) :=
  if input = [] ∨ size = 0 then none else some (fgetsChars (size - 1) input)

/-- The string at the start of a buffer. -/
def string (buf : Mem Byte) (len : Nat) : List Byte := (buf.read 0 len).takeWhile (· ≠ 0)

/-- What a call of `_readline` returns, whether it wrote outside of the buffer, and the input that
    is left. -/
structure Line where
  text : Option (List Byte)
  fault : Bool
  rest : List Byte
  deriving Repr, DecidableEq

theorem fgetsChars_length (n : Nat) (l : List Byte) :
    (fgetsChars n l).1.length + (fgetsChars n l).2.length = l.length := by
  induction n generalizing l with
  | zero => simp [fgetsChars]
  | succ n ih =>
      cases l with
      | nil => rfl
      | cons c l =>
          unfold fgetsChars
          by_cases last : c = newline
          · simp only [if_pos last, List.length_cons, List.length_nil]
            omega
          · have := ih l
            simp only [if_neg last, List.length_cons]
            omega

theorem fgets_length {size : Nat} {input piece rest : List Byte}
    (got : fgets size input = some (piece, rest)) : piece.length + rest.length = input.length := by
  unfold fgets at got
  split at got
  · cases got
  · have := fgetsChars_length (size - 1) input
    rw [Option.some.inj got] at this
    exact this

/-- Where the line ends in the buffer: `!*end || (end = memchr(end, '\n', clen))` -/
def lineEnd (buf : Mem Byte) (curr clen : Nat) : Option Nat :=
  if buf curr = 0 then some curr
  else ((buf.read curr clen).findIdx? (· = newline)).map (curr + ·)

theorem lineEnd_empty (buf : Mem Byte) (curr clen : Nat) :
    lineEnd (buf.write curr ([] ++ [0])) curr clen = some curr :=
  if_pos (Mem.set_self buf curr 0)

/-- The loop of `_readline`. -/
def readLoop (buf : Mem Byte) (fault : Bool) (curr len : Nat) (input : List Byte) : Line :=
  let clen := len - curr
  match _got : fgets clen input with
  | none => ⟨none, fault, input⟩
  | some (piece, rest) =>
      let fault := fault || decide (len < curr + piece.length + 1)
      let buf' := buf.write curr (piece ++ [0])
      match _more : lineEnd buf' curr clen with
      | some 0 => ⟨some [], fault, rest⟩
      | some (e + 1) => ⟨some (string (buf'.set (e + 1) 0) len), fault, rest⟩
      | none => readLoop buf' fault (curr + 63) (len + 64) rest
termination_by input.length
decreasing_by
  have length := fgets_length _got
  cases piece with
  | nil =>
      have stop := lineEnd_empty buf curr clen
      rw [stop] at _more
      cases _more
  | cons c piece =>
      rw [List.length_cons] at length
      omega

/-- `_readline`, with what the memory has in it. -/
def readline (fresh : Mem Byte) (input : List Byte) : Line := readLoop fresh false 0 64 input

/-- Successive calls of `_readline`. -/
def readlines (fresh : Nat → Mem Byte) : (calls : Nat) → List Byte → List (Option (List Byte)) × Bool
  | 0, _ => ([], false)
  | calls + 1, input =>
      let line := readline (fresh calls) input
      let (texts, fault) := readlines fresh calls line.rest
      (line.text :: texts, line.fault || fault)

/-! ## Pieces of a line -/

/-- A line has no zero and no newline. -/
def Plain (l : List Byte) : Prop := ∀ c ∈ l, c ≠ 0 ∧ c ≠ newline

theorem fgetsChars_whole {w : List Byte} (plain : Plain w) {n : Nat} (fits : w.length < n)
    (rest : List Byte) : fgetsChars n (w ++ newline :: rest) = (w ++ [newline], rest) := by
  induction w generalizing n with
  | nil =>
      cases n with
      | zero => cases fits
      | succ n => rfl
  | cons c w ih =>
      cases n with
      | zero => cases fits
      | succ n =>
          have step := ih (fun d mem => plain d (List.mem_cons_of_mem c mem)) (Nat.lt_of_succ_lt_succ fits)
          simp only [List.cons_append, fgetsChars, if_neg (plain c List.mem_cons_self).2, step]

theorem fgetsChars_part {w : List Byte} (plain : Plain w) {n : Nat} (long : n ≤ w.length)
    (rest : List Byte) :
    fgetsChars n (w ++ newline :: rest) = (w.take n, w.drop n ++ newline :: rest) := by
  induction w generalizing n with
  | nil =>
      obtain rfl := Nat.le_zero.mp long
      rfl
  | cons c w ih =>
      cases n with
      | zero => rfl
      | succ n =>
          have step := ih (fun d mem => plain d (List.mem_cons_of_mem c mem)) (Nat.le_of_succ_le_succ long)
          simp only [List.cons_append, fgetsChars, if_neg (plain c List.mem_cons_self).2, step,
            List.take_succ_cons, List.drop_succ_cons]

theorem findIdx_newline {w : List Byte} (plain : Plain w) (l : List Byte) :
    (w ++ newline :: l).findIdx? (· = newline) = some w.length := by
  induction w with
  | nil => rfl
  | cons c w ih =>
      have step := ih fun d mem => plain d (List.mem_cons_of_mem c mem)
      rw [List.cons_append, List.findIdx?_cons, step]
      simp [(plain c List.mem_cons_self).2]

theorem takeWhile_plain {w : List Byte} (plain : ∀ c ∈ w, c ≠ 0) (l : List Byte) :
    (w ++ 0 :: l).takeWhile (· ≠ 0) = w := by
  rw [List.takeWhile_append_of_pos fun c mem => decide_eq_true (plain c mem)]
  simp

theorem read_written (buf : Mem Byte) (a : Nat) (l : List Byte) (n : Nat) :
    (buf.write a l).read a (l.length + n) = l ++ buf.read (a + l.length) n := by
  rw [Mem.read_append, Mem.read_write_self, Mem.read_write_disjoint _ _ (.inr (Nat.le_refl _))]

/-- A buffer with a zero set behind text. -/
theorem string_ended (buf : Mem Byte) {a len : Nat} (text : ∀ c ∈ buf.read 0 a, c ≠ 0) (inside : a < len) :
    string (buf.set a 0) len = buf.read 0 a := by
  obtain ⟨n, rfl⟩ := Nat.exists_eq_add_of_le (Nat.succ_le_of_lt inside)
  have front : (buf.set a 0).read 0 a = buf.read 0 a :=
    Mem.read_write_disjoint _ _ (.inl (Nat.le_of_eq (Nat.zero_add a)))
  unfold string
  rw [Nat.succ_eq_add_one, Nat.add_assoc, Mem.read_append, front, Nat.add_comm 1, Mem.read_succ,
    Nat.zero_add, Mem.set_self]
  exact takeWhile_plain text _

variable {buf : Mem Byte} {fault : Bool} {curr len : Nat} {w : List Byte}

theorem lineEnd_written (buf : Mem Byte) (curr : Nat) {c : Byte} (some_ : c ≠ 0) (l : List Byte)
    (clen : Nat) :
    lineEnd (buf.write curr (c :: l)) curr clen =
      (((buf.write curr (c :: l)).read curr clen).findIdx? (· = newline)).map (curr + ·) := by
  have head : buf.write curr (c :: l) curr = c := Mem.write_inside buf curr (c :: l) (Nat.succ_pos _)
  unfold lineEnd
  rw [if_neg (by rwa [head])]

/-- The last piece of a line. -/
theorem readLoop_last (front : ∀ c ∈ buf.read 0 curr, c ≠ 0) (plain : Plain w)
    (fits : curr + w.length + 2 ≤ len) (rest : List Byte) :
    readLoop buf fault curr len (w ++ newline :: rest) = ⟨some (buf.read 0 curr ++ w), fault, rest⟩ := by
  obtain ⟨behind, rfl⟩ := Nat.exists_eq_add_of_le fits
  have got : fgets (curr + w.length + 2 + behind - curr) (w ++ newline :: rest) =
      some (w ++ [newline], rest) := by
    unfold fgets
    rw [if_neg (by simp; omega), fgetsChars_whole plain (by omega)]
  have inside : ¬ curr + w.length + 2 + behind < curr + (w ++ [newline]).length + 1 := by
    rw [List.length_append, List.length_singleton]
    omega
  have content : (buf.write curr (w ++ [newline] ++ [0])).read curr
      (curr + w.length + 2 + behind - curr) =
        w ++ newline :: ([0] ++ buf.read (curr + (w ++ [newline] ++ [0]).length) behind) := by
    have size : curr + w.length + 2 + behind - curr = (w ++ [newline] ++ [0]).length + behind := by
      simp only [List.length_append, List.length_singleton]
      omega
    rw [size, read_written]
    simp
  have stop : lineEnd (buf.write curr (w ++ [newline] ++ [0])) curr
      (curr + w.length + 2 + behind - curr) = some (curr + w.length) := by
    obtain ⟨c, l, eq, some_⟩ : ∃ c l, w ++ [newline] ++ [0] = c :: l ∧ c ≠ 0 := by
      cases w with
      | nil => exact ⟨newline, [0], rfl, by decide⟩
      | cons c w => exact ⟨c, w ++ [newline] ++ [0], rfl, (plain c List.mem_cons_self).1⟩
    have written := lineEnd_written buf curr some_ l
    rw [← eq] at written
    rw [written, content, findIdx_newline plain]
    rfl
  have text : (buf.write curr (w ++ [newline] ++ [0])).read 0 (curr + w.length) = buf.read 0 curr ++ w := by
    rw [Mem.read_append, Mem.read_write_disjoint _ _ (.inl (by omega)), List.append_assoc,
      Mem.write_append, Nat.zero_add, Mem.read_write_disjoint _ _ (.inl (Nat.le_refl _)),
      Mem.read_write_self]
  have good : ∀ c ∈ (buf.write curr (w ++ [newline] ++ [0])).read 0 (curr + w.length), c ≠ 0 := by
    rw [text]
    intro c mem
    rcases List.mem_append.mp mem with mem | mem
    · exact front c mem
    · exact (plain c mem).1
  have ended := string_ended _ good (show curr + w.length < curr + w.length + 2 + behind by omega)
  rw [readLoop]
  split
  · rename_i none
    rw [got] at none
    cases none
  · rename_i found
    rw [got] at found
    cases found
    rw [decide_eq_false inside, Bool.or_false]
    simp only
    split
    · rename_i zero
      rw [stop] at zero
      have empty := Option.some.inj zero
      rw [← text, empty]
      rfl
    · rename_i e more
      rw [stop] at more
      have same : curr + w.length = e + 1 := Option.some.inj more
      rw [← same, ended, text]
    · rename_i none
      rw [stop] at none
      cases none

/-- A piece in front of others. -/
theorem readLoop_more (plain : Plain w) {n : Nat} (size : len = curr + (n + 2)) (long : n + 1 ≤ w.length)
    (rest : List Byte) :
    readLoop buf fault curr len (w ++ newline :: rest) =
      readLoop (buf.write curr (w.take (n + 1) ++ [0])) fault (curr + 63) (len + 64)
        (w.drop (n + 1) ++ newline :: rest) := by
  have length : (w.take (n + 1)).length = n + 1 := List.length_take_of_le long
  have clen : len - curr = n + 2 := by omega
  have got : fgets (n + 2) (w ++ newline :: rest) =
      some (w.take (n + 1), w.drop (n + 1) ++ newline :: rest) := by
    unfold fgets
    rw [if_neg (by simp)]
    exact congrArg some (fgetsChars_part plain long rest)
  have inside : ¬ len < curr + (w.take (n + 1)).length + 1 := by omega
  have stop : lineEnd (buf.write curr (w.take (n + 1) ++ [0])) curr (n + 2) = none := by
    have content : (buf.write curr (w.take (n + 1) ++ [0])).read curr (n + 2) = w.take (n + 1) ++ [0] := by
      have all := Mem.read_write_self buf curr (w.take (n + 1) ++ [0])
      rwa [List.length_append, length, List.length_singleton] at all
    obtain ⟨c, l, eq, some_⟩ : ∃ c l, w.take (n + 1) ++ [0] = c :: l ∧ c ≠ 0 := by
      cases w with
      | nil => cases long
      | cons c w => exact ⟨c, w.take n ++ [0], rfl, (plain c List.mem_cons_self).1⟩
    have written := lineEnd_written buf curr some_ l
    rw [← eq] at written
    rw [written, content, Option.map_eq_none_iff, List.findIdx?_eq_none_iff]
    intro d mem
    rcases List.mem_append.mp mem with mem | mem
    · exact decide_eq_false (plain d (List.mem_of_mem_take mem)).2
    · rw [List.mem_singleton.mp mem]
      rfl
  rw [readLoop]
  split
  · rename_i none
    rw [clen, got] at none
    cases none
  · rename_i found
    rw [clen, got] at found
    cases found
    rw [decide_eq_false inside, Bool.or_false]
    simp only
    split
    · rename_i zero
      rw [clen, stop] at zero
      cases zero
    · rename_i e more
      rw [clen, stop] at more
      cases more
    · rfl

/-- What stands in front of the next piece. -/
theorem front_piece (front : ∀ c ∈ buf.read 0 curr, c ≠ 0) (plain : Plain w) {n k : Nat}
    (le : k ≤ n) (long : n ≤ w.length) :
    (buf.write curr (w.take n ++ [0])).read 0 (curr + k) = buf.read 0 curr ++ w.take k ∧
      ∀ c ∈ (buf.write curr (w.take n ++ [0])).read 0 (curr + k), c ≠ 0 := by
  have text : (buf.write curr (w.take n ++ [0])).read 0 (curr + k) = buf.read 0 curr ++ w.take k := by
    have length : (w.take n).length = n := List.length_take_of_le long
    have all := Mem.read_write_self buf curr (w.take n ++ [0])
    rw [List.length_append, length, List.length_singleton] at all
    have part := congrArg (List.take k) all
    rw [Mem.take_read, Nat.min_eq_left (by omega), List.take_append_of_le_length (by omega),
      List.take_take, Nat.min_eq_left le] at part
    rw [Mem.read_append, Mem.read_write_disjoint _ _ (.inl (by omega)), Nat.zero_add, part]
  refine ⟨text, ?_⟩
  rw [text]
  intro c mem
  rcases List.mem_append.mp mem with mem | mem
  · exact front c mem
  · exact (plain c (List.mem_of_mem_take mem)).1

/-- Pieces are longer from one to the next, but the position is moved by the length of the first. -/
theorem readLoop_line (fault : Bool) (front : ∀ c ∈ buf.read 0 curr, c ≠ 0) (plain : Plain w)
    {n : Nat} (first : 62 ≤ n) (rest : List Byte) :
    ∃ text, readLoop buf fault curr (curr + (n + 2)) (w ++ newline :: rest) = ⟨some text, fault, rest⟩ ∧
      text.length ≤ curr + w.length ∧ (62 < n → n < w.length → text.length < curr + w.length) := by
  induction size : w.length using Nat.strongRecOn generalizing w buf curr n with
  | ind total ih =>
      subst size
      by_cases short : w.length ≤ n
      · refine ⟨_, readLoop_last front plain (by omega) rest, Nat.le_of_eq ?_,
          fun _ long => absurd long (by omega)⟩
        rw [List.length_append, Mem.length_read]
      · have long : n + 1 ≤ w.length := by omega
        have left : (w.drop (n + 1)).length = w.length - (n + 1) := List.length_drop
        obtain ⟨-, front'⟩ := front_piece front plain (show 63 ≤ n + 1 by omega) long
        obtain ⟨text, run, least, -⟩ := ih (w.drop (n + 1)).length (by omega) front'
          (fun c mem => plain c (List.mem_of_mem_drop mem)) (show 62 ≤ n + 1 by omega) rfl
        refine ⟨text, ?_, by omega, fun _ _ => by omega⟩
        rw [readLoop_more plain rfl long, ← run]
        congr 1
        omega

/-- A call returns a line, which is the one of the input where it takes two pieces at most. -/
theorem readline_line (fresh : Mem Byte) (plain : Plain w) (rest : List Byte) :
    ∃ text, readline fresh (w ++ newline :: rest) = ⟨some text, false, rest⟩ ∧
      (text = w ↔ w.length < 127) := by
  have start : ∀ c ∈ fresh.read 0 0, c ≠ 0 := nofun
  by_cases one : w.length < 63
  · exact ⟨w, readLoop_last start plain (by omega) rest, iff_of_true rfl (by omega)⟩
  · have long : 62 + 1 ≤ w.length := by omega
    have left : (w.drop (62 + 1)).length = w.length - (62 + 1) := List.length_drop
    have later : Plain (w.drop (62 + 1)) := fun c mem => plain c (List.mem_of_mem_drop mem)
    have step : readline fresh (w ++ newline :: rest) = _ := readLoop_more plain rfl long rest
    obtain ⟨front, front'⟩ := front_piece start plain (Nat.le_refl (62 + 1)) long
    rw [step]
    by_cases two : w.length < 127
    · refine ⟨_, readLoop_last front' later (by omega) rest, iff_of_true ?_ two⟩
      rw [front]
      exact List.take_append_drop (62 + 1) w
    · obtain ⟨text, run, -, less⟩ := readLoop_line false front' later (show 62 ≤ 63 by omega) rest
      refine ⟨text, run, iff_of_false ?_ two⟩
      rintro rfl
      have := less (by omega) (by omega)
      omega

/-! ## Successive lines -/

/-- The input that has these lines. -/
def lineInput : List (List Byte) → List Byte
  | [] => []
  | w :: lines => w ++ newline :: lineInput lines

/-- All lines are returned, then there is none, and nothing is written outside of the buffers. -/
def ReturnsLines (fresh : Nat → Mem Byte) (lines : List (List Byte)) : Prop :=
  readlines fresh (lines.length + 1) (lineInput lines) = (lines.map some ++ [none], false)

/-- The lines are returned exactly where none has more than 126 characters. -/
theorem returns_lines (fresh : Nat → Mem Byte) (lines : List (List Byte)) (plain : ∀ w ∈ lines, Plain w) :
    ReturnsLines fresh lines ↔ ∀ w ∈ lines, w.length < 127 := by
  unfold ReturnsLines
  induction lines with
  | nil =>
      refine iff_of_true ?_ nofun
      have last : readline (fresh 0) [] = ⟨none, false, []⟩ := by
        unfold readline
        rw [readLoop]
        rfl
      simp [readlines, lineInput, last]
  | cons w lines ih =>
      have ih := ih fun v mem => plain v (List.mem_cons_of_mem w mem)
      obtain ⟨text, run, exact_⟩ := readline_line (fresh (lines.length + 1)) (plain w List.mem_cons_self)
        (lineInput lines)
      rw [List.forall_mem_cons, ← exact_, ← ih, List.length_cons, readlines]
      simp only [lineInput, run, Bool.false_or]
      rcases readlines fresh (lines.length + 1) (lineInput lines) with ⟨texts, fault⟩
      simp [and_assoc]

theorem plain_replicate (n : Nat) : Plain (List.replicate n 97) := by
  intro c mem
  rw [List.eq_of_mem_replicate mem]
  decide

/-- A line in two pieces, and one of no character -/
theorem short_returned : ReturnsLines (fun _ _ => 10) [List.replicate 126 97, []] := by
  refine (returns_lines _ _ ?_).mpr ?_
  · exact List.forall_mem_cons.mpr ⟨plain_replicate 126, List.forall_mem_cons.mpr ⟨nofun, nofun⟩⟩
  · refine List.forall_mem_cons.mpr ⟨?_, List.forall_mem_cons.mpr ⟨Nat.succ_pos _, nofun⟩⟩
    rw [List.length_replicate]
    exact Nat.lt_succ_self 126

/-- A line with 127 characters loses one of them. -/
theorem long_cut : ¬ ReturnsLines (fun _ _ => 0) [List.replicate 127 97] := by
  obtain ⟨text, run, exact_⟩ := readline_line (fun _ => 0) (plain_replicate 127) []
  intro all
  unfold ReturnsLines at all
  rw [List.length_singleton, readlines] at all
  simp only [lineInput, run] at all
  have same : text = List.replicate 127 97 :=
    Option.some.inj (List.cons.inj (congrArg Prod.fst all)).1
  have small := exact_.mp same
  rw [List.length_replicate] at small
  omega

end Mpt.Loader

import Mpt.Message.Fragments
import Mpt.Run

/-! # Reading a message in several calls

The calls of `mpt_message_read` take a message apart as reading from one sequence of
bytes does, so the parts that the message is in do not show.
-/

namespace Mpt

/-- Successive reads from a sequence of bytes. -/
def plainReader : Machine (List α) Nat (List α) := ⟨fun l len => (l.drop len, l.take len)⟩

theorem plainReader_parts (l : List α) (lens : List Nat) :
    (plainReader.outputs l lens).flatten ++ plainReader.after l lens = l := by
  induction lens generalizing l with
  | nil => rfl
  | cons len lens ih =>
      simp only [Machine.outputs, Machine.after, List.flatten_cons, List.append_assoc]
      rw [ih]
      exact List.take_append_drop len l

namespace Message

/-- Successive calls of `mpt_message_read`, each with the bytes it copies. -/
def reader (m : Mem Byte) : Machine Message Nat (List Byte) :=
  ⟨fun msg len => ((msg.read len).1, (msg.read len).2.map m)⟩

/-- A call reads from the bytes of the message. -/
theorem reader_step (m : Mem Byte) (msg : Message) (len : Nat) :
    ((reader m).step msg len).2 = (msg.bytes.map m).take len ∧
      ((reader m).step msg len).1.bytes.map m = (msg.bytes.map m).drop len := by
  obtain ⟨taken, left, _⟩ := read_spec msg len
  simp only [reader]
  rw [taken, left, List.map_take, List.map_drop]
  exact ⟨rfl, rfl⟩

theorem reader_plain (m : Mem Byte) (msg : Message) (lens : List Nat) :
    (reader m).outputs msg lens = plainReader.outputs (msg.bytes.map m) lens ∧
      ((reader m).after msg lens).bytes.map m = plainReader.after (msg.bytes.map m) lens := by
  induction lens generalizing msg with
  | nil => exact ⟨rfl, rfl⟩
  | cons len lens ih =>
      obtain ⟨taken, left⟩ := reader_step m msg len
      obtain ⟨read, rest⟩ := ih ((reader m).step msg len).1
      rw [left] at read rest
      simp only [Machine.outputs, Machine.after]
      exact ⟨by rw [taken, read]; rfl, rest⟩

/-- Whatever the parts of a message and the lengths asked for: what is read is a prefix of
    the bytes, the length of the rest is what is missing, each call returns what is asked
    for or all that is left, and another message with the same bytes is read the same. -/
theorem reads_spec (m : Mem Byte) (msg : Message) (lens : List Nat) :
    ((reader m).outputs msg lens).flatten <+: msg.bytes.map m ∧
      ((reader m).after msg lens).length =
        msg.length - ((reader m).outputs msg lens).flatten.length ∧
      (∀ len, ((reader m).step ((reader m).after msg lens) len).2.length =
        min len (msg.length - ((reader m).outputs msg lens).flatten.length)) ∧
      ∀ m' msg', msg'.bytes.map m' = msg.bytes.map m →
        (reader m').outputs msg' lens = (reader m).outputs msg lens := by
  obtain ⟨read, left⟩ := reader_plain m msg lens
  have parts := plainReader_parts (msg.bytes.map m) lens
  rw [← read, ← left] at parts
  have sizes := congrArg List.length parts
  rw [List.length_append, List.length_map, List.length_map, ← length_eq, ← length_eq] at sizes
  refine ⟨⟨_, parts⟩, by omega, fun len => ?_, fun m' msg' same => ?_⟩
  · rw [(reader_step m _ len).1, List.length_take, List.length_map, ← length_eq]
    omega
  · rw [read, (reader_plain m' msg' lens).1, same]

/-- Five bytes in one part and in four, one of them empty. -/
theorem reads_parts : (reader sampleText).outputs ⟨0, 1, [⟨7, 0⟩, ⟨1, 1⟩, ⟨2, 3⟩]⟩ [2, 0, 9] =
    (reader sampleText).outputs ⟨0, 5, []⟩ [2, 0, 9] :=
  (reads_spec sampleText ⟨0, 5, []⟩ [2, 0, 9]).2.2.2 sampleText _ (by decide)

end Message

end Mpt

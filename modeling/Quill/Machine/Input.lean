import Quill.Basic
import Quill.Feed

/-! # Standard input

Input is read through a buffer, a piece of the feed at a time, and only when the buffer is empty.
Reads are not repeated: an interruption is a failure like any other.
-/
namespace Quill

structure Input where
  buffer : List UInt8
  feed : Feed
  /-- At most so many bytes are asked for at a time, less one. -/
  room : Nat
deriving Repr

namespace Input

/-- The room of the buffer in front of the standard input. -/
def standardRoom : Nat := 8191

def ofFeed (feed : Feed) : Input := ⟨[], feed, standardRoom⟩

/-- All bytes that are not consumed yet. -/
def left (i : Input) : List UInt8 := i.buffer ++ i.feed.bytes

/-- Puts the answer of a read into the buffer; what went wrong, if anything. -/
def receive (room : Nat) (feed : Feed) : Reading → Option String × Input
  | .got bs => (none, ⟨bs, feed, room⟩)
  | .interrupted => (some "interrupted", ⟨[], feed, room⟩)
  | .failed reason => (some reason, ⟨[], feed, room⟩)

/-- Makes sure that the buffer is not empty unless the input is over. -/
def fill (i : Input) : Option String × Input :=
  if i.buffer.isEmpty then
    let answer := i.feed.read (i.room + 1)
    receive i.room answer.2 answer.1
  else (none, i)

theorem left_receive (room : Nat) (feed : Feed) (r : Reading) :
    (receive room feed r).2.left = r.bytes ++ feed.bytes := by
  cases r <;> rfl

@[simp] theorem left_fill (i : Input) : i.fill.2.left = i.left := by
  unfold fill
  split
  · rename_i h
    rw [left_receive, ← Feed.bytes_read, left, List.isEmpty_iff.1 h, List.nil_append]
  · rfl

theorem feed_bytes_lt {i i' : Input} {e : Option String} (h : i.fill = (e, i'))
    (hb : i'.buffer ≠ []) : i'.feed.bytes.length < i.left.length := by
  have hl : i'.left = i.left := by
    have := left_fill i
    rwa [h] at this
  have := List.length_pos_iff.2 hb
  rw [← hl, left, List.length_append]
  omega

/-- Consumes blanks up to the next other byte or the end. -/
def skipBlanks (i : Input) : Option String × Input :=
  match _h : i.fill with
  | (some e, i') => (some e, i')
  | (none, i') =>
    if _hb : i'.buffer = [] then (none, i')
    else
      match i'.buffer.dropWhile isBlank with
      | [] => skipBlanks { i' with buffer := [] }
      | rest => (none, { i' with buffer := rest })
termination_by i.left.length
decreasing_by simpa [left] using feed_bytes_lt _h _hb

/-- Consumes the bytes up to the next blank or the end, and puts them behind `word`. -/
def takeWord (word : List UInt8) (i : Input) : Except String (List UInt8) × Input :=
  match _h : i.fill with
  | (some e, i') => (.error e, i')
  | (none, i') =>
    if _hb : i'.buffer = [] then (.ok word, i')
    else
      let word := word ++ i'.buffer.takeWhile (!isBlank ·)
      match i'.buffer.dropWhile (!isBlank ·) with
      | [] => takeWord word { i' with buffer := [] }
      | rest => (.ok word, { i' with buffer := rest })
termination_by i.left.length
decreasing_by simpa [left] using feed_bytes_lt _h _hb

/-- The next byte that is not blank. None at the end. -/
def readChar (i : Input) : Except String (Option UInt8) × Input :=
  match i.skipBlanks with
  | (some e, i) => (.error e, i)
  | (none, i) =>
    match i.fill with
    | (some e, i) => (.error e, i)
    | (none, i) =>
      match i.buffer with
      | [] => (.ok none, i)
      | b :: rest => (.ok (some b), { i with buffer := rest })

/-- The next word. None at the end. -/
def readWord (i : Input) : Except String (Option (List UInt8)) × Input :=
  match i.skipBlanks with
  | (some e, i) => (.error e, i)
  | (none, i) =>
    match i.takeWord [] with
    | (.error e, i) => (.error e, i)
    | (.ok word, i) => (.ok (if word.isEmpty then none else some word), i)

end Input

end Quill

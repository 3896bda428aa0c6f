import Quill.Lexer.Buffer
import Quill.Lexer.Scan

/-! # The window over a feed

The buffer holds the bytes of the match in progress and those read ahead. When all of it has been
examined, the bytes before the match are shifted out and more are read behind the others. What the
buffer holds ahead and what its feed still has to give are together the bytes left, and each
operation is described by what it does to them and to the bytes matched.
-/
namespace Quill

structure Window where
  feed : Feed
  buffer : Buffer
  /-- The next byte to be examined. -/
  cursor : Nat
  /-- Where the match in progress begins. -/
  low : Nat
  exhausted : Bool
  /-- Why the input ended early, once that is known. -/
  failure : Option String
  low_le : low ≤ cursor
  cursor_le : cursor ≤ buffer.size

namespace Window

def ofFeed (feed : Feed) (capacity : Nat) : Window where
  feed
  buffer := .withCapacity capacity
  cursor := 0
  low := 0
  exhausted := false
  failure := none
  low_le := Nat.le_refl _
  cursor_le := Nat.le_refl _

/-- Moves the match in progress to the front of the buffer. -/
def shift (w : Window) : Window :=
  { w with
    buffer := w.buffer.shift w.low
    cursor := w.cursor - w.low
    low := 0
    low_le := Nat.zero_le _
    cursor_le := Nat.sub_le_sub_right w.cursor_le w.low }

/-- Reads once more. To read nothing, or to fail, is the end of the input. -/
def imbue (w : Window) : Window :=
  match w.feed.readOn w.buffer.grow.room with
  | (.ok bs, feed) =>
    { w with
      feed
      buffer := w.buffer.grow.append bs
      exhausted := w.exhausted || bs.isEmpty
      cursor_le := by
        have := w.cursor_le
        have := w.buffer.size_grow
        exact Nat.le_add_right_of_le (by omega) }
  | (.error reason, feed) =>
    { w with
      feed
      buffer := w.buffer.grow
      exhausted := true
      failure := some reason
      cursor_le := by
        rw [w.buffer.size_grow]
        exact w.cursor_le }

def refill (w : Window) : Window := w.shift.imbue

/-- Makes sure that a byte is at hand unless the input is over. -/
def look (w : Window) : Window :=
  if w.cursor = w.buffer.size && !w.exhausted then w.refill else w

/-- The cursor does not pass the bytes held. -/
def advance (w : Window) : Window :=
  { w with
    cursor := min (w.cursor + 1) w.buffer.size
    low_le := Nat.le_min.2 ⟨Nat.le_succ_of_le w.low_le, Nat.le_trans w.low_le w.cursor_le⟩
    cursor_le := Nat.min_le_right .. }

/-- Matches the byte at hand if `accepts` gives a result for it. -/
def takeAhead? {α : Type} (w : Window) (accepts : UInt8 → Option α) : Option α × Window :=
  match (w.buffer.get? w.cursor).bind accepts with
  | none => (none, w)
  | some a => (some a, w.advance)

/-- Matches the next byte if `accepts` gives a result for it. -/
def take? {α : Type} (w : Window) (accepts : UInt8 → Option α) : Option α × Window :=
  w.look.takeAhead? accepts

def mark (w : Window) : Window := { w with low := w.cursor, low_le := Nat.le_refl _ }

def giveBack (w : Window) (n : Nat) : Window :=
  { w with
    cursor := w.low + (w.cursor - w.low - n)
    low_le := Nat.le_add_right ..
    cursor_le := by
      have := w.low_le
      have := w.cursor_le
      omega }

/-! ### The bytes matched and the bytes left -/

/-- The bytes of the match in progress. -/
def matched (w : Window) : List UInt8 := w.buffer.slice w.low w.cursor

def ahead (w : Window) : List UInt8 := w.buffer.bytes.drop w.cursor

def left (w : Window) : List UInt8 := w.ahead ++ w.feed.bytes

/-- The match in progress and all that follows it. -/
def held (w : Window) : List UInt8 := w.matched ++ w.left

variable (w : Window)

theorem matched_eq : w.matched = (w.buffer.bytes.take w.cursor).drop w.low :=
  w.buffer.slice_eq w.low w.cursor_le

theorem ahead_eq_nil : w.ahead = [] ↔ w.cursor = w.buffer.size := by
  have := w.cursor_le
  rw [ahead, List.drop_eq_nil_iff, Buffer.length_bytes]
  omega

theorem get?_cursor : w.buffer.get? w.cursor = w.ahead.head? := by
  rw [Buffer.get?_eq, ahead, List.head?_drop]

@[simp] theorem matched_shift : w.shift.matched = w.matched := by
  rw [matched_eq, matched_eq]
  simp [shift, List.drop_take]

@[simp] theorem ahead_shift : w.shift.ahead = w.ahead := by
  simp [ahead, shift, Nat.add_sub_cancel' w.low_le]

@[simp] theorem left_shift : w.shift.left = w.left := congrArg (· ++ w.feed.bytes) w.ahead_shift

@[simp] theorem matched_imbue : w.imbue.matched = w.matched := by
  have := w.cursor_le
  rw [matched_eq, matched_eq]
  unfold imbue
  split
  · simp only [Buffer.bytes_append, Buffer.bytes_grow]
    rw [List.take_append_of_le_length]
    rwa [Buffer.length_bytes]
  · simp only [Buffer.bytes_grow]

theorem imbue_ok {w : Window} {feed : Feed} {bs : List UInt8}
    (h : w.feed.readOn w.buffer.grow.room = (.ok bs, feed)) :
    w.imbue.feed = feed ∧ w.imbue.ahead = w.ahead ++ bs ∧
      w.imbue.exhausted = (w.exhausted || bs.isEmpty) ∧ w.imbue.failure = w.failure := by
  have hcursor : w.cursor ≤ w.buffer.bytes.length := by
    rw [Buffer.length_bytes]
    exact w.cursor_le
  unfold imbue
  split <;> rename_i hread <;> cases hread.symm.trans h
  refine ⟨rfl, ?_, rfl, rfl⟩
  simp only [ahead, Buffer.bytes_append, Buffer.bytes_grow]
  exact List.drop_append_of_le_length hcursor

theorem imbue_error {w : Window} {feed : Feed} {reason : String}
    (h : w.feed.readOn w.buffer.grow.room = (.error reason, feed)) :
    w.imbue.feed = feed ∧ w.imbue.ahead = w.ahead ∧
      w.imbue.exhausted = true ∧ w.imbue.failure = some reason := by
  unfold imbue
  split <;> rename_i hread <;> cases hread.symm.trans h
  refine ⟨rfl, ?_, rfl, rfl⟩
  simp only [ahead, Buffer.bytes_grow]

@[simp] theorem left_imbue : w.imbue.left = w.left := by
  cases h : w.feed.readOn w.buffer.grow.room with
  | mk answer feed =>
    cases answer with
    | ok bs =>
      obtain ⟨hfeed, hahead, -⟩ := imbue_ok h
      rw [left, left, hfeed, hahead, (Feed.readOn_ok h).1, List.append_assoc]
    | error reason =>
      obtain ⟨hfeed, hahead, -⟩ := imbue_error h
      rw [left, left, hfeed, hahead, Feed.readOn_error h]

/-- Only a read into a full buffer makes it larger, however much the read brings. -/
theorem data_size_imbue : w.imbue.buffer.data.size =
    if w.buffer.size = w.buffer.data.size then 2 * w.buffer.data.size else w.buffer.data.size := by
  rw [← Buffer.data_size_grow]
  unfold imbue
  split
  · rename_i hread
    exact Buffer.data_size_append _ (Feed.readOn_ok hread).2
  · rfl

@[simp] theorem matched_refill : w.refill.matched = w.matched := by simp [refill]

@[simp] theorem left_refill : w.refill.left = w.left := by simp [refill]

@[simp] theorem matched_look : w.look.matched = w.matched := by
  unfold look
  split <;> simp

@[simp] theorem left_look : w.look.left = w.left := by
  unfold look
  split <;> simp

theorem advance_of_ahead {w : Window} {b : UInt8} {bs : List UInt8} (h : w.ahead = b :: bs) :
    w.advance.matched = w.matched ++ [b] ∧ w.advance.left = bs ++ w.feed.bytes := by
  have hlt : w.cursor < w.buffer.bytes.length := by
    refine Nat.lt_of_not_le fun hge => ?_
    rw [ahead, List.drop_eq_nil_of_le hge] at h
    cases h
  rw [ahead, List.drop_eq_getElem_cons hlt] at h
  obtain ⟨rfl, rfl⟩ := List.cons.inj h
  have hnext : w.advance.cursor = w.cursor + 1 := by
    rw [Buffer.length_bytes] at hlt
    exact Nat.min_eq_left hlt
  have hlow : w.low ≤ (w.buffer.bytes.take w.cursor).length := by
    rw [List.length_take, Nat.min_eq_left (Nat.le_of_lt hlt)]
    exact w.low_le
  rw [left, matched_eq, matched_eq, ahead, hnext, ← List.drop_append_of_le_length hlow,
    ← List.take_succ_eq_append_getElem hlt]
  exact ⟨rfl, rfl⟩

theorem takeAhead?_eq {α : Type} (accepts : UInt8 → Option α) :
    w.takeAhead? accepts = match w.ahead.head?.bind accepts with
      | none => (none, w)
      | some a => (some a, w.advance) := by
  rw [takeAhead?, get?_cursor]

/-- Either a byte is matched, or none and the window has only been looked through. -/
theorem take?_cases {α : Type} (accepts : UInt8 → Option α) :
    w.take? accepts = (none, w.look) ∨
      ∃ b bs a, w.look.ahead = b :: bs ∧ accepts b = some a ∧
        w.take? accepts = (some a, w.look.advance) := by
  rw [take?, takeAhead?_eq]
  cases hahead : w.look.ahead with
  | nil => exact .inl rfl
  | cons b bs =>
    cases ha : accepts b with
    | none => exact .inl (by simp [ha])
    | some a => exact .inr ⟨b, bs, a, rfl, ha, by simp [ha]⟩

variable {w} {w' : Window} {α : Type} {accepts : UInt8 → Option α} {a : α}

theorem take?_some (h : w.take? accepts = (some a, w')) :
    ∃ b, w.left = b :: w'.left ∧ accepts b = some a ∧ w'.matched = w.matched ++ [b] := by
  rcases w.take?_cases accepts with hnone | ⟨b, bs, a', hahead, ha, hsome⟩
  · cases hnone.symm.trans h
  · cases hsome.symm.trans h
    obtain ⟨hmatched, hleft⟩ := advance_of_ahead hahead
    refine ⟨b, ?_, ha, ?_⟩
    · rw [hleft, ← left_look w, left, hahead, List.cons_append]
    · rw [hmatched, matched_look]

theorem take?_none (h : w.take? accepts = (none, w')) : w' = w.look := by
  rcases w.take?_cases accepts with hnone | ⟨b, bs, a', hahead, ha, hsome⟩
  · exact (Prod.mk.inj (h.symm.trans hnone)).2
  · cases hsome.symm.trans h

theorem held_take? (w : Window) (accepts : UInt8 → Option α) :
    (w.take? accepts).2.held = w.held := by
  cases h : w.take? accepts with
  | mk r w' =>
    cases r with
    | none => simp [take?_none h, held]
    | some a =>
      obtain ⟨b, hleft, -, hmatched⟩ := take?_some h
      simp [held, hmatched, hleft]

theorem left_ofFeed (feed : Feed) (capacity : Nat) : (ofFeed feed capacity).left = feed.bytes := by
  simp [left, ahead, ofFeed]

@[simp] theorem matched_mark (w : Window) : w.mark.matched = [] := by
  simp [matched, mark, Buffer.slice]

@[simp] theorem left_mark (w : Window) : w.mark.left = w.left := rfl

@[simp] theorem held_mark (w : Window) : w.mark.held = w.left := by simp [held]

theorem length_matched (w : Window) : w.matched.length = w.cursor - w.low := by
  rw [matched_eq, List.length_drop, List.length_take, Buffer.length_bytes,
    Nat.min_eq_left w.cursor_le]

theorem matched_giveBack (w : Window) (n : Nat) :
    (w.giveBack n).matched = w.matched.take (w.matched.length - n) := by
  have := w.low_le
  rw [length_matched, matched_eq, matched_eq]
  simp only [giveBack]
  rw [List.take_drop, List.take_take]
  congr 2
  omega

theorem left_giveBack (w : Window) (n : Nat) :
    (w.giveBack n).left = w.matched.drop (w.matched.length - n) ++ w.left := by
  have := w.low_le
  have := w.cursor_le
  have hcut : w.low + (w.cursor - w.low - n) ≤ (w.buffer.bytes.take w.cursor).length := by
    rw [List.length_take, Buffer.length_bytes]
    omega
  rw [length_matched, matched_eq, List.drop_drop, left, left, ahead, ahead, ← List.append_assoc,
    ← List.drop_append_of_le_length hcut, List.take_append_drop]
  rfl

@[simp] theorem held_giveBack (w : Window) (n : Nat) : (w.giveBack n).held = w.held := by
  rw [held, held, matched_giveBack, left_giveBack, ← List.append_assoc, List.take_append_drop]

/-! ### Runs -/

/-- Takes bytes as long as the match accepts them. -/
def run (s : Scan) (w : Window) : Scan × Window :=
  if s.isComplete then (s, w)
  else
    match _h : w.take? s.step with
    | (some next, rest) => run next rest
    | (none, rest) => (s, rest)
termination_by w.left.length
decreasing_by
  obtain ⟨b, hb, _⟩ := take?_some _h
  simp [hb]

@[simp] theorem held_run (s : Scan) (w : Window) : (w.run s).2.held = w.held := by
  fun_induction run with
  | case1 => rfl
  | case2 s w _ next rest h ih => rw [ih, ← held_take? w s.step, h]
  | case3 s w _ rest h => rw [← held_take? w s.step, h]

theorem surplus_run (s : Scan) (w : Window) (hs : s.surplus < w.matched.length) :
    (w.run s).1.surplus < (w.run s).2.matched.length := by
  fun_induction run with
  | case1 => exact hs
  | case2 s w _ next rest h ih =>
    obtain ⟨b, _, hb, hmatched⟩ := take?_some h
    have := Scan.surplus_step hb
    refine ih ?_
    rw [hmatched, List.length_append, List.length_singleton]
    omega
  | case3 s w _ rest h =>
    rwa [take?_none h, matched_look]

end Window

end Quill

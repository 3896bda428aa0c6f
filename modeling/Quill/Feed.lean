/-! # Feeds

A feed hands out bytes in pieces of its own choosing. A read may also be interrupted, which says
nothing about the bytes, and after the last piece every read says that the input is over or that
it failed.
-/
namespace Quill

inductive Delivery where
  /-- One piece; it is never empty. -/
  | piece (first : UInt8) (more : List UInt8)
  | interruption
deriving DecidableEq, Repr

inductive Ending where
  | closed
  | failing (reason : String)
deriving DecidableEq, Repr

structure Feed where
  deliveries : List Delivery
  ending : Ending
  /-- Whether, at the end, every other read is interrupted. -/
  flickers : Bool
deriving Repr

inductive Reading where
  /-- No more than was asked for. Nothing if that was nothing, or if the input is over. -/
  | got (bytes : List UInt8)
  | interrupted
  | failed (reason : String)
deriving DecidableEq, Repr

namespace Reading

def bytes : Reading → List UInt8
  | .got bs => bs
  | _ => []

end Reading

namespace Delivery

def bytes : Delivery → List UInt8
  | .piece b bs => b :: bs
  | .interruption => []

def isInterruption : Delivery → Bool
  | .piece _ _ => false
  | .interruption => true

end Delivery

namespace Feed

def bytes (f : Feed) : List UInt8 := f.deliveries.flatMap Delivery.bytes

def atEnd (e : Ending) : Reading :=
  match e with
  | .closed => .got []
  | .failing reason => .failed reason

/-- Reads at most `room` bytes; what is left of a longer piece stays. -/
def read (room : Nat) (f : Feed) : Reading × Feed :=
  match f.deliveries with
  | .interruption :: rest => (.interrupted, { f with deliveries := rest })
  | .piece b bs :: rest =>
    match (b :: bs).drop room with
    | [] => (.got (b :: bs), { f with deliveries := rest })
    | c :: cs => (.got ((b :: bs).take room), { f with deliveries := .piece c cs :: rest })
  | [] =>
    (atEnd f.ending, { f with deliveries := if f.flickers then [.interruption] else [] })

theorem bytes_read (room : Nat) (f : Feed) :
    f.bytes = (f.read room).1.bytes ++ (f.read room).2.bytes := by
  obtain ⟨deliveries, ending, flickers⟩ := f
  cases deliveries with
  | nil => cases ending <;> cases flickers <;> rfl
  | cons d rest =>
    cases d with
    | interruption => rfl
    | piece b bs =>
      simp only [read]
      split
      · simp [Feed.bytes, Delivery.bytes, Reading.bytes]
      · rename_i c cs h
        simp only [Feed.bytes, Delivery.bytes, Reading.bytes, List.flatMap_cons, ← h,
          ← List.append_assoc, List.take_append_drop]

theorem length_read (room : Nat) (f : Feed) : (f.read room).1.bytes.length ≤ room := by
  obtain ⟨deliveries, ending, flickers⟩ := f
  cases deliveries with
  | nil => cases ending <;> exact Nat.zero_le _
  | cons d rest =>
    cases d with
    | interruption => exact Nat.zero_le _
    | piece b bs =>
      simp only [read]
      split
      · rename_i h
        exact List.drop_eq_nil_iff.1 h
      · exact List.length_take_le ..

/-- Only what is delivered before the end is interrupted, and then one delivery is less. -/
theorem deliveries_read {room : Nat} {f f' : Feed} (h : f.read room = (.interrupted, f')) :
    f'.deliveries.length < f.deliveries.length := by
  unfold read at h
  split at h
  · rename_i rest hd
    cases h
    simp [hd]
  · split at h <;> cases h
  · cases he : f.ending <;> simp [he, atEnd] at h

def readOn (room : Nat) (f : Feed) : Except String (List UInt8) × Feed :=
  match _h : f.read room with
  | (.got bs, f') => (.ok bs, f')
  | (.failed reason, f') => (.error reason, f')
  | (.interrupted, f') => f'.readOn room
termination_by f.deliveries.length
decreasing_by exact deliveries_read _h

theorem readOn_got {room : Nat} {f f' : Feed} {bs : List UInt8}
    (h : f.read room = (.got bs, f')) : f.readOn room = (.ok bs, f') := by
  rw [readOn]
  split <;> rename_i hread <;> cases hread.symm.trans h
  rfl

theorem readOn_failed {room : Nat} {f f' : Feed} {reason : String}
    (h : f.read room = (.failed reason, f')) : f.readOn room = (.error reason, f') := by
  rw [readOn]
  split <;> rename_i hread <;> cases hread.symm.trans h
  rfl

theorem readOn_interrupted {room : Nat} {f f' : Feed} (h : f.read room = (.interrupted, f')) :
    f.readOn room = f'.readOn room := by
  rw [readOn]
  split <;> rename_i hread <;> cases hread.symm.trans h
  rfl

theorem readOn_ok {room : Nat} {f f' : Feed} {bs : List UInt8}
    (h : f.readOn room = (.ok bs, f')) : f.bytes = bs ++ f'.bytes ∧ bs.length ≤ room := by
  fun_induction readOn with
  | case1 f bs₁ f₁ hread =>
    cases h
    have hbytes := bytes_read room f
    have hlength := length_read room f
    rw [hread] at hbytes hlength
    exact ⟨hbytes, hlength⟩
  | case2 => cases h
  | case3 f f₁ hread ih =>
    have hbytes := bytes_read room f
    rw [hread] at hbytes
    rw [hbytes]
    exact ih h

theorem readOn_error {room : Nat} {f f' : Feed} {reason : String}
    (h : f.readOn room = (.error reason, f')) : f.bytes = f'.bytes := by
  fun_induction readOn with
  | case1 => cases h
  | case2 f reason₁ f₁ hread =>
    cases h
    have hbytes := bytes_read room f
    rwa [hread] at hbytes
  | case3 f f₁ hread ih =>
    have hbytes := bytes_read room f
    rw [hread] at hbytes
    rw [hbytes]
    exact ih h

/-- Cuts `bytes` into pieces of `size + 1`, the last one shorter if need be. -/
def pieces (size : Nat) (bytes : List UInt8) : List Delivery :=
  match bytes with
  | [] => []
  | b :: bs => .piece b (bs.take size) :: pieces size (bs.drop size)
termination_by bytes.length

theorem flatMap_pieces (size : Nat) (bytes : List UInt8) :
    (pieces size bytes).flatMap Delivery.bytes = bytes := by
  fun_induction pieces with
  | case1 => rfl
  | case2 b bs ih => simp [Delivery.bytes, ih]

/-- A feed of `bytes` in pieces of at most `size + 1`. With `flickers` an interruption precedes
each piece and the end. -/
def ofBytes (bytes : List UInt8) (size : Nat) (flickers : Bool) (ending : Ending) : Feed where
  deliveries :=
    if flickers then (pieces size bytes).flatMap ([.interruption, ·]) ++ [.interruption]
    else pieces size bytes
  ending
  flickers

/-- Neither the pieces nor the interruptions between them take anything away. -/
@[simp] theorem bytes_ofBytes (bytes : List UInt8) (size : Nat) (flickers : Bool)
    (ending : Ending) : (ofBytes bytes size flickers ending).bytes = bytes := by
  have interleaved (ds : List Delivery) :
      (ds.flatMap ([.interruption, ·])).flatMap Delivery.bytes = ds.flatMap Delivery.bytes := by
    induction ds with
    | nil => rfl
    | cons d rest ih => simp [Delivery.bytes, ih]
  cases flickers with
  | false => exact flatMap_pieces size bytes
  | true =>
    simp only [Feed.bytes, ofBytes, ↓reduceIte, List.flatMap_append, interleaved, flatMap_pieces]
    exact List.append_nil bytes

/-- The whole of `bytes` at once, then the end. -/
def whole (bytes : List UInt8) : Feed := ofBytes bytes bytes.length false .closed

end Feed

end Quill

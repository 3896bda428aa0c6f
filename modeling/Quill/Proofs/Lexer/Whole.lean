import Quill.Lexer.Lexeme

/-! # Lexing without a buffer

A lexer that has the whole source before it and keeps nothing but a position in it. It examines
the bytes one after the other, and learns how the source ends when it first examines the position
behind the last one. The streaming lexer gives the same lexemes at the same places and learns of
the end at the same moment, whatever its capacity and however its feed cuts the source up.
-/
namespace Quill

/-- The error that ends a source, if it does not end by itself. -/
def Ending.failure? : Ending → Option String
  | .closed => none
  | .failing reason => some reason

structure WholeLexer where
  source : List UInt8
  ending : Ending
  /-- Where the next match begins, in bytes. -/
  position : Nat
  place : Location
  /-- Whether the position behind the last byte has been examined. -/
  endSeen : Bool

namespace WholeLexer

def ofBytes (source : List UInt8) (ending : Ending) : WholeLexer :=
  ⟨source, ending, 0, .start, false⟩

def failure (l : WholeLexer) : Option String := if l.endSeen then l.ending.failure? else none

/-- How far a match goes from `i` on: its last state, the position after it, and whether the
position behind the last byte was examined. -/
def extent (source : List UInt8) (s : Scan) (i : Nat) : Scan × Nat × Bool :=
  if s.isComplete then (s, i, false)
  else
    match _h : source[i]? with
    | none => (s, i, true)
    | some b =>
      match s.step b with
      | none => (s, i, false)
      | some next => extent source next (i + 1)
termination_by source.length - i
decreasing_by
  have := (List.getElem?_eq_some_iff.1 _h).1
  omega

def slice (source : List UInt8) (first last : Nat) : List UInt8 :=
  (source.take last).drop first

def nextMatch (l : WholeLexer) : Option Match × WholeLexer :=
  match l.source[l.position]? with
  | none => (none, { l with endSeen := true })
  | some b =>
    let r := extent l.source (Scan.start b) (l.position + 1)
    let stop := r.2.1 - r.1.surplus
    let bytes := slice l.source l.position stop
    let after := l.place.after bytes
    (some ⟨r.1, bytes, ⟨l.place, after⟩⟩,
      { l with position := stop, place := after, endSeen := l.endSeen || r.2.2 })

theorem surplus_extent (source : List UInt8) (s : Scan) (i j : Nat) (h : j + s.surplus < i) :
    j + (extent source s i).1.surplus < (extent source s i).2.1 := by
  fun_induction extent with
  | case1 => exact h
  | case2 => exact h
  | case3 => exact h
  | case4 s i _ b _ next hnext ih =>
    have := Scan.surplus_step hnext
    exact ih (by omega)

theorem position_nextMatch {l l' : WholeLexer} {m : Match} (h : l.nextMatch = (some m, l')) :
    l.source.length - l'.position < l.source.length - l.position ∧ l'.source = l.source := by
  unfold nextMatch at h
  split at h
  · simp at h
  · rename_i b hb
    have hpos := (List.getElem?_eq_some_iff.1 hb).1
    have hs := surplus_extent l.source (Scan.start b) (l.position + 1) l.position
      (by rw [Scan.surplus_start]; omega)
    simp only [Prod.mk.injEq, Option.some.injEq] at h
    obtain ⟨rfl, rfl⟩ := h
    refine ⟨?_, rfl⟩
    dsimp only
    omega

def next (l : WholeLexer) : Lexeme × WholeLexer :=
  match _h : l.nextMatch with
  | (none, l') => (⟨.eof, .point l.place, [], l'.failure⟩, l')
  | (some m, l') =>
    match m.scan.token? m.bytes with
    | some t => (⟨t, m.span, m.bytes, l'.failure⟩, l')
    | none => l'.next
termination_by l.source.length - l.position
decreasing_by
  obtain ⟨hlt, hsource⟩ := position_nextMatch _h
  rw [hsource]
  exact hlt

end WholeLexer

/-! ### What a window shows of the bytes left -/

namespace Feed

theorem ending_read (room : Nat) (f : Feed) : (f.read room).2.ending = f.ending := by
  unfold read
  split
  · rfl
  · split <;> rfl
  · rfl

theorem ending_readOn (room : Nat) (f : Feed) : (f.readOn room).2.ending = f.ending := by
  have hread (f : Feed) := ending_read room f
  fun_induction readOn with
  | case1 f bs f' h | case2 f reason f' h => simpa [h] using hread f
  | case3 f f' h ih => rw [ih, ← hread f, h]

def endAnswer : Ending → Except String (List UInt8)
  | .closed => .ok []
  | .failing reason => .error reason

/-- A read that asks for something and is not interrupted brings the next byte, or tells how the
feed ends. -/
theorem readOn_fst {room : Nat} (hroom : 0 < room) (f : Feed) :
    match f.bytes with
    | [] => (f.readOn room).1 = endAnswer f.ending
    | b :: _ => ∃ bs, (f.readOn room).1 = .ok (b :: bs) := by
  obtain ⟨deliveries, ending, flickers⟩ := f
  induction deliveries with
  | nil =>
    cases ending with
    | closed => rw [readOn_got rfl]; rfl
    | failing reason => rw [readOn_failed rfl]; rfl
  | cons d rest ih =>
    cases d with
    | interruption =>
      rw [readOn_interrupted rfl]
      exact ih
    | piece b bs =>
      obtain ⟨bs', f', hread⟩ : ∃ bs' f', read room ⟨.piece b bs :: rest, ending, flickers⟩ =
          (.got (b :: bs'), f') := by
        obtain ⟨room, rfl⟩ := Nat.exists_eq_add_one_of_ne_zero (Nat.ne_of_gt hroom)
        simp only [read]
        split
        · exact ⟨bs, _, rfl⟩
        · exact ⟨bs.take room, _, rfl⟩
      rw [readOn_got hread]
      exact ⟨bs', rfl⟩

end Feed

namespace Window

/-- The window has `rest` to match, its feed ends in the given way, and it has learned of the end
if `seen` says so. -/
structure Shows (w : Window) (rest : List UInt8) (e : Ending) (seen : Bool) : Prop where
  left : w.left = rest
  ending : w.feed.ending = e
  exhausted : w.exhausted = seen
  failure : w.failure = if seen then e.failure? else none
  drained : seen = true → w.feed.bytes = []

variable {w : Window} {rest : List UInt8} {e : Ending} {seen : Bool}

theorem Shows.mark (h : w.Shows rest e seen) : w.mark.Shows rest e seen :=
  ⟨h.left, h.ending, h.exhausted, h.failure, h.drained⟩

theorem Shows.giveBack (h : w.Shows rest e seen) (n : Nat) :
    (w.giveBack n).Shows (w.matched.drop (w.matched.length - n) ++ rest) e seen := by
  refine ⟨?_, h.ending, h.exhausted, h.failure, h.drained⟩
  rw [left_giveBack, h.left]

theorem Shows.shift (h : w.Shows rest e seen) : w.shift.Shows rest e seen :=
  ⟨(left_shift w).trans h.left, h.ending, h.exhausted, h.failure, h.drained⟩

theorem Shows.advance {b : UInt8} {bs : List UInt8} (h : w.Shows (b :: rest) e seen)
    (hahead : w.ahead = b :: bs) : w.advance.Shows rest e seen := by
  have hleft := h.left
  rw [Window.left, hahead] at hleft
  exact ⟨(advance_of_ahead hahead).2.trans (List.cons.inj hleft).2, h.ending, h.exhausted, h.failure,
    h.drained⟩

/-- A read behind all the bytes either brings the next one or finds the end. -/
theorem Shows.imbue (h : w.Shows rest e false) (hahead : w.ahead = []) :
    w.imbue.Shows rest e rest.isEmpty ∧ w.imbue.ahead.head? = rest.head? := by
  have hfeed : w.feed.bytes = rest := by rw [← h.left, Window.left, hahead, List.nil_append]
  have hleft : w.imbue.left = rest := (left_imbue w).trans h.left
  have hanswer := Feed.readOn_fst w.buffer.room_grow w.feed
  have hending := Feed.ending_readOn w.buffer.grow.room w.feed
  have hexhausted : w.exhausted = false := h.exhausted
  have hfailure : w.failure = none := h.failure
  rw [hfeed, h.ending] at hanswer
  rw [h.ending] at hending
  cases hread : w.feed.readOn w.buffer.grow.room with
  | mk answer feed =>
    rw [hread] at hanswer hending
    cases rest with
    | nil =>
      have hdrained : w.imbue.feed.bytes = [] := (List.append_eq_nil_iff.1 hleft).2
      cases e with
      | closed =>
        obtain rfl : answer = .ok [] := hanswer
        obtain ⟨hfeed', hahead', hexhausted', hfailure'⟩ := imbue_ok hread
        rw [hexhausted] at hexhausted'
        exact ⟨⟨hleft, hfeed' ▸ hending, hexhausted', hfailure'.trans hfailure, fun _ => hdrained⟩,
          by simp [hahead', hahead]⟩
      | failing reason =>
        obtain rfl : answer = .error reason := hanswer
        obtain ⟨hfeed', hahead', hexhausted', hfailure'⟩ := imbue_error hread
        exact ⟨⟨hleft, hfeed' ▸ hending, hexhausted', hfailure', fun _ => hdrained⟩,
          by simp [hahead', hahead]⟩
    | cons b bs =>
      obtain ⟨more, rfl⟩ := hanswer
      obtain ⟨hfeed', hahead', hexhausted', hfailure'⟩ := imbue_ok hread
      rw [hexhausted] at hexhausted'
      exact ⟨⟨hleft, hfeed' ▸ hending, hexhausted', hfailure'.trans hfailure, by simp⟩,
        by simp [hahead', hahead]⟩

theorem Shows.look (h : w.Shows rest e seen) :
    w.look.Shows rest e (seen || rest.isEmpty) ∧ w.look.ahead.head? = rest.head? := by
  have hexhausted := h.exhausted
  unfold Window.look
  split
  · rename_i hlook
    simp only [Bool.and_eq_true, decide_eq_true_eq, Bool.not_eq_true', hexhausted] at hlook
    obtain ⟨hcursor, rfl⟩ := hlook
    exact h.shift.imbue ((ahead_shift w).trans (w.ahead_eq_nil.2 hcursor))
  · rename_i hlook
    simp only [Bool.and_eq_true, decide_eq_true_eq, Bool.not_eq_true', hexhausted, not_and,
      Bool.not_eq_false] at hlook
    cases hahead : w.ahead with
    | nil =>
      have hseen := hlook (w.ahead_eq_nil.1 hahead)
      have hrest : rest = [] := by
        rw [← h.left, Window.left, hahead, h.drained hseen]
        rfl
      subst hrest hseen
      exact ⟨h, rfl⟩
    | cons b bs =>
      have hrest : rest = b :: (bs ++ w.feed.bytes) := by
        rw [← h.left, Window.left, hahead, List.cons_append]
      subst hrest
      exact ⟨by simpa using h, rfl⟩

theorem Shows.take?_nil {α : Type} (h : w.Shows [] e seen) (accepts : UInt8 → Option α) :
    (w.take? accepts).1 = none ∧ (w.take? accepts).2.Shows [] e true ∧
      (w.take? accepts).2.matched = w.matched := by
  obtain ⟨hlook, hhead⟩ := h.look
  rw [List.isEmpty_nil, Bool.or_true] at hlook
  rw [take?, takeAhead?_eq, hhead]
  exact ⟨rfl, hlook, matched_look w⟩

theorem Shows.take?_cons {α : Type} {b : UInt8} {bs : List UInt8}
    (h : w.Shows (b :: bs) e seen) (accepts : UInt8 → Option α) :
    (w.take? accepts).1 = accepts b ∧
      match accepts b with
      | none => (w.take? accepts).2.Shows (b :: bs) e seen ∧
          (w.take? accepts).2.matched = w.matched
      | some _ => (w.take? accepts).2.Shows bs e seen ∧
          (w.take? accepts).2.matched = w.matched ++ [b] := by
  obtain ⟨hlook, hhead⟩ := h.look
  rw [List.isEmpty_cons, Bool.or_false] at hlook
  obtain ⟨cs, hahead⟩ := List.head?_eq_some_iff.1 hhead
  rw [take?, takeAhead?_eq, hahead, List.head?_cons, Option.bind_some]
  cases accepts b with
  | none => exact ⟨rfl, hlook, matched_look w⟩
  | some a =>
    refine ⟨rfl, hlook.advance hahead, ?_⟩
    rw [(advance_of_ahead hahead).1, matched_look]

end Window

/-! ### Matches, lexemes and runs of calls -/

namespace WholeLexer

theorem slice_succ {source : List UInt8} {i : Nat} {b : UInt8} (h : source[i]? = some b)
    {stop : Nat} (hstop : i < stop) :
    slice source i stop = b :: slice source (i + 1) stop := by
  obtain ⟨hi, rfl⟩ := List.getElem?_eq_some_iff.1 h
  rw [slice, slice, List.drop_eq_getElem_cons (by simp; omega)]
  simp

theorem le_extent (source : List UInt8) (s : Scan) (i : Nat) : i ≤ (extent source s i).2.1 := by
  fun_induction extent with
  | case4 s i _ b _ next _ ih => omega
  | _ => exact Nat.le_refl _

theorem extent_le {source : List UInt8} (s : Scan) {i : Nat} (h : i ≤ source.length) :
    (extent source s i).2.1 ≤ source.length := by
  fun_induction extent with
  | case4 s i _ b hb next _ ih => exact ih (List.getElem?_eq_some_iff.1 hb).1
  | _ => exact h

theorem length_slice {source : List UInt8} {first last : Nat} (h : last ≤ source.length) :
    (slice source first last).length = last - first := by
  rw [slice, List.length_drop, List.length_take, Nat.min_eq_left h]

theorem take_slice {source : List UInt8} {first last n : Nat} (h : first + n ≤ last)
    (hlast : last ≤ source.length) :
    (slice source first last).take ((slice source first last).length - n) =
      slice source first (last - n) := by
  have hstop : first + (last - first - n) = last - n := by omega
  rw [length_slice hlast, slice, slice, List.take_drop, List.take_take, hstop,
    Nat.min_eq_left (Nat.sub_le ..)]

theorem drop_slice {source : List UInt8} {first last n : Nat} (h : first + n ≤ last)
    (hlast : last ≤ source.length) :
    (slice source first last).drop ((slice source first last).length - n) ++ source.drop last =
      source.drop (last - n) := by
  have hstop : first + (last - first - n) = last - n := by omega
  have hcut : last - n ≤ (source.take last).length := by
    rw [List.length_take, Nat.min_eq_left hlast]
    exact Nat.sub_le ..
  rw [length_slice hlast, slice, List.drop_drop, hstop, ← List.drop_append_of_le_length hcut,
    List.take_append_drop]

end WholeLexer

open WholeLexer

theorem Window.run_stop {s : Scan} {w : Window} (hs : ¬ s.isComplete)
    (h : (w.take? s.step).1 = none) : w.run s = (s, (w.take? s.step).2) := by
  rw [Window.run, if_neg hs]
  split
  · rename_i next rest htake
    simp [htake] at h
  · rename_i rest htake
    rw [htake]

theorem Window.run_step {s next : Scan} {w : Window} (hs : ¬ s.isComplete)
    (h : (w.take? s.step).1 = some next) : w.run s = (w.take? s.step).2.run next := by
  rw [Window.run, if_neg hs]
  split
  · rename_i next' rest htake
    simp only [htake, Option.some.injEq] at h ⊢
    rw [h]
  · rename_i rest htake
    simp [htake] at h

/-- A window takes as many bytes as the match has before the whole source. -/
theorem Window.Shows.run {source : List UInt8} {i : Nat} {w : Window} {e : Ending} {seen : Bool}
    (s : Scan) (h : w.Shows (source.drop i) e seen) :
    (w.run s).1 = (extent source s i).1 ∧
      (w.run s).2.Shows (source.drop (extent source s i).2.1) e (seen || (extent source s i).2.2) ∧
      (w.run s).2.matched = w.matched ++ slice source i (extent source s i).2.1 := by
  have hnil (i : Nat) : slice source i i = [] := by simp [slice]
  fun_induction extent source s i generalizing w with
  | case1 s i hs => unfold Window.run; simp [hs, h, hnil]
  | case2 s i hs hi =>
    have hover := List.drop_eq_nil_of_le (List.getElem?_eq_none_iff.1 hi)
    rw [hover] at h
    obtain ⟨hnone, hshows, hmatched⟩ := h.take?_nil s.step
    rw [Window.run_stop hs hnone]
    exact ⟨rfl, by simpa [hover] using hshows, by simpa [hnil] using hmatched⟩
  | case3 s i hs b hi hb =>
    obtain ⟨hlt, rfl⟩ := List.getElem?_eq_some_iff.1 hi
    have hdrop := List.drop_eq_getElem_cons hlt
    obtain ⟨hfst, hsnd⟩ := (hdrop ▸ h).take?_cons s.step
    rw [hb] at hfst hsnd
    rw [Window.run_stop hs hfst]
    refine ⟨rfl, ?_, by simpa [hnil] using hsnd.2⟩
    rw [Bool.or_false, hdrop]
    exact hsnd.1
  | case4 s i hs b hi next hb ih =>
    obtain ⟨hlt, rfl⟩ := List.getElem?_eq_some_iff.1 hi
    obtain ⟨hfst, hsnd⟩ := (List.drop_eq_getElem_cons hlt ▸ h).take?_cons s.step
    rw [hb] at hfst hsnd
    obtain ⟨hscan, hshows, hmatched⟩ := ih hsnd.1
    rw [Window.run_step hs hfst]
    refine ⟨hscan, hshows, ?_⟩
    rw [hmatched, hsnd.2, slice_succ hi (le_extent ..)]
    simp

namespace Lexer

/-- The streaming lexer `l` stands where `w` stands in its source. -/
structure Follows (l : Lexer) (w : WholeLexer) : Prop where
  shows_rest : l.window.Shows (w.source.drop w.position) w.ending w.endSeen
  place : l.place = w.place

theorem Follows.failure {l : Lexer} {w : WholeLexer} (h : l.Follows w) :
    l.window.failure = w.failure := h.shows_rest.failure

theorem follows_ofFeed (feed : Feed) (capacity : Nat) :
    (ofFeed feed capacity).Follows (.ofBytes feed.bytes feed.ending) :=
  ⟨⟨Window.left_ofFeed feed capacity, rfl, rfl, rfl, nofun⟩, rfl⟩

/-- A match that both have begun with the byte at `i` ends alike. -/
theorem finish_eq {source : List UInt8} {i : Nat} {w : Window} {e : Ending} {seen : Bool}
    {s : Scan} {b : UInt8} (place : Location) (hi : source[i]? = some b) (hs : s.surplus = 0)
    (hw : w.Shows (source.drop (i + 1)) e seen) (hmatched : w.matched = [b]) :
    let r := extent source s (i + 1)
    let stop := r.2.1 - r.1.surplus
    let after := place.after (slice source i stop)
    (finish place s w).1 = ⟨r.1, slice source i stop, ⟨place, after⟩⟩ ∧
      (finish place s w).2.Follows ⟨source, e, stop, after, seen || r.2.2⟩ := by
  intro r stop after
  obtain ⟨hscan, hrun, htaken⟩ := hw.run s
  have hlast : r.2.1 ≤ source.length := extent_le s (List.getElem?_eq_some_iff.1 hi).1
  have hsurplus : i + r.1.surplus ≤ r.2.1 :=
    Nat.le_of_lt (surplus_extent source s (i + 1) i (by omega))
  have hbytes : (w.run s).2.matched = slice source i r.2.1 := by
    rw [htaken, hmatched, slice_succ hi (le_extent ..)]
    rfl
  have hback := hrun.giveBack r.1.surplus
  rw [hbytes, drop_slice hsurplus hlast] at hback
  have hkept : ((w.run s).2.giveBack r.1.surplus).matched = slice source i stop := by
    rw [Window.matched_giveBack, hbytes, take_slice hsurplus hlast]
  simp only [finish, hscan]
  rw [show (extent source s (i + 1)).1 = r.1 from rfl, hkept]
  exact ⟨rfl, hback, rfl⟩

theorem Follows.nextMatch {l : Lexer} {w : WholeLexer} (h : l.Follows w) :
    l.nextMatch.1 = w.nextMatch.1 ∧ l.nextMatch.2.Follows w.nextMatch.2 := by
  have hw := h.shows_rest.mark
  unfold Lexer.nextMatch WholeLexer.nextMatch
  cases hi : w.source[w.position]? with
  | none =>
    have hover := List.drop_eq_nil_of_le (List.getElem?_eq_none_iff.1 hi)
    obtain ⟨hnone, hshows, -⟩ := (hover ▸ hw).take?_nil fun b => some (Scan.start b)
    split
    · rename_i w' htake
      rw [htake] at hshows
      exact ⟨rfl, hover ▸ hshows, h.place⟩
    · rename_i s w' htake
      simp [htake] at hnone
  | some b =>
    obtain ⟨hlt, rfl⟩ := List.getElem?_eq_some_iff.1 hi
    obtain ⟨hfst, hshows, hmatched⟩ :=
      (List.drop_eq_getElem_cons hlt ▸ hw).take?_cons fun b => some (Scan.start b)
    split
    · rename_i w' htake
      simp [htake] at hfst
    · rename_i s w' htake
      rw [htake] at hfst hshows hmatched
      rw [Window.matched_mark, List.nil_append] at hmatched
      obtain rfl := Option.some.inj hfst
      obtain ⟨hmatch, hfollows⟩ :=
        finish_eq l.place hi (Scan.surplus_start _) hshows hmatched
      rw [h.place] at hmatch hfollows ⊢
      exact ⟨congrArg some hmatch, hfollows⟩

theorem next_over {l : Lexer} (h : l.nextMatch.1 = none) :
    l.next = (⟨.eof, .point l.place, [], l.nextMatch.2.window.failure⟩, l.nextMatch.2) := by
  rw [Lexer.next]
  split
  · rename_i l' hmatch
    rw [hmatch]
  · rename_i m l' hmatch
    simp [hmatch] at h

theorem next_match {l : Lexer} {m : Match} (h : l.nextMatch.1 = some m) :
    l.next = match m.scan.token? m.bytes with
      | some t => (⟨t, m.span, m.bytes, l.nextMatch.2.window.failure⟩, l.nextMatch.2)
      | none => l.nextMatch.2.next := by
  rw [Lexer.next]
  split
  · rename_i l' hmatch
    simp [hmatch] at h
  · rename_i m' l' hmatch
    simp only [hmatch, Option.some.injEq] at h ⊢
    subst h
    cases m'.scan.token? m'.bytes <;> rfl

/-- One call: both give the same lexeme and stand at the same place after it. -/
theorem Follows.next {l : Lexer} {w : WholeLexer} (h : l.Follows w) :
    l.next.1 = w.next.1 ∧ l.next.2.Follows w.next.2 := by
  fun_induction WholeLexer.next w generalizing l with
  | case1 w w' hmatch =>
    obtain ⟨hnone, hfollows⟩ := h.nextMatch
    rw [hmatch] at hnone hfollows
    rw [next_over hnone, h.place, hfollows.failure]
    exact ⟨rfl, hfollows⟩
  | case2 w m w' hmatch t ht =>
    obtain ⟨hsome, hfollows⟩ := h.nextMatch
    rw [hmatch] at hsome hfollows
    rw [next_match hsome, ht, hfollows.failure]
    exact ⟨rfl, hfollows⟩
  | case3 w m w' hmatch ht ih =>
    obtain ⟨hsome, hfollows⟩ := h.nextMatch
    rw [hmatch] at hsome hfollows
    rw [next_match hsome, ht]
    exact ih hfollows

def called (l : Lexer) : Nat → Lexer
  | 0 => l
  | n + 1 => (l.called n).next.2

end Lexer

namespace WholeLexer

def called (l : WholeLexer) : Nat → WholeLexer
  | 0 => l
  | n + 1 => (l.called n).next.2

end WholeLexer

namespace Scan

/-- What is complete by itself is an operator or a mark. -/
def IsText : Scan → Prop
  | single t => (∃ o, t = .op o) ∨ ∃ m, t = .mark m
  | _ => True

theorem isText_start (b : UInt8) : (start b).IsText := by
  unfold start
  split
  · rename_i t ht
    unfold alone? at ht
    split at ht <;> cases ht <;> simp [IsText]
  · (repeat' split) <;> simp [IsText]

theorem isText_step {s next : Scan} {b : UInt8} (h : s.step b = some next) : next.IsText := by
  cases s with
  | number phase =>
    obtain ⟨p, -, rfl⟩ := Option.map_eq_some_iff.1 h
    trivial
  | stray due =>
    cases due with
    | zero => cases h
    | succ due =>
      simp only [step] at h
      split at h
      · cases h
        trivial
      · cases h
  | _ =>
    simp only [step] at h
    (repeat' split at h) <;> cases h <;> simp [IsText]

theorem isEof_token? {s : Scan} {bytes : List UInt8} {t : Token} (hs : s.IsText)
    (h : s.token? bytes = some t) : ¬ t.isEof := by
  cases s with
  | single t' =>
    cases h
    obtain ⟨o, rfl⟩ | ⟨m, rfl⟩ := hs <;> simp [Token.isEof]
  | word =>
    simp only [token?, Token.reserved?, Option.some.injEq] at h
    subst h
    split
    · simp [Token.isEof]
    · cases BaseType.all.find? (·.text == Utf8.decodeLossy bytes) <;> simp [Token.isEof]
  | number phase =>
    simp only [token?, Option.some.injEq] at h
    subst h
    split
    · unfold wholeNumber
      dsimp only
      split <;> simp [Token.isEof]
    · unfold fractionalNumber
      split <;> simp [Token.isEof]
  | _ => simp_all [token?, Token.isEof] <;> subst h <;> simp

end Scan

namespace WholeLexer

theorem isText_extent {source : List UInt8} {s : Scan} {i : Nat} (hs : s.IsText) :
    (extent source s i).1.IsText := by
  fun_induction extent with
  | case4 s i _ b _ next hnext ih => exact ih (Scan.isText_step hnext)
  | _ => exact hs

/-- Once the end is given, nothing is left and the end has been examined. -/
theorem next_eof {l : WholeLexer} (h : l.next.1.token.isEof) :
    l.next.2.source[l.next.2.position]? = none ∧ l.next.2.endSeen ∧
      l.next.1 = ⟨.eof, .point l.next.2.place, [], l.next.2.failure⟩ := by
  fun_induction next l with
  | case1 l l' hmatch =>
    unfold nextMatch at hmatch
    split at hmatch
    · rename_i hi
      obtain rfl := (Prod.mk.inj hmatch).2
      exact ⟨hi, rfl, rfl⟩
    · simp at hmatch
  | case2 l m l' hmatch t ht =>
    unfold nextMatch at hmatch
    split at hmatch
    · simp at hmatch
    · rename_i b hb
      simp only [Prod.mk.injEq, Option.some.injEq] at hmatch
      rw [← hmatch.1] at ht
      exact absurd h (Scan.isEof_token? (isText_extent (Scan.isText_start b)) ht)
  | case3 l m l' hmatch ht ih => exact ih h

theorem next_over {l : WholeLexer} (h : l.source[l.position]? = none) (hseen : l.endSeen) :
    l.next = (⟨.eof, .point l.place, [], l.failure⟩, l) := by
  have hl : { l with endSeen := true } = l := by rw [← hseen]
  have hmatch : l.nextMatch = (none, l) := by
    unfold nextMatch
    split
    · rw [hl]
    · simp_all
  rw [next]
  split
  · rename_i l' hl'
    rw [hmatch] at hl'
    cases hl'
    rfl
  · rename_i m l' hl'
    simp [hmatch] at hl'

/-- Every call after the end gives the end once more and leaves the lexer as it is. -/
theorem called_eof {l : WholeLexer} {n : Nat} (h : (l.called n).next.1.token.isEof) (k : Nat) :
    l.called (n + 1 + k) = l.called (n + 1) ∧
      (l.called (n + 1 + k)).next = ((l.called n).next.1, l.called (n + 1)) := by
  obtain ⟨hover, hseen, heof⟩ := next_eof h
  have hend : (l.called (n + 1)).next = ((l.called n).next.1, l.called (n + 1)) := by
    rw [heof]
    exact next_over hover hseen
  induction k with
  | zero => exact ⟨rfl, hend⟩
  | succ k ih =>
    have hstays : l.called (n + 1 + (k + 1)) = l.called (n + 1) := congrArg Prod.snd ih.2
    exact ⟨hstays, hstays ▸ hend⟩

end WholeLexer

namespace Lexer

theorem Follows.called {l : Lexer} {w : WholeLexer} (h : l.Follows w) (n : Nat) :
    (l.called n).Follows (w.called n) := by
  induction n with
  | zero => exact h
  | succ n ih => exact ih.next.2

/-- What a feed cuts up and a window of any capacity holds in parts is lexed as the whole source
is. -/
theorem called_follows (feed : Feed) (capacity n : Nat) :
    ((ofFeed feed capacity).called n).Follows
      ((WholeLexer.ofBytes feed.bytes feed.ending).called n) :=
  (follows_ofFeed feed capacity).called n

/-- Call by call, a streaming lexer gives the lexemes of the whole source, stands where the lexer
of the whole source stands, and knows of a failed read from the same call on. When a call has
given the end, so does every later one, at the same place. -/
theorem streaming_eq_whole (feed : Feed) (capacity n : Nat) :
    let streaming := (ofFeed feed capacity).called n
    let whole := (WholeLexer.ofBytes feed.bytes feed.ending).called n
    streaming.next.1 = whole.next.1 ∧
      streaming.next.2.place = whole.next.2.place ∧
      streaming.next.2.window.failure = whole.next.2.failure ∧
      (streaming.next.1.token.isEof → ∀ k,
        ((ofFeed feed capacity).called (n + 1 + k)).next.1 = streaming.next.1 ∧
        ((ofFeed feed capacity).called (n + 1 + k)).place = streaming.next.2.place) := by
  intro streaming whole
  obtain ⟨hlexeme, hfollows⟩ := (called_follows feed capacity n).next
  refine ⟨hlexeme, hfollows.place, hfollows.failure, ?_⟩
  intro heof k
  have hlater := called_follows feed capacity (n + 1 + k)
  rw [hlexeme] at heof
  obtain ⟨hstays, hnext⟩ := WholeLexer.called_eof heof k
  constructor
  · rw [hlater.next.1, hnext, hlexeme]
  · rw [hlater.place, hstays]
    exact hfollows.place.symm

end Lexer

end Quill

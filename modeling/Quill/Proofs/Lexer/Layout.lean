import Mathlib.Data.List.DropRight
import Quill.Proofs.Lexer.Whole
import Quill.Proofs.Text.Characters

/-! # Where lexemes stand

A source that is text falls apart, character by character, into lexemes and what lies between
them: blanks and comments before each lexeme, and after the last one. A lexeme is the bytes of its
characters, its span is from the place before them to the place after them, and it goes on one
line.
-/
namespace Quill
open Utf8 (bytes)

namespace Scan

/-- The bytes at the front of `bs` that a match takes, and its last state. -/
def takes (s : Scan) : List UInt8 → Scan × List UInt8
  | [] => (s, [])
  | b :: bs =>
    match s.step b with
    | none => (s, [])
    | some next => ((next.takes bs).1, b :: (next.takes bs).2)

theorem takes_stop {s : Scan} {b : UInt8} (h : s.step b = none) (bs : List UInt8) :
    s.takes (b :: bs) = (s, []) := by
  simp [takes, h]

theorem takes_step {s next : Scan} {b : UInt8} (h : s.step b = some next) (bs : List UInt8) :
    s.takes (b :: bs) = ((next.takes bs).1, b :: (next.takes bs).2) := by
  simp [takes, h]

theorem takes_isPrefix (s : Scan) (bs : List UInt8) : (s.takes bs).2 <+: bs := by
  induction bs generalizing s with
  | nil => exact List.nil_prefix
  | cons b bs ih =>
    cases h : s.step b with
    | none => simp [takes_stop h]
    | some next =>
      rw [takes_step h]
      exact List.cons_prefix_cons.2 ⟨rfl, ih next⟩

theorem takes_complete {s : Scan} (h : s.isComplete) (bs : List UInt8) : s.takes bs = (s, []) := by
  cases bs with
  | nil => rfl
  | cons b bs =>
    refine takes_stop ?_ bs
    cases s with
    | single t => rfl
    | stray due =>
      cases due with
      | zero => rfl
      | succ due => cases h
    | _ => cases h

def IsNarrow : Scan → Prop
  | comment | stray _ => False
  | _ => True

def IsInline : Scan → Prop
  | blank | comment => False
  | _ => True

instance : DecidablePred IsNarrow
  | comment | stray _ => isFalse id
  | single _ | assign | less | greater | blank | word | number _ => isTrue trivial

instance : DecidablePred IsInline
  | blank | comment => isFalse id
  | single _ | assign | less | greater | word | number _ | stray _ => isTrue trivial

theorem isInline_iff (s : Scan) (bs : List UInt8) : s.IsInline ↔ (s.token? bs).isSome := by
  cases s <;> simp [IsInline, token?]

theorem digit_narrow : ∀ b : UInt8, Decimal.isDigit b → b.toNat < 128 ∧ b ≠ 10 ∧ b ≠ 13 := by
  decide +kernel

theorem namePart_narrow : ∀ b : UInt8, isNamePart b → b.toNat < 128 ∧ b ≠ 10 ∧ b ≠ 13 := by
  decide +kernel

theorem blank_narrow : ∀ b : UInt8, isBlank b → b.toNat < 128 := by
  decide +kernel

theorem continuation_inline : ∀ b : UInt8, Utf8.isContinuation b → b ≠ 10 ∧ b ≠ 13 := by
  decide +kernel

/-- What a byte has to be for a match to take it. -/
structure Admits (s : Scan) (b : UInt8) : Prop where
  narrow : s.IsNarrow → b.toNat < 128
  inline : s.IsInline → b ≠ 10 ∧ b ≠ 13

theorem phase_narrow {phase next : NumberPhase} {b : UInt8} (h : phase.step b = some next) :
    b.toNat < 128 ∧ b ≠ 10 ∧ b ≠ 13 := by
  cases phase <;> simp only [NumberPhase.step] at h <;> (repeat' split at h) <;> cases h <;>
    first
    | exact digit_narrow b ‹_›
    | (rcases ‹_ ∨ _› with rfl | rfl <;> decide)
    | (subst b; decide)

theorem step_kind {s next : Scan} {b : UInt8} (h : s.step b = some next) :
    s.Admits b ∧ (next.IsNarrow ↔ s.IsNarrow) ∧ (next.IsInline ↔ s.IsInline) := by
  cases s with
  | number phase =>
    obtain ⟨p, hp, rfl⟩ := Option.map_eq_some_iff.1 h
    obtain ⟨hnarrow, hinline⟩ := phase_narrow hp
    exact ⟨⟨fun _ => hnarrow, fun _ => hinline⟩, Iff.rfl, Iff.rfl⟩
  | stray due =>
    cases due with
    | zero => cases h
    | succ due =>
      simp only [step] at h
      split at h
      · cases h
        exact ⟨⟨fun hs => hs.elim, fun _ => continuation_inline b ‹_›⟩, Iff.rfl, Iff.rfl⟩
      · cases h
  | word =>
    simp only [step] at h
    split at h
    · cases h
      obtain ⟨hnarrow, hinline⟩ := namePart_narrow b ‹_›
      exact ⟨⟨fun _ => hnarrow, fun _ => hinline⟩, Iff.rfl, Iff.rfl⟩
    · cases h
  | blank =>
    simp only [step] at h
    split at h
    · cases h
      exact ⟨⟨fun _ => blank_narrow b ‹_›, fun hs => hs.elim⟩, Iff.rfl, Iff.rfl⟩
    · cases h
  | comment =>
    simp only [step] at h
    split at h
    · cases h
    · cases h
      exact ⟨⟨fun hs => hs.elim, fun hs => hs.elim⟩, Iff.rfl, Iff.rfl⟩
  | _ =>
    simp only [step] at h
    (repeat' split at h) <;> cases h <;> subst b <;>
      exact ⟨⟨fun _ => by decide, fun _ => by decide⟩, Iff.rfl, Iff.rfl⟩

theorem start_kind (b : UInt8) : (start b).Admits b where
  narrow := by
    revert b
    decide +kernel
  inline := by
    revert b
    decide +kernel

theorem start_stray {b : UInt8} {due : Nat} (h : start b = stray due) :
    due = continuations b := by
  unfold start at h
  split at h
  · cases h
  · (repeat' split at h) <;> cases h
    rfl

theorem takes_kind (s : Scan) (bs : List UInt8) :
    (∀ b ∈ (s.takes bs).2, s.Admits b) ∧ ((s.takes bs).1.IsInline ↔ s.IsInline) := by
  induction bs generalizing s with
  | nil => exact ⟨List.forall_mem_nil _, Iff.rfl⟩
  | cons b bs ih =>
    cases h : s.step b with
    | none =>
      rw [takes_stop h]
      exact ⟨List.forall_mem_nil _, Iff.rfl⟩
    | some next =>
      obtain ⟨hb, hnarrow, hinline⟩ := step_kind h
      obtain ⟨hmore, hlast⟩ := ih next
      rw [takes_step h]
      refine ⟨List.forall_mem_cons.2 ⟨hb, fun x hx => ?_⟩, hlast.trans hinline⟩
      exact ⟨fun hs => (hmore x hx).narrow (hnarrow.2 hs),
        fun hs => (hmore x hx).inline (hinline.2 hs)⟩

theorem surplus_takes (s : Scan) (bs : List UInt8) {n : Nat} (h : s.surplus < n) :
    (s.takes bs).1.surplus < n + (s.takes bs).2.length := by
  induction bs generalizing s n with
  | nil => exact h
  | cons b bs ih =>
    cases hb : s.step b with
    | none =>
      rw [takes_stop hb]
      exact h
    | some next =>
      have hnext := surplus_step hb
      have hrest := @ih next (n + 1) (by omega)
      rw [takes_step hb, List.length_cons]
      dsimp only
      omega

theorem takes_comment (bs : List UInt8) :
    comment.takes bs = (comment, bs.takeWhile (· ≠ 10)) := by
  induction bs with
  | nil => rfl
  | cons b bs ih =>
    by_cases hb : b = 10
    · simp [takes_stop, step, hb]
    · have hstep : comment.step b = some comment := by simp [step, hb]
      rw [takes_step hstep, ih]
      simp [hb]

theorem takes_stray {tail : List UInt8} (h : ∀ x ∈ tail, Utf8.isContinuation x)
    (rest : List UInt8) : (stray tail.length).takes (tail ++ rest) = (stray 0, tail) := by
  induction tail with
  | nil => cases rest <;> rfl
  | cons x tail ih =>
    obtain ⟨hx, htail⟩ := List.forall_mem_cons.1 h
    have hstep : (stray (tail.length + 1)).step x = some (stray tail.length) := by simp [step, hx]
    rw [List.cons_append, List.length_cons, takes_step hstep, ih htail]

/-- What a match that begins with `b` keeps of the bytes `b :: bs`. -/
def kept (b : UInt8) (bs : List UInt8) : List UInt8 :=
  (b :: ((start b).takes bs).2).rdrop ((start b).takes bs).1.surplus

theorem kept_ne_nil (b : UInt8) (bs : List UInt8) : kept b bs ≠ [] := by
  have h := surplus_takes (start b) bs (surplus_start b ▸ Nat.zero_lt_one)
  rw [← List.length_pos_iff, kept, List.rdrop, List.length_take, List.length_cons]
  omega

theorem kept_isPrefix (b : UInt8) (bs : List UInt8) : kept b bs <+: b :: bs :=
  (List.take_prefix _ _).trans (List.cons_prefix_cons.2 ⟨rfl, takes_isPrefix _ _⟩)

theorem admits_kept {b x : UInt8} {bs : List UInt8} (h : x ∈ kept b bs) :
    (start b).Admits x := by
  rcases List.mem_cons.1 (List.mem_of_mem_take h) with rfl | hx
  · exact start_kind x
  · exact (takes_kind (start b) bs).1 x hx

theorem resumes_kept {c : Char} {cs : List Char} {b : UInt8} {bs rest : List UInt8}
    (h : bytes (c :: cs) = b :: bs) (hrest : b :: bs = kept b bs ++ rest) :
    Utf8.Resumes rest := by
  by_cases hs : (start b).IsNarrow
  · -- The last byte kept is a character of its own.
    obtain ⟨front, last, hlast⟩ := (List.eq_nil_or_concat' _).resolve_left (kept_ne_nil b bs)
    have hmem : last ∈ kept b bs := by simp [hlast]
    rw [hrest, hlast, List.append_assoc] at h
    exact Utf8.resumes_after h ((admits_kept hmem).narrow hs)
  · cases hstart : start b with
    | comment =>
      -- Its last byte may be anything, but the byte behind it is a newline.
      have hkept : kept b bs = b :: bs.takeWhile (· ≠ 10) := by
        simp [kept, hstart, takes_comment, surplus]
      rw [hkept, List.cons_append, List.cons.injEq] at hrest
      have hdrop : rest = bs.dropWhile (· ≠ 10) :=
        List.append_cancel_left (hrest.2.symm.trans List.takeWhile_append_dropWhile.symm)
      intro x hx
      have hnewline := List.head?_dropWhile_not (· ≠ 10) bs
      rw [← hdrop, Option.mem_def.1 hx] at hnewline
      have hten : x = 10 := by simpa using hnewline
      rw [hten]
      decide
    | stray due =>
      obtain ⟨b', tail, hc⟩ := Utf8.exists_encoded c
      rw [Utf8.bytes_cons, hc.eq, List.cons_append] at h
      obtain ⟨rfl, rfl⟩ := List.cons.inj h
      obtain rfl := (start_stray hstart).trans hc.length
      have hkept : kept b' (tail ++ bytes cs) = b' :: tail := by
        simp [kept, hstart, takes_stray hc.more, surplus]
      rw [hkept, List.cons_append, List.cons.injEq] at hrest
      rw [← List.append_cancel_left hrest.2]
      exact Utf8.resumes_bytes cs
    | _ => simp [hstart, IsNarrow] at hs

/-- A match in a text keeps whole characters, at least one, and no line break unless it is passed
over. -/
theorem kept_chars {c : Char} {cs : List Char} {b : UInt8} {bs : List UInt8}
    (h : bytes (c :: cs) = b :: bs) :
    ∃ text rest, c :: cs = text ++ rest ∧ kept b bs = bytes text ∧ text ≠ [] ∧
      ((start b).IsInline → '\n' ∉ text ∧ '\r' ∉ text) := by
  obtain ⟨rest, hrest⟩ := kept_isPrefix b bs
  obtain ⟨text, more, hsplit, htext, -⟩ :=
    Utf8.bytes_cut (h.trans hrest.symm) (resumes_kept h hrest.symm)
  refine ⟨text, more, hsplit, htext, ?_, ?_⟩
  · rintro rfl
    exact kept_ne_nil b bs htext
  · intro hs
    constructor
    · intro hmem
      have hten : (10 : UInt8) ∈ kept b bs := htext ▸ Utf8.mem_bytes_of_mem hmem (by decide)
      exact absurd rfl ((admits_kept hten).inline hs).1
    · intro hmem
      have hthirteen : (13 : UInt8) ∈ kept b bs := htext ▸ Utf8.mem_bytes_of_mem hmem (by decide)
      exact absurd rfl ((admits_kept hthirteen).inline hs).2

end Scan

namespace WholeLexer

theorem slice_self (source : List UInt8) (i : Nat) : slice source i i = [] := by
  simp [slice]

/-- A match over a whole source takes what it takes of the bytes left. -/
theorem extent_takes (source : List UInt8) (s : Scan) (i : Nat) :
    (extent source s i).1 = (s.takes (source.drop i)).1 ∧
      slice source i (extent source s i).2.1 = (s.takes (source.drop i)).2 := by
  fun_induction extent with
  | case1 s i hs =>
    rw [Scan.takes_complete hs, slice_self]
    exact ⟨rfl, rfl⟩
  | case2 s i _ hi =>
    rw [List.drop_eq_nil_of_le (List.getElem?_eq_none_iff.1 hi), slice_self]
    exact ⟨rfl, rfl⟩
  | case3 s i _ b hi hb =>
    obtain ⟨hlt, rfl⟩ := List.getElem?_eq_some_iff.1 hi
    rw [List.drop_eq_getElem_cons hlt, Scan.takes_stop hb, slice_self]
    exact ⟨rfl, rfl⟩
  | case4 s i _ b hi next hb ih =>
    obtain ⟨hlt, rfl⟩ := List.getElem?_eq_some_iff.1 hi
    rw [List.drop_eq_getElem_cons hlt, Scan.takes_step hb, slice_succ hi (le_extent ..)]
    exact ⟨ih.1, congrArg _ ih.2⟩

theorem slice_kept {source : List UInt8} {i : Nat} {b : UInt8} (hi : source[i]? = some b) :
    let r := extent source (Scan.start b) (i + 1)
    slice source i (r.2.1 - r.1.surplus) = Scan.kept b (source.drop (i + 1)) ∧
      i ≤ r.2.1 - r.1.surplus ∧ r.2.1 - r.1.surplus ≤ source.length := by
  intro r
  obtain ⟨hscan, htaken⟩ := extent_takes source (Scan.start b) (i + 1)
  have hlast : r.2.1 ≤ source.length := extent_le _ (List.getElem?_eq_some_iff.1 hi).1
  have hsurplus : i + r.1.surplus < r.2.1 :=
    surplus_extent source (Scan.start b) (i + 1) i (by rw [Scan.surplus_start]; omega)
  refine ⟨?_, by omega, by omega⟩
  rw [Scan.kept, ← htaken, ← hscan, ← slice_succ hi (le_extent ..), List.rdrop,
    take_slice (Nat.le_of_lt hsurplus) hlast]

/-- The lexer has the characters `pre` behind it and `rest` before it. -/
structure At (l : WholeLexer) (pre rest : List Char) : Prop where
  source : l.source = bytes pre ++ bytes rest
  position : l.position = (bytes pre).length
  place : l.place = .past pre

variable {l : WholeLexer} {pre rest : List Char}

theorem At.drop_position (h : l.At pre rest) : l.source.drop l.position = bytes rest := by
  rw [h.source, h.position, List.drop_left]

theorem at_ofBytes (cs : List Char) (ending : Ending) : (ofBytes (bytes cs) ending).At [] cs :=
  ⟨rfl, rfl, rfl⟩

theorem At.nextMatch_nil (h : l.At pre []) :
    l.nextMatch.1 = none ∧ l.nextMatch.2.At pre [] := by
  have hover : l.source[l.position]? = none := by
    rw [← List.head?_drop, h.drop_position]
    rfl
  simp only [nextMatch, hover]
  exact ⟨trivial, h.source, h.position, h.place⟩

theorem At.nextMatch_cons {c : Char} {cs : List Char} (h : l.At pre (c :: cs)) :
    ∃ m text more, l.nextMatch.1 = some m ∧ c :: cs = text ++ more ∧ text ≠ [] ∧
      m.bytes = bytes text ∧ m.span = ⟨.past pre, .past (pre ++ text)⟩ ∧
      (∀ t, m.scan.token? m.bytes = some t → ¬ t.isEof ∧ '\n' ∉ text ∧ '\r' ∉ text) ∧
      l.nextMatch.2.At (pre ++ text) more := by
  obtain ⟨b, tail, hc⟩ := Utf8.exists_encoded c
  have hbytes : bytes (c :: cs) = b :: (tail ++ bytes cs) := by
    rw [Utf8.bytes_cons, hc.eq, List.cons_append]
  obtain ⟨text, more, hsplit, htext, hne, hinline⟩ := Scan.kept_chars hbytes
  have hdrop := h.drop_position
  rw [hbytes] at hdrop
  have hi : l.source[l.position]? = some b := by
    rw [← List.head?_drop, hdrop]
    rfl
  have hrest : l.source.drop (l.position + 1) = tail ++ bytes cs := by
    rw [← List.drop_drop, hdrop]
    rfl
  obtain ⟨hslice, hfirst, hlast⟩ := slice_kept hi
  rw [hrest, htext] at hslice
  have htoken : ∀ t,
      (extent l.source (Scan.start b) (l.position + 1)).1.token? (bytes text) = some t →
      ¬ t.isEof ∧ '\n' ∉ text ∧ '\r' ∉ text := by
    intro t ht
    refine ⟨Scan.isEof_token? (isText_extent (Scan.isText_start b)) ht, hinline ?_⟩
    rw [← (Scan.takes_kind (Scan.start b) (l.source.drop (l.position + 1))).2,
      ← (extent_takes ..).1, Scan.isInline_iff _ (bytes text), ht]
    rfl
  have hafter : l.place.after (bytes text) = .past (pre ++ text) := by
    simp [h.place, Location.past]
  simp only [nextMatch, hi, hslice, hafter]
  refine ⟨_, text, more, rfl, hsplit, hne, rfl, by rw [h.place], htoken, ?_, ?_, rfl⟩
  · rw [h.source, hsplit]
    simp
  · have hlength := congrArg List.length hslice
    rw [length_slice hlast] at hlength
    have := h.position
    simp only [Utf8.bytes_append, List.length_append]
    omega

/-- What the next lexeme is when `pre` is behind the lexer and `rest` before it: the end, or the
characters `text` after a gap. -/
inductive Finds (pre rest : List Char) (x : Lexeme) (l' : WholeLexer) : Prop
  | ended (eof : x.token.isEof) (span : x.span = .point (.past (pre ++ rest)))
      (left : l'.At (pre ++ rest) [])
  | found (gap text more : List Char) (split : rest = gap ++ (text ++ more)) (nonempty : text ≠ [])
      (bytes : x.bytes = bytes text)
      (span : x.span = ⟨.past (pre ++ gap), .past (pre ++ gap ++ text)⟩)
      (inline : '\n' ∉ text ∧ '\r' ∉ text) (eof : ¬ x.token.isEof)
      (left : l'.At (pre ++ gap ++ text) more)

theorem At.next (h : l.At pre rest) : Finds pre rest l.next.1 l.next.2 := by
  fun_induction WholeLexer.next l generalizing pre rest with
  | case1 l l' hmatch =>
    cases rest with
    | nil =>
      obtain ⟨-, hleft⟩ := h.nextMatch_nil
      rw [hmatch] at hleft
      exact .ended rfl (by simp [h.place]) (by simpa using hleft)
    | cons c cs =>
      obtain ⟨m, text, more, hm, -⟩ := h.nextMatch_cons
      simp [hmatch] at hm
  | case2 l m l' hmatch t ht =>
    cases rest with
    | nil =>
      have hnone := h.nextMatch_nil.1
      simp [hmatch] at hnone
    | cons c cs =>
      obtain ⟨m', text, more, hm, hsplit, hne, hbytes, hspan, htoken, hleft⟩ := h.nextMatch_cons
      rw [hmatch] at hm hleft
      obtain rfl := Option.some.inj hm
      obtain ⟨heof, hinline⟩ := htoken t ht
      exact .found [] text more hsplit hne hbytes (by simpa using hspan) hinline heof
        (by simpa using hleft)
  | case3 l m l' hmatch ht ih =>
    cases rest with
    | nil =>
      have hnone := h.nextMatch_nil.1
      simp [hmatch] at hnone
    | cons c cs =>
      obtain ⟨m', blank, more, hm, hsplit, -, -, -, -, hleft⟩ := h.nextMatch_cons
      rw [hmatch] at hm hleft
      rw [hsplit]
      -- What is passed over goes to the gap before the lexeme.
      cases ih hleft with
      | ended eof span left => exact .ended eof (by simpa using span) (by simpa using left)
      | found gap text more' split nonempty bytes span inline eof left =>
        exact .found (blank ++ gap) text more' (by simp [split]) nonempty bytes
          (by simpa using span) inline eof (by simpa using left)

end WholeLexer

/-- Lexemes laid out over the characters `rest` of a source of which `pre` is behind them. Behind
the last character only the end is given. -/
inductive Laid : List Char → List Char → List Lexeme → Prop
  | ended {pre rest ls}
      (ends : ∀ l ∈ ls, l.token.isEof ∧ l.span = .point (.past (pre ++ rest))) : Laid pre rest ls
  | lexeme {pre gap text rest l ls} (eof : ¬ l.token.isEof) (nonempty : text ≠ [])
      (bytes : l.bytes = bytes text)
      (span : l.span = ⟨.past (pre ++ gap), .past (pre ++ gap ++ text)⟩)
      (inline : '\n' ∉ text ∧ '\r' ∉ text) (more : Laid (pre ++ gap ++ text) rest ls) :
      Laid pre (gap ++ (text ++ rest)) (l :: ls)

namespace Laid

variable {pre rest : List Char} {l : Lexeme} {xs ys : List Lexeme}

/-- What follows some of the lexemes is laid out over the characters behind them. -/
theorem skip (h : Laid pre rest (xs ++ ys)) :
    ∃ behind more, rest = behind ++ more ∧ Laid (pre ++ behind) more ys := by
  induction xs generalizing pre rest with
  | nil => exact ⟨[], rest, rfl, by simpa using h⟩
  | cons x xs ih =>
    cases h with
    | ended ends =>
      exact ⟨[], rest, rfl, .ended fun l hl => by simpa using ends l (by simp [hl])⟩
    | @lexeme _ gap text rest' _ _ _ _ _ _ _ more =>
      obtain ⟨behind, more', rfl, hys⟩ := ih more
      exact ⟨gap ++ text ++ behind, more', by simp, by simpa using hys⟩

/-- The end of a source is behind its last character, and nothing but the end follows it. -/
theorem eof (h : Laid pre rest (xs ++ l :: ys)) (hl : l.token.isEof) :
    ∀ x ∈ l :: ys, x.span = .point (.past (pre ++ rest)) := by
  obtain ⟨behind, more, rfl, hlaid⟩ := h.skip
  cases hlaid with
  | ended ends =>
    intro x hx
    rw [(ends x hx).2, List.append_assoc]
  | lexeme heof => exact absurd hl heof

end Laid

namespace Lexer

theorem laid_follows {l : Lexer} {w : WholeLexer} {pre rest : List Char} (hf : l.Follows w)
    (h : w.At pre rest) : Laid pre rest l.toList := by
  unfold toList
  dsimp only
  fun_induction lexemes l generalizing w pre rest
  case case1 l r heof =>
    obtain ⟨hr, hfollows⟩ := hf.next
    obtain ⟨hagain, -⟩ := hfollows.next
    have hfinds := h.next
    rw [← hr] at hfinds
    cases hfinds with
    | ended _ span left =>
      have hlast := left.next
      rw [← hagain] at hlast
      cases hlast with
      | ended eof span' _ =>
        refine .ended (List.forall_mem_cons.2 ⟨⟨heof, span⟩, List.forall_mem_singleton.2 ?_⟩)
        exact ⟨eof, by simpa using span'⟩
      | found gap text more split nonempty => simp_all
    | found _ _ _ _ _ _ _ _ notEof _ => exact absurd heof notEof
  case case2 l r heof tail ih =>
    obtain ⟨hr, hfollows⟩ := hf.next
    have hfinds := h.next
    rw [← hr] at hfinds
    cases hfinds with
    | ended eof _ _ => exact absurd eof heof
    | found gap text more split nonempty bytes span inline _ left =>
      rw [split]
      exact .lexeme heof nonempty bytes span inline (ih hfollows left)

theorem laid_toList {feed : Feed} {cs : List Char} (h : feed.bytes = bytes cs) (capacity : Nat) :
    Laid [] cs (ofFeed feed capacity).toList := by
  refine laid_follows (follows_ofFeed feed capacity) ?_
  rw [h]
  exact WholeLexer.at_ofBytes cs feed.ending

end Lexer

end Quill

import Quill.Lexer.Window

/-! # Lexemes

A lexer hands out one lexeme after the other: a token, the bytes it was read from and where they
stand. Blanks and comments are matched in the same way and then passed over. After the end of the
input every lexeme is the end once more.
-/
namespace Quill

/-- One match of the lexical rules, blanks and comments included. -/
structure Match where
  scan : Scan
  bytes : List UInt8
  span : Span
deriving Repr

structure Lexeme where
  token : Token
  span : Span
  bytes : List UInt8
  /-- Why the input ended early, if the lexer knew by the end of this lexeme. -/
  failure : Option String
deriving Repr

/-- A token, the text it was read from and its place. -/
def Lexeme.record (l : Lexeme) : Record :=
  .trace s!"{l.token.text} {Quoted.quote (Utf8.decodeLossy l.bytes)} at {l.span.text}"

structure Lexer where
  window : Window
  /-- Where the next match begins. -/
  place : Location

namespace Lexer

def ofFeed (feed : Feed) (capacity : Nat) : Lexer := ⟨.ofFeed feed capacity, .start⟩

def left (l : Lexer) : List UInt8 := l.window.left

def finish (place : Location) (s : Scan) (w : Window) : Match × Lexer :=
  let r := w.run s
  let w := r.2.giveBack r.1.surplus
  let bytes := w.matched
  let after := place.after bytes
  (⟨r.1, bytes, ⟨place, after⟩⟩, ⟨w, after⟩)

def nextMatch (l : Lexer) : Option Match × Lexer :=
  match l.window.mark.take? (fun b => some (Scan.start b)) with
  | (none, w) => (none, { l with window := w })
  | (some s, w) =>
    let r := finish l.place s w
    (some r.1, r.2)

theorem left_nextMatch {l l' : Lexer} {m : Match} (h : l.nextMatch = (some m, l')) :
    l.left = m.bytes ++ l'.left ∧ m.bytes ≠ [] := by
  unfold nextMatch at h
  split at h
  · simp at h
  · rename_i s w hw
    simp only [Prod.mk.injEq, Option.some.injEq] at h
    obtain ⟨rfl, rfl⟩ := h
    have hheld : w.held = l.left := by
      have := Window.held_take? l.window.mark (fun b => some (Scan.start b))
      rwa [hw, Window.held_mark] at this
    obtain ⟨b, _, hb, hmatched⟩ := Window.take?_some hw
    have hs : s.surplus < w.matched.length := by
      rw [← Option.some.inj hb, Scan.surplus_start, hmatched, Window.matched_mark]
      exact Nat.succ_pos _
    have hrun := Window.surplus_run s w hs
    constructor
    · have := Window.held_giveBack (w.run s).2 (w.run s).1.surplus
      rw [Window.held_run, hheld] at this
      exact this.symm
    · have hkept := Window.matched_giveBack (w.run s).2 (w.run s).1.surplus
      simp only [finish, hkept, ne_eq, List.take_eq_nil_iff]
      rintro (hzero | hnil)
      · omega
      · rw [hnil] at hrun
        cases hrun

theorem length_nextMatch {l l' : Lexer} {m : Match} (h : l.nextMatch = (some m, l')) :
    l'.left.length < l.left.length := by
  obtain ⟨hl, hne⟩ := left_nextMatch h
  have := List.length_pos_iff.2 hne
  rw [hl, List.length_append]
  omega

def next (l : Lexer) : Lexeme × Lexer :=
  match _h : l.nextMatch with
  | (none, l') => (⟨.eof, .point l.place, [], l'.window.failure⟩, l')
  | (some m, l') =>
    match m.scan.token? m.bytes with
    | some t => (⟨t, m.span, m.bytes, l'.window.failure⟩, l')
    | none => l'.next
termination_by l.left.length
decreasing_by exact length_nextMatch _h

theorem length_next {l : Lexer} (h : ¬ l.next.1.token.isEof) :
    l.next.2.left.length < l.left.length := by
  fun_induction next with
  | case1 => exact absurd rfl h
  | case2 l m l' hm => exact length_nextMatch hm
  | case3 l m l' hm _ ih => exact Nat.lt_trans (ih h) (length_nextMatch hm)

/-- All lexemes up to the first end of the input, and the lexer after them. -/
def lexemes (l : Lexer) : List Lexeme × Lexer :=
  let r := l.next
  if _h : r.1.token.isEof then ([r.1], r.2)
  else
    let rest := r.2.lexemes
    (r.1 :: rest.1, rest.2)
termination_by l.left.length
decreasing_by exact length_next _h

/-- All lexemes. The end comes twice: who passes it looks at it once more. -/
def toList (l : Lexer) : List Lexeme :=
  let r := l.lexemes
  r.1 ++ [r.2.next.1]

end Lexer

end Quill

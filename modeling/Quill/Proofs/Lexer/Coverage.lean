import Mathlib.Data.List.DropRight
import Quill.Proofs.Lexer.Whole

/-! # What the matches of a lexer cover

Blanks and comments are matched like everything else and only then passed over, so the matches of a
lexer cut its source up: none is empty, and together they are all of it, also where the source is no
text. A match stands where the bytes before it end, and a lexer is always at the place where the
bytes it has taken end.
-/
namespace Quill

namespace Location

theorem not_before_iff {a b : Location} :
    ¬ a.before b ↔ b.line < a.line ∨ (b.line = a.line ∧ b.column ≤ a.column) := by
  simp only [before, Bool.or_eq_true, Bool.and_eq_true, decide_eq_true_eq, beq_iff_eq]
  omega

theorem not_before_trans {a b c : Location} (hab : ¬ b.before a) (hbc : ¬ c.before b) :
    ¬ c.before a := by
  rw [not_before_iff] at *
  omega

theorem not_before_step (l : Location) (b : UInt8) : ¬ (l.step b).before l := by
  rw [not_before_iff]
  unfold step
  split_ifs <;> simp

theorem not_before_after (l : Location) (bytes : List UInt8) : ¬ (l.after bytes).before l := by
  induction bytes generalizing l with
  | nil => exact not_before_iff.2 (.inr ⟨rfl, Nat.le_refl _⟩)
  | cons b bytes ih => exact not_before_trans (not_before_step l b) (ih (l.step b))

end Location

theorem Token.isEof_iff {t : Token} : t.isEof ↔ t = .eof := by
  cases t <;> simp [isEof]

/-- The token that a match stands for, with its place and its bytes. -/
def Match.reading? (m : Match) : Option (Token × Span × List UInt8) :=
  (m.scan.token? m.bytes).map fun t => (t, m.span, m.bytes)

def Lexeme.reading (x : Lexeme) : Token × Span × List UInt8 := (x.token, x.span, x.bytes)

namespace Lexer

variable {l l' l'' : Lexer} {w : WholeLexer} {m : Match} {xs ys : List Match}

/-! ### All matches of a lexer -/

/-- The matches up to the end of the source, blanks and comments included. -/
def allMatches (l : Lexer) : List Match :=
  match _h : l.nextMatch with
  | (none, _) => []
  | (some m, l') => m :: l'.allMatches
termination_by l.left.length
decreasing_by exact length_nextMatch _h

theorem allMatches_none (h : l.nextMatch = (none, l')) : l.allMatches = [] := by
  rw [allMatches]
  split
  · rfl
  · simp_all

theorem allMatches_some (h : l.nextMatch = (some m, l')) : l.allMatches = m :: l'.allMatches := by
  rw [allMatches]
  split
  · simp_all
  · simp_all

theorem allMatches_of_left_nil (h : l.left = []) : l.allMatches = [] := by
  rcases hmatch : l.nextMatch with ⟨_ | m, l'⟩
  · exact allMatches_none hmatch
  · obtain ⟨hleft, hne⟩ := left_nextMatch hmatch
    rw [h] at hleft
    exact absurd (List.append_eq_nil_iff.1 hleft.symm).1 hne

/-- A match begins where the lexer is and takes it to where its bytes end. -/
theorem place_nextMatch (h : l.nextMatch = (some m, l')) :
    m.span = ⟨l.place, l'.place⟩ ∧ l'.place = l.place.after m.bytes := by
  unfold nextMatch at h
  split at h
  · simp at h
  · simp only [Prod.mk.injEq, Option.some.injEq] at h
    obtain ⟨rfl, rfl⟩ := h
    exact ⟨rfl, rfl⟩

/-- A lexer that finds no match has nothing left, and stays where it is. -/
theorem Follows.spent (hf : l.Follows w) (h : l.nextMatch = (none, l')) :
    l.left = [] ∧ l'.left = [] ∧ l'.place = l.place := by
  obtain ⟨hsame, hfollows⟩ := hf.nextMatch
  rw [h] at hsame hfollows
  unfold WholeLexer.nextMatch at hsame hfollows
  cases hi : w.source[w.position]? with
  | some b => simp [hi] at hsame
  | none =>
    rw [hi] at hfollows
    have hspent := List.drop_eq_nil_of_le (List.getElem?_eq_none_iff.1 hi)
    refine ⟨hf.shows_rest.left.trans hspent, hfollows.shows_rest.left.trans hspent, ?_⟩
    rw [hf.place, hfollows.place]

theorem Follows.token_ne_eof (hf : l.Follows w) (h : l.nextMatch = (some m, l')) {t : Token}
    (ht : m.scan.token? m.bytes = some t) : t ≠ .eof := by
  obtain ⟨hsame, -⟩ := hf.nextMatch
  rw [h] at hsame
  unfold WholeLexer.nextMatch at hsame
  cases hi : w.source[w.position]? with
  | none => simp [hi] at hsame
  | some b =>
    simp only [hi, Option.some.injEq] at hsame
    rw [hsame] at ht
    exact fun heof => Scan.isEof_token? (WholeLexer.isText_extent (Scan.isText_start b)) ht
      (Token.isEof_iff.2 heof)

/-! ### Passing over matches -/

structure Passes (l : Lexer) (ms : List Match) (l' : Lexer) : Prop where
  matched : l.allMatches = ms ++ l'.allMatches
  left : l.left = ms.flatMap Match.bytes ++ l'.left
  place : l'.place = l.place.after (ms.flatMap Match.bytes)

theorem Passes.refl (l : Lexer) : l.Passes [] l := ⟨rfl, rfl, rfl⟩

theorem Passes.trans (h : l.Passes xs l') (h' : l'.Passes ys l'') : l.Passes (xs ++ ys) l'' where
  matched := by rw [h.matched, h'.matched, List.append_assoc]
  left := by rw [h.left, h'.left, List.flatMap_append, List.append_assoc]
  place := by rw [h'.place, h.place, List.flatMap_append, Location.after_append]

theorem passes_one (h : l.nextMatch = (some m, l')) : l.Passes [m] l' where
  matched := allMatches_some h
  left := by simpa using (left_nextMatch h).1
  place := by simpa using (place_nextMatch h).2

theorem called_succ (l : Lexer) (n : Nat) : l.called (n + 1) = l.next.2.called n := by
  induction n with
  | zero => rfl
  | succ n ih => exact congrArg (fun l' : Lexer => l'.next.2) ih

/-- What a call finds: the end behind blanks and comments, or the first match that stands for a
token. -/
inductive Finds (l : Lexer) (x : Lexeme) (l' : Lexer) : Prop
  | ended (gap : List Match) (silent : gap.filterMap Match.reading? = []) (passes : l.Passes gap l')
      (spent : l'.left = []) (eof : x.reading = (.eof, .point l'.place, []))
  | found (gap : List Match) (m : Match) (silent : gap.filterMap Match.reading? = [])
      (passes : l.Passes (gap ++ [m]) l') (reads : m.reading? = some x.reading)
      (eof : x.token ≠ .eof) (span : x.span = ⟨l.place.after (gap.flatMap Match.bytes), l'.place⟩)

theorem Finds.passes (h : Finds l x l') : ∃ ms, l.Passes ms l' := by
  cases h with
  | ended gap _ passes => exact ⟨gap, passes⟩
  | found gap m _ passes => exact ⟨gap ++ [m], passes⟩

theorem Finds.behind (hp : l.Passes [m] l') (hm : m.reading? = none) (h : Finds l' x l'') :
    Finds l x l'' := by
  cases h with
  | ended gap silent passes spent eof =>
    exact .ended (m :: gap) (by simp [hm, silent]) (hp.trans passes) spent eof
  | found gap m' silent passes reads eof span =>
    refine .found (m :: gap) m' (by simp [hm, silent]) (hp.trans passes) reads eof ?_
    rw [span, hp.place]
    simp

theorem Follows.finds (hf : l.Follows w) : Finds l l.next.1 l.next.2 := by
  fun_induction Lexer.next l generalizing w with
  | case1 l l' hmatch =>
    obtain ⟨hleft, hspent, hplace⟩ := hf.spent hmatch
    refine .ended [] rfl ⟨?_, hleft.trans hspent.symm, hplace⟩ hspent ?_
    · rw [allMatches_none hmatch, allMatches_of_left_nil hspent, List.append_nil]
    · rw [hplace]
      rfl
  | case2 l m l' hmatch t ht =>
    refine .found [] m rfl (passes_one hmatch) ?_ (hf.token_ne_eof hmatch ht) ?_
    · simp [Match.reading?, ht, Lexeme.reading]
    · exact (place_nextMatch hmatch).1
  | case3 l m l' hmatch ht ih =>
    obtain ⟨-, hfollows⟩ := hf.nextMatch
    rw [hmatch] at hfollows
    exact (ih hfollows).behind (passes_one hmatch) (by simp [Match.reading?, ht])

/-- No lexeme begins before the lexer's place, none ends before it begins, and none begins before
an earlier one ends. -/
theorem Follows.lexemes_ordered (hf : l.Follows w) :
    (∀ x ∈ l.lexemes.1, ¬ x.span.first.before l.place ∧ ¬ x.span.last.before x.span.first) ∧
      l.lexemes.1.Pairwise fun x y => ¬ y.span.first.before x.span.last := by
  have hplace (gap : List Match) := l.place.not_before_after (gap.flatMap Match.bytes)
  fun_induction lexemes l generalizing w
  case case1 l r h =>
    refine ⟨List.forall_mem_singleton.2 ?_, List.pairwise_singleton ..⟩
    cases hf.finds with
    | ended gap silent passes spent eof =>
      have hspan : r.1.span = .point l.next.2.place := congrArg (·.2.1) eof
      rw [hspan, Span.point, passes.place]
      exact ⟨hplace gap, Location.not_before_after _ []⟩
    | found _ _ _ _ _ eof => exact absurd (Token.isEof_iff.1 h) eof
  case case2 l r h rest ih =>
    obtain ⟨hrest, hpairs⟩ := ih hf.next.2 fun gap => r.2.place.not_before_after _
    cases hf.finds with
    | ended gap silent passes spent eof =>
      exact absurd (Token.isEof_iff.2 (congrArg Prod.fst eof)) h
    | found gap m silent passes reads eof span =>
      have hlast : r.1.span.last = r.2.place := congrArg Span.last span
      have hwide : ¬ r.1.span.last.before r.1.span.first := by
        rw [span, passes.place, List.flatMap_append, Location.after_append]
        exact Location.not_before_after _ _
      have hfirst : ¬ r.1.span.first.before l.place := by
        rw [span]
        exact hplace gap
      have hpast : ¬ r.2.place.before l.place :=
        hlast ▸ Location.not_before_trans hfirst hwide
      refine ⟨List.forall_mem_cons.2 ⟨⟨hfirst, hwide⟩, fun x hx => ?_⟩,
        List.pairwise_cons.2 ⟨fun x hx => ?_, hpairs⟩⟩
      · obtain ⟨hx, hxwide⟩ := hrest x hx
        exact ⟨Location.not_before_trans hpast hx, hxwide⟩
      · rw [hlast]
        exact (hrest x hx).1

end Lexer

end Quill

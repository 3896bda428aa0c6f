import Mathlib
import Quill.Proofs.Text.Decimals
import Quill.Syntax.Outline

/-! # The lines of outlines

What the lines of outlines tell apart from their depth. The text of a line tells all of it, since
names, numbers and spans are single words.
-/
namespace Quill

/-! ### Spans and types -/

namespace Location

theorem toList_text (l : Location) :
    l.text.toList = Nat.toDigits 10 l.line ++ ':' :: Nat.toDigits 10 l.column := by
  simp [text]

theorem isSolid_text (l : Location) : IsSolid l.text.toList := by
  rw [toList_text]
  simp [isSolid_toDigits, isBreak]

theorem not_mem_toDigits {c : Char} (hc : c.isDigit = false) (n : Nat) : c ∉ Nat.toDigits 10 n := by
  intro h
  simp [isDigit_toDigits h] at hc

theorem text_inj {l l' : Location} (h : l.text.toList = l'.text.toList) : l = l' := by
  have hcolon := not_mem_toDigits (c := ':') (by decide)
  rw [toList_text, toList_text] at h
  obtain ⟨hline, hcolumn⟩ := append_cons_inj (hcolon _) (hcolon _) h
  cases l
  cases l'
  rw [mk.injEq]
  exact ⟨toDigits_inj hline, toDigits_inj hcolumn⟩

end Location

namespace Span

theorem toList_text (s : Span) :
    s.text.toList = s.first.text.toList ++ '.' :: '.' :: s.last.text.toList := by
  simp [text]

theorem isSolid_text (s : Span) : IsSolid s.text.toList := by
  rw [toList_text]
  simp [Location.isSolid_text, isBreak]

theorem text_inj {s s' : Span} (h : s.text.toList = s'.text.toList) : s = s' := by
  have hpoint (l : Location) : '.' ∉ l.text.toList := by
    rw [Location.toList_text]
    simp [Location.not_mem_toDigits]
  rw [toList_text, toList_text] at h
  obtain ⟨hfirst, hlast⟩ := append_cons_inj (hpoint _) (hpoint _) h
  cases s
  cases s'
  rw [mk.injEq]
  exact ⟨Location.text_inj hfirst, Location.text_inj (List.cons.inj hlast).2⟩

end Span

theorem Operator.name_inj {o o' : Operator} (h : o.name.toList = o'.name.toList) : o = o' := by
  revert h
  cases o <;> cases o' <;> decide

theorem Operator.isSolid_name (o : Operator) : IsSolid o.name.toList := by
  cases o <;> decide

namespace TypeExpr

theorem text_inj {t t' : TypeExpr} (h : t.text.toList = t'.text.toList) : t = t' := by
  revert h
  obtain ⟨b, p⟩ := t
  obtain ⟨b', p'⟩ := t'
  cases b <;> cases b' <;> cases p <;> cases p' <;> decide

theorem isSolid_text (t : TypeExpr) : IsSolid t.text.toList := by
  obtain ⟨b, p⟩ := t
  cases b <;> cases p <;> decide

end TypeExpr

namespace Outline

/-! ### Labels -/

/-- What stands in a line without anything of the tree. -/
inductive Fixed where
  | assert | abort | expression | print | «do» | «while» | «return» | case | «then» | otherwise
deriving DecidableEq

def Fixed.text : Fixed → String
  | assert => "assert"
  | abort => "abort"
  | expression => "expression"
  | print => "print"
  | «do» => "do"
  | «while» => "while"
  | «return» => "return"
  | case => "case"
  | «then» => "then"
  | otherwise => "otherwise"

/-- What a statement does with the variable that it names. -/
inductive Verb where
  | read | assign | branch
deriving DecidableEq

def Verb.text : Verb → String
  | read => "read"
  | assign => "assign"
  | branch => "branch"

/-- What an expression says apart from its operands and its span. -/
inductive Head where
  | int (n : UInt64)
  | float (x : Float)
  | ident (x : String)
  | binary (op : Operator)
  | call (callee : String)
  | semi (op : Operator)

/-- A line without its depth. -/
inductive Label where
  | fixed (w : Fixed)
  | verb (v : Verb) (x : String)
  | head (h : Head) (s : Span)
  | declare (x : String) (t : TypeExpr) (hasInit : Bool)
  | param (x : String) (t : TypeExpr)
  /-- The entry point has no name. -/
  | routine (name? : Option String) (result : TypeExpr) (isDeclared : Bool)

namespace Label

def title : Option String → String
  | none => "main"
  | some x => s!"function {x}"

def text : Label → String
  | fixed w => w.text
  | verb .read x => s!"read {x}"
  | verb .assign x => s!"assign {x}"
  | verb .branch x => s!"branch {x}"
  | head (.int n) s => s!"int {n.toNat} ({s.text})"
  | head (.float x) s => s!"float {Decimal.Layout.plain.text x} ({s.text})"
  | head (.ident x) s => s!"ident {x} ({s.text})"
  | head (.binary op) s => s!"binary {op.name} ({s.text})"
  | head (.call callee) s => s!"call {callee} ({s.text})"
  | head (.semi op) s => s!"semi {op.name} ({s.text})"
  | declare x t false => s!"var {x}: {t.text}"
  | declare x t true => s!"var {x}: {t.text} (initialized)"
  | param x t => s!"param {x}: {t.text}"
  | routine name? t isDeclared =>
    let declared := if isDeclared then " (declared)" else ""
    s!"{title name?} -> {t.text}{declared}"

/-- Names are written as names, and `P` holds for the doubles. -/
def IsOf (P : Float → Prop) : Label → Prop
  | verb _ x | head (.ident x) _ | head (.call x) _ | declare x _ _ | param x _
  | routine (some x) _ _ => isName x
  | head (.float x) _ => P x
  | fixed _ | head (.int _) _ | head (.binary _) _ | head (.semi _) _ | routine none _ _ => True

end Label

/-! The words of a line -/

def Head.words : Head → List (List Char)
  | .int n => ["int".toList, Nat.toDigits 10 n.toNat]
  | .float x => ["float".toList, (Decimal.Layout.plain.text x).toList]
  | .ident x => ["ident".toList, x.toList]
  | .binary op => ["binary".toList, op.name.toList]
  | .call callee => ["call".toList, callee.toList]
  | .semi op => ["semi".toList, op.name.toList]

theorem Head.length_words (h : Head) : h.words.length = 2 := by
  cases h <;> rfl

namespace Label

def remark (text : String) (isMade : Bool) : List (List Char) :=
  if isMade then [[], text.toList, []] else []

theorem remark_inj {text : String} {b b' : Bool} (h : remark text b = remark text b') : b = b' := by
  cases b <;> cases b' <;> simp [remark] at h ⊢

def titleWords : Option String → List (List Char)
  | none => ["main".toList]
  | some x => ["function".toList, x.toList]

def words : Label → List (List Char)
  | fixed w => [w.text.toList]
  | verb v x => [v.text.toList, x.toList]
  | head h s => h.words ++ [[], s.text.toList, []]
  | declare x t hasInit =>
    ["var".toList, x.toList ++ [':'], t.text.toList] ++ remark "initialized" hasInit
  | param x t => ["param".toList, x.toList ++ [':'], t.text.toList]
  | routine name? t isDeclared =>
    titleWords name? ++ ["->".toList, t.text.toList] ++ remark "declared" isDeclared

variable {P Q : Float → Prop} {l l' : Label}

theorem words_text (h : l.IsOf P) : Quill.words l.text.toList = l.words := by
  have hspan (s : Span) := words_append s.isSolid_text
  have htype (t : TypeExpr) := words_append t.isSolid_text
  have htype' (t : TypeExpr) := t.isSolid_text.words
  have hop (o : Operator) := words_append o.isSolid_name
  have hdigits (n : Nat) := words_append (isSolid_toDigits n)
  have hfloat (x : Float) := words_append (Decimal.isSolid_text .plain x)
  cases l with
  | fixed w => cases w <;> rfl
  | verb v x =>
    have hx := (isSolid_name h).words
    cases v <;> simp [text, words, Verb.text, words_cons, isBreak, hx]
  | head hd s =>
    cases hd with
    | int n => simp [text, words, Head.words, words_cons, isBreak, hspan, hdigits]
    | float x => simp [text, words, Head.words, words_cons, isBreak, hspan, hfloat]
    | binary op => simp [text, words, Head.words, words_cons, isBreak, hspan, hop]
    | semi op => simp [text, words, Head.words, words_cons, isBreak, hspan, hop]
    | ident x =>
      have hx := words_append (isSolid_name h)
      simp [text, words, Head.words, words_cons, isBreak, hspan, hx]
    | call x =>
      have hx := words_append (isSolid_name h)
      simp [text, words, Head.words, words_cons, isBreak, hspan, hx]
  | declare x t hasInit =>
    have hx := words_append (isSolid_name h)
    cases hasInit <;> simp [text, words, words_cons, isBreak, hx, htype, htype', remark]
  | param x t =>
    have hx := words_append (isSolid_name h)
    simp [text, words, words_cons, isBreak, hx, htype']
  | routine name? t isDeclared =>
    cases name? with
    | none =>
      cases isDeclared <;>
        simp [text, title, words, titleWords, words_cons, isBreak, htype, htype', remark]
    | some x =>
      have hx := words_append (isSolid_name h)
      cases isDeclared <;>
        simp [text, title, words, titleWords, words_cons, isBreak, hx, htype, htype', remark]

theorem isSolid_words (h : l.IsOf P) : ∀ w ∈ l.words, IsSolid w := by
  have hspan (s : Span) := s.isSolid_text
  have htype (t : TypeExpr) := t.isSolid_text
  cases l with
  | fixed w => cases w <;> simp [words, Fixed.text] <;> decide
  | verb v x => cases v <;> simp [words, Verb.text, isSolid_name h] <;> decide
  | head hd s =>
    have hname {x : String} (hx : isName x) := isSolid_name hx
    cases hd <;> simp_all [words, Head.words, IsOf, isBreak, isSolid_toDigits,
      Operator.isSolid_name, Decimal.isSolid_text]
  | declare x t hasInit =>
    cases hasInit <;> simp [words, remark, isBreak, isSolid_name h, htype]
  | param x t => simp [words, isBreak, isSolid_name h, htype]
  | routine name? t isDeclared =>
    cases name? with
    | none => cases isDeclared <;> simp [words, titleWords, remark, isBreak, htype]
    | some x =>
      cases isDeclared <;> simp [words, titleWords, remark, isBreak, isSolid_name h, htype]

theorem noLine (h : l.IsOf P) : '\n' ∉ l.text.toList := by
  intro hmem
  obtain ⟨w, hw, hline⟩ := exists_word rfl hmem
  rw [words_text h] at hw
  exact (isSolid_words h w hw).noLine hline

theorem exists_words (l : Label) : ∃ c cs ws, l.words = (c :: cs) :: ws := by
  cases l with
  | fixed w => cases w <;> exact ⟨_, _, _, rfl⟩
  | verb v x => cases v <;> exact ⟨_, _, _, rfl⟩
  | head h s => cases h <;> exact ⟨_, _, _, rfl⟩
  | routine name? t isDeclared => cases name? <;> exact ⟨_, _, _, rfl⟩
  | _ => exact ⟨_, _, _, rfl⟩

theorem exists_text (h : l.IsOf P) : ∃ c cs, l.text.toList = c :: cs ∧ c ≠ ' ' := by
  obtain ⟨c, cs, ws, hwords⟩ := l.exists_words
  rw [← words_text h] at hwords
  cases htext : l.text.toList with
  | nil => simp [htext] at hwords
  | cons d ds =>
    refine ⟨d, ds, rfl, ?_⟩
    rintro rfl
    simp [htext, words_cons, isBreak] at hwords

theorem fixed_inj {w w' : Fixed} (h : w.text.toList = w'.text.toList) : w = w' := by
  revert h
  cases w <;> cases w' <;> decide

theorem verb_inj {v v' : Verb} (h : v.text.toList = v'.text.toList) : v = v' := by
  revert h
  cases v <;> cases v' <;> decide

variable (hfloat : ∀ x y, P x → Q y →
  Decimal.Layout.plain.text x = Decimal.Layout.plain.text y → x = y)

include hfloat

theorem head_inj {h h' : Head} {s s' : Span} (hl : (head h s).IsOf P) (hl' : (head h' s').IsOf Q)
    (heq : h.words = h'.words) : h = h' := by
  cases h <;> cases h' <;> simp [Head.words, String.toList_inj] at heq ⊢
  case int => exact UInt64.toNat_inj.1 (toDigits_inj heq)
  case float => exact hfloat _ _ hl hl' heq
  case ident | call => exact heq
  case binary | semi => exact Operator.name_inj (String.toList_inj.2 heq)

theorem words_inj (hl : l.IsOf P) (hl' : l'.IsOf Q) (h : l.words = l'.words) : l = l' := by
  cases l with
  | fixed w =>
    cases l' with
    | fixed w' => rw [fixed_inj (List.singleton_inj.1 h)]
    | head hd => cases hd <;> simp [words, Head.words] at h
    | routine name? => cases name? <;> simp [words, titleWords] at h
    | _ => simp [words] at h
  | verb v x =>
    cases l' with
    | verb v' x' =>
      simp only [words, List.cons.injEq, and_true, String.toList_inj] at h
      rw [h.2, verb_inj (String.toList_inj.2 h.1)]
    | head hd => cases hd <;> simp [words, Head.words] at h
    | routine name? => cases name? <;> simp [words, titleWords] at h
    | _ => simp [words] at h
  | head hd s =>
    cases l' with
    | head hd' s' =>
      obtain ⟨hhead, hspan⟩ := List.append_inj h (by rw [Head.length_words, Head.length_words])
      simp only [List.cons.injEq, and_true, true_and] at hspan
      rw [head_inj hfloat hl hl' hhead, Span.text_inj hspan]
    | routine name? => cases hd <;> cases name? <;> simp [words, Head.words, titleWords] at h
    | _ => cases hd <;> simp [words, Head.words] at h
  | declare x t hasInit =>
    cases l' with
    | declare x' t' hasInit' =>
      obtain ⟨hline, hremark⟩ := List.append_inj h rfl
      simp only [List.cons.injEq, List.append_cancel_right_eq, and_true, true_and] at hline
      rw [String.toList_inj.1 hline.1, TypeExpr.text_inj hline.2, remark_inj hremark]
    | head hd => cases hd <;> simp [words, Head.words] at h
    | routine name? => cases name? <;> simp [words, titleWords] at h
    | _ => simp [words] at h
  | param x t =>
    cases l' with
    | param x' t' =>
      simp only [words, List.cons.injEq, List.append_cancel_right_eq, and_true, true_and] at h
      rw [String.toList_inj.1 h.1, TypeExpr.text_inj h.2]
    | head hd => cases hd <;> simp [words, Head.words] at h
    | routine name? => cases name? <;> simp [words, titleWords] at h
    | _ => simp [words] at h
  | routine name? t isDeclared =>
    cases l' with
    | routine name?' t' isDeclared' =>
      cases name? <;> cases name?' <;> simp [words, titleWords] at h
      case none.none => rw [TypeExpr.text_inj h.1, remark_inj h.2]
      case some.some x x' =>
        rw [String.toList_inj.1 h.1, TypeExpr.text_inj h.2.1, remark_inj h.2.2]
    | head hd => cases hd <;> cases name? <;> simp [words, titleWords, Head.words] at h
    | _ => cases name? <;> simp [words, titleWords] at h

theorem text_inj (hl : l.IsOf P) (hl' : l'.IsOf Q) (h : l.text.toList = l'.text.toList) :
    l = l' :=
  words_inj hfloat hl hl' (by rw [← words_text hl, ← words_text hl', h])

end Label

end Outline

end Quill

import Mathlib
import Quill.Decimal.Text
import Quill.Proofs.Text.Decoding

/-! # Lines and words

What is needed to read a printed text back: a text of lines is its lines, a line is its words, and
numbers and names are single words that tell what they are.
-/
namespace Quill

/-! ### Lines -/

theorem append_cons_inj {α : Type} {c : α} {xs ys rs ss : List α} (hx : c ∉ xs) (hy : c ∉ ys)
    (h : xs ++ c :: rs = ys ++ c :: ss) : xs = ys ∧ rs = ss := by
  induction xs generalizing ys with
  | nil =>
    cases ys with
    | nil => exact ⟨rfl, List.tail_eq_of_cons_eq h⟩
    | cons y ys => exact absurd (List.cons.inj h).1 fun hc => hy (hc ▸ List.mem_cons_self)
  | cons x xs ih =>
    cases ys with
    | nil => exact absurd (List.cons.inj h).1 fun hc => hx (hc ▸ List.mem_cons_self)
    | cons y ys =>
      obtain ⟨rfl, hrest⟩ := List.cons.inj h
      obtain ⟨rfl, rfl⟩ := ih (fun hc => hx (List.mem_cons_of_mem _ hc))
        (fun hc => hy (List.mem_cons_of_mem _ hc)) hrest
      exact ⟨rfl, rfl⟩

def ofLines (ls : List (List Char)) : List Char := ls.flatMap (· ++ ['\n'])

@[simp] theorem ofLines_nil : ofLines [] = [] := rfl

@[simp] theorem ofLines_cons (l : List Char) (ls : List (List Char)) :
    ofLines (l :: ls) = l ++ '\n' :: ofLines ls := by
  simp [ofLines]

@[simp] theorem ofLines_append (ls ms : List (List Char)) :
    ofLines (ls ++ ms) = ofLines ls ++ ofLines ms := List.flatMap_append

theorem ofLines_inj {ls ms : List (List Char)} (hls : ∀ l ∈ ls, '\n' ∉ l) (hms : ∀ l ∈ ms, '\n' ∉ l)
    (h : ofLines ls = ofLines ms) : ls = ms := by
  induction ls generalizing ms with
  | nil =>
    cases ms with
    | nil => rfl
    | cons m ms => simp at h
  | cons l ls ih =>
    cases ms with
    | nil => simp at h
    | cons m ms =>
      rw [ofLines_cons, ofLines_cons] at h
      obtain ⟨rfl, hrest⟩ :=
        append_cons_inj (hls l List.mem_cons_self) (hms m List.mem_cons_self) h
      rw [ih (fun x hx => hls x (List.mem_cons_of_mem l hx))
        (fun x hx => hms x (List.mem_cons_of_mem l hx)) hrest]

/-- Lines that are in a section, behind a line that begins one, and lines in front of all. -/
def sections (front : List (List Char)) (ss : List (List Char × List (List Char))) :
    List (List Char) :=
  front ++ ss.flatMap fun s => s.1 :: s.2

/-- Sections are told apart if it can be seen from a line whether it begins one. -/
theorem sections_inj (begins : List Char → Prop) {front front' : List (List Char)}
    {ss ts : List (List Char × List (List Char))} (hfront : ∀ l ∈ front, ¬begins l)
    (hfront' : ∀ l ∈ front', ¬begins l)
    (hss : ∀ s ∈ ss, begins s.1 ∧ ∀ l ∈ s.2, ¬begins l)
    (hts : ∀ t ∈ ts, begins t.1 ∧ ∀ l ∈ t.2, ¬begins l)
    (h : sections front ss = sections front' ts) : front = front' ∧ ss = ts := by
  induction ss generalizing front front' ts with
  | nil =>
    cases ts with
    | nil => simpa [sections] using h
    | cons t ts =>
      have hmem : t.1 ∈ sections front [] := by
        rw [h]
        simp [sections]
      exact absurd (hts t List.mem_cons_self).1 (hfront t.1 (by simpa [sections] using hmem))
  | cons s ss ih =>
    obtain ⟨hs, hss⟩ := List.forall_mem_cons.1 hss
    induction front generalizing front' with
    | nil =>
      cases front' with
      | nil =>
        cases ts with
        | nil => simp [sections] at h
        | cons t ts =>
          obtain ⟨ht, hts⟩ := List.forall_mem_cons.1 hts
          obtain ⟨hhead, hrest⟩ := List.cons.inj h
          obtain ⟨hbody, rfl⟩ := ih hs.2 ht.2 hss hts hrest
          exact ⟨rfl, congrArg (· :: ss) (Prod.ext hhead hbody)⟩
      | cons l front' =>
        exact absurd (List.cons.inj h).1 fun heq => hfront' l List.mem_cons_self (heq ▸ hs.1)
    | cons l front ihfront =>
      obtain ⟨hl, hfront⟩ := List.forall_mem_cons.1 hfront
      cases front' with
      | nil =>
        cases ts with
        | nil => simp [sections] at h
        | cons t ts =>
          exact absurd (List.cons.inj h).1 fun heq => hl (heq ▸ (hts t List.mem_cons_self).1)
      | cons l' front' =>
        obtain ⟨rfl, hrest⟩ := List.cons.inj h
        obtain ⟨rfl, rfl⟩ := ihfront hfront (List.forall_mem_cons.1 hfront').2 hrest
        exact ⟨rfl, rfl⟩

/-- Where the images of single elements tell what they are images of, so do lists of them. -/
theorem map_eq_map_of {α β γ δ : Type} {xs : List α} {ys : List β} {a : α → γ} {b : β → γ}
    {c : α → δ} {d : β → δ} (h : xs.map a = ys.map b)
    (hcd : ∀ x ∈ xs, ∀ y ∈ ys, a x = b y → c x = d y) : xs.map c = ys.map d := by
  induction xs generalizing ys with
  | nil => simpa using h
  | cons x xs ih =>
    cases ys with
    | nil => simp at h
    | cons y ys =>
      obtain ⟨hhead, htail⟩ := List.cons.inj h
      exact List.cons_eq_cons.2 ⟨hcd x List.mem_cons_self y List.mem_cons_self hhead,
        ih htail fun x hx y hy => hcd x (List.mem_cons_of_mem _ hx) y (List.mem_cons_of_mem _ hy)⟩

/-! ### Words -/

def isBreak (c : Char) : Bool := c == ' ' || c == ',' || c == '(' || c == ')'

def words (cs : List Char) : List (List Char) := cs.splitOnP isBreak

/-- Neither a word nor a line ends within. -/
def IsSolid (cs : List Char) : Prop := ∀ c ∈ cs, isBreak c = false ∧ c ≠ '\n'

instance (cs : List Char) : Decidable (IsSolid cs) :=
  List.decidableBAll (fun c => isBreak c = false ∧ c ≠ '\n') cs

namespace IsSolid

variable {cs ds : List Char} {c : Char}

@[simp] theorem nil : IsSolid [] := List.forall_mem_nil _

@[simp] theorem cons_iff : IsSolid (c :: cs) ↔ (isBreak c = false ∧ c ≠ '\n') ∧ IsSolid cs :=
  List.forall_mem_cons

@[simp] theorem append_iff : IsSolid (cs ++ ds) ↔ IsSolid cs ∧ IsSolid ds :=
  List.forall_mem_append

theorem noLine (h : IsSolid cs) : '\n' ∉ cs := fun hc => (h _ hc).2 rfl

theorem words (h : IsSolid cs) : words cs = [cs] :=
  List.splitOnP_eq_singleton fun c hc => (h c hc).1

end IsSolid

@[simp] theorem words_nil : words [] = [[]] := rfl

theorem words_cons (c : Char) (cs : List Char) :
    words (c :: cs) = if isBreak c then [] :: words cs else (words cs).modifyHead (c :: ·) :=
  List.splitOnP_cons_eq_if_modifyHead c cs

theorem words_break (cs ds : List Char) {c : Char} (hc : isBreak c) :
    words (cs ++ c :: ds) = words cs ++ words ds :=
  List.splitOnP_append_cons cs ds hc

theorem words_space (cs ds : List Char) : words (cs ++ ' ' :: ds) = words cs ++ words ds :=
  words_break cs ds rfl

theorem words_comma (cs ds : List Char) : words (cs ++ ',' :: ds) = words cs ++ words ds :=
  words_break cs ds rfl

theorem words_close (cs ds : List Char) : words (cs ++ ')' :: ds) = words cs ++ words ds :=
  words_break cs ds rfl

theorem words_append {cs : List Char} (h : IsSolid cs) (ds : List Char) :
    words (cs ++ ds) = (words ds).modifyHead (cs ++ ·) := by
  induction cs with
  | nil => exact (congrFun List.modifyHead_id (words ds)).symm
  | cons c cs ih =>
    obtain ⟨⟨hc, -⟩, hcs⟩ := IsSolid.cons_iff.1 h
    rw [List.cons_append, words_cons, hc, if_neg Bool.false_ne_true, ih hcs,
      List.modifyHead_modifyHead]
    rfl

theorem exists_word {cs : List Char} {c : Char} (hc : isBreak c = false) (h : c ∈ cs) :
    ∃ w ∈ words cs, c ∈ w := by
  induction cs with
  | nil => cases h
  | cons d cs ih =>
    rw [words_cons]
    rcases List.mem_cons.1 h with rfl | h
    · rw [hc, if_neg Bool.false_ne_true]
      obtain ⟨w, ws, hw⟩ := List.exists_cons_of_ne_nil (List.splitOnP_ne_nil isBreak cs)
      rw [words, hw]
      exact ⟨c :: w, List.mem_cons_self, List.mem_cons_self⟩
    · obtain ⟨w, hw, hcw⟩ := ih h
      split
      · exact ⟨w, List.mem_cons_of_mem [] hw, hcw⟩
      · cases hwords : words cs with
        | nil => simp [hwords] at hw
        | cons v ws =>
          rw [hwords] at hw
          rcases List.mem_cons.1 hw with rfl | hw
          · exact ⟨d :: w, List.mem_cons_self, List.mem_cons_of_mem d hcw⟩
          · exact ⟨w, List.mem_cons_of_mem _ hw, hcw⟩

@[simp] theorem toString_text (s : String) : toString s = s := rfl

/-! ### Numbers -/

theorem not_isBreak_of_isDigit {c : Char} (h : c.isDigit) : isBreak c = false ∧ c ≠ '\n' := by
  simp only [isBreak, Bool.or_eq_false_iff, beq_eq_false_iff_ne]
  refine ⟨⟨⟨⟨?_, ?_⟩, ?_⟩, ?_⟩, ?_⟩ <;> rintro rfl <;> exact absurd h (by decide)

theorem isDigit_toDigits {n : Nat} {c : Char} (h : c ∈ Nat.toDigits 10 n) : c.isDigit :=
  Nat.isDigit_of_mem_toDigits (by decide) (by decide) h

theorem isSolid_toDigits (n : Nat) : IsSolid (Nat.toDigits 10 n) :=
  fun _ hc => not_isBreak_of_isDigit (isDigit_toDigits hc)

theorem toDigits_inj {m n : Nat} (h : Nat.toDigits 10 m = Nat.toDigits 10 n) : m = n := by
  rw [← Nat.toList_repr, ← Nat.toList_repr, String.toList_inj] at h
  exact Nat.repr_inj.1 h

/-! ### Names -/

/-- Letters, digits and underscores are characters of names. -/
def isNameChar (c : Char) : Bool := c.isAlphanum || c == '_'

/-- A name begins with no digit. -/
def isName (x : String) : Bool :=
  match x.toList with
  | [] => false
  | c :: cs => !c.isDigit && (c :: cs).all isNameChar

theorem not_isBreak_of_isNameChar {c : Char} (h : isNameChar c) : isBreak c = false ∧ c ≠ '\n' := by
  simp only [isBreak, Bool.or_eq_false_iff, beq_eq_false_iff_ne]
  refine ⟨⟨⟨⟨?_, ?_⟩, ?_⟩, ?_⟩, ?_⟩ <;> rintro rfl <;> exact absurd h (by decide)

theorem isNameChar_of_mem {x : String} (h : isName x) {c : Char} (hc : c ∈ x.toList) :
    isNameChar c := by
  unfold isName at h
  split at h
  · cases h
  · rename_i heq
    rw [heq] at hc
    simp only [Bool.and_eq_true, List.all_eq_true] at h
    exact h.2 c hc

theorem isSolid_name {x : String} (h : isName x) : IsSolid x.toList :=
  fun _ hc => not_isBreak_of_isNameChar (isNameChar_of_mem h hc)

theorem exists_cons_of_isName {x : String} (h : isName x) :
    ∃ c cs, x.toList = c :: cs ∧ c.isDigit = false ∧ isNameChar c := by
  unfold isName at h
  split at h
  · cases h
  · rename_i c cs heq
    simp only [Bool.and_eq_true, Bool.not_eq_true'] at h
    exact ⟨c, cs, heq, h.1, List.all_eq_true.1 h.2 c List.mem_cons_self⟩

end Quill

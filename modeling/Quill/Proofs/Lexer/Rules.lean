import Mathlib.Data.Nat.Digits.Defs
import Quill.Proofs.Lexer.Layout
import Quill.Proofs.Text.Decoding

/-! # The lexical grammar

Which bytes spell which token. The rules are stated without regard to how a match comes about, and
the automaton of the lexer accepts a spelling, from its first byte to its last, for exactly the
token that it spells.
-/
namespace Quill
open Decimal (isDigit)
open Utf8 (encode)

def Digits (ds : List UInt8) : Prop := ds ≠ [] ∧ ∀ d ∈ ds, isDigit d

def digitsValue (ds : List UInt8) : Nat := Nat.ofDigits 10 (ds.reverse.map fun d => d.toNat - 48)

/-- A letter or an underscore, then letters, underscores and digits. -/
inductive IsWord : List UInt8 → Prop
  | run {b bs} (first : isNameStart b) (rest : ∀ x ∈ bs, isNamePart x) : IsWord (b :: bs)

/-- A number with a fraction, perhaps also with an exponent. -/
inductive IsFractional : List UInt8 → Prop
  | point {ds fs} (whole : Digits ds) (places : Digits fs) : IsFractional (ds ++ 46 :: fs)
  | exponent {ds fs es e sign} (whole : Digits ds) (places : Digits fs) (mark : e = 101 ∨ e = 69)
      (signed : sign = [] ∨ sign = [43] ∨ sign = [45]) (power : Digits es) :
      IsFractional (ds ++ 46 :: (fs ++ e :: (sign ++ es)))

def Mark.symbol : Mark → String
  | bang => "!"
  | colon => ":"
  | comma => ","
  | semicolon => ";"
  | assign => "="

/-- A byte that begins nothing the grammar knows. -/
structure IsStray (b : UInt8) : Prop where
  not_blank : ¬ isBlank b
  not_comment : b ≠ 35
  not_word : ¬ isNameStart b
  not_digit : ¬ isDigit b
  not_operator : ∀ o : Operator, b ∉ encode o.symbol
  not_mark : ∀ m : Mark, b ∉ encode m.symbol

/-- `text` spells the token `t`. -/
inductive Spells : List UInt8 → Token → Prop
  | operator (o : Operator) : Spells (encode o.symbol) (.op o)
  | mark (m : Mark) : Spells (encode m.symbol) (.mark m)
  | word (k : Keyword) : Spells (encode k.text) (.word k)
  | typeName (base : BaseType) : Spells (encode base.text) (.typeName base)
  | name {text : String} (run : IsWord (encode text)) (not_word : ∀ k : Keyword, text ≠ k.text)
      (not_type : ∀ base : BaseType, text ≠ base.text) : Spells (encode text) (.name text)
  | integer {ds : List UInt8} {n : UInt64} (digits : Digits ds) (value : n.toNat = digitsValue ds) :
      Spells ds (.integer n)
  /-- A whole number that 64 bits do not hold. -/
  | overlong {text : String} (digits : Digits (encode text))
      (value : 2 ^ (64 : Nat) ≤ digitsValue (encode text)) : Spells (encode text) (.unknown text)
  | float {text : List UInt8} {x : Float} (fractional : IsFractional text)
      (value : Decimal.readFloat? text = some x) : Spells text (.float x)
  | stray {b : UInt8} {tail : List UInt8} (first : IsStray b)
      (fits : tail.length ≤ Scan.continuations b) (more : ∀ x ∈ tail, Utf8.isContinuation x) :
      Spells (b :: tail) (.unknown (Utf8.decodeLossy (b :: tail)))

/-! ### Values and words -/

theorem digits_one {b : UInt8} (h : isDigit b) : Digits [b] := ⟨by simp, by simpa using h⟩

theorem Digits.concat {ds : List UInt8} {b : UInt8} (hds : Digits ds)
    (h : isDigit b) : Digits (ds ++ [b]) := by
  refine ⟨by simp, fun d hd => ?_⟩
  rcases List.mem_append.1 hd with hd | hd
  · exact hds.2 d hd
  · rwa [List.mem_singleton.1 hd]

theorem ofDigits_eq (ds : List UInt8) : Decimal.ofDigits ds = digitsValue ds := by
  induction ds using List.reverseRecOn with
  | nil => rfl
  | append_singleton ds d ih =>
    rw [Decimal.ofDigits, List.foldl_append, ← Decimal.ofDigits, ih]
    simp [digitsValue, Nat.ofDigits_cons, Nat.add_comm]

theorem find?_word (k : Keyword) : Keyword.all.find? (·.text == k.text) = some k := by
  cases k <;> rfl

theorem find?_typeName (base : BaseType) :
    BaseType.all.find? (·.text == base.text) = some base := by
  cases base <;> rfl

theorem not_word_typeName (base : BaseType) :
    Keyword.all.find? (·.text == base.text) = none := by
  cases base <;> rfl

theorem reserved?_cases (text : String) :
    (∃ k : Keyword, text = k.text ∧ Token.reserved? text = some (.word k)) ∨
      (∃ base : BaseType, text = base.text ∧ Token.reserved? text = some (.typeName base)) ∨
      Token.reserved? text = none ∧ (∀ k : Keyword, text ≠ k.text) ∧
        ∀ base : BaseType, text ≠ base.text := by
  by_cases hword : ∃ k : Keyword, text = k.text
  · obtain ⟨k, rfl⟩ := hword
    exact .inl ⟨k, rfl, by rw [Token.reserved?, find?_word]⟩
  have hnone : Keyword.all.find? (·.text == text) = none :=
    List.find?_eq_none.2 fun k _ hk => hword ⟨k, (eq_of_beq hk).symm⟩
  by_cases htype : ∃ base : BaseType, text = base.text
  · obtain ⟨base, rfl⟩ := htype
    exact .inr (.inl ⟨base, rfl, by rw [Token.reserved?, hnone, find?_typeName]; rfl⟩)
  have hnone' : BaseType.all.find? (·.text == text) = none :=
    List.find?_eq_none.2 fun base _ hb => htype ⟨base, (eq_of_beq hb).symm⟩
  refine .inr (.inr ⟨?_, fun k hk => hword ⟨k, hk⟩, fun base hb => htype ⟨base, hb⟩⟩)
  rw [Token.reserved?, hnone, hnone']
  rfl

theorem span_digits {ds rest : List UInt8} (hds : ∀ d ∈ ds, isDigit d)
    (hrest : ∀ b ∈ rest.head?, ¬ isDigit b) :
    (ds ++ rest).takeWhile isDigit = ds ∧ (ds ++ rest).dropWhile isDigit = rest := by
  have hstop : rest.takeWhile isDigit = [] ∧ rest.dropWhile isDigit = rest := by
    cases rest with
    | nil => exact ⟨rfl, rfl⟩
    | cons b rest =>
      have hb := hrest b rfl
      simp [hb]
  rw [List.takeWhile_append_of_pos hds, List.dropWhile_append_of_pos hds, hstop.1, hstop.2,
    List.append_nil]
  exact ⟨rfl, rfl⟩

theorem digit_ne : ∀ d : UInt8, isDigit d → d ≠ 43 ∧ d ≠ 45 ∧ d ≠ 46 ∧ d ≠ 101 ∧ d ≠ 69 := by
  decide +kernel

theorem splitSign_digits {ds : List UInt8} (hds : Digits ds) (rest : List UInt8) :
    Decimal.splitSign (ds ++ rest) = (false, ds ++ rest) := by
  obtain ⟨hne, hall⟩ := hds
  obtain ⟨d, ds, rfl⟩ := List.exists_cons_of_ne_nil hne
  obtain ⟨hplus, hminus, -⟩ := digit_ne d (hall d List.mem_cons_self)
  simp [Decimal.splitSign, hplus, hminus]

theorem readInt?_digits {ds sign : List UInt8} (hds : Digits ds)
    (hsign : sign = [] ∨ sign = [43] ∨ sign = [45]) : (Decimal.readInt? (sign ++ ds)).isSome := by
  have hsplit : ∃ negative, Decimal.splitSign (sign ++ ds) = (negative, ds) := by
    rcases hsign with rfl | rfl | rfl
    · exact ⟨false, by simpa using splitSign_digits hds []⟩
    · exact ⟨false, rfl⟩
    · exact ⟨true, rfl⟩
  obtain ⟨negative, hsplit⟩ := hsplit
  have hempty : ds.isEmpty = false := List.isEmpty_eq_false_iff.2 hds.1
  have hall : ds.all isDigit = true := List.all_eq_true.2 hds.2
  rw [Decimal.readInt?, hsplit]
  simp [hempty, hall]

theorem readMagnitude?_point {ds fs : List UInt8} (hds : Digits ds) (hfs : Digits fs)
    (rest : List UInt8) (hrest : ∀ b ∈ rest.head?, ¬ isDigit b)
    (hexponent : (Decimal.readExponent? rest).isSome) :
    (Decimal.readMagnitude? (ds ++ 46 :: (fs ++ rest))).isSome := by
  have hpoint : ∀ b ∈ (46 :: (fs ++ rest)).head?, ¬ isDigit b := by
    intro b hb
    obtain rfl := Option.some.inj hb
    decide
  obtain ⟨hwhole, hafter⟩ := span_digits hds.2 hpoint
  obtain ⟨hplaces, hbehind⟩ := span_digits hfs.2 hrest
  have hempty : ds.isEmpty = false := List.isEmpty_eq_false_iff.2 hds.1
  rw [Decimal.readMagnitude?]
  simp [hwhole, hafter, hplaces, hbehind, hempty, hexponent]

theorem readFloat?_fractional {text : List UInt8} (h : IsFractional text) :
    ∃ x, Decimal.readFloat? text = some x := by
  have hmagnitude : Decimal.splitSign text = (false, text) ∧
      (Decimal.readMagnitude? text).isSome := by
    cases h with
    | @point ds fs whole places =>
      refine ⟨splitSign_digits whole _, ?_⟩
      simpa using readMagnitude?_point whole places [] (by simp) rfl
    | @exponent ds fs es e sign whole places mark signed power =>
      refine ⟨splitSign_digits whole _, readMagnitude?_point whole places _ (fun b hb => ?_) ?_⟩
      · obtain rfl := Option.some.inj hb
        rcases mark with rfl | rfl <;> decide
      · rw [Decimal.readExponent?, if_pos mark]
        exact readInt?_digits power signed
  rw [← Option.isSome_iff_exists, Decimal.readFloat?, hmagnitude.1]
  simp [hmagnitude.2]

namespace Scan

/-! ### Runs of the automaton -/

/-- The state behind `bs`, if the match takes all of them. -/
def runs (s : Scan) (bs : List UInt8) : Option Scan := bs.foldlM step s

variable {s next : Scan} {b : UInt8} {bs : List UInt8}

@[simp] theorem runs_nil (s : Scan) : s.runs [] = some s := rfl

theorem runs_cons (s : Scan) (b : UInt8) (bs : List UInt8) :
    s.runs (b :: bs) = (s.step b).bind fun next => next.runs bs := by
  rw [runs, List.foldlM_cons]
  rfl

theorem runs_append (s : Scan) (xs ys : List UInt8) :
    s.runs (xs ++ ys) = (s.runs xs).bind fun next => next.runs ys := by
  rw [runs, List.foldlM_append]
  rfl

theorem runs_concat {s next : Scan} {bs : List UInt8} {b : UInt8} :
    s.runs (bs ++ [b]) = some next ↔
      ∃ before, s.runs bs = some before ∧ before.step b = some next := by
  rw [runs_append, Option.bind_eq_some_iff]
  simp [runs_cons]

theorem runs_constant {accepts : UInt8 → Bool}
    (h : ∀ b, s.step b = if accepts b then some s else none) :
    s.runs bs = some next ↔ (∀ b ∈ bs, accepts b) ∧ next = s := by
  induction bs with
  | nil => simpa using eq_comm
  | cons b bs ih =>
    rw [runs_cons, h]
    cases hb : accepts b <;> simp [hb, ih]

theorem runs_word : word.runs bs = some next ↔ (∀ b ∈ bs, isNamePart b) ∧ next = word :=
  runs_constant fun _ => rfl

theorem runs_blank : blank.runs bs = some next ↔ (∀ b ∈ bs, isBlank b) ∧ next = blank :=
  runs_constant fun _ => rfl

theorem runs_comment (h : comment.runs bs = some next) : next = comment := by
  have hstep (b : UInt8) : comment.step b = if decide (b ≠ 10) then some comment else none := by
    by_cases hb : b = 10 <;> simp [step, hb]
  exact ((runs_constant hstep).1 h).2

theorem runs_single {t : Token} : (single t).runs bs = some next ↔ bs = [] ∧ next = single t := by
  cases bs with
  | nil => simpa using eq_comm
  | cons b bs => simp [runs_cons, step]

/-- A match that a second byte, if it takes one, makes complete. -/
theorem runs_pair (h : ∀ c n, s.step c = some n → ∃ t, n = single t) (hr : s.runs bs = some next) :
    bs = [] ∧ next = s ∨ ∃ c t, bs = [c] ∧ s.step c = some (single t) ∧ next = single t := by
  cases bs with
  | nil => exact .inl ⟨rfl, (Option.some.inj hr).symm⟩
  | cons c bs =>
    rw [runs_cons] at hr
    obtain ⟨n, hn, hmore⟩ := Option.bind_eq_some_iff.1 hr
    obtain ⟨t, rfl⟩ := h c n hn
    obtain ⟨rfl, rfl⟩ := runs_single.1 hmore
    exact .inr ⟨c, t, rfl, hn, rfl⟩

theorem runs_stray {due : Nat} : (stray due).runs bs = some next ↔
    bs.length ≤ due ∧ (∀ b ∈ bs, Utf8.isContinuation b) ∧ next = stray (due - bs.length) := by
  induction bs generalizing due with
  | nil => simpa using eq_comm
  | cons b bs ih =>
    rw [runs_cons]
    cases due with
    | zero => simp [step]
    | succ due =>
      cases hb : Utf8.isContinuation b <;> simp [step, hb, ih]

/-! ### The rule that a byte selects -/

theorem alone?_eq_some {t : Token} (h : alone? b = some t) :
    (∃ o : Operator, t = .op o ∧ encode o.symbol = [b]) ∨
      ∃ m : Mark, t = .mark m ∧ encode m.symbol = [b] := by
  unfold alone? at h
  split at h <;> cases h
  · exact .inl ⟨.add, rfl, rfl⟩
  · exact .inl ⟨.sub, rfl, rfl⟩
  · exact .inl ⟨.mul, rfl, rfl⟩
  · exact .inl ⟨.div, rfl, rfl⟩
  · exact .inr ⟨.bang, rfl, rfl⟩
  · exact .inr ⟨.colon, rfl, rfl⟩
  · exact .inr ⟨.comma, rfl, rfl⟩
  · exact .inr ⟨.semicolon, rfl, rfl⟩

theorem symbol_bytes (o : Operator) :
    ∀ x ∈ encode o.symbol, (alone? x).isSome ∨ x = 61 ∨ x = 60 ∨ x = 62 := by
  cases o <;> decide +kernel

theorem mark_bytes (m : Mark) : ∀ x ∈ encode m.symbol, (alone? x).isSome ∨ x = 61 := by
  cases m <;> decide +kernel

/-- The first byte of a match and the rule it selects. -/
inductive Selects (b : UInt8) : Scan → Prop
  | single {t : Token} (alone : alone? b = some t) : Selects b (single t)
  | assign (eq : b = 61) : Selects b assign
  | less (eq : b = 60) : Selects b less
  | greater (eq : b = 62) : Selects b greater
  | comment (eq : b = 35) : Selects b comment
  | blank (holds : isBlank b) : Selects b blank
  | word (holds : isNameStart b) : Selects b word
  | number (holds : isDigit b) : Selects b (number .digits)
  | stray (holds : IsStray b) : Selects b (stray (continuations b))

theorem selects_start (b : UInt8) : Selects b (start b) := by
  unfold start
  cases halone : alone? b with
  | some t => exact .single halone
  | none =>
  dsimp only
  split_ifs with h61 h60 h62 h35 hblank hname hdigit
  · exact .assign h61
  · exact .less h60
  · exact .greater h62
  · exact .comment h35
  · exact .blank hblank
  · exact .word hname
  · exact .number hdigit
  · refine .stray ⟨hblank, h35, hname, hdigit, fun o ho => ?_, fun m hm => ?_⟩
    · simpa [halone, h61, h60, h62] using symbol_bytes o b ho
    · simpa [halone, h61] using mark_bytes m b hm

theorem alone?_none : ∀ b : UInt8, isNameStart b ∨ isDigit b →
    (alone? b).isNone ∧ b ≠ 61 ∧ b ≠ 60 ∧ b ≠ 62 ∧ b ≠ 35 ∧ ¬ isBlank b := by
  decide +kernel

theorem start_word (h : isNameStart b) : start b = word := by
  obtain ⟨halone, h61, h60, h62, h35, hblank⟩ := alone?_none b (.inl h)
  simp [start, Option.isNone_iff_eq_none.1 halone, h61, h60, h62, h35, hblank, h]

theorem not_nameStart_of_digit : ∀ b : UInt8, isDigit b → ¬ isNameStart b := by
  decide +kernel

theorem start_number (h : isDigit b) : start b = number .digits := by
  obtain ⟨halone, h61, h60, h62, h35, hblank⟩ := alone?_none b (.inr h)
  simp [start, Option.isNone_iff_eq_none.1 halone, h61, h60, h62, h35, hblank,
    not_nameStart_of_digit b h, h]

theorem start_of_isStray (h : IsStray b) : start b = stray (continuations b) := by
  have halone : alone? b = none := by
    refine Option.eq_none_iff_forall_ne_some.2 fun t ht => ?_
    rcases alone?_eq_some ht with ⟨o, -, ho⟩ | ⟨m, -, hm⟩
    · exact h.not_operator o (by simp [ho])
    · exact h.not_mark m (by simp [hm])
  have h61 : b ≠ 61 := fun hb => h.not_mark .assign (hb ▸ List.mem_singleton.2 rfl)
  have h60 : b ≠ 60 := fun hb => h.not_operator .lt (hb ▸ List.mem_singleton.2 rfl)
  have h62 : b ≠ 62 := fun hb => h.not_operator .gt (hb ▸ List.mem_singleton.2 rfl)
  simp [start, halone, h61, h60, h62, h.not_comment, h.not_blank, h.not_word, h.not_digit]

/-! ### Numbers -/

/-- What a number looks like when it has come to a phase. -/
inductive Shape : NumberPhase → List UInt8 → Prop
  | digits {ds} (whole : Digits ds) : Shape .digits ds
  | point {ds} (whole : Digits ds) : Shape .point (ds ++ [46])
  | fraction {ds fs} (whole : Digits ds) (places : Digits fs) : Shape .fraction (ds ++ 46 :: fs)
  | exponent {ds fs e} (whole : Digits ds) (places : Digits fs) (mark : e = 101 ∨ e = 69) :
      Shape .exponent (ds ++ 46 :: (fs ++ [e]))
  | sign {ds fs e c} (whole : Digits ds) (places : Digits fs) (mark : e = 101 ∨ e = 69)
      (signed : c = 43 ∨ c = 45) : Shape .sign (ds ++ 46 :: (fs ++ [e, c]))
  | exponentDigits {ds fs es e sign} (whole : Digits ds) (places : Digits fs)
      (mark : e = 101 ∨ e = 69) (signed : sign = [] ∨ sign = [43] ∨ sign = [45])
      (power : Digits es) : Shape .exponentDigits (ds ++ 46 :: (fs ++ e :: (sign ++ es)))

theorem Shape.step {p q : NumberPhase} {text : List UInt8} (hs : Shape p text)
    (h : p.step b = some q) : Shape q (text ++ [b]) := by
  cases hs with
  | digits whole =>
    simp only [NumberPhase.step] at h
    split_ifs at h with hd hp <;> cases h
    · exact .digits (whole.concat hd)
    · exact hp ▸ .point whole
  | point whole =>
    simp only [NumberPhase.step] at h
    split_ifs at h with hd
    cases h
    simpa using Shape.fraction whole (digits_one hd)
  | fraction whole places =>
    simp only [NumberPhase.step] at h
    split_ifs at h with hd he <;> cases h
    · simpa using Shape.fraction whole (places.concat hd)
    · simpa using Shape.exponent whole places he
  | @exponent ds fs e whole places mark =>
    simp only [NumberPhase.step] at h
    split_ifs at h with hc hd <;> cases h
    · simpa using Shape.sign whole places mark hc
    · simpa using Shape.exponentDigits whole places mark (.inl rfl) (digits_one hd)
  | @sign ds fs e c whole places mark signed =>
    simp only [NumberPhase.step] at h
    split_ifs at h with hd
    cases h
    have hsign : [c] = [] ∨ [c] = [43] ∨ [c] = [45] := by simpa using signed
    simpa using Shape.exponentDigits whole places mark hsign (digits_one hd)
  | exponentDigits whole places mark signed power =>
    simp only [NumberPhase.step] at h
    split_ifs at h with hd
    cases h
    simpa using Shape.exponentDigits whole places mark signed (power.concat hd)

theorem shape_of_runs (hb : isDigit b) (h : (number .digits).runs bs = some next) :
    ∃ p, next = number p ∧ Shape p (b :: bs) := by
  induction bs using List.reverseRecOn generalizing next with
  | nil =>
    obtain rfl := Option.some.inj h
    exact ⟨.digits, rfl, .digits (digits_one hb)⟩
  | append_singleton bs c ih =>
    obtain ⟨before, hbefore, hstep⟩ := runs_concat.1 h
    obtain ⟨p, rfl, hshape⟩ := ih hbefore
    obtain ⟨q, hq, rfl⟩ := Option.map_eq_some_iff.1 hstep
    exact ⟨q, rfl, hshape.step hq⟩

theorem runs_digits {p : NumberPhase} (h : ∀ d, isDigit d → p.step d = some p) {ds : List UInt8}
    (hds : ∀ d ∈ ds, isDigit d) (rest : List UInt8) :
    (number p).runs (ds ++ rest) = (number p).runs rest := by
  induction ds with
  | nil => rfl
  | cons d ds ih =>
    obtain ⟨hd, hds⟩ := List.forall_mem_cons.1 hds
    rw [List.cons_append, runs_cons, step, h d hd]
    exact ih hds

/-- Digits that bring a number to a phase in which digits keep it. -/
theorem runs_enter {p q : NumberPhase} (hp : ∀ d, isDigit d → p.step d = some q)
    (hq : ∀ d, isDigit d → q.step d = some q) {ds : List UInt8} (hds : Digits ds)
    (rest : List UInt8) : (number p).runs (ds ++ rest) = (number q).runs rest := by
  obtain ⟨hne, hall⟩ := hds
  obtain ⟨d, ds, rfl⟩ := List.exists_cons_of_ne_nil hne
  obtain ⟨hd, hds⟩ := List.forall_mem_cons.1 hall
  rw [List.cons_append, runs_cons, step, hp d hd]
  exact runs_digits hq hds rest

/-! ### Accepted spellings -/

/-- The state behind a whole text that begins a match. -/
def behind? : List UInt8 → Option Scan
  | [] => none
  | b :: bs => (start b).runs bs

/-- The token of a text that is one match, with nothing to give back. -/
def spelled? (text : List UInt8) : Option Token :=
  (behind? text).bind fun s => if s.surplus = 0 then s.token? text else none

theorem spelled?_of_behind? {text : List UInt8} {s : Scan} {t : Token} (h : behind? text = some s)
    (hs : s.surplus = 0) (ht : s.token? text = some t) : spelled? text = some t := by
  rw [spelled?, h, Option.bind_some, if_pos hs, ht]

theorem behind?_digits {ds : List UInt8} (hds : Digits ds) (rest : List UInt8) :
    behind? (ds ++ rest) = (number .digits).runs rest := by
  obtain ⟨hne, hall⟩ := hds
  obtain ⟨d, ds, rfl⟩ := List.exists_cons_of_ne_nil hne
  obtain ⟨hd, hds⟩ := List.forall_mem_cons.1 hall
  rw [List.cons_append, behind?, start_number hd]
  exact runs_digits (fun d hd => by simp [NumberPhase.step, hd]) hds rest

theorem behind?_whole {ds : List UInt8} (hds : Digits ds) : behind? ds = some (number .digits) := by
  rw [← List.append_nil ds, behind?_digits hds, runs_nil]

theorem behind?_point {ds fs : List UInt8} (hds : Digits ds) (hfs : Digits fs) (rest : List UInt8) :
    behind? (ds ++ 46 :: (fs ++ rest)) = (number .fraction).runs rest := by
  have hpoint : (number .digits).step 46 = some (number .point) := rfl
  rw [behind?_digits hds, runs_cons, hpoint, Option.bind_some]
  exact runs_enter (fun d hd => by simp [NumberPhase.step, hd])
    (fun d hd => by simp [NumberPhase.step, hd]) hfs rest

theorem behind?_fractional {text : List UInt8} (h : IsFractional text) :
    ∃ p : NumberPhase, behind? text = some (number p) ∧ p.surplus = 0 ∧ p.isWhole = false := by
  have power {p : NumberPhase} (hp : ∀ d, isDigit d → p.step d = some .exponentDigits)
      {es : List UInt8} (hes : Digits es) :
      (number p).runs es = some (number .exponentDigits) := by
    rw [← List.append_nil es,
      runs_enter hp (fun d hd => by simp [NumberPhase.step, hd]) hes, runs_nil]
  cases h with
  | @point ds fs whole places =>
    refine ⟨.fraction, ?_, rfl, rfl⟩
    simpa using behind?_point whole places []
  | @exponent ds fs es e sign whole places mark signed hes =>
    have hmark : (number .fraction).step e = some (number .exponent) := by
      rcases mark with rfl | rfl <;> rfl
    refine ⟨.exponentDigits, ?_, rfl, rfl⟩
    rw [behind?_point whole places, runs_cons, hmark, Option.bind_some]
    rcases signed with rfl | rfl | rfl
    · refine power (fun d hd => ?_) hes
      obtain ⟨hplus, hminus, -⟩ := digit_ne d hd
      simp [NumberPhase.step, hplus, hminus, hd]
    · show (number .sign).runs es = _
      exact power (fun d hd => by simp [NumberPhase.step, hd]) hes
    · show (number .sign).runs es = _
      exact power (fun d hd => by simp [NumberPhase.step, hd]) hes

theorem behind?_word {text : List UInt8} (h : IsWord text) : behind? text = some word := by
  cases h with
  | run first rest => rw [behind?, start_word first, runs_word.2 ⟨rest, rfl⟩]

theorem isWord_keyword (k : Keyword) : IsWord (encode k.text) := by
  cases k <;> exact .run (by decide +kernel) (by decide +kernel)

theorem isWord_typeName (base : BaseType) : IsWord (encode base.text) := by
  cases base <;> exact .run (by decide +kernel) (by decide +kernel)

theorem spelled?_word {text : String} (h : IsWord (encode text)) :
    spelled? (encode text) = some ((Token.reserved? text).getD (.name text)) := by
  refine spelled?_of_behind? (behind?_word h) rfl ?_
  rw [token?, Utf8.decodeLossy_encode]

theorem spelled?_digits {ds : List UInt8} (h : Digits ds) :
    spelled? ds = some (wholeNumber ds) :=
  spelled?_of_behind? (behind?_whole h) rfl rfl

theorem spelled?_of_spells {text : List UInt8} {t : Token} (h : Spells text t) :
    spelled? text = some t := by
  cases h with
  | operator o => cases o <;> rfl
  | mark m => cases m <;> rfl
  | word k => rw [spelled?_word (isWord_keyword k), Token.reserved?, find?_word]; rfl
  | typeName base =>
    rw [spelled?_word (isWord_typeName base), Token.reserved?, not_word_typeName,
      find?_typeName]
    rfl
  | @name text run not_word not_type =>
    rw [spelled?_word run]
    rcases reserved?_cases text with ⟨k, hk, -⟩ | ⟨base, hb, -⟩ | ⟨hnone, -⟩
    · exact absurd hk (not_word k)
    · exact absurd hb (not_type base)
    · rw [hnone]
      rfl
  | @integer ds n digits value =>
    rw [spelled?_digits digits, wholeNumber, ofDigits_eq, ← value, if_pos n.toNat_lt,
      UInt64.ofNat_toNat]
  | @overlong text digits value =>
    rw [spelled?_digits digits, wholeNumber, ofDigits_eq, if_neg (by omega),
      Utf8.decodeLossy_encode]
  | float fractional value =>
    obtain ⟨p, hbehind, hsurplus, hwhole⟩ := behind?_fractional fractional
    refine spelled?_of_behind? hbehind hsurplus ?_
    simp [token?, hwhole, fractionalNumber, value]
  | @stray b tail first fits more =>
    have hbehind : behind? (b :: tail) = some (stray (continuations b - tail.length)) := by
      rw [behind?, start_of_isStray first]
      exact runs_stray.2 ⟨fits, more, rfl⟩
    exact spelled?_of_behind? hbehind rfl rfl

theorem spells_word {text : List UInt8} (h : IsWord text) :
    let name := Utf8.decodeLossy text
    Spells text ((Token.reserved? name).getD (.name name)) := by
  intro name
  have hnarrow : ∀ b ∈ text, b.toNat < 128 := by
    cases h with
    | @run b bs first rest =>
      have hfirst := (namePart_narrow b (by simp [isNamePart, first])).1
      exact List.forall_mem_cons.2 ⟨hfirst, fun b hb => (namePart_narrow b (rest b hb)).1⟩
  have hencode : encode name = text := Utf8.encode_decodeLossy hnarrow
  rcases reserved?_cases name with ⟨k, hname, hk⟩ | ⟨base, hname, hbase⟩ | ⟨hnone, hwords, htypes⟩
  · rw [hk, ← hencode, hname]
    exact .word k
  · rw [hbase, ← hencode, hname]
    exact .typeName base
  · rw [hnone, ← hencode]
    exact .name (hencode.symm ▸ h) hwords htypes

theorem spells_wholeNumber {ds : List UInt8} (h : Digits ds) : Spells ds (wholeNumber ds) := by
  have hnarrow : ∀ d ∈ ds, d.toNat < 128 := fun d hd => (digit_narrow d (h.2 d hd)).1
  have hencode := Utf8.encode_decodeLossy hnarrow
  rw [wholeNumber, ofDigits_eq]
  by_cases hfits : digitsValue ds < 2 ^ (64 : Nat)
  · rw [if_pos hfits]
    exact .integer h (UInt64.toNat_ofNat_of_lt' hfits)
  · rw [if_neg hfits]
    generalize Utf8.decodeLossy ds = text at hencode
    subst hencode
    exact .overlong h (Nat.le_of_not_lt hfits)

theorem spells_fractionalNumber {text : List UInt8} (h : IsFractional text) :
    Spells text (fractionalNumber text) := by
  obtain ⟨x, hx⟩ := readFloat?_fractional h
  rw [fractionalNumber, hx]
  exact .float h hx

theorem spells_number {p : NumberPhase} {text : List UInt8} (h : Shape p text)
    (hp : p.surplus = 0) :
    Spells text (if p.isWhole then wholeNumber text else fractionalNumber text) := by
  cases h with
  | digits whole => exact spells_wholeNumber whole
  | fraction whole places => exact spells_fractionalNumber (.point whole places)
  | exponentDigits whole places mark signed power =>
    exact spells_fractionalNumber (.exponent whole places mark signed power)
  | _ => cases hp

/-- The mark or operator that one byte is, and the operators that a second one makes of it. -/
theorem spells_pair {first : Scan} {text : List UInt8} {t : Token}
    (one : ∀ t, first.token? [b] = some t → Spells [b] t)
    (two : ∀ c n, first.step c = some n → ∃ t, n = single t ∧ Spells [b, c] t)
    (hr : first.runs bs = some s) (ht : s.token? text = some t) (htext : text = b :: bs) :
    Spells (b :: bs) t := by
  subst htext
  have single_step (c n) (h : first.step c = some n) : ∃ t, n = single t := by
    obtain ⟨t, hn, -⟩ := two c n h
    exact ⟨t, hn⟩
  rcases runs_pair single_step hr with ⟨rfl, rfl⟩ | ⟨c, t', rfl, hc, rfl⟩
  · exact one t ht
  · obtain ⟨t'', hsame, hspells⟩ := two c _ hc
    obtain rfl := Option.some.inj ht
    obtain rfl : t' = t'' := by simpa using hsame
    exact hspells

theorem spells_of_spelled? {text : List UInt8} {t : Token} (h : spelled? text = some t) :
    Spells text t := by
  cases text with
  | nil => cases h
  | cons b bs =>
    obtain ⟨s, hbehind, hs⟩ := Option.bind_eq_some_iff.1 h
    split_ifs at hs with hsurplus
    rw [behind?] at hbehind
    have hselects := selects_start b
    generalize start b = first at hselects hbehind
    cases hselects with
    | single alone =>
      obtain ⟨rfl, rfl⟩ := runs_single.1 hbehind
      obtain rfl := Option.some.inj hs
      rcases alone?_eq_some alone with ⟨o, rfl, ho⟩ | ⟨m, rfl, hm⟩
      · exact ho ▸ .operator o
      · exact hm ▸ .mark m
    | assign eq =>
      subst eq
      refine spells_pair (fun t ht => ?_) (fun c n hn => ?_) hbehind hs rfl
      · exact Option.some.inj ht ▸ .mark .assign
      · simp only [step] at hn
        split_ifs at hn with heq
        subst heq
        exact ⟨_, (Option.some.inj hn).symm, .operator .eq⟩
    | less eq =>
      subst eq
      refine spells_pair (fun t ht => ?_) (fun c n hn => ?_) hbehind hs rfl
      · exact Option.some.inj ht ▸ .operator .lt
      · simp only [step] at hn
        split_ifs at hn with hless heq
        · subst hless
          exact ⟨_, (Option.some.inj hn).symm, .operator .shl⟩
        · subst heq
          exact ⟨_, (Option.some.inj hn).symm, .operator .le⟩
    | greater eq =>
      subst eq
      refine spells_pair (fun t ht => ?_) (fun c n hn => ?_) hbehind hs rfl
      · exact Option.some.inj ht ▸ .operator .gt
      · simp only [step] at hn
        split_ifs at hn with hgreater heq
        · subst hgreater
          exact ⟨_, (Option.some.inj hn).symm, .operator .shr⟩
        · subst heq
          exact ⟨_, (Option.some.inj hn).symm, .operator .ge⟩
    | comment eq =>
      obtain rfl := runs_comment hbehind
      cases hs
    | blank holds =>
      obtain ⟨-, rfl⟩ := runs_blank.1 hbehind
      cases hs
    | word holds =>
      obtain ⟨hrest, rfl⟩ := runs_word.1 hbehind
      obtain rfl := Option.some.inj hs
      exact spells_word (.run holds hrest)
    | number holds =>
      obtain ⟨p, rfl, hshape⟩ := shape_of_runs holds hbehind
      obtain rfl := Option.some.inj hs
      exact spells_number hshape hsurplus
    | stray holds =>
      obtain ⟨hfits, hmore, rfl⟩ := runs_stray.1 hbehind
      obtain rfl := Option.some.inj hs
      exact .stray holds hfits hmore

end Scan

theorem spells_iff {text : List UInt8} {t : Token} :
    Spells text t ↔ Scan.spelled? text = some t :=
  ⟨Scan.spelled?_of_spells, Scan.spells_of_spelled?⟩

theorem spells_digit {b : UInt8} {bs : List UInt8} (hb : isDigit b) :
    (∃ t, Spells (b :: bs) t) ↔ Digits (b :: bs) ∨ IsFractional (b :: bs) := by
  constructor
  · rintro ⟨t, ht⟩
    obtain ⟨s, hbehind, hs⟩ := Option.bind_eq_some_iff.1 (spells_iff.1 ht)
    split_ifs at hs with hsurplus
    rw [Scan.behind?, Scan.start_number hb] at hbehind
    obtain ⟨p, rfl, hshape⟩ := Scan.shape_of_runs hb hbehind
    -- A number that ends in another phase has bytes to give back.
    generalize b :: bs = text at hshape
    cases hshape with
    | digits whole => exact .inl whole
    | fraction whole places => exact .inr (.point whole places)
    | exponentDigits whole places mark signed power =>
      exact .inr (.exponent whole places mark signed power)
    | _ => cases hsurplus
  · rintro (hwhole | hfractional)
    · exact ⟨_, Scan.spells_wholeNumber hwhole⟩
    · exact ⟨_, Scan.spells_fractionalNumber hfractional⟩

theorem Spells.unique {text : List UInt8} {t t' : Token} (h : Spells text t)
    (h' : Spells text t') : t = t' :=
  Option.some.inj ((spells_iff.1 h).symm.trans (spells_iff.1 h'))

end Quill

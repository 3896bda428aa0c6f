import Quill.Proofs.Lowering.OperatorCode
import Quill.Proofs.Meaning.Expr

/-! # Operators compute exactly

What an operator makes of two words is what it makes of the whole numbers they stand for, modulo
two to the power of the wider width: wherever the operands were lowered to, the machine arrives
behind the operator with that result, or stops because zero divides.
-/
namespace Quill

open Ir (FuncId BlockId Function Module Operand Ty)
open Meaning (Typed)

/-- What an operator makes of whole numbers at a width. Quotients are cut off towards zero, the
shift to the right rounds down, and a comparison is 0 or 1. Nothing is said of division by zero
and of distances a machine word cannot be shifted by. -/
def Operator.IsExact (op : Operator) (width : Nat) (a b x : Int) : Prop :=
  match op with
  | .add => x ≡ a + b [ZMOD 2 ^ width]
  | .sub => x ≡ a - b [ZMOD 2 ^ width]
  | .mul => x ≡ a * b [ZMOD 2 ^ width]
  | .div => b ≠ 0 → x ≡ a.tdiv b [ZMOD 2 ^ width]
  | .shl => 0 ≤ b → b < 64 → x ≡ a * 2 ^ b.toNat [ZMOD 2 ^ width]
  | .shr => 0 ≤ b → b < 64 → x = a / 2 ^ b.toNat
  | .lt => x = if a < b then 1 else 0
  | .gt => x = if a > b then 1 else 0
  | .le => x = if a ≤ b then 1 else 0
  | .ge => x = if a ≥ b then 1 else 0
  | .eq => x = if a = b then 1 else 0

/-! ### Words of one type -/

namespace Meaning

variable {op : Operator} {ty : Ty} {a b : Int64}

theorem whole?_eq_none : whole? op ty a b = none ↔ op = .div ∧ b = 0 := by
  cases op <;> simp [whole?]

theorem bool_exact {p : Bool} {q : Prop} [Decidable q] (h : p = true ↔ q) :
    ∃ x, some (Typed.bool p) = some ⟨.i1, .int x⟩ ∧ Ty.i1.InRange x.toInt ∧
      x.toInt = if q then 1 else 0 := by
  refine ⟨_, rfl, ?_⟩
  rw [Ty.inRange_i1]
  by_cases hq : q
  · simp [h.2 hq, hq]
  · simp [show p = false by simpa using mt h.1 hq, hq]

/-- Words of one type, as the machine and the evaluator combine them. -/
theorem whole?_exact (hty : ty.isInt) (ha : ty.InRange a.toInt)
    (h : ¬(op = .div ∧ b = 0)) :
    ∃ x, whole? op ty a b = some ⟨(Lower.wholeOperation op).resultTy ty, .int x⟩ ∧
      ((Lower.wholeOperation op).resultTy ty).InRange x.toInt ∧
      op.IsExact ty.bits a.toInt b.toInt x.toInt := by
  have hrange := Ty.inRange_wrap hty
  cases op with
  | add =>
    exact ⟨_, rfl, hrange _, Ty.wrap_modEq_of_bmod hty (Int64.toInt_add a b)⟩
  | sub =>
    exact ⟨_, rfl, hrange _, Ty.wrap_modEq_of_bmod hty (Int64.toInt_sub a b)⟩
  | mul =>
    exact ⟨_, rfl, hrange _, Ty.wrap_modEq_of_bmod hty (Int64.toInt_mul a b)⟩
  | div =>
    have hb : b ≠ 0 := fun hb => h ⟨rfl, hb⟩
    exact ⟨_, if_neg hb, hrange _, fun _ => Ty.wrap_modEq_of_bmod hty (Int64.toInt_div a b)⟩
  | shl =>
    exact ⟨_, rfl, hrange _, fun hb hb' => Ty.wrap_modEq_of_bmod hty (Word.toInt_shiftLeft hb hb')⟩
  | shr =>
    refine ⟨_, rfl, hrange _, fun hb hb' => ?_⟩
    have hshift := Word.toInt_shiftRight (a := a) hb hb'
    rw [Ty.InRange.wrap (hshift ▸ ha.ediv hty (Int.pow_pos (by decide))) hty, hshift]
  | lt => exact bool_exact (decide_eq_true_iff.trans Int64.lt_iff_toInt_lt)
  | gt => exact bool_exact (decide_eq_true_iff.trans Int64.lt_iff_toInt_lt)
  | le => exact bool_exact (decide_eq_true_iff.trans Int64.le_iff_toInt_le)
  | ge => exact bool_exact (decide_eq_true_iff.trans Int64.le_iff_toInt_le)
  | eq => exact bool_exact (beq_iff_eq.trans Int64.toInt_inj.symm)

theorem convert?_wide {s t : Ty} (hs : s.isInt) (ht : t.isInt) (hbits : s.bits ≤ t.bits)
    (ha : s.InRange a.toInt) : (Typed.mk s (.int a)).convert? t = some (.int a) := by
  unfold Typed.convert?
  by_cases heq : s = t
  · exact if_pos heq
  · simp only [if_neg heq, ht, ↓reduceIte, (ha.widen hs ht hbits).wrap ht]

theorem operate_words {name : String} {l r : Ty} (hl : l.isInt) (hr : r.isInt)
    (ha : l.InRange a.toInt) (hb : r.InRange b.toInt) :
    operate name op ⟨l, .int a⟩ ⟨r, .int b⟩ = combine name op (l.wider r) (.int a) (.int b) := by
  have hty := Ty.isInt_wider hl hr
  have hbits := Ty.bits_wider l r
  simp only [operate, known, Except.toOption, pure_bind, resultType_wider hl hr,
    convert?_wide hl hty (by omega) ha, convert?_wide hr hty (by omega) hb]

end Meaning

/-! ### Lowered and executed -/

/-- The operand is worth a whole number of the type. -/
def Config.IsWorth (c : Config) (v : Operand) (ty : Ty) (a : Int) : Prop :=
  ∃ n : Int64, c.current.get v = .ok (.int n) ∧ n.toInt = a ∧ ty.InRange a

theorem Ir.Function.below_of_typeOf {f : Function} {v : Operand} {ty : Ty}
    (h : f.typeOf v = .ok ty) : v.Below f.values.size := by
  cases v with
  | inst id =>
    obtain ⟨info, hinfo, -⟩ := Ir.map_eq_ok.1 h
    exact (Array.getElem?_eq_some_iff.1 (Ir.entry_eq_ok.1 hinfo)).1
  | _ => trivial

theorem Gives.of_word {f g : Function} {c : Config} {k : BlockId} {v : Operand} {ty : Ty}
    {n : Int64} (hg : f.Continues g) (hv : f.typeOf v = .ok ty) (hty : ty.isInt)
    (hget : c.current.get v = .ok (.int n)) (hn : ty.InRange n.toInt) :
    Gives g c (f.spot k) v ⟨ty, .int n⟩ :=
  ⟨hget, hg.typeOf hv, fun _ => .whole hty (hn.wrap hty), Function.below_of_typeOf hv⟩

theorem BinaryCode.computes_exactly {m : Module} {g : Function} {c : Config} {op : Operator}
    {l r v : Operand} {p q : Spot} {tl tr : Ty} {a b : Int64} (h : c.At g p) (htl : tl.isInt)
    (htr : tr.isInt) (ha : tl.InRange a.toInt) (hb : tr.InRange b.toInt)
    (hl : Gives g c p l ⟨tl, .int a⟩) (hr : Gives g c p r ⟨tr, .int b⟩)
    (hcode : BinaryCode g op l r p v q) :
    if op = .div ∧ b = 0 then
      ∃ n c' w, c.Steps m n c' ∧ c'.step m = .halted (.trap (.divisionByZero g.name)) w
    else
      ∃ n c' x, c.Steps m n c' ∧ Passes g c p c' q ∧
        c'.IsWorth v ((Lower.wholeOperation op).resultTy (tl.wider tr)) x ∧
        op.IsExact (max tl.bits tr.bits) a.toInt b.toInt x := by
  have hty := Ty.isInt_wider htl htr
  have hbits := Ty.bits_wider tl tr
  have hsimulates : Meaning.Simulates m 0 (Meaning.operate g.name op ⟨tl, .int a⟩ ⟨tr, .int b⟩) c
      (Arrives g c p q v) := binary_simulates h hl hr hcode
  rw [Meaning.operate_words htl htr ha hb] at hsimulates
  simp only [Meaning.Simulates, Meaning.combine] at hsimulates
  by_cases hzero : op = .div ∧ b = 0
  · rw [Meaning.whole?_eq_none.2 hzero] at hsimulates
    obtain ⟨-, n, c', w, hsteps, -, hstep, -⟩ := hsimulates
    rw [if_pos hzero]
    exact ⟨n, c', w, hsteps, hstep⟩
  · obtain ⟨x, hx, hrange, hexact⟩ :=
      Meaning.whole?_exact hty (ha.widen htl hty (by omega)) hzero
    rw [hx] at hsimulates
    obtain ⟨n, c', hsteps, -, hpasses, hgives⟩ := hsimulates
    rw [if_neg hzero]
    exact ⟨n, c', x.toInt, hsteps, hpasses, ⟨x, hgives.get, rfl, hrange⟩, hbits ▸ hexact⟩

/-- An operator of two words, lowered behind its operands in any state and executed however the
function is built further: zero does not divide, and everything else has the exact result in the
range of its type. -/
theorem Lower.operator_exact {s s₁ s₂ : Lowering} {id : FuncId} {f : Function} {k : BlockId}
    {op : Operator} {lhs rhs : Expr} {l r : Operand} {tl tr : Ty}
    (hlhs : (expr lhs).run s = (.ok l, s₁)) (hrhs : (expr rhs).run s₁ = (.ok r, s₂))
    (hs : s₂.builder.IsIn id f k) (hl : f.typeOf l = .ok tl) (hr : f.typeOf r = .ok tr)
    (htl : tl.isInt) (htr : tr.isInt) :
    ∃ v s₃ f', (expr (.binary op lhs rhs)).run s = (.ok v, s₃) ∧ s₃.builder.IsIn id f' k ∧
      f.Continues f' ∧ f'.typeOf v = .ok ((wholeOperation op).resultTy (tl.wider tr)) ∧
      ∀ m g c a b, f'.Continues g → c.At g (f.spot k) → c.IsWorth l tl a → c.IsWorth r tr b →
        if op = .div ∧ b = 0 then
          ∃ n c' w, c.Steps m n c' ∧ c'.step m = .halted (.trap (.divisionByZero f.name)) w
        else
          ∃ n c' x, c.Steps m n c' ∧ Passes g c (f.spot k) c' (f'.spot k) ∧
            c'.IsWorth v ((wholeOperation op).resultTy (tl.wider tr)) x ∧
            op.IsExact (max tl.bits tr.bits) a b x := by
  obtain ⟨v, f', hadds⟩ := binary_adds hs op hl hr htl htr
  refine ⟨v, _, f', ?_, hadds.isIn hs, hadds.continues, hadds.typeOf, ?_⟩
  · rw [expr, bind_run_of_ok hlhs, bind_run_of_ok hrhs]
    exact hadds.run
  · rintro m g c _ _ hg hc ⟨a, ha, rfl, hinl⟩ ⟨b, hb, rfl, hinr⟩
    have hfg := hadds.continues.trans hg
    have hexact := (hadds.code g hg).computes_exactly (m := m) hc htl htr hinl hinr
      (.of_word hfg hl htl ha hinl) (.of_word hfg hr htr hb hinr)
    rw [hfg.name] at hexact
    simpa only [← Int64.toInt_inj, Int64.toInt_zero] using hexact

/-! ### The least character divided by minus one -/

namespace ByteQuotient

def opened : Function :=
  { Function.declared "main" [] .void with
    blocks := #[⟨"entry", #[], none, false⟩]
    layout := #[⟨0⟩]
    slots := #[⟨"least", .i8⟩, ⟨"minus", .i8⟩] }

def began : Function := opened.emit ⟨0⟩ (.load ⟨0⟩) (some ⟨.i8, false⟩)

def loaded : Function := began.emit ⟨0⟩ (.load ⟨1⟩) (some ⟨.i8, false⟩)

def divided : Function :=
  loaded.emit ⟨0⟩ (.binary .sdiv (.inst ⟨0⟩) (.inst ⟨1⟩)) (some ⟨.i8, false⟩)

def least : Ident := ⟨"least", default⟩

def minus : Ident := ⟨"minus", default⟩

def module : Module := { Module.empty "sample" with functions := #[opened] }

def start : Lowering where
  builder := ⟨module, some ⟨0⟩, some ⟨0⟩⟩
  scopes := [[("least", ⟨0⟩), ("minus", ⟨1⟩)]]
  functions := []
  library := ⟨⟨0⟩, ⟨1⟩, ⟨2⟩⟩
  formats := []
  frame := none
  folds := true
  records := #[]

def config : Config where
  current := ⟨divided, #[], #[.int (-128), .int (-1)], #[.int (-128), .int (-1), .void], ⟨0⟩, 2⟩
  callers := []
  world := ⟨.ofFeed (.whole []), .unlimited, #[]⟩

theorem least_lowers : (Lower.expr (.var least)).run start =
    (.ok (.inst ⟨0⟩), start.withFunction ⟨0⟩ began) := rfl

theorem minus_lowers : (Lower.expr (.var minus)).run (start.withFunction ⟨0⟩ began) =
    (.ok (.inst ⟨1⟩), start.withFunction ⟨0⟩ loaded) := rfl

theorem quotient_lowers : (Lower.expr (.binary .div (.var least) (.var minus))).run start =
    (.ok (.inst ⟨2⟩), start.withFunction ⟨0⟩ divided) := rfl

/-- The quotient does not fit, and is the least character again. -/
theorem operator_exact_sample : ∃ s₁ s₂,
    (Lower.expr (.var least)).run start = (.ok (.inst ⟨0⟩), s₁) ∧
    (Lower.expr (.var minus)).run s₁ = (.ok (.inst ⟨1⟩), s₂) ∧ s₂.builder.IsIn ⟨0⟩ loaded ⟨0⟩ ∧
    config.At divided (loaded.spot ⟨0⟩) ∧ config.IsWorth (.inst ⟨0⟩) .i8 (-128) ∧
    config.IsWorth (.inst ⟨1⟩) .i8 (-1) ∧
    ∃ n c' x, config.Steps module n c' ∧ c'.IsWorth (.inst ⟨2⟩) .i8 x ∧ x ≡ 128 [ZMOD 256] := by
  have hs : (start.withFunction ⟨0⟩ loaded).builder.IsIn ⟨0⟩ loaded ⟨0⟩ :=
    ⟨⟨rfl, rfl⟩, rfl, _, rfl, rfl⟩
  have hl : loaded.typeOf (.inst ⟨0⟩) = .ok .i8 := rfl
  have hr : loaded.typeOf (.inst ⟨1⟩) = .ok .i8 := rfl
  have hat : config.At divided (loaded.spot ⟨0⟩) := ⟨rfl, rfl, rfl, rfl, rfl⟩
  have hleast : config.IsWorth (.inst ⟨0⟩) .i8 (-128) := ⟨-128, rfl, rfl, by decide⟩
  have hminus : config.IsWorth (.inst ⟨1⟩) .i8 (-1) := ⟨-1, rfl, rfl, by decide⟩
  refine ⟨_, _, least_lowers, minus_lowers, hs, hat, hleast, hminus, ?_⟩
  obtain ⟨v, s₃, f', hrun, hin, -, -, hexact⟩ :=
    Lower.operator_exact least_lowers minus_lowers hs hl hr rfl rfl
  cases quotient_lowers.symm.trans hrun
  cases hin.worksOn.2
  obtain ⟨n, c', x, hsteps, -, hx, hquotient⟩ :=
    hexact module divided config (-128) (-1) (.refl _) hat hleast hminus
  exact ⟨n, c', x, hsteps, hx, hquotient (by decide)⟩

end ByteQuotient

end Quill

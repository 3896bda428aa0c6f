import Quill.Proofs.Ir.Verified

/-! # What a step can do

A step that goes on carries out an instruction within the activation at work, calls an outside
function for it, begins another activation, jumps within the function, or gives a result back.
Only the activation at work changes; its function and the sizes of its tables stay.
-/
namespace Quill

open Ir (Action Block BlockId Fault FuncId Function Inst Module Operand SlotId Terminator Ty ValueId)

namespace Activation

def Performs (a : Activation) (i : Inst) : Prop :=
  ∃ b, a.function.block a.block = .ok b ∧ b.insts[a.position]? = some i

/-- The instructions of the block are done, and this is how it ends. -/
def Ends (a : Activation) (t : Option Terminator) : Prop :=
  ∃ b, a.function.block a.block = .ok b ∧ b.insts[a.position]? = none ∧ b.terminator = t

/-- What an action that stays within its activation gives, and what it makes of the activation. -/
inductive Acts (a : Activation) : Action → Value → Activation → Prop
  | alloca {s slot a'} : a.function.slot s = .ok slot → a.setSlot s (.zero slot.ty) = .ok a' →
      Acts a (.alloca s) .void a'
  | load {s v} : a.slot s = .ok v → Acts a (.load s) v a
  | store {s u v a'} : a.get u = .ok v → a.setSlot s v = .ok a' → Acts a (.store s u) .void a'
  | binary {op l r ty x y v} : a.function.typeOf l = .ok ty → a.get l = .ok x → a.get r = .ok y →
      Value.binary? op ty x y = some v → Acts a (.binary op l r) v a
  | compare {pred l r x y} : a.get l = .ok x → a.get r = .ok y →
      Acts a (.compare pred l r) (.ofBool (Value.compare pred x y)) a
  | cast {op u source target x} : a.function.typeOf u = .ok source → a.get u = .ok x →
      Acts a (.cast op u target) (x.cast op source target) a

/-- The same activation, perhaps at another place of its block and with other contents. -/
structure Keeps (a a' : Activation) : Prop where
  function : a'.function = a.function
  args : a'.args = a.args
  block : a'.block = a.block
  slots : a'.slots.size = a.slots.size
  values : a'.values.size = a.values.size

variable {a a' a'' : Activation} {s : SlotId} {v : Value}

theorem Keeps.refl (a : Activation) : a.Keeps a := ⟨rfl, rfl, rfl, rfl, rfl⟩

theorem Keeps.trans (h : a.Keeps a') (h' : a'.Keeps a'') : a.Keeps a'' :=
  ⟨h'.function.trans h.function, h'.args.trans h.args, h'.block.trans h.block,
    h'.slots.trans h.slots, h'.values.trans h.values⟩

theorem setSlot_eq_ok (h : a.setSlot s v = .ok a') :
    s.index < a.slots.size ∧ a' = { a with slots := a.slots.set! s.index v } := by
  unfold setSlot at h
  split at h
  · cases h
    exact ⟨‹_›, rfl⟩
  · cases h

theorem setSlot_keeps (h : a.setSlot s v = .ok a') : a.Keeps a' := by
  obtain ⟨-, rfl⟩ := setSlot_eq_ok h
  exact ⟨rfl, rfl, rfl, by simp, rfl⟩

theorem complete_eq_ok {result : Option ValueId} (h : a.complete result v = .ok a') :
    a' = { a with
      values := (result.map fun id => a.values.set! id.index v).getD a.values
      position := a.position + 1 } := by
  unfold complete at h
  cases result with
  | none =>
    cases h
    rfl
  | some id =>
    dsimp only at h
    split at h
    · cases h
      rfl
    · cases h

theorem complete_keeps {result : Option ValueId} (h : a.complete result v = .ok a') :
    a.Keeps a' := by
  obtain rfl := complete_eq_ok h
  refine ⟨rfl, rfl, rfl, rfl, ?_⟩
  cases result <;> simp

/-! ### Actions within an activation -/

theorem acts_of_perform {action : Action} (h : a.perform action = .ok (v, a'))
    (hcall : ∀ callee args, action ≠ .call callee args) : a.Acts action v a' := by
  unfold perform at h
  cases action with
  | alloca s =>
    obtain ⟨slot, hslot, h⟩ := Ir.bind_eq_ok.1 h
    obtain ⟨a₁, hset, h⟩ := Ir.bind_eq_ok.1 h
    cases h
    exact .alloca (Ir.mapError_eq_ok.1 hslot) (Ir.mapError_eq_ok.1 hset)
  | load s =>
    obtain ⟨v, hv, h⟩ := Ir.bind_eq_ok.1 h
    cases h
    exact .load (Ir.mapError_eq_ok.1 hv)
  | store s u =>
    obtain ⟨v, hv, h⟩ := Ir.bind_eq_ok.1 h
    obtain ⟨a₁, hset, h⟩ := Ir.bind_eq_ok.1 h
    cases h
    exact .store (Ir.mapError_eq_ok.1 hv) (Ir.mapError_eq_ok.1 hset)
  | binary op l r =>
    obtain ⟨ty, hty, h⟩ := Ir.bind_eq_ok.1 h
    obtain ⟨x, hx, h⟩ := Ir.bind_eq_ok.1 h
    obtain ⟨y, hy, h⟩ := Ir.bind_eq_ok.1 h
    cases hv : Value.binary? op ty x y with
    | none =>
      rw [hv] at h
      cases h
    | some w =>
      rw [hv] at h
      cases h
      exact .binary (Ir.mapError_eq_ok.1 hty) (Ir.mapError_eq_ok.1 hx) (Ir.mapError_eq_ok.1 hy) hv
  | compare pred l r =>
    obtain ⟨x, hx, h⟩ := Ir.bind_eq_ok.1 h
    obtain ⟨y, hy, h⟩ := Ir.bind_eq_ok.1 h
    cases h
    exact .compare (Ir.mapError_eq_ok.1 hx) (Ir.mapError_eq_ok.1 hy)
  | cast op u target =>
    obtain ⟨source, hsource, h⟩ := Ir.bind_eq_ok.1 h
    obtain ⟨x, hx, h⟩ := Ir.bind_eq_ok.1 h
    cases h
    exact .cast (Ir.mapError_eq_ok.1 hsource) (Ir.mapError_eq_ok.1 hx)
  | call callee args => exact absurd rfl (hcall callee args)

theorem lookup_ne_trap {α β : Type} {x : Except Fault α} {g : α → Except Halt β} {t : Trap}
    (h : ∀ y, g y ≠ .error (.trap t)) : x.mapError Halt.fault >>= g ≠ .error (.trap t) := by
  cases x with
  | error f =>
    intro hx
    cases hx
  | ok y => exact h y

theorem perform_ne_unreachable {action : Action} {name : String} :
    a.perform action ≠ .error (.trap (.unreachable name)) := by
  unfold perform
  cases action with
  | load s | call callee args =>
    intro h
    first | cases h | exact lookup_ne_trap (fun _ h => by cases h) h
  | alloca s | store s u | compare pred l r | cast op u target =>
    refine lookup_ne_trap fun _ => lookup_ne_trap fun _ h => ?_
    cases h
  | binary op l r =>
    refine lookup_ne_trap fun ty => lookup_ne_trap fun x => lookup_ne_trap fun y h => ?_
    split at h <;> cases h

theorem Acts.keeps {action : Action} (h : a.Acts action v a') : a.Keeps a' := by
  cases h with
  | alloca _ hset | store _ hset => exact setSlot_keeps hset
  | load | binary | compare | cast => exact .refl a

end Activation

/-! ### Outside functions -/

/-- The value is not an address. -/
def Value.IsPlain (v : Value) : Prop := ∀ p, v ≠ .ptr p

/-- The activation after a scan: plain values stand in some of the slots that the targets are
addresses of. -/
structure Activation.Scans (targets : List Value) (a a' : Activation) : Prop where
  rest : a' = { a with slots := a'.slots }
  size : a'.slots.size = a.slots.size
  slots : ∀ k, a'.slots[k]? = a.slots[k]? ∨
    .ptr (.slot ⟨k⟩) ∈ targets ∧ ∃ x, a'.slots[k]? = some x ∧ x.IsPlain

namespace Activation

variable {a a' a'' : Activation} {targets : List Value}

theorem Scans.refl (targets : List Value) (a : Activation) : a.Scans targets a :=
  ⟨rfl, rfl, fun _ => .inl rfl⟩

theorem Scans.keeps (h : a.Scans targets a') : a.Keeps a' := by
  have hsize := h.size
  rw [h.rest] at hsize ⊢
  exact ⟨rfl, rfl, rfl, hsize, rfl⟩

theorem Scans.cons {s : SlotId} {v : Value} (hset : a.setSlot s v = .ok a') (hv : v.IsPlain)
    (h : a'.Scans targets a'') : a.Scans (.ptr (.slot s) :: targets) a'' := by
  obtain ⟨hlt, rfl⟩ := setSlot_eq_ok hset
  refine ⟨h.rest, h.size.trans (by simp), fun k => ?_⟩
  rcases h.slots k with hkept | ⟨hmem, hwritten⟩
  · by_cases hk : s.index = k
    · subst hk
      exact .inr ⟨List.mem_cons_self, v, by simp [hkept, hlt], hv⟩
    · exact .inl (by simp [hkept, hk])
  · exact .inr ⟨List.mem_cons_of_mem _ hmem, hwritten⟩

end Activation

namespace Library

variable {m : Module} {a a' : Activation} {args targets : List Value} {text : String}

theorem scanOne_plain {ty : Ty} {longs : Nat} {letter : Char} {i i' : Input} {v : Value}
    (h : scanOne ty longs letter i = (.ok (.value v), i')) : v.IsPlain := by
  intro p hp
  subst hp
  unfold scanOne at h
  split at h
  · split at h <;> cases h
  · split at h
    · cases h
    · cases h
    · rename_i word _ _
      cases hword : Value.ofWord? ty longs letter word with
      | none =>
        rw [hword] at h
        cases h
      | some found =>
        rw [hword] at h
        cases found with
        | none => cases h
        | some x =>
          cases h
          unfold Value.ofWord? at hword
          split at hword <;> simp at hword

/-- What a call of an outside function can come to: a plain value, or a trap that is not the one
of unreachable code. -/
def IsOutcome : Except Halt Value → Prop
  | .ok v => v.IsPlain
  | .error h => ∀ name, h ≠ .trap (.unreachable name)

theorem readPieces_scans {pieces : List FormatPiece} {count : Int64} {i i' : Input}
    {r : Except Halt Value} (h : readPieces text pieces targets count a i = (r, a', i')) :
    a.Scans targets a' ∧ IsOutcome r := by
  induction pieces generalizing targets count a i with
  | nil =>
    cases h
    exact ⟨.refl _ _, by simp [IsOutcome, Value.IsPlain]⟩
  | cons piece rest ih =>
    cases piece with
    | char c => exact ih h
    | cutOff =>
      cases h
      exact ⟨.refl _ _, by simp [IsOutcome]⟩
    | conversion longs letter =>
      unfold readPieces at h
      split at h
      · rename_i id targets
        cases hslot : a.function.slot id with
        | error f =>
          rw [hslot] at h
          cases h
          exact ⟨.refl _ _, by simp [IsOutcome]⟩
        | ok slot =>
          rw [hslot] at h
          dsimp only at h
          split at h
          case h_5 v i₁ hscan =>
            cases hset : a.setSlot id v with
            | error f =>
              rw [hset] at h
              cases h
              exact ⟨.refl _ _, by simp [IsOutcome]⟩
            | ok a₁ =>
              rw [hset] at h
              obtain ⟨hscans, hr⟩ := ih h
              exact ⟨.cons hset (scanOne_plain hscan) hscans, hr⟩
          all_goals
            cases h
            exact ⟨.refl _ _, by simp [IsOutcome, Value.IsPlain]⟩
      · cases h
        exact ⟨.refl _ _, by simp [IsOutcome]⟩

theorem formatText_isOutcome {h : Halt} (hformat : formatText m args = .error h) :
    IsOutcome (.error h) := by
  unfold formatText at hformat
  split at hformat
  · rename_i id _
    cases hglobal : m.global id <;> rw [hglobal] at hformat <;> cases hformat
    simp [IsOutcome]
  all_goals
    cases hformat
    simp [IsOutcome]

theorem print_isOutcome {w w' : World} {r : Except Halt Value}
    (h : print m w args = (r, w')) : IsOutcome r := by
  unfold print at h
  cases hformat : formatText m args with
  | error e =>
    rw [hformat] at h
    cases h
    exact formatText_isOutcome hformat
  | ok text =>
    rw [hformat] at h
    dsimp only at h
    split at h
    · cases h
      simp [IsOutcome]
    · split at h <;> cases h <;> simp [IsOutcome, Value.IsPlain]

theorem read_scans {w w' : World} {r : Except Halt Value} (h : read m w a args = (r, a', w')) :
    a.Scans args.tail a' ∧ IsOutcome r := by
  unfold read at h
  cases hformat : formatText m args with
  | error e =>
    rw [hformat] at h
    cases h
    exact ⟨.refl _ _, formatText_isOutcome hformat⟩
  | ok text =>
    rw [hformat] at h
    cases h
    exact readPieces_scans rfl

theorem call_scans {name : String} {w w' : World} {r : Except Halt Value}
    (h : Library.call m name w a args = (r, a', w')) :
    (a' = a ∨ name = readName ∧ a.Scans args.tail a') ∧ IsOutcome r := by
  unfold Library.call at h
  split at h
  · cases h
    exact ⟨.inl rfl, by simp [IsOutcome]⟩
  split at h
  · cases h
    exact ⟨.inl rfl, print_isOutcome rfl⟩
  split at h
  · obtain ⟨hscans, hr⟩ := read_scans h
    exact ⟨.inr ⟨‹_›, hscans⟩, hr⟩
  · cases h
    exact ⟨.inl rfl, by simp [IsOutcome]⟩

end Library

/-! ### Steps -/

namespace Config

/-- The ways in which a step goes on. -/
inductive Goes (m : Module) (c : Config) : Config → Prop
  | inside {i v a a'} : c.current.Performs i → c.current.Acts i.action v a →
      a.complete i.result v = .ok a' → Goes m c { c with current := a' }
  | outside {i callee args f values v a a' w} : c.current.Performs i →
      i.action = .call callee args → c.current.getAll args = .ok values →
      m.function callee = .ok f → f.entryBlock? = none →
      Library.call m f.name c.world c.current values = (.ok v, a, w) →
      a.complete i.result v = .ok a' → Goes m c { c with current := a', world := w }
  | enter {i callee args f start values} : c.current.Performs i →
      i.action = .call callee args → c.current.getAll args = .ok values →
      m.function callee = .ok f → f.entryBlock? = some start → c.depth < maxDepth →
      Goes m c
        { current := .enter f start values
          callers := c.current :: c.callers
          world := { c.world with
            records := c.world.records.push (.trace s!"entering {f.name}") } }
  | jump {t dest} : c.current.Ends (some t) → dest ∈ t.successors →
      Goes m c { c with current := c.current.jump dest }
  | back {value v a a' b callers} : c.current.Ends (some (.ret value)) →
      (∀ u, value = some u → c.current.get u = .ok v) → (value = none → v = .void) →
      c.callers = a :: callers → a.function.block a.block = .ok b →
      a.complete ((b.insts[a.position]?).bind Inst.result) v = .ok a' →
      Goes m c { c with current := a', callers }

variable {m : Module} {c c' : Config} {v : Value}

theorem call_goes {i : Inst} {callee : FuncId} {args : List Operand} (hi : c.current.Performs i)
    (hcall : i.action = .call callee args) (h : c.call m i callee args = .running c') :
    c.Goes m c' := by
  unfold call at h
  cases hvalues : c.current.getAll args with
  | error f =>
    rw [hvalues] at h
    cases h
  | ok values =>
    cases hf : m.function callee with
    | error f =>
      rw [hvalues, hf] at h
      cases h
    | ok f =>
      rw [hvalues, hf] at h
      dsimp only at h
      cases hentry : f.entryBlock? with
      | none =>
        rw [hentry] at h
        dsimp only at h
        split at h
        · cases h
        · rename_i v a w hlibrary
          cases hcomplete : a.complete i.result v with
          | error f =>
            rw [hcomplete] at h
            cases h
          | ok a' =>
            rw [hcomplete] at h
            cases h
            exact .outside hi hcall hvalues hf hentry hlibrary hcomplete
      | some start =>
        rw [hentry] at h
        dsimp only at h
        split at h
        · cases h
        · cases h
          exact .enter hi hcall hvalues hf hentry (Nat.lt_of_not_ge ‹_›)

theorem giveBack_goes {value : Option Operand} (hend : c.current.Ends (some (.ret value)))
    (hsome : ∀ u, value = some u → c.current.get u = .ok v) (hnone : value = none → v = .void)
    (h : c.giveBack v = .running c') : c.Goes m c' := by
  unfold giveBack at h
  cases hcallers : c.callers with
  | nil =>
    rw [hcallers] at h
    cases h
  | cons a callers =>
    rw [hcallers] at h
    dsimp only at h
    cases hb : a.function.block a.block with
    | error f =>
      rw [hb] at h
      cases h
    | ok b =>
      rw [hb] at h
      dsimp only at h
      cases hcomplete : a.complete ((b.insts[a.position]?).bind Inst.result) v with
      | error f =>
        rw [hcomplete] at h
        cases h
      | ok a' =>
        rw [hcomplete] at h
        cases h
        exact .back hend hsome hnone hcallers hb hcomplete

theorem terminate_goes {t : Option Terminator} (hend : c.current.Ends t)
    (h : c.terminate t = .running c') : c.Goes m c' := by
  unfold terminate at h
  cases t with
  | none => cases h
  | some t =>
    cases t with
    | br dest =>
      cases h
      exact .jump hend (List.mem_singleton_self dest)
    | condBr cond t e =>
      dsimp only at h
      cases hcond : c.current.get cond with
      | error f =>
        rw [hcond] at h
        cases h
      | ok v =>
        rw [hcond] at h
        cases h
        refine .jump hend ?_
        split <;> simp [Terminator.successors]
    | ret value =>
      cases value with
      | none => exact giveBack_goes hend (by simp) (fun _ => rfl) h
      | some u =>
        dsimp only at h
        cases hu : c.current.get u with
        | error f =>
          rw [hu] at h
          cases h
        | ok v =>
          rw [hu] at h
          exact giveBack_goes hend (fun u' hu' => Option.some.inj hu' ▸ hu) (by simp) h
    | unreachable => cases h

/-! What comes next decides what a step is. -/

theorem step_of_ends {t : Option Terminator} (h : c.current.Ends t) : c.step m = c.terminate t := by
  obtain ⟨b, hb, hinst, rfl⟩ := h
  unfold step
  simp only [hb, hinst]

theorem step_of_call {i : Inst} {callee : FuncId} {args : List Operand}
    (hi : c.current.Performs i) (hcall : i.action = .call callee args) :
    c.step m = c.call m i callee args := by
  obtain ⟨b, hb, hinst⟩ := hi
  obtain ⟨result, action⟩ := i
  subst hcall
  unfold step
  simp only [hb, hinst]

/-- How a step ends that carries out an instruction within its activation. -/
def goOn (c : Config) (result : Option ValueId) : Except Halt (Value × Activation) → Step
  | .error h => .halted h c.world
  | .ok (v, a) =>
    match a.complete result v with
    | .error f => .faulted f c.world
    | .ok a => .running { c with current := a }

theorem step_of_performs {i : Inst} (hi : c.current.Performs i)
    (hcall : ∀ callee args, i.action ≠ .call callee args) :
    c.step m = c.goOn i.result (c.current.perform i.action) := by
  obtain ⟨b, hb, hinst⟩ := hi
  obtain ⟨result, action⟩ := i
  unfold step
  simp only [hb, hinst]
  cases action with
  | call callee args => exact absurd rfl (hcall callee args)
  | _ => rfl

/-- Unless its block is missing, an activation carries an instruction out or is at the end. -/
theorem next_cases (c : Config) :
    (∃ f, c.current.function.block c.current.block = .error f ∧
      c.step m = .faulted f c.world) ∨
    (∃ i callee args, c.current.Performs i ∧ i.action = .call callee args) ∨
    (∃ i, c.current.Performs i ∧ ∀ callee args, i.action ≠ .call callee args) ∨
    ∃ t, c.current.Ends t := by
  cases hb : c.current.function.block c.current.block with
  | error f =>
    refine .inl ⟨f, rfl, ?_⟩
    unfold step
    simp only [hb]
  | ok b =>
    cases hinst : b.insts[c.current.position]? with
    | none => exact .inr (.inr (.inr ⟨b.terminator, b, hb, hinst, rfl⟩))
    | some i =>
      by_cases hcall : ∃ callee args, i.action = .call callee args
      · obtain ⟨callee, args, hcall⟩ := hcall
        exact .inr (.inl ⟨i, callee, args, ⟨b, hb, hinst⟩, hcall⟩)
      · refine .inr (.inr (.inl ⟨i, ⟨b, hb, hinst⟩, fun callee args heq => ?_⟩))
        exact hcall ⟨callee, args, heq⟩

theorem goes_of_step (h : c.step m = .running c') : c.Goes m c' := by
  rcases next_cases (m := m) c with ⟨f, -, hstep⟩ | ⟨i, callee, args, hi, hcall⟩ | ⟨i, hi, hcall⟩ |
    ⟨t, hend⟩
  · cases hstep.symm.trans h
  · exact call_goes hi hcall ((step_of_call hi hcall).symm.trans h)
  · rw [step_of_performs hi hcall] at h
    cases hperform : c.current.perform i.action with
    | error e =>
      rw [hperform] at h
      cases h
    | ok r =>
      obtain ⟨v, a⟩ := r
      rw [hperform, goOn] at h
      cases hcomplete : a.complete i.result v with
      | error f =>
        rw [hcomplete] at h
        cases h
      | ok a' =>
        rw [hcomplete] at h
        cases h
        exact .inside hi (Activation.acts_of_perform hperform hcall) hcomplete
  · exact terminate_goes hend ((step_of_ends hend).symm.trans h)

/-! ### The trap of unreachable code -/

theorem call_ne_unreachable {i : Inst} {callee : FuncId} {args : List Operand} {name : String}
    {w : World} : c.call m i callee args ≠ .halted (.trap (.unreachable name)) w := by
  intro h
  unfold call at h
  split at h
  · cases h
  · cases h
  · split at h
    · split at h
      · rename_i e a w' hlibrary
        cases h
        exact (Library.call_scans hlibrary).2 name rfl
      · split at h <;> cases h
    · split at h <;> cases h

theorem unreachable_of_terminate {t : Option Terminator} {name : String} {w : World}
    (hend : c.current.Ends t) (h : c.terminate t = .halted (.trap (.unreachable name)) w) :
    name = c.current.function.name ∧
      (c.current.Ends none ∨ c.current.Ends (some .unreachable)) := by
  have hback : ∀ v, c.giveBack v ≠ .halted (.trap (.unreachable name)) w := by
    intro v hback
    unfold giveBack at hback
    split at hback
    · cases hback
    · split at hback
      · cases hback
      · dsimp only at hback
        split at hback <;> cases hback
  unfold terminate at h
  dsimp only at h
  split at h
  · cases h
  · split at h <;> cases h
  · exact absurd h (hback _)
  · split at h
    · cases h
    · exact absurd h (hback _)
  · cases h
    exact ⟨rfl, .inr hend⟩
  · cases h
    exact ⟨rfl, .inl hend⟩

/-- Code traps as unreachable only where a block ends so, or has no end. -/
theorem ends_of_unreachable {name : String} {w : World}
    (h : c.step m = .halted (.trap (.unreachable name)) w) :
    name = c.current.function.name ∧
      (c.current.Ends none ∨ c.current.Ends (some .unreachable)) := by
  rcases next_cases (m := m) c with ⟨f, -, hstep⟩ | ⟨i, callee, args, hi, hcall⟩ | ⟨i, hi, hcall⟩ |
    ⟨t, hend⟩
  · cases hstep.symm.trans h
  · exact absurd ((step_of_call hi hcall).symm.trans h) call_ne_unreachable
  · rw [step_of_performs hi hcall] at h
    unfold goOn at h
    split at h
    · rename_i e hperform
      cases h
      exact absurd hperform Activation.perform_ne_unreachable
    · split at h <;> cases h
  · exact unreachable_of_terminate hend ((step_of_ends hend).symm.trans h)

end Config

end Quill

import Quill.Proofs.Lowering.Parts
import Quill.Proofs.Machine.Bounds
import Quill.Proofs.Machine.Reading
import Quill.Proofs.Meaning.Program

/-! # Reads that come to nothing

A read that finds no value of its form leaves the machine behind the statement with all variables
as they were, except that a boolean becomes false: it is read by way of a word that is zero at
first, and that word is stored whatever was read.
-/
namespace Quill

open Ir (BlockId FuncId Function Module Operand SlotId Ty)
open Meaning (Console Simulates consoleOf)

namespace Ir.Ty

/-- A number that a variable of the type can be read from. Booleans are read from whole numbers. -/
def readsFrom (ty : Ty) (word : List UInt8) : Bool :=
  if ty.isFloat then (Decimal.readFloat? word).isSome else (Decimal.readInt64? word).isSome

/-- Behind the blanks there is nothing, or a word that is not a number of the kind that is needed.
Any byte is a character. -/
def Misses (ty : Ty) (bytes : List UInt8) : Prop :=
  let rest := bytes.dropWhile isBlank
  rest = [] ∨ ty ≠ .i8 ∧ ty.readsFrom (rest.takeWhile (!isBlank ·)) = false

end Ir.Ty

/-- The input itself fails where a variable of the type is read. -/
def Input.FailsAt (i : Input) (ty : Ty) (reason : String) : Prop :=
  if ty = .i8 then i.readChar.1 = .error reason else i.readWord.1 = .error reason

variable {m : Module} {f : Function} {c c' : Config} {p q : Spot} {slot : SlotId} {ty : Ty}

theorem Ir.Ty.Misses.bool {bytes : List UInt8} (h : Ty.i1.Misses bytes) : Ty.i32.Misses bytes :=
  Or.imp_right (fun hword => ⟨by decide, hword.2⟩) h

theorem readsFrom_nil (ty : Ty) : ty.readsFrom [] = false := by
  unfold Ty.readsFrom
  split <;> rfl

/-- Nothing is scanned, unless the input fails. -/
theorem Meaning.scan_misses {k : Console} (h : ty.Misses k.input.left) :
    (∃ k', k'.sink = k.sink ∧ (Meaning.scan ty).run k = (.ok none, k')) ∨
    ∃ reason k', k.input.FailsAt ty reason ∧
      (Meaning.scan ty).run k = (.error (.trap (.io reason)), k') := by
  rw [Meaning.scan_run]
  by_cases hi8 : ty = .i8
  · have hnil : k.input.left.dropWhile isBlank = [] := h.resolve_right fun hword => hword.1 hi8
    simp only [Input.FailsAt, if_pos hi8]
    cases hread : k.input.readChar with
    | mk r i =>
      cases r with
      | error reason => exact .inr ⟨reason, _, rfl, rfl⟩
      | ok r =>
        refine .inl ⟨{ k with input := i }, rfl, ?_⟩
        rw [Input.readChar_ok hread, hnil]
        rfl
  · simp only [Input.FailsAt, if_neg hi8]
    cases hread : k.input.readWord with
    | mk r i =>
      cases r with
      | error reason => exact .inr ⟨reason, _, rfl, rfl⟩
      | ok r =>
        refine .inl ⟨{ k with input := i }, rfl, ?_⟩
        cases r with
        | none => rfl
        | some word =>
          have hword : word = _ := Input.readWord_ok hread
          have hnumber : ty.readsFrom word = false := by
            rcases h with hnil | ⟨-, hnumber⟩
            · obtain rfl : word = [] := by simpa [hnil] using hword
              exact readsFrom_nil ty
            · exact hword ▸ hnumber
          unfold Ty.readsFrom at hnumber
          cases hfloat : ty.isFloat with
          | true =>
            simp only [hfloat, ↓reduceIte, Option.isSome_eq_false_iff, Option.isNone_iff_eq_none]
              at hnumber
            simp [hnumber]
          | false =>
            simp only [hfloat, Bool.false_eq_true, ↓reduceIte, Option.isSome_eq_false_iff,
              Option.isNone_iff_eq_none] at hnumber
            simp [hnumber]

/-! ### Scanning -/

/-- The machine goes on to a step that stops because the input fails. -/
def StopsReading (m : Module) (c : Config) (i : Input) (ty : Ty) : Prop :=
  ∃ n c' w reason, c.Steps m n c' ∧ c'.step m = .halted (.trap (.io reason)) w ∧
    i.FailsAt ty reason

theorem StopsReading.steps {n : Nat} {i : Input} (hsteps : c.Steps m n c')
    (h : StopsReading m c' i ty) : StopsReading m c i ty := by
  obtain ⟨k, d, w, reason, hrest, hstep, hfails⟩ := h
  exact ⟨_, d, w, reason, hsteps.trans hrest, hstep, hfails⟩

theorem scan_missed {source : Ty} {format : Operand} (hm : Library.IsIn m) (h : c.At f p)
    (hsource : Library.Reads source ty) (hformat : m.HasFormat source .input format)
    (hslot : f.HasSlot slot ty)
    (hcode : f.Computes p (.call Library.readId [format, .slotAddr slot]) .i32)
    (hmiss : ty.Misses c.world.input.left) :
    (∃ n c', c.Steps m n c' ∧ Scans f c p.past slot ty none c' ∧
      c'.world.sink = c.world.sink) ∨ StopsReading m c c.world.input ty := by
  have hscan : Simulates m 0 (Meaning.scan ty) c (Scans f c p.past slot ty) :=
    scan_simulates hm h hsource hformat hslot hcode
  unfold Simulates at hscan
  rcases Meaning.scan_misses (k := consoleOf c.world) hmiss with
    ⟨k', hsink, hrun⟩ | ⟨reason, k', hfails, hrun⟩
  · rw [hrun] at hscan
    obtain ⟨n, c', hsteps, hconsole, hscans⟩ := hscan
    exact .inl ⟨n, c', hsteps, hscans, (congrArg Console.sink hconsole).trans hsink⟩
  · rw [hrun] at hscan
    obtain ⟨-, n, c', w, hsteps, -, hstep, -⟩ := hscan
    exact .inr ⟨n, c', w, reason, hsteps, hstep, hfails⟩

/-! ### The statement -/

/-- The machine is behind a read that came to nothing. What is bound are the variables in sight,
and the slot is that of the variable that was to be read. -/
structure Spares (f : Function) (bound : List SlotId) (slot : SlotId) (ty : Ty) (c c' : Config)
    (q : Spot) : Prop where
  arrives : c'.At f q
  /-- The variables of the functions that wait are as they were. -/
  callers : c'.callers = c.callers
  sink : c'.world.sink = c.world.sink
  others : ∀ s ∈ bound, s ≠ slot → c'.current.slots[s.index]? = c.current.slots[s.index]?
  /-- What is not a boolean stays, and nothing else is touched. -/
  kept : ty ≠ .i1 → c'.current.slots = c.current.slots
  /-- A boolean becomes false. -/
  cleared : ty = .i1 → c'.current.slots[slot.index]? = some (.int 0)

theorem ReadCode.missed {frame : BodyFrame} {scopes : Scopes} (hm : Library.IsIn m) (h : c.At f p)
    (hslot : f.HasSlot slot ty) (hcode : ReadCode m f frame scopes slot ty p q)
    (hmiss : ty.Misses c.world.input.left) :
    (∃ n c', c.Steps m n c' ∧ Spares f scopes.slots slot ty c c' q) ∨
      StopsReading m c c.world.input ty := by
  cases hcode with
  | number hne hnumber hformat hread =>
    rcases scan_missed hm h (.number hnumber hne) hformat hslot hread hmiss with
      ⟨n, c', hsteps, hscans, hsink⟩ | hstops
    · refine .inl ⟨n, c', hsteps, hscans.arrives, hscans.callers, hsink, ?_, ?_, ?_⟩
      · intro s _ _
        rw [hscans.slots]
      · exact fun _ => hscans.slots
      · exact fun hbool => absurd hbool hne
    · exact .inr hstops
  | @bool word format _ hbool hformat hfresh halloca hread hload hcompare hstore =>
    subst hbool
    have halloced := alloca_steps (m := m) h halloca hfresh.type
    rcases scan_missed hm (h.stored word (.zero .i32)) .bool hformat hfresh.type hread hmiss.bool with
      ⟨n, c₁, hsteps, hscans, hsink⟩ | hstops
    · have hslots : c₁.current.slots = c.current.slots.set! word.index (.int 0) := hscans.slots
      have hword : c₁.current.slots[word.index]? = some (.int 0) := by
        obtain ⟨name, hdeclared⟩ := hfresh.type
        have hlt := (Array.getElem?_eq_some_iff.1 hdeclared).1
        simp [hslots, h.slots, hlt]
      have hvoid : Ty.i32 ≠ .void := by decide
      obtain ⟨hsteps₂, hpasses₂, hgives₂⟩ :=
        load_steps (m := m) hscans.arrives hload hfresh.type hword word_zero
      obtain ⟨k, c₂, hsteps₃, hworld₃, hpasses₃, hgives₃⟩ := compare_computed (m := m)
        hpasses₂.arrives (hgives₂.reads hpasses₂.arrives.function hvoid)
        ⟨get_zero rfl, rfl, word_zero⟩ hcompare
      have hfalse := store_steps (m := m) hpasses₃.arrives hstore hslot hgives₃ (by decide)
      have hsteps₄ := (((halloced.trans hsteps).trans hsteps₂).trans hsteps₃).trans hfalse
      have hslots₂ : c₂.current.slots = c.current.slots.set! word.index (.int 0) :=
        (hpasses₂.trans hpasses₃).slots.trans hslots
      refine .inl ⟨_, _, hsteps₄, hpasses₃.arrives.stored slot _, ?_, ?_, ?_, ?_, ?_⟩
      · exact (hpasses₂.trans hpasses₃).callers.trans hscans.callers
      · exact (congrArg World.sink hworld₃).trans hsink
      · intro s hs hne
        have hfar : s ≠ word := fun heq => hfresh.unbound (heq ▸ hs)
        change (c₂.current.slots.set! slot.index _)[s.index]? = _
        rw [getElem?_set_of_ne hne, hslots₂, getElem?_set_of_ne hfar]
      · exact fun hne => absurd rfl hne
      · intro _
        obtain ⟨name, hdeclared⟩ := hslot
        have hlt := (Array.getElem?_eq_some_iff.1 hdeclared).1
        change (c₂.current.slots.set! slot.index _)[slot.index]? = _
        simp [hslots₂, h.slots, hlt, Meaning.Typed.bool, Value.compare, Value.compareNumbers]
    · exact .inr (hstops.steps halloced)

/-! ### Programs -/

namespace Program

variable {o : LexerOptions} {fileName : String} {feed : Feed} {p : Program}

/-- In an accepted module every statement has its code, and wherever a run comes to the code of a
read that finds nothing of its form, it goes on behind the statement with all variables as they
were, a boolean being cleared, or stops because the input fails. -/
theorem missed_read (hparse : (Program.parse o fileName feed).outcome = .ok p)
    (hlower : p.lower.outcome = .ok m) : ∃ table : List (String × FuncId),
    (∀ (k : Nat) (r : Routine), p.routines[k]? = some r → r.body ≠ [] →
      ∃ f frame, m.functions[3 + k]? = some f ∧
        ∀ a ∈ Stmt.partsAll r.body, HasStmtCode m table f frame a) ∧
    ∀ f frame x span scopes place scopes' next,
      StmtCode m table f frame (.read x span) scopes place scopes' next →
      ∃ slot ty, scopes.find? x.text = some slot ∧ f.HasSlot slot ty ∧
        ∀ w c, (Machine.mk m w).Reaches c → c.current.function = f →
          c.current.block = place.block → c.current.position = place.position →
          ty.Misses c.world.input.left →
          (∃ n c', c.Steps m n c' ∧ Spares f scopes.slots slot ty c c' next) ∨
            StopsReading m c c.world.input ty := by
  have h := callable hparse hlower
  obtain ⟨table, -, hcode⟩ := h.code.code
  refine ⟨table, fun k r hr hbody => ?_, fun f frame x span scopes place scopes' next hread => ?_⟩
  · obtain ⟨f, hf, hroutine⟩ := hcode k r hr
    obtain ⟨_, _, frame, _, _, _, _, _, -, -, -, hstmts, -, -⟩ := hroutine.defined hbody
    exact ⟨f, frame, hf, hstmts.parts⟩
  · cases hread with
    | @read _ _ _ _ slot ty _ hx hslot hreads =>
      refine ⟨slot, ty, hx, hslot, fun w c hreaches hf hblock hposition hmiss => ?_⟩
      obtain ⟨hslots, hvalues⟩ := hreaches.isSized c.current List.mem_cons_self
      have hat : c.At f place := ⟨hf, hblock, hposition, hf ▸ hslots, hf ▸ hvalues⟩
      exact hreads.missed h.code.outside hat hslot hmiss

/-- A boolean that is printed, read from no input and printed again. -/
def clearedSource : List UInt8 := Utf8.encode "main var b: bool = 1, b print, read b, b print"

theorem cleared_runs : ∃ p m M,
    (Program.parse .usual "sample" (.whole clearedSource)).outcome = .ok p ∧
    p.lower.outcome = .ok m ∧ (Machine.mk m emptyWorld).runMain 40 = some (.ok 0, M) ∧
    M.world.sink.written.toList = Utf8.encode "1\n0\n" := by
  have hruns : ((Program.parse .usual "sample" (.whole clearedSource)).outcome.toOption.bind
      fun p => p.lower.outcome.toOption.bind fun m =>
        ((Machine.mk m emptyWorld).runMain 40).map fun r =>
          (r.1.toOption, r.2.world.sink.written.toList)) =
      some (some 0, Utf8.encode "1\n0\n") := by
    rw [Program.outcome_parse_whole]
    decide +kernel
  obtain ⟨p, hp, hruns⟩ := exists_ok_of_bind hruns
  obtain ⟨m, hm, hruns⟩ := exists_ok_of_bind hruns
  obtain ⟨⟨r, M⟩, hrun, hend⟩ := Option.map_eq_some_iff.1 hruns
  obtain ⟨hexit, hwritten⟩ := Prod.mk.inj hend
  obtain rfl : r = .ok 0 := eq_ok_of_toOption hexit
  exact ⟨p, m, M, hp, hm, hrun, hwritten⟩

/-- There is nothing to be read, and `b` was true and is false. -/
theorem read_clears : ∃ p m M,
    (Program.parse .usual "sample" (.whole clearedSource)).outcome = .ok p ∧
    p.lower.outcome = .ok m ∧ emptyWorld.input.left = [] ∧
    (Machine.mk m emptyWorld).runMain 40 = some (.ok 0, M) ∧
    M.world.sink.written.toList = Utf8.encode "1\n0\n" := by
  obtain ⟨p, m, M, hp, hm, hrun, hwritten⟩ := cleared_runs
  exact ⟨p, m, M, hp, hm, by cbv, hrun, hwritten⟩

theorem missed_read_sample : ∃ p m,
    (Program.parse .usual "sample" (.whole clearedSource)).outcome = .ok p ∧
    p.lower.outcome = .ok m ∧ ∃ table : List (String × FuncId),
    (∀ (k : Nat) (r : Routine), p.routines[k]? = some r → r.body ≠ [] →
      ∃ f frame, m.functions[3 + k]? = some f ∧
        ∀ a ∈ Stmt.partsAll r.body, HasStmtCode m table f frame a) ∧
    ∀ f frame x span scopes place scopes' next,
      StmtCode m table f frame (.read x span) scopes place scopes' next →
      ∃ slot ty, scopes.find? x.text = some slot ∧ f.HasSlot slot ty ∧
        ∀ w c, (Machine.mk m w).Reaches c → c.current.function = f →
          c.current.block = place.block → c.current.position = place.position →
          ty.Misses c.world.input.left →
          (∃ n c', c.Steps m n c' ∧ Spares f scopes.slots slot ty c c' next) ∨
            StopsReading m c c.world.input ty := by
  obtain ⟨p, m, -, hp, hm, -⟩ := cleared_runs
  exact ⟨p, m, hp, hm, missed_read hp hm⟩

end Program

end Quill

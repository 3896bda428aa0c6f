import Quill.Proofs.Lowering.Safety
import Quill.Proofs.Meaning.Call

/-! # Lowering preserves meaning

The module that a parsed program is lowered to runs as the program is evaluated. In all its runs
what is read has the type that it should have.
-/
namespace Quill

open Ir (Function Module)
open Meaning (Break Console consoleOf)

variable {m : Module} {rs : List Routine} {r : Routine} {f : Function} {c c' : Config}
  {fuel n k : Nat}

/-! ### The entry point of a module -/

namespace RoutinesCode

/-- Each function is an outside one, with a reserved name, or that of a routine. -/
theorem name_cases (h : RoutinesCode m rs) (hf : m.functions[n]? = some f) :
    (n < 3 ∧ Library.isReserved f.name) ∨ ∃ k r, n = 3 + k ∧ rs[k]? = some r ∧ f.name = r.name := by
  have hlt := (Array.getElem?_eq_some_iff.1 hf).1
  rw [h.size] at hlt
  match n with
  | 0 =>
    rw [h.outside.print] at hf
    exact .inl ⟨by decide, Option.some.inj hf ▸ rfl⟩
  | 1 =>
    rw [h.outside.read] at hf
    exact .inl ⟨by decide, Option.some.inj hf ▸ rfl⟩
  | 2 =>
    rw [h.outside.abort] at hf
    exact .inl ⟨by decide, Option.some.inj hf ▸ rfl⟩
  | k + 3 =>
    have hk : k < rs.length := by omega
    have hr := List.getElem?_eq_getElem hk
    obtain ⟨table, -, hcode⟩ := h.code
    obtain ⟨g, hg, hroutine⟩ := hcode k _ hr
    rw [Nat.add_comm] at hf
    obtain rfl := Option.some.inj (hf.symm.trans hg)
    exact .inr ⟨k, _, Nat.add_comm k 3, hr, congrArg Ir.Signature.name hroutine.signature⟩

theorem lookup?_routine (h : RoutinesCode m rs) (hr : rs[k]? = some r) :
    m.lookup? r.name = some ⟨3 + k⟩ := by
  have hreserved := h.notReserved r (List.mem_of_getElem? hr)
  obtain ⟨table, -, hcode⟩ := h.code
  obtain ⟨g, hg, hroutine⟩ := hcode k r hr
  refine h.indexed.lookup?_eq_some hg (congrArg Ir.Signature.name hroutine.signature) ?_
  intro j f hf hname
  rcases h.name_cases hf with ⟨-, hres⟩ | ⟨i, r', rfl, hr', hname'⟩
  · rw [hname, hreserved] at hres
    cases hres
  · have hi : i < (rs.map Routine.name).length := by
      simpa using (List.getElem?_eq_some_iff.1 hr').1
    have hsame : (rs.map Routine.name)[i]? = (rs.map Routine.name)[k]? := by
      rw [List.getElem?_map, List.getElem?_map, hr, hr']
      exact congrArg some (hname'.symm.trans hname)
    exact congrArg (3 + ·) ((List.getElem?_inj hi h.names).1 hsame)

/-- No function has a name that is neither reserved nor that of a routine. -/
theorem lookup?_eq_none (h : RoutinesCode m rs) {x : String} (hx : Library.isReserved x = false)
    (hrs : ∀ r ∈ rs, r.name ≠ x) : m.lookup? x = none := by
  refine h.indexed.lookup?_eq_none.2 fun g hg hname => ?_
  subst hname
  obtain ⟨j, hj⟩ := Array.mem_iff_getElem?.1 hg
  rcases h.name_cases hj with ⟨-, hres⟩ | ⟨i, r, -, hr, hname⟩
  · rw [hx] at hres
    cases hres
  · exact hrs r (List.mem_of_getElem? hr) hname.symm

end RoutinesCode

/-- The first activation does what the evaluator does from the beginning. -/
theorem main_simulates (h : Callable m rs) (hr : rs[k]? = some r)
    (hf : m.functions[3 + k]? = some f) (hbody : r.body ≠ []) (hparams : r.params = [])
    {start : Ir.BlockId} (hstart : f.entryBlock? = some start)
    (hcurrent : c.current = .enter f start []) (hcallers : c.callers = []) :
    Meaning.Simulates m fuel (Meaning.run rs fuel maxDepth r []) c (GivesBack m f.ret []) := by
  obtain ⟨table, hroutine, hstage⟩ := h.stage hr hf
  have hcalls : CallsSimulate m rs fuel 0 (Meaning.run rs fuel 511) := call_simulates h rfl
  have hargs : List.Forall₂ (fun (x : Param) (y : Value) => y.HasType x.type.ty) r.params [] := by
    rw [hparams]
    exact .nil
  rw [show maxDepth = 511 + 1 from rfl, Meaning.run, if_neg (by simpa using hbody)]
  exact body_simulates (hstage hcalls) hroutine hbody hstart
    (h.entry r (List.mem_of_getElem? hr)) hcurrent hcallers hargs

/-! ### How runs end -/

/-- The runs, each with so much fuel, end as the evaluator does. -/
def Meets {α : Type} (runs : Nat → Option (Except Halt α × World)) (fuel : Nat) :
    Except Break α × Console → Prop
  | (.ok a, k) => ∃ n w, runs n = some (.ok a, w) ∧ consoleOf w = k
  | (.error (.trap t), k) =>
    t.IsOrdinary ∧ ∃ n w, runs n = some (.error (.trap t), w) ∧ consoleOf w = k
  | (.error .outOfFuel, _) => runs fuel = none
  | (.error .stuck, _) => False

theorem Config.run_of_halted {t : Trap} {w : World} (h : c.Steps m n c')
    (hstep : c'.step m = .halted (.trap t) w) : c.run m (n + 1) = some (.error (.trap t), w) := by
  rw [h.run_add 1, Config.run, hstep]

theorem Config.run_of_returned {y : Value} {w : World} (h : c.Steps m n c')
    (hstep : c'.step m = .returned y w) : c.run m (n + 1) = some (.ok y, w) := by
  rw [h.run_add 1, Config.run, hstep]

theorem GivesBack.returned {ty : Ir.Ty} {y : Value} (h : GivesBack m ty [] y c) :
    c.step m = .returned y c.world := by
  rw [h.step]
  unfold Config.giveBack
  rw [h.callers]

theorem Meaning.Matches.meets {ty : Ir.Ty} {out : Except Break Value × Console}
    (h : Meaning.Matches m fuel c (GivesBack m ty []) out) : Meets (c.run m) fuel out := by
  match out, h with
  | (.ok y, k), ⟨n, c', hsteps, hconsole, hback⟩ =>
    exact ⟨n + 1, c'.world, Config.run_of_returned hsteps hback.returned, hconsole⟩
  | (.error (.trap t), k), ⟨ht, n, c', w, hsteps, _, hstep, hconsole⟩ =>
    exact ⟨ht, n + 1, w, Config.run_of_halted hsteps hstep, hconsole⟩
  | (.error .outOfFuel, _), ⟨n, c', hn, hsteps⟩ => exact hsteps.run_eq_none hn

theorem Meaning.Matches.isTyped {ty : Ir.Ty} {out : Except Break Value × Console}
    (h : Meaning.Matches m fuel c (GivesBack m ty []) out) (hk : k < fuel)
    (hc : c.after m k = some c') : c'.current.IsTyped := by
  match out, h with
  | (.ok y, _), ⟨n, c₁, hsteps, _, hback⟩ =>
    exact hsteps.isTyped_all hback.isTyped (by simp [hback.returned]) hc
  | (.error (.trap t), _), ⟨_, n, c₁, w, hsteps, htyped, hstep, _⟩ =>
    exact hsteps.isTyped_all htyped (by simp [hstep]) hc
  | (.error .outOfFuel, _), ⟨n, c₁, hn, hsteps⟩ =>
    exact hsteps.isTyped (Nat.lt_of_lt_of_le hk hn) hc

/-- What is left of a run of the entry point: how it ends and the world. -/
def Machine.runs (M : Machine) (fuel : Nat) : Option (Except Halt Int64 × World) :=
  (M.runMain fuel).map fun r => (r.1, r.2.world)

theorem Machine.runs_unique {M : Machine} {a b : Except Halt Int64 × World}
    (ha : M.runs n = some a) (hb : M.runs k = some b) : a = b := by
  obtain ⟨r, hr, rfl⟩ := Option.map_eq_some_iff.1 ha
  obtain ⟨s, hs, rfl⟩ := Option.map_eq_some_iff.1 hb
  rw [runMain_unique hr hs]

/-- Flushing ends a run of the machine as it ends an evaluation. -/
theorem Meets.flushed {M : Machine} {out : Except Break Value × Console}
    (h : Meets (c.run M.module) fuel out) (hfirst : M.first? = some c) :
    Meets M.runs fuel ((Meaning.flushed out.2 out.1).map Value.toInt, out.2) := by
  have hruns (n : Nat) : M.runs n = (c.run M.module n).map fun r =>
      ((Machine.flushed r.1 r.2).map Value.toInt, r.2) := by
    unfold Machine.runs
    rw [Machine.runMain_of_first? hfirst, Option.map_map]
    rfl
  match out, h with
  | (.ok y, _), ⟨n, w, hrun, rfl⟩ =>
    have hn := (hruns n).trans (congrArg _ hrun)
    cases hflush : w.sink.flushFailure <;>
      simp only [Meaning.flushed, Machine.flushed, consoleOf, hflush, Option.map_some] at hn ⊢
    · exact ⟨n, w, hn, rfl⟩
    · exact ⟨trivial, n, w, hn, rfl⟩
  | (.error (.trap t), _), ⟨ht, n, w, hrun, rfl⟩ =>
    have hn := (hruns n).trans (congrArg _ hrun)
    cases hflush : w.sink.flushFailure <;>
      simp only [Meaning.flushed, Machine.flushed, consoleOf, hflush, Option.map_some] at hn ⊢
    · exact ⟨ht, n, w, hn, rfl⟩
    · exact ⟨trivial, n, w, hn, rfl⟩
  | (.error .outOfFuel, _), h => exact (hruns fuel).trans (congrArg _ h)

theorem Meets.runMain {M : Machine} {r : Except Trap Int64} {k : Console}
    (h : Meets M.runs fuel (r.mapError .trap, k)) :
    ∃ n M', M.runMain n = some (r.mapError .trap, M') ∧ consoleOf M'.world = k := by
  have hends {n : Nat} {out : Except Halt Int64} {w : World} (hn : M.runs n = some (out, w)) :
      ∃ M', M.runMain n = some (out, M') ∧ M'.world = w := by
    obtain ⟨⟨out', M'⟩, hrun, heq⟩ := Option.map_eq_some_iff.1 hn
    obtain ⟨rfl, rfl⟩ := Prod.mk.inj heq
    exact ⟨M', hrun, rfl⟩
  match r, h with
  | .ok v, ⟨n, w, hn, hk⟩ =>
    obtain ⟨M', hrun, rfl⟩ := hends hn
    exact ⟨n, M', hrun, hk⟩
  | .error t, ⟨_, n, w, hn, hk⟩ =>
    obtain ⟨M', hrun, rfl⟩ := hends hn
    exact ⟨n, M', hrun, hk⟩

theorem Meets.ended {M M' : Machine} {x : Except Break Int64 × Console} {out : Except Halt Int64}
    (h : Meets M.runs fuel x) (hrun : M.runMain fuel = some (out, M')) :
    ∃ (r : Except Trap Int64) (k : Console), x = (r.mapError .trap, k) ∧ out = r.mapError .trap ∧
      consoleOf M'.world = k := by
  have hruns : M.runs fuel = some (out, M'.world) := by
    rw [Machine.runs, hrun]
    rfl
  match x, h with
  | (.ok v, k), ⟨n, w, hn, hk⟩ =>
    obtain ⟨rfl, rfl⟩ := Prod.mk.inj (Machine.runs_unique hruns hn)
    exact ⟨.ok v, k, rfl, rfl, hk⟩
  | (.error (.trap t), k), ⟨_, n, w, hn, hk⟩ =>
    obtain ⟨rfl, hw⟩ := Prod.mk.inj (Machine.runs_unique hruns hn)
    exact ⟨.error t, k, rfl, rfl, hw ▸ hk⟩
  | (.error .outOfFuel, _), h => cases h.symm.trans hruns

/-- The entry point begins with an activation, or it has no body. -/
theorem Callable.begins (h : Callable m rs) (hr : rs[k]? = some r) (hparams : r.params = [])
    (hlookup : m.lookup? "main" = some ⟨3 + k⟩) (w : World) :
    (r.body = [] ∧ (Machine.mk m w).first? = none ∧ ∀ fuel, (Machine.mk m w).runs fuel =
      some ((Machine.flushed (.error (.trap (.missingBody r.name))) w).map Value.toInt, w)) ∨
    (r.body ≠ [] ∧ ∃ c ty, (Machine.mk m w).first? = some c ∧ ∀ fuel,
      Meaning.Matches m fuel c (GivesBack m ty [])
        ((Meaning.run rs fuel maxDepth r []).run (consoleOf w))) := by
  obtain ⟨table, -, hcode⟩ := h.code.code
  obtain ⟨f, hf, hroutine⟩ := hcode k r hr
  have hfunction : m.function ⟨3 + k⟩ = .ok f := Ir.entry_eq_ok.2 hf
  by_cases hbody : r.body = []
  · obtain rfl := hroutine.declared hbody
    have hstart : r.declared.entryBlock? = none := rfl
    refine .inl ⟨hbody, ?_, fun fuel => ?_⟩
    · simp [Machine.first?, hlookup, hfunction, hstart, Except.toOption]
    · simp only [Machine.runs, Machine.runMain, hlookup, hfunction, hstart, Option.map_some]
      rfl
  · obtain ⟨start, -, -, -, -, -, -, -, hstart, -⟩ := hroutine.defined hbody
    refine .inr ⟨hbody, ⟨.enter f start [], [], { w with
      records := w.records.push (.trace s!"entering {f.name}") }⟩, f.ret, ?_, fun fuel => ?_⟩
    · simp [Machine.first?, hlookup, hfunction, hstart, Except.toOption]
    · exact main_simulates h hr hf hbody hparams hstart rfl rfl

/-! ### Programs -/

namespace Program

variable {o : LexerOptions} {fileName : String} {feed : Feed} {p : Program}

/-- The module of a parsed program may be run, whether constants are cast at once or not. -/
theorem callable_of_lowerFrom (hparse : (Program.parse o fileName feed).outcome = .ok p)
    {s : Lowering} (hs : Lower.Declares [] s) (hlower : (p.lowerFrom s).outcome = .ok m) :
    Callable m p.routines := by
  have hvoid := params_routines hparse
  constructor
  · rcases p.lowerFrom_outcome hs hvoid with ⟨m', hm', hcode, -⟩ | ⟨e, he, -⟩
    · exact Except.ok.inj (hm'.symm.trans hlower) ▸ hcode
    · cases he.symm.trans hlower
  · exact hvoid
  · intro r hr hentry
    rcases List.mem_append.1 hr with hr | hr
    · obtain ⟨f, -, rfl⟩ := List.mem_map.1 hr
      cases hentry
    · obtain ⟨e, -, rfl⟩ := Option.map_eq_some_iff.1 (Option.mem_toList.1 hr)
      rfl

theorem callable (hparse : (Program.parse o fileName feed).outcome = .ok p)
    (hlower : p.lower.outcome = .ok m) : Callable m p.routines :=
  callable_of_lowerFrom hparse (Lower.start_declares p.fileName) hlower

theorem main_cases (hparse : (Program.parse o fileName feed).outcome = .ok p)
    (hcode : RoutinesCode m p.routines) :
    (p.main = none ∧ m.lookup? "main" = none) ∨
    ∃ e k, p.main = some e ∧ p.routines[k]? = some e.routine ∧ m.lookup? "main" = some ⟨3 + k⟩ := by
  cases hmain : p.main with
  | none =>
    refine .inl ⟨rfl, hcode.lookup?_eq_none rfl fun r hr hname => ?_⟩
    have hentry := isEntry_of_main hparse r hr hname
    rw [routines, hmain] at hr
    obtain ⟨f, -, rfl⟩ := List.mem_map.1 (List.append_nil _ ▸ hr)
    cases hentry
  | some e =>
    have hr : p.routines[p.functions.length]? = some e.routine := by
      rw [routines, hmain, List.getElem?_append_right (by simp)]
      simp
    exact .inr ⟨e, _, rfl, hr, hcode.lookup?_routine hr⟩

/-- Runs of code of the program end as evaluations of the program do. -/
theorem callable_meets (hparse : (Program.parse o fileName feed).outcome = .ok p)
    (h : Callable m p.routines) (w : World) (fuel : Nat) :
    Meets (Machine.mk m w).runs fuel (Meaning.evaluate p fuel (consoleOf w)) := by
  unfold Meaning.evaluate
  rcases main_cases hparse h.code with ⟨hmain, hlookup⟩ | ⟨e, k, hmain, hr, hlookup⟩
  · rw [hmain]
    refine ⟨trivial, 0, w, ?_, rfl⟩
    simp [Machine.runs, Machine.runMain, hlookup]
  · rw [hmain]
    rcases h.begins hr rfl hlookup w with ⟨hbody, -, hruns⟩ | ⟨hbody, c, ty, hfirst, hmatches⟩
    · have hrun : (Meaning.run p.routines fuel maxDepth e.routine []).run (consoleOf w) =
          (.error (.trap (.missingBody e.routine.name)), consoleOf w) := by
        rw [show maxDepth = 511 + 1 from rfl, Meaning.run, if_pos (by rw [hbody]; rfl)]
        rfl
      have hn := hruns 0
      dsimp only
      rw [hrun]
      cases hflush : w.sink.flushFailure <;>
        simp only [Meaning.flushed, Machine.flushed, consoleOf, hflush] at hn ⊢
      · exact ⟨trivial, 0, w, hn, rfl⟩
      · exact ⟨trivial, 0, w, hn, rfl⟩
    · exact (hmatches fuel).meets.flushed hfirst

theorem evaluate_meets (hparse : (Program.parse o fileName feed).outcome = .ok p)
    (hlower : p.lower.outcome = .ok m) (w : World) (fuel : Nat) :
    Meets (Machine.mk m w).runs fuel (Meaning.evaluate p fuel (consoleOf w)) :=
  callable_meets hparse (callable hparse hlower) w fuel

/-- How runs of code end says how evaluations of its program do. -/
theorem callable_runMain (hparse : (Program.parse o fileName feed).outcome = .ok p)
    (h : Callable m p.routines) (w : World) (r : Except Trap Int64) (k : Console) :
    (∃ fuel M, (Machine.mk m w).runMain fuel = some (r.mapError .trap, M) ∧
      consoleOf M.world = k) ↔
    ∃ fuel, Meaning.evaluate p fuel (consoleOf w) = (r.mapError .trap, k) := by
  have hmeets := callable_meets hparse h w
  constructor
  · rintro ⟨fuel, M, hrun, rfl⟩
    obtain ⟨r', k, heval, hr, rfl⟩ := (hmeets fuel).ended hrun
    have hsame : r = r' := by
      cases r <;> cases r' <;> cases hr <;> rfl
    exact ⟨fuel, hsame ▸ heval⟩
  · rintro ⟨fuel, heval⟩
    have h := hmeets fuel
    rw [heval] at h
    exact h.runMain

theorem evaluate_runMain (hparse : (Program.parse o fileName feed).outcome = .ok p)
    (hlower : p.lower.outcome = .ok m) (w : World) (r : Except Trap Int64) (k : Console) :
    (∃ fuel M, (Machine.mk m w).runMain fuel = some (r.mapError .trap, M) ∧
      consoleOf M.world = k) ↔
    ∃ fuel, Meaning.evaluate p fuel (consoleOf w) = (r.mapError .trap, k) :=
  callable_runMain hparse (callable hparse hlower) w r k

/-- Lowering preserves meaning. Evaluation always goes by a rule; a run of the module ends with an
exit code or a trap, and it ends so if and only if the evaluation of the program does, with the same
output and the same input left. -/
theorem lower_preserves (hparse : (Program.parse o fileName feed).outcome = .ok p)
    (hlower : p.lower.outcome = .ok m) (w : World) :
    (∀ fuel k, Meaning.evaluate p fuel (consoleOf w) ≠ (.error .stuck, k)) ∧
    (∀ fuel out M, (Machine.mk m w).runMain fuel = some (out, M) →
      ∃ r : Except Trap Int64, out = r.mapError .trap) ∧
    ∀ (r : Except Trap Int64) (k : Console),
      (∃ fuel, Meaning.evaluate p fuel (consoleOf w) = (r.mapError .trap, k)) ↔
        ∃ fuel M, (Machine.mk m w).runMain fuel = some (r.mapError .trap, M) ∧
          consoleOf M.world = k := by
  have hmeets := evaluate_meets hparse hlower w
  refine ⟨fun fuel k hstuck => ?_, fun fuel out M hrun => ?_, fun r k => ?_⟩
  · have h := hmeets fuel
    rw [hstuck] at h
    exact h
  · obtain ⟨r, k, -, rfl, -⟩ := (hmeets fuel).ended hrun
    exact ⟨r, rfl⟩
  · exact (evaluate_runMain hparse hlower w r k).symm

def emptyWorld : World := ⟨.ofFeed (.whole []), .unlimited, #[]⟩

theorem lower_preserves_sample : ∃ p m,
    (Program.parse .usual "sample" (.whole sampleSource)).outcome = .ok p ∧
    p.lower.outcome = .ok m ∧
    (∀ fuel k, Meaning.evaluate p fuel (consoleOf emptyWorld) ≠ (.error .stuck, k)) ∧
    (∀ fuel out M, (Machine.mk m emptyWorld).runMain fuel = some (out, M) →
      ∃ r : Except Trap Int64, out = r.mapError .trap) ∧
    ∀ (r : Except Trap Int64) (k : Console),
      (∃ fuel, Meaning.evaluate p fuel (consoleOf emptyWorld) = (r.mapError .trap, k)) ↔
        ∃ fuel M, (Machine.mk m emptyWorld).runMain fuel = some (r.mapError .trap, M) ∧
          consoleOf M.world = k := by
  obtain ⟨p, m, hp, hm⟩ := sample_compiles
  exact ⟨p, m, hp, hm, lower_preserves hp hm emptyWorld⟩

/-- Runs of a module are typed. In every configuration that a run comes through, what is read next
has its type, and a run that does not give an exit code ends in an ordinary trap. -/
theorem lower_typed (hparse : (Program.parse o fileName feed).outcome = .ok p)
    (hlower : p.lower.outcome = .ok m) (w : World) :
    (∀ c n c', (Machine.mk m w).first? = some c → c.after m n = some c' → c'.current.IsTyped) ∧
    ∀ fuel h M, (Machine.mk m w).runMain fuel = some (.error h, M) →
      ∃ t, h = .trap t ∧ t.IsOrdinary := by
  have hmeets := evaluate_meets hparse hlower w
  constructor
  · intro c n c' hfirst hafter
    have h := callable hparse hlower
    rcases main_cases hparse h.code with ⟨-, hlookup⟩ | ⟨e, k, -, hr, hlookup⟩
    · simp [Machine.first?, hlookup] at hfirst
    · rcases h.begins hr rfl hlookup w with ⟨-, hnone, -⟩ | ⟨-, c₁, ty, hfirst', hmatches⟩
      · cases hnone.symm.trans hfirst
      · obtain rfl := Option.some.inj (hfirst.symm.trans hfirst')
        exact (hmatches (n + 1)).isTyped (Nat.lt_succ_self n) hafter
  · intro fuel h M hrun
    have hend := hmeets fuel
    obtain ⟨r, k, heval, hr, -⟩ := hend.ended hrun
    rw [heval] at hend
    cases r with
    | ok v => cases hr
    | error t => exact ⟨t, Except.error.inj hr, hend.1⟩

theorem lower_typed_sample : ∃ p m,
    (Program.parse .usual "sample" (.whole sampleSource)).outcome = .ok p ∧
    p.lower.outcome = .ok m ∧
    (∀ c n c', (Machine.mk m emptyWorld).first? = some c → c.after m n = some c' →
      c'.current.IsTyped) ∧
    ∀ fuel h M, (Machine.mk m emptyWorld).runMain fuel = some (.error h, M) →
      ∃ t, h = .trap t ∧ t.IsOrdinary := by
  obtain ⟨p, m, hp, hm⟩ := sample_compiles
  exact ⟨p, m, hp, hm, lower_typed hp hm emptyWorld⟩

end Program

end Quill

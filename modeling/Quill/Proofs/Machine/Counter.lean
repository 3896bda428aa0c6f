import Quill.Proofs.Machine.Transitions

/-! # A counter of nested calls

The activations that wait for a call may also stand on the stack of the host: then a call is a
recursion, and a counter that goes up before it and down behind it tells how deep it is. Whatever
comes of a call, the counter is back at its value from before, and runs end as those of the
machine do that keeps its activations in a list.
-/
namespace Quill

open Ir (Function FuncId Inst Module Operand Terminator ValueId)

/-- The world, and how many calls are at work. -/
structure Counter where
  world : World
  depth : Nat

namespace Counter

/-- How a call ends and what it leaves, unless the fuel does not last. -/
abbrev Outcome := Option (Except Halt Value × Counter)

/-- Counts a call, makes it, and takes it off the counter again, whatever came of it. -/
def counted (t : Counter) (body : Counter → Outcome) : Outcome :=
  if t.depth ≥ maxDepth then some (.error (.trap .stackOverflow), t)
  else (body { t with depth := t.depth + 1 }).map fun out =>
    (out.1, { out.2 with depth := out.2.depth - 1 })

/-- Begins the body of a function; `perform` performs it. -/
def enter (perform : Activation → Counter → Outcome) (f : Function) (args : List Value)
    (t : Counter) : Outcome :=
  match f.entryBlock? with
  | none => some (.error (.trap (.missingBody f.name)), t)
  | some start =>
    perform (.enter f start args) { t with world := { t.world with
      records := t.world.records.push (.trace s!"entering {f.name}") } }

/-- Notes the result of an instruction and goes on with `perform`. -/
def resume (perform : Activation → Counter → Outcome) (result : Option ValueId) (t : Counter) :
    Except Halt (Value × Activation) → Outcome
  | .error h => some (.error h, t)
  | .ok (v, a) =>
    match a.complete result v with
    | .error f => some (.error (.fault f), t)
    | .ok a => perform a t

/-- Calls a function: an outside one at once, a defined one by `perform`. -/
def call (m : Module) (perform : Activation → Counter → Outcome) (a : Activation) (t : Counter)
    (result : Option ValueId) (callee : FuncId) (args : List Operand) : Outcome :=
  match a.getAll args, m.function callee with
  | .error f, _ | _, .error f => some (.error (.fault f), t)
  | .ok args, .ok f =>
    if f.entryBlock?.isNone then
      let (r, a, world) := Library.call m f.name t.world a args
      resume perform result { t with world } (r.map (·, a))
    else
      (t.counted (enter perform f args)).bind fun out =>
        resume perform result out.2 (out.1.map (·, a))

/-- Performs the next instruction or the terminator of an activation, and the rest by `perform`. -/
def advance (m : Module) (perform : Activation → Counter → Outcome) (a : Activation)
    (t : Counter) : Outcome :=
  match a.function.block a.block with
  | .error f => some (.error (.fault f), t)
  | .ok b =>
    match b.insts[a.position]? with
    | some ⟨result, .call callee args⟩ => call m perform a t result callee args
    | some ⟨result, action⟩ => resume perform result t (a.perform action)
    | none =>
      match b.terminator with
      | some (.br dest) => perform (a.jump dest) t
      | some (.condBr cond yes no) =>
        match a.get cond with
        | .error f => some (.error (.fault f), t)
        | .ok v => perform (a.jump (if v.toInt ≠ 0 then yes else no)) t
      | some (.ret none) => some (.ok .void, t)
      | some (.ret (some v)) => some ((a.get v).mapError .fault, t)
      | some .unreachable | none => some (.error (.trap (.unreachable a.function.name)), t)

def execute (m : Module) : Nat → Activation → Counter → Outcome
  | 0, _, _ => none
  | fuel + 1, a, t => advance m (execute m fuel) a t

def runMain (m : Module) (fuel : Nat) (t : Counter) : Option (Except Halt Int64 × Counter) :=
  match m.lookup? "main" with
  | none => some (.error (.trap .noEntryPoint), t)
  | some id =>
    match m.function id with
    | .error f => some (.error (.fault f), t)
    | .ok f =>
      (t.counted (enter (execute m fuel) f [])).map fun out =>
        ((Machine.flushed out.1 out.2.world).map Value.toInt, out.2)

variable {m : Module} {fuel : Nat} {a : Activation} {t t' : Counter} {r : Except Halt Value}
  {out : Except Halt Value × Counter}

/-! ### Every call leaves the counter as it was -/

/-- Whatever comes of a performance, the counter is back at its value from before. -/
def Restores (perform : Activation → Counter → Outcome) : Prop :=
  ∀ a t out, perform a t = some out → out.2.depth = t.depth

namespace Restores

variable {perform : Activation → Counter → Outcome}

theorem enter (h : Restores perform) {f : Function} {args : List Value}
    (hout : enter perform f args t = some out) : out.2.depth = t.depth := by
  unfold Counter.enter at hout
  cases hstart : f.entryBlock? with
  | none =>
    rw [hstart] at hout
    cases hout
    rfl
  | some start =>
    rw [hstart] at hout
    rw [h (.enter f start args) _ _ hout]

theorem counted {body : Counter → Outcome}
    (h : ∀ t out, body t = some out → out.2.depth = t.depth)
    (hout : t.counted body = some out) : out.2.depth = t.depth := by
  unfold Counter.counted at hout
  by_cases hdeep : t.depth ≥ maxDepth
  · rw [if_pos hdeep] at hout
    cases hout
    rfl
  · rw [if_neg hdeep] at hout
    obtain ⟨inner, hinner, rfl⟩ := Option.map_eq_some_iff.1 hout
    show inner.2.depth - 1 = t.depth
    rw [h _ _ hinner, Nat.add_sub_cancel]

theorem resume (h : Restores perform) {result : Option ValueId}
    {x : Except Halt (Value × Activation)} (hout : resume perform result t x = some out) :
    out.2.depth = t.depth := by
  rcases x with e | ⟨v, a⟩
  · cases hout
    rfl
  · unfold Counter.resume at hout
    dsimp only at hout
    cases hnext : a.complete result v with
    | error f =>
      rw [hnext] at hout
      cases hout
      rfl
    | ok a =>
      rw [hnext] at hout
      exact h _ _ _ hout

theorem call (h : Restores perform) {result : Option ValueId} {callee : FuncId}
    {args : List Operand} (hout : call m perform a t result callee args = some out) :
    out.2.depth = t.depth := by
  unfold Counter.call at hout
  cases hargs : a.getAll args with
  | error f =>
    rw [hargs] at hout
    cases hout
    rfl
  | ok values =>
    cases hf : m.function callee with
    | error f =>
      rw [hargs, hf] at hout
      cases hout
      rfl
    | ok f =>
      rw [hargs, hf] at hout
      dsimp only at hout
      split at hout
      · have hsame := h.resume hout
        exact hsame
      · obtain ⟨inner, hinner, hout⟩ := Option.bind_eq_some_iff.1 hout
        rw [h.resume hout]
        exact counted (fun _ _ => h.enter) hinner

theorem advance (h : Restores perform) : Restores (advance m perform) := by
  intro a t out hout
  unfold Counter.advance at hout
  split at hout
  · cases hout
    rfl
  · split at hout
    · exact h.call hout
    · exact h.resume hout
    · split at hout
      · exact h _ _ _ hout
      · split at hout
        · cases hout
          rfl
        · exact h _ _ _ hout
      · cases hout
        rfl
      · cases hout
        rfl
      · cases hout
        rfl
      · cases hout
        rfl

end Restores

/-- The counter is restored by whole activations: by returns, traps and calls within. -/
theorem execute_restores : Restores (execute m fuel) := by
  induction fuel with
  | zero =>
    intro a t out hout
    cases hout
  | succ fuel ih => exact ih.advance

theorem runMain_restores {out : Except Halt Int64 × Counter} (h : runMain m fuel t = some out) :
    out.2.depth = t.depth := by
  unfold runMain at h
  split at h
  · cases h
    rfl
  · split at h
    · cases h
      rfl
    · obtain ⟨inner, hinner, rfl⟩ := Option.map_eq_some_iff.1 h
      exact Restores.counted (fun _ _ => execute_restores.enter) hinner

/-! ### More fuel changes nothing -/

def Extends (perform perform' : Activation → Counter → Outcome) : Prop :=
  ∀ a t out, perform a t = some out → perform' a t = some out

namespace Extends

variable {perform perform' : Activation → Counter → Outcome}

theorem enter (h : Extends perform perform') {f : Function} {args : List Value}
    (hout : enter perform f args t = some out) : Counter.enter perform' f args t = some out := by
  unfold Counter.enter at hout ⊢
  cases hstart : f.entryBlock? with
  | none =>
    rw [hstart] at hout
    exact hout
  | some start =>
    rw [hstart] at hout
    exact h (.enter f start args) _ _ hout

theorem counted {body body' : Counter → Outcome}
    (h : ∀ t out, body t = some out → body' t = some out) (hout : t.counted body = some out) :
    t.counted body' = some out := by
  unfold Counter.counted at hout ⊢
  by_cases hdeep : t.depth ≥ maxDepth
  · rw [if_pos hdeep] at hout ⊢
    exact hout
  · rw [if_neg hdeep] at hout ⊢
    obtain ⟨inner, hinner, rfl⟩ := Option.map_eq_some_iff.1 hout
    rw [h _ _ hinner]
    rfl

theorem resume (h : Extends perform perform') {result : Option ValueId}
    {x : Except Halt (Value × Activation)} (hout : resume perform result t x = some out) :
    Counter.resume perform' result t x = some out := by
  rcases x with e | ⟨v, a⟩
  · exact hout
  · unfold Counter.resume at hout ⊢
    dsimp only at hout ⊢
    cases hnext : a.complete result v with
    | error f =>
      rw [hnext] at hout
      exact hout
    | ok a =>
      rw [hnext] at hout
      exact h _ _ _ hout

theorem call (h : Extends perform perform') {result : Option ValueId} {callee : FuncId}
    {args : List Operand} (hout : call m perform a t result callee args = some out) :
    Counter.call m perform' a t result callee args = some out := by
  unfold Counter.call at hout ⊢
  cases hargs : a.getAll args with
  | error f =>
    rw [hargs] at hout
    exact hout
  | ok values =>
    cases hf : m.function callee with
    | error f =>
      rw [hargs, hf] at hout
      exact hout
    | ok f =>
      rw [hargs, hf] at hout
      dsimp only at hout ⊢
      by_cases hdeclared : f.entryBlock?.isNone
      · rw [if_pos hdeclared] at hout ⊢
        exact h.resume hout
      · rw [if_neg hdeclared] at hout ⊢
        obtain ⟨inner, hinner, hout⟩ := Option.bind_eq_some_iff.1 hout
        rw [counted (fun _ _ => h.enter) hinner]
        exact h.resume hout

theorem advance (h : Extends perform perform') :
    Extends (advance m perform) (advance m perform') := by
  intro a t out hout
  unfold Counter.advance at hout ⊢
  cases hb : a.function.block a.block with
  | error f =>
    rw [hb] at hout
    exact hout
  | ok b =>
    rw [hb] at hout
    dsimp only at hout ⊢
    split at hout
    · exact h.call hout
    · exact h.resume hout
    · split at hout
      · exact h _ _ _ hout
      · rename_i cond yes no _
        cases hv : a.get cond with
        | error f =>
          rw [hv] at hout
          exact hout
        | ok v =>
          rw [hv] at hout
          exact h _ _ _ hout
      · exact hout
      · exact hout
      · exact hout
      · exact hout

end Extends

theorem execute_succ : Extends (execute m fuel) (execute m (fuel + 1)) := by
  induction fuel with
  | zero =>
    intro a t out hout
    cases hout
  | succ fuel ih => exact ih.advance

theorem execute_mono {k : Nat} (hk : fuel ≤ k) : Extends (execute m fuel) (execute m k) := by
  induction hk with
  | refl => exact fun _ _ _ hout => hout
  | step _ ih => exact fun a t out hout => execute_succ a t out (ih a t out hout)

/-! ### The machine that keeps its activations in a list -/

/-- What is done next brings the activation in front of `cs` to its end: it gives a result back,
or halts for good. -/
inductive Leads (m : Module) (cs : List Activation) : Step → Except Halt Value → World → Prop
  | running {c : Config} {r : Except Halt Value} {w : World} :
      Leads m cs (c.step m) r w → Leads m cs (.running c) r w
  | gives (a : Activation) (v : Value) (w : World) :
      Leads m cs ((Config.mk a cs w).giveBack v) (.ok v) w
  | halts (h : Halt) (w : World) : Leads m cs (.halted h w) (.error h) w

/-- One step of both machines: within the activation, into a call, or at the end. -/
inductive Agrees (m : Module) (perform : Activation → Counter → Outcome) (a : Activation)
    (cs : List Activation) (t : Counter) : Step → Outcome → Prop
  | goes (a' : Activation) (w : World) :
      Agrees m perform a cs t (.running ⟨a', cs, w⟩) (perform a' ⟨w, t.depth⟩)
  | calls (callee : Activation) (w : World) (result : Option ValueId) :
      (∀ a' w v, (Config.mk a' (a :: cs) w).giveBack v =
        (Config.mk a cs w).goOn result (.ok (v, a))) →
      Agrees m perform a cs t (.running ⟨callee, a :: cs, w⟩)
        ((perform callee ⟨w, t.depth + 1⟩).bind fun out =>
          resume perform result ⟨out.2.world, out.2.depth - 1⟩ (out.1.map (·, a)))
  | gives (v : Value) : Agrees m perform a cs t ((Config.mk a cs t.world).giveBack v)
      (some (.ok v, t))
  | halts (h : Halt) (w : World) : Agrees m perform a cs t (.halted h w)
      (some (.error h, ⟨w, t.depth⟩))

variable {perform : Activation → Counter → Outcome} {cs : List Activation} {c c' : Config}
  {w w' : World}

theorem resume_agrees (result : Option ValueId) (w : World) (x : Except Halt (Value × Activation)) :
    Agrees m perform a cs t ((Config.mk a cs w).goOn result x)
      (resume perform result ⟨w, t.depth⟩ x) := by
  rcases x with e | ⟨v, a'⟩
  · exact .halts e w
  · unfold resume Config.goOn
    dsimp only
    cases a'.complete result v with
    | error f => exact .halts (.fault f) w
    | ok a' => exact .goes a' w

/-- What a call gives back is noted as the result of the instruction that calls. -/
theorem giveBack_eq {i : Inst} (hi : a.Performs i) (a' : Activation) (w : World) (v : Value) :
    (Config.mk a' (a :: cs) w).giveBack v = (Config.mk a cs w).goOn i.result (.ok (v, a)) := by
  obtain ⟨b, hb, hinst⟩ := hi
  unfold Config.giveBack Config.goOn
  cases hcomplete : a.complete i.result v with
  | error f => simp only [hb, hinst, Option.bind_some, hcomplete]
  | ok a' => simp only [hb, hinst, Option.bind_some, hcomplete]

theorem call_agrees {i : Inst} {callee : FuncId} {args : List Operand} (hi : a.Performs i)
    (hdepth : t.depth = cs.length + 1) :
    Agrees m perform a cs t ((Config.mk a cs t.world).call m i callee args)
      (call m perform a t i.result callee args) := by
  unfold Config.call call
  dsimp only
  cases a.getAll args with
  | error f => exact .halts (.fault f) t.world
  | ok values =>
    cases m.function callee with
    | error f => exact .halts (.fault f) t.world
    | ok f =>
      dsimp only
      cases hstart : f.entryBlock? with
      | none =>
        simp only [Option.isNone_none, if_true]
        generalize Library.call m f.name t.world a values = x
        obtain ⟨r, a', w⟩ := x
        cases r with
        | error e => exact .halts e w
        | ok v => exact resume_agrees i.result w (.ok (v, a'))
      | some start =>
        simp only [Option.isNone_some, Bool.false_eq_true, if_false, counted, hdepth]
        show Agrees m perform a cs t (if cs.length + 1 ≥ maxDepth then _ else _) _
        by_cases hdeep : cs.length + 1 ≥ maxDepth
        · rw [if_pos hdeep, if_pos hdeep]
          exact .halts (.trap .stackOverflow) t.world
        · rw [if_neg hdeep, if_neg hdeep, Option.bind_map]
          unfold enter
          rw [hstart, ← hdepth]
          exact .calls _ _ i.result (giveBack_eq hi)

theorem advance_agrees (hdepth : t.depth = cs.length + 1) :
    Agrees m perform a cs t ((Config.mk a cs t.world).step m) (advance m perform a t) := by
  unfold advance
  cases hb : a.function.block a.block with
  | error f =>
    unfold Config.step
    simp only [hb]
    exact .halts (.fault f) t.world
  | ok b =>
    dsimp only
    split
    · rename_i result callee args hinst
      rw [Config.step_of_call (i := ⟨result, .call callee args⟩) ⟨b, hb, hinst⟩ rfl]
      exact call_agrees ⟨b, hb, hinst⟩ hdepth
    · rename_i result action hcall hinst
      rw [Config.step_of_performs (i := ⟨result, action⟩) ⟨b, hb, hinst⟩ hcall]
      exact resume_agrees result t.world (a.perform action)
    · rename_i hinst
      rw [Config.step_of_ends ⟨b, hb, hinst, rfl⟩]
      unfold Config.terminate
      rcases b.terminator with _ | dest | ⟨cond, yes, no⟩ | (_ | u) | _
      · exact .halts (.trap (.unreachable a.function.name)) t.world
      · exact .goes (a.jump dest) t.world
      · dsimp only
        cases a.get cond with
        | error f => exact .halts (.fault f) t.world
        | ok v => exact .goes _ t.world
      · exact .gives .void
      · dsimp only
        cases a.get u with
        | error f => exact .halts (.fault f) t.world
        | ok v => exact .gives v
      · exact .halts (.trap (.unreachable a.function.name)) t.world

namespace Leads

variable {s : Step} {v : Value} {e : Halt} {n : Nat}

theorem error (h : Leads m (a :: cs) s (.error e) w) : Leads m cs s (.error e) w := by
  generalize hr : Except.error e = r at h
  induction h with
  | running _ ih => exact .running (ih hr)
  | gives => cases hr
  | halts e' w =>
    cases hr
    exact .halts e w

/-- Behind a call that gives a result back, its caller goes on. -/
theorem through (h : Leads m (a :: cs) s (.ok v) w)
    (hrest : ∀ a', Leads m cs ((Config.mk a' (a :: cs) w).giveBack v) r w') :
    Leads m cs s r w' := by
  generalize hr : Except.ok v = x at h
  induction h with
  | running _ ih => exact .running (ih hrest hr)
  | gives a' v' w =>
    cases hr
    exact hrest a'
  | halts => cases hr

/-- A run of all activations needs more steps than the rest of it behind a call. -/
theorem run_behind {out : Except Halt Value × World} (h : Leads m (a :: cs) (c.step m) (.ok v) w)
    (hback : ∀ a', (Config.mk a' (a :: cs) w).giveBack v = .running c')
    (hrun : c.run m n = some out) : ∃ k < n, c'.run m k = some out := by
  generalize hr : Except.ok v = r at h
  generalize hs : c.step m = s at h
  induction h generalizing c n with
  | @running c₁ r w _ ih =>
    cases n with
    | zero => cases hrun
    | succ n =>
      rw [Config.run, hs] at hrun
      obtain ⟨k, hk, hrest⟩ := ih hback hrun hr rfl
      exact ⟨k, Nat.lt_succ_of_lt hk, hrest⟩
  | gives a' v' w =>
    cases hr
    cases n with
    | zero => cases hrun
    | succ n =>
      rw [Config.run, hs, hback a'] at hrun
      exact ⟨n, Nat.lt_succ_self n, hrun⟩
  | halts => cases hr

/-- The first activation of all has nobody to give its result back to. -/
theorem run (h : Leads m [] (c.step m) r w) : ∃ n, c.run m n = some (r, w) := by
  generalize hs : c.step m = s at h
  induction h generalizing c with
  | running _ ih =>
    obtain ⟨n, hn⟩ := ih rfl
    refine ⟨n + 1, ?_⟩
    rw [Config.run, hs]
    exact hn
  | gives a' v w =>
    refine ⟨1, ?_⟩
    rw [Config.run, hs]
    rfl
  | halts e w =>
    refine ⟨1, ?_⟩
    rw [Config.run, hs]

end Leads

theorem resume_leads {result : Option ValueId} {x : Except Halt (Value × Activation)}
    (h : ∀ a t, t.depth = cs.length + 1 → perform a t = some out →
      Leads m cs ((Config.mk a cs t.world).step m) out.1 out.2.world)
    (hdepth : t.depth = cs.length + 1) (hout : resume perform result t x = some out) :
    Leads m cs ((Config.mk a cs t.world).goOn result x) out.1 out.2.world := by
  rcases x with e | ⟨v, a'⟩
  · cases hout
    exact .halts e t.world
  · unfold resume at hout
    unfold Config.goOn
    dsimp only at hout ⊢
    cases hnext : a'.complete result v with
    | error f =>
      rw [hnext] at hout
      cases hout
      exact .halts (.fault f) t.world
    | ok a'' =>
      rw [hnext] at hout
      exact .running (h a'' t hdepth hout)

/-- What comes of an activation on the stack of the host comes of it in the list. -/
theorem execute_leads (hdepth : t.depth = cs.length + 1) (hout : execute m fuel a t = some out) :
    Leads m cs ((Config.mk a cs t.world).step m) out.1 out.2.world := by
  induction fuel generalizing a t cs out with
  | zero => cases hout
  | succ fuel ih =>
    have hstep : Agrees m (execute m fuel) a cs t ((Config.mk a cs t.world).step m)
        (advance m (execute m fuel) a t) := advance_agrees hdepth
    rw [execute] at hout
    generalize advance m (execute m fuel) a t = x at hstep hout
    generalize (Config.mk a cs t.world).step m = s at hstep ⊢
    cases hstep with
    | goes a' w => exact .running (ih (t := ⟨w, t.depth⟩) hdepth hout)
    | gives v =>
      cases hout
      exact .gives a v t.world
    | halts e w =>
      cases hout
      exact .halts e w
    | calls callee w result hback =>
      obtain ⟨inner, hinner, hrest⟩ := Option.bind_eq_some_iff.1 hout
      have hdeeper : t.depth + 1 = (a :: cs).length + 1 := congrArg (· + 1) hdepth
      have hcallee := ih (t := ⟨w, t.depth + 1⟩) hdeeper hinner
      have hrestored : inner.2.depth = t.depth + 1 := execute_restores _ _ _ hinner
      obtain ⟨r, t'⟩ := inner
      dsimp only at hcallee hrestored hrest
      rw [hrestored, Nat.add_sub_cancel] at hrest
      cases r with
      | error e =>
        cases hrest
        exact .running hcallee.error
      | ok v =>
        apply Leads.running
        apply hcallee.through
        intro a'
        rw [hback]
        exact resume_leads (t := ⟨t'.world, t.depth⟩) (fun _ _ => ih) hdepth hrest

/-- The fuel of a run is enough for its first activation on the stack of the host. -/
theorem exists_execute {n : Nat} {end? : Except Halt Value × World}
    (h : (Config.mk a cs w).run m n = some end?) :
    ∃ out, execute m n a ⟨w, cs.length + 1⟩ = some out := by
  induction n using Nat.strongRecOn generalizing a cs w with
  | ind n ih =>
    cases n with
    | zero => cases h
    | succ n =>
      have hstep : Agrees m (execute m n) a cs ⟨w, cs.length + 1⟩ ((Config.mk a cs w).step m)
        (advance m (execute m n) a ⟨w, cs.length + 1⟩) := advance_agrees rfl
      rw [Config.run] at h
      rw [execute]
      generalize advance m (execute m n) a ⟨w, cs.length + 1⟩ = x at hstep ⊢
      generalize (Config.mk a cs w).step m = s at hstep h
      cases hstep with
      | goes a' w => exact ih n (Nat.lt_succ_self n) h
      | gives v => exact ⟨_, rfl⟩
      | halts e w => exact ⟨_, rfl⟩
      | calls callee w' result hback =>
        obtain ⟨⟨r, t'⟩, hinner⟩ := ih n (Nat.lt_succ_self n) h
        have hinner : execute m n callee ⟨w', cs.length + 1 + 1⟩ = some (r, t') := hinner
        have hrestored : t'.depth = cs.length + 1 + 1 := execute_restores _ _ _ hinner
        have hcallee : Leads m (a :: cs) ((Config.mk callee (a :: cs) w').step m) r t'.world :=
          execute_leads rfl hinner
        dsimp only
        rw [hinner, Option.bind_some]
        dsimp only
        rw [hrestored, Nat.add_sub_cancel]
        cases r with
        | error e => exact ⟨_, rfl⟩
        | ok v =>
          -- The caller goes on with the fuel that the run has left behind the call.
          cases hnext : a.complete result v with
          | error f => exact ⟨(.error (.fault f), ⟨t'.world, cs.length + 1⟩), by
              simp only [resume, Except.map, hnext]⟩
          | ok a' =>
            have hgoes (b : Activation) : (Config.mk b (a :: cs) t'.world).giveBack v =
                .running ⟨a', cs, t'.world⟩ := by
              rw [hback, Config.goOn]
              simp only [hnext]
            obtain ⟨k, hk, hrest⟩ := hcallee.run_behind hgoes h
            obtain ⟨out, hout⟩ := ih k (Nat.lt_succ_of_lt hk) hrest
            refine ⟨out, ?_⟩
            simp only [resume, Except.map, hnext]
            exact execute_mono (Nat.le_of_lt hk) _ _ _ hout

/-- An activation without callers ends in the same way on both machines. -/
theorem execute_iff : (∃ n, execute m n a ⟨w, 1⟩ = some (r, ⟨w', 1⟩)) ↔
    ∃ n, (Config.mk a [] w).run m n = some (r, w') := by
  constructor
  · rintro ⟨n, hn⟩
    have hleads : Leads m [] ((Config.mk a [] w).step m) r w' := execute_leads rfl hn
    exact hleads.run
  · rintro ⟨n, hn⟩
    obtain ⟨⟨r', t⟩, hout⟩ := exists_execute hn
    have hrestored : t.depth = 1 := execute_restores _ _ _ hout
    have hleads : Leads m [] ((Config.mk a [] w).step m) r' t.world := execute_leads rfl hout
    obtain ⟨k, hk⟩ := hleads.run
    have hsame : (r', t.world) = (r, w') := by
      have hn' := Config.run_mono hn (Nat.le_max_left n k)
      have hk' := Config.run_mono hk (Nat.le_max_right n k)
      exact Option.some.inj (hk'.symm.trans hn')
    obtain ⟨rfl, rfl⟩ := Prod.mk.inj hsame
    obtain ⟨world, depth⟩ := t
    obtain rfl : depth = 1 := hrestored
    exact ⟨n, hout⟩

/-- With a counter or with a list of activations, a run of `main` ends in the same way. -/
theorem runMain_iff {out : Except Halt Int64} :
    (∃ fuel, runMain m fuel ⟨w, 0⟩ = some (out, ⟨w', 0⟩)) ↔
      ∃ fuel, (Machine.mk m w).runMain fuel = some (out, ⟨m, w'⟩) := by
  unfold runMain Machine.runMain counted enter
  simp only [show ¬ 0 ≥ maxDepth by decide, if_false]
  cases m.lookup? "main" with
  | none => simp
  | some id =>
    dsimp only
    cases m.function id with
    | error f => simp
    | ok f =>
      dsimp only
      cases f.entryBlock? with
      | none => simp
      | some start =>
        dsimp only
        simp only [Option.map_map]
        constructor
        · rintro ⟨fuel, h⟩
          obtain ⟨⟨r, t⟩, hinner, heq⟩ := Option.map_eq_some_iff.1 h
          have hrestored : t.depth = 1 := execute_restores _ _ _ hinner
          obtain ⟨world, depth⟩ := t
          obtain rfl : depth = 1 := hrestored
          obtain ⟨rfl, hrest⟩ := Prod.mk.inj heq
          obtain ⟨rfl, -⟩ := Counter.mk.inj hrest
          obtain ⟨n, hn⟩ := execute_iff.1 ⟨fuel, hinner⟩
          exact ⟨n, by rw [hn]⟩
        · rintro ⟨fuel, h⟩
          split at h
          · cases h
          · rename_i r world hrun
            obtain ⟨rfl, hrest⟩ := Prod.mk.inj (Option.some.inj h)
            obtain ⟨-, rfl⟩ := Machine.mk.inj hrest
            obtain ⟨n, hn⟩ := execute_iff.2 ⟨fuel, hrun⟩
            exact ⟨n, by rw [hn]; rfl⟩

end Counter

end Quill

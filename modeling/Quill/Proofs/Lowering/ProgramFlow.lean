import Quill.Proofs.Lowering.BodyFlow
import Quill.Proofs.Lowering.Program

/-! # The control flow of a program

Each routine with a body is drawn from its declaration to its exit, one after the other, and what
was drawn before stays as it is. So the chart of each function of an accepted module is known.
-/
namespace Quill

open Ir (Block BlockId Build FuncId Function Module Name Operand SlotId Terminator)

/-- The function is the finished body of the routine, and it has passed verification. -/
def Ir.Function.IsDrawn (f : Function) (r : Routine) : Prop :=
  ∃ c : Chart, c.function = f ∧ c.Shape ∧ c.Grounded ∧ c.Finished r ∧ ∃ m, f.check m = .ok ()

namespace Chart

def blank (r : Routine) (frame : Option BodyFrame) : Chart where
  function := r.declared
  block := entryId
  scopes := []
  frame := frame
  before _ := []
  known := []
  loose := []
  leaves := []

def opening (r : Routine) (frame : Option BodyFrame) : Chart :=
  (((blank r frame).create "entry").attach entryId).enter entryId

variable (r : Routine) (frame : Option BodyFrame)

theorem blocks_opening : (opening r frame).function.blocks = #[⟨"entry", #[], none, false⟩] := by
  simp [opening, enter, attach, create, blank, Function.attach, Function.addBlock,
    Routine.declared, Function.declared]

theorem layout_opening : (opening r frame).function.layout = #[entryId] := by
  simp [opening, enter, attach, create, blank, Function.attach, Function.addBlock,
    Routine.declared, Function.declared]

theorem before_opening (id : BlockId) : (opening r frame).before id = [] := by
  change (if id = _ then [] else []) = _
  exact ite_self _

theorem known_opening : (opening r frame).known = [] := before_opening r frame entryId

theorem loose_opening : (opening r frame).loose = [] := by
  simp [opening, enter, attach, create, blank, nextBlock, entryId, Routine.declared,
    Function.declared]

theorem instAt_opening (p : Ir.Point) : (opening r frame).function.instAt p = none := by
  obtain ⟨⟨block⟩, index⟩ := p
  cases block <;> simp [Function.instAt, blocks_opening]

theorem terminatorOf_opening (id : BlockId) :
    (opening r frame).function.terminatorOf id = none := by
  obtain ⟨id⟩ := id
  cases id <;> simp [Function.terminatorOf, blocks_opening]

theorem shape_opening : (opening r frame).Shape where
  attached := by simp [layout_opening, blocks_opening, loose_opening, blockIds, entryId]
  entry := by simp [layout_opening]
  legal id t ht := by simp [terminatorOf_opening] at ht
  leaves := .nil
  left _ hid := (List.not_mem_nil hid).elim
  exit _ b hb := by simp [blocks_opening, exitId] at hb

theorem grounded_opening : (opening r frame).Grounded where
  nonempty := by simp [blocks_opening, entryId]
  block := by
    rw [blocks_opening]
    exact Nat.zero_lt_one
  entry := before_opening r frame entryId
  insts p i hi := by simp [instAt_opening] at hi
  ends id t ht := by simp [terminatorOf_opening] at ht
  targets id t ht := by simp [terminatorOf_opening] at ht
  once p q n hp := by simp [Function.Gives, instAt_opening] at hp
  tables p n hp := by simp [Function.Gives, instAt_opening] at hp
  known n hn := by simp [known_opening] at hn

end Chart

namespace Lower

variable {π : Place} {c c' : Chart} {r : Routine}

theorem begins_opening (r : Routine) (frame : Option BodyFrame) :
    Begins ((Chart.opening r frame).withScopes (Scopes.enter [])) where
  shape := (Chart.Step.look _ _).shape (Chart.shape_opening r frame)
  sees s hs := by simp [Chart.withScopes, Scopes.enter, Scopes.slots] at hs
  slots := rfl
  size := congrArg Array.size (Chart.blocks_opening r frame)
  block := show entryId ≠ exitId by decide
  loose := Chart.loose_opening r frame
  leaves := rfl

theorem verify_draws (span : Span) :
    π.Draws (verify π.id span) c fun _ c' => c' = c ∧ ∃ m, c.function.check m = .ok () := by
  unfold verify
  refine .get fun t ht => ?_
  split
  · rename_i hverify
    have hf : t.builder.module.function π.id = .ok c.function :=
      Ir.entry_eq_ok.2 ht.on.works.2
    exact .pure ⟨rfl, _, Module.check_of_verify hf hverify⟩
  · exact .reject
  · exact .misuse

theorem routine_draws (r : Routine) (frame : Option BodyFrame) (span : Span) (note : Record) :
    π.Draws (do
      let entry ← newBlock "entry"
      build (Build.switchTo entry)
      nested (body r)
      verify π.id span
      record note) (Chart.blank r frame) fun _ c' =>
        c'.function.IsDrawn r ∧ c'.scopes = [] := by
  refine (newBlock_draws "entry").bind fun id c₁ h₁ => ?_
  obtain ⟨rfl, rfl⟩ := h₁
  refine (Place.Draws.build (Place.switchTo_makes _)).bind fun _ c₂ h₂ => ?_
  obtain rfl : c₂ = Chart.opening r frame := h₂
  refine (nested_draws (body_draws (begins_opening r frame) r)).bind fun _ c₃ h₃ => ?_
  obtain ⟨c₄, ⟨hreaches, hfinished, hscopes⟩, hc₃⟩ := h₃
  refine (verify_draws span).bind fun _ c₅ h₅ => ?_
  obtain ⟨rfl, hcheck⟩ := h₅
  have hkeep : π.Draws (record note) c₅ fun _ c' => c' = c₅ :=
    .change fun t ht => ⟨ht.on, ht.scopes, ht.frame, ht.abort, ht.formats⟩
  refine hkeep.mono fun _ c' h => ?_
  subst h hc₃
  have hall := (Chart.Reaches.of_step (.look _ _)).trans hreaches
  exact ⟨⟨c₄, rfl, hall.shape (Chart.shape_opening r frame),
    hall.grounded (Chart.grounded_opening r frame), hfinished, hcheck⟩, hscopes⟩

/-! ### One routine after the other -/

/-- The first `n` routines are drawn, the others only declared. -/
structure Drawn (rs : List Routine) (n : Nat) (t : Lowering) : Prop where
  scopes : t.scopes = []
  abort : t.library.abort = Library.abortId
  formats : ∀ e ∈ t.formats, e.2.uses = []
  outside : Library.IsIn t.builder.module
  bound : ∀ k, 3 + rs.length ≤ k → t.builder.module.functions[k]? = none
  pending : ∀ (k : Nat) (r : Routine), n ≤ k → rs[k]? = some r →
    t.builder.module.functions[3 + k]? = some r.declared
  declared : ∀ (k : Nat) (r : Routine), rs[k]? = some r → r.body = [] →
    t.builder.module.functions[3 + k]? = some r.declared
  drawn : ∀ (k : Nat) (r : Routine), k < n → rs[k]? = some r → r.body ≠ [] →
    ∃ f, t.builder.module.functions[3 + k]? = some f ∧ f.IsDrawn r

theorem Declares.drawn {rs : List Routine} {t : Lowering} (h : Declares rs t) : Drawn rs 0 t where
  scopes := h.scopes
  abort := congrArg LibraryIds.abort h.library
  formats := by simp [h.formats]
  outside := h.defines.outside
  bound k hk := Array.getElem?_eq_none (h.defines.size ▸ hk)
  pending := h.defines.pending
  declared := h.defines.declared
  drawn k r hk := absurd hk (Nat.not_lt_zero k)

/-- What defining a routine has made of the function and left of the others. -/
theorem defineRoutine_ok {t t' : Lowering} {id : FuncId} {u : Unit}
    (hrun : (defineRoutine r id).run t = (.ok u, t')) (hbody : r.body ≠ [])
    (hf : t.builder.module.functions[id.index]? = some r.declared) (hscopes : t.scopes = [])
    (habort : t.library.abort = Library.abortId) (hformats : ∀ e ∈ t.formats, e.2.uses = []) :
    ∃ c, Place.Shows ⟨id, t.builder.module⟩ c t' ∧ c.function.IsDrawn r ∧ c.scopes = [] := by
  have hisEmpty : r.body.isEmpty = false := by simpa using hbody
  unfold defineRoutine at hrun
  simp only [hisEmpty, Bool.false_eq_true, ↓reduceIte] at hrun
  obtain ⟨_, t₁, henter, hrest⟩ := bind_ok hrun
  obtain ⟨b, hb, rfl⟩ := build_eq_ok henter
  cases hb
  have hshows : Place.Shows ⟨id, t.builder.module⟩ (Chart.blank r t.frame)
      { t with builder := { t.builder with function? := some id, block? := none } } :=
    ⟨⟨⟨rfl, hf⟩, fun _ h => (by cases h), fun _ _ => rfl⟩, hscopes, rfl, habort, hformats⟩
  obtain ⟨c, hc, hdrawn⟩ := routine_draws r t.frame r.span _ _ _ _ hshows hrest
  exact ⟨c, hc, hdrawn⟩

theorem defineRoutine_drawn {rs : List Routine} {n : Nat} {t t' : Lowering} {u : Unit}
    (h : Drawn rs n t) (hr : rs[n]? = some r)
    (hrun : (defineRoutine r ⟨3 + n⟩).run t = (.ok u, t')) : Drawn rs (n + 1) t' := by
  by_cases hempty : r.body = []
  · have hisEmpty : r.body.isEmpty = true := by simp [hempty]
    unfold defineRoutine at hrun
    simp only [hisEmpty, ↓reduceIte] at hrun
    cases hrun
    refine { h with
      pending := fun k q hk => h.pending k q (Nat.le_of_succ_le hk)
      drawn := fun k q hk hq hbody => ?_ }
    rcases Nat.lt_or_eq_of_le (Nat.le_of_lt_succ hk) with hlt | rfl
    · exact h.drawn k q hlt hq hbody
    · obtain rfl := Option.some.inj (hq.symm.trans hr)
      exact absurd hempty hbody
  · have hget := h.pending n r (Nat.le_refl n) hr
    obtain ⟨c, hc, hdrawn, hscopes⟩ :=
      defineRoutine_ok hrun hempty hget h.scopes h.abort h.formats
    have hother {k : Nat} (hk : k ≠ 3 + n) :
        t'.builder.module.functions[k]? = t.builder.module.functions[k]? := hc.on.others k hk
    have hlt := (List.getElem?_eq_some_iff.1 hr).1
    exact {
      scopes := hc.scopes.trans hscopes
      abort := hc.abort
      formats := hc.formats
      outside := by
        constructor <;> rw [hother (by omega)]
        · exact h.outside.print
        · exact h.outside.read
        · exact h.outside.abort
      bound := fun k hk => (hother (by omega)).trans (h.bound k hk)
      pending := fun k q hk hq => (hother (by omega)).trans (h.pending k q (by omega) hq)
      declared := by
        intro k q hq hbody
        have hk : k ≠ n := by
          rintro rfl
          obtain rfl := Option.some.inj (hq.symm.trans hr)
          exact hempty hbody
        exact (hother (by omega)).trans (h.declared k q hq hbody)
      drawn := by
        intro k q hk hq hbody
        rcases Nat.lt_or_eq_of_le (Nat.le_of_lt_succ hk) with hlt | rfl
        · obtain ⟨f, hf, hq⟩ := h.drawn k q hlt hq hbody
          exact ⟨f, (hother (by omega)).trans hf, hq⟩
        · obtain rfl := Option.some.inj (hq.symm.trans hr)
          exact ⟨c.function, hc.on.works.2, hdrawn⟩ }

theorem defineRoutines_drawn {rs rest : List Routine} {n : Nat} {t t' : Lowering} {u : Unit}
    (h : Drawn rs n t) (hrest : rs.drop n = rest)
    (hrun : ((rest.zip ((List.range' (3 + n) rest.length).map FuncId.mk)).forM
      fun (r, id) => defineRoutine r id).run t = (.ok u, t')) :
    Drawn rs (n + rest.length) t' := by
  induction rest generalizing n t with
  | nil =>
    cases hrun
    exact h
  | cons r rest ih =>
    have hr : rs[n]? = some r := by
      have := congrArg (·[0]?) hrest
      simpa using this
    have hnext : rs.drop (n + 1) = rest := by
      rw [← List.drop_drop, hrest, List.drop_succ_cons, List.drop_zero]
    rw [List.length_cons, List.range'_succ, List.map_cons, List.zip_cons_cons, List.forM] at hrun
    obtain ⟨_, t₁, hdefine, hrest⟩ := bind_ok hrun
    have hall := ih (defineRoutine_drawn h hr hdefine) hnext hrest
    rwa [Nat.add_assoc, Nat.add_comm 1] at hall

theorem routines_drawn {rs : List Routine} {name : String} {t : Lowering} {u : Unit}
    (hrun : (routines rs).run (.start name) = (.ok u, t)) : Drawn rs rs.length t := by
  obtain ⟨ids, t₁, hdeclare, hdefine⟩ := bind_ok hrun
  have hdeclares := declareRoutines_reaches (start_declares name) rs
  unfold Reaches at hdeclares
  rw [hdeclare] at hdeclares
  obtain ⟨ht₁, rfl⟩ := hdeclares
  rw [List.nil_append] at ht₁
  simpa using defineRoutines_drawn ht₁.drawn List.drop_zero hdefine

theorem index_cases (k : Nat) : k = 0 ∨ k = 1 ∨ k = 2 ∨ ∃ j, k = 3 + j := by
  by_cases hk : k < 3
  · omega
  · exact .inr (.inr (.inr ⟨k - 3, by omega⟩))

/-- A function of the module is a declaration, or a routine that is drawn. -/
theorem Drawn.function_cases {rs : List Routine} {t : Lowering} {k : Nat} {f : Function}
    (h : Drawn rs rs.length t) (hf : t.builder.module.functions[k]? = some f) :
    f.layout = #[] ∨ ∃ j r, k = 3 + j ∧ rs[j]? = some r ∧ r.body ≠ [] ∧ f.IsDrawn r := by
  rcases index_cases k with rfl | rfl | rfl | ⟨j, rfl⟩
  · cases h.outside.print.symm.trans hf
    exact .inl rfl
  · cases h.outside.read.symm.trans hf
    exact .inl rfl
  · cases h.outside.abort.symm.trans hf
    exact .inl rfl
  · have hj : j < rs.length := by
      refine Nat.lt_of_not_le fun hle => ?_
      rw [h.bound (3 + j) (by omega)] at hf
      cases hf
    have hr := List.getElem?_eq_getElem hj
    by_cases hbody : rs[j].body = []
    · cases (h.declared j _ hr hbody).symm.trans hf
      exact .inl rfl
    · obtain ⟨g, hg, hdrawn⟩ := h.drawn j _ hj hr hbody
      obtain rfl := Option.some.inj (hg.symm.trans hf)
      exact .inr ⟨j, _, rfl, hr, hbody, hdrawn⟩

end Lower

/-- The functions of an accepted module: the outside ones, the routines that are only declared, and
those that are drawn. -/
theorem Program.lower_drawn {p : Program} {m : Module} (h : p.lower.outcome = .ok m) :
    ∃ t, Lower.Drawn p.routines p.routines.length t ∧ t.builder.module = m := by
  unfold lower lowerFrom at h
  cases hrun : (Lower.routines p.routines).run (.start p.fileName) with
  | mk r t =>
    rw [hrun] at h
    cases r with
    | error e => cases h
    | ok u =>
      cases h
      exact ⟨t, Lower.routines_drawn hrun, rfl⟩

end Quill

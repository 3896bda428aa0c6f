import Quill.Proofs.Lowering.Body

/-! # Programs become modules

Lowering declares all routines and then defines one after the other. What it accepts is code of
the program, and every function of it passes verification.
-/
namespace Quill

open Ir (Block BlockId Build Builder FuncId Function Global Module Operand SlotId Ty)
open Library (Direction)

namespace Lower

/-! ### Declarations -/

/-- The routines are declared, and nothing else has happened. -/
structure Declares (rs : List Routine) (t : Lowering) : Prop where
  functions : t.builder.module.functions = #[Library.printFunction, Library.readFunction,
    Library.abortFunction] ++ (rs.map Routine.declared).toArray
  indexed : t.builder.module.IsIndexed
  names : (rs.map Routine.name).Nodup
  notReserved : ∀ r ∈ rs, Library.isReserved r.name = false
  table : ∀ x id, t.functions.lookup x = some id ↔
    ∃ k r, rs[k]? = some r ∧ r.isEntry = false ∧ r.name = x ∧ id = ⟨3 + k⟩
  library : t.library = ⟨⟨0⟩, ⟨1⟩, ⟨2⟩⟩
  scopes : t.scopes = []
  formats : t.formats = []
  frame : t.frame = none

theorem declareFunction_ok {b : Builder} (hb : b.module.IsIndexed) {name : String}
    (params : List Ir.Param) (ret : Ty) (h : ∀ f ∈ b.module.functions, f.name ≠ name) :
    Build.declareFunction name params ret b = .ok (some ⟨b.module.functions.size⟩,
      { b with module := b.module.declare (.declared name params ret) }) := by
  unfold Build.declareFunction
  rw [Build.bind_of_ok _ (Build.get_apply _)]
  simp only [hb.lookup?_eq_none.2 h, Option.isSome_none, Bool.false_eq_true, ↓reduceIte]
  rfl

theorem declareFunction_taken {b : Builder} (hb : b.module.IsIndexed) {name : String}
    (params : List Ir.Param) (ret : Ty) (h : ¬∀ f ∈ b.module.functions, f.name ≠ name) :
    Build.declareFunction name params ret b = .ok (none, b) := by
  have htaken : (b.module.lookup? name).isSome := by
    rw [Option.isSome_iff_ne_none]
    exact fun hnone => h (hb.lookup?_eq_none.1 hnone)
  unfold Build.declareFunction
  rw [Build.bind_of_ok _ (Build.get_apply _)]
  simp only [htaken, ↓reduceIte]
  rfl

theorem modifyFunction_ok {b : Builder} {id : FuncId} {f : Function}
    (h : b.module.functions[id.index]? = some f) (change : Function → Function) :
    Build.modifyFunction id change b = .ok ((), { b with module := { b.module with
      functions := b.module.functions.modify id.index change } }) := by
  have hf : b.module.function id = .ok f := Ir.entry_eq_ok.2 h
  unfold Build.modifyFunction
  rw [Build.bind_of_ok _ (Build.get_apply _), Build.bind_apply, Build.discard_apply,
    Build.ofExcept_apply, hf]
  rfl

def libraryModule (name : String) : Module where
  name
  functions := #[Library.printFunction, Library.readFunction, Library.abortFunction]
  globals := #[]
  byName := [(Library.abortName, ⟨2⟩), (Library.readName, ⟨1⟩), (Library.printName, ⟨0⟩)]

theorem declareLibrary_ok (name : String) :
    Lowering.declareLibrary (.empty name) =
      .ok (some ⟨⟨0⟩, ⟨1⟩, ⟨2⟩⟩, ⟨libraryModule name, none, none⟩) := by
  have hprint := Module.isIndexed_empty name
  have hread := hprint.declare (.declared Library.printName [⟨"format", .pointerTo .i8⟩] .i32)
  have habort := hread.declare (.declared Library.readName [⟨"format", .pointerTo .i8⟩] .i32)
  unfold Lowering.declareLibrary
  rw [Build.bind_of_ok _ (declareFunction_ok hprint _ _ (by simp [Builder.empty, Module.empty]))]
  rw [Build.bind_of_ok _ (declareFunction_ok hread _ _ (by
    simp [Builder.empty, Module.empty, Module.declare, Function.declared, Library.printName,
      Library.readName]))]
  rw [Build.bind_of_ok _ (declareFunction_ok habort _ _ (by
    simp [Builder.empty, Module.empty, Module.declare, Function.declared, Library.printName,
      Library.readName, Library.abortName]))]
  simp only [Builder.empty, Module.empty, Module.declare, Build.setVariadic, Build.setNoReturn]
  rw [Build.bind_of_ok _ (modifyFunction_ok rfl _), Build.bind_of_ok _ (modifyFunction_ok rfl _),
    Build.bind_of_ok _ (modifyFunction_ok rfl _)]
  rfl

theorem start_eq (name : String) : Lowering.start name =
    { builder := ⟨libraryModule name, none, none⟩
      scopes := [], functions := [], library := ⟨⟨0⟩, ⟨1⟩, ⟨2⟩⟩, formats := [], frame := none
      folds := true, records := #[] } := by
  unfold Lowering.start
  rw [declareLibrary_ok]

theorem start_declares (name : String) : Declares [] (.start name) := by
  rw [start_eq]
  exact {
    functions := rfl
    indexed := rfl
    names := .nil
    notReserved := by simp
    table := by simp
    library := rfl
    scopes := rfl
    formats := rfl
    frame := rfl }

theorem getElem?_append_one {α : Type} {xs : List α} {a b : α} {k : Nat} :
    (xs ++ [a])[k]? = some b ↔ xs[k]? = some b ∨ (k = xs.length ∧ b = a) := by
  rw [List.getElem?_append]
  split
  · rename_i hk
    constructor
    · exact .inl
    · rintro (h | ⟨rfl, -⟩)
      · exact h
      · omega
  · rename_i hk
    rw [List.getElem?_eq_none (Nat.not_lt.1 hk), List.getElem?_singleton]
    constructor
    · intro h
      split at h
      · exact .inr ⟨by omega, (Option.some.inj h).symm⟩
      · cases h
    · rintro (h | ⟨rfl, rfl⟩)
      · cases h
      · simp

/-- A function that may be called is found under its name; the entry point is not. -/
theorem table_append {done : List Routine} {table : List (String × FuncId)} {r : Routine}
    (h : ∀ x id, table.lookup x = some id ↔
      ∃ k q, done[k]? = some q ∧ q.isEntry = false ∧ q.name = x ∧ id = ⟨3 + k⟩)
    (hnew : ∀ q ∈ done, q.name ≠ r.name) (x : String) (id : FuncId) :
    (if r.isEntry then table else (r.name, ⟨3 + done.length⟩) :: table).lookup x = some id ↔
      ∃ k q, (done ++ [r])[k]? = some q ∧ q.isEntry = false ∧ q.name = x ∧ id = ⟨3 + k⟩ := by
  simp only [getElem?_append_one]
  constructor
  · intro hx
    have hcases : table.lookup x = some id ∨
        (r.isEntry = false ∧ x = r.name ∧ id = ⟨3 + done.length⟩) := by
      split at hx
      · exact .inl hx
      · rename_i hentry
        rw [List.lookup_cons] at hx
        split at hx
        · rename_i heq
          exact .inr ⟨by simpa using hentry, eq_of_beq heq, (Option.some.inj hx).symm⟩
        · exact .inl hx
    rcases hcases with hold | ⟨hentry, hname, hid⟩
    · obtain ⟨k, q, hq, hrest⟩ := (h x id).1 hold
      exact ⟨k, q, .inl hq, hrest⟩
    · exact ⟨_, r, .inr ⟨rfl, rfl⟩, hentry, hname.symm, hid⟩
  · rintro ⟨k, q, hq | ⟨rfl, rfl⟩, hentry, hname, hid⟩
    · have hold := (h x id).2 ⟨k, q, hq, hentry, hname, hid⟩
      have hne : x ≠ r.name := hname ▸ hnew q (List.mem_of_getElem? hq)
      split
      · exact hold
      · have hdiffer : (x == r.name) = false := by simpa using hne
        rw [List.lookup_cons, hdiffer]
        exact hold
    · simp [hentry, hname, hid]

section

variable {done : List Routine} {t : Lowering}

theorem Declares.size (h : Declares done t) :
    t.builder.module.functions.size = 3 + done.length := by
  rw [h.functions]
  simp
  omega

/-- A name that no function of the module has is the name of no declared routine. -/
theorem Declares.fresh (h : Declares done t) {name : String}
    (hnew : ∀ f ∈ t.builder.module.functions, f.name ≠ name) : ∀ q ∈ done, q.name ≠ name := by
  intro q hq
  refine hnew q.declared ?_
  rw [h.functions]
  simp only [List.append_toArray, List.mem_toArray, List.mem_append]
  exact .inr (List.mem_map_of_mem hq)

/-- One more routine is declared; if it is not the entry point, it may be called. -/
theorem Declares.next (h : Declares done t) {r : Routine}
    (hreserved : Library.isReserved r.name = false)
    (hnew : ∀ f ∈ t.builder.module.functions, f.name ≠ r.name) :
    Declares (done ++ [r]) { t with
      builder := { t.builder with module := t.builder.module.declare r.declared }
      functions := if r.isEntry then t.functions
        else (r.name, ⟨t.builder.module.functions.size⟩) :: t.functions } where
  functions := by
    change t.builder.module.functions.push _ = _
    rw [h.functions]
    simp
  indexed := h.indexed.declare r.declared
  names := by
    rw [List.map_append, List.nodup_append]
    refine ⟨h.names, by simp, ?_⟩
    rintro _ hq _ hr rfl
    obtain ⟨q, hq, hqr⟩ := List.mem_map.1 hq
    exact h.fresh hnew q hq (by simpa [hqr] using hr)
  notReserved := by
    intro q hq
    rcases List.mem_append.1 hq with hq | hq
    · exact h.notReserved q hq
    · obtain rfl := List.mem_singleton.1 hq
      exact hreserved
  table := by
    rw [h.size]
    exact table_append h.table (h.fresh hnew)
  library := h.library
  scopes := h.scopes
  formats := h.formats
  frame := h.frame

theorem declareRoutine_reaches (h : Declares done t) (r : Routine) :
    Reaches (declareRoutine r) t fun id t' => Declares (done ++ [r]) t' ∧ id = ⟨3 + done.length⟩ := by
  unfold declareRoutine
  cases hreserved : Library.isReserved r.name with
  | true =>
    simp only [↓reduceIte]
    exact .bind (Q := fun _ _ => False) (.reject (by simp [LoweringError.IsUserFacing]))
      fun _ _ hfalse => hfalse.elim
  | false =>
    simp only [Bool.false_eq_true, ↓reduceIte]
    by_cases hnew : ∀ f ∈ t.builder.module.functions, f.name ≠ r.name
    · refine .step (build_ok (declareFunction_ok h.indexed _ _ hnew)) ?_
      have hnext := h.next hreserved hnew
      have hid : (⟨t.builder.module.functions.size⟩ : FuncId) = ⟨3 + done.length⟩ :=
        congrArg FuncId.mk h.size
      cases hentry : r.isEntry with
      | true =>
        simp only [hentry, ↓reduceIte] at hnext
        simp only [Bool.not_true, Bool.false_eq_true, ↓reduceIte]
        exact .step (x := record _) rfl (.pure ⟨{ hnext with }, hid⟩)
      | false =>
        simp only [hentry, Bool.false_eq_true, ↓reduceIte] at hnext
        simp only [Bool.not_false, ↓reduceIte]
        refine .step (x := modify _) rfl ?_
        exact .step (x := record _) rfl (.pure ⟨{ hnext with }, hid⟩)
    · exact .step (build_ok (declareFunction_taken h.indexed _ _ hnew))
        (.reject (by simp [LoweringError.IsUserFacing]))

end

theorem declareRoutines_reaches {done : List Routine} {t : Lowering} (h : Declares done t)
    (rs : List Routine) :
    Reaches (rs.mapM declareRoutine) t fun ids t' => Declares (done ++ rs) t' ∧
      ids = (List.range' (3 + done.length) rs.length).map FuncId.mk := by
  induction rs generalizing done t with
  | nil => exact .pure ⟨by simpa using h, rfl⟩
  | cons r rest ih =>
    rw [List.mapM_cons]
    refine (declareRoutine_reaches h r).bind fun id t₁ ⟨h₁, hid⟩ => ?_
    refine (ih h₁).bind fun ids t₂ ⟨h₂, hids⟩ => .pure ⟨by simpa using h₂, ?_⟩
    rw [hid, hids, List.length_cons, List.range'_succ, List.map_cons, List.length_append]
    rfl

/-! ### Definitions -/

/-- A module that lowering may still arrive at. -/
structure Later (t : Lowering) (m : Module) : Prop where
  signatures : ∀ k : Nat, (m.functions[k]?).map Function.signature =
    (t.builder.module.functions[k]?).map Function.signature
  globals : ∀ (k : Nat) (g : Global), t.builder.module.globals[k]? = some g →
    m.globals[k]? = some g
  outside : Library.IsIn m

/-- The first `n` routines are defined, the others only declared. -/
structure Defines (rs : List Routine) (table : List (String × FuncId)) (n : Nat) (t : Lowering) :
    Prop where
  functions : t.functions = table
  library : t.library = ⟨⟨0⟩, ⟨1⟩, ⟨2⟩⟩
  scopes : t.scopes = []
  frame : t.frame = none
  formats : ∀ ty dir v, t.formats.lookup (ty, dir) = some v → ∃ id name, v = .global id ∧
    t.builder.module.globals[id.index]? = some ⟨name, Library.format ty dir⟩
  size : t.builder.module.functions.size = 3 + rs.length
  indexed : t.builder.module.IsIndexed
  outside : Library.IsIn t.builder.module
  signature : ∀ (k : Nat) (r : Routine), rs[k]? = some r →
    (t.builder.module.functions[3 + k]?).map Function.signature = some r.declared.signature
  pending : ∀ (k : Nat) (r : Routine), n ≤ k → rs[k]? = some r →
    t.builder.module.functions[3 + k]? = some r.declared
  declared : ∀ (k : Nat) (r : Routine), rs[k]? = some r → r.body = [] →
    t.builder.module.functions[3 + k]? = some r.declared
  defined : ∀ (k : Nat) (r : Routine), k < n → rs[k]? = some r → r.body ≠ [] →
    ∃ f, t.builder.module.functions[3 + k]? = some f ∧ ∀ m, Later t m →
      m.functions[3 + k]? = some f → f.check m = .ok () ∧ BodyCode m table f r

theorem Declares.defines {rs : List Routine} {t : Lowering} (h : Declares rs t) :
    Defines rs t.functions 0 t := by
  have hdeclared (k : Nat) (r : Routine) (hr : rs[k]? = some r) :
      t.builder.module.functions[3 + k]? = some r.declared := by
    rw [h.functions]
    simp only [List.append_toArray, List.getElem?_toArray, List.cons_append, List.nil_append]
    rw [show 3 + k = k + 1 + 1 + 1 by omega]
    simp [hr]
  exact {
    functions := rfl
    library := h.library
    scopes := h.scopes
    frame := h.frame
    formats := by simp [h.formats]
    size := h.size
    indexed := h.indexed
    outside := by
      constructor <;> simp [h.functions]
    signature := fun k r hr => by rw [hdeclared k r hr]; rfl
    pending := fun k r _ hr => hdeclared k r hr
    declared := fun k r hr _ => hdeclared k r hr
    defined := fun k r hk => absurd hk (Nat.not_lt_zero k) }

def beginning (t : Lowering) (r : Routine) : Draft where
  function := (r.declared.addBlock "entry").attach ⟨0⟩
  block := ⟨0⟩
  globals := t.builder.module.globals
  formats := t.formats
  scopes := t.scopes
  frame := t.frame

section

variable {rs : List Routine} {table : List (String × FuncId)} {n : Nat} {t : Lowering} {r : Routine}

theorem Defines.params (h : Defines rs table n t)
    (hvoid : ∀ r ∈ rs, ∀ p ∈ r.params, p.type.ty ≠ .void) :
    ∀ f ∈ t.builder.module.functions, ∀ p ∈ f.params, p.ty ≠ .void := by
  intro f hf p hp
  obtain ⟨k, hk, rfl⟩ := Array.mem_iff_getElem.1 hf
  have hget := Array.getElem?_eq_getElem hk
  have hformat : ∀ q ∈ [(⟨"format", .pointerTo .i8⟩ : Ir.Param)], q.ty ≠ .void := by
    intro q hq
    rw [List.mem_singleton.1 hq]
    decide
  match k with
  | 0 =>
    rw [h.outside.print] at hget
    rw [← Option.some.inj hget] at hp
    exact hformat p hp
  | 1 =>
    rw [h.outside.read] at hget
    rw [← Option.some.inj hget] at hp
    exact hformat p hp
  | 2 =>
    rw [h.outside.abort] at hget
    rw [← Option.some.inj hget] at hp
    exact absurd hp (by simp [Library.abortFunction, Function.declared])
  | k + 3 =>
    have hlt : k < rs.length := by
      have := h.size
      omega
    have hsig := h.signature k rs[k] (List.getElem?_eq_getElem hlt)
    rw [Nat.add_comm, hget] at hsig
    have hparams : t.builder.module.functions[k + 3].params = rs[k].declared.params :=
      congrArg Ir.Signature.params (Option.some.inj hsig)
    rw [hparams] at hp
    obtain ⟨q, hq, rfl⟩ := List.mem_map.1 hp
    exact hvoid _ (List.getElem_mem hlt) q hq

def Defines.site (h : Defines rs table n t) (hr : rs[n]? = some r)
    (htable : ∀ x id, table.lookup x = some id → id.index < 3 + rs.length)
    (hvoid : ∀ r ∈ rs, ∀ p ∈ r.params, p.type.ty ≠ .void) : Site where
  state := t
  id := ⟨3 + n⟩
  id_lt := by
    have := (List.getElem?_eq_some_iff.1 hr).1
    rw [h.size]
    exact Nat.add_lt_add_left this 3
  isOwn := Nat.le_add_right 3 n
  library := h.library
  outside := h.outside
  callable := by
    rw [h.functions, h.size]
    exact htable
  params := h.params hvoid

variable (h : Defines rs table n t) (hr : rs[n]? = some r)
  (htable : ∀ x id, table.lookup x = some id → id.index < 3 + rs.length)
  (hvoid : ∀ r ∈ rs, ∀ p ∈ r.params, p.type.ty ≠ .void)

theorem entry_run {α : Type} (x : Lower α) :
    (do
      build (Build.enterFunction ⟨3 + n⟩)
      let entry ← newBlock "entry"
      build (Build.switchTo entry)
      x).run t = x.run ((h.site hr htable hvoid).working (beginning t r)) := by
  have hget := h.pending n r (Nat.le_refl n) hr
  have hlt := (Array.getElem?_eq_some_iff.1 hget).1
  let b₁ : Builder := { t.builder with function? := some ⟨3 + n⟩, block? := none }
  let made := r.declared.addBlock "entry"
  let b₂ : Builder := { b₁ with module := { b₁.module with
    functions := b₁.module.functions.setIfInBounds (3 + n) made } }
  have hf₁ : b₁.module.function ⟨3 + n⟩ = .ok r.declared := Ir.entry_eq_ok.2 hget
  have hf₂ : b₂.module.function ⟨3 + n⟩ = .ok made := by
    refine Ir.entry_eq_ok.2 ?_
    change (t.builder.module.functions.setIfInBounds (3 + n) made)[3 + n]? = _
    simp [hlt]
  have hcreate : Build.createBlock "entry" b₁ = .ok (⟨0⟩, b₂) := by
    unfold Build.createBlock
    rw [Build.bind_of_ok _ (Build.currentFunction_ok rfl hf₁),
      Build.bind_of_ok _ (Build.update_ok rfl hf₁ _)]
    rfl
  let b₃ : Builder := { b₂ with module := { b₂.module with
    functions := b₂.module.functions.setIfInBounds (3 + n) (made.attach ⟨0⟩) } }
  have happend : Build.appendBlock ⟨0⟩ b₂ = .ok ((), b₃) := by
    have hnot : made.isAttached ⟨0⟩ = false := by
      simp [made, Function.isAttached, Function.addBlock, Routine.declared, Function.declared]
    unfold Build.appendBlock
    rw [Build.bind_of_ok _ (Build.currentFunction_ok rfl hf₂)]
    simp only [hnot, Bool.false_eq_true, ↓reduceIte]
    exact Build.update_ok rfl hf₂ _
  have hnew : (newBlock "entry").run { t with builder := b₁ } =
      (.ok ⟨0⟩, { t with builder := b₃ }) := by
    refine build_ok (t := { t with builder := b₁ }) ?_
    rw [Build.bind_of_ok _ hcreate, Build.bind_of_ok _ happend]
    rfl
  rw [bind_run_of_ok (build_ok (b := b₁) rfl), bind_run_of_ok hnew,
    bind_run_of_ok (build_ok rfl)]
  refine congrArg x.run ?_
  simp [Site.working, Site.builder, Site.module, beginning, Defines.site, b₃, b₂, b₁, made]

theorem entry_step {α : Type} {x : Lower α} {Q : α → Lowering → Prop}
    (hx : Reaches x ((h.site hr htable hvoid).working (beginning t r)) Q) :
    Reaches (do
      build (Build.enterFunction ⟨3 + n⟩)
      let entry ← newBlock "entry"
      build (Build.switchTo entry)
      x) t Q := by
  unfold Reaches
  rw [entry_run h hr htable hvoid]
  exact hx

theorem beginning_blocks (t : Lowering) (r : Routine) :
    (beginning t r).function.blocks = #[⟨"entry", #[], none, false⟩] := by
  simp [beginning, Function.attach, Function.addBlock, Routine.declared, Function.declared]

theorem beginning_layout (t : Lowering) (r : Routine) :
    (beginning t r).function.layout = #[⟨0⟩] := by
  simp [beginning, Function.attach, Function.addBlock, Routine.declared, Function.declared]

theorem beginning_ready : (h.site hr htable hvoid).Ready (beginning t r).nest := by
  have hblocks : (beginning t r).nest.function.blocks = _ := beginning_blocks t r
  have hlayout : (beginning t r).nest.function.layout = _ := beginning_layout t r
  have hscopes : (beginning t r).nest.scopes = [[]] := congrArg Scopes.enter h.scopes
  have hframe : (beginning t r).nest.frame = none := h.frame
  exact {
    block_lt := by
      rw [hblocks]
      exact Nat.zero_lt_one
    layout_lt := by simp [hlayout, hblocks]
    layout_nodup := by simp [hlayout]
    signature := by
      have hget := h.pending n r (Nat.le_refl n) hr
      change _ = Option.map _ (t.builder.module.functions[3 + n]?)
      rw [hget]
      rfl
    slots := by simp [Draft.nest, beginning, Function.attach, Function.addBlock, Routine.declared,
      Function.declared]
    values := by simp [Draft.nest, beginning, Function.attach, Function.addBlock, Routine.declared,
      Function.declared]
    scopes := by simp [hscopes]
    bound := by simp [hscopes, Scopes.slots]
    exit := by simp [hframe]
    result := by simp [hframe]
    formats := h.formats
    sound := by
      intro m f _ k b hb
      rw [hblocks] at hb
      cases k with
      | zero =>
        cases hb
        exact ⟨by simp, by simp, by simp, by simp⟩
      | succ k => simp at hb
    isOpen := by
      refine ⟨⟨"entry", #[], none, false⟩, ?_, rfl⟩
      rw [hblocks]
      rfl }

/-- The body of a routine becomes a function that passes, whatever comes later. -/
theorem body_reaches :
    (h.site hr htable hvoid).Leads (nested (body r)) (beginning t r) fun _ d' =>
      FollowsBody (h.site hr htable hvoid) (beginning t r).nest r d' ∧ d'.scopes = [] := by
  have hblocks : (beginning t r).nest.function.blocks = _ := beginning_blocks t r
  have hlayout : (beginning t r).nest.function.layout = _ := beginning_layout t r
  refine Site.nested_leads ((body_leads (beginning_ready h hr htable hvoid) r rfl
    (hvoid r (List.mem_of_getElem? hr)) rfl ?_ ?_ ?_ ?_ ?_).mono fun _ d' hd' => ⟨?_, ?_⟩)
  · rintro k ⟨b, hb, -⟩
    have hk := (Array.getElem?_eq_some_iff.1 hb).1
    rw [hblocks] at hk
    cases k
    simp_all [Draft.nest, beginning]
  · rintro k ⟨hk, hnot⟩
    rw [hblocks] at hk
    rw [hlayout] at hnot
    cases k
    simp_all
  · exact congrArg (·[0]?) hlayout
  · refine ⟨⟨"entry", #[], none, false⟩, ?_, rfl, rfl⟩
    rw [hblocks]
    rfl
  · exact congrArg Scopes.enter h.scopes
  · exact { hd' with
      scopes := by
        change d'.scopes.tail.tail = t.scopes
        rw [show d'.scopes.tail = t.scopes from hd'.scopes, h.scopes]
        rfl
      check := fun m f hf => hd'.check m f (hf.of_same rfl rfl)
      code := fun m f hf => hd'.code m f (hf.of_same rfl rfl) }
  · exact hd'.scopes.trans h.scopes

end

variable {rs : List Routine} {table : List (String × FuncId)} {n : Nat} {t : Lowering} {r : Routine}

theorem verify_ok {m : Module} {id : FuncId} {f : Function} (hf : m.functions[id.index]? = some f)
    (hcheck : f.check m = .ok ()) : m.verify id = .ok () := by
  have hfunction : m.function id = .ok f := Ir.entry_eq_ok.2 hf
  simp [Module.verify, hfunction, hcheck, Ir.Check.ofFault, Ir.Check.within, Ir.mapError_ok, bind,
    Except.bind]

theorem verify_run {t : Lowering} {id : FuncId} (h : t.builder.module.verify id = .ok ())
    (span : Span) : (verify id span).run t = (.ok (), t) := by
  rw [verify, get_bind_run, h]
  rfl

theorem Defines.recorded (h : Defines rs table n t) (records : Array Record) :
    Defines rs table n { t with records := records } :=
  { h with
    defined := by
      intro k q hk hq hbody
      obtain ⟨f, hf, hpass⟩ := h.defined k q hk hq hbody
      exact ⟨f, hf, fun m hm => hpass m ⟨hm.1, hm.2, hm.3⟩⟩ }

theorem Defines.skip (h : Defines rs table n t) (hr : rs[n]? = some r) (hempty : r.body = []) :
    Defines rs table (n + 1) t :=
  { h with
    pending := fun k q hk => h.pending k q (Nat.le_of_succ_le hk)
    defined := by
      intro k q hk hq hbody
      rcases Nat.lt_or_eq_of_le (Nat.le_of_lt_succ hk) with hlt | rfl
      · exact h.defined k q hlt hq hbody
      · obtain rfl := Option.some.inj (hq.symm.trans hr)
        exact absurd hempty hbody }

/-- Where the body of the next routine is lowered, that routine is defined too, and passes. -/
theorem Defines.next (h : Defines rs table n t) (hr : rs[n]? = some r)
    (htable : ∀ x id, table.lookup x = some id → id.index < 3 + rs.length)
    (hvoid : ∀ r ∈ rs, ∀ p ∈ r.params, p.type.ty ≠ .void) (hbody : r.body ≠ []) {d' : Draft}
    (hd' : FollowsBody (h.site hr htable hvoid) (beginning t r).nest r d')
    (hscopes : d'.scopes = []) :
    Defines rs table (n + 1) ((h.site hr htable hvoid).working d') ∧
      ((h.site hr htable hvoid).working d').builder.module.verify ⟨3 + n⟩ = .ok () := by
  have hget := h.pending n r (Nat.le_refl n) hr
  have hsig : d'.function.signature = r.declared.signature := hd'.continues.signature
  set t' := (h.site hr htable hvoid).working d' with ht'
  have hfunctions (k : Nat) : t'.builder.module.functions[k]? =
      if 3 + n = k then some d'.function else t.builder.module.functions[k]? :=
    Site.functions_builder k
  have hsignatures (k : Nat) : (t'.builder.module.functions[k]?).map Function.signature =
      (t.builder.module.functions[k]?).map Function.signature := by
    refine Site.signatures_builder ?_ k
    change _ = (t.builder.module.functions[3 + n]?).map _
    rw [hget, hsig]
    rfl
  have hself : t'.builder.module.functions[3 + n]? = some d'.function :=
    (hfunctions _).trans (if_pos rfl)
  have hother {k : Nat} (hk : k ≠ n) :
      t'.builder.module.functions[3 + k]? = t.builder.module.functions[3 + k]? :=
    (hfunctions _).trans (if_neg (by omega))
  have houtside : Library.IsIn t'.builder.module := Site.isIn_builder
  have hlater {m : Module} (hm : Later t' m) : Later t m :=
    ⟨fun k => (hm.signatures k).trans (hsignatures k),
      fun k g hg => hm.globals k g (hd'.globals k g hg), hm.outside⟩
  have hfinal {m : Module} (hm : Later t' m) (hf : m.functions[3 + n]? = some d'.function) :
      (h.site hr htable hvoid).Final d' m d'.function :=
    ⟨hf, .refl _, fun k => (hm.signatures k).trans (hsignatures k), hm.globals, hm.outside⟩
  constructor
  · exact {
      functions := h.functions
      library := h.library
      scopes := hscopes
      frame := hd'.frame
      formats := hd'.formats
      size := (Array.size_setIfInBounds ..).trans h.size
      indexed := h.indexed.setIfInBounds hget (congrArg Ir.Signature.name hsig)
      outside := houtside
      signature := fun k q hq => (hsignatures _).trans (h.signature k q hq)
      pending := fun k q hk hq => (hother (by omega)).trans (h.pending k q (by omega) hq)
      declared := by
        intro k q hq hempty
        have hk : k ≠ n := by
          rintro rfl
          obtain rfl := Option.some.inj (hq.symm.trans hr)
          exact hbody hempty
        exact (hother hk).trans (h.declared k q hq hempty)
      defined := by
        intro k q hk hq hbody
        rcases Nat.lt_or_eq_of_le (Nat.le_of_lt_succ hk) with hlt | rfl
        · obtain ⟨f, hf, hpass⟩ := h.defined k q hlt hq hbody
          exact ⟨f, (hother (Nat.ne_of_lt hlt)).trans hf, fun m hm => hpass m (hlater hm)⟩
        · obtain rfl := Option.some.inj (hq.symm.trans hr)
          refine ⟨d'.function, hself, fun m hm hf => ⟨hd'.check m _ (hfinal hm hf) rfl, ?_⟩⟩
          exact h.functions ▸ hd'.code m _ (hfinal hm hf) }
  · have hrefl : Later t' t'.builder.module := ⟨fun _ => rfl, fun _ _ hg => hg, houtside⟩
    exact verify_ok hself (hd'.check _ _ (hfinal hrefl hself) rfl)

theorem defineRoutine_reaches (h : Defines rs table n t) (hr : rs[n]? = some r)
    (htable : ∀ x id, table.lookup x = some id → id.index < 3 + rs.length)
    (hvoid : ∀ r ∈ rs, ∀ p ∈ r.params, p.type.ty ≠ .void) :
    Reaches (defineRoutine r ⟨3 + n⟩) t fun _ => Defines rs table (n + 1) := by
  unfold defineRoutine
  by_cases hempty : r.body = []
  · simp only [hempty, List.isEmpty_nil, ↓reduceIte]
    exact .pure (h.skip hr hempty)
  · have hisEmpty : r.body.isEmpty = false := by simpa using hempty
    simp only [hisEmpty, Bool.false_eq_true, ↓reduceIte]
    refine entry_step h hr htable hvoid ?_
    refine .bind (body_reaches h hr htable hvoid) fun _ t' ⟨d', ht', hd', hscopes⟩ => ?_
    subst ht'
    obtain ⟨hnext, hverify⟩ := h.next hr htable hvoid hempty hd' hscopes
    exact .step (verify_run hverify _) (.of_run (x := record _) rfl (hnext.recorded _))

theorem defineRoutines_reaches {rest : List Routine} {t : Lowering} (h : Defines rs table n t)
    (hrest : rs.drop n = rest)
    (htable : ∀ x id, table.lookup x = some id → id.index < 3 + rs.length)
    (hvoid : ∀ r ∈ rs, ∀ p ∈ r.params, p.type.ty ≠ .void) :
    Reaches ((rest.zip ((List.range' (3 + n) rest.length).map FuncId.mk)).forM
      fun (r, id) => defineRoutine r id) t fun _ => Defines rs table (n + rest.length) := by
  induction rest generalizing n t with
  | nil => exact .pure h
  | cons r rest ih =>
    have hr : rs[n]? = some r := by
      have := congrArg (·[0]?) hrest
      simpa using this
    have hnext : rs.drop (n + 1) = rest := by
      rw [← List.drop_drop, hrest, List.drop_succ_cons, List.drop_zero]
    rw [List.length_cons, List.range'_succ, List.map_cons, List.zip_cons_cons, List.forM]
    refine (defineRoutine_reaches h hr htable hvoid).bind fun _ t₁ h₁ => ?_
    rw [Nat.add_comm rest.length, ← Nat.add_assoc]
    exact ih h₁ hnext

/-- When all routines are defined, the module passes and holds their code. -/
theorem Defines.finish {rs : List Routine} {table : List (String × FuncId)} {t : Lowering}
    (h : Defines rs table rs.length t) :
    (∀ (id : FuncId) (f : Function), t.builder.module.functions[id.index]? = some f →
      f.check t.builder.module = .ok ()) ∧
    ∀ (k : Nat) (r : Routine), rs[k]? = some r →
      ∃ f, t.builder.module.functions[3 + k]? = some f ∧
        RoutineCode t.builder.module table r f := by
  have hrefl : Later t t.builder.module := ⟨fun _ => rfl, fun _ _ hg => hg, h.outside⟩
  have hcode (k : Nat) (r : Routine) (hr : rs[k]? = some r) :
      ∃ f, t.builder.module.functions[3 + k]? = some f ∧ f.check t.builder.module = .ok () ∧
        RoutineCode t.builder.module table r f := by
    have hk := (List.getElem?_eq_some_iff.1 hr).1
    by_cases hempty : r.body = []
    · have hf := h.declared k r hr hempty
      refine ⟨_, hf, rfl, rfl, fun _ => rfl, fun hne => absurd hempty hne⟩
    · obtain ⟨f, hf, hpass⟩ := h.defined k r hk hr hempty
      obtain ⟨hcheck, hbody⟩ := hpass _ hrefl hf
      refine ⟨f, hf, hcheck, ?_, fun h => absurd h hempty, fun _ => hbody⟩
      have hsig := h.signature k r hr
      rw [hf] at hsig
      exact Option.some.inj hsig
  refine ⟨fun id f hf => ?_, fun k r hr => ?_⟩
  · have hlt := (Array.getElem?_eq_some_iff.1 hf).1
    rw [h.size] at hlt
    match hid : id.index with
    | 0 =>
      rw [hid, h.outside.print] at hf
      exact Option.some.inj hf ▸ rfl
    | 1 =>
      rw [hid, h.outside.read] at hf
      exact Option.some.inj hf ▸ rfl
    | 2 =>
      rw [hid, h.outside.abort] at hf
      exact Option.some.inj hf ▸ rfl
    | k + 3 =>
      have hk : k < rs.length := by omega
      obtain ⟨g, hg, hcheck, -⟩ := hcode k _ (List.getElem?_eq_getElem hk)
      rw [hid, show k.succ.succ.succ = 3 + k from Nat.add_comm k 3, hg] at hf
      exact Option.some.inj hf ▸ hcheck
  · obtain ⟨f, hf, -, hroutine⟩ := hcode k r hr
    exact ⟨f, hf, hroutine⟩

/-- Lowering routines is accepting them or telling their author why not. -/
theorem routines_reaches {rs : List Routine} {s : Lowering} (hs : Declares [] s)
    (hvoid : ∀ r ∈ rs, ∀ p ∈ r.params, p.type.ty ≠ .void) :
    Reaches (routines rs) s fun _ t =>
      RoutinesCode t.builder.module rs ∧
      ∀ id : FuncId, id.index < t.builder.module.functions.size →
        t.builder.module.verify id = .ok () := by
  unfold routines
  refine (declareRoutines_reaches hs rs).bind fun ids t ⟨ht, hids⟩ => ?_
  rw [List.nil_append] at ht
  subst hids
  have htable : ∀ x id, t.functions.lookup x = some id → id.index < 3 + rs.length := by
    intro x id hx
    obtain ⟨k, r, hr, -, -, rfl⟩ := (ht.table x id).1 hx
    exact Nat.add_lt_add_left (List.getElem?_eq_some_iff.1 hr).1 3
  refine (defineRoutines_reaches ht.defines List.drop_zero htable hvoid).mono fun _ t' ht' => ?_
  rw [Nat.zero_add] at ht'
  obtain ⟨hcheck, hcode⟩ := ht'.finish
  refine ⟨⟨ht'.size, ht'.indexed, ht'.outside, ht.names, ht.notReserved, _, ht.table, hcode⟩,
    fun id hid => ?_⟩
  have hf := Array.getElem?_eq_getElem hid
  exact verify_ok hf (hcheck id _ hf)

end Lower

/-- Programs without void parameters are accepted, and then all their functions pass and are code
of the program, or rejected for a cause that the author can mend. -/
theorem Program.lowerFrom_outcome (p : Program) {s : Lowering} (hs : Lower.Declares [] s)
    (hvoid : ∀ r ∈ p.routines, ∀ x ∈ r.params, x.type.ty ≠ .void) :
    (∃ m, (p.lowerFrom s).outcome = .ok m ∧ RoutinesCode m p.routines ∧
      ∀ id : FuncId, id.index < m.functions.size → m.verify id = .ok ()) ∨
    ∃ e, (p.lowerFrom s).outcome = .error (.rejected e) ∧ e.val.IsUserFacing := by
  have h := Lower.routines_reaches hs hvoid
  unfold Lower.Reaches at h
  unfold lowerFrom
  generalize (Lower.routines p.routines).run s = out at h
  match out, h with
  | (.ok _, t), h => exact .inl ⟨_, rfl, h⟩
  | (.error (.rejected e), _), h => exact .inr ⟨e, rfl, h⟩

theorem Program.lower_outcome (p : Program)
    (hvoid : ∀ r ∈ p.routines, ∀ x ∈ r.params, x.type.ty ≠ .void) :
    (∃ m, p.lower.outcome = .ok m ∧ RoutinesCode m p.routines ∧
      ∀ id : FuncId, id.index < m.functions.size → m.verify id = .ok ()) ∨
    ∃ e, p.lower.outcome = .error (.rejected e) ∧ e.val.IsUserFacing :=
  p.lowerFrom_outcome (Lower.start_declares p.fileName) hvoid

end Quill

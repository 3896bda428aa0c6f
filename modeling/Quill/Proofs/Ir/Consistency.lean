import Quill.Proofs.Ir.Changes

/-! # What a builder keeps

The tables of a module under construction agree with its code: functions are found by their names,
each value is the result of one instruction and is recorded as that instruction dictates, and room
for each slot is made once. This holds after any requests, made for whichever functions and blocks
and in whatever order, as long as none was a fault. A block that has ended stays as it ended.
-/
namespace Quill.Ir

/-! ### What stays -/

/-- `c` is `b` with more instructions, and with the same ones once `b` has ended. -/
structure Block.Grows (b c : Block) : Prop where
  label : c.label = b.label
  insts : ∀ (k : Nat) (i : Inst), b.insts[k]? = some i → c.insts[k]? = some i
  ended : b.terminator ≠ none → c.insts = b.insts ∧ c.terminator = b.terminator

/-- `g` is `f` built further, perhaps with other flags. -/
structure Function.Grows (f g : Function) : Prop where
  name : g.name = f.name
  params : g.params = f.params
  ret : g.ret = f.ret
  slots : ∀ (k : Nat) (s : Slot), f.slots[k]? = some s → g.slots[k]? = some s
  values : ∀ (k : Nat) (v : ValueInfo), f.values[k]? = some v → g.values[k]? = some v
  layout : ∀ (k : Nat) (b : BlockId), f.layout[k]? = some b → g.layout[k]? = some b
  blocks : ∀ (k : Nat) (b : Block), f.blocks[k]? = some b → ∃ c, g.blocks[k]? = some c ∧ b.Grows c

/-- Every function and every text of `m` is still there in `n`, under its number. -/
structure Module.Grows (m n : Module) : Prop where
  name : n.name = m.name
  functions : ∀ (k : Nat) (f : Function), m.functions[k]? = some f →
    ∃ g, n.functions[k]? = some g ∧ f.Grows g
  texts : ∀ (k : Nat) (t : Global), m.globals[k]? = some t → n.globals[k]? = some t

theorem Block.Grows.refl (b : Block) : b.Grows b := ⟨rfl, fun _ _ h => h, fun _ => ⟨rfl, rfl⟩⟩

theorem Block.Grows.trans {b c d : Block} (h : b.Grows c) (h' : c.Grows d) : b.Grows d := by
  refine ⟨h'.label.trans h.label, fun k i hi => h'.insts k i (h.insts k i hi), fun hb => ?_⟩
  obtain ⟨hinsts, hended⟩ := h.ended hb
  obtain ⟨hinsts', hended'⟩ := h'.ended (hended ▸ hb)
  exact ⟨hinsts'.trans hinsts, hended'.trans hended⟩

theorem Block.Continues.grows {b c : Block} (h : b.Continues c) : b.Grows c := by
  refine ⟨h.label, h.insts, fun hb => ?_⟩
  obtain rfl := h.closed hb
  exact ⟨rfl, rfl⟩

namespace Function

variable {f g h : Function}

theorem Grows.refl (f : Function) : f.Grows f :=
  ⟨rfl, rfl, rfl, fun _ _ h => h, fun _ _ h => h, fun _ _ h => h, fun _ b h => ⟨b, h, .refl b⟩⟩

theorem Grows.trans (hf : f.Grows g) (hg : g.Grows h) : f.Grows h := by
  refine ⟨hg.name.trans hf.name, hg.params.trans hf.params, hg.ret.trans hf.ret,
    fun k s hs => hg.slots k s (hf.slots k s hs), fun k v hv => hg.values k v (hf.values k v hv),
    fun k b hb => hg.layout k b (hf.layout k b hb), fun k b hb => ?_⟩
  obtain ⟨c, hc, hbc⟩ := hf.blocks k b hb
  obtain ⟨d, hd, hcd⟩ := hg.blocks k c hc
  exact ⟨d, hd, hbc.trans hcd⟩

theorem Continues.grows (h : f.Continues g) : f.Grows g := by
  refine ⟨h.name, h.params, h.ret, h.slots, h.values, h.layout, fun k b hb => ?_⟩
  obtain ⟨c, hc, hbc⟩ := h.blocks k b hb
  exact ⟨c, hc, hbc.grows⟩

theorem grows_markDead (f : Function) (id : BlockId) : f.Grows (f.markDead id) := by
  refine ⟨rfl, rfl, rfl, fun _ _ h => h, fun _ _ h => h, fun _ _ h => h, fun k b hb => ?_⟩
  by_cases hk : id.index = k
  · exact ⟨{ b with isUnreachable := true }, by simp [markDead, Array.getElem?_modify, hk, hb],
      rfl, fun _ _ h => h, fun _ => ⟨rfl, rfl⟩⟩
  · exact ⟨b, by simp [markDead, Array.getElem?_modify, hk, hb], .refl b⟩

theorem Change.grows {V : Vocabulary} {m : Module} (hc : Change V m f g) : f.Grows g := by
  cases hc with
  | flags =>
    exact ⟨rfl, rfl, rfl, fun _ _ h => h, fun _ _ h => h, fun _ _ h => h,
      fun _ b h => ⟨b, h, .refl b⟩⟩
  | addBlock => exact (Continues.addBlock f _).grows
  | attach => exact (Continues.attach f _).grows
  | markDead => exact f.grows_markDead _
  | emit hopen => exact (Continues.emit hopen _ _).grows
  | reserve ty hopen =>
    exact ((Continues.addSlot f _ ty).trans (Continues.emit (f := f.addSlot _ ty) hopen _ _)).grows
  | close t hopen => exact (Continues.close hopen t).grows

end Function

namespace Module

variable {V : Vocabulary} {m n o : Module}

theorem Grows.refl (m : Module) : m.Grows m :=
  ⟨rfl, fun _ f h => ⟨f, h, .refl f⟩, fun _ _ h => h⟩

theorem Grows.trans (hm : m.Grows n) (hn : n.Grows o) : m.Grows o := by
  refine ⟨hn.name.trans hm.name, fun k f hf => ?_, fun k t ht => hn.texts k t (hm.texts k t ht)⟩
  obtain ⟨g, hg, hfg⟩ := hm.functions k f hf
  obtain ⟨h, hh, hgh⟩ := hn.functions k g hg
  exact ⟨h, hh, hfg.trans hgh⟩

theorem Change.grows (h : Change V m n) : m.Grows n := by
  cases h with
  | look => exact .refl m
  | declare => exact ⟨rfl, fun _ f hf => ⟨f, Function.Continues.push_getElem? hf _, .refl f⟩,
      fun _ _ h => h⟩
  | text => exact ⟨rfl, fun _ f hf => ⟨f, hf, .refl f⟩,
      fun _ _ h => Function.Continues.push_getElem? h _⟩
  | @function k f g hf hchange =>
    refine ⟨rfl, fun j f' hf' => ?_, fun _ _ h => h⟩
    have hk := (Array.getElem?_eq_some_iff.1 hf).1
    rw [Array.getElem?_setIfInBounds]
    split
    · rename_i heq
      subst heq
      obtain rfl := Option.some.inj (hf.symm.trans hf')
      exact ⟨g, rfl, hchange.grows⟩
    · exact ⟨f', hf', .refl f'⟩

end Module

/-- What an action dictates does not change while the module is built further. -/
theorem Action.resultType_grows {m n : Module} {f g : Function} {action : Action}
    {ty? : Option Ty} (hm : m.Grows n) (hf : f.Grows g)
    (h : action.resultType m f = .ok ty?) : action.resultType n g = .ok ty? := by
  cases action with
  | alloca | store | compare | cast => exact h
  | load s =>
    obtain ⟨slot, hslot, rfl⟩ := map_eq_ok.1 h
    exact map_eq_ok.2 ⟨slot, entry_eq_ok.2 (hf.slots _ _ (entry_eq_ok.1 hslot)), rfl⟩
  | binary op l r =>
    obtain ⟨ty, hty, rfl⟩ := map_eq_ok.1 h
    exact map_eq_ok.2
      ⟨ty, Function.typeOf_of_tables hf.params hf.slots hf.values hty, rfl⟩
  | call callee args =>
    obtain ⟨callee, hcallee, rfl⟩ := map_eq_ok.1 h
    obtain ⟨callee', hcallee', hgrows⟩ := hm.functions _ _ (entry_eq_ok.1 hcallee)
    exact map_eq_ok.2 ⟨callee', entry_eq_ok.2 hcallee', by rw [hgrows.ret]⟩

/-! ### Tables that agree with the code -/

/-- The instruction has a result if its action dictates one, recorded with the type that it
dictates and marked if it is a comparison. -/
inductive Inst.IsRecorded (m : Module) (f : Function) : Inst → Prop
  | silent {action : Action} : action.resultType m f = .ok none → IsRecorded m f ⟨none, action⟩
  | value {id : ValueId} {action : Action} {ty : Ty} : action.resultType m f = .ok (some ty) →
      f.values[id.index]? = some ⟨ty, action.isCompare⟩ → IsRecorded m f ⟨some id, action⟩

structure Function.IsConsistent (m : Module) (f : Function) : Prop where
  /-- No block is attached twice. -/
  layout : f.layout.toList.Nodup
  /-- Each value is the result of one instruction, and each slot is the operand of one
  reservation. -/
  once : ∀ n : Name, n.IsIn f → ∃ p, ∀ q, f.Gives q n ↔ q = p
  /-- There are no other results and no other reservations. -/
  tables : ∀ p n, f.Gives p n → n.IsIn f
  recorded : ∀ p i, f.instAt p = some i → i.IsRecorded m f

structure Module.IsConsistent (m : Module) : Prop where
  /-- The table of names has one entry for each function. -/
  indexed : m.IsIndexed
  /-- The name of a function, and no other, leads to its number. -/
  lookup : ∀ x id, m.lookup? x = some id ↔ ∃ f, m.functions[id.index]? = some f ∧ f.name = x
  names : ∀ (j k : Nat) (f g : Function), m.functions[j]? = some f → m.functions[k]? = some g →
    f.name = g.name → j = k
  functions : ∀ f ∈ m.functions, f.IsConsistent m

theorem Inst.IsRecorded.grows {m n : Module} {f g : Function} {i : Inst} (h : i.IsRecorded m f)
    (hm : m.Grows n) (hf : f.Grows g) : i.IsRecorded n g := by
  cases h with
  | silent hnone => exact .silent (Action.resultType_grows hm hf hnone)
  | value hty hinfo => exact .value (Action.resultType_grows hm hf hty) (hf.values _ _ hinfo)

namespace Function

variable {m n : Module} {f g : Function} {V : Vocabulary}

theorem IsConsistent.declared (m : Module) (name : String) (params : List Param) (ret : Ty) :
    (declared name params ret).IsConsistent m where
  layout := .nil
  once x hx := by cases x <;> exact absurd hx (Nat.not_lt_zero _)
  tables p x hx := by simp [Gives, instAt, Function.declared] at hx
  recorded p i hi := by simp [instAt, Function.declared] at hi

theorem IsConsistent.of_instAt (h : f.IsConsistent m) (hm : m.Grows n) (hf : f.Grows g)
    (hlayout : g.layout.toList.Nodup) (hinst : ∀ p, g.instAt p = f.instAt p)
    (hvalues : g.values = f.values) (hslots : g.slots = f.slots) : g.IsConsistent n := by
  have hgives (p : Point) (x : Name) : g.Gives p x ↔ f.Gives p x := by simp only [Gives, hinst]
  have hin (x : Name) : x.IsIn g ↔ x.IsIn f := by cases x <;> simp only [Name.IsIn, hvalues, hslots]
  refine ⟨hlayout, fun x hx => ?_, fun p x hx => ?_, fun p i hi => ?_⟩
  · simpa only [hgives] using h.once x ((hin x).1 hx)
  · exact (hin x).2 (h.tables p x ((hgives p x).1 hx))
  · exact (h.recorded p i ((hinst p).symm.trans hi)).grows hm hf

theorem IsConsistent.grows (h : f.IsConsistent m) (hm : m.Grows n) : f.IsConsistent n :=
  h.of_instAt hm (.refl f) h.layout (fun _ => rfl) rfl rfl

/-- One more instruction at a place where none was: what it gives is what is new in the tables. -/
theorem IsConsistent.of_added {p : Point} {i : Inst} (h : f.IsConsistent m) (hm : m.Grows n)
    (hf : f.Grows g) (hlayout : g.layout = f.layout) (hfree : f.instAt p = none)
    (hinst : ∀ q, g.instAt q = if q = p then some i else f.instAt q)
    (hin : ∀ x : Name, x.IsIn g ↔ x.IsIn f ∨ x ∈ i.gives) (hnew : ∀ x ∈ i.gives, ¬x.IsIn f)
    (hi : i.IsRecorded n g) : g.IsConsistent n := by
  have hgives (q : Point) (x : Name) : g.Gives q x ↔ f.Gives q x ∨ q = p ∧ x ∈ i.gives := by
    unfold Gives
    rw [hinst]
    split
    · rename_i heq
      subst heq
      simp [hfree]
    · rename_i hne
      simp [hne]
  refine ⟨hlayout ▸ h.layout, fun x hx => ?_, fun q x hx => ?_, fun q j hj => ?_⟩
  · rcases (hin x).1 hx with hx | hx
    · -- What was in the tables is given where it was given before.
      obtain ⟨p', hp'⟩ := h.once x hx
      refine ⟨p', fun q => ?_⟩
      rw [hgives, hp']
      exact or_iff_left fun hq => hnew x hq.2 hx
    · refine ⟨p, fun q => ?_⟩
      rw [hgives, or_iff_right fun hq => hnew x hx (h.tables q x hq)]
      exact and_iff_left hx
  · rcases (hgives q x).1 hx with hx | ⟨-, hx⟩
    · exact (hin x).2 (.inl (h.tables q x hx))
    · exact (hin x).2 (.inr hx)
  · rw [hinst] at hj
    split at hj
    · cases hj
      exact hi
    · exact (h.recorded q j hj).grows hm hf

theorem instAt_end {id : BlockId} {b : Block} (hb : f.blocks[id.index]? = some b) :
    f.instAt ⟨id, b.insts.size⟩ = none := by
  simp [instAt, hb]

theorem IsConsistent.emit {id : BlockId} {action : Action} {info? : Option ValueInfo}
    (h : f.IsConsistent m) (hm : m.Grows n) (hopen : f.IsOpen id) (hreserves : action.reserves = [])
    (hty : action.resultType m f = .ok (info?.map ValueInfo.ty))
    (hcompare : ∀ info ∈ info?, info.isComparison = action.isCompare) :
    (f.emit id action info?).IsConsistent n := by
  have hgrows := (Continues.emit hopen action info?).grows
  obtain ⟨b, hb, -⟩ := hopen
  refine h.of_added hm hgrows rfl (instAt_end hb) (fun q => instAt_emit hb) ?_ ?_ ?_
  · rintro (⟨⟨k⟩⟩ | ⟨⟨k⟩⟩)
    · cases info? with
      | none => simp [Name.IsIn, Inst.gives, hreserves, Function.emit]
      | some info =>
        simp [Name.IsIn, Inst.gives, hreserves, Function.emit]
        omega
    · simp [Name.IsIn, Inst.gives, hreserves, Function.emit]
  · intro x hx
    cases info? with
    | none => simp [Inst.gives, hreserves] at hx
    | some info =>
      obtain rfl : x = .value ⟨f.values.size⟩ := by simpa [Inst.gives, hreserves] using hx
      exact Nat.lt_irrefl _
  · have hty := Action.resultType_grows hm hgrows hty
    cases info? with
    | none => exact .silent hty
    | some info =>
      refine .value hty ?_
      rw [← hcompare info rfl]
      simp [Function.emit]

theorem IsConsistent.reserve {id : BlockId} {name : String} {ty : Ty} (h : f.IsConsistent m)
    (hm : m.Grows n) (hopen : f.IsOpen id) :
    ((f.addSlot name ty).emit id (.alloca ⟨f.slots.size⟩) none).IsConsistent n := by
  have hgrows := ((Continues.addSlot f name ty).trans
    (Continues.emit (f := f.addSlot name ty) hopen (.alloca ⟨f.slots.size⟩) none)).grows
  obtain ⟨b, hb, -⟩ := hopen
  refine h.of_added hm hgrows rfl (instAt_end hb)
    (fun q => instAt_emit (f := f.addSlot name ty) hb) ?_ ?_ (.silent rfl)
  · rintro (⟨⟨k⟩⟩ | ⟨⟨k⟩⟩)
    · simp [Name.IsIn, Inst.gives, Action.reserves, Function.emit, Function.addSlot]
    · simp [Name.IsIn, Inst.gives, Action.reserves, Function.emit, Function.addSlot]
      omega
  · intro x hx
    obtain rfl : x = .slot ⟨f.slots.size⟩ := by simpa [Inst.gives, Action.reserves] using hx
    exact Nat.lt_irrefl _

/-- Each change to a function keeps its tables and its code in agreement. -/
theorem Change.isConsistent (hc : Change V m f g) (h : f.IsConsistent m) (hm : m.Grows n) :
    g.IsConsistent n := by
  have hgrows := hc.grows
  cases hc with
  | flags => exact h.of_instAt hm hgrows h.layout (fun _ => rfl) rfl rfl
  | addBlock => exact h.of_instAt hm hgrows h.layout (fun _ => instAt_addBlock _) rfl rfl
  | attach hnew =>
    refine h.of_instAt hm hgrows ?_ (fun _ => rfl) rfl rfl
    simpa [Function.attach, List.nodup_append] using ⟨h.layout, fun b hb heq => hnew (heq ▸ hb)⟩
  | markDead => exact h.of_instAt hm hgrows h.layout (fun _ => instAt_markDead) rfl rfl
  | emit hopen hreserves hty hcompare => exact h.emit hm hopen hreserves hty hcompare
  | reserve ty hopen => exact h.reserve hm hopen
  | close => exact h.of_instAt hm hgrows h.layout (fun _ => instAt_close) rfl rfl

end Function

namespace Module

variable {m n : Module} {V : Vocabulary}

theorem Grows.exists_named (h : m.Grows n) {x : String} (hx : ∃ f ∈ m.functions, f.name = x) :
    ∃ g ∈ n.functions, g.name = x := by
  obtain ⟨f, hf, rfl⟩ := hx
  obtain ⟨k, hk⟩ := Array.mem_iff_getElem?.1 hf
  obtain ⟨g, hg, hgrows⟩ := h.functions k f hk
  exact ⟨g, Array.mem_of_getElem? hg, hgrows.name⟩

theorem IsConsistent.empty (name : String) : (empty name).IsConsistent where
  indexed := isIndexed_empty name
  lookup x id := by simp [lookup?, Module.empty]
  names j k f g hf := by simp [Module.empty] at hf
  functions f hf := by simp [Module.empty] at hf

/-- It is enough to know the functions that are there, and that no name is used twice. -/
theorem IsConsistent.of_functions (hindexed : m.IsIndexed) (hnames : ∀ (j k : Nat) (f g : Function),
      m.functions[j]? = some f → m.functions[k]? = some g → f.name = g.name → j = k)
    (h : ∀ f ∈ m.functions, f.IsConsistent m) : m.IsConsistent :=
  ⟨hindexed, fun _ _ => hindexed.lookup?_eq_some_iff hnames, hnames, h⟩

theorem Change.isConsistent (hc : Change V m n) (h : m.IsConsistent) : n.IsConsistent := by
  have hgrows := hc.grows
  cases hc with
  | look => exact h
  | text => exact .of_functions h.indexed h.names fun f hf => (h.functions f hf).grows hgrows
  | @declare name params ret hfree =>
    rw [h.indexed.lookup?_eq_none] at hfree
    have hold {k : Nat} {f : Function} (hf : m.functions[k]? = some f) : f.name ≠ name :=
      hfree f (Array.mem_of_getElem? hf)
    refine .of_functions (h.indexed.declare _) (fun j k f g hf hg hname => ?_) fun f hf => ?_
    · rw [Module.declare, Array.getElem?_push] at hf hg
      split at hf <;> split at hg
      · omega
      · cases hf
        exact absurd hname.symm (hold hg)
      · cases hg
        exact absurd hname (hold hf)
      · exact h.names j k f g hf hg hname
    · rcases Array.mem_push.1 hf with hf | rfl
      · exact (h.functions f hf).grows hgrows
      · exact .declared _ name params ret
  | @function k f g hf hchange =>
    -- The function that takes the place of another has its name.
    have hnamed {j : Nat} {f' : Function} (hf' : (m.functions.setIfInBounds k g)[j]? = some f') :
        ∃ f, m.functions[j]? = some f ∧ f.name = f'.name := by
      rw [Array.getElem?_setIfInBounds] at hf'
      split at hf'
      · rename_i heq
        subst heq
        split at hf'
        · cases hf'
          exact ⟨f, hf, hchange.grows.name.symm⟩
        · cases hf'
      · exact ⟨f', hf', rfl⟩
    refine .of_functions (h.indexed.setIfInBounds hf hchange.grows.name)
      (fun i j f' g' hf' hg' hname => ?_) fun f' hf' => ?_
    · obtain ⟨f₀, hf₀, hfname⟩ := hnamed hf'
      obtain ⟨g₀, hg₀, hgname⟩ := hnamed hg'
      exact h.names i j f₀ g₀ hf₀ hg₀ (hfname.trans (hname.trans hgname.symm))
    · rcases Array.mem_or_eq_of_mem_setIfInBounds hf' with hf' | rfl
      · exact (h.functions f' hf').grows hgrows
      · exact hchange.isConsistent (h.functions f (Array.mem_of_getElem? hf)) hgrows

/-- The functions of a module that changes were there before, or have a name that is allowed. -/
theorem Change.named (hc : Change V m n) {g : Function} (hg : g ∈ n.functions) :
    (∃ f ∈ m.functions, f.name = g.name) ∨ V.routine g.name := by
  cases hc with
  | look | text => exact .inl ⟨g, hg, rfl⟩
  | declare ret hfree hname =>
    rcases Array.mem_push.1 hg with hg | rfl
    · exact .inl ⟨g, hg, rfl⟩
    · exact .inr hname
  | @function k f g' hf hchange =>
    rcases Array.mem_or_eq_of_mem_setIfInBounds hg with hg | rfl
    · exact .inl ⟨g, hg, rfl⟩
    · exact .inl ⟨f, Array.mem_of_getElem? hf, hchange.grows.name.symm⟩

end Module

/-! ### Any sequence of requests -/

namespace Request

variable {V : Vocabulary} {b c : Builder} {u : Unit} {name : String} {rs : List Request}

def performAll (rs : List Request) : Build Unit := rs.forM fun r => discard r.perform

theorem performAll_cons {r : Request} (h : performAll (r :: rs) b = .ok (u, c)) :
    ∃ given s, r.perform b = .ok (given, s) ∧ performAll rs s = .ok (u, c) := by
  obtain ⟨_, s, hr, hrest⟩ := Build.bind_ok_iff.1 h
  obtain ⟨given, hr⟩ := Build.discard_ok_iff.1 hr
  exact ⟨given, s, hr, hrest⟩

theorem performAll_grows (h : performAll rs b = .ok (u, c)) : b.module.Grows c.module := by
  induction rs generalizing b with
  | nil =>
    cases h
    exact .refl _
  | cons r rs ih =>
    obtain ⟨_, s, hr, hrest⟩ := performAll_cons h
    exact (r.change r.isWithin_any hr).grows.trans (ih hrest)

theorem performAll_keeps (hb : b.module.IsConsistent) (h : performAll rs b = .ok (u, c)) :
    c.module.IsConsistent := by
  induction rs generalizing b with
  | nil =>
    cases h
    exact hb
  | cons r rs ih =>
    obtain ⟨_, s, hr, hrest⟩ := performAll_cons h
    exact ih ((r.change r.isWithin_any hr).isConsistent hb) hrest

/-- All functions were declared, under whatever names were asked for. -/
theorem performAll_named {P : String → Prop} (hb : ∀ f ∈ b.module.functions, P f.name)
    (hrs : ∀ x params ret, declareFunction x params ret ∈ rs → P x)
    (h : performAll rs b = .ok (u, c)) : ∀ f ∈ c.module.functions, P f.name := by
  induction rs generalizing b with
  | nil =>
    cases h
    exact hb
  | cons r rs ih =>
    obtain ⟨_, s, hr, hrest⟩ := performAll_cons h
    have hwithin : r.IsWithin { Vocabulary.any with routine := P } := by
      cases r with
      | declareFunction x params ret => exact ⟨hrs x params ret List.mem_cons_self, fun _ _ => trivial⟩
      | _ => simp [IsWithin, Vocabulary.any]
    refine ih (fun g hg => ?_) (fun x params ret hx => hrs x params ret (List.mem_cons_of_mem r hx)) hrest
    rcases (r.change hwithin hr).named hg with ⟨f, hf, hname⟩ | hg
    · exact hname ▸ hb f hf
    · exact hg

/-- A declaration that is carried out leaves a function of that name, if there was none before. -/
theorem exists_named {x : String} {params : List Param} {ret : Ty} {given : List Operand}
    (hb : b.module.IsConsistent)
    (h : (declareFunction x params ret).perform b = .ok (given, c)) :
    ∃ f ∈ c.module.functions, f.name = x := by
  obtain ⟨id?, hrun, -⟩ := Build.map_ok_iff.1 h
  obtain ⟨s, s', hget, hrest⟩ := Build.bind_ok_iff.1 hrun
  cases hget
  split at hrest
  · rename_i htaken
    cases hrest
    obtain ⟨id, hid⟩ := Option.isSome_iff_exists.1 htaken
    obtain ⟨f, hf, hname⟩ := (hb.lookup x id).1 hid
    exact ⟨f, Array.mem_of_getElem? hf, hname⟩
  · obtain ⟨_, s, hset, hreturn⟩ := Build.bind_ok_iff.1 hrest
    cases hset
    cases hreturn
    exact ⟨_, Array.mem_push_self, rfl⟩

theorem performAll_declares {x : String} {params : List Param} {ret : Ty}
    (hb : b.module.IsConsistent) (hx : declareFunction x params ret ∈ rs)
    (h : performAll rs b = .ok (u, c)) : ∃ f ∈ c.module.functions, f.name = x := by
  induction rs generalizing b with
  | nil => cases hx
  | cons r rs ih =>
    obtain ⟨_, s, hr, hrest⟩ := performAll_cons h
    rcases List.mem_cons.1 hx with rfl | hx
    · exact (performAll_grows hrest).exists_named (exists_named hb hr)
    · exact ih ((r.change r.isWithin_any hr).isConsistent hb) hx hrest

/-- Whatever is requested of a new builder, and in whatever order: if nothing is a fault, the tables
agree with the code, the functions that were declared are found by their names, and further
requests add nothing to a block that has ended. -/
theorem performAll_consistent (h : performAll rs (.empty name) = .ok (u, b)) :
    b.module.IsConsistent ∧
    (∀ x, (∃ id, b.module.lookup? x = some id) ↔ ∃ params ret, declareFunction x params ret ∈ rs) ∧
    ∀ more c, performAll more b = .ok (u, c) → b.module.Grows c.module := by
  have hconsistent := performAll_keeps (.empty name) h
  refine ⟨hconsistent, fun x => ?_, fun more c hmore => performAll_grows hmore⟩
  simp only [hconsistent.lookup]
  constructor
  · rintro ⟨id, f, hf, rfl⟩
    refine performAll_named (P := fun x => ∃ params ret, declareFunction x params ret ∈ rs) ?_
      (fun x params ret hx => ⟨params, ret, hx⟩) h f (Array.mem_of_getElem? hf)
    simp [Builder.empty, Module.empty]
  · rintro ⟨params, ret, hx⟩
    obtain ⟨f, hf, rfl⟩ := performAll_declares (.empty name) hx h
    obtain ⟨k, hk⟩ := Array.mem_iff_getElem?.1 hf
    exact ⟨⟨k⟩, f, hk, rfl⟩

/-- Two functions, built in turns: the first one is left while a block of it is open, and it has a
block that is not attached. -/
def sample : List Request :=
  [declareFunction "f" [⟨"x", .i64⟩] .f64, declareFunction "g" [] .void, enterFunction ⟨0⟩,
    createBlock "entry", createBlock "exit", appendBlock ⟨0⟩, switchTo ⟨0⟩, alloca "x" .i64,
    store ⟨0⟩ (.param 0), enterFunction ⟨1⟩, createBlock "entry", appendBlock ⟨0⟩, switchTo ⟨0⟩,
    call ⟨0⟩ [.int .i64 1], compare .foeq (.inst ⟨0⟩) (.inst ⟨0⟩), ret none, enterFunction ⟨0⟩,
    switchTo ⟨0⟩, load ⟨0⟩, cast .siToFp (.inst ⟨0⟩) .f64, ret (some (.inst ⟨1⟩)),
    declareFunction "g" [] .i1]

theorem performAll_consistent_sample :
    ∃ b, performAll sample (.empty "sample") = .ok ((), b) ∧ b.module.IsConsistent ∧
      (∀ x, (∃ id, b.module.lookup? x = some id) ↔
        ∃ params ret, declareFunction x params ret ∈ sample) ∧
      ∀ more c, performAll more b = .ok ((), c) → b.module.Grows c.module := by
  have hok : (performAll sample (.empty "sample")).isOk = true := by decide +kernel
  cases h : performAll sample (.empty "sample") with
  | error => simp [h, Except.isOk, Except.toBool] at hok
  | ok r => exact ⟨r.2, rfl, performAll_consistent h⟩

end Request

end Quill.Ir

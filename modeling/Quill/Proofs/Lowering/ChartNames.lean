import Quill.Proofs.Lowering.Chart

/-! # The names known in a chart

What every step keeps of the names: those on the way to a block, and those known where work goes
on, are given there or before, and no name is given twice.
-/
namespace Quill

open Ir (Action Block BlockId Function Inst Name Point Terminator)

namespace Ir

namespace Function

variable {f g : Function} {p : Point} {n : Name}

theorem Continues.isIn (h : f.Continues g) (hn : n.IsIn f) : n.IsIn g := by
  cases n with
  | value => exact Nat.lt_of_lt_of_le hn h.values_size
  | slot => exact Nat.lt_of_lt_of_le hn h.slots_size

theorem Continues.instAt (h : f.Continues g) {i : Inst} (hi : f.instAt p = some i) :
    g.instAt p = some i := by
  obtain ⟨b, hb, hi⟩ := Option.bind_eq_some_iff.1 hi
  obtain ⟨b', hb', hcont⟩ := h.blocks _ _ hb
  simp [Function.instAt, hb', hcont.insts _ _ hi]

theorem Continues.gives (h : f.Continues g) (hn : f.Gives p n) : g.Gives p n := by
  obtain ⟨i, hi, hn⟩ := hn
  exact ⟨i, h.instAt hi, hn⟩

theorem lt_of_instAt {i : Inst} (h : f.instAt p = some i) : p.block.index < f.blocks.size := by
  obtain ⟨b, hb, -⟩ := Option.bind_eq_some_iff.1 h
  exact (Array.getElem?_eq_some_iff.1 hb).1

theorem lt_of_terminatorOf {id : BlockId} {t : Terminator} (h : f.terminatorOf id = some t) :
    id.index < f.blocks.size := by
  obtain ⟨b, hb, -⟩ := Option.bind_eq_some_iff.1 h
  exact (Array.getElem?_eq_some_iff.1 hb).1

end Function

end Ir

namespace Chart

def spot (c : Chart) : Point :=
  ⟨c.block, (c.function.blocks[c.block.index]?.map (·.insts.size)).getD 0⟩

/-- The name is given on every way to the end of the block. -/
def Has (c : Chart) (id : BlockId) (n : Name) : Prop :=
  ∃ count, c.function.Has c.before id count n

/-- All names that are used, or taken for known, are given on the way. -/
structure Grounded (c : Chart) : Prop where
  nonempty : entryId.index < c.function.blocks.size
  block : c.block.index < c.function.blocks.size
  entry : c.before entryId = []
  insts : ∀ p i, c.function.instAt p = some i → ∀ n ∈ i.action.uses,
    c.function.Has c.before p.block p.index n
  ends : ∀ id t, c.function.terminatorOf id = some t → ∀ n ∈ t.uses, c.Has id n
  targets : ∀ id t, c.function.terminatorOf id = some t → ∀ next ∈ t.successors,
    next.index < c.function.blocks.size ∧ ∀ n ∈ c.before next, c.Has id n
  once : ∀ p q n, c.function.Gives p n → c.function.Gives q n → p = q
  tables : ∀ p n, c.function.Gives p n → n.IsIn c.function
  known : ∀ n ∈ c.known, c.Has c.block n

variable {c c' : Chart} {p : Point} {i : Inst} {n : Name} {id : BlockId}

theorem instAt_spot (c : Chart) : c.function.instAt c.spot = none := by
  simp only [Function.instAt, spot]
  cases c.function.blocks[c.block.index]? <;> simp

/-- What one more instruction adds: it stands at the end of the current block, uses what is known,
and what it gives is new. -/
structure Adds (c c' : Chart) (i : Inst) : Prop where
  instAt : ∀ p, c'.function.instAt p = if p = c.spot then some i else c.function.instAt p
  uses : i.action.uses ⊆ c.known
  new : ∀ n ∈ i.gives, ¬n.IsIn c.function ∧ n.IsIn c'.function
  known : c'.known = i.gives ++ c.known
  block : c'.block = c.block

theorem instAt_emit {f : Function} (hopen : f.IsOpen c.block)
    (hblocks : f.blocks = c.function.blocks) (action : Action)
    (info? : Option Ir.ValueInfo) (p : Point) :
    (f.emit c.block action info?).instAt p =
      if p = c.spot then some ⟨info?.map fun _ => ⟨f.values.size⟩, action⟩ else f.instAt p := by
  obtain ⟨b, hb, -⟩ := hopen
  rw [Function.instAt_emit hb]
  simp [spot, ← hblocks, hb]

theorem adds_emit {action : Action} (info? : Option Ir.ValueInfo)
    (hopen : c.function.IsOpen c.block) (huses : action.uses ⊆ c.known)
    (hreserves : action.reserves = []) :
    c.Adds (c.emit action info?) (c.nextInst action info?) where
  instAt := instAt_emit hopen rfl action info?
  uses := huses
  new n hn := by
    simp only [Inst.gives, nextInst, hreserves, List.append_nil] at hn
    cases info? with
    | none => simp at hn
    | some info =>
      obtain rfl := List.mem_singleton.1 hn
      simp [Name.IsIn, emit, Function.emit]
  known := rfl
  block := rfl

theorem adds_reserve (name : String) (ty : Ir.Ty) (hopen : c.function.IsOpen c.block) :
    c.Adds (c.reserve name ty) ⟨none, .alloca c.nextSlot⟩ where
  instAt := instAt_emit (f := c.function.addSlot name ty) hopen rfl _ none
  uses := List.nil_subset _
  new n hn := by
    obtain rfl := List.mem_singleton.1 hn
    simp [Name.IsIn, reserve, Function.emit, Function.addSlot, nextSlot]
  known := rfl
  block := rfl

theorem Step.instAt (h : Step c c') :
    (∃ i, c.Adds c' i) ∨ ∀ p, c'.function.instAt p = c.function.instAt p := by
  cases h with
  | emit info? hopen huses hreserves => exact .inl ⟨_, adds_emit info? hopen huses hreserves⟩
  | reserve name ty hopen => exact .inl ⟨_, adds_reserve name ty hopen⟩
  | look | enter | attach => exact .inr fun _ => rfl
  | create label => exact .inr fun _ => by simp [Chart.create]
  | enterDead label =>
    exact .inr fun _ => by
      simp [Chart.enterDead, Chart.enter, Chart.markDead, Chart.attach, Chart.create]
  | close => exact .inr fun _ => by simp [Chart.close]
  | leave => exact .inr fun _ => by simp [Chart.leave]

/-! ### What is given stays given -/

theorem Step.has_count (h : Step c c') (hid : id.index < c.function.blocks.size) {count : Nat}
    (hn : c.function.Has c.before id count n) : c'.function.Has c'.before id count n := by
  rcases hn with hn | ⟨k, hk, hn⟩
  · exact .inl (by rwa [h.before_eq hid])
  · exact .inr ⟨k, hk, h.continues.gives hn⟩

theorem Step.has (h : Step c c') (hid : id.index < c.function.blocks.size) (hn : c.Has id n) :
    c'.Has id n := by
  obtain ⟨count, hn⟩ := hn
  exact ⟨count, h.has_count hid hn⟩

/-! ### What is new -/

theorem Adds.insts (hadds : c.Adds c' i) (h : Step c c') (hc : c.Grounded) :
    ∀ n ∈ i.action.uses, c'.function.Has c'.before c.spot.block c.spot.index n := by
  intro n hn
  obtain ⟨count, hhas⟩ := hc.known n (hadds.uses hn)
  exact h.has_count hc.block (hhas.of_end c.instAt_spot)

theorem Adds.gives (hadds : c.Adds c' i) (hn : c'.function.Gives p n) :
    p = c.spot ∧ n ∈ i.gives ∨ c.function.Gives p n := by
  obtain ⟨j, hj, hn⟩ := hn
  rw [hadds.instAt] at hj
  split at hj
  · cases hj
    exact .inl ⟨‹_›, hn⟩
  · exact .inr ⟨j, hj, hn⟩

theorem Step.insts (h : Step c c') (hc : c.Grounded) (p : Point) (i : Inst)
    (hi : c'.function.instAt p = some i) :
    ∀ n ∈ i.action.uses, c'.function.Has c'.before p.block p.index n := by
  have hold (hi : c.function.instAt p = some i) :
      ∀ n ∈ i.action.uses, c'.function.Has c'.before p.block p.index n := fun n hn =>
    h.has_count (Function.lt_of_instAt hi) (hc.insts p i hi n hn)
  rcases h.instAt with ⟨j, hadds⟩ | hsame
  · rw [hadds.instAt] at hi
    split at hi
    · rename_i hp
      cases hi
      rw [hp]
      exact hadds.insts h hc
    · exact hold hi
  · exact hold (hsame p ▸ hi)

theorem Step.once (h : Step c c') (hc : c.Grounded) (p q : Point) (n : Name)
    (hp : c'.function.Gives p n) (hq : c'.function.Gives q n) : p = q := by
  rcases h.instAt with ⟨i, hadds⟩ | hsame
  · rcases hadds.gives hp with ⟨rfl, hn⟩ | hp
    · rcases hadds.gives hq with ⟨rfl, -⟩ | hq
      · rfl
      · exact absurd (hc.tables q n hq) (hadds.new n hn).1
    · rcases hadds.gives hq with ⟨rfl, hn⟩ | hq
      · exact absurd (hc.tables p n hp) (hadds.new n hn).1
      · exact hc.once p q n hp hq
  · simp only [Function.Gives, hsame] at hp hq
    exact hc.once p q n hp hq

theorem Step.tables (h : Step c c') (hc : c.Grounded) (p : Point) (n : Name)
    (hn : c'.function.Gives p n) : n.IsIn c'.function := by
  rcases h.instAt with ⟨i, hadds⟩ | hsame
  · rcases hadds.gives hn with ⟨-, hn⟩ | hn
    · exact (hadds.new n hn).2
    · exact h.continues.isIn (hc.tables p n hn)
  · simp only [Function.Gives, hsame] at hn
    exact h.continues.isIn (hc.tables p n hn)

theorem Adds.known_has (hadds : c.Adds c' i) (h : Step c c') (hc : c.Grounded) :
    ∀ n ∈ c'.known, c'.Has c'.block n := by
  intro n hn
  rw [hadds.known] at hn
  rw [hadds.block]
  rcases List.mem_append.1 hn with hn | hn
  · have hi : c'.function.instAt c.spot = some i := by rw [hadds.instAt, if_pos rfl]
    exact ⟨c.spot.index + 1, .inr ⟨c.spot.index, Nat.lt_succ_self _, i, hi, hn⟩⟩
  · exact h.has hc.block (hc.known n hn)

theorem Step.known (h : Step c c') (hc : c.Grounded) : ∀ n ∈ c'.known, c'.Has c'.block n := by
  have hstep := h
  have hstay (hblock : c'.block = c.block) (hknown : c'.known = c.known) :
      ∀ n ∈ c'.known, c'.Has c'.block n := by
    intro n hn
    rw [hblock]
    exact h.has hc.block (hc.known n (hknown ▸ hn))
  cases h with
  | look | create | attach | close | leave => exact hstay rfl rfl
  | enter | enterDead => exact fun n hn => ⟨0, .inl hn⟩
  | emit info? hopen huses hreserves =>
    exact (adds_emit info? hopen huses hreserves).known_has hstep hc
  | reserve name ty hopen => exact (adds_reserve name ty hopen).known_has hstep hc

/-- Where a terminator is new, what it uses and what its targets expect is known. -/
theorem Step.ends (h : Step c c') (hc : c.Grounded) (id : BlockId) (t : Terminator)
    (ht : c'.function.terminatorOf id = some t) :
    (∀ n ∈ t.uses, c'.Has id n) ∧ ∀ next ∈ t.successors,
      next.index < c'.function.blocks.size ∧ ∀ n ∈ c'.before next, c'.Has id n := by
  have hgrows := h.continues.blocks_size
  have hknown {ns : List Name} (hns : ns ⊆ c.known) : ∀ n ∈ ns, c'.Has c.block n := fun n hn =>
    h.has hc.block (hc.known n (hns hn))
  have haccepts {next : BlockId} (hnext : c.Accepts next) :
      next.index < c'.function.blocks.size ∧ ∀ n ∈ c'.before next, c'.Has c.block n := by
    rw [h.before_eq hnext.live.lt]
    exact ⟨Nat.lt_of_lt_of_le hnext.live.lt hgrows, hknown hnext.before⟩
  rcases h.terminatorOf ht with hold | ⟨rfl, -, ⟨-, hend⟩ | ⟨-, rfl, hexit⟩⟩
  · have hlt := Function.lt_of_terminatorOf hold
    refine ⟨fun n hn => h.has hlt (hc.ends id t hold n hn), fun next hnext => ?_⟩
    obtain ⟨hnextlt, hbefore⟩ := hc.targets id t hold next hnext
    rw [h.before_eq hnextlt]
    exact ⟨Nat.lt_of_lt_of_le hnextlt hgrows, fun n hn => h.has hlt (hbefore n hn)⟩
  · exact ⟨hknown hend.uses, fun next hnext => haccepts (hend.targets next hnext).1⟩
  · refine ⟨fun n hn => (List.not_mem_nil hn).elim, fun next hnext => ?_⟩
    obtain rfl := List.mem_singleton.1 hnext
    exact haccepts hexit

theorem Step.block_lt (h : Step c c') (hc : c.block.index < c.function.blocks.size) :
    c'.block.index < c'.function.blocks.size := by
  have hgrows := Nat.lt_of_lt_of_le hc h.continues.blocks_size
  cases h with
  | enter hid => exact hid
  | enterDead label =>
    simp [Chart.enterDead, Chart.enter, Chart.markDead, Chart.attach, Chart.create,
      Function.markDead, Function.attach, Function.addBlock, nextBlock]
  | _ => exact hgrows

theorem Step.grounded (h : Step c c') (hc : c.Grounded) : c'.Grounded where
  nonempty := Nat.lt_of_lt_of_le hc.nonempty h.continues.blocks_size
  block := h.block_lt hc.block
  entry := (h.before_eq hc.nonempty).trans hc.entry
  insts := h.insts hc
  ends id t ht := (h.ends hc id t ht).1
  targets id t ht := (h.ends hc id t ht).2
  once := h.once hc
  tables := h.tables hc
  known := h.known hc

theorem Reaches.grounded (h : c.Reaches c') (hc : c.Grounded) : c'.Grounded :=
  h.keeps (fun hs => hs.grounded) hc

theorem Grounded.accounts (hc : c.Grounded) (hentry : c.function.entryBlock? = some entryId) :
    c.function.Accounts c.before where
  entry id hid := by
    obtain rfl := Option.some.inj (hid.symm.trans hentry)
    exact hc.entry
  insts := hc.insts
  ends := hc.ends
  edges id t next ht hnext := (hc.targets id t ht next hnext).2
  once := hc.once

end Chart

end Quill

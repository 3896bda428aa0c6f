import Quill.Proofs.Lowering.Chart

/-! # The control flow of a chart

What every step keeps of the control flow: each block is attached or loose, and what is known of
the terminator of a block that has ended.
-/
namespace Quill.Chart

open Ir (Action Block BlockId Function Inst Terminator)

variable {c c' : Chart} {id : BlockId} {t : Terminator}

/-- The blocks of a function with that many of them. -/
def blockIds (size : Nat) : List BlockId := (List.range size).map BlockId.mk

structure Legal (c : Chart) (id : BlockId) (t : Terminator) : Prop where
  targets : ∀ next ∈ t.successors, next ≠ entryId ∧ c.function.IsLive next
  exit : exitId ∈ t.successors → id ∈ c.leaves
  ret : t.isReturn → id = exitId
  unreachable : t = .unreachable →
    ∃ r, c.function.lastOf id = some ⟨r, .call Library.abortId []⟩

structure Shape (c : Chart) : Prop where
  attached : (c.function.layout.toList ++ c.loose).Perm (blockIds c.function.blocks.size)
  entry : c.function.layout[0]? = some entryId
  legal : ∀ id t, c.function.terminatorOf id = some t → c.Legal id t
  leaves : c.leaves.Nodup
  left : ∀ id ∈ c.leaves, c.function.terminatorOf id = some (.br exitId)
  /-- Until work goes on there, nothing is in the exit. -/
  exit : c.block ≠ exitId → ∀ b, c.function.blocks[exitId.index]? = some b →
    b.insts = #[] ∧ b.terminator = none

/-! ### Attaching -/

theorem perm_create (h : (c.function.layout.toList ++ c.loose).Perm
    (blockIds c.function.blocks.size)) (label : String) :
    ((c.create label).function.layout.toList ++ (c.create label).loose).Perm
      (blockIds (c.create label).function.blocks.size) := by
  have hids : blockIds (c.create label).function.blocks.size =
      blockIds c.function.blocks.size ++ [c.nextBlock] := by
    simp [create, Function.addBlock, blockIds, nextBlock, List.range_succ]
  rw [hids]
  exact List.perm_middle.trans (((h.cons _).trans (List.perm_append_singleton _ _).symm))

theorem perm_attach (h : (c.function.layout.toList ++ c.loose).Perm
    (blockIds c.function.blocks.size)) (hid : id ∈ c.loose) :
    ((c.attach id).function.layout.toList ++ (c.attach id).loose).Perm
      (blockIds (c.attach id).function.blocks.size) := by
  have hlayout : (c.attach id).function.layout.toList = c.function.layout.toList ++ [id] := by
    simp [attach, Function.attach]
  rw [hlayout, List.append_assoc]
  exact ((List.perm_cons_erase hid).symm.append_left _).trans h

theorem Step.attached (h : Step c c')
    (hc : (c.function.layout.toList ++ c.loose).Perm (blockIds c.function.blocks.size)) :
    (c'.function.layout.toList ++ c'.loose).Perm (blockIds c'.function.blocks.size) := by
  cases h with
  | look | enter => exact hc
  | create label => exact perm_create hc label
  | attach hid => exact perm_attach hc hid
  | enterDead label =>
    have := perm_attach (perm_create hc label) List.mem_cons_self
    simpa [Chart.enterDead, Chart.enter, markDead, Function.markDead] using this
  | emit info? => simpa [Chart.emit, Function.emit] using hc
  | reserve name ty => simpa [Chart.reserve, Function.emit, Function.addSlot] using hc
  | close => simpa [Chart.close, Function.close] using hc
  | leave => simpa [Chart.leave, Function.close] using hc

/-! ### Terminators -/

theorem lastOf_eq {f g : Function} (hg : f.Continues g) (ht : f.terminatorOf id = some t) :
    g.terminatorOf id = some t ∧ g.lastOf id = f.lastOf id := by
  obtain ⟨b, hb, ht⟩ := Option.bind_eq_some_iff.1 ht
  obtain ⟨b', hb', hcont⟩ := hg.blocks _ _ hb
  obtain rfl := hcont.closed (by simp [ht])
  simp [Function.terminatorOf, Function.lastOf, hb, hb', ht]

theorem Step.leaves_subset (h : Step c c') : c.leaves ⊆ c'.leaves := by
  cases h with
  | leave => exact List.subset_append_left _ _
  | _ => exact List.Subset.refl _

theorem Legal.step (hs : Step c c') (ht : c.function.terminatorOf id = some t)
    (h : c.Legal id t) : c'.Legal id t where
  targets next hnext := ⟨(h.targets next hnext).1, hs.isLive (h.targets next hnext).2⟩
  exit hexit := hs.leaves_subset (h.exit hexit)
  ret := h.ret
  unreachable heq := by
    rw [(lastOf_eq hs.continues ht).2]
    exact h.unreachable heq

theorem legal_close (hopen : c.function.IsOpen c.block) (h : c.CanEnd t) :
    (c.close t).Legal c.block t where
  targets next hnext :=
    have haccepts := (h.targets next hnext).1
    ⟨haccepts.ne_entry, (Step.close hopen h).isLive haccepts.live⟩
  exit hexit := absurd rfl (h.targets exitId hexit).2
  ret := h.ret
  unreachable heq := by
    obtain ⟨b, hb, -⟩ := hopen
    have hlast : (c.close t).function.lastOf c.block = c.function.lastOf c.block := by
      simp [Function.lastOf, close, Function.close, Array.getElem?_modify, hb]
    rw [hlast]
    exact h.unreachable heq

theorem legal_leave (hopen : c.function.IsOpen c.block) (h : c.Accepts exitId) :
    c.leave.Legal c.block (.br exitId) where
  targets next hnext := by
    obtain rfl := List.mem_singleton.1 hnext
    exact ⟨h.ne_entry, (Step.leave hopen h).isLive h.live⟩
  exit _ := List.mem_append_right _ (List.mem_singleton_self _)
  ret hret := by cases hret
  unreachable heq := by cases heq

theorem Step.legal (h : Step c c')
    (hc : ∀ id t, c.function.terminatorOf id = some t → c.Legal id t) (id : BlockId)
    (t : Terminator) (ht : c'.function.terminatorOf id = some t) : c'.Legal id t := by
  rcases h.terminatorOf ht with hold | ⟨rfl, hopen, ⟨rfl, hend⟩ | ⟨rfl, rfl, haccepts⟩⟩
  · exact (hc id t hold).step h hold
  · exact legal_close hopen hend
  · exact legal_leave hopen haccepts

/-! ### The exit -/

theorem Step.block_ne_exit (h : Step c c') (hblock : c'.block ≠ exitId) : c.block ≠ exitId := by
  cases h with
  | enter _ hne | enterDead _ hne => exact hne
  | _ => exact hblock

theorem Step.exit (h : Step c c')
    (hc : c.block ≠ exitId → ∀ b, c.function.blocks[exitId.index]? = some b →
      b.insts = #[] ∧ b.terminator = none) (hblock : c'.block ≠ exitId) (b : Block)
    (hb : c'.function.blocks[exitId.index]? = some b) : b.insts = #[] ∧ b.terminator = none := by
  have hne := h.block_ne_exit hblock
  rcases h.blocks with hsame | ⟨new, hpush, hnew⟩ | ⟨e, hmodify, -⟩
  · exact hc hne b (hsame ▸ hb)
  · rw [hpush, Array.getElem?_push] at hb
    split at hb
    · cases hb
      exact hnew
    · exact hc hne b hb
  · have hother : c.block.index ≠ exitId.index := fun heq => hne (congrArg BlockId.mk heq)
    rw [hmodify, Array.getElem?_modify, if_neg hother] at hb
    exact hc hne b hb

/-! ### All of it -/

theorem Step.left (h : Step c c')
    (hc : ∀ id ∈ c.leaves, c.function.terminatorOf id = some (.br exitId)) (id : BlockId)
    (hid : id ∈ c'.leaves) : c'.function.terminatorOf id = some (.br exitId) := by
  have hold : id ∈ c.leaves → c'.function.terminatorOf id = some (.br exitId) := fun hid =>
    (lastOf_eq h.continues (hc id hid)).1
  cases h with
  | leave hopen =>
    rcases List.mem_append.1 hid with hid | hid
    · exact hold hid
    · obtain rfl := List.mem_singleton.1 hid
      simp [Chart.leave, Function.terminatorOf_close hopen.lt]
  | _ => exact hold hid

theorem Step.leaves_nodup (h : Step c c')
    (hc : ∀ id ∈ c.leaves, c.function.terminatorOf id = some (.br exitId))
    (hnodup : c.leaves.Nodup) : c'.leaves.Nodup := by
  cases h with
  | leave hopen =>
    have hnew : c.block ∉ c.leaves := by
      intro hmem
      obtain ⟨b, hb, ht⟩ := hopen
      simpa [Function.terminatorOf, hb, ht] using hc _ hmem
    exact (List.perm_append_singleton _ _).nodup_iff.2 (List.nodup_cons.2 ⟨hnew, hnodup⟩)
  | _ => exact hnodup

theorem Step.shape (h : Step c c') (hc : c.Shape) : c'.Shape where
  attached := h.attached hc.attached
  entry := h.continues.layout _ _ hc.entry
  legal := h.legal hc.legal
  leaves := h.leaves_nodup hc.left hc.leaves
  left := h.left hc.left
  exit := h.exit hc.exit

theorem Reaches.shape (h : c.Reaches c') (hc : c.Shape) : c'.Shape :=
  h.keeps (fun hs => hs.shape) hc

end Quill.Chart

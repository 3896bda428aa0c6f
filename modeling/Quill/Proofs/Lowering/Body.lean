import Quill.Proofs.Lowering.Stmt

/-! # Bodies become functions that pass

A routine with a body becomes code from an entry to an exit. All blocks end and belong to the
layout, and only the exit returns, so the function passes verification.
-/
namespace Quill.Lower

open Ir (Action Block BlockId Build FuncId Function Global Module Operand SlotId Slot Terminator Ty
  ValueInfo)
open Library (Direction)
open Site

variable {σ : Site} {d : Draft}

/-! ### Results and parameters -/

theorem resultSlot_leads (h : σ.Ready d) (r : Routine) (hret : d.function.ret = r.result.ty) :
    σ.Leads (resultSlot r) d fun result d' => d'.ResultFits result ∧
      Acts σ d (fun _ f p q => ResultCode f r result p q) d' := by
  unfold resultSlot
  by_cases hvoid : r.result.ty.isVoid = true
  · have hty : r.result.ty = .void := eq_of_beq hvoid
    simp only [hvoid, ↓reduceIte]
    exact .pure ⟨hret.trans hty, .refl h, fun _ _ _ => .void hty⟩
  · have hty : r.result.ty ≠ .void := fun heq => hvoid (by rw [heq]; rfl)
    simp only [hvoid, Bool.false_eq_true, ↓reduceIte]
    refine (alloca_leads h "result" hty).bind fun slot d₁ ⟨_, hslot, hacts⟩ => ?_
    have hret₁ : d₁.function.ret = r.result.ty := hacts.straight.work.continues.ret.trans hret
    by_cases hentry : r.isEntry = true
    · simp only [hentry, ↓reduceIte]
      refine (store_leads hacts.ready hslot (Ir.typeOf_zero _ _)).bind fun _ d₂ hs => .pure ?_
      have hcont := hs.straight.work.continues
      refine ⟨?_, hacts.straight.trans hs.straight, fun m f hf => ?_⟩
      · change d₂.function.HasSlot slot d₂.function.ret
        rw [hcont.ret, hret₁]
        exact hcont.hasSlot hslot
      · have hf₁ := hs.straight.earlier hf
        obtain ⟨halloca, hspot₁⟩ := hacts.code m f hf₁
        obtain ⟨hstore, hspot⟩ := hs.code m f hf
        rw [hspot₁] at hstore hspot
        rw [hspot]
        exact .entry hty hentry (hf₁.continues.hasSlot hslot) halloca hstore
    · have hentry : r.isEntry = false := by simpa using hentry
      simp only [hentry, Bool.false_eq_true, ↓reduceIte]
      have hfits : d₁.function.HasSlot slot d₁.function.ret := hret₁.symm ▸ hslot
      refine .pure ⟨hfits, hacts.straight, fun m f hf => ?_⟩
      obtain ⟨halloca, hspot₁⟩ := hacts.code m f hf
      rw [hspot₁]
      exact .zero hty hentry (hf.continues.hasSlot hslot) halloca

theorem bindParams_leads (h : σ.Ready d) {result : Option SlotId}
    (hresult : ∀ s, result = some s → s.index < d.function.slots.size) (index : Nat)
    (ps : List Param) (hvoid : ∀ p ∈ ps, p.type.ty ≠ .void)
    (hparams : ∀ (k : Nat) (p : Param), ps[k]? = some p →
      d.function.params[index + k]? = some ⟨p.name.text, p.type.ty⟩) :
    σ.Leads (bindParams index ps) d fun _ d' => d'.function.IsOpen d'.block ∧ σ.Work d [] [] d' ∧
      ∀ m f, σ.Final d' m f → ∀ frame : BodyFrame, frame.result = result →
        ParamsCode f frame index ps d.scopes d.spot d'.scopes d'.spot := by
  induction ps generalizing d index with
  | nil => exact .pure ⟨h.isOpen, .refl h, fun _ _ _ _ _ => .nil⟩
  | cons p rest ih =>
    unfold bindParams
    refine (alloca_leads h p.name.text (hvoid p (List.mem_cons_self ..))).bind
      fun slot d₁ halloca => ?_
    obtain ⟨hnext, hslot, hacts⟩ := halloca
    have hparam : d₁.function.typeOf (.param index) = .ok p.type.ty := by
      have hp := hparams 0 p rfl
      rw [← hacts.straight.work.continues.params] at hp
      simp only [Function.typeOf, Function.param, Ir.map_eq_ok, Ir.entry_eq_ok]
      exact ⟨_, by simpa using hp, rfl⟩
    refine (store_leads hacts.ready hslot hparam).bind fun _ d₂ hs => ?_
    have hstraight := hacts.straight.trans hs.straight
    have hslot₂ := hs.straight.work.continues.hasSlot hslot
    refine (define_work hstraight.work hslot₂).bind fun _ d₃ hdefine => ?_
    obtain ⟨hw, rfl, hnew⟩ := hdefine
    have hready : σ.Ready (d₂.bind p.name.text slot) := ⟨hw.sane, hstraight.isOpen⟩
    have hsize := hstraight.work.continues.slots_size
    refine (ih hready (fun s hr => Nat.lt_of_lt_of_le (hresult s hr) hsize) (index + 1)
      (fun q hq => hvoid q (List.mem_cons_of_mem _ hq)) fun k q hq => ?_).mono
      fun _ d' hrest => ⟨hrest.1, hw.trans hrest.2.1, fun m f hf frame hframe => ?_⟩
    · have hp := hparams (k + 1) q hq
      rw [← hstraight.work.continues.params] at hp
      rwa [show index + (k + 1) = index + 1 + k by omega] at hp
    · obtain ⟨-, hw', hcode⟩ := hrest
      have hf₂ : σ.Final d₂ m f := (hw'.earlier hf).of_same rfl rfl
      have hf₁ := hs.straight.earlier hf₂
      obtain ⟨halloca, hspot₁⟩ := hacts.code m f hf₁
      obtain ⟨hstore, hspot₂⟩ := hs.code m f hf₂
      have hrest := hcode m f hf frame hframe
      rw [hspot₁] at hstore hspot₂
      rw [hstraight.scopes] at hnew
      rw [show (d₂.bind p.name.text slot).spot = d.spot.next.next from hspot₂,
        show (d₂.bind p.name.text slot).scopes = d.scopes.bind p.name.text slot from
          congrArg (Scopes.bind · p.name.text slot) hstraight.scopes] at hrest
      refine .cons hnew ⟨hf₁.continues.hasSlot hslot, hvoid p List.mem_cons_self, ?_, ?_⟩ halloca
        hstore hrest
      · rw [hnext]
        exact fun hmem => Nat.lt_irrefl _ (h.bound _ hmem)
      · rw [hframe, hnext]
        exact fun heq => Nat.lt_irrefl _ (hresult _ heq)

/-! ### The whole body -/

theorem work_withFrame {base : Draft} {W L : List BlockId} (h : σ.Work base W L d)
    {frame : BodyFrame} (hexit : frame.exit.index < d.function.blocks.size)
    (hfits : d.ResultFits frame.result) :
    σ.Work { base with frame := some frame } W L { d with frame := some frame } :=
  { h with
    sane := { h.sane with
      exit := by
        rintro _ ⟨⟩
        exact hexit
      result := by
        rintro _ ⟨⟩
        exact hfits
      sound := fun m f hf => h.sane.sound m f (hf.of_same rfl rfl) }
    frame := rfl }

/-- A body whose blocks have all ended but the current one passes once that returns. -/
theorem check_closed {base : Draft} (h : σ.Work base [] [] d) (hopen : d.function.IsOpen d.block)
    (hbase : ∀ k, base.function.IsOpen k → k = base.block)
    (hattached : ∀ k, ¬base.function.IsDetached k) {v : Option Operand} {m : Module} {f : Function}
    (hf : σ.Final (d.close (.ret v)) m f) (heq : f = (d.close (.ret v)).function)
    (hret : ∀ label, (Terminator.ret v).check f label = .ok ()) : f.check m = .ok () := by
  have hsound := h.sane.sound m f (hf.of_close hopen)
  have hlayout : f.layout = d.function.layout := by rw [heq]; rfl
  have hmem (k : BlockId) (hk : k.index < d.function.blocks.size) : k ∈ d.function.layout := by
    refine Decidable.byContradiction fun hnot => ?_
    rcases (h.detached k).1 ⟨hk, hnot⟩ with hk | hk
    · simp at hk
    · exact hattached k hk
  refine Function.check_ok (show d.block ∈ f.layout from ?_) ?_ fun id hid => ?_
  · exact hlayout ▸ hmem _ h.sane.block_lt
  · exact hlayout ▸ h.sane.layout_nodup
  · have hlt := h.sane.layout_lt id (hlayout ▸ hid)
    have hb := Array.getElem?_eq_getElem hlt
    have hs := hsound _ _ hb
    by_cases hcur : id = d.block
    · subst hcur
      have hblock : f.blocks[d.block.index]? =
          some { d.function.blocks[d.block.index] with terminator := some (.ret v) } := by
        rw [heq]
        exact getElem?_modify_self hb _
      rw [beq_self_eq_true]
      exact Function.checkBlock_ok hblock hs.insts rfl (by simp [Terminator.successors]) (hret _)
    · have hne : d.block.index ≠ id.index := fun he => hcur (by cases id; cases he; rfl)
      have hblock : f.blocks[id.index]? = some d.function.blocks[id.index] := by
        rw [heq]
        simp [Draft.close, Function.close, Array.getElem?_modify, hne]
      cases ht : d.function.blocks[id.index].terminator with
      | none =>
        rcases h.opens id ⟨_, hb, ht⟩ with heq | hw | ⟨hold, hne⟩
        · exact absurd heq hcur
        · simp at hw
        · exact absurd (hbase id hold) hne
      | some t =>
        have hcheck := Function.checkBlock_ok hblock hs.insts ht
          (fun s hs' => hlayout ▸ hmem s (hs.targets t ht s hs')) (hs.terminator t ht)
        rw [hcheck, hs.noReturn t ht]
        simp [hcur]

structure FollowsBody (σ : Site) (d : Draft) (r : Routine) (d' : Draft) : Prop where
  continues : d.function.Continues d'.function
  globals : ∀ (k : Nat) (g : Global), d.globals[k]? = some g → d'.globals[k]? = some g
  formats : ∀ ty dir v, d'.formats.lookup (ty, dir) = some v →
    ∃ id name, v = .global id ∧ d'.globals[id.index]? = some ⟨name, Library.format ty dir⟩
  scopes : d'.scopes.tail = d.scopes.tail
  frame : d'.frame = none
  check : ∀ m f, σ.Final d' m f → f = d'.function → f.check m = .ok ()
  code : ∀ m f, σ.Final d' m f → BodyCode m σ.state.functions f r

/-- The result of a body is loaded at its exit, if it has one, and can be returned. -/
theorem loadResult_leads (h : σ.Ready d) {result : Option SlotId} (hfits : d.ResultFits result)
    {exit : BlockId} {n : Nat} (hspot : d.spot = .start exit n) :
    σ.Leads (result.mapM fun slot => build (Build.load slot)) d fun v d' => σ.Straight d d' ∧
      (∀ m f, σ.Final d' m f → ∀ label, (Terminator.ret v).check f label = .ok ()) ∧
      ∀ m f, σ.Final (d'.close (.ret v)) m f → ExitCode f ⟨exit, result⟩ := by
  cases result with
  | none =>
    refine .of_run (show _ = (Except.ok none, σ.working d) from rfl) ⟨.refl h, ?_, ?_⟩
    · exact fun m f hf label => Function.check_retVoid (hf.continues.ret.trans hfits)
    · intro m f hf
      have hends := hf.ends h.isOpen
      rw [hspot] at hends
      exact .void hends
  | some slot =>
    refine .map ((load_leads h hfits).mono fun v d' hv => ⟨hv.straight, ?_, ?_⟩)
    · intro m f hf label
      have hfret : f.ret = d.function.ret := (hv.straight.earlier hf).continues.ret
      refine Function.check_ret (hfret ▸ hf.continues.typeOf hv.typeOf) ?_
      obtain ⟨name, hname⟩ := hfits
      exact hfret ▸ h.slots _ _ hname
    · intro m f hf
      have hf' := hf.of_close hv.straight.isOpen
      have hfret : f.ret = d.function.ret := (hv.straight.earlier hf').continues.ret
      obtain ⟨hcode, rfl, hspot'⟩ := hv.code m f hf'
      have hends := hf.ends hv.straight.isOpen
      rw [hspot', hspot] at hends
      rw [hspot, ← hfret] at hcode
      exact .value hcode hends

theorem body_leads (h : σ.Ready d) (r : Routine) (hret : d.function.ret = r.result.ty)
    (hvoid : ∀ p ∈ r.params, p.type.ty ≠ .void)
    (hparams : d.function.params = r.params.map fun p => ⟨p.name.text, p.type.ty⟩)
    (hopens : ∀ k, d.function.IsOpen k → k = d.block) (hattached : ∀ k, ¬d.function.IsDetached k)
    (hentry : d.function.entryBlock? = some d.block) (hblank : d.Blank d.block)
    (hscopes : d.scopes = [[]]) :
    σ.Leads (body r) d fun _ => FollowsBody σ d r := by
  unfold body
  refine (resultSlot_leads h r hret).bind fun result d₁ ⟨hfits₁, h₁⟩ => ?_
  have hresult₁ : ∀ s, result = some s → s.index < d₁.function.slots.size := by
    rintro s rfl
    obtain ⟨name, hname⟩ := hfits₁
    exact (Array.getElem?_eq_some_iff.1 hname).1
  have hparams₁ (k : Nat) (p : Param) (hp : r.params[k]? = some p) :
      d₁.function.params[0 + k]? = some ⟨p.name.text, p.type.ty⟩ := by
    rw [h₁.straight.work.continues.params, hparams]
    simp [hp]
  refine (bindParams_leads h₁.ready hresult₁ 0 r.params hvoid hparams₁).bind
    fun _ d₂ ⟨hopen₂, hw₂, hcode₂⟩ => ?_
  refine (createBlock_leads (h₁.straight.work.trans hw₂) _).bind fun exit d₃ h₃ => ?_
  have hfits₃ : d₃.ResultFits result := hfits₁.mono (hw₂.continues.trans h₃.continues)
  let frame : BodyFrame := ⟨exit, result⟩
  let d₄ : Draft := { d₃ with frame := some frame }
  have hw₄ : σ.Work { d with frame := some frame } [exit] [exit] d₄ :=
    work_withFrame h₃.work (h₃.work.waiting_lt (List.mem_singleton_self exit)) hfits₃
  refine .step (show _ = (Except.ok (), σ.working d₄) from rfl) ?_
  refine (stmts_leads (hw₄.ready (h₃.isOpen.2 hopen₂)) rfl r.body).bind fun _ d₅ h₅ => ?_
  have hw₅ := hw₄.trans h₅.work
  refine land_leads_bind hw₅ h₅.isOpen (hw₅.waiting_lt (List.mem_singleton_self exit))
    (.refl [exit]) fun d₆ h₆ => ?_
  obtain ⟨n, hn⟩ := h₆.spot
  have hfits₆ : d₆.ResultFits result := hfits₃.mono (h₅.work.continues.trans h₆.continues)
  refine (loadResult_leads h₆.ready hfits₆ hn).bind fun v d₇ ⟨h₇, hcheck, hexit⟩ => ?_
  have hw₇ := h₆.work.trans h₇.work
  refine .step (build_run (terminate_run h₇.isOpen (.ret v))) ?_
  refine .of_run (show _ = (_, σ.working { d₇.close (.ret v) with frame := none }) from rfl) ?_
  have hfinal {m f} (hf : σ.Final { d₇.close (.ret v) with frame := none } m f) :
      σ.Final (d₇.close (.ret v)) m f :=
    hf.of_same rfl rfl
  have hbefore {m f} (hf : σ.Final { d₇.close (.ret v) with frame := none } m f) :
      σ.Final d₇ m f :=
    (hfinal hf).of_close h₇.isOpen
  exact {
    continues := hw₇.continues.trans (.close h₇.isOpen _)
    globals := hw₇.globals
    formats := hw₇.sane.formats
    scopes := hw₇.scopes
    frame := rfl
    check := fun m f hf heq =>
      check_closed hw₇ h₇.isOpen hopens hattached (hfinal hf) heq (hcheck m f (hbefore hf))
    code := by
      intro m f hf
      have hf₆ := h₇.earlier (hbefore hf)
      have hf₅ := h₆.earlier hf₆
      have hf₃ : σ.Final d₃ m f := (h₅.work.earlier hf₅).of_same rfl rfl
      have hf₂ := h₃.earlier hf₃
      have hf₁ := hw₂.earlier hf₂
      obtain ⟨n₀, hn₀⟩ : ∃ n, d.spot = .start d.block n := ⟨_, Draft.spot_enter hblank⟩
      have hresult := h₁.code m f hf₁
      have hps := hcode₂ m f hf₂ frame rfl
      have hstmts := h₅.code m f hf₅
      have hleave := h₆.ends m f hf₆
      rw [hn₀] at hresult
      rw [h₁.straight.scopes, hscopes] at hps
      rw [show d₄.scopes = d₂.scopes from h₃.scopes,
        show d₄.spot = d₂.spot from h₃.spot] at hstmts
      have hstart : f.entryBlock? = some d.block :=
        (hf₁.continues.layout _ _ (h₁.straight.work.continues.layout _ _ hentry))
      exact ⟨d.block, n₀, frame, d₁.spot, d₂.scopes, d₂.spot, d₅.scopes, d₅.spot, hstart, hresult,
        hps, hstmts, hleave, hexit m f (hfinal hf)⟩ }

end Quill.Lower

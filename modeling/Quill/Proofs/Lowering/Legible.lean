import Quill.Proofs.Ir.Legible
import Quill.Proofs.Lowering.ControlFlow
import Quill.Proofs.Lowering.Requests
import Quill.Proofs.Typing.Program

/-! # Lowered modules can be read back

Names of sources are names, each block is in the layout and ends, and what has passed verification
finds its operands. So the text of a module tells the module.
-/
namespace Quill

open Ir (Block BlockId Function Global Module Operand Param Ty)

namespace Ir

variable {m : Module} {f : Function} {v : Operand} {ty : Ty}

theorem Function.typeOf_of_usedType (h : f.usedType v = .ok ty) : f.typeOf v = .ok ty := by
  cases v with
  | void => cases h
  | inst | param | slotAddr =>
    simp only [usedType] at h
    split at h
    · cases h
    · exact mapError_eq_ok.1 h
  | int | float | global => simpa only [usedType, Check.ofFault, mapError_eq_ok] using h

theorem Function.typeOf_of_operandType (h : f.operandType v = .ok ty) : f.typeOf v = .ok ty :=
  f.typeOf_of_usedType (mapError_eq_ok.1 h)

theorem Operand.isFound_of_used (hused : ∃ ty, f.usedType v = .ok ty)
    (htext : v.TextBelow m.globals.size) (hdoubles : ∀ x ∈ v.doubles, x ∈ m.doubles) :
    v.IsFound m f := by
  obtain ⟨ty, hty⟩ := hused
  cases v with
  | inst | param | slotAddr => exact Function.names_of_usedType hty
  | global id => exact htext
  | float ty x => exact hdoubles x List.mem_cons_self
  | int => trivial
  | void => cases hty

theorem operandsMatch_of_check {α : Type} {l r : Operand} {e : Ty → Ty → InstError}
    {rest : Ty → Check InstError α} {a : α}
    (h : (do
      let s ← f.operandType l
      let t ← f.operandType r
      Check.require (s == t) (e s t)
      rest s) = .ok a) : f.typeOf r = f.typeOf l := by
  obtain ⟨s, hs, h⟩ := bind_eq_ok.1 h
  obtain ⟨t, ht, h⟩ := bind_eq_ok.1 h
  obtain ⟨_, hsame, -⟩ := bind_eq_ok.1 h
  rw [f.typeOf_of_operandType hs, f.typeOf_of_operandType ht,
    beq_iff_eq.1 (require_eq_ok.1 hsame)]

theorem Inst.isClear_of_check {i : Inst} (hcheck : i.action.check m f = .ok ())
    (hbuilt : i.IsBuilt m.globals.size f)
    (hdoubles : ∀ v ∈ i.action.operands, ∀ x ∈ v.doubles, x ∈ m.doubles) :
    i.action.IsClear m f := by
  have hfound (v) (hv : v ∈ i.action.operands) : v.IsFound m f :=
    v.isFound_of_used (Function.used_of_check hcheck v hv) (hbuilt.operands v hv) (hdoubles v hv)
  obtain ⟨result, action⟩ := i
  cases action with
  | alloca s => exact hbuilt.slot s (.inl rfl)
  | load s => exact hbuilt.slot s (.inr rfl)
  | store s v => exact ⟨Function.slot_of_check_store hcheck, hfound v List.mem_cons_self⟩
  | binary op l r =>
    exact ⟨hfound l List.mem_cons_self, hfound r (List.mem_cons_of_mem l List.mem_cons_self),
      operandsMatch_of_check hcheck⟩
  | compare pred l r =>
    exact ⟨hfound l List.mem_cons_self, hfound r (List.mem_cons_of_mem l List.mem_cons_self),
      operandsMatch_of_check hcheck⟩
  | cast op v target => exact hfound v List.mem_cons_self
  | call callee args =>
    obtain ⟨g, hg, -⟩ := Function.supplies_of_check_call hcheck
    exact ⟨(Array.getElem?_eq_some_iff.1 (entry_eq_ok.1 hg)).1, hfound⟩

theorem mem_doubles {b : Block} (hf : f ∈ m.functions) (hb : b ∈ f.blocks) (hv : v ∈ b.operands) :
    ∀ x ∈ v.doubles, x ∈ m.doubles := fun _ hx =>
  List.mem_flatMap.2 ⟨f, Array.mem_toList_iff.2 hf,
    List.mem_flatMap.2 ⟨b, Array.mem_toList_iff.2 hb, List.mem_flatMap.2 ⟨v, hv, hx⟩⟩⟩

/-- Blocks of a function that passes, with all of them in its layout. -/
theorem Function.isLegible_of_check (hf : f ∈ m.functions) (hclear : f.IsClear m)
    (hconsistent : f.IsConsistent m) (hbuilt : f.IsBuilt m.globals.size)
    (hlayout : ∀ id : BlockId, id ∈ f.layout ↔ id.index < f.blocks.size)
    (hcheck : f.check m = .ok ()) (hvariadic : f.isVariadic = false)
    (hnoReturn : f.isNoReturn = false) : f.IsLegible m := by
  have hblock : ∀ b ∈ f.blocks, ∃ t, b.terminator = some t ∧
      (∀ i ∈ b.insts, i.action.check m f = .ok ()) ∧ t.check f b.label = .ok () := by
    intro b hb
    obtain ⟨k, hk⟩ := Array.mem_iff_getElem?.1 hb
    have hmem := (hlayout ⟨k⟩).2 (Array.getElem?_eq_some_iff.1 hk).1
    obtain ⟨r, hr⟩ := checkBlock_of_check hcheck hmem
    obtain ⟨b', t, hb', ht, -, hinsts, hlast⟩ := checkBlock_eq_ok hr
    obtain rfl := Option.some.inj (hk.symm.trans (entry_eq_ok.1 hb'))
    exact ⟨t, ht, hinsts, hlast⟩
  refine ⟨hclear, hconsistent, hlayout, fun b hb i hi => ?_, fun b hb => ?_, hvariadic, hnoReturn⟩
  · obtain ⟨t, -, hinsts, -⟩ := hblock b hb
    refine i.isClear_of_check (hinsts i hi) ((hbuilt b hb).insts i hi) fun v hv => ?_
    refine mem_doubles hf hb (List.mem_append_left _ (List.mem_flatMap.2 ⟨i, ?_, hv⟩))
    exact Array.mem_toList_iff.2 hi
  · obtain ⟨t, ht, -, hlast⟩ := hblock b hb
    refine ⟨t, ht, fun v hv => ?_⟩
    refine v.isFound_of_used (used_of_check_terminator hlast v hv)
      ((hbuilt b hb).terminator t ht v hv) (mem_doubles hf hb (List.mem_append_right _ ?_))
    exact List.mem_flatMap.2 ⟨t, by simp [ht], hv⟩

end Ir

namespace Program

variable {o : LexerOptions} {fileName : String} {feed : Feed} {p : Program} {m : Module}

theorem lower_routinesCode (h : (parse o fileName feed).outcome = .ok p)
    (hm : p.lower.outcome = .ok m) : RoutinesCode m p.routines ∧
      ∀ f ∈ m.functions, f.check m = .ok () := by
  rcases p.lower_outcome (params_routines h) with ⟨n, hn, hcode, hverify⟩ | ⟨e, he, -⟩
  · obtain rfl := Except.ok.inj (hm.symm.trans hn)
    refine ⟨hcode, fun f hf => ?_⟩
    obtain ⟨k, hk⟩ := Array.mem_iff_getElem?.1 hf
    exact Module.check_of_verify (Ir.entry_eq_ok.2 hk)
      (hverify ⟨k⟩ (Array.getElem?_eq_some_iff.1 hk).1)
  · cases hm.symm.trans he

/-- A function of a lowered module has neither blocks nor tables, or is drawn for a routine. -/
theorem lower_function_cases (h : (parse o fileName feed).outcome = .ok p)
    (hm : p.lower.outcome = .ok m) {f : Function} (hf : f ∈ m.functions) :
    (f.layout = #[] ∧ f.blocks = #[] ∧ f.slots = #[] ∧ f.values = #[]) ∨
      ∃ r ∈ p.routines, r.body ≠ [] ∧ f.signature = r.declared.signature ∧ f.IsDrawn r := by
  obtain ⟨hcode, -⟩ := lower_routinesCode h hm
  obtain ⟨t, ht, rfl⟩ := lower_drawn hm
  obtain ⟨k, hk⟩ := Array.mem_iff_getElem?.1 hf
  have hsize := hcode.size ▸ (Array.getElem?_eq_some_iff.1 hk).1
  rcases Lower.index_cases k with rfl | rfl | rfl | ⟨j, rfl⟩
  · cases ht.outside.print.symm.trans hk
    exact .inl ⟨rfl, rfl, rfl, rfl⟩
  · cases ht.outside.read.symm.trans hk
    exact .inl ⟨rfl, rfl, rfl, rfl⟩
  · cases ht.outside.abort.symm.trans hk
    exact .inl ⟨rfl, rfl, rfl, rfl⟩
  · have hj : j < p.routines.length := by omega
    have hr := List.getElem?_eq_getElem hj
    obtain ⟨table, -, hroutines⟩ := hcode.code
    obtain ⟨g, hg, hroutine⟩ := hroutines j _ hr
    obtain rfl := Option.some.inj (hg.symm.trans hk)
    by_cases hbody : p.routines[j].body = []
    · rw [hroutine.declared hbody]
      exact .inl ⟨rfl, rfl, rfl, rfl⟩
    · obtain ⟨f, hf, hdrawn⟩ := ht.drawn j _ hj hr hbody
      obtain rfl := Option.some.inj (hf.symm.trans hk)
      exact .inr ⟨_, List.getElem_mem hj, hbody, hroutine.signature, hdrawn⟩

theorem lower_isClear (h : (parse o fileName feed).outcome = .ok p)
    (hm : p.lower.outcome = .ok m) : m.IsClear := by
  obtain ⟨hand, b, hb, rfl⟩ := lower_builtWith h hm
  refine ⟨fun k t ht => ?_, fun f hf => hb.named f hf, ?_⟩
  · obtain ⟨base, rfl, hname⟩ := hb.isWorded.texts k t ht
    exact ⟨"format", by decide, hname⟩
  · refine List.nodup_iff_getElem?_ne_getElem?.2 fun i j hij hj hsame => ?_
    have hj : j < b.module.functions.size := by simpa using hj
    have hi := Nat.lt_trans hij hj
    refine absurd (hb.isConsistent.names i j _ _ (Array.getElem?_eq_getElem hi)
      (Array.getElem?_eq_getElem hj) ?_) (Nat.ne_of_lt hij)
    simpa [hi, hj] using hsame

theorem lower_isTold (h : (parse o fileName feed).outcome = .ok p) (hm : p.lower.outcome = .ok m)
    {f : Function} (hf : f ∈ m.functions) {r : Routine} (hr : r ∈ p.routines) (hbody : r.body ≠ [])
    (hsignature : f.signature = r.declared.signature) : f.IsTold := by
  have hparams : f.params = r.params.map fun x => ⟨x.name.text, x.type.ty⟩ :=
    congrArg Ir.Signature.params hsignature
  obtain ⟨hand, b, hb, rfl⟩ := lower_builtWith h hm
  refine ⟨?_, fun q hq => ?_, (hb.isWorded.functions f hf).slots⟩
  · rw [hparams, List.map_map]
    exact ((wellTyped_of_lower h hm).bodies r hr hbody).1
  · rw [hparams] at hq
    obtain ⟨x, hx, rfl⟩ := List.mem_map.1 hq
    exact (isNamed_routines h r hr).params x hx

theorem isSolid_label : ∀ l, Lower.vocabulary.label l → IsSolid l.toList := by
  change ∀ l ∈ (_ : List String), IsSolid l.toList
  decide

theorem lower_isLegible (h : (parse o fileName feed).outcome = .ok p)
    (hm : p.lower.outcome = .ok m) : m.IsLegible := by
  have hclear := lower_isClear h hm
  obtain ⟨hand, b, hb, rfl⟩ := lower_builtWith h hm
  refine { hclear with
    indexed := hb.isConsistent.indexed
    bare := fun f hf hbody => ?_
    code := fun f hf hbody => ?_ }
  · rcases lower_function_cases h hm hf with ⟨-, hbare⟩ | ⟨r, -, -, -, c, rfl, hshape, -⟩
    · exact hbare
    · have hentry := hshape.entry
      have hempty : c.function.layout = #[] := by simpa [Function.isDeclaration] using hbody
      simp [hempty] at hentry
  · rcases lower_function_cases h hm hf with ⟨hempty, -⟩ | ⟨r, hr, hcode, hsignature, hdrawn⟩
    · simp [Function.isDeclaration, hempty] at hbody
    · obtain ⟨c, rfl, hshape, -, hfinished, -⟩ := hdrawn
      refine Function.isLegible_of_check hf
        { hclear with
          told := lower_isTold h hm hf hr hcode hsignature
          labels := fun b' hb' => isSolid_label _ ((hb.isWorded.functions _ hf).labels b' hb') }
        (hb.isConsistent.functions _ hf) (hb.built.isBuilt.1 _ hf) (fun id => ?_)
        ((lower_routinesCode h hm).2 _ hf) (congrArg Ir.Signature.isVariadic hsignature)
        (congrArg Ir.Signature.isNoReturn hsignature)
      rw [← Array.mem_toList_iff, (hfinished.attached hshape).mem_iff]
      constructor
      · intro hid
        obtain ⟨k, hk, rfl⟩ := List.mem_map.1 hid
        exact List.mem_range.1 hk
      · exact fun hid => List.mem_map.2 ⟨_, List.mem_range.2 hid, rfl⟩

/-- The text of a lowered module tells the module. Lowered modules of the same name are written
alike if and only if they are the same, but for the names of the parameters of functions without a
body; doubles have to be told apart by their texts. What is in a function with a body is told apart
by its name, and constants are read back byte for byte. -/
theorem print_eq_iff {o' : LexerOptions} {fileName' : String} {feed' : Feed} {q : Program}
    {n : Module} (hp : (parse o fileName feed).outcome = .ok p)
    (hq : (parse o' fileName' feed').outcome = .ok q) (hm : p.lower.outcome = .ok m)
    (hn : q.lower.outcome = .ok n) (hname : m.name = n.name) (hdoubles : m.TellDoubles n) :
    (m.print = n.print ↔ m.settled = n.settled) ∧
    (∀ f ∈ m.functions, f.isDeclaration = false →
      (f.locals.map (·.print m f)).Nodup ∧ (f.layout.toList.map f.blockText).Nodup) ∧
    ∀ t ∈ m.globals, Ir.unescape (Ir.escapeText t.text).toList = Utf8.encode t.text := by
  have hlegible := lower_isLegible hp hm
  refine ⟨⟨?_, fun h => ?_⟩, fun f hf hbody => ?_, fun t _ => Ir.unescape_escapeText t.text⟩
  · exact Module.settled_eq_of_print hlegible (lower_isLegible hq hn) hname hdoubles
  · rw [← m.print_settled, h, n.print_settled]
  · have hcode := hlegible.code f hf hbody
    exact ⟨hcode.clear.told.nodup_print m, hcode.consistent.nodup_blockText⟩

def callsSource : List UInt8 :=
  Utf8.encode "main 2 print, call f with 1; function f with a: integer;"

/-- The same calls, but for the name of the parameter. -/
def renamedSource : List UInt8 :=
  Utf8.encode "main 2 print, call f with 1; function f with b: integer;"

/-- The name of the module of a source, and how many doubles are in it. -/
def nameAndDoubles (source : List UInt8) : Option (String × Nat) :=
  (parse .usual "sample" (.whole source)).outcome.toOption.bind fun p =>
    p.lower.outcome.toOption.map fun m => (m.name, m.doubles.length)

theorem exists_of_nameAndDoubles {source : List UInt8}
    (h : nameAndDoubles source = some ("sample", 0)) :
    ∃ p m, (parse .usual "sample" (.whole source)).outcome = .ok p ∧ p.lower.outcome = .ok m ∧
      m.name = "sample" ∧ m.doubles = [] := by
  obtain ⟨p, hp, h⟩ := exists_ok_of_bind h
  obtain ⟨m, hm, h⟩ := exists_ok_of_map h
  obtain ⟨hname, hdoubles⟩ := Prod.mk.inj h
  exact ⟨p, m, hp, hm, hname, List.length_eq_zero_iff.1 hdoubles⟩

theorem print_eq_iff_sample : ∃ p q m n,
    (parse .usual "sample" (.whole callsSource)).outcome = .ok p ∧
    (parse .usual "sample" (.whole renamedSource)).outcome = .ok q ∧
    p.lower.outcome = .ok m ∧ q.lower.outcome = .ok n ∧ m.name = n.name ∧ m.TellDoubles n ∧
    (m.print = n.print ↔ m.settled = n.settled) ∧
    (∀ f ∈ m.functions, f.isDeclaration = false →
      (f.locals.map (·.print m f)).Nodup ∧ (f.layout.toList.map f.blockText).Nodup) ∧
    ∀ t ∈ m.globals, Ir.unescape (Ir.escapeText t.text).toList = Utf8.encode t.text := by
  have hcalls : nameAndDoubles callsSource = some ("sample", 0) := by
    rw [nameAndDoubles, outcome_parse_whole]
    decide +kernel
  have hrenamed : nameAndDoubles renamedSource = some ("sample", 0) := by
    rw [nameAndDoubles, outcome_parse_whole]
    decide +kernel
  obtain ⟨p, m, hp, hm, hpname, hpdoubles⟩ := exists_of_nameAndDoubles hcalls
  obtain ⟨q, n, hq, hn, hqname, hqdoubles⟩ := exists_of_nameAndDoubles hrenamed
  have hname : m.name = n.name := hpname.trans hqname.symm
  have hdoubles : m.TellDoubles n := by simp [Module.TellDoubles, hpdoubles]
  exact ⟨p, q, m, n, hp, hq, hm, hn, hname, hdoubles, print_eq_iff hp hq hm hn hname hdoubles⟩

end Program

end Quill

import Mathlib.Data.Finset.Card
import Quill.Interner

/-! # Symbols and texts

The table of an interner and its texts are inverse to each other. Each call keeps them so, and
what was added stays: a text has one symbol for good, and no other text has that symbol.
-/
namespace Quill

/-- As long as there is room, the symbol of an index is the next number. -/
theorem Symbol.ofIndex_eq {index : Nat} (h : index < greatest) : ofIndex index = ⟨index + 1⟩ := by
  simp only [ofIndex, mk.injEq]
  omega

namespace Interner

variable {i : Interner} {name x y : String} {new s : Symbol} {k : Nat} {names more : List String}

/-- Symbols lead back to the texts they are looked up under, and to no others. -/
def Inverse (i : Interner) : Prop :=
  ∀ x s, i.lookup? x = some s ↔ i.get? s = some x

theorem get?_eq_some : i.get? s = some x ↔ ∃ k : Nat, s = ⟨k + 1⟩ ∧ i.names[k]? = some x := by
  obtain ⟨n⟩ := s
  cases n with
  | zero => simp [get?]
  | succ k => simp [get?]

/-! ## One call -/

theorem internAs_of_some (h : i.lookup? name = some s) : i.internAs name new = (s, i) := by
  simp [internAs, h]

theorem internAs_of_none (h : i.lookup? name = none) :
    i.internAs name new = (new, ⟨(name, new) :: i.symbols, i.names.push name⟩) := by
  simp [internAs, h]

theorem lookup?_internAs :
    (i.internAs name new).2.lookup? x =
      if x = name then some (i.internAs name new).1 else i.lookup? x := by
  cases h : i.lookup? name with
  | some s =>
    rw [internAs_of_some h]
    split
    · rename_i hx
      rw [hx, h]
    · rfl
  | none =>
    rw [internAs_of_none h]
    by_cases hx : x = name
    · simp [lookup?, hx]
    · have hbeq : (x == name) = false := beq_false_of_ne hx
      simp [lookup?, List.lookup_cons, hx, hbeq]

theorem lookup?_internAs_of_some (h : i.lookup? x = some s) :
    (i.internAs name new).2.lookup? x = some s := by
  rw [lookup?_internAs]
  split
  · rename_i hx
    subst hx
    rw [internAs_of_some h]
  · exact h

namespace Inverse

protected theorem empty : Inverse empty := by
  intro x s
  simp [lookup?, get?, Interner.empty]

theorem lookup?_of_getElem? (h : i.Inverse) (hk : i.names[k]? = some x) :
    i.lookup? x = some ⟨k + 1⟩ :=
  (h x _).2 (get?_eq_some.2 ⟨k, rfl, hk⟩)

theorem mem_names (h : i.Inverse) : x ∈ i.names ↔ ∃ s, i.lookup? x = some s := by
  rw [Array.mem_iff_getElem?]
  constructor
  · rintro ⟨k, hk⟩
    exact ⟨_, h.lookup?_of_getElem? hk⟩
  · rintro ⟨s, hs⟩
    obtain ⟨k, -, hk⟩ := get?_eq_some.1 ((h x s).1 hs)
    exact ⟨k, hk⟩

/-- Two indices of one text are both the one before the number of its symbol. -/
theorem nodup (h : i.Inverse) : i.names.toList.Nodup := by
  refine List.pairwise_iff_getElem.2 fun k l hk hl hkl heq => ?_
  have hx : i.names[l]? = some i.names.toList[l] := by simp
  have hy : i.names[k]? = some i.names.toList[l] := by simp [← heq]
  have := (h.lookup?_of_getElem? hy).symm.trans (h.lookup?_of_getElem? hx)
  simp only [Option.some.injEq, Symbol.mk.injEq] at this
  omega

/-- A new text under the next number is looked up and found under that number only. -/
protected theorem internAs (h : i.Inverse) : (i.internAs name ⟨i.size + 1⟩).2.Inverse := by
  cases hname : i.lookup? name with
  | some s => rwa [internAs_of_some hname]
  | none =>
    have habsent : ∀ k : Nat, i.names[k]? ≠ some name := fun k hk => by
      simp [h.lookup?_of_getElem? hk] at hname
    intro x s
    rw [lookup?_internAs, internAs_of_none hname, get?_eq_some]
    simp only [Array.getElem?_push]
    split
    · rename_i hx
      subst hx
      constructor
      · rintro ⟨⟩
        exact ⟨i.size, rfl, by simp [size]⟩
      · rintro ⟨k, rfl, hk⟩
        split at hk
        · rename_i hsize
          simp [hsize, size]
        · exact absurd hk (habsent k)
    · rename_i hx
      rw [h x s, get?_eq_some]
      refine exists_congr fun k => and_congr_right fun _ => ?_
      split
      · rename_i hsize
        simp [hsize, Ne.symm hx]
      · rfl

theorem mem_names_internAs (h : i.Inverse) :
    x ∈ (i.internAs name ⟨i.size + 1⟩).2.names ↔ x ∈ i.names ∨ x = name := by
  rw [h.internAs.mem_names, h.mem_names, lookup?_internAs]
  split
  · rename_i hx
    simp [hx]
  · rename_i hx
    simp [hx]

end Inverse

/-! ## Sequences of calls -/

@[simp] theorem ofNames_nil : ofNames [] = empty := rfl

theorem ofNames_concat :
    ofNames (names ++ [x]) = ((ofNames names).internAs x ⟨(ofNames names).size + 1⟩).2 := by
  simp [ofNames]

theorem internAll_concat : i.internAll (names ++ [x]) = ((i.internAll names).intern x).2 := by
  simp [internAll]

theorem inverse_ofNames (names : List String) : (ofNames names).Inverse := by
  induction names using List.reverseRecOn with
  | nil => exact .empty
  | append_singleton names x ih =>
    rw [ofNames_concat]
    exact ih.internAs

theorem mem_names_ofNames : x ∈ (ofNames names).names ↔ x ∈ names := by
  induction names using List.reverseRecOn with
  | nil => simp [empty]
  | append_singleton names y ih =>
    rw [ofNames_concat, (inverse_ofNames names).mem_names_internAs, ih]
    simp

theorem size_ofNames (names : List String) : (ofNames names).size = names.toFinset.card := by
  have hset : (ofNames names).names.toList.toFinset = names.toFinset := by
    ext x
    simp [mem_names_ofNames]
  rw [← hset, List.toFinset_card_of_nodup (inverse_ofNames names).nodup]
  simp [size]

theorem lookup?_ofNames_append (more : List String) (h : (ofNames names).lookup? x = some s) :
    (ofNames (names ++ more)).lookup? x = some s := by
  induction more using List.reverseRecOn with
  | nil => simpa using h
  | append_singleton more y ih =>
    rw [← List.append_assoc, ofNames_concat]
    exact lookup?_internAs_of_some ih

theorem exists_lookup?_ofNames : (∃ s, (ofNames names).lookup? x = some s) ↔ x ∈ names := by
  rw [← (inverse_ofNames names).mem_names, mem_names_ofNames]

theorem lookup?_ofNames_of_not_mem (h : x ∉ names) : (ofNames names).lookup? x = none :=
  Option.eq_none_iff_forall_ne_some.2 fun s hs => h (exists_lookup?_ofNames.1 ⟨s, hs⟩)

theorem intern_ofNames (h : names.toFinset.card < Symbol.greatest) :
    (ofNames names).intern x = (ofNames names).internAs x ⟨names.toFinset.card + 1⟩ := by
  rw [intern, size_ofNames, Symbol.ofIndex_eq h]

theorem lookup?_ofNames_concat (h : names.toFinset.card < Symbol.greatest) :
    (ofNames (names ++ [x])).lookup? x = some ((ofNames names).intern x).1 := by
  rw [ofNames_concat, lookup?_internAs, if_pos rfl, intern_ofNames h, size_ofNames]

/-- As long as there is room for their numbers, the calls number the names without end. -/
theorem internAll_eq_ofNames (h : names.toFinset.card ≤ Symbol.greatest) :
    empty.internAll names = ofNames names := by
  induction names using List.reverseRecOn with
  | nil => rfl
  | append_singleton names x ih =>
    have hsub : names.toFinset ⊆ (names ++ [x]).toFinset := by simp
    rw [internAll_concat, ofNames_concat, ih ((Finset.card_le_card hsub).trans h)]
    by_cases hx : x ∈ names
    · obtain ⟨s, hs⟩ := exists_lookup?_ofNames.2 hx
      rw [intern, internAs_of_some hs, internAs_of_some hs]
    · have hcard : (names ++ [x]).toFinset.card = names.toFinset.card + 1 := by
        rw [List.toFinset_append, Finset.union_comm]
        simp [Finset.card_insert_of_notMem, hx]
      rw [intern_ofNames (by omega), size_ofNames]

/-- A call that adds a text to as many as have numbers gives it the symbol of another text. -/
theorem intern_of_full (hfull : names.toFinset.card = Symbol.greatest) (hx : x ∉ names) :
    ∃ y ∈ names, (empty.internAll names).lookup? y =
      some ((empty.internAll names).intern x).1 := by
  have hsize : (ofNames names).names.size = Symbol.greatest := (size_ofNames names).trans hfull
  have hlast : Symbol.greatest - 1 < (ofNames names).names.size := by
    rw [hsize]
    decide
  refine ⟨(ofNames names).names[Symbol.greatest - 1],
    mem_names_ofNames.1 (Array.getElem_mem hlast), ?_⟩
  rw [internAll_eq_ofNames hfull.le, intern, internAs_of_none (lookup?_ofNames_of_not_mem hx),
    (inverse_ofNames names).lookup?_of_getElem? (Array.getElem?_eq_getElem hlast), size, hsize]
  rfl

/-- A text has one symbol in all calls, the next number at the first of them, and no other text has
it. The symbol leads back to the text from its first call on, and only then it is looked up. -/
theorem internAll_bijective (hfew : names.toFinset.card < 2 ^ (32 : Nat) - 1) :
    ∃ symbol : String → Symbol,
      (∀ pre x post, names = pre ++ x :: post →
        ((empty.internAll pre).intern x).1 = symbol x ∧
        (x ∉ pre → symbol x = ⟨pre.toFinset.card + 1⟩)) ∧
      (∀ x ∈ names, ∀ y ∈ names, symbol x = symbol y ↔ x = y) ∧
      ∀ pre post, names = pre ++ post →
        (∀ x ∈ pre, (empty.internAll pre).get? (symbol x) = some x) ∧
        (∀ x s, (empty.internAll pre).lookup? x = some s ↔ x ∈ pre ∧ s = symbol x) ∧
        (empty.internAll pre).size = pre.toFinset.card := by
  have hroom : ∀ pre post, names = pre ++ post → pre.toFinset.card < Symbol.greatest := by
    rintro pre post rfl
    exact (Finset.card_le_card (by simp)).trans_lt hfew
  -- the symbols of all calls are read off the last table, where every earlier one still stands
  obtain ⟨symbol, hsymbol⟩ : ∃ symbol : String → Symbol, ∀ pre post, names = pre ++ post →
      ∀ x s, (ofNames pre).lookup? x = some s → symbol x = s := by
    refine ⟨fun x => ((ofNames names).lookup? x).getD ⟨0⟩, ?_⟩
    rintro pre post rfl x s hs
    simp [lookup?_ofNames_append post hs]
  refine ⟨symbol, ?_, ?_, ?_⟩
  · intro pre x post hnames
    have hpre := hroom pre (x :: post) hnames
    have hx := hsymbol (pre ++ [x]) post (by simp [hnames]) x _ (lookup?_ofNames_concat hpre)
    rw [internAll_eq_ofNames hpre.le]
    refine ⟨hx.symm, fun hnew => ?_⟩
    rw [hx, intern_ofNames hpre, internAs_of_none (lookup?_ofNames_of_not_mem hnew)]
  · intro x hx y hy
    refine ⟨fun heq => ?_, congrArg symbol⟩
    obtain ⟨s, hs⟩ := exists_lookup?_ofNames.2 hx
    obtain ⟨t, ht⟩ := exists_lookup?_ofNames.2 hy
    have hst : s = t := by
      rw [← hsymbol names [] (by simp) x s hs, heq, hsymbol names [] (by simp) y t ht]
    subst hst
    have hback := (inverse_ofNames names x s).1 hs
    rw [(inverse_ofNames names y s).1 ht] at hback
    exact (Option.some.inj hback).symm
  · intro pre post hnames
    have hkeep := hsymbol pre post hnames
    rw [internAll_eq_ofNames (hroom pre post hnames).le]
    refine ⟨fun x hx => ?_, fun x s => ⟨fun hs => ?_, ?_⟩, size_ofNames pre⟩
    · obtain ⟨s, hs⟩ := exists_lookup?_ofNames.2 hx
      rw [hkeep x s hs]
      exact (inverse_ofNames pre x s).1 hs
    · exact ⟨exists_lookup?_ofNames.1 ⟨s, hs⟩, (hkeep x s hs).symm⟩
    · rintro ⟨hx, rfl⟩
      obtain ⟨s, hs⟩ := exists_lookup?_ofNames.2 hx
      rw [hkeep x s hs, hs]

theorem internAll_bijective_two : ["b", "a", "b"].toFinset.card < 2 ^ (32 : Nat) - 1 ∧
    ∃ symbol : String → Symbol,
      (∀ pre x post, ["b", "a", "b"] = pre ++ x :: post →
        ((empty.internAll pre).intern x).1 = symbol x ∧
        (x ∉ pre → symbol x = ⟨pre.toFinset.card + 1⟩)) ∧
      (∀ x ∈ ["b", "a", "b"], ∀ y ∈ ["b", "a", "b"], symbol x = symbol y ↔ x = y) ∧
      ∀ pre post, ["b", "a", "b"] = pre ++ post →
        (∀ x ∈ pre, (empty.internAll pre).get? (symbol x) = some x) ∧
        (∀ x s, (empty.internAll pre).lookup? x = some s ↔ x ∈ pre ∧ s = symbol x) ∧
        (empty.internAll pre).size = pre.toFinset.card :=
  have hfew : ["b", "a", "b"].toFinset.card < 2 ^ (32 : Nat) - 1 := by decide
  ⟨hfew, internAll_bijective hfew⟩

end Interner

end Quill

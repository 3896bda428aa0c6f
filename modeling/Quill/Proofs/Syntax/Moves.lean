import Quill.Proofs.Syntax.Grammar

/-! # Moving along lexemes

A rule of the parser moves the cursor over the lexemes it uses. What each of the small rules does
is said twice here: how it ends where it is known what lies ahead, and what lay ahead where it is
known how it ended.
-/
namespace Quill

theorem endOf_append (p : Location) (ls rs : List Lexeme) :
    endOf p (ls ++ rs) = endOf (endOf p ls) rs := List.foldl_append

namespace Cursor

def ahead (c : Cursor) : List Lexeme := c.current :: c.rest

def HasEnd (c : Cursor) : Prop := ∃ l ∈ c.ahead, l.token = .eof

/-- The cursor `c'` stands behind the lexemes `used`, none of which is the end. -/
structure Moves (c : Cursor) (used : List Lexeme) (c' : Cursor) : Prop where
  ahead : c.ahead = used ++ c'.ahead
  passed : c'.passed = endOf c.passed used
  noEnd : ∀ l ∈ used, l.token ≠ .eof

variable {c c₁ c' : Cursor} {l : Lexeme} {used more : List Lexeme}

theorem HasEnd.rest_ne_nil (h : c.HasEnd) (hc : c.token ≠ .eof) : c.rest ≠ [] := by
  intro hrest
  obtain ⟨l, hl, heof⟩ := h
  rw [ahead, hrest, List.mem_singleton] at hl
  subst hl
  exact hc heof

namespace Moves

theorem refl (c : Cursor) : c.Moves [] c := ⟨rfl, rfl, by simp⟩

theorem trans (h : c.Moves used c₁) (h' : c₁.Moves more c') : c.Moves (used ++ more) c' := by
  refine ⟨by rw [h.ahead, h'.ahead, List.append_assoc], ?_, fun l hl => ?_⟩
  · rw [h'.passed, h.passed, endOf_append]
  · exact (List.mem_append.1 hl).elim (h.noEnd l) (h'.noEnd l)

theorem split (h : c.Moves (used ++ more) c') : ∃ c₁, c.Moves used c₁ ∧ c₁.Moves more c' := by
  obtain ⟨l, rest, hrest⟩ : ∃ l rest, more ++ c'.ahead = l :: rest := by
    cases more with
    | nil => exact ⟨_, _, rfl⟩
    | cons l more => exact ⟨_, _, rfl⟩
  refine ⟨⟨l, rest, endOf c.passed used⟩, ⟨?_, rfl, ?_⟩, ⟨hrest.symm, ?_, ?_⟩⟩
  · rw [h.ahead, List.append_assoc, hrest]
    rfl
  · exact fun l hl => h.noEnd l (List.mem_append_left _ hl)
  · rw [h.passed, endOf_append]
  · exact fun l hl => h.noEnd l (List.mem_append_right _ hl)

theorem unique (h : c.Moves used c₁) (h' : c.Moves used c') : c₁ = c' := by
  have hahead : c₁.ahead = c'.ahead := List.append_cancel_left (h.ahead.symm.trans h'.ahead)
  obtain ⟨hcurrent, hrest⟩ := List.cons.inj hahead
  have hpassed : c₁.passed = c'.passed := h.passed.trans h'.passed.symm
  cases c₁
  cases c'
  simp_all

theorem eq_of_nil (h : c.Moves [] c') : c' = c := h.unique (refl c)

theorem advance (h : c.Moves [l] c') : c.current = l ∧ c.advance = c' := by
  obtain ⟨hcurrent, hrest⟩ := List.cons.inj h.ahead
  have hpassed : c'.passed = l.span.last := h.passed
  refine ⟨hcurrent, ?_⟩
  change c.rest = c'.current :: c'.rest at hrest
  rw [Cursor.advance, hrest]
  cases c'
  simp_all

theorem cons {more : List Lexeme} (h : c.Moves (l :: more) c') :
    c.current = l ∧ c.advance.Moves more c' := by
  obtain ⟨c₁, hone, hmore⟩ := split (show c.Moves ([l] ++ more) c' from h)
  obtain ⟨hcurrent, rfl⟩ := hone.advance
  exact ⟨hcurrent, hmore⟩

theorem token {more : List Lexeme} (h : c.Moves (l :: more) c') : c.token = l.token :=
  congrArg Lexeme.token h.cons.1

theorem length (h : c.Moves used c') : c.ahead.length = used.length + c'.ahead.length := by
  rw [h.ahead, List.length_append]

theorem hasEnd (h : c.Moves used c') (hc : c.HasEnd) : c'.HasEnd := by
  obtain ⟨l, hl, heof⟩ := hc
  rw [h.ahead] at hl
  rcases List.mem_append.1 hl with hl | hl
  · exact absurd heof (h.noEnd l hl)
  · exact ⟨l, hl, heof⟩

/-- What was passed on the way spans from the first lexeme to the last. -/
theorem span (h : c.Moves used c') (hused : used ≠ []) :
    (⟨c.span.first, c'.passed⟩ : Span) = spanOf used := by
  cases used with
  | nil => exact absurd rfl hused
  | cons l rest =>
    obtain ⟨rfl, -⟩ := h.cons
    rw [h.passed]
    rfl

end Moves

theorem HasEnd.advance (h : c.HasEnd) (hc : c.token ≠ .eof) : c.Moves [c.current] c.advance := by
  obtain ⟨l, rest, hrest⟩ := List.exists_cons_of_ne_nil (h.rest_ne_nil hc)
  refine ⟨?_, ?_, fun l hl => List.mem_singleton.1 hl ▸ hc⟩
  · simp [ahead, Cursor.advance, hrest]
  · simp [Cursor.advance, hrest, endOf]

end Cursor

namespace Parser

variable {α β : Type} {x : Parser α} {c c₁ c' : Cursor} {a : α} {used : List Lexeme}

/-! ### How rules end -/

theorem run_bind (x : Parser α) (f : α → Parser β) (c : Cursor) :
    (x >>= f).run c = x.run c >>= fun r => (f r.1).run r.2 := rfl

theorem bind_ok {f : α → Parser β} (h : x.run c = .ok (a, c₁)) :
    (x >>= f).run c = (f a).run c₁ := by
  rw [run_bind, h]
  rfl

theorem map_ok {f : α → β} (h : x.run c = .ok (a, c')) : (f <$> x).run c = .ok (f a, c') := by
  rw [map_eq_pure_bind, bind_ok h]
  rfl

theorem discard_ok (h : x.run c = .ok (a, c')) : (discard x).run c = .ok ((), c') := map_ok h

theorem get_bind {f : Cursor → Parser β} : (get >>= f).run c = (f c).run c := rfl

theorem advance_ok : advance.run c = .ok ((), c.advance) := rfl

theorem isWord_ok {k : Keyword} (found : Bool) (h : found = true ↔ c.token = .word k) :
    (isWord k).run c = .ok (found, c) := by
  unfold isWord
  rw [get_bind]
  cases found with
  | true =>
    rw [h.1 rfl]
    simp
    rfl
  | false =>
    split
    · rename_i k' hk'
      have hne : k' ≠ k := fun heq => absurd (h.2 (heq ▸ hk')) Bool.false_ne_true
      change Except.ok (k' == k, c) = _
      rw [beq_eq_false_iff_ne.2 hne]
    · rfl

theorem isMark_ok {m : Mark} (found : Bool) (h : found = true ↔ c.token = .mark m) :
    (isMark m).run c = .ok (found, c) := by
  unfold isMark
  rw [get_bind]
  cases found with
  | true =>
    rw [h.1 rfl]
    simp
    rfl
  | false =>
    split
    · rename_i m' hm'
      have hne : m' ≠ m := fun heq => absurd (h.2 (heq ▸ hm')) Bool.false_ne_true
      change Except.ok (m' == m, c) = _
      rw [beq_eq_false_iff_ne.2 hne]
    · rfl

theorem takeWord_yes {k : Keyword} (h : c.token = .word k) :
    (takeWord k).run c = .ok (true, c.advance) := by
  unfold takeWord
  rw [bind_ok (isWord_ok true (by simpa using h))]
  rfl

theorem takeWord_no {k : Keyword} (h : c.token ≠ .word k) :
    (takeWord k).run c = .ok (false, c) := by
  unfold takeWord
  rw [bind_ok (isWord_ok false (by simpa using h))]
  rfl

theorem takeMark_yes {m : Mark} (h : c.token = .mark m) :
    (takeMark m).run c = .ok (true, c.advance) := by
  unfold takeMark
  rw [bind_ok (isMark_ok true (by simpa using h))]
  rfl

theorem takeMark_no {m : Mark} (h : c.token ≠ .mark m) :
    (takeMark m).run c = .ok (false, c) := by
  unfold takeMark
  rw [bind_ok (isMark_ok false (by simpa using h))]
  rfl

theorem word_ok {k : Keyword} {what : String} (h : c.token = .word k) :
    (word k what).run c = .ok ((), c.advance) := by
  unfold word
  rw [bind_ok (takeWord_yes h)]
  rfl

theorem mark_ok {m : Mark} {what : String} (h : c.token = .mark m) :
    (mark m what).run c = .ok ((), c.advance) := by
  unfold mark
  rw [bind_ok (takeMark_yes h)]
  rfl

theorem here_ok : here.run c = .ok (c.span.first, c) := rfl

theorem spanFrom_ok {first : Location} : (spanFrom first).run c = .ok (⟨first, c.passed⟩, c) := rfl

theorem ident_ok {x what : String} (h : c.token = .name x) :
    (ident what).run c = .ok (⟨x, c.span⟩, c.advance) := by
  unfold ident
  rw [get_bind, h]
  rfl

theorem typeExpr_ok {t : TypeExpr} (h : t.Spelled used) (hm : c.Moves used c') :
    typeExpr.run c = .ok (t, c') := by
  unfold typeExpr
  cases h with
  | scalar hl =>
    obtain ⟨rfl, rfl⟩ := hm.advance
    have hc : c.token = _ := hl
    rw [get_bind, hc]
    simp only [pure_bind]
    rw [get_bind, hc]
    rfl
  | pointer hs hl =>
    obtain ⟨rfl, hlast⟩ := hm.cons
    obtain ⟨rfl, rfl⟩ := hlast.advance
    have hc : c.token = _ := hs
    have hc' : c.advance.token = _ := hl
    rw [get_bind, hc]
    simp only [pure_bind]
    rw [bind_ok advance_ok, get_bind, hc']
    rfl

theorem listGoesOn_comma {what : String} (h : c.token = .mark .comma) :
    (listGoesOn what).run c = .ok (true, c.advance) := by
  unfold listGoesOn
  rw [bind_ok (takeMark_yes h)]
  rfl

theorem listGoesOn_semicolon {what : String} (h : c.token = .mark .semicolon) :
    (listGoesOn what).run c = .ok (false, c.advance) := by
  unfold listGoesOn
  rw [bind_ok (takeMark_no (by rw [h]; simp))]
  exact bind_ok (takeMark_yes h)

theorem listFollows_with {what : String} (h : c.token = .word .withArgs) :
    (listFollows what).run c = .ok (true, c.advance) := by
  unfold listFollows
  rw [bind_ok (takeWord_yes h)]
  rfl

theorem listFollows_semicolon {what : String} (h : c.token = .mark .semicolon) :
    (listFollows what).run c = .ok (false, c.advance) := by
  unfold listFollows
  rw [bind_ok (takeWord_no (by rw [h]; simp))]
  exact bind_ok (takeMark_yes h)

/-! ### What rules have read -/

/-- However `x` ends from the cursor on, unless in an error, the lexemes it has used, what it
yields and where it stops satisfy `Q`. -/
def Reads (c : Cursor) (x : Parser α) (Q : α → List Lexeme → Cursor → Prop) : Prop :=
  ∀ a c', x.run c = .ok (a, c') → ∃ used, c.Moves used c' ∧ Q a used c'

namespace Reads

variable {Q R : α → List Lexeme → Cursor → Prop}

theorem pure (h : Q a [] c) : Reads c (Pure.pure a) Q := by
  intro a' c' hrun
  obtain ⟨rfl, rfl⟩ := Prod.mk.inj (Except.ok.inj hrun)
  exact ⟨[], .refl c, h⟩

theorem bind {S : β → List Lexeme → Cursor → Prop} {f : α → Parser β} (h : Reads c x Q)
    (hf : ∀ a used c₁, c.Moves used c₁ → Q a used c₁ →
      Reads c₁ (f a) fun b more c' => S b (used ++ more) c') :
    Reads c (x >>= f) S := by
  intro b c' hrun
  rw [run_bind] at hrun
  cases hx : x.run c with
  | error e => simp [hx, Bind.bind, Except.bind] at hrun
  | ok r =>
    obtain ⟨a, c₁⟩ := r
    obtain ⟨used, hmoves, hQ⟩ := h a c₁ hx
    rw [hx] at hrun
    obtain ⟨more, hmore, hS⟩ := hf a used c₁ hmoves hQ b c' hrun
    exact ⟨used ++ more, hmoves.trans hmore, hS⟩

theorem of_run {y : Parser α} (hrun : x.run c = y.run c) (h : Reads c y Q) : Reads c x Q :=
  fun a c' hx => h a c' (hrun ▸ hx)

theorem mono (h : Reads c x Q) (hQ : ∀ a used c', c.Moves used c' → Q a used c' → R a used c') :
    Reads c x R := by
  intro a c' hrun
  obtain ⟨used, hmoves, ha⟩ := h a c' hrun
  exact ⟨used, hmoves, hQ a used c' hmoves ha⟩

theorem map {S : β → List Lexeme → Cursor → Prop} {f : α → β}
    (h : Reads c x fun a => S (f a)) : Reads c (f <$> x) S := by
  rw [map_eq_pure_bind]
  exact h.bind fun a used c₁ _ ha => .pure (by simpa using ha)

theorem get {f : Cursor → Parser α} (h : Reads c (f c) Q) : Reads c (MonadState.get >>= f) Q := h

theorem raise {span : Span} {e : SyntaxError} : Reads c (Parser.raise span e : Parser α) Q := by
  intro a c' hrun
  cases hrun

theorem failAt {span : Span} {e : SyntaxError} : Reads c (Parser.failAt span e : Parser α) Q := by
  refine get ?_
  split <;> exact raise

theorem unexpected {what : String} : Reads c (Parser.unexpected what : Parser α) Q := get failAt

theorem here {f : Location → Parser α} (h : Reads c (f c.span.first) Q) :
    Reads c (Parser.here >>= f) Q := h

theorem known {a : β} {f : β → Parser α} (h : Reads c (f a) Q) :
    Reads c (Pure.pure a >>= f) Q := h

theorem isWord (k : Keyword) : Reads c (Parser.isWord k) fun found used _ =>
    used = [] ∧ (found = true ↔ c.token = .word k) := by
  intro found c' hrun
  by_cases hk : c.token = .word k
  · rw [isWord_ok true (by simpa using hk)] at hrun
    obtain ⟨rfl, rfl⟩ := Prod.mk.inj (Except.ok.inj hrun)
    exact ⟨[], .refl c, rfl, by simpa using hk⟩
  · rw [isWord_ok false (by simpa using hk)] at hrun
    obtain ⟨rfl, rfl⟩ := Prod.mk.inj (Except.ok.inj hrun)
    exact ⟨[], .refl c, rfl, by simpa using hk⟩

theorem spanned {first : Location} {f : Span → α} (h : Q (f ⟨first, c.passed⟩) [] c) :
    Reads c (do return f (← spanFrom first)) Q := pure h

section

variable (h : c.HasEnd)
include h

theorem advance {t : Token} (ht : c.token = t) (hne : t ≠ .eof) :
    Reads c Parser.advance fun _ used _ => ∃ l, l.token = t ∧ l.span = c.span ∧ used = [l] := by
  intro _ c' hrun
  obtain ⟨-, rfl⟩ := Prod.mk.inj (Except.ok.inj hrun)
  exact ⟨_, h.advance (ht ▸ hne), c.current, ht, rfl, rfl⟩

theorem takeWord (k : Keyword) : Reads c (Parser.takeWord k) fun found used _ =>
    if found then ∃ l, l.token = .word k ∧ used = [l] else used = [] := by
  intro found c' hrun
  by_cases hk : c.token = .word k
  · rw [takeWord_yes hk] at hrun
    obtain ⟨rfl, rfl⟩ := Prod.mk.inj (Except.ok.inj hrun)
    exact ⟨_, h.advance (by rw [hk]; simp), c.current, hk, rfl⟩
  · rw [takeWord_no hk] at hrun
    obtain ⟨rfl, rfl⟩ := Prod.mk.inj (Except.ok.inj hrun)
    exact ⟨[], .refl c, rfl⟩

theorem takeMark (m : Mark) : Reads c (Parser.takeMark m) fun found used _ =>
    if found then ∃ l, l.token = .mark m ∧ used = [l] else used = [] := by
  intro found c' hrun
  by_cases hm : c.token = .mark m
  · rw [takeMark_yes hm] at hrun
    obtain ⟨rfl, rfl⟩ := Prod.mk.inj (Except.ok.inj hrun)
    exact ⟨_, h.advance (by rw [hm]; simp), c.current, hm, rfl⟩
  · rw [takeMark_no hm] at hrun
    obtain ⟨rfl, rfl⟩ := Prod.mk.inj (Except.ok.inj hrun)
    exact ⟨[], .refl c, rfl⟩

theorem optional (m : Mark) :
    Reads c (discard (Parser.takeMark m)) fun _ used _ => OptionalMark m used := by
  refine .map ((takeMark h m).mono fun found used _ _ hfound => ?_)
  cases found with
  | true =>
    obtain ⟨l, hl, rfl⟩ := by simpa using hfound
    exact .present hl
  | false =>
    obtain rfl : used = [] := by simpa using hfound
    exact .absent

theorem word (k : Keyword) (what : String) : Reads c (Parser.word k what) fun _ used _ =>
    ∃ l, l.token = .word k ∧ used = [l] := by
  refine (takeWord h k).bind fun found used c₁ _ hfound => ?_
  cases found with
  | true => exact .pure (by simpa using hfound)
  | false => exact unexpected

theorem mark (m : Mark) (what : String) : Reads c (Parser.mark m what) fun _ used _ =>
    ∃ l, l.token = .mark m ∧ used = [l] := by
  refine (takeMark h m).bind fun found used c₁ _ hfound => ?_
  cases found with
  | true => exact .pure (by simpa using hfound)
  | false => exact unexpected

theorem ident (what : String) : Reads c (Parser.ident what) fun x used _ =>
    ∃ l, l.token = .name x.text ∧ l.span = x.span ∧ used = [l] := by
  refine get ?_
  split
  · rename_i x hx
    refine (advance h hx nofun).bind fun _ used _ _ hused => .pure ?_
    simpa using hused
  · exact unexpected

theorem typeName (isPointer : Bool) : Reads c (do
    match (← MonadState.get).token with
    | .typeName base =>
      Parser.advance
      return ⟨base, isPointer⟩
    | _ => Parser.unexpected "type name" : Parser TypeExpr) fun t used _ =>
      ∃ l base, l.token = .typeName base ∧ t = ⟨base, isPointer⟩ ∧ used = [l] := by
  refine get ?_
  split
  · rename_i base hbase
    refine (advance h hbase nofun).bind fun _ _ _ _ ⟨l, hl, _, hused⟩ => .pure ?_
    exact ⟨l, base, hl, rfl, by simpa using hused⟩
  · exact unexpected

theorem typeExpr : Reads c Parser.typeExpr fun t used _ => t.Spelled used := by
  refine get ?_
  dsimp only
  split
  · rename_i hstar
    refine (advance h hstar nofun).bind fun _ _ _ hm ⟨s, hs, _, hused⟩ => ?_
    refine (typeName (hm.hasEnd h) true).mono ?_
    rintro _ _ _ - ⟨l, base, hl, rfl, rfl⟩
    subst hused
    exact .pointer hs hl
  · refine (typeName h false).mono ?_
    rintro _ _ _ - ⟨l, base, hl, rfl, rfl⟩
    exact .scalar hl

theorem listGoesOn (what : String) : Reads c (Parser.listGoesOn what) fun goes used _ =>
    ∃ l, l.token = .mark (if goes then .comma else .semicolon) ∧ used = [l] := by
  refine (takeMark h .comma).bind fun found used c₁ hm hfound => ?_
  cases found with
  | true => exact .pure (by simpa using hfound)
  | false =>
    refine (takeMark (hm.hasEnd h) .semicolon).bind fun found more c₂ _ hmore => ?_
    obtain rfl : used = [] := by simpa using hfound
    cases found with
    | true => exact .pure (by simpa using hmore)
    | false => exact unexpected

theorem listFollows (what : String) : Reads c (Parser.listFollows what) fun follows used _ =>
    ∃ l, l.token = (if follows then .word .withArgs else .mark .semicolon) ∧ used = [l] := by
  refine (takeWord h .withArgs).bind fun found used c₁ hm hfound => ?_
  cases found with
  | true => exact .pure (by simpa using hfound)
  | false =>
    refine (takeMark (hm.hasEnd h) .semicolon).bind fun found more c₂ _ hmore => ?_
    obtain rfl : used = [] := by simpa using hfound
    cases found with
    | true => exact .pure (by simpa using hmore)
    | false => exact unexpected

end

end Reads

end Parser

end Quill

import Quill.Proofs.Syntax.Bound
import Quill.Proofs.Syntax.Completeness

/-! # Runs over a whole source

A whole run yields what its rule does, if the rule stops at the end of the source and nothing has
failed behind it.
-/
namespace Quill

namespace Parser

variable {α : Type} {ls tail : List Lexeme} {last : Lexeme} {a : α}

theorem ofLexemes_ahead : (Cursor.ofLexemes (ls ++ last :: tail)).ahead = ls ++ last :: tail := by
  cases ls <;> rfl

theorem ofLexemes_bound :
    8 * (Cursor.ofLexemes (ls ++ last :: tail)).ahead.length + 1 ≤
      boundFor (ls ++ last :: tail) := by
  rw [ofLexemes_ahead, boundFor]
  omega

theorem moves_to_end (hls : ∀ l ∈ ls, l.token ≠ .eof) :
    ∃ p, (Cursor.ofLexemes (ls ++ last :: tail)).Moves ls ⟨last, tail, p⟩ :=
  ⟨_, ofLexemes_ahead, rfl, hls⟩

theorem ofLexemes_hasEnd (hlast : last.token = .eof) :
    (Cursor.ofLexemes (ls ++ last :: tail)).HasEnd := by
  refine ⟨last, ?_, hlast⟩
  rw [ofLexemes_ahead]
  simp

theorem moves_to_end_unique {c c' : Cursor} {used : List Lexeme} (hm : c.Moves used c')
    (hend : c'.token = .eof) (hahead : c.ahead = ls ++ last :: tail)
    (hls : ∀ l ∈ ls, l.token ≠ .eof) (hlast : last.token = .eof) : used = ls := by
  rw [hm.ahead] at hahead
  rcases List.append_eq_append_iff.1 hahead with ⟨more, rfl, hmore⟩ | ⟨more, rfl, hmore⟩
  · cases more with
    | nil => simp
    | cons l more =>
      have hcurrent : c'.current = l := (List.cons.inj hmore).1
      exact absurd ((congrArg Lexeme.token hcurrent).symm.trans hend) (hls l (by simp))
  · cases more with
    | nil => simp
    | cons l more =>
      obtain rfl := (List.cons.inj hmore).1
      exact absurd hlast (hm.noEnd last (by simp))

/-- At the end nothing is missing, unless reading failed behind it. -/
theorem finish_ok {c : Cursor} (hend : c.token = .eof) (hread : ∀ l ∈ c.ahead, l.failure = none) :
    ∃ c', finish.run c = .ok ((), c') := by
  have hfailure : c.advance.current.failure = none := by
    unfold Cursor.advance
    split
    · exact hread _ List.mem_cons_self
    · rename_i l rest hrest
      exact hread l (by simp [Cursor.ahead, hrest])
  unfold finish
  rw [get_bind, hend]
  refine ⟨c.advance, (bind_ok advance_ok).trans ?_⟩
  rw [get_bind, hfailure]
  rfl

theorem eof_of_finish {c : Cursor} {r : Unit × Cursor} (h : finish.run c = .ok r) :
    c.token = .eof := by
  unfold finish at h
  rw [get_bind] at h
  split at h
  · assumption
  · rw [run_bind] at h
    cases hend : (unexpected "end of file" : Parser Unit).run c with
    | error e =>
      rw [hend] at h
      cases h
    | ok r =>
      obtain ⟨_, _, hfalse⟩ := Reads.unexpected (Q := fun _ _ _ => False) r.1 r.2 hend
      exact hfalse.elim

/-- A whole run yields what the rule does, if the rule stops at the end. -/
theorem runWhole_ok {p : Nat → Parser α} (hls : ∀ l ∈ ls, l.token ≠ .eof)
    (hlast : last.token = .eof) (hread : ∀ l ∈ last :: tail, l.failure = none)
    (h : ∀ c', c'.ahead = last :: tail → (Cursor.ofLexemes (ls ++ last :: tail)).Moves ls c' →
      (p (boundFor (ls ++ last :: tail))).run (.ofLexemes (ls ++ last :: tail)) = .ok (a, c')) :
    runWhole p (ls ++ last :: tail) = .ok a := by
  obtain ⟨q, hm⟩ : ∃ q, (Cursor.ofLexemes (ls ++ last :: tail)).Moves ls ⟨last, tail, q⟩ :=
    moves_to_end hls
  obtain ⟨c', hfinish⟩ := finish_ok (c := ⟨last, tail, q⟩) hlast hread
  unfold runWhole
  change Prod.fst <$> StateT.run _ _ = _
  rw [bind_ok (h _ rfl hm), bind_ok hfinish]
  rfl

/-- What a whole run yields its rule has read from the lexemes before the end. -/
theorem runWhole_reads {p : Nat → Parser α} {Q : α → List Lexeme → Cursor → Prop}
    (hls : ∀ l ∈ ls, l.token ≠ .eof) (hlast : last.token = .eof)
    (hp : Reads (.ofLexemes (ls ++ last :: tail)) (p (boundFor (ls ++ last :: tail))) Q)
    (h : runWhole p (ls ++ last :: tail) = .ok a) : ∃ c', Q a ls c' := by
  unfold runWhole at h
  change Prod.fst <$> StateT.run _ _ = _ at h
  rw [run_bind] at h
  cases hrun : (p (boundFor (ls ++ last :: tail))).run (.ofLexemes (ls ++ last :: tail)) with
  | error e => rw [hrun] at h; cases h
  | ok r =>
    obtain ⟨a', c'⟩ := r
    obtain ⟨used, hm, hQ⟩ := hp a' c' hrun
    rw [hrun] at h
    change Prod.fst <$> StateT.run (finish >>= fun _ => pure a') c' = _ at h
    rw [run_bind] at h
    cases hfinish : finish.run c' with
    | error e => rw [hfinish] at h; cases h
    | ok r =>
      have hend := eof_of_finish hfinish
      rw [hfinish] at h
      cases h
      obtain rfl := moves_to_end_unique hm hend ofLexemes_ahead hls hlast
      exact ⟨c', hQ⟩

end Parser

end Quill

import Quill.Proofs.Syntax.Errors

/-! # Exactly the grammar

Over a whole source whose end was reached without a failed read, the parser yields a tree just in
case the lexemes before the end spell one, and the tree is the one that groups operators by
precedence. Whatever else it ends in is an error of the source.
-/
namespace Quill

namespace Program

section

variable {fileName : String} {ls tail : List Lexeme} {last : Lexeme}

theorem ofLexemes_ok_iff {p : Program} (hls : ∀ l ∈ ls, l.token ≠ .eof) (hlast : last.token = .eof)
    (hread : ∀ l ∈ last :: tail, l.failure = none) :
    ofLexemes fileName (ls ++ last :: tail) = .ok p ↔ p.Spelled Expr.Grouped fileName ls := by
  constructor
  · intro h
    obtain ⟨_, hp⟩ := Parser.runWhole_reads hls hlast
      (Parser.program_reads (Parser.ofLexemes_hasEnd hlast) Parser.ofLexemes_bound) h
    exact hp
  · intro h
    exact Parser.runWhole_ok hls hlast hread fun c' hc' hm =>
      Parser.program_ok h hm ((congrArg Lexeme.token (List.cons.inj hc').1).trans hlast) _
        Parser.ofLexemes_bound

/-- Grouping by precedence regroups the operators of any tree over the same lexemes. -/
theorem ofLexemes_accepts_iff (hls : ∀ l ∈ ls, l.token ≠ .eof) (hlast : last.token = .eof)
    (hread : ∀ l ∈ last :: tail, l.failure = none) :
    (∃ p, ofLexemes fileName (ls ++ last :: tail) = .ok p) ↔
      ∃ p, Program.Spelled Expr.Spelled fileName p ls := by
  constructor
  · rintro ⟨p, hp⟩
    exact Respelled.ungroup.program ((ofLexemes_ok_iff hls hlast hread).1 hp)
  · rintro ⟨p, hp⟩
    obtain ⟨q, hq⟩ := Respelled.group.program hp
    exact ⟨q, (ofLexemes_ok_iff hls hlast hread).2 hq⟩

/-- A larger bound than the usual one changes nothing. -/
theorem runWhole_program_eq {bound : Nat} (hlast : last.token = .eof)
    (hle : Parser.boundFor (ls ++ last :: tail) ≤ bound) :
    Parser.runWhole (fun _ => Parser.program bound fileName) (ls ++ last :: tail) =
      ofLexemes fileName (ls ++ last :: tail) := by
  have hagree : Parser.Agrees (.ofLexemes (ls ++ last :: tail)) (Parser.program bound fileName)
      (Parser.program (Parser.boundFor (ls ++ last :: tail)) fileName) :=
    Parser.program_agrees (Parser.ofLexemes_hasEnd hlast)
      (Nat.le_trans Parser.ofLexemes_bound hle) Parser.ofLexemes_bound
  unfold ofLexemes Parser.runWhole
  change Prod.fst <$> StateT.run _ _ = Prod.fst <$> StateT.run _ _
  rw [hagree.first]

end

/-- Over a source that was read to its end the parser yields a tree just in case the lexemes before
the end spell one, however its operators may be grouped, and otherwise an error of the source. The
tree is the only one that groups them by precedence. The bound is never used up, and none beyond
the usual one changes the outcome. -/
theorem ofLexemes_iff_spelled {fileName : String} {ls tail : List Lexeme} {last : Lexeme}
    (hls : ∀ l ∈ ls, l.token ≠ .eof) (hlast : last.token = .eof)
    (hread : ∀ l ∈ last :: tail, l.failure = none) :
    (∀ p, ofLexemes fileName (ls ++ last :: tail) = .ok p ↔
      p.Spelled Expr.Grouped fileName ls) ∧
    ((∃ p, ofLexemes fileName (ls ++ last :: tail) = .ok p) ↔
      ∃ p, Program.Spelled Expr.Spelled fileName p ls) ∧
    ofLexemes fileName (ls ++ last :: tail) ≠ .error .outOfBound ∧
    ((∃ f, ofLexemes fileName (ls ++ last :: tail) = .error (.failed f)) ↔
      ¬∃ p, Program.Spelled Expr.Spelled fileName p ls) ∧
    (∀ p q : Program, p.Spelled Expr.Grouped fileName ls → q.Spelled Expr.Grouped fileName ls →
      p = q) ∧
    ∀ bound, Parser.boundFor (ls ++ last :: tail) ≤ bound →
      Parser.runWhole (fun _ => Parser.program bound fileName) (ls ++ last :: tail) =
        ofLexemes fileName (ls ++ last :: tail) := by
  have hiff (p : Program) : ofLexemes fileName (ls ++ last :: tail) = .ok p ↔
      p.Spelled Expr.Grouped fileName ls := ofLexemes_ok_iff hls hlast hread
  have haccepted : (∃ p, ofLexemes fileName (ls ++ last :: tail) = .ok p) ↔
      ∃ p, Program.Spelled Expr.Spelled fileName p ls := ofLexemes_accepts_iff hls hlast hread
  have hinBound : ofLexemes fileName (ls ++ last :: tail) ≠ .error .outOfBound :=
    ofLexemes_inBound hlast
  refine ⟨hiff, haccepted, hinBound, ?_, fun p q hp hq => ?_,
    fun bound => runWhole_program_eq hlast⟩
  · rw [← haccepted]
    cases hrun : ofLexemes fileName (ls ++ last :: tail) with
    | ok p => simp
    | error s =>
      cases s with
      | failed f => simp
      | outOfBound => exact absurd hrun hinBound
  · exact Except.ok.inj (((hiff p).2 hp).symm.trans ((hiff q).2 hq))

def sampleLexemes : List Lexeme :=
  [.word .main, .integer 1, .op .add, .integer 2, .op .mul, .integer 3, .word .print].map
    fun t => ⟨t, .point .start, [], none⟩

theorem ofLexemes_iff_spelled_sample :
    (∀ l ∈ sampleLexemes, l.token ≠ .eof) ∧ Cursor.endLexeme.token = .eof ∧
    (∀ l ∈ [Cursor.endLexeme], l.failure = none) ∧
    ∃ p, ofLexemes "sample" (sampleLexemes ++ [Cursor.endLexeme]) = .ok p := by
  have hls : ∀ l ∈ sampleLexemes, l.token ≠ .eof := by simp [sampleLexemes]
  have hread : ∀ l ∈ [Cursor.endLexeme], l.failure = none := by simp [Cursor.endLexeme]
  refine ⟨hls, rfl, hread, (ofLexemes_iff_spelled hls rfl hread).2.1.2 ?_⟩
  have hsum : Expr.Spelled _ (sampleLexemes.drop 1 |>.take 5) :=
    .binary (.int rfl) rfl (.binary (.int rfl) rfl (.int rfl))
  have hprint : Stmt.Spelled Expr.Spelled (.print _ (.point .start)) (sampleLexemes.drop 1) :=
    .print hsum rfl
  have hnone : Commas [] := by simp [Commas]
  have hbody : Stmt.AllSpelled Expr.Spelled _ (sampleLexemes.drop 1) :=
    .cons hnone hprint rfl (.nil hnone)
  exact ⟨_, .withMain .nil (.mk rfl hbody) .nil⟩

end Program

end Quill

import Quill.Proofs.Lexer.Longest
import Quill.Proofs.Syntax.Names
import Quill.Proofs.Text.Words

/-! # How names are written

Every lexeme of a source is spelled as its token is spelled. So names consist of letters, digits and
underscores, and no digit stands first.
-/
namespace Quill

/-! ### Characters of a word -/

theorem isNameChar_of_byte :
    ∀ b : UInt8, isNamePart b → isNameChar (Char.ofNat b.toNat) := by
  decide +kernel

theorem not_isDigit_of_byte :
    ∀ b : UInt8, isNameStart b → (Char.ofNat b.toNat).isDigit = false := by
  decide +kernel

theorem isNamePart_of_isNameStart {b : UInt8} (h : isNameStart b) : isNamePart b := by
  simp [isNamePart, h]

/-- A character of which all bytes may be part of a name has only one. -/
theorem encoded_namePart {c : Char} (h : ∀ b ∈ String.utf8EncodeChar c, isNamePart b) :
    ∃ b, String.utf8EncodeChar c = [b] ∧ c = Char.ofNat b.toNat := by
  obtain ⟨b, tail, hc⟩ := Utf8.exists_encoded c
  rw [hc.eq] at h
  obtain ⟨rfl, hsame⟩ := hc.narrow (Scan.namePart_narrow b (h b List.mem_cons_self)).1
  exact ⟨b, hc.eq, by rw [hsame, Char.ofNat_toNat]⟩

theorem isNameChar_of_bytes {cs : List Char} (h : ∀ b ∈ Utf8.bytes cs, isNamePart b) :
    ∀ c ∈ cs, isNameChar c := by
  intro c hc
  have hbytes : ∀ b ∈ String.utf8EncodeChar c, isNamePart b :=
    fun b hb => h b (List.mem_flatMap_of_mem hc hb)
  obtain ⟨b, hb, rfl⟩ := encoded_namePart hbytes
  exact isNameChar_of_byte b (hbytes b (hb ▸ List.mem_cons_self))

theorem isName_of_isWord {x : String} (h : IsWord (Utf8.encode x)) : isName x := by
  rw [Utf8.encode_eq] at h
  unfold isName
  cases hx : x.toList with
  | nil =>
    rw [hx] at h
    cases h
  | cons c cs =>
    rw [hx] at h
    generalize hbytes : Utf8.bytes (c :: cs) = bs at h
    cases h with
    | @run b bs first rest =>
      have hparts : ∀ x ∈ Utf8.bytes (c :: cs), isNamePart x := by
        rw [hbytes]
        exact List.forall_mem_cons.2 ⟨isNamePart_of_isNameStart first, rest⟩
      have hchars := isNameChar_of_bytes hparts
      obtain ⟨b', hb', rfl⟩ :=
        encoded_namePart fun x hx => hparts x (List.mem_flatMap_of_mem List.mem_cons_self hx)
      rw [Utf8.bytes_cons, hb', List.singleton_append, List.cons.injEq] at hbytes
      obtain ⟨rfl, -⟩ := hbytes
      simpa [not_isDigit_of_byte b' first] using hchars

/-! ### Spellings of lexemes -/

namespace Lexer

variable {l : Lexer} {w : WholeLexer} {x : Lexeme}

theorem Follows.next_spells (hf : l.Follows w) :
    l.next.1.token = .eof ∨ Spells l.next.1.bytes l.next.1.token := by
  fun_induction Lexer.next l generalizing w with
  | case1 => exact .inl rfl
  | case2 l m l' hmatch t ht =>
    obtain ⟨hleft, hne⟩ := left_nextMatch hmatch
    obtain ⟨b, bs, hcons⟩ := List.exists_cons_of_ne_nil (List.append_ne_nil_of_left_ne_nil hne l'.left)
    obtain ⟨hbytes, hscan⟩ := hf.nextMatch_kept (hleft.trans hcons) hmatch
    rw [hscan, hbytes] at ht
    right
    show Spells m.bytes t
    rw [hbytes]
    exact (Scan.kept_longest ht).1
  | case3 l m l' hmatch ht ih =>
    obtain ⟨-, hfollows⟩ := hf.nextMatch
    rw [hmatch] at hfollows
    exact ih hfollows

theorem Follows.lexemes_spells (hf : l.Follows w) :
    ∀ x ∈ l.toList, x.token = .eof ∨ Spells x.bytes x.token := by
  unfold Lexer.toList
  dsimp only
  fun_induction Lexer.lexemes l generalizing w
  case case1 l r heof =>
    have hlast := hf.next.2.next_spells
    exact List.forall_mem_cons.2 ⟨hf.next_spells, List.forall_mem_singleton.2 hlast⟩
  case case2 l r heof rest ih =>
    exact List.forall_mem_cons.2 ⟨hf.next_spells, ih hf.next.2⟩

end Lexer

theorem isName_of_spells {l : Lexeme} {x : String} (h : l.token = .eof ∨ Spells l.bytes l.token)
    (hx : l.token = .name x) : isName x := by
  rw [hx] at h
  rcases h with heof | hspells
  · cases heof
  · generalize l.bytes = bs at hspells
    cases hspells with
    | name run => exact isName_of_isWord run

theorem Program.isName_parse {o : LexerOptions} {fileName : String} {feed : Feed} {p : Program}
    (h : (Program.parse o fileName feed).outcome = .ok p) : ∀ x ∈ p.names, isName x := by
  intro x hx
  obtain ⟨l, hl, hname⟩ := names_parse h x hx
  exact isName_of_spells ((Lexer.follows_ofFeed feed o.capacity).lexemes_spells l hl) hname

end Quill

import Quill.Proofs.Lexer.Coverage
import Quill.Proofs.Lexer.Rules

/-! # Longest matches

A match goes on as long as the automaton takes bytes, which may be further than the last byte at
which it was complete: then what lies behind that byte is given back. So a lexeme is the longest
spelling of a token at its place, whatever follows, and the next one begins right behind it.
-/
namespace Quill

/-- `text` is the longest of the prefixes of `source` with a property. -/
structure IsLongest (P : List UInt8 → Prop) (source text : List UInt8) : Prop where
  here : text <+: source
  holds : P text
  longest : ∀ other, other <+: source → P other → other.length ≤ text.length

/-- Blanks, and comments with the newlines that end them. -/
inductive IsGap : List UInt8 → Prop
  | nil : IsGap []
  | blank {b gap} (holds : isBlank b) (rest : IsGap gap) : IsGap (b :: gap)
  | comment {text gap} (line : 10 ∉ text) (rest : IsGap gap) : IsGap (35 :: (text ++ 10 :: gap))

theorem IsGap.dropWhile {gap : List UInt8} (h : IsGap gap) : IsGap (gap.dropWhile isBlank) := by
  induction h with
  | nil => exact .nil
  | blank holds rest ih => rwa [List.dropWhile_cons_of_pos holds]
  | comment line rest ih =>
    rw [List.dropWhile_cons_of_neg (by decide)]
    exact .comment line rest

/-- A byte at which neither a blank nor a comment begins. -/
def StartsToken (b : UInt8) : Prop := ¬ isBlank b ∧ b ≠ 35

namespace Scan

variable {s next : Scan} {b : UInt8} {bs : List UInt8}

/-- A byte either completes the match or is one more byte to give back. -/
theorem step_surplus (h : s.step b = some next) : next.surplus = 0 ∨
    next.surplus = s.surplus + 1 ∧ ∀ text, next.token? text = s.token? text := by
  cases s with
  | number phase =>
    obtain ⟨p, hp, rfl⟩ := Option.map_eq_some_iff.1 h
    cases phase <;> simp only [NumberPhase.step] at hp <;> split_ifs at hp <;> cases hp <;>
      first
      | exact .inl rfl
      | exact .inr ⟨rfl, fun _ => rfl⟩
  | stray due =>
    cases due with
    | zero => cases h
    | succ due =>
      simp only [step] at h
      split_ifs at h
      cases h
      exact .inl rfl
  | single t => cases h
  | _ =>
    simp only [step] at h
    split_ifs at h <;> cases h <;> exact .inl rfl

/-- Without the bytes to give back a run is complete, and no complete run inside it is longer. -/
theorem runs_surplus (hs : s.surplus = 0) (h : s.runs bs = some next) :
    next.surplus ≤ bs.length ∧
    (∃ done, s.runs (bs.rdrop next.surplus) = some done ∧ done.surplus = 0 ∧
      ∀ text, done.token? text = next.token? text) ∧
    ∀ other last, other <+: bs → s.runs other = some last → last.surplus = 0 →
      other.length + next.surplus ≤ bs.length := by
  induction bs using List.reverseRecOn generalizing next with
  | nil =>
    obtain rfl := Option.some.inj h
    refine ⟨by simp [hs], ⟨s, by rw [hs]; rfl, hs, fun _ => rfl⟩, fun other last hother _ _ => ?_⟩
    rw [hs, List.prefix_nil.1 hother]
    rfl
  | append_singleton bs b ih =>
    obtain ⟨before, hbefore, hstep⟩ := runs_concat.1 h
    obtain ⟨hle, ⟨done, hdone, hcomplete, htoken⟩, hlongest⟩ := ih hbefore
    rcases step_surplus hstep with hzero | ⟨hsucc, hsame⟩
    · rw [hzero]
      refine ⟨Nat.zero_le _, ⟨next, ?_, hzero, fun _ => rfl⟩, fun other last hother _ _ => ?_⟩
      · rw [List.rdrop_zero]
        exact h
      · exact hother.length_le
    · rw [hsucc, List.rdrop_concat_succ, List.length_append, List.length_singleton]
      refine ⟨by omega, ⟨done, hdone, hcomplete, fun text => ?_⟩,
        fun other last hother hlast hl => ?_⟩
      · rw [htoken, hsame]
      · rcases List.prefix_concat_iff.1 hother with rfl | hshorter
        · -- The whole run is not complete.
          rw [Option.some.inj (hlast.symm.trans h)] at hl
          omega
        · have := hlongest other last hshorter hlast hl
          omega

theorem runs_takes (s : Scan) (bs : List UInt8) : s.runs (s.takes bs).2 = some (s.takes bs).1 ∧
    ∀ other last, other <+: bs → s.runs other = some last → other <+: (s.takes bs).2 := by
  induction bs generalizing s with
  | nil => exact ⟨rfl, fun other _ hother _ => hother⟩
  | cons b bs ih =>
    cases hb : s.step b with
    | none =>
      rw [takes_stop hb]
      refine ⟨rfl, fun other last hother hlast => ?_⟩
      cases other with
      | nil => exact List.nil_prefix
      | cons c other =>
        obtain ⟨rfl, -⟩ := List.cons_prefix_cons.1 hother
        rw [runs_cons, hb] at hlast
        cases hlast
    | some next =>
      obtain ⟨hruns, hall⟩ := ih next
      rw [takes_step hb]
      refine ⟨by rw [runs_cons, hb]; exact hruns, fun other last hother hlast => ?_⟩
      cases other with
      | nil => exact List.nil_prefix
      | cons c other =>
        obtain ⟨rfl, hrest⟩ := List.cons_prefix_cons.1 hother
        rw [runs_cons, hb] at hlast
        exact List.cons_prefix_cons.2 ⟨rfl, hall other last hrest hlast⟩

/-- What a match keeps spells the token of its last state, and it is the longest prefix that
spells any. -/
theorem kept_longest {t : Token} (ht : ((start b).takes bs).1.token? (kept b bs) = some t) :
    Spells (kept b bs) t ∧ IsLongest (fun text => ∃ t, Spells text t) (b :: bs) (kept b bs) := by
  obtain ⟨hruns, hall⟩ := runs_takes (start b) bs
  obtain ⟨hle, ⟨done, hdone, hcomplete, htoken⟩, hlongest⟩ := runs_surplus (surplus_start b) hruns
  have hkept : kept b bs = b :: ((start b).takes bs).2.rdrop ((start b).takes bs).1.surplus := by
    rw [kept, List.rdrop, List.rdrop, List.length_cons, Nat.sub_add_comm hle, List.take_succ_cons]
  have hspells : Spells (kept b bs) t := by
    refine spells_iff.2 (spelled?_of_behind? ?_ hcomplete (htoken _ ▸ ht))
    rw [hkept]
    exact hdone
  refine ⟨hspells, kept_isPrefix b bs, ⟨t, hspells⟩, fun other hother hother' => ?_⟩
  obtain ⟨t', ht'⟩ := hother'
  obtain ⟨last, hlast, hcompletes⟩ := Option.bind_eq_some_iff.1 (spells_iff.1 ht')
  split_ifs at hcompletes with hzero
  cases other with
  | nil => exact Nat.zero_le _
  | cons c other =>
    obtain ⟨rfl, hrest⟩ := List.cons_prefix_cons.1 hother
    have := hlongest other last (hall other last hrest hlast) hlast hzero
    rw [hkept, List.length_cons, List.length_cons, List.rdrop, List.length_take]
    omega

theorem takes_constant {accepts : UInt8 → Bool}
    (h : ∀ b, s.step b = if accepts b then some s else none) (bs : List UInt8) :
    s.takes bs = (s, bs.takeWhile accepts) := by
  induction bs with
  | nil => rfl
  | cons b bs ih =>
    cases hb : accepts b with
    | false => rw [takes_stop (by simp [h, hb]), List.takeWhile_cons_of_neg (by simp [hb])]
    | true => rw [takes_step (by rw [h, hb]; rfl), ih, List.takeWhile_cons_of_pos hb]

/-- A byte at which a token starts selects a rule that gives one. -/
theorem token?_start (hb : StartsToken b) (bs text : List UInt8) :
    ∃ t, ((start b).takes bs).1.token? text = some t := by
  have hinline : (start b).IsInline := by
    have hselects := selects_start b
    generalize start b = first at hselects
    cases hselects with
    | comment eq => exact absurd eq hb.2
    | blank holds => exact absurd holds hb.1
    | _ => trivial
  rw [← Option.isSome_iff_exists, ← isInline_iff, (takes_kind _ _).2]
  exact hinline

theorem start_blank (h : isBlank b) : start b = blank := by
  have apart : ∀ b : UInt8, isBlank b →
      (alone? b).isNone ∧ b ≠ 61 ∧ b ≠ 60 ∧ b ≠ 62 ∧ b ≠ 35 := by
    decide +kernel
  obtain ⟨halone, h61, h60, h62, h35⟩ := apart b h
  simp [start, Option.isNone_iff_eq_none.1 halone, h61, h60, h62, h35, h]

/-- A match in a gap stands for no token and ends where the rest of the gap begins. -/
theorem kept_gap {c : UInt8} {cs : List UInt8} (hgap : IsGap (c :: cs)) (hb : ¬ isBlank b)
    (bs : List UInt8) :
    (∃ rest, c :: (cs ++ b :: bs) = kept c (cs ++ b :: bs) ++ (rest ++ b :: bs) ∧ IsGap rest) ∧
      ∀ text, ((start c).takes (cs ++ b :: bs)).1.token? text = none := by
  cases hgap with
  | blank holds rest =>
    have htakes : blank.takes (cs ++ b :: bs) = (blank, (cs ++ b :: bs).takeWhile isBlank) :=
      takes_constant (fun _ => rfl) _
    have hbehind : (cs ++ b :: bs).dropWhile isBlank = cs.dropWhile isBlank ++ b :: bs := by
      rw [List.dropWhile_append]
      split_ifs with hall
      · rw [List.isEmpty_iff.1 hall, List.dropWhile_cons_of_neg hb, List.nil_append]
      · rfl
    rw [kept, start_blank holds, htakes]
    refine ⟨⟨cs.dropWhile isBlank, ?_, rest.dropWhile⟩, fun _ => rfl⟩
    show _ = (c :: (cs ++ b :: bs).takeWhile isBlank).rdrop 0 ++ _
    rw [← hbehind, List.rdrop_zero, List.cons_append, List.takeWhile_append_dropWhile]
  | @comment text gap line rest =>
    have hline : ∀ x ∈ text, decide (x ≠ 10) := by
      intro x hx
      simpa using fun heq : x = 10 => line (heq ▸ hx)
    have htaken : (text ++ 10 :: gap ++ b :: bs).takeWhile (· ≠ 10) = text := by
      rw [List.append_assoc, List.takeWhile_append_of_pos hline, List.cons_append,
        List.takeWhile_cons_of_neg (by simp), List.append_nil]
    rw [kept, show start 35 = comment from rfl, takes_comment, htaken]
    refine ⟨⟨10 :: gap, ?_, .blank (by decide) rest⟩, fun _ => rfl⟩
    show _ = (35 :: text).rdrop 0 ++ _
    simp

end Scan

namespace Lexer

variable {l : Lexer} {w : WholeLexer} {b : UInt8} {bs : List UInt8}

/-- A match takes of the bytes left what the automaton keeps of them. -/
theorem Follows.nextMatch_kept (hf : l.Follows w) (h : l.left = b :: bs) {m : Match} {l' : Lexer}
    (hmatch : l.nextMatch = (some m, l')) :
    m.bytes = Scan.kept b bs ∧ m.scan = ((Scan.start b).takes bs).1 := by
  have hrest : w.source.drop w.position = b :: bs := hf.shows_rest.left.symm.trans h
  have hi : w.source[w.position]? = some b := by
    rw [← List.head?_drop, hrest]
    rfl
  have htail : w.source.drop (w.position + 1) = bs := by
    rw [← List.drop_drop, hrest]
    rfl
  obtain ⟨hsame, -⟩ := hf.nextMatch
  simp only [hmatch, WholeLexer.nextMatch, hi, Option.some.injEq] at hsame
  subst hsame
  constructor
  · exact (WholeLexer.slice_kept hi).1.trans (by rw [htail])
  · exact (WholeLexer.extent_takes ..).1.trans (by rw [htail])

/-- Behind a gap the next lexeme is what the automaton keeps of the bytes left. -/
theorem Follows.next_kept (hf : l.Follows w) {gap : List UInt8} (hgap : IsGap gap)
    (hleft : l.left = gap ++ b :: bs) (hb : StartsToken b) :
    l.next.1.bytes = Scan.kept b bs ∧ b :: bs = l.next.1.bytes ++ l.next.2.left ∧
      ((Scan.start b).takes bs).1.token? (Scan.kept b bs) = some l.next.1.token := by
  fun_induction Lexer.next l generalizing w gap with
  | case1 l l' hmatch =>
    have hspent := (hf.spent hmatch).1
    simp [hleft] at hspent
  | case2 l m l' hmatch t ht =>
    cases gap with
    | nil =>
      obtain ⟨hbytes, hscan⟩ := hf.nextMatch_kept hleft hmatch
      rw [hscan, hbytes] at ht
      exact ⟨hbytes, hleft.symm.trans (left_nextMatch hmatch).1, ht⟩
    | cons c cs =>
      rw [List.cons_append] at hleft
      obtain ⟨-, hscan⟩ := hf.nextMatch_kept hleft hmatch
      rw [hscan, (Scan.kept_gap hgap hb.1 bs).2] at ht
      cases ht
  | case3 l m l' hmatch ht ih =>
    cases gap with
    | nil =>
      obtain ⟨-, hscan⟩ := hf.nextMatch_kept hleft hmatch
      obtain ⟨t, ht'⟩ := Scan.token?_start hb bs m.bytes
      rw [hscan, ht'] at ht
      cases ht
    | cons c cs =>
      rw [List.cons_append] at hleft
      obtain ⟨hbytes, -⟩ := hf.nextMatch_kept hleft hmatch
      obtain ⟨⟨rest, hsplit, hrest⟩, -⟩ := Scan.kept_gap hgap hb.1 bs
      obtain ⟨-, hfollows⟩ := hf.nextMatch
      rw [hmatch] at hfollows
      refine ih hfollows hrest ?_
      have hl := (left_nextMatch hmatch).1
      rw [hleft, hsplit, hbytes] at hl
      exact (List.append_cancel_left hl).symm

/-- A character that begins nothing the grammar knows is taken whole, and by itself. -/
theorem kept_character {c : Char} {cs : List Char} (hb : IsStray b)
    (h : b :: bs = Utf8.bytes (c :: cs)) : Scan.kept b bs = String.utf8EncodeChar c ∧
      Spells (String.utf8EncodeChar c) (.unknown (.singleton c)) := by
  obtain ⟨first, tail, hc⟩ := Utf8.exists_encoded c
  have hdecode : Utf8.decodeLossy (String.utf8EncodeChar c) = .singleton c := by
    have hchars := Utf8.decodeChars_bytes [c]
    rw [Utf8.bytes_cons, Utf8.bytes_nil, List.append_nil] at hchars
    rw [Utf8.decodeLossy, hchars, String.singleton_eq_ofList]
  rw [Utf8.bytes_cons, hc.eq, List.cons_append] at h
  obtain ⟨rfl, rfl⟩ := List.cons.inj h
  constructor
  · rw [Scan.kept, Scan.start_of_isStray hb, hc.length, Scan.takes_stray hc.more, hc.eq]
    exact List.rdrop_zero _
  · have hspells := Spells.stray hb hc.length.ge hc.more
    rwa [← hc.eq, hdecode] at hspells

theorem longest_number {text : List UInt8} (hb : Decimal.isDigit b)
    (h : IsLongest (fun text => ∃ t, Spells text t) (b :: bs) text) (hne : text ≠ []) :
    IsLongest (fun text => Digits text ∨ IsFractional text) (b :: bs) text := by
  refine ⟨h.here, ?_, fun other hother hnumber => h.longest other hother ?_⟩
  · obtain ⟨c, rest, rfl⟩ := List.exists_cons_of_ne_nil hne
    obtain ⟨rfl, -⟩ := List.cons_prefix_cons.1 h.here
    exact (spells_digit hb).1 h.holds
  · rcases hnumber with hwhole | hfractional
    · exact ⟨_, Scan.spells_wholeNumber hwhole⟩
    · exact ⟨_, Scan.spells_fractionalNumber hfractional⟩

theorem kept_word (hb : isNameStart b) (bs : List UInt8) :
    Scan.kept b bs = b :: bs.takeWhile isNamePart := by
  have hstep (c : UInt8) : Scan.word.step c = if isNamePart c then some .word else none := rfl
  rw [Scan.kept, Scan.start_word hb, Scan.takes_constant hstep]
  exact List.rdrop_zero _

/-- When blanks and comments and then the bytes `b :: bs` of a token are left to a lexer, what it
gives next is the longest spelling among the prefixes of `b :: bs`, as the one token it spells, and
what is left is all that follows it. So a digit brings the longest number, and a letter or an
underscore the whole run of such; on text, what the grammar does not know is taken one character
at a time. -/
theorem next_longest (feed : Feed) (capacity n : Nat) {gap bs : List UInt8} {b : UInt8}
    (hleft : ((ofFeed feed capacity).called n).left = gap ++ b :: bs) (hgap : IsGap gap)
    (hb : StartsToken b) :
    let r := ((ofFeed feed capacity).called n).next
    IsLongest (fun text => ∃ t, Spells text t) (b :: bs) r.1.bytes ∧
      (∀ t, Spells r.1.bytes t ↔ t = r.1.token) ∧
      b :: bs = r.1.bytes ++ r.2.left ∧
      (Decimal.isDigit b →
        IsLongest (fun text => Digits text ∨ IsFractional text) (b :: bs) r.1.bytes) ∧
      (isNameStart b → r.1.bytes = b :: bs.takeWhile isNamePart) ∧
      (IsStray b → ∀ c cs, b :: bs = Utf8.bytes (c :: cs) →
        r.1.bytes = String.utf8EncodeChar c ∧ r.1.token = .unknown (.singleton c)) := by
  intro r
  obtain ⟨hbytes, hrest, htoken⟩ := (called_follows feed capacity n).next_kept hgap hleft hb
  obtain ⟨hspells, hlongest⟩ := Scan.kept_longest htoken
  have hne : r.1.bytes ≠ [] := hbytes ▸ Scan.kept_ne_nil b bs
  rw [← hbytes] at hspells hlongest
  refine ⟨hlongest, fun t => ⟨fun h => h.unique hspells, fun h => h ▸ hspells⟩, hrest,
    fun hdigit => longest_number hdigit hlongest hne, fun hname => ?_, ?_⟩
  · exact hbytes.trans (kept_word hname bs)
  · intro hstray c cs hchars
    obtain ⟨hchar, hunknown⟩ := kept_character hstray hchars
    rw [← hchar, ← hbytes] at hunknown
    exact ⟨hbytes.trans hchar, hspells.unique hunknown⟩

/-- The bytes of ` #a`, a newline and `1.5e+x`. -/
def numberSource : List UInt8 := [32, 35, 97, 10] ++ 49 :: [46, 53, 101, 43, 120]

theorem next_longest_number :
    let r := ((ofFeed (.whole numberSource) 3).called 0).next
    IsLongest (fun text => Digits text ∨ IsFractional text) [49, 46, 53, 101, 43, 120] r.1.bytes ∧
      [49, 46, 53, 101, 43, 120] = r.1.bytes ++ r.2.left := by
  have hleft : ((ofFeed (.whole numberSource) 3).called 0).left = numberSource :=
    Feed.bytes_ofBytes ..
  have hcomment : (10 : UInt8) ∉ [97] := by decide
  have hgap : IsGap [32, 35, 97, 10] := .blank (by decide) (.comment hcomment .nil)
  obtain ⟨-, -, hrest, hnumber, -⟩ :=
    next_longest (.whole numberSource) 3 0 hleft hgap ⟨by decide, by decide⟩
  exact ⟨hnumber (by decide), hrest⟩

end Lexer

end Quill

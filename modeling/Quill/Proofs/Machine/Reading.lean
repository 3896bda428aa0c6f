import Mathlib
import Quill.Proofs.Machine.Worlds
import Quill.Proofs.Text.Foreign

/-! # Reading in pieces

What reads of a character or a word make of bytes that are all at hand is one thing; how a feed
cuts the bytes into pieces is another. The answers of an input, and what it leaves, depend on the
bytes and on their end alone, and so does a whole run.
-/
namespace Quill

/-- Bytes that are all at hand, and what comes at their end. -/
structure Supply where
  bytes : List UInt8
  ending : Ending
deriving DecidableEq, Repr

namespace Supply

/-- Why the next byte cannot be looked at: there is none, and the end is a failure. -/
def failure? (s : Supply) : Option String :=
  match s.bytes, s.ending with
  | [], .failing reason => some reason
  | _, _ => none

def dropBlanks (s : Supply) : Supply := { s with bytes := s.bytes.dropWhile isBlank }

def dropWord (s : Supply) : Supply := { s with bytes := s.bytes.dropWhile (!isBlank ·) }

/-- The first byte that is not blank, and what follows it. -/
def readChar (s : Supply) : Except String (Option UInt8) × Supply :=
  let rest := s.dropBlanks
  match rest.failure? with
  | some reason => (.error reason, rest)
  | none => (.ok rest.bytes.head?, { rest with bytes := rest.bytes.tail })

/-- The longest word behind the blanks, and what follows it. A word that reaches the end needs
the end to be none of the failing ones. -/
def readWord (s : Supply) : Except String (Option (List UInt8)) × Supply :=
  let word := s.dropBlanks.bytes.takeWhile (!isBlank ·)
  let rest := s.dropBlanks.dropWord
  match rest.failure? with
  | some reason => (.error reason, rest)
  | none => (.ok (if word.isEmpty then none else some word), rest)

theorem failure?_of_ne_nil {s : Supply} (h : s.bytes ≠ []) : s.failure? = none := by
  obtain ⟨bytes, ending⟩ := s
  cases bytes with
  | nil => exact absurd rfl h
  | cons b bs => rfl

theorem failure?_eq_some {s : Supply} {reason : String} :
    s.failure? = some reason ↔ s.ending = .failing reason ∧ s.bytes = [] := by
  obtain ⟨bytes, ending⟩ := s
  cases bytes <;> cases ending <;> simp [failure?]

theorem dropBlanks_of_nil {s : Supply} (h : s.bytes = []) : s.dropBlanks = s := by
  obtain ⟨bytes, ending⟩ := s
  obtain rfl : bytes = [] := h
  rfl

theorem dropWord_of_nil {s : Supply} (h : s.bytes = []) : s.dropWord = s := by
  obtain ⟨bytes, ending⟩ := s
  obtain rfl : bytes = [] := h
  rfl

variable {s : Supply} {reason : String} {word : List UInt8}

/-- A character fails to be read if only blanks are left before a failing end. -/
theorem readChar_eq_error : s.readChar.1 = .error reason ↔
    s.ending = .failing reason ∧ s.dropBlanks.bytes = [] := by
  have hfailure : s.dropBlanks.failure? = some reason ↔
      s.ending = .failing reason ∧ s.dropBlanks.bytes = [] := failure?_eq_some
  rw [readChar]
  cases h : s.dropBlanks.failure? with
  | none => simpa [h] using hfailure
  | some _ => simpa [h] using hfailure

/-- A word fails to be read if it would go on beyond the last byte before a failing end. -/
theorem readWord_eq_error : s.readWord.1 = .error reason ↔
    s.ending = .failing reason ∧ s.dropBlanks.dropWord.bytes = [] := by
  have hfailure : s.dropBlanks.dropWord.failure? = some reason ↔
      s.ending = .failing reason ∧ s.dropBlanks.dropWord.bytes = [] := failure?_eq_some
  rw [readWord]
  cases h : s.dropBlanks.dropWord.failure? with
  | none => simpa [h] using hfailure
  | some _ => simpa [h] using hfailure

theorem readWord_eq_none :
    s.readWord.1 = .ok none ↔ s.ending = .closed ∧ ∀ b ∈ s.bytes, isBlank b := by
  rw [← List.dropWhile_eq_nil_iff]
  obtain ⟨bytes, ending⟩ := s
  cases hrest : bytes.dropWhile isBlank with
  | nil => cases ending <;> simp [readWord, dropBlanks, dropWord, hrest, failure?]
  | cons b rest =>
    have hb : isBlank b = false := by
      have := List.head?_dropWhile_not isBlank bytes
      simpa [hrest] using this
    simp only [readWord, dropBlanks, dropWord, hrest, List.takeWhile_cons, hb]
    split <;> simp

/-- A word is not empty, only blanks come before it, and it goes on to a blank or the end. -/
theorem readWord_eq_some (h : s.readWord.1 = .ok (some word)) : word ≠ [] ∧
    (∃ blanks, s.bytes = blanks ++ word ++ s.readWord.2.bytes ∧ (∀ b ∈ blanks, isBlank b) ∧
      ∀ b ∈ word, ¬ isBlank b) ∧
    ∀ b ∈ s.readWord.2.bytes.head?, isBlank b := by
  rw [readWord] at h ⊢
  cases hfailure : s.dropBlanks.dropWord.failure? with
  | some reason => simp [hfailure] at h
  | none =>
    simp only [hfailure, Except.ok.injEq, Option.ite_none_left_eq_some, Option.some.injEq,
      List.isEmpty_iff] at h
    obtain ⟨hne, rfl⟩ := h
    refine ⟨hne, ⟨s.bytes.takeWhile isBlank, ?_, fun b => List.mem_takeWhile_imp, ?_⟩, ?_⟩
    · rw [List.append_assoc]
      show _ = _ ++ (s.dropBlanks.bytes.takeWhile _ ++ s.dropBlanks.bytes.dropWhile _)
      rw [List.takeWhile_append_dropWhile]
      exact List.takeWhile_append_dropWhile.symm
    · intro b hb
      simpa using List.mem_takeWhile_imp hb
    · intro b hb
      have hstop := List.head?_dropWhile_not (!isBlank ·) s.dropBlanks.bytes
      replace hb : (s.dropBlanks.bytes.dropWhile (!isBlank ·)).head? = some b := hb
      simpa [hb] using hstop

end Supply

/-! ### Bytes that are left -/

namespace Input

variable {i : Input} {p : UInt8 → Bool}

theorem dropWhile_left_of_nil (hall : i.buffer.dropWhile p = []) :
    i.left.dropWhile p = i.feed.bytes.dropWhile p := by
  rw [left, List.dropWhile_append, hall]
  rfl

theorem dropWhile_left_of_ne (hne : i.buffer.dropWhile p ≠ []) :
    i.left.dropWhile p = i.buffer.dropWhile p ++ i.feed.bytes := by
  rw [left, List.dropWhile_append, if_neg (mt List.isEmpty_iff.1 hne)]

theorem takeWhile_left_of_nil (hall : i.buffer.dropWhile p = []) :
    i.left.takeWhile p = i.buffer.takeWhile p ++ i.feed.bytes.takeWhile p := by
  have hwhole := List.dropWhile_eq_nil_iff.1 hall
  rw [left, List.takeWhile_append_of_pos hwhole, List.takeWhile_eq_self_iff.2 hwhole]

theorem takeWhile_left_of_ne (hne : i.buffer.dropWhile p ≠ []) :
    i.left.takeWhile p = i.buffer.takeWhile p := by
  have hshort : (i.buffer.takeWhile p).length ≠ i.buffer.length := by
    intro hlength
    apply hne
    apply List.append_right_eq_self.1
    rw [List.takeWhile_append_dropWhile]
    exact (List.takeWhile_prefix p).eq_of_length hlength |>.symm
  rw [left, List.takeWhile_append, if_neg hshort]

end Input

/-! ### Answers of any input -/

namespace Input

variable {i j : Input} {word : List UInt8}

theorem left_of_fill {e : Option String} (h : i.fill = (e, j)) : j.left = i.left := by
  simpa [h] using left_fill i

theorem left_eq_nil_of_fill (h : i.fill = (none, j)) (hempty : j.buffer = []) : j.left = [] := by
  unfold fill at h
  split at h
  · unfold Feed.read at h
    split at h
    · cases h
    · split at h <;> cases h <;> cases hempty
    · rename_i hnone
      cases hend : i.feed.ending <;> rw [hend] at h <;> cases h
      cases hflickers : i.feed.flickers <;> simp [left, Feed.bytes, Delivery.bytes]
  · rename_i hne
    cases h
    exact absurd (List.isEmpty_iff.2 hempty) hne

theorem skipBlanks_ok (h : i.skipBlanks = (none, j)) : j.left = i.left.dropWhile isBlank := by
  fun_induction Input.skipBlanks i with
  | case1 => cases h
  | case2 i i' hfill hempty =>
    cases h
    rw [← left_of_fill hfill, left_eq_nil_of_fill hfill hempty]
    rfl
  | case3 i i' hfill hempty hall ih =>
    rw [ih h, ← left_of_fill hfill, dropWhile_left_of_nil hall]
    rfl
  | case4 i i' hfill hempty hne =>
    cases h
    rw [← left_of_fill hfill, dropWhile_left_of_ne hne]
    rfl

theorem takeWord_ok {taken : List UInt8} (h : i.takeWord word = (.ok taken, j)) :
    taken = word ++ i.left.takeWhile (!isBlank ·) := by
  fun_induction Input.takeWord word i with
  | case1 => cases h
  | case2 word i i' hfill hempty =>
    cases h
    rw [← left_of_fill hfill, left_eq_nil_of_fill hfill hempty]
    simp
  | case3 word i i' hfill hempty more hall =>
    rename_i ih
    rw [ih h, ← left_of_fill hfill, takeWhile_left_of_nil hall, List.append_assoc]
    rfl
  | case4 word i i' hfill hempty more =>
    rename_i hne
    have htaken : more = taken := Except.ok.inj (congrArg Prod.fst h)
    rw [← htaken, ← left_of_fill hfill, takeWhile_left_of_ne hne]

/-- A read of a character that does not fail gives the first byte behind the blanks. -/
theorem readChar_ok {r : Option UInt8} (h : i.readChar = (.ok r, j)) :
    r = (i.left.dropWhile isBlank).head? := by
  unfold readChar at h
  split at h
  · cases h
  · rename_i i₁ hskip
    rw [← skipBlanks_ok hskip]
    split at h
    · cases h
    · rename_i i₂ hfill
      rw [← left_of_fill hfill]
      split at h
      · rename_i hempty
        cases h
        rw [left_eq_nil_of_fill hfill hempty]
        rfl
      · rename_i b rest hbuffer
        cases h
        rw [left, hbuffer]
        rfl

/-- A read of a word that does not fail gives the bytes behind the blanks up to the next one. -/
theorem readWord_ok {r : Option (List UInt8)} (h : i.readWord = (.ok r, j)) :
    r.getD [] = (i.left.dropWhile isBlank).takeWhile (!isBlank ·) := by
  unfold readWord at h
  split at h
  · cases h
  · rename_i i₁ hskip
    rw [← skipBlanks_ok hskip]
    split at h
    · cases h
    · rename_i taken i₂ htake
      have htaken := takeWord_ok htake
      cases h
      split
      · rename_i hempty
        rw [← List.nil_append (List.takeWhile _ _), ← htaken, List.isEmpty_iff.1 hempty]
        rfl
      · exact htaken

end Input

/-- Nothing interrupts the feed. -/
structure Feed.IsSteady (f : Feed) : Prop where
  deliveries : ∀ d ∈ f.deliveries, d.isInterruption = false
  flickers : f.flickers = false

/-- A read of a steady feed brings bytes as long as there are any. -/
theorem Feed.IsSteady.read {f : Feed} (h : f.IsSteady) (room : Nat) :
    (f.read (room + 1)).2.IsSteady ∧ (f.read (room + 1)).2.ending = f.ending ∧
      ((∃ b bs, (f.read (room + 1)).1 = .got (b :: bs)) ∨
        f.bytes = [] ∧ (f.read (room + 1)).1 = atEnd f.ending) := by
  obtain ⟨deliveries, ending, flickers⟩ := f
  obtain ⟨hdeliveries, rfl⟩ := h
  cases deliveries with
  | nil => exact ⟨⟨hdeliveries, rfl⟩, rfl, .inr ⟨rfl, rfl⟩⟩
  | cons d rest =>
    obtain ⟨hd, hrest⟩ := List.forall_mem_cons.1 hdeliveries
    cases d with
    | interruption => cases hd
    | piece b bs =>
      simp only [Feed.read]
      split
      · exact ⟨⟨hrest, rfl⟩, rfl, .inl ⟨b, bs, rfl⟩⟩
      · exact ⟨⟨List.forall_mem_cons.2 ⟨rfl, hrest⟩, rfl⟩, rfl, .inl ⟨b, bs.take room, rfl⟩⟩

/-- The input has these bytes ahead, cut in whatever pieces, and nothing interrupts it. -/
structure Input.Holds (i : Input) (s : Supply) : Prop where
  left : i.left = s.bytes
  ending : i.feed.ending = s.ending
  steady : i.feed.IsSteady

namespace Input.Holds

variable {i : Input} {s : Supply}

theorem fill (h : i.Holds s) :
    i.fill.1 = s.failure? ∧ i.fill.2.Holds s ∧ (i.fill.2.buffer = [] → s.bytes = []) := by
  by_cases hempty : i.buffer = []
  · have hbytes : i.feed.bytes = s.bytes := by
      rw [← h.left, Input.left, hempty, List.nil_append]
    have hleft : i.fill.2.left = s.bytes := (left_fill i).trans h.left
    rw [Input.fill, if_pos (List.isEmpty_iff.2 hempty)] at hleft ⊢
    obtain ⟨hsteady, hending, hanswer⟩ := h.steady.read i.room
    rw [h.ending] at hending hanswer
    generalize i.feed.read (i.room + 1) = answer at *
    obtain ⟨r, feed⟩ := answer
    rcases hanswer with ⟨b, bs, rfl⟩ | ⟨hnone, rfl⟩
    · have hne : s.bytes ≠ [] := by
        rw [← hleft]
        exact List.cons_ne_nil b _
      exact ⟨(Supply.failure?_of_ne_nil hne).symm, ⟨hleft, hending, hsteady⟩,
        fun hnil => absurd hnil (List.cons_ne_nil b bs)⟩
    · rw [hbytes] at hnone
      obtain ⟨bytes, ending⟩ := s
      obtain rfl : bytes = [] := hnone
      cases ending with
      | closed => exact ⟨rfl, ⟨hleft, hending, hsteady⟩, fun _ => rfl⟩
      | failing reason => exact ⟨rfl, ⟨hleft, hending, hsteady⟩, fun _ => rfl⟩
  · have hne : s.bytes ≠ [] := by
      rw [← h.left]
      exact List.append_ne_nil_of_left_ne_nil hempty _
    have hkeep : i.fill = (none, i) := if_neg (mt List.isEmpty_iff.1 hempty)
    rw [hkeep]
    exact ⟨(Supply.failure?_of_ne_nil hne).symm, h, fun hnil => absurd hnil hempty⟩

theorem behind (h : i.Holds s) :
    Input.Holds { i with buffer := [] } { s with bytes := i.feed.bytes } :=
  ⟨rfl, h.ending, h.steady⟩

theorem dropWhile {p : UInt8 → Bool} (h : i.Holds s) (hne : i.buffer.dropWhile p ≠ []) :
    Input.Holds { i with buffer := i.buffer.dropWhile p } { s with bytes := s.bytes.dropWhile p } ∧
      s.bytes.dropWhile p ≠ [] := by
  have hleft := dropWhile_left_of_ne hne
  rw [h.left] at hleft
  refine ⟨⟨hleft.symm, h.ending, h.steady⟩, ?_⟩
  rw [hleft]
  exact List.append_ne_nil_of_left_ne_nil hne _

theorem skipBlanks (h : i.Holds s) :
    i.skipBlanks.1 = s.dropBlanks.failure? ∧ i.skipBlanks.2.Holds s.dropBlanks := by
  fun_induction Input.skipBlanks i generalizing s with
  | case1 i e i' hfill =>
    obtain ⟨hfailure, hholds, -⟩ := h.fill
    rw [hfill] at hfailure hholds
    rw [Supply.dropBlanks_of_nil (Supply.failure?_eq_some.1 hfailure.symm).2]
    exact ⟨hfailure, hholds⟩
  | case2 i i' hfill hempty =>
    obtain ⟨hfailure, hholds, hend⟩ := h.fill
    rw [hfill] at hfailure hholds hend
    rw [Supply.dropBlanks_of_nil (hend hempty)]
    exact ⟨hfailure, hholds⟩
  | case3 i i' hfill hempty hall ih =>
    obtain ⟨-, hholds, -⟩ := h.fill
    rw [hfill] at hholds
    have hdrop : s.dropBlanks = Supply.dropBlanks { s with bytes := i'.feed.bytes } :=
      congrArg (Supply.mk · s.ending) (hholds.left ▸ dropWhile_left_of_nil hall)
    rw [hdrop]
    exact ih hholds.behind
  | case4 i i' hfill hempty hne =>
    obtain ⟨-, hholds, -⟩ := h.fill
    rw [hfill] at hholds
    obtain ⟨hrest, hmore⟩ := hholds.dropWhile hne
    exact ⟨(Supply.failure?_of_ne_nil hmore).symm, hrest⟩

/-- The word goes on to the next blank, over as many pieces as it takes. -/
theorem takeWord (h : i.Holds s) (word : List UInt8) :
    (i.takeWord word).1 = (match s.dropWord.failure? with
      | some reason => .error reason
      | none => .ok (word ++ s.bytes.takeWhile (!isBlank ·))) ∧
    (i.takeWord word).2.Holds s.dropWord := by
  fun_induction Input.takeWord word i generalizing s with
  | case1 word i e i' hfill =>
    obtain ⟨hfailure, hholds, -⟩ := h.fill
    rw [hfill] at hfailure hholds
    rw [Supply.dropWord_of_nil (Supply.failure?_eq_some.1 hfailure.symm).2, ← hfailure]
    exact ⟨rfl, hholds⟩
  | case2 word i i' hfill hempty =>
    obtain ⟨hfailure, hholds, hend⟩ := h.fill
    rw [hfill] at hfailure hholds hend
    have hnil : s.bytes = [] := hend hempty
    rw [Supply.dropWord_of_nil hnil, ← hfailure, hnil, List.takeWhile_nil, List.append_nil]
    exact ⟨rfl, hholds⟩
  | case3 word i i' hfill hempty taken hall =>
    rename_i ih
    obtain ⟨-, hholds, -⟩ := h.fill
    rw [hfill] at hholds
    have hdrop : s.dropWord = Supply.dropWord { s with bytes := i'.feed.bytes } :=
      congrArg (Supply.mk · s.ending) (hholds.left ▸ dropWhile_left_of_nil hall)
    rw [hdrop, ← hholds.left, takeWhile_left_of_nil hall, ← List.append_assoc]
    exact ih hholds.behind
  | case4 word i i' hfill hempty taken =>
    rename_i hne
    obtain ⟨-, hholds, -⟩ := h.fill
    rw [hfill] at hholds
    obtain ⟨hrest, hmore⟩ := hholds.dropWhile hne
    have hclear : s.dropWord.failure? = none := Supply.failure?_of_ne_nil hmore
    rw [hclear, ← hholds.left, takeWhile_left_of_ne hne]
    exact ⟨rfl, hrest⟩

theorem readChar (h : i.Holds s) :
    i.readChar.1 = s.readChar.1 ∧ i.readChar.2.Holds s.readChar.2 := by
  obtain ⟨hskip, hrest⟩ := h.skipBlanks
  unfold Input.readChar Supply.readChar
  generalize s.dropBlanks = t at hskip hrest ⊢
  generalize i.skipBlanks = skipped at hskip hrest ⊢
  obtain ⟨e, i⟩ := skipped
  obtain rfl : e = t.failure? := hskip
  obtain ⟨hfill, hholds, hend⟩ := hrest.fill
  dsimp only at hfill hholds hend ⊢
  cases hfailure : t.failure? with
  | some reason => exact ⟨rfl, hrest⟩
  | none =>
    rw [hfailure] at hfill
    dsimp only
    generalize i.fill = filled at hfill hholds hend ⊢
    obtain ⟨e, j⟩ := filled
    obtain rfl : e = none := hfill
    dsimp only at hholds hend ⊢
    cases hbuffer : j.buffer with
    | nil =>
      rw [hend hbuffer]
      have hsame : ({ t with bytes := [] } : Supply) = t :=
        congrArg (Supply.mk · t.ending) (hend hbuffer).symm
      refine ⟨rfl, ?_⟩
      show j.Holds { t with bytes := [] }
      rw [hsame]
      exact hholds
    | cons b rest =>
      have hbytes : t.bytes = b :: (rest ++ j.feed.bytes) := by
        rw [← hholds.left, Input.left, hbuffer, List.cons_append]
      rw [hbytes]
      exact ⟨rfl, rfl, hholds.ending, hholds.steady⟩

theorem readWord (h : i.Holds s) :
    i.readWord.1 = s.readWord.1 ∧ i.readWord.2.Holds s.readWord.2 := by
  obtain ⟨hskip, hrest⟩ := h.skipBlanks
  unfold Input.readWord Supply.readWord
  generalize s.dropBlanks = t at hskip hrest ⊢
  generalize i.skipBlanks = skipped at hskip hrest ⊢
  obtain ⟨e, i⟩ := skipped
  obtain rfl : e = t.failure? := hskip
  dsimp only at hrest ⊢
  cases hfailure : t.failure? with
  | some reason =>
    rw [Supply.dropWord_of_nil (Supply.failure?_eq_some.1 hfailure).2, hfailure]
    exact ⟨rfl, hrest⟩
  | none =>
    dsimp only
    obtain ⟨hword, hleft⟩ := hrest.takeWord []
    generalize i.takeWord [] = taken at hword hleft ⊢
    obtain ⟨r, j⟩ := taken
    dsimp only at hword hleft ⊢
    subst hword
    cases t.dropWord.failure? with
    | some reason => exact ⟨rfl, hleft⟩
    | none => exact ⟨rfl, hleft⟩

/-- However bytes are cut into pieces, an input of these pieces holds them. -/
theorem ofPieces (pieces : List (UInt8 × List UInt8)) (ending : Ending) (room : Nat) :
    Input.Holds ⟨[], ⟨pieces.map fun p => .piece p.1 p.2, ending, false⟩, room⟩
      ⟨pieces.flatMap fun p => p.1 :: p.2, ending⟩ where
  left := List.flatMap_map _ _ pieces
  ending := rfl
  steady := by
    refine ⟨fun d hd => ?_, rfl⟩
    obtain ⟨p, -, rfl⟩ := List.mem_map.1 hd
    rfl

end Input.Holds

/-! ### Runs -/

namespace Supply

/-- What reads leave: the same end, and the last of the bytes. -/
def IsRestOf (r s : Supply) : Prop := r.bytes <:+ s.bytes ∧ r.ending = s.ending

theorem IsRestOf.trans {r s t : Supply} (h : r.IsRestOf s) (h' : s.IsRestOf t) : r.IsRestOf t :=
  ⟨h.1.trans h'.1, h.2.trans h'.2⟩

variable (s : Supply)

theorem dropBlanks_isRestOf : s.dropBlanks.IsRestOf s := ⟨List.dropWhile_suffix _, rfl⟩

theorem dropWord_isRestOf : s.dropWord.IsRestOf s := ⟨List.dropWhile_suffix _, rfl⟩

theorem readChar_isRestOf : s.readChar.2.IsRestOf s := by
  unfold readChar
  dsimp only
  cases s.dropBlanks.failure? with
  | some reason => exact s.dropBlanks_isRestOf
  | none => exact ⟨(List.tail_suffix _).trans (List.dropWhile_suffix _), rfl⟩

theorem readWord_isRestOf : s.readWord.2.IsRestOf s := by
  unfold readWord
  dsimp only
  cases s.dropBlanks.dropWord.failure? with
  | some reason => exact s.dropBlanks.dropWord_isRestOf.trans s.dropBlanks_isRestOf
  | none => exact s.dropBlanks.dropWord_isRestOf.trans s.dropBlanks_isRestOf

end Supply

/-- Inputs with the same rest of a supply ahead, in whatever pieces. -/
def Likeness.ofSupply (s : Supply) : Likeness where
  input i j := ∃ r : Supply, r.IsRestOf s ∧ i.Holds r ∧ j.Holds r
  sink s t := s = t
  records r t := r = t
  readChar := by
    rintro i j ⟨r, hr, hi, hj⟩
    exact ⟨hi.readChar.1.trans hj.readChar.1.symm, r.readChar.2, r.readChar_isRestOf.trans hr,
      hi.readChar.2, hj.readChar.2⟩
  readWord := by
    rintro i j ⟨r, hr, hi, hj⟩
    exact ⟨hi.readWord.1.trans hj.readWord.1.symm, r.readWord.2, r.readWord_isRestOf.trans hr,
      hi.readWord.2, hj.readWord.2⟩
  write := by
    rintro s _ bytes rfl
    exact ⟨rfl, rfl⟩
  flush := congrArg Sink.flushFailure
  push x h := congrArg (Array.push · x) h

/-- Reading depends on the bytes and their end, not on the pieces that they come in. A word is the
longest behind the blanks, and it is the same number, or none, whether or not it is decoded first.
A read fails if it needs a byte at a failing end. Two runs of a module give the same result, the
same output and the same records, and leave the same rest of the bytes. -/
theorem Input.reads_bytes :
    (∀ (i : Input) (s : Supply), i.Holds s →
      i.readWord.1 = s.readWord.1 ∧ i.readWord.2.Holds s.readWord.2 ∧
      i.readChar.1 = s.readChar.1 ∧ i.readChar.2.Holds s.readChar.2) ∧
    (∀ (s : Supply) (word : List UInt8), s.readWord.1 = .ok (some word) → word ≠ [] ∧
      (∃ blanks, s.bytes = blanks ++ word ++ s.readWord.2.bytes ∧ (∀ b ∈ blanks, isBlank b) ∧
        ∀ b ∈ word, ¬ isBlank b) ∧
      ∀ b ∈ s.readWord.2.bytes.head?, isBlank b) ∧
    (∀ s : Supply, s.readWord.1 = .ok none ↔ s.ending = .closed ∧ ∀ b ∈ s.bytes, isBlank b) ∧
    (∀ (s : Supply) (reason : String),
      (s.readWord.1 = .error reason ↔
        s.ending = .failing reason ∧ s.dropBlanks.dropWord.bytes = []) ∧
      (s.readChar.1 = .error reason ↔ s.ending = .failing reason ∧ s.dropBlanks.bytes = [])) ∧
    (∀ ty longs letter word,
      Value.ofWord? ty longs letter (Utf8.encode (Utf8.decodeLossy word)) =
        Value.ofWord? ty longs letter word) ∧
    ∀ (m₁ m₂ : Machine) (s : Supply), m₁.module = m₂.module → m₁.world.sink = m₂.world.sink →
      m₁.world.records = m₂.world.records → m₁.world.input.Holds s → m₂.world.input.Holds s →
      ∀ fuel, Option.Rel
        (fun p q => p.1 = q.1 ∧ p.2.module = q.2.module ∧ p.2.world.sink = q.2.world.sink ∧
          p.2.world.records = q.2.world.records ∧
          ∃ r : Supply, r.IsRestOf s ∧ p.2.world.input.Holds r ∧ q.2.world.input.Holds r)
        (m₁.runMain fuel) (m₂.runMain fuel) := by
  refine ⟨fun i s h => ?_, fun s word => s.readWord_eq_some, fun s => s.readWord_eq_none,
    fun s reason => ⟨s.readWord_eq_error, s.readChar_eq_error⟩, Value.ofWord?_decoded, ?_⟩
  · obtain ⟨hword, hafterWord⟩ := h.readWord
    obtain ⟨hchar, hafterChar⟩ := h.readChar
    exact ⟨hword, hafterWord, hchar, hafterChar⟩
  · intro m₁ m₂ s hmodule hsink hrecords h₁ h₂ fuel
    have hs : s.IsRestOf s := ⟨List.suffix_refl _, rfl⟩
    have hrun := Machine.runMain_alike (L := .ofSupply s) hmodule
      ⟨⟨s, hs, h₁, h₂⟩, hsink, hrecords⟩ fuel
    generalize m₁.runMain fuel = x at hrun ⊢
    generalize m₂.runMain fuel = y at hrun ⊢
    cases hrun with
    | none => exact .none
    | some h =>
      obtain ⟨hresult, hmodule, hworld⟩ := h
      exact .some ⟨hresult, hmodule, hworld.sink, hworld.records, hworld.input⟩

/-! ### A module that scans

Its `main` stores 5, scans a number into the same slot, and returns what is there.
-/

namespace Scanner

open Ir (Action Function Inst)

def scanf : Function :=
  { Function.declared Library.readName [⟨"format", .pointerTo .i8⟩] .i32 with isVariadic := true }

def main : Function :=
  { Function.declared "main" [] .i64 with
    slots := #[⟨"x", .i64⟩]
    values := #[⟨.i32, false⟩, ⟨.i64, false⟩]
    layout := #[⟨0⟩]
    blocks := #[{
      label := "entry"
      insts := #[⟨none, .alloca ⟨0⟩⟩, ⟨none, .store ⟨0⟩ (.int .i64 5)⟩,
        ⟨some ⟨0⟩, .call ⟨0⟩ [.global ⟨0⟩, .slotAddr ⟨0⟩]⟩, ⟨some ⟨1⟩, .load ⟨0⟩⟩]
      terminator := some (.ret (some (.inst ⟨1⟩)))
      isUnreachable := false }] }

def module : Ir.Module :=
  { ((Ir.Module.empty "m").declare scanf).declare main with globals := #[⟨"format", "%ld"⟩] }

def machine (pieces : List (UInt8 × List UInt8)) : Machine :=
  .start module ⟨[], ⟨pieces.map fun p => .piece p.1 p.2, .failing "disk", false⟩, 3⟩ .unlimited

/-- The same bytes at once and cut within the number: both runs return 21 and leave ` x`. -/
theorem reads_bytes_sample : ∃ M₁ M₂ : Machine,
    (machine [(32, [50, 49, 32, 120])]).runMain 9 = some (.ok 21, M₁) ∧
    (machine [(32, [50]), (49, [32]), (120, [])]).runMain 9 = some (.ok 21, M₂) ∧
    ∃ r : Supply, M₁.world.input.Holds r ∧ M₂.world.input.Holds r := by
  have h₁ : (machine [(32, [50, 49, 32, 120])]).world.input.Holds
      ⟨[32, 50, 49, 32, 120], .failing "disk"⟩ := .ofPieces [(32, [50, 49, 32, 120])] _ _
  have h₂ : (machine [(32, [50]), (49, [32]), (120, [])]).world.input.Holds
      ⟨[32, 50, 49, 32, 120], .failing "disk"⟩ :=
    .ofPieces [(32, [50]), (49, [32]), (120, [])] _ _
  have hrun : ((machine [(32, [50, 49, 32, 120])]).runMain 9).map Prod.fst = some (.ok 21) := by
    cbv
  have hsame := Input.reads_bytes.2.2.2.2.2 (machine [(32, [50, 49, 32, 120])])
    (machine [(32, [50]), (49, [32]), (120, [])]) _ rfl rfl rfl h₁ h₂ 9
  generalize (machine [(32, [50, 49, 32, 120])]).runMain 9 = x at hrun hsame ⊢
  generalize (machine [(32, [50]), (49, [32]), (120, [])]).runMain 9 = y at hsame ⊢
  cases hsame with
  | none => cases hrun
  | some h =>
    rename_i p q
    obtain ⟨r₁, M₁⟩ := p
    obtain ⟨r₂, M₂⟩ := q
    obtain ⟨hresult, -, -, -, r, -, hr₁, hr₂⟩ := h
    obtain rfl : r₁ = r₂ := hresult
    obtain rfl : r₁ = .ok 21 := Option.some.inj hrun
    exact ⟨M₁, M₂, rfl, rfl, r, hr₁, hr₂⟩

end Scanner

end Quill

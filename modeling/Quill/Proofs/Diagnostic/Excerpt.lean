import Quill.Diagnostic
import Quill.Proofs.Text.Characters

/-! # Excerpts

What a diagnostic shows of a source when its span is from the place before some characters of the
source to the place after them: the line on which they begin, and a marker under those of them that
are on that line.
-/
namespace Quill

/-- The characters up to the end of the line, without the line break. -/
def lineAfter : List Char → List Char
  | [] => []
  | '\n' :: _ => []
  | '\r' :: '\n' :: _ => []
  | c :: rest => c :: lineAfter rest

theorem lineAfter_cons {c : Char} {rest : List Char} (hc : c ≠ '\n')
    (hrest : c = '\r' → rest.head? ≠ some '\n') : lineAfter (c :: rest) = c :: lineAfter rest := by
  rw [lineAfter]
  · exact hc
  · rintro more rfl rfl
    exact hrest rfl rfl

theorem head?_append_ne {text rest : List Char} (htext : '\n' ∉ text)
    (hrest : text = [] → rest.head? ≠ some '\n') : (text ++ rest).head? ≠ some '\n' := by
  cases text with
  | nil => exact hrest rfl
  | cons x text =>
    rw [List.cons_append, List.head?_cons, ne_eq, Option.some.injEq]
    rintro rfl
    exact htext List.mem_cons_self

/-- Characters on one line stay on it, unless a carriage return among them comes before a newline. -/
theorem lineAfter_append {text rest : List Char} (htext : '\n' ∉ text)
    (hrest : text.getLast? = some '\r' → rest.head? ≠ some '\n') :
    lineAfter (text ++ rest) = text ++ lineAfter rest := by
  induction text with
  | nil => rfl
  | cons c text ih =>
    simp only [List.mem_cons, not_or] at htext
    rw [List.cons_append, lineAfter_cons (Ne.symm htext.1), ih htext.2, List.cons_append]
    · intro hlast
      exact hrest (by rw [List.getLast?_cons, hlast]; rfl)
    · rintro rfl
      exact head?_append_ne htext.2 fun htext => hrest (by rw [htext]; rfl)

theorem lineAfter_eq_self {text : List Char} (h : '\n' ∉ text) : lineAfter text = text := by
  have happend : lineAfter (text ++ []) = text ++ lineAfter [] := lineAfter_append h (by simp)
  rwa [List.append_nil, lineAfter, List.append_nil] at happend

theorem lineAfter_append_of_mem {text : List Char} (h : '\n' ∈ text) (rest : List Char) :
    lineAfter (text ++ rest) = lineAfter text := by
  fun_induction lineAfter text with
  | case1 => simp at h
  | case2 => rfl
  | case3 => rfl
  | case4 c text hc hbreak ih =>
    have hmem : '\n' ∈ text := (List.mem_cons.1 h).resolve_left (fun hc' => hc hc'.symm)
    rw [List.cons_append, lineAfter_cons hc, ih hmem]
    rintro rfl
    cases text with
    | nil => simp at hmem
    | cons x text =>
      rw [List.cons_append, List.head?_cons, ne_eq, Option.some.injEq]
      rintro rfl
      exact hbreak text rfl rfl

theorem lineAfter_isPrefix (text : List Char) : lineAfter text <+: text := by
  fun_induction lineAfter text with
  | case1 => exact List.nil_prefix
  | case2 => exact List.nil_prefix
  | case3 => exact List.nil_prefix
  | case4 c text _ _ ih => exact List.cons_prefix_cons.2 ⟨rfl, ih⟩

/-- Of characters and what follows them, the line shows what it shows of the characters first. -/
theorem lineAfter_prefix_append {text rest : List Char}
    (h : text.getLast? = some '\r' → rest.head? ≠ some '\n') :
    lineAfter text <+: lineAfter (text ++ rest) := by
  by_cases htext : '\n' ∈ text
  · rw [lineAfter_append_of_mem htext]
  · rw [lineAfter_append htext h, lineAfter_eq_self htext]
    exact List.prefix_append _ _

theorem lineBefore_newline (front rest : List Char) :
    lineBefore (front ++ '\n' :: rest) = lineBefore rest := by
  induction rest using List.reverseRecOn with
  | nil => rw [lineBefore_concat, if_pos rfl]; rfl
  | append_singleton rest c ih =>
    rw [← List.cons_append, ← List.append_assoc, lineBefore_concat, lineBefore_concat, ih]

theorem lineBefore_append {cs : List Char} (h : '\n' ∉ cs) (pre : List Char) :
    lineBefore (pre ++ cs) = lineBefore pre ++ cs := by
  induction cs using List.reverseRecOn with
  | nil => simp
  | append_singleton cs c ih =>
    simp only [List.mem_append, List.mem_singleton, not_or] at h
    rw [← List.append_assoc, lineBefore_concat, if_neg (Ne.symm h.2), ih h.1, List.append_assoc]

theorem lineBefore_eq_self {cs : List Char} (h : '\n' ∉ cs) : lineBefore cs = cs :=
  lineBefore_append h []

namespace Diagnostic

theorem lines_cons {c : Char} {rest : List Char} (hc : c ≠ '\n')
    (hrest : c = '\r' → rest.head? ≠ some '\n') :
    lines (c :: rest) =
      match lines rest with
      | [] => [[c]]
      | first :: more => (c :: first) :: more := by
  refine lines.eq_4 c rest hc ?_
  rintro more rfl rfl
  exact hrest rfl rfl

theorem lines_head {cs : List Char} (h : cs ≠ []) : (lines cs)[0]? = some (lineAfter cs) := by
  fun_induction lineAfter cs with
  | case1 => contradiction
  | case2 => rfl
  | case3 => rfl
  | case4 c rest hc hbreak ih =>
    rw [lines_cons hc fun hcr hhead => by cases rest <;> simp_all]
    cases rest with
    | nil => rfl
    | cons x rest =>
      have hih := ih (List.cons_ne_nil x rest)
      cases hlines : lines (x :: rest) with
      | nil => simp [hlines] at hih
      | cons first more =>
        rw [hlines] at hih
        simpa using hih

theorem lines_newline {front : List Char} (h : '\n' ∉ front) (rest : List Char) :
    ∃ first, lines (front ++ '\n' :: rest) = first :: lines rest := by
  induction front with
  | nil => exact ⟨[], rfl⟩
  | cons c front ih =>
    simp only [List.mem_cons, not_or] at h
    by_cases hbreak : c = '\r' ∧ front = []
    · obtain ⟨rfl, rfl⟩ := hbreak
      exact ⟨[], rfl⟩
    · obtain ⟨first, hfirst⟩ := ih h.2
      refine ⟨c :: first, ?_⟩
      rw [List.cons_append, lines_cons (Ne.symm h.1), hfirst]
      intro hcr
      exact head?_append_ne h.2 fun hfront => absurd ⟨hcr, hfront⟩ hbreak

/-- The line on which `rest` begins is numbered by the newlines before it. -/
theorem lines_line {pre rest : List Char} (hne : rest ≠ []) (hhead : rest.head? ≠ some '\n') :
    (lines (pre ++ rest))[pre.count '\n']? = some (lineBefore pre ++ lineAfter rest) := by
  -- By induction on the newlines in front: up to the first of them is one line.
  induction hcount : pre.count '\n' generalizing pre with
  | zero =>
    have hpre : '\n' ∉ pre := List.count_eq_zero.1 hcount
    rw [lines_head (List.append_ne_nil_of_right_ne_nil pre hne),
      lineAfter_append hpre fun _ => hhead, lineBefore_eq_self hpre]
  | succ n ih =>
    have hpre : '\n' ∈ pre := List.count_pos_iff.1 (by omega)
    obtain ⟨front, pre, rfl, hfront⟩ := List.eq_append_cons_of_mem hpre
    obtain ⟨first, hlines⟩ := lines_newline hfront (pre ++ rest)
    rw [List.count_append, List.count_cons_self, List.count_eq_zero.2 hfront] at hcount
    rw [List.append_assoc, List.cons_append, hlines, List.getElem?_cons_succ, ih (by omega),
      lineBefore_newline]

/-- The characters of a line above the caret and the tildes of a marker. -/
def marked (line marker : List Char) : List Char :=
  ((line.zip marker).filter (·.2 ≠ ' ')).map Prod.fst

def mark (blanks width : Nat) : List Char :=
  List.replicate blanks ' ' ++ '^' :: List.replicate (width - 1) '~'

theorem marked_mark {front text : List Char} (h : text ≠ []) (rest : List Char) :
    marked (front ++ (text ++ rest)) (mark front.length text.length) = text := by
  have hlength : text.length = ('^' :: List.replicate (text.length - 1) '~').length := by
    have := List.length_pos_iff.2 h
    simp only [List.length_cons, List.length_replicate]
    omega
  have hblank : (front.zip (List.replicate front.length ' ')).filter (·.2 ≠ ' ') = [] := by
    rw [List.filter_eq_nil_iff]
    rintro ⟨c, b⟩ hmem
    simp [List.eq_of_mem_replicate (List.of_mem_zip hmem).2]
  have hdrawn : (text.zip ('^' :: List.replicate (text.length - 1) '~')).filter (·.2 ≠ ' ') =
      text.zip ('^' :: List.replicate (text.length - 1) '~') := by
    rw [List.filter_eq_self]
    rintro ⟨c, b⟩ hmem
    rcases List.mem_cons.1 (List.of_mem_zip hmem).2 with rfl | hb
    · simp
    · simp [List.eq_of_mem_replicate hb]
  have hrest : (text ++ rest).zip ('^' :: List.replicate (text.length - 1) '~' ++ []) =
      text.zip ('^' :: List.replicate (text.length - 1) '~') ++ rest.zip [] :=
    List.zip_append hlength
  rw [List.append_nil, List.zip_nil_right, List.append_nil] at hrest
  rw [marked, mark, List.zip_append (by simp), hrest, List.filter_append, hblank, hdrawn,
    List.nil_append, List.map_fst_zip (Nat.le_of_eq hlength)]

variable {d : Diagnostic} {source : String} {pre text post : List Char}

/-- A span over some characters of a source, told by the places before and after them. -/
structure Covers (d : Diagnostic) (source : String) (pre text post : List Char) : Prop where
  split : source.toList = pre ++ (text ++ post)
  first : d.span.first = .past pre
  last : d.span.last = .past (pre ++ text)
  /-- The characters do not begin with a line break. -/
  begins : ∃ c rest, text = c :: rest ∧ c ≠ '\n' ∧ c ≠ '\r'
  /-- They do not end within a line break. -/
  ends : text.getLast? = some '\r' → post.head? ≠ some '\n'

theorem Covers.line (h : d.Covers source pre text post) :
    (lines source.toList)[d.span.first.line - 1]? =
      some (lineBefore pre ++ lineAfter (text ++ post)) := by
  obtain ⟨c, rest, rfl, hc, -⟩ := h.begins
  rw [h.split, h.first, Location.past_eq]
  exact lines_line (List.cons_ne_nil _ _) (by simpa using hc)

/-- The marker ends below the last character of the span on its first line. -/
theorem Covers.width (h : d.Covers source pre text post) :
    (if d.span.last.line = d.span.first.line then
        min (d.span.last.column - 1) (lineBefore pre ++ lineAfter (text ++ post)).length
      else (lineBefore pre ++ lineAfter (text ++ post)).length) =
      (lineBefore pre).length + (lineAfter text).length := by
  rw [h.first, h.last, Location.past_eq, Location.past_eq, List.count_append, List.length_append]
  dsimp only
  by_cases htext : '\n' ∈ text
  · have hcount := List.count_pos_iff.2 htext
    rw [if_neg (by omega), lineAfter_append_of_mem htext]
  · have hprefix := (lineAfter_prefix_append h.ends).length_le
    rw [lineAfter_eq_self htext] at hprefix ⊢
    rw [if_pos (by rw [List.count_eq_zero.2 htext, Nat.add_zero]), lineBefore_append htext,
      List.length_append]
    omega

theorem Covers.render (h : d.Covers source pre text post) :
    d.render source =
      String.ofList (lineBefore pre ++ lineAfter (text ++ post)) ++ "\n" ++
        String.ofList (mark (lineBefore pre).length (lineAfter text).length) ++ "\n" ++ d.text := by
  have hwidth : (lineBefore pre).length + (lineAfter text).length - (lineBefore pre).length =
      (lineAfter text).length := by
    omega
  rw [Diagnostic.render, excerpt]
  dsimp only
  rw [h.line]
  dsimp only
  rw [h.width, marker, h.first, Location.past_eq]
  simp only [Nat.add_sub_cancel, hwidth, mark]

theorem Covers.lineAfter_ne_nil (h : d.Covers source pre text post) : lineAfter text ≠ [] := by
  obtain ⟨c, rest, rfl, hc, hcr⟩ := h.begins
  rw [lineAfter_cons hc (fun h => absurd h hcr)]
  exact List.cons_ne_nil _ _

end Diagnostic

end Quill

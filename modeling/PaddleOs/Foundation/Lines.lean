import Mathlib.Data.List.Basic

/-!
A row of symbols cut into lines: each line ends with a separator, and what stands behind the last
separator is the tail. Nothing here names a particular program.
-/

namespace Foundation.Lines

variable {α : Type} [DecidableEq α] {sep : α} {line tail : List α}

/-- The lines and the tail. -/
def cut (sep : α) : List α → List (List α) × List α
  | [] => ([], [])
  | x :: rest =>
      if x = sep then ([] :: (cut sep rest).1, (cut sep rest).2)
      else
        match (cut sep rest).1 with
        | [] => ([], x :: (cut sep rest).2)
        | line :: lines => ((x :: line) :: lines, (cut sep rest).2)

/-- The lines without their separators. -/
def lines (sep : α) (text : List α) : List (List α) := (cut sep text).1

def lastPart (sep : α) (text : List α) : List α := (cut sep text).2

/-- Every text is a tail, or a line with another text behind it. -/
@[elab_as_elim]
theorem line_induction {motive : List α → Prop} (sep : α) (last : ∀ tail, sep ∉ tail → motive tail)
    (step : ∀ line rest, sep ∉ line → motive rest → motive (line ++ sep :: rest)) (text : List α) :
    motive text := by
  induction left : text.length using Nat.strongRecOn generalizing text with
  | ind n ih =>
      by_cases ends : sep ∈ text
      · obtain ⟨line, rest, rfl, first⟩ := List.eq_append_cons_of_mem ends
        rw [List.length_append, List.length_cons] at left
        exact step line rest first (ih _ (by omega) rest rfl)
      · exact last text ends

theorem cut_tail (plain : sep ∉ tail) : cut sep tail = ([], tail) := by
  induction tail with
  | nil => rfl
  | cons x tail ih =>
      have first : x ≠ sep := fun same => plain (same ▸ List.mem_cons_self)
      have rest := ih fun member => plain (List.mem_cons_of_mem _ member)
      simp only [cut, if_neg first, rest]

theorem cut_line (plain : sep ∉ line) (rest : List α) :
    cut sep (line ++ sep :: rest) = (line :: (cut sep rest).1, (cut sep rest).2) := by
  induction line with
  | nil => simp only [List.nil_append, cut, if_true]
  | cons x line ih =>
      have first : x ≠ sep := fun same => plain (same ▸ List.mem_cons_self)
      have after := ih fun member => plain (List.mem_cons_of_mem _ member)
      simp only [List.cons_append, cut, if_neg first, after]

/-- The tail of a text goes on in what follows. -/
theorem cut_append (first second : List α) : cut sep (first ++ second) =
    (lines sep first ++ lines sep (lastPart sep first ++ second), lastPart sep (lastPart sep first ++ second)) := by
  unfold lines lastPart
  induction first using line_induction sep with
  | last tail plain => rw [cut_tail plain, List.nil_append]
  | step line rest plain ih =>
      rw [cut_line plain, List.append_assoc, List.cons_append, cut_line plain, ih]
      rfl

theorem lines_tail (plain : sep ∉ tail) : lines sep tail = [] := congrArg Prod.fst (cut_tail plain)

theorem lines_line (plain : sep ∉ line) (rest : List α) :
    lines sep (line ++ sep :: rest) = line :: lines sep rest := congrArg Prod.fst (cut_line plain rest)

theorem lastPart_tail (plain : sep ∉ tail) : lastPart sep tail = tail := congrArg Prod.snd (cut_tail plain)

theorem lastPart_line (plain : sep ∉ line) (rest : List α) :
    lastPart sep (line ++ sep :: rest) = lastPart sep rest := by
  unfold lastPart
  rw [cut_line plain]

theorem lines_append (first second : List α) :
    lines sep (first ++ second) = lines sep first ++ lines sep (lastPart sep first ++ second) :=
  congrArg Prod.fst (cut_append first second)

/-- The tail stands at the end and has no separator. -/
theorem lastPart_spec (sep : α) (text : List α) :
    sep ∉ lastPart sep text ∧ ∃ front, text = front ++ lastPart sep text := by
  unfold lastPart
  induction text using line_induction sep with
  | last tail plain =>
      rw [cut_tail plain]
      exact ⟨plain, [], rfl⟩
  | step line rest plain ih =>
      obtain ⟨free, front, same⟩ := ih
      rw [cut_line plain]
      refine ⟨free, line ++ sep :: front, ?_⟩
      rw [List.append_assoc, List.cons_append, ← same]

/-- A line is shorter than the text. -/
theorem lines_short (text : List α) : ∀ line ∈ lines sep text, line.length < text.length := by
  induction text using line_induction sep with
  | last tail plain =>
      rw [lines_tail plain]
      exact fun line member => absurd member List.not_mem_nil
  | step line rest plain ih =>
      rw [lines_line plain, List.length_append, List.length_cons]
      intro other member
      rcases List.mem_cons.mp member with rfl | member
      · omega
      · have shorter := ih other member
        omega

end Foundation.Lines

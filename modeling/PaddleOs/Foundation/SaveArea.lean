import Mathlib.Logic.Function.Basic
import Mathlib.Data.List.Nodup
import Mathlib.Tactic.Common

/-!
Registers saved in memory and read back. A table says at which address each register is kept; `save`
stores the registers of a table one after the other, `restore` loads them. Nothing here names a
particular program or machine.
-/

namespace Foundation.SaveArea

variable {R A W : Type} [DecidableEq R] [DecidableEq A]

def save (regs : R → W) : List (R × A) → (A → W) → A → W
  | [], mem => mem
  | (r, a) :: rest, mem => save regs rest (Function.update mem a (regs r))

def restore (mem : A → W) : List (R × A) → (R → W) → R → W
  | [], regs => regs
  | (r, a) :: rest, regs => restore mem rest (Function.update regs r (mem a))

variable {table : List (R × A)} {regs : R → W} {mem mem' : A → W} {r : R} {a : A}

omit [DecidableEq R] in
/-- Only the addresses of the table are stored to. -/
theorem save_apart (apart : a ∉ table.map Prod.snd) : save regs table mem a = mem a := by
  induction table generalizing mem with
  | nil => rfl
  | cons entry rest ih =>
      simp only [List.map_cons, List.mem_cons, not_or] at apart
      change save regs rest (Function.update mem entry.2 (regs entry.1)) a = mem a
      rw [ih apart.2]
      exact Function.update_of_ne apart.1 ..

omit [DecidableEq R] in
theorem save_at (distinct : (table.map Prod.snd).Nodup) (member : (r, a) ∈ table) :
    save regs table mem a = regs r := by
  induction table generalizing mem with
  | nil => cases member
  | cons entry rest ih =>
      obtain ⟨fresh, distinct⟩ := List.nodup_cons.mp distinct
      change save regs rest (Function.update mem entry.2 (regs entry.1)) a = regs r
      rcases List.mem_cons.mp member with same | later
      · rw [← same] at fresh ⊢
        rw [save_apart fresh]
        exact Function.update_self ..
      · exact ih distinct later

omit [DecidableEq R] in
theorem save_congr {regs' : R → W} (same : ∀ r ∈ table.map Prod.fst, regs r = regs' r) :
    save regs table mem = save regs' table mem := by
  induction table generalizing mem with
  | nil => rfl
  | cons entry rest ih =>
      simp only [List.map_cons, List.mem_cons, forall_eq_or_imp] at same
      change save regs rest (Function.update mem entry.2 (regs entry.1)) =
        save regs' rest (Function.update mem entry.2 (regs' entry.1))
      rw [same.1]
      exact ih same.2

omit [DecidableEq A] in
/-- Only the registers of the table are loaded. -/
theorem restore_apart (apart : r ∉ table.map Prod.fst) : restore mem table regs r = regs r := by
  induction table generalizing regs with
  | nil => rfl
  | cons entry rest ih =>
      simp only [List.map_cons, List.mem_cons, not_or] at apart
      change restore mem rest (Function.update regs entry.1 (mem entry.2)) r = regs r
      rw [ih apart.2]
      exact Function.update_of_ne apart.1 ..

omit [DecidableEq A] in
theorem restore_at (distinct : (table.map Prod.fst).Nodup) (member : (r, a) ∈ table) :
    restore mem table regs r = mem a := by
  induction table generalizing regs with
  | nil => cases member
  | cons entry rest ih =>
      obtain ⟨fresh, distinct⟩ := List.nodup_cons.mp distinct
      change restore mem rest (Function.update regs entry.1 (mem entry.2)) r = mem a
      rcases List.mem_cons.mp member with same | later
      · rw [← same] at fresh ⊢
        rw [restore_apart fresh]
        exact Function.update_self ..
      · exact ih distinct later

end Foundation.SaveArea

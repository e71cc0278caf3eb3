import PaddleOs.Foundation.Overlay
import PaddleOs.Vm

/-!
`memmove` twice: in `kernel/string.c` and in `user/ulib.c`. The two choose the direction of the
copy by different tests, and each direction is right for its side of the overlap.
-/

namespace PaddleOs

open Foundation.LittleEndian (Bytes)
open Foundation.Overlay

/-- `while (n-- > 0) *d++ = *s++;` -/
def copyForward : Nat → Nat → Nat → Bytes → Bytes
  | 0, _, _, memory => memory
  | n + 1, d, s, memory =>
      copyForward n (word64 (d + 1)) (word64 (s + 1)) (Function.update memory d (memory s))

/-- `while (n-- > 0) *--d = *--s;` -/
def copyBackward : Nat → Nat → Nat → Bytes → Bytes
  | 0, _, _, memory => memory
  | n + 1, d, s, memory =>
      let d := word64 (d + 2 ^ 64 - 1)
      let s := word64 (s + 2 ^ 64 - 1)
      copyBackward n d s (Function.update memory d (memory s))

/-- `memmove` of the kernel; `n` is a `uint`. -/
def memmove (dst src n : Nat) (memory : Bytes) : Bytes :=
  if n = 0 then memory
  else if src < dst ∧ word64 (src + n) > dst then
    copyBackward n (word64 (dst + n)) (word64 (src + n)) memory
  else copyForward n dst src memory

namespace User

/-- `memmove` of the user library; `n` is an `int`. -/
def memmove (dst src : Nat) (n : Int) (memory : Bytes) : Bytes :=
  if src > dst then copyForward n.toNat dst src memory
  else
    copyBackward n.toNat ((dst + n) % 2 ^ 64).toNat ((src + n) % 2 ^ 64).toNat memory

end User

/-- The bytes from `src` on, as a temporary buffer holds them. -/
def buffered (memory : Bytes) (src n : Nat) : List UInt8 := (List.range n).map fun i => memory (src + i)

/-- The copy through a temporary buffer. -/
def moved (memory : Bytes) (dst src n : Nat) : Bytes := overlay memory dst (buffered memory src n)

variable {memory : Bytes} {dst src d s n : Nat}

theorem moved_inside (memory : Bytes) (src : Nat) {i : Nat} (bound : i < n) :
    moved memory dst src n (dst + i) = memory (src + i) := by
  unfold moved buffered
  rw [overlay_at memory dst (by simpa using bound), List.getElem_map, List.getElem_range]

theorem moved_outside (memory : Bytes) (src : Nat) {a : Nat} (outside : a < dst ∨ dst + n ≤ a) :
    moved memory dst src n a = memory a :=
  overlay_apart memory (by simpa [buffered] using outside)

theorem moved_nothing (memory : Bytes) (dst src : Nat) : moved memory dst src 0 = memory :=
  overlay_nil memory dst

/-- The first byte may be copied at once when no later byte comes from where it goes. -/
theorem moved_first (safe : dst ≤ src ∨ src + n < dst) :
    moved (Function.update memory dst (memory src)) (dst + 1) (src + 1) n = moved memory dst src (n + 1) := by
  funext a
  by_cases inside : dst + 1 ≤ a ∧ a < dst + 1 + n
  · obtain ⟨i, rfl⟩ := Nat.exists_eq_add_of_le inside.1
    have apart : src + 1 + i ≠ dst := by omega
    rw [moved_inside _ _ (by omega), Function.update_of_ne apart, show dst + 1 + i = dst + (1 + i) by omega,
      moved_inside _ _ (by omega), show src + 1 + i = src + (1 + i) by omega]
  · rw [moved_outside _ _ (by omega)]
    by_cases first : a = dst
    · have start : moved memory dst src (n + 1) (dst + 0) = memory (src + 0) := moved_inside _ _ (by omega)
      rw [first, Function.update_self]
      exact start.symm
    · rw [Function.update_of_ne first, moved_outside _ _ (by omega)]

/-- The last byte may be copied at once when no earlier byte comes from where it goes. -/
theorem moved_last (safe : src ≤ dst ∨ dst + n < src) :
    moved (Function.update memory (dst + n) (memory (src + n))) dst src n = moved memory dst src (n + 1) := by
  funext a
  by_cases inside : dst ≤ a ∧ a < dst + n
  · obtain ⟨i, rfl⟩ := Nat.exists_eq_add_of_le inside.1
    have apart : src + i ≠ dst + n := by omega
    rw [moved_inside _ _ (by omega), Function.update_of_ne apart, moved_inside _ _ (by omega)]
  · rw [moved_outside _ _ (by omega)]
    by_cases last : a = dst + n
    · rw [last, Function.update_self, moved_inside _ _ (by omega)]
    · rw [Function.update_of_ne last, moved_outside _ _ (by omega)]

theorem copyForward_moves (source : src + n ≤ 2 ^ 64) (target : dst + n ≤ 2 ^ 64)
    (safe : dst ≤ src ∨ src + n ≤ dst) :
    copyForward n (word64 dst) (word64 src) memory = moved memory dst src n := by
  induction n generalizing dst src memory with
  | zero => exact (moved_nothing memory dst src).symm
  | succ n ih =>
      have here : ∀ a, a + (n + 1) ≤ 2 ^ 64 → word64 a = a := fun a bound => Nat.mod_eq_of_lt (by omega)
      unfold copyForward
      rw [here dst target, here src source, ih (by omega) (by omega) (by omega)]
      exact moved_first (by omega)

theorem copyBackward_moves (source : src + n ≤ 2 ^ 64) (target : dst + n ≤ 2 ^ 64)
    (safe : src ≤ dst ∨ dst + n ≤ src) :
    copyBackward n (word64 (dst + n)) (word64 (src + n)) memory = moved memory dst src n := by
  induction n generalizing memory with
  | zero => exact (moved_nothing memory dst src).symm
  | succ n ih =>
      have back : ∀ a, a + (n + 1) ≤ 2 ^ 64 → word64 (word64 (a + (n + 1)) + 2 ^ 64 - 1) = a + n := by
        intro a bound
        unfold word64
        omega
      have stays : ∀ a, a + (n + 1) ≤ 2 ^ 64 → word64 (a + n) = a + n := fun a bound =>
        Nat.mod_eq_of_lt (by omega)
      have rest := @ih (Function.update memory (dst + n) (memory (src + n))) (by omega) (by omega) (by omega)
      rw [stays dst target, stays src source] at rest
      unfold copyBackward
      rw [back dst target, back src source]
      exact rest.trans (moved_last (by omega))

theorem memmove_moves (source : src + n ≤ 2 ^ 64) (target : dst + n ≤ 2 ^ 64) :
    memmove dst src n memory = moved memory dst src n := by
  unfold memmove
  split
  · rename_i none_
    rw [none_, moved_nothing]
  · have start : ∀ a, a + n ≤ 2 ^ 64 → word64 a = a := fun a bound => Nat.mod_eq_of_lt (by omega)
    split
    · exact copyBackward_moves source target (by omega)
    · rename_i direction
      have forward := @copyForward_moves memory dst src n source target
      rw [start dst target, start src source] at forward
      refine forward ?_
      by_contra overlap
      -- A source that ends at the top of the address space has no room for a target above it.
      exact direction ⟨by omega, by unfold word64; omega⟩

theorem User.memmove_moves (source : src + n ≤ 2 ^ 64) (target : dst + n ≤ 2 ^ 64) :
    User.memmove dst src n memory = moved memory dst src n := by
  have ends : ∀ a : Nat, (((a : Int) + n) % 2 ^ 64).toNat = word64 (a + n) := by
    intro a
    unfold word64
    omega
  unfold User.memmove
  rw [ends, ends, Int.toNat_natCast]
  split
  · by_cases none_ : n = 0
    · rw [none_, moved_nothing]
      rfl
    · have start : ∀ a, a + n ≤ 2 ^ 64 → word64 a = a := fun a bound => Nat.mod_eq_of_lt (by omega)
      have forward := @copyForward_moves memory dst src n source target (by omega)
      rwa [start dst target, start src source] at forward
  · exact copyBackward_moves source target (by omega)

/-- Both copy what was there, whether the ranges overlap or not, and leave all else alone. -/
theorem memmoves_agree (source : src + n ≤ 2 ^ 64) (target : dst + n ≤ 2 ^ 64) :
    memmove dst src n memory = moved memory dst src n ∧
    User.memmove dst src n memory = moved memory dst src n ∧
    (∀ i, i < n → moved memory dst src n (dst + i) = memory (src + i)) ∧
    ∀ a, a < dst ∨ dst + n ≤ a → moved memory dst src n a = memory a :=
  ⟨memmove_moves source target, User.memmove_moves source target, fun _ bound => moved_inside memory src bound,
    fun _ outside => moved_outside memory src outside⟩

/-- Three bytes are moved up by one. -/
theorem overlapping_memmove : memmove 1 0 3 UInt8.ofNat 3 = 2 ∧ User.memmove 1 0 3 UInt8.ofNat 3 = 2 := by
  have both := @memmoves_agree UInt8.ofNat 1 0 3 (by decide) (by decide)
  have last : moved UInt8.ofNat 1 0 3 (1 + 2) = UInt8.ofNat 2 := both.2.2.1 2 (by decide)
  exact ⟨(congrFun both.1 3).trans last, (congrFun both.2.1 3).trans last⟩

end PaddleOs

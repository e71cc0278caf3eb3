import PaddleOs.FirstProcess
import PaddleOs.KernelImages

/-!
Programs on a disk. A first machine writes a file, a second one is switched on over the disk and its
first process executes the file.
-/

namespace PaddleOs.Kernel

open Foundation.LittleEndian (putLE getLE)
open Foundation.Runs
open Fs (Path)

/-- A file with one program header, at byte 64, and four bytes to load, at byte 120. The header says
that they are at `off`, and the ELF header that it is at `phoff` itself. -/
def programFile (phoff off : Nat) : List UInt8 :=
  let data := putLE (fun _ => 0) 0 4 ELF_MAGIC
  let data := putLE data 32 8 phoff
  let data := putLE data 56 2 1
  let data := putLE data 64 4 ELF_PROG_LOAD
  let data := putLE data 72 8 off
  let data := putLE data 96 8 4
  let data := putLE data 104 8 8
  (List.range 124).map data

/-- The first process writes what it has at address 0 to the file `a`. -/
def installCalls (size : Nat) : List (Pid × Call) :=
  [(initproc, .open (some [97]) 0x201), (initproc, .write 0 0 size 0), (initproc, .close 0)]

/-- The second machine once it has its first process. -/
def installed (file : List UInt8) : Option (State Journal) :=
  match userinit file (imaged tinyDisk) with
  | .ok _ booted =>
      match run step booted (installCalls file.length) with
      | some final =>
          match userinit [] (bss final.fs.store final.fs.sb (tinyRam 40 [])) with
          | .ok _ s => some s
          | .error _ _ => none
      | none => none
  | .error _ _ => none

variable {s : State Journal} {v : Volume}

/-- A disk that a machine leaves between two calls can be booted from. -/
theorem Intact.reboots (intact : Intact s v) (settled : Settled (books s)) (ram : Vm.Ram) :
    Fresh (bss s.fs.store s.fs.sb ram) where
  cleared := bss_cleared ..
  idle := settled.idle
  consistent := @Good.consistent s.fs v intact.good
  whole := @Good.shown_whole s.fs v intact.good intact.whole

theorem tinyRam_clear {count : Nat} (few : count ≤ 0x7f00) (faults : List Bool) :
    Vm.Clear (tinyRam count faults) where
  base := by
    change 0x80000 ≤ 0x80100
    decide
  nodup := (List.nodup_map_iff fun _ _ => Nat.add_left_cancel).mpr List.nodup_range
  range q member := by
    obtain ⟨i, below, rfl⟩ := List.mem_map.mp member
    have bound := List.mem_range.mp below
    change 0x80100 ≤ 0x80100 + i ∧ 0x80100 + i < 0x88000
    omega

/-- The second machine runs a process that can execute programs. -/
theorem installed_ready {file : List UInt8} (found : installed file = some s) :
    (books s).Owes 0 0 ∧ (∃ v, Intact s v) ∧ ∃ g, Housed s initproc g := by
  unfold installed at found
  split at found
  · rename_i booted boot
    split at found
    · rename_i final ran
      split at found
      · rename_i rebooted reboot
        obtain rfl := Option.some.inj found
        obtain ⟨settled, v, intact⟩ := run_intact tiny_fresh boot ran
        have fresh := intact.reboots settled (tinyRam 40 [])
        have supply : Vm.Supply 9 (bss final.fs.store final.fs.sb (tinyRam 40 [])).ram :=
          ⟨show 9 ≤ (tinyRam 40 []).freelist.length by decide, fun _ _ => rfl⟩
        have born := userinit_bears fresh.cleared (tinyRam_clear (by decide) []) supply []
        unfold Foundation.Outcome.outcome at born
        rw [reboot] at born
        obtain ⟨trapframe, r, g, born⟩ := born
        exact ⟨(userinit_settles fresh.cleared fresh.idle reboot).owes,
          ⟨_, userinit_intact fresh.intact reboot⟩, g, born.housed⟩
      · cases found
    · cases found
  · cases found

/-- What a test finds of the second machine. -/
theorem installed_such {file : List UInt8} {test : State Journal → Bool}
    (holds : (installed file).any test = true) : ∃ s, (books s).Owes 0 0 ∧ (∃ v, Intact s v) ∧
      (∃ g, Housed s initproc g) ∧ test s = true := by
  obtain ⟨s, found, holds⟩ := (Option.any_eq_true _ _).mp holds
  obtain ⟨owes, intact, housed⟩ := installed_ready found
  exact ⟨s, owes, intact, housed, holds⟩

end PaddleOs.Kernel

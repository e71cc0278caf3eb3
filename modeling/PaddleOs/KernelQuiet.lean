import PaddleOs.FsQuiet
import PaddleOs.Kernel

/-!
The kernel functions that work on memory, pipes and the contents of files. They open
and close nothing and take no lock, and a property of computations that sequences
inherit holds of all of them as soon as it holds of their few kinds of steps.
-/

namespace PaddleOs.Kernel

open Foundation.Outcome Foundation.View
open Fs (Slot)

variable {W : Type}

structure Quiet (P : ∀ ⦃α : Type⦄, KernelM W α → Prop) : Prop extends Closed P where
  halt : ∀ {α : Type} {reason : Halt}, reason ≠ .fs .igetNoInodes →
    P (throw reason : KernelM W α)
  vm : ∀ {α : Type} (run : Vm.VmM α), P (vm run)
  modifyPipe : ∀ page change, P (modifyPipe page change)
  modifyProc : ∀ (p : Pid) {change : Proc → Proc}, (∀ proc, (change proc).state = proc.state) →
    (∀ proc, (change proc).ofile = proc.ofile) → (∀ proc, (change proc).cwd = proc.cwd) →
    P (modifyProc p change)

/-- The reads of `exec` from the file it loads. -/
def Reads [BlockLayer W] (P : ∀ ⦃α : Type⦄, KernelM W α → Prop) (ip : Slot) : Prop :=
  ∀ accepts off n, n < 2 ^ 32 → P (fs (Fs.readi ip accepts off n))

variable {P : ∀ ⦃α : Type⦄, KernelM W α → Prop} (quiet : Quiet P)
include quiet

theorem file_quiet (f : FileId) : P (file (W := W) f) :=
  quiet.bind quiet.get fun _ => quiet.pure _

theorem proc_quiet (p : Pid) : P (proc (W := W) p) :=
  quiet.bind quiet.get fun _ => quiet.pure _

section Pipes

theorem pipeclose_quiet (page : Nat) (writable : Bool) :
    P (pipeclose (W := W) page writable) := by
  unfold pipeclose
  refine quiet.bind (quiet.modifyPipe _ _) fun _ => quiet.bind quiet.get fun s => ?_
  exact quiet.ite (quiet.vm _) (quiet.pure _)

theorem pipereadFrom_quiet (page pagetable addr count i : Nat) :
    P (pipereadFrom (W := W) page pagetable addr count i) := by
  induction count generalizing i with
  | zero => exact quiet.pure _
  | succ count ih =>
      unfold pipereadFrom
      refine quiet.bind quiet.get fun s => quiet.ite (quiet.pure _) ?_
      refine quiet.bind (quiet.modifyPipe _ _) fun _ => quiet.bind (quiet.vm _) fun copied => ?_
      exact quiet.ite (ih _) (quiet.pure _)

theorem piperead_quiet (p : Pid) (page addr : Nat) (n : Int) :
    P (piperead (W := W) p page addr n) := by
  have drain : P (do
      return some (← pipereadFrom (W := W) page (← proc p).pagetable addr n.toNat 0)) :=
    quiet.bind (proc_quiet quiet p) fun proc =>
      quiet.bind (pipereadFrom_quiet quiet page _ addr _ _) fun _ => quiet.pure _
  unfold piperead
  refine quiet.bind quiet.get fun s => quiet.ite ?_ drain
  exact quiet.bind (proc_quiet quiet p) fun proc => quiet.ite (quiet.pure _) (quiet.pure _)

theorem pipewriteFrom_quiet (p : Pid) (page addr count i : Nat) :
    P (pipewriteFrom (W := W) p page addr count i) := by
  induction count generalizing i with
  | zero => exact quiet.pure _
  | succ count ih =>
      unfold pipewriteFrom
      refine quiet.bind quiet.get fun s => quiet.bind (proc_quiet quiet p) fun proc => ?_
      refine quiet.ite (quiet.pure _) (quiet.ite (quiet.pure _) ?_)
      refine quiet.bind (proc_quiet quiet p) fun proc => quiet.bind (quiet.vm _) fun copied => ?_
      exact quiet.ite (quiet.bind (quiet.modifyPipe _ _) fun _ => ih _) (quiet.pure _)

end Pipes

section Memory

theorem growproc_quiet (p : Pid) (n : Int) : P (growproc (W := W) p n) := by
  have grown : ∀ sz, P (modifyProc (W := W) p fun p => { p with sz }) := fun sz =>
    quiet.modifyProc p (fun _ => rfl) (fun _ => rfl) fun _ => rfl
  unfold growproc
  refine quiet.bind (proc_quiet quiet p) fun proc => quiet.ite ?_ (quiet.ite ?_ (quiet.pure _))
  · refine quiet.bind (quiet.vm _) fun sz => quiet.ite (quiet.pure _) ?_
    exact quiet.bind (grown sz) fun _ => quiet.pure _
  · refine quiet.bind (quiet.vm _) fun sz => ?_
    exact quiet.bind (grown sz) fun _ => quiet.pure _

theorem sysSbrk_quiet (p : Pid) (n : Int) : P (sysSbrk (W := W) p n) := by
  unfold sysSbrk
  refine quiet.bind (proc_quiet quiet p) fun proc => ?_
  refine quiet.bind (growproc_quiet quiet p n) fun r => ?_
  exact quiet.ite (quiet.pure _) (quiet.pure _)

theorem loadsegFrom_quiet [BlockLayer W] (pagetable va : Nat) {ip : Slot} (reads : Reads P ip)
    (offset sz count i : Nat) :
    P (loadsegFrom (W := W) pagetable va ip offset sz count i) := by
  induction count generalizing i with
  | zero => exact quiet.pure _
  | succ count ih =>
      have page : PGSIZE < 2 ^ 32 := by decide
      unfold loadsegFrom
      refine quiet.bind (quiet.vm _) fun page => quiet.ite (quiet.halt (by decide)) ?_
      dsimp only
      refine quiet.bind (reads _ _ _ (by split <;> omega)) fun read => ?_
      exact quiet.bind (quiet.vm _) fun _ => quiet.ite (quiet.pure _) (ih _)

theorem loadseg_quiet [BlockLayer W] (pagetable va : Nat) {ip : Slot} (reads : Reads P ip) (offset sz : Nat) :
    P (loadseg (W := W) pagetable va ip offset sz) :=
  loadsegFrom_quiet quiet pagetable va reads _ _ _ _

theorem execSegments_quiet [BlockLayer W] (pagetable : Nat) {ip : Slot} (reads : Reads P ip)
    (count off sz : Nat) :
    P (execSegments (W := W) pagetable ip count off sz) := by
  induction count generalizing off sz with
  | zero => exact quiet.pure _
  | succ count ih =>
      unfold execSegments
      refine quiet.bind (reads _ _ _ (by decide)) fun read => quiet.ite (quiet.pure _) ?_
      dsimp only
      refine quiet.ite (ih _ _) (quiet.ite (quiet.pure _) (quiet.ite (quiet.pure _) ?_))
      refine quiet.ite (quiet.pure _) (quiet.bind (quiet.vm _) fun sz1 => ?_)
      refine quiet.ite (quiet.pure _) (quiet.bind (loadseg_quiet quiet _ _ reads _ _) fun loaded => ?_)
      exact quiet.ite (ih _ _) (quiet.pure _)

theorem pushArgs_quiet (pagetable stackbase : Nat) (argv : List (List UInt8)) (sp : Nat)
    (ustack : List Nat) : P (pushArgs (W := W) pagetable stackbase argv sp ustack) := by
  induction argv generalizing sp ustack with
  | nil => exact quiet.pure _
  | cons arg rest ih =>
      unfold pushArgs
      refine quiet.ite (quiet.pure _) ?_
      dsimp only
      refine quiet.ite (quiet.pure _) (quiet.bind (quiet.vm _) fun copied => ?_)
      exact quiet.ite (ih _ _) (quiet.pure _)

theorem buildStack_quiet (pagetable sz : Nat) (argv : List (List UInt8)) :
    P (buildStack (W := W) pagetable sz argv) := by
  unfold buildStack
  refine quiet.bind (pushArgs_quiet quiet _ _ _ _ _) fun pushed => ?_
  cases pushed with
  | none => exact quiet.pure _
  | some stack =>
      dsimp only
      refine quiet.ite (quiet.pure _) (quiet.bind (quiet.vm _) fun copied => ?_)
      exact quiet.ite (quiet.pure _) (quiet.pure _)

theorem execStack_quiet [BlockLayer W] (p : Pid) (pagetable sz : Nat) (path : Fs.Path) (entry : Nat)
    (argv : List (List UInt8)) : P (execStack (W := W) p pagetable sz path entry argv) := by
  have bad : ∀ sz, P (execBad (W := W) (some pagetable) sz none) := fun sz =>
    quiet.bind (quiet.vm _) fun _ => quiet.pure _
  unfold execStack
  refine quiet.bind (proc_quiet quiet p) fun s => ?_
  dsimp only
  refine quiet.bind (quiet.vm _) fun sz1 => quiet.ite (bad _) ?_
  generalize sz1 - 2 * PGSIZE = guardPage
  refine quiet.bind (quiet.vm _) fun _ => quiet.bind (buildStack_quiet quiet _ _ _) fun built => ?_
  cases built with
  | none => exact bad _
  | some sp =>
      refine quiet.bind (proc_quiet quiet p) fun s' => quiet.bind (quiet.vm _) fun _ => ?_
      refine quiet.bind (quiet.modifyProc p (fun _ => ?_) (fun _ => ?_) fun _ => ?_) fun _ => ?_
      · rfl
      · rfl
      · rfl
      · refine quiet.bind (quiet.vm _) fun _ => quiet.bind (quiet.vm _) fun _ => ?_
        exact quiet.bind (quiet.vm _) fun _ => quiet.pure _

theorem freeArgs_quiet (pages : List Nat) : P (freeArgs (W := W) pages) := by
  induction pages with
  | nil => exact quiet.pure _
  | cons page rest ih => exact quiet.bind (quiet.vm _) fun _ => ih

theorem collectArgs_quiet (args : Nat → Arg) (fuel i : Nat) (pages : List Nat)
    (argv : List (List UInt8)) : P (collectArgs (W := W) args fuel i pages argv) := by
  induction fuel generalizing i pages argv with
  | zero => exact quiet.pure _
  | succ fuel ih =>
      unfold collectArgs
      cases args i with
      | noAddress => exact quiet.pure _
      | null => exact quiet.pure _
      | noString =>
          refine quiet.bind (quiet.vm _) fun got => ?_
          cases got <;> exact quiet.pure _
      | string s =>
          refine quiet.bind (quiet.vm _) fun got => ?_
          cases got with
          | none => exact quiet.pure _
          | some page => exact ih _ _ _

end Memory

end PaddleOs.Kernel

import PaddleOs.ExecImage

/-!
The arguments that `exec` puts on the user stack: the strings downwards from the top, each at
a multiple of 16, and below them the array of their addresses with a null pointer behind it.
-/

namespace PaddleOs.Kernel

open Foundation.Outcome Foundation.Overlay
open Foundation.LittleEndian (getLE putLE getLE_moved getLE_putLE_same)
open Fs (Path)

section Layout

variable {argv : List (List UInt8)} {arg : List UInt8} {sz : Nat}

/-- The next multiple of 16. -/
def aligned (n : Nat) : Nat := (n + 15) / 16 * 16

/-- The stack below the top that the strings take, each with its NUL. -/
def stringSpace (argv : List (List UInt8)) : Nat := (argv.map fun arg => aligned (arg.length + 1)).sum

/-- The stack that the strings and the array of pointers take. -/
def stackSpace (argv : List (List UInt8)) : Nat := stringSpace argv + aligned ((argv.length + 1) * 8)

/-- Where the first `n` strings end. -/
def stringAddress (sz : Nat) (argv : List (List UInt8)) (n : Nat) : Nat := sz - stringSpace (argv.take n)

/-- The addresses of the strings. -/
def pointers (sz : Nat) (argv : List (List UInt8)) : List Nat :=
  (List.range argv.length).map fun i => stringAddress sz argv (i + 1)

theorem aligned_le (n : Nat) : n ≤ aligned n ∧ aligned n < n + 16 := by
  unfold aligned
  omega

theorem stringSpace_append (argv : List (List UInt8)) (arg : List UInt8) :
    stringSpace (argv ++ [arg]) = stringSpace argv + aligned (arg.length + 1) := by
  simp [stringSpace]

theorem stringSpace_mod (argv : List (List UInt8)) : stringSpace argv % 16 = 0 := by
  unfold stringSpace
  induction argv with
  | nil => rfl
  | cons arg rest ih =>
      rw [List.map_cons, List.sum_cons, Nat.add_mod, ih]
      unfold aligned
      omega

theorem stringSpace_take_succ {i : Nat} (bound : i < argv.length) :
    stringSpace (argv.take (i + 1)) = stringSpace (argv.take i) + aligned (argv[i].length + 1) := by
  rw [List.take_succ_eq_append_getElem bound, stringSpace_append]

theorem stringSpace_take_le (argv : List (List UInt8)) (i : Nat) : stringSpace (argv.take i) ≤ stringSpace argv := by
  unfold stringSpace
  rw [List.map_take]
  exact List.Sublist.sum_le_sum (List.take_sublist _ _) fun _ _ => Nat.zero_le _

theorem pointers_length (sz : Nat) (argv : List (List UInt8)) : (pointers sz argv).length = argv.length := by
  unfold pointers
  rw [List.length_map, List.length_range]

theorem pointers_getElem (sz : Nat) {i : Nat} (bound : i < (pointers sz argv).length) :
    (pointers sz argv)[i] = stringAddress sz argv (i + 1) := by
  simp only [pointers, List.getElem_map, List.getElem_range]

theorem pointers_append (sz : Nat) (argv : List (List UInt8)) (arg : List UInt8) :
    pointers sz (argv ++ [arg]) = pointers sz argv ++ [sz - stringSpace (argv ++ [arg])] := by
  unfold pointers
  rw [List.length_append, List.length_singleton, List.range_succ, List.map_append, List.map_singleton]
  refine congrArg₂ _ (List.map_congr_left fun i here => ?_) ?_
  · have below : i + 1 ≤ argv.length := List.mem_range.mp here
    unfold stringAddress
    rw [List.take_append_of_le_length below]
  · unfold stringAddress
    rw [List.take_of_length_le (by simp)]

/-- The stack pointer moves down and to a multiple of 16. -/
theorem alignDown_sub {sp n : Nat} (multiple : sp % 16 = 0) (room : n ≤ sp) :
    alignDown (sp - n) = sp - aligned n := by
  unfold alignDown aligned
  omega

/-- It does not wrap around. -/
theorem word64_down {sp n : Nat} (low : sp < 2 ^ 64) (room : n ≤ sp) : word64 (sp + 2 ^ 64 - n) = sp - n := by
  unfold word64
  omega

end Layout

section Words

variable {image : Nat → UInt8} {a : Nat}

theorem wordBytes_length (n : Nat) : (wordBytes n).length = 8 := by
  unfold wordBytes
  rw [List.length_map, List.length_range]

/-- The eight bytes of a word are read back as the word. -/
theorem getLE_word {n : Nat} (small : n < 2 ^ 64) (stands : Stands image a (wordBytes n)) :
    getLE image a 8 = n := by
  rw [← getLE_putLE_same (fun _ => 0) 0 8 n small]
  refine getLE_moved _ _ 8 a 0 fun i bound => ?_
  rw [stands i (by rw [wordBytes_length]; exact bound), Nat.zero_add]
  simp only [wordBytes, List.getElem_map, List.getElem_range]

theorem words_length (words : List Nat) : (words.flatMap wordBytes).length = words.length * 8 := by
  induction words with
  | nil => rfl
  | cons word rest ih =>
      rw [List.flatMap_cons, List.length_append, wordBytes_length, ih, List.length_cons]
      omega

theorem Stands.words {words : List Nat} : ∀ {a : Nat}, Stands image a (words.flatMap wordBytes) →
    ∀ i (bound : i < words.length), Stands image (a + 8 * i) (wordBytes words[i]) := by
  induction words with
  | nil => exact fun _ i bound => absurd bound (Nat.not_lt_zero i)
  | cons word rest ih =>
      intro a stands i bound j inside
      rw [wordBytes_length] at inside
      have lengths := words_length rest
      cases i with
      | zero =>
          have byte := stands j (by rw [words_length, List.length_cons]; omega)
          simp only [List.flatMap_cons] at byte
          rw [List.getElem_append_left (by rw [wordBytes_length]; exact inside)] at byte
          exact byte
      | succ i =>
          have tail : Stands image (a + 8) (rest.flatMap wordBytes) := by
            intro k below
            have byte := stands (8 + k) (by rw [words_length] at below ⊢; rw [List.length_cons]; omega)
            simp only [List.flatMap_cons] at byte
            rw [List.getElem_append_right (by rw [wordBytes_length]; omega)] at byte
            simp only [wordBytes_length, Nat.add_sub_cancel_left] at byte
            rw [Nat.add_assoc]
            exact byte
          have byte := ih tail i (Nat.lt_of_succ_lt_succ bound) j (by rw [wordBytes_length]; exact inside)
          rw [show a + 8 * (i + 1) + j = a + 8 + 8 * i + j by omega]
          exact byte

end Words

section Stack

variable {W : Type} {s₀ s : State W} {p : Pid} {g₀ g : Vm.Ledger} {ram₀ ram : Vm.Ram} {n : Nat}
variable {image₀ image : Nat → UInt8} {fabric : Fabric} {argv : List (List UInt8)}

/-- A copy to the page of the stack goes through. -/
theorem Woven.copyout (woven : Woven s₀ p g₀ ram₀ n image fabric ram g) {va : Nat} {src : List UInt8}
    (low : fabric.sz - PGSIZE ≤ va) (high : va + src.length ≤ fabric.sz) :
    outcome (Vm.copyout fabric.pagetable va src)
      (fun ok after => ok = true ∧ Woven s₀ p g₀ ram₀ n (overlay image va src) fabric after g)
      (fun _ _ => False) ram := by
  have agrees := woven.built.edited.agrees
  have root := woven.built.edited.root
  have few := agrees.few woven.shape.low woven.shape.pages
  have size := woven.size
  refine outcome_post (Vm.copyout_shows woven.built (Vm.userMap_of_shape agrees root woven.shape) woven.holds
    (fun k here => by omega) fun i bound => .inr ?_) ?_
  · unfold PGSIZE at *
    omega
  · rintro ok after ⟨done, -, built, holds⟩
    exact ⟨done, built, woven.shape, size, woven.guard, holds, woven.oldsz, woven.entry⟩

/-- The strings stand on the stack, and the image below the stack is the same. -/
structure Stacked (image₀ : Nat → UInt8) (sz : Nat) (argv : List (List UInt8)) (image : Nat → UInt8) :
    Prop where
  strings : ∀ i (bound : i < argv.length), Stands image (stringAddress sz argv (i + 1)) (argv[i] ++ [0])
  below : ∀ a, a < sz - PGSIZE → image a = image₀ a

/-- One more string below the others. -/
theorem Stacked.push {sz : Nat} {arg : List UInt8} (stacked : Stacked image₀ sz argv image)
    (large : PGSIZE ≤ sz) (room : stringSpace (argv ++ [arg]) ≤ PGSIZE) :
    Stacked image₀ sz (argv ++ [arg]) (overlay image (sz - stringSpace (argv ++ [arg])) (arg ++ [0])) where
  strings i bound := by
    rw [stringSpace_append] at room
    have width := (aligned_le (arg.length + 1)).1
    by_cases old : i < argv.length
    · have inside := stringSpace_take_le argv (i + 1)
      have address : stringAddress sz (argv ++ [arg]) (i + 1) = stringAddress sz argv (i + 1) := by
        unfold stringAddress
        rw [List.take_append_of_le_length old]
      rw [address, List.getElem_append_left old]
      refine (stacked.strings i old).overlay_apart (.inr ?_)
      unfold stringAddress
      rw [stringSpace_append, List.length_append, List.length_singleton]
      omega
    · obtain rfl : i = argv.length := by
        rw [List.length_append, List.length_singleton] at bound
        omega
      have address : stringAddress sz (argv ++ [arg]) (argv.length + 1) =
          sz - stringSpace (argv ++ [arg]) := by
        unfold stringAddress
        rw [List.take_of_length_le (by simp)]
      rw [address, List.getElem_concat_length]
      · exact overlay_stands _ _ _
      · rfl
  below a low := by
    rw [overlay_below _ _ (by omega)]
    exact stacked.below a low

/-- The loop over the strings. -/
theorem pushArgs_fills (few : argv.length ≤ MAXARG) (short : ∀ arg ∈ argv, arg.length < PGSIZE)
    (rest : List (List UInt8)) :
    ∀ (before : List (List UInt8)) (image : Nat → UInt8) (s : State W), before ++ rest = argv →
      stringSpace before ≤ PGSIZE → Woven s₀ p g₀ ram₀ n image fabric s.ram g →
      Stacked image₀ fabric.sz before image →
      outcome (pushArgs fabric.pagetable (fabric.sz - PGSIZE) rest (fabric.sz - stringSpace before)
        (pointers fabric.sz before))
        (fun got s' => ∃ ram image', s' = { s with ram } ∧ Woven s₀ p g₀ ram₀ n image' fabric ram g ∧
          match got with
          | none => PGSIZE < stringSpace argv
          | some (ustack, sp) => stringSpace argv ≤ PGSIZE ∧ ustack = pointers fabric.sz argv ∧
              sp = fabric.sz - stringSpace argv ∧ Stacked image₀ fabric.sz argv image')
        NoFault s := by
  induction rest with
  | nil =>
      rintro before image s same room woven stacked
      rw [List.append_nil] at same
      subst same
      exact ⟨s.ram, image, rfl, woven, room, rfl, rfl, stacked⟩
  | cons arg rest ih =>
      intro before image s same room woven stacked
      have size := woven.size
      have pages := woven.built.edited.agrees.few woven.shape.low woven.shape.pages
      have large : 2 * PGSIZE ≤ fabric.sz := by
        rw [size]
        exact Nat.mul_le_mul_right _ (by omega)
      have low : fabric.sz ≤ 0x8000 * PGSIZE := by
        rw [size]
        exact Nat.mul_le_mul_right _ pages
      have small : arg.length < PGSIZE := short arg (by rw [← same]; simp)
      have multiple := stringSpace_mod before
      have count : before.length < argv.length := by
        rw [← same, List.length_append, List.length_cons]
        omega
      have width := (aligned_le (arg.length + 1)).1
      have whole : (before ++ [arg]) ++ rest = argv := by rw [← same, List.append_assoc, List.singleton_append]
      have first : argv.take (before ++ [arg]).length = before ++ [arg] := by rw [← whole, List.take_left' rfl]
      have total := stringSpace_take_le argv (before ++ [arg]).length
      rw [first, stringSpace_append] at total
      have down : alignDown (word64 (fabric.sz - stringSpace before + 2 ^ 64 - (arg.length + 1))) =
          fabric.sz - stringSpace (before ++ [arg]) := by
        unfold PGSIZE at *
        rw [word64_down (by omega) (by omega), alignDown_sub (by omega) (by omega), stringSpace_append]
        omega
      unfold pushArgs
      rw [pointers_length, if_neg (by omega)]
      dsimp only
      rw [down, outcome_ite]
      refine ⟨fun past => ?_, fun fits => ?_⟩
      · refine ⟨s.ram, image, rfl, woven, ?_⟩
        rw [stringSpace_append] at past
        change PGSIZE < stringSpace argv
        omega
      · have room' : stringSpace (before ++ [arg]) ≤ PGSIZE := by
          rw [stringSpace_append] at fits ⊢
          omega
        refine vm_then (woven.copyout (by omega) ?_) ?_
        · rw [List.length_append, List.length_singleton, stringSpace_append]
          rw [stringSpace_append] at room'
          omega
        · rintro ok ram ⟨rfl, woven'⟩
          rw [if_pos rfl, ← pointers_append]
          refine outcome_post (ih (before ++ [arg]) _ { s with ram } whole room' woven'
            (stacked.push (by omega) room')) ?_
          rintro got _ ⟨ram', image', rfl, rest⟩
          exact ⟨ram', image', rfl, rest⟩

/-- The strings and the array of their addresses stand on the stack when there is room, and otherwise
there is none. -/
theorem buildStack_fills (few : argv.length < MAXARG) (short : ∀ arg ∈ argv, arg.length < PGSIZE)
    (woven : Woven s₀ p g₀ ram₀ n image fabric s.ram g) :
    outcome (buildStack fabric.pagetable fabric.sz argv)
      (fun got s' => ∃ ram image', s' = { s with ram } ∧ Woven s₀ p g₀ ram₀ n image' fabric ram g ∧
        match got with
        | none => PGSIZE < stackSpace argv
        | some sp => stackSpace argv ≤ PGSIZE ∧ sp = fabric.sz - stackSpace argv ∧
            Stacked image fabric.sz argv image' ∧
            Stands image' sp ((pointers fabric.sz argv ++ [0]).flatMap wordBytes))
      NoFault s := by
  have size := woven.size
  have pages := woven.built.edited.agrees.few woven.shape.low woven.shape.pages
  have large : 2 * PGSIZE ≤ fabric.sz := by
    rw [size]
    exact Nat.mul_le_mul_right _ (by omega)
  have low : fabric.sz ≤ 0x8000 * PGSIZE := by
    rw [size]
    exact Nat.mul_le_mul_right _ pages
  have multiple := stringSpace_mod argv
  have width := (aligned_le ((argv.length + 1) * 8)).1
  have page : 0 < PGSIZE := by decide
  have empty : Stacked image fabric.sz [] image := ⟨fun i none_ => absurd none_ (Nat.not_lt_zero i), fun _ _ => rfl⟩
  unfold buildStack
  refine outcome_seq (pushArgs_fills (Nat.le_of_lt few) short argv [] image s rfl (Nat.zero_le _) woven empty) ?_
  rintro got _ ⟨ram, image', rfl, woven', filled⟩
  cases got with
  | none =>
      refine ⟨ram, image', rfl, woven', ?_⟩
      change PGSIZE < stringSpace argv at filled
      change PGSIZE < stackSpace argv
      unfold stackSpace
      omega
  | some filled_ =>
      have room := filled.1
      have stacked := filled.2.2.2
      have down : alignDown (word64 (fabric.sz - stringSpace argv + 2 ^ 64 - (argv.length + 1) * 8)) =
          fabric.sz - stackSpace argv := by
        unfold PGSIZE at *
        unfold MAXARG at few
        rw [word64_down (by omega) (by omega), alignDown_sub (by omega) (by omega)]
        unfold stackSpace
        omega
      dsimp only
      rw [filled.2.1, filled.2.2.1, pointers_length, down, outcome_ite]
      refine ⟨fun past => ?_, fun fits => ?_⟩
      · refine ⟨ram, image', rfl, woven', ?_⟩
        change PGSIZE < stackSpace argv
        omega
      · have fits' : stackSpace argv ≤ PGSIZE := by omega
        have length : ((pointers fabric.sz argv ++ [0]).flatMap wordBytes).length = (argv.length + 1) * 8 := by
          rw [words_length, List.length_append, pointers_length, List.length_singleton]
        refine vm_then (s := { s with ram }) (woven'.copyout (by omega) ?_) ?_
        · rw [length]
          unfold stackSpace at *
          omega
        · rintro ok ram' ⟨rfl, woven''⟩
          rw [if_pos rfl]
          refine ⟨ram', _, rfl, woven'', fits', rfl, ⟨fun i bound => ?_, fun a below => ?_⟩, overlay_stands _ _ _⟩
          · refine (stacked.strings i bound).overlay_apart (.inr ?_)
            have inside := stringSpace_take_le argv (i + 1)
            rw [length]
            unfold stringAddress stackSpace at *
            omega
          · rw [overlay_below _ _ (by omega)]
            exact stacked.below a below

end Stack

section Start

variable {W : Type} {s₀ s : State W} {p : Pid} {g₀ g : Vm.Ledger} {ram₀ ram : Vm.Ram} {n sp : Nat}
variable {image : Nat → UInt8} {fabric : Fabric} {argv : List (List UInt8)}

/-- The process reads this byte at `va`. -/
def Sees (s : State W) (p : Pid) (va : Nat) (value : UInt8) : Prop :=
  ∃ pte, Vm.mapping s.ram (s.proc p).pagetable va = some pte ∧ pte.perm.u = true ∧
    Vm.byteAt s.ram (s.proc p).pagetable va = some value

/-- The eight bytes of a register in the trapframe. -/
def register (s : State W) (p : Pid) (offset : Nat) : Nat := getLE (s.ram.byte (s.proc p).trapframe) offset 8

/-- The process runs the new image, with the stack pointer at `sp`. -/
structure Started (s : State W) (p : Pid) (path : Path) (n : Nat) (image : Nat → UInt8) (fabric : Fabric)
    (sp : Nat) (s' : State W) : Prop where
  proc : s'.proc p = { s.proc p with name := lastName path, pagetable := fabric.pagetable, sz := fabric.sz }
  sees : ∀ va, va / PGSIZE < n ∨ va / PGSIZE = n + 1 → Sees s' p va (image va)
  guard : ∀ va, va / PGSIZE = n →
    ∃ pte, Vm.mapping s'.ram (s'.proc p).pagetable va = some pte ∧ pte.perm.u = false
  a1 : register s' p Vm.TF_A1 = sp
  sp : register s' p Vm.TF_SP = sp
  epc : register s' p Vm.TF_EPC = fabric.entry
  housed : ∃ g', Housed s' p g'

/-- A word is stored into a page of the kernel. -/
theorem putWord_spec (page offset word : Nat) :
    outcome (Vm.putBytes page offset (wordBytes word))
      (fun _ after => after = { ram with byte := after.byte } ∧
        (∀ q, q ≠ page → after.byte q = ram.byte q) ∧
        (∀ o, o < offset ∨ offset + 8 ≤ o → after.byte page o = ram.byte page o) ∧
        Stands (after.byte page) offset (wordBytes word))
      (fun _ _ => False) ram := by
  refine outcome_post (Vm.putBytes_spec page (wordBytes word) offset ram) ?_
  rintro - after ⟨same, change, stored⟩
  refine ⟨same, fun q apart => ?_, fun o outside => ?_, fun i bound => stored i bound⟩
  · funext o
    by_contra changed
    exact apart (change q o changed).1
  · by_contra changed
    have inside := (change page o changed).2
    rw [wordBytes_length] at inside
    omega

/-- The registers are set, and the old address space goes. -/
theorem execStart_commits (housed : Housed s₀ p g₀) (woven : Woven s₀ p g₀ ram₀ n image fabric s.ram g)
    (same : s.proc = s₀.proc) (word : sp < 2 ^ 64) (path : Path) (argc : Int) :
    outcome (do
      let old ← proc p
      vm (Vm.putBytes old.trapframe Vm.TF_A1 (wordBytes sp))
      modifyProc p fun p => { p with name := lastName path, pagetable := fabric.pagetable, sz := fabric.sz }
      vm (Vm.putBytes old.trapframe Vm.TF_EPC (wordBytes fabric.entry))
      vm (Vm.putBytes old.trapframe Vm.TF_SP (wordBytes sp))
      vm (Vm.procFreepagetable old.pagetable fabric.oldsz)
      return argc)
      (fun r s' => r = argc ∧ Started s₀ p path n image fabric sp s') NoFault s := by
  have agrees := woven.built.edited.agrees
  have few := agrees.few woven.shape.low woven.shape.pages
  have frame : g.owner (s₀.proc p).trapframe = .kept .trapframe := by
    rw [woven.built.owner (by rw [housed.frame]; exact fun bad => nomatch bad), housed.frame]
  have other : (s₀.proc p).pagetable ≠ fabric.pagetable := by
    intro one
    have free := woven.built.fresh
    rw [← one, housed.root] at free
    cases free
  have root : g.owner (s₀.proc p).pagetable = .table (s₀.proc p).pagetable [] := by
    rw [woven.built.owner (by rw [housed.root]; exact fun bad => nomatch bad), housed.root]
  have shape : Vm.Shape (g.space (s₀.proc p).pagetable) g₀.trampoline (s₀.proc p).trapframe
      (Vm.pagesOf fabric.oldsz) := by
    rw [woven.built.edited.moves.space _ other, woven.oldsz]
    exact housed.shape
  refine proc_then ?_
  rw [same]
  refine vm_then (putWord_spec _ Vm.TF_A1 sp) ?_
  rintro - ram₁ ⟨same₁, others₁, rest₁, a1⟩
  refine modifyProc_then ?_
  refine vm_then (putWord_spec _ Vm.TF_EPC fabric.entry) ?_
  rintro - ram₂ ⟨same₂, others₂, rest₂, epc⟩
  refine vm_then (putWord_spec _ Vm.TF_SP sp) ?_
  rintro - ram₃ ⟨same₃, others₃, rest₃, sp_⟩
  dsimp only at same₁ same₂ same₃ others₂ others₃ rest₂ rest₃
  have agrees₃ : Vm.Agrees Vm.Strict ram₃ g := agrees.congr (by rw [same₃, same₂, same₁])
    (by rw [same₃, same₂, same₁]) (by rw [same₃, same₂, same₁]) (by rw [same₃, same₂, same₁])
  have others : ∀ q, q ≠ (s₀.proc p).trapframe → ram₃.byte q = s.ram.byte q := fun q apart => by
    rw [others₃ q apart, others₂ q apart, others₁ q apart]
  refine vm_then (outcome_mono (outcome_and (Vm.procFreepagetable_spec agrees₃ root shape)
    (Vm.procFreepagetable_gives _ _ ram₃)) (fun _ _ both => both) fun _ _ failed => failed.1) ?_
  rintro - ram₄ ⟨⟨g₄, agrees₄, gone⟩, given⟩
  have keeps : ∀ q, ¬ Vm.Pool (s₀.proc p).pagetable (g.owner q) →
      g₄.owner q = g.owner q ∧ ram₄.byte q = ram₃.byte q := by
    intro q apart
    have owner := gone.rest q apart
    refine ⟨owner, given.byte q fun free => ?_⟩
    rw [(agrees₄.free q).mp free] at owner
    rw [← owner] at apart
    exact apart trivial
  have frame₄ := keeps (s₀.proc p).trapframe (by rw [frame]; exact id)
  have root₄ := keeps fabric.pagetable (by rw [woven.built.edited.root]; exact fun one => other one.symm)
  have space : g₄.space fabric.pagetable = g.space fabric.pagetable := gone.space _ (Ne.symm other)
  have shape₄ : Vm.Shape (g₄.space fabric.pagetable) g₄.trampoline (s₀.proc p).trapframe
      (Vm.pagesOf fabric.sz) := by
    rw [space, gone.trampoline, woven.built.edited.moves.trampoline, woven.size, Vm.pagesOf_mul]
    exact woven.shape
  have holds : Vm.Shows ram₄ (g₄.space fabric.pagetable) (fun k => k < n ∨ k = n + 1) image := by
    refine woven.holds.keeps (fun k _ => by rw [space]) fun k pte here maps => ?_
    have low : k < TRAPFRAME / PGSIZE := Vm.user_low (by omega)
    rw [given.mapped agrees₄ low (space ▸ maps), others _ fun one => ?_]
    have owned := (agrees.target _ k pte maps).2 (Vm.ordinary_of_lt low)
    rw [one, frame] at owned
    cases owned
  have now : ∀ s' : State W, s'.ram = ram₄ →
      s'.proc p = { s₀.proc p with name := lastName path, pagetable := fabric.pagetable, sz := fabric.sz } →
      Started s₀ p path n image fabric sp s' := by
    intro s' memory process
    have low : ∀ va, va / PGSIZE ≤ n + 1 → va < MAXVA := fun va below => Vm.user_address (by omega)
    refine ⟨process, fun va here => ?_, fun va here => ?_, ?_, ?_, ?_, g₄, ?_⟩
    · unfold Sees
      rw [memory, process]
      exact holds.byteAt agrees₄ (root₄.1.trans woven.built.edited.root) (low va (by omega)) here
    · obtain ⟨pte, maps, hidden⟩ := woven.guard
      refine ⟨pte, ?_, hidden⟩
      rw [memory, process]
      dsimp only
      rw [Vm.mapping_space agrees₄ (root₄.1.trans woven.built.edited.root) (low va (by omega)), space, here, maps]
    · unfold register
      rw [memory, process]
      dsimp only
      rw [frame₄.2]
      refine getLE_word word fun i bound => ?_
      rw [wordBytes_length] at bound
      rw [rest₃ _ (by unfold Vm.TF_A1 Vm.TF_SP; omega), rest₂ _ (by unfold Vm.TF_A1 Vm.TF_EPC; omega)]
      exact a1 i (by rw [wordBytes_length]; exact bound)
    · unfold register
      rw [memory, process]
      dsimp only
      rw [frame₄.2]
      exact getLE_word word sp_
    · unfold register
      rw [memory, process]
      dsimp only
      rw [frame₄.2]
      refine getLE_word woven.entry fun i bound => ?_
      rw [wordBytes_length] at bound
      rw [rest₃ _ (by unfold Vm.TF_EPC Vm.TF_SP; omega)]
      exact epc i (by rw [wordBytes_length]; exact bound)
    · exact
        { agrees := by rw [memory]; exact agrees₄
          frame := by rw [process]; exact frame₄.1.trans frame
          root := by rw [process]; exact root₄.1.trans woven.built.edited.root
          shape := by rw [process]; exact shape₄ }
  refine ⟨rfl, now _ rfl ?_⟩
  change Function.update s.proc p _ p = _
  rw [Function.update_self, same]

end Start

end PaddleOs.Kernel

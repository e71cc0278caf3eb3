import PaddleOs.FailedExec

/-!
What `exec` passes to the new program: as many strings as `sys_exec` collected, each byte for
byte, below the top of the stack, with the array of their addresses where `a1` and the stack
pointer point to.
-/

namespace PaddleOs.Kernel

open Foundation.Outcome Foundation.Overlay Foundation.View
open Foundation.LittleEndian (getLE)
open Fs (Path)

variable {W : Type} {s s₀ s' : State W} {p : Pid} {path : Path} {g g' : Vm.Ledger} {ram : Vm.Ram}
variable {argv : List (List UInt8)} {image : Nat → UInt8} {fabric : Fabric} {n : Nat}

section Collecting

/-- The strings are those of the elements before the first null pointer. -/
structure Collected (args : Nat → Arg) (argv : List (List UInt8)) : Prop where
  count : argv.length < MAXARG
  string : ∀ (i : Nat) arg, argv[i]? = some arg → args i = .string arg
  null : args argv.length = .null

theorem collectArgs_collects (args : Nat → Arg) (fuel : Nat) :
    ∀ (i : Nat) (pages : List Nat) (argv : List (List UInt8)) (s : State W), i + fuel = MAXARG →
      argv.length = i → (∀ j arg, argv[j]? = some arg → args j = .string arg) →
      outcome (collectArgs args fuel i pages argv)
        (fun result _ => ∀ argv ∈ result.2, Collected args argv) (fun _ _ => True) s := by
  induction fuel with
  | zero => exact fun _ _ _ _ _ _ _ _ none_ => absurd none_ (Option.not_mem_none _)
  | succ fuel ih =>
      intro i pages argv s total length strings
      unfold collectArgs
      cases element : args i with
      | noAddress => exact fun _ none_ => absurd none_ (Option.not_mem_none _)
      | null =>
          rintro _ ⟨⟩
          exact ⟨by omega, strings, by rw [length]; exact element⟩
      | noString =>
          refine outcome_seq (follows_true _ s) fun got s' _ => ?_
          cases got with
          | none => exact fun _ none_ => absurd none_ (Option.not_mem_none _)
          | some page => exact fun _ none_ => absurd none_ (Option.not_mem_none _)
      | string string =>
          refine outcome_seq (follows_true _ s) fun got s' _ => ?_
          cases got with
          | none => exact fun _ none_ => absurd none_ (Option.not_mem_none _)
          | some page =>
              refine ih (i + 1) _ (argv ++ [string]) s' (by omega) (by simp [length]) fun j arg here => ?_
              by_cases old : j < argv.length
              · rw [List.getElem?_append_left old] at here
                exact strings j arg here
              · have bound := (List.getElem?_eq_some_iff.mp here).1
                rw [List.length_append, List.length_singleton] at bound
                obtain rfl : j = argv.length := by omega
                rw [List.getElem?_concat_length] at here
                rw [length, element, Option.some.inj here]

end Collecting

section Passing

/-- The array at `sp` leads to the strings. Both stand in the page of the stack and nothing of
them overlaps. -/
structure Passed (s : State W) (p : Pid) (argv : List (List UInt8)) (image : Nat → UInt8)
    (addresses : List Nat) (sp : Nat) : Prop where
  sees : ∀ va, (s.proc p).sz - PGSIZE ≤ va → va < (s.proc p).sz → Sees s p va (image va)
  a1 : register s p Vm.TF_A1 = sp
  stackPointer : register s p Vm.TF_SP = sp
  multiple : sp % 16 = 0
  low : (s.proc p).sz - PGSIZE ≤ sp
  count : addresses.length = argv.length
  pointer : ∀ (i a : Nat), addresses[i]? = some a → getLE image (sp + 8 * i) 8 = a
  null : getLE image (sp + 8 * argv.length) 8 = 0
  string : ∀ (i a : Nat) arg, addresses[i]? = some a → argv[i]? = some arg → Stands image a (arg ++ [0])
  inside : ∀ (i a : Nat) arg, addresses[i]? = some a → argv[i]? = some arg →
    sp + 8 * (argv.length + 1) ≤ a ∧ a + (arg.length + 1) ≤ (s.proc p).sz
  apart : ∀ (i j a b : Nat) arg, i < j → addresses[i]? = some a → addresses[j]? = some b → argv[j]? = some arg →
    b + (arg.length + 1) ≤ a

/-- The subtractions from the stack pointer do not wrap around, whether the result fits or not. -/
structure Unwrapped (sz : Nat) (argv : List (List UInt8)) : Prop where
  strings : ∀ (i : Nat) arg, argv[i]? = some arg → stringSpace (argv.take i) ≤ PGSIZE →
    arg.length + 1 ≤ stringAddress sz argv i
  array : stringSpace argv ≤ PGSIZE → (argv.length + 1) * 8 ≤ stringAddress sz argv argv.length

theorem Woven.unwrapped {g₀ : Vm.Ledger} {ram₀ : Vm.Ram} (woven : Woven s p g₀ ram₀ n image fabric ram g)
    (few : argv.length < MAXARG) (short : ∀ arg ∈ argv, arg.length < PGSIZE) : Unwrapped fabric.sz argv := by
  have large : 2 * PGSIZE ≤ fabric.sz := by
    rw [woven.size]
    exact Nat.mul_le_mul_right _ (by omega)
  have page : (MAXARG + 1) * 8 ≤ PGSIZE := by decide
  refine ⟨fun i arg here room => ?_, fun room => ?_⟩
  · have small := short arg (List.mem_of_getElem? here)
    unfold stringAddress
    omega
  · unfold stringAddress
    rw [List.take_length]
    omega

theorem pointers_some {sz i a : Nat} (here : (pointers sz argv)[i]? = some a) :
    i < argv.length ∧ a = stringAddress sz argv (i + 1) := by
  obtain ⟨bound, rfl⟩ := List.getElem?_eq_some_iff.mp here
  exact ⟨pointers_length sz argv ▸ bound, pointers_getElem sz bound⟩

/-- Further strings take more of the stack. -/
theorem stringSpace_take_mono {i j : Nat} (le : i ≤ j) :
    stringSpace (argv.take i) ≤ stringSpace (argv.take j) := by
  have first : argv.take i = (argv.take j).take i := by rw [List.take_take, Nat.min_eq_left le]
  rw [first]
  exact stringSpace_take_le _ _

/-- The end of string `i`. -/
theorem stringAddress_end {sz i : Nat} {arg : List UInt8} (here : argv[i]? = some arg)
    (room : stringSpace argv ≤ sz) : stringAddress sz argv (i + 1) + (arg.length + 1) ≤ stringAddress sz argv i := by
  obtain ⟨bound, rfl⟩ := List.getElem?_eq_some_iff.mp here
  have width := (aligned_le (argv[i].length + 1)).1
  have next := stringSpace_take_succ bound
  have inside := stringSpace_take_le argv (i + 1)
  unfold stringAddress
  omega

/-- A stack filled by `exec` is what the program is promised. -/
theorem Started.passed {sp : Nat} {image' : Nat → UInt8} (started : Started s₀ p path n image' fabric sp s')
    (size : fabric.sz = (n + 2) * PGSIZE) (small : fabric.sz < 2 ^ 64) (fits : stackSpace argv ≤ PGSIZE)
    (at_ : sp = fabric.sz - stackSpace argv) (stacked : Stacked image fabric.sz argv image')
    (array : Stands image' sp ((pointers fabric.sz argv ++ [0]).flatMap wordBytes)) :
    Passed s' p argv image' (pointers fabric.sz argv) sp := by
  have top : (s'.proc p).sz = fabric.sz := by rw [started.proc]
  have large : 2 * PGSIZE ≤ fabric.sz := by
    rw [size]
    exact Nat.mul_le_mul_right _ (by omega)
  have multiple := stringSpace_mod argv
  have width := (aligned_le ((argv.length + 1) * 8)).1
  have use : stackSpace argv = stringSpace argv + aligned ((argv.length + 1) * 8) := rfl
  have words : (pointers fabric.sz argv ++ [0]).length = argv.length + 1 := by
    rw [List.length_append, pointers_length, List.length_singleton]
  refine
    { sees := fun va above below => started.sees va (.inr ?_)
      a1 := started.a1
      stackPointer := started.sp
      multiple := ?_
      low := by omega
      count := pointers_length _ _
      pointer := fun i a here => ?_
      null := ?_
      string := fun i a arg here here' => ?_
      inside := fun i a arg here here' => ?_
      apart := fun i j a b arg less here here' here'' => ?_ }
  · unfold PGSIZE at *
    omega
  · have roundness : aligned ((argv.length + 1) * 8) % 16 = 0 := Nat.mul_mod_left _ _
    have even : fabric.sz % 16 = 0 := by
      rw [size]
      unfold PGSIZE
      omega
    omega
  · obtain ⟨bound, rfl⟩ := pointers_some here
    refine getLE_word (Nat.lt_of_le_of_lt (Nat.sub_le _ _) small) ?_
    have word := Stands.words array i (by omega)
    rw [List.getElem_append_left (by rw [pointers_length]; exact bound), pointers_getElem] at word
    exact word
  · refine getLE_word (by decide) ?_
    have word := Stands.words array argv.length (by omega)
    rw [List.getElem_append_right (by rw [pointers_length])] at word
    simp only [pointers_length, Nat.sub_self, List.getElem_cons_zero] at word
    exact word
  · obtain ⟨bound, rfl⟩ := pointers_some here
    obtain ⟨bound', rfl⟩ := List.getElem?_eq_some_iff.mp here'
    exact stacked.strings i bound
  · obtain ⟨bound, rfl⟩ := pointers_some here
    have ends := @stringAddress_end _ fabric.sz _ _ here' (by omega)
    have under := stringSpace_take_le argv (i + 1)
    unfold stringAddress at *
    omega
  · obtain ⟨-, rfl⟩ := pointers_some here
    obtain ⟨-, rfl⟩ := pointers_some here'
    have ends := @stringAddress_end _ fabric.sz _ _ here'' (by omega)
    have order : stringSpace (argv.take (i + 1)) ≤ stringSpace (argv.take j) := stringSpace_take_mono less
    unfold stringAddress at *
    omega

end Passing

section Ending

variable [BlockLayer W] {g₀ : Vm.Ledger} {ram₀ : Vm.Ram} {args : Nat → Arg} {pages : List Nat}

/-- The arguments fit and the process has changed to the new image, or they do not. -/
inductive ExecEnds (known : Prop) (file : List UInt8) (s : State W) (p : Pid) (path : Path)
    (argv : List (List UInt8)) (fabric : Fabric) (r : Int) (s' : State W) : Prop
  | full (result : r = -1) (past : PGSIZE < stackSpace argv)
  | runs {n : Nat} {image image' : Nat → UInt8} (result : r = argv.length) (fits : stackSpace argv ≤ PGSIZE)
      (size : fabric.sz = (n + 2) * PGSIZE)
      (described : known → ∃ elf, Described file elf n image ∧ fabric.entry = elf.entry)
      (stacked : Stacked image fabric.sz argv image')
      (started : Started s p path n image' fabric (fabric.sz - stackSpace argv) s')
      (passed : Passed s' p argv image' (pointers fabric.sz argv) (fabric.sz - stackSpace argv))

theorem Makes.ends {known : Prop} {file : List UInt8} {s₁ : State W} (housed : Housed s p g)
    (makes : Makes known file s p g (some fabric) s₁) (few : argv.length < MAXARG)
    (short : ∀ arg ∈ argv, arg.length < PGSIZE) (path : Path) :
    outcome (execStart p path argv fabric) (ExecEnds known file s p path argv fabric) NoFault s₁ := by
  obtain ⟨fs, ram, g', n, image, rfl, woven, described⟩ := makes
  have pages := woven.built.edited.agrees.few woven.shape.low woven.shape.pages
  have small : fabric.sz < 2 ^ 64 := by
    rw [woven.size]
    unfold PGSIZE
    omega
  unfold execStart
  refine outcome_seq (buildStack_fills (s := { s with fs, ram }) few short woven) ?_
  rintro got _ ⟨ram', image', rfl, woven', filled⟩
  cases got with
  | none =>
      have shape : Vm.Shape (g'.space fabric.pagetable) g.trampoline (s.proc p).trapframe
          (Vm.pagesOf fabric.sz) := by
        rw [woven.size, Vm.pagesOf_mul]
        exact woven.shape
      exact outcome_mono (outcome_and (execBad_undoes (s := { s with fs, ram := ram' }) woven'.built shape none)
        (execBad_returns _ _ _ _)) (fun r s' ended => .full ended.2 filled) fun _ _ failed => failed.1
  | some sp =>
      obtain ⟨fits, rfl, stacked, array⟩ := filled
      refine outcome_post (execStart_commits (s := { s with fs, ram := ram' }) housed woven' rfl
        (Nat.lt_of_le_of_lt (Nat.sub_le _ _) small) path argv.length) ?_
      rintro r s' ⟨rfl, started⟩
      exact .runs rfl fits woven.size described stacked started
        (started.passed woven.size small fits rfl stacked array)

theorem outcome_ran {ε σ α β : Type} {run : EStateM ε σ α} {next : α → EStateM ε σ β} {start after : σ} {value : α}
    {post : β → σ → Prop} {fail : ε → σ → Prop} (ran : run start = .ok value after)
    (rest : outcome (next value) post fail after) : outcome (run >>= next) post fail start := by
  rw [outcome_bind]
  unfold outcome
  rw [ran]
  exact rest

/-- The strings that `sys_exec` collected get to the new program. `exec` fails when they do not
fit in one page, or in a step that does not depend on them. -/
theorem exec_passes_arguments (housed : Housed s₀ p g)
    (short : ∀ i string, args i = .string string → string.length < PGSIZE)
    (collects : collectArgs args MAXARG 0 [] [] s₀ = .ok (pages, some argv) s) (path : Path) :
    Collected args argv ∧
    (∀ got s₁, execFabric p path s = .ok got s₁ →
      outcome (exec p path argv) (fun r _ => r = -1 ↔ got = none ∨ PGSIZE < stackSpace argv) NoFault s ∧
      ∀ fabric ∈ got, Unwrapped fabric.sz argv) ∧
    outcome (exec p path argv)
      (fun r s' => r ≠ -1 → r = argv.length ∧ ∃ image addresses sp, Passed s' p argv image addresses sp)
      NoFault s := by
  have collected : Collected args argv :=
    outcome_of_ok (collectArgs_collects args MAXARG 0 [] [] s₀ (Nat.zero_add _) rfl
      fun j _ none_ => absurd none_ (by simp)) collects argv rfl
  have low : ∀ arg ∈ argv, arg.length < PGSIZE := by
    intro arg here
    obtain ⟨i, at_⟩ := List.getElem?_of_mem here
    exact short i arg (collected.string i arg at_)
  obtain ⟨ram₁, g₁, rfl, agrees, lent, -⟩ := outcome_of_ok
    (collectArgs_lends args MAXARG s₀ g 0 [] [] housed.agrees (.nothing g)) collects
  have housed₁ := housed.lent agrees lent
  have fabricated := execFabric_makes housed₁ (opens_any _ p path) delivers_any
  have fits : ∀ fabric s₁, Makes False [] { s₀ with ram := ram₁ } p g₁ (some fabric) s₁ → outcome
      (execStart p path argv fabric) (ExecEnds False [] { s₀ with ram := ram₁ } p path argv fabric) NoFault s₁ :=
    fun fabric s₁ made => made.ends housed₁ collected.count low path
  refine ⟨collected, fun got s₁ made => ⟨?_, fun fabric here => ?_⟩, ?_⟩
  · have fabric := outcome_of_ok fabricated made
    rw [exec_parts]
    refine outcome_ran made ?_
    cases got with
    | none => exact ⟨fun _ => .inl rfl, fun _ => rfl⟩
    | some fabric_ =>
        refine outcome_post (fits fabric_ s₁ fabric) fun r s' ended => ?_
        cases ended with
        | full result past => exact ⟨fun _ => .inr past, fun _ => result⟩
        | runs result room =>
            refine ⟨fun failed => ?_, fun either => ?_⟩
            · omega
            · rcases either with none_ | past
              · cases none_
              · omega
  · obtain rfl := Option.mem_def.mp here
    obtain ⟨fs, ram, g', n, image, -, woven, -⟩ := outcome_of_ok fabricated made
    exact woven.unwrapped collected.count low
  · rw [exec_parts]
    refine outcome_seq fabricated fun got s₁ made => ?_
    cases got with
    | none => exact fun success => absurd rfl success
    | some fabric =>
        refine outcome_post (fits fabric s₁ made) fun r s' ended success => ?_
        cases ended with
        | full result => exact absurd result success
        | runs result room size described stacked started passed => exact ⟨result, _, _, _, passed⟩

/-- One string of two characters. -/
theorem one_string_passes : ∃ (s₀ s s' : State Journal) (args : Nat → Arg) (pages : List Nat)
    (argv : List (List UInt8)), collectArgs args MAXARG 0 [] [] s₀ = .ok (pages, some argv) s ∧
    exec initproc [97] argv s = .ok 1 s' ∧ argv = [[97, 98]] ∧
    ∃ image addresses sp, Passed s' initproc argv image addresses sp := by
  obtain ⟨s₀, -, -, ⟨g, housed⟩, test⟩ := @installed_such (programFile 64 120)
    (returns (collectArgs (fun i => if i = 0 then .string [97, 98] else .null) MAXARG 0 [] []) fun got s =>
      got.2.any fun argv => returns (exec initproc [97] argv) (fun r _ => decide (r = 1 ∧ argv = [[97, 98]])) s)
    (by decide +kernel)
  obtain ⟨⟨pages, found⟩, s, collects, test⟩ := returns_ok test
  obtain ⟨argv, rfl, test⟩ := (Option.any_eq_true _ _).mp test
  obtain ⟨r, s', ran, test⟩ := returns_ok test
  obtain ⟨rfl, rfl⟩ := of_decide_eq_true test
  have short : ∀ i string, (if i = 0 then Arg.string [97, 98] else .null) = .string string →
      string.length < PGSIZE := by
    intro i string same
    split at same
    · cases same
      decide
    · cases same
  have passes := (exec_passes_arguments housed short collects [97]).2.2
  exact ⟨s₀, s, s', _, pages, _, collects, ran, rfl, (outcome_of_ok passes ran (by decide)).2⟩

end Ending

end PaddleOs.Kernel

import PaddleOs.Pipes
import PaddleOs.System
import PaddleOs.UserCopies

/-!
`piperead` into user memory that may be unmapped anywhere. The loop takes a byte out of the
pipe before `copyout` has delivered it, and a byte that cannot be delivered is lost.
-/

namespace PaddleOs.Kernel

open Foundation.Outcome
open Pipes (held count)

variable {W : Type} {ram : Vm.Ram} {r : Nat}

/-- The counters of a pipe are of type `uint`. -/
structure Pipe.Uint (pi : Pipe) : Prop where
  nread : pi.nread < 2 ^ 32
  nwrite : pi.nwrite < 2 ^ 32

/-- The first `i` bytes of the pipe went to `addr`, nothing else in memory changed, and the
other bytes are still in the pipe. -/
structure Delivers (pi : Pipe) (ram : Vm.Ram) (r addr : Nat) (i : Nat) (pi' : Pipe) (ram' : Vm.Ram) : Prop where
  enough : i ≤ (held pi).length
  copied : ∀ j (bound : j < (held pi).length), j < i →
    Vm.userByte ram' r (word64 (addr + j)) = (held pi)[j]
  only : ∀ page offset, ram'.byte page offset ≠ ram.byte page offset →
    ∃ j < i, page = Vm.target ram r (word64 (addr + j)) ∧ offset = word64 (addr + j) % PGSIZE
  left : held pi' = (held pi).drop i

/-- `piperead` as a reader may use it: if it returns a count, it delivered that many bytes. -/
def ReadsLosslessly (p : Pid) (page addr : Nat) (n : Int) (s : State W) : Prop :=
  outcome (piperead p page addr n)
    (fun result s' => ∀ i, result = some i → 0 ≤ i →
      Delivers (s.pipe page) s.ram (s.proc p).pagetable addr i.toNat (s'.pipe page) s'.ram)
    (fun _ _ => False) s

/-- One byte of a pipe stored in user memory. -/
theorem copyout_byte (map : Vm.UserMap ram r) (va : Nat) (byte : UInt8) :
    outcome (Vm.copyout r va [byte])
      (fun done after => after = { ram with byte := after.byte } ∧ (done = true ↔ Vm.Accessible ram r va) ∧
        (done = true → Vm.userByte after r va = byte) ∧
        ∀ page offset, after.byte page offset ≠ ram.byte page offset →
          done = true ∧ page = Vm.target ram r va ∧ offset = va % PGSIZE)
      (fun _ _ => False) ram := by
  refine outcome_mono (outcome_and (Vm.copyout_spec ram r va [byte])
    (Vm.copyoutFrom_exact map.singly 1 ram va [byte] rfl (Nat.le_refl _))) ?_ fun _ _ failed => failed.1
  rintro done after ⟨copied, exact⟩
  have all : done = true ↔ Vm.target ram r va ≠ 0 := by
    rw [copied.all]
    refine ⟨fun each => each 0 Nat.one_pos, fun found i below => ?_⟩
    obtain rfl : i = 0 := by simpa using below
    exact found
  refine ⟨copied.same, all.trans (map.accessible va).symm, fun ok => ?_, fun page offset changed => ?_⟩
  · refine exact 0 Nat.one_pos fun j upto => ?_
    obtain rfl : j = 0 := by omega
    exact all.mp ok
  · obtain ⟨i, below, reached, place, place'⟩ := copied.change page offset changed
    obtain rfl : i = 0 := by simpa using below
    exact ⟨all.mpr (reached 0 (Nat.le_refl 0)), place.symm, place'.symm⟩

/-- What the loop of `piperead` has done from byte `i` on, after `k` bytes were delivered. -/
structure Drained (pi : Pipe) (ram : Vm.Ram) (r va m k : Nat) (pi' : Pipe) (ram' : Vm.Ram) : Prop where
  within : k ≤ m
  enough : k ≤ (held pi).length
  pte : ram'.pte = ram.pte
  copied : ∀ j (bound : j < (held pi).length), j < k →
    Vm.userByte ram' r (word64 (va + j)) = (held pi)[j]
  only : ∀ page offset, ram'.byte page offset ≠ ram.byte page offset →
    ∃ j < k, page = Vm.target ram r (word64 (va + j)) ∧ offset = word64 (va + j) % PGSIZE
  mapped : ∀ j < k, Vm.Accessible ram r (word64 (va + j))
  stop : k = min m (held pi).length ∧ held pi' = (held pi).drop k ∨
    k < min m (held pi).length ∧ ¬ Vm.Accessible ram r (word64 (va + k)) ∧
      held pi' = (held pi).drop (k + 1)

theorem Drained.none {pi : Pipe} {va m : Nat} (done : min m (held pi).length = 0) :
    Drained pi ram r va m 0 pi ram where
  within := Nat.zero_le m
  enough := Nat.zero_le _
  pte := rfl
  copied j _ below := absurd below (Nat.not_lt_zero j)
  only _ _ changed := absurd rfl changed
  mapped j below := absurd below (Nat.not_lt_zero j)
  stop := .inl ⟨done.symm, rfl⟩

theorem held_short {pi : Pipe} : (held pi).length < 2 ^ 32 := by
  have short : count pi < 2 ^ 32 := by
    unfold Pipes.count
    omega
  simpa [Pipes.held] using short

/-- A byte that was delivered, and then the rest. -/
theorem Drained.turn {pi pi' : Pipe} {middle ram' : Vm.Ram} {va m k : Nat} {byte : UInt8}
    (map : Vm.UserMap ram r) (taken : held pi = byte :: held (Pipes.take pi))
    (pte : middle.pte = ram.pte) (found : Vm.Accessible ram r (word64 va))
    (stored : Vm.userByte middle r (word64 va) = byte)
    (only : ∀ page offset, middle.byte page offset ≠ ram.byte page offset →
      page = Vm.target ram r (word64 va) ∧ offset = word64 va % PGSIZE)
    (rest : Drained (Pipes.take pi) middle r (va + 1) m k pi' ram') :
    Drained pi ram r va (m + 1) (k + 1) pi' ram' := by
  have length : (held pi).length = (held (Pipes.take pi)).length + 1 := by rw [taken, List.length_cons]
  have shift : ∀ j, va + (j + 1) = va + 1 + j := by omega
  have enough := rest.enough
  have short : (held (Pipes.take pi)).length < 2 ^ 32 := held_short
  refine ⟨Nat.succ_le_succ rest.within, by omega, rest.pte.trans pte, ?_, ?_, ?_, ?_⟩
  · intro j bound below
    cases j with
    | zero =>
        -- Later bytes went to other addresses.
        have kept : ram'.byte (Vm.target ram r (word64 va)) (word64 va % PGSIZE) =
            middle.byte (Vm.target ram r (word64 va)) (word64 va % PGSIZE) := by
          by_contra changed
          obtain ⟨j, below', page, offset⟩ := rest.only _ _ changed
          rw [Vm.target_congr pte] at page
          have same := map.apart ((map.accessible _).mp found) page offset
          unfold word64 at same
          omega
        have first : Vm.userByte ram' r (word64 va) = byte := by
          unfold Vm.userByte at stored ⊢
          rw [Vm.target_congr pte] at stored
          rw [Vm.target_congr (rest.pte.trans pte), kept, stored]
        simpa [taken] using first
    | succ j =>
        rw [shift j]
        have tail := rest.copied j (by omega) (by omega)
        simpa [taken] using tail
  · intro page offset changed
    by_cases early : middle.byte page offset = ram.byte page offset
    · rw [← early] at changed
      obtain ⟨j, below, place, place'⟩ := rest.only page offset changed
      refine ⟨j + 1, by omega, ?_, by rw [shift j, place']⟩
      rw [shift j, place, Vm.target_congr pte]
    · obtain ⟨place, place'⟩ := only page offset early
      exact ⟨0, Nat.succ_pos k, place, place'⟩
  · intro j below
    cases j with
    | zero => exact found
    | succ j =>
        rw [shift j]
        exact (Vm.accessible_congr pte _).mp (rest.mapped j (by omega))
  · rcases rest.stop with ⟨all, left⟩ | ⟨fewer, missing, left⟩
    · refine .inl ⟨by omega, ?_⟩
      rw [taken, List.drop_succ_cons, left]
    · refine .inr ⟨by omega, ?_, ?_⟩
      · rw [shift k]
        exact fun accessible => missing ((Vm.accessible_congr pte _).mpr accessible)
      · rw [taken, List.drop_succ_cons, left]

theorem pipereadFrom_spec (page addr m : Nat) : ∀ (i : Nat) (s : State W), Vm.UserMap s.ram r →
    (s.pipe page).Uint →
    outcome (pipereadFrom page r addr m i)
      (fun value s' => ∃ k, value = ((i + k : Nat) : Int) ∧
        Drained (s.pipe page) s.ram r (addr + i) m k (s'.pipe page) s'.ram)
      (fun _ _ => False) s := by
  induction m with
  | zero =>
      intro i s _ _
      exact ⟨0, rfl, .none (Nat.zero_min _)⟩
  | succ m ih =>
      intro i s map uint
      rw [pipereadFrom, outcome_bind, outcome_get]
      dsimp only
      rw [outcome_ite]
      refine ⟨fun empty => ?_, fun some => ?_⟩
      · refine ⟨0, rfl, .none ?_⟩
        have none : held (s.pipe page) = [] := by simp [Pipes.held, Pipes.count, empty]
        rw [none]
        exact Nat.min_zero _
      · have taken := Pipes.held_take uint.nread uint.nwrite some
        unfold modifyPipe vm
        rw [outcome_bind, outcome_modify, outcome_bind, outcome_zoom]
        refine outcome_mono (copyout_byte map (word64 (addr + i)) (Pipes.first (s.pipe page))) ?_
          fun _ _ failed => failed.elim
        rintro done after ⟨same, all, stored, only⟩
        have pte : after.pte = s.ram.pte := by rw [same]
        cases done with
        | true =>
            have left : (Function.update s.pipe page (Pipes.take (s.pipe page))) page =
                Pipes.take (s.pipe page) := Function.update_self _ _ _
            have uint' : ((Function.update s.pipe page (Pipes.take (s.pipe page))) page).Uint := by
              rw [left]
              exact ⟨Nat.mod_lt _ (by decide), uint.nwrite⟩
            refine outcome_post (ih (i + 1) { s with
              ram := after, pipe := Function.update s.pipe page (Pipes.take (s.pipe page)) }
              (map.congr pte) uint') ?_
            rintro value s' ⟨k, rfl, drained⟩
            refine ⟨k + 1, by omega, ?_⟩
            dsimp only at drained
            rw [left] at drained
            exact drained.turn map taken pte (all.mp rfl) (stored rfl)
              fun page offset changed => (only page offset changed).2
        | false =>
            have length : (held (s.pipe page)).length = (held (Pipes.take (s.pipe page))).length + 1 := by
              rw [taken, List.length_cons]
            have missing : ¬ Vm.Accessible s.ram r (word64 (addr + i)) := fun found =>
              absurd (all.mpr found) Bool.false_ne_true
            refine ⟨0, rfl, Nat.zero_le _, Nat.zero_le _, pte, fun j _ below => absurd below (Nat.not_lt_zero j),
              fun page offset changed => ?_, fun j below => absurd below (Nat.not_lt_zero j),
              .inr ⟨by omega, missing, ?_⟩⟩
            · exact absurd (only page offset changed).1 Bool.false_ne_true
            · change held ((Function.update s.pipe page (Pipes.take (s.pipe page))) page) = _
              rw [Function.update_self, taken]
              rfl

/-- A read loses no byte exactly when every byte it takes out of the pipe has a place to go. -/
theorem piperead_lossless_iff {s : State W} {p : Pid} {page : Nat}
    (map : Vm.UserMap s.ram (s.proc p).pagetable) (uint : (s.pipe page).Uint) (addr : Nat) (n : Int) :
    ReadsLosslessly p page addr n s ↔
      ∀ j : Nat, (j : Int) < n → j < (held (s.pipe page)).length →
        Vm.Accessible s.ram (s.proc p).pagetable (word64 (addr + j)) := by
  unfold ReadsLosslessly piperead
  rw [outcome_bind, outcome_get]
  dsimp only
  by_cases waits : (s.pipe page).nread = (s.pipe page).nwrite ∧ (s.pipe page).writeopen = true
  · have none : held (s.pipe page) = [] := by simp [Pipes.held, Pipes.count, waits.1]
    rw [if_pos waits, none]
    refine ⟨fun _ j _ bound => absurd bound (Nat.not_lt_zero j), fun _ => ?_⟩
    change outcome (if (s.proc p).killed then return some (-1) else return Option.none) _ _ s
    rw [outcome_ite]
    refine ⟨fun _ i same positive => ?_, fun _ i same => absurd same (by simp)⟩
    cases same
    omega
  · rw [if_neg waits]
    change outcome (some <$> pipereadFrom page (s.proc p).pagetable addr n.toNat 0) _ _ s ↔ _
    rw [outcome_map]
    obtain ⟨value, s', ran, k, rfl, drained⟩ :=
      outcome_ok (pipereadFrom_spec page addr n.toNat 0 s map uint)
    unfold outcome
    rw [ran]
    simp only [Nat.zero_add, Nat.add_zero] at drained ⊢
    have within := drained.within
    have count : ∀ j : Nat, (j : Int) < n ↔ j < n.toNat := by omega
    rcases drained.stop with ⟨all, left⟩ | ⟨fewer, missing, left⟩
    · constructor
      · intro _ j below bound
        exact drained.mapped j (by have := (count j).mp below; omega)
      · rintro _ i same _
        cases same
        exact ⟨drained.enough, drained.copied, drained.only, left⟩
    · constructor
      · intro delivers
        have lost := (delivers k rfl (Int.natCast_nonneg k)).left
        rw [left] at lost
        have lengths := congrArg List.length lost
        rw [List.length_drop, List.length_drop, Int.toNat_natCast] at lengths
        omega
      · intro mapped
        exact absurd (mapped k ((count k).mpr (by omega)) (by omega)) missing

/-- A pipe that holds one byte, read into a page that is not mapped. -/
def brokenRead : State Store :=
  let start := bss tinyStore tinySuperblock Vm.onePage
  { start with
    pipe := fun _ => { readopen := true, writeopen := true, nread := 0, nwrite := 1, data := fun _ => 97 }
    proc := fun p => { start.proc p with pagetable := 1 } }

theorem brokenRead_pages : Vm.UserMap brokenRead.ram (brokenRead.proc initproc).pagetable ∧
    (brokenRead.pipe 0).Uint := ⟨Vm.onePage_map, by decide, by decide⟩

theorem piperead_lossless_iff_broken : ReadsLosslessly initproc 0 0 1 brokenRead ∧
    ¬ ReadsLosslessly initproc 0 PGSIZE 1 brokenRead := by
  have decides := piperead_lossless_iff brokenRead_pages.1 brokenRead_pages.2
  constructor
  · refine (decides 0 1).mpr fun j below _ => ?_
    obtain rfl : j = 0 := by omega
    exact ⟨_, rfl, rfl, rfl⟩
  · intro lossless
    obtain ⟨pte, found, valid, -⟩ := (decides PGSIZE 1).mp lossless 0 (by decide) (by decide)
    cases found
    cases valid

/-- The byte is gone although the call returns 0. -/
theorem piperead_loses : ¬ ∀ (s : State Store) (p : Pid) (page addr : Nat) (n : Int),
    Vm.UserMap s.ram (s.proc p).pagetable → (s.pipe page).Uint → ReadsLosslessly p page addr n s := by
  intro lossless
  have ran : piperead initproc 0 PGSIZE 1 brokenRead = .ok (some 0) _ := rfl
  have kept := lossless brokenRead initproc 0 PGSIZE 1 brokenRead_pages.1 brokenRead_pages.2
  have delivers := outcome_of_ok kept ran 0 rfl (Int.le_refl 0)
  exact absurd (congrArg List.length delivers.left) (by decide)

end PaddleOs.Kernel

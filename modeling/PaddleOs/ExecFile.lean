import PaddleOs.PassedArgs
import PaddleOs.FileContents
import PaddleOs.FsUndo
import PaddleOs.KernelImages

/-!
The image that `exec` builds from an ELF file: the bytes of each address, the guard page, the
size and the entry point.
-/

namespace PaddleOs.Kernel

open Foundation.Outcome
open Fs (Path Slot JState Good Loaded Ready Over Held)

section Delivery

variable {fs : JState} {v : Volume} {ip : Slot} {i : Nat}

/-- `readi` hands out slices of the contents, wherever it is asked to start. -/
theorem readi_handed (ready : Ready fs v ip i) {off n : Nat} (offset : off < 2 ^ 32) (count : n < 2 ^ 32) :
    Fs.readi ip Fs.kernelAccepts off n fs = .ok (handed (v.content i) off n) fs := by
  obtain ⟨got, ran, copies⟩ := Fs.readi_hands ready.rep ready.owned ready.loaded
    (ready.whole i (ready.loaded.live ready.rep)) Fs.kernelAccepts offset count
  have bound : Fs.readable (v.node i).size off n ≤ n ∧ Fs.readable (v.node i).size off n ≤ (v.node i).size - off :=
    Fs.readable_le offset count
  have limit := Fs.Whole.limit (ready.whole i (ready.loaded.live ready.rep))
  rw [ran]
  unfold handed
  rw [Volume.content_length, ← Volume.bytes_slice, Nat.min_eq_left bound.2]
  cases copies with
  | all => rw [Nat.sub_zero, Fs.asInt_small (by omega)]
  | refused here some inside no => cases no

/-- The contents of the file that the path leads to. -/
def executable (s : State Journal) (p : Pid) (path : Path) : Option (List UInt8) :=
  match (s.proc p).cwd with
  | none => none
  | some home =>
      match Fs.namei home path (Fs.opened s.fs) with
      | .ok (some ip) fs => some ((Fs.shown fs).content (fs.inode ip).inum)
      | _ => none

variable {s : State Journal} {p : Pid} {path : Path}

/-- The file is locked and its contents are those of the executable. -/
def Executing (s : State Journal) (p : Pid) (path : Path) (ip : Slot) (fs : JState) : Prop :=
  ∃ v i, Ready fs v ip i ∧ executable s p path = some (v.content i)

theorem shown_content (good : Good fs v) (live : v.Live i) : (Fs.shown fs).content i = v.content i :=
  Volume.SameFile.content (Fs.Good.shown_behind good i) live

theorem executing_opens (intact : Intact s v) (owes : (books s).Owes 0 0) (path : Path) :
    Opens s p path (Executing s p path) := by
  intro home at_
  have good₀ : Good (Fs.opened s.fs) v := intact.good.store rfl rfl rfl
  have used : 0 < (s.fs.inode home).ref := owes.cwd_used (Int.le_refl 0) (p := p) at_
  change outcome (Fs.namei home path) _ _ (Fs.opened s.fs)
  have spec := Fs.namei_spec home path good₀ (Over.refl good₀.rep) used (fun never : False => never.elim)
  cases ran : Fs.namei home path (Fs.opened s.fs) with
  | error stop fs =>
      unfold outcome
      rw [ran]
      trivial
  | ok got fs₁ =>
      obtain ⟨v₁, good₁, spares, arrived⟩ := outcome_of_ok spec ran
      unfold outcome
      rw [ran]
      rintro ip ⟨⟩
      obtain ⟨atop₁, i, here, -⟩ := arrived
      refine outcome_mono (Fs.lock_spec good₁ atop₁ here) ?_ fun _ _ _ => trivial
      rintro - fs₂ ⟨good₂, -, loaded, -⟩
      refine ⟨v₁, i, ⟨good₂.rep, good₂.owned, spares.evolves.whole intact.whole, loaded⟩, ?_⟩
      have live := loaded.live good₂.rep
      unfold executable
      rw [at_]
      dsimp only
      rw [ran]
      dsimp only
      rw [here.2, shown_content good₁ live]

theorem executable_small (intact : Intact s v) (owes : (books s).Owes 0 0) (path : Path) :
    ((executable s p path).getD []).length < 2 ^ 32 := by
  cases found : executable s p path with
  | none => exact Nat.two_pow_pos 32
  | some file =>
      unfold executable at found
      split at found
      · cases found
      · rename_i home at_
        split at found
        · rename_i ip fs ran
          have good₀ : Good (Fs.opened s.fs) v := intact.good.store rfl rfl rfl
          have used : 0 < (s.fs.inode home).ref := owes.cwd_used (Int.le_refl 0) (p := p) at_
          obtain ⟨v₁, good₁, -, atop₁, i, here, -⟩ := outcome_of_ok
            (Fs.namei_spec home path good₀ (Over.refl good₀.rep) used (fun never : False => never.elim)) ran
          cases found
          rw [Option.getD_some, here.2, Volume.content_length, Good.shows good₁ (here.inside good₁.rep)]
          exact (good₁.rep.fits i).size
        · cases found

theorem executing_delivers (intact : Intact s v) (owes : (books s).Owes 0 0) (path : Path) (ip : Slot) :
    Supplies ip (Executing s p path ip) True ((executable s p path).getD []) where
  small _ := executable_small intact owes path
  reads fs off n := by
    rintro ⟨v', i, ready, found⟩ offset count
    unfold outcome
    rw [readi_handed ready offset count]
    refine ⟨⟨v', i, ready, found⟩, fun _ => ?_⟩
    rw [found, Option.getD_some]

end Delivery

section Images

variable {s s' : State Journal} {v : Volume} {p : Pid} {path : Path} {g : Vm.Ledger}
variable {argv : List (List UInt8)} {file : List UInt8} {elf : Elfhdr}

/-- The header of an ELF file. -/
def elfOf (file : List UInt8) : Elfhdr := getElfhdr (file.take ELFHDR)

/-- All headers of the file. -/
def headersOf (file : List UInt8) : List Proghdr := headers file (elfOf file) (elfOf file).phnum

/-- Without truncation the headers are read where the file says they are. -/
theorem headerOffset_narrow (small : file.length < 2 ^ 32) (narrow : elf.phoff < 2 ^ 32)
    (table : ∀ i < elf.phnum, headerOffset elf i + PROGHDR ≤ file.length) :
    ∀ i < elf.phnum, headerOffset elf i = elf.phoff + i * PROGHDR := by
  intro i
  induction i with
  | zero =>
      intro _
      unfold headerOffset
      rw [Nat.zero_mul, Nat.add_zero, Nat.mod_eq_of_lt narrow]
  | succ i ih =>
      intro below
      have last := ih (by omega)
      have room := table i (by omega)
      rw [← headerOffset_succ, last, Nat.succ_mul, Nat.mod_eq_of_lt (by omega), Nat.add_assoc]

/-- The process runs the image that the file describes. -/
structure Loads (file : List UInt8) (s' : State Journal) (p : Pid) : Prop where
  bytes : ∀ va, va < PGROUNDUP (topOf (headersOf file)) → Sees s' p va (imageByte file (headersOf file) va)
  guard : ∀ va, (s'.proc p).sz - 2 * PGSIZE ≤ va → va < (s'.proc p).sz - PGSIZE →
    ∃ pte, Vm.mapping s'.ram (s'.proc p).pagetable va = some pte ∧ pte.perm.u = false
  size : (s'.proc p).sz = PGROUNDUP (topOf (headersOf file)) + 2 * PGSIZE
  entry : register s' p Vm.TF_EPC = (elfOf file).entry
  offsets : (elfOf file).phoff < 2 ^ 32 →
    ∀ i < (elfOf file).phnum, headerOffset (elfOf file) i = (elfOf file).phoff + i * PROGHDR

/-- What is left of `exec` once the new address space is there, with what the file says of it. -/
theorem exec_described (intact : Intact s v) (owes : (books s).Owes 0 0) (housed : Housed s p g)
    (few : argv.length < MAXARG) (short : ∀ arg ∈ argv, arg.length < PGSIZE) (path : Path) :
    outcome (exec p path argv)
      (fun r s' => 0 ≤ r → ∃ fabric,
        ExecEnds True ((executable s p path).getD []) s p path argv fabric r s')
      NoFault s := by
  rw [exec_parts]
  refine outcome_seq (execFabric_makes housed (executing_opens intact owes path)
    (executing_delivers intact owes path)) fun got s₁ makes => ?_
  cases got with
  | none => exact fun positive => absurd positive (by decide)
  | some fabric =>
      refine outcome_post (makes.ends housed few short path) fun r s' ended _ => ?_
      exact ⟨fabric, ended⟩

theorem ExecEnds.loads {fabric : Fabric} {r : Int} (small : file.length < 2 ^ 32)
    (ended : ExecEnds True file s p path argv fabric r s') (positive : 0 ≤ r) :
    Loads file s' p ∧ ∃ n image, Described file (elfOf file) n image := by
  cases ended with
  | full result => omega
  | @runs n image image' result fits size described stacked started passed =>
      obtain ⟨elf, described, entry⟩ := described trivial
      obtain ⟨rfl, -⟩ := described.header
      have top : (s'.proc p).sz = (n + 2) * PGSIZE := by rw [started.proc, ← size]
      have pages : n = Vm.pagesOf (topOf (headersOf file)) := described.top
      obtain ⟨g', housed⟩ := started.housed
      have few : n + 2 ≤ 0x8000 := by
        have low := housed.agrees.few housed.shape.low housed.shape.pages
        rwa [top, Vm.pagesOf_mul] at low
      have round : PGROUNDUP (topOf (headersOf file)) = n * PGSIZE := by
        rw [pages, Vm.roundup_eq]
        unfold Vm.pagesOf PGSIZE at pages
        unfold PGSIZE MAXVA
        omega
      have below : ∀ va, va / PGSIZE < n → image' va = imageByte file (headersOf file) va := by
        intro va low
        rw [stacked.below va (by rw [size]; unfold PGSIZE at *; omega), described.bytes]
        rfl
      refine ⟨⟨fun va low => ?_, fun va above low => ?_, ?_, started.epc.trans entry,
        fun narrow => headerOffset_narrow small narrow described.table⟩, n, image, described⟩
      · rw [round] at low
        have page : va / PGSIZE < n := (Nat.div_lt_iff_lt_mul (by decide)).mpr low
        rw [← below va page]
        exact started.sees va (.inl page)
      · refine started.guard va ?_
        rw [top] at above low
        unfold PGSIZE at *
        omega
      · rw [round, top, Nat.add_mul]

/-- `exec` builds the image that the file describes: at each address the byte of the last segment
that has one for it, and 0 elsewhere. It never finds a page of a segment missing. -/
theorem exec_builds_image (intact : Intact s v) (owes : (books s).Owes 0 0) (housed : Housed s p g)
    (few : argv.length < MAXARG) (short : ∀ arg ∈ argv, arg.length < PGSIZE) (path : Path) :
    outcome (exec p path argv) (fun r s' => 0 ≤ r → ∃ file, executable s p path = some file ∧ Loads file s' p)
      (fun reason _ => reason ≠ .vm .loadsegAddress) s := by
  refine outcome_mono (exec_described intact owes housed few short path) (fun r s' ends positive => ?_)
    fun reason _ fine same => fine ⟨_, same⟩
  obtain ⟨fabric, ended⟩ := ends positive
  obtain ⟨loads, n, image, described⟩ := ended.loads (executable_small intact owes path) positive
  cases found : executable s p path with
  | none =>
      have length := described.header.2
      rw [found] at length
      exact absurd length (by decide)
  | some file =>
      rw [found, Option.getD_some] at loads
      exact ⟨file, rfl, loads⟩

/-- Four bytes are loaded and four more are blank. -/
theorem four_bytes_load : ∃ (s s' : State Journal) (file : List UInt8),
    exec initproc [97] [[97, 98]] s = .ok 1 s' ∧ executable s initproc [97] = some file ∧
    Loads file s' initproc := by
  obtain ⟨s, owes, ⟨v, intact⟩, ⟨g, housed⟩, test⟩ := @installed_such (programFile 64 120)
    (returns (exec initproc [97] [[97, 98]]) fun r _ => decide (r = 1)) (by decide +kernel)
  obtain ⟨r, s', ran, test⟩ := returns_ok test
  obtain rfl := of_decide_eq_true test
  have builds := @exec_builds_image s v initproc g [[97, 98]] intact owes housed (by decide) (by decide) [97]
  obtain ⟨file, found, loads⟩ := outcome_of_ok builds ran (by decide)
  exact ⟨s, s', file, ran, found, loads⟩

end Images

section Rejection

variable {s s' : State Journal} {v : Volume} {p : Pid} {path : Path} {g : Vm.Ledger}
variable {argv : List (List UInt8)} {file : List UInt8} {elf : Elfhdr}

/-- The program headers and the segments that are loaded are in the file, in 64-bit integers. -/
structure InsideFile (file : List UInt8) (elf : Elfhdr) : Prop where
  table : 0 < elf.phnum → elf.phoff + elf.phnum * PROGHDR ≤ file.length
  segments : ∀ i < elf.phnum, ∀ ph, ph = headerAt file (elf.phoff + i * PROGHDR) → ph.type = ELF_PROG_LOAD →
    0 < ph.filesz → ph.off + ph.filesz ≤ file.length

/-- The same of the offsets that are left when `exec` has cut them to 32 bits. -/
structure InsideCut (file : List UInt8) (elf : Elfhdr) : Prop where
  table : ∀ i < elf.phnum, headerOffset elf i + PROGHDR ≤ file.length
  segments : ∀ ph ∈ headers file elf elf.phnum, ph.type = ELF_PROG_LOAD → 0 < ph.filesz →
    ph.off % 2 ^ 32 + ph.filesz ≤ file.length

/-- The offsets fit in 32 bits. -/
structure Narrow (file : List UInt8) (elf : Elfhdr) : Prop where
  table : elf.phoff < 2 ^ 32
  segments : ∀ i < elf.phnum, ∀ ph, ph = headerAt file (elf.phoff + i * PROGHDR) → ph.type = ELF_PROG_LOAD →
    0 < ph.filesz → ph.off < 2 ^ 32

/-- Where the offsets fit in 32 bits nothing is cut off. -/
theorem InsideCut.uncut (inside : InsideCut file elf) (small : file.length < 2 ^ 32) (narrow : Narrow file elf) :
    InsideFile file elf := by
  have offsets := headerOffset_narrow small narrow.table inside.table
  refine ⟨fun some => ?_, fun i below ph at_ loads some => ?_⟩
  · have last := inside.table (elf.phnum - 1) (by omega)
    rw [offsets _ (by omega)] at last
    have whole : elf.phnum * PROGHDR = (elf.phnum - 1) * PROGHDR + PROGHDR := by
      rw [← Nat.succ_mul]
      congr 1
      omega
    omega
  · have here : ph ∈ headers file elf elf.phnum := by
      rw [at_, ← offsets i below]
      exact List.mem_map.mpr ⟨i, List.mem_range.mpr below, rfl⟩
    have room := inside.segments ph here loads some
    rwa [Nat.mod_eq_of_lt (narrow.segments i below ph at_ loads some)] at room

end Rejection

end PaddleOs.Kernel

import PaddleOs.KernelSteps
import PaddleOs.UserImage

/-!
The part of `exec` that reads the segments of an ELF file into a new address space. What the
file delivers is known for a file system in order; without that the same steps still only
touch the new address space.
-/

namespace PaddleOs.Kernel

open Foundation.Outcome Foundation.Overlay

section Reading

/-- What `readi` hands out of a file of these contents. -/
def handed (file : List UInt8) (off n : Nat) : Int × List UInt8 :=
  ((Fs.readable file.length off n : Nat), (file.drop off).take (Fs.readable file.length off n))

theorem handed_whole {file : List UInt8} {off n : Nat} (offset : off < 2 ^ 32) (count : n < 2 ^ 32)
    (some : 0 < n) (whole : (handed file off n).1 = (n : Int)) :
    off + n ≤ file.length ∧ (handed file off n).2 = (file.drop off).take n := by
  have all : Fs.readable file.length off n = n := by
    unfold handed at whole
    exact Int.ofNat_inj.mp whole
  have room : Fs.readable file.length off n ≤ file.length - off := (Fs.readable_le offset count).2
  unfold handed
  rw [all] at room ⊢
  exact ⟨by omega, rfl⟩

/-- Nothing is to be shown of a segment that was not loaded. -/
theorem unloaded {post : Prop} (loaded : false = true) : post := absurd loaded Bool.false_ne_true

/-- Reads of the inode keep the file system in states of one kind and, if the contents are
known, hand out slices of them. -/
structure Supplies {W : Type} [BlockLayer W] (ip : Fs.Slot) (steady : Fs.State W → Prop) (known : Prop)
    (file : List UInt8) : Prop where
  small : known → file.length < 2 ^ 32
  reads : ∀ fs off n, steady fs → off < 2 ^ 32 → n < 2 ^ 32 →
    outcome (Fs.readi ip Fs.kernelAccepts off n)
      (fun got fs' => steady fs' ∧ (known → got = handed file off n)) (fun _ _ => True) fs

end Reading

section Segments

variable {W : Type} [BlockLayer W] {ip : Fs.Slot} {steady : Fs.State W → Prop} {known : Prop}
variable {file : List UInt8} {r frame : Nat} {g₀ g : Vm.Ledger} {ram₀ : Vm.Ram} {image : Nat → UInt8}
variable {s : State W}

omit [BlockLayer W] in
/-- A specification of a file-system function in a call that does not stop in `vm.c`. -/
theorem fs_spec_then {α β : Type} {run : Fs.FsM W α} {middle : α → Fs.State W → Prop}
    {stop : Stop → Fs.State W → Prop} {next : α → KernelM W β} {post : β → State W → Prop}
    (spec : outcome run middle stop s.fs)
    (rest : ∀ value fs, middle value fs → outcome (next value) post NoFault { s with fs }) :
    outcome (fs run >>= next) post NoFault s := by
  rw [outcome_bind]
  unfold fs
  rw [outcome_zoom]
  refine outcome_mono spec rest fun _ _ _ fault => ?_
  obtain ⟨stop, same⟩ := fault
  cases same

theorem read_then {β : Type} (delivers : Supplies ip steady known file) {off n : Nat}
    {next : Int × List UInt8 → KernelM W β} {post : β → State W → Prop} (calm : steady s.fs)
    (offset : off < 2 ^ 32) (count : n < 2 ^ 32)
    (rest : ∀ got fs, steady fs → (known → got = handed file off n) →
      outcome (next got) post NoFault { s with fs }) :
    outcome (fs (Fs.readi ip Fs.kernelAccepts off n) >>= next) post NoFault s :=
  fs_spec_then (delivers.reads s.fs off n calm offset count) fun got fs read => rest got fs read.1 read.2

/-- What has been laid over the image when `loadseg` has got `m` bytes of the segment. -/
structure Laid (known : Prop) (file : List UInt8) (image : Nat → UInt8) (va off m : Nat)
    (image' : Nat → UInt8) : Prop where
  bytes : known → image' = overlay image va ((file.drop off).take m)
  inside : known → 0 < m → off + m ≤ file.length

/-- The next page of the segment. -/
theorem Laid.turn {va off a m : Nat} {image' : Nat → UInt8} {got : Int × List UInt8}
    (laid : Laid known file image va off a image') (offset : off < 2 ^ 32)
    (small : known → file.length < 2 ^ 32) (some : 0 < m) (count : m ≤ PGSIZE)
    (read : known → got = handed file ((off + a) % 2 ^ 32) m) (whole : got.1 = (m : Int)) :
    Laid known file image va off (a + m) (overlay image' (va + a) (got.2.take PGSIZE)) := by
  have page : PGSIZE < 2 ^ 32 := by decide
  have delivered : known → off + a + m ≤ file.length ∧ got.2 = (file.drop (off + a)).take m := by
    intro sure
    have fits := small sure
    have low : off + a < 2 ^ 32 := by
      rcases Nat.eq_zero_or_pos a with rfl | positive
      · exact offset
      · have := laid.inside sure positive
        omega
    rw [read sure, Nat.mod_eq_of_lt low] at whole ⊢
    exact handed_whole low (by omega) some whole
  refine ⟨fun sure => ?_, fun sure _ => ?_⟩
  · obtain ⟨room, bytes⟩ := delivered sure
    have first : ((file.drop off).take a).length = a := by
      rw [List.length_take, List.length_drop]
      omega
    rw [laid.bytes sure, List.take_add, overlay_append, first, bytes, List.drop_drop,
      List.take_of_length_le (Nat.le_trans (List.length_take_le _ _) count)]
  · have := (delivered sure).1
    omega

/-- The loop of `loadseg` lays the segment over the image, page by page. -/
theorem loadsegFrom_loads (delivers : Supplies ip steady known file) {c₀ off sz n : Nat}
    (fits : c₀ * PGSIZE + sz ≤ n * PGSIZE) (offset : off < 2 ^ 32) (count : Nat) :
    ∀ (c : Nat) (s : State W) (image' : Nat → UInt8), c + count = Vm.pagesOf sz → steady s.fs →
      Vm.Site r frame g₀ ram₀ n image' s.ram g →
      Laid known file image (c₀ * PGSIZE) off (min (c * PGSIZE) sz) image' →
      outcome (loadsegFrom r (c₀ * PGSIZE) ip off sz count (c * PGSIZE))
        (fun done s' => ∃ fs ram image', s' = { s with fs, ram } ∧ steady fs ∧
          Vm.Site r frame g₀ ram₀ n image' ram g ∧
          (done = true → Laid known file image (c₀ * PGSIZE) off sz image')) NoFault s := by
  induction count with
  | zero =>
      intro c s image' total calm site laid
      have all : min (c * PGSIZE) sz = sz := by
        unfold Vm.pagesOf PGSIZE at total
        unfold PGSIZE
        omega
      rw [all] at laid
      exact ⟨s.fs, s.ram, image', rfl, calm, site, fun _ => laid⟩
  | succ count ih =>
      intro c s image' total calm site laid
      have left : c * PGSIZE < sz := by
        unfold Vm.pagesOf PGSIZE at total
        unfold PGSIZE
        omega
      have few := site.few
      have below : c₀ + c < n := by
        unfold PGSIZE at fits left
        omega
      have here : c₀ * PGSIZE + c * PGSIZE = (c₀ + c) * PGSIZE := (Nat.add_mul c₀ c PGSIZE).symm
      have address : (c₀ + c) * PGSIZE < MAXVA := by
        unfold PGSIZE MAXVA
        omega
      have agrees := site.built.edited.agrees
      unfold loadsegFrom
      rw [here, Vm.word64_small (by omega)]
      obtain ⟨-, pte, maps, goal⟩ := site.holds.accessible agrees address (by rwa [Vm.page_div])
      rw [Vm.page_div] at maps
      have walks : outcome (Vm.walkaddr r ((c₀ + c) * PGSIZE)) (fun page ram => ram = s.ram ∧ page = pte.ppn)
          (fun _ _ => False) s.ram := (Vm.walkaddr_target _ _ _).mpr ⟨rfl, goal⟩
      refine vm_then walks ?_
      rintro _ _ ⟨rfl, rfl⟩
      have owned := (agrees.target r _ pte maps).2 (Vm.ordinary_of_lt (Nat.lt_of_lt_of_le below site.shape.low))
      rw [if_neg (agrees.nonzero (by rw [owned]; rintro ⟨⟩))]
      have width : (if sz - c * PGSIZE < PGSIZE then sz - c * PGSIZE else PGSIZE) =
          min PGSIZE (sz - c * PGSIZE) := by
        split <;> omega
      simp only [width]
      refine read_then delivers calm (Nat.mod_lt _ (by decide))
        (Nat.lt_of_le_of_lt (Nat.min_le_left _ _) (by decide)) fun got fs calm' read => ?_
      refine vm_then (site.putBytes below maps got.2) ?_
      intro _ ram site'
      rw [outcome_ite]
      refine ⟨fun _ => ⟨fs, ram, _, rfl, calm', site', unloaded⟩, fun whole => ?_⟩
      have done : min (c * PGSIZE) sz = c * PGSIZE := by omega
      rw [done] at laid
      have next := laid.turn offset delivers.small (Nat.lt_min.mpr ⟨by decide, by omega⟩)
        (Nat.min_le_left _ _) read (not_not.mp whole)
      have more : c * PGSIZE + min PGSIZE (sz - c * PGSIZE) = min ((c + 1) * PGSIZE) sz := by
        rw [Nat.succ_mul]
        omega
      rw [more, here] at next
      rw [← Nat.succ_mul]
      refine outcome_post (ih (c + 1) { s with fs, ram } _ (by omega) calm' site' next) ?_
      rintro result _ ⟨fs', ram', image'', rfl, rest⟩
      exact ⟨fs', ram', image'', rfl, rest⟩

/-- `loadseg` lays the segment over the image. -/
theorem loadseg_loads (delivers : Supplies ip steady known file) {va off sz n : Nat}
    (aligned : va % PGSIZE = 0) (fits : va + sz ≤ n * PGSIZE) (small : sz < 2 ^ 32) (calm : steady s.fs)
    (site : Vm.Site r frame g₀ ram₀ n image s.ram g) :
    outcome (loadseg r va ip off sz)
      (fun done s' => ∃ fs ram image', s' = { s with fs, ram } ∧ steady fs ∧
        Vm.Site r frame g₀ ram₀ n image' ram g ∧
        (done = true → Laid known file image va (off % 2 ^ 32) sz image')) NoFault s := by
  have start : va = va / PGSIZE * PGSIZE := by
    unfold PGSIZE at aligned ⊢
    omega
  have none_ : min (0 * PGSIZE) sz = 0 := by omega
  unfold loadseg
  rw [Nat.mod_eq_of_lt small, start, ← Nat.zero_mul PGSIZE]
  refine loadsegFrom_loads delivers (by rw [← start]; exact fits) (Nat.mod_lt _ (by decide)) _ 0 s image
    (Nat.zero_add _) calm site ?_
  rw [none_]
  exact ⟨fun _ => by rw [List.take_zero, overlay_nil], fun _ some => absurd some (Nat.lt_irrefl 0)⟩

end Segments

section Headers

variable {file : List UInt8} {hs : List Proghdr} {ph : Proghdr} {a : Nat}

/-- The program header at this offset of the file. -/
def headerAt (file : List UInt8) (off : Nat) : Proghdr := getProghdr ((file.drop off).take PROGHDR)

/-- The offset of header `i`; `exec` keeps it in an `int` and `readi` takes it as a `uint`. -/
def headerOffset (elf : Elfhdr) (i : Nat) : Nat := (elf.phoff + i * PROGHDR) % 2 ^ 32

/-- The first `n` program headers. -/
def headers (file : List UInt8) (elf : Elfhdr) (n : Nat) : List Proghdr :=
  (List.range n).map fun i => headerAt file (headerOffset elf i)

/-- The header loads a byte of the file to the address. -/
def Proghdr.Covers (ph : Proghdr) (a : Nat) : Prop :=
  ph.type = ELF_PROG_LOAD ∧ ph.vaddr ≤ a ∧ a < ph.vaddr + ph.filesz

instance (ph : Proghdr) (a : Nat) : Decidable (ph.Covers a) := by
  unfold Proghdr.Covers
  infer_instance

/-- The byte that the last header with a byte for the address loads there, or 0. -/
def imageByte (file : List UInt8) (hs : List Proghdr) (a : Nat) : UInt8 :=
  match hs.reverse.find? fun ph => decide (ph.Covers a) with
  | some ph => file.getD (ph.off % 2 ^ 32 + (a - ph.vaddr)) 0
  | none => 0

/-- The largest end of a segment that is loaded. -/
def topOf (hs : List Proghdr) : Nat :=
  hs.foldl (fun top ph => if ph.type = ELF_PROG_LOAD then max top (ph.vaddr + ph.memsz) else top) 0

/-- The bytes of every segment that is loaded are in the file. -/
def SegmentsInside (file : List UInt8) (hs : List Proghdr) : Prop :=
  ∀ ph ∈ hs, ph.type = ELF_PROG_LOAD → 0 < ph.filesz → ph.off % 2 ^ 32 + ph.filesz ≤ file.length

theorem headers_succ (file : List UInt8) (elf : Elfhdr) (n : Nat) :
    headers file elf (n + 1) = headers file elf n ++ [headerAt file (headerOffset elf n)] := by
  unfold headers
  rw [List.range_succ, List.map_append, List.map_singleton]

theorem headerOffset_succ (elf : Elfhdr) (i : Nat) :
    (headerOffset elf i + PROGHDR) % 2 ^ 32 = headerOffset elf (i + 1) := by
  unfold headerOffset
  rw [Nat.mod_add_mod, Nat.succ_mul, Nat.add_assoc]

theorem imageByte_append (file : List UInt8) (hs : List Proghdr) (ph : Proghdr) (a : Nat) :
    imageByte file (hs ++ [ph]) a =
      if ph.Covers a then file.getD (ph.off % 2 ^ 32 + (a - ph.vaddr)) 0 else imageByte file hs a := by
  unfold imageByte
  rw [List.reverse_append, List.reverse_singleton, List.singleton_append, List.find?_cons]
  by_cases covers : ph.Covers a
  · rw [decide_eq_true covers, if_pos covers]
  · rw [decide_eq_false covers, if_neg covers]

theorem imageByte_skip (other : ph.type ≠ ELF_PROG_LOAD) :
    imageByte file (hs ++ [ph]) = imageByte file hs := by
  funext a
  rw [imageByte_append, if_neg fun covers => other covers.1]

/-- A segment that is laid over the image of the headers before it. -/
theorem imageByte_load (loads : ph.type = ELF_PROG_LOAD)
    (inside : 0 < ph.filesz → ph.off % 2 ^ 32 + ph.filesz ≤ file.length) :
    imageByte file (hs ++ [ph]) =
      overlay (imageByte file hs) ph.vaddr ((file.drop (ph.off % 2 ^ 32)).take ph.filesz) := by
  have length : ((file.drop (ph.off % 2 ^ 32)).take ph.filesz).length = ph.filesz := by
    rw [List.length_take, List.length_drop]
    omega
  funext a
  rw [imageByte_append]
  by_cases covers : ph.Covers a
  · obtain ⟨-, low, high⟩ := covers
    obtain ⟨i, rfl⟩ := Nat.exists_eq_add_of_le low
    rw [if_pos ⟨loads, low, high⟩, overlay_at _ _ (by omega), List.getElem_take, List.getElem_drop,
      Nat.add_sub_cancel_left]
    exact (List.getElem_eq_getD 0).symm
  · rw [if_neg covers, overlay_apart _ ?_]
    by_contra within
    exact covers ⟨loads, by omega, by omega⟩

theorem topOf_append (hs : List Proghdr) (ph : Proghdr) : topOf (hs ++ [ph]) =
    if ph.type = ELF_PROG_LOAD then max (topOf hs) (ph.vaddr + ph.memsz) else topOf hs := by
  unfold topOf
  rw [List.foldl_append, List.foldl_cons, List.foldl_nil]

theorem SegmentsInside.append (inside : SegmentsInside file hs)
    (last : ph.type = ELF_PROG_LOAD → 0 < ph.filesz → ph.off % 2 ^ 32 + ph.filesz ≤ file.length) :
    SegmentsInside file (hs ++ [ph]) := by
  intro ph' here
  rcases List.mem_append.mp here with before | now
  · exact inside ph' before
  · rw [List.mem_singleton.mp now]
    exact last

end Headers

section Table

variable {W : Type} [BlockLayer W] {ip : Fs.Slot} {steady : Fs.State W → Prop} {known : Prop}
variable {file : List UInt8} {r frame : Nat} {g₀ : Vm.Ledger} {ram₀ : Vm.Ram} {elf : Elfhdr}

/-- What the first `n` headers have come to: the image, its size, and where the file had them. -/
structure Through (known : Prop) (file : List UInt8) (elf : Elfhdr) (n sz : Nat) (image : Nat → UInt8) :
    Prop where
  bytes : known → image = imageByte file (headers file elf n)
  top : known → sz = topOf (headers file elf n)
  table : known → ∀ i < n, headerOffset elf i + PROGHDR ≤ file.length
  segments : known → SegmentsInside file (headers file elf n)

theorem Through.start (known : Prop) (file : List UInt8) (elf : Elfhdr) :
    Through known file elf 0 0 fun _ => 0 where
  bytes _ := rfl
  top _ := rfl
  table _ _ none_ := absurd none_ (Nat.not_lt_zero _)
  segments _ _ here := absurd here List.not_mem_nil

variable {i sz : Nat} {image image' : Nat → UInt8}

theorem Through.skip (through : Through known file elf i sz image)
    (read : known → headerOffset elf i + PROGHDR ≤ file.length)
    (other : known → (headerAt file (headerOffset elf i)).type ≠ ELF_PROG_LOAD) :
    Through known file elf (i + 1) sz image where
  bytes sure := by rw [headers_succ, imageByte_skip (other sure), through.bytes sure]
  top sure := by rw [headers_succ, topOf_append, if_neg (other sure), through.top sure]
  table sure j below := by
    rcases Nat.lt_succ_iff_lt_or_eq.mp below with before | rfl
    · exact through.table sure j before
    · exact read sure
  segments sure := by
    rw [headers_succ]
    exact (through.segments sure).append fun loads => absurd loads (other sure)

theorem Through.load (through : Through known file elf i sz image) {ph : Proghdr}
    (read : known → headerOffset elf i + PROGHDR ≤ file.length ∧ ph = headerAt file (headerOffset elf i))
    (loads : ph.type = ELF_PROG_LOAD)
    (laid : Laid known file image ph.vaddr (ph.off % 2 ^ 32) ph.filesz image') :
    Through known file elf (i + 1) (max sz (ph.vaddr + ph.memsz)) image' where
  bytes sure := by
    rw [headers_succ, ← (read sure).2, imageByte_load loads (laid.inside sure), laid.bytes sure,
      through.bytes sure]
  top sure := by rw [headers_succ, ← (read sure).2, topOf_append, if_pos loads, through.top sure]
  table sure j below := by
    rcases Nat.lt_succ_iff_lt_or_eq.mp below with before | rfl
    · exact through.table sure j before
    · exact (read sure).1
  segments sure := by
    rw [headers_succ, ← (read sure).2]
    exact (through.segments sure).append fun _ => laid.inside sure

theorem getLE_width (bytes : List UInt8) (offset : Nat) :
    Foundation.LittleEndian.getLE (bytesOf bytes) offset 8 < 2 ^ 64 :=
  Nat.lt_of_lt_of_le (Foundation.LittleEndian.getLE_lt _ _ _) (by decide)

/-- The end of a segment that passes the check does not wrap around. -/
theorem segment_end (bytes : List UInt8)
    (sane : ¬ word64 ((getProghdr bytes).vaddr + (getProghdr bytes).memsz) < (getProghdr bytes).vaddr) :
    word64 ((getProghdr bytes).vaddr + (getProghdr bytes).memsz) =
      (getProghdr bytes).vaddr + (getProghdr bytes).memsz := by
  have start : (getProghdr bytes).vaddr < 2 ^ 64 := getLE_width bytes 16
  have length : (getProghdr bytes).memsz < 2 ^ 64 := getLE_width bytes 40
  unfold word64 at *
  omega

/-- The loop over the program headers. -/
theorem execSegments_loads (delivers : Supplies ip steady known file) (count : Nat) :
    ∀ (i sz : Nat) (image : Nat → UInt8) (g : Vm.Ledger) (s : State W), steady s.fs →
      Vm.Site r frame g₀ ram₀ (Vm.pagesOf sz) image s.ram g → Through known file elf i sz image →
      outcome (execSegments r ip count (headerOffset elf i) sz)
        (fun result s' => ∃ fs ram g' image', s' = { s with fs, ram } ∧ steady fs ∧
          Vm.Site r frame g₀ ram₀ (Vm.pagesOf result.2) image' ram g' ∧
          (result.1 = true → Through known file elf (i + count) result.2 image')) NoFault s := by
  induction count with
  | zero =>
      intro i sz image g s calm site through
      exact ⟨s.fs, s.ram, g, image, rfl, calm, site, fun _ => through⟩
  | succ count ih =>
      intro i sz image g s calm site through
      have offset : headerOffset elf i < 2 ^ 32 := Nat.mod_lt _ (by decide)
      unfold execSegments
      refine read_then delivers calm offset (by decide) ?_
      rintro ⟨n, bytes⟩ fs calm' read
      dsimp only
      rw [outcome_ite]
      refine ⟨fun _ => ⟨fs, s.ram, g, image, rfl, calm', site, unloaded⟩, fun whole => ?_⟩
      have header : known → headerOffset elf i + PROGHDR ≤ file.length ∧
          getProghdr bytes = headerAt file (headerOffset elf i) := by
        intro sure
        have delivered := handed_whole offset (by decide) (by decide)
          ((congrArg Prod.fst (read sure)).symm.trans (not_not.mp whole))
        refine ⟨delivered.1, ?_⟩
        unfold headerAt
        rw [← delivered.2, ← read sure]
      rw [headerOffset_succ]
      have more : i + 1 + count = i + (count + 1) := by omega
      rw [outcome_ite]
      refine ⟨fun other => ?_, fun loads => ?_⟩
      · rw [← more]
        exact ih (i + 1) sz image g { s with fs } calm' site
          (through.skip (fun sure => (header sure).1) fun sure => (header sure).2 ▸ other)
      · rw [outcome_ite]
        refine ⟨fun _ => ⟨fs, s.ram, g, image, rfl, calm', site, unloaded⟩, fun covered => ?_⟩
        rw [outcome_ite]
        refine ⟨fun _ => ⟨fs, s.ram, g, image, rfl, calm', site, unloaded⟩, fun sane => ?_⟩
        rw [outcome_ite]
        refine ⟨fun _ => ⟨fs, s.ram, g, image, rfl, calm', site, unloaded⟩, fun aligned => ?_⟩
        rw [segment_end bytes sane]
        refine vm_then (site.uvmalloc _ _ _) ?_
        rintro sz1 ram ⟨g', ended⟩
        rw [outcome_ite]
        refine ⟨fun zero => ?_, fun some => ?_⟩
        · rcases ended with ⟨-, site'⟩ | ⟨reached, site'⟩
          · exact ⟨fs, ram, g', image, rfl, calm', site', unloaded⟩
          · have same : sz1 = sz := by omega
            exact ⟨fs, ram, g', image, rfl, calm', same ▸ site', unloaded⟩
        · obtain ⟨reached, site'⟩ := ended.resolve_left fun failed => some failed.1
          have few := site'.few
          have top : (getProghdr bytes).vaddr + (getProghdr bytes).memsz ≤ sz1 := by omega
          have fits : (getProghdr bytes).vaddr + (getProghdr bytes).filesz ≤ Vm.pagesOf sz1 * PGSIZE := by
            unfold Vm.pagesOf PGSIZE
            omega
          have small : (getProghdr bytes).filesz < 2 ^ 32 := by
            unfold PGSIZE at fits
            omega
          refine outcome_seq (loadseg_loads (s := { s with fs, ram }) delivers (not_not.mp aligned) fits small
            calm' site') ?_
          rintro done _ ⟨fs', ram', image', rfl, calm'', site'', laid⟩
          rw [outcome_ite]
          refine ⟨fun yes => ?_, fun _ => ⟨fs', ram', g', image', rfl, calm'', site'', unloaded⟩⟩
          rw [← more]
          refine outcome_post (ih (i + 1) sz1 image' g' { s with fs := fs', ram := ram' } calm'' site'' ?_) ?_
          · rw [reached]
            exact through.load header (not_not.mp loads) (laid yes)
          · rintro result _ ⟨fs₁, ram₁, g₁, image₁, rfl, rest⟩
            exact ⟨fs₁, ram₁, g₁, image₁, rfl, rest⟩

end Table

end PaddleOs.Kernel

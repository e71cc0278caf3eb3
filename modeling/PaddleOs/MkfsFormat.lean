import PaddleOs.MkfsAppend

/-!
The image between two calls of `iappend` and `ialloc`, and at `exit(0)`. The inodes
`mkfs` hands out are in place, their files hold what was appended to them, and the
next inode is still blank.
-/

namespace PaddleOs.Mkfs

open Foundation.Outcome

def dinodeAt (sector : Nat → Block) (inum : Nat) : Dinode :=
  getDinode (sector (sb.IBLOCK inum)) (dinodeOffset inum)

/-- The inodes the inode blocks have room for. -/
def areaInodes : Nat := ninodeblocks * IPB

theorem iblock_range {inum : Nat} (inside : inum < areaInodes) :
    sb.inodestart ≤ sb.IBLOCK inum ∧ sb.IBLOCK inum < sb.bmapstart := by
  have area : areaInodes = 208 := by decide
  have first : sb.inodestart = 32 := by decide
  have last : sb.bmapstart = 45 := by decide
  unfold Superblock.IBLOCK
  rw [first, last, show IPB = 16 by decide]
  omega

theorem bmapstart_lt : sb.bmapstart < nmeta := by decide

theorem dinodeAt_congr {sector sector' : Nat → Block} {inum : Nat} (inside : inum < areaInodes)
    (same : ∀ b, b < nmeta → sector' b = sector b) : dinodeAt sector' inum = dinodeAt sector inum := by
  have range := iblock_range inside
  have last := bmapstart_lt
  unfold dinodeAt
  rw [same _ (by omega)]

/-- The image after `winode`. -/
def putInode (sector : Nat → Block) (inum : Nat) (ip : Dinode) : Nat → Block :=
  Function.update sector (sb.IBLOCK inum)
    (putDinode (sector (sb.IBLOCK inum)) (dinodeOffset inum) ip)

theorem dinodeAt_putInode (sector : Nat → Block) (inum : Nat) (ip : Dinode) (fits : ip.Fits) :
    dinodeAt (putInode sector inum ip) = Function.update (dinodeAt sector) inum ip := by
  funext other
  unfold dinodeAt putInode
  by_cases same : other = inum
  · subst same
    rw [Function.update_self, Function.update_self, getDinode_putDinode _ _ _ fits]
  · rw [Function.update_of_ne same]
    by_cases block : sb.IBLOCK other = sb.IBLOCK inum
    · rw [block, Function.update_self, getDinode_putDinode_other]
      intro offset
      have quotient : other / IPB = inum / IPB := by
        unfold Superblock.IBLOCK at block
        omega
      apply same
      calc other = IPB * (other / IPB) + other % IPB := (Nat.div_add_mod other IPB).symm
        _ = IPB * (inum / IPB) + inum % IPB := by rw [quotient, offset]
        _ = inum := Nat.div_add_mod inum IPB
    · rw [Function.update_of_ne block]

section Disk

variable {s : State} {own : Nat → Option Owner} {count inum : Nat}
  {dinode : Nat → Dinode} {extent : Nat → Nat} {held : Nat → List UInt8}

theorem rinode_spec (length : s.length = FSSIZE) (inside : inum < areaInodes) :
    outcome (rinode inum) (fun din s' => din = dinodeAt s.sector inum ∧ s' = s)
      (fun _ _ => False) s := by
  have range := iblock_range inside
  have last := bmapstart_lt
  have small : nmeta ≤ FSSIZE := by decide
  unfold rinode
  rw [outcome_bind]
  refine rsect_outcome (lt_of_lt_of_le (lt_trans range.2 last) (by decide)) ?_ ?_
  · intro _
    rw [outcome_pure]
    exact ⟨rfl, rfl⟩
  · intro past
    omega

theorem winode_spec (length : s.length = FSSIZE) (inside : inum < areaInodes) (ip : Dinode) :
    outcome (winode inum ip)
      (fun _ s' => s' = { s with sector := putInode s.sector inum ip }) (fun _ _ => False) s := by
  have range := iblock_range inside
  have last := bmapstart_lt
  have small : nmeta ≤ FSSIZE := by decide
  have near : sb.IBLOCK inum < 2 ^ 22 := lt_of_lt_of_le (lt_trans range.2 last) (by decide)
  unfold winode
  rw [outcome_bind]
  refine rsect_outcome near ?_ ?_
  · intro readable
    exact wsect_outcome near readable rfl
  · intro past
    omega

/-- `Layout` looks at the boot block and at the data area only. -/
theorem Layout.low (lay : Layout s own count dinode extent held) {sector : Nat → Block}
    (boot : sector 0 = s.sector 0) (high : ∀ b, nmeta ≤ b → sector b = s.sector b) :
    Layout { s with sector := sector } own count dinode extent held where
  length := lay.length
  boot := boot.trans lay.boot
  stored inum positive known :=
    (lay.stored inum positive known).frame boot fun b o mine _ =>
      ⟨high b (lay.owned b o mine).1, rfl⟩
  owned := lay.owned
  blank b above := by
    have base := lay.tally
    exact (high b (by dsimp only at above; omega)).trans (lay.blank b above)
  tally := lay.tally

theorem Stored.head_congr {sector : Nat → Block} {din din' : Dinode} {e : Nat} {bytes : List UInt8}
    (mine : Stored sector own inum din e bytes) (addrs : din'.addrs = din.addrs)
    (fits : din'.Fits) : Stored sector own inum din' e bytes := by
  have same : pointer sector din' = pointer sector din := by
    unfold pointer
    rw [addrs]
  refine ⟨?_, ?_, ?_, ?_, ?_, mine.covered, mine.bounded, fits⟩
  · rw [same]; exact mine.mapped
  · rw [same]; exact mine.vacant
  · rw [addrs]; exact mine.index
  · rw [addrs]; exact mine.noIndex
  · rw [same]; exact mine.content

theorem Layout.congr (lay : Layout s own count dinode extent held) {dinode' : Nat → Dinode}
    (addrs : ∀ inum, inum ≠ 0 → inum < count → (dinode' inum).addrs = (dinode inum).addrs)
    (fits : ∀ inum, inum ≠ 0 → inum < count → (dinode' inum).Fits) :
    Layout s own count dinode' extent held :=
  { lay with
    stored := fun inum positive known =>
      (lay.stored inum positive known).head_congr (addrs inum positive known)
        (fits inum positive known) }

end Disk

/-- The type `main` gives to the inode `inum`. -/
def fileType (inum : Nat) : Int16 := if inum = ROOTINO then T_DIR else T_FILE

/-- The blocks of the files `held`. -/
def extents (held : Nat → List UInt8) (inum : Nat) : Nat := taken (blocksOf (held inum).length)

/-- The files `held` are small enough and fit on the disk. -/
def Fit (held : Nat → List UInt8) (count : Nat) : Prop :=
  (∀ inum, inum < count → (held inum).length ≤ MAXFILE * BSIZE) ∧
    nmeta + total (extents held) count ≤ FSSIZE

theorem Fit.mono {held held' : Nat → List UInt8} {count count' : Nat} (fit : Fit held' count')
    (more : count ≤ count')
    (each : ∀ inum, inum < count → (held inum).length ≤ (held' inum).length) : Fit held count := by
  constructor
  · intro inum known
    exact le_trans (each inum known) (fit.1 inum (by omega))
  · have less := total_mono (extents held) (extents held') more
      (fun inum known => taken_mono (blocksOf_mono (each inum known)))
    have room := fit.2
    omega

structure Built (s : State) (count : Nat) (held : Nat → List UInt8) : Prop where
  layout : ∃ own, Layout s own count (dinodeAt s.sector) (extents held) held
  room : s.freeblock ≤ FSSIZE
  next : s.freeinode = count
  few : count ≤ areaInodes
  super : s.sector 1 = putSuperblock sb
  head : ∀ inum, inum ≠ 0 → inum < count →
    (dinodeAt s.sector inum).type = fileType inum ∧ (dinodeAt s.sector inum).nlink = 1 ∧
      (dinodeAt s.sector inum).size = (held inum).length
  spare : ∀ inum, inum < areaInodes → inum = 0 ∨ count ≤ inum →
    (dinodeAt s.sector inum).type = 0 ∧ held inum = []

theorem extents_update (held : Nat → List UInt8) (inum : Nat) (bytes : List UInt8) :
    extents (Function.update held inum bytes) =
      Function.update (extents held) inum (taken (blocksOf bytes.length)) := by
  funext other
  unfold extents
  by_cases same : other = inum
  · subst same
    rw [Function.update_self, Function.update_self]
  · rw [Function.update_of_ne same, Function.update_of_ne same]

section Operations

variable {s : State} {count inum : Nat} {held : Nat → List UInt8}

theorem putInode_high (sector : Nat → Block) (inside : inum < areaInodes) (ip : Dinode) {b : Nat}
    (other : b < sb.inodestart ∨ sb.bmapstart ≤ b) : putInode sector inum ip b = sector b := by
  have range := iblock_range inside
  exact Function.update_of_ne (by omega) _ _

theorem overflow_not_fit {length : Nat} {bytes : List UInt8} (known : inum < count)
    (same : bytes.length = length)
    (big : Overflows (Function.update (extents held) inum (taken (blocksOf length))) count length) :
    ¬ Fit (Function.update held inum bytes) count := by
  subst same
  rintro ⟨short, room⟩
  rcases big with long | full
  · have limit := short inum known
    rw [Function.update_self] at limit
    omega
  · rw [extents_update] at room
    omega

theorem iappend_spec (built : Built s count held) (positive : inum ≠ 0) (known : inum < count)
    (p : List UInt8) :
    outcome (iappend inum p)
      (fun _ s' => Built s' count (Function.update held inum (held inum ++ p)))
      (fun _ _ => ¬ Fit (Function.update held inum (held inum ++ p)) count) s := by
  obtain ⟨own, lay⟩ := built.layout
  have inside : inum < areaInodes := lt_of_lt_of_le known built.few
  have head := built.head inum positive known
  have width : (held inum ++ p).length = (held inum).length + p.length := List.length_append
  unfold iappend
  refine outcome_seq (outcome_mono (rinode_spec lay.length inside) (fun _ _ read => read)
    (fun _ _ impossible => impossible.elim)) ?_
  rintro din s' ⟨rfl, rfl⟩
  rw [head.2.2]
  refine outcome_seq (outcome_mono
    (iappendFrom_spec p.length s' own _ _ held p lay built.room positive known (le_refl _) rfl)
    (fun _ _ done => done) (fun _ _ big => overflow_not_fit known width big)) ?_
  rintro ⟨din, off⟩ t done
  obtain ⟨own', after⟩ := done.layout
  have limit := (after.stored inum positive known).bounded
  rw [Function.update_self, width] at limit
  have size : off = (held inum).length + p.length := done.off
  have local_fits := (after.stored inum positive known).fits
  rw [Function.update_self] at local_fits
  have fits : ({ din with size := off } : Dinode).Fits :=
    ⟨lt_of_le_of_lt (size.trans_le limit) (by decide), local_fits.addrs, local_fits.beyond⟩
  refine outcome_mono (winode_spec after.length inside _) ?_
    (fun _ _ impossible => impossible.elim)
  rintro _ u rfl
  have inodes : ∀ other, other < areaInodes →
      dinodeAt (putInode t.sector inum { din with size := off }) other =
        Function.update (dinodeAt s'.sector) inum { din with size := off } other := by
    intro other few
    rw [dinodeAt_putInode _ _ _ fits]
    by_cases same : other = inum
    · rw [same, Function.update_self, Function.update_self]
    · rw [Function.update_of_ne same, Function.update_of_ne same,
        dinodeAt_congr few done.kept.1]
  refine ⟨⟨own', ?_⟩, done.room, done.kept.2.trans built.next, built.few, ?_, ?_, ?_⟩
  · rw [extents_update, width]
    refine Layout.congr ((after.low ?_ ?_)) ?_ ?_
    · exact putInode_high _ inside _ (Or.inl (by decide))
    · intro b high
      exact putInode_high _ inside _ (Or.inr (le_trans bmapstart_lt.le high))
    · intro other _ below
      rw [inodes other (lt_of_lt_of_le below built.few)]
      by_cases same : other = inum
      · rw [same, Function.update_self, Function.update_self]
      · rw [Function.update_of_ne same, Function.update_of_ne same]
    · intro other _ below
      exact getDinode_fits _ _
  · exact (putInode_high t.sector inside { din with size := off }
      (Or.inl (show 1 < sb.inodestart by decide))).trans
      ((done.kept.1 1 (by decide)).trans built.super)
  · intro other nonzero below
    dsimp only
    rw [inodes other (lt_of_lt_of_le below built.few)]
    by_cases same : other = inum
    · subst same
      rw [Function.update_self, Function.update_self, width]
      have copied := done.head
      dsimp only at copied ⊢
      rw [copied]
      exact ⟨head.1, head.2.1, size⟩
    · rw [Function.update_of_ne same, Function.update_of_ne same]
      exact built.head other nonzero below
  · intro other few unused
    have different : other ≠ inum := by omega
    dsimp only
    rw [inodes other few, Function.update_of_ne different, Function.update_of_ne different]
    exact built.spare other few unused

/-- A file without blocks. -/
theorem Stored.empty {sector : Nat → Block} (own : Nat → Option Owner) (inum : Nat) {din : Dinode}
    (boot : sector 0 = zeroBlock) (addrs : ∀ i, din.addrs i = 0) (fits : din.Fits) :
    Stored sector own inum din 0 [] where
  mapped bn reached := by omega
  vacant bn _ _ := by
    unfold pointer
    rw [addrs, addrs, boot, getIndirect_zeroBlock]
    exact ite_self 0
  index far := by omega
  noIndex _ := addrs NDIRECT
  content bn j reached := by omega
  covered bn within := by rw [List.length_nil] at within; omega
  bounded := Nat.zero_le _
  fits := fits

theorem taken_zero : taken (blocksOf 0) = 0 := by decide

theorem ialloc_spec (built : Built s count held) (more : count < areaInodes)
    (positive : count ≠ 0) :
    outcome (ialloc (fileType count)) (fun inum s' => inum = count ∧ Built s' (count + 1) held)
      (fun _ _ => False) s := by
  obtain ⟨own, lay⟩ := built.layout
  have blank : held count = [] := (built.spare count more (Or.inr (le_refl _))).2
  have bound : areaInodes < 2 ^ 32 := by decide
  have same : word (count + 1) = count + 1 := Nat.mod_eq_of_lt (by omega)
  generalize made : ({ Dinode.blank (fileType count) with nlink := 1 } : Dinode) = ip
  have fits : ip.Fits := by
    subst made
    exact ⟨Nat.two_pow_pos 32, fun _ => Nat.two_pow_pos 32, fun _ _ => rfl⟩
  unfold ialloc
  rw [outcome_bind, outcome_get, outcome_bind, outcome_modify, built.next, same, made]
  refine outcome_seq (winode_spec (s := { s with freeinode := count + 1 }) lay.length more ip) ?_
  rintro _ t rfl
  rw [outcome_pure]
  refine ⟨rfl, ⟨own, ?_⟩, built.room, rfl, more, ?_, ?_, ?_⟩
  · dsimp only
    rw [dinodeAt_putInode _ _ _ fits]
    have low := lay.low (putInode_high s.sector more ip (Or.inl (by decide)))
      (fun b high => putInode_high s.sector more ip (Or.inr (le_trans bmapstart_lt.le high)))
    refine ⟨low.length, low.boot, ?_, low.owned, low.blank, ?_⟩
    · intro other nonzero below
      by_cases new : other = count
      · subst new
        rw [Function.update_self]
        unfold extents
        rw [blank, List.length_nil, taken_zero]
        refine Stored.empty own other low.boot ?_ fits
        subst made
        intro _
        rfl
      · rw [Function.update_of_ne new]
        exact low.stored other nonzero (by omega)
    · have base := lay.tally
      unfold total at base ⊢
      dsimp only
      rw [Finset.sum_range_succ, base]
      unfold extents
      rw [blank, List.length_nil, taken_zero, Nat.add_zero]
  · exact (putInode_high s.sector more ip
      (Or.inl (show 1 < sb.inodestart by decide))).trans built.super
  · intro other nonzero below
    dsimp only
    rw [dinodeAt_putInode _ _ _ fits]
    by_cases new : other = count
    · subst new
      rw [Function.update_self, blank, ← made]
      exact ⟨rfl, rfl, rfl⟩
    · rw [Function.update_of_ne new]
      exact built.head other nonzero (by omega)
  · intro other few unused
    dsimp only
    rw [dinodeAt_putInode _ _ _ fits, Function.update_of_ne (by omega)]
    exact built.spare other few (by omega)

theorem copyFile_spec (fuel : Nat) (s : State) (held : Nat → List UInt8) (rest : List UInt8)
    (built : Built s count held) (positive : inum ≠ 0) (known : inum < count)
    (enough : rest.length ≤ fuel) :
    outcome (copyFile inum fuel rest)
      (fun _ s' => Built s' count (Function.update held inum (held inum ++ rest)))
      (fun _ _ => ¬ Fit (Function.update held inum (held inum ++ rest)) count) s := by
  induction fuel generalizing s held rest with
  | zero =>
      have empty : rest = [] := List.length_eq_zero_iff.mp (by omega)
      subst empty
      rw [copyFile, outcome_pure, List.append_nil, Function.update_eq_self]
      exact built
  | succ fuel ih =>
      rw [copyFile]
      split
      case isTrue empty =>
        subst empty
        rw [outcome_pure, List.append_nil, Function.update_eq_self]
        exact built
      case isFalse more =>
        have some : 0 < rest.length := List.length_pos_iff.mpr more
        have block : 0 < BSIZE := by decide
        refine outcome_seq (outcome_mono (iappend_spec built positive known (rest.take BSIZE))
          (fun _ _ done => done) ?_) ?_
        · intro _ _ past fit
          refine past (fit.mono (le_refl _) fun other _ => ?_)
          by_cases same : other = inum
          · subst same
            rw [Function.update_self, Function.update_self, List.length_append, List.length_append,
              List.length_take]
            omega
          · rw [Function.update_of_ne same, Function.update_of_ne same]
        · intro _ t after
          have next := ih t _ (rest.drop BSIZE) after (by rw [List.length_drop]; omega)
          rwa [Function.update_self, Function.update_idem, List.append_assoc,
            List.take_append_drop] at next

end Operations

/-- The entries of the arguments, the first one with the inode number `inum`. -/
def entriesFrom : Nat → List Input → List UInt8
  | _, [] => []
  | inum, file :: rest => putDirent (entryName file.path) inum ++ entriesFrom (inum + 1) rest

def rootEntries (files : List Input) : List UInt8 :=
  putDirent Fs.dot ROOTINO ++ (putDirent Fs.dotdot ROOTINO ++ entriesFrom (ROOTINO + 1) files)

/-- What the inode `inum` holds after the arguments `files`. -/
def heldOf (files : List Input) (inum : Nat) : List UInt8 :=
  if inum = ROOTINO then rootEntries files
  else if inum < ROOTINO then []
  else (files[inum - (ROOTINO + 1)]?.bind Input.contents).getD []

/-- `main` accepts the argument: a readable file with a flat name. -/
def Input.Accepted (file : Input) : Prop :=
  Fs.slash ∉ shortname file.path ∧ file.contents ≠ none

theorem entriesFrom_append (inum : Nat) (files rest : List Input) :
    entriesFrom inum (files ++ rest) =
      entriesFrom inum files ++ entriesFrom (inum + files.length) rest := by
  induction files generalizing inum with
  | nil => simp [entriesFrom]
  | cons first files ih =>
      rw [List.cons_append, entriesFrom, entriesFrom, ih, List.append_assoc, List.length_cons]
      congr 3
      omega

theorem heldOf_append (files : List Input) (file : Input) {bytes : List UInt8}
    (contents : file.contents = some bytes) :
    heldOf (files ++ [file]) = Function.update
      (Function.update (heldOf files) ROOTINO
        (heldOf files ROOTINO ++ putDirent (entryName file.path) (files.length + 2)))
      (files.length + 2) bytes := by
  funext inum
  by_cases last : inum = files.length + 2
  · subst last
    rw [Function.update_self]
    unfold heldOf ROOTINO
    rw [if_neg (by omega), if_neg (by omega), show files.length + 2 - (1 + 1) = files.length by omega,
      List.getElem?_concat_length, Option.bind_some, contents, Option.getD_some]
  · rw [Function.update_of_ne last]
    by_cases root : inum = ROOTINO
    · subst root
      rw [Function.update_self]
      unfold heldOf rootEntries
      rw [if_pos rfl, if_pos rfl, entriesFrom_append, show ROOTINO + 1 + files.length =
        files.length + 2 by unfold ROOTINO; omega, List.append_assoc, List.append_assoc]
      simp [entriesFrom]
    · rw [Function.update_of_ne root]
      unfold heldOf
      rw [if_neg root, if_neg root]
      split
      · rfl
      case isFalse high =>
        unfold ROOTINO at *
        by_cases before : inum - (1 + 1) < files.length
        · rw [List.getElem?_append_left before]
        · rw [List.getElem?_eq_none (by rw [List.length_append, List.length_singleton]; omega),
            List.getElem?_eq_none (by omega)]

theorem heldOf_beyond (files : List Input) {inum : Nat}
    (unused : inum = 0 ∨ files.length + 2 ≤ inum) : heldOf files inum = [] := by
  unfold heldOf ROOTINO
  rw [if_neg (by omega)]
  split
  · rfl
  · rw [List.getElem?_eq_none (by omega)]
    rfl

theorem heldOf_prefix (files rest : List Input) {inum : Nat} (known : inum < files.length + 2) :
    (heldOf files inum).length ≤ (heldOf (files ++ rest) inum).length := by
  unfold heldOf
  split
  · unfold rootEntries
    rw [entriesFrom_append]
    simp only [List.length_append]
    omega
  · split
    · exact le_refl _
    · unfold ROOTINO at *
      rw [List.getElem?_append_left (by omega)]

/-- The arguments `files` can be stored. -/
structure Acceptable (files : List Input) : Prop where
  accepted : ∀ file ∈ files, file.Accepted
  fit : Fit (heldOf files) (files.length + 2)

section Arguments

variable {s : State}

theorem fileType_later (files : List Input) : fileType (files.length + 2) = T_FILE :=
  if_neg (by unfold ROOTINO; omega)

theorem addFile_spec (done : List Input) (file : Input)
    (built : Built s (done.length + 2) (heldOf done)) (more : done.length + 2 < areaInodes) :
    outcome (addFile ROOTINO file)
      (fun _ s' => file.Accepted ∧ Built s' (done.length + 3) (heldOf (done ++ [file])))
      (fun _ _ => ¬ (file.Accepted ∧ Fit (heldOf (done ++ [file])) (done.length + 3))) s := by
  unfold addFile
  dsimp only
  by_cases bad : Fs.slash ∈ shortname file.path
  · rw [if_pos bad, outcome_bind, outcome_throw]
    exact fun held => held.1.1 bad
  · rw [if_neg bad]
    split
    case h_1 missing =>
      rw [outcome_throw]
      exact fun held => held.1.2 missing
    case h_2 bytes contents =>
      have accepted : file.Accepted := ⟨bad, by rw [contents]; exact Option.some_ne_none _⟩
      have alloc := ialloc_spec built more (by omega)
      rw [fileType_later] at alloc
      refine outcome_seq (outcome_mono alloc (fun _ _ made => made)
        (fun _ _ impossible => impossible.elim)) ?_
      rintro _ t ⟨rfl, fresh⟩
      have later : done.length + 2 ≠ ROOTINO := by unfold ROOTINO; omega
      have whole := heldOf_append done file contents
      have blank := heldOf_beyond done (Or.inr (le_refl (done.length + 2)))
      refine outcome_seq (outcome_mono (iappend_spec fresh (show ROOTINO ≠ 0 by decide)
        (by unfold ROOTINO; omega) (putDirent (entryName file.path) (done.length + 2)))
        (fun _ _ wrote => wrote) ?_) ?_
      · rintro _ _ past ⟨-, fit⟩
        refine past (fit.mono (le_refl _) fun inum _ => ?_)
        rw [whole]
        by_cases new : inum = done.length + 2
        · subst new
          rw [Function.update_of_ne later, blank]
          exact Nat.zero_le _
        · rw [Function.update_of_ne new]
      · intro _ u after
        have copied := copyFile_spec bytes.length u _ bytes after
          (show done.length + 2 ≠ 0 by omega) (by omega) (le_refl _)
        rw [Function.update_of_ne later, blank, List.nil_append, ← whole] at copied
        exact outcome_mono copied (fun _ _ stored => ⟨accepted, stored⟩)
          (fun _ _ past held => past held.2)

theorem addFiles_spec (rest done : List Input) (s : State)
    (built : Built s (done.length + 2) (heldOf done))
    (more : (done ++ rest).length + 2 ≤ areaInodes) :
    outcome (addFiles ROOTINO rest)
      (fun _ s' => (∀ file ∈ rest, file.Accepted) ∧
        Built s' ((done ++ rest).length + 2) (heldOf (done ++ rest)))
      (fun _ _ => ¬ ((∀ file ∈ rest, file.Accepted) ∧
        Fit (heldOf (done ++ rest)) ((done ++ rest).length + 2))) s := by
  induction rest generalizing done s with
  | nil =>
      rw [addFiles, outcome_pure, List.append_nil]
      exact ⟨fun _ absent => absurd absent List.not_mem_nil, built⟩
  | cons file rest ih =>
      have split : done ++ file :: rest = done ++ [file] ++ rest := by simp
      rw [List.length_append, List.length_cons] at more
      rw [addFiles]
      refine outcome_seq (outcome_mono (addFile_spec done file built (by omega))
        (fun _ _ added => added) ?_) ?_
      · rintro _ _ refused ⟨accepted, fit⟩
        refine refused ⟨accepted file List.mem_cons_self, ?_⟩
        rw [split] at fit
        refine fit.mono (by simp only [List.length_append, List.length_singleton]; omega) ?_
        intro inum known
        refine heldOf_prefix (done ++ [file]) rest ?_
        rw [List.length_append, List.length_singleton]
        omega
      · rintro _ t ⟨accepted, next⟩
        have step := ih (done ++ [file]) t
          (by rw [List.length_append, List.length_singleton]; exact next)
          (by simp only [List.length_append, List.length_singleton]; omega)
        rw [split]
        refine outcome_mono step ?_ ?_
        · rintro _ u ⟨others, last⟩
          refine ⟨?_, last⟩
          intro other inside
          rcases List.mem_cons.mp inside with rfl | later
          · exact accepted
          · exact others other later
        · rintro _ _ refused ⟨all, fit⟩
          exact refused ⟨fun other inside => all other (List.mem_cons_of_mem _ inside), fit⟩

end Arguments

/-- `fs.img` at `exit(0)`. -/
structure Finished (files : List Input) (s : State) : Prop where
  layout : ∃ own, Layout s own (files.length + 2) (dinodeAt s.sector) (extents (heldOf files))
    (heldOf files)
  room : s.freeblock ≤ FSSIZE
  next : s.freeinode = files.length + 2
  few : files.length + 2 ≤ areaInodes
  super : s.sector 1 = putSuperblock sb
  root : (dinodeAt s.sector ROOTINO).type = T_DIR ∧ (dinodeAt s.sector ROOTINO).nlink = 1 ∧
    (dinodeAt s.sector ROOTINO).size = ((rootEntries files).length / BSIZE + 1) * BSIZE
  file : ∀ inum, ROOTINO < inum → inum < files.length + 2 →
    (dinodeAt s.sector inum).type = T_FILE ∧ (dinodeAt s.sector inum).nlink = 1 ∧
      (dinodeAt s.sector inum).size = (heldOf files inum).length
  spare : ∀ inum, inum < areaInodes → inum = 0 ∨ files.length + 2 ≤ inum →
    (dinodeAt s.sector inum).type = 0
  bitmap : s.sector sb.bmapstart = (List.range s.freeblock).foldl setBit zeroBlock

theorem heldOf_root (files : List Input) : heldOf files ROOTINO = rootEntries files := if_pos rfl

/-- `fixRoot` and the call of `balloc` finish the image. -/
theorem finish_spec {s : State} {files : List Input}
    (built : Built s (files.length + 2) (heldOf files)) :
    outcome (do fixRoot ROOTINO; balloc (Fs.asInt (← get).freeblock))
      (fun _ s' => Finished files s') (fun _ _ => False) s := by
  obtain ⟨own, lay⟩ := built.layout
  have inside : ROOTINO < areaInodes := by decide
  have root := built.head ROOTINO (by decide) (by unfold ROOTINO; omega)
  have mine := lay.stored ROOTINO (by decide) (by unfold ROOTINO; omega)
  have limit := mine.bounded
  rw [heldOf_root] at root limit
  have long : (rootEntries files).length / BSIZE ≤ MAXFILE :=
    Nat.div_le_of_le_mul (by rw [Nat.mul_comm]; exact limit)
  have small : ((rootEntries files).length / BSIZE + 1) * BSIZE < 2 ^ 32 :=
    lt_of_le_of_lt (Nat.mul_le_mul_right _ (Nat.succ_le_succ long)) (by decide)
  have size : word (((rootEntries files).length / BSIZE + 1) * BSIZE) =
      ((rootEntries files).length / BSIZE + 1) * BSIZE := Nat.mod_eq_of_lt small
  unfold fixRoot
  simp only [bind_assoc]
  refine outcome_seq (rinode_spec lay.length inside) ?_
  rintro din s' ⟨rfl, rfl⟩
  rw [root.2.2, size]
  generalize made : ({ dinodeAt s'.sector ROOTINO with
    size := ((rootEntries files).length / BSIZE + 1) * BSIZE } : Dinode) = ip
  have addrs : ip.addrs = (dinodeAt s'.sector ROOTINO).addrs := by rw [← made]
  have fits : ip.Fits := by
    rw [← made]
    exact ⟨small, mine.fits.addrs, mine.fits.beyond⟩
  refine outcome_seq (winode_spec lay.length inside ip) ?_
  rintro _ t rfl
  rw [outcome_bind, outcome_get]
  have bound := built.room
  have count : Fs.asInt s'.freeblock = (s'.freeblock : Int) := by
    unfold Fs.asInt
    rw [Int32.toInt_ofNat_of_lt]
    exact lt_of_le_of_lt bound (by decide)
  unfold balloc
  dsimp only
  rw [count, if_neg (by
    have : FSSIZE < BSIZE * 8 := by decide
    omega), Int.toNat_natCast]
  refine wsect_outcome (by decide) (by dsimp only; rw [lay.length]; decide) ?_
  have inodes : ∀ inum, inum < areaInodes →
      dinodeAt (Function.update (putInode s'.sector ROOTINO ip) sb.bmapstart
        ((List.range s'.freeblock).foldl setBit zeroBlock)) inum =
        Function.update (dinodeAt s'.sector) ROOTINO ip inum := by
    intro inum few
    have range := iblock_range few
    unfold dinodeAt
    rw [Function.update_of_ne (by omega)]
    exact congrFun (dinodeAt_putInode s'.sector ROOTINO ip fits) inum
  refine ⟨⟨own, ?_⟩, built.room, built.next, built.few, ?_, ?_, ?_, ?_, ?_⟩
  · refine Layout.congr (lay.low ?_ ?_) ?_ (fun inum _ _ => getDinode_fits _ _)
    · rw [Function.update_of_ne (by decide)]
      exact putInode_high s'.sector inside ip (Or.inl (show 0 < sb.inodestart by decide))
    · intro b high
      have low := bmapstart_lt
      rw [Function.update_of_ne (by omega)]
      exact putInode_high s'.sector inside ip (Or.inr (by omega))
    · intro inum _ below
      dsimp only
      rw [inodes inum (lt_of_lt_of_le below built.few)]
      by_cases same : inum = ROOTINO
      · rw [same, Function.update_self, addrs]
      · rw [Function.update_of_ne same]
  · dsimp only
    rw [Function.update_of_ne (by decide)]
    exact (putInode_high s'.sector inside ip
      (Or.inl (show 1 < sb.inodestart by decide))).trans built.super
  · dsimp only
    rw [inodes ROOTINO inside, Function.update_self, ← made]
    exact ⟨root.1, root.2.1, rfl⟩
  · intro inum later below
    dsimp only
    rw [inodes inum (lt_of_lt_of_le below built.few), Function.update_of_ne (by omega)]
    have head := built.head inum (by omega) below
    unfold fileType at head
    rwa [if_neg (by omega)] at head
  · intro inum few unused
    dsimp only
    rw [inodes inum few, Function.update_of_ne (by unfold ROOTINO; omega)]
    exact (built.spare inum few unused).1
  · dsimp only
    rw [Function.update_self]

/-- The loop that writes zeroes leaves a blank disk. -/
theorem zeroing_spec (count : Nat) (small : count ≤ 2 ^ 22) {next : Unit → MkfsM Unit}
    {post : Unit → State → Prop} {fail : Failure → State → Prop}
    (rest : outcome (next ()) post fail { start with freeblock := nmeta, length := count }) :
    outcome (loop (fun i => wsect i zeroBlock) 0 count >>= next) post fail
      { start with freeblock := nmeta } := by
  have pass : ∀ i s, 0 ≤ i → i < 0 + count → s = { start with freeblock := nmeta, length := i } →
      outcome (wsect i zeroBlock)
        (fun _ after => after = { start with freeblock := nmeta, length := i + 1 }) fail s := by
    rintro i s - below rfl
    have near : i < 2 ^ 22 := by omega
    have same : Function.update start.sector i zeroBlock = start.sector :=
      Function.update_eq_self i start.sector
    unfold wsect
    rw [outcome_modify, seek_small near]
    dsimp only
    rw [max_eq_right (by omega), same]
  have run := loop_outcome (fun i s => s = { start with freeblock := nmeta, length := i })
    count 0 { start with freeblock := nmeta } rfl pass
  rw [Nat.zero_add] at run
  refine outcome_seq run ?_
  rintro _ s rfl
  exact rest

/-- The disk with the superblock and no inode. -/
def formatted : State :=
  { start with
    freeblock := nmeta
    length := FSSIZE
    sector := Function.update start.sector 1 (putSuperblock sb) }

theorem format_spec : outcome format (fun _ s => s = formatted) (fun _ _ => False) start := by
  have first : outcome (wsect 1 (putSuperblock sb)) (fun _ s => s = formatted) (fun _ _ => False)
      { start with freeblock := nmeta, length := FSSIZE } :=
    wsect_outcome (by decide) (by decide) rfl
  unfold format
  rw [outcome_bind, outcome_modify]
  -- the size is generalised: with the number itself the loop would be unfolded
  generalize disk : FSSIZE = size at first ⊢
  exact zeroing_spec size (by rw [← disk]; decide) first

theorem formatted_sector (b : Nat) :
    formatted.sector b = if b = 1 then putSuperblock sb else zeroBlock := by
  unfold formatted
  dsimp only
  by_cases one : b = 1
  · rw [one, Function.update_self, if_pos rfl]
  · rw [Function.update_of_ne one, if_neg one]
    rfl

theorem formatted_built : Built formatted 1 (fun _ => []) := by
  have inodes : ∀ inum, inum < areaInodes → (dinodeAt formatted.sector inum).type = 0 := by
    intro inum few
    have range := iblock_range few
    have first : 1 < sb.inodestart := by decide
    unfold dinodeAt
    rw [formatted_sector, if_neg (by omega)]
    exact getDinode_zeroBlock _
  refine ⟨⟨fun _ => none, ?_⟩, by decide, rfl, by decide, formatted_sector 1, ?_, ?_⟩
  · refine ⟨rfl, formatted_sector 0, ?_, ?_, ?_, ?_⟩
    · intro inum positive below
      omega
    · intro b o absent
      cases absent
    · intro b above
      have low : 1 < nmeta := by decide
      have first : nmeta ≤ b := above
      rw [formatted_sector, if_neg (by omega)]
    · unfold total
      rw [Finset.sum_range_one]
      rfl
  · intro inum positive below
    omega
  · intro inum few _
    exact ⟨inodes inum few, rfl⟩

theorem heldOf_nil : heldOf [] = Function.update (fun _ => []) ROOTINO
    (putDirent Fs.dot ROOTINO ++ putDirent Fs.dotdot ROOTINO) := by
  funext inum
  by_cases root : inum = ROOTINO
  · rw [root, Function.update_self, heldOf_root]
    unfold rootEntries entriesFrom
    rw [List.append_nil]
  · rw [Function.update_of_ne root]
    refine heldOf_beyond [] ?_
    unfold ROOTINO at root
    simp only [List.length_nil]
    omega

/-- `main` finishes the image of acceptable arguments and stops on all others. -/
theorem main_spec (files : List Input) (few : files.length + 2 ≤ areaInodes) :
    outcome (main files) (fun _ s => (∀ file ∈ files, file.Accepted) ∧ Finished files s)
      (fun _ _ => ¬ Acceptable files) start := by
  have blankFit : ∀ bytes : List UInt8, bytes.length ≤ (rootEntries files).length →
      Fit (heldOf files) (files.length + 2) → Fit (Function.update (fun _ => []) ROOTINO bytes) 2 := by
    intro bytes short fit
    refine fit.mono (by omega) fun inum _ => ?_
    by_cases root : inum = ROOTINO
    · rw [root, Function.update_self, heldOf_root]
      exact short
    · rw [Function.update_of_ne root]
      exact Nat.zero_le _
  have alloc := ialloc_spec formatted_built (by decide) (by decide)
  unfold main
  refine outcome_seq (outcome_mono format_spec (fun _ _ blank => blank)
    (fun _ _ impossible => impossible.elim)) ?_
  rintro _ s rfl
  refine outcome_seq (outcome_mono alloc (fun _ _ made => made)
    (fun _ _ impossible => impossible.elim)) ?_
  rintro _ s ⟨rfl, root⟩
  rw [if_neg (by decide)]
  refine outcome_seq (outcome_mono (iappend_spec root (show ROOTINO ≠ 0 by decide) (by decide)
    (putDirent Fs.dot ROOTINO)) (fun _ _ done => done) ?_) ?_
  · intro _ _ past acceptable
    refine past (blankFit _ ?_ acceptable.fit)
    unfold rootEntries
    rw [List.nil_append, List.length_append]
    omega
  intro _ s one
  refine outcome_seq (outcome_mono (iappend_spec one (show ROOTINO ≠ 0 by decide) (by decide)
    (putDirent Fs.dotdot ROOTINO)) (fun _ _ done => done) ?_) ?_
  · intro _ _ past acceptable
    rw [Function.update_self, Function.update_idem] at past
    refine past (blankFit _ ?_ acceptable.fit)
    unfold rootEntries
    simp only [List.nil_append, List.length_append]
    omega
  intro _ s two
  rw [Function.update_self, Function.update_idem, List.nil_append, ← heldOf_nil] at two
  have added := addFiles_spec files [] s two few
  rw [List.nil_append] at added
  refine outcome_seq (outcome_mono added (fun _ _ done => done)
    (fun _ _ refused acceptable => refused ⟨acceptable.accepted, acceptable.fit⟩)) ?_
  rintro _ s ⟨accepted, built⟩
  exact outcome_mono (finish_spec built) (fun _ _ done => ⟨accepted, done⟩)
    (fun _ _ impossible => impossible.elim)

end PaddleOs.Mkfs

import PaddleOs.MkfsImage

/-!
What `iappend` does to the image. Each function has one specification with two exits:
it keeps `Layout`, or it fails and then the files appended so far do not fit on the
disk or one of them is longer than `MAXFILE` blocks.
-/

namespace PaddleOs.Mkfs

open Foundation.Outcome

variable {α : Type} {s : State} {own : Nat → Option Owner} {count inum : Nat}
  {dinode : Nat → Dinode} {extent : Nat → Nat} {held : Nat → List UInt8}

theorem seek_small {sec : Nat} (small : sec < 2 ^ 22) : seek sec = sec := by
  unfold seek word BSIZE
  omega

theorem rsect_outcome {post : Block → State → Prop} {fail : Failure → State → Prop} {sec : Nat}
    (small : sec < 2 ^ 22) (inside : sec < s.length → post (s.sector sec) s)
    (past : s.length ≤ sec → fail .dieRead s) : outcome (rsect sec) post fail s := by
  unfold rsect
  rw [outcome_bind, outcome_get, outcome_ite, seek_small small]
  exact ⟨inside, fun outside => past (by omega)⟩

theorem wsect_outcome {post : Unit → State → Prop} {fail : Failure → State → Prop} {sec : Nat}
    {buf : Block} (small : sec < 2 ^ 22) (inside : sec < s.length)
    (written : post () { s with sector := Function.update s.sector sec buf }) :
    outcome (wsect sec buf) post fail s := by
  unfold wsect
  rw [outcome_modify, seek_small small, max_eq_left (by omega)]
  exact written

theorem takeBlock_outcome {post : Nat → State → Prop} {fail : Failure → State → Prop}
    (small : s.freeblock + 1 < 2 ^ 32)
    (taken : post s.freeblock { s with freeblock := s.freeblock + 1 }) :
    outcome takeBlock post fail s := by
  have same : word (s.freeblock + 1) = s.freeblock + 1 := Nat.mod_eq_of_lt small
  unfold takeBlock
  rw [outcome_bind, outcome_get, outcome_bind, outcome_modify, outcome_pure, same]
  exact taken

/-- The blocks below the data area and the count of inodes are as before. -/
def Kept (s s' : State) : Prop :=
  (∀ b, b < nmeta → s'.sector b = s.sector b) ∧ s'.freeinode = s.freeinode

theorem Kept.refl (s : State) : Kept s s := ⟨fun _ _ => rfl, rfl⟩

theorem Kept.trans {s t u : State} (first : Kept s t) (next : Kept t u) : Kept s u :=
  ⟨fun b low => (next.1 b low).trans (first.1 b low), next.2.trans first.2⟩

theorem Kept.write {s t : State} (before : Kept s t) {b : Nat} (high : nmeta ≤ b) (buf : Block) :
    Kept s { t with sector := Function.update t.sector b buf } :=
  ⟨fun c low => (Function.update_of_ne (show c ≠ b by omega) _ _).trans (before.1 c low), before.2⟩

/-- The blocks a file of `n` data blocks takes. -/
def taken (n : Nat) : Nat := n + if NDIRECT < n then 1 else 0

theorem taken_succ (n : Nat) : taken (n + 1) = unit n + 1 := by
  unfold taken unit
  split <;> split <;> omega

theorem taken_mono {n m : Nat} (less : n ≤ m) : taken n ≤ taken m := by
  unfold taken
  split <;> split <;> omega

/-- After `iappendIndex` or `iappendBlock`: the local inode is `din`, its file has taken
`e` blocks, the last one `x` perhaps past the end of the disk. -/
structure Taken (s : State) (count inum : Nat) (dinode : Nat → Dinode) (extent : Nat → Nat)
    (held : Nat → List UInt8) (din : Dinode) (e x : Nat) (s' : State) : Prop where
  layout : ∃ own, Layout s' own count (Function.update dinode inum din)
    (Function.update extent inum e) held
  kept : Kept s s'
  head : din = { dinode inum with addrs := din.addrs }
  low : nmeta ≤ x
  used : x < s'.freeblock
  room : x < FSSIZE → s'.freeblock ≤ FSSIZE
  close : s'.freeblock ≤ FSSIZE + 1

theorem Layout.fits_extent (lay : Layout s own count dinode extent held) (known : inum < count)
    {e : Nat} (more : s.freeblock + e ≤ FSSIZE + extent inum) :
    nmeta + total (Function.update extent inum e) count ≤ FSSIZE := by
  have changed := total_update extent known e
  have before := lay.tally
  omega

theorem iappendIndex_spec (lay : Layout s own count dinode extent held)
    (room : s.freeblock ≤ FSSIZE) (positive : inum ≠ 0) (known : inum < count)
    (reach : NDIRECT ≤ extent inum) :
    outcome (iappendIndex (dinode inum))
      (fun din s' => Taken s count inum dinode extent held din (max (extent inum) (NDIRECT + 1))
        (din.addrs NDIRECT) s')
      (fun _ _ => False) s := by
  have mine := lay.stored inum positive known
  unfold iappendIndex
  rw [outcome_ite]
  constructor
  · intro absent
    have edge : extent inum = NDIRECT := by
      by_contra other
      have index := lay.owned_apart (mine.index (by omega))
      exact index.1 absent
    have small : s.freeblock < 2 ^ 32 := lt_of_le_of_lt room (by decide)
    rw [outcome_bind]
    refine takeBlock_outcome (lt_of_le_of_lt (Nat.succ_le_succ room) (by decide)) ?_
    rw [outcome_pure, max_eq_right (by omega), ← edge]
    have added := lay.takeIndex positive known edge small
    have base := lay.tally
    rw [edge] at added ⊢
    exact
      { layout := ⟨_, added⟩
        kept := Kept.refl s
        head := rfl
        low := by dsimp only; rw [Function.update_self]; omega
        used := by dsimp only; rw [Function.update_self]; omega
        room := by dsimp only; rw [Function.update_self]; omega
        close := by dsimp only; omega }
  · intro present
    have far : NDIRECT < extent inum := by
      by_contra near
      exact present (mine.noIndex (by omega))
    have index := lay.owned_apart (mine.index far)
    rw [outcome_pure, max_eq_left (by omega)]
    exact
      { layout := ⟨own, by rwa [Function.update_eq_self, Function.update_eq_self]⟩
        kept := Kept.refl s
        head := rfl
        low := index.2.2
        used := index.2.1
        room := fun _ => room
        close := by omega }

theorem Layout.pointer_zero (lay : Layout s own count dinode extent held) (positive : inum ≠ 0)
    (known : inum < count) (fbn : Nat) (limit : fbn < MAXFILE) :
    pointer s.sector (dinode inum) fbn = 0 ↔ extent inum ≤ unit fbn := by
  have mine := lay.stored inum positive known
  constructor
  · intro zero
    by_contra reached
    exact (lay.owned_apart (mine.mapped fbn (by omega))).1 zero
  · exact mine.vacant fbn limit

theorem unit_direct {bn : Nat} (near : bn < NDIRECT) : unit bn = bn := if_pos near

theorem unit_indirect {bn : Nat} (far : ¬ bn < NDIRECT) : unit bn = bn + 1 := if_neg far

/-- A block that is mapped already. -/
theorem Layout.known_block (lay : Layout s own count dinode extent held)
    (room : s.freeblock ≤ FSSIZE) (positive : inum ≠ 0) (known : inum < count) {fbn : Nat}
    (reached : unit fbn < extent inum) :
    Taken s count inum dinode extent held (dinode inum) (max (extent inum) (taken (fbn + 1)))
      (pointer s.sector (dinode inum) fbn) s := by
  have block := lay.owned_apart ((lay.stored inum positive known).mapped fbn reached)
  rw [taken_succ, max_eq_left (by omega)]
  exact
    { layout := ⟨own, by rwa [Function.update_eq_self, Function.update_eq_self]⟩
      kept := Kept.refl s
      head := rfl
      low := block.2.2
      used := block.2.1
      room := fun _ => room
      close := by omega }

theorem iappendBlock_direct (lay : Layout s own count dinode extent held)
    (room : s.freeblock ≤ FSSIZE) (positive : inum ≠ 0) (known : inum < count) {fbn : Nat}
    (near : fbn < NDIRECT) (place : unit fbn < extent inum ∨ extent inum = taken fbn) :
    outcome (iappendBlock (dinode inum) fbn)
      (fun r s' => r.2 = pointer s'.sector r.1 fbn ∧
        Taken s count inum dinode extent held r.1 (max (extent inum) (taken (fbn + 1))) r.2 s')
      (fun _ _ => False) s := by
  have direct : pointer s.sector (dinode inum) fbn = (dinode inum).addrs fbn := if_pos near
  have zero := lay.pointer_zero positive known fbn (by unfold MAXFILE; omega)
  rw [direct, unit_direct near] at zero
  unfold iappendBlock
  rw [if_pos near, outcome_ite]
  constructor
  · intro absent
    have next : extent inum = fbn := by
      have free := zero.mp absent
      unfold taken at place
      rw [unit_direct near, if_neg (by omega)] at place
      omega
    have small : s.freeblock < 2 ^ 32 := lt_of_le_of_lt room (by decide)
    rw [outcome_bind]
    refine takeBlock_outcome (lt_of_le_of_lt (Nat.succ_le_succ room) (by decide)) ?_
    rw [outcome_pure, taken_succ, unit_direct near, max_eq_right (by omega)]
    have added := lay.takeDirect positive known (by omega) small
    have base := lay.tally
    rw [next] at added
    refine ⟨?_, ?_⟩
    · unfold pointer
      dsimp only
      rw [if_pos near, Function.update_self]
    · exact
        { layout := ⟨_, added⟩
          kept := Kept.refl s
          head := rfl
          low := by dsimp only; omega
          used := by dsimp only; omega
          room := by dsimp only; omega
          close := by dsimp only; omega }
  · intro present
    rw [outcome_pure]
    refine ⟨direct.symm, ?_⟩
    rw [← direct]
    refine lay.known_block room positive known ?_
    rw [unit_direct near]
    by_contra free
    exact present (zero.mpr (by omega))

/-- `iappendBlock` past the direct blocks once the indirect block is there and readable. -/
theorem iappendBlock_entry {din : Dinode} {e x fbn : Nat} {s' : State}
    (index : Taken s count inum dinode extent held din e x s') (room : s'.freeblock ≤ FSSIZE)
    (positive : inum ≠ 0) (known : inum < count) (far : ¬ fbn < NDIRECT) (limit : fbn < MAXFILE)
    (place : unit fbn < e ∨ e = unit fbn) :
    outcome (do
        let indirect ← pure (s'.sector (din.addrs NDIRECT))
        if getIndirect indirect (fbn - NDIRECT) = 0 then
          let x ← takeBlock
          wsect (din.addrs NDIRECT) (putIndirect indirect (fbn - NDIRECT) x)
          return (din, x)
        else return (din, getIndirect indirect (fbn - NDIRECT)))
      (fun r s' => r.2 = pointer s'.sector r.1 fbn ∧
        Taken s count inum dinode extent held r.1 (max e (unit fbn + 1)) r.2 s')
      (fun _ _ => False) s' := by
  obtain ⟨own', lay⟩ := index.layout
  have entry : pointer s'.sector din fbn =
      getIndirect (s'.sector (din.addrs NDIRECT)) (fbn - NDIRECT) := if_neg far
  have zero := lay.pointer_zero positive known fbn limit
  have mine := lay.stored inum positive known
  rw [Function.update_self] at zero
  simp only [Function.update_self] at mine
  rw [entry] at zero
  have long : NDIRECT < e := by
    rw [unit_indirect far] at place
    omega
  rw [pure_bind, outcome_ite]
  constructor
  · intro absent
    have next : e = unit fbn := by
      have free := zero.mp absent
      rw [Function.update_self] at free
      omega
    have small : s'.freeblock < 2 ^ 32 := lt_of_le_of_lt room (by decide)
    have block := lay.owned_apart (mine.index long)
    have added := lay.takeIndirect positive known (by rw [Function.update_self]; exact long) small
    have spot : e - 1 - NDIRECT = fbn - NDIRECT := by
      rw [next, unit_indirect far]
      omega
    simp only [Function.update_self, Function.update_idem, spot] at added
    rw [outcome_bind]
    refine takeBlock_outcome (lt_of_le_of_lt (Nat.succ_le_succ room) (by decide)) ?_
    rw [outcome_bind]
    have readable : din.addrs NDIRECT < FSSIZE := by omega
    refine wsect_outcome (lt_trans readable (by decide)) (by dsimp only; rw [lay.length]; omega) ?_
    rw [outcome_pure, max_eq_right (by omega)]
    have base := lay.tally
    refine ⟨?_, ?_⟩
    · unfold pointer
      dsimp only
      rw [if_neg far, Function.update_self, getIndirect_putIndirect _ _ _ small]
    · rw [← next]
      exact
        { layout := ⟨_, added⟩
          kept := ⟨(index.kept.write block.2.2 _).1, index.kept.2⟩
          head := index.head
          low := by dsimp only; omega
          used := by dsimp only; omega
          room := by dsimp only; omega
          close := by dsimp only; omega }
  · intro present
    have reached : unit fbn < e := by
      by_contra free
      refine present (zero.mpr ?_)
      rw [Function.update_self]
      omega
    have block := lay.owned_apart (mine.mapped fbn reached)
    rw [outcome_pure, max_eq_left (by omega)]
    refine ⟨entry.symm, ?_⟩
    rw [← entry]
    exact
      { layout := ⟨own', lay⟩
        kept := index.kept
        head := index.head
        low := block.2.2
        used := block.2.1
        room := fun _ => room
        close := by omega }

theorem iappendBlock_spec (lay : Layout s own count dinode extent held)
    (room : s.freeblock ≤ FSSIZE) (positive : inum ≠ 0) (known : inum < count) {fbn : Nat}
    (limit : fbn < MAXFILE) (place : unit fbn < extent inum ∨ extent inum = taken fbn) :
    outcome (iappendBlock (dinode inum) fbn)
      (fun r s' => r.2 = pointer s'.sector r.1 fbn ∧
        Taken s count inum dinode extent held r.1 (max (extent inum) (taken (fbn + 1))) r.2 s')
      (fun _ _ => FSSIZE <
        nmeta + total (Function.update extent inum (max (extent inum) (taken (fbn + 1)))) count)
      s := by
  by_cases near : fbn < NDIRECT
  · exact outcome_mono (iappendBlock_direct lay room positive known near place)
      (fun _ _ held => held) (fun _ _ impossible => impossible.elim)
  · have edge : NDIRECT ≤ extent inum := by
      rw [unit_indirect near] at place
      unfold taken at place
      split at place <;> omega
    unfold iappendBlock
    rw [if_neg near]
    refine outcome_seq (outcome_mono (iappendIndex_spec lay room positive known edge)
      (fun _ _ held => held) (fun _ _ impossible => impossible.elim)) ?_
    intro din s' index
    obtain ⟨own', after⟩ := index.layout
    have close := index.close
    rw [outcome_bind]
    have spot : unit fbn < max (extent inum) (NDIRECT + 1) ∨
        max (extent inum) (NDIRECT + 1) = unit fbn := by
      rw [unit_indirect near] at place ⊢
      unfold taken at place
      split at place <;> omega
    refine rsect_outcome (lt_of_lt_of_le index.used (le_trans close (by decide))) ?_ ?_
    · intro inside
      rw [after.length] at inside
      have entry := iappendBlock_entry index (index.room inside) positive known near limit spot
      rw [taken_succ]
      have width : max (max (extent inum) (NDIRECT + 1)) (unit fbn + 1) =
          max (extent inum) (unit fbn + 1) := by
        rw [unit_indirect near]
        omega
      rw [width, pure_bind] at entry
      exact outcome_mono entry (fun _ _ held => held) (fun _ _ impossible => impossible.elim)
    · intro past
      rw [after.length] at past
      have used := index.used
      have grown := after.tally
      have more : total (Function.update extent inum (max (extent inum) (NDIRECT + 1))) count ≤
          total (Function.update extent inum (max (extent inum) (taken (fbn + 1)))) count := by
        have first := total_update extent known (max (extent inum) (NDIRECT + 1))
        have second := total_update extent known (max (extent inum) (taken (fbn + 1)))
        have wide : NDIRECT + 1 ≤ taken (fbn + 1) := by
          rw [taken_succ, unit_indirect near]
          omega
        omega
      omega

/-- The data blocks of a file of `length` bytes. -/
def blocksOf (length : Nat) : Nat := (length + (BSIZE - 1)) / BSIZE

theorem blocksOf_mono {n m : Nat} (less : n ≤ m) : blocksOf n ≤ blocksOf m :=
  Nat.div_le_div_right (by omega)

/-- Where the next byte of a file goes: into its last block, or into a new one. -/
theorem blocksOf_place (off : Nat) :
    blocksOf off = off / BSIZE + 1 ∨ blocksOf off = off / BSIZE := by
  unfold blocksOf BSIZE
  omega

theorem blocksOf_turn (off count : Nat) (some : 0 < count)
    (inside : off + count ≤ (off / BSIZE + 1) * BSIZE) :
    blocksOf (off + count) = off / BSIZE + 1 := by
  unfold blocksOf BSIZE at *
  omega

theorem iappend_place {off : Nat} (taking : extent inum = taken (blocksOf off)) :
    unit (off / BSIZE) < extent inum ∨ extent inum = taken (off / BSIZE) := by
  rcases blocksOf_place off with partly | full
  · left
    rw [taking, partly, taken_succ]
    exact Nat.lt_succ_self _
  · right
    rw [taking, full]

theorem iappend_extent {off count : Nat} (taking : extent inum = taken (blocksOf off))
    (some : 0 < count) (inside : off + count ≤ (off / BSIZE + 1) * BSIZE) :
    max (extent inum) (taken (off / BSIZE + 1)) = taken (blocksOf (off + count)) := by
  rw [blocksOf_turn off count some inside, taking]
  refine max_eq_right (taken_mono ?_)
  have := blocksOf_place off
  omega

/-- The files do not fit: one is too long, or together they need more than the disk. -/
def Overflows (extent : Nat → Nat) (count length : Nat) : Prop :=
  MAXFILE * BSIZE < length ∨ FSSIZE < nmeta + total extent count

theorem total_update_mono (extent : Nat → Nat) (known : inum < count) {e e' : Nat}
    (more : e ≤ e') :
    nmeta + total (Function.update extent inum e) count ≤
      nmeta + total (Function.update extent inum e') count := by
  have first := total_update extent known e
  have second := total_update extent known e'
  omega

/-- `p` has been appended to the file of `inum`; the local inode and offset are `r`. -/
structure Appended (s : State) (count inum : Nat) (dinode : Nat → Dinode) (extent : Nat → Nat)
    (held : Nat → List UInt8) (p : List UInt8) (r : Dinode × Nat) (s' : State) : Prop where
  layout : ∃ own, Layout s' own count (Function.update dinode inum r.1)
    (Function.update extent inum (taken (blocksOf ((held inum).length + p.length))))
    (Function.update held inum (held inum ++ p))
  room : s'.freeblock ≤ FSSIZE
  kept : Kept s s'
  head : r.1 = { dinode inum with addrs := r.1.addrs }
  off : r.2 = (held inum).length + p.length

theorem Layout.appended_nil (lay : Layout s own count dinode extent held)
    (room : s.freeblock ≤ FSSIZE) (taking : extent inum = taken (blocksOf (held inum).length)) :
    Appended s count inum dinode extent held [] (dinode inum, (held inum).length) s where
  layout := ⟨own, by
    rwa [List.length_nil, Nat.add_zero, ← taking, List.append_nil, Function.update_eq_self,
      Function.update_eq_self, Function.update_eq_self]⟩
  room := room
  kept := Kept.refl s
  head := rfl
  off := rfl

/-- One turn of `iappendFrom` from the block it found. -/
theorem Taken.write {din : Dinode} {s' : State} {fbn : Nat} {chunk : List UInt8}
    (block : Taken s count inum dinode extent held din
      (max (extent inum) (taken (fbn + 1))) (pointer s'.sector din fbn) s')
    (positive : inum ≠ 0) (known : inum < count) (limit : fbn < MAXFILE)
    (place : (held inum).length / BSIZE = fbn)
    (taking : extent inum = taken (blocksOf (held inum).length)) (some : 0 < chunk.length)
    (inside : (held inum).length + chunk.length ≤ (fbn + 1) * BSIZE)
    (readable : pointer s'.sector din fbn < FSSIZE) :
    Appended s count inum dinode extent held chunk (din, (held inum).length + chunk.length)
      { s' with
        sector := Function.update s'.sector (pointer s'.sector din fbn)
          (putBytes (s'.sector (pointer s'.sector din fbn))
            ((held inum).length - fbn * BSIZE) chunk) } := by
  obtain ⟨own', lay⟩ := block.layout
  subst place
  have reached : unit ((held inum).length / BSIZE) <
      Function.update extent inum
        (max (extent inum) (taken ((held inum).length / BSIZE + 1))) inum := by
    rw [Function.update_self, taken_succ]
    omega
  have written := lay.write positive known chunk reached limit rfl inside
  simp only [Function.update_self] at written
  rw [iappend_extent taking some inside] at written
  exact
    { layout := ⟨own', written⟩
      room := block.room readable
      kept := block.kept.write block.low _
      head := block.head
      off := rfl }

theorem Appended.extend {p q : List UInt8} {r r' : Dinode × Nat} {s' s'' : State}
    {dinode' : Nat → Dinode} {extent' : Nat → Nat} {held' : Nat → List UInt8}
    (first : Appended s count inum dinode extent held p r s')
    (hdinode : dinode' = Function.update dinode inum r.1)
    (hextent : extent' =
      Function.update extent inum (taken (blocksOf ((held inum).length + p.length))))
    (hheld : held' = Function.update held inum (held inum ++ p))
    (next : Appended s' count inum dinode' extent' held' q r' s'') :
    Appended s count inum dinode extent held (p ++ q) r' s'' := by
  subst hdinode hextent hheld
  obtain ⟨own, lay⟩ := next.layout
  have size := next.off
  have head := next.head
  simp only [Function.update_self, Function.update_idem, List.length_append, Nat.add_assoc,
    List.append_assoc] at lay size head
  refine ⟨⟨own, ?_⟩, next.room, first.kept.trans next.kept, ?_, ?_⟩
  · rwa [List.length_append]
  · rw [head, first.head]
  · rw [size, List.length_append]

theorem iappendFrom_spec (fuel : Nat) (s : State) (own : Nat → Option Owner)
    (dinode : Nat → Dinode) (extent : Nat → Nat) (held : Nat → List UInt8) (p : List UInt8)
    (lay : Layout s own count dinode extent held) (room : s.freeblock ≤ FSSIZE)
    (positive : inum ≠ 0) (known : inum < count) (enough : p.length ≤ fuel)
    (taking : extent inum = taken (blocksOf (held inum).length)) :
    outcome (iappendFrom fuel (dinode inum) p (held inum).length)
      (Appended s count inum dinode extent held p)
      (fun _ _ => Overflows
        (Function.update extent inum (taken (blocksOf ((held inum).length + p.length)))) count
        ((held inum).length + p.length)) s := by
  induction fuel generalizing s own dinode extent held p with
  | zero =>
      have empty : p = [] := List.length_eq_zero_iff.mp (by omega)
      subst empty
      rw [iappendFrom, outcome_pure]
      exact lay.appended_nil room taking
  | succ fuel ih =>
      rw [iappendFrom]
      dsimp only
      split
      case isTrue empty =>
        subst empty
        rw [outcome_pure]
        exact lay.appended_nil room taking
      case isFalse more =>
        have some : 0 < p.length := List.length_pos_iff.mpr more
        split
        case isTrue beyond =>
          rw [outcome_bind, outcome_throw]
          left
          have reached : MAXFILE * BSIZE ≤ (held inum).length :=
            le_trans (Nat.mul_le_mul_right _ (by omega)) (Nat.div_mul_le_self _ BSIZE)
          omega
        case isFalse limit =>
          rw [not_not] at limit
          generalize width : min p.length
            (((held inum).length / BSIZE + 1) * BSIZE - (held inum).length) = n1
          have ends : (held inum).length < ((held inum).length / BSIZE + 1) * BSIZE := by
            unfold BSIZE
            omega
          have inside : (held inum).length + n1 ≤ ((held inum).length / BSIZE + 1) * BSIZE := by
            omega
          have cut : (p.take n1).length = n1 := by
            rw [List.length_take]
            omega
          have step := iappend_extent taking (show 0 < n1 by omega) inside
          have grow := total_update_mono extent known
            (taken_mono (blocksOf_mono (show (held inum).length + n1 ≤
              (held inum).length + p.length by omega)))
          rw [← step] at grow
          refine outcome_seq (outcome_mono
            (iappendBlock_spec lay room positive known limit (iappend_place taking))
            (fun _ _ found => found) (fun _ _ big => Or.inr (lt_of_lt_of_le big grow))) ?_
          rintro ⟨din, x⟩ s1 ⟨spot, block⟩
          dsimp only at spot block ⊢
          subst spot
          obtain ⟨own1, lay1⟩ := block.layout
          have small := lt_of_lt_of_le block.used
            (le_trans block.close (show FSSIZE + 1 ≤ 2 ^ 22 by decide))
          rw [outcome_bind]
          refine rsect_outcome small ?_ ?_
          · intro readable
            rw [outcome_bind]
            refine wsect_outcome small readable ?_
            rw [lay1.length] at readable
            have turn := block.write positive known limit rfl taking
              (show 0 < (p.take n1).length by omega) (by rw [cut]; exact inside) readable
            obtain ⟨own2, lay2⟩ := turn.layout
            have rest := ih _ own2 _ _ _ (p.drop n1) lay2 turn.room
              (by rw [List.length_drop]; omega)
              (by rw [Function.update_self, Function.update_self, List.length_append])
            have sum : (held inum).length + n1 + (p.length - n1) =
                (held inum).length + p.length := by omega
            simp only [Function.update_self, Function.update_idem, List.length_append,
              List.length_drop, cut, sum] at rest
            refine outcome_mono rest (fun r s2 done => ?_) (fun _ _ big => big)
            have whole := turn.extend rfl (by rw [cut]) rfl done
            rwa [List.take_append_drop] at whole
          · intro past
            rw [lay1.length] at past
            have used := block.used
            have grown := lay1.tally
            right
            omega

end PaddleOs.Mkfs

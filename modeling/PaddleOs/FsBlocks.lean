import PaddleOs.FsVolume

/-!
Blocks and inodes of a represented volume: `balloc`, `bfree`, `iupdate`, `bmap`,
`itrunc` and the loops of `readi` and `writei`. Each function takes a state that
represents a volume with exact ownership to such a state again, and its specification
says how the two volumes differ and which blocks it passed to `log_write`.
-/

namespace PaddleOs.Fs

open Foundation.Outcome
open Volume (place place_le place_ne place_inj)

/-- The stops that are left when blocks are owned exactly. -/
def Permitted (stop : Stop) (_ : JState) : Prop :=
  stop ≠ .freeingFreeBlock ∧ stop ≠ .ilockNoType ∧ stop ≠ .unlinkNlink

/-- Blocks logged on the way from `s` to `s'`. -/
def LogsOnly (s s' : JState) (allowed : Nat → Prop) : Prop :=
  ∀ b ∈ s'.store.logged, b ∈ s.store.logged ∨ allowed b

def isBitmap (sb : Superblock) (n : Nat) : Prop := ∃ b, b < sb.size ∧ n = sb.BBLOCK b

theorem LogsOnly.refl (s : JState) (allowed : Nat → Prop) : LogsOnly s s allowed :=
  fun _ inside => .inl inside

theorem LogsOnly.trans {s s₁ s' : JState} {allowed : Nat → Prop} (first : LogsOnly s s₁ allowed)
    (second : LogsOnly s₁ s' allowed) : LogsOnly s s' allowed := by
  intro b inside
  rcases second b inside with before | now
  · exact first b before
  · exact .inr now

theorem LogsOnly.mono {s s' : JState} {allowed more : Nat → Prop} (logs : LogsOnly s s' allowed)
    (wider : ∀ b, allowed b → more b) : LogsOnly s s' more := by
  intro b inside
  exact (logs b inside).imp id (wider b)

/-- Blocks logged are bitmap blocks or stand at some places of inode `i`. -/
def LogsAt (v : Volume) (i : Nat) (places : Nat → Prop) (s s' : JState) : Prop :=
  LogsOnly s s' fun b => isBitmap v.sb b ∨ ∃ p, places p ∧ v.Tenant i p b

theorem LogsAt.mono {v : Volume} {i : Nat} {places more : Nat → Prop} {s s' : JState}
    (logs : LogsAt v i places s s') (wider : ∀ p, places p → more p) : LogsAt v i more s s' := by
  refine LogsOnly.mono logs fun b => Or.imp id ?_
  rintro ⟨p, inside, held⟩
  exact ⟨p, wider p inside, held⟩

theorem LogsAt.touch {v v' : Volume} {i : Nat} {places : Nat → Prop} {s s' : JState}
    (logs : LogsAt v i places s s') (touch : Volume.Touch i v v') : LogsAt v' i places s s' := by
  refine LogsOnly.mono logs fun b => Or.imp ?_ ?_
  · rw [touch.sb]
    exact id
  · rintro ⟨p, inside, held⟩
    exact ⟨p, inside, touch.tenant held⟩

variable {dirty : Slot → Prop} {s : JState} {v : Volume}

section Bitmap

theorem bitMask_not_and (bi other : Nat) :
    ~~~ bitMask bi &&& bitMask other = if bi % 8 = other % 8 then 0 else bitMask other := by
  have table : ∀ i j : Fin 8, ~~~ ((1 : UInt8) <<< UInt8.ofNat i.val) &&& (1 <<< UInt8.ofNat j.val) =
      if i.val = j.val then 0 else (1 : UInt8) <<< UInt8.ofNat j.val := by
    decide
  exact table ⟨bi % 8, Nat.mod_lt _ (by decide)⟩ ⟨other % 8, Nat.mod_lt _ (by decide)⟩

theorem bitSet_clearBit (data : Block) (bi other : Nat) :
    bitSet (clearBit data bi) other = (decide (other ≠ bi) && bitSet data other) := by
  unfold bitSet clearBit
  by_cases sameByte : other / 8 = bi / 8
  · rw [sameByte, Function.update_self, UInt8.and_assoc, bitMask_not_and]
    by_cases same : other = bi
    · simp [same]
    · rw [if_neg (by omega)]
      simp [same]
  · have different : other ≠ bi := fun same => sameByte (by rw [same])
    simp [Function.update_of_ne sameByte, different]

theorem bitSet_clear_if (data : Block) (bi n : Nat) :
    bitSet (clearBit data bi) n = if n = bi then false else bitSet data n := by
  rw [bitSet_clearBit]
  by_cases same : n = bi <;> simp [same]

theorem bitSet_set_if (data : Block) (bi n : Nat) :
    bitSet (setBit data bi) n = if n = bi then true else bitSet data n := by
  rw [bitSet_setBit]
  by_cases same : n = bi <;> simp [same]

/-- The state `balloc` leaves when it takes block `b`. -/
def ballocated (s : JState) (b : Nat) : JState :=
  (((s.putBlock (s.sb.BBLOCK b) (setBit (s.store.block (s.sb.BBLOCK b)) (b % BPB))).note
    (s.sb.BBLOCK b)).putBlock b zeroBlock).note b

theorem Represents.balloc (rep : Represents dirty s v) {b : Nat} (inside : b < v.sb.size)
    (free : v.used b = false) : Represents dirty (ballocated s b) (v.alloc b) := by
  have low : v.sb.dataStart ≤ b := by
    by_contra before
    have taken := rep.metadata b (by omega)
    rw [free] at taken
    cases taken
  have bits := bitSet_set_if (s.store.block (v.sb.BBLOCK b)) (b % BPB)
  have marked := rep.putBit true inside (fun never => by cases never) bits
  unfold ballocated
  rw [rep.sb]
  exact ((marked.note _).putData zeroBlock low inside).note b

theorem ballocFrom_spec (rep : Represents dirty s v) (dev start count : Nat)
    (before : ∀ b, b < BPB * start → b < v.sb.size → v.used b = true) :
    outcome (ballocFrom dev (BPB * start) count)
      (fun b s' => (b = 0 ∧ s' = s ∧ ∀ b, b < BPB * (start + count) → b < v.sb.size → v.used b = true) ∨
        (b < v.sb.size ∧ v.used b = false ∧ s' = ballocated s b)) Permitted s := by
  induction count generalizing start with
  | zero => exact .inl ⟨rfl, rfl, before⟩
  | succ count ih =>
      unfold ballocFrom
      rw [outcome_bind, outcome_get, outcome_bind, outcome_get, outcome_bind]
      refine bread_step ?_
      rw [outcome_bind]
      refine data_step ?_
      split
      · rename_i bi found
        have listed := List.mem_range.mp (List.mem_of_find?_eq_some found)
        have bit := List.find?_some found
        have offset : (BPB * start + bi) % BPB = bi := by
          rw [Nat.mul_add_mod]
          exact Nat.mod_eq_of_lt (by omega)
        have same : s.sb.BBLOCK (BPB * start + bi) = s.sb.BBLOCK (BPB * start) := by
          unfold Superblock.BBLOCK
          rw [Nat.mul_add_div (by decide), Nat.mul_div_cancel_left _ (by decide),
            Nat.div_eq_of_lt (by omega), Nat.add_zero]
        have within : BPB * start + bi < v.sb.size := by
          rw [← rep.sb]
          omega
        simp only [outcome_bind]
        refine setData_step (logWrite_step (brelse_step ?_))
        unfold bzero
        simp only [outcome_bind]
        refine bread_step (setData_step (logWrite_step (brelse_step ?_)))
        rw [outcome_pure]
        refine .inr ⟨within, ?_, ?_⟩
        · rw [← rep.bitmap _ within, offset, ← rep.sb, same]
          simpa using bit
        · unfold ballocated
          rw [same, offset]
      · rename_i none_
        rw [outcome_bind]
        refine brelse_step ?_
        have passed : ∀ b, b < BPB * (start + 1) → b < v.sb.size → v.used b = true := by
          intro b below inside
          by_cases earlier : b < BPB * start
          · exact before b earlier inside
          rw [Nat.mul_succ] at below
          have place : b = BPB * start + (b - BPB * start) := by omega
          have offset : b % BPB = b - BPB * start := by
            rw [place, Nat.mul_add_mod, Nat.mod_eq_of_lt (by omega)]
            omega
          have same : s.sb.BBLOCK b = s.sb.BBLOCK (BPB * start) := by
            unfold Superblock.BBLOCK
            rw [place, Nat.mul_add_div (by decide), Nat.mul_div_cancel_left _ (by decide),
              Nat.div_eq_of_lt (by omega), Nat.add_zero]
          have listed : b - BPB * start ∈ List.range (min BPB (s.sb.size - BPB * start)) := by
            rw [List.mem_range, rep.sb]
            omega
          have bit := List.find?_eq_none.mp none_ _ listed
          rw [← rep.bitmap b inside, offset, ← rep.sb, same]
          simpa using bit
        have rest := ih (start + 1) passed
        rw [Nat.add_right_comm start 1 count] at rest
        exact rest

theorem balloc_spec (rep : Represents dirty s v) (dev : Nat) :
    outcome (balloc dev)
      (fun b s' => (b = 0 ∧ s' = s ∧ v.Full) ∨
        (b < v.sb.size ∧ v.used b = false ∧ s' = ballocated s b)) Permitted s := by
  have scan := ballocFrom_spec rep dev 0 ((s.sb.size + BPB - 1) / BPB) fun b below => by omega
  rw [Nat.mul_zero, Nat.zero_add] at scan
  unfold balloc
  rw [outcome_bind, outcome_get]
  refine outcome_post scan ?_
  rintro b s' (⟨null, same, all⟩ | taken)
  · refine .inl ⟨null, same, fun c inside => all c ?_ inside⟩
    rw [rep.sb]
    have positive : 0 < BPB := by decide
    have above := Nat.lt_mul_div_succ (v.sb.size - 1) positive
    have round : (v.sb.size + BPB - 1) / BPB = (v.sb.size - 1) / BPB + 1 := by
      rw [show v.sb.size + BPB - 1 = v.sb.size - 1 + BPB by omega, Nat.add_div_right _ positive]
    rw [round]
    omega
  · exact .inr taken

theorem bfree_spec (rep : Represents dirty s v) (dev : Nat) {b : Nat} (low : v.sb.dataStart ≤ b)
    (high : b < v.sb.size) (taken : v.used b = true) :
    outcome (bfree dev b)
      (fun _ s' => Represents dirty s' (v.release b) ∧ s'.inode = s.inode ∧
        LogsOnly s s' (isBitmap v.sb)) Permitted s := by
  have bit := rep.bitmap b high
  rw [taken] at bit
  unfold bfree
  rw [outcome_bind, outcome_get, outcome_bind]
  refine bread_step ?_
  rw [outcome_bind]
  refine data_step ?_
  rw [rep.sb, if_pos bit]
  simp only [outcome_bind]
  refine setData_step (logWrite_step (brelse_step ⟨?_, rfl, ?_⟩))
  · exact (rep.putBit false high (fun _ => low) fun n => bitSet_clear_if _ _ _).note _
  · intro c inside
    rcases List.mem_cons.mp inside with rfl | before
    · exact .inr ⟨b, high, rfl⟩
    · exact .inl before

end Bitmap

section Mapping

/-- Two inodes of one block stand at different offsets. -/
theorem dinode_apart {sb : Superblock} {i j : Nat} (shared : sb.IBLOCK j = sb.IBLOCK i)
    (apart : j ≠ i) : i % IPB ≠ j % IPB := by
  intro equal
  unfold Superblock.IBLOCK at shared
  have left := Nat.div_add_mod j IPB
  have right := Nat.div_add_mod i IPB
  have quotient : j / IPB = i / IPB := by omega
  rw [quotient, ← equal] at left
  exact apart (left.symm.trans right)

/-- The inode `i` is stored into its block. -/
def State.putNode (s : JState) (i : Nat) (d : Dinode) : JState :=
  s.putBlock (s.sb.IBLOCK i) (putDinode (s.store.block (s.sb.IBLOCK i)) (dinodeOffset i) d)

theorem diskNode_putNode (s : JState) {i : Nat} {d : Dinode} (fits : d.Fits) (j : Nat) :
    diskNode (s.putNode i d) j = if j = i then d else diskNode s j := by
  unfold diskNode State.putNode
  change getDinode ((s.putBlock _ _).store.block (s.sb.IBLOCK j)) _ = _
  by_cases same : j = i
  · rw [if_pos same, same, putBlock_same]
    exact getDinode_putDinode _ _ _ fits
  · rw [if_neg same]
    by_cases shared : s.sb.IBLOCK j = s.sb.IBLOCK i
    · rw [shared, putBlock_same]
      exact getDinode_putDinode_other _ _ _ _ (dinode_apart shared same)
    · rw [putBlock_other _ shared]

theorem Represents.putNode (rep : Represents dirty s v) {i : Nat} (inside : i < v.sb.ninodes)
    {d : Dinode} (fits : d.Fits)
    (copy : ∀ k, Loaded s k i → (s.inode k).toDinode = d ∧ (¬ dirty k → d.type ≠ 0)) :
    Represents dirty (s.putNode i d) (v.setNode i d) where
  sb := rep.sb
  sane := rep.sane
  metadata := rep.metadata
  bitmap b within := by
    have start := rep.sane.inodes i inside
    have after := bmapstart_le v.sb b
    unfold State.putNode
    rw [rep.sb, putBlock_other _ (by change v.sb.BBLOCK b ≠ _; omega)]
    exact rep.bitmap b within
  block b low high := by
    have start := rep.sane.inodes i inside
    have data := v.sb.bmapstart_lt
    unfold State.putNode
    rw [rep.sb, putBlock_other _ (by change v.sb.dataStart ≤ b at low; omega)]
    exact rep.block b low high
  counts := rep.counts
  root := rep.root
  numbered := rep.numbered
  unique := rep.unique
  copy k j loaded := by
    by_cases same : j = i
    · subst same
      rw [Volume.setNode_same]
      exact (copy k loaded).1
    · rw [Volume.setNode_other _ _ same]
      exact rep.copy k j loaded
  allocated k j loaded undirty := by
    by_cases same : j = i
    · subst same
      rw [Volume.setNode_same]
      exact (copy k loaded).2 undirty
    · rw [Volume.setNode_other _ _ same]
      exact rep.allocated k j loaded undirty
  synced j within undirty := by
    rw [diskNode_putNode s fits]
    by_cases same : j = i
    · rw [if_pos same, same, Volume.setNode_same]
    · rw [if_neg same, Volume.setNode_other _ _ same]
      exact rep.synced j within undirty
  fits j := by
    by_cases same : j = i
    · rw [same, Volume.setNode_same]
      exact fits
    · rw [Volume.setNode_other _ _ same]
      exact rep.fits j

theorem setNode_self (v : Volume) (i : Nat) : v.setNode i (v.node i) = v := by
  unfold Volume.setNode
  rw [Function.update_eq_self]

theorem iupdate_spec (rep : Represents dirty s v) {k : Slot} {i : Nat} (loaded : Loaded s k i) :
    outcome (iupdate k) (fun _ s' => Represents dirty s' v ∧ diskNode s' i = v.node i ∧
      s'.inode = s.inode ∧ LogsOnly s s' (· = v.sb.IBLOCK i)) Permitted s := by
  have inside : i < v.sb.ninodes := by
    rw [← loaded.2.2]
    exact rep.numbered k loaded.1
  unfold iupdate
  simp only [outcome_bind]
  refine inode_step ?_
  rw [outcome_get]
  refine bread_step (data_step (setData_step (logWrite_step (brelse_step ?_))))
  rw [loaded.2.2, rep.copy k i loaded]
  change Represents dirty ((s.putNode i (v.node i)).note _) v ∧ diskNode (s.putNode i (v.node i)) i = _ ∧ _
  refine ⟨?_, ?_, rfl, ?_⟩
  · have stored := rep.putNode inside (rep.fits i) fun j there => by
      rw [rep.copy j i there]
      exact ⟨rfl, rep.allocated j i there⟩
    rw [setNode_self] at stored
    exact stored.note _
  · rw [diskNode_putNode s (rep.fits i), if_pos rfl]
  · intro b inside
    rcases List.mem_cons.mp inside with rfl | before
    · exact .inr (by rw [rep.sb])
    · exact .inl before

/-- Blocks were allocated to inode `i` through its copy in slot `k`. -/
structure Advance (dirty : Slot → Prop) (k : Slot) (i : Nat) (s s' : JState) (v v' : Volume) :
    Prop where
  rep : Represents dirty s' v'
  owned : v'.Owned
  grow : Volume.Grow i v v'
  table : s'.inode = Function.update s.inode k { s.inode k with toDinode := v'.node i }

variable {k : Slot} {i : Nat}

theorem Advance.refl (rep : Represents dirty s v) (owned : v.Owned) (loaded : Loaded s k i) :
    Advance dirty k i s s v v where
  rep := rep
  owned := owned
  grow := .refl v i
  table := by
    rw [← rep.copy k i loaded]
    exact (Function.update_eq_self k s.inode).symm

theorem loaded_update {s s' : JState} (loaded : Loaded s k i) {d : Dinode}
    (table : s'.inode = Function.update s.inode k { s.inode k with toDinode := d }) :
    Loaded s' k i := by
  unfold Loaded
  rw [table, Function.update_self]
  exact loaded

theorem Advance.loaded {s' : JState} {v' : Volume} (advance : Advance dirty k i s s' v v')
    (loaded : Loaded s k i) : Loaded s' k i := loaded_update loaded advance.table

theorem Advance.trans {s₁ s' : JState} {v₁ v' : Volume} (live : v.Live i)
    (first : Advance dirty k i s s₁ v v₁)
    (second : Advance dirty k i s₁ s' v₁ v') : Advance dirty k i s s' v v' where
  rep := second.rep
  owned := second.owned
  grow := first.grow.trans second.grow first.owned ((first.grow.live i).mpr live)
  table := by
    rw [second.table, first.table, Function.update_idem, Function.update_self]

/-- Inode `i` got blocks at these places only. -/
def Gains (i : Nat) (places : Nat → Prop) (v v' : Volume) : Prop :=
  ∀ p, p ≤ MAXFILE → v.ptr i p = 0 → v'.ptr i p ≠ 0 → places p

theorem Gains.refl (i : Nat) (places : Nat → Prop) (v : Volume) : Gains i places v v :=
  fun _ _ null some_ => absurd null some_

theorem Gains.mono {places places' : Nat → Prop} {v' : Volume} (gains : Gains i places v v')
    (wider : ∀ p, places p → places' p) : Gains i places' v v' :=
  fun p inside null some_ => wider p (gains p inside null some_)

theorem Gains.trans {places : Nat → Prop} {v₁ v' : Volume} (first : Gains i places v v₁)
    (second : Gains i places v₁ v') : Gains i places v v' := by
  intro p inside null some_
  by_cases between : v₁.ptr i p = 0
  · exact second p inside between some_
  · exact first p inside null between

theorem bmapDirect_spec (rep : Represents dirty s v) (owned : v.Owned) (mine : dirty k)
    (loaded : Loaded s k i) (live : v.Live i) {p : Nat} (near : p ≤ NDIRECT) :
    outcome (bmapDirect k p) (fun b s' => ∃ v', Advance dirty k i s s' v v' ∧
      (b ≠ 0 → b = v'.ptr i p) ∧ (b = 0 → v'.Full) ∧ (v.ptr i p ≠ 0 → b ≠ 0 ∧ s' = s ∧ v' = v) ∧
      LogsAt v' i (· = p) s s' ∧ Gains i (· = p) v v' ∧ (b = 0 → v' = v)) Permitted s := by
  have copy := rep.copy k i loaded
  have same : (s.inode k).addrs p = v.ptr i p := by
    rw [v.ptr_direct near, ← copy]
  unfold bmapDirect
  rw [outcome_bind]
  refine inode_step ?_
  rw [same, outcome_ite]
  constructor
  · intro null
    have empty : (v.node i).addrs p = 0 := (v.ptr_direct near).symm.trans null
    refine outcome_seq (balloc_spec rep _) ?_
    rintro b s₁ (⟨rfl, rfl, full⟩ | ⟨inside, free, rfl⟩)
    · rw [if_neg (by simp), outcome_pure]
      exact ⟨v, .refl rep owned loaded, fun wrong => absurd rfl wrong, fun _ => full,
        fun some_ => absurd null some_, LogsOnly.refl _ _, .refl i _ v, fun _ => rfl⟩
    · have data := (owned.free free inside).1
      have first := v.sb.dataStart_pos
      have small := rep.sane.small
      have marked := rep.balloc inside free
      have held : Loaded (ballocated s b) k i := loaded
      rw [if_pos (by omega), outcome_bind]
      refine modifyInode_step ?_
      rw [outcome_pure]
      have node : ({ s.inode k with
          addrs := Function.update (s.inode k).addrs p b } : Inode) = { s.inode k with
            toDinode := { v.node i with addrs := Function.update (v.node i).addrs p b } } := by
        rw [← copy]
      have here : (v.node i).Fits := rep.fits i
      refine ⟨(v.alloc b).setAddr i p b, ⟨?_, ?_, ?_, ?_⟩, ?_, fun wrong => by omega, ?_, ?_, ?_,
        fun wrong => by omega⟩
      · have edited := marked.edit held mine (here.setAddr near (by omega : b < 2 ^ 32))
        change Represents dirty (State.setInode (ballocated s b) k { s.inode k with
          addrs := Function.update (s.inode k).addrs p b }) _
        rw [node]
        exact edited
      · exact Volume.attach_owned owned free inside live near empty
      · exact Volume.attach_grow owned free inside live near empty
      · change Function.update s.inode k { s.inode k with
          addrs := Function.update (s.inode k).addrs p b } = _
        rw [node, Volume.setAddr, Volume.setNode_same]
        rfl
      · intro _
        rw [Volume.attach_ptr owned free live near empty (by omega), if_pos rfl]
      · intro some_
        exact absurd null some_
      · intro c logged
        rcases List.mem_cons.mp logged with rfl | logged
        · refine .inr (.inr ⟨p, rfl, Volume.setAddr_live.mpr live, by unfold MAXFILE; omega, ?_,
            by omega⟩)
          rw [Volume.attach_ptr owned free live near empty (by omega), if_pos rfl]
        · rcases List.mem_cons.mp logged with rfl | before
          · refine .inr (.inl ⟨b, inside, ?_⟩)
            rw [rep.sb]
            rfl
          · exact .inl before
      · intro q _ none_ some_
        rw [Volume.attach_ptr owned free live near empty (by omega)] at some_
        by_contra other
        rw [if_neg other] at some_
        exact some_ none_
  · intro some_
    rw [outcome_pure]
    exact ⟨v, .refl rep owned loaded, fun _ => rfl, fun wrong => absurd wrong some_,
      fun _ => ⟨some_, rfl, rfl⟩, LogsOnly.refl _ _, .refl i _ v, fun _ => rfl⟩

theorem bmapIndirect_spec (rep : Represents dirty s v) (owned : v.Owned) (mine : dirty k)
    (loaded : Loaded s k i) (live : v.Live i) {n : Nat} (entry : n < NINDIRECT) :
    outcome (bmapIndirect k n) (fun b s' => ∃ v', Advance dirty k i s s' v v' ∧
      (b ≠ 0 → b = v'.ptr i (NDIRECT + 1 + n)) ∧ (b = 0 → v'.Full) ∧
      (v.ptr i (NDIRECT + 1 + n) ≠ 0 → b ≠ 0 ∧ s' = s ∧ v' = v) ∧
      LogsAt v' i (fun p => p = NDIRECT ∨ p = NDIRECT + 1 + n) s s' ∧
      Gains i (fun p => p = NDIRECT ∨ p = NDIRECT + 1 + n) v v' ∧
      (b = 0 → v'.ptr i (NDIRECT + 1 + n) = 0)) Permitted s := by
  have far : NDIRECT < NDIRECT + 1 + n := by omega
  unfold bmapIndirect
  refine outcome_seq (bmapDirect_spec rep owned mine loaded live (Nat.le_refl _)) ?_
  rintro ind s₁ ⟨v₁, advance, is, full, unchanged, logs, gains, same⟩
  have gained : Gains i (fun p => p = NDIRECT ∨ p = NDIRECT + 1 + n) v v₁ := gains.mono fun p => .inl
  have wider : LogsAt v₁ i (fun p => p = NDIRECT ∨ p = NDIRECT + 1 + n) s s₁ :=
    logs.mono fun p => .inl
  rw [outcome_ite]
  constructor
  · rintro rfl
    rw [outcome_pure]
    have missing : v.ptr i (NDIRECT + 1 + n) = 0 := by
      have absent : v.ptr i NDIRECT = 0 := by
        by_contra present
        exact absurd rfl (unchanged present).1
      rw [v.ptr_direct (Nat.le_refl _)] at absent
      exact v.ptr_none far absent
    refine ⟨v₁, advance, fun wrong => absurd rfl wrong, full, fun some_ => absurd missing some_, wider,
      gained, fun _ => ?_⟩
    rw [same rfl]
    exact missing
  · intro some_
    have live₁ := (advance.grow.live i).mpr live
    have at_ : (v₁.node i).addrs NDIRECT = ind := by
      rw [is some_, v₁.ptr_direct (Nat.le_refl _)]
    have present : (v₁.node i).addrs NDIRECT ≠ 0 := by rwa [at_]
    have held := Volume.tenant_indirect live₁ present
    have range := advance.owned.range _ _ _ held
    rw [at_] at range
    have loaded₁ := advance.loaded loaded
    have block : s₁.store.block ind = v₁.block ind := advance.rep.block ind range.1 range.2
    have pointed : getIndirect (s₁.store.block ind) n = v₁.ptr i (NDIRECT + 1 + n) := by
      rw [v₁.ptr_entry far present, at_, block, show NDIRECT + 1 + n - NDIRECT - 1 = n by omega]
    have sb : v₁.sb = v.sb := advance.grow.sb
    rw [outcome_bind]
    refine inode_step ?_
    simp only [outcome_bind]
    refine bread_step (data_step ?_)
    rw [pointed, outcome_ite]
    constructor
    · intro null
      refine outcome_seq (balloc_spec advance.rep _) ?_
      rintro b s₂ (⟨rfl, rfl, full₁⟩ | ⟨inside, free, rfl⟩)
      · rw [if_neg (by simp), outcome_bind]
        refine brelse_step ?_
        rw [outcome_pure]
        refine ⟨v₁, advance, fun wrong => absurd rfl wrong, fun _ => full₁, fun found => ?_, wider,
          gained, fun _ => null⟩
        have same := advance.grow.kept _ (by unfold MAXFILE; omega) found
        rw [null] at same
        exact absurd same.symm found
      · have data := (advance.owned.free free inside).1
        have first := v₁.sb.dataStart_pos
        have small := advance.rep.sane.small
        have differs : ind ≠ b := by
          rintro rfl
          have taken := advance.owned.taken held
          rw [at_, free] at taken
          cases taken
        have stored : (ballocated s₁ b).store.block ind = v₁.block ind := by
          have marked := (advance.rep.balloc inside free).block ind range.1 range.2
          rw [marked]
          exact v₁.alloc_other differs
        rw [if_pos (by omega), outcome_bind]
        refine data_step ?_
        simp only [outcome_bind]
        refine setData_step (logWrite_step (brelse_step ?_))
        rw [outcome_pure, stored]
        have ptrs : ∀ q, ((v₁.alloc b).setEntry i n b).ptr i q =
            if q = NDIRECT + 1 + n then b else v₁.ptr i q := by
          intro q
          rw [Volume.setEntry_ptr (v := v₁.alloc b) present (by omega),
            Volume.alloc_ptr advance.owned free live₁]
        have block₂ : (v₁.alloc b).setEntry i n b =
            (v₁.alloc b).setBlock ind (putIndirect (v₁.block ind) n b) := by
          unfold Volume.setEntry
          change (v₁.alloc b).setBlock ((v₁.node i).addrs NDIRECT)
            (putIndirect ((v₁.alloc b).block ((v₁.node i).addrs NDIRECT)) n b) = _
          rw [at_, v₁.alloc_other differs]
        refine ⟨(v₁.alloc b).setEntry i n b, advance.trans live ⟨?_, ?_, ?_, ?_⟩, ?_,
          fun wrong => by omega, ?_, ?_, gained.trans fun q _ none_ some_ => ?_, fun wrong => by omega⟩
        · rw [block₂]
          exact ((advance.rep.balloc inside free).putData _ range.1 range.2).note ind
        · exact Volume.attachEntry_owned advance.owned free inside small live₁ present entry null
        · exact Volume.attachEntry_grow advance.owned free inside small live₁ present null
        · change s₁.inode = Function.update s₁.inode k { s₁.inode k with toDinode := v₁.node i }
          rw [← advance.rep.copy k i loaded₁]
          exact (Function.update_eq_self k s₁.inode).symm
        · intro _
          rw [ptrs, if_pos rfl]
        · intro found
          have same := advance.grow.kept _ (by unfold MAXFILE; omega) found
          rw [null] at same
          exact absurd same.symm found
        · have grow := Volume.attachEntry_grow advance.owned free inside small live₁ present null
          intro c logged
          rcases List.mem_cons.mp logged with rfl | logged
          · refine .inr (.inr ⟨NDIRECT, .inl rfl, live₁, by decide, ?_, some_⟩)
            rw [ptrs NDIRECT, if_neg (by omega), v₁.ptr_direct (Nat.le_refl _), at_]
          rcases List.mem_cons.mp logged with rfl | logged
          · refine .inr (.inr ⟨_, .inr rfl, live₁, by unfold MAXFILE; omega, ?_, by omega⟩)
            rw [ptrs, if_pos rfl]
          rcases List.mem_cons.mp logged with rfl | before
          · refine .inr (.inl ⟨b, inside, ?_⟩)
            rw [advance.rep.sb]
            rfl
          · exact (wider.touch (grow.touch live₁)) c before
        · rw [ptrs] at some_
          by_contra other
          rw [if_neg fun here => other (.inr here)] at some_
          exact some_ none_
    · intro found
      rw [outcome_bind]
      refine brelse_step ?_
      rw [outcome_pure]
      refine ⟨v₁, advance, fun _ => rfl, fun wrong => absurd wrong found, fun was => ?_, wider, gained,
        fun wrong => absurd wrong found⟩
      have there : v.ptr i NDIRECT ≠ 0 := by
        intro null
        rw [v.ptr_direct (Nat.le_refl _)] at null
        exact was (v.ptr_none far null)
      exact ⟨found, (unchanged there).2⟩

/-- The places that lead to block `bn` of a file. -/
def needed (bn p : Nat) : Prop := p = NDIRECT ∧ NDIRECT ≤ bn ∨ p = place bn

theorem bmap_spec (rep : Represents dirty s v) (owned : v.Owned) (mine : dirty k)
    (loaded : Loaded s k i) (live : v.Live i) (bn : Nat) :
    outcome (bmap k bn) (fun b s' => bn < MAXFILE ∧ ∃ v', Advance dirty k i s s' v v' ∧
      (b ≠ 0 → b = v'.ptr i (place bn)) ∧ (b = 0 → v'.Full) ∧
      (v.ptr i (place bn) ≠ 0 → b ≠ 0 ∧ s' = s ∧ v' = v) ∧
      LogsAt v' i (fun p => p = NDIRECT ∨ p = place bn) s s' ∧
      Gains i (needed bn) v v' ∧ (b = 0 → v'.ptr i (place bn) = 0)) Permitted s := by
  unfold bmap
  rw [outcome_ite]
  constructor
  · intro near
    have here : place bn = bn := if_pos near
    rw [here]
    refine outcome_post (bmapDirect_spec rep owned mine loaded live (by omega)) ?_
    rintro b s' ⟨v', advance, is, full, unchanged, logs, gains, same⟩
    refine ⟨by unfold MAXFILE; omega, v', advance, is, full, unchanged, logs.mono fun p => .inr,
      gains.mono fun p is => .inr (is.trans here.symm), fun null => ?_⟩
    rw [same null]
    by_contra some_
    exact absurd null (unchanged some_).1
  · intro further
    have here : place bn = NDIRECT + 1 + (bn - NDIRECT) := by
      unfold place
      rw [if_neg further]
      omega
    rw [here, outcome_ite]
    constructor
    · intro entry
      refine outcome_post (bmapIndirect_spec rep owned mine loaded live entry) ?_
      rintro b s' ⟨v', advance, is, full, unchanged, logs, gains, null⟩
      refine ⟨by unfold MAXFILE; omega, v', advance, is, full, unchanged, logs, ?_, null⟩
      refine gains.mono fun p is => ?_
      rcases is with indirect | entry
      · exact .inl ⟨indirect, by omega⟩
      · exact .inr (entry.trans here.symm)
    · intro _
      rw [outcome_throw]
      unfold Permitted
      decide

end Mapping

section Writing

/-- Inode `i` was written to through its copy in slot `k`. -/
structure Wrote (dirty : Slot → Prop) (k : Slot) (i : Nat) (s s' : JState) (v v' : Volume) :
    Prop where
  rep : Represents dirty s' v'
  owned : v'.Owned
  touch : Volume.Touch i v v'
  table : s'.inode = Function.update s.inode k { s.inode k with toDinode := v'.node i }

variable {k : Slot} {i : Nat}

theorem Advance.wrote {s' : JState} {v' : Volume} (advance : Advance dirty k i s s' v v')
    (live : v.Live i) : Wrote dirty k i s s' v v' where
  rep := advance.rep
  owned := advance.owned
  touch := advance.grow.touch live
  table := advance.table

theorem Wrote.trans {s₁ s' : JState} {v₁ v' : Volume} (live : v.Live i)
    (first : Wrote dirty k i s s₁ v v₁) (second : Wrote dirty k i s₁ s' v₁ v') :
    Wrote dirty k i s s' v v' where
  rep := second.rep
  owned := second.owned
  touch := first.touch.trans second.touch live
  table := by rw [second.table, first.table, Function.update_idem, Function.update_self]

/-- The source delivers the first `n` bytes of `f`, all that were asked for when it succeeds. -/
def Sends (source : Nat → Nat → List UInt8 × Bool) (n : Nat) (f : Nat → UInt8) : Prop :=
  ∀ k m, k + m ≤ n → (source k m).1.length ≤ m ∧ ((source k m).2 = true → (source k m).1.length = m) ∧
    ∀ t, t < (source k m).1.length → (source k m).1.getD t 0 = f (k + t)

/-- No copy from the source fails. -/
def Reliable (source : Nat → Nat → List UInt8 × Bool) : Prop := ∀ k m, (source k m).2 = true

/-- Bytes stored into one block of the file. -/
theorem putBytes_byte (owned : v.Owned) {b off : Nat} (limit : off / BSIZE < MAXFILE)
    (held : v.Tenant i (place (off / BSIZE)) b) (bytes : List UInt8)
    (room : bytes.length ≤ BSIZE - off % BSIZE) (o : Nat) :
    (v.setBlock b (putBytes (v.block b) (off % BSIZE) bytes)).byte i o =
      if off ≤ o ∧ o < off + bytes.length then bytes.getD (o - off) 0 else v.byte i o := by
  have here := Nat.div_add_mod off BSIZE
  have there := Nat.div_add_mod o BSIZE
  have small : off % BSIZE < BSIZE := Nat.mod_lt _ (by decide)
  have small' : o % BSIZE < BSIZE := Nat.mod_lt _ (by decide)
  rw [Volume.setBlock_byte owned limit held]
  by_cases same : o / BSIZE = off / BSIZE
  · rw [same] at there
    rw [if_pos same, putBytes_apply]
    by_cases inside : off ≤ o ∧ o < off + bytes.length
    · rw [if_pos inside, if_pos (by omega)]
      congr 1
      omega
    · have old : v.byte i o = v.block b (o % BSIZE) := by
        unfold Volume.byte
        rw [same, held.2.2.1, if_pos ⟨limit, held.2.2.2⟩]
      rw [if_neg inside, if_neg (by omega), old]
  · rw [if_neg same, if_neg]
    rintro ⟨low, high⟩
    refine same (Nat.le_antisymm ?_ (Nat.div_le_div_right low))
    refine Nat.lt_succ_iff.mp (Nat.div_lt_of_lt_mul ?_)
    rw [Nat.mul_succ]
    omega

def touched (off goal p : Nat) : Prop :=
  p = NDIRECT ∨ ∃ o, off ≤ o ∧ o < goal ∧ p = place (o / BSIZE)

/-- The places that lead to the bytes from `off` to `goal`. -/
def spanned (off goal p : Nat) : Prop := ∃ o, off ≤ o ∧ o < goal ∧ needed (o / BSIZE) p

/-- A loop of `writei` from `off` on that ended at `stop`, when it was to reach `goal`. -/
structure Written (source : Nat → Nat → List UInt8 × Bool) (i first off stop goal : Nat)
    (v v' : Volume) : Prop where
  start : off ≤ stop
  bound : stop ≤ goal
  size : (v'.node i).size = (v.node i).size
  edge : stop = off ∨ stop = goal ∨ stop % BSIZE = 0
  short : Reliable source → stop < goal → v'.Full
  mapped : ∀ o, off ≤ o → o < stop →
    o / BSIZE < MAXFILE ∧ v'.ptr i (place (o / BSIZE)) ≠ 0
  bytes : ∀ f, Sends source (first + (goal - off)) f → ∃ reached, stop ≤ reached ∧ reached ≤ goal ∧
    (Reliable source → reached = stop) ∧
    ∀ o, v'.byte i o = if off ≤ o ∧ o < reached then f (first + (o - off)) else v.byte i o
  gains : Gains i (spanned off goal) v v'
  stuck : Reliable source → stop < goal → v'.ptr i (place (stop / BSIZE)) = 0

theorem writeiFrom_spec (source : Nat → Nat → List UInt8 × Bool) (n fuel tot off : Nat)
    (enough : n - tot ≤ fuel) (below : tot ≤ n)
    (rep : Represents dirty s v) (owned : v.Owned) (mine : dirty k) (loaded : Loaded s k i)
    (live : v.Live i) :
    outcome (writeiFrom k source n fuel tot off) (fun r s' => ∃ v', Wrote dirty k i s s' v v' ∧
      tot ≤ r.1 ∧ r.1 ≤ n ∧ r.2 = off + (r.1 - tot) ∧
      Written source i tot off r.2 (off + (n - tot)) v v' ∧
      LogsAt v' i (touched off (off + (n - tot))) s s') Permitted s := by
  have stay : ∀ {s₁ : JState} {v₁ : Volume}, Advance dirty k i s s₁ v v₁ →
      (tot < n → v₁.Full ∧ v₁.ptr i (place (off / BSIZE)) = 0) →
      Gains i (spanned off (off + (n - tot))) v v₁ →
      Written source i tot off off (off + (n - tot)) v v₁ := by
    intro s₁ v₁ advance full gains
    refine ⟨Nat.le_refl _, Nat.le_add_right _ _, ?_, .inl rfl, fun _ more => (full (by omega)).1,
      fun o low high => by omega, fun f _ => ?_, gains, fun _ more => (full (by omega)).2⟩
    · rw [advance.grow.fields]
    · refine ⟨off, Nat.le_refl _, Nat.le_add_right _ _, fun _ => rfl, fun o => ?_⟩
      rw [if_neg (by omega), advance.grow.byte owned live]
  induction fuel generalizing tot off s v with
  | zero =>
      have all : tot = n := by omega
      rw [writeiFrom, outcome_pure]
      exact ⟨v, (Advance.refl rep owned loaded).wrote live, Nat.le_refl _, below, by omega,
        stay (.refl rep owned loaded) (by omega) (.refl i _ v), LogsOnly.refl _ _⟩
  | succ fuel ih =>
      rw [writeiFrom, outcome_ite]
      constructor
      · intro more
        refine outcome_seq (bmap_spec rep owned mine loaded live _) ?_
        rintro b s₁ ⟨limit, v₁, advance, is, full, -, logs, gains, null⟩
        have reach : off < off + (n - tot) := by omega
        have gains₁ : Gains i (spanned off (off + (n - tot))) v v₁ := by
          exact gains.mono fun p here => ⟨off, Nat.le_refl _, reach, here⟩
        have logs₁ : LogsAt v₁ i (touched off (off + (n - tot))) s s₁ := by
          refine logs.mono fun p => Or.imp id ?_
          rintro rfl
          exact ⟨off, Nat.le_refl _, reach, rfl⟩
        rw [outcome_ite]
        constructor
        · rintro rfl
          rw [outcome_pure]
          exact ⟨v₁, advance.wrote live, Nat.le_refl _, below, by omega,
            stay advance (fun _ => ⟨full rfl, null rfl⟩) gains₁, logs₁⟩
        intro some_
        have live₁ := (advance.grow.live i).mpr live
        have held : v₁.Tenant i (place (off / BSIZE)) b :=
          ⟨live₁, Volume.place_le limit, (is some_).symm, some_⟩
        have range := advance.owned.range _ _ _ held
        have stored : s₁.store.block b = v₁.block b := advance.rep.block b range.1 range.2
        have loaded₁ := advance.loaded loaded
        rw [outcome_bind]
        refine inode_step ?_
        rw [outcome_bind]
        refine bread_step ?_
        dsimp only
        rw [outcome_bind]
        refine data_step ?_
        rw [outcome_bind, stored]
        refine setData_step ?_
        have width : min (n - tot) (BSIZE - off % BSIZE) ≤ BSIZE - off % BSIZE := Nat.min_le_right _ _
        have least : 0 < min (n - tot) (BSIZE - off % BSIZE) := by
          have small : off % BSIZE < BSIZE := Nat.mod_lt _ (by decide)
          omega
        have most : min (n - tot) (BSIZE - off % BSIZE) ≤ n - tot := Nat.min_le_left _ _
        have edge : min (n - tot) (BSIZE - off % BSIZE) = n - tot ∨
            (off + min (n - tot) (BSIZE - off % BSIZE)) % BSIZE = 0 := by
          unfold BSIZE
          omega
        generalize min (n - tot) (BSIZE - off % BSIZE) = m at width least most edge ⊢
        generalize sent : source tot m = delivered
        obtain ⟨bytes, copied⟩ := delivered
        have wrote₂ : Wrote dirty k i s
            (s₁.putBlock b (putBytes (v₁.block b) (off % BSIZE) bytes)) v
            (v₁.setBlock b (putBytes (v₁.block b) (off % BSIZE) bytes)) := by
          refine (advance.wrote live).trans live ⟨?_, ?_, ?_, ?_⟩
          · exact advance.rep.putData _ range.1 range.2
          · exact Volume.setBlock_owned advance.owned held (Volume.place_ne _) _
          · exact Volume.setBlock_touch advance.owned held (Volume.place_ne _) _
          · change s₁.inode = Function.update s₁.inode k { s₁.inode k with toDinode := v₁.node i }
            rw [← advance.rep.copy k i loaded₁]
            exact (Function.update_eq_self k s₁.inode).symm
        generalize placed : v₁.setBlock b (putBytes (v₁.block b) (off % BSIZE) bytes) = v₂ at wrote₂
        have touch₂ : Volume.Touch i v₁ v₂ := by
          rw [← placed]
          exact Volume.setBlock_touch advance.owned held (Volume.place_ne _) _
        have held₂ := touch₂.tenant held
        have gains₂ : Gains i (spanned off (off + (n - tot))) v v₂ := by
          refine gains₁.trans fun p _ none_ some_ => ?_
          rw [← placed, Volume.setBlock_ptr advance.owned held (Volume.place_ne _) live₁] at some_
          exact absurd none_ some_
        have size₂ : (v₂.node i).size = (v.node i).size := by
          rw [← placed]
          change (v₁.node i).size = _
          rw [advance.grow.fields]
        have bytes₂ : ∀ f, Sends source n f → (copied = true → bytes.length = m) ∧ bytes.length ≤ m ∧
            ∀ o, v₂.byte i o = if off ≤ o ∧ o < off + bytes.length then f (tot + (o - off))
              else v.byte i o := by
          intro f sends
          obtain ⟨short, full, each⟩ := sends tot m (by omega)
          rw [sent] at short full each
          dsimp only at short full each
          refine ⟨full, short, fun o => ?_⟩
          rw [← placed, putBytes_byte advance.owned limit held bytes (by omega),
            advance.grow.byte owned live]
          by_cases inside : off ≤ o ∧ o < off + bytes.length
          · rw [if_pos inside, if_pos inside]
            exact each (o - off) (by omega)
          · rw [if_neg inside, if_neg inside]
        have logs₂ : LogsAt v₂ i (touched off (off + (n - tot))) s
            (s₁.putBlock b (putBytes (v₁.block b) (off % BSIZE) bytes)) := logs₁.touch touch₂
        generalize s₁.putBlock b (putBytes (v₁.block b) (off % BSIZE) bytes) = s₂ at wrote₂ logs₂ ⊢
        rw [outcome_ite]
        constructor
        · intro succeeded
          rw [outcome_bind]
          refine logWrite_step ?_
          rw [outcome_bind]
          refine brelse_step ?_
          have live₂ := (wrote₂.touch.live i).mpr live
          have loaded₂ : Loaded (s₂.note b) k i := loaded_update loaded wrote₂.table
          refine outcome_post (ih (tot + m) (off + m) (by omega) (by omega)
            (wrote₂.rep.note b) wrote₂.owned loaded₂ live₂ ?_) ?_
          · intro s₃ v₃ advance₃ full₃ gains₃
            refine ⟨Nat.le_refl _, Nat.le_add_right _ _, ?_, .inl rfl, fun _ more => (full₃ (by omega)).1,
              fun o low high => by omega, fun f _ => ?_, gains₃, fun _ more => (full₃ (by omega)).2⟩
            · rw [advance₃.grow.fields]
            · refine ⟨off + m, Nat.le_refl _, Nat.le_add_right _ _, fun _ => rfl, fun o => ?_⟩
              rw [if_neg (by omega), advance₃.grow.byte wrote₂.owned live₂]
          rintro r s₃ ⟨v₃, wrote₃, low, high, at_, written, logs₃⟩
          have goal : off + m + (n - (tot + m)) = off + (n - tot) := by omega
          rw [goal] at written logs₃
          have noted : Wrote dirty k i s (s₂.note b) v v₂ :=
            { wrote₂ with rep := wrote₂.rep.note b, table := wrote₂.table }
          refine ⟨v₃, noted.trans live wrote₃, by omega, high, by omega,
            ⟨?_, written.bound, ?_, ?_, written.short, ?_, ?_, gains₂.trans (written.gains.mono ?_),
              written.stuck⟩, ?_⟩
          · have far := written.start
            omega
          · rw [written.size, size₂]
          · rcases written.edge with here | there | even
            · rcases edge with last | even
              · exact .inr (.inl (by omega))
              · exact .inr (.inr (by rw [here]; exact even))
            · exact .inr (.inl there)
            · exact .inr (.inr even)
          · intro o first last
            by_cases later : off + m ≤ o
            · exact written.mapped o later last
            · have same : o / BSIZE = off / BSIZE := by
                have here := Nat.div_add_mod off BSIZE
                refine Nat.le_antisymm ?_ (Nat.div_le_div_right first)
                refine Nat.lt_succ_iff.mp (Nat.div_lt_of_lt_mul ?_)
                rw [Nat.mul_succ]
                omega
              rw [same]
              exact ⟨limit, (wrote₃.touch.tenant held₂).2.2.1 ▸ some_⟩
          · intro f sends
            rw [show tot + (off + (n - tot) - off) = n by omega] at sends
            obtain ⟨full, -, each⟩ := bytes₂ f sends
            rw [show n = tot + m + (off + (n - tot) - (off + m)) by omega] at sends
            obtain ⟨reached, past, within, sure, rest⟩ := written.bytes f sends
            have far := written.start
            refine ⟨reached, past, within, sure, fun o => ?_⟩
            rw [rest o, each o, full succeeded]
            by_cases later : off + m ≤ o ∧ o < reached
            · rw [if_pos later, if_pos ⟨by omega, later.2⟩]
              congr 1
              omega
            · rw [if_neg later]
              by_cases here : off ≤ o ∧ o < off + m
              · rw [if_pos here, if_pos (by omega)]
              · rw [if_neg here, if_neg (by omega)]
          · rintro p ⟨o, first, last, leads⟩
            exact ⟨o, by omega, last, leads⟩
          · have before : LogsAt v₂ i (touched off (off + (n - tot))) s (s₂.note b) := by
              intro c logged
              rcases List.mem_cons.mp logged with rfl | old
              · exact .inr (.inr ⟨_, .inr ⟨off, Nat.le_refl _, reach, rfl⟩, held₂⟩)
              · exact logs₂ c old
            refine (before.touch wrote₃.touch).trans (logs₃.mono fun p => Or.imp id ?_)
            rintro ⟨o, first, last, rfl⟩
            exact ⟨o, by omega, last, rfl⟩
        · intro failed
          rw [outcome_bind]
          refine brelse_step ?_
          rw [outcome_pure]
          refine ⟨v₂, wrote₂, Nat.le_refl _, below, by omega,
            ⟨Nat.le_refl _, Nat.le_add_right _ _, size₂, .inl rfl, fun reliable _ => ?_,
              fun o low high => by omega, ?_, gains₂, fun reliable _ => ?_⟩, logs₂⟩
          · have copied := reliable tot m
            rw [sent] at copied
            exact absurd copied failed
          rotate_left
          · have copied := reliable tot m
            rw [sent] at copied
            exact absurd copied failed
          intro f sends
          rw [show tot + (off + (n - tot) - off) = n by omega] at sends
          obtain ⟨-, short, each⟩ := bytes₂ f sends
          refine ⟨off + bytes.length, Nat.le_add_right _ _, by omega, fun reliable => ?_, each⟩
          have copied := reliable tot m
          rw [sent] at copied
          exact absurd copied failed
      · intro done
        have all : tot = n := by omega
        rw [outcome_pure]
        exact ⟨v, (Advance.refl rep owned loaded).wrote live, Nat.le_refl _, below, by omega,
          stay (.refl rep owned loaded) (by omega) (.refl i _ v), LogsOnly.refl _ _⟩

/-- What `writei` did to a volume when it accepted the range. -/
structure Stored (source : Nat → Nat → List UInt8 × Bool) (i off n tot : Nat) (v v' : Volume) :
    Prop where
  touch : Volume.Touch i v v'
  count : tot ≤ n
  size : (v'.node i).size = max (v.node i).size (off + tot)
  edge : tot = 0 ∨ tot = n ∨ (off + tot) % BSIZE = 0
  short : Reliable source → tot < n → v'.Full
  mapped : ∀ o, off ≤ o → o < off + tot → o / BSIZE < MAXFILE ∧ v'.ptr i (place (o / BSIZE)) ≠ 0
  bytes : ∀ f, Sends source n f → ∃ reached, off + tot ≤ reached ∧ reached ≤ off + n ∧
    (Reliable source → reached = off + tot) ∧
    ∀ o, v'.byte i o = if off ≤ o ∧ o < reached then f (o - off) else v.byte i o
  gains : Gains i (spanned off (off + n)) v v'
  stuck : Reliable source → tot < n → v'.ptr i (place ((off + tot) / BSIZE)) = 0

/-- `writei` accepts the range. -/
def Accepts (v : Volume) (i off n : Nat) : Prop :=
  off ≤ (v.node i).size ∧ off + n ≤ MAXFILE * BSIZE

def only (k : Slot) : Slot → Prop := fun j => j = k

theorem only_self (k : Slot) : only k k := rfl

theorem asInt_small {n : Nat} (small : n ≤ MAXFILE * BSIZE) : asInt n = n := by
  have limit : MAXFILE * BSIZE < 2 ^ 31 := by decide
  unfold asInt
  rw [Int32.toInt_ofNat_of_lt (by omega)]

theorem clean_update {s' : JState} {v' : Volume} (rep : Represents (only k) s' v')
    (written : diskNode s' i = v'.node i) (type : (v'.node i).type ≠ 0)
    (loaded : Loaded s' k i) : Represents clean s' v' := by
  refine rep.settle fun j l here mine => ?_
  have slot : j = k := mine
  subst slot
  have same : l = i := here.2.2.symm.trans loaded.2.2
  rw [same]
  exact ⟨written, type⟩

theorem writei_spec (rep : Represents clean s v) (owned : v.Owned) (loaded : Loaded s k i)
    (source : Nat → Nat → List UInt8 × Bool) (off n : Nat) (small : off + n < 2 ^ 32) :
    outcome (writei k source off n) (fun r s' =>
      (r = -1 ∧ s' = s ∧ ¬ Accepts v i off n) ∨
      (Accepts v i off n ∧ ∃ v', ∃ tot : Nat, r = (tot : Int) ∧ Wrote clean k i s s' v v' ∧
        Stored source i off n tot v v' ∧
        LogsOnly s s' (fun b => b = v.sb.IBLOCK i ∨ isBitmap v.sb b ∨
          ∃ p, touched off (off + n) p ∧ v'.Tenant i p b))) Permitted s := by
  have live : v.Live i := by
    refine ⟨?_, rep.allocated k i loaded id⟩
    rw [← loaded.2.2]
    exact rep.numbered k loaded.1
  have same : (s.inode k).size = (v.node i).size := by rw [rep.copy k i loaded]
  have opened : Represents (only k) s v := rep.weaken fun _ never => never.elim
  unfold writei
  rw [outcome_bind]
  refine inode_step ?_
  rw [same, Nat.mod_eq_of_lt small, outcome_ite]
  constructor
  · intro refused
    rw [outcome_pure]
    refine .inl ⟨rfl, rfl, ?_⟩
    rintro ⟨inside, -⟩
    omega
  intro start
  rw [outcome_ite]
  constructor
  · intro beyond
    rw [outcome_pure]
    refine .inl ⟨rfl, rfl, ?_⟩
    rintro ⟨-, short⟩
    omega
  intro short
  have accepted : Accepts v i off n := ⟨by omega, by omega⟩
  refine outcome_seq (writeiFrom_spec source n n 0 off (by omega) (Nat.zero_le _) opened owned
    (only_self k) loaded live) ?_
  rintro ⟨tot, stop⟩ s₁ ⟨v₁, wrote, -, count, at_, written, logs⟩
  dsimp only at count at_ written ⊢
  rw [Nat.sub_zero] at at_ written logs
  subst at_
  have edge : tot = 0 ∨ tot = n ∨ (off + tot) % BSIZE = 0 := by
    rcases written.edge with none_ | all | even
    · exact .inl (by omega)
    · exact .inr (.inl (by omega))
    · exact .inr (.inr even)
  have loaded₁ : Loaded s₁ k i := loaded_update loaded wrote.table
  have live₁ := (wrote.touch.live i).mpr live
  -- the copy gets its new size and is written back
  have finish : ∀ (s₂ : JState) (v₂ : Volume), Wrote (only k) k i s s₂ v v₂ →
      Stored source i off n tot v v₂ → LogsAt v₂ i (touched off (off + n)) s s₂ →
      outcome (do
        iupdate k
        return asInt tot) (fun r s' => (r = -1 ∧ s' = s ∧ ¬ Accepts v i off n) ∨
          (Accepts v i off n ∧ ∃ v', ∃ tot : Nat, r = (tot : Int) ∧ Wrote clean k i s s' v v' ∧
            Stored source i off n tot v v' ∧
            LogsOnly s s' (fun b => b = v.sb.IBLOCK i ∨ isBitmap v.sb b ∨
              ∃ p, touched off (off + n) p ∧ v'.Tenant i p b))) Permitted s₂ := by
    intro s₂ v₂ wrote₂ stored logs₂
    have loaded₂ : Loaded s₂ k i := loaded_update loaded wrote₂.table
    have live₂ := (wrote₂.touch.live i).mpr live
    have sb : v₂.sb = v.sb := wrote₂.touch.sb
    refine outcome_seq (iupdate_spec wrote₂.rep loaded₂) ?_
    rintro _ s₃ ⟨rep₃, disk, table, logs₃⟩
    rw [outcome_pure]
    refine .inr ⟨accepted, v₂, tot, asInt_small (by omega), ⟨?_, wrote₂.owned, wrote₂.touch, ?_⟩, stored, ?_⟩
    · refine clean_update rep₃ disk live₂.2 ?_
      unfold Loaded
      rw [table]
      exact loaded₂
    · rw [table]
      exact wrote₂.table
    · refine LogsOnly.trans (LogsOnly.mono logs₂ fun b => ?_) (logs₃.mono fun b => ?_)
      · rw [sb]
        exact .inr
      · rw [sb]
        exact .inl
  rw [outcome_bind]
  refine inode_step ?_
  have size₁ : (s₁.inode k).size = (v.node i).size := by
    rw [wrote.rep.copy k i loaded₁, written.size]
  rw [size₁, outcome_ite]
  constructor
  · intro longer
    rw [outcome_bind]
    refine modifyInode_step ?_
    have copy₁ := wrote.rep.copy k i loaded₁
    have node : ({ s₁.inode k with size := off + tot } : Inode) =
        { s₁.inode k with toDinode := { v₁.node i with size := off + tot } } := by
      rw [← copy₁]
    rw [node]
    have limit : MAXFILE * BSIZE < 2 ^ 32 := by decide
    have fits : ({ v₁.node i with size := off + tot } : Dinode).Fits :=
      { wrote.rep.fits i with size := by dsimp only; omega }
    have resized : Volume.Touch i v₁ (v₁.setNode i { v₁.node i with size := off + tot }) :=
      Volume.resize_touch _
    refine finish _ (v₁.setNode i { v₁.node i with size := off + tot }) ⟨?_, ?_, ?_, ?_⟩
      ⟨?_, count, ?_, edge, fun reliable less => written.short reliable (by omega), ?_, ?_,
        written.gains.trans ?_, fun reliable less => ?_⟩ ?_
    · exact wrote.rep.edit loaded₁ (only_self k) fits
    · exact Volume.refield_owned wrote.owned rfl Iff.rfl
    · exact wrote.touch.trans resized live
    · rw [Volume.setNode_same]
      change Function.update s₁.inode k { s₁.inode k with toDinode := _ } = _
      rw [wrote.table, Function.update_self, Function.update_idem]
    · exact wrote.touch.trans resized live
    · rw [Volume.setNode_same]
      dsimp only
      omega
    · intro o low high
      rw [Volume.refield_ptr (v := v₁) (d := { v₁.node i with size := off + tot }) rfl]
      exact written.mapped o low high
    · intro f sends
      rw [show n = 0 + (off + n - off) by omega] at sends
      obtain ⟨reached, past, within, sure, each⟩ := written.bytes f sends
      refine ⟨reached, past, within, sure, fun o => ?_⟩
      rw [Volume.refield_byte (v := v₁) (d := { v₁.node i with size := off + tot }) rfl, each o, Nat.zero_add]
    · intro p _ none_ some_
      rw [Volume.refield_ptr (v := v₁) (d := { v₁.node i with size := off + tot }) rfl] at some_
      exact absurd none_ some_
    · rw [Volume.refield_ptr (v := v₁) (d := { v₁.node i with size := off + tot }) rfl]
      exact written.stuck reliable (by omega)
    · exact logs.touch resized
  · intro longer
    refine finish s₁ v₁ wrote ⟨wrote.touch, count, ?_, edge, fun reliable less =>
      written.short reliable (by omega), written.mapped, ?_, written.gains, fun reliable less =>
      written.stuck reliable (by omega)⟩ logs
    · rw [written.size]
      omega
    · intro f sends
      rw [show n = 0 + (off + n - off) by omega] at sends
      obtain ⟨reached, past, within, sure, each⟩ := written.bytes f sends
      refine ⟨reached, past, within, sure, fun o => ?_⟩
      rw [each o, Nat.zero_add]

end Writing

section Truncating

variable {k : Slot} {i : Nat}

/-- Part of the work of `itrunc` is done. -/
structure Trimmed (k : Slot) (i : Nat) (gone : Nat → Prop) (d : Dinode) (s s' : JState)
    (v v' : Volume) : Prop where
  rep : Represents (only k) s' v'
  freed : Volume.Freed i gone d v v'
  table : s'.inode = Function.update s.inode k { s.inode k with toDinode := d }
  logs : LogsOnly s s' (isBitmap v.sb)

theorem Trimmed.loaded {gone : Nat → Prop} {d : Dinode} {s' : JState} {v' : Volume}
    (trimmed : Trimmed k i gone d s s' v v') (loaded : Loaded s k i) : Loaded s' k i :=
  loaded_update loaded trimmed.table

/-- One block is freed. -/
theorem Trimmed.bfree {gone : Nat → Prop} {d : Dinode} {s' : JState} {v' : Volume}
    (trimmed : Trimmed k i gone d s s' v v') (owned : v.Owned) {p b : Nat}
    (held : v.Tenant i p b) (stays : ¬ gone p) (dev : Nat) :
    outcome (bfree dev b) (fun _ s'' => ∃ v'', Trimmed k i (fun q => gone q ∨ q = p) d s s'' v v'')
      Permitted s' := by
  have range := owned.range i p b held
  rw [← trimmed.freed.sb] at range
  refine outcome_post (bfree_spec trimmed.rep dev range.1 range.2
    (trimmed.freed.taken owned held stays)) ?_
  rintro _ s'' ⟨rep, table, logs⟩
  refine ⟨v'.release b, rep, trimmed.freed.release held, table.trans trimmed.table, ?_⟩
  refine trimmed.logs.trans (logs.mono fun c => ?_)
  rw [trimmed.freed.sb]
  exact id

/-- The fields of the copy change. -/
theorem Trimmed.edit {gone : Nat → Prop} {d d' : Dinode} {s' : JState} {v' : Volume}
    (trimmed : Trimmed k i gone d s s' v v') (loaded : Loaded s k i) (fits : d'.Fits) :
    Trimmed k i gone d' s (s'.setInode k { s'.inode k with toDinode := d' }) v
      (v'.setNode i d') where
  rep := trimmed.rep.edit (trimmed.loaded loaded) (only_self k) fits
  freed := trimmed.freed.renode d'
  table := by
    change Function.update s'.inode k { s'.inode k with toDinode := d' } = _
    rw [trimmed.table, Function.update_self, Function.update_idem]
  logs := trimmed.logs

/-- The inode without its first `n` pointers. -/
def stripped (d : Dinode) (n : Nat) : Dinode :=
  { d with addrs := fun p => if p < n then 0 else d.addrs p }

theorem stripped_fits {d : Dinode} (fits : d.Fits) (n : Nat) : (stripped d n).Fits where
  size := fits.size
  addrs p := by
    unfold stripped
    dsimp only
    split
    · decide
    · exact fits.addrs p
  beyond p past := by
    unfold stripped
    dsimp only
    split
    · rfl
    · exact fits.beyond p past

theorem stripped_succ (d : Dinode) (n : Nat) :
    { stripped d n with addrs := Function.update (stripped d n).addrs n 0 } = stripped d (n + 1) := by
  unfold stripped
  dsimp only
  congr 1
  funext p
  by_cases same : p = n
  · rw [same, Function.update_self, if_pos (by omega)]
  · rw [Function.update_of_ne same]
    by_cases before : p < n
    · rw [if_pos before, if_pos (by omega)]
    · rw [if_neg before, if_neg (by omega)]

theorem stripped_null {d : Dinode} {n : Nat} (null : d.addrs n = 0) :
    stripped d (n + 1) = stripped d n := by
  unfold stripped
  congr 1
  funext p
  by_cases before : p < n
  · rw [if_pos before, if_pos (by omega)]
  · rw [if_neg before]
    by_cases same : p = n
    · rw [same, if_pos (by omega), null]
    · rw [if_neg (by omega)]

/-- One turn of the first loop. -/
theorem itruncDirect_spec (owned : v.Owned) (loaded : Loaded s k i) (live : v.Live i)
    (fits : (v.node i).Fits) {n : Nat} (near : n < NDIRECT) {s' : JState} {v' : Volume}
    (trimmed : Trimmed k i (· < n) (stripped (v.node i) n) s s' v v') :
    outcome (itruncDirect k n)
      (fun _ s'' => ∃ v'', Trimmed k i (· < n + 1) (stripped (v.node i) (n + 1)) s s'' v v'')
      Permitted s' := by
  have copy : (s'.inode k).toDinode = stripped (v.node i) n := by
    rw [trimmed.table, Function.update_self]
  have addr : (s'.inode k).addrs n = v.ptr i n := by
    rw [copy, v.ptr_direct (by omega)]
    exact if_neg (Nat.lt_irrefl n)
  unfold itruncDirect
  rw [outcome_bind]
  refine inode_step ?_
  rw [addr, outcome_ite]
  constructor
  · intro some_
    have held : v.Tenant i n (v.ptr i n) := ⟨live, by unfold MAXFILE; omega, rfl, some_⟩
    refine outcome_seq (trimmed.bfree owned held (Nat.lt_irrefl n) _) ?_
    rintro _ s₁ ⟨v₁, trimmed₁⟩
    refine modifyInode_step ?_
    have copy₁ : (s₁.inode k).toDinode = stripped (v.node i) n := by
      rw [trimmed₁.table, Function.update_self]
    have node : ({ s₁.inode k with addrs := Function.update (s₁.inode k).addrs n 0 } : Inode) =
        { s₁.inode k with toDinode := stripped (v.node i) (n + 1) } := by
      rw [← stripped_succ, ← copy₁]
    rw [node]
    have edited := trimmed₁.edit loaded (stripped_fits fits (n + 1))
    refine ⟨_, { edited with freed := edited.freed.congr fun p _ _ => ?_ }⟩
    omega
  · intro null
    rw [outcome_pure]
    have zero : v.ptr i n = 0 := by simpa using null
    refine ⟨v', { trimmed with freed := ?_, table := ?_ }⟩
    · rw [stripped_null ((v.ptr_direct (by omega)).symm.trans zero)]
      refine trimmed.freed.congr fun p _ present => ?_
      have other : p ≠ n := fun same => present (same ▸ zero)
      omega
    · rw [stripped_null ((v.ptr_direct (by omega)).symm.trans zero)]
      exact trimmed.table

/-- One turn of the loop over the indirect block. -/
theorem itruncIndirect_spec (owned : v.Owned) (live : v.Live i)
    (some_ : (v.node i).addrs NDIRECT ≠ 0) {d : Dinode} {n : Nat} (entry : n < NINDIRECT)
    {s' : JState} {v' : Volume} (dev : Nat)
    (trimmed : Trimmed k i (fun p => p < NDIRECT ∨ NDIRECT < p ∧ p < NDIRECT + 1 + n) d s s' v v') :
    outcome (itruncIndirect (W := Journal) dev ((v.node i).addrs NDIRECT) n)
      (fun _ s'' => ∃ v'', Trimmed k i
        (fun p => p < NDIRECT ∨ NDIRECT < p ∧ p < NDIRECT + 1 + (n + 1)) d s s'' v v'')
      Permitted s' := by
  have range := owned.range _ _ _ (Volume.tenant_indirect live some_)
  rw [← trimmed.freed.sb] at range
  have far : NDIRECT < NDIRECT + 1 + n := by omega
  have pointed : getIndirect (s'.store.block ((v.node i).addrs NDIRECT)) n =
      v.ptr i (NDIRECT + 1 + n) := by
    rw [trimmed.rep.block _ range.1 range.2, trimmed.freed.block, v.ptr_entry far some_,
      show NDIRECT + 1 + n - NDIRECT - 1 = n by omega]
  unfold itruncIndirect
  rw [outcome_bind]
  refine data_step ?_
  rw [pointed, outcome_ite]
  constructor
  · intro present
    have held : v.Tenant i (NDIRECT + 1 + n) (v.ptr i (NDIRECT + 1 + n)) :=
      ⟨live, by unfold MAXFILE; omega, rfl, present⟩
    refine outcome_post (trimmed.bfree owned held (by omega) dev) ?_
    rintro _ s₁ ⟨v₁, trimmed₁⟩
    refine ⟨v₁, { trimmed₁ with freed := trimmed₁.freed.congr fun p _ _ => ?_ }⟩
    omega
  · intro null
    rw [outcome_pure]
    have zero : v.ptr i (NDIRECT + 1 + n) = 0 := by simpa using null
    refine ⟨v', { trimmed with freed := trimmed.freed.congr fun p _ present => ?_ }⟩
    have other : p ≠ NDIRECT + 1 + n := fun same => present (same ▸ zero)
    omega

/-- The inode `itrunc` leaves. -/
def emptied (d : Dinode) : Dinode := { d with addrs := fun _ => 0, size := 0 }

theorem emptied_fits (d : Dinode) : (emptied d).Fits where
  size := Nat.two_pow_pos 32
  addrs _ := Nat.two_pow_pos 32
  beyond _ _ := rfl

theorem stripped_all {d : Dinode} (fits : d.Fits) :
    ({ stripped d (NDIRECT + 1) with size := 0 } : Dinode) = emptied d := by
  unfold stripped emptied
  dsimp only
  congr 1
  funext p
  by_cases inside : p < NDIRECT + 1
  · rw [if_pos inside]
  · rw [if_neg inside, fits.beyond p (by omega)]

/-- Inode `i` lost all its blocks. -/
structure Truncated (k : Slot) (i : Nat) (s s' : JState) (v v' : Volume) : Prop where
  rep : Represents clean s' v'
  owned : v'.Owned
  freed : Volume.Freed i (fun _ => True) (emptied (v.node i)) v v'
  table : s'.inode = Function.update s.inode k { s.inode k with toDinode := emptied (v.node i) }
  logs : LogsOnly s s' fun b => b = v.sb.IBLOCK i ∨ isBitmap v.sb b

theorem itrunc_spec (rep : Represents clean s v) (owned : v.Owned) (loaded : Loaded s k i) :
    outcome (itrunc k) (fun _ s' => ∃ v', Truncated k i s s' v v') Permitted s := by
  have live : v.Live i := by
    refine ⟨?_, rep.allocated k i loaded id⟩
    rw [← loaded.2.2]
    exact rep.numbered k loaded.1
  have fits := rep.fits i
  have copy := rep.copy k i loaded
  have untouched : stripped (v.node i) 0 = v.node i := by
    unfold stripped
    simp
  have before : Trimmed k i (· < 0) (stripped (v.node i) 0) s s v v := by
    refine ⟨rep.weaken fun _ never => never.elim, ?_, ?_, LogsOnly.refl _ _⟩
    · rw [untouched]
      exact (Volume.Freed.refl v i).congr fun p _ _ => by simp
    · rw [untouched, ← copy]
      exact (Function.update_eq_self k s.inode).symm
  have direct : outcome (loop (itruncDirect k) 0 NDIRECT) (fun _ s' => ∃ v', Trimmed k i
      (· < 0 + NDIRECT) (stripped (v.node i) (0 + NDIRECT)) s s' v v') Permitted s :=
    loop_outcome (fun n s' => ∃ v', Trimmed k i (· < n) (stripped (v.node i) n) s s' v v')
      NDIRECT 0 s ⟨v, before⟩ ?_
  · -- the size is cleared and the inode written back once no place is left
    have finish : ∀ (s₁ : JState) (v₁ : Volume) (d : Dinode),
        ({ d with size := 0 } : Dinode) = emptied (v.node i) →
        Trimmed k i (fun _ => True) d s s₁ v v₁ →
        outcome (do
          modifyInode k fun ip => { ip with size := 0 }
          iupdate k) (fun _ s' => ∃ v', Truncated k i s s' v v') Permitted s₁ := by
      intro s₁ v₁ d whole trimmed
      rw [outcome_bind]
      refine modifyInode_step ?_
      have copy₁ : (s₁.inode k).toDinode = d := by rw [trimmed.table, Function.update_self]
      have node : ({ s₁.inode k with size := 0 } : Inode) =
          { s₁.inode k with toDinode := emptied (v.node i) } := by
        rw [← whole, ← copy₁]
      rw [node]
      have edited := trimmed.edit loaded (emptied_fits (v.node i))
      refine outcome_post (iupdate_spec edited.rep (edited.loaded loaded)) ?_
      rintro _ s₂ ⟨rep₂, disk, table, logs⟩
      have type : (emptied (v.node i)).type ≠ 0 := live.2
      refine ⟨_, clean_update rep₂ disk ?_ ?_, ?_, edited.freed, table.trans edited.table, ?_⟩
      · rw [Volume.setNode_same]
        exact type
      · unfold Loaded
        rw [table]
        exact edited.loaded loaded
      · exact edited.freed.owned owned live type fun _ _ => rfl
      · refine (edited.logs.mono fun b => .inr).trans (logs.mono fun b => ?_)
        intro here
        rw [here]
        exact .inl (congrArg (fun sb : Superblock => sb.IBLOCK i) trimmed.freed.sb)
    unfold itrunc
    refine outcome_seq direct ?_
    rintro _ s₁ ⟨v₁, trimmed⟩
    rw [Nat.zero_add] at trimmed
    have copy₁ : (s₁.inode k).toDinode = stripped (v.node i) NDIRECT := by
      rw [trimmed.table, Function.update_self]
    have last : (s₁.inode k).addrs NDIRECT = (v.node i).addrs NDIRECT := by
      show (s₁.inode k).toDinode.addrs NDIRECT = (v.node i).addrs NDIRECT
      rw [copy₁]
      simp [stripped]
    rw [outcome_bind]
    refine inode_step ?_
    rw [last, outcome_ite]
    constructor
    · intro some_
      rw [outcome_bind]
      refine bread_step ?_
      let invariant (n : Nat) (s' : JState) : Prop := ∃ v', Trimmed k i
        (fun p => p < NDIRECT ∨ NDIRECT < p ∧ p < NDIRECT + 1 + n) (stripped (v.node i) NDIRECT) s s' v v'
      have enter : invariant 0 s₁ :=
        ⟨v₁, { trimmed with freed := trimmed.freed.congr fun p _ _ => by omega }⟩
      refine outcome_seq (loop_outcome invariant NINDIRECT 0 s₁ enter fun n s' _ inside ⟨v', part⟩ =>
        itruncIndirect_spec owned live some_ (by omega) _ part) ?_
      rintro _ s₂ ⟨v₂, trimmed₂⟩
      rw [outcome_bind]
      refine brelse_step ?_
      have held := Volume.tenant_indirect live some_
      refine outcome_seq (trimmed₂.bfree owned held (by omega) _) ?_
      rintro _ s₃ ⟨v₃, trimmed₃⟩
      rw [outcome_bind]
      refine modifyInode_step ?_
      have copy₃ : (s₃.inode k).toDinode = stripped (v.node i) NDIRECT := by
        rw [trimmed₃.table, Function.update_self]
      have node : ({ s₃.inode k with
          addrs := Function.update (s₃.inode k).addrs NDIRECT 0 } : Inode) =
          { s₃.inode k with toDinode := stripped (v.node i) (NDIRECT + 1) } := by
        rw [← stripped_succ, ← copy₃]
      rw [node]
      have edited := trimmed₃.edit loaded (stripped_fits fits (NDIRECT + 1))
      refine finish _ _ (stripped (v.node i) (NDIRECT + 1)) (stripped_all fits)
        { edited with freed := edited.freed.congr fun p limit _ => ?_ }
      unfold MAXFILE at limit
      constructor
      · exact fun _ => trivial
      · intro _
        omega
    · intro null
      have zero : (v.node i).addrs NDIRECT = 0 := by simpa using null
      refine finish s₁ v₁ (stripped (v.node i) NDIRECT) ?_
        { trimmed with freed := trimmed.freed.congr fun p _ present => ?_ }
      · rw [← stripped_all fits, stripped_null zero]
      · refine ⟨fun _ => trivial, fun _ => ?_⟩
        by_contra beyond
        by_cases here : p = NDIRECT
        · rw [here, v.ptr_direct (Nat.le_refl _)] at present
          exact present zero
        · exact present (v.ptr_none (by omega) zero)
  · rintro n s' - inside ⟨v', trimmed⟩
    exact itruncDirect_spec owned loaded live fits (by omega) trimmed

end Truncating

end PaddleOs.Fs

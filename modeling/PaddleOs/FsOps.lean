import PaddleOs.FsWalk

/-!
The operations of `sysfile.c` over a represented volume: `ialloc`, `create`, `sys_link` and
`sys_unlink`. Each is a chain of elementary changes of the volume: an entry is stored, the
link count of an inode changes, an inode is taken or erased. The chain is the same on
every volume; only the path walk in front of it needs that no inode without a link is met.
-/

namespace PaddleOs

namespace Volume

variable {v v' : Volume} {i j : Nat}

/-- A change of an inode that keeps its type and its file. -/
structure Refield (i : Nat) (d : Dinode) (v : Volume) : Prop where
  addrs : d.addrs = (v.node i).addrs
  size : d.size = (v.node i).size
  type : d.type = (v.node i).type

theorem Refield.isDir {d : Dinode} (refield : Refield i d v) :
    (v.setNode i d).IsDir j ↔ v.IsDir j := by
  unfold IsDir
  rw [refield_live (by rw [refield.type])]
  by_cases same : j = i
  · rw [same, setNode_same, refield.type]
  · rw [setNode_other _ _ same]

theorem Refield.size_eq {d : Dinode} (refield : Refield i d v) (j : Nat) :
    ((v.setNode i d).node j).size = (v.node j).size := by
  by_cases same : j = i
  · rw [same, setNode_same, refield.size]
  · rw [setNode_other _ _ same]

theorem Refield.entry {d : Dinode} (refield : Refield i d v) (j l : Nat) :
    (v.setNode i d).entry j l = v.entry j l :=
  entry_congr fun o _ _ => refield_byte refield.addrs o

theorem Refield.slots {d : Dinode} (refield : Refield i d v) (j : Nat) :
    (v.setNode i d).slots j = v.slots j := by
  unfold Volume.slots
  rw [refield.size_eq]

theorem Refield.neat {d : Dinode} (refield : Refield i d v) (neat : v.Neat) : (v.setNode i d).Neat where
  whole j dir bn below := by
    rw [refield.size_eq] at below
    rw [refield_ptr refield.addrs]
    exact neat.whole j (refield.isDir.mp dir) bn below
  range j dir l below := by
    rw [refield.slots] at below
    rw [refield.entry]
    exact neat.range j (refield.isDir.mp dir) l below

theorem Refield.evolves {d : Dinode} {held : Nat → Prop} (refield : Refield i d v) :
    Evolves held v (v.setNode i d) where
  sb := rfl
  whole whole j live bn below := by
    rw [refield.size_eq] at below
    rw [refield_ptr refield.addrs]
    exact whole j ((refield_live (by rw [refield.type])).mp live) bn below
  kept j _ live := by
    refine ⟨(refield_live (by rw [refield.type])).mpr live, ?_⟩
    by_cases same : j = i
    · rw [same, setNode_same, refield.type]
    · rw [setNode_other _ _ same]

/-- `ialloc`: a free inode gets a type. -/
def take (v : Volume) (i : Nat) (type : Int16) : Volume := v.setNode i (Dinode.blank type)

section Taking

variable {type : Int16}

theorem take_live_other (apart : j ≠ i) : (v.take i type).Live j ↔ v.Live j := by
  unfold Live take
  rw [setNode_other _ _ apart]
  rfl

theorem take_ptr (p : Nat) : (v.take i type).ptr i p = 0 := by
  have null : ((v.take i type).node i).addrs = fun _ => 0 := by
    rw [take, setNode_same]
    rfl
  by_cases near : p ≤ NDIRECT
  · rw [ptr_direct _ near, null]
  · rw [ptr_none _ (by omega) (by rw [null])]

theorem take_ptr_other (apart : j ≠ i) (p : Nat) : (v.take i type).ptr j p = v.ptr j p :=
  ptr_congr (by rw [take, setNode_other _ _ apart]) fun _ => rfl

theorem take_owned (owned : v.Owned) (dead : ¬ v.Live i) : (v.take i type).Owned := by
  refine owned.same rfl (fun j p b => ?_) fun _ _ => rfl
  unfold Tenant
  by_cases same : j = i
  · subst same
    rw [take_ptr]
    constructor
    · rintro ⟨-, -, rfl, wrong⟩
      exact absurd rfl wrong
    · rintro ⟨live, -⟩
      exact absurd live dead
  · rw [take_live_other same, take_ptr_other same]

theorem take_evolves {held : Nat → Prop} (dead : ¬ v.Live i) : Evolves held v (v.take i type) where
  sb := rfl
  whole whole j live bn below := by
    by_cases same : j = i
    · subst same
      rw [take, setNode_same] at below
      exact absurd below (Nat.not_lt_zero _)
    · rw [take_ptr_other same]
      rw [take, setNode_other _ _ same] at below
      exact whole j ((take_live_other same).mp live) bn below
  kept j _ live := by
    have apart : j ≠ i := by
      rintro rfl
      exact dead live
    refine ⟨(take_live_other apart).mpr live, ?_⟩
    rw [take, setNode_other _ _ apart]

theorem take_isDir_other (apart : j ≠ i) : (v.take i type).IsDir j ↔ v.IsDir j := by
  unfold IsDir
  rw [take_live_other apart, take, setNode_other _ _ apart]

theorem take_byte_other (apart : j ≠ i) (o : Nat) : (v.take i type).byte j o = v.byte j o := by
  unfold byte
  rw [take_ptr_other apart]
  rfl

theorem take_entry_other (apart : j ≠ i) (l : Nat) : (v.take i type).entry j l = v.entry j l :=
  entry_congr fun o _ _ => take_byte_other apart o

theorem take_slots_other (apart : j ≠ i) : (v.take i type).slots j = v.slots j := by
  unfold Volume.slots take
  rw [setNode_other _ _ apart]

theorem take_slots : (v.take i type).slots i = 0 := by
  unfold Volume.slots take
  rw [setNode_same]
  exact Nat.zero_div _

theorem take_neat (neat : v.Neat) : (v.take i type).Neat where
  whole j dir bn below := by
    by_cases same : j = i
    · subst same
      rw [take, setNode_same] at below
      exact absurd below (Nat.not_lt_zero _)
    · rw [take_ptr_other same]
      rw [take, setNode_other _ _ same] at below
      exact neat.whole j ((take_isDir_other same).mp dir) bn below
  range j dir l below := by
    by_cases same : j = i
    · subst same
      rw [take_slots] at below
      exact absurd below (Nat.not_lt_zero _)
    · rw [take_slots_other same] at below
      rw [take_entry_other same]
      exact neat.range j ((take_isDir_other same).mp dir) l below

end Taking

end Volume

namespace Fs

open Foundation.Outcome

variable {s s' : JState} {v v' : Volume} {k : Slot} {i : Nat}
variable {base : Slot → Inode} {handles : List Slot}

section Elements

/-- The copy of an inode was changed and is written back. -/
theorem rewrite_spec (good : Good s v) (loaded : Loaded s k i) {d : Dinode}
    (refield : Volume.Refield i d v) :
    outcome (iupdate k) (fun _ s' => Good s' (v.setNode i d) ∧
      s'.inode = Function.update s.inode k { s.inode k with toDinode := d } ∧
      LogsOnly s s' (· = v.sb.IBLOCK i)) Permitted
      (s.setInode k { s.inode k with toDinode := d }) := by
  have fits : d.Fits := by
    have old := good.rep.fits i
    refine ⟨?_, ?_, ?_⟩
    · rw [refield.size]
      exact old.size
    · rw [refield.addrs]
      exact old.addrs
    · rw [refield.addrs]
      exact old.beyond
  have opened : Represents (only k) s v := good.rep.weaken fun _ never => never.elim
  have edited := opened.edit loaded (only_self k) fits
  have loaded₁ : Loaded (s.setInode k { s.inode k with toDinode := d }) k i :=
    loaded_update loaded rfl
  refine outcome_post (iupdate_spec edited loaded₁) ?_
  rintro _ s₁ ⟨rep, disk, table, logs⟩
  refine ⟨⟨?_, ?_, refield.neat good.neat⟩, table, logs⟩
  · refine clean_update rep disk ?_ ?_
    · rw [Volume.setNode_same, refield.type]
      exact (loaded.live good.rep).2
    · unfold Loaded
      rw [table]
      exact loaded₁
  · exact Volume.refield_owned good.owned refield.addrs (by rw [refield.type])

/-- A reference to inode `i` was given back: the inode is erased when it was the last one
and no entry names it. -/
def Dropped (held : Nat → Prop) (i : Nat) (v v' : Volume) : Prop :=
  ((v.node i).nlink = 0 ∧ ¬ held i ∧ v.Erased i v') ∨ (((v.node i).nlink = 0 → held i) ∧ v' = v)

theorem Dropped.evolves {held : Nat → Prop} (dropped : Dropped held i v v') : v.Evolves held v' := by
  rcases dropped with ⟨-, free, erased⟩ | ⟨-, rfl⟩
  · exact erased.evolves free
  · exact .refl _ _

/-- At most the inode's own block and bitmap blocks are logged on the way. -/
def LogsNode (v : Volume) (i : Nat) (s s' : JState) : Prop :=
  LogsOnly s s' fun b => isBitmap v.sb b ∨ b = v.sb.IBLOCK i

theorem logsOnly_store {allowed : Nat → Prop} (store : s'.store = s.store) : LogsOnly s s' allowed := by
  intro b inside
  rw [store] at inside
  exact .inl inside

theorem held_of_ref (atop : Over base handles s) (here : At s k i) (used : 0 < (base k).ref) :
    Held base i := ⟨k, used, (atop.inum k used).symm.trans here.2⟩

/-- A handle of the call is given back. -/
theorem put_spec (good : Good s v) (atop : Over base (k :: handles) s) (loaded : Loaded s k i)
    (once : k ∉ handles) :
    outcome (iput k) (fun _ s' => ∃ v', Good s' v' ∧ Over base handles s' ∧
      (∀ j, j ≠ k → s'.inode j = s.inode j) ∧ Dropped (Held base) i v v' ∧ LogsNode v i s s')
      Permitted s := by
  have count := atop.ref k
  rw [List.count_cons_self, List.count_eq_zero_of_not_mem once] at count
  refine outcome_post (iput_spec good.rep good.owned loaded.at_) ?_
  rintro _ s' ⟨gave, ⟨kept, rep, store⟩ | ⟨last, v', rep, owned, erased, logs⟩⟩
  · refine ⟨v, ⟨rep, good.owned, good.neat⟩, gave.atop atop, gave.other, .inr ⟨fun linkless => ?_, rfl⟩,
      logsOnly_store store⟩
    by_contra free
    have unused : (base k).ref = 0 := by
      have least := atop.counts k
      by_contra used
      exact free (held_of_ref atop loaded.at_ (by omega))
    exact kept ⟨by omega, loaded.2.1, linkless⟩
  · exact ⟨v', ⟨rep, owned, erased.neat good.neat⟩, gave.atop atop, gave.other,
      .inl ⟨last.2.2, last.unheld good atop loaded.at_, erased⟩, LogsOnly.mono logs fun b => Or.symm⟩

theorem drop_spec (good : Good s v) (atop : Over base (k :: handles) s) (loaded : Loaded s k i)
    (once : k ∉ handles) :
    outcome (iunlockput k) (fun _ s' => ∃ v', Good s' v' ∧ Over base handles s' ∧
      (∀ j, j ≠ k → s'.inode j = s.inode j) ∧ Dropped (Held base) i v v' ∧ LogsNode v i s s')
      Permitted s := by
  unfold iunlockput
  refine outcome_seq (iunlock_spec good.rep loaded.1) ?_
  rintro _ _ ⟨rep, rfl⟩
  have atop₁ : Over base (k :: handles) (s.setInode k { s.inode k with locked := false }) :=
    atop.update (k := k) rfl rfl rfl rfl
  have loaded₁ : Loaded (s.setInode k { s.inode k with locked := false }) k i := by
    unfold Loaded
    rw [setInode_same]
    exact loaded
  refine outcome_post (put_spec ⟨rep, good.owned, good.neat⟩ atop₁ loaded₁ once) ?_
  rintro _ s' ⟨v', good', atop', others, dropped, logs⟩
  refine ⟨v', good', atop', fun j apart => ?_, dropped, logs⟩
  rw [others j apart, setInode_other _ apart]

/-- `ialloc` gave inode `i` a type and the caller a reference to it. -/
structure Allocated (type : Int16) (k : Slot) (i : Nat) (s s' : JState) (v : Volume) : Prop where
  dead : ¬ v.Live i
  first : 1 ≤ i
  inside : i < v.sb.ninodes
  good : Good s' (v.take i type)
  atop : Over s.inode [k] s'
  at_ : At s' k i
  kept : ∀ j l, Loaded s j l → Loaded s' j l
  logs : LogsOnly s s' (· = v.sb.IBLOCK i)

theorem blank_fits (type : Int16) : (Dinode.blank type).Fits :=
  ⟨Nat.two_pow_pos 32, fun _ => Nat.two_pow_pos 32, fun _ _ => rfl⟩

/-- No slot has a copy of a free inode. -/
theorem Represents.absent (rep : Represents clean s v) (dead : ¬ v.Live i) (k : Slot) :
    ¬ Loaded s k i := fun loaded => dead (loaded.live rep)

theorem iallocFrom_spec (type : Int16) (good : Good s v) (first count : Nat) (positive : 1 ≤ first)
    (bound : first + count ≤ v.sb.ninodes) :
    outcome (iallocFrom ROOTDEV type first count) (fun r s' => match r with
      | none => s' = s ∧ ∀ i, first ≤ i → i < first + count → v.Live i
      | some k => ∃ i, Allocated type k i s s' v) Permitted s := by
  induction count generalizing first with
  | zero => exact ⟨rfl, fun i low high => absurd high (Nat.not_lt.mpr low)⟩
  | succ count ih =>
      have disk : getDinode (s.store.block (s.sb.IBLOCK first)) (dinodeOffset first) = v.node first :=
        good.rep.synced first (by omega) fun _ _ => id
      unfold iallocFrom
      simp only [outcome_bind, outcome_get]
      refine bread_step (data_step ?_)
      rw [disk, outcome_ite]
      constructor
      · intro free
        have dead : ¬ v.Live first := fun live => live.2 free
        have stored := good.rep.putNode (i := first) (by omega) (blank_fits type)
          fun k loaded => absurd loaded (good.rep.absent dead k)
        simp only [outcome_bind]
        refine setData_step (logWrite_step (brelse_step ?_))
        change outcome _ _ _ ((s.putNode first (Dinode.blank type)).note (s.sb.IBLOCK first))
        refine outcome_post (iget_spec (stored.note _) (by change first < v.sb.ninodes; omega)) ?_
        rintro k s' ⟨rep, took⟩
        refine ⟨first, dead, positive, by omega, ⟨rep, Volume.take_owned good.owned dead, Volume.take_neat good.neat⟩,
          took.atop (stored.note _), took.at_ (stored.note _), fun j l loaded => took.loaded loaded, ?_⟩
        intro b inside
        rw [took.store] at inside
        rcases List.mem_cons.mp inside with rfl | before
        · exact .inr (by rw [good.rep.sb])
        · exact .inl before
      · intro taken
        rw [outcome_bind]
        refine brelse_step (outcome_post (ih (first + 1) (by omega) (by omega)) ?_)
        rintro (_ | k) s' result
        · refine ⟨result.1, fun i low high => ?_⟩
          by_cases here : i = first
          · exact here ▸ ⟨by omega, taken⟩
          · exact result.2 i (by omega) (by omega)
        · exact result

theorem ialloc_spec (type : Int16) (good : Good s v) :
    outcome (ialloc ROOTDEV type) (fun r s' => match r with
      | none => s' = s ∧ ∀ i, 1 ≤ i → i < v.sb.ninodes → v.Live i
      | some k => ∃ i, Allocated type k i s s' v) Permitted s := by
  unfold ialloc
  rw [outcome_bind, outcome_get, good.rep.sb]
  have root := good.rep.sane.rootino
  refine outcome_post (iallocFrom_spec type good 1 _ (Nat.le_refl 1) (by omega)) ?_
  rintro (_ | k) s' result
  · exact ⟨result.1, fun i low high => result.2 i low (by omega)⟩
  · exact result

/-- What stays of a state for the handles of a call. -/
structure Keeps (base : Slot → Inode) (handles : List Slot) (s s' : JState) : Prop where
  atop : Over base handles s'
  loaded : ∀ k i, Loaded s k i → Loaded s' k i
  at_ : ∀ k i, At s k i → At s' k i

theorem keeps_update (atop : Over base handles s) {ip : Inode}
    (table : s'.inode = Function.update s.inode k ip) (ref : ip.ref = (s.inode k).ref)
    (inum : ip.inum = (s.inode k).inum) (valid : ip.valid = (s.inode k).valid) :
    Keeps base handles s s' := by
  refine ⟨atop.update table ref inum valid, fun j i loaded => ?_, fun j i here => ?_⟩
  · unfold Loaded
    rw [table]
    by_cases same : j = k
    · subst same
      rw [Function.update_self, ref, inum, valid]
      exact loaded
    · rw [Function.update_of_ne same]
      exact loaded
  · unfold At
    rw [table]
    by_cases same : j = k
    · subst same
      rw [Function.update_self, ref, inum]
      exact here
    · rw [Function.update_of_ne same]
      exact here

theorem lock_spec (good : Good s v) (atop : Over base handles s) (here : At s k i) :
    outcome (ilock k) (fun _ s' => Good s' v ∧ Keeps base handles s s' ∧ Loaded s' k i ∧
      s'.store = s.store) (NoType (v.node i)) s := by
  refine outcome_post (ilock_spec good.rep here) ?_
  rintro _ s' ⟨rep, locked⟩
  have loaded := fun j l => locked.keeps here (j := j) (l := l)
  refine ⟨⟨rep, good.owned, good.neat⟩, ⟨atop.trans (locked.atop good.rep here), loaded, ?_⟩,
    locked.loaded, locked.store⟩
  intro j l there
  by_cases same : j = k
  · subst same
    rw [← there.2, here.2]
    exact locked.loaded.at_
  · unfold At
    rw [locked.other j same]
    exact there

/-- The copy of an inode is changed and written back. -/
theorem edit_spec (good : Good s v) (atop : Over base handles s) (loaded : Loaded s k i)
    (change : Dinode → Dinode) (refield : Volume.Refield i (change (v.node i)) v) :
    outcome (do
      modifyInode k fun ip => { ip with toDinode := change ip.toDinode }
      iupdate k)
      (fun _ s' => Good s' (v.setNode i (change (v.node i))) ∧ Keeps base handles s s' ∧
        LogsNode v i s s') Permitted s := by
  rw [outcome_bind]
  refine modifyInode_step ?_
  rw [good.rep.copy k i loaded]
  refine outcome_post (rewrite_spec good loaded refield) ?_
  rintro _ s' ⟨good', table, logs⟩
  exact ⟨good', keeps_update atop table rfl rfl rfl, logs.mono fun _ => .inr⟩

/-- What `dirlink` does to a volume. -/
inductive Link (d : Nat) (name : Name) (inum : Nat) (v : Volume) : Bool → Volume → Prop where
  | exists_ : v.lookup d name ≠ none → Link d name inum v false v
  | full {v' : Volume} : v.lookup d name = none → ¬ RoomFor v d (DIRENT * v.vacant d / BSIZE) →
      Volume.Padded d v v' → Link d name inum v false v'
  | linked {v' : Volume} : v.lookup d name = none →
      Volume.Patched d (v.vacant d) ⟨inum % 2 ^ 16, cutName name⟩ v v' → Link d name inum v true v'

theorem Link.evolves {held : Nat → Prop} {d inum : Nat} {name : Name} {r : Bool}
    (link : Link d name inum v r v') (owned : v.Owned) : v.Evolves held v' := by
  cases link with
  | exists_ found => exact .refl _ _
  | full missing stuck padded => exact padded.evolves owned
  | linked missing patched => exact patched.evolves owned

theorem link_spec {dp : Slot} {d inum : Nat} {name : Name} (good : Good s v)
    (atop : Over base handles s) (loaded : Loaded s dp d) (named : inum < v.sb.ninodes) :
    outcome (dirlink dp name inum) (fun r s' => v.IsDir d ∧ ∃ v', Link d name inum v r v' ∧ Good s' v' ∧
      Keeps base handles s s' ∧ LogsOnly s s' (entryBlocks v' d (v.vacant d))) Permitted s := by
  refine outcome_post (dirlink_spec good.rep good.owned good.neat loaded inum) ?_
  rintro r s' ⟨dir, linked⟩
  refine ⟨dir, ?_⟩
  cases linked with
  | exists_ found rep store atop' kept =>
      refine ⟨v, .exists_ found, ⟨rep, good.owned, good.neat⟩,
        ⟨atop.trans atop', fun k i there => ?_, fun k i there => ?_⟩, logsOnly_store store⟩
      · unfold Loaded
        rw [kept k there.1]
        exact there
      · unfold At
        rw [kept k there.1]
        exact there
  | full missing stuck wrote padded logs =>
      exact ⟨_, .full missing stuck padded, ⟨wrote.rep, wrote.owned, padded.neat good.owned good.neat⟩,
        keeps_update atop wrote.table rfl rfl rfl, logs⟩
  | linked missing wrote patched logs =>
      have number : inum % 2 ^ 16 < v.sb.ninodes := Nat.lt_of_le_of_lt (Nat.mod_le ..) named
      exact ⟨_, .linked missing patched,
        ⟨wrote.rep, wrote.owned, patched.neat good.owned good.neat Volume.vacant_le number⟩,
        keeps_update atop wrote.table rfl rfl rfl, logs⟩

theorem Link.sb {d inum : Nat} {name : Name} {r : Bool} (link : Link d name inum v r v') :
    v'.sb = v.sb := by
  cases link with
  | exists_ found => rfl
  | full missing stuck padded => exact padded.touch.sb
  | linked missing patched => exact patched.touch.sb

theorem Link.tenant {d inum p b : Nat} {name : Name} {r : Bool} (link : Link d name inum v r v')
    (held : v.Tenant d p b) : v'.Tenant d p b := by
  cases link with
  | exists_ found => exact held
  | full missing stuck padded => exact padded.touch.tenant held
  | linked missing patched => exact patched.touch.tenant held

/-- The blocks of a directory that were logged stay among its blocks. -/
theorem entryBlocks_link {d inum j b : Nat} {name : Name} {r : Bool} (link : Link d name inum v r v')
    (logged : entryBlocks v d j b) : entryBlocks v' d j b := by
  rcases logged with rfl | bitmap | indirect | data
  · exact .inl (by rw [link.sb])
  · exact .inr (.inl (by rw [link.sb]; exact bitmap))
  · exact .inr (.inr (.inl (link.tenant indirect)))
  · exact .inr (.inr (.inr (link.tenant data)))

/-- Entries of the first block are logged alike. -/
theorem entryBlocks_first {d j b : Nat} (low : j ≤ 1) (logged : entryBlocks v d j b) :
    entryBlocks v d 0 b := by
  have block : DIRENT * j / BSIZE = DIRENT * 0 / BSIZE := by
    have small : j = 0 ∨ j = 1 := by omega
    rcases small with rfl | rfl <;> decide
  unfold entryBlocks at logged
  rw [block] at logged
  exact logged

end Elements

section Spending

/-- On the way at most these blocks were logged, besides bitmap blocks. -/
def Spends (sb : Superblock) (blocks : List Nat) (s s' : JState) : Prop :=
  LogsOnly s s' fun b => isBitmap sb b ∨ b ∈ blocks

variable {sb : Superblock} {blocks more : List Nat} {s₁ : JState}

theorem Spends.of_store (store : s'.store = s.store) : Spends sb blocks s s' := logsOnly_store store

theorem Spends.trans (first : Spends sb blocks s s₁) (second : Spends sb blocks s₁ s') :
    Spends sb blocks s s' := LogsOnly.trans first second

theorem Spends.mono (spends : Spends sb blocks s s') (wider : ∀ b ∈ blocks, b ∈ more) :
    Spends sb more s s' := by
  refine LogsOnly.mono spends fun b logged => ?_
  exact logged.imp_right (wider b)

theorem LogsNode.spends (logs : LogsNode v i s s') (same : v.sb = sb) (listed : sb.IBLOCK i ∈ blocks) :
    Spends sb blocks s s' := by
  refine LogsOnly.mono logs fun b logged => ?_
  rw [same] at logged
  rcases logged with bitmap | rfl
  · exact .inl bitmap
  · exact .inr listed

/-- The blocks a store into entry `j` of directory `d` may log, listed. -/
def entryList (v : Volume) (d j : Nat) : List Nat :=
  [v.sb.IBLOCK d, v.ptr d NDIRECT, v.ptr d (Volume.place (DIRENT * j / BSIZE))]

theorem entryBlocks_spends {d j : Nat} (logs : LogsOnly s s' (entryBlocks v d j)) (same : v.sb = sb)
    (listed : ∀ b ∈ entryList v d j, b ∈ blocks) : Spends sb blocks s s' := by
  refine LogsOnly.mono logs fun b logged => ?_
  rw [← same]
  rcases logged with rfl | bitmap | indirect | data
  · exact .inr (listed _ (by simp [entryList]))
  · exact .inl bitmap
  · refine .inr (listed _ ?_)
    rw [← indirect.2.2.1]
    simp [entryList]
  · refine .inr (listed _ ?_)
    rw [← data.2.2.1]
    simp [entryList]

end Spending

section Creating

variable {dp ip : Slot} {d : Nat} {name : Name} {type major minor : Int16}

/-- The entries `.` and `..` of a new directory. -/
inductive Dots (d i : Nat) (v : Volume) : Bool → Volume → Prop where
  | first {v' : Volume} : Link i dot i v false v' → Dots d i v false v'
  | second {v₁ v' : Volume} {r : Bool} : Link i dot i v true v₁ → Link i dotdot d v₁ r v' →
      Dots d i v r v'

/-- The entries of a new inode: those of its own and the one in its directory. -/
inductive Enters (type : Int16) (name : Name) (d i : Nat) (v : Volume) : Bool → Volume → Prop where
  | file {v' : Volume} {r : Bool} : type ≠ T_DIR → Link d name i v r v' → Enters type name d i v r v'
  | noDots {v' : Volume} : type = T_DIR → Dots d i v false v' → Enters type name d i v false v'
  | dir {v₁ v' : Volume} {r : Bool} : type = T_DIR → Dots d i v true v₁ → Link d name i v₁ r v' →
      Enters type name d i v r v'

/-- A change of the link count. -/
def relink (v : Volume) (i : Nat) (nlink : Int16) : Volume := v.setNode i { v.node i with nlink }

theorem relink_refield (v : Volume) (i : Nat) (nlink : Int16) :
    Volume.Refield i { v.node i with nlink } v := ⟨rfl, rfl, rfl⟩

/-- The end of `create` for a new inode: it is made, or everything is given back. -/
inductive Creates (held : Nat → Prop) (type : Int16) (name : Name) (d i : Nat) (v : Volume) :
    Bool → Volume → Prop where
  | made {v₁ v' : Volume} : Enters type name d i v true v₁ →
      Dropped held d (if type = T_DIR then relink v₁ d ((v₁.node d).nlink + 1) else v₁) v' →
      Creates held type name d i v true v'
  | failed {v₁ v₂ v' : Volume} : Enters type name d i v false v₁ →
      Dropped held i (relink v₁ i 0) v₂ → Dropped held d v₂ v' →
      Creates held type name d i v false v'

theorem Loaded.others {l : Nat} {j : Slot} (loaded : Loaded s j l) (apart : j ≠ k)
    (others : ∀ j, j ≠ k → s'.inode j = s.inode j) : Loaded s' j l := by
  unfold Loaded
  rw [others j apart]
  exact loaded

theorem createFail_spec (good : Good s v) (atop : Over base (ip :: dp :: handles) s)
    (own : Loaded s ip i) (parent : Loaded s dp d) (apart : ip ≠ dp) (once : ip ∉ handles)
    (once' : dp ∉ handles) :
    outcome (createFail dp ip) (fun r s' => r = none ∧ ∃ v₁ v', Dropped (Held base) i (relink v i 0) v₁ ∧
      Dropped (Held base) d v₁ v' ∧ Good s' v' ∧ v.Evolves (Held base) v' ∧ Over base handles s' ∧
      Spends v.sb [v.sb.IBLOCK i, v.sb.IBLOCK d] s s') Permitted s := by
  unfold createFail
  rw [← bind_assoc]
  refine outcome_seq (edit_spec good atop own (fun d => { d with nlink := 0 }) (relink_refield v i 0)) ?_
  rintro _ s₁ ⟨good₁, keeps₁, logs₁⟩
  have out : ip ∉ dp :: handles := fun inside => by
    rcases List.mem_cons.mp inside with same | later
    · exact apart same
    · exact once later
  refine outcome_seq (drop_spec good₁ keeps₁.atop (keeps₁.loaded ip i own) out) ?_
  rintro _ s₂ ⟨v₂, good₂, atop₂, others₂, dropped₂, logs₂⟩
  have parent₂ := (keeps₁.loaded dp d parent).others apart.symm others₂
  refine outcome_seq (drop_spec good₂ atop₂ parent₂ once') ?_
  rintro _ s₃ ⟨v₃, good₃, atop₃, -, dropped₃, logs₃⟩
  rw [outcome_pure]
  have evolves₁ : v.Evolves (Held base) (relink v i 0) := (relink_refield v i 0).evolves
  refine ⟨rfl, v₂, v₃, dropped₂, dropped₃, good₃,
    (evolves₁.trans dropped₂.evolves).trans dropped₃.evolves, atop₃, ?_⟩
  exact (logs₁.spends rfl (by simp)).trans
    (.trans (logs₂.spends rfl (by simp)) (logs₃.spends dropped₂.evolves.sb (by simp)))

/-- How `create` ends behind `ialloc`, for the volume `v` it started the new inode in. -/
def CreateEnds (base : Slot → Inode) (handles : List Slot) (type : Int16) (name : Name) (d i : Nat)
    (ip : Slot) (s : JState) (v : Volume) (r : Option Slot) (s' : JState) : Prop :=
  (∃ v', Good s' v' ∧ match r with
    | none => Creates (Held base) type name d i v false v' ∧ v.Evolves (Held base) v' ∧
        Over base handles s'
    | some k => k = ip ∧ Creates (Held base) type name d i v true v' ∧
        v.Evolves (fun j => Held base j ∨ j = i) v' ∧ Over base (ip :: handles) s' ∧ Loaded s' ip i) ∧
  ∃ blocks, blocks.length ≤ 6 ∧ v.sb.IBLOCK i ∈ blocks ∧ Spends v.sb blocks s s'

/-- What holds in the middle of `create`. -/
structure Creating (base : Slot → Inode) (handles : List Slot) (dp ip : Slot) (d i : Nat)
    (blocks : List Nat) (s₀ s : JState) (v₀ v : Volume) : Prop where
  good : Good s v
  atop : Over base (ip :: dp :: handles) s
  own : Loaded s ip i
  parent : Loaded s dp d
  evolves : v₀.Evolves (fun j => Held base j ∨ j = i) v
  spends : Spends v₀.sb blocks s₀ s

variable {s₀ : JState} {v₀ : Volume} {blocks : List Nat}

/-- The exit `fail:`, reached with the entries made so far. -/
theorem Creating.fail (now : Creating base handles dp ip d i blocks s₀ s v₀ v) (apart : ip ≠ dp)
    (once : ip ∉ handles) (once' : dp ∉ handles) (enters : Enters type name d i v₀ false v)
    (short : blocks.length ≤ 6) (mine : v₀.sb.IBLOCK i ∈ blocks) (theirs : v₀.sb.IBLOCK d ∈ blocks) :
    outcome (createFail dp ip) (CreateEnds base handles type name d i ip s₀ v₀) Permitted s := by
  refine outcome_post (createFail_spec now.good now.atop now.own now.parent apart once once') ?_
  rintro _ s' ⟨rfl, v₁, v', dropped, dropped', good', evolves, atop', spends⟩
  refine ⟨⟨v', good', .failed enters dropped dropped', ?_, atop'⟩, blocks, short, mine, now.spends.trans ?_⟩
  · exact (Volume.Evolves.mono now.evolves fun _ => .inl).trans evolves
  · rw [now.evolves.sb] at spends
    refine spends.mono fun b listed => ?_
    rcases List.mem_cons.mp listed with rfl | listed
    · exact mine
    · rw [List.mem_singleton.mp listed]
      exact theirs

/-- `create` from the entry in the directory on. -/
theorem Creating.enter (now : Creating base handles dp ip d i blocks s₀ s v₀ v) (apart : ip ≠ dp)
    (once : ip ∉ handles) (once' : dp ∉ handles)
    (enters : ∀ r v', Link d name i v r v' → Enters type name d i v₀ r v')
    (short : blocks.length ≤ 3) (mine : v₀.sb.IBLOCK i ∈ blocks) :
    outcome (do
      if !(← dirlink dp name (← inode ip).inum) then return ← createFail dp ip
      if type = T_DIR then
        modifyInode dp fun dp => { dp with nlink := dp.nlink + 1 }
        iupdate dp
      iunlockput dp
      return some ip) (CreateEnds base handles type name d i ip s₀ v₀) Permitted s := by
  have inside : i < v.sb.ninodes := now.own.at_.inside now.good.rep
  have distinct : d ≠ i := fun same => by
    refine apart (now.own.at_.unique (same ▸ now.parent.at_) now.good.rep)
  rw [outcome_bind]
  refine inode_step ?_
  rw [now.own.2.2]
  refine outcome_seq (link_spec now.good now.atop now.parent inside) ?_
  rintro r s₁ ⟨dir, v₁, link, good₁, keeps₁, logs₁⟩
  have next : Creating base handles dp ip d i (blocks ++ entryList v₁ d (v.vacant d)) s₀ s₁ v₀ v₁ := by
    refine ⟨good₁, keeps₁.atop, keeps₁.loaded ip i now.own, keeps₁.loaded dp d now.parent,
      now.evolves.trans (link.evolves now.good.owned), ?_⟩
    refine (now.spends.mono fun b => List.mem_append_left _).trans ?_
    refine entryBlocks_spends logs₁ (link.sb.trans now.evolves.sb) fun b => List.mem_append_right _
  have length : (blocks ++ entryList v₁ d (v.vacant d)).length ≤ 6 := by
    rw [List.length_append]
    exact Nat.add_le_add short (Nat.le_refl 3)
  have theirs : v₀.sb.IBLOCK d ∈ blocks ++ entryList v₁ d (v.vacant d) := by
    refine List.mem_append_right _ ?_
    rw [← now.evolves.sb, ← link.sb]
    exact List.mem_cons_self
  cases r with
  | false => exact next.fail apart once once' (enters _ _ link) length (List.mem_append_left _ mine) theirs
  | true =>
      -- The entry is there: the directory gets its link and is given back.
      have finish : ∀ s₂ v₂, Creating base handles dp ip d i (blocks ++ entryList v₁ d (v.vacant d)) s₀ s₂
          v₀ v₂ → v₂ = (if type = T_DIR then relink v₁ d ((v₁.node d).nlink + 1) else v₁) →
          outcome (do
            iunlockput dp
            return some ip) (CreateEnds base handles type name d i ip s₀ v₀) Permitted s₂ := by
        intro s₂ v₂ last which
        have swapped : Over base (dp :: ip :: handles) s₂ :=
          last.atop.congr fun k => (List.Perm.swap ip dp handles).count_eq k
        have out : dp ∉ ip :: handles := fun listed => by
          rcases List.mem_cons.mp listed with same | later
          · exact apart same.symm
          · exact once' later
        refine outcome_seq (drop_spec last.good swapped last.parent out) ?_
        rintro _ s₃ ⟨v₃, good₃, atop₃, others₃, dropped₃, logs₃⟩
        rw [outcome_pure]
        refine ⟨⟨v₃, good₃, rfl, .made (enters _ _ link) (which ▸ dropped₃), ?_, atop₃,
          last.own.others apart others₃⟩, _, length, List.mem_append_left _ mine, last.spends.trans (logs₃.spends last.evolves.sb theirs)⟩
        refine last.evolves.trans ?_
        rcases dropped₃ with ⟨-, free, erased⟩ | ⟨-, rfl⟩
        · exact erased.evolves (by rintro (is | same); exacts [free is, distinct same])
        · exact .refl _ _
      rw [if_neg (by decide)]
      by_cases isDir : type = T_DIR
      · rw [if_pos isDir, ← bind_assoc]
        refine outcome_seq (edit_spec next.good next.atop next.parent
          (fun d => { d with nlink := d.nlink + 1 }) (relink_refield v₁ d _)) ?_
        rintro _ s₂ ⟨good₂, keeps₂, logs₂⟩
        refine finish s₂ _ ⟨good₂, keeps₂.atop, keeps₂.loaded ip i next.own, keeps₂.loaded dp d next.parent,
          next.evolves.trans (relink_refield v₁ d _).evolves,
          next.spends.trans (logs₂.spends next.evolves.sb theirs)⟩ ?_
        rw [if_pos isDir]
        rfl
      · rw [if_neg isDir]
        exact finish s₁ v₁ next (by rw [if_neg isDir])

theorem Link.slots_true {inum : Nat} (link : Link d name inum v true v') : v'.slots d = max (v.slots d)
    (v.vacant d + 1) := by
  cases link with
  | linked missing patched => exact patched.slots

/-- One of the first two entries of the new directory. -/
theorem Creating.dot (now : Creating base handles dp ip d i blocks s₀ s v₀ v) {inum : Nat}
    (number : inum < v.sb.ninodes) (few : v.slots i ≤ 1) (logs : LogsOnly s₀ s (entryBlocks v i 0)) :
    outcome (dirlink ip name inum) (fun r s' => ∃ v', Link i name inum v r v' ∧
      Creating base handles dp ip d i (entryList v' i 0) s₀ s' v₀ v' ∧
      LogsOnly s₀ s' (entryBlocks v' i 0)) Permitted s := by
  refine outcome_post (link_spec now.good now.atop now.own number) ?_
  rintro r s₁ ⟨-, v₁, link, good₁, keeps₁, logs₁⟩
  have low : v.vacant i ≤ 1 := Nat.le_trans Volume.vacant_le few
  have logged : LogsOnly s₀ s₁ (entryBlocks v₁ i 0) :=
    (logs.mono fun b => entryBlocks_link link).trans (logs₁.mono fun b => entryBlocks_first low)
  have evolves : v₀.Evolves (fun j => Held base j ∨ j = i) v₁ :=
    now.evolves.trans (link.evolves now.good.owned)
  exact ⟨v₁, link, ⟨good₁, keeps₁.atop, keeps₁.loaded ip i now.own, keeps₁.loaded dp d now.parent, evolves,
    entryBlocks_spends logged evolves.sb fun _ => id⟩, logged⟩

/-- `create` of a directory, from its own entries on. -/
theorem Creating.dots (now : Creating base handles dp ip d i blocks s₀ s v₀ v) (apart : ip ≠ dp)
    (once : ip ∉ handles) (once' : dp ∉ handles) (isDir : type = T_DIR) (empty : v.slots i = 0)
    (logs : LogsOnly s₀ s (entryBlocks v i 0)) (same : v₀ = v) :
    outcome (do
      if !(← dirlink ip Fs.dot (← inode ip).inum) then return ← createFail dp ip
      if !(← dirlink ip dotdot (← inode dp).inum) then return ← createFail dp ip
      if !(← dirlink dp name (← inode ip).inum) then return ← createFail dp ip
      if type = T_DIR then
        modifyInode dp fun dp => { dp with nlink := dp.nlink + 1 }
        iupdate dp
      iunlockput dp
      return some ip) (CreateEnds base handles type name d i ip s₀ v₀) Permitted s := by
  subst same
  -- A failure here gives back a directory whose own blocks and whose parent's inode were logged.
  have bad : ∀ s₁ v₁, Creating base handles dp ip d i (entryList v₁ i 0) s₀ s₁ v₀ v₁ →
      Dots d i v₀ false v₁ →
      outcome (createFail dp ip) (CreateEnds base handles type name d i ip s₀ v₀) Permitted s₁ := by
    intro s₁ v₁ next dots
    have more : Creating base handles dp ip d i (v₀.sb.IBLOCK d :: entryList v₁ i 0) s₀ s₁ v₀ v₁ :=
      { next with spends := next.spends.mono fun b => List.mem_cons_of_mem _ }
    refine more.fail apart once once' (.noDots isDir dots) (by simp [entryList]) ?_ List.mem_cons_self
    rw [← next.evolves.sb]
    simp [entryList]
  rw [outcome_bind]
  refine inode_step ?_
  rw [now.own.2.2]
  refine outcome_seq (now.dot (now.own.at_.inside now.good.rep) (by omega) logs) ?_
  rintro r s₁ ⟨v₁, link₁, next₁, logs₁⟩
  cases r with
  | false => exact bad s₁ v₁ next₁ (.first link₁)
  | true =>
      rw [if_neg (by decide), outcome_bind]
      refine inode_step ?_
      rw [next₁.parent.2.2]
      have few : v₁.slots i ≤ 1 := by
        have vacant : v₀.vacant i ≤ v₀.slots i := Volume.vacant_le
        rw [link₁.slots_true]
        omega
      refine outcome_seq (next₁.dot (next₁.parent.at_.inside next₁.good.rep) few logs₁) ?_
      rintro r s₂ ⟨v₂, link₂, next₂, logs₂⟩
      cases r with
      | false => exact bad s₂ v₂ next₂ (.second link₁ link₂)
      | true =>
          rw [if_neg (by decide)]
          refine next₂.enter apart once once' (fun r v' => .dir isDir (.second link₁ link₂))
            (by simp [entryList]) ?_
          rw [← next₂.evolves.sb]
          simp [entryList]

/-- A new inode with its numbers and its first link. -/
def named (v : Volume) (i : Nat) (major minor : Int16) : Volume :=
  v.setNode i { v.node i with major, minor, nlink := 1 }

theorem lock_typed (good : Good s v) (atop : Over base handles s) (here : At s k i)
    (typed : (v.node i).type ≠ 0) :
    outcome (ilock k) (fun _ s' => Good s' v ∧ Keeps base handles s s' ∧ Loaded s' k i ∧
      s'.store = s.store) Permitted s := by
  refine outcome_mono (lock_spec good atop here) (fun _ _ => id) ?_
  rintro stop _ ⟨free, link, type⟩
  exact ⟨free, fun is => typed (type is), link⟩

theorem createNew_spec (good : Good s v) (atop : Over base (ip :: dp :: handles) s) (here : At s ip i)
    (parent : Loaded s dp d) (apart : ip ≠ dp) (once : ip ∉ handles) (once' : dp ∉ handles)
    (typed : (v.node i).type ≠ 0) (empty : v.slots i = 0) :
    outcome (createNew dp ip name type major minor)
      (CreateEnds base handles type name d i ip s (named v i major minor)) Permitted s := by
  unfold createNew
  refine outcome_seq (lock_typed good atop here typed) ?_
  rintro _ s₁ ⟨good₁, keeps₁, own₁, store₁⟩
  have refield : Volume.Refield i { v.node i with major, minor, nlink := 1 } v := ⟨rfl, rfl, rfl⟩
  rw [← bind_assoc]
  refine outcome_seq (edit_spec good₁ keeps₁.atop own₁ (fun d => { d with major, minor, nlink := 1 })
    refield) ?_
  rintro _ s₂ ⟨good₂, keeps₂, logs₂⟩
  have own₂ := keeps₂.loaded ip i own₁
  have parent₂ := keeps₂.loaded dp d (keeps₁.loaded dp d parent)
  have spends₂ : Spends v.sb [v.sb.IBLOCK i] s s₂ :=
    (Spends.of_store store₁).trans (logs₂.spends rfl (by simp))
  have logged : LogsOnly s s₂ (entryBlocks (named v i major minor) i 0) := by
    refine (logsOnly_store store₁).trans (LogsOnly.mono logs₂ fun b => ?_)
    rintro (bitmap | rfl)
    · exact .inr (.inl bitmap)
    · exact .inl rfl
  have start : Creating base handles dp ip d i [v.sb.IBLOCK i] s s₂ (named v i major minor)
      (named v i major minor) := ⟨good₂, keeps₂.atop, own₂, parent₂, .refl _ _, spends₂⟩
  by_cases isDir : type = T_DIR
  · rw [if_pos isDir]
    exact start.dots apart once once' isDir (by rw [named, refield.slots, empty]) logged rfl
  · rw [if_neg isDir]
    exact start.enter apart once once' (fun r v' => .file isDir) (by simp) (by simp [named, Volume.setNode])

/-- What `create` does to a volume in directory `d`, with the inode it returns. -/
inductive Makes (held : Nat → Prop) (type major minor : Int16) (name : Name) (d : Nat) (v : Volume) :
    Option Nat → Volume → Prop where
  | found {l : Nat} : v.lookup d name = some l → type = T_FILE →
      ((v.node (v.entry d l).inum).type = T_FILE ∨ (v.node (v.entry d l).inum).type = T_DEVICE) →
      Makes held type major minor name d v (some (v.entry d l).inum) v
  | refused {l : Nat} : v.lookup d name = some l →
      ¬ (type = T_FILE ∧ ((v.node (v.entry d l).inum).type = T_FILE ∨
        (v.node (v.entry d l).inum).type = T_DEVICE)) → Makes held type major minor name d v none v
  | noInodes : v.lookup d name = none → (∀ i, 1 ≤ i → i < v.sb.ninodes → v.Live i) →
      Makes held type major minor name d v none v
  | made {i : Nat} {v' : Volume} : v.lookup d name = none → ¬ v.Live i → 1 ≤ i → i < v.sb.ninodes →
      Creates held type name d i (named (v.take i type) i major minor) true v' →
      Makes held type major minor name d v (some i) v'
  | failed {i : Nat} {v' : Volume} : v.lookup d name = none → ¬ v.Live i → i < v.sb.ninodes →
      Creates held type name d i (named (v.take i type) i major minor) false v' →
      Makes held type major minor name d v none v'

/-- `create` for a path, with the inode it returns. -/
inductive MakesAt (held : Nat → Prop) (type major minor : Int16) (start : Nat) (path : Path) (v : Volume) :
    Option Nat → Volume → Prop where
  | noParent : v.resolve true (path.length + 1) start path [] = none →
      MakesAt held type major minor start path v none v
  | inside {d : Nat} {name : Name} {answer : Option Nat} {v' : Volume} :
      v.resolve true (path.length + 1) start path [] = some (d, name) → v.Reach held d →
      Makes held type major minor name d v answer v' →
      MakesAt held type major minor start path v answer v'

/-- The end of `create`. -/
structure Made (base : Slot → Inode) (calm : Prop) (type major minor : Int16) (start : Nat) (path : Path)
    (s : JState) (v : Volume) (r : Option Slot) (s' : JState) (v' : Volume) (answer : Option Nat) :
    Prop where
  good : Good s' v'
  evolves : v.Evolves (Held base) v'
  handle : match r, answer with
    | none, none => Over base [] s'
    | some k, some i => Over base [k] s' ∧ Loaded s' k i ∧ (type = T_FILE → (v'.node i).type ≠ T_DIR)
    | _, _ => False
  exact : calm → MakesAt (Held base) type major minor start path v answer v'
  spends : calm → ∃ blocks, blocks.length ≤ 6 ∧ Spends v.sb blocks s s'

theorem Spares.spends {base : Slot → Inode} {calm : Prop} {blocks : List Nat} {sb : Superblock}
    (spares : Spares base calm s s' v v') (is : calm) : Spends sb blocks s s' :=
  .of_store (spares.quiet is).2

theorem WalkFault.congr {calm : Prop} {held : Nat → Prop} {stop : Stop}
    (fault : WalkFault calm held v' stop s) (same : calm → v' = v) : WalkFault calm held v stop s' := by
  refine ⟨fault.1, fault.2.1, fun is => ?_⟩
  rw [← same is]
  exact fault.2.2 is

/-- The walk to the directory is put before the rest. -/
theorem Made.after {calm : Prop} {start : Nat} {path : Path} {r : Option Slot} {answer : Option Nat}
    {s₁ : JState} {v₁ : Volume} (made : Made base calm type major minor start path s₁ v₁ r s' v' answer)
    (spares : Spares base calm s s₁ v v₁) : Made base calm type major minor start path s v r s' v' answer := by
  refine ⟨made.good, spares.evolves.trans made.evolves, made.handle, fun is => ?_, fun is => ?_⟩
  · rw [← (spares.quiet is).1]
    exact made.exact is
  · obtain ⟨blocks, short, spends⟩ := made.spends is
    rw [(spares.quiet is).1] at spends
    exact ⟨blocks, short, (spares.spends is).trans spends⟩

theorem createFound_spec {calm : Prop} {start l : Nat} {path : Path} (major minor : Int16)
    (took : Took s s' ip (v.entry d l).inum)
    (good : Good s v) (rep : Represents clean s' v) (atop : Over base [dp] s) (parent : Loaded s dp d)
    (hit : v.lookup d name = some l) (dir : v.IsDir d) (anchored : calm → Anchored base v)
    (reached : calm → v.resolve true (path.length + 1) start path [] = some (d, name) ∧
      v.Reach (Held base) d) :
    outcome (do
      iunlockput dp
      ilock ip
      let found := (← inode ip).type
      if type = T_FILE ∧ (found = T_FILE ∨ found = T_DEVICE) then return some ip
      iunlockput ip
      return none) (fun r s'' => ∃ v' answer, Made base calm type major minor start path s v r s'' v' answer)
      (WalkFault calm (Held base) v) s' := by
  have named : l < v.slots d ∧ v.Names d name l := ⟨(Volume.lookup_some.mp hit).1, (Volume.lookup_some.mp hit).2.1⟩
  have atop' : Over base (dp :: [ip]) s' :=
    (atop.trans (took.atop good.rep)).congr fun k => (List.Perm.swap ip dp []).count_eq k
  have used : 0 < (s.inode dp).ref := parent.1
  refine outcome_seq (permitted_walk (iunlockput_spec ⟨rep, good.owned, good.neat⟩ atop'
    (took.loaded parent).at_ anchored)) ?_
  rintro _ s₁ ⟨v₁, good₁, atop₁, others, shared, spares₁⟩
  have here₁ := took.survives parent.at_ atop₁ others shared
  refine outcome_seq (outcome_mono (lock_spec good₁ atop₁ here₁) (fun _ _ => id) ?_) ?_
  · rintro stop _ ⟨free, link, untyped⟩
    refine ⟨free, link, fun is stopped => ⟨_, .entry (reached is).2 dir named.1 named.2.1, ?_⟩⟩
    have free := untyped stopped
    rwa [(spares₁.quiet is).1] at free
  · rintro _ s₂ ⟨good₂, keeps₂, loaded₂, store₂⟩
    have spares₂ : Spares base calm s s₂ v v₁ :=
      (Spares.of_store took.store).trans (spares₁.trans (Spares.of_store store₂))
    rw [outcome_bind]
    refine inode_step ?_
    rw [good₂.rep.copy ip _ loaded₂]
    by_cases plain : type = T_FILE ∧
        ((v₁.node (v.entry d l).inum).type = T_FILE ∨ (v₁.node (v.entry d l).inum).type = T_DEVICE)
    · rw [if_pos plain, outcome_pure]
      refine ⟨v₁, some (v.entry d l).inum, good₂, spares₂.evolves, ⟨keeps₂.atop, loaded₂, fun _ => ?_⟩,
        fun is => ?_, fun is => ⟨[], by simp, spares₂.spends is⟩⟩
      · rcases plain.2 with file | device
        · rw [file]
          decide
        · rw [device]
          decide
      · have same := (spares₂.quiet is).1
        rw [same] at plain ⊢
        exact .inside (reached is).1 (reached is).2 (.found hit plain.1 plain.2)
    · rw [if_neg plain]
      have anchored₂ : calm → Anchored base v₁ := fun is => by
        rw [(spares₂.quiet is).1]
        exact anchored is
      refine outcome_seq (permitted_walk (iunlockput_spec good₂ keeps₂.atop loaded₂.at_ anchored₂)) ?_
      rintro _ s₃ ⟨v₃, good₃, atop₃, -, -, spares₃⟩
      have spares : Spares base calm s s₃ v v₃ := spares₂.trans spares₃
      rw [outcome_pure]
      refine ⟨v₃, none, good₃, spares.evolves, atop₃, fun is => ?_, fun is => ⟨[], by simp, spares.spends is⟩⟩
      rw [(spares.quiet is).1]
      rw [(spares₂.quiet is).1] at plain
      exact .inside (reached is).1 (reached is).2 (.refused hit plain)

theorem createMissing_spec {calm : Prop} {start : Nat} {path : Path} (good : Good s v)
    (atop : Over base [dp] s) (parent : Loaded s dp d) (missing : v.lookup d name = none)
    (typed : type ≠ 0) (anchored : calm → Anchored base v)
    (reached : calm → v.resolve true (path.length + 1) start path [] = some (d, name) ∧
      v.Reach (Held base) d) :
    outcome (do
      match ← ialloc (← inode dp).dev type with
      | none =>
          iunlockput dp
          return none
      | some ip => createNew dp ip name type major minor)
      (fun r s' => ∃ v' answer, Made base calm type major minor start path s v r s' v' answer)
      (WalkFault calm (Held base) v) s := by
  rw [outcome_bind]
  refine inode_step ?_
  rw [good.rep.root dp parent.1]
  refine outcome_seq (permitted_walk (ialloc_spec type good)) ?_
  rintro answer s₁ allocated
  cases answer with
  | none =>
      obtain ⟨rfl, taken⟩ := allocated
      dsimp only
      refine outcome_seq (permitted_walk (iunlockput_spec good atop parent.at_ anchored)) ?_
      rintro _ s₂ ⟨v₂, good₂, atop₂, -, -, spares⟩
      rw [outcome_pure]
      refine ⟨v₂, none, good₂, spares.evolves, atop₂, fun is => ?_, fun is => ⟨[], by simp, spares.spends is⟩⟩
      rw [(spares.quiet is).1]
      exact .inside (reached is).1 (reached is).2 (.noInodes missing taken)
  | some ip =>
      obtain ⟨i, allocated⟩ := allocated
      dsimp only
      have parent₁ := allocated.kept dp d parent
      have apart : d ≠ i := by
        rintro rfl
        exact allocated.dead (parent.live good.rep)
      have apart' : ip ≠ dp := by
        rintro rfl
        exact apart (parent₁.2.2.symm.trans allocated.at_.2)
      have own : ((v.take i type).node i).type = type := by
        simp [Volume.take, Volume.setNode, Dinode.blank]
      refine outcome_mono (createNew_spec allocated.good (atop.trans allocated.atop) allocated.at_ parent₁ apart' List.not_mem_nil
        List.not_mem_nil (by rw [own]; exact typed) Volume.take_slots) ?_ fun _ _ => Permitted.walk
      rintro r s₂ ⟨⟨v₂, good₂, ends⟩, blocks, short, mine, spends⟩
      have starts : v.Evolves (fun j => Held base j ∨ j = i) (named (v.take i type) i major minor) :=
        (Volume.take_evolves allocated.dead).trans (Volume.Refield.evolves ⟨rfl, rfl, rfl⟩)
      have spent : Spends v.sb blocks s s₂ := by
        refine Spends.trans (allocated.logs.mono fun b is => .inr ?_) spends
        rw [is]
        exact mine
      cases r with
      | none =>
          obtain ⟨creates, evolves, atop₂⟩ := ends
          exact ⟨v₂, none, good₂, (Volume.Evolves.mono starts fun _ => .inl).trans evolves, atop₂,
            fun is => .inside (reached is).1 (reached is).2
              (.failed missing allocated.dead allocated.inside creates), fun _ => ⟨blocks, short, spent⟩⟩
      | some k =>
          obtain ⟨rfl, creates, evolves, atop₂, loaded₂⟩ := ends
          have live : (named (v.take i type) i major minor).Live i := by
            refine ⟨allocated.inside, ?_⟩
            simpa [named, Volume.setNode, own] using typed
          refine ⟨v₂, some i, good₂, Volume.Evolves.mono (starts.trans evolves) fun _ => .inl,
            ⟨atop₂, loaded₂, fun file => ?_⟩, fun is => .inside (reached is).1 (reached is).2
              (.made missing allocated.dead allocated.first allocated.inside creates), fun _ => ⟨blocks, short, spent⟩⟩
          have kept := (evolves.kept i (.inr rfl) live).2
          have plain : ((named (v.take i type) i major minor).node i).type = type := by
            simpa [named, Volume.setNode] using own
          rw [kept, plain, file]
          decide

theorem create_spec {calm : Prop} (cwd : Slot) (path : Path) (type major minor : Int16) (good : Good s v)
    (atop : Over base [] s) (home : path.head? ≠ some slash → 0 < (base cwd).ref) (typed : type ≠ 0)
    (anchored : calm → Anchored base v) :
    outcome (create cwd path type major minor) (fun r s' => ∃ v' answer,
      Made base calm type major minor (startOf base cwd path) path s v r s' v' answer)
      (WalkFault calm (Held base) v) s := by
  unfold create nameiparent
  refine outcome_seq (namex_spec true cwd path good atop home anchored) ?_
  rintro answer s₁ ⟨v₁, good₁, spares₁, arrived⟩
  cases answer with
  | none =>
      obtain ⟨atop₁, gone⟩ := arrived
      dsimp only
      rw [outcome_pure]
      refine ⟨v₁, none, good₁, spares₁.evolves, atop₁, fun is => ?_, fun is => ⟨[], by simp, spares₁.spends is⟩⟩
      rw [(spares₁.quiet is).1]
      exact .noParent (gone is)
  | some found =>
      obtain ⟨dp, name⟩ := found
      obtain ⟨atop₁, d, here₁, parent, reached⟩ := arrived
      obtain ⟨loaded₁, dir⟩ := parent rfl
      have anchored₁ : calm → Anchored base v₁ := fun is => by
        rw [(spares₁.quiet is).1]
        exact anchored is
      dsimp only
      refine outcome_seq (permitted_walk (lock_typed good₁ atop₁ here₁ dir.1.2)) ?_
      rintro _ s₂ ⟨good₂, keeps₂, loaded₂, store₂⟩
      have spares₂ : Spares base calm s s₂ v v₁ := spares₁.trans (Spares.of_store store₂)
      have reached₁ : calm → v₁.resolve true (path.length + 1) (startOf base cwd path) path [] = some (d, name) ∧
          v₁.Reach (Held base) d := fun is => by
        rw [(spares₁.quiet is).1]
        exact reached is
      refine outcome_seq (permitted_walk (dirlookup_spec good₂.rep good₂.owned good₂.neat loaded₂)) ?_
      rintro result s₃ ⟨-, search⟩
      unfold Found at search
      split at search
      · rename_i missing
        subst search
        refine outcome_mono (createMissing_spec good₂ keeps₂.atop loaded₂ missing typed anchored₁ reached₁) ?_
          fun _ _ fault => fault.congr fun is => (spares₁.quiet is).1
        rintro r s' ⟨v', answer, made⟩
        exact ⟨v', answer, made.after spares₂⟩
      · rename_i l ip off hit
        obtain ⟨-, rep₃, took⟩ := search
        refine outcome_mono (createFound_spec major minor took good₂ rep₃ keeps₂.atop loaded₂ hit dir anchored₁ reached₁) ?_
          fun _ _ fault => fault.congr fun is => (spares₁.quiet is).1
        rintro r s' ⟨v', answer, made⟩
        exact ⟨v', answer, made.after spares₂⟩
      · exact search.elim

end Creating

end Fs

end PaddleOs

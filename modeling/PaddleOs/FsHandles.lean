import PaddleOs.FsBlocks

/-!
References to inodes over a represented volume: `iget`, `idup`, `ilock`, `iunlock` and
`iput`. A call that takes references gives them back, so the table is compared with the
one it started from: it holds the references of that table and one for each handle of the
call. `iput` erases an inode when it drops its last reference and no entry names it.
-/

namespace PaddleOs

namespace Volume

variable {v v' : Volume} {i j : Nat}

/-- Inode `i` lost its blocks and is free. -/
def Erased (i : Nat) (v v' : Volume) : Prop :=
  Freed i (fun _ => True) { v.node i with type := 0, addrs := fun _ => 0, size := 0 } v v'

/-- An inode without blocks may become free. -/
theorem retire_owned (owned : v.Owned) {d : Dinode} (null : ∀ p, v.ptr i p = 0) (type : d.type = 0) :
    (v.setNode i d).Owned := by
  refine owned.same rfl (fun j p b => ?_) fun _ _ => rfl
  unfold Tenant Live
  by_cases same : j = i
  · subst same
    constructor
    · rintro ⟨⟨-, wrong⟩, -⟩
      rw [setNode_same] at wrong
      exact absurd type wrong
    · rintro ⟨-, -, here, present⟩
      rw [null p] at here
      exact absurd here.symm present
  · have ptr : (v.setNode i d).ptr j p = v.ptr j p := by
      refine ptr_congr ?_ fun _ => rfl
      rw [setNode_other _ _ same]
    rw [ptr, setNode_other _ _ same]
    exact Iff.rfl

theorem Erased.live_other (erased : Erased i v v') (apart : j ≠ i) : v'.Live j ↔ v.Live j := by
  unfold Live
  rw [erased.sb, erased.other j apart]

theorem Erased.not_live (erased : Erased i v v') : ¬ v'.Live i := by
  rintro ⟨-, type⟩
  rw [erased.node] at type
  exact type rfl

/-- The other files are as they were. -/
theorem Erased.ptr_other (erased : Erased i v v') (apart : j ≠ i) (p : Nat) :
    v'.ptr j p = v.ptr j p := by
  refine ptr_congr ?_ fun _ => by rw [erased.block]
  rw [erased.other j apart]

theorem Erased.byte_other (erased : Erased i v v') (apart : j ≠ i) (o : Nat) :
    v'.byte j o = v.byte j o := by
  unfold byte
  rw [erased.ptr_other apart, erased.block]

end Volume

namespace Fs

open Foundation.Outcome

variable {s s' s₁ : JState} {v : Volume} {k : Slot} {i : Nat}

/-- The slot is in use for inode `i`. -/
def At (s : JState) (k : Slot) (i : Nat) : Prop := 0 < (s.inode k).ref ∧ (s.inode k).inum = i

theorem Loaded.at_ (loaded : Loaded s k i) : At s k i := ⟨loaded.1, loaded.2.2⟩

theorem At.inside (here : At s k i) {dirty : Slot → Prop} (rep : Represents dirty s v) :
    i < v.sb.ninodes := by
  rw [← here.2]
  exact rep.numbered k here.1

theorem Loaded.live (loaded : Loaded s k i) (rep : Represents clean s v) : v.Live i :=
  ⟨loaded.at_.inside rep, rep.allocated k i loaded id⟩

/-- Two handles of one inode are the same slot. -/
theorem At.unique {j : Slot} (left : At s j i) (right : At s k i) (rep : Represents clean s v) :
    j = k := rep.unique j k left.1 right.1 (left.2.trans right.2.symm)

section Ledger

/-- The table holds the references of `base` and one more for each handle. -/
structure Over (base : Slot → Inode) (handles : List Slot) (s : JState) : Prop where
  counts : ∀ k, 0 ≤ (base k).ref
  ref : ∀ k, (s.inode k).ref = (base k).ref + (handles.count k : Int)
  inum : ∀ k, 0 < (base k).ref → (s.inode k).inum = (base k).inum
  valid : ∀ k, 0 < (base k).ref → (base k).valid = true → (s.inode k).valid = true

variable {base : Slot → Inode} {handles : List Slot}

theorem Over.refl (rep : Represents clean s v) : Over s.inode [] s where
  counts := rep.counts
  ref k := by simp
  inum _ _ := rfl
  valid _ _ is := is

theorem Over.congr (atop : Over base handles s) {handles' : List Slot}
    (same : ∀ k, handles'.count k = handles.count k) : Over base handles' s :=
  { atop with ref := fun k => by rw [same k]; exact atop.ref k }

theorem Over.trans (atop : Over base handles s) {more : List Slot} (next : Over s.inode more s') :
    Over base (more ++ handles) s' where
  counts := atop.counts
  ref k := by
    rw [next.ref k, atop.ref k, List.count_append]
    omega
  inum k used := by
    have count := atop.ref k
    rw [next.inum k (by omega), atop.inum k used]
  valid k used is := by
    have count := atop.ref k
    exact next.valid k (by omega) (atop.valid k used is)

/-- The slots keep what a ledger looks at. -/
theorem Over.same (atop : Over base handles s)
    (ref : ∀ k, (s'.inode k).ref = (s.inode k).ref)
    (inum : ∀ k, 0 < (s.inode k).ref → (s'.inode k).inum = (s.inode k).inum)
    (valid : ∀ k, 0 < (s.inode k).ref → (s.inode k).valid = true → (s'.inode k).valid = true) :
    Over base handles s' where
  counts := atop.counts
  ref k := by rw [ref k, atop.ref k]
  inum k used := by
    have count := atop.ref k
    rw [inum k (by omega), atop.inum k used]
  valid k used is := by
    have count := atop.ref k
    exact valid k (by omega) (atop.valid k used is)

/-- A slot is stored into, and its reference stays. -/
theorem Over.update (atop : Over base handles s) {ip : Inode}
    (table : s'.inode = Function.update s.inode k ip) (ref : ip.ref = (s.inode k).ref)
    (inum : ip.inum = (s.inode k).inum) (valid : ip.valid = (s.inode k).valid) :
    Over base handles s' := by
  have slot : ∀ j, (s'.inode j).ref = (s.inode j).ref ∧ (s'.inode j).inum = (s.inode j).inum ∧
      (s'.inode j).valid = (s.inode j).valid := by
    intro j
    rw [table]
    by_cases same : j = k
    · rw [same, Function.update_self]
      exact ⟨ref, inum, valid⟩
    · rw [Function.update_of_ne same]
      exact ⟨rfl, rfl, rfl⟩
  exact atop.same (fun j => (slot j).1) (fun j _ => (slot j).2.1) fun j _ is => by rw [(slot j).2.2, is]

/-- A handle of the call is in use. -/
theorem Over.used (atop : Over base handles s) (held : k ∈ handles) : 0 < (s.inode k).ref := by
  have count := atop.ref k
  have least := atop.counts k
  have positive := List.count_pos_iff.mpr held
  omega

end Ledger

section Taking

/-- `k` got one more reference, to inode `i`. -/
structure Took (s s' : JState) (k : Slot) (i : Nat) : Prop where
  store : s'.store = s.store
  other : ∀ j, j ≠ k → s'.inode j = s.inode j
  inum : (s'.inode k).inum = i
  old : 0 < (s.inode k).ref → s'.inode k = { s.inode k with ref := (s.inode k).ref + 1 }
  new : (s.inode k).ref = 0 → (s'.inode k).ref = 1 ∧ (s'.inode k).valid = false
  lock : (s'.inode k).locked = (s.inode k).locked

theorem Took.atop (took : Took s s' k i) (rep : Represents clean s v) : Over s.inode [k] s' where
  counts := rep.counts
  ref j := by
    by_cases same : j = k
    · subst same
      rcases (rep.counts j).lt_or_eq with used | free
      · rw [took.old used]
        simp
      · rw [(took.new free.symm).1, ← free]
        simp
    · rw [took.other j same]
      simp [Ne.symm same]
  inum j used := by
    by_cases same : j = k
    · subst same
      rw [took.old used]
    · rw [took.other j same]
  valid j used is := by
    by_cases same : j = k
    · subst same
      rw [took.old used]
      exact is
    · rw [took.other j same]
      exact is

theorem Took.at_ (took : Took s s' k i) (rep : Represents clean s v) : At s' k i := by
  refine ⟨?_, took.inum⟩
  rcases (rep.counts k).lt_or_eq with used | free
  · rw [took.old used]
    dsimp only
    omega
  · rw [(took.new free.symm).1]
    decide

theorem Took.loaded (took : Took s s' k i) {j : Slot} {l : Nat} (loaded : Loaded s j l) :
    Loaded s' j l := by
  by_cases same : j = k
  · subst same
    unfold Loaded
    rw [took.old loaded.1]
    refine ⟨?_, loaded.2⟩
    have used := loaded.1
    dsimp only
    omega
  · unfold Loaded
    rw [took.other j same]
    exact loaded

theorem cached_some {dev : Nat} (found : s.cached dev i = some k) :
    0 < (s.inode k).ref ∧ (s.inode k).dev = dev ∧ (s.inode k).inum = i := by
  have holds := List.find?_some found
  simpa using holds

theorem cached_none {dev : Nat} (missing : s.cached dev i = none) (j : Slot)
    (used : 0 < (s.inode j).ref) (same : (s.inode j).dev = dev) : (s.inode j).inum ≠ i := by
  have never := List.find?_eq_none.mp missing j (List.mem_finRange j)
  simp only [gt_iff_lt, decide_eq_true_eq, not_and] at never
  exact never used same

theorem iget_spec (rep : Represents clean s v) (inside : i < v.sb.ninodes) :
    outcome (iget ROOTDEV i) (fun k s' => Represents clean s' v ∧ Took s s' k i) Permitted s := by
  unfold iget
  rw [outcome_bind, outcome_get]
  split
  · rename_i k found
    obtain ⟨used, -, inum⟩ := cached_some found
    rw [outcome_bind]
    refine modifyInode_step ?_
    rw [outcome_pure]
    refine ⟨rep.touch used (by dsimp only; omega) rfl rfl rfl rfl fun _ => id, ?_⟩
    refine ⟨rfl, fun j apart => setInode_other _ apart, ?_, fun _ => setInode_same _ _, ?_, ?_⟩
    · rw [setInode_same]
      exact inum
    · intro free
      omega
    · rw [setInode_same]
  · rename_i missing
    split
    · rw [outcome_throw]
      unfold Permitted
      decide
    · rename_i k found
      have free : (s.inode k).ref = 0 := by
        have holds := List.find?_some found
        simpa using holds
      rw [outcome_bind]
      refine modifyInode_step ?_
      rw [outcome_pure]
      refine ⟨?_, rfl, fun j apart => setInode_other _ apart, ?_, ?_, ?_, ?_⟩
      · refine rep.setInode (d := v.node) Int.one_nonneg (fun _ => rfl) (fun _ => inside) ?_ ?_ ?_ rep.fits
        · intro _ j _ used equal
          exact cached_none missing j used (rep.root j used) equal
        · intro j l loaded
          by_cases here : j = k
          · have valid := loaded.2.1
            rw [here, setInode_same] at valid
            cases valid
          · have was := (loaded_setInode_other here).mp loaded
            rw [setInode_other _ here]
            exact ⟨rep.copy j l was, rep.allocated j l was⟩
        · intro l within _
          exact rep.synced l within fun _ _ => id
      · rw [setInode_same]
      · intro used
        omega
      · intro _
        rw [setInode_same]
        exact ⟨rfl, rfl⟩
      · rw [setInode_same]

theorem idup_spec (rep : Represents clean s v) (here : At s k i) :
    outcome (idup k) (fun k' s' => k' = k ∧ Represents clean s' v ∧ Took s s' k i) Permitted s := by
  have used := here.1
  unfold idup
  rw [outcome_bind]
  refine modifyInode_step ?_
  rw [outcome_pure]
  refine ⟨rfl, rep.touch used (by dsimp only; omega) rfl rfl rfl rfl fun _ => id, rfl,
    fun j apart => setInode_other _ apart, ?_, fun _ => setInode_same _ _, ?_, ?_⟩
  · rw [setInode_same]
    exact here.2
  · intro free
    omega
  · rw [setInode_same]

end Taking

section Locking

/-- The slot was locked, and its inode is in memory now. -/
structure Locked (s s' : JState) (k : Slot) (i : Nat) : Prop where
  store : s'.store = s.store
  other : ∀ j, j ≠ k → s'.inode j = s.inode j
  free : (s.inode k).locked = false
  locked : (s'.inode k).locked = true
  ref : (s'.inode k).ref = (s.inode k).ref
  loaded : Loaded s' k i

theorem Locked.atop (locked : Locked s s' k i) (rep : Represents clean s v) (here : At s k i) :
    Over s.inode [] s' := by
  refine (Over.refl rep).same (fun j => ?_) (fun j _ => ?_) fun j _ is => ?_
  · by_cases same : j = k
    · rw [same, locked.ref]
    · rw [locked.other j same]
  · by_cases same : j = k
    · rw [same, locked.loaded.2.2, here.2]
    · rw [locked.other j same]
  · by_cases same : j = k
    · rw [same]
      exact locked.loaded.2.1
    · rw [locked.other j same]
      exact is

theorem Locked.keeps (locked : Locked s s' k i) (here : At s k i) {j : Slot} {l : Nat}
    (loaded : Loaded s j l) : Loaded s' j l := by
  by_cases same : j = k
  · subst same
    rw [← loaded.2.2, here.2]
    exact locked.loaded
  · unfold Loaded
    rw [locked.other j same]
    exact loaded

/-- `ilock` refuses a free inode. -/
def NoType (d : Dinode) (stop : Stop) (_ : JState) : Prop :=
  stop ≠ .freeingFreeBlock ∧ stop ≠ .unlinkNlink ∧ (stop = .ilockNoType → d.type = 0)

theorem acquiresleep_spec (k : Slot) (s : JState) :
    outcome (acquiresleep k) (fun _ s' => (s.inode k).locked = false ∧
      s' = s.setInode k { s.inode k with locked := true }) (fun stop _ => stop = .asleep) s := by
  unfold acquiresleep
  rw [outcome_bind]
  refine inode_step ?_
  rw [outcome_ite]
  constructor
  · intro _
    rw [outcome_bind, outcome_throw]
  · intro unlocked
    refine modifyInode_step ⟨?_, rfl⟩
    simpa using unlocked

theorem ilock_spec (rep : Represents clean s v) (here : At s k i) :
    outcome (ilock k) (fun _ s' => Represents clean s' v ∧ Locked s s' k i) (NoType (v.node i)) s := by
  have used := here.1
  have inside := here.inside rep
  unfold ilock
  rw [outcome_bind]
  refine inode_step ?_
  rw [if_neg (by omega), outcome_bind]
  refine outcome_mono (acquiresleep_spec k s) ?_ (by
    rintro _ _ rfl
    exact ⟨by decide, by decide, fun wrong => by cases wrong⟩)
  rintro _ _ ⟨free, rfl⟩
  have rep₁ : Represents clean (s.setInode k { s.inode k with locked := true }) v :=
    rep.touch used (by dsimp only; omega) rfl rfl rfl rfl fun _ => id
  have slot₁ : (s.setInode k { s.inode k with locked := true }).inode k =
      { s.inode k with locked := true } := setInode_same _ _
  rw [outcome_bind]
  refine inode_step ?_
  rw [slot₁]
  dsimp only
  rw [outcome_ite]
  constructor
  · intro stale
    have fresh : (s.inode k).valid = false := by simpa using stale
    rw [outcome_bind, outcome_get, outcome_bind]
    refine bread_step ?_
    rw [outcome_bind]
    refine data_step ?_
    have unloaded : ∀ j, Loaded s j i → False := by
      intro j loaded
      have same := loaded.at_.unique here rep
      have valid := loaded.2.1
      rw [same, fresh] at valid
      cases valid
    have disk : getDinode ((s.setInode k { s.inode k with locked := true }).store.block
        ((s.setInode k { s.inode k with locked := true }).sb.IBLOCK (s.inode k).inum))
        (dinodeOffset (s.inode k).inum) = v.node i := by
      rw [here.2]
      exact rep.synced i inside fun j loaded => (unloaded j loaded).elim
    rw [disk, outcome_bind]
    refine modifyInode_step ?_
    rw [outcome_bind]
    refine brelse_step ?_
    rw [outcome_bind]
    refine modifyInode_step ?_
    rw [slot₁, setInode_same]
    have merged : ((((s.setInode k { s.inode k with locked := true }).setInode k
        { s.inode k with toDinode := v.node i, locked := true })).setInode k
        { s.inode k with toDinode := v.node i, locked := true, valid := true }) =
        s.setInode k { s.inode k with toDinode := v.node i, locked := true, valid := true } := by
      unfold State.setInode
      rw [Function.update_idem, Function.update_idem]
    rw [merged, outcome_ite]
    constructor
    · intro none_
      rw [outcome_throw]
      exact ⟨by decide, by decide, fun _ => none_⟩
    · intro type
      rw [outcome_pure]
      refine ⟨?_, rfl, fun j apart => setInode_other _ apart, free, ?_, ?_, ?_⟩
      · refine rep.setInode (d := v.node) (rep.counts k) (rep.root k) (rep.numbered k) ?_ ?_ ?_ rep.fits
        · intro _ j apart other equal
          exact apart (rep.unique j k other used equal)
        · intro j l loaded
          by_cases same : j = k
          · subst same
            have which : l = i := by
              have inum := loaded.2.2
              rw [setInode_same] at inum
              exact inum.symm.trans here.2
            subst which
            rw [setInode_same]
            exact ⟨rfl, fun _ => type⟩
          · have was := (loaded_setInode_other same).mp loaded
            rw [setInode_other _ same]
            exact ⟨rep.copy j l was, rep.allocated j l was⟩
        · intro l within _
          exact rep.synced l within fun _ _ => id
      · rw [setInode_same]
      · rw [setInode_same]
      · unfold Loaded
        rw [setInode_same]
        exact ⟨used, rfl, here.2⟩
  · intro fresh
    have valid : (s.inode k).valid = true := by simpa using fresh
    rw [outcome_pure]
    refine ⟨rep₁, rfl, fun j apart => setInode_other _ apart, free, ?_, ?_, ?_⟩
    · rw [setInode_same]
    · rw [setInode_same]
    · unfold Loaded
      rw [setInode_same]
      exact ⟨used, valid, here.2⟩

theorem iunlock_spec (rep : Represents clean s v) (used : 0 < (s.inode k).ref) :
    outcome (iunlock k) (fun _ s' => Represents clean s' v ∧
      s' = s.setInode k { s.inode k with locked := false }) Permitted s := by
  unfold iunlock releasesleep
  rw [outcome_bind]
  refine inode_step ?_
  rw [outcome_ite]
  constructor
  · intro _
    rw [outcome_bind, outcome_throw]
    unfold Permitted
    decide
  · intro _
    refine modifyInode_step ⟨?_, rfl⟩
    exact rep.touch used (by dsimp only; omega) rfl rfl rfl rfl fun _ => id

end Locking

section Giving

/-- `k` lost one reference. -/
structure Gave (s s' : JState) (k : Slot) : Prop where
  other : ∀ j, j ≠ k → s'.inode j = s.inode j
  ref : (s'.inode k).ref = (s.inode k).ref - 1
  shared : 1 < (s.inode k).ref → s'.inode k = { s.inode k with ref := (s.inode k).ref - 1 }

theorem Gave.atop (gave : Gave s s' k) {base : Slot → Inode} {handles : List Slot}
    (atop : Over base (k :: handles) s) : Over base handles s' where
  counts := atop.counts
  ref j := by
    have count := atop.ref j
    by_cases same : j = k
    · subst same
      rw [gave.ref, count, List.count_cons_self]
      omega
    · rw [gave.other j same, count, List.count_cons_of_ne (Ne.symm same)]
  inum j used := by
    have count := atop.ref j
    by_cases same : j = k
    · subst same
      rw [List.count_cons_self] at count
      rw [gave.shared (by omega)]
      exact atop.inum j used
    · rw [gave.other j same]
      exact atop.inum j used
  valid j used is := by
    have count := atop.ref j
    by_cases same : j = k
    · subst same
      rw [List.count_cons_self] at count
      rw [gave.shared (by omega)]
      exact atop.valid j used is
    · rw [gave.other j same]
      exact atop.valid j used is

theorem Gave.loaded (gave : Gave s s' k) {j : Slot} {l : Nat} (loaded : Loaded s j l)
    (apart : j ≠ k) : Loaded s' j l := by
  unfold Loaded
  rw [gave.other j apart]
  exact loaded

/-- `iput` frees the inode. -/
def Last (s : JState) (v : Volume) (k : Slot) (i : Nat) : Prop :=
  (s.inode k).ref = 1 ∧ (s.inode k).valid = true ∧ (v.node i).nlink = 0

theorem drop_ref (rep : Represents clean s v) (used : 0 < (s.inode k).ref) :
    outcome (modifyInode k fun ip => { ip with ref := ip.ref - 1 })
      (fun _ s' => Represents clean s' v ∧ s'.store = s.store ∧ Gave s s' k) Permitted s := by
  refine modifyInode_step ⟨?_, rfl, fun j apart => setInode_other _ apart, ?_, ?_⟩
  · exact rep.touch used (by dsimp only; omega) rfl rfl rfl rfl fun _ => id
  · rw [setInode_same]
  · intro _
    rw [setInode_same]

/-- What an erased inode leaves in the table. -/
theorem erase_spec (rep : Represents clean s v) (owned : v.Owned) (loaded : Loaded s k i) :
    outcome (do
      itrunc k
      modifyInode k fun ip => { ip with type := 0 }
      iupdate k
      modifyInode k fun ip => { ip with valid := false })
      (fun _ s' => ∃ v', Represents clean s' v' ∧ v'.Owned ∧ v.Erased i v' ∧
        (∀ j, j ≠ k → s'.inode j = s.inode j) ∧ (s'.inode k).ref = (s.inode k).ref ∧
        LogsOnly s s' fun b => b = v.sb.IBLOCK i ∨ isBitmap v.sb b) Permitted s := by
  refine outcome_seq (itrunc_spec rep owned loaded) ?_
  rintro _ s₁ ⟨v₁, truncated⟩
  have sb₁ := truncated.freed.sb
  have loaded₁ : Loaded s₁ k i := loaded_update loaded truncated.table
  have copy₁ : (s₁.inode k).toDinode = emptied (v.node i) := by
    rw [truncated.table, Function.update_self]
  rw [outcome_bind]
  refine modifyInode_step ?_
  have node : ({ s₁.inode k with type := 0 } : Inode) =
      { s₁.inode k with toDinode := { emptied (v.node i) with type := 0 } } := by
    rw [← copy₁]
  rw [node]
  have fits : ({ emptied (v.node i) with type := 0 } : Dinode).Fits :=
    { emptied_fits (v.node i) with }
  have opened : Represents (only k) s₁ v₁ := truncated.rep.weaken fun _ never => never.elim
  have rep₂ := opened.edit loaded₁ (only_self k) fits
  have slot₂ : (s₁.setInode k { s₁.inode k with
      toDinode := { emptied (v.node i) with type := 0 } }).inode k =
      { s₁.inode k with toDinode := { emptied (v.node i) with type := 0 } } := setInode_same _ _
  have loaded₂ : Loaded (s₁.setInode k { s₁.inode k with
      toDinode := { emptied (v.node i) with type := 0 } }) k i := by
    unfold Loaded
    rw [slot₂]
    exact loaded₁
  refine outcome_seq (iupdate_spec rep₂ loaded₂) ?_
  rintro _ s₃ ⟨rep₃, disk, table, logs⟩
  refine modifyInode_step ⟨v₁.setNode i { emptied (v.node i) with type := 0 }, ?_, ?_, ?_, ?_, ?_, ?_⟩
  · have loaded₃ : Loaded s₃ k i := by
      unfold Loaded
      rw [table]
      exact loaded₂
    -- the slot holds no copy any more, and the disk has the inode
    refine rep₃.setInode (rep₃.counts k) (rep₃.root k) (rep₃.numbered k) ?_ ?_ ?_ rep₃.fits
    · intro _ j apart other equal
      exact apart (rep₃.unique j k other loaded₃.1 equal)
    · intro j l now
      by_cases same : j = k
      · have valid := now.2.1
        rw [same, setInode_same] at valid
        cases valid
      · have was := (loaded_setInode_other same).mp now
        rw [setInode_other _ same]
        exact ⟨rep₃.copy j l was, fun _ => rep₃.allocated j l was same⟩
    · intro l within _
      by_cases same : l = i
      · rw [same]
        exact disk
      · refine rep₃.synced l within fun j was mine => same ?_
        rw [← was.2.2, ← loaded₃.2.2, mine]
  · refine Volume.retire_owned truncated.owned (fun p => ?_) rfl
    by_cases near : p ≤ NDIRECT
    · rw [Volume.ptr_direct _ near, truncated.freed.node]
      rfl
    · refine Volume.ptr_none _ (by omega) ?_
      rw [truncated.freed.node]
      rfl
  · exact truncated.freed.renode _
  · intro j apart
    rw [setInode_other _ apart, table, setInode_other _ apart, truncated.table,
      Function.update_of_ne apart]
  · rw [setInode_same, table, slot₂, truncated.table, Function.update_self]
  · refine truncated.logs.trans (logs.mono fun b here => .inl ?_)
    rw [here]
    exact congrArg (fun sb : Superblock => sb.IBLOCK i) sb₁

theorem iput_spec (rep : Represents clean s v) (owned : v.Owned) (here : At s k i) :
    outcome (iput k) (fun _ s' => Gave s s' k ∧
      ((¬ Last s v k i ∧ Represents clean s' v ∧ s'.store = s.store) ∨
      (Last s v k i ∧ ∃ v', Represents clean s' v' ∧ v'.Owned ∧ v.Erased i v' ∧
        LogsOnly s s' fun b => b = v.sb.IBLOCK i ∨ isBitmap v.sb b))) Permitted s := by
  have used := here.1
  unfold iput
  rw [outcome_bind]
  refine inode_step ?_
  rw [outcome_ite]
  constructor
  · rintro ⟨one, valid, linkless⟩
    have loaded : Loaded s k i := ⟨used, valid, here.2⟩
    have last : Last s v k i := by
      refine ⟨one, valid, ?_⟩
      rw [← rep.copy k i loaded]
      exact linkless
    rw [outcome_bind]
    refine outcome_mono (acquiresleep_spec k s) ?_ (by
      rintro _ _ rfl
      unfold Permitted
      decide)
    rintro _ _ ⟨-, rfl⟩
    have rep₁ : Represents clean (s.setInode k { s.inode k with locked := true }) v :=
      rep.touch used (by dsimp only; omega) rfl rfl rfl rfl fun _ => id
    have loaded₁ : Loaded (s.setInode k { s.inode k with locked := true }) k i := by
      unfold Loaded
      rw [setInode_same]
      exact loaded
    have erase := erase_spec rep₁ owned loaded₁
    rw [← bind_assoc, ← bind_assoc, ← bind_assoc]
    refine outcome_seq (by simpa only [bind_assoc] using erase) ?_
    rintro _ s₂ ⟨v', rep₂, owned', erased, others, ref, logs⟩
    rw [setInode_same] at ref
    have used₂ : 0 < (s₂.inode k).ref := by
      rw [ref]
      exact used
    unfold releasesleep
    rw [outcome_bind]
    refine modifyInode_step (modifyInode_step ?_)
    rw [setInode_same]
    have merged : (s₂.setInode k { s₂.inode k with locked := false }).setInode k
        { s₂.inode k with locked := false, ref := (s₂.inode k).ref - 1 } =
        s₂.setInode k { s₂.inode k with locked := false, ref := (s₂.inode k).ref - 1 } := by
      unfold State.setInode
      rw [Function.update_idem]
    dsimp only
    rw [merged]
    refine ⟨⟨?_, ?_, ?_⟩, .inr ⟨last, v', ?_, owned', erased, logs⟩⟩
    · intro j apart
      rw [setInode_other _ apart, others j apart, setInode_other _ apart]
    · rw [setInode_same, ref]
    · intro more
      omega
    · exact rep₂.touch used₂ (by dsimp only; omega) rfl rfl rfl rfl fun _ => id
  · intro kept
    refine outcome_post (drop_ref rep used) ?_
    rintro _ s' ⟨rep', store, gave⟩
    refine ⟨gave, .inl ⟨?_, rep', store⟩⟩
    rintro ⟨one, valid, linkless⟩
    refine kept ⟨one, valid, ?_⟩
    rw [rep.copy k i ⟨used, valid, here.2⟩]
    exact linkless

end Giving

end Fs

end PaddleOs

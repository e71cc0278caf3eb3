import PaddleOs.FsEntries

/-!
Path names over a represented volume. A walk takes and gives back references and follows
the entries of the volume; it allocates nothing. An inode that no entry names is kept by a
reference of somebody else, or else the walk that comes across it and leaves again erases
it. When every such inode is kept, a walk changes nothing.
-/

namespace PaddleOs

namespace Volume

variable {v v' : Volume} {i j : Nat}

theorem Erased.neat (erased : Erased i v v') (neat : v.Neat) : v'.Neat := by
  have dirs : ∀ d, v'.IsDir d → d ≠ i ∧ v.IsDir d := by
    rintro d ⟨live, type⟩
    have apart : d ≠ i := by
      rintro rfl
      exact erased.not_live live
    rw [erased.other d apart] at type
    exact ⟨apart, (erased.live_other apart).mp live, type⟩
  refine ⟨fun d dir bn below => ?_, fun d dir l below => ?_⟩
  · obtain ⟨apart, was⟩ := dirs d dir
    rw [erased.other d apart] at below
    rw [erased.ptr_other apart]
    exact neat.whole d was bn below
  · obtain ⟨apart, was⟩ := dirs d dir
    have entry : v'.entry d l = v.entry d l := entry_congr fun o _ _ => erased.byte_other apart o
    unfold slots at below
    rw [erased.other d apart] at below
    rw [entry, erased.sb]
    exact neat.range d was l below

/-- No allocated inode has a hole below its size. -/
def NoHoles (v : Volume) : Prop := ∀ i, v.Live i → v.Whole i

/-- What every change of the volume leaves true: no holes appear, and inodes that are held
stay allocated with their types. -/
structure Evolves (held : Nat → Prop) (v v' : Volume) : Prop where
  sb : v'.sb = v.sb
  whole : v.NoHoles → v'.NoHoles
  kept : ∀ i, held i → v.Live i → v'.Live i ∧ (v'.node i).type = (v.node i).type

section Evolution

variable {held : Nat → Prop}

theorem Evolves.refl (held : Nat → Prop) (v : Volume) : Evolves held v v :=
  ⟨rfl, id, fun _ _ live => ⟨live, rfl⟩⟩

theorem Evolves.trans {v₁ : Volume} (first : Evolves held v v₁) (second : Evolves held v₁ v') :
    Evolves held v v' where
  sb := second.sb.trans first.sb
  whole whole := second.whole (first.whole whole)
  kept i is live := by
    obtain ⟨live₁, type₁⟩ := first.kept i is live
    obtain ⟨live₂, type₂⟩ := second.kept i is live₁
    exact ⟨live₂, type₂.trans type₁⟩

theorem Evolves.mono {less : Nat → Prop} (evolves : Evolves held v v') (fewer : ∀ i, less i → held i) :
    Evolves less v v' :=
  ⟨evolves.sb, evolves.whole, fun i is => evolves.kept i (fewer i is)⟩

theorem Erased.evolves (erased : Erased i v v') (free : ¬ held i) : Evolves held v v' where
  sb := erased.sb
  whole whole j live bn below := by
    have apart : j ≠ i := by
      rintro rfl
      exact erased.not_live live
    rw [erased.other j apart] at below
    rw [erased.ptr_other apart]
    exact whole j ((erased.live_other apart).mp live) bn below
  kept j is live := by
    have apart : j ≠ i := by
      rintro rfl
      exact free is
    rw [erased.other j apart]
    exact ⟨(erased.live_other apart).mpr live, rfl⟩

/-- A change of one file that makes no hole in it. -/
theorem Touch.evolves (touch : Touch i v v') (owned : v.Owned) (whole : v.Whole i → v'.Whole i) :
    Evolves held v v' where
  sb := touch.sb
  whole all j live := by
    have was := (touch.live j).mp live
    by_cases same : j = i
    · subst same
      exact whole (all j was)
    · exact touch.whole_other owned was same (all j was)
  kept j _ live := ⟨(touch.live j).mpr live, touch.type⟩

theorem Patched.evolves {j : Nat} {de : Dirent} (patched : Patched i j de v v') (owned : v.Owned) :
    Evolves held v v' := patched.touch.evolves owned patched.whole

theorem Padded.evolves (padded : Padded i v v') (owned : v.Owned) : Evolves held v v' :=
  padded.touch.evolves owned padded.whole

end Evolution

/-- What a path walk can come to: the root, the inodes held by references, and what the
entries of such directories name. -/
inductive Reach (v : Volume) (held : Nat → Prop) : Nat → Prop where
  | root : Reach v held ROOTINO
  | held {i : Nat} : held i → Reach v held i
  | entry {d j : Nat} : Reach v held d → v.IsDir d → j < v.slots d →
      (v.entry d j).inum ≠ 0 → Reach v held (v.entry d j).inum

end Volume

open Fs in
/-- The walk of `namex` from inode `i`, with the last name `skipelem` stored. -/
def Volume.resolve (v : Volume) (parent : Bool) : Nat → Nat → Path → Name → Option (Nat × Name)
  | 0, i, _, last => some (i, last)
  | fuel + 1, i, path, last =>
      match skipelem path with
      | none => if parent then none else some (i, last)
      | some (name, rest) =>
          if (v.node i).type ≠ T_DIR then none
          else if parent ∧ rest = [] then some (i, name)
          else
            match v.lookup i name with
            | none => none
            | some j => v.resolve parent fuel (v.entry i j).inum rest name

namespace Fs

open Foundation.Outcome

variable {s s' : JState} {v v' : Volume} {k : Slot} {i : Nat}

/-- A state between the steps of a call: no copy is dirty, blocks are owned exactly and
directories are neat. -/
structure Good (s : JState) (v : Volume) : Prop where
  rep : Represents clean s v
  owned : v.Owned
  neat : v.Neat

def Held (base : Slot → Inode) (i : Nat) : Prop := ∃ k, 0 < (base k).ref ∧ (base k).inum = i

/-- Every allocated inode without a link is held. -/
def Anchored (base : Slot → Inode) (v : Volume) : Prop :=
  ∀ i, v.Live i → (v.node i).nlink = 0 → Held base i

/-- Nothing of what is held changed, and under `calm` nothing at all. -/
structure Spares (base : Slot → Inode) (calm : Prop) (s s' : JState) (v v' : Volume) : Prop where
  evolves : v.Evolves (Held base) v'
  quiet : calm → v' = v ∧ s'.store = s.store

variable {base : Slot → Inode} {handles : List Slot} {calm : Prop}

theorem Spares.of_store (store : s'.store = s.store) : Spares base calm s s' v v :=
  ⟨.refl _ _, fun _ => ⟨rfl, store⟩⟩

theorem Spares.refl (base : Slot → Inode) (calm : Prop) (s : JState) (v : Volume) :
    Spares base calm s s v v := .of_store rfl

theorem Spares.trans {s₁ : JState} {v₁ : Volume} (first : Spares base calm s s₁ v v₁)
    (second : Spares base calm s₁ s' v₁ v') : Spares base calm s s' v v' := by
  refine ⟨first.evolves.trans second.evolves, fun is => ?_⟩
  obtain ⟨rfl, store₁⟩ := first.quiet is
  obtain ⟨rfl, store₂⟩ := second.quiet is
  exact ⟨rfl, store₂.trans store₁⟩

/-- The last reference to an inode is not one of those that were there before the call. -/
theorem Last.unheld (last : Last s v k i) (good : Good s v) (atop : Over base (k :: handles) s)
    (here : At s k i) : ¬ Held base i := by
  rintro ⟨j, used, inum⟩
  have one := last.1
  have there : At s j i := by
    have count := atop.ref j
    exact ⟨by omega, (atop.inum j used).trans inum⟩
  have same := there.unique here good.rep
  have count := atop.ref k
  rw [same] at used
  rw [List.count_cons_self] at count
  omega

/-- A held inode is not erased when a call gives its own reference back. -/
theorem not_last (good : Good s v) (atop : Over base (k :: handles) s) (here : At s k i)
    (anchored : Anchored base v) : ¬ Last s v k i := by
  intro last
  have loaded : Loaded s k i := ⟨here.1, last.2.1, here.2⟩
  exact last.unheld good atop here (anchored i (loaded.live good.rep) last.2.2)

theorem giveBack_spec (good : Good s v) (atop : Over base (k :: handles) s) (here : At s k i)
    (anchored : calm → Anchored base v) :
    outcome (iput k) (fun _ s' => ∃ v', Good s' v' ∧ Over base handles s' ∧ Gave s s' k ∧
      Spares base calm s s' v v') Permitted s := by
  refine outcome_post (iput_spec good.rep good.owned here) ?_
  rintro _ s' ⟨gave, ⟨-, rep, store⟩ | ⟨last, v', rep, owned, erased, -⟩⟩
  · exact ⟨v, ⟨rep, good.owned, good.neat⟩, gave.atop atop, gave, .of_store store⟩
  · refine ⟨v', ⟨rep, owned, erased.neat good.neat⟩, gave.atop atop, gave, ?_, fun is => ?_⟩
    · exact erased.evolves (last.unheld good atop here)
    · exact absurd last (not_last good atop here (anchored is))

theorem iunlockput_spec (good : Good s v) (atop : Over base (k :: handles) s) (here : At s k i)
    (anchored : calm → Anchored base v) :
    outcome (iunlockput k) (fun _ s' => ∃ v', Good s' v' ∧ Over base handles s' ∧
      (∀ j, j ≠ k → s'.inode j = s.inode j) ∧
      (1 < (s.inode k).ref → s'.inode k = { s.inode k with locked := false, ref := (s.inode k).ref - 1 }) ∧
      Spares base calm s s' v v') Permitted s := by
  unfold iunlockput
  refine outcome_seq (iunlock_spec good.rep here.1) ?_
  rintro _ _ ⟨rep, rfl⟩
  have atop₁ : Over base (k :: handles) (s.setInode k { s.inode k with locked := false }) :=
    atop.update (k := k) rfl rfl rfl rfl
  have here₁ : At (s.setInode k { s.inode k with locked := false }) k i := by
    unfold At
    rw [setInode_same]
    exact here
  refine outcome_post (giveBack_spec ⟨rep, good.owned, good.neat⟩ atop₁ here₁ anchored) ?_
  rintro _ s' ⟨v', good', atop', gave, spares⟩
  refine ⟨v', good', atop', fun j apart => ?_, fun more => ?_, spares.evolves, fun is => ?_⟩
  · rw [gave.other j apart, setInode_other _ apart]
  · have shared := gave.shared
    rw [setInode_same] at shared
    exact shared more
  · exact ⟨(spares.quiet is).1, (spares.quiet is).2⟩

/-- What was found in a directory stays when the directory is given back. -/
theorem Took.survives {s₁ s₂ s₃ : JState} {next : Slot} {l : Nat} (took : Took s₁ s₂ next l)
    (here : At s₁ k i) (atop : Over base (next :: handles) s₃)
    (others : ∀ j, j ≠ k → s₃.inode j = s₂.inode j)
    (shared : 1 < (s₂.inode k).ref →
      s₃.inode k = { s₂.inode k with locked := false, ref := (s₂.inode k).ref - 1 }) : At s₃ next l := by
  refine ⟨atop.used (List.mem_cons_self ..), ?_⟩
  by_cases same : next = k
  · have old := took.old (by rw [same]; exact here.1)
    have positive := here.1
    rw [same] at old ⊢
    rw [shared (by rw [old]; dsimp only; omega), ← same]
    exact took.inum
  · rw [others next same]
    exact took.inum

section Walking

theorem skipelem_shorter {path rest : Path} {name : Name}
    (split : skipelem path = some (name, rest)) : rest.length < path.length := by
  unfold skipelem at split
  have skipped : (path.dropWhile (· = slash)).length ≤ path.length := List.length_dropWhile_le ..
  generalize first : path.dropWhile (· = slash) = trimmed at split skipped
  dsimp only at split
  split at split
  · cases split
  · rename_i some_
    cases split
    cases trimmed with
    | nil => exact absurd rfl some_
    | cons c tail =>
        have plain : c ≠ slash := by
          have stops := List.head_dropWhile_not (· = slash) (l := path) (by rw [first]; simp)
          simpa [first] using stops
        have less : (((c :: tail).dropWhile (· ≠ slash)).dropWhile (· = slash)).length ≤ tail.length := by
          rw [List.dropWhile_cons_of_pos (by simpa using plain)]
          exact (List.length_dropWhile_le ..).trans (List.length_dropWhile_le ..)
        exact Nat.lt_of_le_of_lt less (Nat.lt_of_lt_of_le (Nat.lt_succ_self _) skipped)

/-- The stops of a walk: under `calm` a free inode is only met where an entry or a
reference names one. -/
def WalkFault (calm : Prop) (held : Nat → Prop) (v : Volume) (stop : Stop) (_ : JState) : Prop :=
  stop ≠ .freeingFreeBlock ∧ stop ≠ .unlinkNlink ∧
    (calm → stop = .ilockNoType → ∃ l, v.Reach held l ∧ (v.node l).type = 0)

theorem Permitted.walk {held : Nat → Prop} {stop : Stop} (permitted : Permitted stop s) :
    WalkFault calm held v stop s' :=
  ⟨permitted.1, permitted.2.2, fun _ is => absurd is permitted.2.1⟩

theorem permitted_walk {α : Type} {run : FsM Journal α} {post : α → JState → Prop}
    {held : Nat → Prop} (holds : outcome run post Permitted s) :
    outcome run post (WalkFault calm held v) s :=
  outcome_mono holds (fun _ _ => id) fun _ _ => Permitted.walk

/-- Where a walk ends. -/
def Arrived (base : Slot → Inode) (handles : List Slot) (calm : Prop) (parent : Bool) (s' : JState)
    (v v' : Volume) (goal : Option (Nat × Name)) : Option (Slot × Name) → Prop
  | none => Over base handles s' ∧ (calm → goal = none)
  | some (k, name) => Over base (k :: handles) s' ∧ ∃ l, At s' k l ∧
      (parent = true → Loaded s' k l ∧ v'.IsDir l) ∧
      (calm → goal = some (l, name) ∧ v.Reach (Held base) l)

theorem Arrived.congr {parent : Bool} {v₁ : Volume} (goal : Volume → Option (Nat × Name))
    {answer : Option (Slot × Name)}
    (arrived : Arrived base handles calm parent s' v₁ v' (goal v₁) answer) (same : calm → v₁ = v) :
    Arrived base handles calm parent s' v v' (goal v) answer := by
  cases answer with
  | none =>
      refine ⟨arrived.1, fun is => ?_⟩
      rw [← same is]
      exact arrived.2 is
  | some answer =>
      obtain ⟨atop, l, here, dir, reached⟩ := arrived
      refine ⟨atop, l, here, dir, fun is => ?_⟩
      rw [← same is]
      exact reached is

theorem namexFrom_spec (parent : Bool) (fuel : Nat) (path : Path) (last : Name) (good : Good s v)
    (atop : Over base (k :: handles) s) (here : At s k i) (enough : path.length < fuel)
    (known : calm → Anchored base v ∧ v.Reach (Held base) i) :
    outcome (namexFrom parent fuel k path last) (fun r s' => ∃ v', Good s' v' ∧
      Spares base calm s s' v v' ∧
      Arrived base handles calm parent s' v v' (v.resolve parent fuel i path last) r)
      (WalkFault calm (Held base) v) s := by
  induction fuel generalizing s v k i path last with
  | zero => omega
  | succ fuel ih =>
      have anchored : calm → Anchored base v := fun is => (known is).1
      rw [namexFrom, Volume.resolve]
      cases split : skipelem path with
      | none =>
          dsimp only
          cases parent with
          | true =>
              rw [if_pos rfl, if_pos rfl]
              refine outcome_seq (permitted_walk (giveBack_spec good atop here anchored)) ?_
              rintro _ s₁ ⟨v₁, good₁, atop₁, -, spares⟩
              rw [outcome_pure]
              exact ⟨v₁, good₁, spares, atop₁, fun _ => rfl⟩
          | false =>
              rw [if_neg (by decide), if_neg (by decide), outcome_pure]
              exact ⟨v, good, Spares.refl .., atop, i, here, fun wrong => (by cases wrong),
                fun is => ⟨rfl, (known is).2⟩⟩
      | some piece =>
          obtain ⟨name, rest⟩ := piece
          dsimp only
          have shorter : rest.length < fuel := by
            have less := skipelem_shorter split
            omega
          rw [outcome_bind]
          refine outcome_mono (ilock_spec good.rep here) ?_ (by
            rintro stop _ ⟨free, link, type⟩
            exact ⟨free, link, fun is stopped => ⟨i, (known is).2, type stopped⟩⟩)
          rintro _ s₁ ⟨rep₁, locked⟩
          have good₁ : Good s₁ v := ⟨rep₁, good.owned, good.neat⟩
          have atop₁ : Over base (k :: handles) s₁ := atop.trans (locked.atop good.rep here)
          have spares₁ : Spares base calm s s₁ v v := .of_store locked.store
          have loaded := locked.loaded
          have live := loaded.live rep₁
          have here₁ := loaded.at_
          rw [outcome_bind]
          refine inode_step ?_
          rw [rep₁.copy k i loaded, outcome_ite]
          constructor
          · intro other
            rw [if_pos other]
            refine outcome_seq (permitted_walk (iunlockput_spec good₁ atop₁ here₁ anchored)) ?_
            rintro _ s₂ ⟨v₂, good₂, atop₂, -, -, spares₂⟩
            rw [outcome_pure]
            exact ⟨v₂, good₂, spares₁.trans spares₂, atop₂, fun _ => rfl⟩
          intro type
          rw [if_neg type]
          have dir : v.IsDir i := ⟨live, by simpa using type⟩
          rw [outcome_ite]
          constructor
          · intro stop
            rw [if_pos stop]
            refine outcome_seq (permitted_walk (iunlock_spec rep₁ here₁.1)) ?_
            rintro _ _ ⟨rep₂, rfl⟩
            rw [outcome_pure]
            refine ⟨v, ⟨rep₂, good.owned, good.neat⟩, spares₁.trans (.of_store rfl),
              atop₁.update (k := k) rfl rfl rfl rfl, i, ?_, fun _ => ⟨?_, dir⟩,
              fun is => ⟨rfl, (known is).2⟩⟩
            · unfold At
              rw [setInode_same]
              exact here₁
            · unfold Loaded
              rw [setInode_same]
              exact loaded
          intro further
          rw [if_neg further]
          refine outcome_seq (permitted_walk (dirlookup_spec rep₁ good.owned good.neat loaded)) ?_
          rintro answer s₂ ⟨-, found⟩
          unfold Found at found
          split at found
          · rename_i missing
            subst found
            dsimp only
            rw [missing]
            refine outcome_seq (permitted_walk (iunlockput_spec good₁ atop₁ here₁ anchored)) ?_
            rintro _ s₃ ⟨v₃, good₃, atop₃, -, -, spares₃⟩
            rw [outcome_pure]
            exact ⟨v₃, good₃, spares₁.trans spares₃, atop₃, fun _ => rfl⟩
          · rename_i j next off hit
            obtain ⟨-, rep₂, took⟩ := found
            obtain ⟨below, ⟨named, -⟩, -⟩ := Volume.lookup_some.mp hit
            dsimp only
            rw [hit]
            have good₂ : Good s₂ v := ⟨rep₂, good.owned, good.neat⟩
            have atop₂ : Over base (k :: next :: handles) s₂ := by
              refine (atop₁.trans (took.atop rep₁)).congr fun l => ?_
              exact (List.Perm.swap k next handles).count_eq l |>.symm
            have here₂ : At s₂ k i := (took.loaded loaded).at_
            refine outcome_seq (permitted_walk (iunlockput_spec good₂ atop₂ here₂ anchored)) ?_
            rintro _ s₃ ⟨v₃, good₃, atop₃, others, shared, spares₃⟩
            have here₃ : At s₃ next (v.entry i j).inum := took.survives here₁ atop₃ others shared
            have spares : Spares base calm s s₃ v v₃ :=
              spares₁.trans (Spares.trans (.of_store took.store) spares₃)
            refine outcome_mono (ih rest name good₃ atop₃ here₃ shorter fun is => ?_) ?_ ?_
            · rw [(spares.quiet is).1]
              exact ⟨anchored is, .entry (known is).2 dir below named⟩
            · rintro r s₄ ⟨v₄, good₄, spares₄, arrived⟩
              refine ⟨v₄, good₄, spares.trans spares₄, ?_⟩
              exact arrived.congr (fun w => w.resolve parent fuel (v.entry i j).inum rest name)
                fun is => (spares.quiet is).1
            · rintro stop s₄ ⟨free, link, type⟩
              refine ⟨free, link, fun is stopped => ?_⟩
              have met := type is stopped
              rwa [(spares.quiet is).1] at met
          · exact found.elim

/-- The inode a path starts from. -/
def startOf (base : Slot → Inode) (cwd : Slot) (path : Path) : Nat :=
  if path.head? = some slash then ROOTINO else (base cwd).inum

theorem namex_spec (parent : Bool) (cwd : Slot) (path : Path) (good : Good s v)
    (atop : Over base handles s) (home : path.head? ≠ some slash → 0 < (base cwd).ref)
    (anchored : calm → Anchored base v) :
    outcome (namex cwd path parent) (fun r s' => ∃ v', Good s' v' ∧ Spares base calm s s' v v' ∧
      Arrived base handles calm parent s' v v'
        (v.resolve parent (path.length + 1) (startOf base cwd path) path []) r)
      (WalkFault calm (Held base) v) s := by
  have walk : ∀ (k : Slot) (s₁ : JState), Represents clean s₁ v →
      Took s s₁ k (startOf base cwd path) → v.Reach (Held base) (startOf base cwd path) →
      outcome (namexFrom parent (path.length + 1) k path []) (fun r s' => ∃ v', Good s' v' ∧
        Spares base calm s s' v v' ∧ Arrived base handles calm parent s' v v'
          (v.resolve parent (path.length + 1) (startOf base cwd path) path []) r)
        (WalkFault calm (Held base) v) s₁ := by
    intro k s₁ rep₁ took reach
    have good₁ : Good s₁ v := ⟨rep₁, good.owned, good.neat⟩
    refine outcome_post (namexFrom_spec parent _ path [] good₁ (atop.trans (took.atop good.rep))
      (took.at_ good.rep) (Nat.lt_succ_self _) fun is => ⟨anchored is, reach⟩) ?_
    rintro r s₂ ⟨v₂, good₂, spares, arrived⟩
    exact ⟨v₂, good₂, Spares.trans (.of_store took.store) spares, arrived⟩
  unfold namex
  dsimp only
  rw [outcome_ite]
  constructor
  · intro absolute
    have start : startOf base cwd path = ROOTINO := if_pos absolute
    rw [outcome_bind]
    refine outcome_mono (iget_spec good.rep good.rep.sane.rootino) ?_ fun _ _ => Permitted.walk
    rintro k s₁ ⟨rep₁, took⟩
    rw [← start] at took
    exact walk k s₁ rep₁ took (by rw [start]; exact .root)
  · intro relative
    have start : startOf base cwd path = (base cwd).inum := if_neg relative
    have used := home relative
    have count := atop.ref cwd
    have here : At s cwd (startOf base cwd path) := by
      rw [start]
      exact ⟨by omega, atop.inum cwd used⟩
    rw [outcome_bind]
    refine outcome_mono (idup_spec good.rep here) ?_ fun _ _ => Permitted.walk
    rintro k s₁ ⟨rfl, rep₁, took⟩
    refine walk k s₁ rep₁ took ?_
    rw [start]
    exact .held ⟨k, used, rfl⟩

end Walking

end Fs

end PaddleOs

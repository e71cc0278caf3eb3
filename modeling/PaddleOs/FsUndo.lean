import PaddleOs.FileContents

/-!
What calls leave that fail. `sys_link` takes the link back that it had counted, `create`
gives the inode back that it had allocated, and an entry that found no room has at most
cost its directory an empty indirect block. So a failed call leaves the tree of files as it
was: what is compared are the inodes one by one.
-/

namespace PaddleOs

namespace Volume

variable {v v₁ v' : Volume} {d i j : Nat}

/-- Inode `j` is the same file in both volumes, except for an indirect block that a directory
may have got. -/
structure SameFile (v v' : Volume) (j : Nat) : Prop where
  live : v'.Live j ↔ v.Live j
  node : v.Live j → v'.node j = { v.node j with addrs := (v'.node j).addrs }
  byte : v.Live j → ∀ o, v'.byte j o = v.byte j o
  blocks : v.Live j → ∀ p, p ≤ MAXFILE → p ≠ NDIRECT → v'.ptr j p = v.ptr j p
  kept : v.Live j → ∀ p, p ≤ MAXFILE → v.ptr j p ≠ 0 → v'.ptr j p = v.ptr j p
  plain : v.Live j → (v.node j).type ≠ T_DIR → v'.node j = v.node j

/-- The two volumes have the same files. -/
def SameTree (v v' : Volume) : Prop := ∀ j, SameFile v v' j

theorem SameFile.refl (v : Volume) (j : Nat) : SameFile v v j where
  live := Iff.rfl
  node _ := rfl
  byte _ _ := rfl
  blocks _ _ _ _ := rfl
  kept _ _ _ _ := rfl
  plain _ _ := rfl

theorem SameFile.trans (first : SameFile v v₁ j) (second : SameFile v₁ v' j) : SameFile v v' j where
  live := second.live.trans first.live
  node live := by rw [second.node (first.live.mpr live), first.node live]
  byte live o := (second.byte (first.live.mpr live) o).trans (first.byte live o)
  blocks live p low direct := (second.blocks (first.live.mpr live) p low direct).trans
    (first.blocks live p low direct)
  kept live p low some := by
    have same := first.kept live p low some
    exact (second.kept (first.live.mpr live) p low (same ▸ some)).trans same
  plain live type := by
    have same := first.plain live type
    exact (second.plain (first.live.mpr live) (same ▸ type)).trans same

theorem SameTree.refl (v : Volume) : SameTree v v := SameFile.refl v

/-- An inode that is free before and behind. -/
theorem SameFile.free (before : ¬ v.Live j) (behind : ¬ v'.Live j) : SameFile v v' j where
  live := ⟨fun live => absurd live behind, fun live => absurd live before⟩
  node live := absurd live before
  byte live := absurd live before
  blocks live := absurd live before
  kept live := absurd live before
  plain live := absurd live before

/-- The node is the same, and so are the blocks behind it. -/
theorem SameFile.of_live (live : v'.Live j ↔ v.Live j) (node : v.Live j → v'.node j = v.node j)
    (ptr : v.Live j → ∀ p, v'.ptr j p = v.ptr j p) (byte : v.Live j → ∀ o, v'.byte j o = v.byte j o) :
    SameFile v v' j where
  live := live
  node is := by rw [node is]
  byte := byte
  blocks is p _ _ := ptr is p
  kept is p _ _ := ptr is p
  plain is _ := node is

theorem SameFile.of_node (sb : v'.sb = v.sb) (node : v'.node j = v.node j)
    (ptr : v.Live j → ∀ p, v'.ptr j p = v.ptr j p) (byte : v.Live j → ∀ o, v'.byte j o = v.byte j o) :
    SameFile v v' j := by
  refine .of_live ?_ (fun _ => node) ptr byte
  unfold Live
  rw [sb, node]

section Steps

/-- The files of other inodes stay. -/
theorem Touch.same_file (touch : Touch i v v') (owned : v.Owned) (apart : j ≠ i) : SameFile v v' j :=
  .of_node touch.sb (touch.other j apart) (fun live _ => touch.ptr_other owned live apart)
    fun live o => touch.byte_other owned live apart o

theorem Padded.same_file (padded : Padded d v v') (owned : v.Owned) (dir : v.IsDir d) (j : Nat) :
    SameFile v v' j := by
  by_cases here : j = d
  · subst here
    refine ⟨padded.touch.live j, fun _ => ?_, fun _ => padded.byte, fun _ => padded.blocks,
      fun _ => padded.touch.kept, fun _ plain => absurd dir.2 plain⟩
    rw [padded.touch.fields, padded.size]
  · exact padded.touch.same_file owned here

theorem setNode_same_file {e : Dinode} (apart : j ≠ i) : SameFile v (v.setNode i e) j := by
  have node : (v.setNode i e).node j = v.node j := setNode_other _ _ apart
  have ptr : ∀ p, (v.setNode i e).ptr j p = v.ptr j p := fun p =>
    ptr_congr (by rw [node]) fun _ => rfl
  refine .of_node rfl node (fun _ => ptr) fun _ o => ?_
  unfold byte
  rw [ptr]
  rfl

theorem Erased.same_file (erased : Erased i v v') (apart : j ≠ i) : SameFile v v' j :=
  .of_node erased.sb (erased.other j apart) (fun _ => erased.ptr_other apart) fun _ => erased.byte_other apart

end Steps

section Trees

theorem SameFile.content (same : SameFile v v' j) (live : v.Live j) : v'.content j = v.content j := by
  unfold Volume.content
  rw [same.node live]
  exact bytes_congr fun o _ _ => same.byte live o

theorem SameFile.entry (same : SameFile v v' d) (live : v.Live d) (l : Nat) : v'.entry d l = v.entry d l :=
  entry_congr fun o _ _ => same.byte live o

theorem SameFile.slots (same : SameFile v v' d) (live : v.Live d) : v'.slots d = v.slots d := by
  unfold Volume.slots
  rw [same.node live]

/-- Every name leads where it led. -/
theorem SameFile.lookup (same : SameFile v v' d) (live : v.Live d) (name : Name) :
    v'.lookup d name = v.lookup d name := by
  unfold Volume.lookup
  rw [same.slots live]
  congr 1
  funext l
  refine decide_eq_decide.mpr ?_
  unfold Names
  rw [same.entry live]

theorem SameFile.vacant (same : SameFile v v' d) (live : v.Live d) : v'.vacant d = v.vacant d := by
  unfold Volume.vacant
  rw [same.slots live]
  simp only [same.entry live]

/-- The tree of files is the same: the inodes that are allocated, where each name of a directory
leads, the sizes, contents and link counts. A directory may have got an indirect block. -/
structure Unchanged (v v' : Volume) : Prop where
  allocated : ∀ i, v'.Live i ↔ v.Live i
  names : ∀ d, v.IsDir d → ∀ name, (v'.lookup d name).map (fun l => (v'.entry d l).inum) =
    (v.lookup d name).map fun l => (v.entry d l).inum
  node : ∀ i, v.Live i → v'.node i = { v.node i with addrs := (v'.node i).addrs }
  content : ∀ i, v.Live i → v'.content i = v.content i
  blocks : ∀ i, v.Live i → ∀ p, p ≤ MAXFILE → v'.ptr i p = v.ptr i p ∨
    (v.node i).type = T_DIR ∧ p = NDIRECT ∧ v.ptr i p = 0

theorem SameTree.unchanged (same : SameTree v v') : Unchanged v v' where
  allocated i := (same i).live
  names d dir name := by
    rw [(same d).lookup dir.1]
    simp only [(same d).entry dir.1]
  node i live := (same i).node live
  content i live := (same i).content live
  blocks i live p low := by
    by_cases direct : p = NDIRECT
    · by_cases some : v.ptr i p = 0
      · by_cases dir : (v.node i).type = T_DIR
        · exact .inr ⟨dir, direct, some⟩
        · refine .inl ?_
          subst direct
          rw [v.ptr_direct (Nat.le_refl _), v'.ptr_direct (Nat.le_refl _), (same i).plain live dir]
      · exact .inl ((same i).kept live p low some)
    · exact .inl ((same i).blocks live p low direct)

end Trees

end Volume

namespace Fs

open Volume (SameFile SameTree)

variable {v v₁ v' : Volume} {held : Nat → Prop} {d i j inum : Nat} {name : Name} {r : Bool}

section Parts

theorem Dropped.kept (dropped : Dropped held i v v') (linked : (v.node i).nlink = 0 → held i) : v' = v := by
  rcases dropped with ⟨zero, unheld, -⟩ | ⟨-, same⟩
  · exact absurd (linked zero) unheld
  · exact same

/-- `dirlink` leaves the other files alone. -/
theorem Link.same_file (link : Link d name inum v r v') (owned : v.Owned) (apart : j ≠ d) :
    SameFile v v' j := by
  cases link with
  | exists_ found => exact .refl v j
  | full missing stuck padded => exact padded.touch.same_file owned apart
  | linked missing patched => exact patched.touch.same_file owned apart

theorem Link.owned (link : Link d name inum v r v') (owned : v.Owned) : v'.Owned := by
  cases link with
  | exists_ found => exact owned
  | full missing stuck padded => exact padded.owned owned
  | linked missing patched => exact patched.owned owned

/-- A `dirlink` that fails leaves every file. -/
theorem Link.failed (link : Link d name inum v false v') (owned : v.Owned) (dir : v.IsDir d) :
    SameTree v v' := by
  intro j
  cases link with
  | exists_ found => exact .refl v j
  | full missing stuck padded => exact padded.same_file owned dir j

theorem SameFile.nlink (same : SameFile v v' j) (live : v.Live j) : (v'.node j).nlink = (v.node j).nlink := by
  rw [same.node live]

theorem SameFile.isDir (same : SameFile v v' d) (dir : v.IsDir d) : v'.IsDir d := by
  refine ⟨same.live.mpr dir.1, ?_⟩
  rw [same.node dir.1]
  exact dir.2

theorem relink_owned (owned : v.Owned) (i : Nat) (nlink : Int16) : (relink v i nlink).Owned :=
  Volume.refield_owned owned rfl Iff.rfl

theorem relink_node (v : Volume) (i : Nat) (nlink : Int16) :
    (relink v i nlink).node i = { v.node i with nlink } := Volume.setNode_same v _

theorem relink_relink (v : Volume) (i : Nat) (a b : Int16) : relink (relink v i a) i b = relink v i b := by
  unfold relink Volume.setNode
  simp only [Function.update_self, Function.update_idem]

theorem relink_self (v : Volume) (i : Nat) : relink v i (v.node i).nlink = v := setNode_self v i

theorem relink_live (v : Volume) (i : Nat) (nlink : Int16) : (relink v i nlink).Live j ↔ v.Live j :=
  Volume.refield_live Iff.rfl

theorem relink_byte (v : Volume) (i : Nat) (nlink : Int16) (o : Nat) :
    (relink v i nlink).byte j o = v.byte j o :=
  Volume.refield_byte (relink_refield v i nlink).addrs o

theorem relink_ptr (v : Volume) (i : Nat) (nlink : Int16) (p : Nat) :
    (relink v i nlink).ptr j p = v.ptr j p :=
  Volume.refield_ptr (relink_refield v i nlink).addrs p

/-- A link count is raised and taken back around a change of other files. -/
theorem SameFile.relinked {a : Int16} (same : SameFile (relink v i a) v₁ i) (live : v.Live i)
    (plain : (v.node i).type ≠ T_DIR) : SameFile v (relink v₁ i (v.node i).nlink) i := by
  have raised := (relink_live v i a).mpr live
  have node : (relink v₁ i (v.node i).nlink).node i = v.node i := by
    rw [relink_node, same.plain raised (by rw [relink_node]; exact plain), relink_node]
  refine ⟨?_, fun _ => by rw [node], fun _ o => ?_, fun _ p low direct => ?_, fun _ p low some => ?_,
    fun _ _ => node⟩
  · rw [relink_live, same.live, relink_live]
  · rw [relink_byte, same.byte raised, relink_byte]
  · rw [relink_ptr, same.blocks raised p low direct, relink_ptr]
  · rw [← relink_ptr v i a] at some
    rw [relink_ptr, same.kept raised p low some, relink_ptr]

end Parts

section Calls

/-- Every allocated inode without a link is in use, every inode in use is allocated, and the entries
name inodes that exist. -/
structure Linked (held : Nat → Prop) (v : Volume) : Prop where
  anchored : ∀ i, v.Live i → (v.node i).nlink = 0 → held i
  allocated : ∀ i, held i → v.Live i

/-- What can be reached exists. -/
theorem Linked.inside (linked : Linked held v) (sane : v.sb.Sane) (neat : v.Neat) (reach : v.Reach held i) :
    i < v.sb.ninodes := by
  induction reach with
  | root => exact sane.rootino
  | held is => exact (linked.allocated _ is).1
  | entry _ dir below named ih => exact neat.range _ dir _ below

/-- A walk to a directory ends in one. -/
theorem resolve_parent {fuel start : Nat} {path : Path} {last : Name}
    (ends : v.resolve true fuel start path last = some (d, name)) (enough : path.length < fuel) :
    (v.node d).type = T_DIR := by
  induction fuel generalizing start path last with
  | zero => omega
  | succ fuel ih =>
      unfold Volume.resolve at ends
      cases split : skipelem path with
      | none =>
          rw [split] at ends
          cases ends
      | some parts =>
          obtain ⟨first, rest⟩ := parts
          have shorter := skipelem_shorter split
          rw [split] at ends
          dsimp only at ends
          by_cases dir : (v.node start).type = T_DIR
          · rw [if_neg (not_not_intro dir)] at ends
            by_cases final : rest = []
            · rw [if_pos ⟨rfl, final⟩] at ends
              cases ends
              exact dir
            · rw [if_neg (fun both => final both.2)] at ends
              cases found : v.lookup start first with
              | none =>
                  rw [found] at ends
                  cases ends
              | some l =>
                  rw [found] at ends
                  exact ih ends (by omega)
          · rw [if_pos dir] at ends
            cases ends

theorem Linked.parent_dir (linked : Linked held v) (sane : v.sb.Sane) (neat : v.Neat) {start : Nat} {path : Path}
    (ends : parentIn v start path = some (d, name)) (reach : v.Reach held d) : v.IsDir d := by
  have type := resolve_parent ends (Nat.lt_succ_self _)
  refine ⟨⟨linked.inside sane neat reach, ?_⟩, type⟩
  rw [type]
  decide

/-- Nothing is freed that is allocated and has a link or a use. -/
theorem Linked.dropped (linked : Linked held v) (same : SameFile v v₁ i) (live : v.Live i)
    (dropped : Dropped held i v₁ v') : v' = v₁ :=
  dropped.kept fun zero => linked.anchored i live ((SameFile.nlink same live) ▸ zero)

/-- `sys_link` that fails. -/
theorem LinksAt.undone {start start' : Nat} {old new : Path} (links : LinksAt held start start' old new v false v')
    (owned : v.Owned) (sane : v.sb.Sane) (neat : v.Neat) (linked : Linked held v) : SameTree v v' := by
  cases links with
  | noOld => exact .refl v
  | isDir => exact .refl v
  | @raised i _ _ found near live plain rest =>
      have back : ∀ {w : Volume}, (w.node i).nlink = (v.node i).nlink + 1 →
          relink w i ((w.node i).nlink - 1) = relink w i (v.node i).nlink := by
        intro w up
        rw [up, Int16.add_sub_cancel]
      cases rest with
      | noParent none_ dropped =>
          rw [back (by rw [relink_node]), relink_relink, relink_self] at dropped
          rw [dropped.kept (linked.anchored i live)]
          exact .refl v
      | @inside d name _ _ ends close links =>
          cases links with
          | @failed v₁ v₂ _ link dropped dropped' =>
              have type := resolve_parent ends (Nat.lt_succ_self _)
              have apart : d ≠ i := by
                rintro rfl
                rw [relink_node] at type
                exact plain type
              have raised : SameFile v (relink v i ((v.node i).nlink + 1)) d := Volume.setNode_same_file apart
              have dir : (relink v i ((v.node i).nlink + 1)).IsDir d :=
                ⟨⟨linked.inside sane neat close, by rw [type]; decide⟩, type⟩
              have tree := link.failed (relink_owned owned i _) dir
              have kept := linked.dropped (raised.trans (tree d)) (raised.live.mp dir.1) dropped
              subst kept
              have up : (v₂.node i).nlink = (v.node i).nlink + 1 := by
                rw [SameFile.nlink (tree i) ((relink_live v i _).mpr live), relink_node]
              rw [back up] at dropped'
              have own := SameFile.relinked (tree i) live plain
              have kept' := linked.dropped own live dropped'
              subst kept'
              intro j
              by_cases here : j = i
              · exact here ▸ own
              · exact ((Volume.setNode_same_file here).trans (tree j)).trans (Volume.setNode_same_file here)

/-- The entries of a new inode touch no other file, but for an entry that was made. -/
theorem Enters.same_file {type : Int16} (enters : Enters type name d i v r v') (owned : v.Owned)
    (dir : v.IsDir d) (apart : d ≠ i) (failed : r = false) (other : j ≠ i) : SameFile v v' j := by
  have dots : ∀ {r : Bool} {v₁ : Volume}, Dots d i v r v₁ → (∀ j, j ≠ i → SameFile v v₁ j) ∧ v₁.Owned := by
    intro r v₁ dots
    cases dots with
    | first link => exact ⟨fun j other => link.same_file owned other, link.owned owned⟩
    | second link link' =>
        have owned₁ := link.owned owned
        exact ⟨fun j other => (link.same_file owned other).trans (link'.same_file owned₁ other), link'.owned owned₁⟩
  subst failed
  cases enters with
  | file plain link => exact link.failed owned dir j
  | noDots isDir made => exact (dots made).1 j other
  | dir isDir made link =>
      obtain ⟨same, owned₁⟩ := dots made
      exact (same j other).trans (link.failed owned₁ (SameFile.isDir (same d apart) dir) j)

/-- `create` that returns no inode. -/
theorem Makes.undone {type major minor : Int16} (makes : Makes held type major minor name d v none v')
    (owned : v.Owned) (dir : v.IsDir d) (linked : Linked held v) : SameTree v v' := by
  cases makes with
  | refused => exact .refl v
  | noInodes => exact .refl v
  | @failed i _ missing dead inside creates =>
      cases creates with
      | @failed v₁ v₂ _ enters dropped dropped' =>
          have apart : d ≠ i := by
            rintro rfl
            exact dead dir.1
          have begun : ∀ j, j ≠ i → SameFile v (named (v.take i type) i major minor) j := fun j other =>
            (Volume.setNode_same_file other).trans (Volume.setNode_same_file other)
          have owned₀ : (named (v.take i type) i major minor).Owned :=
            Volume.refield_owned (Volume.take_owned owned dead) rfl Iff.rfl
          have entered : ∀ j, j ≠ i → SameFile v (relink v₁ i 0) j := fun j other =>
            ((begun j other).trans (enters.same_file owned₀ (SameFile.isDir (begun d apart) dir) apart rfl
              other)).trans (Volume.setNode_same_file other)
          rcases dropped with ⟨-, -, erased⟩ | ⟨held_, -⟩
          · have gone : ∀ j, j ≠ i → SameFile v v₂ j := fun j other =>
              (entered j other).trans (erased.same_file other)
            have kept := linked.dropped (gone d apart) dir.1 dropped'
            subst kept
            intro j
            by_cases here : j = i
            · subst here
              exact .free dead erased.not_live
            · exact gone j here
          · exact absurd (linked.allocated i (held_ (by rw [relink_node]))) dead

theorem MakesAt.undone {type major minor : Int16} {start : Nat} {path : Path}
    (makes : MakesAt held type major minor start path v none v') (owned : v.Owned) (sane : v.sb.Sane)
    (neat : v.Neat) (linked : Linked held v) : SameTree v v' := by
  cases makes with
  | noParent => exact .refl v
  | inside ends close makes => exact makes.undone owned (linked.parent_dir sane neat ends close) linked

end Calls

section Opening

variable {start : Nat} {path : Path} {major minor : Int16}

/-- `create` makes a new file: the path names nothing in a directory, and there are an inode and room
for the entry. -/
def NewFile (v : Volume) (start : Nat) (path : Path) : Prop :=
  ∃ d name, parentIn v start path = some (d, name) ∧ v.lookup d name = none ∧
    (∃ i, 1 ≤ i ∧ i < v.sb.ninodes ∧ ¬ v.Live i) ∧ RoomFor v d (DIRENT * v.vacant d / BSIZE)

/-- The volume in which `create` starts on a new inode has the same room for the others. -/
theorem begun_same (type : Int16) (apart : j ≠ i) :
    SameFile v (named (v.take i type) i major minor) j :=
  (Volume.setNode_same_file apart).trans (Volume.setNode_same_file apart)

theorem begun_room {type : Int16} {bn : Nat} (apart : d ≠ i) :
    RoomFor (named (v.take i type) i major minor) d bn ↔ RoomFor v d bn := by
  have node : (named (v.take i type) i major minor).node d = v.node d :=
    (Volume.setNode_other _ _ apart).trans (Volume.setNode_other _ _ apart)
  have ptr : ∀ p, (named (v.take i type) i major minor).ptr d p = v.ptr d p := fun p =>
    Volume.ptr_congr (by rw [node]) fun _ => rfl
  unfold RoomFor missing
  simp only [ptr]
  exact Iff.rfl

theorem begun_owned {type : Int16} (owned : v.Owned) (dead : ¬ v.Live i) :
    (named (v.take i type) i major minor).Owned :=
  Volume.refield_owned (Volume.take_owned owned dead) rfl Iff.rfl

theorem begun_neat {type : Int16} (neat : v.Neat) : (named (v.take i type) i major minor).Neat :=
  Volume.Refield.neat ⟨rfl, rfl, rfl⟩ (Volume.take_neat neat)

theorem begun_node (v : Volume) (i : Nat) (type : Int16) :
    (named (v.take i type) i major minor).node i = { Dinode.blank type with major, minor, nlink := 1 } := by
  simp [named, Volume.take, Volume.setNode]

/-- `create` of a file returned none, so it was not for a new file. -/
theorem MakesAt.not_new (makes : MakesAt held T_FILE major minor start path v none v') (sane : v.sb.Sane)
    (neat : v.Neat) (linked : Linked held v) : ¬ NewFile v start path := by
  rintro ⟨d, name, parent, missing, ⟨i, first, inside, dead⟩, room⟩
  cases makes with
  | noParent none_ =>
      unfold parentIn at parent
      rw [none_] at parent
      cases parent
  | inside ends close makes =>
      obtain ⟨rfl, rfl⟩ := Prod.mk.inj (Option.some.inj (parent.symm.trans ends))
      cases makes with
      | refused found =>
          rw [missing] at found
          cases found
      | noInodes _ taken => exact dead (taken i first inside)
      | @failed i _ _ dead inside creates =>
          have dir := linked.parent_dir sane neat ends close
          have apart : d ≠ i := by
            rintro rfl
            exact dead dir.1
          have same : SameFile v (named (v.take i T_FILE) i major minor) d := begun_same T_FILE apart
          cases creates with
          | failed enters =>
              cases enters with
              | file plain link =>
                  cases link with
                  | exists_ found => exact found ((same.lookup dir.1 name).trans missing)
                  | full _ stuck =>
                      rw [same.vacant dir.1, begun_room apart] at stuck
                      exact stuck room
              | noDots isDir => exact absurd isDir (by decide)
              | dir isDir => exact absurd isDir (by decide)

/-- `create` of a file returned an inode: it was there, or it is a new one. -/
theorem MakesAt.new_or_found (makes : MakesAt held T_FILE major minor start path v (some i) v')
    (owned : v.Owned) (sane : v.sb.Sane) (neat : v.Neat) (linked : Linked held v) :
    ¬ NewFile v start path ∧ v' = v ∨
      NewFile v start path ∧ ¬ v.Live i ∧ v'.Live i ∧ v'.node i = { Dinode.blank T_FILE with major, minor, nlink := 1 } := by
  cases makes with
  | @inside d name _ _ ends close makes =>
      have dir := linked.parent_dir sane neat ends close
      cases makes with
      | @found l hit =>
          refine .inl ⟨?_, rfl⟩
          rintro ⟨d', name', parent, missing, -⟩
          obtain ⟨rfl, rfl⟩ := Prod.mk.inj (Option.some.inj (ends.symm.trans parent))
          rw [hit] at missing
          cases missing
      | made missing dead first inside creates =>
          have apart : d ≠ i := by
            rintro rfl
            exact dead dir.1
          have same : SameFile v (named (v.take i T_FILE) i major minor) d := begun_same T_FILE apart
          have dir₀ := SameFile.isDir same dir
          cases creates with
          | @made v₁ _ enters dropped =>
              cases enters with
              | dir isDir => exact absurd isDir (by decide)
              | file plain link =>
                  cases link with
                  | linked _ patched =>
                      have owned₀ : (named (v.take i T_FILE) i major minor).Owned := begun_owned owned dead
                      rw [if_neg plain] at dropped
                      have kept := dropped.kept fun zero => linked.anchored d dir.1 (by
                        rw [patched.touch.nlink, SameFile.nlink same dir.1] at zero
                        exact zero)
                      subst kept
                      -- The entry stands in a block of the directory, so there was room for it.
                      have mapped := patched.whole ((begun_neat neat).whole d dir₀)
                        (DIRENT * (named (v.take i T_FILE) i major minor).vacant d / BSIZE) (by
                          rw [patched.size]
                          have below := Nat.div_mul_le_self
                            (DIRENT * (named (v.take i T_FILE) i major minor).vacant d) BSIZE
                          refine Nat.lt_of_lt_of_le ?_ (Nat.le_max_right ..)
                          rw [Nat.mul_succ]
                          have some : 0 < DIRENT := by decide
                          omega)
                      rw [same.vacant dir.1] at mapped
                      have room := RoomFor.of_mapped (patched.owned owned₀) patched.touch dir₀.1 mapped.1 mapped.2
                      refine .inr ⟨⟨d, name, ends, missing, ⟨i, first, inside, dead⟩, (begun_room apart).mp room⟩,
                        dead, ?_, ?_⟩
                      · refine (patched.touch.live i).mpr ⟨inside, ?_⟩
                        rw [begun_node]
                        exact (by decide : T_FILE ≠ 0)
                      · rw [patched.touch.other i (Ne.symm apart), begun_node]

end Opening

section Shown

variable {s s' : JState}

/-- The blocks show the files of the volume they represent. -/
theorem Good.shown_before (good : Good s v) : SameTree (shown s) v := fun j =>
  .of_live (Good.shown_live good j).symm (fun is => (Good.shows good ((Good.shown_live good j).mp is).1).symm)
    (fun is p => (Good.shown_ptr good ((Good.shown_live good j).mp is) p).symm)
    fun is o => (Good.shown_byte good ((Good.shown_live good j).mp is) o).symm

theorem Good.shown_behind (good : Good s v) : SameTree v (shown s) := fun j =>
  .of_live (Good.shown_live good j) (fun is => Good.shows good is.1) (fun is p => Good.shown_ptr good is p)
    fun is o => Good.shown_byte good is o

theorem SameTree.shown (same : SameTree v v') (good : Good s v) (good' : Good s' v') :
    Volume.Unchanged (shown s) (shown s') :=
  Volume.SameTree.unchanged fun j =>
    ((Good.shown_before good j).trans (same j)).trans (Good.shown_behind good' j)

end Shown

end Fs

end PaddleOs

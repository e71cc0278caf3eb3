import PaddleOs.FileContents

/-!
Path names by their components. `namex` cuts a path with `skipelem` and goes from directory
to directory; the same inode is found by following the components of the path, which are
its maximal runs of characters other than the slash. Slashes only separate: repeated ones
and those at the end change nothing.
-/

namespace PaddleOs

namespace Fs

section Components

/-- The runs of characters between slashes. -/
def runs (path : Path) : List Name := (path.splitOn slash).filter (· ≠ [])

/-- The components of a path. -/
def comps (path : Path) : List Name := (runs path).map (List.take DIRSIZ)

theorem runs_append (left right : Path) : runs (left ++ slash :: right) = runs left ++ runs right := by
  unfold runs
  rw [List.splitOn_append_cons_self, List.filter_append]

theorem runs_word {word : Name} (some_ : word ≠ []) (plain : slash ∉ word) : runs word = [word] := by
  unfold runs
  rw [List.splitOn_eq_singleton plain, List.filter_cons_of_pos (by simpa using some_), List.filter_nil]

theorem runs_slash (path : Path) : runs (slash :: path) = runs path := runs_append [] path

theorem runs_trimmed (path : Path) : runs (path.dropWhile (· = slash)) = runs path := by
  induction path with
  | nil => rfl
  | cons c rest ih =>
      by_cases is : c = slash
      · rw [List.dropWhile_cons_of_pos (by simpa using is), ih, is, runs_slash]
      · rw [List.dropWhile_cons_of_neg (by simpa using is)]

/-- A path that does not begin with a slash begins with a component. -/
theorem runs_first {path : Path} (some_ : path ≠ []) (plain : path.head? ≠ some slash) :
    runs path = path.takeWhile (· ≠ slash) :: runs ((path.dropWhile (· ≠ slash)).dropWhile (· = slash)) := by
  have word : path.takeWhile (· ≠ slash) ≠ [] := by
    cases path with
    | nil => exact absurd rfl some_
    | cons c rest =>
        rw [List.takeWhile_cons_of_pos (by simpa using plain)]
        exact List.cons_ne_nil _ _
  have clean : slash ∉ path.takeWhile (· ≠ slash) := by
    intro inside
    simpa using List.mem_takeWhile_imp inside
  have parts : path.takeWhile (· ≠ slash) ++ path.dropWhile (· ≠ slash) = path :=
    List.takeWhile_append_dropWhile
  have split : runs path = path.takeWhile (· ≠ slash) :: runs (path.dropWhile (· ≠ slash)) := by
    cases tail : path.dropWhile (· ≠ slash) with
    | nil =>
        rw [tail, List.append_nil] at parts
        have single := runs_word word clean
        rw [parts] at single ⊢
        exact single
    | cons c rest =>
        have stop : c = slash := by
          have stops := List.head_dropWhile_not (· ≠ slash) (by rw [tail]; exact List.cons_ne_nil c rest)
          simp only [tail, List.head_cons, decide_eq_false_iff_not, not_not] at stops
          exact stops
        rw [tail, stop] at parts
        rw [stop, runs_slash, ← List.singleton_append, ← runs_word word clean, ← runs_append, parts]
  rw [runs_trimmed, split]

theorem head_trimmed (path : Path) : (path.dropWhile (· = slash)).head? ≠ some slash := by
  intro starts
  cases trimmed : path.dropWhile (· = slash) with
  | nil =>
      rw [trimmed] at starts
      cases starts
  | cons c rest =>
      have plain := List.head_dropWhile_not (· = slash) (by rw [trimmed]; exact List.cons_ne_nil c rest)
      rw [trimmed] at starts
      simp only [trimmed, List.head_cons, decide_eq_false_iff_not] at plain
      exact plain (Option.some.inj starts)

theorem comps_trimmed {path : Path} : comps (path.dropWhile (· = slash)) = [] ↔ path.dropWhile (· = slash) = [] := by
  constructor
  · intro none_
    by_contra some_
    unfold comps at none_
    rw [List.map_eq_nil_iff, runs_first some_ (head_trimmed path)] at none_
    cases none_
  · intro empty
    rw [empty]
    rfl

/-- `skipelem` takes the first component off. -/
theorem skipelem_none {path : Path} (stops : skipelem path = none) : comps path = [] := by
  unfold skipelem at stops
  dsimp only at stops
  split at stops
  · rename_i empty
    unfold comps
    rw [← runs_trimmed, empty]
    rfl
  · cases stops

theorem skipelem_some {path rest : Path} {name : Name} (split : skipelem path = some (name, rest)) :
    comps path = name :: comps rest ∧ (rest = [] ↔ comps rest = []) := by
  unfold skipelem at split
  dsimp only at split
  split at split
  · cases split
  · rename_i some_
    obtain ⟨rfl, rfl⟩ := Prod.mk.inj (Option.some.inj split)
    refine ⟨?_, comps_trimmed.symm⟩
    unfold comps
    rw [← runs_trimmed path, runs_first some_ (head_trimmed path), List.map_cons]

/-- A repeated slash separates as one does. -/
theorem comps_repeated (left right : Path) :
    comps (left ++ slash :: slash :: right) = comps (left ++ slash :: right) := by
  unfold comps
  rw [runs_append, runs_append, runs_slash]

theorem comps_trailing (path : Path) (n : Nat) : comps (path ++ List.replicate n slash) = comps path := by
  unfold comps
  induction n generalizing path with
  | zero => rw [List.replicate_zero, List.append_nil]
  | succ n ih =>
      have moved : path ++ List.replicate (n + 1) slash = path ++ slash :: [] ++ List.replicate n slash := by
        rw [List.append_assoc]
        rfl
      rw [moved, ih, runs_append]
      exact congrArg _ (List.append_nil _)

end Components

end Fs

namespace Volume

open Fs (Path comps)

/-- The inode that the components lead to, from inode `i` on. -/
def follow (v : Volume) : Nat → List Name → Option Nat
  | i, [] => some i
  | i, name :: rest =>
      if (v.node i).type ≠ T_DIR then none
      else match v.lookup i name with
        | none => none
        | some j => v.follow (v.entry i j).inum rest

/-- The directory that all components but the last lead to, with the last. -/
def followParent (v : Volume) (i : Nat) (names : List Name) : Option (Nat × Name) :=
  match names.getLast? with
  | none => none
  | some last => (v.follow i names.dropLast).bind fun d =>
      if (v.node d).type = T_DIR then some (d, last) else none

/-- What is below the root and the inodes held by references is a tree of directories: every
entry names an allocated inode, directories consist of whole entries, and what is not held
has a link. -/
structure Tree (held : Nat → Prop) (v : Volume) : Prop where
  live : ∀ i, v.Reach held i → v.Live i
  even : ∀ d, v.Reach held d → v.IsDir d → DIRENT ∣ (v.node d).size
  linked : ∀ i, v.Reach held i → (v.node i).nlink ≠ 0 ∨ held i

variable (v : Volume)

/-- `namex` follows the components. -/
theorem resolve_namei {fuel : Nat} (i : Nat) (path : Path) (last : Name) (enough : path.length < fuel) :
    (v.resolve false fuel i path last).map Prod.fst = v.follow i (comps path) := by
  induction fuel generalizing i path last with
  | zero => omega
  | succ fuel ih =>
      rw [resolve]
      cases split : Fs.skipelem path with
      | none =>
          rw [Fs.skipelem_none split]
          rfl
      | some piece =>
          obtain ⟨name, rest⟩ := piece
          have shorter := Fs.skipelem_shorter split
          rw [(Fs.skipelem_some split).1, follow]
          dsimp only
          by_cases dir : (v.node i).type ≠ T_DIR
          · rw [if_pos dir, if_pos dir]
            rfl
          · rw [if_neg dir, if_neg dir, if_neg (by simp)]
            cases v.lookup i name with
            | none => rfl
            | some j => exact ih (v.entry i j).inum rest name (by omega)

theorem resolve_nameiparent {fuel : Nat} (i : Nat) (path : Path) (last : Name) (enough : path.length < fuel) :
    v.resolve true fuel i path last = v.followParent i (comps path) := by
  induction fuel generalizing i path last with
  | zero => omega
  | succ fuel ih =>
      rw [resolve]
      cases split : Fs.skipelem path with
      | none =>
          rw [Fs.skipelem_none split]
          rfl
      | some piece =>
          obtain ⟨name, rest⟩ := piece
          have shorter := Fs.skipelem_shorter split
          obtain ⟨first, done⟩ := Fs.skipelem_some split
          rw [first]
          dsimp only
          cases more : comps rest with
          | nil =>
              have empty := done.mpr more
              unfold followParent
              rw [List.getLast?_singleton, List.dropLast_singleton]
              dsimp only
              rw [follow, Option.bind_some]
              by_cases dir : (v.node i).type ≠ T_DIR
              · rw [if_pos dir, if_neg dir]
              · rw [if_neg dir, if_pos ⟨rfl, empty⟩, if_pos (by simpa using dir)]
          | cons second others =>
              have further : rest ≠ [] := fun empty => by
                rw [done.mp empty] at more
                cases more
              unfold followParent
              rw [List.getLast?_cons_cons, List.dropLast_cons_cons, follow]
              by_cases dir : (v.node i).type ≠ T_DIR
              · rw [if_pos dir, if_pos dir]
                cases (second :: others).getLast? with
                | none => rfl
                | some last => rfl
              · rw [if_neg dir, if_neg dir, if_neg (fun both => further both.2)]
                cases found : v.lookup i name with
                | none =>
                    cases (second :: others).getLast? with
                    | none => rfl
                    | some last => rfl
                | some j =>
                    have tail := ih (v.entry i j).inum rest name (by omega)
                    rw [more] at tail
                    exact tail

end Volume

namespace Fs

open Foundation.Outcome
open Foundation.Runs

variable {s s' : JState} {v : Volume} {k : Slot} {i : Nat}
variable {base : Slot → Inode} {handles : List Slot}

section Returning

/-- `iget` found every slot of the inode table taken. -/
def NoSlot (s : JState) (stop : Stop) (_ : JState) : Prop :=
  stop = .igetNoInodes ∧ ∀ k, (s.inode k).ref ≠ 0

theorem iget_returns (dev inum : Nat) (s : JState) :
    outcome (iget dev inum) (fun _ _ => True) (NoSlot s) s := by
  unfold iget
  rw [outcome_bind, outcome_get]
  split
  · exact trivial
  · split
    · rename_i none_
      refine ⟨rfl, fun k free => ?_⟩
      have listed := List.find?_eq_none.mp none_ k (List.mem_finRange k)
      exact listed (decide_eq_true free)
    · exact trivial

theorem ilock_stops (k : Slot) (s : JState) :
    outcome (ilock k) (fun _ _ => True) (fun stop _ => (stop = .ilock ∧ (s.inode k).ref < 1) ∨
      (stop = .asleep ∧ (s.inode k).locked = true) ∨ stop = .ilockNoType) s := by
  unfold ilock
  rw [outcome_bind]
  refine inode_step ?_
  rw [outcome_ite]
  refine ⟨fun few => .inl ⟨rfl, few⟩, fun _ => ?_⟩
  unfold acquiresleep
  simp only [outcome_bind]
  refine inode_step ?_
  rw [outcome_ite]
  refine ⟨fun held => .inr (.inl ⟨rfl, held⟩), fun _ => ?_⟩
  refine modifyInode_step (inode_step ?_)
  rw [outcome_ite]
  refine ⟨fun _ => ?_, fun _ => trivial⟩
  simp only [outcome_bind, outcome_get]
  refine bread_step (data_step (modifyInode_step (brelse_step (modifyInode_step ?_))))
  rw [outcome_ite]
  exact ⟨fun _ => .inr (.inr rfl), fun _ => trivial⟩

/-- An allocated inode whose lock is free is locked. -/
theorem ilock_returns (rep : Represents clean s v) (here : At s k i) (free : (s.inode k).locked = false)
    (live : v.Live i) :
    outcome (ilock k) (fun _ s' => Represents clean s' v ∧ Locked s s' k i) (fun _ _ => False) s := by
  refine outcome_mono (outcome_and (ilock_spec rep here) (ilock_stops k s)) (fun _ _ both => both.1) ?_
  rintro stop s' ⟨⟨-, -, type⟩, ⟨-, few⟩ | ⟨-, held⟩ | is⟩
  · have used := here.1
    omega
  · rw [free] at held
    cases held
  · exact live.2 (type is)

/-- A slot that is not the last of an erased inode just loses a reference. -/
theorem iput_returns (rep : Represents clean s v) (here : At s k i) (kept : ¬ Last s v k i) :
    outcome (iput k) (fun _ s' => s' = s.setInode k { s.inode k with ref := (s.inode k).ref - 1 })
      (fun _ _ => False) s := by
  have more : ¬ ((s.inode k).ref = 1 ∧ (s.inode k).valid = true ∧ (s.inode k).nlink = 0) := by
    rintro ⟨one, valid, linkless⟩
    rw [rep.copy k i ⟨here.1, valid, here.2⟩] at linkless
    exact kept ⟨one, valid, linkless⟩
  unfold iput
  rw [outcome_bind]
  refine inode_step ?_
  rw [if_neg more]
  exact modifyInode_step rfl

theorem iunlock_returns (here : At s k i) (held : (s.inode k).locked = true) :
    outcome (iunlock k) (fun _ s' => s' = s.setInode k { s.inode k with locked := false })
      (fun _ _ => False) s := by
  have used := here.1
  unfold iunlock releasesleep
  rw [outcome_bind]
  refine inode_step ?_
  rw [held, if_neg (by simp; omega)]
  exact modifyInode_step rfl

/-- The reference to an inode that has a link or is held is given back. -/
theorem giveBack_returns (good : Good s v) (atop : Over base (k :: handles) s) (here : At s k i)
    (linked : (v.node i).nlink ≠ 0 ∨ Held base i) :
    outcome (iput k) (fun _ s' => Good s' v ∧ s'.store = s.store ∧ Over base handles s' ∧
      s' = s.setInode k { s.inode k with ref := (s.inode k).ref - 1 }) (fun _ _ => False) s := by
  have kept : ¬ Last s v k i := by
    intro last
    rcases linked with link | other
    · exact link last.2.2
    · exact last.unheld good atop here other
  have given := outcome_and (iput_spec good.rep good.owned here) (iput_returns good.rep here kept)
  refine outcome_mono given ?_ fun _ _ both => both.2
  rintro _ s' ⟨⟨gave, ⟨-, rep, store⟩ | ⟨last, -⟩⟩, is⟩
  · exact ⟨⟨rep, good.owned, good.neat⟩, store, gave.atop atop, is⟩
  · exact absurd last kept

theorem iunlock_keeps (good : Good s v) (atop : Over base handles s) (here : At s k i)
    (held : (s.inode k).locked = true) :
    outcome (iunlock k) (fun _ s' => Good s' v ∧ Over base handles s' ∧ At s' k i ∧
      s' = s.setInode k { s.inode k with locked := false }) (fun _ _ => False) s := by
  have unlocked := outcome_and (iunlock_spec good.rep here.1) (iunlock_returns here held)
  refine outcome_mono unlocked ?_ fun _ _ both => both.2
  rintro _ _ ⟨⟨rep, -⟩, rfl⟩
  refine ⟨⟨rep, good.owned, good.neat⟩, atop.update (k := k) rfl rfl rfl rfl, ?_, rfl⟩
  unfold At
  rw [setInode_same]
  exact here

theorem iunlockput_returns (good : Good s v) (atop : Over base (k :: handles) s) (here : At s k i)
    (held : (s.inode k).locked = true) (linked : (v.node i).nlink ≠ 0 ∨ Held base i) :
    outcome (iunlockput k) (fun _ s' => Good s' v ∧ s'.store = s.store ∧ Over base handles s' ∧
      (∀ j, j ≠ k → s'.inode j = s.inode j) ∧
      s'.inode k = { s.inode k with locked := false, ref := (s.inode k).ref - 1 }) (fun _ _ => False) s := by
  unfold iunlockput
  refine outcome_seq (iunlock_keeps good atop here held) ?_
  rintro _ _ ⟨good₁, atop₁, here₁, rfl⟩
  refine outcome_post (giveBack_returns good₁ atop₁ here₁ linked) ?_
  rintro _ _ ⟨good₂, store, atop₂, rfl⟩
  refine ⟨good₂, store, atop₂, fun j apart => ?_, ?_⟩
  · rw [setInode_other _ apart, setInode_other _ apart]
  · rw [setInode_same, setInode_same]

end Returning

section Searching

variable {dp : Slot} {d : Nat} {name : Name}

theorem readDirent_returns (rep : Represents clean s v) (owned : v.Owned) (loaded : Loaded s dp d)
    (whole : v.Whole d) {j : Nat} (inside : j < v.slots d) (panic : Stop) :
    outcome (readDirent dp (DIRENT * j) panic) (fun de s' => de = v.entry d j ∧ s' = s)
      (fun _ _ => False) s := by
  have limit := Whole.limit whole
  have bound : MAXFILE * BSIZE + DIRENT < 2 ^ 31 := by decide
  have width : min DIRENT ((v.node d).size - DIRENT * j) = DIRENT := by
    unfold Volume.slots at inside
    unfold DIRENT at inside ⊢
    omega
  have fits : DIRENT * j + DIRENT < 2 ^ 32 := by
    unfold Volume.slots at inside
    unfold DIRENT at inside bound ⊢
    omega
  have ran := readi_whole rep owned loaded whole fits
  rw [← Volume.bytes_slice, width] at ran
  unfold readDirent
  rw [outcome_bind]
  unfold outcome
  rw [ran]
  exact ⟨rfl, rfl⟩

/-- The search of a directory of whole entries ends, or no slot is left for what it found. -/
theorem dirlookupFrom_returns (rep : Represents clean s v) (owned : v.Owned) (loaded : Loaded s dp d)
    (whole : v.Whole d) (even : DIRENT ∣ (v.node d).size) (fuel j : Nat) :
    outcome (dirlookupFrom dp name fuel (DIRENT * j)) (fun _ _ => True) (NoSlot s) s := by
  induction fuel generalizing j with
  | zero => exact trivial
  | succ fuel ih =>
      rw [dirlookupFrom, outcome_bind]
      refine inode_step ?_
      rw [rep.copy dp d loaded, outcome_ite]
      refine ⟨fun inside => ?_, fun _ => trivial⟩
      have below : j < v.slots d := by
        obtain ⟨n, size⟩ := even
        unfold Volume.slots
        rw [size, Nat.mul_div_cancel_left _ (by decide)]
        rw [size] at inside
        exact Nat.lt_of_mul_lt_mul_left inside
      rw [outcome_bind]
      refine outcome_mono (readDirent_returns rep owned loaded whole below _) ?_ fun _ _ => False.elim
      rintro _ _ ⟨rfl, rfl⟩
      rw [outcome_ite]
      refine ⟨fun _ => ?_, fun _ => ih (j + 1)⟩
      simp only [outcome_bind]
      refine inode_step ?_
      exact iget_returns _ _ _

theorem dirlookup_returns (good : Good s v) (loaded : Loaded s dp d) (dir : v.IsDir d)
    (even : DIRENT ∣ (v.node d).size) :
    outcome (dirlookup dp name) (fun r s' => Found s s' v d name r) (NoSlot s) s := by
  have stops : outcome (dirlookup dp name) (fun _ _ => True) (NoSlot s) s := by
    unfold dirlookup
    rw [outcome_bind]
    refine inode_step ?_
    rw [good.rep.copy dp d loaded, if_neg (not_not.mpr dir.2)]
    exact dirlookupFrom_returns good.rep good.owned loaded (good.neat.whole d dir) even _ 0
  refine outcome_mono (outcome_and (dirlookup_spec good.rep good.owned good.neat loaded) stops) ?_ ?_
  · exact fun _ _ both => both.1.2
  · exact fun _ _ both => both.2

end Searching

section Buffers

variable {W : Type} [BlockLayer W]

/-- The `memmove` of `skipelem` into the buffer `name`, which ends a short element with a
zero and leaves what is behind it. -/
def storeElem (elem name : List UInt8) : List UInt8 :=
  if DIRSIZ ≤ elem.length then elem.take DIRSIZ ++ name.drop DIRSIZ
  else elem ++ 0 :: name.drop (elem.length + 1)

/-- `skipelem` with the buffer it fills. -/
def skipelemInto (path : Path) (name : List UInt8) : Option (List UInt8 × Path) :=
  let path := path.dropWhile (· = slash)
  if path = [] then none
  else some (storeElem (path.takeWhile (· ≠ slash)) name, (path.dropWhile (· ≠ slash)).dropWhile (· = slash))

/-- The loop of `namex` with its buffer. -/
def namexIntoFrom (parent : Bool) : Nat → Slot → Path → List UInt8 → FsM W (Option (Slot × List UInt8))
  | 0, ip, _, name => return some (ip, name)
  | fuel + 1, ip, path, name => do
      match skipelemInto path name with
      | none =>
          if parent then
            iput ip
            return none
          else return some (ip, name)
      | some (name, rest) =>
          ilock ip
          if (← inode ip).type ≠ T_DIR then
            iunlockput ip
            return none
          if parent ∧ rest = [] then
            iunlock ip
            return some (ip, name)
          match ← dirlookup ip name with
          | none =>
              iunlockput ip
              return none
          | some (next, _) =>
              iunlockput ip
              namexIntoFrom parent fuel next rest name

def namexInto (cwd : Slot) (path : Path) (parent : Bool) (name : List UInt8) :
    FsM W (Option (Slot × List UInt8)) := do
  let ip ← if path.head? = some slash then iget ROOTDEV ROOTINO else idup cwd
  namexIntoFrom parent (path.length + 1) ip path name

/-- `namei`, whose buffer holds what was on the stack. -/
def nameiInto (cwd : Slot) (path : Path) (name : List UInt8) : FsM W (Option Slot) := do
  return (← namexInto cwd path false name).map Prod.fst

def nameiparentInto (cwd : Slot) (path : Path) (name : List UInt8) : FsM W (Option (Slot × List UInt8)) :=
  namexInto cwd path true name

/-- Nothing of an earlier element is left in what `strncmp` reads of the buffer. -/
theorem cutName_storeElem {elem : List UInt8} (plain : 0 ∉ elem) (name : List UInt8) :
    cutName (storeElem elem name) = elem.take DIRSIZ := by
  have clean : ∀ c ∈ elem, decide (c ≠ 0) = true := fun c inside =>
    decide_eq_true fun is => plain (is ▸ inside)
  unfold cutName storeElem
  split
  · rename_i long
    have length : (elem.take DIRSIZ).length = DIRSIZ := by
      rw [List.length_take]
      omega
    rw [List.take_append_of_le_length (by omega), List.take_of_length_le (by omega)]
    exact List.takeWhile_eq_self_iff.mpr fun c inside => clean c (List.mem_of_mem_take inside)
  · rename_i short
    have room : DIRSIZ - elem.length = DIRSIZ - elem.length - 1 + 1 := by omega
    rw [List.take_append, room, List.take_succ_cons, List.take_of_length_le (by omega),
      List.takeWhile_append_of_pos clean, List.takeWhile_cons_of_neg (by simp), List.append_nil]

theorem skipelemInto_eq {path : Path} (plain : 0 ∉ path) (name : List UInt8) :
    (skipelemInto path name).map (fun piece => (cutName piece.1, piece.2)) = skipelem path := by
  have inside : ∀ c ∈ (path.dropWhile (· = slash)).takeWhile (· ≠ slash), c ∈ path := fun c member =>
    (List.dropWhile_suffix _).subset ((List.takeWhile_prefix _).subset member)
  unfold skipelemInto skipelem
  dsimp only
  split
  · rfl
  · rw [Option.map_some, cutName_storeElem fun zero => plain (inside 0 zero)]

theorem skipelemInto_subset {path rest : Path} {name elem : List UInt8}
    (split : skipelemInto path name = some (elem, rest)) : ∀ c ∈ rest, c ∈ path := by
  unfold skipelemInto at split
  dsimp only at split
  split at split
  · cases split
  · obtain ⟨-, rfl⟩ := Prod.mk.inj (Option.some.inj split)
    intro c inside
    exact (List.dropWhile_suffix _).subset ((List.dropWhile_suffix _).subset
      ((List.dropWhile_suffix _).subset inside))

theorem cutName_cut (name : List UInt8) : cutName (cutName name) = cutName name := by
  unfold cutName
  have short : ((name.take DIRSIZ).takeWhile (· ≠ 0)).length ≤ DIRSIZ :=
    (List.takeWhile_prefix _).length_le.trans (List.length_take_le ..)
  rw [List.take_of_length_le short]
  refine List.takeWhile_eq_self_iff.mpr fun c inside => ?_
  have kept := List.mem_takeWhile_imp inside
  exact kept

theorem dirlookup_cut (dp : Slot) (name : List UInt8) :
    dirlookup (W := W) dp (cutName name) = dirlookup dp name := by
  have same : ∀ t, namecmp (cutName name) t = namecmp name t := by
    intro t
    unfold namecmp
    rw [cutName_cut]
  have scan : ∀ fuel off, dirlookupFrom (W := W) dp (cutName name) fuel off = dirlookupFrom dp name fuel off := by
    intro fuel
    induction fuel with
    | zero => exact fun _ => rfl
    | succ fuel ih =>
        intro off
        simp only [dirlookupFrom, same, ih]
  unfold dirlookup
  simp only [scan]

/-- The buffer does what a name of its own for each element does. -/
theorem namexIntoFrom_eq (parent : Bool) (fuel : Nat) (ip : Slot) (path : Path) (name : List UInt8)
    (plain : 0 ∉ path) :
    (Option.map fun found => (found.1, cutName found.2)) <$> namexIntoFrom (W := W) parent fuel ip path name =
      namexFrom parent fuel ip path (cutName name) := by
  induction fuel generalizing ip path name with
  | zero => rfl
  | succ fuel ih =>
      rw [namexIntoFrom, namexFrom, ← skipelemInto_eq plain name]
      cases split : skipelemInto path name with
      | none =>
          dsimp only [Option.map_none]
          cases parent with
          | false => rfl
          | true =>
              simp only [if_pos, map_bind]
              rfl
      | some piece =>
          obtain ⟨elem, rest⟩ := piece
          have later : 0 ∉ rest := fun zero => plain (skipelemInto_subset split 0 zero)
          simp only [Option.map_some, map_bind, dirlookup_cut]
          refine bind_congr fun _ => bind_congr fun dp => ?_
          split
          · simp only [map_bind]
            rfl
          split
          · simp only [map_bind]
            rfl
          rw [map_bind]
          refine bind_congr fun answer => ?_
          cases answer with
          | none =>
              simp only [map_bind]
              rfl
          | some found =>
              simp only [map_bind]
              exact bind_congr fun _ => ih found.1 rest elem later

end Buffers

section Resolving

/-- Nobody holds the lock of an inode. -/
def Idle (s : JState) : Prop := ∀ k, (s.inode k).locked = false

/-- `iget` panics, which it does only when at most one slot was free before the call. -/
def Exhausted (base : Slot → Inode) (stop : Stop) (_ : JState) : Prop :=
  stop = .igetNoInodes ∧ ∃ k, ∀ j, j ≠ k → 0 < (base j).ref

theorem NoSlot.exhausted {stop : Stop} (none_ : NoSlot s stop s') (atop : Over base [k] s) :
    Exhausted base stop s' := by
  refine ⟨none_.1, k, fun j apart => ?_⟩
  have count := atop.ref j
  have counts := atop.counts j
  have used := none_.2 j
  rw [List.count_singleton, if_neg (by simpa using Ne.symm apart)] at count
  omega

/-- The disk and the references are as before the walk, but for those in `handles`. -/
structure Untouched (base : Slot → Inode) (v : Volume) (handles : List Slot) (s s' : JState) : Prop where
  good : Good s' v
  store : s'.store = s.store
  atop : Over base handles s'
  idle : Idle s'

/-- The answer of a walk: a reference to the inode it was to come to. -/
def Answers (base : Slot → Inode) (v : Volume) (s : JState) (goal : Option (Nat × Name))
    (answer : Option (Slot × Name)) (s' : JState) : Prop :=
  match goal, answer with
  | none, none => Untouched base v [] s s'
  | some (i, last), some (k, name) => name = last ∧ At s' k i ∧ Untouched base v [k] s s'
  | _, _ => False

theorem Idle.unlocked (idle : Idle s) (others : ∀ j, j ≠ k → s'.inode j = s.inode j)
    (here : (s'.inode k).locked = false) : Idle s' := by
  intro j
  by_cases same : j = k
  · rw [same]
    exact here
  · rw [others j same]
    exact idle j

/-- A locked directory is left. -/
theorem leave_returns {s₀ : JState} (good : Good s v) (atop : Over base (k :: handles) s)
    (here : At s k i) (store : s.store = s₀.store) (held : (s.inode k).locked = true)
    (free : ∀ j, j ≠ k → (s.inode j).locked = false) (linked : (v.node i).nlink ≠ 0 ∨ Held base i) :
    outcome (iunlockput k) (fun _ s' => Untouched base v handles s₀ s' ∧
      (∀ j, j ≠ k → s'.inode j = s.inode j) ∧
      s'.inode k = { s.inode k with locked := false, ref := (s.inode k).ref - 1 }) (Exhausted base) s := by
  refine outcome_mono (iunlockput_returns good atop here held linked) ?_ fun _ _ => False.elim
  rintro _ s' ⟨good', store', atop', others, slot⟩
  refine ⟨⟨good', store'.trans store, atop', fun j => ?_⟩, others, slot⟩
  by_cases same : j = k
  · rw [same, slot]
  · rw [others j same]
    exact free j same

theorem namexFrom_returns (parent : Bool) (fuel : Nat) (path : Path) (last : Name)
    (tree : v.Tree (Held base)) {s₀ : JState} (start : Untouched base v [k] s₀ s) (here : At s k i)
    (reach : v.Reach (Held base) i) (enough : path.length < fuel) :
    outcome (namexFrom parent fuel k path last) (Answers base v s₀ (v.resolve parent fuel i path last))
      (Exhausted base) s := by
  induction fuel generalizing s k i path last with
  | zero => omega
  | succ fuel ih =>
      have linked := tree.linked i reach
      rw [namexFrom, Volume.resolve]
      cases split : skipelem path with
      | none =>
          dsimp only
          cases parent with
          | false =>
              rw [if_neg (by decide), if_neg (by decide), outcome_pure]
              exact ⟨rfl, here, start⟩
          | true =>
              rw [if_pos rfl, if_pos rfl, outcome_bind]
              refine outcome_mono (giveBack_returns start.good start.atop here linked) ?_ fun _ _ => False.elim
              rintro _ _ ⟨good₁, store₁, atop₁, rfl⟩
              rw [outcome_pure]
              refine ⟨good₁, store₁.trans start.store, atop₁, start.idle.unlocked (k := k) ?_ ?_⟩
              · exact fun j apart => setInode_other _ apart
              · rw [setInode_same]
                exact start.idle k
      | some piece =>
          obtain ⟨name, rest⟩ := piece
          dsimp only
          have shorter : rest.length < fuel := by
            have less := skipelem_shorter split
            omega
          rw [outcome_bind]
          refine outcome_mono (ilock_returns start.good.rep here (start.idle k) (tree.live i reach)) ?_
            fun _ _ => False.elim
          rintro _ s₁ ⟨rep₁, locked⟩
          have good₁ : Good s₁ v := ⟨rep₁, start.good.owned, start.good.neat⟩
          have atop₁ : Over base [k] s₁ := start.atop.trans (locked.atop start.good.rep here)
          have loaded := locked.loaded
          have here₁ := loaded.at_
          have store₁ : s₁.store = s₀.store := locked.store.trans start.store
          rw [outcome_bind]
          refine inode_step ?_
          rw [rep₁.copy k i loaded, outcome_ite]
          have free₁ : ∀ j, j ≠ k → (s₁.inode j).locked = false := by
            intro j apart
            rw [locked.other j apart]
            exact start.idle j
          constructor
          · intro other
            rw [if_pos other]
            refine outcome_seq (leave_returns good₁ atop₁ here₁ store₁ locked.locked free₁ linked) ?_
            rintro _ s₂ ⟨after, -, -⟩
            rw [outcome_pure]
            exact after
          intro type
          rw [if_neg type]
          have dir : v.IsDir i := ⟨tree.live i reach, by simpa using type⟩
          rw [outcome_ite]
          constructor
          · intro stop
            rw [if_pos stop, outcome_bind]
            refine outcome_mono (iunlock_keeps good₁ atop₁ here₁ locked.locked) ?_ fun _ _ => False.elim
            rintro _ _ ⟨good₂, atop₂, here₂, rfl⟩
            rw [outcome_pure]
            refine ⟨rfl, here₂, good₂, store₁, atop₂, fun j => ?_⟩
            by_cases same : j = k
            · rw [same, setInode_same]
            · rw [setInode_other _ same]
              exact free₁ j same
          intro further
          rw [if_neg further, outcome_bind]
          refine outcome_mono (dirlookup_returns good₁ loaded dir (tree.even i reach dir)) ?_
            fun _ _ none_ => none_.exhausted atop₁
          rintro answer s₂ found
          unfold Found at found
          split at found
          · rename_i missing
            subst found
            dsimp only
            rw [missing]
            refine outcome_seq (leave_returns good₁ atop₁ here₁ store₁ locked.locked free₁ linked) ?_
            rintro _ s₃ ⟨after, -, -⟩
            rw [outcome_pure]
            exact after
          · rename_i j next off hit
            obtain ⟨-, rep₂, took⟩ := found
            obtain ⟨below, ⟨named, -⟩, -⟩ := Volume.lookup_some.mp hit
            dsimp only
            rw [hit]
            have good₂ : Good s₂ v := ⟨rep₂, good₁.owned, good₁.neat⟩
            have atop₂ : Over base [k, next] s₂ := by
              refine (atop₁.trans (took.atop rep₁)).congr fun l => ?_
              exact (List.Perm.swap k next []).count_eq l |>.symm
            have here₂ : At s₂ k i := (took.loaded loaded).at_
            have locks : ∀ l, (s₂.inode l).locked = (s₁.inode l).locked := by
              intro l
              by_cases same : l = next
              · rw [same, took.lock]
              · rw [took.other l same]
            have free₂ : ∀ l, l ≠ k → (s₂.inode l).locked = false := by
              intro l apart
              rw [locks]
              exact free₁ l apart
            refine outcome_seq (leave_returns good₂ atop₂ here₂ (took.store.trans store₁)
              ((locks k).trans locked.locked) free₂ linked) ?_
            rintro _ s₃ ⟨after, others, slot⟩
            have here₃ : At s₃ next (v.entry i j).inum := took.survives here₁ after.atop others fun _ => slot
            exact ih rest name after here₃ (.entry reach dir below named) shorter
          · exact found.elim

/-- The answer of a walk with its buffer, as `strncmp` reads it. -/
def AnswersInto (base : Slot → Inode) (v : Volume) (s : JState) (goal : Option (Nat × Name))
    (answer : Option (Slot × List UInt8)) (s' : JState) : Prop :=
  Answers base v s goal (answer.map fun found => (found.1, cutName found.2)) s'

theorem namexInto_returns (parent : Bool) (cwd : Slot) (path : Path) (name : List UInt8) (plain : 0 ∉ path)
    (good : Good s v) (idle : Idle s) (tree : v.Tree (Held s.inode)) (home : 0 < (s.inode cwd).ref) :
    outcome (namexInto cwd path parent name) (AnswersInto s.inode v s
      (v.resolve parent (path.length + 1) (startOf s.inode cwd path) path (cutName name)))
      (Exhausted s.inode) s := by
  have walk : ∀ (k : Slot) (s₁ : JState), Represents clean s₁ v →
      Took s s₁ k (startOf s.inode cwd path) → v.Reach (Held s.inode) (startOf s.inode cwd path) →
      outcome (namexIntoFrom parent (path.length + 1) k path name) (AnswersInto s.inode v s
        (v.resolve parent (path.length + 1) (startOf s.inode cwd path) path (cutName name)))
        (Exhausted s.inode) s₁ := by
    intro k s₁ rep₁ took reach
    have start : Untouched s.inode v [k] s s₁ := by
      refine ⟨⟨rep₁, good.owned, good.neat⟩, took.store, took.atop good.rep, ?_⟩
      exact idle.unlocked took.other (took.lock.trans (idle k))
    have ends := namexFrom_returns parent _ path (cutName name) tree start (took.at_ good.rep) reach
      (Nat.lt_succ_self _)
    rw [← namexIntoFrom_eq parent _ k path name plain] at ends
    have done := (outcome_map _ _ _ _ s₁).mp ends
    exact done
  unfold namexInto
  dsimp only
  rw [outcome_ite]
  constructor
  · intro absolute
    have start : startOf s.inode cwd path = ROOTINO := if_pos absolute
    rw [outcome_bind]
    refine outcome_mono (outcome_and (iget_spec good.rep good.rep.sane.rootino) (iget_returns _ _ s)) ?_ ?_
    · rintro k s₁ ⟨⟨rep₁, took⟩, -⟩
      rw [← start] at took
      exact walk k s₁ rep₁ took (by rw [start]; exact .root)
    · rintro stop _ ⟨-, is, all⟩
      refine ⟨is, cwd, fun j _ => ?_⟩
      have count := good.rep.counts j
      have used := all j
      omega
  · intro relative
    have start : startOf s.inode cwd path = (s.inode cwd).inum := if_neg relative
    have here : At s cwd (startOf s.inode cwd path) := by
      rw [start]
      exact ⟨home, rfl⟩
    rw [outcome_bind]
    have taken : outcome (idup (W := Journal) cwd) (fun _ _ => True) (fun _ _ => False) s := trivial
    refine outcome_mono (outcome_and (idup_spec good.rep here) taken) ?_ fun _ _ both => both.2.elim
    rintro k s₁ ⟨⟨rfl, rep₁, took⟩, -⟩
    refine walk k s₁ rep₁ took ?_
    rw [start]
    exact .held ⟨k, home, rfl⟩

/-- The same path with a slash repeated or, unless it is empty, with slashes at its end. -/
inductive Respelled : Path → Path → Prop where
  | same (path : Path) : Respelled path path
  | repeated (left right : Path) : Respelled (left ++ slash :: right) (left ++ slash :: slash :: right)
  | trailing (path : Path) (n : Nat) : path ≠ [] → Respelled path (path ++ List.replicate n slash)

theorem Respelled.comps {path path' : Path} (respelled : Respelled path path') : comps path' = comps path := by
  cases respelled with
  | same => rfl
  | repeated left right => exact comps_repeated left right
  | trailing _ n _ => exact comps_trailing path n

theorem Respelled.head {path path' : Path} (respelled : Respelled path path') : path'.head? = path.head? := by
  cases respelled with
  | same => rfl
  | repeated left right => cases left <;> rfl
  | trailing _ n some_ => exact List.head?_append_of_ne_nil _ some_

theorem Respelled.plain {path path' : Path} (respelled : Respelled path path') (plain : 0 ∉ path) :
    0 ∉ path' := by
  have apart : (0 : UInt8) ≠ slash := by decide
  cases respelled with
  | same => exact plain
  | repeated left right =>
      simp only [List.mem_append, List.mem_cons, not_or] at plain ⊢
      exact ⟨plain.1, apart, apart, plain.2.2⟩
  | trailing _ n _ =>
      intro zero
      rcases List.mem_append.mp zero with old | new
      · exact plain old
      · exact apart (List.eq_of_mem_replicate new)

/-- The answer of `namei`: a reference to the inode that the components lead to. -/
def NameiAnswer (s : JState) (v : Volume) (goal : Option Nat) (answer : Option Slot) (s' : JState) : Prop :=
  match goal, answer with
  | none, none => Untouched s.inode v [] s s'
  | some i, some k => At s' k i ∧ Untouched s.inode v [k] s s'
  | _, _ => False

/-- The answer of `nameiparent`: a reference to the directory, with the last name in the
buffer. -/
def NameiparentAnswer (s : JState) (v : Volume) (goal : Option (Nat × Name))
    (answer : Option (Slot × List UInt8)) (s' : JState) : Prop :=
  match goal, answer with
  | none, none => Untouched s.inode v [] s s'
  | some (i, last), some (k, name) => namecmp name last = true ∧ At s' k i ∧ Untouched s.inode v [k] s s'
  | _, _ => False

/-- `namei` and `nameiparent` find what the components of the path lead to, whatever is in
the buffer before, however many slashes stand between and behind the components. -/
theorem path_resolution (good : Good s v) (idle : Idle s) (tree : v.Tree (Held s.inode)) {cwd : Slot}
    (home : 0 < (s.inode cwd).ref) {path path' : Path} (plain : 0 ∉ path) (respelled : Respelled path path')
    (name : List UInt8) :
    outcome (nameiInto cwd path' name)
      (NameiAnswer s v (v.follow (startOf s.inode cwd path) (comps path))) (Exhausted s.inode) s ∧
    outcome (nameiparentInto cwd path' name)
      (NameiparentAnswer s v (v.followParent (startOf s.inode cwd path) (comps path))) (Exhausted s.inode) s := by
  have start : startOf s.inode cwd path' = startOf s.inode cwd path := by
    unfold startOf
    rw [respelled.head]
  have walk := fun parent => namexInto_returns parent cwd path' name (respelled.plain plain) good idle tree home
  constructor
  · have goal := v.resolve_namei (startOf s.inode cwd path') path' (cutName name) (Nat.lt_succ_self _)
    rw [start, respelled.comps] at goal
    rw [← goal]
    unfold nameiInto
    refine outcome_seq (walk false) ?_
    intro answer s' found
    rw [outcome_pure, ← start]
    unfold AnswersInto Answers at found
    unfold NameiAnswer
    cases reached : v.resolve false (path'.length + 1) (startOf s.inode cwd path') path' (cutName name) with
    | none =>
        rw [reached] at found
        cases answer with
        | none => exact found
        | some k => exact found.elim
    | some place =>
        rw [reached] at found
        cases answer with
        | none => exact found.elim
        | some k => exact found.2
  · have goal := v.resolve_nameiparent (startOf s.inode cwd path') path' (cutName name) (Nat.lt_succ_self _)
    rw [start, respelled.comps] at goal
    rw [← goal]
    unfold nameiparentInto
    refine outcome_post (walk true) ?_
    intro answer s' found
    rw [start] at found
    unfold AnswersInto Answers at found
    unfold NameiparentAnswer
    cases reached : v.resolve true (path'.length + 1) (startOf s.inode cwd path) path' (cutName name) with
    | none =>
        rw [reached] at found
        cases answer with
        | none => exact found
        | some k => exact found.elim
    | some place =>
        rw [reached] at found
        cases answer with
        | none => exact found.elim
        | some k =>
            obtain ⟨last, here, same⟩ := found
            refine ⟨decide_eq_true ?_, here, same⟩
            rw [← last, cutName_cut]

/-- The root directory of the smallest disk, found. -/
theorem tiny_found : ∃ s k, Good s tinyVolume ∧ Idle s ∧ tinyVolume.Tree (Held s.inode) ∧ At s k ROOTINO := by
  have whole : ∀ d, (shown (mounted tinyDisk)).IsDir d → (shown (mounted tinyDisk)).Whole d :=
    fun d dir => tiny_whole d dir.1
  have good : Good (mounted tinyDisk) tinyVolume := tiny_consistent.good whole fun _ => rfl
  have found := outcome_and (iget_spec good.rep good.rep.sane.rootino) (iget_returns ROOTDEV ROOTINO _)
  obtain ⟨k, s, -, ⟨rep, took⟩, -⟩ := outcome_ok (outcome_mono found (fun _ _ => id) fun _ _ both =>
    both.2.2 ⟨0, by decide⟩ rfl)
  have root : ∀ i, tinyVolume.Reach (Held s.inode) i → i = ROOTINO := by
    intro i reach
    induction reach with
    | root => rfl
    | held is =>
        obtain ⟨j, used, rfl⟩ := is
        by_cases same : j = k
        · rw [same]
          exact took.inum
        · rw [took.other j same] at used
          exact absurd used (lt_irrefl _)
    | entry _ dir below _ ih =>
        rw [ih] at below
        change _ < (tinyVolume.node ROOTINO).size / DIRENT at below
        rw [tiny_size] at below
        cases below
  have live : tinyVolume.Live ROOTINO := by
    have typed : (tinyVolume.node ROOTINO).type ≠ 0 := by decide +kernel
    exact ⟨by decide, typed⟩
  refine ⟨s, k, ⟨rep, good.owned, good.neat⟩, ?_, ⟨?_, ?_, ?_⟩, took.at_ good.rep⟩
  · have idle : Idle (mounted tinyDisk) := fun _ => rfl
    exact idle.unlocked took.other took.lock
  · intro i reach
    rw [root i reach]
    exact live
  · intro d reach _
    rw [root d reach, tiny_size]
    exact Nat.dvd_zero _
  · intro i reach
    rw [root i reach]
    exact .inl (by decide +kernel)

/-- There `a/` names nothing, and its parent is the root. -/
theorem tiny_path : ∃ s k, At s k ROOTINO ∧
    outcome (nameiInto k [97, slash] []) (NameiAnswer s tinyVolume none) (Exhausted s.inode) s ∧
    outcome (nameiparentInto k [97, slash] []) (NameiparentAnswer s tinyVolume (some (ROOTINO, [97])))
      (Exhausted s.inode) s := by
  obtain ⟨s, k, good, idle, tree, here⟩ := tiny_found
  have found := path_resolution good idle tree here.1 (by decide : (0 : UInt8) ∉ [97]) (.trailing [97] 1 (by decide)) []
  have start : startOf s.inode k [97] = ROOTINO := here.2
  have missing : tinyVolume.follow ROOTINO (comps [97]) = none := by decide +kernel
  have parent : tinyVolume.followParent ROOTINO (comps [97]) = some (ROOTINO, [97]) := by decide +kernel
  rw [start, missing, parent] at found
  exact ⟨s, k, here, found⟩

/-- The number of the inode that `namei` returns. -/
def leadsTo (cwd : Slot) (path : Path) (s : JState) : Option Nat :=
  match nameiInto cwd path [] s with
  | .ok (some k) s' => some (s'.inode k).inum
  | _ => none

/-- In a directory `a` the empty path names the directory, and with a slash it names the root. -/
theorem slash_is_not_empty : ∃ s, run Request.step (mounted tinyDisk)
      [.iget ROOTINO, .create ⟨0, by decide⟩ [97] T_DIR 0 0, .iunlock ⟨1, by decide⟩] = some s ∧
    leadsTo ⟨1, by decide⟩ [] s = some 2 ∧ leadsTo ⟨1, by decide⟩ ([] ++ [slash]) s = some ROOTINO := by
  have ends : endsIn tinyDisk
      [.iget ROOTINO, .create ⟨0, by decide⟩ [97] T_DIR 0 0, .iunlock ⟨1, by decide⟩]
      (fun s => decide (leadsTo ⟨1, by decide⟩ [] s = some 2 ∧
        leadsTo ⟨1, by decide⟩ ([] ++ [slash]) s = some ROOTINO)) = true := by decide +kernel
  obtain ⟨s, ran, test⟩ := endsIn_run ends
  exact ⟨s, ran, of_decide_eq_true test⟩

end Resolving

end Fs

end PaddleOs

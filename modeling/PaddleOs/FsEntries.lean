import PaddleOs.FreeBlocks
import PaddleOs.FsHandles
import PaddleOs.Entries

/-!
Directories of a represented volume: `readi`, `dirlookup`, `dirlink` and `isdirempty`. On a
file without unmapped blocks `readi` allocates nothing, so a search leaves the state as it
is and its answer is that of the volume.
-/

namespace PaddleOs.Fs

open Foundation.Outcome
open Volume (place place_le place_ne)

variable {s s' : JState} {v : Volume} {k : Slot} {i : Nat}

section Reading

theorem getBytes_bytes {b off m : Nat} (limit : off / BSIZE < MAXFILE)
    (at_ : v.ptr i (place (off / BSIZE)) = b) (present : b ≠ 0) (room : off % BSIZE + m ≤ BSIZE) :
    getBytes (v.block b) (off % BSIZE) m = v.bytes i off m := by
  unfold getBytes Volume.bytes
  refine List.map_congr_left fun t inside => ?_
  have bound := List.mem_range.mp inside
  have split := Nat.div_add_mod off BSIZE
  have here : (off + t) / BSIZE = off / BSIZE ∧ (off + t) % BSIZE = off % BSIZE + t := by
    rw [Nat.div_mod_unique (by decide)]
    omega
  unfold Volume.byte
  rw [here.1, here.2, at_, if_pos ⟨limit, present⟩]

theorem bytes_append (v : Volume) (i off m n : Nat) :
    v.bytes i off m ++ v.bytes i (off + m) n = v.bytes i off (m + n) := by
  unfold Volume.bytes
  rw [List.range_add, List.map_append, List.map_map]
  congr 1
  refine List.map_congr_left fun t _ => ?_
  rw [Function.comp_apply, Nat.add_assoc]

/-- A read of the bytes from `tot` to `n` got through, or a copy of it was refused. -/
inductive Copies (accepts : Nat → Nat → Bool) (n tot : Nat) (slice : Nat → List UInt8) :
    Int × List UInt8 → Prop
  | all (sure : ∀ j, tot ≤ j → j < n → ∃ t m, t ≤ j ∧ j < t + m ∧ accepts t m = true) :
      Copies accepts n tot slice (asInt n, slice (n - tot))
  | refused {t m : Nat} (here : tot ≤ t) (some : 0 < m) (inside : t + m ≤ n)
      (no : accepts t m = false) : Copies accepts n tot slice (-1, slice (t + m - tot))

/-- The copy of `m` bytes is accepted, and then the rest. -/
theorem Copies.turn {accepts : Nat → Nat → Bool} {n tot m : Nat} {slice : Nat → List UInt8}
    {r : Int × List UInt8} (yes : accepts tot m = true) (inside : tot + m ≤ n)
    (rest : Copies accepts n (tot + m) (fun c => slice (m + c)) r) : Copies accepts n tot slice r := by
  cases rest with
  | all sure =>
      rw [show m + (n - (tot + m)) = n - tot by omega]
      refine .all fun j low high => ?_
      by_cases first : j < tot + m
      · exact ⟨tot, m, low, first, yes⟩
      · exact sure j (by omega) high
  | @refused t m' here some inside' no =>
      rw [show m + (t + m' - (tot + m)) = t + m' - tot by omega]
      exact .refused (by omega) some inside' no

theorem readiFrom_spec (rep : Represents clean s v) (owned : v.Owned) (loaded : Loaded s k i)
    (whole : v.Whole i) (accepts : Nat → Nat → Bool) (n fuel tot off : Nat) (read : List UInt8)
    (enough : n - tot ≤ fuel) (below : tot ≤ n) (inside : off + (n - tot) ≤ (v.node i).size) :
    outcome (readiFrom k accepts n fuel tot off read)
      (fun r s' => s' = s ∧ Copies accepts n tot (fun c => read ++ v.bytes i off c) r) Permitted s := by
  have done : ∀ {tot off : Nat} {read : List UInt8}, tot = n →
      Copies accepts n tot (fun c => read ++ v.bytes i off c) (asInt tot, read) := by
    rintro tot off read rfl
    have none_ : read ++ v.bytes i off (tot - tot) = read := by simp [Volume.bytes]
    have all : Copies accepts tot tot (fun c => read ++ v.bytes i off c)
        (asInt tot, read ++ v.bytes i off (tot - tot)) := .all fun j low high => by omega
    rwa [none_] at all
  induction fuel generalizing tot off read with
  | zero =>
      have all : tot = n := by omega
      rw [readiFrom, outcome_pure]
      exact ⟨rfl, done all⟩
  | succ fuel ih =>
      rw [readiFrom, outcome_ite]
      constructor
      · intro more
        have split := Nat.div_add_mod off BSIZE
        have mapped := whole (off / BSIZE) (by rw [Nat.mul_comm]; omega)
        have opened : Represents (only k) s v := rep.weaken fun _ never => never.elim
        refine outcome_seq (bmap_spec opened owned (only_self k) loaded (loaded.live rep) _) ?_
        rintro b s₁ ⟨limit, v₁, -, is, -, unchanged, -⟩
        obtain ⟨present, rfl, rfl⟩ := unchanged mapped.2
        have at_ := (is present).symm
        have held : v₁.Tenant i (place (off / BSIZE)) b := ⟨loaded.live rep, place_le limit, at_, present⟩
        have range := owned.range _ _ _ held
        rw [if_neg present, outcome_bind]
        refine inode_step ?_
        rw [outcome_bind]
        refine bread_step ?_
        dsimp only
        rw [outcome_bind]
        refine data_step ?_
        rw [rep.block b range.1 range.2, outcome_bind]
        refine brelse_step ?_
        have small : off % BSIZE < BSIZE := Nat.mod_lt _ (by decide)
        have room : off % BSIZE + min (n - tot) (BSIZE - off % BSIZE) ≤ BSIZE := by omega
        have least : 0 < min (n - tot) (BSIZE - off % BSIZE) := by omega
        have most : min (n - tot) (BSIZE - off % BSIZE) ≤ n - tot := Nat.min_le_left _ _
        rw [getBytes_bytes limit at_ present room]
        generalize min (n - tot) (BSIZE - off % BSIZE) = m at least most ⊢
        rw [outcome_ite]
        constructor
        · intro yes
          refine outcome_post (ih (tot + m) (off + m) _ (by omega) (by omega) (by omega)) ?_
          rintro r s₂ ⟨rfl, result⟩
          simp only [List.append_assoc, bytes_append] at result
          exact ⟨rfl, result.turn yes (by omega)⟩
        · intro no
          rw [outcome_pure]
          have refused : Copies accepts n tot (fun c => read ++ v₁.bytes i off c)
              (-1, read ++ v₁.bytes i off (tot + m - tot)) :=
            .refused (Nat.le_refl tot) least (by omega) (by simpa using no)
          rw [Nat.add_sub_cancel_left] at refused
          exact ⟨rfl, refused⟩
      · intro last
        rw [outcome_pure]
        exact ⟨rfl, done (by omega)⟩

/-- `readi` of a whole file hands out a slice of it and changes nothing. -/
theorem readi_copies (rep : Represents clean s v) (owned : v.Owned) (loaded : Loaded s k i)
    (whole : v.Whole i) (accepts : Nat → Nat → Bool) (off n : Nat) (small : off + n < 2 ^ 32) :
    outcome (readi k accepts off n) (fun r s' => s' = s ∧
      Copies accepts (min n ((v.node i).size - off)) 0 (v.bytes i off) r) Permitted s := by
  have size : (s.inode k).size = (v.node i).size := by rw [rep.copy k i loaded]
  unfold readi
  rw [outcome_bind]
  refine inode_step ?_
  rw [size, Nat.mod_eq_of_lt small, outcome_ite]
  constructor
  · intro beyond
    rw [outcome_pure]
    have none_ : min n ((v.node i).size - off) = 0 := by omega
    rw [none_]
    exact ⟨rfl, .all fun j _ high => by omega⟩
  · intro start
    have width : (if off + n > (v.node i).size then (v.node i).size - off else n) =
        min n ((v.node i).size - off) := by
      split <;> omega
    rw [width]
    exact readiFrom_spec rep owned loaded whole accepts _ _ 0 off [] (by omega) (Nat.zero_le _) (by omega)

theorem readi_spec (rep : Represents clean s v) (owned : v.Owned) (loaded : Loaded s k i)
    (whole : v.Whole i) (accepts : Nat → Nat → Bool) (off n : Nat) (small : off + n < 2 ^ 32) :
    outcome (readi k accepts off n) (fun r s' => s' = s ∧ ((∀ a b, accepts a b = true) →
      r = (asInt (min n ((v.node i).size - off)), v.bytes i off (min n ((v.node i).size - off)))))
      Permitted s := by
  refine outcome_post (readi_copies rep owned loaded whole accepts off n small) ?_
  rintro r s' ⟨same, copies⟩
  refine ⟨same, fun sure => ?_⟩
  cases copies with
  | all _ => rfl
  | @refused t m _ _ _ no => exact absurd (sure t m) (by simp [no])

theorem readDirent_spec (rep : Represents clean s v) (owned : v.Owned) (loaded : Loaded s k i)
    (whole : v.Whole i) {j : Nat} {panic : Stop} (allowed : ∀ s, Permitted panic s)
    (inside : DIRENT * j < (v.node i).size) :
    outcome (readDirent k (DIRENT * j) panic) (fun de s' => s' = s ∧ j < v.slots i ∧
      de = v.entry i j) Permitted s := by
  have limit : (v.node i).size ≤ MAXFILE * BSIZE := by
    by_contra beyond
    exact absurd (whole MAXFILE (by omega)).1 (Nat.lt_irrefl _)
  have bound : MAXFILE * BSIZE + DIRENT < 2 ^ 31 := by decide
  unfold readDirent
  refine outcome_seq (readi_spec rep owned loaded whole kernelAccepts (DIRENT * j) DIRENT (by omega)) ?_
  rintro ⟨r, bytes⟩ s₁ ⟨rfl, result⟩
  have is := result fun _ _ => rfl
  rw [asInt_small (by unfold DIRENT; omega)] at is
  cases is
  dsimp only
  rw [outcome_ite]
  constructor
  · intro _
    rw [outcome_bind, outcome_throw]
    exact allowed _
  · intro full
    rw [outcome_pure]
    have width : min DIRENT ((v.node i).size - DIRENT * j) = DIRENT := by omega
    rw [width]
    refine ⟨rfl, ?_, rfl⟩
    unfold Volume.slots
    unfold DIRENT at width ⊢
    omega

end Reading

section Searching

variable {dp : Slot} {d : Nat} {name : Name}

/-- The answer of a search of the directory: the entry and a handle of its inode. -/
def Found (s s' : JState) (v : Volume) (d : Nat) (name : Name) (answer : Option (Slot × Nat)) : Prop :=
  match v.lookup d name, answer with
  | none, none => s' = s
  | some j, some (ip, off) => off = DIRENT * j ∧ Represents clean s' v ∧ Took s s' ip (v.entry d j).inum
  | _, _ => False

theorem dirlookupFrom_spec (rep : Represents clean s v) (owned : v.Owned) (neat : v.Neat)
    (loaded : Loaded s dp d) (dir : (v.node d).type = T_DIR) (fuel j : Nat)
    (enough : v.slots d < j + fuel) (before : ∀ l, l < j → ¬ v.Names d name l) :
    outcome (dirlookupFrom dp name fuel (DIRENT * j)) (fun r s' => Found s s' v d name r)
      Permitted s := by
  have isDir : v.IsDir d := ⟨loaded.live rep, dir⟩
  have missing : v.slots d ≤ j → Found s s v d name none := by
    intro past
    have none_ : v.lookup d name = none := Volume.lookup_none.mpr fun l below => before l (by omega)
    unfold Found
    rw [none_]
  induction fuel generalizing j with
  | zero => exact missing (by omega)
  | succ fuel ih =>
      rw [dirlookupFrom, outcome_bind]
      refine inode_step ?_
      rw [rep.copy dp d loaded, outcome_ite]
      constructor
      · intro inside
        refine outcome_seq (readDirent_spec rep owned loaded (neat.whole d isDir)
          (fun _ => by unfold Permitted; decide) inside) ?_
        rintro _ s₁ ⟨rfl, below, rfl⟩
        rw [outcome_ite]
        constructor
        · intro hit
          have found : v.lookup d name = some j := Volume.lookup_some.mpr ⟨below, hit, before⟩
          rw [outcome_bind]
          refine inode_step ?_
          rw [rep.root dp loaded.1]
          refine outcome_seq (iget_spec rep (neat.range d isDir j below)) ?_
          rintro ip s₂ ⟨rep₂, took⟩
          rw [outcome_pure]
          unfold Found
          rw [found]
          exact ⟨rfl, rep₂, took⟩
        · intro miss
          have next : ∀ l, l < j + 1 → ¬ v.Names d name l := by
            intro l low
            by_cases here : l = j
            · rw [here]
              exact miss
            · exact before l (by omega)
          have rest := ih (j + 1) (by omega) next
          rw [Nat.mul_succ] at rest
          refine rest fun past => ?_
          have none_ : v.lookup d name = none :=
            Volume.lookup_none.mpr fun l low => next l (by omega)
          unfold Found
          rw [none_]
      · intro past
        rw [outcome_pure]
        refine missing ?_
        unfold Volume.slots
        unfold DIRENT at past ⊢
        omega

theorem dirlookup_spec (rep : Represents clean s v) (owned : v.Owned) (neat : v.Neat)
    (loaded : Loaded s dp d) :
    outcome (dirlookup dp name) (fun r s' => (v.node d).type = T_DIR ∧ Found s s' v d name r)
      Permitted s := by
  unfold dirlookup
  rw [outcome_bind]
  refine inode_step ?_
  rw [rep.copy dp d loaded, outcome_ite]
  constructor
  · intro _
    rw [outcome_bind, outcome_throw]
    unfold Permitted
    decide
  · intro type
    have dir : (v.node d).type = T_DIR := by simpa using type
    refine outcome_post (dirlookupFrom_spec rep owned neat loaded dir _ 0 ?_ ?_) ?_
    · unfold Volume.slots
      omega
    · intro l low
      omega
    · intro r s' found
      exact ⟨dir, found⟩

theorem emptyFrom_spec (rep : Represents clean s v) (owned : v.Owned) (neat : v.Neat)
    (loaded : Loaded s dp d) (dir : (v.node d).type = T_DIR) (fuel j : Nat)
    (enough : v.slots d < j + fuel) (before : ∀ l, l < j → (v.entry d l).inum ≠ 0)
    (reached : DIRENT * j ≤ (v.node d).size) :
    outcome (emptyFrom dp fuel (DIRENT * j)) (fun off s' => s' = s ∧ off = DIRENT * v.vacant d ∧
      (v.vacant d < v.slots d ∨ DIRENT * v.vacant d = (v.node d).size)) Permitted s := by
  have isDir : v.IsDir d := ⟨loaded.live rep, dir⟩
  have slots : j ≤ v.slots d := by
    unfold Volume.slots
    unfold DIRENT at reached ⊢
    omega
  induction fuel generalizing j with
  | zero => omega
  | succ fuel ih =>
      rw [emptyFrom, outcome_bind]
      refine inode_step ?_
      rw [rep.copy dp d loaded, outcome_ite]
      constructor
      · intro inside
        refine outcome_seq (readDirent_spec rep owned loaded (neat.whole d isDir)
          (fun _ => by unfold Permitted; decide) inside) ?_
        rintro _ s₁ ⟨rfl, below, rfl⟩
        rw [outcome_ite]
        constructor
        · intro free
          rw [outcome_pure, Volume.vacant_unique before (fun _ => free) (Nat.le_of_lt below)]
          exact ⟨rfl, rfl, .inl below⟩
        · intro used
          have next : ∀ l, l < j + 1 → (v.entry d l).inum ≠ 0 := by
            intro l low
            by_cases here : l = j
            · rw [here]
              exact used
            · exact before l (by omega)
          have room : DIRENT * (j + 1) ≤ (v.node d).size := by
            unfold Volume.slots at below
            unfold DIRENT at below ⊢
            omega
          exact ih (j + 1) (by omega) next room (by omega)
      · intro past
        rw [outcome_pure]
        have last : j = v.slots d := by
          unfold Volume.slots
          unfold DIRENT at past reached ⊢
          omega
        rw [Volume.vacant_unique before (fun wrong => by omega) (by omega)]
        exact ⟨rfl, rfl, .inr (by omega)⟩

theorem isdiremptyFrom_spec (rep : Represents clean s v) (owned : v.Owned) (neat : v.Neat)
    (loaded : Loaded s dp d) (dir : (v.node d).type = T_DIR) (fuel j : Nat)
    (enough : v.slots d < j + fuel) (before : ∀ l, 2 ≤ l → l < j → (v.entry d l).inum = 0)
    (late : 2 ≤ j) :
    outcome (isdiremptyFrom dp fuel (DIRENT * j)) (fun r s' => s' = s ∧
      (r = true ↔ ∀ l, 2 ≤ l → l < v.slots d → (v.entry d l).inum = 0)) Permitted s := by
  have isDir : v.IsDir d := ⟨loaded.live rep, dir⟩
  induction fuel generalizing j with
  | zero =>
      rw [isdiremptyFrom, outcome_pure]
      exact ⟨rfl, fun _ l low high => before l low (by omega), fun _ => rfl⟩
  | succ fuel ih =>
      rw [isdiremptyFrom, outcome_bind]
      refine inode_step ?_
      rw [rep.copy dp d loaded, outcome_ite]
      constructor
      · intro inside
        refine outcome_seq (readDirent_spec rep owned loaded (neat.whole d isDir)
          (fun _ => by unfold Permitted; decide) inside) ?_
        rintro _ s₁ ⟨rfl, below, rfl⟩
        rw [outcome_ite]
        constructor
        · intro used
          rw [outcome_pure]
          exact ⟨rfl, fun wrong => (by cases wrong), fun all => absurd (all j late below) used⟩
        · intro free
          refine ih (j + 1) (by omega) ?_ (by omega)
          intro l low high
          by_cases here : l = j
          · rw [here]
            simpa using free
          · exact before l low (by omega)
      · intro past
        rw [outcome_pure]
        have last : v.slots d ≤ j := by
          unfold Volume.slots
          unfold DIRENT at past ⊢
          omega
        exact ⟨rfl, fun _ l low high => before l low (by omega), fun _ => rfl⟩

theorem isdirempty_spec (rep : Represents clean s v) (owned : v.Owned) (neat : v.Neat)
    (loaded : Loaded s dp d) (dir : (v.node d).type = T_DIR) :
    outcome (isdirempty dp) (fun r s' => s' = s ∧
      (r = true ↔ ∀ l, 2 ≤ l → l < v.slots d → (v.entry d l).inum = 0)) Permitted s := by
  unfold isdirempty
  rw [outcome_bind]
  refine inode_step ?_
  rw [rep.copy dp d loaded, Nat.mul_comm]
  refine isdiremptyFrom_spec rep owned neat loaded dir _ 2 ?_ (fun l low high => by omega) (Nat.le_refl _)
  unfold Volume.slots
  omega

end Searching

section Linking

variable {dp : Slot} {d j : Nat} {name : Name}

/-- The blocks a store into entry `j` of directory `d` may log. -/
def entryBlocks (v : Volume) (d j b : Nat) : Prop :=
  b = v.sb.IBLOCK d ∨ isBitmap v.sb b ∨ v.Tenant d NDIRECT b ∨
    v.Tenant d (place (DIRENT * j / BSIZE)) b

theorem kernelSource_sends (bytes : List UInt8) :
    Sends (kernelSource bytes) bytes.length fun t => bytes.getD t 0 := by
  intro k m inside
  unfold kernelSource
  have length : ((bytes.drop k).take m).length = m := by
    rw [List.length_take, List.length_drop]
    omega
  dsimp only
  refine ⟨by omega, fun _ => length, fun t below => ?_⟩
  rw [length] at below
  rw [List.getD_eq_getElem _ _ (by omega), List.getElem_take, List.getElem_drop,
    List.getD_eq_getElem _ _ (by omega)]

/-- A store of a whole entry into a directory that has it or ends there: it happens or
nothing but the map of the directory changes. -/
theorem writeEntry_spec (rep : Represents clean s v) (owned : v.Owned) (loaded : Loaded s dp d)
    {bytes : List UInt8} (length : bytes.length = DIRENT) (limit : (v.node d).size ≤ MAXFILE * BSIZE)
    (inside : j < v.slots d ∨ DIRENT * j = (v.node d).size) :
    outcome (writei dp (kernelSource bytes) (DIRENT * j) DIRENT) (fun r s' => ∃ v',
      Wrote clean dp d s s' v v' ∧ LogsOnly s s' (entryBlocks v' d j) ∧
      ((r = (DIRENT : Int) ∧ Volume.Patched d j (getDirent bytes) v v') ∨
        (r ≠ (DIRENT : Int) ∧ ¬ RoomFor v d (DIRENT * j / BSIZE) ∧ Volume.Padded d v v'))) Permitted s := by
  have bound : MAXFILE * BSIZE + DIRENT < 2 ^ 32 := by decide
  have start : DIRENT * j ≤ (v.node d).size := by
    unfold Volume.slots at inside
    unfold DIRENT at inside ⊢
    omega
  have sends := kernelSource_sends bytes
  rw [length] at sends
  refine outcome_post (writei_spec rep owned loaded _ _ _ (by omega)) ?_
  rintro r s' (⟨rfl, rfl, refused⟩ | ⟨-, v', tot, rfl, wrote, stored, logs⟩)
  · refine ⟨v, (Advance.refl rep owned loaded).wrote (loaded.live rep), LogsOnly.refl _ _, .inr ?_⟩
    refine ⟨by decide, fun room => refused ⟨start, ?_⟩, (Volume.Grow.refl v d).touch (loaded.live rep),
      fun _ => rfl, rfl, fun _ _ _ => rfl, id⟩
    have below := room.1
    unfold DIRENT BSIZE at *
    omega
  obtain ⟨reached, past, within, sure, each⟩ := stored.bytes _ sends
  rw [sure fun _ _ => rfl] at each
  refine ⟨v', wrote, ?_, ?_⟩
  · refine logs.mono fun b => ?_
    rintro (rfl | bitmap | ⟨p, rfl | ⟨o, low, high, rfl⟩, held⟩)
    · exact .inl (by rw [wrote.touch.sb])
    · exact .inr (.inl (by rw [wrote.touch.sb]; exact bitmap))
    · exact .inr (.inr (.inl held))
    · have same : o / BSIZE = DIRENT * j / BSIZE := by
        unfold DIRENT BSIZE at *
        omega
      rw [same] at held
      exact .inr (.inr (.inr held))
  · have count := stored.count
    have all : tot = 0 ∨ tot = DIRENT := by
      have edge := stored.edge
      unfold DIRENT BSIZE at *
      omega
    rcases all with rfl | rfl
    · have gains : Gains d (needed (DIRENT * j / BSIZE)) v v' := by
        refine stored.gains.mono fun p => ?_
        rintro ⟨o, low, high, leads⟩
        have same : o / BSIZE = DIRENT * j / BSIZE := by
          unfold DIRENT BSIZE at *
          omega
        exact same ▸ leads
      have stuck := stored.stuck (fun _ _ => rfl) (by decide)
      rw [Nat.add_zero] at stuck
      refine .inr ⟨by decide, not_room owned wrote.owned wrote.touch (stored.short (fun _ _ => rfl) (by decide))
        gains stuck, wrote.touch, fun o => ?_, ?_, fun p low direct => ?_, fun _ => wrote.owned⟩
      · rw [each o, if_neg (by omega)]
      · rw [stored.size]
        omega
      · by_cases null : v.ptr d p = 0
        · by_contra got
          rcases gains p low null (null ▸ got) with ⟨indirect, -⟩ | rfl
          · exact direct indirect
          · exact got (stuck.trans null.symm)
        · exact wrote.touch.kept p low null
    · refine .inl ⟨rfl, wrote.touch, fun l => ?_, ?_, fun whole bn below => ?_, fun _ => wrote.owned⟩
      · split
        · rename_i here
          rw [here]
          unfold Volume.entry
          rw [Volume.bytes_eq length fun t low => ?_]
          rw [each, if_pos (by omega), Nat.add_sub_cancel_left]
        · rename_i other
          refine Volume.entry_congr fun o low high => ?_
          rw [each, if_neg]
          unfold DIRENT at *
          omega
      · rw [stored.size, Nat.mul_succ]
      · rw [stored.size] at below
        by_cases old : bn * BSIZE < (v.node d).size
        · obtain ⟨limit, present⟩ := whole bn old
          rw [wrote.touch.kept _ (place_le limit) present]
          exact ⟨limit, present⟩
        · have new := stored.mapped (bn * BSIZE) (by omega) (by omega)
          rwa [Nat.mul_div_cancel _ (by decide)] at new

/-- What `dirlink` did to the directory. -/
inductive DirLinked (s s' : JState) (v : Volume) (dp : Slot) (d : Nat) (name : Name) (inum : Nat) :
    Bool → Prop where
  | exists_ (found : v.lookup d name ≠ none) (rep : Represents clean s' v)
      (store : s'.store = s.store) (atop : Over s.inode [] s')
      (kept : ∀ k, 0 < (s.inode k).ref → s'.inode k = s.inode k) :
      DirLinked s s' v dp d name inum false
  | full {v' : Volume} (missing : v.lookup d name = none)
      (stuck : ¬ RoomFor v d (DIRENT * v.vacant d / BSIZE)) (wrote : Wrote clean dp d s s' v v')
      (padded : Volume.Padded d v v') (logs : LogsOnly s s' (entryBlocks v' d (v.vacant d))) :
      DirLinked s s' v dp d name inum false
  | linked {v' : Volume} (missing : v.lookup d name = none) (wrote : Wrote clean dp d s s' v v')
      (patched : Volume.Patched d (v.vacant d) ⟨inum % 2 ^ 16, cutName name⟩ v v')
      (logs : LogsOnly s s' (entryBlocks v' d (v.vacant d))) :
      DirLinked s s' v dp d name inum true

theorem Whole.limit (whole : v.Whole d) : (v.node d).size ≤ MAXFILE * BSIZE := by
  by_contra beyond
  exact absurd (whole MAXFILE (by omega)).1 (Nat.lt_irrefl _)

theorem dirlink_spec (rep : Represents clean s v) (owned : v.Owned) (neat : v.Neat)
    (loaded : Loaded s dp d) (inum : Nat) :
    outcome (dirlink dp name inum) (fun r s' => v.IsDir d ∧ DirLinked s s' v dp d name inum r)
      Permitted s := by
  unfold dirlink
  refine outcome_seq (dirlookup_spec rep owned neat loaded) ?_
  rintro answer s₁ ⟨dir, found⟩
  have isDir : v.IsDir d := ⟨loaded.live rep, dir⟩
  unfold Found at found
  split at found
  · rename_i missing
    subst found
    dsimp only
    rw [outcome_bind]
    refine inode_step ?_
    rw [rep.copy dp d loaded]
    refine outcome_seq (emptyFrom_spec rep owned neat loaded dir _ 0 ?_ (fun l low => by omega)
      (Nat.zero_le _)) ?_
    · unfold Volume.slots
      omega
    rintro off s₂ ⟨rfl, rfl, inside⟩
    refine outcome_seq (writeEntry_spec rep owned loaded (putDirent_length name inum)
      (Whole.limit (neat.whole d isDir)) inside) ?_
    rintro r s₃ ⟨v', wrote, logs, ⟨rfl, patched⟩ | ⟨short, stuck, padded⟩⟩
    · rw [outcome_pure, decide_eq_true rfl]
      rw [getDirent_putDirent_mod] at patched
      exact ⟨isDir, .linked missing wrote patched logs⟩
    · rw [outcome_pure, decide_eq_false short]
      exact ⟨isDir, .full missing stuck wrote padded logs⟩
  · rename_i j ip off hit
    obtain ⟨-, rep₁, took⟩ := found
    dsimp only
    refine outcome_seq (iput_spec rep₁ owned (took.at_ rep)) ?_
    rintro _ s₂ ⟨gave, ⟨-, rep₂, store⟩ | ⟨last, -⟩⟩
    · rw [outcome_pure]
      refine ⟨isDir, .exists_ (by rw [hit]; simp) rep₂ (store.trans took.store)
        (gave.atop (took.atop rep)) fun k used => ?_⟩
      by_cases same : k = ip
      · subst same
        have old := took.old used
        rw [gave.shared (by rw [old]; dsimp only; omega), old]
        dsimp only
        rw [Int.add_sub_cancel]
      · rw [gave.other k same, took.other k same]
    · -- a fresh slot is not valid, and an old one has another reference
      obtain ⟨one, valid, -⟩ := last
      rcases (rep.counts ip).lt_or_eq with used | free
      · rw [took.old used] at one
        dsimp only at one
        omega
      · rw [(took.new free.symm).2] at valid
        cases valid
  · exact found.elim

end Linking

end PaddleOs.Fs

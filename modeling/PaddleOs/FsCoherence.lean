import PaddleOs.Coherence
import PaddleOs.Kernel
import PaddleOs.Foundation.Runs

/-!
Coherence of the cache through the functions of `fs.c`. A function is safe when it
keeps the cache coherent up to any buffers its caller has made dirty; it reads blocks of
the root device only, provided the inodes it is given are of that device. `writei` is safe
unless a copy from the user fails after some bytes of the block have arrived: the exit it
takes there releases the buffer without `log_write`.
-/

namespace PaddleOs.Fs

open Foundation.Outcome Foundation.Runs

structure Sound (dirty : Fin NBUF → Prop) (s : State Store) : Prop where
  coherent : Coherent dirty s.store
  device : s.store.log.dev = ROOTDEV
  inUse : ∀ k, 0 < (s.inode k).ref → (s.inode k).dev = ROOTDEV

/-- The slots that belong to the root device stay there. -/
def Onward (s s' : State Store) : Prop :=
  ∀ k, (s.inode k).dev = ROOTDEV → (s'.inode k).dev = ROOTDEV

theorem Onward.refl (s : State Store) : Onward s s := fun _ root => root

theorem Onward.trans {s1 s2 s3 : State Store} (first : Onward s1 s2) (second : Onward s2 s3) :
    Onward s1 s3 := fun k root => second k (first k root)

/-- Given slots of the root device, the function keeps the cache coherent and gives slots
of the root device back. -/
def Finds {α : Type} (slots : Slot → Prop) (run : FsM Store α) (gives : α → Slot → Prop) : Prop :=
  ∀ dirty s, Sound dirty s → (∀ k, slots k → (s.inode k).dev = ROOTDEV) →
    outcome run (fun value after => Sound dirty after ∧ Onward s after ∧
      ∀ k, gives value k → (after.inode k).dev = ROOTDEV) (fun _ _ => True) s

def Safe {α : Type} (slots : Slot → Prop) (run : FsM Store α) : Prop :=
  Finds slots run fun _ _ => False

section Rules

variable {α β : Type} {slots : Slot → Prop}

theorem safe_pure (value : α) : Safe slots (pure value) :=
  fun _ s sound _ => ⟨sound, Onward.refl s, fun _ none => absurd none id⟩

theorem safe_throw (stop : Stop) : Safe slots (throw stop : FsM Store α) := fun _ _ _ _ => trivial

theorem Finds.bind {run : FsM Store α} {next : α → FsM Store β} {gives : α → Slot → Prop}
    {gives' : β → Slot → Prop} (first : Finds slots run gives)
    (second : ∀ value, Finds (fun k => slots k ∨ gives value k) (next value) gives') :
    Finds slots (run >>= next) gives' := by
  intro dirty s sound roots
  refine outcome_seq (first dirty s sound roots) ?_
  rintro value s1 ⟨sound1, onward1, found1⟩
  refine outcome_post (second value dirty s1 sound1 ?_) ?_
  · rintro k (given | found)
    · exact onward1 k (roots k given)
    · exact found1 k found
  · rintro value' s2 ⟨sound2, onward2, found2⟩
    exact ⟨sound2, onward1.trans onward2, found2⟩

theorem Finds.fewer {run : FsM Store α} {slots' : Slot → Prop} {gives : α → Slot → Prop}
    (finds : Finds slots run gives) (more : ∀ k, slots k → slots' k) :
    Finds slots' run gives :=
  fun dirty s sound roots => finds dirty s sound fun k given => roots k (more k given)

theorem Safe.then {run : FsM Store α} {next : α → FsM Store β} {gives : β → Slot → Prop}
    (first : Safe slots run) (second : ∀ value, Finds slots (next value) gives) :
    Finds slots (run >>= next) gives :=
  Finds.bind first fun value => (second value).fewer fun _ given => Or.inl given

theorem finds_ite {choice : Prop} [Decidable choice] {yes no : FsM Store α}
    {gives : α → Slot → Prop} (left : Finds slots yes gives) (right : Finds slots no gives) :
    Finds slots (if choice then yes else no) gives := by
  split
  · exact left
  · exact right

theorem safe_loop {body : Nat → FsM Store Unit} (safe : ∀ i, Safe slots (body i))
    (first count : Nat) : Safe slots (loop body first count) := by
  induction count generalizing first with
  | zero => exact safe_pure ()
  | succ count ih => exact (safe first).then fun _ => ih (first + 1)

theorem safe_get : Safe slots (get : FsM Store (State Store)) :=
  fun _ s sound _ => ⟨sound, Onward.refl s, fun _ none => absurd none id⟩

/-- The inode of a slot of the root device. -/
theorem inode_then {k : Slot} (given : slots k) {next : Inode → FsM Store β}
    {gives : β → Slot → Prop}
    (rest : ∀ ip : Inode, ip.dev = ROOTDEV → Finds slots (next ip) gives) :
    Finds slots (inode k >>= next) gives := by
  intro dirty s sound roots
  exact rest (s.inode k) (roots k given) dirty s sound roots

/-- A store into an inode that neither moves it nor takes a reference. -/
theorem modifyInode_safe (k : Slot) {change : Inode → Inode}
    (dev : ∀ ip, (change ip).dev = ip.dev) (ref : ∀ ip, (change ip).ref ≤ ip.ref) :
    Safe slots (modifyInode k change) := by
  intro dirty s sound _
  have same : ∀ j, ((s.setInode k (change (s.inode k))).inode j).dev = (s.inode j).dev := by
    intro j
    simp only [State.setInode, Function.update_apply]
    split
    · rename_i here
      rw [dev, here]
    · rfl
  have fewer : ∀ j, ((s.setInode k (change (s.inode k))).inode j).ref ≤ (s.inode j).ref := by
    intro j
    simp only [State.setInode, Function.update_apply]
    split
    · rename_i here
      rw [← here]
      exact ref _
    · exact Int.le_refl _
  refine ⟨⟨sound.coherent, sound.device, fun j used => ?_⟩, fun j root => ?_,
    fun _ none => absurd none id⟩
  · change ((s.setInode k (change (s.inode k))).inode j).dev = ROOTDEV
    rw [same]
    exact sound.inUse j (Int.lt_of_lt_of_le used (fewer j))
  · change ((s.setInode k (change (s.inode k))).inode j).dev = ROOTDEV
    rw [same]
    exact root

end Rules

section Blocks

variable {slots : Slot → Prop}

/-- A step of the store that keeps it coherent. -/
theorem onStore_safe {α : Type} {run : StoreM α}
    (keeps : ∀ dirty s, Coherent dirty s → s.log.dev = ROOTDEV →
      outcome run (fun _ after => Coherent dirty after ∧ after.log.dev = s.log.dev)
        (fun _ _ => True) s) :
    Safe slots (onStore run) := by
  intro dirty s sound _
  refine (outcome_zoom _ _ _ _ _ _ _).mpr ?_
  refine outcome_post (keeps dirty s.store sound.coherent sound.device) ?_
  rintro value after ⟨kept, dev⟩
  exact ⟨⟨kept, dev.trans sound.device, sound.inUse⟩, Onward.refl _, fun _ none => absurd none id⟩

theorem Coherent.ofSame {dirty : Fin NBUF → Prop} {s after : Store} (counted : 0 ≤ s.log.lh.n)
    (coheres : Coheres s.log.lists dirty after) (same : after.log = s.log) :
    Coherent dirty after := ⟨same ▸ coheres, same ▸ counted⟩

theorem bread_safe {dev : Nat} (root : dev = ROOTDEV) (blockno : Nat) :
    Safe slots (bread (W := Store) dev blockno) := by
  refine onStore_safe fun dirty s coherent device => ?_
  rw [root, ← device]
  refine outcome_post (bread_coheres coherent.coheres blockno) ?_
  rintro b after ⟨coheres, fetched⟩
  exact ⟨Coherent.ofSame coherent.counted coheres fetched.log, congrArg Log.dev fetched.log⟩

theorem brelse_safe (bp : Fin NBUF) : Safe slots (brelse (W := Store) bp) := by
  refine onStore_safe fun dirty s coherent device => ?_
  refine outcome_post (brelse_coheres coherent.coheres bp) ?_
  rintro _ after ⟨coheres, same⟩
  exact ⟨Coherent.ofSame coherent.counted coheres same, congrArg Log.dev same⟩

theorem logWrite_safe (bp : Fin NBUF) : Safe slots (logWrite (W := Store) bp) := by
  refine onStore_safe fun dirty s coherent device => ?_
  refine outcome_post (logWrite_coheres coherent bp) ?_
  rintro _ after ⟨kept, dev⟩
  exact ⟨⟨kept.coheres.weaken (fun _ listed => listed) fun _ bad => bad.1, kept.counted⟩, dev⟩

theorem data_safe (bp : Fin NBUF) : Safe slots (data (W := Store) bp) :=
  safe_get.then fun _ => safe_pure _

/-- A store into a buffer with the `log_write` that goes with it. -/
theorem logged_then (bp : Fin NBUF) (data : Block) {α : Type} {rest : FsM Store α}
    {gives : α → Slot → Prop} (next : Finds slots rest gives) :
    Finds slots (do
      setData (W := Store) bp data
      logWrite (W := Store) bp
      rest) gives := by
  have pair : Safe slots (do
      setData (W := Store) bp data
      logWrite (W := Store) bp) := by
    intro dirty s sound roots
    rw [outcome_bind, setData, onStore, outcome_zoom]
    refine outcome_post (setData_coheres sound.coherent.coheres bp data) ?_
    rintro _ after ⟨stored, same⟩
    have log : after.log = s.store.log := by
      rw [same]
      rfl
    rw [logWrite, onStore, outcome_zoom]
    refine outcome_post (logWrite_coheres
      (Coherent.ofSame sound.coherent.counted stored log) bp) ?_
    rintro _ last ⟨kept, dev⟩
    refine ⟨⟨⟨kept.coheres.weaken (fun _ listed => listed) ?_, kept.counted⟩, ?_, sound.inUse⟩,
      Onward.refl _, fun _ none => absurd none id⟩
    · rintro a ⟨bad | same, other⟩
      · exact bad
      · exact absurd same other
    · rw [dev, log]
      exact sound.device
  have whole := pair.then fun _ => next
  rwa [bind_assoc] at whole

theorem bzero_safe {dev : Nat} (root : dev = ROOTDEV) (bno : Nat) :
    Safe slots (bzero (W := Store) dev bno) :=
  (bread_safe root bno).then fun bp => logged_then bp _ (brelse_safe bp)

theorem ballocFrom_safe {dev : Nat} (root : dev = ROOTDEV) (b count : Nat) :
    Safe slots (ballocFrom (W := Store) dev b count) := by
  induction count generalizing b with
  | zero => exact safe_pure 0
  | succ count ih =>
      unfold ballocFrom
      refine safe_get.then fun s => safe_get.then fun s' => ?_
      refine (bread_safe root _).then fun bp => (data_safe bp).then fun data => ?_
      split
      · refine logged_then bp _ ((brelse_safe bp).then fun _ => ?_)
        exact (bzero_safe root _).then fun _ => safe_pure _
      · exact (brelse_safe bp).then fun _ => ih _

theorem balloc_safe {dev : Nat} (root : dev = ROOTDEV) : Safe slots (balloc (W := Store) dev) :=
  safe_get.then fun _ => ballocFrom_safe root _ _

theorem bfree_safe {dev : Nat} (root : dev = ROOTDEV) (b : Nat) :
    Safe slots (bfree (W := Store) dev b) := by
  unfold bfree
  refine safe_get.then fun s => (bread_safe root _).then fun bp => ?_
  refine (data_safe bp).then fun data => finds_ite ?_ (safe_throw _)
  exact logged_then bp _ (brelse_safe bp)

theorem iupdate_safe {k : Slot} (given : slots k) : Safe slots (iupdate (W := Store) k) := by
  unfold iupdate
  refine inode_then given fun ip root => safe_get.then fun s => ?_
  refine (bread_safe root _).then fun bp => (data_safe bp).then fun data => ?_
  exact logged_then bp _ (brelse_safe bp)

theorem bmapDirect_safe {k : Slot} (given : slots k) (bn : Nat) :
    Safe slots (bmapDirect (W := Store) k bn) := by
  unfold bmapDirect
  refine inode_then given fun ip root => finds_ite ?_ (safe_pure _)
  refine (balloc_safe root).then fun addr => finds_ite ?_ (safe_pure _)
  exact Safe.then (modifyInode_safe k (fun _ => rfl) fun _ => Int.le_refl _) fun _ => safe_pure _

theorem bmapIndirect_safe {k : Slot} (given : slots k) (bn : Nat) :
    Safe slots (bmapIndirect (W := Store) k bn) := by
  unfold bmapIndirect
  refine (bmapDirect_safe given NDIRECT).then fun addr => finds_ite (safe_pure _) ?_
  refine inode_then given fun ip root => (bread_safe root _).then fun bp => ?_
  refine (data_safe bp).then fun data => finds_ite ?_ ?_
  · refine (balloc_safe root).then fun addr => finds_ite ?_ ?_
    · refine (data_safe bp).then fun _ => logged_then bp _ ?_
      exact (brelse_safe bp).then fun _ => safe_pure _
    · exact (brelse_safe bp).then fun _ => safe_pure _
  · exact (brelse_safe bp).then fun _ => safe_pure _

theorem bmap_safe {k : Slot} (given : slots k) (bn : Nat) :
    Safe slots (bmap (W := Store) k bn) :=
  finds_ite (bmapDirect_safe given bn)
    (finds_ite (bmapIndirect_safe given _) (safe_throw _))

theorem itrunc_safe {k : Slot} (given : slots k) : Safe slots (itrunc (W := Store) k) := by
  have direct : ∀ i, Safe slots (itruncDirect (W := Store) k i) := by
    intro i
    refine inode_then given fun ip root => finds_ite ?_ (safe_pure _)
    exact (bfree_safe root _).then fun _ =>
      modifyInode_safe k (fun _ => rfl) fun _ => Int.le_refl _
  have indirect : ∀ dev bp i, dev = ROOTDEV →
      Safe slots (itruncIndirect (W := Store) dev bp i) := by
    intro dev bp i root
    exact (data_safe bp).then fun data => finds_ite (bfree_safe root _) (safe_pure _)
  have finish : Safe slots (do
      modifyInode (W := Store) k fun ip => { ip with size := 0 }
      iupdate k) :=
    Safe.then (modifyInode_safe k (fun _ => rfl) fun _ => Int.le_refl _) fun _ => iupdate_safe given
  unfold itrunc
  refine (safe_loop direct 0 _).then fun _ => inode_then given fun ip root => ?_
  refine finds_ite ?_ finish
  refine (bread_safe root _).then fun bp => ?_
  refine (safe_loop (fun i => indirect _ bp i root) 0 _).then fun _ => ?_
  refine (brelse_safe bp).then fun _ => (bfree_safe root _).then fun _ => ?_
  exact Safe.then (modifyInode_safe k (fun _ => rfl) fun _ => Int.le_refl _) fun _ => finish

theorem readiFrom_safe {k : Slot} (given : slots k) (accepts : Nat → Nat → Bool)
    (n fuel tot off : Nat) (read : List UInt8) :
    Safe slots (readiFrom (W := Store) k accepts n fuel tot off read) := by
  induction fuel generalizing tot off read with
  | zero => exact safe_pure _
  | succ fuel ih =>
      unfold readiFrom
      refine finds_ite ?_ (safe_pure _)
      refine (bmap_safe given _).then fun addr => finds_ite (safe_pure _) ?_
      refine inode_then given fun ip root => (bread_safe root _).then fun bp => ?_
      refine (data_safe bp).then fun data => (brelse_safe bp).then fun _ => ?_
      exact finds_ite (ih _ _ _) (safe_pure _)

theorem readi_safe {k : Slot} (given : slots k) (accepts : Nat → Nat → Bool) (off n : Nat) :
    Safe slots (readi (W := Store) k accepts off n) := by
  unfold readi
  refine inode_then given fun ip _ => finds_ite (safe_pure _) ?_
  exact readiFrom_safe given accepts _ _ _ _ _

/-- The copy into the first piece that fails has delivered some bytes of it. -/
def tornFrom (source : Nat → Nat → List UInt8 × Bool) (n : Nat) : Nat → Nat → Nat → Bool
  | 0, _, _ => false
  | fuel + 1, tot, off =>
      if tot < n then
        let m := min (n - tot) (BSIZE - off % BSIZE)
        let (bytes, copied) := source tot m
        if copied then tornFrom source n fuel (tot + m) (off + m) else !bytes.isEmpty
      else false

/-- A store that changes nothing makes no buffer dirty. -/
theorem unchanged_then (bp : Fin NBUF) {α : Type} {rest : FsM Store α}
    {gives : α → Slot → Prop} (next : Finds slots rest gives) :
    Finds slots (do
      let data ← data (W := Store) bp
      setData (W := Store) bp data
      rest) gives := by
  intro dirty s sound roots
  have kept := sound.coherent.coheres.setBuf bp
    { s.store.buf bp with data := (s.store.buf bp).data } rfl rfl rfl (Or.inl rfl)
    fun _ bad => bad
  exact next dirty { s with store := s.store.setBuf bp _ }
    ⟨⟨kept, sound.coherent.counted⟩, sound.device, sound.inUse⟩ roots

theorem writeiFrom_safe {k : Slot} (given : slots k)
    (source : Nat → Nat → List UInt8 × Bool) (n fuel tot off : Nat)
    (whole : tornFrom source n fuel tot off = false) :
    Safe slots (writeiFrom (W := Store) k source n fuel tot off) := by
  induction fuel generalizing tot off with
  | zero => exact safe_pure _
  | succ fuel ih =>
      unfold writeiFrom
      unfold tornFrom at whole
      by_cases more : tot < n
      · rw [if_pos more] at whole ⊢
        refine (bmap_safe given _).then fun addr => finds_ite (safe_pure _) ?_
        refine inode_then given fun ip root => (bread_safe root _).then fun bp => ?_
        dsimp only at whole ⊢
        cases copied : (source tot (min (n - tot) (BSIZE - off % BSIZE))).2 with
        | true =>
            rw [copied, if_pos rfl] at whole
            refine (data_safe bp).then fun data => ?_
            simp only [if_true]
            exact logged_then bp _ ((brelse_safe bp).then fun _ => ih _ _ whole)
        | false =>
            rw [copied, if_neg Bool.false_ne_true] at whole
            have nothing : (source tot (min (n - tot) (BSIZE - off % BSIZE))).1 = [] := by
              simpa using whole
            rw [nothing]
            exact unchanged_then bp ((brelse_safe bp).then fun _ => safe_pure _)
      · rw [if_neg more]
        exact safe_pure _

/-- `writei` goes past its checks on the offset and the length. -/
def accepts (ip : Inode) (off n : Nat) : Bool :=
  !decide (off > ip.size ∨ (off + n) % 2 ^ 32 < off) &&
    !decide ((off + n) % 2 ^ 32 > MAXFILE * BSIZE)

/-- A `writei` whose user copy fails in the middle of a block. -/
def tears (ip : Inode) (source : Nat → Nat → List UInt8 × Bool) (off n : Nat) : Bool :=
  accepts ip off n && tornFrom source n n 0 off

/-- What `writei` does once it accepts the request. -/
def writeiAccepted (k : Slot) (source : Nat → Nat → List UInt8 × Bool) (off n : Nat) : FsM Store Int := do
  let (tot, off) ← writeiFrom k source n n 0 off
  if off > (← inode k).size then modifyInode k fun ip => { ip with size := off }
  iupdate k
  return asInt tot

theorem writei_safe {k : Slot} (given : slots k) (source : Nat → Nat → List UInt8 × Bool)
    (off n : Nat) (dirty : Fin NBUF → Prop) (s : State Store) (sound : Sound dirty s)
    (roots : ∀ k, slots k → (s.inode k).dev = ROOTDEV)
    (whole : tears (s.inode k) source off n = false) :
    outcome (writei (W := Store) k source off n)
      (fun _ after => Sound dirty after ∧ Onward s after) (fun _ _ => True) s := by
  have finish : ∀ tot, Safe slots (do
      iupdate (W := Store) k
      return asInt tot) := fun tot => (iupdate_safe given).then fun _ => safe_pure _
  unfold writei
  rw [inode, bind_assoc, outcome_bind, outcome_get, pure_bind]
  dsimp only
  split
  · exact ⟨sound, Onward.refl s⟩
  rename_i inside
  split
  · exact ⟨sound, Onward.refl s⟩
  rename_i small
  have untorn : tornFrom source n n 0 off = false := by
    have accepted : accepts (s.inode k) off n = true := by
      rw [accepts, decide_eq_false inside, decide_eq_false small]
      rfl
    rwa [tears, accepted, Bool.true_and] at whole
  have safe : Safe slots (writeiAccepted k source off n) := by
    refine (writeiFrom_safe given source n n 0 off untorn).then fun ended => ?_
    refine inode_then given fun ip _ => finds_ite ?_ (finish _)
    exact Safe.then (modifyInode_safe k (fun _ => rfl) fun _ => Int.le_refl _) fun _ => finish _
  refine outcome_post (safe dirty s sound roots) ?_
  rintro _ after ⟨kept, onward, _⟩
  exact ⟨kept, onward⟩

theorem kernelSource_whole (bytes : List UInt8) (n fuel tot off : Nat) :
    tornFrom (kernelSource bytes) n fuel tot off = false := by
  induction fuel generalizing tot off with
  | zero => rfl
  | succ fuel ih =>
      unfold tornFrom
      split
      · exact ih _ _
      · rfl

theorem kernelWritei_safe {k : Slot} (given : slots k) (bytes : List UInt8) (off n : Nat) :
    Safe slots (writei (W := Store) k (kernelSource bytes) off n) := by
  intro dirty s sound roots
  have whole : tears (s.inode k) (kernelSource bytes) off n = false := by
    rw [tears, kernelSource_whole, Bool.and_false]
  refine outcome_post (writei_safe given _ off n dirty s sound roots whole) ?_
  rintro _ after ⟨kept, onward⟩
  exact ⟨kept, onward, fun _ none => absurd none id⟩

end Blocks

section Inodes

variable {slots : Slot → Prop}

/-- A slot is given to an inode of the root device. -/
theorem Sound.setInode {dirty : Fin NBUF → Prop} {s : State Store} (sound : Sound dirty s)
    (k : Slot) (ip : Inode) (root : ip.dev = ROOTDEV) :
    Sound dirty (s.setInode k ip) ∧ Onward s (s.setInode k ip) ∧
      ((s.setInode k ip).inode k).dev = ROOTDEV := by
  have here : (s.setInode k ip).inode k = ip := Function.update_self ..
  have there : ∀ j, j ≠ k → (s.setInode k ip).inode j = s.inode j :=
    fun j other => Function.update_of_ne other ..
  refine ⟨⟨sound.coherent, sound.device, fun j used => ?_⟩, fun j rooted => ?_, ?_⟩
  · by_cases same : j = k
    · rw [same, here]
      exact root
    · rw [there j same] at used ⊢
      exact sound.inUse j used
  · by_cases same : j = k
    · rw [same, here]
      exact root
    · rw [there j same]
      exact rooted
  · rw [here]
    exact root

theorem iget_finds {dev : Nat} (root : dev = ROOTDEV) (inum : Nat) :
    Finds slots (iget (W := Store) dev inum) fun got k => k = got := by
  intro dirty s sound roots
  unfold iget
  rw [outcome_bind, outcome_get]
  cases hit : s.cached dev inum with
  | some k =>
      have found := List.find?_some hit
      have there : 0 < (s.inode k).ref ∧ (s.inode k).dev = dev ∧ _ := of_decide_eq_true found
      have taken := sound.setInode k { s.inode k with ref := (s.inode k).ref + 1 }
        (there.2.1.trans root)
      exact ⟨taken.1, taken.2.1, fun j same => same ▸ taken.2.2⟩
  | none =>
      cases room : s.empty with
      | none => trivial
      | some k =>
          have taken := sound.setInode k
            { s.inode k with dev, inum, ref := 1, valid := false } root
          exact ⟨taken.1, taken.2.1, fun j same => same ▸ taken.2.2⟩

theorem idup_safe {k : Slot} (given : slots k) : Safe slots (idup (W := Store) k) := by
  intro dirty s sound roots
  have taken := sound.setInode k { s.inode k with ref := (s.inode k).ref + 1 }
    (roots k given)
  exact ⟨taken.1, taken.2.1, fun _ none => absurd none id⟩

theorem iallocFrom_safe {dev : Nat} (root : dev = ROOTDEV) (type : Int16) (inum count : Nat) :
    Safe slots (iallocFrom (W := Store) dev type inum count) := by
  induction count generalizing inum with
  | zero => exact safe_pure _
  | succ count ih =>
      unfold iallocFrom
      refine safe_get.then fun s => (bread_safe root _).then fun bp => ?_
      refine (data_safe bp).then fun data => finds_ite ?_ ?_
      · refine logged_then bp _ ((brelse_safe bp).then fun _ => ?_)
        exact (iget_finds root inum).bind fun _ => safe_pure _
      · exact (brelse_safe bp).then fun _ => ih _

theorem ialloc_safe {dev : Nat} (root : dev = ROOTDEV) (type : Int16) :
    Safe slots (ialloc (W := Store) dev type) :=
  safe_get.then fun _ => iallocFrom_safe root type _ _

theorem acquiresleep_safe {k : Slot} (given : slots k) :
    Safe slots (acquiresleep (W := Store) k) := by
  unfold acquiresleep
  refine inode_then given fun ip _ => finds_ite (safe_throw _) ?_
  exact modifyInode_safe k (fun _ => rfl) fun _ => Int.le_refl _

theorem releasesleep_safe (k : Slot) : Safe slots (releasesleep (W := Store) k) :=
  modifyInode_safe k (fun _ => rfl) fun _ => Int.le_refl _

theorem ilock_safe {k : Slot} (given : slots k) : Safe slots (ilock (W := Store) k) := by
  unfold ilock
  refine inode_then given fun ip _ => finds_ite (safe_throw _) ?_
  refine (acquiresleep_safe given).then fun _ => inode_then given fun ip root => ?_
  refine finds_ite ?_ (safe_pure _)
  refine safe_get.then fun s => (bread_safe root _).then fun bp => ?_
  refine (data_safe bp).then fun data => ?_
  refine Safe.then (modifyInode_safe k (fun _ => rfl) fun _ => Int.le_refl _) fun _ => ?_
  refine (brelse_safe bp).then fun _ => ?_
  refine Safe.then (modifyInode_safe k (fun _ => rfl) fun _ => Int.le_refl _) fun _ => ?_
  exact finds_ite (safe_throw _) (safe_pure _)

theorem iunlock_safe {k : Slot} (given : slots k) : Safe slots (iunlock (W := Store) k) := by
  unfold iunlock
  exact inode_then given fun ip _ => finds_ite (safe_throw _) (releasesleep_safe k)

theorem iput_safe {k : Slot} (given : slots k) : Safe slots (iput (W := Store) k) := by
  have drop : Safe slots (modifyInode (W := Store) k fun ip => { ip with ref := ip.ref - 1 }) :=
    modifyInode_safe k (fun _ => rfl) fun ip => by
      change ip.ref - 1 ≤ ip.ref
      omega
  unfold iput
  refine inode_then given fun ip _ => finds_ite ?_ drop
  refine (acquiresleep_safe given).then fun _ => (itrunc_safe given).then fun _ => ?_
  refine Safe.then (modifyInode_safe k (fun _ => rfl) fun _ => Int.le_refl _) fun _ => ?_
  refine (iupdate_safe given).then fun _ => ?_
  refine Safe.then (modifyInode_safe k (fun _ => rfl) fun _ => Int.le_refl _) fun _ => ?_
  exact (releasesleep_safe k).then fun _ => drop

theorem readDirent_safe {dp : Slot} (given : slots dp) (off : Nat) (panic : Stop) :
    Safe slots (readDirent (W := Store) dp off panic) := by
  unfold readDirent
  exact (readi_safe given _ _ _).then fun read => finds_ite (safe_throw _) (safe_pure _)

theorem dirlookupFrom_finds {dp : Slot} (given : slots dp) (name : Name) (fuel off : Nat) :
    Finds slots (dirlookupFrom (W := Store) dp name fuel off)
      fun got k => ∃ found, got = some found ∧ k = found.1 := by
  have none : ∀ slots : Slot → Prop, Finds slots (pure none : FsM Store (Option (Slot × Nat)))
      fun got k => ∃ found, got = some found ∧ k = found.1 := by
    intro slots dirty s sound _
    refine ⟨sound, Onward.refl s, ?_⟩
    rintro k ⟨found, bad, _⟩
    cases bad
  induction fuel generalizing off with
  | zero => exact none slots
  | succ fuel ih =>
      unfold dirlookupFrom
      refine inode_then given fun ip _ => finds_ite ?_ (none slots)
      refine (readDirent_safe given off _).then fun de => finds_ite ?_ (ih _)
      refine inode_then given fun ip root => (iget_finds root _).bind fun k => ?_
      intro dirty s sound roots
      refine ⟨sound, Onward.refl s, ?_⟩
      rintro j ⟨found, got, rfl⟩
      cases got
      exact roots _ (Or.inr rfl)

theorem dirlookup_finds {dp : Slot} (given : slots dp) (name : Name) :
    Finds slots (dirlookup (W := Store) dp name)
      fun got k => ∃ found, got = some found ∧ k = found.1 := by
  unfold dirlookup
  refine inode_then given fun ip _ => finds_ite (fun _ _ _ _ => trivial) ?_
  exact dirlookupFrom_finds given name _ _

theorem emptyFrom_safe {dp : Slot} (given : slots dp) (fuel off : Nat) :
    Safe slots (emptyFrom (W := Store) dp fuel off) := by
  induction fuel generalizing off with
  | zero => exact safe_pure _
  | succ fuel ih =>
      unfold emptyFrom
      refine inode_then given fun ip _ => finds_ite ?_ (safe_pure _)
      exact (readDirent_safe given off _).then fun de => finds_ite (safe_pure _) (ih _)

theorem dirlink_safe {dp : Slot} (given : slots dp) (name : Name) (inum : Nat) :
    Safe slots (dirlink (W := Store) dp name inum) := by
  unfold dirlink
  refine (dirlookup_finds given name).bind fun got => ?_
  cases got with
  | some found =>
      exact (iput_safe (Or.inr ⟨found, rfl, rfl⟩)).then fun _ => safe_pure _
  | none =>
      have given' : slots dp ∨ ∃ found : Slot × Nat, none = some found ∧ dp = found.1 :=
        Or.inl given
      refine inode_then given' fun ip _ => (emptyFrom_safe given' _ _).then fun off => ?_
      exact (kernelWritei_safe given' _ _ _).then fun _ => safe_pure _

end Inodes

section Boot

/-- The memory at power-on, with whatever the disk holds. -/
def powerOn (disk : Nat → Block) : State Store where
  store := binit disk
    { start := 0, size := 0, outstanding := 0, committing := false, dev := 0
      lh := { n := 0, block := fun _ => 0 } }
  sb := { magic := 0, size := 0, nblocks := 0, ninodes := 0, nlog := 0, logstart := 0
          inodestart := 0, bmapstart := 0 }
  inode _ := { type := 0, major := 0, minor := 0, nlink := 0, size := 0, addrs := fun _ => 0
               dev := 0, inum := 0, ref := 0, locked := false, valid := false }

theorem binit_coheres (disk : Nat → Block) (log : Log) :
    Coheres noBlock spotless (binit disk { log with dev := ROOTDEV }) where
  wellFormed := by
    refine ⟨fun b => ?_, ?_⟩
    · simp [binit]
    · rintro a b blockno ⟨bad, _⟩ _
      cases bad
  device b valid := by cases valid
  clean b valid := by cases valid

/-- `bread` does not look at the log. -/
theorem fetched_withLog {s after : Store} {dev blockno : Nat} {b : Fin NBUF}
    (fetched : Fetched s dev blockno b after) (log : Log) :
    Fetched { s with log } dev blockno b { after with log } := by
  cases fetched with
  | hit found unlocked => exact Fetched.hit (s := { s with log }) found unlocked
  | miss absent idle unlocked => exact Fetched.miss (s := { s with log }) absent idle unlocked

theorem release_withLog (s : Store) (b : Fin NBUF) (log : Log) :
    ({ s with log } : Store).release b = { s.release b with log } := by
  unfold Store.release
  dsimp only
  by_cases last : ((s.setBuf b
      { s.buf b with locked := false, refcnt := (s.buf b).refcnt - 1 }).buf b).refcnt = 0
  · rw [if_pos last, if_pos (by simpa [Store.setBuf] using last)]
    rfl
  · rw [if_neg last, if_neg (by simpa [Store.setBuf] using last)]
    rfl

/-- Before `initlog` has set the device of the log, the cache is coherent for it. -/
theorem readsb_coheres (disk : Nat → Block) :
    outcome (readsb (W := Store) ROOTDEV)
      (fun _ after => (∀ log : Log, log.dev = ROOTDEV →
        Coheres noBlock spotless { after.store with log }) ∧ after.inode = (powerOn disk).inode)
      (fun _ _ => True) (powerOn disk) := by
  unfold readsb
  rw [outcome_bind, bread, onStore, outcome_zoom]
  refine outcome_mono (bread_outcome ROOTDEV 1 _) ?_ fun _ _ _ => trivial
  intro b s1 fetched
  rw [outcome_bind, data, outcome_bind, outcome_get, outcome_pure, outcome_bind, brelse, onStore,
    outcome_zoom]
  refine outcome_mono (brelse_outcome b s1) ?_ fun _ _ _ => trivial
  rintro _ s2 rfl
  refine ⟨fun log root => ?_, rfl⟩
  have start : Coheres noBlock spotless { (powerOn disk).store with log } := by
    have ready := binit_coheres disk log
    rw [← root] at ready
    exact ready
  have found := fetched_withLog fetched log
  rw [← root] at found
  have read := start.fetch found
  have released := read.release b
  rwa [release_withLog] at released

theorem fsinit_sound (disk : Nat → Block) :
    outcome (fsinit ROOTDEV) (fun _ after => Sound spotless after) (fun _ _ => True)
      (powerOn disk) := by
  unfold fsinit
  refine outcome_seq (readsb_coheres disk) ?_
  rintro sb s1 ⟨coheres, inodes⟩
  rw [outcome_bind, outcome_modify]
  split
  · trivial
  rw [onStore, outcome_zoom, initlog, outcome_bind, outcome_modify]
  refine outcome_post (recoverFromLog_coheres (coheres _ ?_)) ?_
  · rfl
  rintro _ after ⟨coherent, dev⟩
  refine ⟨coherent, dev, fun k used => ?_⟩
  change 0 < (s1.inode k).ref at used
  rw [inodes] at used
  exact absurd used (by simp [powerOn])

end Boot

section Runs

/-- The calls that reach the cache. A reboot keeps nothing but the disk, which a crash may
have left in any state; `store` is a caller's store into the fields of an inode. -/
inductive Op where
  | bread (blockno : Nat)
  | brelse (b : Fin NBUF)
  | logWrite (b : Fin NBUF)
  | beginOp
  | endOp
  | commit
  | reboot (disk : Nat → Block)
  | balloc
  | bfree (b : Nat)
  | iget (inum : Nat)
  | idup (k : Slot)
  | ialloc (type : Int16)
  | ilock (k : Slot)
  | iunlock (k : Slot)
  | iupdate (k : Slot)
  | itrunc (k : Slot)
  | iput (k : Slot)
  | store (k : Slot) (fields : Dinode)
  | readi (k : Slot) (accepts : Nat → Nat → Bool) (off n : Nat)
  | writei (k : Slot) (source : Nat → Nat → List UInt8 × Bool) (off n : Nat)
  | dirlookup (dp : Slot) (name : Name)
  | dirlink (dp : Slot) (name : Name) (inum : Nat)

/-- The inode a call works on, to which its caller has a reference. -/
def Op.slot : Op → Option Slot
  | .idup k | .ilock k | .iunlock k | .iupdate k | .itrunc k | .iput k | .store k _
  | .readi k _ _ _ | .writei k _ _ _ | .dirlookup k _ | .dirlink k _ _ => some k
  | _ => none

def Op.perform : Op → FsM Store Unit
  | .bread blockno => do let _ ← Fs.bread (W := Store) ROOTDEV blockno
  | .brelse b => Fs.brelse (W := Store) b
  | .logWrite b => Fs.logWrite (W := Store) b
  | .beginOp => Fs.beginOp
  | .endOp => Fs.endOp
  | .commit => onStore PaddleOs.commit
  | .reboot disk => do
      set (powerOn disk)
      fsinit ROOTDEV
  | .balloc => do let _ ← Fs.balloc (W := Store) ROOTDEV
  | .bfree b => Fs.bfree ROOTDEV b
  | .iget inum => do let _ ← Fs.iget (W := Store) ROOTDEV inum
  | .idup k => do let _ ← Fs.idup (W := Store) k
  | .ialloc type => do let _ ← Fs.ialloc (W := Store) ROOTDEV type
  | .ilock k => Fs.ilock k
  | .iunlock k => Fs.iunlock k
  | .iupdate k => Fs.iupdate k
  | .itrunc k => Fs.itrunc k
  | .iput k => Fs.iput k
  | .store k fields => modifyInode k fun ip => { ip with toDinode := fields }
  | .readi k accepts off n => do let _ ← Fs.readi (W := Store) k accepts off n
  | .writei k source off n => do let _ ← Fs.writei (W := Store) k source off n
  | .dirlookup dp name => do let _ ← Fs.dirlookup (W := Store) dp name
  | .dirlink dp name inum => do let _ ← Fs.dirlink (W := Store) dp name inum

def step (s : State Store) (op : Op) : Option (State Store) :=
  if op.slot.all fun k => decide (0 < (s.inode k).ref) then
    match op.perform s with
    | .ok _ next => some next
    | .error _ _ => none
  else none

/-- The call is a `writei` that stops in the middle of a block. -/
def Op.tears (s : State Store) : Op → Bool
  | .writei k source off n => Fs.tears (s.inode k) source off n
  | _ => false

theorem Safe.discard {α : Type} {slots : Slot → Prop} {run : FsM Store α}
    {gives : α → Slot → Prop} (finds : Finds slots run gives) :
    Safe slots (do let _ ← run) := by
  intro dirty s sound roots
  refine outcome_seq (finds dirty s sound roots) ?_
  rintro value after ⟨kept, onward, _⟩
  exact ⟨kept, onward, fun _ none => absurd none id⟩

theorem perform_sound {s : State Store} {op : Op} (sound : Sound spotless s)
    (referenced : ∀ k, op.slot = some k → 0 < (s.inode k).ref) (whole : op.tears s = false) :
    outcome op.perform (fun _ after => Sound spotless after) (fun _ _ => True) s := by
  have roots : ∀ k, op.slot = some k → (s.inode k).dev = ROOTDEV :=
    fun k given => sound.inUse k (referenced k given)
  have plain : Safe (fun k => op.slot = some k) op.perform →
      outcome op.perform (fun _ after => Sound spotless after) (fun _ _ => True) s := by
    intro safe
    exact outcome_post (safe spotless s sound roots) fun _ after kept => kept.1
  have closing : ∀ run : StoreM Unit, (∀ s : Store, Coherent spotless s →
      outcome run (fun _ after => Coherent spotless after ∧ after.log.dev = s.log.dev)
        (fun _ _ => True) s) →
      outcome (onStore run) (fun _ after => Sound spotless after) (fun _ _ => True) s := by
    intro run keeps
    rw [onStore, outcome_zoom]
    refine outcome_post (keeps s.store sound.coherent) ?_
    rintro _ after ⟨kept, dev⟩
    exact ⟨kept, dev.trans sound.device, sound.inUse⟩
  cases op with
  | bread blockno => exact plain (Safe.discard (bread_safe rfl blockno))
  | brelse b => exact plain (brelse_safe b)
  | logWrite b => exact plain (logWrite_safe b)
  | beginOp => exact plain (onStore_safe fun _ _ coherent _ => beginOp_coheres coherent)
  | endOp => exact closing PaddleOs.endOp fun _ coherent => endOp_coheres coherent
  | commit => exact closing PaddleOs.commit fun _ coherent => commit_coheres coherent
  | reboot disk => exact fsinit_sound disk
  | balloc => exact plain (Safe.discard (balloc_safe rfl))
  | bfree b => exact plain (bfree_safe rfl b)
  | iget inum => exact plain (Safe.discard (iget_finds rfl inum))
  | idup k => exact plain (Safe.discard (idup_safe rfl))
  | ialloc type => exact plain (Safe.discard (ialloc_safe rfl type))
  | ilock k => exact plain (ilock_safe rfl)
  | iunlock k => exact plain (iunlock_safe rfl)
  | iupdate k => exact plain (iupdate_safe rfl)
  | itrunc k => exact plain (itrunc_safe rfl)
  | iput k => exact plain (iput_safe rfl)
  | store k fields =>
      have kept : Safe (fun j => (Op.store k fields).slot = some j)
          (modifyInode (W := Store) k fun ip => { ip with toDinode := fields }) :=
        modifyInode_safe k (fun _ => rfl) fun _ => Int.le_refl _
      exact plain kept
  | readi k accepts off n => exact plain (Safe.discard (readi_safe (by rfl) accepts off n))
  | writei k source off n =>
      have given : (Op.writei k source off n).slot = some k := rfl
      refine outcome_seq (writei_safe given source off n spotless s sound roots whole) ?_
      exact fun _ after kept => kept.1
  | dirlookup dp name => exact plain (Safe.discard (dirlookup_finds (by rfl) name))
  | dirlink dp name inum => exact plain (Safe.discard (dirlink_safe (by rfl) name inum))

theorem step_some {s next : State Store} {op : Op} (stepped : step s op = some next) :
    (∀ k, op.slot = some k → 0 < (s.inode k).ref) ∧ op.perform s = .ok () next := by
  unfold step at stepped
  split at stepped
  · rename_i referenced
    refine ⟨fun k given => ?_, ?_⟩
    · rw [given] at referenced
      exact of_decide_eq_true referenced
    · split at stepped
      · rename_i performed
        cases stepped
        exact performed
      · cases stepped
  · cases stepped

/-- Every valid buffer that nobody holds shows the disk unless its block waits in the log,
and a block that is not in the log reads the same from the cache and from the disk. -/
structure Mirrors (s : Store) : Prop where
  buffers : ∀ b, (s.buf b).valid = true → (s.buf b).locked = false →
    ¬ s.log.lists (s.buf b).blockno → (s.buf b).data = s.disk.now (s.buf b).blockno
  reads : ∀ blockno, ¬ s.log.lists blockno →
    outcome (PaddleOs.bread ROOTDEV blockno) (fun b after => (after.buf b).data = s.disk.now blockno)
      (fun _ _ => True) s

theorem Sound.mirrors {s : State Store} (sound : Sound spotless s) : Mirrors s.store where
  buffers b valid _ unlisted := sound.coherent.coheres.clean b valid id unlisted
  reads blockno unlisted := by
    rw [← sound.device]
    refine outcome_post (bread_coheres sound.coherent.coheres blockno) ?_
    rintro b after ⟨coheres, fetched⟩
    have shows := coheres.clean b fetched.valid id
    rw [fetched.blockno, fetched.disk] at shows
    exact shows unlisted

/-- In every run from a boot on any disk in which no `writei` stops in the middle of a block,
the cache mirrors the disk in every state reached. -/
theorem cache_mirrors_disk {disk : Nat → Block} {booted final : State Store} {ops : List Op}
    (boot : fsinit ROOTDEV (powerOn disk) = .ok () booted)
    (ran : run step booted ops = some final)
    (whole : ∀ before op after middle, ops = before ++ op :: after →
      run step booted before = some middle → op.tears middle = false) : Mirrors final.store := by
  refine Sound.mirrors (run_invariant_where step (fun s op => op.tears s = false)
    (Sound spotless) ?_ ?_ ran whole)
  · have ready := outcome_of_ok (fsinit_sound disk) boot
    exact ready
  · intro s op next sound untorn stepped
    obtain ⟨referenced, performed⟩ := step_some stepped
    have kept := outcome_of_ok (perform_sound sound referenced untorn) performed
    exact kept

def firstSlot : Slot := ⟨0, ninode_pos⟩

/-- A new file gets a block of ones in a transaction of its own. -/
def wholeWrite : List Op :=
  [.beginOp, .ialloc T_FILE, .ilock firstSlot,
    .writei firstSlot (fun _ m => (List.replicate m 1, true)) 0 BSIZE, .endOp]

/-- Memory of a process with one page, at virtual address 0. -/
def onePage : Vm.Ram where
  first := 0x80100
  trampoline := 0x80007
  freelist := []
  pte page index :=
    if index ≠ 0 then .zero
    else if page = 0x80100 then .table 0x80101
    else if page = 0x80101 then .table 0x80102
    else if page = 0x80102 then
      { ppn := 0x80103, v := true, perm := Vm.userPerm true false }
    else .zero
  byte page _ := if page = 0x80103 then 7 else 0
  faults := []

/-- The same block is written again from the last 512 bytes of that page. -/
def tornWrite : List Op :=
  wholeWrite ++ [Op.beginOp,
    Op.writei firstSlot (Kernel.userSource onePage 0x80100 (PGSIZE - 512)) 0 BSIZE]

theorem whole_write_mirrors : ∃ booted final,
    fsinit ROOTDEV (powerOn tinyDisk) = .ok () booted ∧
    run step booted wholeWrite = some final ∧ Mirrors final.store := by
  have runs : (match fsinit ROOTDEV (powerOn tinyDisk) with
      | .ok _ booted => (run step booted wholeWrite).isSome &&
          meetsAll step (fun s op => !op.tears s) booted wholeWrite
      | .error _ _ => false) = true := by decide +kernel
  split at runs
  · rename_i booted boot
    obtain ⟨ended, met⟩ := Bool.and_eq_true_iff.mp runs
    obtain ⟨final, ran⟩ := Option.isSome_iff_exists.mp ended
    refine ⟨booted, final, boot, ran, cache_mirrors_disk boot ran ?_⟩
    intro before op after middle split reached
    rw [split] at met
    simpa using meetsAll_split step _ met reached
  · cases runs

/-- The exit of `writei` for a failed copy leaves a buffer that nobody holds, whose block is
not in the log, with bytes the disk does not have. -/
theorem torn_write_diverges : ∃ booted final,
    fsinit ROOTDEV (powerOn tinyDisk) = .ok () booted ∧
    run step booted tornWrite = some final ∧ ¬ Mirrors final.store := by
  have runs : (match fsinit ROOTDEV (powerOn tinyDisk) with
      | .ok _ booted => (run step booted tornWrite).any fun s =>
          let b := s.store.buf ⟨4, by decide⟩
          b.valid && !b.locked && decide (b.data 0 ≠ s.store.disk.now b.blockno 0) &&
            (List.range s.store.log.lh.n.toNat).all fun i =>
              decide (s.store.log.lh.block i ≠ b.blockno)
      | .error _ _ => false) = true := by decide +kernel
  split at runs
  · rename_i booted boot
    obtain ⟨final, ran, test⟩ := (Option.any_eq_true _ _).mp runs
    refine ⟨booted, final, boot, ran, fun mirrors => ?_⟩
    simp only [Bool.and_eq_true, Bool.not_eq_true', decide_eq_true_eq, List.all_eq_true,
      List.mem_range] at test
    obtain ⟨⟨⟨valid, free⟩, differs⟩, unlisted⟩ := test
    refine differs (congrFun (mirrors.buffers _ valid free ?_) 0)
    rintro ⟨i, inside, there⟩
    exact unlisted i (by omega) there
  · cases runs

end Runs

end PaddleOs.Fs

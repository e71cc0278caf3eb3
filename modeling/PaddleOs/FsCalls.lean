import PaddleOs.FsOps

/-!
The system calls that work on path names. Each of them is a transaction: it takes its
handles from the inode table, changes the volume by a chain of link counts, entries and
inodes given back, and leaves the table as it was. Under `calm`, when every inode without
a link is held by somebody else, the chain is exact; without it the volume still is one in
which blocks are owned exactly and what is held by others stays.
-/

namespace PaddleOs.Fs

open Foundation.Outcome

variable {s s' : JState} {v v' : Volume} {k : Slot} {i : Nat}
variable {base : Slot → Inode} {handles : List Slot} {calm : Prop}

section Transactions

/-- The state behind `begin_op`. -/
def opened (s : JState) : JState :=
  { s with store := { s.store with logged := [], outstanding := s.store.outstanding + 1 } }

theorem Represents.store (rep : Represents clean s v) (sb : s'.sb = s.sb) (inode : s'.inode = s.inode)
    (block : s'.store.block = s.store.block) : Represents clean s' v := by
  obtain ⟨store, sb', table⟩ := s'
  obtain ⟨store₀, sb₀, table₀⟩ := s
  cases sb
  cases inode
  refine ⟨rep.sb, rep.sane, rep.metadata, ?_, ?_, rep.counts, rep.root, rep.numbered, rep.unique, rep.copy,
    rep.allocated, ?_, rep.fits⟩
  · intro b below
    rw [block]
    exact rep.bitmap b below
  · intro b above below
    rw [block]
    exact rep.block b above below
  · intro i inside unheld
    unfold diskNode
    rw [block]
    exact rep.synced i inside unheld

theorem Good.store (good : Good s v) (sb : s'.sb = s.sb) (inode : s'.inode = s.inode)
    (block : s'.store.block = s.store.block) : Good s' v :=
  ⟨good.rep.store sb inode block, good.owned, good.neat⟩

theorem Over.table (atop : Over base handles s) (inode : s'.inode = s.inode) : Over base handles s' := by
  refine atop.same (fun k => ?_) (fun k _ => ?_) fun k _ valid => ?_
  · rw [inode]
  · rw [inode]
  · rw [inode]
    exact valid

/-- A call is done: what others hold is as it was, and at most `n` blocks besides those of
the bitmap were logged. -/
structure Ended (base : Slot → Inode) (handles : List Slot) (n : Nat) (calm : Prop) (s : JState) (v : Volume)
    (s' : JState) (v' : Volume) : Prop where
  good : Good s' v'
  evolves : v.Evolves (Held base) v'
  atop : Over base handles s'
  spends : calm → ∃ blocks, blocks.length ≤ n ∧ Spends v.sb blocks s s'

variable {n : Nat}

theorem Ended.after {s₁ : JState} {v₁ : Volume} (ended : Ended base handles n calm s₁ v₁ s' v')
    (spares : Spares base calm s s₁ v v₁) : Ended base handles n calm s v s' v' := by
  refine ⟨ended.good, spares.evolves.trans ended.evolves, ended.atop, fun is => ?_⟩
  obtain ⟨blocks, short, spends⟩ := ended.spends is
  rw [(spares.quiet is).1] at spends
  exact ⟨blocks, short, (spares.spends is).trans spends⟩

theorem Ended.of_spares (spares : Spares base calm s s' v v') (good : Good s' v')
    (atop : Over base handles s') : Ended base handles n calm s v s' v' :=
  ⟨good, spares.evolves, atop, fun is => ⟨[], Nat.zero_le _, spares.spends is⟩⟩

theorem beginOp_step {α : Type} {next : FsM Journal α} {post : α → JState → Prop}
    {fail : Stop → JState → Prop} (rest : outcome next post fail (opened s)) :
    outcome (do
      beginOp
      next) post fail s := rest

/-- The end of a call whose last step is `end_op`. -/
theorem endOp_step {α : Type} {value : α} {post : α → JState → Prop} {fail : Stop → JState → Prop}
    {s₀ : JState} (ended : Ended base handles n calm s₀ v s v')
    (rest : ∀ s', Ended base handles n calm s₀ v s' v' → s'.inode = s.inode → post value s') :
    outcome (do
      endOp
      return value) post fail s := by
  refine rest { s with store := { s.store with outstanding := s.store.outstanding - 1 } } ?_ rfl
  exact ⟨ended.good.store rfl rfl rfl, ended.evolves, ended.atop.table rfl, ended.spends⟩

end Transactions

section Walks

/-- The inode a path names. -/
def findIn (v : Volume) (start : Nat) (path : Path) : Option Nat :=
  (v.resolve false (path.length + 1) start path []).map Prod.fst

/-- The directory a path ends in, and the last name of the path. -/
def parentIn (v : Volume) (start : Nat) (path : Path) : Option (Nat × Name) :=
  v.resolve true (path.length + 1) start path []

theorem namei_spec (cwd : Slot) (path : Path) (good : Good s v) (atop : Over base handles s)
    (home : 0 < (base cwd).ref) (anchored : calm → Anchored base v) :
    outcome (namei cwd path) (fun r s' => ∃ v', Good s' v' ∧ Spares base calm s s' v v' ∧ match r with
      | none => Over base handles s' ∧ (calm → findIn v (startOf base cwd path) path = none)
      | some k => Over base (k :: handles) s' ∧ ∃ l, At s' k l ∧
          (calm → findIn v (startOf base cwd path) path = some l ∧ v.Reach (Held base) l))
      (WalkFault calm (Held base) v) s := by
  unfold namei findIn
  refine outcome_seq (namex_spec false cwd path good atop (fun _ => home) anchored) ?_
  rintro answer s₁ ⟨v₁, good₁, spares, arrived⟩
  rw [outcome_pure]
  refine ⟨v₁, good₁, spares, ?_⟩
  cases answer with
  | none =>
      refine ⟨arrived.1, fun is => ?_⟩
      rw [arrived.2 is]
      rfl
  | some found =>
      obtain ⟨atop₁, l, here, -, reached⟩ := arrived
      refine ⟨atop₁, l, here, fun is => ?_⟩
      rw [(reached is).1]
      exact ⟨rfl, (reached is).2⟩

/-- The inode a walk came to is locked. -/
theorem lockFound_spec {v₀ : Volume} (good : Good s v) (atop : Over base handles s) (here : At s k i)
    (reached : calm → v = v₀ ∧ v₀.Reach (Held base) i) :
    outcome (ilock k) (fun _ s' => Good s' v ∧ Keeps base handles s s' ∧ Loaded s' k i ∧
      s'.store = s.store) (WalkFault calm (Held base) v₀) s := by
  refine outcome_mono (lock_spec good atop here) (fun _ _ => id) ?_
  rintro stop _ ⟨free, link, untyped⟩
  refine ⟨free, link, fun is stopped => ⟨i, (reached is).2, ?_⟩⟩
  rw [← (reached is).1]
  exact untyped stopped

/-- What the table held stays loaded. -/
theorem Over.loaded (atop : Over s.inode handles s') (loaded : Loaded s k i) : Loaded s' k i := by
  refine ⟨?_, atop.valid k loaded.1 loaded.2.1, (atop.inum k loaded.1).trans loaded.2.2⟩
  have ref := atop.ref k
  have used := loaded.1
  omega

/-- What others hold is held as well when the call holds something of its own. -/
theorem Over.held (atop : Over base handles s) (held : Held base i) : Held s.inode i := by
  obtain ⟨k, used, at_⟩ := held
  refine ⟨k, ?_, (atop.inum k used).trans at_⟩
  have ref := atop.ref k
  omega

theorem Over.held_inv (atop : Over base handles s) (held : Held s.inode i) :
    Held base i ∨ ∃ k ∈ handles, (s.inode k).inum = i := by
  obtain ⟨k, used, at_⟩ := held
  have ref := atop.ref k
  by_cases mine : k ∈ handles
  · exact .inr ⟨k, mine, at_⟩
  · rw [List.count_eq_zero_of_not_mem mine] at ref
    have used' : 0 < (base k).ref := by omega
    exact .inl ⟨k, used', (atop.inum k used').symm.trans at_⟩

theorem startOf_over (atop : Over base handles s) {cwd : Slot} (home : 0 < (base cwd).ref) (path : Path) :
    startOf s.inode cwd path = startOf base cwd path := by
  unfold startOf
  rw [atop.inum cwd home]

theorem reach_refield {d : Dinode} {held more : Nat → Prop} {l : Nat} (refield : Volume.Refield i d v)
    (within : ∀ j, more j → v.Reach held j) (reach : (v.setNode i d).Reach more l) : v.Reach held l := by
  induction reach with
  | root => exact .root
  | held is => exact within _ is
  | entry _ dir below named ih =>
      rw [refield.entry] at named ⊢
      rw [refield.slots] at below
      exact .entry ih (refield.isDir.mp dir) below named

theorem WalkFault.refield {d : Dinode} {held more : Nat → Prop} {stop : Stop}
    (fault : WalkFault calm more (v.setNode i d) stop s) (refield : Volume.Refield i d v)
    (within : calm → ∀ j, more j → v.Reach held j) : WalkFault calm held v stop s := by
  refine ⟨fault.1, fault.2.1, fun is stopped => ?_⟩
  obtain ⟨l, reach, untyped⟩ := fault.2.2 is stopped
  refine ⟨l, reach_refield refield (within is) reach, ?_⟩
  by_cases same : l = i
  · subst same
    rw [← refield.type]
    simpa [Volume.setNode] using untyped
  · simpa [Volume.setNode, same] using untyped

/-- A new link count of an inode that the call holds. -/
theorem Anchored.relink (anchored : Anchored base v) (atop : Over base handles s) (held : Held s.inode i)
    (nlink : Int16) : Anchored s.inode (relink v i nlink) := by
  intro j live zero
  by_cases same : j = i
  · subst same
    exact held
  · refine atop.held (anchored j ?_ ?_)
    · simpa [Volume.Live, Fs.relink, Volume.setNode, same] using live
    · simpa [Fs.relink, Volume.setNode, same] using zero

theorem unlock_spec (good : Good s v) (atop : Over base handles s) (used : 0 < (s.inode k).ref) :
    outcome (iunlock k) (fun _ s' => Good s' v ∧ Keeps base handles s s' ∧ s'.store = s.store)
      Permitted s := by
  refine outcome_post (iunlock_spec good.rep used) ?_
  rintro _ s' ⟨rep', rfl⟩
  exact ⟨⟨rep', good.owned, good.neat⟩, keeps_update atop rfl rfl rfl rfl, rfl⟩

end Walks

section Linking

variable {dp ip : Slot} {d : Nat} {name : Name}

/-- The exit `bad:` takes the link back. -/
theorem linkBad_spec (good : Good s v) (atop : Over base [ip] s) (own : Loaded s ip i) :
    outcome (linkBad ip) (fun r s' => r = false ∧ ∃ v', Good s' v' ∧ Over base [] s' ∧
      Dropped (Held base) i (relink v i ((v.node i).nlink - 1)) v' ∧ LogsNode v i s s') Permitted s := by
  unfold linkBad
  refine outcome_seq (lock_typed good atop own.at_ (own.live good.rep).2) ?_
  rintro _ s₁ ⟨good₁, keeps₁, own₁, store₁⟩
  rw [← bind_assoc]
  refine outcome_seq (edit_spec good₁ keeps₁.atop own₁ (fun d => { d with nlink := d.nlink - 1 })
    (relink_refield v i _)) ?_
  rintro _ s₂ ⟨good₂, keeps₂, logs₂⟩
  refine outcome_seq (drop_spec good₂ keeps₂.atop (keeps₂.loaded ip i own₁) List.not_mem_nil) ?_
  rintro _ s₃ ⟨v₃, good₃, atop₃, -, dropped, logs₃⟩
  refine ⟨rfl, v₃, good₃.store rfl rfl rfl, atop₃.table rfl, dropped, ?_⟩
  exact (logsOnly_store store₁).trans (LogsOnly.trans logs₂ logs₃)

/-- `sys_link` from the entry in the directory on. -/
inductive Links (held : Nat → Prop) (name : Name) (d i : Nat) (v : Volume) : Bool → Volume → Prop where
  | linked {v₁ v₂ v' : Volume} : Link d name i v true v₁ → Dropped held d v₁ v₂ → Dropped held i v₂ v' →
      Links held name d i v true v'
  | failed {v₁ v₂ v' : Volume} : Link d name i v false v₁ → Dropped held d v₁ v₂ →
      Dropped held i (relink v₂ i ((v₂.node i).nlink - 1)) v' → Links held name d i v false v'

theorem linkEntry_spec (good : Good s v) (atop : Over base [dp, ip] s) (parent : Loaded s dp d)
    (own : Loaded s ip i) (dir : v.IsDir d) (plain : (v.node i).type ≠ T_DIR) :
    outcome (do
      ilock dp
      if (← inode dp).dev ≠ (← inode ip).dev then
        iunlockput dp
        return ← linkBad ip
      if !(← dirlink dp name (← inode ip).inum) then
        iunlockput dp
        return ← linkBad ip
      iunlockput dp
      iput ip
      endOp
      return true) (fun r s' => ∃ v', Links (Held base) name d i v r v' ∧ Good s' v' ∧ Over base [] s' ∧
        v.Evolves (Held base) v' ∧ ∃ blocks, blocks.length ≤ 4 ∧ v.sb.IBLOCK i ∈ blocks ∧
          Spends v.sb blocks s s') Permitted s := by
  have apart : dp ≠ ip := by
    rintro rfl
    exact plain (own.2.2.symm.trans parent.2.2 ▸ dir.2)
  refine outcome_seq (lock_typed good atop parent.at_ dir.1.2) ?_
  rintro _ s₁ ⟨good₁, keeps₁, parent₁, store₁⟩
  have own₁ := keeps₁.loaded ip i own
  rw [outcome_bind]
  refine inode_step ?_
  rw [outcome_bind]
  refine inode_step ?_
  rw [good₁.rep.root dp parent₁.1, good₁.rep.root ip own₁.1, if_neg (fun differ => differ rfl), outcome_bind]
  refine inode_step ?_
  rw [own₁.2.2]
  refine outcome_seq (link_spec good₁ keeps₁.atop parent₁ (own₁.at_.inside good₁.rep)) ?_
  rintro r s₂ ⟨-, v₂, link, good₂, keeps₂, logs₂⟩
  have parent₂ := keeps₂.loaded dp d parent₁
  have own₂ := keeps₂.loaded ip i own₁
  have out : dp ∉ [ip] := by simpa using apart
  have evolves₂ : v.Evolves (Held base) v₂ := link.evolves good.owned
  let blocks := v.sb.IBLOCK i :: entryList v₂ d (v.vacant d)
  have spends₂ : Spends v.sb blocks s s₂ :=
    (Spends.of_store store₁).trans (entryBlocks_spends logs₂ link.sb fun b => List.mem_cons_of_mem _)
  have theirs : v.sb.IBLOCK d ∈ blocks := by
    refine List.mem_cons_of_mem _ ?_
    rw [← link.sb]
    exact List.mem_cons_self
  cases r with
  | false =>
      refine outcome_seq (drop_spec good₂ keeps₂.atop parent₂ out) ?_
      rintro _ s₃ ⟨v₃, good₃, atop₃, others₃, dropped₃, logs₃⟩
      have evolves₃ := evolves₂.trans dropped₃.evolves
      refine outcome_post (linkBad_spec good₃ atop₃ (own₂.others apart.symm others₃)) ?_
      rintro _ s₄ ⟨rfl, v₄, good₄, atop₄, dropped₄, logs₄⟩
      refine ⟨v₄, .failed link dropped₃ dropped₄, good₄, atop₄,
        evolves₃.trans ((relink_refield v₃ i _).evolves.trans dropped₄.evolves), blocks, by simp [blocks, entryList],
        List.mem_cons_self, spends₂.trans (.trans (logs₃.spends evolves₂.sb theirs) ?_)⟩
      exact logs₄.spends evolves₃.sb List.mem_cons_self
  | true =>
      refine outcome_seq (drop_spec good₂ keeps₂.atop parent₂ out) ?_
      rintro _ s₃ ⟨v₃, good₃, atop₃, others₃, dropped₃, logs₃⟩
      have evolves₃ := evolves₂.trans dropped₃.evolves
      refine outcome_seq (put_spec good₃ atop₃ (own₂.others apart.symm others₃) List.not_mem_nil) ?_
      rintro _ s₄ ⟨v₄, good₄, atop₄, -, dropped₄, logs₄⟩
      refine ⟨v₄, .linked link dropped₃ dropped₄, good₄.store rfl rfl rfl, atop₄.table rfl,
        evolves₃.trans dropped₄.evolves, blocks, by simp [blocks, entryList], List.mem_cons_self,
        spends₂.trans (.trans (logs₃.spends evolves₂.sb theirs) ?_)⟩
      exact logs₄.spends evolves₃.sb List.mem_cons_self

/-- The way `sys_link` ends once the link count is raised. -/
inductive LinkRest (held near : Nat → Prop) (start : Nat) (new : Path) (i : Nat) (v : Volume) :
    Bool → Volume → Prop where
  | noParent {v' : Volume} : parentIn v start new = none →
      Dropped held i (relink v i ((v.node i).nlink - 1)) v' → LinkRest held near start new i v false v'
  | inside {d : Nat} {name : Name} {r : Bool} {v' : Volume} : parentIn v start new = some (d, name) →
      near d → Links held name d i v r v' → LinkRest held near start new i v r v'

theorem LinkRest.mono {held near more : Nat → Prop} {start : Nat} {new : Path} {r : Bool}
    (rest : LinkRest held near start new i v r v') (wider : ∀ d, near d → more d) :
    LinkRest held more start new i v r v' := by
  cases rest with
  | noParent missing dropped => exact .noParent missing dropped
  | inside found at_ links => exact .inside found (wider _ at_) links

theorem linkRest_spec {cwd : Slot} {new : Path} (good : Good s v) (atop : Over base [ip] s)
    (own : Loaded s ip i) (plain : (v.node i).type ≠ T_DIR) (home : 0 < (base cwd).ref)
    (anchored : calm → Anchored s.inode v) :
    outcome (do
      match ← nameiparent cwd new with
      | none => linkBad ip
      | some (dp, name) =>
          ilock dp
          if (← inode dp).dev ≠ (← inode ip).dev then
            iunlockput dp
            return ← linkBad ip
          if !(← dirlink dp name (← inode ip).inum) then
            iunlockput dp
            return ← linkBad ip
          iunlockput dp
          iput ip
          endOp
          return true) (fun r s' => ∃ v', Good s' v' ∧ Over base [] s' ∧ v.Evolves (Held base) v' ∧
        (calm → LinkRest (Held base) (v.Reach (Held s.inode)) (startOf base cwd new) new i v r v' ∧
          ∃ blocks, blocks.length ≤ 4 ∧ v.sb.IBLOCK i ∈ blocks ∧ Spends v.sb blocks s s'))
      (WalkFault calm (Held s.inode) v) s := by
  have used : 0 < (s.inode cwd).ref := by
    have ref := atop.ref cwd
    omega
  rw [← startOf_over atop home new]
  unfold nameiparent
  refine outcome_seq (namex_spec true cwd new good (Over.refl good.rep) (fun _ => used) anchored) ?_
  rintro answer s₁ ⟨v₁, good₁, spares₁, arrived⟩
  have evolves₁ : v.Evolves (Held base) v₁ := Volume.Evolves.mono spares₁.evolves fun _ => atop.held
  cases answer with
  | none =>
      obtain ⟨atop₁, gone⟩ := arrived
      refine permitted_walk (outcome_post (linkBad_spec good₁ (atop.trans atop₁) (atop₁.loaded own)) ?_)
      rintro _ s₂ ⟨rfl, v₂, good₂, atop₂, dropped, logs⟩
      refine ⟨v₂, good₂, atop₂, evolves₁.trans ((relink_refield v₁ i _).evolves.trans dropped.evolves),
        fun is => ?_⟩
      have same := (spares₁.quiet is).1
      subst same
      exact ⟨.noParent (gone is) dropped, [_], by simp, List.mem_cons_self,
        (spares₁.spends is).trans (logs.spends rfl List.mem_cons_self)⟩
  | some found =>
      obtain ⟨dp, name⟩ := found
      obtain ⟨atop₁, d, here₁, parent, reached⟩ := arrived
      obtain ⟨parent₁, dir⟩ := parent rfl
      have kept := (spares₁.evolves.kept i ⟨ip, own.1, own.2.2⟩ (own.live good.rep)).2
      refine permitted_walk (outcome_post (linkEntry_spec good₁ (atop.trans atop₁) parent₁ (atop₁.loaded own)
        dir (by rwa [kept])) ?_)
      rintro r s₂ ⟨v₂, links, good₂, atop₂, evolves₂, blocks, short, mine, spends⟩
      refine ⟨v₂, good₂, atop₂, evolves₁.trans evolves₂, fun is => ?_⟩
      have same := (spares₁.quiet is).1
      subst same
      exact ⟨.inside (reached is).1 (reached is).2 links, blocks, short, mine, (spares₁.spends is).trans spends⟩

/-- What `sys_link` does to a volume. -/
inductive LinksAt (held : Nat → Prop) (start start' : Nat) (old new : Path) (v : Volume) :
    Bool → Volume → Prop where
  | noOld : findIn v start old = none → LinksAt held start start' old new v false v
  | isDir {i : Nat} : findIn v start old = some i → (v.node i).type = T_DIR →
      LinksAt held start start' old new v false v
  | raised {i : Nat} {r : Bool} {v' : Volume} : findIn v start old = some i → v.Reach held i →
      v.Live i → (v.node i).type ≠ T_DIR →
      LinkRest held (v.Reach held) start' new i (relink v i ((v.node i).nlink + 1)) r v' →
      LinksAt held start start' old new v r v'

theorem sysLink_spec (cwd : Slot) (old new : Path) (good : Good s v) (atop : Over base [] s)
    (home : 0 < (base cwd).ref) (anchored : calm → Anchored base v) :
    outcome (sysLink cwd (some old) (some new)) (fun r s' => ∃ v', Ended base [] 4 calm (opened s) v s' v' ∧
      (calm → LinksAt (Held base) (startOf base cwd old) (startOf base cwd new) old new v r v'))
      (WalkFault calm (Held base) v) s := by
  unfold sysLink
  refine beginOp_step ?_
  have good₀ : Good (opened s) v := good.store rfl rfl rfl
  refine outcome_seq (namei_spec cwd old good₀ (atop.table rfl) home anchored) ?_
  rintro answer s₁ ⟨v₁, good₁, spares₁, arrived⟩
  cases answer with
  | none =>
      refine endOp_step (n := 4) (Ended.of_spares spares₁ good₁ arrived.1) ?_
      rintro s' ended -
      refine ⟨v₁, ended, fun is => ?_⟩
      rw [(spares₁.quiet is).1]
      exact .noOld (arrived.2 is)
  | some ip =>
      obtain ⟨atop₁, i, here₁, reached⟩ := arrived
      have anchored₁ : calm → Anchored base v₁ := fun is => by
        rw [(spares₁.quiet is).1]
        exact anchored is
      refine outcome_seq (lockFound_spec good₁ atop₁ here₁
        fun is => ⟨(spares₁.quiet is).1, (reached is).2⟩) ?_
      rintro _ s₂ ⟨good₂, keeps₂, own₂, store₂⟩
      have spares₂ : Spares base calm (opened s) s₂ v v₁ := spares₁.trans (Spares.of_store store₂)
      rw [outcome_bind]
      refine inode_step ?_
      rw [good₂.rep.copy ip i own₂]
      by_cases dir : (v₁.node i).type = T_DIR
      · rw [if_pos dir]
        refine outcome_seq (permitted_walk (iunlockput_spec good₂ keeps₂.atop own₂.at_ anchored₁)) ?_
        rintro _ s₃ ⟨v₃, good₃, atop₃, -, -, spares₃⟩
        have spares := spares₂.trans spares₃
        refine endOp_step (n := 4) (Ended.of_spares spares good₃ atop₃) ?_
        rintro s' ended -
        refine ⟨v₃, ended, fun is => ?_⟩
        rw [(spares.quiet is).1]
        rw [(spares₂.quiet is).1] at dir
        exact .isDir (reached is).1 dir
      · rw [if_neg dir, ← bind_assoc]
        refine outcome_seq (permitted_walk (edit_spec good₂ keeps₂.atop own₂
          (fun d => { d with nlink := d.nlink + 1 }) (relink_refield v₁ i _))) ?_
        rintro _ s₃ ⟨good₃, keeps₃, logs₃⟩
        have own₃ := keeps₃.loaded ip i own₂
        refine outcome_seq (permitted_walk (unlock_spec good₃ keeps₃.atop own₃.1)) ?_
        rintro _ s₄ ⟨good₄, keeps₄, store₄⟩
        have own₄ := keeps₄.loaded ip i own₃
        have within : calm → ∀ j, Held s₄.inode j → v₁.Reach (Held base) j := by
          intro is j held
          rcases keeps₄.atop.held_inv held with theirs | ⟨k, mine, at_⟩
          · exact .held theirs
          · rw [List.mem_singleton.mp mine, own₄.2.2] at at_
            rw [← at_, (spares₁.quiet is).1]
            exact (reached is).2
        have refield := relink_refield v₁ i ((v₁.node i).nlink + 1)
        have plain : ((relink v₁ i ((v₁.node i).nlink + 1)).node i).type ≠ T_DIR := by
          simpa [relink, Volume.setNode] using dir
        have anchored₄ : calm → Anchored s₄.inode (relink v₁ i ((v₁.node i).nlink + 1)) := fun is =>
          (anchored₁ is).relink keeps₄.atop ⟨ip, own₄.1, own₄.2.2⟩ _
        refine outcome_mono (linkRest_spec good₄ keeps₄.atop own₄ plain home anchored₄) ?_ ?_
        · rintro r s₅ ⟨v₅, good₅, atop₅, evolves₅, rest⟩
          refine ⟨v₅, ⟨good₅, spares₁.evolves.trans (refield.evolves.trans evolves₅), atop₅, fun is => ?_⟩,
            fun is => ?_⟩
          · obtain ⟨-, blocks, short, mine, spends⟩ := rest is
            have same := (spares₁.quiet is).1
            subst same
            refine ⟨blocks, short, (spares₂.spends is).trans (.trans (logs₃.spends rfl mine) ?_)⟩
            exact (Spends.of_store store₄).trans spends
          · have same := (spares₁.quiet is).1
            subst same
            exact .raised (reached is).1 (reached is).2 (own₂.live good₂.rep) dir
              ((rest is).1.mono fun d => reach_refield refield (within is))
        · rintro stop _ fault
          exact (fault.refield refield within).congr fun is => (spares₁.quiet is).1

end Linking

section Unlinking

variable {dp ip : Slot} {d l : Nat} {name : Name}

/-- The entry `sys_unlink` writes. -/
def noEntry : Dirent := getDirent (List.replicate DIRENT 0)

/-- A directory has no entries behind its first two. -/
def IsEmpty (v : Volume) (i : Nat) : Prop := ∀ l, 2 ≤ l → l < v.slots i → (v.entry i l).inum = 0

/-- `sys_unlink` takes the entry `l` of directory `d`, which names inode `i`, away. -/
def Unlinks (held : Nat → Prop) (d l i : Nat) (v v' : Volume) : Prop :=
  ∃ v₁ v₂, Volume.Patched d l noEntry v v₁ ∧
    Dropped held d (if (v.node i).type = T_DIR then relink v₁ d ((v₁.node d).nlink - 1) else v₁) v₂ ∧
    Dropped held i (relink v₂ i ((v₂.node i).nlink - 1)) v'

theorem unlinkWrite_spec (good : Good s v) (atop : Over base [dp, ip] s) (parent : Loaded s dp d)
    (own : Loaded s ip i) (apart : dp ≠ ip) (dir : v.IsDir d) (below : l < v.slots d) :
    outcome (do
      let r ← writei dp (kernelSource (List.replicate DIRENT 0)) (DIRENT * l) DIRENT
      if r ≠ (DIRENT : Int) then throw .unlinkWritei
      if (← inode ip).type = T_DIR then
        modifyInode dp fun dp => { dp with nlink := dp.nlink - 1 }
        iupdate dp
      iunlockput dp
      modifyInode ip fun ip => { ip with nlink := ip.nlink - 1 }
      iupdate ip
      iunlockput ip
      endOp
      return true) (fun r s' => r = true ∧ ∃ v', Ended base [] 4 True s v s' v' ∧
        Unlinks (Held base) d l i v v') Permitted s := by
  have length : (List.replicate DIRENT (0 : UInt8)).length = DIRENT := List.length_replicate
  have named : noEntry.inum < v.sb.ninodes := by
    have inside := parent.at_.inside good.rep
    have zero : noEntry.inum = 0 := by decide
    omega
  refine outcome_seq (writeEntry_spec good.rep good.owned parent length (Whole.limit (good.neat.whole d dir))
    (.inl below)) ?_
  rintro r s₁ ⟨v₁, wrote, logs₁, done⟩
  rcases done with ⟨rfl, patched⟩ | ⟨short, -⟩
  · rw [if_neg (fun differ => differ rfl)]
    have good₁ : Good s₁ v₁ :=
      ⟨wrote.rep, wrote.owned, patched.neat good.owned good.neat (Nat.le_of_lt below) named⟩
    have keeps₁ : Keeps base [dp, ip] s s₁ := keeps_update atop wrote.table rfl rfl rfl
    have own₁ := keeps₁.loaded ip i own
    have evolves₁ : v.Evolves (Held base) v₁ := patched.evolves good.owned
    let blocks := v.sb.IBLOCK i :: entryList v₁ d l
    have theirs : v.sb.IBLOCK d ∈ blocks := by
      refine List.mem_cons_of_mem _ ?_
      rw [← evolves₁.sb]
      exact List.mem_cons_self
    have spends₁ : Spends v.sb blocks s s₁ :=
      entryBlocks_spends logs₁ evolves₁.sb fun b => List.mem_cons_of_mem _
    rw [outcome_bind]
    refine inode_step ?_
    rw [good₁.rep.copy ip i own₁, patched.touch.type]
    -- The directory has lost its entry: both inodes are given back.
    have finish : ∀ s₂ v₂, Good s₂ v₂ → Keeps base [dp, ip] s₁ s₂ → Spends v.sb blocks s s₂ →
        v.Evolves (Held base) v₂ →
        v₂ = (if (v.node i).type = T_DIR then relink v₁ d ((v₁.node d).nlink - 1) else v₁) →
        outcome (do
          iunlockput dp
          modifyInode ip fun ip => { ip with nlink := ip.nlink - 1 }
          iupdate ip
          iunlockput ip
          endOp
          return true) (fun r s' => r = true ∧ ∃ v', Ended base [] 4 True s v s' v' ∧
            Unlinks (Held base) d l i v v') Permitted s₂ := by
      intro s₂ v₂ good₂ keeps₂ spends₂ evolves₂ which
      have own₂ := keeps₂.loaded ip i own₁
      have parent₂ := keeps₂.loaded dp d (keeps₁.loaded dp d parent)
      refine outcome_seq (drop_spec good₂ keeps₂.atop parent₂ (by simpa using apart)) ?_
      rintro _ s₃ ⟨v₃, good₃, atop₃, others₃, dropped₃, logs₃⟩
      have own₃ := own₂.others apart.symm others₃
      have evolves₃ := evolves₂.trans dropped₃.evolves
      rw [← bind_assoc]
      refine outcome_seq (edit_spec good₃ atop₃ own₃ (fun d => { d with nlink := d.nlink - 1 })
        (relink_refield v₃ i _)) ?_
      rintro _ s₄ ⟨good₄, keeps₄, logs₄⟩
      refine outcome_seq (drop_spec good₄ keeps₄.atop (keeps₄.loaded ip i own₃) List.not_mem_nil) ?_
      rintro _ s₅ ⟨v₅, good₅, atop₅, -, dropped₅, logs₅⟩
      have mine : v.sb.IBLOCK i ∈ blocks := List.mem_cons_self
      have ended : Ended base [] 4 True s v s₅ v₅ := by
        refine ⟨good₅, evolves₃.trans ((relink_refield v₃ i _).evolves.trans dropped₅.evolves), atop₅,
          fun _ => ⟨blocks, by simp [blocks, entryList], spends₂.trans (.trans (logs₃.spends evolves₂.sb theirs)
            (.trans (logs₄.spends evolves₃.sb mine) (logs₅.spends evolves₃.sb mine)))⟩⟩
      refine endOp_step ended ?_
      rintro s' ended' -
      exact ⟨rfl, v₅, ended', v₁, v₃, patched, which ▸ dropped₃, dropped₅⟩
    by_cases isDir : (v.node i).type = T_DIR
    · rw [if_pos isDir, ← bind_assoc]
      refine outcome_seq (edit_spec good₁ keeps₁.atop (keeps₁.loaded dp d parent)
        (fun d => { d with nlink := d.nlink - 1 }) (relink_refield v₁ d _)) ?_
      rintro _ s₂ ⟨good₂, keeps₂, logs₂⟩
      refine finish s₂ _ good₂ keeps₂ (spends₁.trans (logs₂.spends evolves₁.sb theirs))
        (evolves₁.trans (relink_refield v₁ d _).evolves) ?_
      rw [if_pos isDir]
      rfl
    · rw [if_neg isDir]
      exact finish s₁ v₁ good₁ ⟨keeps₁.atop, fun _ _ => id, fun _ _ => id⟩ spends₁ evolves₁ (by rw [if_neg isDir])
  · rw [if_pos short, outcome_bind, outcome_throw]
    unfold Permitted
    decide

/-- The stops of `sys_unlink`. -/
def UnlinkFault (calm : Prop) (held : Nat → Prop) (v : Volume) (stop : Stop) (_ : JState) : Prop :=
  stop ≠ .freeingFreeBlock ∧
    (calm → stop = .ilockNoType → ∃ l, v.Reach held l ∧ (v.node l).type = 0) ∧
    (calm → stop = .unlinkNlink → ∃ d l, v.Reach held d ∧ v.IsDir d ∧ l < v.slots d ∧
      (v.entry d l).inum ≠ 0 ∧ (v.node (v.entry d l).inum).nlink < 1)

theorem permitted_unlink {α : Type} {run : FsM Journal α} {post : α → JState → Prop}
    {held : Nat → Prop} (holds : outcome run post Permitted s) :
    outcome run post (UnlinkFault calm held v) s :=
  outcome_mono holds (fun _ _ => id) fun _ _ permitted =>
    ⟨permitted.1, fun _ is => absurd is permitted.2.1, fun _ is => absurd is permitted.2.2⟩

/-- What is done about the entry `l` that `sys_unlink` found. -/
inductive Removes (held : Nat → Prop) (d l : Nat) (v : Volume) : Bool → Volume → Prop where
  | full : (v.node (v.entry d l).inum).type = T_DIR → ¬ IsEmpty v (v.entry d l).inum →
      Removes held d l v false v
  | removed {v' : Volume} : 1 ≤ (v.node (v.entry d l).inum).nlink →
      ((v.node (v.entry d l).inum).type = T_DIR → IsEmpty v (v.entry d l).inum) →
      Unlinks held d l (v.entry d l).inum v v' → Removes held d l v true v'

/-- The exit `bad:` gives the directory back. -/
theorem unlinkBad_spec {s₀ : JState} {v₀ : Volume} (good : Good s v) (atop : Over base [dp] s)
    (here : At s dp d) (anchored : calm → Anchored base v) (spares : Spares base calm s₀ s v₀ v) :
    outcome (unlinkBad dp) (fun r s' => r = false ∧ ∃ v', Ended base [] 4 calm s₀ v₀ s' v' ∧
      (calm → v' = v₀)) Permitted s := by
  unfold unlinkBad
  refine outcome_seq (iunlockput_spec good atop here anchored) ?_
  rintro _ s₁ ⟨v₁, good₁, atop₁, -, -, spares₁⟩
  refine endOp_step (n := 4) (Ended.of_spares (spares.trans spares₁) good₁ atop₁) ?_
  rintro s' ended -
  exact ⟨rfl, v₁, ended, fun is => ((spares.trans spares₁).quiet is).1⟩

theorem unlinkEntry_spec (good : Good s v) (atop : Over base [dp, ip] s) (parent : Loaded s dp d)
    (locked : (s.inode dp).locked = true) (here : At s ip (v.entry d l).inum) (dir : v.IsDir d)
    (below : l < v.slots d) (named : (v.entry d l).inum ≠ 0) (anchored : calm → Anchored base v)
    (reached : calm → v.Reach (Held base) d) :
    outcome (unlinkEntry dp ip (DIRENT * l)) (fun r s' => ∃ v', Ended base [] 4 calm s v s' v' ∧
      (calm → Removes (Held base) d l v r v')) (UnlinkFault calm (Held base) v) s := by
  unfold unlinkEntry
  refine outcome_seq (outcome_mono (ilock_spec good.rep here) (fun _ _ => id) ?_) ?_
  · rintro stop _ ⟨free, link, untyped⟩
    exact ⟨free, fun is stopped => ⟨_, .entry (reached is) dir below named, untyped stopped⟩,
      fun _ stopped => absurd stopped link⟩
  rintro _ s₁ ⟨rep₁, lock⟩
  have apart : dp ≠ ip := by
    rintro rfl
    rw [lock.free] at locked
    cases locked
  have good₁ : Good s₁ v := ⟨rep₁, good.owned, good.neat⟩
  have atop₁ : Over base [dp, ip] s₁ := atop.trans (lock.atop good.rep here)
  have own₁ := lock.loaded
  have parent₁ := lock.keeps here parent
  rw [outcome_bind]
  refine inode_step ?_
  rw [rep₁.copy ip _ own₁]
  by_cases unlinked : (v.node (v.entry d l).inum).nlink < 1
  · rw [if_pos unlinked, outcome_bind, outcome_throw]
    exact ⟨by decide, fun _ wrong => (by cases wrong), fun is _ => ⟨d, l, reached is, dir, below, named, unlinked⟩⟩
  rw [if_neg unlinked, outcome_bind]
  refine inode_step ?_
  rw [rep₁.copy ip _ own₁]
  have linked : 1 ≤ (v.node (v.entry d l).inum).nlink := by
    rwa [Int16.not_lt] at unlinked
  -- The entry may go: nothing is below it.
  have remove := unlinkWrite_spec good₁ atop₁ parent₁ own₁ apart dir below
  have finish : ((v.node (v.entry d l).inum).type = T_DIR → IsEmpty v (v.entry d l).inum) → ∀ r s',
      (r = true ∧ ∃ v', Ended base [] 4 True s₁ v s' v' ∧ Unlinks (Held base) d l (v.entry d l).inum v v') →
      ∃ v', Ended base [] 4 calm s v s' v' ∧ (calm → Removes (Held base) d l v r v') := by
    rintro empty r s' ⟨rfl, v', ended, unlinks⟩
    refine ⟨v', ⟨ended.good, ended.evolves, ended.atop, fun _ => ?_⟩, fun _ => .removed linked empty unlinks⟩
    obtain ⟨blocks, short, spends⟩ := ended.spends trivial
    exact ⟨blocks, short, (Spends.of_store lock.store).trans spends⟩
  by_cases isDir : (v.node (v.entry d l).inum).type = T_DIR
  · rw [if_pos isDir]
    refine outcome_seq (permitted_unlink (isdirempty_spec rep₁ good.owned good.neat own₁ isDir)) ?_
    rintro r s₂ ⟨rfl, empty⟩
    cases r with
    | true =>
        rw [if_neg (by decide)]
        exact permitted_unlink (outcome_post remove (finish fun _ => empty.mp rfl))
    | false =>
        rw [if_pos (by decide)]
        have swapped : Over base [ip, dp] s₂ := atop₁.congr fun k => (List.Perm.swap dp ip []).count_eq k
        refine outcome_seq (permitted_unlink (iunlockput_spec good₁ swapped own₁.at_ anchored)) ?_
        rintro _ s₃ ⟨v₃, good₃, atop₃, others₃, -, spares₃⟩
        have anchored₃ : calm → Anchored base v₃ := fun is => by
          rw [(spares₃.quiet is).1]
          exact anchored is
        refine permitted_unlink (outcome_post (unlinkBad_spec good₃ atop₃ (parent₁.others apart others₃).at_
          anchored₃ ((Spares.of_store lock.store).trans spares₃)) ?_)
        rintro _ s₄ ⟨rfl, v₄, ended, same⟩
        refine ⟨v₄, ended, fun is => ?_⟩
        rw [same is]
        refine .full isDir fun empties => ?_
        cases empty.mpr empties
  · rw [if_neg isDir]
    exact permitted_unlink (outcome_post remove (finish fun is => absurd is isDir))

/-- What `sys_unlink` does to a volume. -/
inductive UnlinksAt (held : Nat → Prop) (start : Nat) (path : Path) (v : Volume) : Bool → Volume → Prop where
  | noParent : parentIn v start path = none → UnlinksAt held start path v false v
  | dots {d : Nat} {name : Name} : parentIn v start path = some (d, name) →
      (namecmp name dot ∨ namecmp name dotdot) → UnlinksAt held start path v false v
  | missing {d : Nat} {name : Name} : parentIn v start path = some (d, name) → v.lookup d name = none →
      UnlinksAt held start path v false v
  | found {d l : Nat} {name : Name} {r : Bool} {v' : Volume} : parentIn v start path = some (d, name) →
      v.Reach held d → ¬ (namecmp name dot ∨ namecmp name dotdot) → v.lookup d name = some l →
      Removes held d l v r v' → UnlinksAt held start path v r v'

theorem WalkFault.unlink {held : Nat → Prop} {stop : Stop} (fault : WalkFault calm held v stop s) :
    UnlinkFault calm held v stop s :=
  ⟨fault.1, fault.2.2, fun _ is => absurd is fault.2.1⟩

theorem UnlinkFault.congr {held : Nat → Prop} {stop : Stop} (fault : UnlinkFault calm held v' stop s)
    (same : calm → v' = v) : UnlinkFault calm held v stop s := by
  refine ⟨fault.1, fun is => ?_, fun is => ?_⟩
  · rw [← same is]
    exact fault.2.1 is
  · rw [← same is]
    exact fault.2.2 is

theorem sysUnlink_spec (cwd : Slot) (path : Path) (good : Good s v) (atop : Over base [] s)
    (home : 0 < (base cwd).ref) (anchored : calm → Anchored base v) :
    outcome (sysUnlink cwd (some path)) (fun r s' => ∃ v', Ended base [] 4 calm (opened s) v s' v' ∧
      (calm → UnlinksAt (Held base) (startOf base cwd path) path v r v'))
      (UnlinkFault calm (Held base) v) s := by
  unfold sysUnlink nameiparent
  refine beginOp_step ?_
  have good₀ : Good (opened s) v := good.store rfl rfl rfl
  refine outcome_seq (outcome_mono (namex_spec true cwd path good₀ (atop.table rfl) (fun _ => home) anchored)
    (fun _ _ => id) fun _ _ => WalkFault.unlink) ?_
  rintro answer s₁ ⟨v₁, good₁, spares₁, arrived⟩
  cases answer with
  | none =>
      refine endOp_step (n := 4) (Ended.of_spares spares₁ good₁ arrived.1) ?_
      rintro s' ended -
      refine ⟨v₁, ended, fun is => ?_⟩
      rw [(spares₁.quiet is).1]
      exact .noParent (arrived.2 is)
  | some found =>
      obtain ⟨dp, name⟩ := found
      obtain ⟨atop₁, d, here₁, parent, reached⟩ := arrived
      obtain ⟨-, dir⟩ := parent rfl
      have anchored₁ : calm → Anchored base v₁ := fun is => by
        rw [(spares₁.quiet is).1]
        exact anchored is
      refine outcome_seq (outcome_mono (ilock_spec good₁.rep here₁) (fun _ _ => id) ?_) ?_
      · rintro stop _ ⟨free, link, untyped⟩
        exact ⟨free, fun is stopped => absurd (untyped stopped) dir.1.2, fun _ stopped => absurd stopped link⟩
      rintro _ s₂ ⟨rep₂, lock⟩
      have good₂ : Good s₂ v₁ := ⟨rep₂, good₁.owned, good₁.neat⟩
      have atop₂ : Over base [dp] s₂ := atop₁.trans (lock.atop good₁.rep here₁)
      have parent₂ := lock.loaded
      have spares₂ : Spares base calm (opened s) s₂ v v₁ := spares₁.trans (Spares.of_store lock.store)
      have bad : ∀ {s₃ : JState}, s₃ = s₂ → (calm → UnlinksAt (Held base) (startOf base cwd path) path v false v) →
          outcome (unlinkBad dp) (fun r s' => ∃ v', Ended base [] 4 calm (opened s) v s' v' ∧
            (calm → UnlinksAt (Held base) (startOf base cwd path) path v r v'))
            (UnlinkFault calm (Held base) v) s₃ := by
        rintro s₃ rfl exact
        refine permitted_unlink (outcome_post (unlinkBad_spec good₂ atop₂ parent₂.at_ anchored₁ spares₂) ?_)
        rintro _ s₄ ⟨rfl, v₄, ended, same⟩
        refine ⟨v₄, ended, fun is => ?_⟩
        rw [same is]
        exact exact is
      by_cases special : namecmp name dot ∨ namecmp name dotdot
      · rw [if_pos special]
        exact bad rfl fun is => .dots (reached is).1 special
      rw [if_neg special]
      refine outcome_seq (permitted_unlink (dirlookup_spec rep₂ good₂.owned good₂.neat parent₂)) ?_
      rintro result s₃ ⟨-, search⟩
      unfold Found at search
      split at search
      · rename_i missing
        refine bad search fun is => .missing (reached is).1 ?_
        rwa [(spares₁.quiet is).1] at missing
      · rename_i l ip off hit
        obtain ⟨rfl, rep₃, took⟩ := search
        obtain ⟨below, names, -⟩ := Volume.lookup_some.mp hit
        have atop₃ : Over base [dp, ip] s₃ :=
          (atop₂.trans (took.atop rep₂)).congr fun k => (List.Perm.swap ip dp []).count_eq k
        have locked : (s₃.inode dp).locked = true := by
          by_cases same : dp = ip
          · subst same
            rw [took.old parent₂.1]
            exact lock.locked
          · rw [took.other dp same]
            exact lock.locked
        have reached₁ : calm → v₁.Reach (Held base) d := fun is => by
          rw [(spares₁.quiet is).1]
          exact (reached is).2
        refine outcome_mono (unlinkEntry_spec ⟨rep₃, good₂.owned, good₂.neat⟩ atop₃ (took.loaded parent₂) locked
          (took.at_ rep₂) dir below names.1 anchored₁ reached₁) ?_
          fun _ _ fault => fault.congr fun is => (spares₁.quiet is).1
        rintro r s₄ ⟨v₄, ended, removes⟩
        refine ⟨v₄, ended.after (spares₂.trans (Spares.of_store took.store)), fun is => ?_⟩
        have same := (spares₁.quiet is).1
        subst same
        exact .found (reached is).1 (reached is).2 special hit (removes is)
      · exact search.elim

end Unlinking

section Making

/-- What `sys_mkdir` and `sys_mknod` do to a volume. -/
inductive MakeCalls (held : Nat → Prop) (type major minor : Int16) (start : Nat) (path : Path) (v : Volume) :
    Bool → Volume → Prop where
  | failed {v' : Volume} : MakesAt held type major minor start path v none v' →
      MakeCalls held type major minor start path v false v'
  | made {i : Nat} {v₁ v' : Volume} : MakesAt held type major minor start path v (some i) v₁ →
      Dropped held i v₁ v' → MakeCalls held type major minor start path v true v'

theorem sysMake_spec (cwd : Slot) (path : Path) (type major minor : Int16) (good : Good s v)
    (atop : Over base [] s) (home : 0 < (base cwd).ref) (typed : type ≠ 0)
    (anchored : calm → Anchored base v) :
    outcome (sysMake cwd (some path) type major minor) (fun r s' => ∃ v',
      Ended base [] 7 calm (opened s) v s' v' ∧
      (calm → MakeCalls (Held base) type major minor (startOf base cwd path) path v r v'))
      (WalkFault calm (Held base) v) s := by
  unfold sysMake
  refine beginOp_step ?_
  have good₀ : Good (opened s) v := good.store rfl rfl rfl
  refine outcome_seq (create_spec cwd path type major minor good₀ (atop.table rfl) (fun _ => home) typed
    anchored) ?_
  rintro r s₁ ⟨v₁, answer, made⟩
  have handle := made.handle
  cases r with
  | none =>
      cases answer with
      | some i => exact handle.elim
      | none =>
          have ended : Ended base [] 7 calm (opened s) v s₁ v₁ := by
            refine ⟨made.good, made.evolves, handle, fun is => ?_⟩
            obtain ⟨blocks, short, spends⟩ := made.spends is
            exact ⟨blocks, by omega, spends⟩
          refine endOp_step ended ?_
          rintro s' ended' -
          exact ⟨v₁, ended', fun is => .failed (made.exact is)⟩
  | some ip =>
      cases answer with
      | none => exact handle.elim
      | some i =>
          obtain ⟨atop₁, own₁, -⟩ := handle
          refine outcome_seq (permitted_walk (drop_spec made.good atop₁ own₁ List.not_mem_nil)) ?_
          rintro _ s₂ ⟨v₂, good₂, atop₂, -, dropped, logs₂⟩
          have ended : Ended base [] 7 calm (opened s) v s₂ v₂ := by
            refine ⟨good₂, made.evolves.trans dropped.evolves, atop₂, fun is => ?_⟩
            obtain ⟨blocks, short, spends⟩ := made.spends is
            refine ⟨v.sb.IBLOCK i :: blocks, Nat.succ_le_succ short, ?_⟩
            exact (spends.mono fun b => List.mem_cons_of_mem _).trans
              (logs₂.spends made.evolves.sb List.mem_cons_self)
          refine endOp_step ended ?_
          rintro s' ended' -
          exact ⟨v₂, ended', fun is => .made (made.exact is) dropped⟩

end Making

section Leaving

/-- A reference that others hold is lent to the call. -/
def lent (base : Slot → Inode) (k : Slot) : Slot → Inode :=
  Function.update base k { base k with ref := (base k).ref - 1 }

theorem lent_ref (base : Slot → Inode) (k j : Slot) :
    (lent base k j).ref = (base j).ref - if j = k then 1 else 0 := by
  unfold lent
  by_cases same : j = k
  · subst same
    simp
  · simp [same]

theorem lent_same (base : Slot → Inode) (k j : Slot) :
    (lent base k j).inum = (base j).inum ∧ (lent base k j).valid = (base j).valid := by
  unfold lent
  by_cases same : j = k
  · subst same
    simp
  · simp [same]

theorem Over.lend (atop : Over base handles s) (used : 0 < (base k).ref) :
    Over (lent base k) (k :: handles) s := by
  have fewer : ∀ j, 0 < (lent base k j).ref → 0 < (base j).ref := by
    intro j
    rw [lent_ref]
    split <;> omega
  refine ⟨fun j => ?_, fun j => ?_, fun j positive => ?_, fun j positive valid => ?_⟩
  · have least := atop.counts j
    rw [lent_ref]
    split
    · rename_i same
      subst same
      omega
    · omega
  · have ref := atop.ref j
    rw [lent_ref, List.count_cons]
    by_cases same : j = k
    · subst same
      simp
      omega
    · rw [if_neg same, if_neg (by simpa using Ne.symm same)]
      omega
  · rw [atop.inum j (fewer j positive), (lent_same base k j).1]
  · rw [(lent_same base k j).2] at valid
    exact atop.valid j (fewer j positive) valid

theorem held_lent (held : Held (lent base k) i) : Held base i := by
  obtain ⟨j, used, at_⟩ := held
  refine ⟨j, ?_, (lent_same base k j).1 ▸ at_⟩
  rw [lent_ref] at used
  split at used <;> omega

/-- A reference is given back; the inode goes if it was the last one. -/
theorem release_spec (good : Good s v) (atop : Over base (k :: handles) s) (here : At s k i) :
    outcome (iput k) (fun _ s' => ∃ v', Good s' v' ∧ Over base handles s' ∧ Gave s s' k ∧
      v.Evolves (Held base) v' ∧ ((Last s v k i ∧ v.Erased i v') ∨ (¬ Last s v k i ∧ v' = v)) ∧
      LogsNode v i s s') Permitted s := by
  refine outcome_post (iput_spec good.rep good.owned here) ?_
  rintro _ s' ⟨gave, ⟨kept, rep, store⟩ | ⟨last, v', rep, owned, erased, logs⟩⟩
  · exact ⟨v, ⟨rep, good.owned, good.neat⟩, gave.atop atop, gave, .refl _ _, .inr ⟨kept, rfl⟩,
      logsOnly_store store⟩
  · exact ⟨v', ⟨rep, owned, erased.neat good.neat⟩, gave.atop atop, gave,
      erased.evolves (last.unheld good atop here), .inl ⟨last, erased⟩, LogsOnly.mono logs fun b => Or.symm⟩

/-- A reference given back in a transaction of its own, as in `fileclose` and `exit`. -/
theorem putInode_spec (good : Good s v) (atop : Over base handles s) (used : 0 < (base k).ref) :
    outcome (do
      beginOp
      iput k
      endOp) (fun _ s' => ∃ v', Ended (lent base k) handles 1 True (opened s) v s' v') Permitted s := by
  have here : At s k (base k).inum := by
    refine ⟨?_, atop.inum k used⟩
    have ref := atop.ref k
    omega
  refine beginOp_step ?_
  have good₀ : Good (opened s) v := good.store rfl rfl rfl
  have atop₀ : Over base handles (opened s) := atop.table rfl
  refine outcome_seq (release_spec good₀ (atop₀.lend used) here) ?_
  rintro _ s₁ ⟨v₁, good₁, atop₁, -, evolves, -, logs⟩
  have ended : Ended (lent base k) handles 1 True (opened s) v s₁ v₁ :=
    ⟨good₁, evolves, atop₁, fun _ => ⟨[_], Nat.le_refl 1, logs.spends rfl List.mem_cons_self⟩⟩
  refine endOp_step ended ?_
  rintro s' ended' -
  exact ⟨v₁, ended'⟩

/-- The end of `sys_chdir`: the table has the new directory in place of the old one. -/
def Chdirs (base : Slot → Inode) (calm : Prop) (cwd : Slot) (path : Path) (s : JState) (v : Volume)
    (r : Option Slot) (s' : JState) (v' : Volume) : Prop :=
  match r with
  | none => Ended base [] 1 calm (opened s) v s' v' ∧ (calm → v' = v)
  | some ip => Ended (lent base cwd) [ip] 1 calm (opened s) v s' v' ∧ ∃ i, At s' ip i ∧
      (calm → findIn v (startOf base cwd path) path = some i ∧ v.Reach (Held base) i ∧
        (v.node i).type = T_DIR)

theorem sysChdir_spec (cwd : Slot) (path : Path) (good : Good s v) (atop : Over base [] s)
    (home : 0 < (base cwd).ref) (anchored : calm → Anchored base v) :
    outcome (sysChdir cwd (some path)) (fun r s' => ∃ v', Chdirs base calm cwd path s v r s' v')
      (WalkFault calm (Held base) v) s := by
  unfold sysChdir
  refine beginOp_step ?_
  have good₀ : Good (opened s) v := good.store rfl rfl rfl
  refine outcome_seq (namei_spec cwd path good₀ (atop.table rfl) home anchored) ?_
  rintro answer s₁ ⟨v₁, good₁, spares₁, arrived⟩
  cases answer with
  | none =>
      refine endOp_step (n := 1) (Ended.of_spares spares₁ good₁ arrived.1) ?_
      rintro s' ended -
      exact ⟨v₁, ended, fun is => (spares₁.quiet is).1⟩
  | some ip =>
      obtain ⟨atop₁, i, here₁, reached⟩ := arrived
      have anchored₁ : calm → Anchored base v₁ := fun is => by
        rw [(spares₁.quiet is).1]
        exact anchored is
      refine outcome_seq (lockFound_spec good₁ atop₁ here₁
        fun is => ⟨(spares₁.quiet is).1, (reached is).2⟩) ?_
      rintro _ s₂ ⟨good₂, keeps₂, own₂, store₂⟩
      have spares₂ : Spares base calm (opened s) s₂ v v₁ := spares₁.trans (Spares.of_store store₂)
      rw [outcome_bind]
      refine inode_step ?_
      rw [good₂.rep.copy ip i own₂]
      by_cases dir : (v₁.node i).type = T_DIR
      · rw [if_neg (fun differ => differ dir)]
        refine outcome_seq (permitted_walk (unlock_spec good₂ keeps₂.atop own₂.1)) ?_
        rintro _ s₃ ⟨good₃, keeps₃, store₃⟩
        have there : At s₃ cwd (base cwd).inum := by
          refine ⟨?_, keeps₃.atop.inum cwd home⟩
          have ref := keeps₃.atop.ref cwd
          omega
        refine outcome_seq (permitted_walk (release_spec good₃ (keeps₃.atop.lend home) there)) ?_
        rintro _ s₄ ⟨v₄, good₄, atop₄, gave, evolves, -, logs⟩
        have here₄ : At s₄ ip i := by
          refine ⟨atop₄.used List.mem_cons_self, ?_⟩
          have here₃ := keeps₃.at_ ip i own₂.at_
          by_cases same : ip = cwd
          · have ref := keeps₃.atop.ref cwd
            rw [same, List.count_cons_self] at ref
            rw [same] at here₃ ⊢
            rw [gave.shared (by omega)]
            exact here₃.2
          · rw [gave.other ip same]
            exact here₃.2
        have ended : Ended (lent base cwd) [ip] 1 calm (opened s) v s₄ v₄ := by
          refine ⟨good₄, (Volume.Evolves.mono spares₁.evolves fun _ => held_lent).trans evolves, atop₄,
            fun is => ⟨[v.sb.IBLOCK (base cwd).inum], Nat.le_refl 1, ?_⟩⟩
          refine (spares₂.spends is).trans (.trans (Spends.of_store store₃) ?_)
          exact logs.spends spares₁.evolves.sb List.mem_cons_self
        refine endOp_step ended ?_
        rintro s' ended' table
        refine ⟨v₄, ended', i, ?_, fun is => ⟨(reached is).1, (reached is).2, ?_⟩⟩
        · unfold At
          rw [table]
          exact here₄
        · rw [← (spares₁.quiet is).1]
          exact dir
      · rw [if_pos dir]
        refine outcome_seq (permitted_walk (iunlockput_spec good₂ keeps₂.atop own₂.at_ anchored₁)) ?_
        rintro _ s₃ ⟨v₃, good₃, atop₃, -, -, spares₃⟩
        have spares := spares₂.trans spares₃
        refine endOp_step (n := 1) (Ended.of_spares spares good₃ atop₃) ?_
        rintro s' ended -
        exact ⟨v₃, ended, fun is => (spares.quiet is).1⟩

end Leaving

end PaddleOs.Fs

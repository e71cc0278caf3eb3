import PaddleOs.Mappings
import PaddleOs.ProcPages
import PaddleOs.UserReads
import PaddleOs.Foundation.Overlay

/-!
The bytes of an address space that is under construction. Its pages come from the free list,
so whatever was in use before keeps its bytes, and giving the address space up undoes all of
it.
-/

namespace PaddleOs.Vm

open Foundation.Outcome Foundation.Overlay

variable {ram₀ ram after : Ram} {g₀ g g' : Ledger} {r k : Nat} {pte : Pte}
variable {space space' : Nat → Option Pte} {pages pages' : Nat → Prop} {image : Nat → UInt8}

/-- On these pages the user reads the bytes of `image`. -/
def Shows (ram : Ram) (space : Nat → Option Pte) (pages : Nat → Prop) (image : Nat → UInt8) : Prop :=
  ∀ k, pages k → ∃ pte, space k = some pte ∧ pte.perm.u = true ∧
    ∀ o, o < PGSIZE → ram.byte pte.ppn o = image (k * PGSIZE + o)

section Contents

theorem Shows.keeps (shows_ : Shows ram space pages image) (same : ∀ k, pages k → space' k = space k)
    (byte : ∀ k pte, pages k → space k = some pte → after.byte pte.ppn = ram.byte pte.ppn) :
    Shows after space' pages image := by
  intro k here
  obtain ⟨pte, maps, user, bytes⟩ := shows_ k here
  refine ⟨pte, by rw [same k here, maps], user, fun o inside => ?_⟩
  rw [byte k pte here maps]
  exact bytes o inside

theorem Shows.fewer (shows_ : Shows ram space pages image) (less : ∀ k, pages' k → pages k) :
    Shows ram space pages' image := fun k here => shows_ k (less k here)

theorem Shows.byteAt (shows_ : Shows ram (g.space r) pages image) (h : Agrees Strict ram g)
    (root : g.owner r = .table r []) {va : Nat} (bound : va < MAXVA) (here : pages (va / PGSIZE)) :
    ∃ pte, mapping ram r va = some pte ∧ pte.perm.u = true ∧ byteAt ram r va = some (image va) := by
  obtain ⟨pte, maps, user, bytes⟩ := shows_ _ here
  have found : mapping ram r va = some pte := (mapping_space h root bound).trans maps
  refine ⟨pte, found, user, ?_⟩
  unfold Vm.byteAt
  rw [found, Option.map_some, bytes _ (Nat.mod_lt _ (by decide)), Nat.div_add_mod']

theorem Shows.accessible (shows_ : Shows ram (g.space r) pages image) (h : Agrees Strict ram g)
    {va : Nat} (bound : va < MAXVA) (here : pages (va / PGSIZE)) :
    Accessible ram r va ∧ ∃ pte, g.space r (va / PGSIZE) = some pte ∧ target ram r va = pte.ppn := by
  obtain ⟨pte, maps, user, -⟩ := shows_ _ here
  have found := space_lookup h bound maps
  have valid := (h.inner r _ pte maps).1
  refine ⟨⟨pte, found, valid, user⟩, pte, maps, ?_⟩
  unfold target
  rw [found]
  exact if_pos ⟨valid, user⟩

end Contents

section Construction

variable {trampoline trapframe oldsz n : Nat}

/-- The address space at `r` is made of pages that were free, and the others keep their bytes. -/
structure Built (r : Nat) (g₀ : Ledger) (ram₀ : Ram) (ram : Ram) (g : Ledger) : Prop where
  start : Agrees Strict ram₀ g₀
  fresh : g₀.owner r = .free
  edited : Edited r g₀ ram g
  kept : ∀ q, g₀.owner q ≠ .free → ram.byte q = ram₀.byte q

theorem Built.owner (built : Built r g₀ ram₀ ram g) {q : Nat} (used : g₀.owner q ≠ .free) :
    g.owner q = g₀.owner q :=
  (built.edited.moves.owner q).resolve_right fun moved =>
    Kernel.no_pool built.start built.fresh used moved.1

theorem Built.step (built : Built r g₀ ram₀ ram g) (edited : Edited r g after g')
    (saved : Saved r g ram after) : Built r g₀ ram₀ after g' where
  start := built.start
  fresh := built.fresh
  edited := built.edited.trans edited
  kept q used := by
    rw [saved q ?_ fun path table => ?_]
    · exact built.kept q used
    · rw [built.owner used]
      exact used
    · rw [built.owner used] at table
      exact Kernel.no_pool built.start built.fresh used (by rw [table]; rfl)

/-- Bytes are stored into pages of the user. -/
theorem Built.store (built : Built r g₀ ram₀ ram g) (same : after = { ram with byte := after.byte })
    (others : ∀ q, (∀ k, g.owner q ≠ .user r k) → after.byte q = ram.byte q) :
    Built r g₀ ram₀ after g where
  start := built.start
  fresh := built.fresh
  edited :=
    { agrees := built.edited.agrees.congr (by rw [same]) (by rw [same]) (by rw [same]) (by rw [same])
      moves := built.edited.moves
      root := built.edited.root }
  kept q used := by
    rw [others q fun k owned => ?_]
    · exact built.kept q used
    · rw [built.owner used] at owned
      exact Kernel.no_pool built.start built.fresh used (by rw [owned]; rfl)

/-- The address space is given up. -/
theorem procFreepagetable_undoes (built : Built r g₀ ram₀ ram g) {sz : Nat}
    (shape : Shape (g.space r) trampoline trapframe (pagesOf sz)) :
    outcome (procFreepagetable r sz) (fun _ after => Undone g₀ ram₀ after) (fun _ _ => False) ram := by
  refine outcome_mono (outcome_and (procFreepagetable_spec built.edited.agrees built.edited.root shape)
    (procFreepagetable_gives r sz ram)) ?_ fun _ _ failed => failed.1
  rintro - after ⟨⟨g', agrees, gone⟩, given⟩
  obtain rfl := (built.edited.moves.gone gone).undo built.start built.fresh
  refine ⟨agrees, fun q used => ?_⟩
  rw [given.byte q fun free => used ((agrees.free q).mp free)]
  exact built.kept q used

/-- An address space of `n` user pages that hold `image`, and blanks above them. -/
structure Site (r trapframe : Nat) (g₀ : Ledger) (ram₀ : Ram) (n : Nat) (image : Nat → UInt8) (ram : Ram)
    (g : Ledger) : Prop where
  built : Built r g₀ ram₀ ram g
  shape : Shape (g.space r) g₀.trampoline trapframe n
  holds : Shows ram (g.space r) (· < n) image
  blank : ∀ a, n * PGSIZE ≤ a → image a = 0

theorem Site.few (site : Site r trapframe g₀ ram₀ n image ram g) : n ≤ 0x8000 :=
  site.built.edited.agrees.few site.shape.low site.shape.pages

/-- The pages that `uvmalloc` adds are blank. -/
theorem Site.uvmalloc (site : Site r trapframe g₀ ram₀ (pagesOf oldsz) image ram g) (newsz : Nat)
    (w x : Bool) :
    outcome (uvmalloc r oldsz newsz w x)
      (fun value after => ∃ g',
        value = 0 ∧ Site r trapframe g₀ ram₀ (pagesOf oldsz) image after g' ∨
          value = max oldsz newsz ∧ Site r trapframe g₀ ram₀ (pagesOf value) image after g')
      (fun _ _ => False) ram := by
  have agrees := site.built.edited.agrees
  refine outcome_post (uvmalloc_spec agrees site.built.edited.root site.shape w x) ?_
  rintro value after ⟨g', edited, ⟨zero, same, saved⟩ | ⟨sum, low, extended, taken, zeros⟩⟩
  · refine ⟨g', .inl ⟨zero, site.built.step edited saved, by rw [same]; exact site.shape, ?_, site.blank⟩⟩
    refine site.holds.keeps (fun k _ => by rw [same]) fun k pte below maps => ?_
    exact saved.mapped agrees (Nat.lt_of_lt_of_le below site.shape.low) maps
  · have more : pagesOf oldsz ≤ pagesOf value := by
      unfold pagesOf
      exact Nat.div_le_div_right (by omega)
    have bound : pagesOf value ≤ TRAPFRAME / PGSIZE := by
      rw [frame_page]
      omega
    refine ⟨g', .inr ⟨sum, site.built.step edited (taken.saved agrees),
      site.shape.extends extended more bound, fun k below => ?_, fun a above => ?_⟩⟩
    · by_cases old : k < pagesOf oldsz
      · obtain ⟨pte, maps, user, bytes⟩ := site.holds k old
        refine ⟨pte, by rw [extended.same k (by omega), maps], user, fun o inside => ?_⟩
        rw [taken.mapped agrees (by omega) maps]
        exact bytes o inside
      · obtain ⟨page, maps⟩ := extended.fresh k (by omega) below
        refine ⟨_, maps, rfl, fun o _ => ?_⟩
        rw [zeros k _ (by omega) below maps]
        refine (site.blank _ ?_).symm
        exact Nat.le_add_right_of_le (Nat.mul_le_mul_right _ (by omega))
    · exact site.blank a (Nat.le_trans (Nat.mul_le_mul_right _ more) above)

/-- A page is stored into from its start. -/
theorem Site.putBytes (site : Site r trapframe g₀ ram₀ n image ram g) (below : k < n)
    (maps : g.space r k = some pte) (bytes : List UInt8) :
    outcome (putBytes pte.ppn 0 bytes)
      (fun _ after =>
        Site r trapframe g₀ ram₀ n (overlay image (k * PGSIZE) (bytes.take PGSIZE)) after g)
      (fun _ _ => False) ram := by
  have agrees := site.built.edited.agrees
  have low := site.shape.low
  have owned := (agrees.target r k pte maps).2 (ordinary_of_lt (Nat.lt_of_lt_of_le below low))
  have next : (k + 1) * PGSIZE ≤ n * PGSIZE := Nat.mul_le_mul_right _ below
  have row : (bytes.take PGSIZE).length = min PGSIZE bytes.length := List.length_take
  rw [Nat.succ_mul] at next
  refine outcome_post (putBytes_spec pte.ppn bytes 0 ram) ?_
  rintro - after ⟨same, change, stored⟩
  have others : ∀ q, q ≠ pte.ppn → after.byte q = ram.byte q := by
    intro q apart
    funext o
    by_contra changed
    exact apart (change q o changed).1
  refine ⟨site.built.store same fun q free => others q fun here => free k (here ▸ owned), site.shape,
    fun m here => ?_, fun a above => ?_⟩
  · obtain ⟨pte', maps', user, shown⟩ := site.holds m here
    refine ⟨pte', maps', user, fun o inside => ?_⟩
    by_cases page : m = k
    · subst page
      obtain rfl : pte' = pte := Option.some.inj (maps'.symm.trans maps)
      by_cases inner : o < bytes.length
      · rw [overlay_at image _ (by omega), List.getElem_take, ← stored o inner, Nat.zero_add]
      · rw [overlay_above image (by omega), ← shown o inside]
        by_contra changed
        have := (change _ o changed).2.2
        omega
    · have owned' := (agrees.target r m pte' maps').2 (ordinary_of_lt (Nat.lt_of_lt_of_le here low))
      have apart : pte'.ppn ≠ pte.ppn := by
        intro one
        rw [one, owned] at owned'
        exact page (Owner.user.inj owned').2.symm
      rw [others _ apart, overlay_apart image ?_]
      · exact shown o inside
      · rcases Nat.lt_or_gt_of_ne page with before | behind
        · have : (m + 1) * PGSIZE ≤ k * PGSIZE := Nat.mul_le_mul_right _ before
          rw [Nat.succ_mul] at this
          omega
        · have : (k + 1) * PGSIZE ≤ m * PGSIZE := Nat.mul_le_mul_right _ behind
          rw [Nat.succ_mul] at this
          omega
  · rw [overlay_above image (by omega)]
    exact site.blank a above

/-- Of the two topmost pages the lower one is taken from the user: the guard below the stack. -/
theorem Site.guard (site : Site r trapframe g₀ ram₀ (n + 2) image ram g) :
    outcome (uvmclear r (n * PGSIZE))
      (fun _ after => ∃ g', Built r g₀ ram₀ after g' ∧
        Shape (g'.space r) g₀.trampoline trapframe (n + 2) ∧
        (∃ pte, g'.space r n = some pte ∧ pte.perm.u = false) ∧
        Shows after (g'.space r) (fun k => k < n ∨ k = n + 1) image)
      (fun _ _ => False) ram := by
  have low := site.shape.low
  have below : n < TRAPFRAME / PGSIZE := by omega
  obtain ⟨pte, maps⟩ := Option.isSome_iff_exists.mp (site.shape.pages n (by omega))
  refine outcome_post (uvmclear_spec site.built.edited.agrees site.built.edited.root below maps) ?_
  rintro - after ⟨bytes, -, edited⟩
  have now : ∀ k, (g.chart r n (some { pte with perm := { pte.perm with u := false } })).space r k =
      if k = n then some { pte with perm := { pte.perm with u := false } } else g.space r k := by
    intro k
    rw [chart_space]
    simp only [true_and]
  have same : ∀ k, ((g.chart r n (some { pte with perm := { pte.perm with u := false } })).space r k).isSome =
      (g.space r k).isSome := by
    intro k
    rw [now]
    split
    · rename_i here
      rw [here, maps]
      rfl
    · rfl
  refine ⟨_, site.built.step edited fun q _ _ => by rw [bytes], ?_, ⟨_, by rw [now, if_pos rfl], rfl⟩, ?_⟩
  · have code : n < TRAMPOLINE / PGSIZE := by
      rw [trampoline_page]
      rw [frame_page] at below
      omega
    exact
      { low := low
        pages := fun k inside => by rw [same]; exact site.shape.pages k inside
        frame := by rw [now, if_neg (by omega)]; exact site.shape.frame
        code := by rw [now, if_neg (by omega)]; exact site.shape.code
        only := fun k some => site.shape.only k (by rw [← same]; exact some) }
  · refine (site.holds.fewer fun k here => ?_).keeps (fun k here => ?_) fun _ _ _ _ => by rw [bytes]
    · omega
    · rw [now, if_neg (by omega)]

/-- A copy to the user only stores into pages of the user. -/
theorem copyout_builds (built : Built r g₀ ram₀ ram g) (shape : Shape (g.space r) trampoline trapframe n)
    (va : Nat) (src : List UInt8) :
    outcome (copyout r va src) (fun _ after => Built r g₀ ram₀ after g) (fun _ _ => False) ram := by
  have agrees := built.edited.agrees
  have map := userMap_of_shape agrees built.edited.root shape
  obtain ⟨ok, after, ran, same, -, -, changed⟩ := copyout_writes map va src
  unfold outcome
  rw [ran]
  refine built.store same fun q free => ?_
  funext o
  by_contra differs
  obtain ⟨i, bound, reach, page, -⟩ := changed q o differs
  obtain ⟨pte, found, valid, user⟩ := reach i (Nat.le_refl i)
  have owned := user_owned agrees built.edited.root shape found valid user
  have goal : target ram r (va + i) = pte.ppn := by
    unfold target
    rw [found]
    exact if_pos ⟨valid, user⟩
  rw [← goal, ← page] at owned
  exact free _ owned

/-- A copy to pages the user reads goes through. -/
theorem copyout_shows (built : Built r g₀ ram₀ ram g) (map : UserMap ram r)
    (shows_ : Shows ram (g.space r) pages image) (below : ∀ n, pages n → n < 0x8000) {va : Nat}
    {src : List UInt8} (inside : ∀ i < src.length, pages ((va + i) / PGSIZE)) :
    outcome (copyout r va src)
      (fun ok after => ok = true ∧ after.pte = ram.pte ∧ Built r g₀ ram₀ after g ∧
        Shows after (g.space r) pages (overlay image va src))
      (fun _ _ => False) ram := by
  have agrees := built.edited.agrees
  have reach : ∀ i < src.length, Accessible ram r (va + i) ∧
      ∃ pte, g.space r ((va + i) / PGSIZE) = some pte ∧ target ram r (va + i) = pte.ppn := fun i bound =>
    shows_.accessible agrees (user_address (below _ (inside i bound))) (inside i bound)
  obtain ⟨ok, after, ran, same, all, stored, changed⟩ := copyout_writes map va src
  have done : ok = true := all.mpr fun i bound => (reach i bound).1
  have ptes : after.pte = ram.pte := by rw [same]
  unfold outcome
  rw [ran]
  refine ⟨done, ptes, built.store same fun q free => ?_, fun n here => ?_⟩
  · funext o
    by_contra differs
    obtain ⟨i, bound, -, page, -⟩ := changed q o differs
    obtain ⟨pte, maps, goal⟩ := (reach i bound).2
    have owned := (agrees.target r _ pte maps).2 (ordinary_of_lt (user_low (below _ (inside i bound))))
    rw [← goal, ← page] at owned
    exact free _ owned
  · obtain ⟨pte, maps, user, shown⟩ := shows_ n here
    refine ⟨pte, maps, user, fun o offset => ?_⟩
    have page : (n * PGSIZE + o) / PGSIZE = n := by
      rw [Nat.mul_comm, Nat.mul_add_div (by decide), Nat.div_eq_of_lt offset, Nat.add_zero]
    have rest : (n * PGSIZE + o) % PGSIZE = o := by
      rw [Nat.mul_comm, Nat.mul_add_mod, Nat.mod_eq_of_lt offset]
    have address : n * PGSIZE + o < MAXVA := user_address (by rw [page]; exact below n here)
    obtain ⟨access, pte', maps', goal⟩ := shows_.accessible agrees address (by rw [page]; exact here)
    rw [page, maps] at maps'
    obtain rfl := Option.some.inj maps'
    by_cases written : va ≤ n * PGSIZE + o ∧ n * PGSIZE + o < va + src.length
    · obtain ⟨i, place⟩ := Nat.exists_eq_add_of_le written.1
      have bound : i < src.length := by omega
      have byte := stored i bound fun j upto => (reach j (by omega)).1
      rw [place, overlay_at image va bound, ← byte]
      unfold userByte
      rw [target_congr ptes, ← place, goal, rest]
    · rw [overlay_apart image (by omega), ← shown o offset]
      by_contra differs
      obtain ⟨i, bound, -, here', there⟩ := changed _ _ differs
      have one : n * PGSIZE + o = va + i := map.apart ((map.accessible _).mp access)
        (by rw [goal, here']) (by rw [rest, there])
      omega

end Construction

end PaddleOs.Vm

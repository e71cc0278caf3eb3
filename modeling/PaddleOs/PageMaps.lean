import PaddleOs.AddressSpace

/-!
Page tables as finite maps, for any physical pages and any flags. `mapOf` reads the map
from the memory as the hardware does. The page-table pages are reached from the roots by
their indices, and `Forest` names for each of them the one root and the one row of indices
that lead to it; it says nothing about the pages that are mapped. The words of the entries
are at the end.
-/

namespace PaddleOs.Vm

open Foundation.Outcome

/-- The root of a page-table page and the indices that lead to it, the last one first. -/
abbrev Places := Nat → Option (Nat × List Nat)

/-- The number of pages below `MAXVA`. -/
def vpnLimit : Nat := MAXVA / PGSIZE

/-- The turns of the loop in `uvmunmap`. -/
def unmapCount (va npages : Nat) : Nat := (word64 (va + npages * PGSIZE) - va) / PGSIZE

def entry (pte : Pte) : Option Pte := if pte.v then some pte else none

/-- What the page table at `r` says of page `n`. -/
def mapOf (ram : Ram) (r n : Nat) : Option Pte :=
  (entry (ram.pte r (n / 512 / 512 % 512))).bind fun top =>
    (entry (ram.pte top.ppn (n / 512 % 512))).bind fun middle => entry (ram.pte middle.ppn (n % 512))

/-- The page-table pages below the root `r`. -/
inductive Below (ram : Ram) (r : Nat) : List Nat → Nat → Prop where
  | root : Below ram r [] r
  | step {path : List Nat} {t i : Nat} : Below ram r path t → path.length < 2 → i < 512 →
      (ram.pte t i).v = true → Below ram r (i :: path) (ram.pte t i).ppn

/-- The pages that a row maps may be freed one after the other: they are in range, distinct,
not free, and no page-table pages. -/
def Freeable (roots : List Nat) (ram : Ram) (r va npages : Nat) : Prop :=
  ∀ m, va / PGSIZE ≤ m → m < va / PGSIZE + unmapCount va npages → m < vpnLimit → ∀ pte, mapOf ram r m = some pte →
    ((ram.first ≤ pte.ppn ∧ pte.ppn < stopPage) ∧ (∀ r' ∈ roots, ∀ path, ¬ Below ram r' path pte.ppn) ∧
      pte.ppn ∉ ram.freelist) ∧
    ∀ m', va / PGSIZE ≤ m' → m' < va / PGSIZE + unmapCount va npages → m' ≠ m → m' < vpnLimit →
      ∀ pte', mapOf ram r m' = some pte' → pte'.ppn ≠ pte.ppn

/-- The page-table pages form trees. An entry that is `loose` may point to a page that is
freed already. -/
structure Forest (loose : Nat → Nat → Prop) (place : Places) (ram : Ram) : Prop where
  nodup : ram.freelist.Nodup
  free : ∀ q ∈ ram.freelist, ram.first ≤ q ∧ q < stopPage ∧ place q = none
  inside : ∀ q r path, place q = some (r, path) → ram.first ≤ q ∧ q < stopPage
  root : ∀ q r, place q = some (r, []) → q = r
  up : ∀ q r i path, place q = some (r, i :: path) →
    path.length < 2 ∧ i < 512 ∧ (path = [] → i < 256) ∧ ∃ t, place t = some (r, path) ∧ ram.pte t i = .table q
  down : ∀ t r path i, place t = some (r, path) → path.length < 2 → i < 512 → (ram.pte t i).v = true →
    ¬ loose t i → ∃ q, ram.pte t i = .table q ∧ place q = some (r, i :: path)

variable {loose : Nat → Nat → Prop} {place : Places} {ram ram' : Ram} {r q t i n page : Nat} {path : List Nat}

namespace Forest

theorem unique (h : Forest loose place ram) {q' : Nat} (left : place q = some (r, path))
    (right : place q' = some (r, path)) : q = q' := by
  induction path generalizing q q' with
  | nil => rw [h.root q r left, h.root q' r right]
  | cons i path ih =>
      obtain ⟨-, -, -, t, placed, entry⟩ := h.up q r i path left
      obtain ⟨-, -, -, t', placed', entry'⟩ := h.up q' r i path right
      rw [ih placed placed', entry'] at entry
      exact (congrArg Pte.ppn entry).symm

theorem rooted (h : Forest loose place ram) (placed : place q = some (r, path)) : place r = some (r, []) := by
  induction path generalizing q with
  | nil =>
      rw [h.root q r placed] at placed
      exact placed
  | cons i path ih =>
      obtain ⟨-, -, -, t, above, -⟩ := h.up q r i path placed
      exact ih above

theorem short (h : Forest loose place ram) (placed : place q = some (r, path)) : path.length ≤ 2 := by
  cases path with
  | nil => exact Nat.zero_le _
  | cons i path => exact (h.up q r i path placed).1

/-- What is reached from a root is what has a place there. -/
theorem below_iff (h : Forest Strict place ram) (root : place r = some (r, [])) :
    Below ram r path q ↔ place q = some (r, path) := by
  constructor
  · intro below
    induction below with
    | root => exact root
    | @step path t i _ short bound valid ih =>
        obtain ⟨q, entry, placed⟩ := h.down t r path i ih short bound valid id
        rw [entry]
        exact placed
  · intro placed
    induction path generalizing q with
    | nil =>
        rw [h.root q r placed]
        exact .root
    | cons i path ih =>
        obtain ⟨short, bound, -, t, above, entry⟩ := h.up q r i path placed
        have below := Below.step (i := i) (ih above) short bound (by rw [entry]; rfl)
        rw [entry] at below
        exact below

/-- The bounds, the free list and the page-table pages alone matter. -/
theorem frame (h : Forest loose place ram) (first : ram'.first = ram.first)
    (nodup : ram'.freelist.Nodup)
    (free : ∀ q ∈ ram'.freelist, ram.first ≤ q ∧ q < stopPage ∧ place q = none)
    (same : ∀ q, place q ≠ none → ram'.pte q = ram.pte q) : Forest loose place ram' where
  nodup := nodup
  free q member := first ▸ free q member
  inside q r path placed := first ▸ h.inside q r path placed
  root := h.root
  up q r i path placed := by
    obtain ⟨short, bound, low, t, above, entry⟩ := h.up q r i path placed
    exact ⟨short, bound, low, t, above, by rw [same t (by simp [above])]; exact entry⟩
  down t r path i placed short bound valid tight := by
    rw [same t (by simp [placed])] at valid ⊢
    exact h.down t r path i placed short bound valid tight

theorem mono {loose' : Nat → Nat → Prop} (h : Forest loose place ram)
    (weaker : ∀ t i, loose t i → loose' t i) : Forest loose' place ram :=
  { h with down := fun t r path i placed short bound valid tight =>
      h.down t r path i placed short bound valid fun was => tight (weaker t i was) }

/-- The table of the last level that a page is looked up in. -/
theorem mapOf_at (h : Forest loose place ram) {a b : Nat} (placed : place t = some (r, [b, a])) (bound : i < 512)
    (spot : n = i + 512 * (b + 512 * a)) : mapOf ram r n = entry (ram.pte t i) := by
  obtain ⟨-, bound₁, -, t₁, placed₁, entry₁⟩ := h.up t r b [a] placed
  obtain ⟨-, bound₂, -, t₂, placed₂, entry₂⟩ := h.up t₁ r a [] placed₁
  have top : n / 512 / 512 % 512 = a := by omega
  have middle : n / 512 % 512 = b := by omega
  have last : n % 512 = i := by omega
  have root := h.root t₂ r placed₂
  subst root
  rw [mapOf, top, middle, last, entry₂]
  change (entry (ram.pte t₁ b)).bind _ = _
  rw [entry₁]
  rfl

/-- Without a table of the last level nothing is mapped there. -/
theorem mapOf_none (h : Forest Strict place ram) (root : place r = some (r, []))
    (absent : ∀ t, place t ≠ some (r, [n / 512 % 512, n / 512 / 512 % 512])) : mapOf ram r n = none := by
  unfold mapOf entry
  split
  · rename_i top
    obtain ⟨t, points, placed⟩ := h.down r r [] _ root (by decide) (Nat.mod_lt _ (by decide)) top id
    rw [points]
    change (if (ram.pte t (n / 512 % 512)).v = true then _ else _ : Option Pte).bind _ = none
    split
    · rename_i middle
      obtain ⟨t', -, placed'⟩ := h.down t r [_] _ placed (Nat.lt_succ_self 1) (Nat.mod_lt _ (by decide)) middle id
      exact absurd placed' (absent t')
    · rfl
  · rfl

/-- Every page below `MAXVA` has its spot. -/
theorem spot_of_lt (low : n < vpnLimit) :
    n = n % 512 + 512 * (n / 512 % 512 + 512 * (n / 512 / 512 % 512)) ∧ n / 512 / 512 % 512 < 256 := by
  rw [vpnLimit, MAXVA, PGSIZE] at low
  omega

/-- Tables of the last level that say the same, and new ones that say nothing. -/
theorem mapOf_eq {place' : Places} (h : Forest Strict place ram) (h' : Forest Strict place' ram')
    (root : place r = some (r, [])) (root' : place' r = some (r, []))
    (tables : ∀ t a b, place t = some (r, [b, a]) →
      place' t = some (r, [b, a]) ∧ ∀ i < 512, entry (ram'.pte t i) = entry (ram.pte t i))
    (fresh : ∀ t a b, place' t = some (r, [b, a]) →
      place t = some (r, [b, a]) ∨ ∀ i < 512, (ram'.pte t i).v = false)
    (low : n < vpnLimit) : mapOf ram' r n = mapOf ram r n := by
  obtain ⟨spot, -⟩ := spot_of_lt low
  have bound : n % 512 < 512 := Nat.mod_lt _ (by decide)
  by_cases there : ∃ t, place t = some (r, [n / 512 % 512, n / 512 / 512 % 512])
  · obtain ⟨t, placed⟩ := there
    obtain ⟨placed', same⟩ := tables t _ _ placed
    rw [h.mapOf_at placed bound spot, h'.mapOf_at placed' bound spot, same _ bound]
  · have absent : ∀ t, place t ≠ some (r, [n / 512 % 512, n / 512 / 512 % 512]) := fun t placed => there ⟨t, placed⟩
    rw [h.mapOf_none root absent]
    by_cases new : ∃ t, place' t = some (r, [n / 512 % 512, n / 512 / 512 % 512])
    · obtain ⟨t, placed'⟩ := new
      rcases fresh t _ _ placed' with old | blank
      · exact absurd old (absent t)
      · rw [h'.mapOf_at placed' bound spot, entry, blank _ bound]
        rfl
    · exact h'.mapOf_none root' fun t placed' => new ⟨t, placed'⟩

theorem placed_update (unplaced : place page = none) {spot other : Nat × List Nat} :
    Function.update place page (some spot) q = some other ↔ q = page ∧ spot = other ∨ place q = some other := by
  by_cases same : q = page
  · rw [same, Function.update_self, unplaced]
    simp
  · rw [Function.update_of_ne same]
    simp [same]

theorem unplaced_update {spot : Nat × List Nat} (other : q ≠ page) (unplaced : place q = none) :
    Function.update place page (some spot) q = none := by
  rw [Function.update_of_ne other, unplaced]

/-- A blank page becomes the table below a vacant entry. -/
theorem hang (h : Forest loose place ram) (placed : place t = some (r, path)) (short : path.length < 2)
    (bound : i < 512) (low : path = [] → i < 256) (vacant : (ram.pte t i).v = false) (unplaced : place page = none)
    (within : ram.first ≤ page ∧ page < stopPage) (used : page ∉ ram.freelist)
    (blank : ∀ j, (ram.pte page j).v = false) :
    Forest loose (Function.update place page (some (r, i :: path))) (ram.put t i (.table page)) := by
  refine ⟨h.nodup, fun q member => ?_, fun q r' path' placedQ => ?_, fun q r' placedQ => ?_,
    fun q r' j path' placedQ => ?_, fun t' r' path' j placedT short' bound' valid tight => ?_⟩
  · obtain ⟨above, below, none⟩ := h.free q member
    exact ⟨above, below, unplaced_update (by rintro rfl; exact used member) none⟩
  · rcases (placed_update unplaced).mp placedQ with ⟨rfl, -⟩ | old
    · exact within
    · exact h.inside q r' path' old
  · rcases (placed_update unplaced).mp placedQ with ⟨-, wrong⟩ | old
    · cases wrong
    · exact h.root q r' old
  · rcases (placed_update unplaced).mp placedQ with ⟨rfl, same⟩ | old
    · cases same
      exact ⟨short, bound, low, t, (placed_update unplaced).mpr (.inr placed), by rw [put_pte, if_pos ⟨rfl, rfl⟩]⟩
    · obtain ⟨short', bound', low', t', placedT, points⟩ := h.up q r' j path' old
      refine ⟨short', bound', low', t', (placed_update unplaced).mpr (.inr placedT), ?_⟩
      rw [put_pte, if_neg, points]
      rintro ⟨rfl, rfl⟩
      rw [points] at vacant
      cases vacant
  · rw [put_pte] at valid ⊢
    rcases (placed_update unplaced).mp placedT with ⟨rfl, -⟩ | old
    · rw [if_neg, blank j] at valid
      · cases valid
      · rintro ⟨rfl, -⟩
        rw [placed] at unplaced
        cases unplaced
    · split
      · rename_i both
        obtain ⟨rfl, rfl⟩ := both
        rw [placed] at old
        cases old
        exact ⟨page, rfl, Function.update_self ..⟩
      · rename_i elsewhere
        rw [if_neg elsewhere] at valid
        obtain ⟨q, points, placedQ⟩ := h.down t' r' path' j old short' bound' valid tight
        exact ⟨q, points, (placed_update unplaced).mpr (.inr placedQ)⟩

/-- A blank page becomes a root. -/
theorem plant (h : Forest loose place ram) (unplaced : place page = none)
    (within : ram.first ≤ page ∧ page < stopPage) (used : page ∉ ram.freelist)
    (blank : ∀ j, (ram.pte page j).v = false) :
    Forest loose (Function.update place page (some (page, []))) ram := by
  refine ⟨h.nodup, fun q member => ?_, fun q r' path' placedQ => ?_, fun q r' placedQ => ?_,
    fun q r' j path' placedQ => ?_, fun t' r' path' j placedT short' bound' valid tight => ?_⟩
  · obtain ⟨above, below, none⟩ := h.free q member
    exact ⟨above, below, unplaced_update (by rintro rfl; exact used member) none⟩
  · rcases (placed_update unplaced).mp placedQ with ⟨rfl, -⟩ | old
    · exact within
    · exact h.inside q r' path' old
  · rcases (placed_update unplaced).mp placedQ with ⟨rfl, same⟩ | old
    · cases same
      rfl
    · exact h.root q r' old
  · rcases (placed_update unplaced).mp placedQ with ⟨-, wrong⟩ | old
    · cases wrong
    · obtain ⟨short', bound', low', t', placedT, points⟩ := h.up q r' j path' old
      exact ⟨short', bound', low', t', (placed_update unplaced).mpr (.inr placedT), points⟩
  · rcases (placed_update unplaced).mp placedT with ⟨rfl, -⟩ | old
    · rw [blank j] at valid
      cases valid
    · obtain ⟨q, points, placedQ⟩ := h.down t' r' path' j old short' bound' valid tight
      exact ⟨q, points, (placed_update unplaced).mpr (.inr placedQ)⟩

/-- An entry of the last level changes. -/
theorem put (h : Forest loose place ram) {a b : Nat} (placed : place t = some (r, [b, a])) (pte : Pte) :
    Forest loose place (ram.put t i pte) := by
  have apart : ∀ {t' r' path'}, place t' = some (r', path') → path'.length < 2 → t' ≠ t := by
    rintro t' r' path' placedT short rfl
    rw [placed] at placedT
    cases placedT
    exact absurd short (by simp)
  refine ⟨h.nodup, h.free, h.inside, h.root, fun q r' j path' placedQ => ?_,
    fun t' r' path' j placedT short bound valid tight => ?_⟩
  · obtain ⟨short, bound, low, t', placedT, points⟩ := h.up q r' j path' placedQ
    refine ⟨short, bound, low, t', placedT, ?_⟩
    rw [put_pte, if_neg fun both => apart placedT short both.1, points]
  · rw [put_pte, if_neg fun both => apart placedT short both.1] at valid ⊢
    exact h.down t' r' path' j placedT short bound valid tight

/-- What one entry of the last level says, and all others. -/
theorem mapOf_put (h : Forest Strict place ram) {a b : Nat} (placed : place t = some (r, [b, a])) (bound : i < 512)
    (spot : n = i + 512 * (b + 512 * a)) (pte : Pte) {r' n' : Nat} (root : place r' = some (r', []))
    (low : n' < vpnLimit) :
    mapOf (ram.put t i pte) r' n' = if r' = r ∧ n' = n then entry pte else mapOf ram r' n' := by
  have h' := h.put (i := i) placed pte
  by_cases here : r' = r ∧ n' = n
  · obtain ⟨rfl, rfl⟩ := here
    rw [if_pos ⟨rfl, rfl⟩, h'.mapOf_at placed bound spot, put_pte, if_pos ⟨rfl, rfl⟩]
  · rw [if_neg here]
    obtain ⟨spot', -⟩ := spot_of_lt low
    have bound' : n' % 512 < 512 := Nat.mod_lt _ (by decide)
    by_cases there : ∃ t', place t' = some (r', [n' / 512 % 512, n' / 512 / 512 % 512])
    · obtain ⟨t', placed'⟩ := there
      rw [h.mapOf_at placed' bound' spot', h'.mapOf_at placed' bound' spot', put_pte, if_neg]
      rintro ⟨rfl, last⟩
      rw [placed] at placed'
      cases placed'
      refine here ⟨rfl, ?_⟩
      omega
    · have absent : ∀ t', place t' ≠ some (r', [n' / 512 % 512, n' / 512 / 512 % 512]) :=
        fun t' placed' => there ⟨t', placed'⟩
      rw [h.mapOf_none root absent, h'.mapOf_none root absent]

/-- A table without valid entries is taken out of its tree. -/
theorem fell (h : Forest loose place ram) (placed : place q = some (r, path))
    (blank : ∀ i, i < 512 → (ram.pte q i).v = false)
    (hangs : ∀ i above t, path = i :: above → place t = some (r, above) → loose t i) :
    Forest loose (Function.update place q none) ram := by
  have kept : ∀ {t r' path'}, t ≠ q → place t = some (r', path') →
      Function.update place q none t = some (r', path') := by
    intro t r' path' apart placedT
    rw [Function.update_of_ne apart, placedT]
  have old : ∀ {t r' path'}, Function.update place q none t = some (r', path') →
      t ≠ q ∧ place t = some (r', path') := by
    intro t r' path' placedT
    by_cases same : t = q
    · rw [same, Function.update_self] at placedT
      cases placedT
    · exact ⟨same, by rwa [Function.update_of_ne same] at placedT⟩
  refine ⟨h.nodup, fun q' member => ?_, fun q' r' path' placedQ => h.inside q' r' path' (old placedQ).2,
    fun q' r' placedQ => h.root q' r' (old placedQ).2, fun q' r' j path' placedQ => ?_,
    fun t r' path' j placedT short bound valid tight => ?_⟩
  · obtain ⟨above, below, none⟩ := h.free q' member
    refine ⟨above, below, ?_⟩
    by_cases same : q' = q
    · rw [same, Function.update_self]
    · rw [Function.update_of_ne same, none]
  · obtain ⟨short, bound, low, t, placedT, points⟩ := h.up q' r' j path' (old placedQ).2
    refine ⟨short, bound, low, t, kept ?_ placedT, points⟩
    rintro rfl
    have invalid := blank j bound
    rw [points] at invalid
    cases invalid
  · obtain ⟨-, was⟩ := old placedT
    obtain ⟨q', points, placedQ⟩ := h.down t r' path' j was short bound valid tight
    refine ⟨q', points, kept ?_ placedQ⟩
    rintro rfl
    rw [placed] at placedQ
    cases placedQ
    exact tight (hangs j path' t rfl was)

/-- The loose end is cut off. -/
theorem cut (h : Forest (fun t' i' => loose t' i' ∨ t' = t ∧ i' = i) place ram) (placed : place t = some (r, path))
    (gone : ∀ q, place q ≠ some (r, i :: path)) : Forest loose place (ram.put t i .zero) := by
  refine ⟨h.nodup, h.free, h.inside, h.root, fun q r' j path' placedQ => ?_,
    fun t' r' path' j placedT short bound valid tight => ?_⟩
  · obtain ⟨short, bound, low, t', placedT, points⟩ := h.up q r' j path' placedQ
    refine ⟨short, bound, low, t', placedT, ?_⟩
    rw [put_pte, if_neg, points]
    rintro ⟨rfl, rfl⟩
    rw [placed] at placedT
    cases placedT
    exact gone q placedQ
  · rw [put_pte] at valid ⊢
    split at valid
    · cases valid
    · rename_i elsewhere
      rw [if_neg elsewhere]
      exact h.down t' r' path' j placedT short bound valid fun wrong => wrong.elim tight elsewhere

end Forest

section Walks

/-- Page tables have changed, and their roots are the same. -/
structure Reshaped (place : Places) (ram : Ram) (place' : Places) (after : Ram) : Prop where
  forest : Forest Strict place' after
  roots : ∀ q, place' q = some (q, []) ↔ place q = some (q, [])
  first : after.first = ram.first

/-- Page tables have grown, and every map is as before. -/
structure Grown (place : Places) (ram : Ram) (place' : Places) (after : Ram) : Prop
    extends Reshaped place ram place' after where
  kept : ∀ q spot, place q = some spot → place' q = some spot
  maps : ∀ r, place r = some (r, []) → ∀ n, n < vpnLimit → mapOf after r n = mapOf ram r n

theorem Grown.refl (h : Forest Strict place ram) : Grown place ram place ram :=
  ⟨⟨h, fun _ => Iff.rfl, rfl⟩, fun _ _ => id, fun _ _ _ _ => rfl⟩

theorem Grown.trans {place' place'' : Places} {middle after : Ram} (left : Grown place ram place' middle)
    (right : Grown place' middle place'' after) : Grown place ram place'' after where
  forest := right.forest
  kept q spot placed := right.kept q spot (left.kept q spot placed)
  roots q := (right.roots q).trans (left.roots q)
  first := right.first.trans left.first
  maps r root n low := (right.maps r (left.kept r _ root) n low).trans (left.maps r root n low)

/-- There may be too few pages for two page-table pages. -/
def Starved (ram : Ram) : Prop := ram.freelist.length < 2 ∨ true ∈ ram.faults.take 2

theorem fault_first {faults : List Bool} (faulty : faults.head? = some true) : true ∈ faults.take 2 := by
  cases faults with
  | nil => cases faulty
  | cons fault rest =>
      cases faulty
      exact List.mem_cons_self

theorem fault_second {faults : List Bool} (faulty : faults.tail.head? = some true) : true ∈ faults.take 2 := by
  match faults with
  | [] => cases faulty
  | [_] => cases faulty
  | first :: second :: rest =>
      cases faulty
      exact List.mem_cons_of_mem _ List.mem_cons_self

theorem kalloc_forest (h : Forest loose place ram) :
    outcome kalloc
      (fun result after => Forest loose place after ∧ after.first = ram.first ∧
        (∀ q, place q ≠ none → after.pte q = ram.pte q) ∧
        match result with
        | none => ram.freelist = [] ∨ ram.faults.head? = some true
        | some page => (ram.first ≤ page ∧ page < stopPage) ∧ place page = none ∧ page ∉ after.freelist ∧
            ram.freelist = page :: after.freelist ∧ after.faults = ram.faults.tail)
      (fun _ _ => False) ram := by
  have lacks : ∀ freelist faults, ram.freelist = freelist → Forest loose place { ram with freelist, faults } := by
    rintro - faults rfl
    exact h.frame rfl h.nodup h.free fun _ _ => rfl
  have served : ∀ page freelist faults, ram.freelist = page :: freelist →
      let after : Ram := { ram.memset page 3 with freelist, faults }
      Forest loose place after ∧ (∀ q, place q ≠ none → after.pte q = ram.pte q) ∧
        (ram.first ≤ page ∧ page < stopPage) ∧ place page = none ∧ page ∉ freelist := by
    intro page freelist faults listed
    have distinct := h.nodup
    rw [listed, List.nodup_cons] at distinct
    obtain ⟨low, high, unplaced⟩ := h.free page (by simp [listed])
    have others : ∀ q, place q ≠ none → Function.update ram.pte page (fun _ => Pte.ofByte 3) q = ram.pte q := by
      intro q placed
      refine Function.update_of_ne ?_ ..
      rintro rfl
      exact placed unplaced
    refine ⟨h.frame rfl distinct.2 (fun q member => h.free q ?_) others, others, ⟨low, high⟩, unplaced, distinct.1⟩
    rw [listed]
    exact List.mem_cons_of_mem _ member
  unfold kalloc
  rw [outcome_bind, outcome_get]
  cases faulty : ram.faults with
  | nil =>
      cases listed : ram.freelist with
      | nil => exact ⟨lacks _ _ listed, rfl, fun _ _ => rfl, .inl rfl⟩
      | cons page freelist =>
          obtain ⟨forest, same, within, unplaced, used⟩ := served page freelist [] listed
          exact ⟨forest, rfl, same, within, unplaced, used, rfl, rfl⟩
  | cons fault faults =>
      cases fault with
      | true => exact ⟨lacks _ _ rfl, rfl, fun _ _ => rfl, .inr rfl⟩
      | false =>
          cases listed : ram.freelist with
          | nil => exact ⟨lacks _ _ listed, rfl, fun _ _ => rfl, .inl rfl⟩
          | cons page freelist =>
              obtain ⟨forest, same, within, unplaced, used⟩ := served page freelist faults listed
              exact ⟨forest, rfl, same, within, unplaced, used, rfl, rfl⟩

theorem memzero_forest (h : Forest loose place ram) (unplaced : place page = none) :
    outcome (memzero page)
      (fun _ after => Forest loose place after ∧ after.first = ram.first ∧ after.freelist = ram.freelist ∧
        after.faults = ram.faults ∧ (∀ q, place q ≠ none → after.pte q = ram.pte q) ∧
        ∀ i, (after.pte page i).v = false)
      (fun _ _ => False) ram := by
  have others : ∀ q, place q ≠ none → Function.update ram.pte page (fun _ => Pte.ofByte 0) q = ram.pte q := by
    rintro q placed
    refine Function.update_of_ne ?_ ..
    rintro rfl
    exact placed unplaced
  refine ⟨h.frame rfl h.nodup h.free others, rfl, rfl, rfl, others, fun i => ?_⟩
  change ((Function.update ram.pte page (fun _ => Pte.ofByte 0)) page i).v = false
  rw [Function.update_self]
  rfl

/-- The same page-table pages with the same entries. -/
theorem Forest.maps_frame (h : Forest Strict place ram) (h' : Forest Strict place ram')
    (same : ∀ q, place q ≠ none → ram'.pte q = ram.pte q) (root : place r = some (r, [])) (low : n < vpnLimit) :
    mapOf ram' r n = mapOf ram r n := by
  refine h.mapOf_eq h' root root (fun t a b placed => ⟨placed, fun i _ => ?_⟩) (fun _ _ _ => .inl) low
  rw [same t (by simp [placed])]

/-- One turn of the loop in `walk`. -/
theorem walkLevel_grows (h : Forest Strict place ram) (placed : place t = some (r, path)) (short : path.length < 2)
    {level va : Nat} (low : path = [] → PX level va < 256) (alloc : Bool) :
    outcome (walkLevel t level va alloc)
      (fun result after => ∃ place', Grown place ram place' after ∧ (alloc = false → after = ram ∧ place' = place) ∧
        match result with
        | none => (∀ q, place' q ≠ some (r, PX level va :: path)) ∧
            (alloc = true → ram.freelist = [] ∨ ram.faults.head? = some true)
        | some q => place' q = some (r, PX level va :: path) ∧
            (after.freelist = ram.freelist ∧ after.faults = ram.faults ∨
              after.freelist = ram.freelist.tail ∧ after.faults = ram.faults.tail))
      (fun _ _ => False) ram := by
  unfold walkLevel getPte
  simp only [outcome_bind, outcome_get, outcome_pure]
  split
  · rename_i valid
    obtain ⟨q, points, placedQ⟩ := h.down t r path _ placed short (PX_lt level va) valid id
    rw [points]
    exact ⟨place, .refl h, fun _ => ⟨rfl, rfl⟩, placedQ, .inl ⟨rfl, rfl⟩⟩
  · rename_i invalid
    have vacant : (ram.pte t (PX level va)).v = false := by simpa using invalid
    have gone : ∀ q, place q ≠ some (r, PX level va :: path) := by
      intro q placedQ
      obtain ⟨-, -, -, t', placedT, points⟩ := h.up q r _ path placedQ
      rw [h.unique placed placedT, points] at vacant
      cases vacant
    cases alloc with
    | false => exact ⟨place, .refl h, fun _ => ⟨rfl, rfl⟩, gone, fun wrong => absurd wrong (by decide)⟩
    | true =>
        simp only [Bool.not_true, Bool.false_eq_true, if_false, outcome_bind]
        refine outcome_post (kalloc_forest h) fun result middle allocated => ?_
        obtain ⟨forest, first, same, result'⟩ := allocated
        have maps : ∀ r', place r' = some (r', []) → ∀ n, n < vpnLimit → mapOf middle r' n = mapOf ram r' n :=
          fun _ root _ low => h.maps_frame forest same root low
        cases result with
        | none =>
            exact ⟨place, ⟨⟨forest, fun _ => Iff.rfl, first⟩, fun _ _ => id, maps⟩,
              fun wrong => absurd wrong (by decide), gone, fun _ => result'⟩
        | some page =>
            obtain ⟨within, unplaced, used, taken, faults⟩ := result'
            refine outcome_seq (memzero_forest forest unplaced) ?_
            rintro - zeroed ⟨forest', first', freelist, faults', same', blank⟩
            have entries : ∀ q, place q ≠ none → zeroed.pte q = ram.pte q :=
              fun q isPlaced => (same' q isPlaced).trans (same q isPlaced)
            have stillVacant : (zeroed.pte t (PX level va)).v = false := by
              rw [entries t (by simp [placed])]
              exact vacant
            have hung := forest'.hang placed short (PX_lt level va) low stillVacant unplaced
              (by rw [first', first]; exact within) (by rw [freelist]; exact used) blank
            have kept : ∀ q spot, place q = some spot →
                Function.update place page (some (r, PX level va :: path)) q = some spot :=
              fun q spot was => (Forest.placed_update unplaced).mpr (.inr was)
            refine ⟨_, ⟨⟨hung, fun q => ⟨fun root => ?_, kept q _⟩, first'.trans first⟩, kept, fun r' root n low' => ?_⟩,
              fun wrong => absurd wrong (by decide), Function.update_self .., .inr ⟨?_, faults'.trans faults⟩⟩
            · rcases (Forest.placed_update unplaced).mp root with ⟨-, wrong⟩ | was
              · cases wrong
              · exact was
            · refine h.mapOf_eq hung root (kept r' _ root) (fun t' a b placedT => ⟨kept t' _ placedT, fun i _ => ?_⟩)
                (fun t' a b placedT => ?_) low'
              · change entry ((zeroed.put t (PX level va) (.table page)).pte t' i) = _
                rw [put_pte, if_neg, entries t' (by simp [placedT])]
                rintro ⟨rfl, -⟩
                rw [placed] at placedT
                cases placedT
                exact absurd short (by simp)
              · rcases (Forest.placed_update unplaced).mp placedT with ⟨rfl, -⟩ | was
                · refine .inr fun i _ => ?_
                  change ((zeroed.put t (PX level va) (.table t')).pte t' i).v = false
                  rw [put_pte, if_neg]
                  · exact blank i
                  · rintro ⟨rfl, -⟩
                    rw [placed] at unplaced
                    cases unplaced
                · exact .inl was
            · change zeroed.freelist = ram.freelist.tail
              rw [freelist, taken]
              rfl

theorem PX_two_lt {va : Nat} (bound : va < MAXVA) : PX 2 va < 256 := by
  rw [PX_two bound]
  rw [MAXVA] at bound
  rw [PGSIZE]
  omega

/-- `walk` finds the entry of `va`, or there is no table for it and, where it may allocate,
not enough memory. -/
theorem walk_grows (h : Forest Strict place ram) (root : place r = some (r, [])) {va : Nat} (bound : va < MAXVA)
    (alloc : Bool) :
    outcome (walk r va alloc)
      (fun found after => ∃ place', Grown place ram place' after ∧ (alloc = false → after = ram ∧ place' = place) ∧
        match found with
        | none => mapOf ram r (va / PGSIZE) = none ∧ (alloc = true → Starved ram)
        | some (t, i) => i = va / PGSIZE % 512 ∧
            place' t = some (r, [va / PGSIZE / 512 % 512, va / PGSIZE / 512 / 512]))
      (fun _ _ => False) ram := by
  have low : va / PGSIZE < vpnLimit := by
    rw [vpnLimit]
    rw [MAXVA] at bound ⊢
    rw [PGSIZE]
    omega
  have third : va / PGSIZE / 512 / 512 % 512 = va / PGSIZE / 512 / 512 := by
    rw [MAXVA] at bound
    rw [PGSIZE]
    omega
  have empty : ∀ {place' : Places} {after : Ram}, Grown place ram place' after →
      (∀ t, place' t ≠ some (r, [va / PGSIZE / 512 % 512, va / PGSIZE / 512 / 512])) →
      mapOf ram r (va / PGSIZE) = none := by
    intro place' after grown absent
    rw [← grown.maps r root _ low]
    exact grown.forest.mapOf_none (grown.kept r _ root) (by rw [third]; exact absent)
  unfold walk
  rw [if_neg (Nat.not_le.mpr bound)]
  simp only [outcome_bind]
  refine outcome_post (walkLevel_grows h root (by decide) (fun _ => PX_two_lt bound) alloc) ?_
  rintro first middle ⟨place₁, grown₁, still₁, result₁⟩
  cases first with
  | none =>
      refine ⟨place₁, grown₁, still₁, empty grown₁ fun t placed => ?_, fun allocs => ?_⟩
      · obtain ⟨-, -, -, t', placed', -⟩ := grown₁.forest.up t r _ _ placed
        rw [PX_two bound] at result₁
        exact result₁.1 t' placed'
      · rcases result₁.2 allocs with none | faulty
        · exact .inl (by rw [none]; decide)
        · exact .inr (fault_first faulty)
  | some t =>
      simp only [outcome_bind]
      obtain ⟨placed₁, used₁⟩ := result₁
      refine outcome_post (walkLevel_grows grown₁.forest placed₁ (Nat.lt_succ_self 1) nofun alloc) ?_
      rintro second after ⟨place₂, grown₂, still₂, result₂⟩
      rw [PX_two bound, PX_one] at result₂
      have grown := grown₁.trans grown₂
      have still : alloc = false → after = ram ∧ place₂ = place := fun off =>
        ⟨(still₂ off).1.trans (still₁ off).1, (still₂ off).2.trans (still₁ off).2⟩
      cases second with
      | some q => exact ⟨place₂, grown, still, rfl, result₂.1⟩
      | none =>
          refine ⟨place₂, grown, still, empty grown result₂.1, fun allocs => ?_⟩
          rcases result₂.2 allocs with none | faulty <;> rcases used₁ with ⟨free, faults⟩ | ⟨free, faults⟩
          · rw [free] at none
            exact .inl (by rw [none]; decide)
          · rw [free] at none
            refine .inl ?_
            have length := congrArg List.length none
            rw [List.length_tail, List.length_nil] at length
            omega
          · exact .inr (fault_first (faults ▸ faulty))
          · exact .inr (fault_second (faults ▸ faulty))

end Walks

section Mappings

theorem vpn_lt {va : Nat} : va < MAXVA ↔ va / PGSIZE < vpnLimit := by
  rw [vpnLimit, MAXVA, PGSIZE]
  omega

/-- The entry that `walk` finds and what a store there does. -/
theorem Forest.entry_at (h : Forest Strict place ram) (placed : place t = some (r, [n / 512 % 512, n / 512 / 512])) :
    mapOf ram r n = entry (ram.pte t (n % 512)) ∧
    ∀ pte, Forest Strict place (ram.put t (n % 512) pte) ∧
      ∀ r', place r' = some (r', []) → ∀ m, m < vpnLimit →
        mapOf (ram.put t (n % 512) pte) r' m = if r' = r ∧ m = n then entry pte else mapOf ram r' m := by
  have last : n % 512 < 512 := Nat.mod_lt _ (by decide)
  have spot : n = n % 512 + 512 * (n / 512 % 512 + 512 * (n / 512 / 512)) := by omega
  exact ⟨h.mapOf_at placed last spot, fun pte => ⟨h.put placed pte, fun r' root m low =>
    h.mapOf_put placed last spot pte root low⟩⟩

/-- The first page of a row and the rest of it. -/
theorem stretch_cons (r' r n m k page : Nat) (perm : Perm) (other : Option Pte) :
    (if r' = r ∧ n + 1 ≤ m ∧ m < n + 1 + k then some { ppn := page + 1 + (m - (n + 1)), v := true, perm }
      else if r' = r ∧ m = n then entry { ppn := page, v := true, perm } else other) =
    if r' = r ∧ n ≤ m ∧ m < n + (k + 1) then some { ppn := page + (m - n), v := true, perm } else other := by
  by_cases same : r' = r
  · by_cases first : m = n
    · have only : m - n = 0 := by omega
      rw [if_neg (by omega), if_pos ⟨same, first⟩, if_pos ⟨same, by omega⟩, only]
      rfl
    · by_cases range : n + 1 ≤ m ∧ m < n + 1 + k
      · have number : page + 1 + (m - (n + 1)) = page + (m - n) := by omega
        rw [if_pos ⟨same, range⟩, if_pos ⟨same, by omega⟩, number]
      · rw [if_neg fun all => range all.2, if_neg fun all => first all.2, if_neg fun all => range (by omega)]
  · rw [if_neg fun all => same all.1, if_neg fun all => same all.1, if_neg fun all => same all.1]

/-- The loop of `mappages` maps pages until it is done or there is no memory; it stops the
kernel only at a page that is mapped or beyond `MAXVA`. -/
theorem mappagesFrom_maps (perm : Perm) (count : Nat) : ∀ (place : Places) (ram : Ram) (n page : Nat),
    Forest Strict place ram → place r = some (r, []) →
    outcome (mappagesFrom r perm count (n * PGSIZE) page)
      (fun done after => ∃ place' k, Reshaped place ram place' after ∧ k ≤ count ∧ (done = true → k = count) ∧
        ∀ r', place r' = some (r', []) → ∀ m, m < vpnLimit → mapOf after r' m =
          if r' = r ∧ n ≤ m ∧ m < n + k then some { ppn := page + (m - n), v := true, perm } else mapOf ram r' m)
      (fun _ _ => ¬ (n + count ≤ vpnLimit ∧ ∀ m, n ≤ m → m < n + count → mapOf ram r m = none)) ram := by
  induction count with
  | zero =>
      intro place ram n page h root
      refine ⟨place, 0, ⟨h, fun _ => Iff.rfl, rfl⟩, le_refl _, fun _ => rfl, fun r' _ m _ => ?_⟩
      rw [if_neg fun all => by omega]
  | succ count ih =>
      intro place ram n page h root
      rw [mappagesFrom]
      by_cases high : n * PGSIZE ≥ MAXVA
      · have beyond : ¬ n < vpnLimit := by
          intro below
          exact absurd (vpn_lt.mpr (by rw [page_div]; exact below)) (Nat.not_lt.mpr high)
        rw [walk, if_pos high]
        rintro ⟨fits, -⟩
        omega
      · have bound : n * PGSIZE < MAXVA := Nat.not_le.mp high
        have low : n < vpnLimit := by
          have := vpn_lt.mp bound
          rwa [page_div] at this
        refine outcome_seq (outcome_mono (walk_grows h root bound true) (fun _ _ => id) (fun _ _ => False.elim)) ?_
        rintro found middle ⟨place₁, grown, -, result⟩
        rw [page_div] at result
        cases found with
        | none =>
            refine ⟨place₁, 0, grown.toReshaped, Nat.zero_le _, fun wrong => absurd wrong (by decide),
              fun r' root' m low' => ?_⟩
            rw [if_neg fun all => by omega]
            exact grown.maps r' root' m low'
        | some spot =>
            obtain ⟨t, i⟩ := spot
            obtain ⟨rfl, placed⟩ := result
            obtain ⟨value, store⟩ := grown.forest.entry_at placed
            rw [grown.maps r root n low] at value
            simp only [getPte, outcome_bind, outcome_get, outcome_pure]
            split
            · rename_i valid
              rintro ⟨-, vacant⟩
              have none := vacant n (le_refl _) (by omega)
              rw [value, entry, if_pos valid] at none
              cases none
            · obtain ⟨forest, maps⟩ := store { ppn := page, v := true, perm }
              have next : word64 (n * PGSIZE + PGSIZE) = (n + 1) * PGSIZE := by
                rw [MAXVA] at bound
                rw [word64, PGSIZE]
                rw [PGSIZE] at bound
                omega
              simp only [setPte, next]
              have rest := ih place₁ _ (n + 1) (page + 1) forest (grown.kept r _ root)
              refine outcome_mono rest ?_ ?_
              · rintro done after ⟨place₂, k, reshaped, few, all, result⟩
                refine ⟨place₂, k + 1, ⟨reshaped.forest, fun q => (reshaped.roots q).trans (grown.roots q),
                  reshaped.first.trans grown.first⟩, by omega, fun finished => by rw [all finished], fun r' root' m low' => ?_⟩
                rw [result r' (grown.kept r' _ root') m low', maps r' (grown.kept r' _ root') m low',
                  grown.maps r' root' m low']
                exact stretch_cons ..
              · rintro - - wrong ⟨fits, vacant⟩
                refine wrong ⟨by omega, fun m above below => ?_⟩
                have none := vacant m (by omega) (by omega)
                rw [maps r (grown.kept r _ root) m (by omega), if_neg fun both => by omega,
                  grown.maps r root m (by omega)]
                exact none

/-- Whatever its arguments, `mappages` leaves trees behind when it returns. -/
theorem mappages_reshapes (h : Forest Strict place ram) (root : place r = some (r, [])) (va page size : Nat)
    (perm : Perm) :
    outcome (mappages r va page size perm) (fun _ after => ∃ place', Reshaped place ram place' after)
      (fun _ _ => True) ram := by
  rw [mappages]
  split
  · trivial
  · refine outcome_mono (mappagesFrom_maps perm _ place ram (va / PGSIZE) page h root) ?_ fun _ _ _ => trivial
    rintro - after ⟨place', -, reshaped, -⟩
    exact ⟨place', reshaped⟩

/-- `mappages` over unmapped pages below `MAXVA` adds exactly these pages, or the first few
of them when it fails. -/
theorem mappages_maps (h : Forest Strict place ram) (root : place r = some (r, [])) {va size : Nat} (page : Nat)
    (perm : Perm) (some_ : 0 < size) (fits : va + size ≤ MAXVA)
    (vacant : ∀ m, va / PGSIZE ≤ m → m ≤ (va + size - 1) / PGSIZE → mapOf ram r m = none) :
    outcome (mappages r va page size perm)
      (fun done after => ∃ last, (done = true → last = (va + size - 1) / PGSIZE + 1) ∧
        last ≤ (va + size - 1) / PGSIZE + 1 ∧
        ∀ r', place r' = some (r', []) → ∀ m, m < vpnLimit → mapOf after r' m =
          if r' = r ∧ va / PGSIZE ≤ m ∧ m < last then
            some { ppn := page + (m - va / PGSIZE), v := true, perm }
          else mapOf ram r' m)
      (fun _ _ => False) ram := by
  have count : word64 (PGROUNDDOWN (word64 (va + size - 1)) + 2 ^ 64 - PGROUNDDOWN va) / PGSIZE + 1 =
      (va + size - 1) / PGSIZE + 1 - va / PGSIZE := by
    rw [MAXVA] at fits
    simp only [PGROUNDDOWN, word64, PGSIZE]
    omega
  have order : va / PGSIZE ≤ (va + size - 1) / PGSIZE := Nat.div_le_div_right (by omega)
  have low : (va + size - 1) / PGSIZE + 1 ≤ vpnLimit := vpn_lt.mp (by omega)
  rw [mappages, if_neg (by omega)]
  refine outcome_mono (mappagesFrom_maps perm _ place ram (va / PGSIZE) page h root) ?_ ?_
  · rintro done after ⟨place', k, -, few, all, maps⟩
    rw [count] at few all
    exact ⟨va / PGSIZE + k, fun finished => by have := all finished; omega, by omega, maps⟩
  · rintro - - wrong
    rw [count] at wrong
    exact wrong ⟨by omega, fun m above below => vacant m above (by omega)⟩

/-- The page may go to the free list: it is in range, and neither free nor a page-table
page. -/
def Loosable (place : Places) (ram : Ram) (page : Nat) : Prop :=
  (ram.first ≤ page ∧ page < stopPage) ∧ place page = none ∧ page ∉ ram.freelist

theorem kfree_forest (h : Forest loose place ram) (loosable : Loosable place ram page) :
    outcome (kfree page)
      (fun _ after => Forest loose place after ∧ after.first = ram.first ∧ after.freelist = page :: ram.freelist ∧
        ∀ q, q ≠ page → after.pte q = ram.pte q)
      (fun _ _ => False) ram := by
  obtain ⟨⟨low, high⟩, unplaced, used⟩ := loosable
  have others : ∀ q, q ≠ page → Function.update ram.pte page (fun _ => Pte.ofByte 1) q = ram.pte q :=
    fun q other => Function.update_of_ne other ..
  unfold kfree
  rw [outcome_bind, outcome_get]
  simp only
  rw [if_neg (by omega)]
  refine ⟨h.frame rfl (List.nodup_cons.mpr ⟨used, h.nodup⟩) (fun q member => ?_) (fun q placed => ?_), rfl, rfl, others⟩
  · rcases List.mem_cons.mp member with rfl | old
    · exact ⟨low, high, unplaced⟩
    · exact h.free q old
  · refine others q ?_
    rintro rfl
    exact placed unplaced

/-- One turn of `uvmunmap`. -/
theorem uvmunmapPage_unmaps (h : Forest Strict place ram) (root : place r = some (r, [])) (doFree : Bool)
    (loosable : doFree = true → n < vpnLimit → ∀ pte, mapOf ram r n = some pte → Loosable place ram pte.ppn) :
    outcome (uvmunmapPage r doFree (n * PGSIZE))
      (fun _ after => n < vpnLimit ∧ Forest Strict place after ∧ after.first = ram.first ∧
        (after.freelist = ram.freelist ∨ doFree = true ∧ ∃ pte, mapOf ram r n = some pte ∧
          after.freelist = pte.ppn :: ram.freelist) ∧
        ∀ r', place r' = some (r', []) → ∀ m, m < vpnLimit →
          mapOf after r' m = if r' = r ∧ m = n then none else mapOf ram r' m)
      (fun _ _ => ¬ (n < vpnLimit ∧ ∃ pte, mapOf ram r n = some pte ∧ pte.perm ≠ .none)) ram := by
  rw [uvmunmapPage]
  by_cases high : n * PGSIZE ≥ MAXVA
  · have beyond : ¬ n < vpnLimit := fun below =>
      absurd (vpn_lt.mpr (by rw [page_div]; exact below)) (Nat.not_lt.mpr high)
    rw [walk, if_pos high]
    exact fun all => beyond all.1
  · have bound : n * PGSIZE < MAXVA := Nat.not_le.mp high
    have low : n < vpnLimit := by
      have := vpn_lt.mp bound
      rwa [page_div] at this
    refine outcome_seq (outcome_mono (walk_grows h root bound false) (fun _ _ => id) (fun _ _ => False.elim)) ?_
    rintro found middle ⟨place₁, grown, still, result⟩
    obtain ⟨rfl, rfl⟩ := still rfl
    rw [page_div] at result
    cases found with
    | none =>
        rintro ⟨-, pte, maps, -⟩
        rw [result.1] at maps
        cases maps
    | some spot =>
        obtain ⟨t, i⟩ := spot
        obtain ⟨rfl, placed⟩ := result
        obtain ⟨value, -⟩ := h.entry_at placed
        simp only [getPte, outcome_bind, outcome_get, outcome_pure]
        split
        · rename_i invalid
          rintro ⟨-, pte, maps, -⟩
          rw [value, entry, if_neg (by simpa using invalid)] at maps
          cases maps
        · rename_i valid
          have maps : mapOf middle r n = some (middle.pte t (n % 512)) := by
            rw [value, entry, if_pos (by simpa using valid)]
          split
          · rename_i plain
            rintro ⟨-, pte, maps', leaf⟩
            rw [maps] at maps'
            cases maps'
            exact leaf plain
          · cases doFree with
            | false =>
                obtain ⟨forest, effect⟩ := (h.entry_at placed).2 .zero
                exact ⟨low, forest, rfl, .inl rfl, effect⟩
            | true =>
                have ready := loosable rfl low _ maps
                refine outcome_seq (outcome_mono (kfree_forest h ready) (fun _ _ => id) (fun _ _ => False.elim)) ?_
                rintro - freed ⟨forest, first, freelist, others⟩
                have same : ∀ q, place₁ q ≠ none → freed.pte q = middle.pte q := by
                  intro q placedQ
                  refine others q ?_
                  rintro rfl
                  exact placedQ ready.2.1
                obtain ⟨forest', effect⟩ := (forest.entry_at placed).2 .zero
                refine ⟨low, forest', first, .inr ⟨rfl, _, maps, freelist⟩, fun r' root' m low => ?_⟩
                rw [← h.maps_frame forest same root' low]
                exact effect r' root' m low

/-- The pages that a row maps may be freed, one after the other. -/
def Removable (place : Places) (ram : Ram) (r n count : Nat) : Prop :=
  ∀ m, n ≤ m → m < n + count → m < vpnLimit → ∀ pte, mapOf ram r m = some pte → Loosable place ram pte.ppn ∧
    ∀ m', n ≤ m' → m' < n + count → m' ≠ m → m' < vpnLimit → ∀ pte', mapOf ram r m' = some pte' → pte'.ppn ≠ pte.ppn

/-- The row without its first `j` pages, which are on the free list if they are freed. -/
structure Unmapping (place : Places) (ram : Ram) (r n : Nat) (doFree : Bool) (j : Nat) (state : Ram) : Prop where
  forest : Forest Strict place state
  first : state.first = ram.first
  freelist : ∀ q ∈ state.freelist, q ∈ ram.freelist ∨ doFree = true ∧ ∃ m pte, n ≤ m ∧ m < n + j ∧ m < vpnLimit ∧
    mapOf ram r m = some pte ∧ pte.ppn = q
  maps : ∀ r', place r' = some (r', []) → ∀ m, m < vpnLimit →
    mapOf state r' m = if r' = r ∧ n ≤ m ∧ m < n + j then none else mapOf ram r' m

theorem Unmapping.next {doFree : Bool} {j : Nat} {state after : Ram} (unmapping : Unmapping place ram r n doFree j state)
    (root : place r = some (r, [])) (forest : Forest Strict place after) (first : after.first = state.first)
    (low : n + j < vpnLimit)
    (freelist : after.freelist = state.freelist ∨ doFree = true ∧ ∃ pte, mapOf state r (n + j) = some pte ∧
      after.freelist = pte.ppn :: state.freelist)
    (maps : ∀ r', place r' = some (r', []) → ∀ m, m < vpnLimit →
      mapOf after r' m = if r' = r ∧ m = n + j then none else mapOf state r' m) :
    Unmapping place ram r n doFree (j + 1) after where
  forest := forest
  first := first.trans unmapping.first
  freelist q member := by
    have older : q ∈ state.freelist → q ∈ ram.freelist ∨ doFree = true ∧ ∃ m pte, n ≤ m ∧ m < n + (j + 1) ∧
        m < vpnLimit ∧ mapOf ram r m = some pte ∧ pte.ppn = q := by
      intro was
      rcases unmapping.freelist q was with old | ⟨frees, m, pte, above, before, rest⟩
      · exact .inl old
      · exact .inr ⟨frees, m, pte, above, by omega, rest⟩
    rcases freelist with same | ⟨frees, pte, known, pushed⟩
    · exact older (same ▸ member)
    · rw [pushed] at member
      rcases List.mem_cons.mp member with rfl | was
      · rw [unmapping.maps r root _ low, if_neg (by omega)] at known
        exact .inr ⟨frees, n + j, pte, by omega, by omega, low, known, rfl⟩
      · exact older was
  maps r' root' m low' := by
    rw [maps r' root' m low', unmapping.maps r' root' m low']
    by_cases range : r' = r ∧ n ≤ m ∧ m < n + (j + 1)
    · rw [if_pos range]
      by_cases last : m = n + j
      · rw [if_pos ⟨range.1, last⟩]
      · rw [if_neg fun both => last both.2, if_pos ⟨range.1, by omega⟩]
    · rw [if_neg range, if_neg fun both => range ⟨both.1, by omega⟩, if_neg fun all => range ⟨all.1, by omega⟩]

/-- `uvmunmap` takes its row of pages out of the map; it stops the kernel only at a page that
is not mapped or has no permission. -/
theorem uvmunmap_unmaps (h : Forest Strict place ram) (root : place r = some (r, [])) (va npages : Nat) (doFree : Bool)
    (removable : doFree = true → Removable place ram r (va / PGSIZE) (unmapCount va npages)) :
    outcome (uvmunmap r va npages doFree)
      (fun _ after => Reshaped place ram place after ∧
        ∀ r', place r' = some (r', []) → ∀ m, m < vpnLimit → mapOf after r' m =
          if r' = r ∧ va / PGSIZE ≤ m ∧ m < va / PGSIZE + unmapCount va npages then none else mapOf ram r' m)
      (fun _ _ => ¬ (va % PGSIZE = 0 ∧ ∀ m, va / PGSIZE ≤ m → m < va / PGSIZE + unmapCount va npages →
        m < vpnLimit ∧ ∃ pte, mapOf ram r m = some pte ∧ pte.perm ≠ .none)) ram := by
  rw [uvmunmap]
  split
  · rename_i skew
    exact fun all => skew all.1
  · rename_i aligned
    have start : va = va / PGSIZE * PGSIZE := by
      rw [not_not] at aligned
      exact (Nat.div_mul_cancel (Nat.dvd_of_mod_eq_zero aligned)).symm
    generalize va / PGSIZE = n at start removable ⊢
    change outcome (loop _ 0 (unmapCount va npages)) _ _ _
    generalize unmapCount va npages = count at removable ⊢
    refine outcome_post (loop_outcome (Unmapping place ram r n doFree) count 0 ram
      ⟨h, rfl, fun _ => .inl, fun r' _ m _ => (if_neg (by omega)).symm⟩ ?_) ?_
    · intro j state _ below unmapping
      rw [Nat.zero_add] at below
      have here : va + j * PGSIZE = (n + j) * PGSIZE := by rw [start, Nat.add_mul]
      have same : n + j < vpnLimit → mapOf state r (n + j) = mapOf ram r (n + j) := by
        intro low
        rw [unmapping.maps r root _ low, if_neg (by omega)]
      rw [here]
      refine outcome_mono (uvmunmapPage_unmaps unmapping.forest root doFree fun frees low pte known => ?_) ?_ ?_
      · rw [same low] at known
        obtain ⟨⟨within, unplaced, used⟩, distinct⟩ := removable frees (n + j) (by omega) (by omega) low pte known
        refine ⟨unmapping.first ▸ within, unplaced, fun member => ?_⟩
        rcases unmapping.freelist _ member with old | ⟨-, m, pte', above, before, low', known', page⟩
        · exact used old
        · exact distinct m above (by omega) (by omega) low' pte' known' page
      · rintro - after ⟨low, forest, first, freelist, maps⟩
        exact unmapping.next root forest first low freelist maps
      · rintro - - wrong ⟨-, full⟩
        obtain ⟨low, pte, known, leaf⟩ := full (n + j) (by omega) (by omega)
        exact wrong ⟨low, pte, (same low).trans known, leaf⟩
    · rintro - after unmapping
      rw [Nat.zero_add] at unmapping
      exact ⟨⟨unmapping.forest, fun _ => Iff.rfl, unmapping.first⟩, unmapping.maps⟩

/-- `uvmclear` takes the permission `PTE_U` from one page; it stops the kernel only where
there is no table for the page. -/
theorem uvmclear_clears (h : Forest Strict place ram) (root : place r = some (r, [])) (va : Nat) :
    outcome (uvmclear r va)
      (fun _ after => Reshaped place ram place after ∧
        ∀ r', place r' = some (r', []) → ∀ m, m < vpnLimit → mapOf after r' m =
          if r' = r ∧ m = va / PGSIZE then
            (mapOf ram r m).map fun pte => { pte with perm := { pte.perm with u := false } }
          else mapOf ram r' m)
      (fun _ _ => ¬ (va < MAXVA ∧ (mapOf ram r (va / PGSIZE)).isSome = true)) ram := by
  rw [uvmclear]
  by_cases high : va ≥ MAXVA
  · rw [walk, if_pos high]
    exact fun all => absurd all.1 (Nat.not_lt.mpr high)
  · have bound : va < MAXVA := Nat.not_le.mp high
    refine outcome_seq (outcome_mono (walk_grows h root bound false) (fun _ _ => id) (fun _ _ => False.elim)) ?_
    rintro found middle ⟨place₁, grown, still, result⟩
    obtain ⟨rfl, rfl⟩ := still rfl
    cases found with
    | none =>
        rintro ⟨-, there⟩
        rw [result.1] at there
        cases there
    | some spot =>
        obtain ⟨t, i⟩ := spot
        obtain ⟨rfl, placed⟩ := result
        obtain ⟨value, store⟩ := h.entry_at placed
        simp only [getPte, outcome_bind, outcome_get, outcome_pure]
        generalize middle.pte t (va / PGSIZE % 512) = pte at value
        obtain ⟨forest, effect⟩ := store { pte with perm := { pte.perm with u := false } }
        refine ⟨⟨forest, fun _ => Iff.rfl, rfl⟩, fun r' root' m low => ?_⟩
        refine (effect r' root' m low).trans ?_
        by_cases here : r' = r ∧ m = va / PGSIZE
        · rw [if_pos here, if_pos here, here.2, value]
          unfold entry
          split <;> rfl
        · rw [if_neg here, if_neg here]

end Mappings

section Freeing

/-- The places that are left when the tables below `path` are gone. -/
def Pruned (place place' : Places) (gone : Nat × List Nat → Prop) : Prop :=
  ∀ x spot, place' x = some spot ↔ place x = some spot ∧ ¬ gone spot

/-- What `freewalk` does to the tables below some rows of indices: each goes to the free list
once. -/
structure Felled (place : Places) (ram : Ram) (gone : Nat × List Nat → Prop) (place' : Places) (after : Ram) :
    Prop where
  pruned : Pruned place place' gone
  first : after.first = ram.first
  freed : ∃ pages, after.freelist = pages ++ ram.freelist ∧ ∀ x, x ∈ pages ↔ ∃ spot, place x = some spot ∧ gone spot

/-- The tables below the first `i` entries of the table at `path`. -/
def Under (r : Nat) (path : List Nat) (i : Nat) (spot : Nat × List Nat) : Prop :=
  spot.1 = r ∧ ∃ j < i, (j :: path) <:+ spot.2

/-- After `i` turns of the loop in `freewalk`. -/
structure Clearing (loose : Nat → Nat → Prop) (place : Places) (ram : Ram) (q r : Nat) (path : List Nat) (i : Nat)
    (state : Ram) : Prop where
  felled : ∃ place', Forest loose place' state ∧ Felled place ram (Under r path i) place' state ∧
    ∀ t, place' t ≠ none → t ≠ q → state.pte t = ram.pte t
  cleared : ∀ j < i, (state.pte q j).v = false
  kept : ∀ j, i ≤ j → state.pte q j = ram.pte q j

theorem not_under_self (r : Nat) (path : List Nat) (i : Nat) : ¬ Under r path i (r, path) := by
  rintro ⟨-, j, -, suffix⟩
  have length := suffix.length_le
  simp at length

theorem under_succ {spot : Nat × List Nat} :
    Under r path (i + 1) spot ↔ Under r path i spot ∨ spot.1 = r ∧ (i :: path) <:+ spot.2 := by
  constructor
  · rintro ⟨root, j, below, suffix⟩
    rcases Nat.lt_succ_iff_lt_or_eq.mp below with less | rfl
    · exact .inl ⟨root, j, less, suffix⟩
    · exact .inr ⟨root, suffix⟩
  · rintro (⟨root, j, below, suffix⟩ | ⟨root, suffix⟩)
    · exact ⟨root, j, by omega, suffix⟩
    · exact ⟨root, i, by omega, suffix⟩

theorem suffix_cases {path p : List Nat} (suffix : path <:+ p) : p = path ∨ ∃ j, (j :: path) <:+ p := by
  obtain ⟨above, rfl⟩ := suffix
  rcases List.eq_nil_or_concat above with rfl | ⟨first, j, rfl⟩
  · exact .inl rfl
  · exact .inr ⟨j, first, by simp⟩

/-- The tables on the way to a table. -/
theorem Forest.ancestor (h : Forest loose place ram) {p above : List Nat} (placed : place q = some (r, p))
    (suffix : above <:+ p) : ∃ t, place t = some (r, above) := by
  induction p generalizing q with
  | nil =>
      rw [List.suffix_nil.mp suffix]
      exact ⟨q, placed⟩
  | cons i p ih =>
      rcases List.suffix_cons_iff.mp suffix with rfl | inner
      · exact ⟨q, placed⟩
      · obtain ⟨-, -, -, t, placedT, -⟩ := h.up q r i p placed
        exact ih placedT inner

/-- An entry that leads to a table is valid. -/
theorem Forest.leads (h : Forest loose place ram) {x : Nat} {p : List Nat} (placed : place q = some (r, path))
    (placedX : place x = some (r, p)) (suffix : (i :: path) <:+ p) : i < 512 ∧ (ram.pte q i).v = true := by
  obtain ⟨t, placedT⟩ := h.ancestor placedX suffix
  obtain ⟨-, bound, -, q', placedQ, points⟩ := h.up t r i path placedT
  rw [h.unique placed placedQ, points]
  exact ⟨bound, rfl⟩

/-- A turn at an entry that is not valid. -/
theorem Clearing.pass (h : Forest loose place ram) {state : Ram} (placed : place q = some (r, path))
    (clearing : Clearing loose place ram q r path i state) (invalid : (state.pte q i).v = false) :
    Clearing loose place ram q r path (i + 1) state := by
  obtain ⟨place', forest, felled, same⟩ := clearing.felled
  have under : ∀ x spot, place x = some spot → (Under r path (i + 1) spot ↔ Under r path i spot) := by
    rintro x ⟨r', p⟩ placedX
    rw [under_succ]
    refine or_iff_left ?_
    rintro ⟨rfl, suffix⟩
    have valid := (h.leads placed placedX suffix).2
    rw [clearing.kept i (le_refl _), valid] at invalid
    cases invalid
  refine ⟨⟨place', forest, ⟨fun x spot => ?_, felled.first, ?_⟩, same⟩, fun j below => ?_,
    fun j above => clearing.kept j (by omega)⟩
  · rw [felled.pruned x spot]
    exact and_congr_right fun was => not_congr (under x spot was).symm
  · obtain ⟨pages, freelist, members⟩ := felled.freed
    refine ⟨pages, freelist, fun x => (members x).trans ?_⟩
    exact exists_congr fun spot => and_congr_right fun was => (under x spot was).symm
  · rcases Nat.lt_succ_iff_lt_or_eq.mp below with less | rfl
    · exact clearing.cleared j less
    · exact invalid

theorem Clearing.start (h : Forest loose place ram) : Clearing loose place ram q r path 0 ram where
  felled := by
    refine ⟨place, h, ⟨fun x spot => ?_, rfl, [], rfl, fun x => ?_⟩, fun _ _ _ => rfl⟩
    · exact (and_iff_left fun under => absurd under.2.choose_spec.1 (Nat.not_lt_zero _)).symm
    · refine iff_of_false List.not_mem_nil ?_
      rintro ⟨spot, -, -, j, wrong, -⟩
      exact absurd wrong (Nat.not_lt_zero _)
  cleared j wrong := absurd wrong (Nat.not_lt_zero _)
  kept _ _ := rfl

theorem Clearing.skip (h : Forest loose place ram) {state : Ram} (placed : place q = some (r, path))
    (clearing : Clearing loose place ram q r path i state) (invalid : (state.pte q i).v = false) {next : Pte → VmM Unit} :
    outcome (do
        let pte ← getPte q i
        if pte.isTable then next pte
        else if pte.v then throw .freewalkLeaf)
      (fun _ after => Clearing loose place ram q r path (i + 1) after) (fun _ _ => False) state := by
  simp only [getPte, outcome_bind, outcome_get, outcome_pure, Pte.isTable, invalid, Bool.false_and, Bool.false_eq_true,
    if_false]
  exact clearing.pass h placed invalid

/-- A turn at an entry whose table has been freed. -/
theorem Clearing.drop {state after : Ram} {place' place'' : Places} (clearing : Clearing loose place ram q r path i state)
    (placed : place q = some (r, path)) (felled : Felled place ram (Under r path i) place' state)
    (same : ∀ t, place' t ≠ none → t ≠ q → state.pte t = ram.pte t)
    (forest : Forest (fun t' i' => loose t' i' ∨ t' = q ∧ i' = i) place'' after)
    (felled' : Felled place' state (fun spot => spot.1 = r ∧ (i :: path) <:+ spot.2) place'' after)
    (same' : ∀ t, place'' t ≠ none → after.pte t = state.pte t) :
    Clearing loose place ram q r path (i + 1) (after.put q i .zero) := by
  have placed' : place' q = some (r, path) := (felled.pruned q _).mpr ⟨placed, not_under_self r path i⟩
  have placed'' : place'' q = some (r, path) := by
    refine (felled'.pruned q _).mpr ⟨placed', ?_⟩
    rintro ⟨-, suffix⟩
    have length := suffix.length_le
    simp at length
  have old : ∀ t, place'' t ≠ none → place' t ≠ none := by
    intro t there
    obtain ⟨spot, placedT⟩ := Option.ne_none_iff_exists'.mp there
    rw [((felled'.pruned t spot).mp placedT).1]
    exact nofun
  have entry : ∀ j, after.pte q j = state.pte q j := fun j => by rw [same' q (by rw [placed'']; exact nofun)]
  refine ⟨⟨place'', ?_, ⟨fun x spot => ?_, felled'.first.trans felled.first, ?_⟩, fun t there other => ?_⟩,
    fun j below => ?_, fun j above => ?_⟩
  · refine forest.cut placed'' fun x placedX => ?_
    exact ((felled'.pruned x _).mp placedX).2 ⟨rfl, List.suffix_refl _⟩
  · rw [felled'.pruned, felled.pruned, under_succ, not_or, and_assoc]
  · obtain ⟨pages, freelist, members⟩ := felled.freed
    obtain ⟨pages', freelist', members'⟩ := felled'.freed
    refine ⟨pages' ++ pages, ?_, fun x => ?_⟩
    · change after.freelist = _
      rw [freelist', freelist, List.append_assoc]
    · rw [List.mem_append, members', members]
      constructor
      · rintro (⟨spot, was, gone⟩ | ⟨spot, was, gone⟩)
        · exact ⟨spot, ((felled.pruned x spot).mp was).1, under_succ.mpr (.inr gone)⟩
        · exact ⟨spot, was, under_succ.mpr (.inl gone)⟩
      · rintro ⟨spot, was, gone⟩
        by_cases before : Under r path i spot
        · exact .inr ⟨spot, was, before⟩
        · exact .inl ⟨spot, (felled.pruned x spot).mpr ⟨was, before⟩, (under_succ.mp gone).resolve_left before⟩
  · rw [← same t (old t there) other, ← same' t there]
    exact Function.update_of_ne other ..
  · rw [put_pte]
    split
    · rfl
    · rename_i elsewhere
      rw [entry j]
      exact clearing.cleared j (by have := fun here : j = i => elsewhere ⟨rfl, here⟩; omega)
  · rw [put_pte, if_neg (by omega), entry j]
    exact clearing.kept j (by omega)

/-- All tables below are gone and the table itself is freed. -/
theorem Clearing.finish (h : Forest loose place ram) {state : Ram} (placed : place q = some (r, path))
    (clearing : Clearing loose place ram q r path 512 state)
    (hangs : ∀ i above t, path = i :: above → place t = some (r, above) → loose t i) :
    outcome (kfree q)
      (fun _ after => ∃ place', Forest loose place' after ∧
        Felled place ram (fun spot => spot.1 = r ∧ path <:+ spot.2) place' after ∧
        ∀ t, place' t ≠ none → after.pte t = ram.pte t)
      (fun _ _ => False) state := by
  obtain ⟨place', forest, felled, same⟩ := clearing.felled
  have placed' : place' q = some (r, path) := (felled.pruned q _).mpr ⟨placed, not_under_self r path 512⟩
  have fell := forest.fell placed' clearing.cleared fun i above t shape placedT =>
    hangs i above t shape ((felled.pruned t _).mp placedT).1
  have used : q ∉ state.freelist := by
    intro member
    have unplaced := (forest.free q member).2.2
    rw [placed'] at unplaced
    cases unplaced
  have gone : ∀ x spot, place x = some spot →
      (spot.1 = r ∧ path <:+ spot.2 ↔ x = q ∨ Under r path 512 spot) := by
    rintro x ⟨r', p⟩ placedX
    constructor
    · rintro ⟨rfl, suffix⟩
      rcases suffix_cases suffix with rfl | ⟨j, deeper⟩
      · exact .inl (h.unique placedX placed)
      · exact .inr ⟨rfl, j, (h.leads placed placedX deeper).1, deeper⟩
    · rintro (rfl | ⟨rfl, j, -, suffix⟩)
      · rw [placed] at placedX
        cases placedX
        exact ⟨rfl, List.suffix_refl _⟩
      · exact ⟨rfl, (List.suffix_cons j path).trans suffix⟩
  refine outcome_post (kfree_forest fell ⟨forest.inside q r path placed', Function.update_self .., used⟩) ?_
  rintro - after ⟨forest', first, freelist, others⟩
  have left : ∀ x spot, Function.update place' q none x = some spot ↔ x ≠ q ∧ place' x = some spot := by
    intro x spot
    by_cases here : x = q
    · rw [here, Function.update_self]
      simp
    · rw [Function.update_of_ne here]
      simp [here]
  refine ⟨_, forest', ⟨fun x spot => ?_, first.trans felled.first, ?_⟩, fun t there => ?_⟩
  · rw [left, felled.pruned]
    constructor
    · rintro ⟨other, was, out⟩
      refine ⟨was, fun wrong => ?_⟩
      rcases (gone x spot was).mp wrong with here | under
      · exact other here
      · exact out under
    · rintro ⟨was, out⟩
      exact ⟨fun here => out ((gone x spot was).mpr (.inl here)), was, fun under =>
        out ((gone x spot was).mpr (.inr under))⟩
  · obtain ⟨pages, before, members⟩ := felled.freed
    refine ⟨q :: pages, by rw [freelist, before]; rfl, fun x => ?_⟩
    rw [List.mem_cons, members]
    constructor
    · rintro (rfl | ⟨spot, was, under⟩)
      · exact ⟨_, placed, rfl, List.suffix_refl _⟩
      · exact ⟨spot, was, (gone x spot was).mpr (.inr under)⟩
    · rintro ⟨spot, was, below⟩
      rcases (gone x spot was).mp below with here | under
      · exact .inl here
      · exact .inr ⟨spot, was, under⟩
  · obtain ⟨spot, placedT⟩ := Option.ne_none_iff_exists'.mp there
    obtain ⟨other, was⟩ := (left t spot).mp placedT
    rw [others t other, same t (by rw [was]; exact nofun) other]

/-- `freewalk` on a table without leaves below it frees each table below it once. -/
theorem freewalk_frees (depth : Nat) : ∀ (loose : Nat → Nat → Prop) (place : Places) (ram : Ram) (q : Nat)
    (path : List Nat), Forest loose place ram → place q = some (r, path) → path.length + depth = 2 →
    (∀ t p, place t = some (r, p) → path <:+ p → p.length = 2 → ∀ i < 512, (ram.pte t i).v = false) →
    (∀ t p, place t = some (r, p) → path <:+ p → ∀ i, ¬ loose t i) →
    (∀ i above t, path = i :: above → place t = some (r, above) → loose t i) →
    outcome (freewalk (depth + 1) q)
      (fun _ after => ∃ place', Forest loose place' after ∧
        Felled place ram (fun spot => spot.1 = r ∧ path <:+ spot.2) place' after ∧
        ∀ t, place' t ≠ none → after.pte t = ram.pte t)
      (fun _ _ => False) ram := by
  induction depth with
  | zero =>
      intro loose place ram q path h placed level bare tight hangs
      rw [freewalk]
      refine outcome_seq (loop_outcome (Clearing loose place ram q r path) 512 0 ram (.start h) ?_)
        fun _ state clearing => clearing.finish h placed hangs
      intro i state _ below clearing
      rw [Nat.zero_add] at below
      have invalid : (state.pte q i).v = false := by
        rw [clearing.kept i (le_refl _)]
        exact bare q path placed (List.suffix_refl _) level i below
      exact clearing.skip h placed invalid
  | succ depth ih =>
      intro loose place ram q path h placed level bare tight hangs
      rw [freewalk]
      refine outcome_seq (loop_outcome (Clearing loose place ram q r path) 512 0 ram (.start h) ?_)
        fun _ state clearing => clearing.finish h placed hangs
      intro i state _ below clearing
      rw [Nat.zero_add] at below
      by_cases valid : (state.pte q i).v = true
      · obtain ⟨place', forest, felled, same⟩ := clearing.felled
        have placed' : place' q = some (r, path) := (felled.pruned q _).mpr ⟨placed, not_under_self r path i⟩
        obtain ⟨c, points, placedC⟩ := forest.down q r path i placed' (by omega) below valid
          (tight q path placed (List.suffix_refl _) i)
        have deeper : ∀ t p, place' t = some (r, p) → (i :: path) <:+ p →
            place t = some (r, p) ∧ path <:+ p ∧ t ≠ q := by
          intro t p placedT suffix
          refine ⟨((felled.pruned t _).mp placedT).1, (List.suffix_cons i path).trans suffix, ?_⟩
          rintro rfl
          rw [placed'] at placedT
          cases placedT
          have length := suffix.length_le
          simp at length
        simp only [getPte, outcome_bind, outcome_get, outcome_pure, points]
        have isTable : (Pte.table c).isTable = true := rfl
        rw [if_pos isTable, outcome_bind]
        refine outcome_post (ih (fun t' i' => loose t' i' ∨ t' = q ∧ i' = i) place' state c (i :: path)
          (forest.mono fun _ _ => .inl) placedC (by simp only [List.length_cons]; omega) ?_ ?_ ?_) ?_
        · intro t p placedT suffix last j bound
          obtain ⟨was, inner, other⟩ := deeper t p placedT suffix
          rw [same t (by rw [placedT]; exact Option.some_ne_none _) other]
          exact bare t p was inner last j bound
        · rintro t p placedT suffix j (wrong | ⟨here, -⟩)
          · obtain ⟨was, inner, -⟩ := deeper t p placedT suffix
            exact tight t p was inner j wrong
          · exact (deeper t p placedT suffix).2.2 here
        · intro j above t shape placedT
          cases shape
          exact .inr ⟨forest.unique placedT placed', rfl⟩
        · rintro - after ⟨place'', forest'', felled'', same''⟩
          exact clearing.drop placed felled same forest'' felled'' same''
      · exact clearing.skip h placed (by simpa using valid)

end Freeing

section Tables

/-- The page tables at `roots` as `uvmcreate` and the functions of this module make them. The
rest of the kernel may take pages from the free list and give others back, and may write
wherever no page table is. -/
inductive Reach : List Nat → Ram → Prop where
  | boot {ram : Ram} : ram.freelist.Nodup → (∀ q ∈ ram.freelist, ram.first ≤ q ∧ q < stopPage) → Reach [] ram
  | uvmcreate {roots : List Nat} {ram after : Ram} {made : Option Nat} : Reach roots ram →
      uvmcreate ram = .ok made after → Reach (made.toList ++ roots) after
  | walk {roots : List Nat} {ram after : Ram} {r va : Nat} {alloc : Bool} {found : Option (Nat × Nat)} :
      Reach roots ram → r ∈ roots → walk r va alloc ram = .ok found after → Reach roots after
  | mappages {roots : List Nat} {ram after : Ram} {r va page size : Nat} {perm : Perm} {done : Bool} :
      Reach roots ram → r ∈ roots → mappages r va page size perm ram = .ok done after → Reach roots after
  | uvmunmap {roots : List Nat} {ram after : Ram} {r va npages : Nat} {doFree : Bool} : Reach roots ram → r ∈ roots →
      (doFree = true → Freeable roots ram r va npages) →
      uvmunmap r va npages doFree ram = .ok () after → Reach roots after
  | uvmclear {roots : List Nat} {ram after : Ram} {r va : Nat} : Reach roots ram → r ∈ roots →
      uvmclear r va ram = .ok () after → Reach roots after
  | freewalk {roots : List Nat} {ram after : Ram} {r : Nat} : Reach roots ram → r ∈ roots →
      (∀ n, n < vpnLimit → mapOf ram r n = none) → freewalk 3 r ram = .ok () after → Reach (roots.erase r) after
  | others {roots : List Nat} {ram after : Ram} : Reach roots ram → after.first = ram.first → after.freelist.Nodup →
      (∀ q ∈ after.freelist, ram.first ≤ q ∧ q < stopPage ∧ ∀ r ∈ roots, ∀ path, ¬ Below ram r path q) →
      (∀ r ∈ roots, ∀ path q, Below ram r path q → after.pte q = ram.pte q) → Reach roots after

/-- Trees with these roots. -/
structure Rooted (roots : List Nat) (place : Places) (ram : Ram) : Prop where
  forest : Forest Strict place ram
  distinct : roots.Nodup
  roots : ∀ q, place q = some (q, []) ↔ q ∈ roots

variable {roots : List Nat}

theorem Rooted.reshaped {place' : Places} {after : Ram} (rooted : Rooted roots place ram)
    (reshaped : Reshaped place ram place' after) : Rooted roots place' after :=
  ⟨reshaped.forest, rooted.distinct, fun q => (reshaped.roots q).trans (rooted.roots q)⟩

/-- What no root reaches has no place. -/
theorem Rooted.unplaced (rooted : Rooted roots place ram) (apart : ∀ r ∈ roots, ∀ path, ¬ Below ram r path q) :
    place q = none := by
  cases placed : place q with
  | none => rfl
  | some spot =>
      obtain ⟨r, path⟩ := spot
      have root := rooted.forest.rooted placed
      exact absurd ((rooted.forest.below_iff root).mpr placed) (apart r ((rooted.roots r).mp root) path)

theorem Rooted.removable (rooted : Rooted roots place ram) {va npages : Nat}
    (freeable : Freeable roots ram r va npages) :
    Removable place ram r (va / PGSIZE) (unmapCount va npages) := by
  intro m above below low pte maps
  obtain ⟨⟨within, apart, used⟩, distinct⟩ := freeable m above below low pte maps
  exact ⟨⟨within, rooted.unplaced apart, used⟩, distinct⟩

theorem uvmcreate_plants (rooted : Rooted roots place ram) :
    outcome uvmcreate (fun made after => ∃ place', Rooted (made.toList ++ roots) place' after) (fun _ _ => False) ram := by
  rw [uvmcreate]
  refine outcome_seq (kalloc_forest rooted.forest) ?_
  rintro made middle ⟨forest, first, -, result⟩
  cases made with
  | none => exact ⟨place, forest, rooted.distinct, rooted.roots⟩
  | some page =>
      obtain ⟨within, unplaced, used, -⟩ := result
      refine outcome_seq (memzero_forest forest unplaced) ?_
      rintro - zeroed ⟨forest', first', freelist, -, -, blank⟩
      have planted := forest'.plant unplaced (by rw [first', first]; exact within) (by rw [freelist]; exact used) blank
      have new : page ∉ roots := by
        intro member
        rw [(rooted.roots page).mpr member] at unplaced
        cases unplaced
      refine ⟨_, planted, List.nodup_cons.mpr ⟨new, rooted.distinct⟩, fun q => ?_⟩
      rw [Forest.placed_update unplaced, rooted.roots]
      change _ ↔ q ∈ page :: roots
      rw [List.mem_cons]
      constructor
      · rintro (⟨here, -⟩ | old)
        · exact .inl here
        · exact .inr old
      · rintro (rfl | old)
        · exact .inl ⟨rfl, rfl⟩
        · exact .inr old

/-- A table without leaves is freed with all its page-table pages. -/
theorem freewalk_fells (rooted : Rooted roots place ram) (member : r ∈ roots)
    (bare : ∀ n, n < vpnLimit → mapOf ram r n = none) :
    outcome (freewalk 3 r)
      (fun _ after => ∃ place', Rooted (roots.erase r) place' after ∧
        Felled place ram (fun spot => spot.1 = r) place' after ∧ ∀ t, place' t ≠ none → after.pte t = ram.pte t)
      (fun _ _ => False) ram := by
  have root := (rooted.roots r).mpr member
  refine outcome_post (freewalk_frees 2 Strict place ram r [] rooted.forest root rfl ?_ (fun _ _ _ _ _ => id) nofun) ?_
  · intro t p placed _ last i bound
    match p, last with
    | [b, a], _ =>
        obtain ⟨-, bound₁, -, t', placed', -⟩ := rooted.forest.up t r b [a] placed
        obtain ⟨-, -, low, -⟩ := rooted.forest.up t' r a [] placed'
        have value := rooted.forest.mapOf_at placed bound rfl
        rw [bare _ (by rw [vpnLimit, MAXVA, PGSIZE]; have := low rfl; omega), entry] at value
        split at value
        · cases value
        · rename_i invalid
          simpa using invalid
  · rintro - after ⟨place', forest, felled, same⟩
    have whole : (fun spot : Nat × List Nat => spot.1 = r ∧ [] <:+ spot.2) = fun spot => spot.1 = r :=
      funext fun spot => propext (and_iff_left List.nil_suffix)
    rw [whole] at felled
    refine ⟨place', ⟨forest, rooted.distinct.erase r, fun q => ?_⟩, felled, same⟩
    rw [felled.pruned, rooted.roots, List.Nodup.mem_erase_iff rooted.distinct, and_comm]

theorem reach_rooted (reach : Reach roots ram) : ∃ place, Rooted roots place ram := by
  induction reach with
  | boot distinct within =>
      exact ⟨fun _ => none, ⟨distinct, fun q member => ⟨(within q member).1, (within q member).2, rfl⟩, nofun, nofun,
        nofun, nofun⟩, List.nodup_nil, fun q => by simp⟩
  | uvmcreate _ ran ih =>
      obtain ⟨place, rooted⟩ := ih
      have kept := outcome_of_ok (uvmcreate_plants rooted) ran
      exact kept
  | @walk _ _ _ r va alloc _ _ member ran ih =>
      obtain ⟨place, rooted⟩ := ih
      by_cases bound : va < MAXVA
      · have kept := outcome_of_ok (walk_grows rooted.forest ((rooted.roots r).mpr member) bound alloc) ran
        obtain ⟨place', grown, -⟩ := kept
        exact ⟨place', rooted.reshaped grown.toReshaped⟩
      · rw [Vm.walk, if_pos (Nat.not_lt.mp bound)] at ran
        cases ran
  | mappages _ member ran ih =>
      obtain ⟨place, rooted⟩ := ih
      have kept := outcome_of_ok (mappages_reshapes rooted.forest ((rooted.roots _).mpr member) _ _ _ _) ran
      obtain ⟨place', reshaped⟩ := kept
      exact ⟨place', rooted.reshaped reshaped⟩
  | uvmunmap _ member freeable ran ih =>
      obtain ⟨place, rooted⟩ := ih
      have kept := outcome_of_ok (uvmunmap_unmaps rooted.forest ((rooted.roots _).mpr member) _ _ _
        fun frees => rooted.removable (freeable frees)) ran
      exact ⟨place, rooted.reshaped kept.1⟩
  | uvmclear _ member ran ih =>
      obtain ⟨place, rooted⟩ := ih
      have kept := outcome_of_ok (uvmclear_clears rooted.forest ((rooted.roots _).mpr member) _) ran
      exact ⟨place, rooted.reshaped kept.1⟩
  | freewalk _ member bare ran ih =>
      obtain ⟨place, rooted⟩ := ih
      have kept := outcome_of_ok (freewalk_fells rooted member bare) ran
      obtain ⟨place', rooted', -⟩ := kept
      exact ⟨place', rooted'⟩
  | others _ first distinct free same ih =>
      obtain ⟨place, rooted⟩ := ih
      refine ⟨place, rooted.forest.frame first distinct (fun q member => ?_) (fun q placed => ?_), rooted.distinct,
        rooted.roots⟩
      · obtain ⟨low, high, apart⟩ := free q member
        exact ⟨low, high, rooted.unplaced apart⟩
      · obtain ⟨⟨r, path⟩, placedQ⟩ := Option.ne_none_iff_exists'.mp placed
        have root := rooted.forest.rooted placedQ
        exact same r ((rooted.roots r).mp root) path q ((rooted.forest.below_iff root).mpr placedQ)

/-- The page tables at `roots` are finite maps, each in a tree of its own. -/
structure FiniteMaps (roots : List Nat) (ram : Ram) : Prop where
  /-- No page-table page is reached twice, and none is free. -/
  tree : ∀ r r' path path' q, r ∈ roots → r' ∈ roots → Below ram r path q → Below ram r' path' q →
    (r = r' ∧ path = path') ∧ q ∉ ram.freelist
  /-- `walk` changes no map and finds the entry of `va`. -/
  walk : ∀ r ∈ roots, ∀ va alloc, va < MAXVA → outcome (walk r va alloc)
    (fun found after => (∀ r' ∈ roots, ∀ n, n < vpnLimit → mapOf after r' n = mapOf ram r' n) ∧
      (alloc = false → after = ram) ∧
      match found with
      | none => mapOf ram r (va / PGSIZE) = none ∧ (alloc = true → Starved ram)
      | some (t, i) => i = PX 0 va ∧ Below after r [PX 1 va, PX 2 va] t ∧
          mapOf ram r (va / PGSIZE) = entry (after.pte t i))
    (fun _ _ => False) ram
  /-- `mappages` adds its pages, all of them when it succeeds. -/
  mappages : ∀ r ∈ roots, ∀ va page size perm, 0 < size → va + size ≤ MAXVA →
    (∀ m, va / PGSIZE ≤ m → m ≤ (va + size - 1) / PGSIZE → mapOf ram r m = none) →
    outcome (mappages r va page size perm)
      (fun done after => ∃ last, (done = true → last = (va + size - 1) / PGSIZE + 1) ∧
        last ≤ (va + size - 1) / PGSIZE + 1 ∧
        ∀ r' ∈ roots, ∀ m, m < vpnLimit → mapOf after r' m =
          if r' = r ∧ va / PGSIZE ≤ m ∧ m < last then
            some { ppn := page + (m - va / PGSIZE), v := true, perm }
          else mapOf ram r' m)
      (fun _ _ => False) ram
  /-- `uvmunmap` removes its pages. -/
  uvmunmap : ∀ r ∈ roots, ∀ va npages doFree, va % PGSIZE = 0 → va + npages * PGSIZE ≤ MAXVA →
    (∀ m, va / PGSIZE ≤ m → m < va / PGSIZE + npages → ∃ pte, mapOf ram r m = some pte ∧ pte.perm ≠ .none) →
    (doFree = true → Freeable roots ram r va npages) →
    outcome (uvmunmap r va npages doFree)
      (fun _ after => ∀ r' ∈ roots, ∀ m, m < vpnLimit → mapOf after r' m =
        if r' = r ∧ va / PGSIZE ≤ m ∧ m < va / PGSIZE + npages then none else mapOf ram r' m)
      (fun _ _ => False) ram
  /-- `uvmclear` takes `PTE_U` from one page. -/
  uvmclear : ∀ r ∈ roots, ∀ va pte, va < MAXVA → mapOf ram r (va / PGSIZE) = some pte → outcome (uvmclear r va)
    (fun _ after => ∀ r' ∈ roots, ∀ m, m < vpnLimit → mapOf after r' m =
      if r' = r ∧ m = va / PGSIZE then some { pte with perm := { pte.perm with u := false } } else mapOf ram r' m)
    (fun _ _ => False) ram
  /-- `freewalk` frees every page-table page of an empty table once and leaves the others. -/
  freewalk : ∀ r ∈ roots, (∀ n, n < vpnLimit → mapOf ram r n = none) → outcome (freewalk 3 r)
    (fun _ after => (∃ pages, after.freelist = pages ++ ram.freelist ∧ pages.Nodup ∧
        ∀ q, q ∈ pages ↔ ∃ path, Below ram r path q) ∧
      ∀ r' ∈ roots, r' ≠ r → ∀ n, n < vpnLimit → mapOf after r' n = mapOf ram r' n)
    (fun _ _ => False) ram

theorem Rooted.finiteMaps (rooted : Rooted roots place ram) : FiniteMaps roots ram where
  tree r r' path path' q member member' below below' := by
    have forest := rooted.forest
    have placed := (forest.below_iff ((rooted.roots r).mpr member)).mp below
    have placed' := (forest.below_iff ((rooted.roots r').mpr member')).mp below'
    have same := placed.symm.trans placed'
    refine ⟨by cases same; exact ⟨rfl, rfl⟩, fun free => ?_⟩
    rw [(forest.free q free).2.2] at placed
    cases placed
  walk r member va alloc bound := by
    have root := (rooted.roots r).mpr member
    have low := vpn_lt.mp bound
    refine outcome_post (walk_grows rooted.forest root bound alloc) ?_
    rintro found after ⟨place', grown, still, result⟩
    refine ⟨fun r' member' n low' => grown.maps r' ((rooted.roots r').mpr member') n low', fun off => (still off).1, ?_⟩
    cases found with
    | none => exact result
    | some spot =>
        obtain ⟨t, i⟩ := spot
        obtain ⟨rfl, placed⟩ := result
        refine ⟨rfl, ?_, ?_⟩
        · rw [PX_one, PX_two bound]
          exact (grown.forest.below_iff (grown.kept r _ root)).mpr placed
        · rw [← grown.maps r root _ low]
          exact (grown.forest.entry_at placed).1
  mappages r member va page size perm some_ fits vacant := by
    refine outcome_post (mappages_maps rooted.forest ((rooted.roots r).mpr member) page perm some_ fits vacant) ?_
    rintro done after ⟨last, all, few, maps⟩
    exact ⟨last, all, few, fun r' member' => maps r' ((rooted.roots r').mpr member')⟩
  uvmunmap r member va npages doFree aligned fits full freeable := by
    have count : unmapCount va npages = npages := by
      rw [MAXVA] at fits
      rw [unmapCount, word64]
      rw [PGSIZE] at fits ⊢
      omega
    have limit : va / PGSIZE + npages ≤ vpnLimit := by
      rw [vpnLimit, MAXVA]
      rw [MAXVA] at fits
      rw [PGSIZE] at fits aligned ⊢
      omega
    refine outcome_mono (uvmunmap_unmaps rooted.forest ((rooted.roots r).mpr member) va npages doFree
      fun frees => rooted.removable (freeable frees)) ?_ ?_
    · rintro - after ⟨-, maps⟩ r' member'
      rw [count] at maps
      exact maps r' ((rooted.roots r').mpr member')
    · rintro - - wrong
      rw [count] at wrong
      exact wrong ⟨aligned, fun m above below => ⟨by omega, full m above below⟩⟩
  uvmclear r member va pte bound maps := by
    refine outcome_mono (uvmclear_clears rooted.forest ((rooted.roots r).mpr member) va) ?_ ?_
    · rintro - after ⟨-, effect⟩ r' member' m low
      rw [effect r' ((rooted.roots r').mpr member') m low]
      by_cases here : r' = r ∧ m = va / PGSIZE
      · rw [if_pos here, if_pos here, here.2, maps]
        rfl
      · rw [if_neg here, if_neg here]
    · rintro - - wrong
      exact wrong ⟨bound, by rw [maps]; rfl⟩
  freewalk r member bare := by
    have forest := rooted.forest
    have root := (rooted.roots r).mpr member
    refine outcome_post (freewalk_fells rooted member bare) ?_
    rintro - after ⟨place', rooted', felled, same⟩
    obtain ⟨pages, freelist, members⟩ := felled.freed
    refine ⟨⟨pages, freelist, ?_, fun q => (members q).trans ?_⟩, fun r' member' other n low => ?_⟩
    · have distinct := rooted'.forest.nodup
      rw [freelist] at distinct
      exact (List.nodup_append.mp distinct).1
    · constructor
      · rintro ⟨⟨r', path⟩, placed, here⟩
        change r' = r at here
        rw [here] at placed
        exact ⟨path, (forest.below_iff root).mpr placed⟩
      · rintro ⟨path, below⟩
        exact ⟨_, (forest.below_iff root).mp below, rfl⟩
    · have root' := (rooted.roots r').mpr member'
      have kept : ∀ t path, place t = some (r', path) → place' t = some (r', path) :=
        fun t path placed => (felled.pruned t _).mpr ⟨placed, other⟩
      refine forest.mapOf_eq rooted'.forest root' (kept r' _ root') (fun t a b placed => ⟨kept t _ placed, fun i _ => ?_⟩)
        (fun t a b placed => .inl ((felled.pruned t _).mp placed).1) low
      rw [same t (by rw [kept t _ placed]; exact Option.some_ne_none _)]

end Tables

section Words

def PTE_V : Nat := 1 <<< 0
def PTE_R : Nat := 1 <<< 1
def PTE_W : Nat := 1 <<< 2
def PTE_X : Nat := 1 <<< 3
def PTE_U : Nat := 1 <<< 4
def PXMASK : Nat := 0x1ff
def PXSHIFT (level : Nat) : Nat := 12 + 9 * level
def PTE2PA (pte : Nat) : Nat := word64 ((pte >>> 10) <<< 12)
def PA2PTE (pa : Nat) : Nat := (pa >>> 12) <<< 10
def PTE_FLAGS (pte : Nat) : Nat := pte &&& 0x3FF

/-- The bits of the permissions, as `mappages` takes them in `flags`. -/
def Perm.bits (perm : Perm) : Nat :=
  (if perm.r then PTE_R else 0) ||| (if perm.w then PTE_W else 0) ||| (if perm.x then PTE_X else 0) |||
    (if perm.u then PTE_U else 0)

/-- The entry that a word stands for. -/
def Pte.ofWord (word : Nat) : Pte where
  ppn := word >>> 10
  v := word &&& PTE_V ≠ 0
  perm := { r := word &&& PTE_R ≠ 0, w := word &&& PTE_W ≠ 0, x := word &&& PTE_X ≠ 0, u := word &&& PTE_U ≠ 0 }

theorem Perm.bits_lt (perm : Perm) : perm.bits ||| PTE_V < 2 ^ 10 := by
  obtain ⟨r, w, x, u⟩ := perm
  revert r w x u
  decide

/-- A mask of the low bits does not see the page number. -/
theorem low_bits (page : Nat) {flags mask : Nat} (small : mask < 2 ^ 10) :
    (page <<< 10 ||| flags) &&& mask = flags &&& mask := by
  have high : page <<< 10 &&& mask = 0 := by
    refine Nat.eq_of_testBit_eq fun i => ?_
    rw [Nat.testBit_and, Nat.testBit_shiftLeft, Nat.zero_testBit]
    by_cases low : i < 10
    · simp [Nat.not_le.mpr low]
    · have beyond : mask.testBit i = false :=
        Nat.testBit_lt_two_pow (Nat.lt_of_lt_of_le small (Nat.pow_le_pow_right (by decide) (by omega)))
      simp [beyond]
  rw [Nat.and_or_distrib_right, high, Nat.zero_or]

theorem high_bits (page : Nat) {flags : Nat} (small : flags < 2 ^ 10) : (page <<< 10 ||| flags) >>> 10 = page := by
  rw [← Nat.shiftLeft_add_eq_or_of_lt small, Nat.shiftLeft_eq, Nat.shiftRight_eq_div_pow]
  omega

/-- The words of `riscv.h` against the entries of the model. -/
structure EntryWords : Prop where
  index : ∀ level va, (va >>> PXSHIFT level) &&& PXMASK = PX level va
  made : ∀ (pa : Nat) (perm : Perm), Pte.ofWord (PA2PTE pa ||| perm.bits ||| PTE_V) = { ppn := pa / PGSIZE, v := true, perm }
  address : ∀ (pa : Nat) (perm : Perm), pa < 2 ^ 64 → PTE2PA (PA2PTE pa ||| perm.bits ||| PTE_V) = PGROUNDDOWN pa
  flags : ∀ (pa : Nat) (perm : Perm), PTE_FLAGS (PA2PTE pa ||| perm.bits ||| PTE_V) = perm.bits ||| PTE_V
  cleared : ∀ word, word < 2 ^ 64 → Pte.ofWord (word &&& (2 ^ 64 - 1 - PTE_U)) =
    { Pte.ofWord word with perm := { (Pte.ofWord word).perm with u := false } }

theorem ofWord_bits (page : Nat) (perm : Perm) :
    Pte.ofWord (page <<< 10 ||| (perm.bits ||| PTE_V)) = { ppn := page, v := true, perm } := by
  have fields : Pte.ofWord (perm.bits ||| PTE_V) = { ppn := 0, v := true, perm } := by
    obtain ⟨r, w, x, u⟩ := perm
    revert r w x u
    decide
  simp only [Pte.ofWord, Pte.mk.injEq] at fields
  simp only [Pte.ofWord, high_bits page perm.bits_lt, low_bits page (show PTE_V < 2 ^ 10 by decide),
    low_bits page (show PTE_R < 2 ^ 10 by decide), low_bits page (show PTE_W < 2 ^ 10 by decide),
    low_bits page (show PTE_X < 2 ^ 10 by decide), low_bits page (show PTE_U < 2 ^ 10 by decide), fields.2.1, fields.2.2]

theorem entry_words : EntryWords where
  index level va := by
    have mask : PXMASK = 2 ^ 9 - 1 := rfl
    rw [mask, Nat.and_two_pow_sub_one_eq_mod, Nat.shiftRight_eq_div_pow]
    rfl
  made pa perm := by
    rw [PA2PTE, Nat.or_assoc, ofWord_bits, Nat.shiftRight_eq_div_pow]
    rfl
  address pa perm small := by
    rw [PTE2PA, PA2PTE, Nat.or_assoc, high_bits _ perm.bits_lt, Nat.shiftRight_eq_div_pow, Nat.shiftLeft_eq, word64,
      PGROUNDDOWN, PGSIZE]
    omega
  flags pa perm := by
    have mask : 0x3FF = 2 ^ 10 - 1 := rfl
    rw [PTE_FLAGS, PA2PTE, Nat.or_assoc, low_bits _ (by decide), mask,
      Nat.and_two_pow_sub_one_of_lt_two_pow perm.bits_lt]
  cleared word small := by
    have page : (word &&& (2 ^ 64 - 1 - PTE_U)) >>> 10 = word >>> 10 := by
      have mask : (2 ^ 64 - 1 - PTE_U) >>> 10 = 2 ^ 54 - 1 := by decide
      have below : word >>> 10 < 2 ^ 54 := by
        rw [Nat.shiftRight_eq_div_pow]
        omega
      rw [Nat.shiftRight_and_distrib, mask, Nat.and_two_pow_sub_one_of_lt_two_pow below]
    have kept : ∀ bit, (2 ^ 64 - 1 - PTE_U) &&& bit = bit → (word &&& (2 ^ 64 - 1 - PTE_U)) &&& bit = word &&& bit :=
      fun bit same => by rw [Nat.and_assoc, same]
    have gone : (word &&& (2 ^ 64 - 1 - PTE_U)) &&& PTE_U = 0 := by
      have none : (2 ^ 64 - 1 - PTE_U) &&& PTE_U = 0 := by decide
      rw [Nat.and_assoc, none, Nat.and_zero]
    simp only [Pte.ofWord, page, kept PTE_V (by decide), kept PTE_R (by decide), kept PTE_W (by decide),
      kept PTE_X (by decide), gone]
    rfl

end Words

section Claims

/-- The page tables made by `uvmcreate` are finite maps, whatever is done to them, and the
words of the entries hold what the maps say. -/
theorem page_tables_are_maps {roots : List Nat} (reach : Reach roots ram) : FiniteMaps roots ram ∧ EntryWords := by
  obtain ⟨place, rooted⟩ := reach_rooted reach
  exact ⟨rooted.finiteMaps, entry_words⟩

/-- Memory with four free pages. -/
def fourPages : Ram where
  first := 0x80000
  trampoline := 0x80000
  freelist := [0x80001, 0x80002, 0x80003, 0x80004]
  pte _ _ := .zero
  byte _ _ := 0
  faults := []

theorem fourPages_map : ∃ ram, Reach [0x80001] ram ∧
    mapOf ram 0x80001 5 = some { ppn := 77, v := true, perm := userPerm true false } ∧
    FiniteMaps [0x80001] ram ∧ EntryWords := by
  have booted : Reach [] fourPages := .boot (by decide) (by decide)
  obtain ⟨created, ran⟩ : ∃ created, uvmcreate fourPages = .ok (some 0x80001) created := ⟨_, rfl⟩
  have reach : Reach [0x80001] created := .uvmcreate booted ran
  obtain ⟨ram, maps, value⟩ : ∃ ram,
      mappages 0x80001 (5 * PGSIZE) 77 100 (userPerm true false) created = .ok true ram ∧
        mapOf ram 0x80001 5 = some { ppn := 77, v := true, perm := userPerm true false } := by
    cases ran
    exact ⟨_, rfl, rfl⟩
  have reached : Reach [0x80001] ram := .mappages reach List.mem_cons_self maps
  exact ⟨ram, reached, value, page_tables_are_maps reached⟩

end Claims

end PaddleOs.Vm

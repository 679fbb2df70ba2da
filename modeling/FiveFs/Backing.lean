import FiveFs.Strict
import FiveFs.Filed
import FiveFs.Lease

/-! The allocator of an AG, under the mappings of files: it keeps what is promised of an allocator
there. -/

namespace FiveFs

open Buffer Prog Refine Radix

section

variable [Crc32c] {A : Ag} {stale : Nat → Prop} {base w w' : Work} {hdr : AgHeader}
    {T T' : Nat → Tree} {taken : Nat → Prop}

namespace Work

theorem granuleAt_wp (sound : A.Sound stale w hdr T) {l d : Nat} (inside : l < A.length)
    (depth : d ≤ 2)
    (whole : ∀ c < A.cells, ¬ A.Split c) (full : spot T l 0 = some (.full, d)) :
    wp (granuleAt (A.blk l)) (fun g w' => g = granule d ∧ w' = w) (fun _ _ => False) w := by
  have held := sound.ready.held
  have of := sound.ready.tally.of
  have hc : l / CELL_BLOCKS < A.cells := A.lt_cells inside
  have leaf := leaf_of_spot depth full
  have root := held.root hc (fun h => by cases h)
  rw [granuleAt, Ag.blk, blkSplit_blkAddr _ (Nat.lt_trans inside A.length_lt)]
  dsimp only
  rw [wp_bind, wp_run sound.read, wp_bind, wp_run (rtState_run held.on of hc)]
  cases cell : T (l / CELL_BLOCKS) with
  | leaf s =>
      rw [spot, cell, Cell.look_leaf] at full
      cases full
      rw [if_pos (root.full.mpr cell), wp_pure]
      exact ⟨rfl, rfl⟩
  | refined r kids =>
      obtain ⟨state, ref⟩ := cellMark_eq_refined.mp (cell ▸ held.models _ hc (fun h => by cases h) :
        Models (A.kidMark w.view) (A.rootMark w.view (l / CELL_BLOCKS)) (.refined r kids)).1
      have known : A.Known T none r := Ag.known_of_tree hc (cell ▸ refCount_self r kids)
      have at_root : (T (l / CELL_BLOCKS)).sub [] = some (.refined r kids) := by
        rw [Cell.sub_nil, cell]
      have kid := held.kid hc (fun h => by cases h) at_root (childOf l)
      have index : l % CELL_BLOCKS / ALLOC_FANOUT = (childOf l).val := rfl
      rw [spot, cell, digits_eq, Cell.look_refined] at full
      change (kids (childOf l)).look (0 + 1) _ = _ at full
      rw [state, if_neg (by decide), if_pos rfl, wp_bind]
      refine rtRef_wp held.on of hc (fun _ => ?_) fun split => absurd split (whole _ hc)
      rw [ref, wp_bind, wp_run (held.recRead_run known), index]
      cases child : kids (childOf l) with
      | leaf s =>
          rw [child, Cell.look_leaf] at full
          cases full
          rw [if_pos (kid.full.mpr child), wp_pure]
          exact ⟨rfl, rfl⟩
      | refined r' kids' =>
          obtain ⟨state', _⟩ := cellMark_eq_refined.mp
              (child ▸ (held.models _ hc (fun h => by cases h)).sub at_root (childOf l) :
            Models (A.kidMark w.view) (A.kidMark w.view r (childOf l)) (.refined r' kids')).1
          rw [child, Cell.look_refined] at full
          have deep := Cell.look_depth full
          obtain rfl : d = 2 := by omega
          rw [state', if_neg (by decide), if_pos rfl, wp_pure]
          exact ⟨rfl, rfl⟩

theorem granuleAt_run (sound : A.Sound stale w hdr T) {l d : Nat} (inside : l < A.length)
    (depth : d ≤ 2)
    (whole : ∀ c < A.cells, ¬ A.Split c) (full : spot T l 0 = some (.full, d)) :
    granuleAt (A.blk l) w = (.ok (granule d), w) := by
  obtain ⟨_, _, run, rfl, rfl⟩ := wp_total (granuleAt_wp sound inside depth whole full)
  exact run

theorem nodeRead_same {b : Nat} (mapped : w.Mapped b) (mapped' : w'.Mapped b)
    (size : w'.blocksize = w.blocksize)
    (same : w'.view b = w.view b) : w'.nodeRead b = w.nodeRead b := by
  rw [nodeRead, nodeRead, txnRead_run mapped, txnRead_run mapped', same, size]

end Work

/-- The block is in a granule that is FULL. -/
def Backed (A : Ag) (T : Nat → Tree) (b : Nat) : Prop :=
  ∃ l d, b = A.blk l ∧ l < A.length ∧ d ≤ 2 ∧ ∀ s, spot T l s = some (.full, d)

/-- What the mapping of a file does to the store: the allocator grants or takes back, or a block of
the tree is written. -/
inductive Work.Call (A : Ag) : Work → Work → Prop
  | alloc {n blk : Nat} {w w' : Work} : Work.allocExtent A.num n w = (.ok blk, w') → Call A w w'
  | release {blk : Nat} {w w' : Work} : Work.freeExtent blk 1 w = (.ok (), w') → Call A w w'
  | write {blk : Nat} {data : Bytes} {w : Work} : getU32 data 0 = TREE_MAGIC →
      Call A w (w.put blk data)

/-- The AG is sound, and has the blocks of `taken` in use; the calls since `base` kept its device
and its AG map. -/
def Keeping (A : Ag) (stale : Nat → Prop) (base w : Work) (taken : Nat → Prop) : Prop :=
  Relation.ReflTransGen (Work.Call A) base w ∧ base.Kin w ∧ ∃ hdr T, A.Sound stale w hdr T ∧ ∀ b,
  taken b → Backed A T b

/-- The run ends where the allocator failed, called on a store that the calls since `base` led to,
or was stopped there. -/
def Refused (A : Ag) (base : Work) (e : Err) (w' : Work) : Prop :=
  e = Allocator.spoiled ∨ ∃ n w₀, Relation.ReflTransGen (Work.Call A) base w₀ ∧
  Work.allocExtent A.num n w₀ = (.error e, w')

theorem Ran.views {hdr' : AgHeader} (ran : Ran A w w' hdr hdr' T T' fun _ => False)
    (sound' : A.Sound stale w' hdr' T') {b : Nat} (backed : Backed A T' b) :
    w'.view b = w.view b := by
  obtain ⟨l, d, rfl, inside, _, full⟩ := backed
  refine ran.frame _ (fun same => ?_) (fun l' root same => ?_) (fun l' arena same => ?_)
    fun _ none => none.elim
  · exact ne_of_full (full 0) sound'.header_rsvd same.symm
  · exact ne_of_full (full 0) (sound'.ready.held.root_rsvd root) same.symm
  · exact ne_of_full (full 0) arena.2.1 same.symm

theorem Ran.untouched {hdr' : AgHeader} (ran : Ran A w w' hdr hdr' T T' fun _ => False)
    (sound : A.Sound stale w hdr T) (sound' : A.Sound stale w' hdr' T') {S : Nat → Prop}
    (backed : ∀ b, S b → Backed A T' b) : Untouched S w w' := by
  refine ⟨ran.kin.blocksize, fun b kept => ?_, fun b kept => ran.views sound' (backed b kept)⟩
  have view := ran.views sound' (backed b kept)
  obtain ⟨l, d, rfl, inside, _, full⟩ := backed b kept
  exact Work.nodeRead_same (sound.ready.held.on.mapped l inside)
    (sound'.ready.held.on.mapped l inside) ran.kin.blocksize view

omit [Crc32c] in
theorem Backed.granted {l n d b : Nat} (granted : Granted A T T' l n d) (backed : Backed A T b) :
    Backed A T' b ∧ ¬ (A.blk l ≤ b ∧ b < A.blk l + n) := by
  obtain ⟨k, e, rfl, inside, depth, full⟩ := backed
  have off : ¬ (l ≤ k ∧ k < l + n) := by
    rintro ⟨low, high⟩
    obtain ⟨_, _, free⟩ := granted.was k 0 low high
    rw [full 0] at free
    cases free
  refine ⟨⟨k, e, rfl, inside, depth, fun s => ?_⟩, fun both => off ?_⟩
  · rcases granted.others k s off with same | ⟨⟨_, _, free⟩, _⟩
    · rw [same, full s]
    · rw [full s] at free
      cases free
  · rw [Ag.blk, Ag.blk, blkAddr, blkAddr] at both
    omega

omit [Crc32c] in
theorem backed_of_granted {l n d b : Nat} (granted : Granted A T T' l n d) (low : A.blk l ≤ b)
    (high : b < A.blk l + n) :
    Backed A T' b := by
  have inside := granted.inside
  rw [Ag.blk, blkAddr] at low high
  refine ⟨b - A.num * 2 ^ 32, d, by rw [Ag.blk, blkAddr]; omega, by omega, granted.depth,
      fun s => ?_⟩
  exact granted.now _ s (by omega) (by omega)

theorem Keeping.alloc {n : Nat} (keeping : Keeping A stale base w taken)
    (whole : ∀ c < A.cells, ¬ A.Split c) (some_block : 0 < n) :
    wp ((Work.allocator A.num).strict.alloc n) (fun a w' => RunFits n a ∧
    (∀ b, a ≤ b → b < a + n → ¬ taken b) ∧
      Keeping A stale base w' (fun b => taken b ∨ (a ≤ b ∧ b < a + n)) ∧ Untouched taken w w' ∧
      (n = 1 → Work.granuleAt a w' = (.ok 1, w')))
      (fun e w' => Refused A base e w' ∧ ((∃ m, e = .bail m) → Keeping A stale base w' taken ∧
      Untouched taken w w')) w := by
  obtain ⟨calls, kin, hdr, T, sound, backed⟩ := keeping
  refine wp_mono (wp_outcome (Allocator.strict_alloc (A := Work.allocator A.num)
      (Work.allocExtent_wp sound some_block))) ?_ ?_
  · rintro a w' ⟨run, hdr', T', l, rfl, sound', ran, granted, _⟩
    have inside := granted.inside
    have short := A.length_lt
    have number := A.num_lt
    have enough := le_roundUp some_block
    have whole_run : ∀ b, A.blk l ≤ b → b < A.blk l + n → Backed A T' b := fun b low high =>
      backed_of_granted granted low (by omega)
    refine ⟨⟨?_, ?_⟩, fun b low high old => ((backed b old).granted granted).2 ⟨low, by omega⟩,
      ⟨calls.tail (.alloc (Allocator.of_strict_alloc run)), kin.trans ran.kin, hdr', T', sound',
      fun b => Or.rec (fun old => ((backed b old).granted granted).1) fun new =>
      whole_run b new.1 new.2⟩,
      ran.untouched sound sound' fun b old => ((backed b old).granted granted).1,
      fun one => ?_⟩
    · rw [Ag.blk, blkAddr]
      omega
    · rw [Ag.blk, blkAddr]
      omega
    · subst one
      exact Work.granuleAt_run sound' (by omega) granted.depth whole
          (granted.now l 0 (Nat.le_refl _) (by omega))
  · rintro e w' ⟨_, fails, same⟩
    refine ⟨fails.imp id fun run => ⟨n, w, calls, run⟩, fun bails => ?_⟩
    rw [same bails]
    exact ⟨⟨calls, kin, hdr, T, sound, backed⟩, .refl _ w⟩

theorem Keeping.write {b : Nat} {data : Bytes} (keeping : Keeping A stale base w taken)
    (whole : ∀ c < A.cells, ¬ A.Split c)
    (old : taken b) (magic : getU32 data 0 = TREE_MAGIC) :
    Keeping A stale base (w.put b data) taken ∧
      ∀ b', taken b' → Work.granuleAt b' w = (.ok 1, w) →
      Work.granuleAt b' (w.put b data) = (.ok 1, w.put b data) := by
  obtain ⟨calls, kin, hdr, T, sound, backed⟩ := keeping
  obtain ⟨l, d, rfl, inside, depth, full⟩ := backed b old
  have sound' : A.Sound stale (w.put (A.blk l) data) hdr T :=
      sound.write inside (full 0) fun other => absurd (magic.symm.trans other) (by decide)
  refine ⟨⟨calls.tail (.write magic), kin.put _ data, hdr, T, sound', backed⟩,
      fun b' old' run => ?_⟩
  obtain ⟨l', d', rfl, inside', depth', full'⟩ := backed b' old'
  have before := Work.granuleAt_run sound inside' depth' whole (full' 0)
  rw [run] at before
  rw [Work.granuleAt_run sound' inside' depth' whole (full' 0), ← Except.ok.inj
      (congrArg Prod.fst before)]

theorem Keeping.release {r : Nat} (keeping : Keeping A stale base w taken)
    (whole : ∀ c < A.cells, ¬ A.Split c) (old : taken r)
    (single : Work.granuleAt r w = (.ok 1, w)) :
    wp (Work.freeExtent r 1) (fun _ w' => Keeping A stale base w' (fun b => taken b ∧ b ≠ r) ∧
      Untouched (fun b => taken b ∧ b ≠ r) w w') (fun _ _ => False) w := by
  obtain ⟨calls, kin, hdr, T, sound, backed⟩ := keeping
  obtain ⟨l, d, rfl, inside, depth, full⟩ := backed r old
  have one : granule d = 1 := by
    have run := Work.granuleAt_run sound inside depth whole (full 0)
    rw [single] at run
    exact (Except.ok.inj (congrArg Prod.fst run)).symm
  have alone : Work.wholes d 1 = 1 := by rw [Work.wholes, one]
  refine wp_mono (wp_outcome (Work.freeExtent_wp sound depth (by rw [one, Nat.mod_one])
      (by rw [alone]; omega) (fun _ => whole)
    inside ?_)) ?_ fun _ _ => And.right
  · intro b s low high
    rw [alone] at high
    obtain rfl : b = l := by omega
    exact full s
  · rintro _ w' ⟨run, hdr', T', sound', ran, back, _⟩
    rw [alone] at back
    have kept : ∀ b, taken b ∧ b ≠ A.blk l → Backed A T' b := by
      rintro b ⟨old', other⟩
      obtain ⟨k, e, rfl, inside', depth', full'⟩ := backed b old'
      refine ⟨k, e, rfl, inside', depth', fun s => ?_⟩
      refine (back.others k s fun here => other ?_).full (full' s)
      rw [show k = l by omega]
    exact ⟨⟨calls.tail (.release run), kin.trans ran.kin, hdr', T', sound', kept⟩,
        ran.untouched sound sound' kept⟩

theorem strict_ledger (whole : ∀ c < A.cells, ¬ A.Split c) :
    Ledger (Work.allocator A.num).strict (Refused A base) (Keeping A stale base) where
  large keeping := by
    obtain ⟨_, _, _, _, sound, _⟩ := keeping
    exact sound.ready.held.on.blocksize
  mono keeping less := by
    obtain ⟨calls, kin, hdr, T, sound, backed⟩ := keeping
    exact ⟨calls, kin, hdr, T, sound, fun b old => backed b (less b old)⟩
  write keeping old magic := keeping.write whole old magic
  alloc keeping some := keeping.alloc whole some
  release keeping old single := wp_mono (keeping.release whole old single) (fun _ _ => id)
      fun _ _ none => none.elim

theorem Keeping.restart (keeping : Keeping A stale base w taken) : Keeping A stale w w taken :=
  ⟨.refl, .refl w, keeping.2.2⟩

theorem Keeping.since (keeping : Keeping A stale base w taken) {taken' : Nat → Prop}
    (later : Keeping A stale w w' taken') :
    Keeping A stale base w' taken' := ⟨keeping.1.trans later.1, keeping.2.1.trans later.2.1,
    later.2.2⟩

/-- `map_ensure` over the allocator of the AG. -/
theorem map_ensure_allocated {inode : Inode} {y : Filemap} {depth fblock n : Nat}
    (whole : ∀ c < A.cells, ¬ A.Split c)
    (deep : 10 < depth) (short : fblock + n ≤ 2 ^ 53)
    (filed : Filed (Keeping A stale base) taken w inode y)
    (clean : ((Work.allocator A.num).strict.mapEnsure depth inode fblock n w).1 ≠ .error
    Allocator.spoiled) :
    wp ((Work.allocator A.num).mapEnsure depth inode fblock n)
      (fun out w' => RangeMapped taken w depth inode fblock n out.1 w' out.2 ∧ ∃ y',
        Filed (Keeping A stale base) (fun b => taken b ∨ 0 < y'.uses b) w' out.2 y' ∧
        (∀ b, taken b → y'.uses b = y.uses b) ∧
          Untouched (fun b => taken b ∧ ¬ y.HasNode b) w w')
      (fun e w' => ∃ n w₀, Relation.ReflTransGen (Work.Call A) w w₀ ∧
          Work.allocExtent A.num n w₀ = (.error e, w')) w := by
  have filled := map_ensure_fills (strict_ledger whole) deep short (filed.keep filed.held.restart)
  refine wp_mono ((Allocator.mapEnsure_follows depth inode fblock n).wp clean filled) ?_ ?_
  · rintro out w' ⟨mapped, y', filed', same, untouched⟩
    exact ⟨mapped, y', filed'.keep (filed.held.since filed'.held), same, untouched⟩
  · rintro e _ ⟨unspoiled, refused⟩
    exact refused.resolve_left unspoiled

theorem mapRange_first (C : Allocator) (depth : Nat) {inode : Inode} {n blk : Nat}
    (empty : inode.format = FMT_EMPTY) (some : 0 < n)
    (granted : C.alloc n w = (.ok blk, w')) :
    C.mapRange depth inode 0 n w = (.ok ({ inode with
      format := FMT_EXTENT
      payload := putExtents zeros 0 [⟨0, blk, n % 2 ^ 32⟩] }, [(0, n)]), w') := by
  have tried : attempt (C.alloc n) w = (.ok (.ok blk), w') := by rw [attempt, granted]
  have loop : C.extentLoop n n 0 [] [] w = (.ok ([⟨0, blk, n % 2 ^ 32⟩], [(0, n)], false), w') := by
    have last : ∀ fuel es fresh, C.extentLoop n fuel n es fresh
        w' = (.ok (es, fresh, false), w') := by
      intro fuel es fresh
      cases fuel with
      | zero => rfl
      | succ fuel =>
          rw [Allocator.extentLoop, if_neg (Nat.lt_irrefl n)]
          rfl
    obtain ⟨k, rfl⟩ := Nat.exists_eq_succ_of_ne_zero (Nat.ne_of_gt some)
    rw [Allocator.extentLoop, if_pos some]
    simp only [List.find?_nil, List.filter_nil, List.map_nil, List.min?_nil, Option.getD_none,
        Nat.min_self, Nat.sub_zero]
    refine (bind_ok _ _ tried).trans ?_
    exact last k _ _
  have ensured : C.extentEnsure depth { inode with format := FMT_EXTENT, payload := zeros } 0 n
      w = (.ok ({ inode with
      format := FMT_EXTENT
      payload := putExtents zeros 0 [⟨0, blk, n % 2 ^ 32⟩] }, [(0, n)]), w') := by
    rw [Allocator.extentEnsure, extentsParse_zeros, Nat.zero_add]
    refine (bind_ok _ _ loop).trans ?_
    dsimp only
    have fits : ¬ (false = true ∨ ([⟨0, blk, n % 2 ^ 32⟩] : List Extent).length >
        MAX_INLINE_EXTENTS) :=
      not_or.mpr ⟨Bool.false_ne_true, show ¬ 1 > MAX_INLINE_EXTENTS by decide⟩
    rw [if_neg fits, List.mergeSort_singleton]
    rfl
  rw [Allocator.mapRange, if_neg (by rw [empty]; decide)]
  dsimp only
  rw [if_neg (by rw [empty]; decide)]
  refine (bind_ok _ _ ensured).trans ?_
  rfl

/-- The range of a file with one run, from inside the run on to what is granted in one call. -/
theorem mapRange_more (C : Allocator) (depth : Nat) {inode : Inode} {m p n b blk : Nat}
    (format : inode.format = FMT_EXTENT)
    (parse : extentsParse inode.payload = [⟨0, b, m⟩]) (before : p < m) (some : 0 < n)
    (old : RunFits m b) (new : RunFits n blk)
    (granted : C.alloc n w = (.ok blk, w')) :
    ∃ inode' fresh, C.mapRange depth inode p (m - p + n) w = (.ok (inode', fresh), w') := by
  have tried : attempt (C.alloc n) w = (.ok (.ok blk), w') := by rw [attempt, granted]
  obtain ⟨found, extends_, joins⟩ := extendRun_run m new fun e (member : e ∈ [⟨0, b, m⟩]) => by
    cases List.mem_singleton.mp member
    exact old
  have last : ∀ fuel es fresh, C.extentLoop (m + n) fuel (m + n) es fresh
      w' = (.ok (es, fresh, false), w') := by
    intro fuel es fresh
    cases fuel with
    | zero => rfl
    | succ fuel =>
        rw [Allocator.extentLoop, if_neg (Nat.lt_irrefl _)]
        rfl
  obtain ⟨k, rounds⟩ : ∃ k, m - p + n = k + 2 := ⟨m - p + n - 2, by omega⟩
  have limit : p + (k + 2) = m + n := by omega
  have loop : ∃ es, C.extentLoop (m + n) (k + 2) p [⟨0, b, m⟩] []
      w = (.ok (es, [(m, n)], false), w') ∧ es.length ≤ 2 := by
    have inside : decide (p ≥ 0 ∧ p < 0 + m) = true := by
      rw [decide_eq_true_eq]
      omega
    have outside : decide (m ≥ 0 ∧ m < 0 + m) = false := by
      rw [decide_eq_false_iff_not]
      omega
    rw [Allocator.extentLoop, if_pos (by omega), List.find?_singleton, if_pos inside]
    dsimp only
    rw [Nat.zero_add, Allocator.extentLoop, if_pos (by omega), List.find?_singleton,
        if_neg (by rw [outside]; decide)]
    have none_later : ([⟨0, b, m⟩] : List Extent).filter
        (fun e => decide (e.fileBlock > m)) = [] := by
      refine List.filter_eq_nil_iff.mpr fun e member => ?_
      cases List.mem_singleton.mp member
      simp
    simp only [none_later, List.map_nil, List.min?_nil, Option.getD_none, Nat.min_self,
        Nat.add_sub_cancel_left]
    rw [bind_ok _ _ tried]
    dsimp only
    have extended : (ofExcept (Allocator.extendRun m blk n [⟨0, b, m⟩]) : Prog Work _)
        w' = (.ok found, w') := by
      rw [extends_]
      rfl
    rw [bind_ok _ _ extended]
    cases found with
    | none => exact ⟨_, last _ _ _, Nat.le_refl 2⟩
    | some es =>
        obtain ⟨e, rest, one, two, _⟩ := joins es rfl
        refine ⟨_, last _ _ _, ?_⟩
        have lengths := one.length_eq
        rw [two.length_eq]
        simp only [List.length_cons, List.length_nil] at lengths ⊢
        omega
  obtain ⟨es, run, short⟩ := loop
  have six : MAX_INLINE_EXTENTS = 6 := rfl
  have ensured : C.extentEnsure depth inode p (k + 2) w = (.ok ({ inode with
      payload := putExtents zeros 0 (es.mergeSort fun a b => decide (a.fileBlock ≤ b.fileBlock)) },
      [(m, n)]), w') := by
    rw [Allocator.extentEnsure, parse, limit, bind_ok _ _ run]
    dsimp only
    rw [if_neg (not_or.mpr ⟨Bool.false_ne_true, by omega⟩), extentsStore,
        if_neg (by rw [List.length_mergeSort]; omega)]
    rfl
  refine ⟨{ inode with
    payload := putExtents zeros 0 (es.mergeSort fun a b => decide (a.fileBlock ≤ b.fileBlock)) },
      [(m, n)], ?_⟩
  rw [rounds, Allocator.mapRange, if_neg (by rw [format]; decide)]
  dsimp only
  rw [if_pos format, bind_ok _ _ ensured]
  dsimp only
  rw [if_neg (by rw [format]; decide)]
  rfl

theorem mapEnsure_of_range {inode inode' : Inode} {y : Filemap} {depth fblock n : Nat}
    {fresh : List (Nat × Nat)}
    (whole : ∀ c < A.cells, ¬ A.Split c) (deep : 10 < depth) (short : fblock + n ≤ 2 ^ 53)
    (filed : Filed (Keeping A stale base) taken w inode y)
    (range : (Work.allocator A.num).strict.mapRange depth inode fblock n
    w = (.ok (inode', fresh), w')) :
    ((Work.allocator A.num).strict.mapEnsure depth inode fblock n w).1 ≠ .error Allocator.spoiled ∧
      ∃ runs, (Work.allocator A.num).mapEnsure depth inode fblock n
      w = (.ok (runs, inode'), w') := by
  have ranged := mapRange_wp (strict_ledger whole) deep short filed
  rw [wp, range] at ranged
  obtain ⟨runs, run, _⟩ := Ranged.collected deep short filed ranged
  have strict : (Work.allocator A.num).strict.mapEnsure depth inode fblock n
      w = (.ok (runs, inode'), w') := by
    refine (bind_ok _ _ range).trans ?_
    exact (bind_ok _ _ run).trans rfl
  have clean : ((Work.allocator A.num).strict.mapEnsure depth inode fblock n w).1 ≠ .error
      Allocator.spoiled := by
    rw [strict]
    rintro ⟨⟩
  have follows := (Allocator.mapEnsure_follows (A := Work.allocator A.num) depth inode fblock n
      w).resolve_left clean
  exact ⟨clean, runs, follows.trans strict⟩

theorem strict_granted {n blk : Nat} (granted : Work.allocExtent A.num n w = (.ok blk, w')) :
    (Work.allocator A.num).strict.alloc n w = (.ok blk, w') := by
  rw [Allocator.strict]
  dsimp only
  rw [show (Work.allocator A.num).alloc n w = (.ok blk, w') from granted]

omit [Crc32c] in
theorem parse_single {e : Extent} (fits : e.Fits) (some : 0 < e.blocks) :
    extentsParse (putExtents zeros 0 [e]) = [e] := by
  obtain ⟨p, stored, parsed⟩ := extentsParse_extentsStore
      (fun e' (member : e' ∈ [e]) => List.mem_singleton.mp member ▸ fits)
    (fun e' member => List.mem_singleton.mp member ▸ some) (show 1 ≤ 6 by decide)
  rw [extentsParse_clip] at parsed
  cases stored
  exact parsed

theorem blockOf_single {inode : Inode} {n b : Nat} (depth : Nat)
    (format : inode.format = FMT_EXTENT)
    (parse : extentsParse inode.payload = [⟨0, b, n⟩]) (some_block : 0 < n) (place : b < 2 ^ 64) :
    w.blockOf depth inode 0 = some b := by
  have found : w.mapLookup depth inode 0 = extentLookup 0 [⟨0, b, n⟩] U64_MAX := by
    rw [Work.mapLookup, if_neg (by rw [format]; decide), if_pos format, parse]
  have inside : 0 ≥ 0 ∧ 0 < 0 + n := by omega
  rw [Work.blockOf, found, extentLookup, if_pos inside]
  dsimp only
  rw [Coherent.addU64_ok (by omega)]
  rfl

theorem mapEnsure_first (inode : Inode) (depth : Nat) {n blk : Nat}
    (whole : ∀ c < A.cells, ¬ A.Split c) (deep : 10 < depth)
    (sound : A.Sound stale w hdr T) (empty : inode.format = FMT_EMPTY) (some : 0 < n)
    (small : n < 2 ^ 32) (place : blk < 2 ^ 64)
    (granted : Work.allocExtent A.num n w = (.ok blk, w')) :
    ((Work.allocator A.num).strict.mapEnsure depth inode 0 n w).1 ≠ .error Allocator.spoiled ∧
      ∃ runs inode', (Work.allocator A.num).mapEnsure depth inode 0 n w = (.ok (runs, inode'), w') ∧
        inode'.format = FMT_EXTENT ∧ extentsParse inode'.payload = [⟨0, blk, n⟩] := by
  have filed : Filed (Keeping A stale w) (fun _ => False) w inode .empty :=
    .empty (Or.inl empty) ⟨.refl, .refl w, hdr, T, sound, fun _ => False.elim⟩
  obtain ⟨clean, runs, run⟩ := mapEnsure_of_range whole deep (by omega) filed
    (mapRange_first (Work.allocator A.num).strict depth empty some (strict_granted granted))
  refine ⟨clean, runs, _, run, rfl, ?_⟩
  dsimp only
  rw [Nat.mod_eq_of_lt small]
  exact parse_single ⟨show 0 < 2 ^ 64 by decide, place, small⟩ some

end

section Edge

variable [Crc32c] {A : Ag} {stale : Nat → Prop} {w : Work} {hdr : AgHeader} {T : Nat → Tree}

theorem free_cell (sound : A.Sound stale w hdr T) (tidy : A.Tidied T) {c : Nat}
    (inside : c < A.cells)
    (free : ∀ b s, b / CELL_BLOCKS = c → ∃ e, spot T b s = some (.free, e)) :
    T c = .leaf .free := by
  refine free_of_looks (sound.ready.held.shape c inside) (tidy c inside) fun q long => ?_
  obtain ⟨b, s, here, rfl⟩ := digits_path (c := c) long
  obtain ⟨e, met⟩ := free b s here
  rw [spot, here] at met
  exact ⟨e, met⟩

theorem edge_freed (sound : edgeAg.Sound stale w hdr edgeTree) :
    ∃ w₁ hdr₁ T₁, Work.freeExtent (edgeAg.blk 256) 512 w = (.ok (), w₁) ∧
    edgeAg.Sound stale w₁ hdr₁ T₁ ∧
      ∀ c, 1 ≤ c → c < 4 → T₁ c = .leaf .free := by
  have four : edgeAg.cells = 4 := rfl
  have size : edgeAg.length = 1024 := rfl
  have span : Work.wholes 0 512 = 512 := by decide
  have used : ∀ b s, 256 ≤ b → b < 256 + Work.wholes 0 512 →
      spot edgeTree b s = some (.full, 0) := by
    intro b s low high
    rw [spot, edgeTree, CELL_BLOCKS, if_neg (by omega), if_pos (by omega), Cell.look_leaf]
  obtain ⟨_, w₁, run, hdr₁, T₁, sound₁, _, back, tidy, _⟩ :=
      wp_total (Work.freeExtent_wp sound (by decide : 0 ≤ 2) (by decide)
    (by omega) (fun some => absurd some (by decide)) (by omega) used)
  refine ⟨w₁, hdr₁, T₁, run, sound₁, fun c low high =>
      free_cell sound₁ (tidy Tenure.edge_tidied) (by omega) fun b s here => ?_⟩
  by_cases inside : 256 ≤ b ∧ b < 256 + Work.wholes 0 512
  · obtain ⟨e, _, free⟩ := back.now b s inside.1 inside.2
    exact ⟨e, free⟩
  · have last : spot edgeTree b s = some (.free, 0) := by
      rw [CELL_BLOCKS] at here
      rw [spot, edgeTree, CELL_BLOCKS, if_neg (by omega), if_neg (by omega), Cell.look_leaf]
    rcases back.others b s inside with same | ⟨e, _, _, _, _, free⟩
    · exact ⟨0, same.trans last⟩
    · exact ⟨e, free⟩

omit [Crc32c] in
theorem edge_fits {c : Nat} (inside : c < 4) :
    RunFits CELL_BLOCKS (edgeAg.blk (c * CELL_BLOCKS)) := by
  have place : edgeAg.blk (c * CELL_BLOCKS) = 1 * 2 ^ 32 + c * CELL_BLOCKS := rfl
  rw [RunFits, place, CELL_BLOCKS]
  omega

omit [Crc32c] in
theorem edge_left (free : ∀ c, 1 ≤ c → c < 4 → T c = .leaf .free) {c : Nat} : ∃ c' < edgeAg.cells,
    fillRoot T c 1 c' = .leaf .free := by
  have four : edgeAg.cells = 4 := rfl
  by_cases first : c = 1
  · exact ⟨2, by decide, by rw [fillRoot, if_neg (by omega), free 2 (by decide) (by decide)]⟩
  · exact ⟨1, by decide, by rw [fillRoot, if_neg (by omega), free 1 (by decide) (by decide)]⟩

end Edge

/-- After the cells in use are given back: 256 blocks of a new file, then a range from inside them
on that takes 256 more. -/
theorem map_ensure_allocated_edge :
    let crc := castagnoli
    ∃ w₀ runs₁ inode₁ w₁ runs₂ inode₂ w₂ y, @Work.freeExtent crc (edgeAg.blk 256) 512
    (@edgeWork crc) = (.ok (), w₀) ∧
      @Allocator.mapEnsure crc (@Work.allocator crc edgeAg.num) 11 {} 0 256
      w₀ = (.ok (runs₁, inode₁), w₁) ∧
      @RangeMapped crc (fun _ => False) w₀ 11 {} 0 256 runs₁ w₁ inode₁ ∧
      @Allocator.mapEnsure crc (@Work.allocator crc edgeAg.num) 11 inode₁ 128 384
      w₁ = (.ok (runs₂, inode₂), w₂) ∧
      @RangeMapped crc (fun b => False ∨ 0 < Filemap.uses y b) w₁ 11 inode₁ 128 384 runs₂ w₂
      inode₂ := by
  intro crc
  have four : edgeAg.cells = 4 := rfl
  -- the store is a variable, so that no step evaluates the program on it
  have calls : ∀ w hdr T, edgeAg.Sound (fun _ => False) w hdr T →
      (∀ c, 1 ≤ c → c < 4 → T c = .leaf .free) →
      ∃ runs₁ inode₁ w₁ runs₂ inode₂ w₂ y, (Work.allocator edgeAg.num).mapEnsure 11 {} 0 256
      w = (.ok (runs₁, inode₁), w₁) ∧
        RangeMapped (fun _ => False) w 11 {} 0 256 runs₁ w₁ inode₁ ∧
        (Work.allocator edgeAg.num).mapEnsure 11 inode₁ 128 384 w₁ = (.ok (runs₂, inode₂), w₂) ∧
        RangeMapped (fun b => False ∨ 0 < Filemap.uses y b) w₁ 11 inode₁ 128 384 runs₂ w₂
        inode₂ := by
    intro w hdr T sound free
    obtain ⟨c, inside, _, w₁, _, granted, sound₁⟩ :=
        allocExtent_cell sound ⟨1, by decide, free 1 (by decide) (by decide)⟩
    obtain ⟨clean₁, runs₁, inode₁, run₁, format, parse⟩ := mapEnsure_first {} 11 Tenure.edge_whole
      (by decide) sound rfl (by decide) (by decide) (edge_fits inside).1 granted
    have filed : Filed (Keeping edgeAg (fun _ => False) w) (fun _ => False) w {} .empty :=
      .empty (Or.inl rfl) ⟨.refl, .refl w, hdr, T, sound, fun _ => False.elim⟩
    have mapped₁ := map_ensure_allocated Tenure.edge_whole (by decide) (by decide) filed clean₁
    rw [wp, run₁] at mapped₁
    obtain ⟨ranged₁, y, filed₁, _⟩ := mapped₁
    obtain ⟨c', inside', _, w₂, _, granted', _⟩ := allocExtent_cell sound₁ (edge_left free)
    obtain ⟨inode₂, fresh, range⟩ := mapRange_more (Work.allocator edgeAg.num).strict 11 (p := 128)
        format parse (by decide) (by decide)
      (edge_fits inside) (edge_fits inside') (strict_granted (A := edgeAg) granted')
    obtain ⟨clean₂, runs₂, run₂⟩ := mapEnsure_of_range Tenure.edge_whole (by decide) (by decide)
        filed₁ range
    have mapped₂ := map_ensure_allocated Tenure.edge_whole (by decide) (by decide) filed₁ clean₂
    rw [wp, run₂] at mapped₂
    exact ⟨runs₁, inode₁, w₁, runs₂, inode₂, w₂, y, run₁, ranged₁, run₂, mapped₂.1⟩
  obtain ⟨w₀, hdr₀, T₀, freed, sound₀, free⟩ := edge_freed (@edge_valid castagnoli).sound
  obtain ⟨runs₁, inode₁, w₁, runs₂, inode₂, w₂, y, rest⟩ := calls w₀ hdr₀ T₀ sound₀ free
  exact ⟨w₀, runs₁, inode₁, w₁, runs₂, inode₂, w₂, y, freed, rest⟩

end FiveFs

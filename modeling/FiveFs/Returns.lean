import FiveFs.Backing

/-! What mappings give back: `map_free_all`, and `map_truncate` with the granules of the runs it
cuts. -/

namespace FiveFs

open Buffer Prog Refine Radix

/-- `n` blocks, rounded up to granules of `g`. -/
def upTo (g n : Nat) : Nat := (n + g - 1) / g * g

theorem le_upTo {g : Nat} (some : 0 < g) (n : Nat) : n ≤ upTo g n := by
  have split := Nat.div_add_mod' (n + g - 1) g
  have rest := Nat.mod_lt (n + g - 1) some
  rw [upTo]
  omega

theorem upTo_le {g n m : Nat} (some : 0 < g) (whole : m % g = 0) (reach : n ≤ m) :
    upTo g n ≤ m := by
  obtain ⟨q, rfl⟩ := Nat.dvd_of_mod_eq_zero whole
  rw [upTo, Nat.mul_comm g q]
  refine Nat.mul_le_mul_right _ (Nat.le_of_lt_succ ((Nat.div_lt_iff_lt_mul some).mpr ?_))
  rw [Nat.succ_mul, Nat.mul_comm q g]
  omega

theorem upTo_mod (g n : Nat) : upTo g n % g = 0 := Nat.mul_mod_left _ _

section Returns

variable [Crc32c]

/-- The run can be given back: it begins with a granule, all its granules are of one size, and what
is left of the last one is no one's. The granule of block `b` has `size b` blocks. -/
structure Grained (A : Allocator) (size : Nat → Nat) (taken : Nat → Prop) (w : Work) (n a : Nat) :
    Prop where
  some : 0 < size a
  start : a % 2 ^ 32 % size a = 0
  even : ∀ b, a ≤ b → b < a + n → size b = size a
  run : ∀ b, a ≤ b → b < a + n → A.granule b w = (.ok (size b), w)
  rest : ∀ b, a + n ≤ b → b < a + upTo (size a) n → ¬ taken b

/-- The blocks of `gone` were given back, those of `mine` may have changed, and nothing else. -/
structure Back (A : Allocator) (Has : Work → (Nat → Prop) → (Nat → Prop) → Prop)
    (taken idle gone mine : Nat → Prop) (w w' : Work) : Prop where
  has : Has w' (fun b => taken b ∧ ¬ gone b) (fun b => idle b ∨ gone b)
  frame : Untouched (fun b => taken b ∧ ¬ mine b) w w'
  steady : ∀ b g, taken b → ¬ gone b → A.granule b w = (.ok g, w) → A.granule b w' = (.ok g, w')
  less : ∀ b, gone b → mine b

/-- What giving blocks back relies on: `Has w taken idle` is that the allocator of `w` keeps the
blocks of `taken`, and has those of `idle` to grant. -/
structure Returns (A : Allocator) (Has : Work → (Nat → Prop) → (Nat → Prop) → Prop) : Prop where
  large : ∀ {w : Work} {taken idle : Nat → Prop}, Has w taken idle → 2048 ≤ w.blocksize
  mono : ∀ {w : Work} {taken idle taken' idle' : Nat → Prop}, Has w taken idle →
    (∀ b, taken' b → taken b) → (∀ b, idle' b → idle b) → Has w taken' idle'
  write : ∀ {w : Work} {taken idle : Nat → Prop} {r : Nat} {data : Bytes}, Has w taken idle →
    taken r → getU32 data 0 = TREE_MAGIC →
    Back A Has taken idle (fun _ => False) (fun b => b = r) w (w.put r data)
  back : ∀ {w : Work} {size : Nat → Nat} {taken idle : Nat → Prop} {n a : Nat}, Has w taken idle →
    0 < n →
    (∀ b, a ≤ b → b < a + n → taken b) → Grained A size taken w n a →
    wp (A.free a n) (fun _ w' => Back A Has taken idle (fun b => a ≤ b ∧ b < a + n)
      (fun b => a ≤ b ∧ b < a + n) w w') (fun _ _ => False) w

variable {A : Allocator} {Has : Work → (Nat → Prop) → (Nat → Prop) → Prop} {size : Nat → Nat}
  {taken idle gone gone' mine mine' : Nat → Prop} {w w' w'' : Work}

theorem Back.refl (laws : Returns A Has) (has : Has w taken idle) :
    Back A Has taken idle (fun _ => False) (fun _ => False) w w where
  has := laws.mono has (fun _ => And.left) fun _ => fun either => either.elim id False.elim
  frame := .refl _ w
  steady _ _ _ _ same := same
  less _ := id

theorem Back.congr (laws : Returns A Has) (h : Back A Has taken idle gone mine w w')
    (same : ∀ b, gone' b ↔ gone b) (same' : ∀ b, mine' b ↔ mine b) :
    Back A Has taken idle gone' mine' w w' where
  has := laws.mono h.has (fun b left => ⟨left.1, fun out => left.2 ((same b).mpr out)⟩)
    fun b => Or.imp_right (same b).mp
  frame := h.frame.mono fun b left => ⟨left.1, fun own => left.2 ((same' b).mpr own)⟩
  steady b g held left := h.steady b g held fun out => left ((same b).mpr out)
  less b out := (same' b).mpr (h.less b ((same b).mp out))

theorem Back.trans (laws : Returns A Has) (h : Back A Has taken idle gone mine w w')
    (h' : Back A Has (fun b => taken b ∧ ¬ gone b) (fun b => idle b ∨ gone b) gone' mine' w' w'') :
    Back A Has taken idle (fun b => gone b ∨ gone' b) (fun b => mine b ∨ mine' b) w w'' where
  has := by
    refine laws.mono h'.has (fun b left => ?_) fun b either => ?_
    · exact ⟨⟨left.1, fun out => left.2 (Or.inl out)⟩, fun out => left.2 (Or.inr out)⟩
    · exact or_assoc.mpr either
  frame := by
    refine Untouched.trans (h.frame.mono fun b left => ?_) (h'.frame.mono fun b left => ?_)
    · exact ⟨left.1, fun own => left.2 (Or.inl own)⟩
    · exact ⟨⟨left.1, fun out => left.2 (Or.inl (h.less b out))⟩, fun own => left.2 (Or.inr own)⟩
  steady b g held left same := h'.steady b g ⟨held, fun out => left (Or.inl out)⟩
    (fun out => left (Or.inr out)) (h.steady b g held (fun out => left (Or.inl out)) same)
  less b := Or.imp (h.less b) (h'.less b)

theorem Grained.after {n a : Nat} (h : Back A Has taken idle gone mine w w')
    (own : ∀ b, a ≤ b → b < a + n → taken b ∧ ¬ gone b) (grained : Grained A size taken w n a) :
    Grained A size (fun b => taken b ∧ ¬ gone b) w' n a where
  some := grained.some
  start := grained.start
  even := grained.even
  run b low high := by
    obtain ⟨held, left⟩ := own b low high
    exact h.steady b _ held left (grained.run b low high)
  rest b low high left := grained.rest b low high left.1

/-- The runs and the nodes of `x` can be given back. -/
def Grains (A : Allocator) (size : Nat → Nat) (taken : Nat → Prop) (w : Work) : Cover → Prop
  | .hole => True
  | .run n a => Grained A size taken w n a
  | .node r kids => Grained A size taken w 1 r ∧ ∀ i < NODE_FANOUT, Grains A size taken w (kids i)

/-- The child `x` of level `l`, stored in `w` with what `m` says of it, has its blocks once, they
are of `taken`, and can be given back. -/
structure Yields (A : Allocator) (size : Nat → Nat) (taken : Nat → Prop) (w : Work) (x : Cover)
    (l : Nat) (m : Nat × Nat × Nat) : Prop where
  stored : Stored w x l m
  fits : x.Fits NODE_FANOUT RunFits l
  once : ∀ b, x.uses NODE_FANOUT b ≤ 1
  owned : ∀ b, 0 < x.uses NODE_FANOUT b → taken b
  grains : Grains A size taken w x

variable {x : Cover} {l n a r depth : Nat} {m : Nat × Nat × Nat} {kids : Nat → Cover}

omit [Crc32c] in
theorem uses_node (r : Nat) (kids : Nat → Cover) (b : Nat) :
    (Cover.node r kids).uses NODE_FANOUT b =
      (if r = b then 1 else 0) + uses NODE_FANOUT NODE_FANOUT kids b := rfl

omit [Crc32c] in
theorem uses_run_pos {b : Nat} : 0 < (Cover.run n a).uses NODE_FANOUT b ↔ a ≤ b ∧ b < a + n := by
  rw [Cover.uses]
  split <;> simp_all

theorem grains_after (h : Back A Has taken idle gone mine w w')
    (own : ∀ b, 0 < x.uses NODE_FANOUT b → taken b ∧ ¬ gone b) (grains : Grains A size taken w x) :
    Grains A size (fun b => taken b ∧ ¬ gone b) w' x := by
  induction x with
  | hole => trivial
  | run n a => exact Grained.after h (fun b low high => own b (uses_run_pos.mpr ⟨low, high⟩)) grains
  | node r kids ih =>
      obtain ⟨single, below⟩ := grains
      refine ⟨Grained.after h (fun b low high => own b ?_) single, fun i hi => ?_⟩
      · rw [uses_node, if_pos (by omega)]
        omega
      · refine ih i (fun b used => own b ?_) (below i hi)
        have kid : (kids i).uses NODE_FANOUT b ≤ uses NODE_FANOUT NODE_FANOUT kids b :=
          uses_kid_le hi b
        rw [uses_node]
        omega

theorem Yields.after (h : Back A Has taken idle gone mine w w')
    (apart : ∀ b, 0 < x.uses NODE_FANOUT b → ¬ mine b) (yields : Yields A size taken w x l m) :
    Yields A size (fun b => taken b ∧ ¬ gone b) w' x l m where
  stored := yields.stored.congr fun b used => h.frame.nodes b ⟨yields.owned b used, apart b used⟩
  fits := yields.fits
  once := yields.once
  owned b used := ⟨yields.owned b used, fun out => apart b used (h.less b out)⟩
  grains := grains_after h (fun b used => ⟨yields.owned b used, fun out =>
    apart b used (h.less b out)⟩) yields.grains

theorem Yields.kid (yields : Yields A size taken w (.node r kids) l m) {i : Nat} {buf : Bytes}
    (hi : i < NODE_FANOUT) (read : w.nodeRead r = .ok buf) :
    Yields A size taken w (kids i) (l - 1) (nodeSlot buf i) := by
  obtain ⟨_, _, buf', read', _, below⟩ := yields.stored
  cases read.symm.trans read'
  have le : ∀ b, (kids i).uses NODE_FANOUT b ≤ (Cover.node r kids).uses NODE_FANOUT b := fun b => by
    have kid : (kids i).uses NODE_FANOUT b ≤ uses NODE_FANOUT NODE_FANOUT kids b :=
      uses_kid_le hi b
    rw [uses_node]
    omega
  exact ⟨below i hi, yields.fits.2 i hi, fun b => Nat.le_trans (le b) (yields.once b),
    fun b used => yields.owned b (Nat.lt_of_lt_of_le used (le b)), yields.grains.2 i hi⟩

theorem Yields.once_below (yields : Yields A size taken w (.node r kids) l m) (b : Nat) :
    uses NODE_FANOUT NODE_FANOUT kids b ≤ 1 :=
  Nat.le_trans (Nat.le_add_left _ _) (yields.once b)

theorem Yields.bare (yields : Yields A size taken w (.node r kids) l m) :
    uses NODE_FANOUT NODE_FANOUT kids r = 0 := by
  have both := yields.once r
  rw [uses_node, if_pos rfl] at both
  omega

theorem Yields.root (yields : Yields A size taken w (.node r kids) l m) : taken r :=
  yields.owned r (by rw [uses_node, if_pos rfl]; omega)

/-- The blocks of the covers of `is`. -/
def UsedBy (kids : Nat → Cover) (is : List Nat) (b : Nat) : Prop :=
  ∃ i ∈ is, 0 < (kids i).uses NODE_FANOUT b

/-- No two of the covers of `is` have a block in common. -/
def Unshared (kids : Nat → Cover) (is : List Nat) : Prop :=
  is.Pairwise fun i j => ∀ b, 0 < (kids i).uses NODE_FANOUT b → ¬ 0 < (kids j).uses NODE_FANOUT b

omit [Crc32c] in
theorem usedBy_cons (kids : Nat → Cover) (i : Nat) (is : List Nat) (b : Nat) :
    UsedBy kids (i :: is) b ↔ 0 < (kids i).uses NODE_FANOUT b ∨ UsedBy kids is b := by
  rw [UsedBy, List.exists_mem_cons_iff]
  rfl

omit [Crc32c] in
theorem usedBy_range (kids : Nat → Cover) (n b : Nat) :
    UsedBy kids (List.range n) b ↔ 0 < uses NODE_FANOUT n kids b := by
  rw [uses, Finset.sum_pos_iff]
  simp only [UsedBy, List.mem_range, Finset.mem_range]

omit [Crc32c] in
theorem unshared_range {n : Nat} (once : ∀ b, uses NODE_FANOUT n kids b ≤ 1) :
    Unshared kids (List.range n) := by
  refine List.Pairwise.imp_of_mem ?_ (List.pairwise_lt_range)
  intro i j hi hj less b used used'
  have none := uses_apart (once b) (List.mem_range.mp hi) (List.mem_range.mp hj)
    (Nat.ne_of_gt less) used
  omega

theorem Yields.spared (yields : Yields A size taken w (.node r kids) l m) :
    ¬ UsedBy kids (List.range NODE_FANOUT) r := by
  rw [usedBy_range, yields.bare]
  exact Nat.lt_irrefl 0

omit [Crc32c] in
theorem uses_of_kids (r : Nat) {b : Nat} (used : UsedBy kids (List.range NODE_FANOUT) b) :
    0 < (Cover.node r kids).uses NODE_FANOUT b := by
  rw [uses_node]
  exact Nat.add_pos_right _ ((usedBy_range kids _ b).mp used)

omit [Crc32c] in
theorem uses_node_pos (r : Nat) (kids : Nat → Cover) (b : Nat) :
    0 < (Cover.node r kids).uses NODE_FANOUT b ↔
      UsedBy kids (List.range NODE_FANOUT) b ∨ (r ≤ b ∧ b < r + 1) := by
  rw [uses_node, usedBy_range]
  split <;> omega

/-- Giving back the cover that `free` is called for. -/
def Frees (A : Allocator) (Has : Work → (Nat → Prop) → (Nat → Prop) → Prop) (size : Nat → Nat)
    (free : Prog Work Nat) (x : Cover) (l : Nat) (m : Nat × Nat × Nat) : Prop :=
  ∀ {w : Work} {taken idle : Nat → Prop}, Has w taken idle → Yields A size taken w x l m →
    wp free (fun freed w' => freed = x.data NODE_FANOUT ∧
      Back A Has taken idle (fun b => 0 < x.uses NODE_FANOUT b)
        (fun b => 0 < x.uses NODE_FANOUT b) w w') (fun _ _ => False) w

theorem freeKids_wp (laws : Returns A Has) {child : Nat → Nat → Nat → Prog Work Nat} {buf : Bytes} :
    ∀ {is : List Nat} {w : Work} {taken idle : Nat → Prop}, Has w taken idle → Unshared kids is →
      (∀ i ∈ is, Yields A size taken w (kids i) l (nodeSlot buf i)) →
      (∀ i ∈ is, Frees A Has size (child (nodeState buf i) (nodeChild buf i).1 (nodeChild buf i).2)
        (kids i) l (nodeSlot buf i)) →
      wp (Allocator.freeChild.freeKids child buf is) (fun freed w' =>
        freed = (is.map fun i => (kids i).data NODE_FANOUT).sum ∧
        Back A Has taken idle (UsedBy kids is) (UsedBy kids is) w w') (fun _ _ => False) w := by
  intro is
  induction is with
  | nil =>
      intro w taken idle has _ _ _
      rw [Allocator.freeChild.freeKids, wp_pure]
      have none : ∀ b, UsedBy kids [] b ↔ False := fun b => by simp [UsedBy]
      exact ⟨rfl, (Back.refl laws has).congr laws none none⟩
  | cons i is ih =>
      intro w taken idle has unshared yields frees
      obtain ⟨apart, unshared'⟩ := List.pairwise_cons.mp unshared
      rw [Allocator.freeChild.freeKids, wp_bind]
      refine wp_mono (frees i List.mem_cons_self has (yields i List.mem_cons_self)) ?_
        fun _ _ => id
      rintro freed w₁ ⟨rfl, first⟩
      rw [wp_bind]
      refine wp_mono (ih first.has unshared' (fun j hj => ?_) fun j hj =>
        frees j (List.mem_cons_of_mem _ hj)) ?_ fun _ _ => id
      · refine (yields j (List.mem_cons_of_mem _ hj)).after first fun b used used' => ?_
        exact apart j hj b used' used
      · rintro more w₂ ⟨rfl, rest⟩
        rw [wp_pure, List.map_cons, List.sum_cons]
        exact ⟨rfl, (first.trans laws rest).congr laws (usedBy_cons kids i is)
            (usedBy_cons kids i is)⟩

omit [Crc32c] in
theorem data_node (r : Nat) (kids : Nat → Cover) : (Cover.node r kids).data NODE_FANOUT =
    ((List.range NODE_FANOUT).map fun i => (kids i).data NODE_FANOUT).sum := rfl

theorem freeChild_wp (laws : Returns A Has) (deep : l < depth) :
    Frees A Has size (A.freeChild depth m.1 m.2.1 m.2.2) x l m := by
  induction x generalizing l m depth with
  | hole =>
      intro w taken idle has yields
      obtain ⟨d, rfl⟩ : ∃ d, depth = d + 1 := ⟨depth - 1, by omega⟩
      have state : m.1 = CELL_FREE := yields.stored
      rw [Allocator.freeChild, if_pos state, wp_pure]
      have none : ∀ b, 0 < Cover.hole.uses NODE_FANOUT b ↔ False := fun b => by simp [Cover.uses]
      exact ⟨rfl, (Back.refl laws has).congr laws none none⟩
  | run n a =>
      intro w taken idle has yields
      obtain ⟨d, rfl⟩ : ∃ d, depth = d + 1 := ⟨depth - 1, by omega⟩
      have slot : m = (CELL_FULL, n, a) := yields.stored
      subst slot
      dsimp only
      rw [Allocator.freeChild, if_neg (by decide), if_pos rfl, wp_bind]
      refine wp_mono (laws.back has yields.fits.1 (fun b low high =>
        yields.owned b (uses_run_pos.mpr ⟨low, high⟩)) yields.grains) ?_ fun _ _ => id
      rintro _ w' back
      rw [wp_pure]
      exact ⟨rfl, back.congr laws (fun _ => uses_run_pos) fun _ => uses_run_pos⟩
  | node r kids ih =>
      intro w taken idle has yields
      obtain ⟨d, rfl⟩ : ∃ d, depth = d + 1 := ⟨depth - 1, by omega⟩
      obtain ⟨state, place, buf, read, -, -⟩ := yields.stored
      obtain ⟨some, -⟩ := yields.fits
      have own : ∀ b, r ≤ b → b < r + 1 → taken b ∧ ¬ UsedBy kids (List.range NODE_FANOUT) b := by
        intro b low high
        obtain rfl : b = r := by omega
        exact ⟨yields.root, yields.spared⟩
      rw [Allocator.freeChild, state, if_neg (by decide), if_neg (by decide), if_pos rfl, place,
        wp_bind, wp_run (Work.nodeGet_run read), wp_bind]
      refine wp_mono (freeKids_wp laws has (unshared_range yields.once_below)
        (fun i hi => yields.kid (List.mem_range.mp hi) read)
        fun i hi => ih i (m := nodeSlot buf i) (by omega)) ?_ fun _ _ => id
      rintro freed w₁ ⟨count, below⟩
      rw [wp_bind]
      refine wp_mono (laws.back below.has Nat.one_pos own (yields.grains.1.after below own)) ?_
        fun _ _ => id
      rintro _ w₂ alone
      rw [wp_pure]
      have all := uses_node_pos r kids
      exact ⟨count.trans (data_node r kids).symm, (below.trans laws alone).congr laws all all⟩

theorem freeRoot_wp (laws : Returns A Has) {p : Bytes} (deep : l < depth) :
    ∀ {is : List Nat} {w : Work} {taken idle : Nat → Prop}, Has w taken idle → Unshared kids is →
      (∀ i ∈ is, Yields A size taken w (kids i) l (rootSlot p i)) →
      wp (A.freeRoot depth p is) (fun _ w' => Back A Has taken idle (UsedBy kids is)
      (UsedBy kids is)
        w w') (fun _ _ => False) w := by
  intro is
  induction is with
  | nil =>
      intro w taken idle has _ _
      rw [Allocator.freeRoot, wp_pure]
      have none : ∀ b, UsedBy kids [] b ↔ False := fun b => by simp [UsedBy]
      exact (Back.refl laws has).congr laws none none
  | cons i is ih =>
      intro w taken idle has unshared yields
      obtain ⟨apart, unshared'⟩ := List.pairwise_cons.mp unshared
      rw [Allocator.freeRoot, wp_bind]
      refine wp_mono (freeChild_wp laws deep has (yields i List.mem_cons_self)) ?_ fun _ _ => id
      rintro _ w₁ ⟨_, first⟩
      refine wp_mono (ih first.has unshared' fun j hj => ?_) ?_ fun _ _ => id
      · refine (yields j (List.mem_cons_of_mem _ hj)).after first fun b used used' => ?_
        exact apart j hj b used' used
      · rintro _ w₂ rest
        exact (first.trans laws rest).congr laws (usedBy_cons kids i is) (usedBy_cons kids i is)

theorem freeExtents_wp (laws : Returns A Has) :
    ∀ {es : List Extent} {w : Work} {taken idle : Nat → Prop}, Has w taken idle →
      (∀ e ∈ es, 0 < e.blocks) → (∀ b, usesInline es b ≤ 1) → (∀ b, 0 < usesInline es b → taken b) →
      (∀ e ∈ es, Grained A size taken w e.blocks e.blk) →
      wp (A.freeExtents es) (fun _ w' => Back A Has taken idle (fun b => 0 < usesInline es b)
        (fun b => 0 < usesInline es b) w w') (fun _ _ => False) w := by
  intro es
  induction es with
  | nil =>
      intro w taken idle has _ _ _ _
      rw [Allocator.freeExtents, wp_pure]
      have none : ∀ b, 0 < usesInline [] b ↔ False := fun b => by simp [usesInline]
      exact (Back.refl laws has).congr laws none none
  | cons e es ih =>
      intro w taken idle has some once owned grained
      simp only [usesInline_cons] at once owned
      have later : ∀ b, 0 < usesInline es b → ¬ (e.blk ≤ b ∧ b < e.blk + e.blocks) := by
        intro b used here
        have both := once b
        rw [if_pos here] at both
        omega
      have own : ∀ b, e.blk ≤ b → b < e.blk + e.blocks → taken b := fun b low high =>
        owned b (by rw [if_pos ⟨low, high⟩]; omega)
      rw [Allocator.freeExtents, wp_bind]
      refine wp_mono (laws.back has (some e List.mem_cons_self) own
        (grained e List.mem_cons_self)) ?_ fun _ _ => id
      rintro _ w₁ first
      refine wp_mono (ih first.has (fun e' member => some e' (List.mem_cons_of_mem _ member))
        (fun b => Nat.le_trans (Nat.le_add_right _ _) (once b))
        (fun b used => ⟨owned b (by omega), later b used⟩) fun e' member => ?_) ?_ fun _ _ => id
      · have used : ∀ b, e'.blk ≤ b → b < e'.blk + e'.blocks → 0 < usesInline es b :=
          fun b low high => List.countP_pos_iff.mpr ⟨e', member, decide_eq_true ⟨low, high⟩⟩
        exact (grained e' (List.mem_cons_of_mem _ member)).after first fun b low high =>
          ⟨owned b (Nat.lt_of_lt_of_le (used b low high) (Nat.le_add_right _ _)),
            later b (used b low high)⟩
      · rintro _ w₂ rest
        have all : ∀ b, 0 < usesInline (e :: es) b ↔
            (e.blk ≤ b ∧ b < e.blk + e.blocks) ∨ 0 < usesInline es b := by
          intro b
          rw [usesInline_cons]
          split <;> omega
        exact (first.trans laws rest).congr laws all all

/-- The runs and the nodes of a mapping can be given back. -/
def Filemap.Grains (A : Allocator) (size : Nat → Nat) (taken : Nat → Prop) (w : Work) :
    Filemap → Prop
  | .empty => True
  | .inline es => ∀ e ∈ es, Grained A size taken w e.blocks e.blk
  | .tree _ kids => ∀ i < ROOT_FANOUT, FiveFs.Grains A size taken w (kids i)

variable {inode : Inode} {y : Filemap}

theorem yields_root {p : Bytes} (grove : Grove (fun w taken => Has w taken idle) taken w (.root p)
    ROOT_FANOUT l kids) (grains : ∀ i < ROOT_FANOUT, Grains A size taken w (kids i)) {i : Nat}
    (hi : i < ROOT_FANOUT) : Yields A size taken w (kids i) l (rootSlot p i) := by
  obtain ⟨slots, ⟨_, _, same⟩, stored⟩ := grove.shown
  have le : ∀ b, (kids i).uses NODE_FANOUT b ≤ uses NODE_FANOUT ROOT_FANOUT kids b := uses_kid_le hi
  exact ⟨(same i hi).symm ▸ stored i hi, grove.fits i hi,
    fun b => Nat.le_trans (le b) (grove.once b),
    fun b used => grove.owned b (Nat.lt_of_lt_of_le used (le b)), grains i hi⟩

/-- `map_free_all` gives back the blocks of the mapping, and no others. -/
theorem mapFreeAll_wp (laws : Returns A Has) (deep : 10 < depth)
    (filed : Filed (fun w taken => Has w taken idle) taken w inode y)
    (grains : y.Grains A size taken w) :
    wp (A.mapFreeAll depth inode) (fun inode' w' =>
      inode' = { inode with format := FMT_EMPTY, payload := zeros, nblocks := 0, size := 0 } ∧
      Back A Has taken idle (fun b => 0 < y.uses b) (fun b => 0 < y.uses b) w w')
      (fun _ _ => False) w := by
  rw [Allocator.mapFreeAll]
  cases filed with
  | empty format has =>
      rw [if_pos format]
      show wp (pure _) _ _ w
      rw [wp_pure]
      have none : ∀ b, 0 < Filemap.empty.uses b ↔ False := fun b => by simp [Filemap.uses]
      exact ⟨rfl, (Back.refl laws has).congr laws none none⟩
  | inline format parse sorted listed =>
      rw [format, if_neg (by decide), if_pos rfl, parse, wp_bind]
      refine wp_mono (freeExtents_wp laws listed.held (fun e member => (listed.sound e member).1)
        listed.once listed.owned grains) ?_ fun _ _ => id
      rintro _ w' back
      rw [wp_pure]
      exact ⟨rfl, back⟩
  | tree format grove =>
      rw [format, if_neg (by decide), if_neg (by decide), if_pos rfl, wp_bind]
      refine wp_mono (freeRoot_wp laws (Nat.lt_of_le_of_lt grove.low deep) grove.held
        (unshared_range grove.once) fun i hi => yields_root grove grains (List.mem_range.mp hi)) ?_
        fun _ _ => id
      rintro _ w' back
      rw [wp_pure]
      exact ⟨rfl, back.congr laws (fun b => (usedBy_range _ _ b).symm)
        fun b => (usedBy_range _ _ b).symm⟩

end Returns

section Backing

variable [Crc32c] {A : Ag} {stale : Nat → Prop} {w w' : Work} {hdr : AgHeader} {T T' : Nat → Tree}
  {size : Nat → Nat} {taken idle : Nat → Prop} {l n d : Nat}

/-- The block is FREE. -/
def Vacant (A : Ag) (T : Nat → Tree) (b : Nat) : Prop :=
  ∃ l, b = A.blk l ∧ l < A.length ∧ ∀ s, ∃ e ≤ 2, spot T l s = some (.free, e)

/-- The AG is sound, has the blocks of `taken` in use, and those of `idle` FREE. -/
def Holding (A : Ag) (stale : Nat → Prop) (w : Work) (taken idle : Nat → Prop) : Prop :=
  ∃ hdr T, A.Sound stale w hdr T ∧ (∀ b, taken b → Backed A T b) ∧ ∀ b, idle b → Vacant A T b

omit [Crc32c] in
theorem granule_inj {d d' : Nat} (depth : d ≤ 2) (depth' : d' ≤ 2) (same : granule d = granule d') :
    d = d' := by
  have cases : d = 0 ∨ d = 1 ∨ d = 2 := by omega
  have cases' : d' = 0 ∨ d' = 1 ∨ d' = 2 := by omega
  rcases cases with rfl | rfl | rfl <;> rcases cases' with rfl | rfl | rfl <;>
    first | rfl | (exact absurd same (by decide))

omit [Crc32c] in
theorem spot_granule {st : CellState} (depth : d ≤ 2) (start : l % granule d = 0)
    (met : spot T l 0 = some (st, d)) {b : Nat} (low : l ≤ b) (high : b < l + granule d) (s : Nat) :
    spot T b s = some (st, d) := by
  obtain ⟨cell, rest, path⟩ := (route_before depth start b s).mpr ⟨low, high⟩
  rw [spot, cell, ← path, Cell.look_sub (leaf_of_spot depth met), Cell.look_leaf,
      length_route depth,
    Nat.zero_add]

theorem granule_inside (sound : A.Sound stale w hdr T) (depth : d ≤ 2) (start : l % granule d = 0)
    (inside : l < A.length) (full : spot T l 0 = some (.full, d)) : l + granule d ≤ A.length := by
  have hc := A.lt_cells inside
  have room : (l / CELL_BLOCKS + 1) * CELL_BLOCKS ≤ A.length := by
    apply A.whole hc
    intro fixed
    have rsvd := sound.ready.held.reserved _ hc fixed
    rw [spot, rsvd, Cell.look_leaf] at full
    cases full
  have cases : d = 0 ∨ d = 1 ∨ d = 2 := by omega
  rcases cases with rfl | rfl | rfl
  all_goals
    simp only [granule, CELL_BLOCKS, ALLOC_FANOUT] at *
    omega

theorem Holding.write (holding : Holding A stale w taken idle) (whole : ∀ c < A.cells, ¬ A.Split c)
    {r : Nat} {data : Bytes} (old : taken r) (magic : getU32 data 0 = TREE_MAGIC) :
    Back (Work.allocator A.num) (Holding A stale) taken idle (fun _ => False) (fun b => b = r) w
      (w.put r data) := by
  obtain ⟨hdr, T, sound, backed, spare⟩ := holding
  obtain ⟨l, d, rfl, inside, depth, full⟩ := backed r old
  have sound' : A.Sound stale (w.put (A.blk l) data) hdr T :=
    sound.write inside (full 0) fun other => absurd (magic.symm.trans other) (by decide)
  refine ⟨⟨hdr, T, sound', fun b left => backed b left.1, fun b either => spare b ?_⟩,
    untouched_put _ (fun left => left.2 rfl) w data, fun b g held _ run => ?_,
    fun b out => out.elim⟩
  · exact either.elim id False.elim
  · obtain ⟨k, e, rfl, inside', depth', full'⟩ := backed b held
    have before := Work.granuleAt_run sound inside' depth' whole (full' 0)
    have same : g = granule e := Except.ok.inj (congrArg Prod.fst (run.symm.trans before))
    rw [same]
    exact Work.granuleAt_run sound' inside' depth' whole (full' 0)

theorem Holding.back (holding : Holding A stale w taken idle) (whole : ∀ c < A.cells, ¬ A.Split c)
    {a : Nat} (some_block : 0 < n) (own : ∀ b, a ≤ b → b < a + n → taken b)
    (grained : Grained (Work.allocator A.num) size taken w n a) :
    wp (Work.freeExtent a n) (fun _ w' => Back (Work.allocator A.num) (Holding A stale) taken idle
      (fun b => a ≤ b ∧ b < a + n) (fun b => a ≤ b ∧ b < a + n) w w') (fun _ _ => False) w := by
  obtain ⟨hdr, T, sound, backed, spare⟩ := holding
  obtain ⟨large, start, even, all, rest⟩ := grained
  have grain : ∀ {l d}, l < A.length → d ≤ 2 → (∀ s, spot T l s = some (.full, d)) →
      ∀ {g}, Work.granuleAt (A.blk l) w = (.ok g, w) → g = granule d := by
    intro l d inside depth full g run
    exact Except.ok.inj (congrArg Prod.fst
      (run.symm.trans (Work.granuleAt_run sound inside depth whole (full 0))))
  obtain ⟨l, d, rfl, inside, depth, full⟩ := backed a (own a (Nat.le_refl _) (by omega))
  have depth_size := grain inside depth full (all _ (Nat.le_refl _) (by omega))
  rw [depth_size] at large start even rest
  have short := A.length_lt
  have place : ∀ k, A.blk k = A.num * 2 ^ 32 + k := fun k => rfl
  have aligned : l % granule d = 0 := by
    rw [place] at start
    rwa [show (A.num * 2 ^ 32 + l) % 2 ^ 32 = l by omega] at start
  -- every block of the run is FULL in granules of this depth
  have each : ∀ k, l ≤ k → k < l + n → k < A.length ∧ ∀ s, spot T k s = some (.full, d) := by
    intro k low high
    have here : A.blk l ≤ A.blk k ∧ A.blk k < A.blk l + n := by
      rw [place, place]
      omega
    obtain ⟨k', e, same, inside', depth', full'⟩ := backed _ (own _ here.1 here.2)
    obtain rfl : k = k' := by
      rw [place, place] at same
      omega
    have same_size := grain inside' depth' full' (all _ here.1 here.2)
    cases granule_inj depth depth' ((even _ here.1 here.2).symm.trans same_size)
    exact ⟨inside', full'⟩
  -- so are the rest of the last granule, and it ends in the AG
  have first : ∀ k, l ≤ k → k < l + Work.wholes d n → ∃ q, l + q * granule d ≤ k ∧
      k < l + q * granule d + granule d ∧ l + q * granule d < l + n := by
    intro k low high
    have split := Nat.div_add_mod' (k - l) (granule d)
    have below := Nat.mod_lt (k - l) large
    refine ⟨(k - l) / granule d, by omega, by omega, ?_⟩
    have few : (k - l) / granule d < (n + granule d - 1) / granule d :=
      (Nat.div_lt_iff_lt_mul large).mpr (by rw [← Work.wholes]; omega)
    have next := (Nat.le_div_iff_mul_le large).mp few
    rw [Nat.succ_mul] at next
    omega
  have start' : ∀ q, (l + q * granule d) % granule d = 0 := fun q => by
    rw [Nat.add_mul_mod_self_right, aligned]
  have full' : ∀ k s, l ≤ k → k < l + Work.wholes d n → spot T k s = some (.full, d) := by
    intro k s low high
    obtain ⟨q, before, after, here⟩ := first k low high
    exact spot_granule depth (start' q) ((each _ (Nat.le_add_right _ _) here).2 0) before after s
  have inside' : l + Work.wholes d n ≤ A.length := by
    have reach : n ≤ Work.wholes d n := le_upTo large n
    obtain ⟨q, before, after, here⟩ := first (l + Work.wholes d n - 1) (by omega) (by omega)
    have room := granule_inside sound depth (start' q) (each _ (Nat.le_add_right _ _) here).1
      ((each _ (Nat.le_add_right _ _) here).2 0)
    omega
  refine wp_mono (Work.freeExtent_wp sound depth aligned inside' (fun _ => whole) inside full') ?_
    fun _ _ => id
  rintro _ w' ⟨hdr', T', sound', ran, back, _⟩
  have kept : ∀ b, taken b → ¬ (A.blk l ≤ b ∧ b < A.blk l + n) → ∃ k e, b = A.blk k ∧ k < A.length ∧
      e ≤ 2 ∧ (∀ s, spot T k s = some (.full, e)) ∧ ∀ s, spot T' k s = some (.full, e) := by
    intro b held out
    obtain ⟨k, e, rfl, inside₂, depth₂, full₂⟩ := backed b held
    refine ⟨k, e, rfl, inside₂, depth₂, full₂, fun s => ?_⟩
    refine (back.others k s fun here => ?_).full (full₂ s)
    have spared := rest (A.blk k)
    rw [place, place] at spared out
    exact spared (by omega) (by rw [upTo, ← Work.wholes]; omega) held
  have still : ∀ b, taken b ∧ ¬ (A.blk l ≤ b ∧ b < A.blk l + n) → Backed A T' b := by
    rintro b ⟨old, out⟩
    obtain ⟨k, e, rfl, inside₂, depth₂, _, now⟩ := kept b old out
    exact ⟨k, e, rfl, inside₂, depth₂, now⟩
  refine ⟨⟨hdr', T', sound', still, fun b either => ?_⟩, ran.untouched sound sound' still,
    fun b g held out run => ?_, fun b => id⟩
  · rcases either with old | new
    · obtain ⟨k, rfl, inside₂, free⟩ := spare b old
      refine ⟨k, rfl, inside₂, fun s => ?_⟩
      by_cases here : l ≤ k ∧ k < l + Work.wholes d n
      · exact back.now k s here.1 here.2
      · exact (back.others k s here).free (free s)
    · rw [place] at new
      have reach : n ≤ Work.wholes d n := le_upTo large n
      have where_ : b = A.blk (b - A.num * 2 ^ 32) := by
        rw [place]
        omega
      refine ⟨b - A.num * 2 ^ 32, where_, by omega, fun s => ?_⟩
      exact back.now _ s (by omega) (by omega)
  · obtain ⟨k, e, rfl, inside₂, depth₂, was, now⟩ := kept b held out
    obtain rfl := grain inside₂ depth₂ was run
    exact Work.granuleAt_run sound' inside₂ depth₂ whole (now 0)

theorem returns_holding (whole : ∀ c < A.cells, ¬ A.Split c) :
    Returns (Work.allocator A.num) (Holding A stale) where
  large holding := by
    obtain ⟨_, _, sound, _⟩ := holding
    exact sound.ready.held.on.blocksize
  mono holding less fewer := by
    obtain ⟨hdr, T, sound, backed, spare⟩ := holding
    exact ⟨hdr, T, sound, fun b held => backed b (less b held),
        fun b free => spare b (fewer b free)⟩
  write holding old magic := holding.write whole old magic
  back holding some own grained := holding.back whole some own grained

theorem Keeping.holding {base : Work} (keeping : Keeping A stale base w taken) :
    Holding A stale w taken fun _ => False := by
  obtain ⟨_, _, hdr, T, sound, backed⟩ := keeping
  exact ⟨hdr, T, sound, backed, fun _ => False.elim⟩

/-- A run that is granted can be given back. -/
theorem grained_of_alloc (holding : Holding A stale w taken idle)
    (whole : ∀ c < A.cells, ¬ A.Split c) (some_block : 0 < n) {a : Nat}
    (run : Work.allocExtent A.num n w = (.ok a, w')) :
    Grained (Work.allocator A.num) (fun _ => granule (grain n))
      (fun b => taken b ∨ (a ≤ b ∧ b < a + n)) w' n a := by
  obtain ⟨hdr, T, sound, backed, _⟩ := holding
  obtain ⟨hdr', T', l, rfl, sound', _, granted, _⟩ :=
    wp_ok (Work.allocExtent_wp sound some_block) run
  have inside := granted.inside
  have reach := le_roundUp some_block
  have short := A.length_lt
  have place : ∀ k, A.blk k = A.num * 2 ^ 32 + k := fun k => rfl
  refine ⟨Work.granule_pos granted.depth, ?_, fun _ _ _ => rfl, fun b low high => ?_,
    fun b low high held => ?_⟩
  · rw [place, show (A.num * 2 ^ 32 + l) % 2 ^ 32 = l by omega]
    exact granted.start
  · rw [place] at low high
    have here : b = A.blk (b - A.num * 2 ^ 32) := by
      rw [place]
      omega
    rw [here]
    exact Work.granuleAt_run sound' (by omega) granted.depth whole
      (granted.now _ 0 (by omega) (by omega))
  · rcases held with old | new
    · exact ((backed b old).granted granted).2 ⟨by omega, high⟩
    · omega

/-- `map_free_all` over the allocator of the AG: it succeeds, every block of the mapping is FREE
after it, and no other block that is in use is. -/
theorem map_free_all_allocated {inode : Inode} {y : Filemap} {depth : Nat}
    (whole : ∀ c < A.cells, ¬ A.Split c) (deep : 10 < depth)
    (filed : Filed (fun w taken => Holding A stale w taken idle) taken w inode y)
    (grains : y.Grains (Work.allocator A.num) size taken w) :
    wp ((Work.allocator A.num).mapFreeAll depth inode) (fun inode' w' =>
      inode' = { inode with format := FMT_EMPTY, payload := zeros, nblocks := 0, size := 0 } ∧
      Filed (fun w taken => Holding A stale w taken fun b => idle b ∨ 0 < y.uses b)
        (fun b => taken b ∧ y.uses b = 0) w' inode' .empty ∧
      Untouched (fun b => taken b ∧ y.uses b = 0) w w') (fun _ _ => False) w := by
  have unused : ∀ b, y.uses b = 0 → ¬ 0 < y.uses b := fun b none used => by omega
  refine wp_mono (mapFreeAll_wp (returns_holding whole) deep filed grains) ?_ fun _ _ => id
  rintro inode' w' ⟨rfl, back⟩
  refine ⟨rfl, .empty (Or.inl rfl) ((returns_holding whole).mono back.has (fun b left => ?_)
    fun b => id), back.frame.mono fun b left => ?_⟩
  · exact ⟨left.1, unused b left.2⟩
  · exact ⟨left.1, unused b left.2⟩

end Backing

end FiveFs

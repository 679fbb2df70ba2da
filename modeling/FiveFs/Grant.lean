import FiveFs.Tree

/-! Allocation of extents: the run that a successful allocation returns was FREE and is FULL, and
the store holds the forest that says so. -/

namespace FiveFs

open Buffer Prog Refine

theorem child_lt (b : Nat) : b % CELL_BLOCKS / ALLOC_FANOUT < ALLOC_FANOUT := by
  simp only [CELL_BLOCKS, ALLOC_FANOUT]
  omega

theorem digit_lt (n : Nat) : n % ALLOC_FANOUT < ALLOC_FANOUT := Nat.mod_lt _ (by decide)

/-- The child indices that lead to slot `s` of block `b` of its cell. -/
def digits (b s : Nat) : List (Fin ALLOC_FANOUT) :=
  [⟨b % CELL_BLOCKS / ALLOC_FANOUT, child_lt b⟩, ⟨b % ALLOC_FANOUT, digit_lt b⟩,
  ⟨s % ALLOC_FANOUT, digit_lt s⟩]

/-- State and depth of the leaf that covers slot `s` of block `b`; at depth 3 it is an inode slot.
-/
def spot (T : Nat → Tree) (b s : Nat) : Option (CellState × Nat) :=
  (T (b / CELL_BLOCKS)).look 0 (digits b s)

/-- Nothing but FREE space changed: it was refined, or became a table arena. -/
def Keeps (T T' : Nat → Tree) (b s : Nat) : Prop :=
  spot T' b s = spot T b s ∨
    (∃ d ≤ 2, spot T b s = some (.free, d)) ∧
      ((∃ d ≤ 2, spot T' b s = some (.free, d)) ∨ spot T' b s = some (.rsvd, 0))

/-- The run of `n` blocks at `l` was FREE, and is now made of FULL cells of depth `d`. -/
structure Granted (A : Ag) (T T' : Nat → Tree) (l n d : Nat) : Prop where
  inside : l + n ≤ A.length
  depth : d ≤ 2
  start : l % granule d = 0
  whole : n % granule d = 0
  was : ∀ b s, l ≤ b → b < l + n → ∃ d ≤ 2, spot T b s = some (.free, d)
  now : ∀ b s, l ≤ b → b < l + n → spot T' b s = some (.full, d)
  others : ∀ b s, ¬ (l ≤ b ∧ b < l + n) → Keeps T T' b s

/-- What a run of allocator code leaves: only the root table and arena blocks were written,
and the superblock counters moved with those of the header. -/
structure Moved (A : Ag) (w w' : Work) (hdr hdr' : AgHeader) (T T' : Nat → Tree) : Prop where
  kin : w.Kin w'
  free : w'.fs.sb.freeBlocks + hdr.freeBlocks = w.fs.sb.freeBlocks + hdr'.freeBlocks
  rsvd : w'.fs.sb.rsvdBlocks + hdr.rsvdBlocks = w.fs.sb.rsvdBlocks + hdr'.rsvdBlocks
  full : w'.fs.sb.fullBlocks + hdr.fullBlocks = w.fs.sb.fullBlocks + hdr'.fullBlocks
  fixed : hdr' = { hdr with
    freeBlocks := hdr'.freeBlocks
    rsvdBlocks := hdr'.rsvdBlocks
    fullBlocks := hdr'.fullBlocks
    tblArena := hdr'.tblArena }
  frame : ∀ b, (∀ l, A.Root l → b ≠ A.blk l) → (∀ l, A.Arena T' l → b ≠ A.blk l) →
    w'.view b = w.view b
  grows : ∀ c, T c = .leaf .rsvd → T' c = .leaf .rsvd

/-- The superblock counts at least what the header counts. -/
structure Covered (w : Work) (hdr : AgHeader) : Prop where
  free : hdr.freeBlocks ≤ w.fs.sb.freeBlocks
  full : hdr.fullBlocks ≤ w.fs.sb.fullBlocks

namespace Moved

variable {A : Ag} {w w' w'' : Work} {hdr hdr' hdr'' : AgHeader} {T T' T'' : Nat → Tree}

theorem refl (A : Ag) (w : Work) (hdr : AgHeader) (T : Nat → Tree) : Moved A w w hdr hdr T T :=
  ⟨Work.Kin.refl w, rfl, rfl, rfl, rfl, fun _ _ _ => rfl, fun _ => id⟩

theorem arena (h : Moved A w w' hdr hdr' T T') {l : Nat} (arena : A.Arena T l) : A.Arena T' l :=
  ⟨arena.1, h.grows _ arena.2.1, arena.2.2⟩

theorem trans (h : Moved A w w' hdr hdr' T T') (h' : Moved A w' w'' hdr' hdr'' T' T'') :
    Moved A w w'' hdr hdr'' T T'' := by
  have free := h.free
  have free' := h'.free
  have rsvd := h.rsvd
  have rsvd' := h'.rsvd
  have full := h.full
  have full' := h'.full
  refine ⟨h.kin.trans h'.kin, by omega, by omega, by omega, ?_, ?_, fun c => h'.grows c ∘ h.grows c⟩
  · rw [h'.fixed, h.fixed]
  · intro b root apart
    rw [h'.frame b root apart]
    exact h.frame b root fun l inArena => apart l (h'.arena inArena)

theorem covered (h : Moved A w w' hdr hdr' T T') (covered : Covered w hdr) : Covered w' hdr' := by
  have free := h.free
  have full := h.full
  have before := covered.free
  have before' := covered.full
  exact ⟨by omega, by omega⟩

end Moved

namespace Keeps

variable {T T' T'' : Nat → Tree} {b s : Nat}

theorem refl (T : Nat → Tree) (b s : Nat) : Keeps T T b s := .inl rfl

theorem trans (h : Keeps T T' b s) (h' : Keeps T' T'' b s) : Keeps T T'' b s := by
  rcases h with same | ⟨was, now | gone⟩
  · rcases h' with same' | ⟨was', now'⟩
    · exact .inl (same'.trans same)
    · exact .inr ⟨same ▸ was', now'⟩
  · rcases h' with same' | ⟨_, now'⟩
    · exact .inr ⟨was, .inl (same' ▸ now)⟩
    · exact .inr ⟨was, now'⟩
  · rcases h' with same' | ⟨⟨d, _, free⟩, _⟩
    · exact .inr ⟨was, .inr (same'.trans gone)⟩
    · rw [gone] at free
      cases free

end Keeps

/-- A stored state says which kind of tree it stands for. -/
structure States (st : Nat) (ref : Ref) (x : Tree) : Prop where
  free : st = CELL_FREE ↔ x = .leaf .free
  full : st = CELL_FULL ↔ x = .leaf .full
  refined : st = CELL_REFINED ↔ ∃ kids, x = .refined ref kids

theorem states_of_models {kid : Ref → Fin ALLOC_FANOUT → Mark CellState Ref} {st : Nat} {ref : Ref}
    {x : Tree} (small : st < 4) (models : Models kid (cellMark st ref) x) : States st ref x := by
  cases x with
  | leaf s =>
      have mark : cellMark st ref = .leaf s := models
      refine ⟨?_, ?_, ?_⟩
      · rw [← cellMark_eq_free (r := ref), mark]
        simp
      · rw [← cellMark_eq_full (r := ref) small, mark]
        simp
      · constructor
        · rintro rfl
          cases mark
        · rintro ⟨kids, equal⟩
          cases equal
  | refined r kids =>
      obtain ⟨rfl, rfl⟩ := cellMark_eq_refined.mp models.1
      exact ⟨by simp [CELL_REFINED, CELL_FREE], by simp [CELL_REFINED, CELL_FULL], by simp⟩

namespace Ag.Held

variable [Crc32c] {A : Ag} {stale : Nat → Prop} {w w' : Work} {T T' : Nat → Tree}
    {hdr hdr' : AgHeader}
variable {half : Option Nat} {loose : Option Ref} {c : Nat} {r r' : Ref}

theorem mapped (h : A.Held stale w T half loose) (known : A.Known T loose r) :
    w.Mapped (A.blk r.1) :=
  h.on.mapped r.1 (h.live r known).arena.1

theorem recRead_run (h : A.Held stale w T half loose) (known : A.Known T loose r) :
    Work.recRead A.num r w = (.ok (recAt (w.view (A.blk r.1)) r.2), w) :=
  Work.recRead_run (h.mapped known) (h.live r known).sound (h.live r known).recIn

theorem recWrite_run (h : A.Held stale w T half loose) (known : A.Known T loose r) (data : Bytes) :
    Work.recWrite A.num r data w = (.ok (), w.put (A.blk r.1)
      (tblSeal w.blocksize (copyAt (w.view (A.blk r.1)) (recOff r.2) REC_SIZE data))) :=
  Work.recWrite_run data (h.mapped known) (h.live r known).sound (h.live r known).recIn

theorem root (h : A.Held stale w T half loose) (hc : c < A.cells) (whole : half ≠ some c) :
    States (cellGet (A.table w.view) c) (A.rootRef w.view c) (T c) :=
  states_of_models (get2_lt _ _) (h.models c hc whole)

theorem kid (h : A.Held stale w T half loose) (hc : c < A.cells) (whole : half ≠ some c)
    {p : List (Fin ALLOC_FANOUT)} {kids : Fin ALLOC_FANOUT → Tree}
    (at_path : (T c).sub p = some (.refined r kids)) (i : Fin ALLOC_FANOUT) :
    States (recState (recAt (w.view (A.blk r.1)) r.2) i) (recRef (recAt (w.view (A.blk r.1)) r.2) i)
      (kids i) :=
  states_of_models (recState_lt _ _) ((h.models c hc whole).sub at_path i)

theorem same (h : A.Held stale w T half loose) (kin : w.Kin w') (view : w'.view = w.view) :
    A.Held stale w' T half loose := by
  refine ⟨h.on.kin kin, ?_, ?_, h.once, ?_, ?_, h.reserved, h.shape, ?_, ?_⟩
  · rw [view]
    exact h.models
  · rw [view]
    exact h.pending
  · rw [view, kin.blocksize]
    exact h.live
  · rw [view]
    exact h.spare
  · rw [view]
    exact h.exact
  · rw [view]
    exact h.blank

theorem whole (h : A.Held stale w T half loose) (hc : c < A.cells) {s : CellState}
    (open' : s ≠ .rsvd)
    (leaf : T c = .leaf s) : (c + 1) * CELL_BLOCKS ≤ A.length := by
  apply A.whole hc
  intro fixed
  have rsvd := h.reserved c hc fixed
  rw [leaf] at rsvd
  exact open' (Cell.leaf.inj rsvd)

theorem linkWrite (h : A.Held stale w T none (some r')) {p : List (Fin ALLOC_FANOUT)}
    {kids : Fin ALLOC_FANOUT → Tree} (hc : c < A.cells)
    (at_path : (T c).sub p = some (.refined r kids))
    {i : Fin ALLOC_FANOUT} {s : CellState} (was : kids i = .leaf s) (deep : p.length < 2) :
    A.Held stale (w.put (A.blk r.1) (tblSeal w.blocksize (copyAt (w.view (A.blk r.1)) (recOff r.2)
      REC_SIZE (recRefSet (recStateSet (recAt (w.view (A.blk r.1)) r.2) i CELL_REFINED) i r'))))
      (setAt T c p (.refined r (Function.update kids i (FiveFs.blank r')))) none none := by
  have live := h.live r (known_of_tree hc (refCount_sub_pos at_path))
  have spare := h.live r' (.inr rfl)
  have rewritten := rewritten_recWrite (A := A) (v := w.view)
    (recRefSet (recStateSet (recAt (w.view (A.blk r.1)) r.2) i CELL_REFINED) i r') h.on.blocksize
    live.recIn live.used.1
  rw [← Work.view_put] at rewritten
  refine h.link ((Work.Kin.refl w).put _ _) hc at_path was deep rewritten (fun r₀ => ?_) fun j => ?_
  · rw [Work.view_put]
    exact used_recWrite _ h.on.blocksize r r₀
  · rw [recMark_set _ _ _ (by decide) spare.block_lt spare.index_lt]
    rfl

end Ag.Held

/-- The children `start..start + m` in state `s`. -/
def fillKids (kids : Fin ALLOC_FANOUT → Tree) (start m : Nat) (s : CellState)
    (i : Fin ALLOC_FANOUT) : Tree :=
  if start ≤ i.val ∧ i.val < start + m then .leaf s else kids i

namespace Ag.Held

variable [Crc32c] {A : Ag} {stale : Nat → Prop} {w w' : Work} {T T' : Nat → Tree}
    {hdr hdr' : AgHeader}
variable {half : Option Nat} {loose : Option Ref} {c : Nat} {r r' : Ref}

theorem fillWrite (h : A.Held stale w T none none) {p : List (Fin ALLOC_FANOUT)}
    {kids : Fin ALLOC_FANOUT → Tree} (hc : c < A.cells)
    (at_path : (T c).sub p = some (.refined r kids))
    {start m : Nat} (inside : start + m ≤ ALLOC_FANOUT)
    (free : ∀ i : Fin ALLOC_FANOUT, start ≤ i → i < start + m → kids i = .leaf .free) :
    A.Held stale (w.put (A.blk r.1) (tblSeal w.blocksize (copyAt (w.view (A.blk r.1)) (recOff r.2)
      REC_SIZE (recFill (recAt (w.view (A.blk r.1)) r.2) start m CELL_FULL))))
      (setAt T c p (.refined r (fillKids kids start m .full))) none none := by
  have live := h.live r (known_of_tree hc (refCount_sub_pos at_path))
  have rewritten := rewritten_recWrite (A := A) (v := w.view)
    (recFill (recAt (w.view (A.blk r.1)) r.2) start m CELL_FULL) h.on.blocksize live.recIn
    live.used.1
  rw [← Work.view_put] at rewritten
  refine h.rewrite ((Work.Kin.refl w).put _ _) hc at_path rewritten (fun r₀ => ?_) fun i => ?_
  · rw [Work.view_put]
    exact used_recWrite _ h.on.blocksize r r₀
  · rw [recMark_fill _ _ _ _ (by decide) (by decide) inside, fillKids]
    by_cases run : start ≤ i.val ∧ i.val < start + m
    · right
      rw [if_pos run, if_pos run]
      exact ⟨.free, .full, free i run.1 run.2, rfl, (fun h => by cases h), rfl⟩
    · left
      rw [if_neg run, if_neg run]
      exact ⟨rfl, rfl⟩

end Ag.Held

namespace Work

variable {A : Ag} {w : Work} {hdr : AgHeader}

theorem accountAlloc_run {n : Nat} (free : n ≤ hdr.freeBlocks) (sb : n ≤ w.fs.sb.freeBlocks) :
    accountAlloc hdr n w = (.ok { hdr with
      freeBlocks := hdr.freeBlocks - n
      fullBlocks := hdr.fullBlocks + n },
      w.recount (w.fs.sb.freeBlocks - n) w.fs.sb.rsvdBlocks (w.fs.sb.fullBlocks + n)) := by
  rw [accountAlloc, bind_ok _ _ (subtract_run free), bind_ok _ _ (get_run (s := w)),
    bind_ok _ _ (subtract_run sb), bind_ok _ _ (modify_run _)]
  rfl

theorem accountFree_run {n : Nat} (full : n ≤ hdr.fullBlocks) (sb : n ≤ w.fs.sb.fullBlocks) :
    accountFree hdr n w = (.ok { hdr with
      freeBlocks := hdr.freeBlocks + n
      fullBlocks := hdr.fullBlocks - n },
      w.recount (w.fs.sb.freeBlocks + n) w.fs.sb.rsvdBlocks (w.fs.sb.fullBlocks - n)) := by
  rw [accountFree, bind_ok _ _ (subtract_run full), bind_ok _ _ (get_run (s := w)),
    bind_ok _ _ (subtract_run sb), bind_ok _ _ (modify_run _)]
  rfl

end Work

namespace Moved

variable {A : Ag} {w w' : Work} {hdr : AgHeader} {T T' : Nat → Tree}

theorem write (kin : w.Kin w') (sb : w'.fs.sb = w.fs.sb) (hdr : AgHeader)
    (frame : ∀ b, (∀ l, A.Root l → b ≠ A.blk l) → (∀ l, A.Arena T' l → b ≠ A.blk l) →
      w'.view b = w.view b)
    (grows : ∀ c, T c = .leaf .rsvd → T' c = .leaf .rsvd) : Moved A w w' hdr hdr T T' :=
  ⟨kin, by rw [sb], by rw [sb], by rw [sb], rfl, frame, grows⟩

theorem tabled {data : Bytes} (put : A.Tabled w w' data) (hdr : AgHeader)
    (grows : ∀ c, T c = .leaf .rsvd → T' c = .leaf .rsvd) : Moved A w w' hdr hdr T T' :=
  write put.kin put.sb hdr (fun b root _ => put.frame b root) grows

theorem putArena (w : Work) (hdr : AgHeader) {l : Nat} (data : Bytes) (arena : A.Arena T' l)
    (grows : ∀ c, T c = .leaf .rsvd → T' c = .leaf .rsvd) :
    Moved A w (w.put (A.blk l) data) hdr hdr T T' := by
  apply write ((Work.Kin.refl w).put _ _) rfl hdr ?_ grows
  intro b _ apart
  rw [Work.view_put, Function.update_of_ne (apart l arena)]

theorem rehint (w : Work) (hdr : AgHeader) (T : Nat → Tree) (hints : Nat → Option (Nat × Nat)) :
    Moved A w (w.rehint hints) hdr hdr T T :=
  write ((Work.Kin.refl w).rehint hints) rfl hdr (fun _ _ _ => rfl) fun _ => id

theorem accountAlloc (w : Work) (hdr : AgHeader) (T : Nat → Tree) {n : Nat}
    (free : n ≤ hdr.freeBlocks)
    (sb : n ≤ w.fs.sb.freeBlocks) :
    Moved A w (w.recount (w.fs.sb.freeBlocks - n) w.fs.sb.rsvdBlocks (w.fs.sb.fullBlocks + n)) hdr
      { hdr with freeBlocks := hdr.freeBlocks - n, fullBlocks := hdr.fullBlocks + n } T T := by
  refine ⟨(Work.Kin.refl w).recount _ _ _, ?_, rfl, ?_, rfl, fun _ _ _ => rfl, fun _ => id⟩
  · simp only [Work.recount]
    omega
  · simp only [Work.recount]
    omega

theorem accountFree (w : Work) (hdr : AgHeader) (T : Nat → Tree) {n : Nat}
    (full : n ≤ hdr.fullBlocks)
    (sb : n ≤ w.fs.sb.fullBlocks) :
    Moved A w (w.recount (w.fs.sb.freeBlocks + n) w.fs.sb.rsvdBlocks (w.fs.sb.fullBlocks - n)) hdr
      { hdr with freeBlocks := hdr.freeBlocks + n, fullBlocks := hdr.fullBlocks - n } T T := by
  refine ⟨(Work.Kin.refl w).recount _ _ _, ?_, rfl, ?_, rfl, fun _ _ _ => rfl, fun _ => id⟩
  · simp only [Work.recount]
    omega
  · simp only [Work.recount]
    omega

end Moved

-- weights

@[simp] theorem freeWeight_free (d : Nat) : freeWeight.leaf d .free = granule d := rfl
@[simp] theorem freeWeight_full (d : Nat) : freeWeight.leaf d .full = 0 := rfl
@[simp] theorem freeWeight_rsvd (d : Nat) : freeWeight.leaf d .rsvd = 0 := rfl
@[simp] theorem freeWeight_node (d : Nat) (r : Ref) : freeWeight.node d r = 0 := rfl
@[simp] theorem fullWeight_free (d : Nat) : fullWeight.leaf d .free = 0 := rfl
@[simp] theorem fullWeight_full (d : Nat) : fullWeight.leaf d .full = granule d := rfl
@[simp] theorem fullWeight_rsvd (d : Nat) : fullWeight.leaf d .rsvd = 0 := rfl

@[simp] theorem rsvdWeight_node (length c d : Nat) (r : Ref) : (rsvdWeight length c).node d r = 0 :=
    rfl

theorem rsvdWeight_open {length c d : Nat} {s : CellState} (open' : s ≠ .rsvd) :
    (rsvdWeight length c).leaf d s = 0 := if_neg open'

theorem free_blank (r : Ref) (d : Nat) :
    (blank r).weigh freeWeight d = ALLOC_FANOUT * granule (d + 1) := by
  rw [blank, Cell.weigh_refined, Finset.sum_const, Finset.card_univ, Fintype.card_fin]
  simp

theorem full_blank (r : Ref) (d : Nat) : (blank r).weigh fullWeight d = if d = 2 then 1 else 0 := by
  have children : ∑ _i : Fin ALLOC_FANOUT, (Cell.leaf .free : Tree).weigh fullWeight
      (d + 1) = 0 := by
    simp only [Cell.weigh_leaf, fullWeight_free, Finset.sum_const_zero]
  rw [blank, Cell.weigh_refined, children, Nat.add_zero]
  rfl

theorem rsvd_blank (r : Ref) (length c d : Nat) : (blank r).weigh (rsvdWeight length c) d = 0 := by
  have open' : CellState.free ≠ .rsvd := by decide
  have children : ∑ _i : Fin ALLOC_FANOUT,
      (Cell.leaf .free : Tree).weigh (rsvdWeight length c) (d + 1) = 0 := by
    simp only [Cell.weigh_leaf, rsvdWeight_open open', Finset.sum_const_zero]
  rw [blank, Cell.weigh_refined, children, rsvdWeight_node]

namespace Ag.Tally

variable {A : Ag} {hdr : AgHeader} {T : Nat → Tree} {c : Nat} {p : List (Fin ALLOC_FANOUT)}

theorem free_le (h : A.Tally hdr T) (hc : c < A.cells)
    (at_path : (T c).sub p = some (.leaf .free)) :
    granule p.length ≤ hdr.freeBlocks :=
  h.free ▸ weigh_le_total (fun _ => freeWeight) hc at_path

theorem full_le (h : A.Tally hdr T) (hc : c < A.cells)
    (at_path : (T c).sub p = some (.leaf .full)) :
    granule p.length ≤ hdr.fullBlocks :=
  h.full ▸ weigh_le_total (fun _ => fullWeight) hc at_path

theorem grow (h : A.Tally hdr T) (hc : c < A.cells) (free : T c = .leaf .free)
    (fixed : ¬ A.reserved c) :
    A.Tally { hdr with
      tblArena := c * CELL_BLOCKS
      freeBlocks := hdr.freeBlocks - CELL_BLOCKS
      rsvdBlocks := hdr.rsvdBlocks + CELL_BLOCKS } (Function.update T c (.leaf .rsvd)) := by
  have whole := A.whole hc fixed
  have size : min CELL_BLOCKS (A.length - c * CELL_BLOCKS) = CELL_BLOCKS := by
    rw [CELL_BLOCKS] at *
    omega
  have moved := fun w => total_update A.cells w T hc (.leaf .rsvd)
  refine ⟨⟨h.of.num, h.of.length, h.of.root⟩, ?_, ?_, ?_, fun _ => ?_⟩
  · have here := moved fun _ => freeWeight
    rw [free] at here
    simp only [Cell.weigh_leaf, freeWeight_free, freeWeight_rsvd, granule] at here
    simp only [h.free]
    omega
  · have here := moved fun _ => fullWeight
    rw [free] at here
    simp only [Cell.weigh_leaf, fullWeight_free, fullWeight_rsvd] at here
    simp only [h.full]
    omega
  · have here := moved (rsvdWeight A.length)
    rw [free] at here
    have now : (rsvdWeight A.length c).leaf 0 .rsvd = CELL_BLOCKS := size
    simp only [Cell.weigh_leaf, rsvdWeight_open (by decide : CellState.free ≠ .rsvd), now] at here
    simp only [h.rsvd]
    omega
  · simp only [Nat.mul_mod_left, Nat.mul_div_cancel c (by decide : 0 < CELL_BLOCKS)]
    exact ⟨trivial, hc, Function.update_self .., fixed⟩

end Ag.Tally

/-- The store, the header and the superblock agree on the forest. -/
structure Ag.Ready [Crc32c] (A : Ag) (stale : Nat → Prop) (w : Work) (hdr : AgHeader)
    (T : Nat → Tree)
    (half : Option Nat) (loose : Option Ref) : Prop where
  held : A.Held stale w T half loose
  tally : A.Tally hdr T
  covered : Covered w hdr

/-- The cell that became an arena was FREE. -/
def Ag.Grows (A : Ag) (T : Nat → Tree) (half grown : Option Nat) : Prop :=
  ∀ c, grown = some c → c < A.cells ∧ T c = .leaf .free ∧ half ≠ some c

theorem grow_rsvd (T : Nat → Tree) (grown : Option Nat) (c : Nat) (rsvd : T c = .leaf .rsvd) :
    Ag.grow T grown c = .leaf .rsvd := by
  rw [Ag.grow_apply, rsvd, ite_self]

theorem Ag.Grows.other {A : Ag} {T : Nat → Tree} {half grown : Option Nat}
    (grows : A.Grows T half grown)
    {c : Nat} (kept : T c ≠ .leaf .free ∨ half = some c) : Ag.grow T grown c = T c := by
  rw [Ag.grow_apply, if_neg]
  intro equal
  have was := grows c equal
  rcases kept with open' | pending
  · exact open' was.2.1
  · exact was.2.2 pending

theorem Ag.Tally.inArena {A : Ag} {hdr : AgHeader} {T : Nat → Tree} (tally : A.Tally hdr T)
    {l : Nat}
    (some : hdr.tblArena ≠ 0) (low : hdr.tblArena ≤ l) (high : l < hdr.tblArena + CELL_BLOCKS) :
    A.Arena T l := by
  obtain ⟨aligned, cell, rsvd, fixed⟩ := tally.arena some
  have same : l / CELL_BLOCKS = hdr.tblArena / CELL_BLOCKS := by
    rw [CELL_BLOCKS] at *
    omega
  have whole := A.whole cell fixed
  refine ⟨?_, same ▸ rsvd, same ▸ fixed⟩
  rw [CELL_BLOCKS] at *
  omega

theorem Ag.Tally.place {A : Ag} {hdr : AgHeader} {T : Nat → Tree} (tally : A.Tally hdr T)
    (some : hdr.tblArena ≠ 0) (b : Nat) (low : hdr.tblArena ≤ b)
    (high : b < hdr.tblArena + CELL_BLOCKS) :
    b < A.length ∧ ¬ A.Root b :=
  ⟨(tally.inArena some low high).1, (tally.inArena some low high).ne_root⟩

theorem Ag.Held.leaf_free [Crc32c] {A : Ag} {stale : Nat → Prop} {w : Work} {T : Nat → Tree}
    {half : Option Nat} {loose : Option Ref} (held : A.Held stale w T half loose) {c : Nat}
    (hc : c < A.cells) (free : A.rootMark w.view c = .leaf .free) : T c = .leaf .free ∧
    half ≠ some c := by
  have state : cellGet (A.table w.view) c = CELL_FREE := cellMark_eq_free.mp free
  have whole : half ≠ some c := by
    intro pending
    rw [(held.pending c pending).2.2] at state
    cases state
  exact ⟨(held.root hc whole).free.mp state, whole⟩

theorem Ag.Ready.counted [Crc32c] {A : Ag} {stale : Nat → Prop} {w : Work} {T : Nat → Tree}
    {hdr : AgHeader} {half : Option Nat} {loose : Option Ref}
    (ready : A.Ready stale w hdr T half loose) :
    Work.Counted A w hdr := by
  intro c hc free
  obtain ⟨isFree, _⟩ := ready.held.leaf_free hc free
  have bound := ready.tally.free_le (p := []) hc (by rw [Cell.sub_nil, isFree])
  refine ⟨fun fixed => ?_, bound, Nat.le_trans bound ready.covered.free⟩
  rw [ready.held.reserved c hc fixed] at isFree
  cases isFree

namespace Work

variable [Crc32c] {A : Ag} {stale : Nat → Prop} {w w' : Work} {T : Nat → Tree} {hdr : AgHeader}
variable {half : Option Nat} {c : Nat} {r : Ref}

theorem claim_wp (ready : A.Ready stale w hdr T half none) :
    wp (tblAllocRec hdr) (fun (r, hdr') w' => ∃ grown, A.Grows T half grown ∧
      A.Ready stale w' hdr' (Ag.grow T grown) half (some r) ∧
      Moved A w w' hdr hdr' T (Ag.grow T grown)) NoUnderflow w := by
  have held := ready.held
  have tally := ready.tally
  have counted := ready.counted
  have arena := fun l => tally.inArena (l := l)
  apply wp_mono (tblAllocRec_wp held.on tally.of counted tally.place)
  · rintro ⟨r, hdr'⟩ w' ⟨kin, grown, claimed, growth⟩
    refine ⟨grown, ?_⟩
    cases growth with
    | kept some low high sb =>
        have isPlace : A.Place T half r none := arena r.1 some low high
        refine ⟨(fun _ h => by cases h), ⟨held.claim kin claimed isPlace, tally, ?_⟩, ?_⟩
        · exact ⟨sb ▸ ready.covered.free, sb ▸ ready.covered.full⟩
        · apply Moved.write kin sb
          · intro b root apart
            exact claimed.frame b (apart r.1 (arena r.1 some low high)) root
          · exact fun _ => id
    | grown c hc free equal sb _ =>
        obtain ⟨isFree, whole⟩ := held.leaf_free hc free
        obtain ⟨_, inHdr, inSb⟩ := counted c hc free
        have fixed := (counted c hc free).1
        have isPlace : A.Place T half r (some c) := ⟨hc, isFree, whole, by rw [equal]⟩
        have held' := held.claim kin claimed isPlace
        have moved : Moved A w w' hdr { hdr with
            tblArena := c * CELL_BLOCKS
            freeBlocks := hdr.freeBlocks - CELL_BLOCKS
            rsvdBlocks := hdr.rsvdBlocks + CELL_BLOCKS } T (Ag.grow T (some c)) := by
          refine ⟨kin, ?_, ?_, ?_, rfl, ?_, grow_rsvd T (some c)⟩
          · simp only [sb, recount]
            omega
          · simp only [sb, recount]
            omega
          · simp only [sb, recount]
          · intro b root apart
            exact claimed.frame b (apart r.1 (held.arena_grow isPlace)) root
        refine ⟨?_, ⟨held', tally.grow hc isFree fixed, moved.covered ready.covered⟩, moved⟩
        rintro c' same
        cases same
        exact ⟨hc, isFree, whole⟩
  · exact fun _ _ err => err

end Work

namespace Ag.Tally

variable {A : Ag} {hdr : AgHeader} {T T' : Nat → Tree} {c : Nat} {p : List (Fin ALLOC_FANOUT)}

theorem change (h : A.Tally hdr T) {f g u v : Nat}
    (free : total A.cells (fun _ => freeWeight) T' + f = total A.cells (fun _ => freeWeight) T + g)
    (full : total A.cells (fun _ => fullWeight) T' + u = total A.cells (fun _ => fullWeight) T + v)
    (rsvd : total A.cells (rsvdWeight A.length) T' = total A.cells (rsvdWeight A.length) T)
    (grows : ∀ c, T c = .leaf .rsvd → T' c = .leaf .rsvd) :
    A.Tally { hdr with
      freeBlocks := hdr.freeBlocks + g - f
      fullBlocks := hdr.fullBlocks + v - u } T' := by
  have hf := h.free
  have hu := h.full
  refine ⟨⟨h.of.num, h.of.length, h.of.root⟩, ?_, ?_, ?_, fun some => ?_⟩
  · simp only
    omega
  · simp only
    omega
  · simp only [h.rsvd, rsvd]
  · obtain ⟨aligned, cell, isRsvd, fixed⟩ := h.arena some
    exact ⟨aligned, cell, grows _ isRsvd, fixed⟩

theorem keep (h : A.Tally hdr T)
    (free : total A.cells (fun _ => freeWeight) T' = total A.cells (fun _ => freeWeight) T)
    (full : total A.cells (fun _ => fullWeight) T' = total A.cells (fun _ => fullWeight) T)
    (rsvd : total A.cells (rsvdWeight A.length) T' = total A.cells (rsvdWeight A.length) T)
    (grows : ∀ c, T c = .leaf .rsvd → T' c = .leaf .rsvd) : A.Tally hdr T' := by
  have same := h.change (f := 0) (g := 0) (u := 0) (v := 0) (by simpa using free)
    (by simpa using full) rsvd grows
  exact same

theorem refineRoot (h : A.Tally hdr T) (hc : c < A.cells) (free : T c = .leaf .free) (r : Ref) :
    A.Tally hdr (Function.update T c (blank r)) := by
  have open' : CellState.free ≠ .rsvd := by decide
  have moved := fun w => total_update A.cells w T hc (blank r)
  apply h.keep
  · have here := moved fun _ => freeWeight
    rw [free, free_blank, Cell.weigh_leaf, freeWeight_free] at here
    have size : ALLOC_FANOUT * granule (0 + 1) = granule 0 := rfl
    omega
  · have here := moved fun _ => fullWeight
    rw [free, full_blank, Cell.weigh_leaf, fullWeight_free, if_neg (by decide)] at here
    omega
  · have here := moved (rsvdWeight A.length)
    rw [free, rsvd_blank, Cell.weigh_leaf, rsvdWeight_open open'] at here
    omega
  · intro c' rsvd
    refine (rsvd_update ?_ ?_ c').mpr rsvd
    · rw [free]
      exact fun h => by cases h
    · exact fun h => by cases h

theorem refineKid (h : A.Tally hdr T) (hc : c < A.cells) {r : Ref} {kids : Fin ALLOC_FANOUT → Tree}
    (was : T c = .refined r kids) {i : Fin ALLOC_FANOUT} (free : kids i = .leaf .free) (r' : Ref) :
    A.Tally hdr (setAt T c [] (.refined r (Function.update kids i (blank r')))) := by
  have open' : CellState.free ≠ .rsvd := by decide
  have at_path : (T c).sub [] = some (.refined r kids) := by rw [Cell.sub_nil, was]
  have moved := fun w => total_setKid w hc at_path i (blank r')
  apply h.keep
  · have here := moved fun _ => freeWeight
    rw [free, free_blank, Cell.weigh_leaf, freeWeight_free] at here
    have size : ALLOC_FANOUT * granule (0 + 1 + 1) = granule (0 + 1) := rfl
    simp only [List.length_nil] at here
    omega
  · have here := moved fun _ => fullWeight
    rw [free, full_blank, Cell.weigh_leaf, fullWeight_free, if_neg (by decide)] at here
    omega
  · have here := moved (rsvdWeight A.length)
    rw [free, rsvd_blank, Cell.weigh_leaf, rsvdWeight_open open'] at here
    omega
  · intro c' rsvd
    rw [setAt_nil]
    refine (rsvd_update ?_ ?_ c').mpr rsvd
    · rw [was]
      exact fun h => by cases h
    · exact fun h => by cases h

end Ag.Tally

theorem rsvd_grows {T : Nat → Tree} {c : Nat} {x : Tree} (was : T c ≠ .leaf .rsvd)
    (is : x ≠ .leaf .rsvd)
    (c' : Nat) (rsvd : T c' = .leaf .rsvd) : Function.update T c x c' = .leaf .rsvd :=
  (Ag.rsvd_update was is c').mpr rsvd

namespace Work

variable [Crc32c] {A : Ag} {stale : Nat → Prop} {w w' : Work} {T : Nat → Tree} {hdr : AgHeader}
variable {half : Option Nat} {c : Nat} {r : Ref}

theorem refineL0_wp (ready : A.Ready stale w hdr T none none) (hc : c < A.cells)
    (free : T c = .leaf .free) :
    wp (refineL0 hdr c) (fun (r, hdr') w' => ∃ grown, A.Grows T (some c) grown ∧
      A.Ready stale w' hdr' (Function.update (Ag.grow T grown) c (blank r)) none none ∧
      Moved A w w' hdr hdr' T (Function.update (Ag.grow T grown) c (blank r))) NoUnderflow w := by
  have held := ready.held
  have isFree : T c ≠ .leaf .rsvd := by rw [free]; exact fun h => by cases h
  obtain ⟨w₀, written, put⟩ := rtStateSet_run held.on ready.tally.of hc CELL_REFINED
  rw [refineL0, wp_bind, wp_run written, wp_bind]
  have started := Moved.tabled put hdr (T := T) fun _ => id
  have begun : A.Ready stale w₀ hdr T (some c) none :=
    ⟨held.begin hc put free, ready.tally, started.covered ready.covered⟩
  apply wp_mono (claim_wp begun)
  · rintro ⟨r, hdr'⟩ w' ⟨grown, grows, ready', moved⟩
    have cell : Ag.grow T grown c = .leaf .free := by rw [grows.other (.inr rfl), free]
    have apart : Ag.grow T grown c ≠ .leaf .rsvd := by rw [cell]; exact fun h => by cases h
    obtain ⟨w'', written', put'⟩ := rtRefSet_run ready'.held.on ready'.tally.of hc r
    rw [wp_bind, wp_run written']
    have linked := Moved.tabled put' hdr' (rsvd_grows apart (x := blank r) (fun h => by cases h))
    exact ⟨grown, grows, ⟨ready'.held.linkRoot put', ready'.tally.refineRoot hc cell r,
      linked.covered ready'.covered⟩, (started.trans moved).trans linked⟩
  · exact fun _ _ err => err

theorem refineL1_wp (ready : A.Ready stale w hdr T none none) (hc : c < A.cells)
    {kids : Fin ALLOC_FANOUT → Tree} (was : T c = .refined r kids) {i : Fin ALLOC_FANOUT}
    (free : kids i = .leaf .free) :
    wp (refineL1 hdr r i) (fun (r', hdr') w' => ∃ grown, A.Grows T none grown ∧
      A.Ready stale w' hdr'
        (Function.update (Ag.grow T grown) c (.refined r (Function.update kids i (blank r')))) none
        none ∧
      Moved A w w' hdr hdr' T
        (Function.update (Ag.grow T grown) c (.refined r (Function.update kids i (blank r')))))
      NoUnderflow w := by
  rw [refineL1, wp_bind]
  apply wp_mono (claim_wp ready)
  · rintro ⟨r', hdr'⟩ w' ⟨grown, grows, ready', moved⟩
    have cell : Ag.grow T grown c = .refined r kids := by
      rw [grows.other (.inl (by rw [was]; exact fun h => by cases h)), was]
    have at_path : (Ag.grow T grown c).sub [] = some (.refined r kids) := by rw [Cell.sub_nil, cell]
    have known : A.Known (Ag.grow T grown) (some r') r :=
      Ag.known_of_tree hc (cell ▸ refCount_self r kids)
    have apart : Ag.grow T grown c ≠ .leaf .rsvd := by rw [cell]; exact fun h => by cases h
    have link := ready'.held.linkWrite hc at_path free (by decide)
    have tally := ready'.tally.refineKid hc cell free r'
    rw [setAt_nil] at link tally
    dsimp only
    rw [ready'.tally.of.num, wp_bind, wp_run (ready'.held.recRead_run known), wp_bind,
      wp_run (ready'.held.recWrite_run known _)]
    have linked := Moved.putArena w' hdr' (l := r.1)
        (tblSeal w'.blocksize (copyAt (w'.view (A.blk r.1))
      (recOff r.2) REC_SIZE (recRefSet (recStateSet (recAt (w'.view (A.blk r.1)) r.2) i
      CELL_REFINED)
      i r'))) (link.live r ?_).arena
      (rsvd_grows apart (x := .refined r (Function.update kids i (blank r'))) (fun h => by cases h))
    · exact ⟨grown, grows, ⟨link, tally, linked.covered ready'.covered⟩, moved.trans linked⟩
    · apply Ag.known_of_tree hc
      rw [Function.update_self]
      exact refCount_self _ _
  · exact fun _ _ err => err

end Work

-- what a replaced cell means for the blocks

theorem spot_setAt {T : Nat → Tree} {c : Nat} {p : List (Fin ALLOC_FANOUT)} {x : Tree}
    (at_path : (T c).sub p = some x) (y : Tree) (b s : Nat) :
    spot (setAt T c p y) b s = if b / CELL_BLOCKS = c ∧ p <+: digits b s then
      y.look p.length ((digits b s).drop p.length) else spot T b s := by
  rw [spot]
  by_cases cell : b / CELL_BLOCKS = c
  · rw [cell, setAt_self, Cell.look_set at_path, Nat.zero_add, spot, cell]
    simp
  · rw [setAt_of_ne cell, if_neg (fun both => cell both.1)]
    rfl

theorem spot_update (T : Nat → Tree) (c : Nat) (y : Tree) (b s : Nat) :
    spot (Function.update T c y) b s =
      if b / CELL_BLOCKS = c then y.look 0 (digits b s) else spot T b s := by
  have whole := spot_setAt (T := T) (c := c) (p := []) (Cell.sub_nil _) y b s
  rw [setAt_nil] at whole
  simpa using whole

/-- The position of a block in its L1 cell's record, and of its L1 cell in the L0 record. -/
def l1Index (b : Nat) : Nat := b % CELL_BLOCKS / ALLOC_FANOUT
def l2Index (b : Nat) : Nat := b % ALLOC_FANOUT

theorem l1Index_lt (b : Nat) : l1Index b < ALLOC_FANOUT := by
  rw [l1Index, CELL_BLOCKS, ALLOC_FANOUT]
  omega

theorem l2Index_lt (b : Nat) : l2Index b < ALLOC_FANOUT := Nat.mod_lt _ (by decide)

theorem digits_eq (b s : Nat) : digits b s =
    [⟨l1Index b, l1Index_lt b⟩, ⟨l2Index b, l2Index_lt b⟩,
    ⟨s % ALLOC_FANOUT, Nat.mod_lt _ (by decide)⟩] :=
  rfl

theorem look_fill (kids : Fin ALLOC_FANOUT → Tree) (r : Ref) (start m d : Nat) (st : CellState)
    (i : Fin ALLOC_FANOUT) (q : List (Fin ALLOC_FANOUT)) :
    (Cell.refined r (fillKids kids start m st)).look d (i :: q) =
      if start ≤ i.val ∧ i.val < start + m then some (st, d + 1)
      else (Cell.refined r kids).look d (i :: q) := by
  rw [Cell.look_refined, Cell.look_refined, fillKids]
  split
  · rw [Cell.look_leaf]
  · rfl

theorem spot_fillL1 {T : Nat → Tree} {c : Nat} {r : Ref} {kids : Fin ALLOC_FANOUT → Tree}
    (was : T c = .refined r kids) (start m : Nat) (st : CellState) (b s : Nat) :
    spot (setAt T c [] (.refined r (fillKids kids start m st))) b s =
      if b / CELL_BLOCKS = c ∧ start ≤ l1Index b ∧ l1Index b < start + m then some (st, 1)
      else spot T b s := by
  have at_path : (T c).sub [] = some (.refined r kids) := by rw [Cell.sub_nil, was]
  rw [spot_setAt at_path]
  by_cases cell : b / CELL_BLOCKS = c
  · rw [if_pos ⟨cell, List.nil_prefix⟩, List.length_nil, List.drop_zero, digits_eq, look_fill]
    by_cases run : start ≤ l1Index b ∧ l1Index b < start + m
    · rw [if_pos run, if_pos ⟨cell, run⟩]
    · rw [if_neg run, if_neg (fun all => run all.2), spot, cell, was]
      rfl
  · rw [if_neg (fun both => cell both.1), if_neg (fun all => cell all.1)]

theorem spot_fillL2 {T : Nat → Tree} {c : Nat} {r : Ref} {kids : Fin ALLOC_FANOUT → Tree}
    {i : Fin ALLOC_FANOUT} (at_path : (T c).sub [i] = some (.refined r kids)) (start m : Nat)
    (st : CellState) (b s : Nat) :
    spot (setAt T c [i] (.refined r (fillKids kids start m st))) b s =
      if b / CELL_BLOCKS = c ∧ l1Index b = i ∧ start ≤ l2Index b ∧ l2Index b < start + m then
        some (st, 2)
      else spot T b s := by
  rw [spot_setAt at_path]
  have prefix_iff : [i] <+: digits b s ↔ l1Index b = i := by
    rw [digits_eq, List.cons_prefix_cons]
    constructor
    · rintro ⟨equal, _⟩
      rw [equal]
    · intro equal
      exact ⟨Fin.ext equal.symm, List.nil_prefix⟩
  simp only [prefix_iff]
  by_cases here : b / CELL_BLOCKS = c ∧ l1Index b = i
  · have rest : (digits b s).drop [i].length =
        [⟨l2Index b, l2Index_lt b⟩, ⟨s % ALLOC_FANOUT, Nat.mod_lt _ (by decide)⟩] := rfl
    rw [if_pos here, rest, look_fill]
    by_cases run : start ≤ l2Index b ∧ l2Index b < start + m
    · rw [if_pos run, if_pos ⟨here.1, here.2, run⟩]
      rfl
    · rw [if_neg run, if_neg (fun all => run all.2.2), spot, here.1]
      have split : digits b s = [i] ++ [⟨l2Index b, l2Index_lt b⟩,
          ⟨s % ALLOC_FANOUT, Nat.mod_lt _ (by decide)⟩] := by
        rw [digits_eq, List.cons_append, List.nil_append]
        congr 1
        exact Fin.ext here.2
      rw [split, Cell.look_sub at_path]
      rfl
  · rw [if_neg here, if_neg (fun all => here ⟨all.1, all.2.1⟩)]

namespace Ag

variable [Crc32c] {A : Ag} {stale : Nat → Prop} {w w' : Work} {T : Nat → Tree} {hdr : AgHeader}
variable {c : Nat} {r : Ref} {p : List (Fin ALLOC_FANOUT)} {kids : Fin ALLOC_FANOUT → Tree}

omit [Crc32c] in
theorem weigh_fill {start m d : Nat} (inside : start + m ≤ ALLOC_FANOUT)
    (free : ∀ i : Fin ALLOC_FANOUT, start ≤ i → i < start + m → kids i = .leaf .free)
    (length : Nat) :
    (Cell.refined r kids : Tree).weigh freeWeight d =
        (Cell.refined r (fillKids kids start m .full)).weigh freeWeight d + m * granule (d + 1) ∧
      (Cell.refined r (fillKids kids start m .full)).weigh fullWeight d =
        (Cell.refined r kids : Tree).weigh fullWeight d + m * granule (d + 1) ∧
      (Cell.refined r (fillKids kids start m .full)).weigh (rsvdWeight length c) d =
        (Cell.refined r kids : Tree).weigh (rsvdWeight length c) d := by
  have filled : ∀ i : Fin ALLOC_FANOUT, start ≤ i → i < start + m →
      fillKids kids start m .full i = .leaf .full := fun i low high => if_pos ⟨low, high⟩
  have kept : ∀ i : Fin ALLOC_FANOUT, ¬ (start ≤ i ∧ i < start + m) →
      fillKids kids start m .full i = kids i := fun i outside => if_neg outside
  have sumFree := Cell.sum_run (f := fun i => (fillKids kids start m .full i).weigh freeWeight
      (d + 1))
    (g := fun i => (kids i).weigh freeWeight (d + 1)) (a := granule (d + 1)) inside
    (fun i low high => by
      rw [filled i low high, free i low high, Cell.weigh_leaf, Cell.weigh_leaf, freeWeight_free,
        freeWeight_full, Nat.zero_add])
    (fun i outside => by rw [kept i outside])
  have sumFull := Cell.sum_run (f := fun i => (kids i).weigh fullWeight (d + 1))
    (g := fun i => (fillKids kids start m .full i).weigh fullWeight (d + 1)) (a := granule (d + 1))
    inside
    (fun i low high => by
      rw [filled i low high, free i low high, Cell.weigh_leaf, Cell.weigh_leaf, fullWeight_free,
        fullWeight_full, Nat.zero_add])
    (fun i outside => by rw [kept i outside])
  have sumRsvd : ∑ i, (fillKids kids start m .full i).weigh (rsvdWeight length c) (d + 1) =
      ∑ i, (kids i).weigh (rsvdWeight length c) (d + 1) := by
    apply Finset.sum_congr rfl
    intro i _
    by_cases run : start ≤ i.val ∧ i.val < start + m
    · rw [filled i run.1 run.2, free i run.1 run.2, Cell.weigh_leaf, Cell.weigh_leaf,
        rsvdWeight_open (by decide), rsvdWeight_open (by decide)]
    · rw [kept i run]
  refine ⟨?_, ?_, ?_⟩
  · rw [Cell.weigh_refined, Cell.weigh_refined, sumFree, Nat.add_assoc]
  · rw [Cell.weigh_refined, Cell.weigh_refined, sumFull, Nat.add_assoc]
  · rw [Cell.weigh_refined, Cell.weigh_refined, sumRsvd]

theorem Ready.fill (ready : A.Ready stale w hdr T none none) (hc : c < A.cells)
    (at_path : (T c).sub p = some (.refined r kids)) {start m : Nat}
    (inside : start + m ≤ ALLOC_FANOUT)
    (free : ∀ i : Fin ALLOC_FANOUT, start ≤ i → i < start + m → kids i = .leaf .free) :
    ∃ w₁ w₂ hdr', Work.recWrite A.num r (recFill (recAt (w.view (A.blk r.1)) r.2) start m CELL_FULL)
    w =
        (.ok (), w₁) ∧
      Work.accountAlloc hdr (m * granule (p.length + 1)) w₁ = (.ok hdr', w₂) ∧
      A.Ready stale w₂ hdr' (setAt T c p (.refined r (fillKids kids start m .full))) none none ∧
      Moved A w w₂ hdr hdr' T (setAt T c p (.refined r (fillKids kids start m .full))) := by
  have held := ready.held.fillWrite hc at_path inside free
  have known : A.Known T none r := known_of_tree hc (refCount_sub_pos at_path)
  have grows : ∀ c', T c' = .leaf .rsvd →
      setAt T c p (.refined r (fillKids kids start m .full)) c' = .leaf .rsvd :=
    rsvd_grows (Cell.ne_leaf_of_sub at_path _) (Cell.ne_leaf_of_sub (Cell.set_sub at_path _) _)
  obtain ⟨weighFree, weighFull, weighRsvd⟩ := weigh_fill (c := c) (r := r) (d := p.length) inside
      free
    A.length
  have moved := fun w => total_setAt w hc at_path (.refined r (fillKids kids start m .full))
  have totalFree := moved fun _ => freeWeight
  have totalFull := moved fun _ => fullWeight
  have totalRsvd := moved (rsvdWeight A.length)
  have inHdr : m * granule (p.length + 1) ≤ hdr.freeBlocks := by
    rw [ready.tally.free]
    omega
  have inSb := Nat.le_trans inHdr ready.covered.free
  have tally := ready.tally.change (f := m * granule (p.length + 1)) (g := 0) (u := 0)
    (v := m * granule (p.length + 1)) (by omega) (by omega) (by omega) grows
  have arena := (held.live r (known_of_tree hc (by
    rw [setAt_self]
    exact refCount_sub_pos (Cell.set_sub at_path _)))).arena
  have written := Moved.putArena w hdr (tblSeal w.blocksize
      (copyAt (w.view (A.blk r.1)) (recOff r.2)
    REC_SIZE (recFill (recAt (w.view (A.blk r.1)) r.2) start m CELL_FULL))) arena grows
  have counted := Moved.accountAlloc (A := A) (w.put (A.blk r.1) (tblSeal w.blocksize
    (copyAt (w.view (A.blk r.1)) (recOff r.2) REC_SIZE
      (recFill (recAt (w.view (A.blk r.1)) r.2) start m CELL_FULL)))) hdr
    (setAt T c p (.refined r (fillKids kids start m .full))) inHdr inSb
  have all := written.trans counted
  exact ⟨_, _, _, ready.held.recWrite_run known _, Work.accountAlloc_run inHdr inSb,
    ⟨held.same counted.kin rfl, tally, all.covered ready.covered⟩, all⟩

end Ag

-- what an allocation grants

theorem keeps_grow {A : Ag} {T : Nat → Tree} {half grown : Option Nat}
    (grows : A.Grows T half grown)
    (b s : Nat) : Keeps T (Ag.grow T grown) b s := by
  cases grown with
  | none => exact .refl T b s
  | some c =>
      have free := (grows c rfl).2.1
      by_cases cell : b / CELL_BLOCKS = c
      · right
        constructor
        · refine ⟨0, by decide, ?_⟩
          rw [spot, cell, free, Cell.look_leaf]
        · right
          rw [spot, cell, Ag.grow_apply, if_pos rfl, Cell.look_leaf]
      · left
        rw [spot, Ag.grow_apply, if_neg (fun equal => cell (Option.some.inj equal).symm)]
        rfl

theorem keeps_refineRoot {T : Nat → Tree} {c : Nat} (free : T c = .leaf .free) (r : Ref)
    (b s : Nat) :
    Keeps T (Function.update T c (blank r)) b s := by
  by_cases cell : b / CELL_BLOCKS = c
  · right
    constructor
    · refine ⟨0, by decide, ?_⟩
      rw [spot, cell, free, Cell.look_leaf]
    · left
      refine ⟨1, by decide, ?_⟩
      rw [spot_update, if_pos cell, digits_eq, blank, Cell.look_refined, Cell.look_leaf]
  · left
    rw [spot_update, if_neg cell]

theorem keeps_refineKid {T : Nat → Tree} {c : Nat} {r : Ref} {kids : Fin ALLOC_FANOUT → Tree}
    (was : T c = .refined r kids) {i : Fin ALLOC_FANOUT} (free : kids i = .leaf .free) (r' : Ref)
    (b s : Nat) :
    Keeps T (Function.update T c (.refined r (Function.update kids i (blank r')))) b s := by
  by_cases cell : b / CELL_BLOCKS = c
  · by_cases child : i.val = l1Index b
    · have index : (⟨l1Index b, l1Index_lt b⟩ : Fin ALLOC_FANOUT) = i := Fin.ext child.symm
      right
      constructor
      · refine ⟨1, by decide, ?_⟩
        rw [spot, cell, was, digits_eq, Cell.look_refined, index, free, Cell.look_leaf]
      · left
        refine ⟨2, by decide, ?_⟩
        rw [spot_update, if_pos cell, digits_eq, Cell.look_refined, index, Function.update_self,
            blank,
          Cell.look_refined, Cell.look_leaf]
    · have index : (⟨l1Index b, l1Index_lt b⟩ : Fin ALLOC_FANOUT) ≠ i :=
        fun equal => child (congrArg Fin.val equal).symm
      left
      rw [spot_update, if_pos cell, spot, cell, was, digits_eq, Cell.look_refined,
          Cell.look_refined,
        Function.update_of_ne index]
  · left
    rw [spot_update, if_neg cell]

theorem Keeps.was {T T' : Nat → Tree} {b s : Nat} (h : Keeps T T' b s)
    (free : ∃ d ≤ 2, spot T' b s = some (.free, d)) : ∃ d ≤ 2, spot T b s = some (.free, d) := by
  rcases h with same | ⟨was, _⟩
  · exact same ▸ free
  · exact was

theorem Granted.after {A : Ag} {T T₁ T' : Nat → Tree} {l n d : Nat} (keeps : ∀ b s, Keeps T T₁ b s)
    (h : Granted A T₁ T' l n d) : Granted A T T' l n d :=
  ⟨h.inside, h.depth, h.start, h.whole, fun b s low high => (keeps b s).was (h.was b s low high),
      h.now,
    fun b s outside => (keeps b s).trans (h.others b s outside)⟩

theorem granted_l1 {A : Ag} {T : Nat → Tree} {c : Nat} {r : Ref} {kids : Fin ALLOC_FANOUT → Tree}
    (room : (c + 1) * CELL_BLOCKS ≤ A.length) (was : T c = .refined r kids) {start m : Nat}
    (inside : start + m ≤ ALLOC_FANOUT)
    (free : ∀ i : Fin ALLOC_FANOUT, start ≤ i → i < start + m → kids i = .leaf .free) :
    Granted A T (setAt T c [] (.refined r (fillKids kids start m .full)))
      (c * CELL_BLOCKS + start * ALLOC_FANOUT) (m * ALLOC_FANOUT) 1 := by
  have run : ∀ b, c * CELL_BLOCKS + start * ALLOC_FANOUT ≤ b ∧
      b < c * CELL_BLOCKS + start * ALLOC_FANOUT + m * ALLOC_FANOUT ↔
      b / CELL_BLOCKS = c ∧ start ≤ l1Index b ∧ l1Index b < start + m := by
    intro b
    simp only [CELL_BLOCKS, ALLOC_FANOUT, l1Index] at *
    omega
  refine ⟨?_, by decide, ?_, ?_, ?_, ?_, ?_⟩
  · simp only [CELL_BLOCKS, ALLOC_FANOUT] at *
    omega
  · simp only [granule, CELL_BLOCKS, ALLOC_FANOUT]
    omega
  · simp only [granule]
    exact Nat.mul_mod_left m ALLOC_FANOUT
  · intro b s low high
    obtain ⟨cell, first, last⟩ := (run b).mp ⟨low, high⟩
    refine ⟨1, by decide, ?_⟩
    rw [spot, cell, was, digits_eq, Cell.look_refined, free _ first last, Cell.look_leaf]
  · intro b s low high
    rw [spot_fillL1 was, if_pos ((run b).mp ⟨low, high⟩)]
  · intro b s outside
    left
    rw [spot_fillL1 was, if_neg fun here => outside ((run b).mpr here)]

theorem granted_l2 {A : Ag} {T : Nat → Tree} {c : Nat} {r : Ref} {kids : Fin ALLOC_FANOUT → Tree}
    {i : Fin ALLOC_FANOUT} (room : (c + 1) * CELL_BLOCKS ≤ A.length)
    (at_path : (T c).sub [i] = some (.refined r kids)) {start n : Nat}
    (inside : start + n ≤ ALLOC_FANOUT)
    (free : ∀ j : Fin ALLOC_FANOUT, start ≤ j → j < start + n → kids j = .leaf .free) :
    Granted A T (setAt T c [i] (.refined r (fillKids kids start n .full)))
      (c * CELL_BLOCKS + i * ALLOC_FANOUT + start) n 2 := by
  have small := i.isLt
  have run : ∀ b, c * CELL_BLOCKS + i * ALLOC_FANOUT + start ≤ b ∧
      b < c * CELL_BLOCKS + i * ALLOC_FANOUT + start + n ↔
      b / CELL_BLOCKS = c ∧ l1Index b = i ∧ start ≤ l2Index b ∧ l2Index b < start + n := by
    intro b
    simp only [CELL_BLOCKS, ALLOC_FANOUT, l1Index, l2Index] at *
    omega
  refine ⟨?_, by decide, Nat.mod_one _, Nat.mod_one _, ?_, ?_, ?_⟩
  · simp only [CELL_BLOCKS, ALLOC_FANOUT] at *
    omega
  · intro b s low high
    obtain ⟨cell, child, first, last⟩ := (run b).mp ⟨low, high⟩
    refine ⟨2, by decide, ?_⟩
    have split : digits b s = [i] ++ [⟨l2Index b, l2Index_lt b⟩,
        ⟨s % ALLOC_FANOUT, Nat.mod_lt _ (by decide)⟩] := by
      rw [digits_eq, List.cons_append, List.nil_append]
      congr 1
      exact Fin.ext child
    rw [spot, cell, split, Cell.look_sub at_path, Cell.look_refined, free _ first last,
        Cell.look_leaf]
    rfl
  · intro b s low high
    rw [spot_fillL2 at_path, if_pos ((run b).mp ⟨low, high⟩)]
  · intro b s outside
    left
    rw [spot_fillL2 at_path, if_neg fun here => outside ((run b).mpr here)]

-- searches in a record

theorem findRunFrom_spec {rec : Bytes} {m start : Nat} (some_run : 0 < m) (k i run : Nat)
    (seen : run ≤ i) (free : ∀ j, i - run ≤ j → j < i → recState rec j = CELL_FREE)
    (short : run < m)
    (found : findRunFrom rec m (List.range' i k) run = some start) :
    start + m ≤ i + k ∧ ∀ j, start ≤ j → j < start + m → recState rec j = CELL_FREE := by
  induction k generalizing i run with
  | zero => cases found
  | succ k ih =>
      rw [List.range'_succ, findRunFrom] at found
      split at found
      · rename_i here
        have upto : ∀ j, i - run ≤ j → j < i + 1 → recState rec j = CELL_FREE := by
          intro j low high
          by_cases last : j = i
          · exact last ▸ here
          · exact free j low (by omega)
        split at found
        · cases found
          refine ⟨by omega, fun j low high => upto j (by omega) (by omega)⟩
        · have rest := ih (i + 1) (run + 1) (by omega) (fun j low high => upto j (by omega) high)
            (by omega) found
          exact ⟨by omega, rest.2⟩
      · have rest := ih (i + 1) 0 (by omega) (fun j low high => by omega) some_run found
        exact ⟨by omega, rest.2⟩

theorem findRun_spec {rec : Bytes} {m start : Nat} (some_run : 0 < m)
    (found : findRun rec m = some start) :
    start + m ≤ ALLOC_FANOUT ∧ ∀ j, start ≤ j → j < start + m → recState rec j = CELL_FREE := by
  rw [findRun, List.range_eq_range'] at found
  have spec := findRunFrom_spec some_run ALLOC_FANOUT 0 0 (Nat.le_refl 0)
    (fun j _ high => (Nat.not_lt_zero j high).elim) some_run found
  rwa [Nat.zero_add] at spec

end FiveFs

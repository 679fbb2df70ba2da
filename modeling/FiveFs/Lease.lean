import FiveFs.Release
import FiveFs.Shortage
import Mathlib.Logic.Relation

/-! Runs of the allocator: what is granted stays granted until it is given back, and can be given
back. -/

namespace FiveFs

open Buffer Prog Refine

section Shapes

variable {T T' : Nat → Tree} {x y : Tree} {d : Nat}

/-- Every path meets the same leaf in both trees, or a FREE one in both. -/
def Matches (x y : Tree) (d : Nat) : Prop := ∀ q : List (Fin ALLOC_FANOUT), q.length = 3 - d →
  x.look d q = y.look d q ∨ ∃ e e', x.look d q = some (.free, e) ∧ y.look d q = some (.free, e')

theorem Matches.symm (h : Matches x y d) : Matches y x d := by
  intro q long
  rcases h q long with same | ⟨e, e', free, free'⟩
  · exact Or.inl same.symm
  · exact Or.inr ⟨e', e, free', free⟩

theorem exists_path (d : Nat) : ∃ q : List (Fin ALLOC_FANOUT), q.length = 3 - d :=
  ⟨List.replicate (3 - d) (childOf 0), List.length_replicate⟩

theorem free_of_looks (shape : Shape d x) (tidy : Tidy x)
    (free : ∀ q : List (Fin ALLOC_FANOUT), q.length = 3 - d → ∃ e, x.look d q = some (.free, e)) :
    x = .leaf .free := by
  induction x generalizing d with
  | leaf s =>
      obtain ⟨q, long⟩ := exists_path d
      obtain ⟨e, met⟩ := free q long
      rw [Cell.look_leaf] at met
      cases met
      rfl
  | refined r kids ih =>
      obtain ⟨⟨i, busy⟩, below⟩ := tidy
      obtain ⟨low, shapes⟩ := shape
      exact absurd (ih i (shapes i) (below i) fun q long =>
          free (i :: q) (by rw [List.length_cons]; omega)) busy

theorem not_matches_leaf {r : Ref} {kids : Fin ALLOC_FANOUT → Tree} {s : CellState}
    (shape : Shape d (.refined r kids))
    (tidy : Tidy (.refined r kids)) (same : Matches (.leaf s) (.refined r kids) d) : False := by
  have low := shape.1
  have free : ∀ q : List (Fin ALLOC_FANOUT), q.length = 3 - d → ∃ e,
      (Cell.refined r kids : Tree).look d q = some (.free, e) := by
    intro q long
    rcases same q long with met | ⟨_, e', _, met⟩
    · rw [Cell.look_leaf] at met
      cases q with
      | nil =>
          rw [List.length_nil] at long
          omega
      | cons i q =>
          have deeper := Cell.look_depth (x := kids i) (d := d + 1) met.symm
          omega
    · exact ⟨e', met⟩
  cases free_of_looks shape tidy free

theorem Matches.same_shape (shape : Shape d x) (shape' : Shape d y) (tidy : Tidy x) (tidy' : Tidy y)
    (same : Matches x y d) :
    Cell.SameShape x y := by
  induction x generalizing d y with
  | leaf s =>
      cases y with
      | leaf s' =>
          obtain ⟨q, long⟩ := exists_path d
          rcases same q long with met | ⟨e, e', free, free'⟩
          · rw [Cell.look_leaf, Cell.look_leaf] at met
            exact (Prod.mk.inj (Option.some.inj met)).1
          · rw [Cell.look_leaf] at free free'
            exact (Prod.mk.inj (Option.some.inj free)).1.trans
                (Prod.mk.inj (Option.some.inj free')).1.symm
      | refined r' kids' => exact (not_matches_leaf shape' tidy' same).elim
  | refined r kids ih =>
      cases y with
      | leaf s' => exact (not_matches_leaf shape tidy same.symm).elim
      | refined r' kids' =>
          have low := shape.1
          intro i
          exact ih i (shape.2 i) (shape'.2 i) (tidy.2 i) (tidy'.2 i) fun q long =>
            same (i :: q) (by rw [List.length_cons]; omega)

theorem digits_path {c : Nat} {q : List (Fin ALLOC_FANOUT)} (long : q.length = 3) :
    ∃ b s, b / CELL_BLOCKS = c ∧ digits b s = q := by
  obtain ⟨i, j, k, rfl⟩ := List.length_eq_three.mp long
  have hi := i.isLt
  have hj := j.isLt
  have hk := k.isLt
  refine ⟨c * CELL_BLOCKS + i * ALLOC_FANOUT + j, k, ?_, ?_⟩
  · simp only [CELL_BLOCKS, ALLOC_FANOUT] at *
    omega
  · have first : l1Index (c * CELL_BLOCKS + i * ALLOC_FANOUT + j) = i := by
      simp only [l1Index, CELL_BLOCKS, ALLOC_FANOUT] at *
      omega
    have second : l2Index (c * CELL_BLOCKS + i * ALLOC_FANOUT + j) = j := by
      simp only [l2Index, CELL_BLOCKS, ALLOC_FANOUT] at *
      omega
    rw [digits_eq]
    congr 1
    · exact Fin.ext first
    · congr 1
      · exact Fin.ext second
      · congr 1
        exact Fin.ext (Nat.mod_eq_of_lt hk)

/-- Every cell is as it was, but for its records, or it was FREE and has become a table arena. -/
def Restored (A : Ag) (T T' : Nat → Tree) : Prop :=
  ∀ c < A.cells, Cell.SameShape (T c) (T' c) ∨ T c = .leaf .free ∧ T' c = .leaf .rsvd

theorem restored_of_keeps {A : Ag} (shape : ∀ c < A.cells, Shape 0 (T c))
    (shape' : ∀ c < A.cells, Shape 0 (T' c))
    (tidy : A.Tidied T) (tidy' : A.Tidied T') (keeps : ∀ b s, Keeps T T' b s) :
    Restored A T T' := by
  intro c hc
  have looks : ∀ q : List (Fin ALLOC_FANOUT), q.length = 3 → (T' c).look 0 q = (T c).look 0 q ∨
      (∃ e ≤ 2, (T c).look 0 q = some (.free, e)) ∧
        ((∃ e ≤ 2, (T' c).look 0 q = some (.free, e)) ∨ (T' c).look 0 q = some (.rsvd, 0)) := by
    intro q long
    obtain ⟨b, s, rfl, rfl⟩ := digits_path (c := c) long
    exact keeps b s
  by_cases gone : T' c = .leaf .rsvd
  · have met : ∀ q, q.length = 3 → (T c).look 0 q = some (.rsvd, 0) ∨ ∃ e,
        (T c).look 0 q = some (.free, e) := by
      intro q long
      rcases looks q long with same | ⟨⟨e, _, free⟩, _⟩
      · rw [gone, Cell.look_leaf] at same
        exact Or.inl same.symm
      · exact Or.inr ⟨e, free⟩
    cases cell : T c with
    | leaf s =>
        obtain ⟨q, long⟩ := exists_path 0
        rcases met q long with rsvd | ⟨e, free⟩
        · rw [cell, Cell.look_leaf] at rsvd
          cases rsvd
          rw [gone]
          exact Or.inl rfl
        · rw [cell, Cell.look_leaf] at free
          cases free
          exact Or.inr ⟨rfl, gone⟩
    | refined r kids =>
        have free := free_of_looks (shape c hc) (tidy c hc) fun q long => by
          rcases met q long with rsvd | free
          · rw [cell] at rsvd
            cases q with
            | nil => cases rsvd
            | cons i q =>
                have deeper := Cell.look_depth (x := kids i) (d := 1) rsvd
                omega
          · exact free
        rw [cell] at free
        cases free
  · refine Or.inl (Matches.same_shape (shape c hc) (shape' c hc) (tidy c hc) (tidy' c hc)
        fun q long => ?_)
    rcases looks q long with same | ⟨⟨e, _, free⟩, ⟨e', _, free'⟩ | rsvd⟩
    · exact Or.inl same.symm
    · exact Or.inr ⟨e, e', free, free'⟩
    · have root := Cell.sub_of_look (d := 0) (n := 0) rsvd
      rw [List.take_zero, Cell.sub_nil] at root
      exact absurd (Option.some.inj root) gone

end Shapes

section Counters

variable [Crc32c] {A : Ag} {stale : Nat → Prop} {w w' : Work} {hdr hdr' : AgHeader}
    {T T' : Nat → Tree}

theorem Restored.counters (restored : Restored A T T') (sound : A.Sound stale w hdr T)
    (sound' : A.Sound stale w' hdr' T') :
    hdr'.fullBlocks = hdr.fullBlocks ∧ hdr'.freeBlocks + hdr'.rsvdBlocks = hdr.freeBlocks +
    hdr.rsvdBlocks := by
  have full : total A.cells (fun _ => fullWeight) T = total A.cells (fun _ => fullWeight) T' := by
    refine Finset.sum_congr rfl fun c member => ?_
    rcases restored c (Finset.mem_range.mp member) with same | ⟨free, rsvd⟩
    · exact same.weigh (fun _ _ _ => rfl) 0
    · rw [free, rsvd, Cell.weigh_leaf, Cell.weigh_leaf, fullWeight_free, fullWeight_rsvd]
  have sum := sound.ready.held.sum
  have sum' := sound'.ready.held.sum
  rw [sound.ready.tally.free, sound.ready.tally.full, sound.ready.tally.rsvd,
      sound'.ready.tally.free,
    sound'.ready.tally.full, sound'.ready.tally.rsvd]
  omega

end Counters

/-- An AG in use: its store, the runs that were allocated and not freed, each with the blocks that
were asked for, and the blocks that were written with what a table block begins with. -/
structure Tenure where
  w : Work
  live : List (Nat × Nat)
  marked : List Nat

namespace Tenure

/-- The blocks that the run takes. -/
def Covers (r : Nat × Nat) (b : Nat) : Prop := r.1 ≤ b ∧ b < r.1 + roundUp r.2

/-- The runs have no block in common. -/
def Apart (r r' : Nat × Nat) : Prop := ∀ b, ¬ (Covers r b ∧ Covers r' b)

instance : Std.Symm Apart := ⟨fun _ _ apart b both => apart b ⟨both.2, both.1⟩⟩

/-- A call of the allocator that succeeds, or a write to a block that was allocated. -/
inductive Step [Crc32c] (A : Ag) : Tenure → Tenure → Prop
  | alloc {s : Tenure} {n blk : Nat} {w' : Work} : 0 < n →
      Work.allocExtent A.num n s.w = (.ok blk, w') →
      Step A s ⟨w', (blk, n) :: s.live, s.marked⟩
  | free {s : Tenure} {r : Nat × Nat} {w' : Work} : r ∈ s.live →
      Work.freeExtent r.1 r.2 s.w = (.ok (), w') →
      Step A s ⟨w', s.live.erase r, s.marked⟩
  | write {s : Tenure} {r : Nat × Nat} {k : Nat} {data : Bytes} {w' : Work} : r ∈ s.live → k < r.2 →
      Work.txnWrite (r.1 + k) data s.w = (.ok (), w') →
      Step A s ⟨w', s.live, if getU32 data 0 = ALLOC_MAGIC then (r.1 + k) :: s.marked else s.marked⟩

/-- The blocks that may look like table blocks now. -/
def Stale (A : Ag) (stale : Nat → Prop) (s : Tenure) (l : Nat) : Prop := stale l ∨
    A.blk l ∈ s.marked

variable [Crc32c] {A : Ag} {stale : Nat → Prop} {w : Work} {hdr : AgHeader} {T T₀ : Nat → Tree}
    {s s' : Tenure}

/-- The run is at `l`, and FULL. -/
structure Leased (A : Ag) (T : Nat → Tree) (r : Nat × Nat) (l : Nat) : Prop where
  place : r.1 = A.blk l
  asked : 0 < r.2
  start : l % granule (grain r.2) = 0
  inside : l + roundUp r.2 ≤ A.length
  full : ∀ b s, l ≤ b → b < l + roundUp r.2 → spot T b s = some (.full, grain r.2)

/-- What holds of every state that a run of calls reaches from the forest `T₀`. -/
structure Upheld (A : Ag) (stale : Nat → Prop) (T₀ : Nat → Tree) (s : Tenure) (hdr : AgHeader)
    (T : Nat → Tree) : Prop where
  sound : A.Sound (s.Stale A stale) s.w hdr T
  tidy : A.Tidied T
  leased : ∀ r ∈ s.live, ∃ l, Leased A T r l
  apart : s.live.Pairwise Apart
  old : ∀ r ∈ s.live, ∀ l sl, Covers r (A.blk l) → ∃ d ≤ 2, spot T₀ l sl = some (.free, d)
  rest : ∀ l sl, (∀ r ∈ s.live, ¬ Covers r (A.blk l)) → Keeps T₀ T l sl

omit [Crc32c] in
theorem covers_blk {r : Nat × Nat} {l : Nat} (place : r.1 = A.blk l) (b : Nat) :
    Covers r (A.blk b) ↔ l ≤ b ∧ b < l + roundUp r.2 := by
  rw [Covers, place, Ag.blk, Ag.blk, blkAddr, blkAddr]
  omega

omit [Crc32c] in
theorem grain_le (n : Nat) : grain n ≤ 2 := by
  rw [grain]
  split
  · decide
  · split <;> decide

theorem Leased.free {r : Nat × Nat} {l : Nat} (leased : Leased A T r l)
    (sound : A.Sound stale w hdr T) (whole : ∀ c < A.cells, ¬ A.Split c) :
    wp (Work.freeExtent r.1 r.2) (fun _ w' => ∃ hdr' T',
    Work.GaveBack A stale w hdr T l (grain r.2) r.2 w' hdr' T')
      (fun _ _ => False) w := by
  have some := le_roundUp leased.asked
  have inside := leased.inside
  have asked := leased.asked
  rw [leased.place]
  exact Work.freeExtent_wp sound (grain_le r.2) leased.start inside (fun _ => whole) (by omega)
      leased.full

omit [Crc32c] in
theorem Leased.congr {r : Nat × Nat} {l : Nat} {T' : Nat → Tree} (leased : Leased A T r l)
    (same : ∀ b s, Covers r (A.blk b) → spot T' b s = spot T b s) : Leased A T' r l where
  place := leased.place
  asked := leased.asked
  start := leased.start
  inside := leased.inside
  full b s low high := by
    rw [same b s ((covers_blk leased.place b).mpr ⟨low, high⟩), leased.full b s low high]

omit [Crc32c] in
theorem Leased.spot_full {r : Nat × Nat} {l b : Nat} (leased : Leased A T r l) (s : Nat)
    (here : Covers r (A.blk b)) :
    spot T b s = some (.full, grain r.2) := by
  obtain ⟨low, high⟩ := (covers_blk leased.place b).mp here
  exact leased.full b s low high

omit [Crc32c] in
theorem Leased.not_apart_self {r : Nat × Nat} {l : Nat} (leased : Leased A T r l) :
    ¬ Apart r r := by
  have some := le_roundUp leased.asked
  have asked := leased.asked
  have here : Covers r r.1 := ⟨Nat.le_refl _, by omega⟩
  exact fun apart => apart r.1 ⟨here, here⟩

theorem Upheld.alloc (upheld : Upheld A stale T₀ s hdr T) {n blk : Nat} {w' : Work}
    (some_block : 0 < n)
    (run : Work.allocExtent A.num n s.w = (.ok blk, w')) :
    ∃ hdr' T', Upheld A stale T₀ ⟨w', (blk, n) :: s.live, s.marked⟩ hdr' T' := by
  have obtained := Work.allocExtent_wp upheld.sound some_block
  rw [wp, run] at obtained
  obtain ⟨hdr', T', l, block, sound, _, granted, tidy⟩ := obtained
  have new : ∀ b, Covers (blk, n) (A.blk b) ↔ l ≤ b ∧ b < l + roundUp n := covers_blk block
  -- blocks in use were not granted
  have kept : ∀ r ∈ s.live, ∀ b s', Covers r (A.blk b) → ¬ Covers (blk, n) (A.blk b) ∧
      spot T' b s' = spot T b s' := by
    intro r member b s' here
    obtain ⟨l', leased⟩ := upheld.leased r member
    have full := leased.spot_full s' here
    have apart : ¬ Covers (blk, n) (A.blk b) := by
      intro granted'
      obtain ⟨low, high⟩ := (new b).mp granted'
      obtain ⟨d, _, free⟩ := granted.was b s' low high
      rw [full] at free
      cases free
    refine ⟨apart, ?_⟩
    rcases granted.others b s' (fun inside => apart ((new b).mpr inside)) with same | ⟨⟨d, _, free⟩,
        _⟩
    · exact same
    · rw [full] at free
      cases free
  refine ⟨hdr', T', sound, tidy upheld.tidy, fun r member => ?_,
      List.pairwise_cons.mpr ⟨fun r member b both => ?_, upheld.apart⟩,
    fun r member b s' here => ?_, fun b s' off => ?_⟩
  · rcases List.mem_cons.mp member with rfl | before
    · exact ⟨l, block, some_block, granted.start, granted.inside, granted.now⟩
    · obtain ⟨l', leased⟩ := upheld.leased r before
      exact ⟨l', leased.congr fun b s' here => (kept r before b s' here).2⟩
  · obtain ⟨l', leased⟩ := upheld.leased r member
    have place : r.1 = A.blk l' := leased.place
    obtain ⟨k, rfl⟩ : ∃ k, b = A.blk k := by
      have low := both.2.1
      rw [place, Ag.blk, blkAddr] at low
      exact ⟨b - A.num * 2 ^ 32, by rw [Ag.blk, blkAddr]; omega⟩
    exact (kept r member k 0 both.2).1 both.1
  · rcases List.mem_cons.mp member with rfl | before
    · obtain ⟨low, high⟩ := (new b).mp here
      refine (upheld.rest b s' fun r before here' => ?_).was (granted.was b s' low high)
      exact (kept r before b s' here').1 here
    · exact upheld.old r before b s' here
  · have outside : ¬ (l ≤ b ∧ b < l + roundUp n) :=
        fun inside => off _ List.mem_cons_self ((new b).mpr inside)
    exact (upheld.rest b s' fun r before => off r (List.mem_cons_of_mem _ before)).trans
        (granted.others b s' outside)

theorem Upheld.nodup (upheld : Upheld A stale T₀ s hdr T) : s.live.Nodup := by
  refine (List.pairwise_iff_getElem.mpr fun i j hi hj less same => ?_)
  have apart := List.pairwise_iff_getElem.mp upheld.apart i j hi hj less
  obtain ⟨l, leased⟩ := upheld.leased _ (List.getElem_mem hj)
  rw [same] at apart
  exact leased.not_apart_self apart

theorem Upheld.free (upheld : Upheld A stale T₀ s hdr T) (whole : ∀ c < A.cells, ¬ A.Split c)
    {r : Nat × Nat}
    (member : r ∈ s.live) : ∃ w' hdr' T', Work.freeExtent r.1 r.2 s.w = (.ok (), w') ∧
      Upheld A stale T₀ ⟨w', s.live.erase r, s.marked⟩ hdr' T' ∧
      hdr'.fullBlocks + roundUp r.2 = hdr.fullBlocks := by
  obtain ⟨l, leased⟩ := upheld.leased r member
  obtain ⟨_, w', run, hdr', T', sound, _, back, tidy, counts⟩ :=
      wp_total (leased.free upheld.sound whole)
  have covers := covers_blk leased.place
  have others : ∀ r' ∈ s.live.erase r, r' ∈ s.live ∧ Apart r r' := by
    intro r' left
    obtain ⟨other, before⟩ := (upheld.nodup.mem_erase_iff).mp left
    exact ⟨before, upheld.apart.forall member before (Ne.symm other)⟩
  refine ⟨w', hdr', T', run, ⟨sound, tidy upheld.tidy, fun r' left => ?_,
      upheld.apart.sublist List.erase_sublist,
    fun r' left => upheld.old r' (others r' left).1, fun b s' off => ?_⟩, counts⟩
  · obtain ⟨before, apart⟩ := others r' left
    obtain ⟨l', leased'⟩ := upheld.leased r' before
    refine ⟨l', leased'.congr fun b s' here => ?_⟩
    have outside : ¬ (l ≤ b ∧ b < l + roundUp r.2) :=
        fun inside => apart _ ⟨(covers b).mpr inside, here⟩
    have full := leased'.spot_full s' here
    rw [(back.others b s' outside).full full, full]
  · by_cases inside : l ≤ b ∧ b < l + roundUp r.2
    · exact Or.inr ⟨upheld.old r member b s' ((covers b).mpr inside),
          Or.inl (back.now b s' inside.1 inside.2)⟩
    · refine (upheld.rest b s' fun r' before here => ?_).trans ?_
      · by_cases same : r' = r
        · exact inside ((covers b).mp (same ▸ here))
        · exact off r' (List.mem_erase_of_ne same |>.mpr before) here
      · rcases back.others b s' inside with same | ⟨e, e', le, high, was, now⟩
        · exact Or.inl same
        · exact Or.inr ⟨⟨e', high, was⟩, Or.inl ⟨e, by omega, now⟩⟩

end Tenure

theorem ne_of_full {A : Ag} {T : Nat → Tree} {l l' s d : Nat} (full : spot T l s = some (.full, d))
    (rsvd : T (l' / CELL_BLOCKS) = .leaf .rsvd) : A.blk l' ≠ A.blk l := by
  intro same
  rw [A.blk_inj.mp same] at rsvd
  rw [spot, rsvd, Cell.look_leaf] at full
  cases full

theorem Ag.Sound.header_rsvd [Crc32c] {A : Ag} {stale : Nat → Prop} {w : Work} {hdr : AgHeader}
    {T : Nat → Tree}
    (sound : A.Sound stale w hdr T) : T (agHeaderBlock A.num / CELL_BLOCKS) = .leaf .rsvd := by
  have low := A.hdr_lt
  have root := A.root_end
  exact sound.ready.held.reserved _ (A.lt_cells (by omega)) A.hdr_reserved

theorem Ag.Sound.weaken [Crc32c] {A : Ag} {stale stale' : Nat → Prop} {w : Work} {hdr : AgHeader}
    {T : Nat → Tree}
    (sound : A.Sound stale w hdr T) (more : ∀ l, stale l → stale' l) : A.Sound stale' w hdr T := by
  have held := sound.ready.held
  exact { sound with ready := { sound.ready with held := { held with
    exact := fun r used arena fresh => held.exact r used arena fun old => fresh (more _ old)
    blank := fun l inside other fresh => held.blank l inside other fun old => fresh (more _ old) } }
        }

theorem Ag.Sound.write [Crc32c] {A : Ag} {stale : Nat → Prop} {w : Work} {hdr : AgHeader}
    {T : Nat → Tree} {l d : Nat}
    {data : Bytes} (sound : A.Sound stale w hdr T) (inside : l < A.length)
    (full : spot T l 0 = some (.full, d))
    (marked : getU32 data 0 = ALLOC_MAGIC → stale l) :
    A.Sound stale (w.put (A.blk l) data) hdr T := by
  have held := sound.ready.held
  have large := held.on.blocksize
  have frame : ∀ l', T (l' / CELL_BLOCKS) = .leaf .rsvd →
      (w.put (A.blk l) data).view (A.blk l') = w.view (A.blk l') := by
    intro l' rsvd
    rw [Work.view_put, Function.update_of_ne (ne_of_full full rsvd)]
  refine ⟨⟨held.elsewhere ((Work.Kin.refl w).put _ _)
      (fun l' root => frame l' (held.root_rsvd root))
    (fun l' arena => frame l' arena.2.1) fun l' _ _ fresh magic => ?_, sound.ready.tally,
    ⟨sound.ready.covered.free, sound.ready.covered.full⟩⟩, ?_⟩
  · by_cases here : l' = l
    · subst here
      rw [Magic, Work.view_put, Function.update_self, getU32, getBE_clip _ (by omega)] at magic
      exact absurd (marked magic) fresh
    · rwa [Magic, Work.view_put, Function.update_of_ne fun same =>
          here (A.blk_inj.mp same)] at magic
  · have same : (w.put (A.blk l) data).view A.hdrBlk = w.view A.hdrBlk := frame _ sound.header_rsvd
    rw [same]
    exact sound.header

namespace Tenure

variable [Crc32c] {A : Ag} {stale : Nat → Prop} {w : Work} {hdr : AgHeader} {T T₀ : Nat → Tree}
    {s s' : Tenure}

theorem Upheld.write (upheld : Upheld A stale T₀ s hdr T) {r : Nat × Nat} {k : Nat} {data : Bytes}
    (member : r ∈ s.live)
    (inside : k < r.2) : Upheld A stale T₀ ⟨s.w.put (r.1 + k) data, s.live,
      if getU32 data 0 = ALLOC_MAGIC then (r.1 + k) :: s.marked else s.marked⟩ hdr T := by
  obtain ⟨l, leased⟩ := upheld.leased r member
  have some := le_roundUp leased.asked
  have room := leased.inside
  have place : r.1 + k = A.blk (l + k) := by
    rw [leased.place, Ag.blk, Ag.blk, blkAddr, blkAddr, Nat.add_assoc]
  rw [place]
  refine ⟨(upheld.sound.weaken fun b => Or.imp_right fun old => ?_).write (by omega)
      (leased.full (l + k) 0 (by omega) (by omega))
    fun magic => Or.inr ?_, upheld.tidy, upheld.leased, upheld.apart, upheld.old, upheld.rest⟩
  · show A.blk b ∈ ite _ _ _
    split
    · exact List.mem_cons_of_mem _ old
    · exact old
  · show A.blk (l + k) ∈ ite _ _ _
    rw [if_pos magic]
    exact List.mem_cons_self

theorem Upheld.step (upheld : Upheld A stale T₀ s hdr T) (whole : ∀ c < A.cells, ¬ A.Split c)
    (step : Step A s s') :
    ∃ hdr' T', Upheld A stale T₀ s' hdr' T' := by
  cases step with
  | alloc some_block run => exact upheld.alloc some_block run
  | free member run =>
      obtain ⟨w', hdr', T', run', upheld', _⟩ := upheld.free whole member
      rw [run] at run'
      cases run'
      exact ⟨hdr', T', upheld'⟩
  | write member inside run =>
      rw [Work.txnWrite_run] at run
      cases run
      exact ⟨hdr, T, upheld.write member inside⟩

theorem Upheld.run (whole : ∀ c < A.cells, ¬ A.Split c) (run : Relation.ReflTransGen (Step A) s s')
    (upheld : Upheld A stale T₀ s hdr T) : ∃ hdr' T', Upheld A stale T₀ s' hdr' T' := by
  induction run with
  | refl => exact ⟨hdr, T, upheld⟩
  | tail _ step ih =>
      obtain ⟨hdr', T', before⟩ := ih
      exact before.step whole step

theorem Upheld.keeps (upheld : Upheld A stale T₀ s hdr T) (empty : s.live = []) (b sl : Nat) :
    Keeps T₀ T b sl :=
  upheld.rest b sl fun _ member => absurd (empty ▸ member) List.not_mem_nil

theorem Upheld.restored (upheld : Upheld A stale T₀ s hdr T) (shape : ∀ c < A.cells, Shape 0 (T₀ c))
    (tidy : A.Tidied T₀)
    (empty : s.live = []) : Restored A T₀ T :=
  restored_of_keeps shape upheld.sound.ready.held.shape tidy upheld.tidy (upheld.keeps empty)

theorem Upheld.counts (whole : ∀ c < A.cells, ¬ A.Split c) (sound : A.Sound stale w hdr T₀)
    (tidy : A.Tidied T₀) :
    ∀ {live : List (Nat × Nat)} {w' : Work} {marked : List Nat} {hdr' : AgHeader} {T : Nat → Tree},
      Upheld A stale T₀ ⟨w', live, marked⟩ hdr' T →
      hdr'.fullBlocks = hdr.fullBlocks + (live.map fun r => roundUp r.2).sum := by
  intro live
  induction live with
  | nil =>
      intro w' marked hdr' T upheld
      exact ((upheld.restored sound.ready.held.shape tidy rfl).counters
          (sound.weaken fun _ => Or.inl) upheld.sound).1
  | cons r rest ih =>
      intro w' marked hdr' T upheld
      obtain ⟨w₁, hdr₁, T₁, _, upheld₁, counts⟩ :=
          upheld.free whole (List.mem_cons_self (a := r) (l := rest))
      rw [List.erase_cons_head] at upheld₁
      have before := ih upheld₁
      rw [List.map_cons, List.sum_cons]
      omega

/-- In any order of calls: every run that was granted and not freed can be freed, and shares no
block with another or with what was in use before; the header counts them; and when all are freed,
the AG is as it was, but for cells that have become table arenas. -/
theorem allocator_runs (sound : A.Sound stale w hdr T) (tidy : A.Tidied T)
    (whole : ∀ c < A.cells, ¬ A.Split c)
    (run : Relation.ReflTransGen (Step A) ⟨w, [], []⟩ s) :
    ∃ hdr' T', A.Sound (s.Stale A stale) s.w hdr' T' ∧ A.Tidied T' ∧
      (∀ r ∈ s.live, ∃ w', Work.freeExtent r.1 r.2 s.w = (.ok (), w')) ∧ s.live.Pairwise Apart ∧
      (∀ l sl, (∃ r ∈ s.live, Covers r (A.blk l)) → ∃ d ≤ 2, spot T l sl = some (.free, d)) ∧
      (∀ l sl, (∀ r ∈ s.live, ¬ Covers r (A.blk l)) → Keeps T T' l sl) ∧
      hdr'.fullBlocks = hdr.fullBlocks + (s.live.map fun r => roundUp r.2).sum ∧
      (s.live = [] → Restored A T T' ∧ hdr'.freeBlocks + hdr'.rsvdBlocks = hdr.freeBlocks +
      hdr.rsvdBlocks) := by
  have start : Upheld A stale T ⟨w, [], []⟩ hdr T :=
    ⟨sound.weaken fun _ => Or.inl, tidy, fun _ member => absurd member List.not_mem_nil, .nil,
    fun _ member => absurd member List.not_mem_nil,
      fun l sl _ => .refl T l sl⟩
  obtain ⟨hdr', T', upheld⟩ := start.run whole run
  refine ⟨hdr', T', upheld.sound, upheld.tidy, fun r member => ?_, upheld.apart,
      fun l sl here => ?_, upheld.rest,
    upheld.counts whole sound tidy, fun empty => ?_⟩
  · obtain ⟨w', _, _, freed, _⟩ := upheld.free whole member
    exact ⟨w', freed⟩
  · obtain ⟨r, member, inside⟩ := here
    exact upheld.old r member l sl inside
  · have restored := upheld.restored sound.ready.held.shape tidy empty
    exact ⟨restored, (restored.counters (sound.weaken fun _ => Or.inl) upheld.sound).2⟩

end Tenure

section Whole

variable [Crc32c] {A : Ag} {stale : Nat → Prop} {w : Work} {hdr : AgHeader} {T : Nat → Tree}

theorem allocL0Scan_one (ready : A.Ready stale w hdr T none none) (m : Nat) {c start : Nat}
    (upto : c + m = A.cells)
    (free : ∃ c', c ≤ c' ∧ c' < A.cells ∧ T c' = .leaf .free) :
    wp (Work.allocL0Scan hdr 1 (List.range' c m) 0 start)
    (fun res w' => ∃ c' < A.cells, T c' = .leaf .free ∧
      A.Gave stale w hdr T (1 * CELL_BLOCKS) 0 res w' (fillRoot T c' 1) (c' * CELL_BLOCKS))
      (fun _ _ => False) w := by
  induction m generalizing c start with
  | zero =>
      obtain ⟨c', low, high, _⟩ := free
      omega
  | succ m ih =>
      have hc : c < A.cells := by omega
      have state := ready.held.root hc (fun h => by cases h)
      rw [List.range'_succ, Work.allocL0Scan, wp_bind,
          wp_run (Work.rtState_run ready.held.on ready.tally.of hc), wp_ite]
      split
      · rename_i isFree
        rw [state.free] at isFree
        have last : c + 1 ≤ A.cells := by omega
        obtain ⟨w₁, w₂, hdr', written, counted, gave, _⟩ :=
            ready.giveL0 Nat.one_pos last fun c' low high => by
          have same : c' = c := by omega
          rw [same, isFree]
        rw [if_pos rfl, if_pos rfl, wp_bind, wp_run written, wp_bind, wp_run counted, wp_pure]
        exact ⟨c, hc, isFree, gave⟩
      · rename_i busy
        obtain ⟨c', low, high, isFree⟩ := free
        refine ih (by omega) ⟨c', ?_, high, isFree⟩
        by_contra before
        have same : c' = c := by omega
        rw [same] at isFree
        exact busy (state.free.mpr isFree)

theorem allocExtent_cell (sound : A.Sound stale w hdr T) (free : ∃ c < A.cells, T c = .leaf .free) :
    ∃ c < A.cells, T c = .leaf .free ∧ ∃ w' hdr', Work.allocExtent A.num CELL_BLOCKS
    w = (.ok (A.blk (c * CELL_BLOCKS)), w') ∧
      A.Sound stale w' hdr' (fillRoot T c 1) := by
  obtain ⟨c, inside, isFree⟩ := free
  have scan : wp (Work.allocL0Scan hdr 1 (List.range' 0 A.cells) 0 0) _ (fun _ _ => False) w :=
    allocL0Scan_one sound.ready A.cells (Nat.zero_add _) ⟨c, Nat.zero_le c, inside, isFree⟩
  obtain ⟨⟨blk, hdr'⟩, w', run, c', inside', isFree', gave⟩ := wp_total scan
  have fits := sound.fits
  have fixed := gave.moved.fixed
  have fits' := gave.ready.fits (by rw [fixed]; exact fits.gen) (by rw [fixed]; exact fits.inoHint)
    (by rw [fixed]; exact fits.dataHint)
  obtain ⟨w'', written, sound', _⟩ := gave.ready.put fits'
  have place : blk = A.blk (c' * CELL_BLOCKS) := gave.block
  refine ⟨c', inside', isFree', w'', _, ?_, sound'⟩
  rw [Work.allocExtent, bind_ok _ _ sound.read, Work.allocSized, if_pos (Nat.le_refl _)]
  have search : Work.allocL0 hdr ((CELL_BLOCKS + CELL_BLOCKS - 1) / CELL_BLOCKS)
      w = (.ok (blk, hdr'), w') := by
    refine (bind_ok _ _ (get_run (s := w))).trans ?_
    rw [cells_eq A sound.ready.tally.of, List.range_eq_range']
    exact run
  rw [← place]
  exact (bind_ok _ _ search).trans (bind_ok _ _ written)

end Whole

namespace Tenure

theorem edge_whole : ∀ c < edgeAg.cells, ¬ edgeAg.Split c := by
  have four : edgeAg.cells = 4 := rfl
  have size : edgeAg.blocksize = 2048 := rfl
  intro c inside split
  have off : rtRefOff 4 c ≤ 64 := by
    rw [rtRefOff]
    omega
  rw [Ag.Split, four, size, Nat.mod_eq_of_lt (by omega)] at split
  omega

theorem edge_tidied : edgeAg.Tidied edgeTree := by
  intro c _
  rw [edgeTree]
  split
  · trivial
  · split <;> trivial

/-- The last cell of the AG is granted, written with what a table block begins with, and given back.
-/
theorem allocator_runs_edge :
    let crc := castagnoli
    ∃ blk w₁ w₂, @Work.allocExtent crc 1 256 (@edgeWork crc) = (.ok blk, w₁) ∧
      @Work.freeExtent crc blk 256 (w₁.put blk (putU32 zeros 0 ALLOC_MAGIC)) = (.ok (), w₂) ∧
      ∃ hdr' T', @Ag.Sound crc edgeAg (fun l => edgeAg.blk l = blk) w₂ hdr' T' ∧
      Restored edgeAg edgeTree T' ∧
        hdr'.fullBlocks = edgeHeader.fullBlocks := by
  intro crc
  have sound := (@edge_valid castagnoli).sound
  obtain ⟨c, _, _, w₁, _, granted, _⟩ := @allocExtent_cell castagnoli _ _ _ _ _ sound
      ⟨3, by decide, rfl⟩
  generalize edgeAg.blk (c * CELL_BLOCKS) = blk at granted
  have first : @Step castagnoli edgeAg ⟨@edgeWork castagnoli, [], []⟩ ⟨w₁, [(blk, 256)], []⟩ :=
      .alloc (by decide) granted
  have magic : getU32 (putU32 zeros 0 ALLOC_MAGIC) 0 = ALLOC_MAGIC := by decide
  have second : @Step castagnoli edgeAg ⟨w₁, [(blk, 256)], []⟩
      ⟨w₁.put blk (putU32 zeros 0 ALLOC_MAGIC), [(blk, 256)],
      if getU32 (putU32 zeros 0 ALLOC_MAGIC) 0 = ALLOC_MAGIC then
        [blk] else []⟩ := .write (r := (blk, 256)) (k := 0) List.mem_cons_self
            (show 0 < 256 by decide) (Work.txnWrite_run _ _ _)
  rw [if_pos magic] at second
  obtain ⟨_, _, _, _, back, _⟩ := allocator_runs sound edge_tidied edge_whole
      (.tail (.single first) second)
  obtain ⟨w₂, freed⟩ := back (blk, 256) List.mem_cons_self
  have third : @Step castagnoli edgeAg ⟨w₁.put blk (putU32 zeros 0 ALLOC_MAGIC), [(blk, 256)],
      [blk]⟩
      ⟨w₂, [(blk, 256)].erase (blk, 256), [blk]⟩ := .free List.mem_cons_self freed
  rw [List.erase_cons_head] at third
  obtain ⟨hdr', T', sound', _, _, _, _, _, counts, all⟩ :=
    allocator_runs sound edge_tidied edge_whole (.tail (.tail (.single first) second) third)
  refine ⟨blk, w₁, w₂, granted, freed, hdr', T', sound'.weaken fun l => ?_, (all rfl).1, counts⟩
  exact Or.rec False.elim List.mem_singleton.mp

end Tenure

end FiveFs

import FiveFs.Search

/-! The invariant of an AG between calls, its header included, and the allocation of extents. -/

namespace FiveFs

open Buffer Prog Refine

theorem weigh_shape (length c : Nat) {x : Tree} {d : Nat} (shape : Shape d x) (depth : d ≤ 3)
    (open' : x ≠ .leaf .rsvd) :
    x.weigh freeWeight d + x.weigh (rsvdWeight length c) d + x.weigh fullWeight d = granule d := by
  induction x generalizing d with
  | leaf s =>
      cases s with
      | free => simp [rsvdWeight]
      | full => simp [rsvdWeight]
      | rsvd => exact (open' rfl).elim
  | refined r kids ih =>
      have below := shape.1
      have each : ∀ i, (kids i).weigh freeWeight (d + 1) + (kids i).weigh (rsvdWeight length c)
          (d + 1) +
          (kids i).weigh fullWeight (d + 1) = granule (d + 1) := by
        intro i
        apply ih i (shape.2 i) below
        intro rsvd
        have top := shape.2 i
        rw [rsvd] at top
        exact Nat.succ_ne_zero d (top rfl)
      have sum : ∑ i, (kids i).weigh freeWeight (d + 1) + ∑ i,
          (kids i).weigh (rsvdWeight length c) (d + 1) +
          ∑ i, (kids i).weigh fullWeight (d + 1) = ALLOC_FANOUT * granule (d + 1) := by
        rw [← Finset.sum_add_distrib, ← Finset.sum_add_distrib,
            Finset.sum_congr rfl fun i _ => each i,
          Finset.sum_const, Finset.card_univ, Fintype.card_fin, smul_eq_mul]
      have node : fullWeight.node d r + ALLOC_FANOUT * granule (d + 1) = granule d := by
        have cases : d = 0 ∨ d = 1 ∨ d = 2 := by omega
        rcases cases with rfl | rfl | rfl <;> rfl
      rw [Cell.weigh_refined, Cell.weigh_refined, Cell.weigh_refined, freeWeight_node,
          rsvdWeight_node]
      omega

theorem sum_cells (length n : Nat) :
    ∑ c ∈ Finset.range n, min CELL_BLOCKS (length - c * CELL_BLOCKS) = min length
    (n * CELL_BLOCKS) := by
  induction n with
  | zero => simp
  | succ n ih =>
      rw [Finset.sum_range_succ, ih, CELL_BLOCKS]
      omega

namespace Ag

variable [Crc32c] {A : Ag} {stale : Nat → Prop} {w w' : Work} {T T' : Nat → Tree}
    {hdr hdr' : AgHeader}

theorem Held.sum {half : Option Nat} {loose : Option Ref} (held : A.Held stale w T half loose) :
    total A.cells (fun _ => freeWeight) T + total A.cells (rsvdWeight A.length) T +
      total A.cells (fun _ => fullWeight) T = A.length := by
  have each : ∀ c ∈ Finset.range A.cells, (T c).weigh freeWeight 0 +
      (T c).weigh (rsvdWeight A.length c) 0 + (T c).weigh fullWeight 0 =
      min CELL_BLOCKS (A.length - c * CELL_BLOCKS) := by
    intro c member
    have hc := Finset.mem_range.mp member
    by_cases rsvd : T c = .leaf .rsvd
    · rw [rsvd]
      simp [rsvdWeight]
    · have room := A.whole hc fun fixed => rsvd (held.reserved c hc fixed)
      rw [weigh_shape A.length c (held.shape c hc) (by decide) rsvd, granule]
      rw [CELL_BLOCKS] at *
      omega
  rw [total, total, total, ← Finset.sum_add_distrib, ← Finset.sum_add_distrib,
    Finset.sum_congr rfl each, sum_cells, cells, CELL_BLOCKS]
  omega

theorem Held.elsewhere {half : Option Nat} {loose : Option Ref} (held : A.Held stale w T half loose)
    (kin : w.Kin w') (root : ∀ l, A.Root l → w'.view (A.blk l) = w.view (A.blk l))
    (arena : ∀ l, A.Arena T l → w'.view (A.blk l) = w.view (A.blk l))
    (blank : ∀ l < A.length, T (l / CELL_BLOCKS) ≠ .leaf .rsvd → ¬ stale l → A.Magic w'.view l →
    A.Magic w.view l) :
    A.Held stale w' T half loose := by
  have known : ∀ r, A.Known T loose r → w'.view (A.blk r.1) = w.view (A.blk r.1) :=
    fun r here => arena r.1 (held.live r here).arena
  have mark : ∀ c < A.cells, A.rootMark w'.view c = A.rootMark w.view c :=
    fun c hc => rootMark_frame root hc
  refine ⟨held.on.kin kin, ?_, ?_, held.once, ?_, ?_, held.reserved, held.shape, ?_, ?_⟩
  · intro c hc whole
    rw [mark c hc]
    exact (held.models c hc whole).frame fun r here =>
        kidMark_frame (known r (known_of_tree hc here))
  · intro c pending
    have before := held.pending c pending
    have state : cellGet (A.table w'.view) c = cellGet (A.table w.view) c :=
      get2_congr (table_frame root _ (A.state_lt before.1))
    rw [state]
    exact before
  · intro r here
    have live := held.live r here
    rw [kin.blocksize]
    exact ⟨live.arena, (known r here).symm ▸ live.sound, live.index, live.bit,
      (used_frame (known r here)).mpr live.used⟩
  · intro r spare
    refine ⟨(held.spare r spare).1, fun i => ?_⟩
    rw [kidMark_frame (known r (.inr spare))]
    exact (held.spare r spare).2 i
  · intro r used inArena fresh
    exact held.exact r ((used_frame (arena r.1 inArena)).mp used) inArena fresh
  · intro l inside open' fresh magic
    exact held.blank l inside open' fresh (blank l inside open' fresh magic)

omit [Crc32c] in
theorem Arena.ne_hdr {l : Nat} (h : A.Arena T l) : l ≠ agHeaderBlock A.num := by
  rintro rfl
  exact h.2.2 A.hdr_reserved

/-- The invariant of an AG between calls: store, superblock and the header on disk agree. -/
structure Sound (A : Ag) (stale : Nat → Prop) (w : Work) (hdr : AgHeader) (T : Nat → Tree) :
    Prop where
  ready : A.Ready stale w hdr T none none
  header : AgHeader.parse (w.view A.hdrBlk) = .ok hdr

end Ag

namespace AgHeader

theorem fits_of_parse [Crc32c] {b : Bytes} {h : AgHeader} (ok : parse b = .ok h) : h.Fits := by
  rw [parse] at ok
  split at ok
  · cases ok
  · split at ok
    · cases ok
    · cases ok
      exact ⟨getBE_lt b 8 4, getBE_lt b 12 8, getBE_lt b 20 4, getBE_lt b 24 4, getBE_lt b 28 4,
        getBE_lt b 32 4, getBE_lt b 36 4, getBE_lt b 40 4, getBE_lt b 44 4, getBE_lt b 48 4⟩

/-- What `put_ag_header` stores: the generation wraps. -/
def next (h : AgHeader) : AgHeader := { h with gen := (h.gen + 1) % 2 ^ 64 }

theorem toBytes_next [Crc32c] (h : AgHeader) :
    { h with gen := h.gen + 1 }.toBytes = h.next.toBytes := by
  have same : { h with gen := h.gen + 1 }.fields = h.next.fields := by
    have wraps : ∀ b, putU64 b 12 (h.gen + 1) = putU64 b 12 ((h.gen + 1) % 2 ^ 64) := by
      intro b
      exact (putBE_mod 8 b 12 (h.gen + 1)).symm
    simp only [fields, next, wraps]
  rw [toBytes, toBytes, same]

theorem Fits.next {h : AgHeader} (fits : h.Fits) : h.next.Fits :=
  ⟨fits.agNum, Nat.mod_lt _ (by decide), fits.length, fits.freeBlocks, fits.rsvdBlocks,
  fits.fullBlocks,
    fits.allocRoot, fits.inoHint, fits.dataHint, fits.tblArena⟩

end AgHeader

/-- What a call leaves: only the header, the root table, arena blocks and the blocks `slots` were
written, and the superblock counters moved with those of the header. -/
structure Ran (A : Ag) (w w' : Work) (hdr hdr' : AgHeader) (T T' : Nat → Tree)
    (slots : Nat → Prop) :
    Prop where
  kin : w.Kin w'
  free : w'.fs.sb.freeBlocks + hdr.freeBlocks = w.fs.sb.freeBlocks + hdr'.freeBlocks
  rsvd : w'.fs.sb.rsvdBlocks + hdr.rsvdBlocks = w.fs.sb.rsvdBlocks + hdr'.rsvdBlocks
  full : w'.fs.sb.fullBlocks + hdr.fullBlocks = w.fs.sb.fullBlocks + hdr'.fullBlocks
  frame : ∀ b, b ≠ A.hdrBlk → (∀ l, A.Root l → b ≠ A.blk l) → (∀ l, A.Arena T' l → b ≠ A.blk l) →
    (∀ l, slots l → b ≠ A.blk l) → w'.view b = w.view b
  grows : ∀ c, T c = .leaf .rsvd → T' c = .leaf .rsvd

namespace Ran

variable {A : Ag} {w w' w'' : Work} {hdr hdr' hdr'' : AgHeader} {T T' T'' : Nat → Tree}
variable {slots slots' : Nat → Prop}

theorem trans (h : Ran A w w' hdr hdr' T T' slots) (h' : Ran A w' w'' hdr' hdr'' T' T'' slots') :
    Ran A w w'' hdr hdr'' T T'' fun l => slots l ∨ slots' l := by
  have free := h.free
  have free' := h'.free
  have rsvd := h.rsvd
  have rsvd' := h'.rsvd
  have full := h.full
  have full' := h'.full
  refine ⟨h.kin.trans h'.kin, by omega, by omega, by omega, ?_, fun c => h'.grows c ∘ h.grows c⟩
  intro b header root apart other
  rw [h'.frame b header root apart fun l slot => other l (.inr slot)]
  apply h.frame b header root ?_ fun l slot => other l (.inl slot)
  exact fun l arena => apart l ⟨arena.1, h'.grows _ arena.2.1, arena.2.2⟩

theorem mono (h : Ran A w w' hdr hdr' T T' slots) (wider : ∀ l, slots l → slots' l) :
    Ran A w w' hdr hdr' T T' slots' :=
  ⟨h.kin, h.free, h.rsvd, h.full, fun b header root apart other =>
    h.frame b header root apart fun l slot => other l (wider l slot), h.grows⟩

end Ran

namespace Ag

variable [Crc32c] {A : Ag} {stale : Nat → Prop} {w w' : Work} {T T' : Nat → Tree}
    {hdr hdr' : AgHeader}

theorem Ready.fits (ready : A.Ready stale w hdr T none none) (gen : hdr.gen < 2 ^ 64)
    (ino : hdr.inoHint < 2 ^ 32) (data : hdr.dataHint < 2 ^ 32) : hdr.Fits := by
  have sum := ready.held.sum
  have length := A.length_lt
  have root := A.root_end
  have some := A.length_pos
  have free := ready.tally.free
  have rsvd := ready.tally.rsvd
  have full := ready.tally.full
  refine ⟨ready.tally.of.num ▸ A.num_lt, gen, ready.tally.of.length ▸ length, by omega, by omega,
    by omega, ?_, ino, data, ?_⟩
  · rw [ready.tally.of.root]
    omega
  · by_cases none : hdr.tblArena = 0
    · rw [none]
      decide
    · have arena := ready.tally.arena none
      have bound := A.cell_bounds arena.2.1
      rw [CELL_BLOCKS] at *
      omega

omit [Crc32c] in
theorem hdr_mapped (held : A.On w) : w.Mapped A.hdrBlk :=
  held.mapped _ (by have root := A.root_end; have header := A.hdr_lt; omega)

theorem Ready.put (ready : A.Ready stale w hdr T none none) (fits : hdr.Fits) :
    ∃ w', Work.putAgHeader hdr w = (.ok (), w') ∧ A.Sound stale w' hdr.next T ∧
      Ran A w w' hdr hdr.next T T fun _ => False := by
  have large := ready.held.on.blocksize
  have frame : ∀ b, b ≠ A.hdrBlk →
      (w.put A.hdrBlk (clip AGHDR_SIZE hdr.next.toBytes)).view b = w.view b := by
    intro b other
    rw [Work.view_put, Function.update_of_ne other]
  have kin := (Work.Kin.refl w).put A.hdrBlk (clip AGHDR_SIZE hdr.next.toBytes)
  have root_ne : ∀ l, A.Root l → A.blk l ≠ A.hdrBlk := fun l root equal =>
    root.ne_hdr (A.blk_inj.mp equal)
  refine ⟨w.put A.hdrBlk (clip AGHDR_SIZE hdr.next.toBytes), ?_, ⟨⟨?_, ?_, ready.covered.free,
    ready.covered.full⟩, ?_⟩, ⟨kin, rfl, rfl, rfl, fun b header _ _ _ => frame b header,
    fun _ => id⟩⟩
  · have place : blkAddr hdr.agNum (agHeaderBlock hdr.agNum) = A.hdrBlk := by
      rw [ready.tally.of.num]
      rfl
    rw [Work.putAgHeader, AgHeader.toBytes_next, place]
    exact Work.txnWrite_run w _ _
  · apply ready.held.elsewhere kin (fun l root => frame _ (root_ne l root))
    · exact fun l arena => frame _ fun equal => arena.ne_hdr (A.blk_inj.mp equal)
    · intro l _ open' _ magic
      have other : l ≠ agHeaderBlock A.num := by
        rintro rfl
        apply open'
        have header := A.hdr_lt
        have root := A.root_end
        exact ready.held.reserved _ (A.lt_cells (by omega)) A.hdr_reserved
      rwa [Magic, frame _ fun equal => other (A.blk_inj.mp equal)] at magic
  · exact ⟨⟨ready.tally.of.num, ready.tally.of.length, ready.tally.of.root⟩, ready.tally.free,
      ready.tally.full, ready.tally.rsvd, ready.tally.arena⟩
  · rw [Work.view_put, Function.update_self, ← AgHeader.parse_clip, AGHDR_SIZE,
        clip_clip_of_le (by omega),
      clip_clip, ← AGHDR_SIZE, AgHeader.parse_clip]
    exact AgHeader.parse_toBytes fits.next

theorem Sound.fits (sound : A.Sound stale w hdr T) : hdr.Fits := AgHeader.fits_of_parse sound.header

theorem Sound.read (sound : A.Sound stale w hdr T) :
    Work.readAgHeaderTxn A.num w = (.ok hdr, w) := by
  have read : Work.txnRead (blkAddr A.num (agHeaderBlock A.num)) w = (.ok (w.view A.hdrBlk), w) :=
    Work.txnRead_run (hdr_mapped sound.ready.held.on)
  rw [Work.readAgHeaderTxn, bind_ok _ _ read, sound.header]
  rfl

end Ag

theorem Moved.ran {A : Ag} {w w' : Work} {hdr hdr' : AgHeader} {T T' : Nat → Tree}
    (h : Moved A w w' hdr hdr' T T') : Ran A w w' hdr hdr' T T' fun _ => False :=
  ⟨h.kin, h.free, h.rsvd, h.full, fun b _ root apart _ => h.frame b root apart, h.grows⟩

/-- The depth at which `n` blocks are allocated, and the run that they are rounded up to. -/
def grain (n : Nat) : Nat := if n ≥ CELL_BLOCKS then 0 else if n > ALLOC_FANOUT then 1 else 2
def roundUp (n : Nat) : Nat := (n + granule (grain n) - 1) / granule (grain n) * granule (grain n)

theorem le_roundUp {n : Nat} (some_block : 0 < n) : n ≤ roundUp n := by
  rw [roundUp, grain]
  split
  · rw [granule, CELL_BLOCKS]
    omega
  · split
    · rw [granule, ALLOC_FANOUT]
      omega
    · rw [granule]
      omega

namespace Work

variable [Crc32c] {A : Ag} {stale : Nat → Prop} {w : Work} {T : Nat → Tree} {hdr : AgHeader}

/-- A successful `alloc_extent(n)`. -/
structure Obtained (A : Ag) (stale : Nat → Prop) (w : Work) (hdr : AgHeader) (T : Nat → Tree)
    (n blk : Nat)
    (w' : Work) (hdr' : AgHeader) (T' : Nat → Tree) (l : Nat) : Prop where
  block : blk = A.blk l
  sound : A.Sound stale w' hdr' T'
  ran : Ran A w w' hdr hdr' T T' fun _ => False
  granted : Granted A T T' l (roundUp n) (grain n)
  tidy : A.Tidied T → A.Tidied T'

theorem allocSized_wp (ready : A.Ready stale w hdr T none none) {n : Nat} (some_block : 0 < n) :
    wp (allocSized hdr n) (Found A stale w hdr T (roundUp n) (grain n)) NoUnderflow w := by
  rw [allocSized, roundUp, grain]
  split
  · apply wp_mono (allocL0_wp ready (by rw [CELL_BLOCKS]; omega))
    · exact fun _ _ found => found
    · rintro e w' ⟨⟨m, rfl⟩, -⟩
      exact bail_noUnderflow m w'
  · split
    · rename_i small large
      rw [CELL_BLOCKS] at small
      rw [ALLOC_FANOUT] at large
      apply allocL1_wp ready
      · rw [ALLOC_FANOUT]
        omega
      · rw [ALLOC_FANOUT]
        omega
    · rename_i _ small
      have whole : (n + granule 2 - 1) / granule 2 * granule 2 = n := by
        rw [granule]
        omega
      rw [whole]
      exact allocL2_wp ready some_block (Nat.le_of_not_lt small)

theorem allocExtent_wp (sound : A.Sound stale w hdr T) {n : Nat} (some_block : 0 < n) :
    wp (allocExtent A.num n) (fun blk w' => ∃ hdr' T' l,
    Obtained A stale w hdr T n blk w' hdr' T' l)
      NoUnderflow w := by
  have fits := sound.fits
  rw [allocExtent, wp_bind, wp_run sound.read, wp_bind]
  apply wp_mono (allocSized_wp sound.ready some_block)
  · rintro ⟨blk, hdr'⟩ w' ⟨T', l, gave, tidy⟩
    have fixed := gave.moved.fixed
    have fits' := gave.ready.fits (by rw [fixed]; exact fits.gen)
        (by rw [fixed]; exact fits.inoHint)
      (by rw [fixed]; exact fits.dataHint)
    obtain ⟨w'', written, sound', ran⟩ := gave.ready.put fits'
    dsimp only
    rw [wp_bind, wp_run written, wp_pure]
    exact ⟨_, T', l, gave.block, sound', (gave.moved.ran.trans ran).mono fun l both =>
        both.elim id id,
      gave.granted, tidy⟩
  · exact fun _ _ err => err

end Work

end FiveFs

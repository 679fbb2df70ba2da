import FiveFs.Lib.Pair
import FiveFs.Header

/-! An allocation group over two devices that agree on what the filesystem has written there: each
access of the allocator takes the same course over both. -/

namespace FiveFs

open Buffer Prog

/-- The same state over a device with other contents. -/
def Work.onto (b : Bytes) (w : Work) : Work :=
  { w with fs := { w.fs with dev := { w.fs.dev with bytes := b } } }

theorem AgHeader.magic_of_parse [Crc32c] {b : Bytes} {h : AgHeader}
    (ok : AgHeader.parse b = .ok h) :
    getU32 b 0 = AG_MAGIC := by
  rw [AgHeader.parse] at ok
  split at ok
  · cases ok
  · rename_i magic
    exact not_not.mp magic

/-- A header as its fields hold it. -/
def AgHeader.wrap (h : AgHeader) : AgHeader where
  agNum := h.agNum % 2 ^ 32
  gen := h.gen % 2 ^ 64
  length := h.length % 2 ^ 32
  freeBlocks := h.freeBlocks % 2 ^ 32
  rsvdBlocks := h.rsvdBlocks % 2 ^ 32
  fullBlocks := h.fullBlocks % 2 ^ 32
  allocRoot := h.allocRoot % 2 ^ 32
  inoHint := h.inoHint % 2 ^ 32
  dataHint := h.dataHint % 2 ^ 32
  tblArena := h.tblArena % 2 ^ 32

theorem AgHeader.parse_wrap [Crc32c] (h : AgHeader) : AgHeader.parse h.toBytes = .ok h.wrap := by
  have four : ∀ b off v, putU32 b off (v % 2 ^ 32) = putU32 b off v :=
      fun b off v => putBE_mod 4 b off v
  have eight : ∀ b off v, putU64 b off (v % 2 ^ 64) = putU64 b off v :=
      fun b off v => putBE_mod 8 b off v
  have same : h.wrap.fields = h.fields := by
    simp only [fields, wrap, four, eight]
  have bytes : h.toBytes = h.wrap.toBytes := by rw [toBytes, toBytes, same]
  have bound : ∀ n, n % 2 ^ 32 < 2 ^ 32 := fun n => Nat.mod_lt n (by decide)
  rw [bytes]
  exact AgHeader.parse_toBytes ⟨bound _, Nat.mod_lt _ (by decide), bound _, bound _, bound _,
      bound _, bound _,
    bound _, bound _, bound _⟩

/-- What is known of an AG: the records that references lead to, cells that stay RSVD, cells that
are neither FREE nor among those, the blocks that a claim of a record finds alike, the block of a
new arena with the records that are free there, and the blocks outside the RSVD cells that may be
written. -/
structure Common where
  recs : Ref → Prop
  rsvd : Nat → Prop
  taken : Nat → Prop := fun _ => False
  clean : Nat → Prop := fun _ => False
  spare : Option (Nat × Nat) := none
  touched : Nat → Prop := fun _ => True

namespace Common

variable (A : Ag) (K K' K'' : Common)

/-- An arena block. -/
def Arena (l : Nat) : Prop := l < A.length ∧ K.rsvd (l / CELL_BLOCKS) ∧
    ¬ A.reserved (l / CELL_BLOCKS)

/-- The header is that of the AG, and its arena an arena cell. -/
structure Names (hdr : AgHeader) : Prop where
  of : A.Of hdr
  arena : hdr.tblArena = 0 ∨ ∃ c < A.cells, hdr.tblArena = c * CELL_BLOCKS ∧ K.rsvd c ∧
      ¬ A.reserved c

/-- `k` records can be claimed without a look at a block in which the devices differ. -/
def Stocked (hdr : AgHeader) (k : Nat) : Prop :=
  hdr.tblArena = 0 ∨ (∀ j < CELL_BLOCKS, K.clean (hdr.tblArena + j)) ∨ ∃ m, k ≤ m ∧
  K.spare = some (hdr.tblArena, m)

structure Le : Prop where
  recs : ∀ r, K.recs r → K'.recs r
  rsvd : ∀ c, K.rsvd c → K'.rsvd c
  taken : ∀ c, K.taken c → K'.taken c
  clean : ∀ l, K.clean l → K'.clean l
  touched : ∀ l, K.touched l → K'.touched l

def learn (r : Ref) : Common := { K with recs := fun r' => K.recs r' ∨ r' = r }
def take (c : Nat) : Common := { K with taken := fun c' => K.taken c' ∨ c' = c }
def reserve (c : Nat) : Common := { K with rsvd := fun c' => K.rsvd c' ∨ c' = c }
def drop : Common := { K with spare := none }
def stock (l m : Nat) : Common := { K with spare := some (l, m) }

variable {A K K' K''}

theorem Le.refl (K : Common) : K.Le K := ⟨fun _ => id, fun _ => id, fun _ => id, fun _ => id,
    fun _ => id⟩

theorem Le.trans (h : K.Le K') (h' : K'.Le K'') : K.Le K'' :=
  ⟨fun r => h'.recs r ∘ h.recs r, fun c => h'.rsvd c ∘ h.rsvd c, fun c => h'.taken c ∘ h.taken c,
    fun l => h'.clean l ∘ h.clean l, fun l => h'.touched l ∘ h.touched l⟩

theorem le_learn (K : Common) (r : Ref) : K.Le (K.learn r) :=
  ⟨fun _ => .inl, fun _ => id, fun _ => id, fun _ => id, fun _ => id⟩

theorem le_take (K : Common) (c : Nat) : K.Le (K.take c) :=
  ⟨fun _ => id, fun _ => id, fun _ => .inl, fun _ => id, fun _ => id⟩

theorem le_reserve (K : Common) (c : Nat) : K.Le (K.reserve c) :=
  ⟨fun _ => id, fun _ => .inl, fun _ => id, fun _ => id, fun _ => id⟩

theorem le_drop (K : Common) : K.Le K.drop :=
  ⟨fun _ => id, fun _ => id, fun _ => id, fun _ => id, fun _ => id⟩

theorem le_stock (K : Common) (l m : Nat) : K.Le (K.stock l m) :=
  ⟨fun _ => id, fun _ => id, fun _ => id, fun _ => id, fun _ => id⟩

theorem Arena.mono {l : Nat} (h : K.Arena A l) (le : K.Le K') : K'.Arena A l :=
  ⟨h.1, le.rsvd _ h.2.1, h.2.2⟩

theorem Names.mono {hdr : AgHeader} (h : K.Names A hdr) (le : K.Le K') : K'.Names A hdr := by
  refine ⟨h.of, ?_⟩
  rcases h.arena with none | ⟨c, hc, place, rsvd, open'⟩
  · exact .inl none
  · exact .inr ⟨c, hc, place, le.rsvd c rsvd, open'⟩

theorem Stocked.mono {hdr : AgHeader} {j k : Nat} (h : K.Stocked hdr k) (le : j ≤ k) :
    K.Stocked hdr j := by
  rcases h with none | clean | ⟨m, enough, spared⟩
  · exact .inl none
  · exact .inr (.inl clean)
  · exact .inr (.inr ⟨m, Nat.le_trans le enough, spared⟩)

theorem Names.recount {hdr hdr' : AgHeader} (h : K.Names A hdr) (num : hdr'.agNum = hdr.agNum)
    (length : hdr'.length = hdr.length) (root : hdr'.allocRoot = hdr.allocRoot)
    (arena : hdr'.tblArena = hdr.tblArena) : K.Names A hdr' :=
  ⟨⟨num.trans h.of.num, length.trans h.of.length, root.trans h.of.root⟩, arena ▸ h.arena⟩

theorem Names.wrap {hdr : AgHeader} (names : K.Names A hdr) (ino : hdr.inoHint < A.length) :
    K.Names A hdr.wrap ∧ hdr.wrap.inoHint = hdr.inoHint ∧ hdr.wrap.tblArena = hdr.tblArena := by
  have small := A.length_lt
  have ends := A.root_end
  have arena : hdr.wrap.tblArena = hdr.tblArena := by
    apply Nat.mod_eq_of_lt
    rcases names.arena with none | ⟨c, hc, place, -⟩
    · rw [none]
      decide
    · have bound := A.cell_bounds hc
      omega
  refine ⟨names.recount ?_ ?_ ?_ arena, Nat.mod_eq_of_lt (by omega), arena⟩
  · exact Nat.mod_eq_of_lt (names.of.num ▸ A.num_lt)
  · exact Nat.mod_eq_of_lt (names.of.length ▸ small)
  · refine Nat.mod_eq_of_lt ?_
    rw [names.of.root]
    omega

end Common

namespace Ag

/-- The state of a cell, as stored. -/
def state (A : Ag) (v : Nat → Bytes) (c : Nat) : Nat := cellGet (A.table v) c

/-- Both devices hold the same in the block. -/
def Same (A : Ag) (b : Bytes) (w : Work) (l : Nat) : Prop :=
  (w.onto b).view (A.blk l) = w.view (A.blk l)

/-- The devices hold the same in the block, or what neither run takes for a table block. -/
def Fine (A : Ag) (b : Bytes) (w : Work) (l : Nat) : Prop :=
  A.Same b w l ∨ ¬ A.Magic w.view l ∧ ¬ A.Magic (w.onto b).view l

/-- From `w₀` on only blocks of the AG were put in the transaction, in RSVD cells or as named, and
none was dropped. What was RSVD there still is, and what was fine there still is. -/
structure Since (A : Ag) (b : Bytes) (w₀ : Work) (K : Common) (w : Work) : Prop where
  frame : ∀ blk, blk / 2 ^ 32 ≠ A.num → w.t.find blk = w₀.t.find blk
  grows : ∀ blk, w.t.find blk = none → w₀.t.find blk = none
  rsvd : ∀ c < A.cells, A.state w₀.view c = CELL_RSVD → K.rsvd c
  clean : ∀ l < A.length, A.Fine b w₀ l → K.clean l
  touched : ∀ l < A.length, w.t.find (A.blk l) ≠ w₀.t.find (A.blk l) → K.rsvd (l / CELL_BLOCKS) ∨
      K.touched l

variable [Crc32c]

/-- Over its own device and over one with contents `b` the state has the same structures in the AG:
whatever a reference leads to is the same in both. All else in the state is as in `w₀`, but for the
superblock counters and the scan hints. -/
structure Shared (A : Ag) (b : Bytes) (w₀ : Work) (K : Common) (w : Work) : Prop where
  on : A.On w
  kin : w₀.Kin w
  since : A.Since b w₀ K w
  header : A.Same b w (agHeaderBlock A.num)
  valid : ∃ hdr, AgHeader.parse (w.view A.hdrBlk) = .ok hdr ∧ K.Names A hdr ∧ hdr.inoHint < A.length
  root : ∀ l, A.Root l → A.Same b w l
  zero : ¬ A.Magic w.view 0 ∧ ¬ A.Magic (w.onto b).view 0
  reserved : ∀ c < A.cells, A.reserved c → K.rsvd c
  rsvd : ∀ c, K.rsvd c → c < A.cells ∧ A.state w.view c = CELL_RSVD
  taken : ∀ c, K.taken c → c < A.cells ∧ A.state w.view c ≠ CELL_FREE ∧ ¬ K.rsvd c
  null : K.recs (0, 0)
  cell : ∀ c < A.cells, K.recs (A.rootRef w.view c)
  place : ∀ r, K.recs r → r = (0, 0) ∨ K.Arena A r.1 ∧ r.2 < 2 ^ 16 ∧ A.Same b w r.1
  closed : ∀ r, K.recs r → r ≠ (0, 0) → RecIn A.blocksize r.2 → ∀ i < ALLOC_FANOUT,
    K.recs (recRef (recAt (w.view (A.blk r.1)) r.2) i)
  clean : ∀ l, K.clean l → A.Fine b w l
  spare : ∀ l m, K.spare = some (l, m) → K.Arena A l ∧ A.Same b w l ∧ A.Magic w.view l ∧
    countOnes (getU32 (w.view (A.blk l)) 16) + m ≤ recsPerBlock A.blocksize ∧
    (w.fs.hints A.num).map Prod.fst = some l

end Ag

section Frames

variable {A : Ag} {b : Bytes} {w w' : Work} {blk l l' : Nat}

theorem view_find (fs : w'.fs = w.fs) (same : w'.t.find blk = w.t.find blk) :
    w'.view blk = w.view blk := by
  have size : w'.blocksize = w.blocksize := congrArg (fun fs => fs.sb.blocksize) fs
  rw [Work.view, Work.view, same, size, fs]

theorem view_onto_find (fs : w'.fs = w.fs) (same : w'.t.find blk = w.t.find blk) :
    (w'.onto b).view blk = (w.onto b).view blk :=
  view_find (by rw [Work.onto, Work.onto, fs]) same

theorem Ag.On.onto (on : A.On w) : A.On (w.onto b) := ⟨on.mapped, on.size⟩

theorem find_put_none {data : Bytes} {blk' : Nat} (none' : (w.put blk' data).t.find blk = none) :
    w.t.find blk = none := by
  rw [Work.put, Txn.find_insert] at none'
  split at none'
  · cases none'
  · exact none'

theorem same_put (data : Bytes) : A.Same b (w.put (A.blk l) data) l := by
  show ((w.onto b).put (A.blk l) data).view (A.blk l) = (w.put (A.blk l) data).view (A.blk l)
  rw [Work.view_put, Work.view_put, Function.update_self, Function.update_self]
  rfl

theorem view_put_ne (data : Bytes) (other : l' ≠ l) :
    (w.put (A.blk l) data).view (A.blk l') = w.view (A.blk l') := by
  rw [Work.view_put, Function.update_of_ne]
  exact fun equal => other (A.blk_inj.mp equal)

theorem Ag.Same.put (same : A.Same b w l') (data : Bytes) : A.Same b (w.put (A.blk l) data) l' := by
  by_cases here : l' = l
  · exact here ▸ same_put data
  · show ((w.onto b).put (A.blk l) data).view (A.blk l') = (w.put (A.blk l) data).view (A.blk l')
    rw [view_put_ne data here, view_put_ne data here]
    exact same

end Frames

theorem Ag.hdr_lt_length (A : Ag) : agHeaderBlock A.num < A.length := by
  have root := A.root_end
  have header := A.hdr_lt
  omega

theorem Ag.blk_ag (A : Ag) {l : Nat} (small : l < 2 ^ 32) : A.blk l / 2 ^ 32 = A.num := by
  rw [Ag.blk, blkAddr]
  omega

section Roots

variable {A : Ag} {v v' : Nat → Bytes} {c : Nat}

theorem state_frame (same : ∀ l, A.Root l → v' (A.blk l) = v (A.blk l)) (hc : c < A.cells) :
    A.state v' c = A.state v c :=
  get2_congr (table_frame same _ (A.state_lt hc))

theorem rootRef_frame (same : ∀ l, A.Root l → v' (A.blk l) = v (A.blk l)) (hc : c < A.cells) :
    A.rootRef v' c = A.rootRef v c := by
  have bound := A.ref_lt hc
  have table := table_frame same
  have block : getU32 (A.table v') (rtRefOff A.cells c) = getU32 (A.table v) (rtRefOff A.cells c) :=
    getBE_congr fun k hk => table _ (by omega)
  have index : getU16 (A.table v') (rtRefOff A.cells c + 4) = getU16 (A.table v)
      (rtRefOff A.cells c + 4) :=
    getBE_congr fun k hk => table _ (by omega)
  rw [Ag.rootRef, Ag.rootRef, block, index]

end Roots

namespace Ag

variable [Crc32c] {A : Ag} {b : Bytes} {w w' w₀ : Work} {K : Common} {hdr : AgHeader} {l c : Nat}

omit [Crc32c] in
theorem Since.put (h : A.Since b w₀ K w) (inside : l < A.length)
    (named : K.rsvd (l / CELL_BLOCKS) ∨ K.touched l)
    (data : Bytes) : A.Since b w₀ K (w.put (A.blk l) data) := by
  refine ⟨fun blk other => ?_, fun blk none' => ?_, h.rsvd, h.clean, fun l' inside' changed => ?_⟩
  · have apart : blk ≠ A.blk l := by
      rintro rfl
      exact other (A.blk_ag (Nat.lt_trans inside A.length_lt))
    rw [Work.put, Txn.find_insert, if_neg apart]
    exact h.frame blk other
  · exact h.grows blk (find_put_none none')
  · by_cases here : l' = l
    · exact here ▸ named
    · refine h.touched l' inside' fun same => changed ?_
      rw [Work.put, Txn.find_insert, if_neg fun equal => here (A.blk_inj.mp equal), same]

omit [Crc32c] in
theorem Since.mono {K' : Common} (h : A.Since b w₀ K w) (le : K.Le K') : A.Since b w₀ K' w :=
  ⟨h.frame, h.grows, fun c hc state => le.rsvd c (h.rsvd c hc state),
    fun l inside fine => le.clean l (h.clean l inside fine),
    fun l inside changed => (h.touched l inside changed).imp (le.rsvd _) (le.touched l)⟩

/-- A block outside the reserved cells is written: a record block keeps leading to records, and a
new arena its free records. -/
theorem Shared.put (h : A.Shared b w₀ K w) (inside : l < A.length)
    (open' : ¬ A.reserved (l / CELL_BLOCKS))
    (named : K.rsvd (l / CELL_BLOCKS) ∨ K.touched l) {data : Bytes}
    (closed : ∀ idx, K.recs (l, idx) → (l, idx) ≠ (0, 0) → RecIn A.blocksize idx →
    ∀ i < ALLOC_FANOUT,
      K.recs (recRef (recAt (clip A.blocksize data) idx) i))
    (spare : ∀ m, K.spare = some (l, m) → getU32 (clip A.blocksize data) 0 = ALLOC_MAGIC ∧
      countOnes (getU32 (clip A.blocksize data) 16) + m ≤ recsPerBlock A.blocksize) :
    A.Shared b w₀ K (w.put (A.blk l) data) := by
  have header : agHeaderBlock A.num ≠ l := by
    rintro rfl
    exact open' A.hdr_reserved
  have zero : 0 ≠ l := by
    rintro rfl
    exact open' A.reserved_zero
  have here : (w.put (A.blk l) data).view (A.blk l) = clip A.blocksize data := by
    rw [Work.view_put, Function.update_self, h.on.size]
  have view : ∀ l', l' ≠ l → (w.put (A.blk l) data).view (A.blk l') = w.view (A.blk l') :=
    fun l' other => view_put_ne data other
  have view' : ∀ l', l' ≠ l → ((w.put (A.blk l) data).onto b).view (A.blk l') = (w.onto b).view
      (A.blk l') :=
    fun l' other => view_put_ne (w := w.onto b) data other
  have root : ∀ l', A.Root l' → (w.put (A.blk l) data).view (A.blk l') = w.view (A.blk l') := by
    intro l' at_root
    apply view
    rintro rfl
    exact open' (A.root_reserved at_root)
  refine ⟨h.on.put _ _, h.kin.put _ _, h.since.put inside named data, h.header.put data, ?_,
    fun l' at_root => (h.root l' at_root).put data, ?_, h.reserved, ?_, ?_, h.null, ?_, ?_, ?_, ?_,
    ?_⟩
  · rw [hdrBlk, view _ header]
    exact h.valid
  · rw [Magic, Magic, view 0 zero, view' 0 zero]
    exact h.zero
  · intro c rsvd
    rw [state_frame root (h.rsvd c rsvd).1]
    exact h.rsvd c rsvd
  · intro c taken
    rw [state_frame root (h.taken c taken).1]
    exact h.taken c taken
  · intro c hc
    rw [rootRef_frame root hc]
    exact h.cell c hc
  · intro r known
    rcases h.place r known with null | ⟨arena, index, same⟩
    · exact .inl null
    · exact .inr ⟨arena, index, same.put data⟩
  · intro r known other range i hi
    by_cases at_l : r.1 = l
    · obtain ⟨_, idx⟩ := r
      subst at_l
      rw [here]
      exact closed idx known other range i hi
    · rw [view _ at_l]
      exact h.closed r known other range i hi
  · intro l' clean
    by_cases at_l : l' = l
    · exact .inl (at_l ▸ same_put data)
    · rw [Fine, Magic, Magic, view _ at_l, view' _ at_l]
      exact (h.clean l' clean).imp_left fun same => same.put data
  · intro l' m spared
    obtain ⟨arena, same, magic, room, hint⟩ := h.spare l' m spared
    by_cases at_l : l' = l
    · subst at_l
      have kept := spare m spared
      rw [Magic, here]
      exact ⟨arena, same.put data, kept.1, kept.2, hint⟩
    · rw [Magic, view _ at_l]
      exact ⟨arena, same.put data, magic, room, hint⟩

/-- The header is written. -/
theorem Shared.put_header (h : A.Shared b w₀ K w) (names : K.Names A hdr)
    (ino : hdr.inoHint < A.length) :
    A.Shared b w₀ K (w.put A.hdrBlk (clip AGHDR_SIZE hdr.toBytes)) ∧
      AgHeader.parse ((w.put A.hdrBlk (clip AGHDR_SIZE hdr.toBytes)).view A.hdrBlk) = .ok
      hdr.wrap := by
  have large := h.on.blocksize
  have inside := A.hdr_lt_length
  have parsed : AgHeader.parse ((w.put A.hdrBlk (clip AGHDR_SIZE hdr.toBytes)).view A.hdrBlk) = .ok
      hdr.wrap := by
    rw [Work.view_put, Function.update_self, ← AgHeader.parse_clip, AGHDR_SIZE,
        clip_clip_of_le (by omega),
      clip_clip, ← AGHDR_SIZE, AgHeader.parse_clip]
    exact AgHeader.parse_wrap hdr
  have view : ∀ l, l ≠ agHeaderBlock A.num →
      (w.put A.hdrBlk (clip AGHDR_SIZE hdr.toBytes)).view (A.blk l) = w.view (A.blk l) :=
    fun l other => view_put_ne _ other
  have view' : ∀ l, l ≠ agHeaderBlock A.num →
      ((w.put A.hdrBlk (clip AGHDR_SIZE hdr.toBytes)).onto b).view (A.blk l) = (w.onto b).view
      (A.blk l) :=
    fun l other => view_put_ne (w := w.onto b) _ other
  have root : ∀ l, A.Root l →
      (w.put A.hdrBlk (clip AGHDR_SIZE hdr.toBytes)).view (A.blk l) = w.view (A.blk l) :=
    fun l at_root => view l at_root.ne_hdr
  have arena : ∀ l, K.Arena A l → l ≠ agHeaderBlock A.num := by
    rintro l inArena rfl
    exact inArena.2.2 A.hdr_reserved
  obtain ⟨wrapped, kept, -⟩ := names.wrap ino
  have fixed : K.rsvd (agHeaderBlock A.num / CELL_BLOCKS) :=
      h.reserved _ (A.lt_cells inside) A.hdr_reserved
  refine ⟨⟨h.on.put _ _, h.kin.put _ _, h.since.put inside (.inl fixed) _, same_put _, ?_,
    fun l at_root => (h.root l at_root).put _, ?_, h.reserved, ?_, ?_, h.null, ?_, ?_, ?_, ?_, ?_⟩,
    parsed⟩
  · exact ⟨hdr.wrap, parsed, wrapped, kept ▸ ino⟩
  · by_cases first : 0 = agHeaderBlock A.num
    · have place : A.blk 0 = A.hdrBlk := by rw [hdrBlk, ← first]
      have both : ((w.put A.hdrBlk (clip AGHDR_SIZE hdr.toBytes)).onto b).view A.hdrBlk =
          (w.put A.hdrBlk (clip AGHDR_SIZE hdr.toBytes)).view A.hdrBlk := same_put _
      rw [Magic, Magic, place, both, AgHeader.magic_of_parse parsed]
      exact ⟨by decide, by decide⟩
    · rw [Magic, Magic, view 0 first, view' 0 first]
      exact h.zero
  · intro c rsvd
    rw [state_frame root (h.rsvd c rsvd).1]
    exact h.rsvd c rsvd
  · intro c taken
    rw [state_frame root (h.taken c taken).1]
    exact h.taken c taken
  · intro c hc
    rw [rootRef_frame root hc]
    exact h.cell c hc
  · intro r known
    rcases h.place r known with null | ⟨inArena, index, same⟩
    · exact .inl null
    · exact .inr ⟨inArena, index, same.put _⟩
  · intro r known other range i hi
    rcases h.place r known with null | ⟨inArena, -, -⟩
    · exact (other null).elim
    · rw [view _ (arena _ inArena)]
      exact h.closed r known other range i hi
  · intro l clean
    by_cases here : l = agHeaderBlock A.num
    · exact .inl (here ▸ same_put _)
    · rw [Fine, Magic, Magic, view _ here, view' _ here]
      exact (h.clean l clean).imp_left fun same => same.put _
  · intro l m spared
    obtain ⟨inArena, same, magic, room, hint⟩ := h.spare l m spared
    rw [Magic, view _ (arena _ inArena)]
    exact ⟨inArena, same.put _, magic, room, hint⟩

/-- `w'` is `w` with writes to the root table, the same on both devices. -/
structure Retabled (A : Ag) (b : Bytes) (w w' : Work) : Prop where
  fs : w'.fs = w.fs
  grows : ∀ blk, w'.t.find blk = none → w.t.find blk = none
  find : ∀ blk, (∀ l, A.Root l → blk ≠ A.blk l) → w'.t.find blk = w.t.find blk
  root : ∀ l, A.Root l → A.Same b w' l

omit [Crc32c] in
theorem Retabled.view (h : A.Retabled b w w') (outside : ¬ A.Root l) :
    w'.view (A.blk l) = w.view (A.blk l) ∧ (w'.onto b).view (A.blk l) = (w.onto b).view
    (A.blk l) := by
  have same := h.find (A.blk l) fun l' root equal => outside (A.blk_inj.mp equal ▸ root)
  exact ⟨view_find h.fs same, view_onto_find h.fs same⟩

theorem Shared.retabled (h : A.Shared b w₀ K w) (re : A.Retabled b w w')
    (rsvd : ∀ c, K.rsvd c → A.state w'.view c = CELL_RSVD)
    (taken : ∀ c, K.taken c → A.state w'.view c ≠ CELL_FREE)
    (cell : ∀ c < A.cells, K.recs (A.rootRef w'.view c)) : A.Shared b w₀ K w' := by
  have view : ∀ l, ¬ A.Root l → w'.view (A.blk l) = w.view (A.blk l) :=
      fun l outside => (re.view outside).1
  have view' : ∀ l, ¬ A.Root l → (w'.onto b).view (A.blk l) = (w.onto b).view (A.blk l) :=
    fun l outside => (re.view outside).2
  have same : ∀ l, A.Same b w l → A.Same b w' l := by
    intro l was
    by_cases root : A.Root l
    · exact re.root l root
    · rw [Same, view l root, view' l root]
      exact was
  have arena : ∀ l, K.Arena A l → ¬ A.Root l :=
      fun l inArena root => inArena.2.2 (A.root_reserved root)
  have header : ¬ A.Root (agHeaderBlock A.num) := fun root => root.ne_hdr rfl
  have zero : ¬ A.Root 0 := by
    intro root
    have low := root.1
    have above := A.hdr_lt
    omega
  have kin : w.Kin w' := ⟨by rw [re.fs], by rw [re.fs], by rw [re.fs]⟩
  refine ⟨h.on.kin kin, h.kin.trans kin, ?_, same _ h.header, ?_, re.root, ?_, h.reserved,
    fun c known => ⟨(h.rsvd c known).1, rsvd c known⟩,
    fun c known => ⟨(h.taken c known).1, taken c known, (h.taken c known).2.2⟩, h.null, cell, ?_,
    ?_, ?_, ?_⟩
  · refine ⟨fun blk other => ?_, fun blk none' => ?_, h.since.rsvd, h.since.clean,
        fun l inside changed => ?_⟩
    · rw [re.find blk, h.since.frame blk other]
      rintro l root rfl
      exact other (A.blk_ag (Nat.lt_trans root.lt A.length_lt))
    · exact h.since.grows blk (re.grows blk none')
    · by_cases root : A.Root l
      · exact .inl (h.reserved _ (A.lt_cells inside) (A.root_reserved root))
      · refine h.since.touched l inside fun same => changed ?_
        rw [re.find (A.blk l) fun l' root' equal => root (A.blk_inj.mp equal ▸ root'), same]
  · rw [hdrBlk, view _ header]
    exact h.valid
  · rw [Magic, Magic, view 0 zero, view' 0 zero]
    exact h.zero
  · intro r known
    exact (h.place r known).imp_right fun known => ⟨known.1, known.2.1, same _ known.2.2⟩
  · intro r known other range i hi
    rcases h.place r known with null | ⟨inArena, -, -⟩
    · exact (other null).elim
    · rw [view _ (arena _ inArena)]
      exact h.closed r known other range i hi
  · intro l clean
    by_cases root : A.Root l
    · exact .inl (re.root l root)
    · rw [Fine, Magic, Magic, view _ root, view' _ root]
      exact (h.clean l clean).imp_left (same l)
  · intro l m spared
    obtain ⟨inArena, was, magic, room, hint⟩ := h.spare l m spared
    rw [Magic, view _ (arena _ inArena), re.fs]
    exact ⟨inArena, same _ was, magic, room, hint⟩

theorem Shared.recount (h : A.Shared b w₀ K w) (free rsvd full : Nat) :
    A.Shared b w₀ K (w.recount free rsvd full) :=
  ⟨⟨h.on.mapped, h.on.size⟩, h.kin.recount free rsvd full,
    ⟨h.since.frame, h.since.grows, h.since.rsvd, h.since.clean, h.since.touched⟩, h.header, h.valid,
    h.root, h.zero, h.reserved,
    h.rsvd, h.taken, h.null, h.cell, h.place, h.closed, h.clean, h.spare⟩

theorem Shared.rehint (h : A.Shared b w₀ K w) (hints : Nat → Option (Nat × Nat))
    (kept : ∀ l m, K.spare = some (l, m) → (hints A.num).map Prod.fst = some l) :
    A.Shared b w₀ K (w.rehint hints) :=
  ⟨⟨h.on.mapped, h.on.size⟩, h.kin.rehint hints,
    ⟨h.since.frame, h.since.grows, h.since.rsvd, h.since.clean, h.since.touched⟩, h.header, h.valid,
    h.root, h.zero, h.reserved,
    h.rsvd, h.taken, h.null, h.cell, h.place, h.closed, h.clean, fun l m spared =>
      have was := h.spare l m spared
      ⟨was.1, was.2.1, was.2.2.1, was.2.2.2.1, kept l m spared⟩⟩

theorem Shared.learn (h : A.Shared b w₀ K w) {r : Ref} (arena : K.Arena A r.1)
    (index : r.2 < 2 ^ 16)
    (same : A.Same b w r.1) (closed : ∀ i < ALLOC_FANOUT,
    K.recs (recRef (recAt (w.view (A.blk r.1)) r.2) i)) :
    A.Shared b w₀ (K.learn r) w := by
  refine ⟨h.on, h.kin, h.since.mono (K.le_learn r), h.header, ?_, h.root, h.zero, h.reserved,
      h.rsvd, h.taken, .inl h.null,
    fun c hc => .inl (h.cell c hc), ?_, ?_, h.clean, h.spare⟩
  · obtain ⟨hdr, parsed, names, ino⟩ := h.valid
    exact ⟨hdr, parsed, names.mono (K.le_learn r), ino⟩
  · rintro r' (known | rfl)
    · exact h.place r' known
    · exact .inr ⟨arena, index, same⟩
  · rintro r' (known | rfl) other range i hi
    · exact .inl (h.closed r' known other range i hi)
    · exact .inl (closed i hi)

theorem Shared.take (h : A.Shared b w₀ K w) {c : Nat} (hc : c < A.cells)
    (free : A.state w.view c ≠ CELL_FREE)
    (rsvd : ¬ K.rsvd c) : A.Shared b w₀ (K.take c) w := by
  refine ⟨h.on, h.kin, h.since.mono (K.le_take c), h.header, ?_, h.root, h.zero, h.reserved, h.rsvd,
      ?_, h.null, h.cell, h.place,
    h.closed, h.clean, h.spare⟩
  · obtain ⟨hdr, parsed, names, ino⟩ := h.valid
    exact ⟨hdr, parsed, names.mono (K.le_take c), ino⟩
  · rintro c' (known | rfl)
    · exact h.taken c' known
    · exact ⟨hc, free, rsvd⟩

theorem Shared.reserve (h : A.Shared b w₀ K w) {c : Nat} (hc : c < A.cells)
    (state : A.state w.view c = CELL_RSVD)
    (untaken : ¬ K.taken c) : A.Shared b w₀ (K.reserve c) w := by
  have le := K.le_reserve c
  refine ⟨h.on, h.kin, h.since.mono le, h.header,
    h.valid.imp fun _ ⟨parsed, names, ino⟩ => ⟨parsed, names.mono le, ino⟩,
    h.root, h.zero, fun c hc fixed => .inl (h.reserved c hc fixed), ?_, ?_, h.null, h.cell, ?_,
    h.closed, h.clean, ?_⟩
  · rintro c' (known | rfl)
    · exact h.rsvd c' known
    · exact ⟨hc, state⟩
  · intro c' taken
    obtain ⟨hc', free, open'⟩ := h.taken c' taken
    refine ⟨hc', free, ?_⟩
    rintro (known | rfl)
    · exact open' known
    · exact untaken taken
  · intro r known
    exact (h.place r known).imp_right fun ⟨arena, index, same⟩ => ⟨arena.mono le, index, same⟩
  · intro l m spared
    obtain ⟨arena, rest⟩ := h.spare l m spared
    exact ⟨arena.mono le, rest⟩

theorem Shared.drop (h : A.Shared b w₀ K w) : A.Shared b w₀ K.drop w :=
  ⟨h.on, h.kin, h.since.mono K.le_drop, h.header,
    h.valid.imp fun _ ⟨parsed, names, ino⟩ => ⟨parsed, names.mono K.le_drop, ino⟩,
    h.root, h.zero, h.reserved, h.rsvd, h.taken, h.null, h.cell, h.place, h.closed, h.clean,
    fun _ _ => (fun h => by cases h)⟩

theorem Shared.stock (h : A.Shared b w₀ K w) {m : Nat} (arena : K.Arena A l) (same : A.Same b w l)
    (magic : A.Magic w.view l)
    (room : countOnes (getU32 (w.view (A.blk l)) 16) + m ≤ recsPerBlock A.blocksize)
    (hint : (w.fs.hints A.num).map Prod.fst = some l) : A.Shared b w₀ (K.stock l m) w := by
  refine ⟨h.on, h.kin, h.since.mono (K.le_stock l m), h.header,
    h.valid.imp fun _ ⟨parsed, names, ino⟩ => ⟨parsed, names.mono (K.le_stock l m), ino⟩, h.root,
    h.zero, h.reserved,
    h.rsvd, h.taken, h.null, h.cell, h.place, h.closed, h.clean, fun l' m' spared => ?_⟩
  cases spared
  exact ⟨arena, same, magic, room, hint⟩

theorem Shared.open_of_state (h : A.Shared b w₀ K w) (state : A.state w.view c ≠ CELL_RSVD) :
    ¬ K.rsvd c :=
  fun known => state (h.rsvd c known).2

end Ag

namespace Work

variable {A : Ag} {b : Bytes} {w w' w₀ : Work} {K : Common} {hdr : AgHeader} {l c off : Nat}
    {E : Work → Prop}

theorem txnRead_pair (mapped : w.Mapped (A.blk l)) (same : A.Same b w l) {Q : Bytes → Work → Prop}
    (holds : Q (w.view (A.blk l)) w) : pair (onto b) (txnRead (A.blk l)) Q E w := by
  have run' : txnRead (A.blk l) (w.onto b) = (.ok ((w.onto b).view (A.blk l)), w.onto b) :=
    txnRead_run (w := w.onto b) mapped
  rw [same] at run'
  exact pair_run (txnRead_run mapped) run' holds

theorem rtByte_pair (on : A.On w) (root : ∀ l, A.Root l → A.Same b w l) (of : A.Of hdr)
    (inside : off < A.tableLen)
    {Q : Nat × Nat × Bytes → Work → Prop} (holds : Q
    (A.blk (A.root + off / A.blocksize), off % A.blocksize,
      w.view (A.blk (A.root + off / A.blocksize))) w) : pair (onto b) (rtByte hdr off) Q E w := by
  have run' := rtByte_run (w := w.onto b) on.onto of inside
  rw [root _ (A.root_block inside)] at run'
  exact pair_run (rtByte_run on of inside) run' holds

theorem retabled_refl (root : ∀ l, A.Root l → A.Same b w l) : A.Retabled b w w :=
  ⟨rfl, fun _ => id, fun _ _ => rfl, root⟩

theorem retabled_put (re : A.Retabled b w w') (at_root : A.Root l) (data : Bytes) :
    A.Retabled b w (w'.put (A.blk l) data) := by
  refine ⟨re.fs, fun blk none' => re.grows blk (find_put_none none'), fun blk outside => ?_,
      fun l' root =>
    (re.root l' root).put data⟩
  rw [put, Txn.find_insert, if_neg (outside l at_root)]
  exact re.find blk outside

theorem rtState_pair [Crc32c] (h : A.Shared b w₀ K w) (of : A.Of hdr) (hc : c < A.cells)
    {Q : Nat → Work → Prop}
    (holds : Q (A.state w.view c) w) : pair (onto b) (rtState hdr c) Q E w := by
  have run' := rtState_run (w := w.onto b) h.on.onto of hc
  have same : cellGet (A.table (w.onto b).view) c = cellGet (A.table w.view) c :=
    state_frame (fun l root => h.root l root) hc
  rw [same] at run'
  exact pair_run (rtState_run h.on of hc) run' holds

theorem rtStateSet_retabled (on : A.On w) (root : ∀ l, A.Root l → A.Same b w l) (of : A.Of hdr)
    (hc : c < A.cells)
    (st : Nat) : pair (onto b) (rtStateSet hdr c st) (fun _ w' => A.Retabled b w w')
    (fun _ => False) w := by
  have inside := A.state_lt hc
  rw [rtStateSet]
  apply pair_bind
  apply rtByte_pair on root of inside
  exact pair_modify rfl (retabled_put (retabled_refl root) (A.root_block inside) _)

theorem rtBytesSet_retabled (of : A.Of hdr) {base : Nat} (six : Bytes) {is : List Nat}
    (inside : ∀ i ∈ is, base + i < A.tableLen) (on : A.On w') (re : A.Retabled b w w') :
    pair (onto b) (rtBytesSet hdr base six is) (fun _ w' => A.Retabled b w w') (fun _ => False)
    w' := by
  induction is generalizing w' with
  | nil => exact pair_pure re
  | cons i rest ih =>
      have first := inside i List.mem_cons_self
      rw [rtBytesSet]
      apply pair_bind
      apply rtByte_pair on re.root of first
      apply pair_bind
      refine pair_modify rfl ?_
      exact ih (fun i hi => inside i (List.mem_cons_of_mem _ hi)) (on.put _ _)
        (retabled_put re (A.root_block first) _)

theorem rtRefSet_retabled (on : A.On w) (root : ∀ l, A.Root l → A.Same b w l) (of : A.Of hdr)
    (hc : c < A.cells)
    (r : Ref) : pair (onto b) (rtRefSet hdr c r) (fun _ w' => A.Retabled b w w') (fun _ => False)
    w := by
  have inside := A.ref_lt hc
  rw [rtRefSet]
  apply pair_get rfl
  rw [cells_eq A of]
  apply rtBytesSet_retabled of _ _ on (retabled_refl root)
  intro i hi
  have small := List.mem_range.mp hi
  omega

variable [Crc32c]

theorem rtStateSet_pair (h : A.Shared b w₀ K w) (of : A.Of hdr) (hc : c < A.cells) {st : Nat}
    (small : st < 4)
    (rsvd : ¬ K.rsvd c) (taken : st = CELL_FREE → ¬ K.taken c) {Q : Unit → Work → Prop}
    (holds : ∀ w', A.Shared b w₀ K w' → w'.fs = w.fs →
      (∀ c' < A.cells, A.state w'.view c' = if c = c' then st else A.state w.view c') → Q () w') :
    pair (onto b) (rtStateSet hdr c st) Q E w := by
  obtain ⟨w', run, put⟩ := rtStateSet_run h.on of hc st
  have both := rtStateSet_retabled h.on h.root of hc st
  have re := wp_ok both.2 run
  have state : ∀ c' < A.cells, A.state w'.view c' = if c = c' then st else A.state w.view c' :=
    fun c' hc' => rootState_stateSet put hc' small
  refine ⟨both.1, wp_of_ok run (holds w' (h.retabled re ?_ ?_ ?_) re.fs state)⟩
  · intro c' known
    have other : c ≠ c' := by
      rintro rfl
      exact rsvd known
    rw [state c' (h.rsvd c' known).1, if_neg other]
    exact (h.rsvd c' known).2
  · intro c' known
    rw [state c' (h.taken c' known).1]
    split
    · rename_i here
      exact fun free => taken free (here ▸ known)
    · exact (h.taken c' known).2.1
  · intro c' hc'
    rw [rootRef_stateSet put hc hc']
    exact h.cell c' hc'

theorem rtRefSet_pair (h : A.Shared b w₀ K w) (of : A.Of hdr) (hc : c < A.cells) {r : Ref}
    (known : K.recs r)
    {Q : Unit → Work → Prop} (holds : ∀ w', A.Shared b w₀ K w' → w'.fs = w.fs →
      (∀ c' < A.cells, A.state w'.view c' = A.state w.view c') → Q () w') :
    pair (onto b) (rtRefSet hdr c r) Q E w := by
  obtain ⟨w', run, put⟩ := rtRefSet_run h.on of hc r
  have both := rtRefSet_retabled h.on h.root of hc r
  have re := wp_ok both.2 run
  have bounds : r.1 < 2 ^ 32 ∧ r.2 < 2 ^ 16 := by
    rcases h.place r known with rfl | ⟨arena, index, -⟩
    · decide
    · exact ⟨Nat.lt_trans arena.1 A.length_lt, index⟩
  have state : ∀ c' < A.cells, A.state w'.view c' = A.state w.view c' :=
      fun c' hc' => rootState_refSet put hc'
  refine ⟨both.1, wp_of_ok run (holds w' (h.retabled re ?_ ?_ ?_) re.fs state)⟩
  · intro c' rsvd
    rw [state c' (h.rsvd c' rsvd).1]
    exact (h.rsvd c' rsvd).2
  · intro c' taken
    rw [state c' (h.taken c' taken).1]
    exact (h.taken c' taken).2.1
  · intro c' hc'
    rw [rootRef_refSet put hc' bounds.1 bounds.2]
    split
    · exact known
    · exact h.cell c' hc'

theorem rtRef_pair (h : A.Shared b w₀ K w) (of : A.Of hdr) (hc : c < A.cells)
    {Q : Ref → Work → Prop}
    (holds : ∀ r, K.recs r → Q r w) (failed : E w) : pair (onto b) (rtRef hdr c) Q E w := by
  have inside := A.ref_lt hc
  have both : pair (onto b) (rtRef hdr c) (fun _ _ => True) (fun _ => True) w := by
    rw [rtRef]
    apply pair_get rfl
    dsimp only
    rw [cells_eq A of]
    apply pair_bind
    apply rtByte_pair h.on h.root of (by omega)
    exact pair_ite (fun _ => pair_panicWith trivial) fun _ => pair_pure trivial
  exact pair_wp both (rtRef_wp h.on of hc (fun _ => holds _ (h.cell c hc)) fun _ => failed)

omit [Crc32c] in
theorem recRange_pair {idx : Nat} {Q : Unit → Work → Prop} (holds : RecIn w.blocksize idx → Q () w)
    (failed : E w) :
    pair (onto b) (recRange idx) Q E w := by
  rw [recRange]
  apply pair_get rfl
  exact pair_ite (fun _ => pair_panicWith failed) fun inside =>
      pair_pure (holds (Nat.le_of_not_lt inside))

theorem tblWrite_pair {ag : Nat} {buf : Bytes} {Q : Unit → Work → Prop}
    (holds : Q () (w.put (blkAddr ag l) (tblSeal w.blocksize buf))) :
    pair (onto b) (tblWrite ag l buf) Q E w :=
  pair_run (tblWrite_run w ag l buf) (tblWrite_run (w.onto b) ag l buf) holds

theorem tblRead_plain (mapped : w.Mapped (A.blk l)) (plain : ¬ A.Magic w.view l) :
    tblRead A.num l w = (.error (.bail s!"AG {A.num} block {l}: not a table block"), w) := by
  have read : txnRead (blkAddr A.num l) w = (.ok (w.view (A.blk l)), w) := txnRead_run mapped
  have different : getU32 (w.view (A.blk l)) 0 ≠ ALLOC_MAGIC := plain
  rw [tblRead, bind_ok _ _ read, bind_ok _ _ (get_run (s := w)), ite_run, if_pos different,
      bail_run]

theorem tblRead_same (mapped : w.Mapped (A.blk l)) (same : A.Same b w l) {Q : Bytes → Work → Prop}
    (holds : TblOk w.blocksize (w.view (A.blk l)) → Q (w.view (A.blk l)) w) (failed : E w) :
    pair (onto b) (tblRead A.num l) Q E w := by
  rw [tblRead]
  apply pair_bind
  apply txnRead_pair mapped same
  apply pair_get rfl
  refine pair_ite (fun _ => pair_bail failed) fun magic =>
      pair_ite (fun _ => pair_bail failed) fun sum => ?_
  exact pair_pure (holds ⟨not_not.mp magic, not_not.mp sum⟩)

theorem tblRead_pair (h : A.Shared b w₀ K w) {r : Ref} (known : K.recs r) {Q : Bytes → Work → Prop}
    (holds : r ≠ (0, 0) → TblOk w.blocksize (w.view (A.blk r.1)) → Q (w.view (A.blk r.1)) w)
    (failed : E w) :
    pair (onto b) (tblRead A.num r.1) Q E w := by
  rcases h.place r known with rfl | ⟨arena, -, same⟩
  · have mapped := h.on.mapped 0 A.length_pos
    exact pair_error (tblRead_plain mapped h.zero.1) (tblRead_plain (w := w.onto b) mapped h.zero.2)
        failed
  · have other : r ≠ (0, 0) := by
      rintro rfl
      exact arena.2.2 A.reserved_zero
    exact tblRead_same (h.on.mapped _ arena.1) same (holds other) failed

theorem recRead_pair (h : A.Shared b w₀ K w) {r : Ref} (known : K.recs r) {Q : Bytes → Work → Prop}
    (holds : ∀ data, (∀ i < ALLOC_FANOUT, K.recs (recRef data i)) → Q data w) (failed : E w) :
    pair (onto b) (recRead A.num r) Q E w := by
  rw [recRead]
  apply pair_bind
  apply tblRead_pair h known (fun other _ => ?_) failed
  apply pair_bind
  apply recRange_pair (fun range => ?_) failed
  rw [h.on.size] at range
  exact pair_pure (holds _ (h.closed r known other range))

theorem Shared.replace (h : A.Shared b w₀ K w) {r : Ref} (known : K.recs r) (other : r ≠ (0, 0))
    (sound : TblOk w.blocksize (w.view (A.blk r.1))) {data : Bytes}
    (leads : ∀ i < ALLOC_FANOUT, K.recs (recRef data i)) {buf : Bytes}
    (recs : ∀ idx, recAt buf idx = recAt (w.view (A.blk r.1)) idx)
    (magic : getU32 buf 0 = getU32 (w.view (A.blk r.1)) 0)
    (mask : countOnes (getU32 buf 16) ≤ countOnes (getU32 (w.view (A.blk r.1)) 16)) :
    A.Shared b w₀ K (w.put (A.blk r.1) (tblSeal w.blocksize
    (copyAt buf (recOff r.2) REC_SIZE data))) := by
  have size := h.on.size
  have large := A.large
  rcases h.place r known with null | ⟨arena, -, -⟩
  · exact (other null).elim
  · rw [size] at sound ⊢
    refine h.put arena.1 arena.2.2 (.inl arena.2.1) (fun idx known' other' range i hi => ?_)
        fun m spared => ?_
    · rw [clip_tblSeal, recAt_tblSeal range, recAt_copyAt]
      split
      · rw [recRef_clip data hi]
        exact leads i hi
      · rw [recs idx]
        exact h.closed (r.1, idx) known' other' range i hi
    · rw [clip_tblSeal, magic_tblSeal (by omega), getU32_copyAt_rec (by decide),
          mask_tblSeal (by omega),
        getU32_copyAt_rec (by decide), magic]
      have room := (h.spare r.1 m spared).2.2.2.1
      exact ⟨sound.1, by omega⟩

theorem recWrite_pair (h : A.Shared b w₀ K w) {r : Ref} (known : K.recs r) {data : Bytes}
    (leads : ∀ i < ALLOC_FANOUT, K.recs (recRef data i)) {Q : Unit → Work → Prop}
    (holds : ∀ w', A.Shared b w₀ K w' → Q () w') (failed : E w) :
    pair (onto b) (recWrite A.num r data) Q E w := by
  rw [recWrite]
  apply pair_bind
  apply tblRead_pair h known (fun other sound => ?_) failed
  apply pair_bind
  apply recRange_pair (fun _ => ?_) failed
  apply tblWrite_pair
  exact holds _ (Shared.replace h known other sound leads (fun _ => rfl) rfl (Nat.le_refl _))

theorem tblFreeRec_pair (h : A.Shared b w₀ K w) {r : Ref} (known : K.recs r)
    {Q : Unit → Work → Prop}
    (holds : ∀ w', A.Shared b w₀ K w' → Q () w') (failed : E w) :
    pair (onto b) (tblFreeRec A.num r) Q E w := by
  have large := h.on.blocksize
  rw [tblFreeRec]
  apply pair_bind
  apply tblRead_pair h known (fun other sound => ?_) failed
  refine pair_ite (fun _ => pair_panicWith failed) fun _ => ?_
  apply pair_bind
  apply recRange_pair (fun _ => ?_) failed
  apply tblWrite_pair
  have small : getU32 (w.view (A.blk r.1)) 16 &&& (0xFFFFFFFF ^^^ 1 <<< r.2) < 256 ^ 4 :=
    Nat.lt_of_le_of_lt Nat.and_le_left (getU32_lt _ _)
  refine holds _ (Shared.replace h known other sound (fun i _ => recRef_zeros i ▸ h.null)
    (fun idx => recAt_putU32 (by decide)) (getBE_putBE_disjoint _ (by decide)) ?_)
  rw [getU32, putU32, getBE_putBE, Nat.mod_eq_of_lt small]
  exact countOnes_and_le _ _

end Work

end FiveFs

import FiveFs.Descent
import FiveFs.Relocate

/-! Reading by runs against reading block by block. -/

namespace FiveFs

open Buffer Prog

namespace Gofs

variable [Crc32c]

/-- One block of the file. -/
def fileBlock (g : Gofs) (depth : Nat) (inode : Inode) (fb : Nat) : Except Err Bytes := do
  match ← g.mapLookup depth inode fb with
  | .run blk _ => (readBlock blk g).1
  | .hole _ => .ok zeros

/-- Each block from `pos` on is looked up, resolved and read by itself. -/
def readBlocks (g : Gofs) (depth : Nat) (inode : Inode) (offset limit : Nat) : Nat → Nat → Bytes →
    Except Err Bytes
  | 0, _, out => .ok out
  | fuel + 1, pos, out =>
      if pos < limit then do
        let inBlk := pos % g.sb.blocksize
        let n := min (g.sb.blocksize - inBlk) (limit - pos)
        let buf ← g.fileBlock depth inode (pos / g.sb.blocksize)
        g.readBlocks depth inode offset limit fuel (pos + n)
            (copyAt out (pos - offset) n (drop inBlk buf))
      else .ok out

/-- What reading is to deliver. -/
def readBlockwise (g : Gofs) (depth : Nat) (inode : Inode) (offset len : Nat) :
    Except Err (Nat × Bytes) :=
  if offset ≥ inode.size then .ok (0, zeros)
  else do
    let len := min len (inode.size - offset)
    let out ← g.readBlocks depth inode offset (offset + len) len offset zeros
    .ok (len, out)

/-- A file mapping whose blocks all resolve: what a run or a hole says of its blocks is what looking
them up says. -/
structure FileMapping (g : Gofs) (depth : Nat) (inode : Inode) : Prop where
  format : inode.format = FMT_EXTENT ∨ inode.format = FMT_TREE
  block : 0 < g.sb.blocksize
  found : ∀ fb, fb * g.sb.blocksize < inode.size → ∃ m, g.mapLookup depth inode fb = .ok m
  run : ∀ fb blk n j, g.mapLookup depth inode fb = .ok (.run blk n) → j < n →
    (fb + j) * g.sb.blocksize < inode.size → ∃ m,
    g.mapLookup depth inode (fb + j) = .ok (.run (blk + j) m)
  hole : ∀ fb n j, g.mapLookup depth inode fb = .ok (.hole n) → j < n →
    (fb + j) * g.sb.blocksize < inode.size → ∃ m, g.mapLookup depth inode (fb + j) = .ok (.hole m)
  resolves : ∀ fb blk n, fb * g.sb.blocksize < inode.size →
      g.mapLookup depth inode fb = .ok (.run blk n) →
    ∃ off, g.map.resolve blk g.sb.blocksize = some off ∧ off + g.sb.blocksize ≤ g.dev.fileLen

/-- Every block of a run within the file lies on the device as far behind the first block of the run
as it does in the run, or what lies there has the same bytes. -/
def Straight (g : Gofs) (depth : Nat) (inode : Inode) : Prop :=
  ∀ fb blk n j k, g.mapLookup depth inode fb = .ok (.run blk n) → j < n → k < g.sb.blocksize →
    (fb + j) * g.sb.blocksize + k < inode.size → ∀ off off',
    g.map.resolve blk g.sb.blocksize = some off →
      g.map.resolve (blk + j) g.sb.blocksize = some off' →
      off + j * g.sb.blocksize + k < g.dev.fileLen ∧
        g.dev.bytes (off + j * g.sb.blocksize + k) = g.dev.bytes (off' + k)

/-- Byte `p` of the file. -/
def fileByte (g : Gofs) (depth : Nat) (inode : Inode) (p : Nat) : UInt8 :=
  match g.mapLookup depth inode (p / g.sb.blocksize) with
  | .ok (.run blk _) =>
      match g.map.resolve blk g.sb.blocksize with
      | some off => g.dev.bytes (off + p % g.sb.blocksize)
      | none => 0
  | _ => 0

variable {g : Gofs} {depth offset limit pos : Nat} {inode : Inode} {out : Bytes}

/-- The bytes of the file from `pos` to `limit` over what was read before. -/
def fill (g : Gofs) (depth : Nat) (inode : Inode) (offset limit pos : Nat) (out : Bytes) : Bytes :=
  fun i =>
  if pos ≤ offset + i ∧ offset + i < limit then g.fileByte depth inode (offset + i) else out i

theorem fileByte_run {p blk n off : Nat} (found : g.mapLookup depth inode (p / g.sb.blocksize) = .ok
    (.run blk n))
    (place : g.map.resolve blk g.sb.blocksize = some off) :
    g.fileByte depth inode p = g.dev.bytes (off + p % g.sb.blocksize) := by
  simp only [fileByte, found, place]

theorem fileByte_hole {p n : Nat} (found : g.mapLookup depth inode (p / g.sb.blocksize) = .ok
    (.hole n)) :
    g.fileByte depth inode p = 0 := by
  simp only [fileByte, found]

theorem fill_done (done : limit ≤ pos) : g.fill depth inode offset limit pos out = out := by
  funext i
  exact if_neg (by omega)

theorem fill_step {n : Nat} {buf : Bytes} (low : offset ≤ pos) (inside : pos + n ≤ limit)
    (piece : ∀ i < n, buf i = g.fileByte depth inode (pos + i)) :
    g.fill depth inode offset limit (pos + n) (copyAt out (pos - offset) n buf) = g.fill depth inode
    offset limit pos out := by
  funext i
  rw [fill, fill]
  by_cases later : pos + n ≤ offset + i ∧ offset + i < limit
  · rw [if_pos later, if_pos (by omega)]
  · rw [if_neg later]
    by_cases here : pos ≤ offset + i ∧ offset + i < limit
    · rw [if_pos here, copyAt_of_mem (by omega), piece _ (by omega)]
      congr 1
      omega
    · rw [if_neg here, copyAt_of_not_mem (by omega)]

theorem fill_skip {n : Nat}
    (same : ∀ i, pos ≤ offset + i → offset + i < pos + n → offset + i < limit →
    g.fileByte depth inode (offset + i) = out i) :
    g.fill depth inode offset limit (pos + n) out = g.fill depth inode offset limit pos out := by
  funext i
  rw [fill, fill]
  by_cases later : pos + n ≤ offset + i ∧ offset + i < limit
  · rw [if_pos later, if_pos (by omega)]
  · rw [if_neg later]
    by_cases here : pos ≤ offset + i ∧ offset + i < limit
    · rw [if_pos here, same i here.1 (by omega) here.2]
    · rw [if_neg here]

omit [Crc32c] in
theorem ahead {bs : Nat} (block : 0 < bs) (pos i : Nat) :
    (pos + i) / bs = pos / bs + (pos % bs + i) / bs ∧ (pos + i) % bs = (pos % bs + i) % bs := by
  have whole : pos + i = bs * (pos / bs) + (pos % bs + i) := by
    have := Nat.div_add_mod pos bs
    omega
  constructor
  · rw [whole, Nat.mul_add_div block]
  · exact (Nat.mod_add_mod pos bs i).symm

theorem readBlocks_value (mapping : g.FileMapping depth inode) (fuel : Nat) (low : offset ≤ pos)
    (short : limit ≤ inode.size)
    (enough : limit - pos ≤ fuel) :
    g.readBlocks depth inode offset limit fuel pos out = .ok
    (g.fill depth inode offset limit pos out) := by
  induction fuel generalizing pos out with
  | zero =>
      rw [readBlocks, fill_done (by omega)]
  | succ fuel ih =>
      rw [readBlocks]
      split
      · rename_i more
        have block := mapping.block
        have inBlk := Nat.mod_lt pos block
        have start := Nat.div_add_mod' pos g.sb.blocksize
        have within : pos / g.sb.blocksize * g.sb.blocksize < inode.size := by omega
        obtain ⟨m, found⟩ := mapping.found _ within
        have same : ∀ i < min (g.sb.blocksize - pos % g.sb.blocksize) (limit - pos),
            (pos + i) / g.sb.blocksize = pos / g.sb.blocksize ∧
              (pos + i) % g.sb.blocksize = pos % g.sb.blocksize + i := by
          intro i hi
          have inner : pos % g.sb.blocksize + i < g.sb.blocksize := by omega
          obtain ⟨quotient, rest⟩ := ahead block pos i
          exact ⟨by rw [quotient, Nat.div_eq_of_lt inner,
              Nat.add_zero], by rw [rest, Nat.mod_eq_of_lt inner]⟩
        cases m with
        | hole n =>
            have read : g.fileBlock depth inode (pos / g.sb.blocksize) = .ok zeros := by
              rw [fileBlock, found]
              rfl
            rw [read]
            refine (ih (by omega) (by omega)).trans (congrArg
                _ (fill_step low (by omega) fun i hi => ?_))
            rw [fileByte_hole (n := n) (by rw [(same i hi).1]; exact found)]
            rfl
        | run blk n =>
            obtain ⟨off, place, fits⟩ := mapping.resolves _ blk n within found
            have read : g.fileBlock depth inode (pos / g.sb.blocksize) = .ok
                (clip g.sb.blocksize (drop off g.dev.bytes)) := by
              rw [fileBlock, found]
              exact readBlock_value place fits
            rw [read]
            refine (ih (by omega) (by omega)).trans (congrArg
                _ (fill_step low (by omega) fun i hi => ?_))
            rw [fileByte_run (by rw [(same i hi).1]; exact found) place, (same i hi).2]
            exact clip_of_lt _ (by omega)
      · rename_i done
        rw [fill_done (by omega)]

theorem mapLookup_pos {fb blk n : Nat} (found : g.mapLookup depth inode fb = .ok (.run blk n)) :
    0 < n :=
  (Work.mapLookup_len found).resolve_right fun behind => by cases behind.2

omit [Crc32c] in
theorem behind {bs : Nat} (block : 0 < bs) (fb t : Nat) :
    (fb * bs + t) / bs = fb + t / bs ∧ (fb * bs + t) % bs = t % bs ∧
    (fb + t / bs) * bs + t % bs = fb * bs + t := by
  refine ⟨?_, ?_, ?_⟩
  · rw [Nat.mul_comm, Nat.mul_add_div block]
  · rw [Nat.mul_comm, Nat.mul_add_mod]
  · rw [Nat.add_mul, Nat.add_assoc, Nat.div_add_mod']

theorem FileMapping.hole_byte (mapping : g.FileMapping depth inode) {fb n t : Nat}
    (found : g.mapLookup depth inode fb = .ok (.hole n))
    (within : t < g.sb.blocksize ∨ t < n * g.sb.blocksize)
    (inside : fb * g.sb.blocksize + t < inode.size) :
    g.fileByte depth inode (fb * g.sb.blocksize + t) = 0 := by
  obtain ⟨quotient, -, whole⟩ := behind mapping.block fb t
  by_cases first : t / g.sb.blocksize = 0
  · rw [first, Nat.add_zero] at quotient
    exact fileByte_hole (n := n) (by rw [quotient]; exact found)
  · have row : t / g.sb.blocksize < n := by
      refine Nat.div_lt_of_lt_mul ?_
      rw [Nat.mul_comm]
      exact within.resolve_left fun short => first (Nat.div_eq_of_lt short)
    obtain ⟨m, found'⟩ := mapping.hole fb n _ found row (by omega)
    exact fileByte_hole (n := m) (by rw [quotient]; exact found')

theorem Straight.run_byte (mapping : g.FileMapping depth inode) (straight : g.Straight depth inode)
    {fb blk n off t : Nat}
    (found : g.mapLookup depth inode fb = .ok (.run blk n))
    (place : g.map.resolve blk g.sb.blocksize = some off)
    (within : t < n * g.sb.blocksize) (inside : fb * g.sb.blocksize + t < inode.size) :
    off + t < g.dev.fileLen ∧ g.dev.bytes (off + t) = g.fileByte depth inode
    (fb * g.sb.blocksize + t) := by
  obtain ⟨quotient, rest, whole⟩ := behind mapping.block fb t
  have row : t / g.sb.blocksize < n := Nat.div_lt_of_lt_mul (by rw [Nat.mul_comm]; exact within)
  have column := Nat.mod_lt t mapping.block
  obtain ⟨m, found'⟩ := mapping.run fb blk n _ found row (by omega)
  obtain ⟨off', place', -⟩ := mapping.resolves _ _ m (by omega) found'
  obtain ⟨reached, same⟩ := straight fb blk n _ _ found row column (by omega) off off' place place'
  have split := Nat.div_add_mod' t g.sb.blocksize
  have sum : off + t / g.sb.blocksize * g.sb.blocksize + t % g.sb.blocksize = off + t := by omega
  rw [sum] at reached same
  refine ⟨reached, ?_⟩
  rw [same, fileByte_run (by rw [quotient]; exact found') place', rest]

theorem readRuns_done {fuel : Nat} (done : limit ≤ pos) :
    g.readRuns depth inode offset limit fuel pos out = .ok out := by
  cases fuel with
  | zero => rfl
  | succ fuel => exact if_neg (by omega)

/-- Reading by runs delivers the same when the runs lie straight. -/
theorem readRuns_value (mapping : g.FileMapping depth inode) (straight : g.Straight depth inode)
    (fuel : Nat)
    (low : offset ≤ pos) (short : limit ≤ inode.size) (enough : limit - pos ≤ fuel)
    (blank : ∀ i, pos ≤ offset + i → out i = 0) :
    g.readRuns depth inode offset limit fuel pos out = .ok
    (g.fill depth inode offset limit pos out) := by
  induction fuel generalizing pos out with
  | zero => rw [readRuns, fill_done (by omega)]
  | succ fuel ih =>
      rw [readRuns]
      dsimp only
      split
      · rename_i more
        have block := mapping.block
        have inBlk := Nat.mod_lt pos block
        have start := Nat.div_add_mod' pos g.sb.blocksize
        have within : pos / g.sb.blocksize * g.sb.blocksize < inode.size := by omega
        obtain ⟨m, found⟩ := mapping.found _ within
        cases m with
        | hole n =>
            simp only [found]
            refine (ih (by omega) (by omega) fun i behind => blank i (by omega)).trans
                (congrArg _ (fill_skip ?_))
            intro i behind reached inside
            have place : offset + i =
                pos / g.sb.blocksize * g.sb.blocksize +
                (pos % g.sb.blocksize + (offset + i - pos)) := by omega
            rw [blank i behind, place]
            exact mapping.hole_byte found (by omega) (by omega)
        | run blk n =>
            obtain ⟨off, place, fits⟩ := mapping.resolves _ blk n within found
            have some_block : 1 * g.sb.blocksize ≤ n * g.sb.blocksize :=
                Nat.mul_le_mul_right _ (mapLookup_pos found)
            have phys : (resolve blk g).1 = .ok off := by
              simp only [resolve, bind_run, get_run, place, pure_run]
            obtain ⟨take, piece⟩ : ∃ take, min (n * g.sb.blocksize - pos % g.sb.blocksize)
                (limit - pos) = take := ⟨_, rfl⟩
            have byte : ∀ i < take, off + pos % g.sb.blocksize + i < g.dev.fileLen ∧
                g.dev.bytes (off + pos % g.sb.blocksize + i) = g.fileByte depth inode
                (pos + i) := by
              intro i hi
              obtain ⟨reached, same⟩ := straight.run_byte mapping found place
                  (t := pos % g.sb.blocksize + i) (by omega) (by omega)
              rw [← Nat.add_assoc] at reached same
              refine ⟨reached, same.trans ?_⟩
              congr 1
              omega
            have reached := (byte (take - 1) (by omega)).1
            have read : (pread (off + pos % g.sb.blocksize) take g).1 =
                .ok (clip take (drop (off + pos % g.sb.blocksize) g.dev.bytes)) := by
              rw [pread, Device.pread_ok (by omega)]
              rfl
            have filled : g.fill depth inode offset limit (pos + take)
                (copyAt out (pos - offset) take
                (clip take (drop (off + pos % g.sb.blocksize) g.dev.bytes))) = g.fill depth inode
                offset limit pos out := by
              refine fill_step low (by omega) fun i hi => ?_
              rw [clip_of_lt _ hi, drop, (byte i hi).2]
            have later := @ih _ (copyAt out (pos - offset) take
                (clip take (drop (off + pos % g.sb.blocksize) g.dev.bytes)))
              (Nat.le_trans low (Nat.le_add_right pos take)) (by omega) fun i behind => by
                rw [copyAt_of_not_mem (by omega), blank i (by omega)]
            rw [filled] at later
            rw [found, ← later]
            show ((resolve blk g).1 >>= _) = _
            rw [phys]
            show ((pread (off + pos % g.sb.blocksize)
                (min (n * g.sb.blocksize - pos % g.sb.blocksize) (limit - pos)) g).1 >>= _) = _
            rw [piece, read]
            rfl
      · rename_i done
        rw [fill_done (by omega)]

theorem FileMapping.reads (mapping : g.FileMapping depth inode) {n : Nat}
    (more : offset < inode.size) (len : Nat)
    (clipped : min len (inode.size - offset) = n) :
    (g.readInodeData depth inode offset len = do
      let out ← g.readRuns depth inode offset (offset + n) n offset zeros
      .ok (n, out)) ∧
    g.readBlockwise depth inode offset len = .ok
        (n, g.fill depth inode offset (offset + n) offset zeros) := by
  have other : inode.format ≠ FMT_EMPTY ∧ inode.format ≠ FMT_EMBED := by
    rcases mapping.format with format | format <;> rw [format] <;> decide
  constructor
  · rw [readInodeData, if_neg (by omega)]
    dsimp only
    rw [if_neg other.1, if_neg other.2, if_pos mapping.format, clipped]
  · rw [readBlockwise, if_neg (by omega)]
    dsimp only
    rw [clipped, readBlocks_value mapping n (Nat.le_refl offset) (by omega) (by omega)]
    rfl

theorem straight_of_same (mapping : g.FileMapping depth inode)
    (same : ∀ offset len, g.readInodeData depth inode offset len = g.readBlockwise depth inode
    offset len) :
    g.Straight depth inode := by
  intro fb blk n j k found row column inside off off' place place'
  have block := mapping.block
  have apart := Nat.add_mul fb j g.sb.blocksize
  obtain ⟨m, found'⟩ := mapping.run fb blk n j found row (by omega)
  -- a read of the run from its first block up to the byte
  obtain ⟨len, size⟩ : ∃ len, len = j * g.sb.blocksize + k + 1 := ⟨_, rfl⟩
  obtain ⟨runs, blocks⟩ := mapping.reads (n := len) (by omega : fb * g.sb.blocksize < inode.size)
      len (by omega)
  have both := same (fb * g.sb.blocksize) len
  rw [runs, blocks] at both
  obtain ⟨out, run, equal⟩ := bind_inv both
  have delivered : out = g.fill depth inode (fb * g.sb.blocksize) (fb * g.sb.blocksize + len)
      (fb * g.sb.blocksize) zeros :=
    (Prod.mk.inj (Except.ok.inj equal)).2
  have rows : (j + 1) * g.sb.blocksize ≤ n * g.sb.blocksize := Nat.mul_le_mul_right _ row
  rw [Nat.succ_mul] at rows
  have piece : min (n * g.sb.blocksize - 0) (fb * g.sb.blocksize + len - fb * g.sb.blocksize) =
      len := by omega
  have phys : (resolve blk g).1 = .ok off := by
    simp only [resolve, bind_run, get_run, place, pure_run]
  rw [size, readRuns, ← size] at run
  dsimp only at run
  rw [if_pos (by omega), Nat.mul_div_cancel fb block, Nat.mul_mod_left, found] at run
  obtain ⟨_, got, run⟩ := bind_inv run
  cases got
  obtain ⟨_, got, run⟩ := bind_inv run
  rw [phys] at got
  cases got
  obtain ⟨buf, got, run⟩ := bind_inv run
  rw [piece] at got run
  rw [readRuns_done (Nat.le_refl _)] at run
  have inner : off + 0 + len ≤ g.dev.fileLen ∧ buf = clip len (drop (off + 0) g.dev.bytes) := by
    rw [pread, Device.pread] at got
    split at got
    · cases got
      exact ⟨‹_›, rfl⟩
    · cases got
  obtain ⟨reached, rfl⟩ := inner
  refine ⟨by omega, ?_⟩
  obtain ⟨quotient, rest, -⟩ := behind block fb (j * g.sb.blocksize + k)
  have here : (j * g.sb.blocksize + k) / g.sb.blocksize = j := by
    rw [Nat.mul_comm, Nat.mul_add_div block, Nat.div_eq_of_lt column, Nat.add_zero]
  have there : (j * g.sb.blocksize + k) % g.sb.blocksize = k := by
    rw [Nat.mul_comm, Nat.mul_add_mod, Nat.mod_eq_of_lt column]
  have byte := congrFun (Except.ok.inj run) (j * g.sb.blocksize + k)
  rw [delivered, copyAt_of_mem (by omega), fill, if_pos (by omega),
      fileByte_run (by rw [quotient, here]; exact found') place',
    rest, there, clip_of_lt _ (by omega), drop] at byte
  rw [← byte]
  congr 1
  omega

theorem straight_of_rows (rows : ∀ fb blk n j off, g.mapLookup depth inode fb = .ok (.run blk n) →
    j < n →
    g.map.resolve blk g.sb.blocksize = some off →
    g.map.resolve (blk + j) g.sb.blocksize = some (off + j * g.sb.blocksize) ∧
      off + j * g.sb.blocksize + g.sb.blocksize ≤ g.dev.fileLen) : g.Straight depth inode := by
  intro fb blk n j k found row column _ off off' place place'
  obtain ⟨next, reached⟩ := rows fb blk n j off found row place
  rw [next] at place'
  cases place'
  exact ⟨by omega, rfl⟩

theorem FileMapping.of_extents (format : inode.format = FMT_EXTENT) (block : 0 < g.sb.blocksize)
    (apart : (extentsParse inode.payload).Pairwise Extent.Apart)
    (short : ∀ e ∈ extentsParse inode.payload, e.blk + e.blocks ≤ 2 ^ 64)
    (resolves : ∀ e ∈ extentsParse inode.payload, ∀ j < e.blocks, ∃ off,
      g.map.resolve (e.blk + j) g.sb.blocksize = some off ∧ off + g.sb.blocksize ≤ g.dev.fileLen) :
    g.FileMapping depth inode := by
  have look : ∀ fb, g.mapLookup depth inode fb = extentLookup fb (extentsParse inode.payload)
      U64_MAX := by
    intro fb
    rw [mapLookup, Work.mapLookup, if_neg (by rw [format]; decide), if_pos format]
  have cases' : ∀ fb, (∃ e ∈ extentsParse inode.payload, e.Maps fb ∧
      g.mapLookup depth inode fb = .ok (.run (e.blk + (fb - e.fileBlock))
      (e.blocks - (fb - e.fileBlock)))) ∨
      (∃ n, g.mapLookup depth inode fb = .ok (.hole (n - fb)) ∧
        ∀ e ∈ extentsParse inode.payload, ¬ e.Maps fb ∧ (fb < e.fileBlock → n ≤ e.fileBlock)) := by
    intro fb
    by_cases some : ∃ e ∈ extentsParse inode.payload, e.Maps fb
    · obtain ⟨e, member, maps⟩ := some
      refine .inl ⟨e, member, maps, ?_⟩
      rw [look, extentLookup_in apart member maps (short e member)]
    · have none' : ∀ e ∈ extentsParse inode.payload, ¬ e.Maps fb :=
          fun e member maps => some ⟨e, member, maps⟩
      obtain ⟨n, found, starts⟩ := @extentLookup_out _ _ U64_MAX none'
      refine .inr ⟨n, ?_, fun e member => ⟨none' e member, starts e member⟩⟩
      rw [look, found]
  refine ⟨.inl format, block, fun fb _ => ?_, fun fb blk n j found inside _ => ?_,
      fun fb n j found inside _ => ?_,
    fun fb blk n _ found => ?_⟩
  · rcases cases' fb with ⟨e, -, -, found⟩ | ⟨n, found, -⟩
    · exact ⟨_, found⟩
    · exact ⟨_, found⟩
  · rcases cases' fb with ⟨e, member, maps, found'⟩ | ⟨m, found', -⟩
    · rw [found'] at found
      cases found
      obtain ⟨low, high⟩ := maps
      refine ⟨e.blocks - (fb + j - e.fileBlock), ?_⟩
      rw [look, extentLookup_in apart member ⟨by omega, by omega⟩ (short e member)]
      congr 2
      omega
    · rw [found'] at found
      cases found
  · rcases cases' fb with ⟨e, -, -, found'⟩ | ⟨m, found', outside⟩
    · rw [found'] at found
      cases found
    · rw [found'] at found
      cases found
      rcases cases' (fb + j) with ⟨e, member, ⟨low, high⟩, -⟩ | ⟨m', found'', -⟩
      · obtain ⟨out, starts⟩ := outside e member
        rw [Extent.Maps] at out
        omega
      · exact ⟨_, found''⟩
  · rcases cases' fb with ⟨e, member, ⟨low, high⟩, found'⟩ | ⟨m, found', -⟩
    · rw [found'] at found
      cases found
      exact resolves e member _ (by omega)
    · rw [found'] at found
      cases found

theorem FileMapping.of_tree {c : Nat} (format : inode.format = FMT_TREE)
    (block : 0 < g.sb.blocksize)
    (covers : cov (rootLevel inode.payload) = .ok c) (some_blocks : 0 < c)
    (fits : ∀ i < ROOT_FANOUT, ChildFits (rootState inode.payload i) (rootChild inode.payload i) c
      (Work.Spans { fs := g } depth (rootChild inode.payload i).2 c))
    (resolves : ∀ fb blk n, fb * g.sb.blocksize < inode.size →
        g.mapLookup depth inode fb = .ok (.run blk n) →
      ∃ off, g.map.resolve blk g.sb.blocksize = some off ∧ off + g.sb.blocksize ≤ g.dev.fileLen) :
    g.FileMapping depth inode := by
  have tree : Coherent (g.mapLookup depth inode) (ROOT_FANOUT * c) :=
    Work.mapLookup_coherent format covers some_blocks fits
  have past : ∀ fb, ROOT_FANOUT * c ≤ fb → g.mapLookup depth inode fb = .ok (.hole U64_MAX) :=
    fun fb => Work.mapLookup_behind format covers some_blocks
  refine ⟨.inr format, block, fun fb _ => ?_, fun fb blk n j found inside _ => ?_,
      fun fb n j found inside _ => ?_, resolves⟩
  · by_cases early : fb < ROOT_FANOUT * c
    · exact tree.found fb early
    · exact ⟨_, past fb (by omega)⟩
  · by_cases early : fb < ROOT_FANOUT * c
    · exact ⟨_, (tree.run fb early blk n found).2 j inside⟩
    · rw [past fb (by omega)] at found
      cases found
  · by_cases early : fb < ROOT_FANOUT * c
    · exact ⟨_, (tree.hole fb early n found).2 j inside⟩
    · exact ⟨_, past (fb + j) (by omega)⟩

end Gofs

/-- A file of two blocks, mapped by one inline extent. -/
def pairInode (blk : Nat) : Inode :=
  { format := FMT_EXTENT, size := 4096, payload := putExtents zeros 0 [⟨0, blk, 2⟩] }

/-- AG 1 is in two segments, and the second one starts with a block of ones. -/
def splitVolume : Gofs := { stripedVolume with
  dev := { stripedVolume.dev with bytes := fun i => if 12582912 ≤ i ∧
  i < 12582912 + 2048 then 1 else 0 }
  map := {
    gen := 2
    entries := [⟨AGF_PRESENT ||| AGF_IMMOVABLE, 4096, [⟨0, 4096, 0⟩]⟩,
      ⟨AGF_PRESENT, 2048, [⟨0, 1024, 8388608⟩, ⟨1024, 1024, 12582912⟩]⟩] } }

section Pair

variable [Crc32c] {g : Gofs} {blk off off' : Nat}

theorem pair_lookup (stored : extentsParse (pairInode blk).payload = [⟨0, blk, 2⟩])
    (short : blk + 2 ≤ 2 ^ 64) (fb : Nat) :
    g.mapLookup 0 (pairInode blk) fb = .ok (if fb < 2 then .run (blk + fb) (2 - fb) else .hole
    (U64_MAX - fb)) := by
  have format : (pairInode blk).format = FMT_EXTENT := rfl
  rw [Gofs.mapLookup, Work.mapLookup, if_neg (by rw [format]; decide), if_pos format, stored,
      extentLookup]
  by_cases inside : fb < 2
  · rw [if_pos ⟨Nat.zero_le fb, by dsimp only; omega⟩, Coherent.addU64_ok (by dsimp only; omega),
        if_pos inside]
    rfl
  · rw [if_neg (by dsimp only; omega), if_neg inside, if_neg (by dsimp only; omega)]
    rfl

theorem pair_mapping (stored : extentsParse (pairInode blk).payload = [⟨0, blk, 2⟩])
    (short : blk + 2 ≤ 2 ^ 64)
    (block : 0 < g.sb.blocksize) (first : g.map.resolve blk g.sb.blocksize = some off)
    (second : g.map.resolve (blk + 1) g.sb.blocksize = some off')
    (inside : off + g.sb.blocksize ≤ g.dev.fileLen)
    (inside' : off' + g.sb.blocksize ≤ g.dev.fileLen) : g.FileMapping 0 (pairInode blk) := by
  refine .of_extents rfl block ?_ ?_ ?_
  · rw [stored]
    exact List.pairwise_singleton _ _
  · rw [stored]
    intro e member
    cases List.mem_singleton.mp member
    exact short
  · rw [stored]
    intro e member j hj
    cases List.mem_singleton.mp member
    have either : j = 0 ∨ j = 1 := by
      dsimp only at hj
      omega
    rcases either with rfl | rfl
    · exact ⟨off, first, inside⟩
    · exact ⟨off', second, inside'⟩

end Pair

/-- The second block of the file is of ones, and the read returns what lies behind the first
segment. -/
theorem read_crosses_segment : (∃ b, @AgMap.parse castagnoli b 65536 = .ok splitVolume.map) ∧
    @Gofs.FileMapping castagnoli splitVolume 0 (pairInode (blkAddr 1 1023)) ∧
      @Gofs.readInodeData castagnoli splitVolume 0 (pairInode (blkAddr 1 1023)) 0 4096 ≠
        @Gofs.readBlockwise castagnoli splitVolume 0 (pairInode (blkAddr 1 1023)) 0 4096 := by
  let crc := castagnoli
  refine ⟨?_, pair_mapping (by decide) (by decide) (by decide)
    (by decide : _ = some (8388608 + 1023 * 2048)) (by decide : _ = some 12582912) (by decide)
    (by decide), fun same => ?_⟩
  · have fits : splitVolume.map.Fits := by
      refine ⟨by decide, by decide, fun e member => ?_⟩
      rcases List.mem_cons.mp member with rfl | later
      · refine ⟨by decide, by decide, by decide, fun s hs => ?_⟩
        cases List.mem_singleton.mp hs
        exact ⟨by decide, by decide, by decide⟩
      · cases List.mem_singleton.mp later
        refine ⟨by decide, by decide, by decide, fun s hs => ?_⟩
        rcases List.mem_cons.mp hs with rfl | last
        · exact ⟨by decide, by decide, by decide⟩
        · cases List.mem_singleton.mp last
          exact ⟨by decide, by decide, by decide⟩
    obtain ⟨b, stored⟩ : ∃ b, splitVolume.map.toBytes 65536 = .ok b := ⟨_, rfl⟩
    exact ⟨_, AgMap.parse_toBytes fits (by decide) (by decide) stored⟩
  · have runs : (Gofs.readInodeData splitVolume 0 (pairInode (blkAddr 1 1023)) 0 4096).map
        (fun r => r.2 2048) = .ok 0 := by
      decide +kernel
    have blocks : (Gofs.readBlockwise splitVolume 0 (pairInode (blkAddr 1 1023)) 0 4096).map
        (fun r => r.2 2048) = .ok 1 := by
      decide +kernel
    rw [same, blocks] at runs
    cases runs

/-- Reading by runs returns the same as reading block by block exactly when the runs lie straight.
-/
theorem Gofs.readInodeData_iff [Crc32c] {g : Gofs} {depth : Nat} {inode : Inode}
    (mapping : g.FileMapping depth inode) :
    (∀ offset len, g.readInodeData depth inode offset len = g.readBlockwise depth inode offset
    len) ↔
      g.Straight depth inode := by
  refine ⟨Gofs.straight_of_same mapping, fun straight offset len => ?_⟩
  by_cases more : offset < inode.size
  · obtain ⟨runs, blocks⟩ := mapping.reads more len rfl
    have value := Gofs.readRuns_value mapping straight (min len (inode.size - offset))
        (Nat.le_refl offset)
      (by omega : offset + min len (inode.size - offset) ≤ inode.size) (by omega) fun i _ =>
      (rfl : zeros i = 0)
    rw [runs, blocks, value]
    rfl
  · rw [Gofs.readInodeData, Gofs.readBlockwise, if_pos (by omega), if_pos (by omega)]

/-- A file in an AG of one segment reads the same either way. -/
theorem readInodeData_same_stripes :
    @Gofs.readInodeData castagnoli stripedVolume 0 (pairInode (blkAddr 1 255)) 100 3000 =
      @Gofs.readBlockwise castagnoli stripedVolume 0 (pairInode (blkAddr 1 255)) 100 3000 := by
  let crc := castagnoli
  have stored : extentsParse (pairInode (blkAddr 1 255)).payload = [⟨0, blkAddr 1 255, 2⟩] := by
    decide
  have first : stripedVolume.map.resolve (blkAddr 1 255) 2048 = some (8388608 + 255 * 2048) := by
    decide
  have second : stripedVolume.map.resolve (blkAddr 1 255 + 1) 2048 = some
      (8388608 + 256 * 2048) := by decide
  have mapping : stripedVolume.FileMapping 0 (pairInode (blkAddr 1 255)) :=
    pair_mapping stored (by decide) (by decide) first second (by decide) (by decide)
  refine (Gofs.readInodeData_iff mapping).mpr (Gofs.straight_of_rows
      fun fb blk n j off found row place => ?_) 100 3000
  rw [pair_lookup stored (by decide)] at found
  split at found
  · cases found
    have either : fb = 0 ∧ j = 0 ∨ fb = 0 ∧ j = 1 ∨ fb = 1 ∧ j = 0 := by omega
    rcases either with ⟨rfl, rfl⟩ | ⟨rfl, rfl⟩ | ⟨rfl, rfl⟩
    · cases first.symm.trans place
      exact ⟨first, by decide⟩
    · cases first.symm.trans place
      exact ⟨second, by decide⟩
    · cases second.symm.trans place
      exact ⟨second, by decide⟩
  · cases found

end FiveFs

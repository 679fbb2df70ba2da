import FiveFs.Extents

/-! Storing and parsing the checked structures: a value that is stored is the value that is parsed,
and an AG map is stored exactly when its entries fit the copy. -/

namespace FiveFs

open Buffer

/-- `b[off..off + n].copy_from_slice(..)` on a slice of `capacity` bytes. -/
def putIn (capacity n : Nat) (b : Bytes) (off v : Nat) : Except Err Bytes :=
  if off + n ≤ capacity then .ok (putBE n b off v) else .error
  (.panic "range end index out of range")

@[simp] theorem ok_bind {ε α β : Type} (a : α) (f : α → Except ε β) : (Except.ok a >>= f) = f a :=
    rfl

theorem putIn_ok {capacity n off : Nat} (inside : off + n ≤ capacity) (b : Bytes) (v : Nat) :
    putIn capacity n b off v = .ok (putBE n b off v) := if_pos inside

namespace AgMap

/-- Every field has a value of its width. -/
structure Typed (m : AgMap) : Prop where
  gen : m.gen < 2 ^ 64
  flags : ∀ e ∈ m.entries, e.flags < 2 ^ 16
  length : ∀ e ∈ m.entries, e.length < 2 ^ 32
  segs : ∀ e ∈ m.entries, ∀ s ∈ e.segs, SegFits s

/-- Bytes that entries take. -/
def room (entries : List AgEntry) : Nat := (entries.map fun e => 8 + e.segs.length * 16).sum

@[simp] theorem room_cons (e : AgEntry) (rest : List AgEntry) :
    room (e :: rest) = 8 + e.segs.length * 16 + room rest := by
  simp [room]

def used (m : AgMap) : Nat := AGMAP_HDR + room m.entries

def putSegsIn (capacity : Nat) : Bytes → Nat → List AgSegment → Except Err Bytes
  | b, _, [] => .ok b
  | b, off, s :: rest => do
      let b ← putIn capacity 4 b off s.agBlock
      let b ← putIn capacity 4 b (off + 4) s.blocks
      let b ← putIn capacity 8 b (off + 8) s.devOffset
      putSegsIn capacity b (off + 16) rest

def putEntriesIn (capacity : Nat) : Bytes → Nat → List AgEntry → Except Err (Bytes × Nat)
  | b, off, [] => .ok (b, off)
  | b, off, e :: rest =>
      if off + 8 + e.segs.length * 16 > capacity then .error (.bail "ag map: capacity exceeded")
      else do
        let b ← putIn capacity 2 b off e.flags
        let b ← putIn capacity 2 b (off + 2) e.segs.length
        let b ← putIn capacity 4 b (off + 4) e.length
        let b ← putSegsIn capacity b (off + 8) e.segs
        putEntriesIn capacity b (off + 8 + e.segs.length * 16) rest

/-- `to_bytes` with the bounds checks of its stores and of `b[..off]`. -/
def store [Crc32c] (m : AgMap) (capacity : Nat) : Except Err Bytes := do
  let b ← putIn capacity 4 zeros 0 AGMAP_MAGIC
  let b ← putIn capacity 8 b 8 m.gen
  let b ← putIn capacity 4 b 16 m.entries.length
  let (b, off) ← putEntriesIn capacity b AGMAP_HDR m.entries
  let b ← putIn capacity 4 b 20 off
  if off > capacity then throw (.panic "range end index out of range")
  putIn capacity 4 b 4 (csum b off 4)

theorem putSegsIn_ok {capacity off : Nat} {segs : List AgSegment}
    (inside : off + segs.length * 16 ≤ capacity)
    (b : Bytes) : putSegsIn capacity b off segs = .ok (putSegs b off segs) := by
  induction segs generalizing b off with
  | nil => rfl
  | cons s rest ih =>
      rw [List.length_cons] at inside
      rw [putSegsIn, putIn_ok (by omega), ok_bind, putIn_ok (by omega), ok_bind,
          putIn_ok (by omega),
        ok_bind, ih (by omega)]
      rfl

theorem putEntriesIn_eq {capacity off : Nat} (b : Bytes) (entries : List AgEntry) :
    putEntriesIn capacity b off entries = (putEntries capacity b off entries).mapError .bail := by
  induction entries generalizing b off with
  | nil => rfl
  | cons e rest ih =>
      rw [putEntriesIn, putEntries]
      split
      · rfl
      · rw [putIn_ok (by omega), ok_bind, putIn_ok (by omega), ok_bind, putIn_ok (by omega),
          ok_bind, putSegsIn_ok (by omega), ok_bind, ih]
        rfl

theorem putEntries_fits {capacity off : Nat} (inside : off ≤ capacity) (b : Bytes)
    (entries : List AgEntry) :
    (off + room entries ≤ capacity ∧ ∃ b', putEntries capacity b off entries = .ok
    (b', off + room entries)) ∨
    (capacity < off + room entries ∧ putEntries capacity b off entries = .error
    "ag map: capacity exceeded") := by
  induction entries generalizing b off with
  | nil => exact Or.inl ⟨inside, b, rfl⟩
  | cons e rest ih =>
      rw [putEntries, room_cons]
      by_cases over_ : off + 8 + e.segs.length * 16 > capacity
      · exact Or.inr ⟨by omega, if_pos over_⟩
      · rw [if_neg over_, ← Nat.add_assoc, ← Nat.add_assoc]
        exact ih (by omega) _

theorem store_eq [Crc32c] (m : AgMap) {capacity : Nat} (header : AGMAP_HDR ≤ capacity) :
    m.store capacity = (m.toBytes capacity).mapError .bail := by
  have hdr : AGMAP_HDR = 24 := rfl
  rw [store, putIn_ok (by omega), ok_bind, putIn_ok (by omega), ok_bind, putIn_ok (by omega),
    ok_bind, putEntriesIn_eq, toBytes]
  rcases putEntries_fits header (putU32 (putU64 (putU32 zeros 0 AGMAP_MAGIC) 8 m.gen) 16
      m.entries.length) m.entries with
    ⟨fits, b, placed⟩ | ⟨_, refused⟩
  · have within : ¬ AGMAP_HDR + room m.entries > capacity := by omega
    simp only [putU32, putU64] at placed ⊢
    simp only [placed, Except.mapError, ok_bind, putIn_ok (show 20 + 4 ≤ capacity by omega),
        if_neg within,
      putIn_ok (show 4 + 4 ≤ capacity by omega)]
    rfl
  · simp only [putU32, putU64] at refused ⊢
    simp only [refused]
    rfl

theorem toBytes_error [Crc32c] (m : AgMap) {capacity : Nat} (header : AGMAP_HDR ≤ capacity) :
    (∃ e, m.toBytes capacity = .error e) ↔ capacity < m.used := by
  rw [used, toBytes]
  rcases putEntries_fits header (putU32 (putU64 (putU32 zeros 0 AGMAP_MAGIC) 8 m.gen) 16
      m.entries.length) m.entries with
    ⟨fits, b, placed⟩ | ⟨over_, refused⟩
  · simp only [placed]
    constructor
    · rintro ⟨_, h⟩
      cases h
    · omega
  · simp only [refused]
    exact ⟨fun _ => over_, fun _ => ⟨_, rfl⟩⟩

theorem room_mem {entries : List AgEntry} {e : AgEntry} (member : e ∈ entries) :
    8 + e.segs.length * 16 ≤ room entries := by
  obtain ⟨before, after, rfl⟩ := List.append_of_mem member
  simp [room]
  omega

theorem length_le_room (entries : List AgEntry) : entries.length * 8 ≤ room entries := by
  induction entries with
  | nil => exact Nat.zero_le _
  | cons e rest ih =>
      rw [List.length_cons, room_cons]
      omega

theorem Typed.fits [Crc32c] {m : AgMap} (typed : m.Typed) {b : Bytes}
    (run : m.toBytes 65536 = .ok b) : m.Fits := by
  have hdr : AGMAP_HDR = 24 := rfl
  have small : m.used ≤ 65536 := by
    by_contra large
    obtain ⟨e, refused⟩ := (toBytes_error m (by decide)).mpr (Nat.lt_of_not_le large)
    rw [run] at refused
    cases refused
  rw [used] at small
  have count := length_le_room m.entries
  refine ⟨typed.gen, by omega, fun e member => ⟨typed.flags e member, typed.length e member, ?_,
      typed.segs e member⟩⟩
  have segs := room_mem member
  omega

end AgMap

/-- Every field has a value of its width. -/
structure Extent.Fits (e : Extent) : Prop where
  fileBlock : e.fileBlock < 2 ^ 64
  blk : e.blk < 2 ^ 64
  blocks : e.blocks < 2 ^ 32

theorem putExtents_of_not_mem (xs : List Extent) (b : Bytes) {off i : Nat}
    (h : i < off ∨ off + xs.length * 20 ≤ i) : putExtents b off xs i = b i := by
  induction xs generalizing b off with
  | nil => rfl
  | cons e rest ih =>
      rw [List.length_cons] at h
      rw [putExtents, EXTENT_REC, ih _ (by omega)]
      simp (disch := omega) only [putU32, putU64, putBE_of_not_mem]

theorem extentsParseFrom_putExtents {xs : List Extent} (fits : ∀ e ∈ xs, e.Fits)
    (some_ : ∀ e ∈ xs, 0 < e.blocks)
    (b p : Bytes) {off n : Nat} (count : xs.length ≤ n)
    (same : ∀ i, off ≤ i → i < off + xs.length * 20 → p i = putExtents b off xs i)
    (clear : xs.length < n → getU32 p (off + xs.length * 20 + 16) = 0) :
    extentsParseFrom p n off = xs := by
  induction xs generalizing b off n with
  | nil =>
      cases n with
      | zero => rfl
      | succ n =>
          rw [extentsParseFrom]
          exact if_pos (by simpa using clear (Nat.succ_pos n))
  | cons e rest ih =>
      rw [List.length_cons] at count same clear
      obtain ⟨n, rfl⟩ : ∃ k, n = k + 1 := ⟨n - 1, by omega⟩
      obtain ⟨fileBlock, blk, blocks⟩ := fits e List.mem_cons_self
      have positive := some_ e List.mem_cons_self
      have rec_ : EXTENT_REC = 20 := rfl
      have field : ∀ k m, k + m ≤ 20 → getBE p (off + k) m =
          getBE (putU32 (putU64 (putU64 b off e.fileBlock) (off + 8) e.blk) (off + 16) e.blocks)
          (off + k) m := by
        intro k m small
        apply getBE_congr
        intro i hi
        rw [same _ (by omega) (by omega), putExtents, EXTENT_REC,
            putExtents_of_not_mem _ _ (Or.inl (by omega))]
      have first := field 0 8 (by decide)
      have second := field 8 8 (by decide)
      have third := field 16 4 (by decide)
      simp (disch := omega) only [putU32, putU64, getBE_putBE_disjoint, getBE_putBE, Nat.add_zero,
        Nat.reducePow, Nat.mod_eq_of_lt] at first second third
      have tail := ih (fun e' member => fits e' (List.mem_cons_of_mem _ member))
        (fun e' member => some_ e' (List.mem_cons_of_mem _ member)) _ (Nat.le_of_succ_le_succ count)
        (fun i low high => same i (by omega) (by omega))
        (fun short => by
          have after := clear (by omega)
          rwa [show off + (rest.length + 1) * 20 + 16 = off + EXTENT_REC + rest.length * 20 +
              16 by omega] at after)
      rw [extentsParseFrom, getU32, getU64, getU64, first, second, third, if_neg (by omega), tail]

theorem extentsParse_extentsStore {xs : List Extent} (fits : ∀ e ∈ xs, e.Fits)
    (some_ : ∀ e ∈ xs, 0 < e.blocks)
    (short : xs.length ≤ MAX_INLINE_EXTENTS) :
    ∃ p, extentsStore xs = .ok p ∧ extentsParse (clip INODE_PAYLOAD p) = xs := by
  have max : MAX_INLINE_EXTENTS = 6 := rfl
  have record : EXTENT_REC = 20 := rfl
  have payload : INODE_PAYLOAD = 128 := rfl
  refine ⟨putExtents zeros 0 xs, if_neg (by omega), ?_⟩
  apply extentsParseFrom_putExtents fits some_ zeros _ short
  · intro i _ inside
    exact clip_of_lt _ (by omega)
  · intro less
    have clear : ∀ i < 4, putExtents zeros 0 xs (0 + xs.length * 20 + 16 + i) = zeros (0 + i) := by
      intro i _
      rw [putExtents_of_not_mem _ _ (Or.inr (by omega))]
      rfl
    rw [getU32, getBE_clip _ (by omega), getBE_congr clear, getBE_zeros]

/-- Every structure is parsed as it was stored, from the bytes of its array alone; an AG map is
refused exactly when its entries do not fit the capacity, and no store of it is out of bounds. -/
theorem structures_round_trip [Crc32c] :
    (∀ sb : Superblock, sb.Fits → Superblock.parse (clip SB_SIZE sb.toBytes) = .ok sb) ∧
    (∀ h : AgHeader, h.Fits → AgHeader.parse (clip AGHDR_SIZE h.toBytes) = .ok h) ∧
    (∀ i : Inode, i.Fits → Inode.parse (clip INODE_SIZE i.toBytes) INODE_SIZE = .ok i) ∧
    (∀ m : AgMap, m.Typed → ∀ b, m.toBytes 65536 = .ok b →
    AgMap.parse (clip 65536 b) 65536 = .ok m) ∧
    (∀ m : AgMap, ∀ capacity, AGMAP_HDR ≤ capacity →
    m.store capacity = (m.toBytes capacity).mapError .bail ∧
      ((∃ e, m.toBytes capacity = .error e) ↔ capacity < m.used)) ∧
    (∀ xs : List Extent, xs.length ≤ 6 → (∀ e ∈ xs, e.Fits ∧ 0 < e.blocks) →
      ∃ p, extentsStore xs = .ok p ∧ extentsParse (clip INODE_PAYLOAD p) = xs) := by
  refine ⟨?superblock, ?header, ?inode, ?map, ?capacity, ?extents⟩
  case superblock =>
    intro sb fits
    rw [Superblock.parse_clip, Superblock.parse_toBytes fits]
  case header =>
    intro h fits
    rw [AgHeader.parse_clip, AgHeader.parse_toBytes fits]
  case inode =>
    intro i fits
    rw [Inode.parse_congr fun k hk => clip_of_lt _ hk, Inode.parse_wrap, Inode.wrap_of_fits fits]
  case map =>
    intro m typed b run
    exact AgMap.parse_toBytes (typed.fits run) (by decide) (by decide) run
  case capacity =>
    intro m capacity header
    exact ⟨m.store_eq header, m.toBytes_error header⟩
  case extents =>
    intro xs short each
    exact extentsParse_extentsStore (fun e member => (each e member).1)
        (fun e member => (each e member).2) short

end FiveFs

import FiveFs.Recovery
import Mathlib.Tactic.IntervalCases

/-! One power cut in a run of commits: the volume opens again, and its metadata is that of a prefix
of the run. -/

namespace FiveFs

open Buffer

namespace Gofs

open Prog

variable [Crc32c] {g : Gofs} {agLen : Nat}

/-- Device contents after the in-place writes of `done`: superblock copies, AG 0 header and
everything else outside the journal. -/
structure Settled (g : Gofs) (agLen : Nat) (done : List Txn) (sb : Superblock) (d : Bytes) :
    Prop where
  primary : ∀ i < SB_SIZE, d i = sb.toBytes i
  backup : ∀ i < SB_SIZE, d ((agLen - 1) * g.sb.blocksize + i) = sb.toBytes i
  padding : ∀ i, SB_SIZE ≤ i → i < g.sb.blocksize → d i = 0
  header : HeaderOk agLen (drop g.sb.blocksize d)
  body : ∀ i, Body g agLen i →
    Apart i 1 (g.journalOff 0) (g.sb.journalLength * g.sb.blocksize) →
    d i = Write.applyAll (g.inPlaceAll done) g.dev.bytes i

/-- A write that hits one journal block. -/
def JournalWrite (g : Gofs) (w : Write) : Prop :=
  ∃ i < g.sb.journalLength, w.off = g.journalOff i ∧ w.len = g.sb.blocksize

omit [Crc32c] in
theorem JournalWrite.range {w : Write} (layout : Layout g agLen) (h : JournalWrite g w) :
    g.journalOff 0 ≤ w.off ∧
      w.off + w.len ≤ g.journalOff 0 + g.sb.journalLength * g.sb.blocksize := by
  obtain ⟨i, inside, off, len⟩ := h
  have regions := layout.regions
  have split : g.journalOff i = g.journalOff 0 + i * g.sb.blocksize := by
    rw [journalOff, journalOff, Nat.add_mul, Nat.add_mul, Nat.zero_mul, Nat.add_zero]
  have high : i * g.sb.blocksize + g.sb.blocksize ≤ g.sb.journalLength * g.sb.blocksize := by
    rw [← Nat.succ_mul]
    exact Nat.mul_le_mul_right _ inside
  omega

theorem HeaderOk.congr {d e : Bytes} (header : HeaderOk agLen d)
    (same : ∀ i < AGHDR_SIZE, e i = d i) : HeaderOk agLen e := by
  obtain ⟨h, parsed, first, length⟩ := header
  refine ⟨h, ?_, first, length⟩
  rw [← parsed, clip_congr same]

theorem HeaderOk.magic {data : Bytes} (header : HeaderOk agLen data) :
    getU32 data 0 = AG_MAGIC := by
  obtain ⟨h, parsed, _, _⟩ := header
  by_contra other
  rw [AgHeader.parse, if_pos] at parsed
  · cases parsed
  · rwa [getU32, getBE_clip _ (by decide)]

namespace Settled

variable {done : List Txn} {sb : Superblock} {d : Bytes}

theorem journal (settled : Settled g agLen done sb d) (layout : Layout g agLen) {ws : List Write}
    (writes : ∀ w ∈ ws, JournalWrite g w) : Settled g agLen done sb (Write.applyAll ws d) := by
  have regions := layout.regions
  have size := layout.blocksize
  have same : ∀ i, Apart i 1 (g.journalOff 0) (g.sb.journalLength * g.sb.blocksize) →
      Write.applyAll ws d i = d i := by
    intro i apart
    apply Write.applyAll_of_not_covers
    rintro ⟨w, member, range⟩
    have inside := (writes w member).range layout
    simp only [Apart] at apart
    omega
  constructor
  · intro i hi
    simp only [SB_SIZE] at hi
    rw [same i (Or.inl (by omega)), settled.primary i hi]
  · intro i hi
    rw [same _ (Or.inr (by omega)), settled.backup i hi]
  · intro i low high
    rw [same i (Or.inl (by omega)), settled.padding i low high]
  · apply settled.header.congr
    intro i hi
    simp only [AGHDR_SIZE] at hi
    exact same _ (Or.inl (by omega))
  · intro i body apart
    rw [same i apart, settled.body i body apart]

theorem superblock (settled : Settled g agLen done sb d) (layout : Layout g agLen)
    (sb' : Superblock) :
    Settled g agLen done sb' (Write.applyAll (g.superblockWrites agLen sb') d) := by
  have regions := layout.regions
  have size := layout.blocksize
  have length : SB_SIZE = 512 := rfl
  have apart : g.sb.blocksize ≤ (agLen - 1) * g.sb.blocksize := by omega
  have other : ∀ i, SB_SIZE ≤ i → i < 2 * g.sb.blocksize →
      Write.applyAll (g.superblockWrites agLen sb') d i = d i := by
    intro i low high
    apply Write.applyAll_of_not_covers
    rintro ⟨w, member, range⟩
    simp only [superblockWrites, List.mem_cons, List.not_mem_nil, or_false] at member
    rcases member with rfl | rfl
    · simp only at range
      omega
    · simp only at range
      omega
  constructor
  · intro i hi
    rw [superblockWrites, Write.applyAll_cons, Write.applyAll_cons, Write.applyAll_nil, Write.apply,
      copyAt_of_not_mem (by simp only; omega), Write.apply, copyAt_of_mem (by simp only; omega)]
    rfl
  · intro i hi
    rw [superblockWrites, Write.applyAll_cons, Write.applyAll_cons, Write.applyAll_nil, Write.apply,
      copyAt_of_mem (by simp only; omega)]
    simp
  · intro i low high
    rw [other i low (by omega), settled.padding i low high]
  · apply settled.header.congr
    intro i hi
    simp only [AGHDR_SIZE] at hi
    exact other _ (by omega) (by omega)
  · intro i body outside
    rw [superblock_body layout sb' d body, settled.body i body outside]

theorem header_apply {blk : Nat} {data : Bytes} (target : TargetOk g agLen blk data)
    (layout : Layout g agLen) (header : HeaderOk agLen (drop g.sb.blocksize d)) :
    HeaderOk agLen (drop g.sb.blocksize (copyAt d (g.blockOff blk) g.sb.blocksize data)) := by
  have size := layout.blocksize
  have length : AGHDR_SIZE = 64 := rfl
  rcases target.header with apart | ⟨same, new⟩
  · apply header.congr
    intro i hi
    simp only [Apart] at apart
    rw [drop, drop, copyAt_of_not_mem (by omega)]
  · apply new.congr
    intro i hi
    rw [drop, copyAt_of_mem (by omega), same]
    congr 1
    omega

theorem header_applyAll {blocks : List (Nat × Bytes)} (layout : Layout g agLen)
    (target : ∀ b ∈ blocks, TargetOk g agLen b.1 b.2)
    (header : HeaderOk agLen (drop g.sb.blocksize d)) :
    HeaderOk agLen (drop g.sb.blocksize (Write.applyAll (g.inPlace blocks) d)) := by
  induction blocks generalizing d with
  | nil => exact header
  | cons b rest ih =>
      exact ih (fun b' member => target b' (List.mem_cons_of_mem _ member))
        (header_apply (target b List.mem_cons_self) layout header)

theorem inPlace (settled : Settled g agLen done sb d) (layout : Layout g agLen) {t : Txn}
    (ok : TxnOk g agLen t) :
    Settled g agLen (done ++ [t]) sb (Write.applyAll (g.inPlace t.blocks) d) := by
  have size := layout.blocksize
  have length : SB_SIZE = 512 := rfl
  have regions := layout.regions
  have outside : ∀ i, ¬ Body g agLen i → Write.applyAll (g.inPlace t.blocks) d i = d i := by
    intro i out
    apply Write.applyAll_of_not_covers
    rintro ⟨w, member, range⟩
    obtain ⟨b, inside, rfl⟩ := mem_inPlace member
    have target := ok.target b inside
    have primary := target.primary
    have backup := target.backup
    apply out
    simp only [Body, Apart] at backup ⊢
    simp only at range
    omega
  constructor
  · intro i hi
    rw [outside i (by rintro ⟨low, _⟩; omega), settled.primary i hi]
  · intro i hi
    rw [outside _ (by rintro ⟨_, apart⟩; simp only [Apart] at apart; omega), settled.backup i hi]
  · intro i low high
    rw [outside i (by rintro ⟨low, _⟩; omega), settled.padding i low high]
  · exact header_applyAll layout ok.target settled.header
  · intro i body apart
    rw [inPlaceAll_append, Write.applyAll_append]
    have one : g.inPlaceAll [t] = g.inPlace t.blocks := by simp [inPlaceAll]
    rw [one]
    apply Write.applyAll_congr
    right
    exact settled.body i body apart

end Settled

theorem probeBackup_skip {dev : Device} {e : String} {bs probe : Nat} {rest : List Nat}
    (inside : probe + AGHDR_SIZE ≤ bs) (past : SB_SIZE ≤ probe) (file : bs ≤ dev.fileLen)
    (padding : ∀ i, SB_SIZE ≤ i → i < bs → dev.bytes i = 0) :
    probeBackup dev e (probe :: rest) = probeBackup dev e rest := by
  have zero : clip AGHDR_SIZE (drop probe dev.bytes) = zeros := by
    rw [← clip_zeros AGHDR_SIZE]
    apply clip_congr
    intro i hi
    rw [drop, padding _ (by omega) (by omega)]
    rfl
  have rejected : AgHeader.parse zeros = .error "ag header: bad magic" := by
    rw [AgHeader.parse, if_pos]
    rw [getU32, getBE_zeros]
    decide
  rw [probeBackup, Device.pread_ok (by omega), zero]
  simp only [rejected]

theorem probeBackup_hit {dev : Device} {e : String} {bs agLen : Nat} {rest : List Nat}
    {sb : Superblock} (header : HeaderOk agLen (drop bs dev.bytes)) (some : 2 ≤ agLen)
    (large : SB_SIZE ≤ bs) (file : agLen * bs ≤ dev.fileLen)
    (backup : Superblock.parse (clip SB_SIZE (drop ((agLen - 1) * bs) dev.bytes)) = .ok sb)
    (size : sb.blocksize = bs) : probeBackup dev e (bs :: rest) = .ok (sb, true) := by
  obtain ⟨h, parsed, first, length⟩ := header
  have last : (agLen - 1) * bs + bs = agLen * bs := by
    rw [← Nat.succ_mul]
    congr 1
    omega
  have before : bs ≤ (agLen - 1) * bs := Nat.le_mul_of_pos_left bs (by omega)
  have sizes : SB_SIZE = 512 ∧ AGHDR_SIZE = 64 := ⟨rfl, rfl⟩
  rw [probeBackup, Device.pread_ok (by omega)]
  simp only [parsed, length]
  rw [if_neg (by omega), if_neg (by omega), Device.pread_ok (by omega)]
  simp only [backup]
  rw [if_pos size]

omit [Crc32c] in
theorem probeSizes_split {bs : Nat} (power : Superblock.isPowerOfTwo bs = true) (low : 2048 ≤ bs)
    (high : bs ≤ 65536) : ∃ small large, probeSizes = small ++ bs :: large ∧
      ∀ probe ∈ small, SB_SIZE ≤ probe ∧ probe + AGHDR_SIZE ≤ bs := by
  obtain ⟨k, _, rfl⟩ := isPowerOfTwo_iff.mp power
  have from11 : 11 ≤ k := by
    by_contra less
    have := Nat.pow_le_pow_right (show 0 < 2 by decide) (show k ≤ 10 by omega)
    omega
  have to16 : k ≤ 16 := by
    by_contra more
    have := Nat.pow_le_pow_right (show 0 < 2 by decide) (show 17 ≤ k by omega)
    omega
  interval_cases k
  · exact ⟨[], [4096, 8192, 16384, 32768, 65536], rfl, by decide⟩
  · exact ⟨[2048], [8192, 16384, 32768, 65536], rfl, by decide⟩
  · exact ⟨[2048, 4096], [16384, 32768, 65536], rfl, by decide⟩
  · exact ⟨[2048, 4096, 8192], [32768, 65536], rfl, by decide⟩
  · exact ⟨[2048, 4096, 8192, 16384], [65536], rfl, by decide⟩
  · exact ⟨[2048, 4096, 8192, 16384, 32768], [], rfl, by decide⟩

theorem probeBackup_skips {dev : Device} {e : String} {bs : Nat} {small rest : List Nat}
    (skip : ∀ probe ∈ small, SB_SIZE ≤ probe ∧ probe + AGHDR_SIZE ≤ bs) (file : bs ≤ dev.fileLen)
    (padding : ∀ i, SB_SIZE ≤ i → i < bs → dev.bytes i = 0) :
    probeBackup dev e (small ++ rest) = probeBackup dev e rest := by
  induction small with
  | nil => rfl
  | cons probe small ih =>
      have first := skip probe List.mem_cons_self
      rw [List.cons_append, probeBackup_skip first.2 first.1 file padding]
      exact ih fun p member => skip p (List.mem_cons_of_mem _ member)

omit [Crc32c] in
theorem drop_zero (b : Bytes) : drop 0 b = b := by
  funext i
  rw [drop, Nat.zero_add]

theorem findSuperblock_run (layout : Layout g agLen) (probed : g.sb.blocksize ≤ 65536)
    {dev : Device}
    (file : dev.fileLen = g.dev.fileLen) (good : Superblock → Prop)
    (primary : ∀ sb, Superblock.parse (clip SB_SIZE dev.bytes) = .ok sb → good sb)
    (fallback : (∀ sb, Superblock.parse (clip SB_SIZE dev.bytes) ≠ .ok sb) →
      (∀ i, SB_SIZE ≤ i → i < g.sb.blocksize → dev.bytes i = 0) ∧
      HeaderOk agLen (drop g.sb.blocksize dev.bytes) ∧
      ∃ sb, good sb ∧ sb.blocksize = g.sb.blocksize ∧
        Superblock.parse (clip SB_SIZE (drop ((agLen - 1) * g.sb.blocksize) dev.bytes)) = .ok sb) :
    ∃ sb fromBackup, findSuperblock dev = .ok (sb, fromBackup) ∧ good sb := by
  have size := layout.blocksize
  have device := layout.device
  have two : 2 ≤ agLen := by
    have journal := layout.journal
    have length := layout.journalLength
    omega
  have sizes : SB_SIZE = 512 := rfl
  have whole : g.sb.blocksize ≤ agLen * g.sb.blocksize := Nat.le_mul_of_pos_left _ (by omega)
  have read : dev.pread 0 SB_SIZE = .ok (clip SB_SIZE dev.bytes) := by
    rw [Device.pread_ok (by omega), drop_zero]
  unfold findSuperblock
  rw [read]
  rcases parsed : Superblock.parse (clip SB_SIZE dev.bytes) with e | sb
  · obtain ⟨padding, header, sb, isGood, same, backup⟩ := fallback (by
      intro sb absurd
      rw [parsed] at absurd
      cases absurd)
    obtain ⟨small, large, split, skip⟩ := probeSizes_split layout.fits.blocksize.1 size probed
    refine ⟨sb, true, ?_, isGood⟩
    simp only [parsed]
    rw [split, probeBackup_skips skip (by omega) padding]
    exact probeBackup_hit header two (by omega) (by omega) backup same
  · refine ⟨sb, false, ?_, primary sb parsed⟩
    simp only [parsed]

omit [Crc32c] in
theorem Alike.sb {sb : Superblock} (same : Alike g { g with sb }) {dev : Device}
    (file : dev.fileLen = g.dev.fileLen) : Alike g { dev, sb, map := g.map } :=
  ⟨rfl, same.blocksize, same.agmapOffset, same.agmapLength, same.journalStart, same.journalLength,
    file⟩

theorem loadAgmap_congr (layout : Layout g agLen) {sb : Superblock} (same : Alike g { g with sb })
    {dev : Device} (file : dev.fileLen = g.dev.fileLen)
    (bytes : ∀ i, g.sb.agmapOffset ≤ i → i < g.sb.agmapOffset + 2 * g.sb.agmapLength →
      dev.bytes i = g.dev.bytes i) : loadAgmap dev sb = loadAgmap g.dev g.sb := by
  have regions := layout.regions
  have last := layout.last_bound
  have copy : ∀ k < 2, readAgmapCopy dev sb k = readAgmapCopy g.dev g.sb k := by
    intro k hk
    have offset : sb.agmapOffset = g.sb.agmapOffset := same.agmapOffset
    have length : sb.agmapLength = g.sb.agmapLength := same.agmapLength
    have part : k * g.sb.agmapLength + g.sb.agmapLength ≤ 2 * g.sb.agmapLength := by
      rw [← Nat.succ_mul]
      exact Nat.mul_le_mul_right _ hk
    rw [readAgmapCopy, readAgmapCopy, offset, length, Device.pread_ok (by omega),
      Device.pread_ok (by omega)]
    have equal : clip g.sb.agmapLength (drop (g.sb.agmapOffset + k * g.sb.agmapLength) dev.bytes) =
        clip g.sb.agmapLength (drop (g.sb.agmapOffset + k * g.sb.agmapLength) g.dev.bytes) := by
      apply clip_congr
      intro i hi
      exact bytes _ (by omega) (by omega)
    rw [equal]
  rw [loadAgmap, loadAgmap, copy 0 (by decide), copy 1 (by decide)]

/-- The superblock after `n` commits. -/
structure Checkpoint (g : Gofs) (n : Nat) (sb : Superblock) : Prop where
  fits : sb.Fits
  alike : Alike g { g with sb }
  seq : sb.journalSeq = g.sb.journalSeq + n
  gen : sb.gen = g.sb.gen + n

/-- A block that passes as the last one of a record, of a transaction from the checkpoint on. -/
def Closes (g : Gofs) (b : Bytes) : Prop := ∃ n, Marked g JCOMMIT_MAGIC (g.sb.journalSeq + n) b

/-- The commit block of `t`, as the transaction `n` after the checkpoint. -/
def closing (g : Gofs) (n : Nat) (t : Txn) : Bytes :=
  let bs := g.sb.blocksize
  let desc := descBlock bs (g.sb.journalSeq + n) t.targets
  commitBlock bs (g.sb.journalSeq + n) (txnCsum bs desc (t.blocks.map Prod.snd))

/-- A write of the commits of `ts`: into the journal goes a block of a record. -/
def Logged (g : Gofs) (ts : List Txn) (w : Write) : Prop :=
  Apart w.off w.len (g.journalOff 0) (g.sb.journalLength * g.sb.blocksize) ∨
    ∃ idx < g.sb.journalLength, w.off = g.journalOff idx ∧ w.len = g.sb.blocksize ∧
      ∃ n t, ts[n]? = some t ∧ (getU32 w.data 0 = JDESC_MAGIC ∨
        (∃ b ∈ t.blocks, w.data = b.2) ∨ w.data = g.closing n t)

/-- State `h` after the commits of `done`. The superblock copies of the last one may still be
pending: then `prev`, from before it, is what is durable. -/
structure Quiet (g h : Gofs) (agLen : Nat) (done : List Txn) (prev : Superblock) : Prop where
  alike : Alike g h
  current : Checkpoint g done.length h.sb
  previous : ∃ n, Checkpoint g n prev ∧ (n = done.length ∨ n + 1 = done.length)
  settled : Settled g agLen done prev (Write.applyAll (Crash.durable h.dev.log) g.dev.bytes)
  bytes : h.dev.bytes =
    Write.applyAll (Crash.pending h.dev.log) (Write.applyAll (Crash.durable h.dev.log) g.dev.bytes)
  pending : (Crash.pending h.dev.log = [] ∧ prev = h.sb) ∨
    Crash.pending h.dev.log = g.superblockWrites agLen h.sb
  logged : ∀ w, .write w ∈ h.dev.log → Logged g done w

theorem committed_log (h : Gofs) (t : Txn) : (h.committed agLen t).dev.log =
    h.dev.log ++ ((h.recordWrites t).map .write ++ .sync :: ((h.inPlace t.blocks).map .write ++
      .sync :: (h.superblockWrites agLen (h.checkpoint t)).map .write)) := by
  simp [committed, applied, Device.pwriteAll_log, Device.sync]

theorem committed_epochs (h : Gofs) (t : Txn) : (h.committed agLen t).dev.log =
    (h.dev.log ++ (h.recordWrites t).map .write ++ [.sync] ++ (h.inPlace t.blocks).map .write ++
      [.sync]) ++ (h.superblockWrites agLen (h.checkpoint t)).map .write := by
  rw [committed_log]
  simp

theorem pending_committed (h : Gofs) (t : Txn) : Crash.pending (h.committed agLen t).dev.log =
    h.superblockWrites agLen (h.checkpoint t) := by
  rw [committed_epochs, Crash.pending_writes, Crash.pending_sync, List.nil_append]

theorem committed_bytes (h : Gofs) (t : Txn) : (h.committed agLen t).dev.bytes =
    Write.applyAll (h.superblockWrites agLen (h.checkpoint t)) (Write.applyAll (h.inPlace t.blocks)
      (Write.applyAll (h.recordWrites t) h.dev.bytes)) := by
  simp [committed, applied, Device.pwriteAll_bytes]

theorem Logged.append {ts : List Txn} {w : Write} (logged : Logged g ts w) (t : Txn) :
    Logged g (ts ++ [t]) w := by
  refine logged.imp_right ?_
  rintro ⟨idx, inside, off, len, n, u, found, image⟩
  refine ⟨idx, inside, off, len, n, u, ?_, image⟩
  rwa [List.getElem?_append_left (List.getElem?_eq_some_iff.mp found).1]

theorem recordWrites_logged {h : Gofs} {done : List Txn} {t : Txn} (alike : Alike g h)
    (seq : h.sb.journalSeq = g.sb.journalSeq + done.length) (ok : Recordable h t) {w : Write}
    (member : w ∈ h.recordWrites t) : Logged g (done ++ [t]) w := by
  obtain ⟨idx, inside, _, off, len⟩ := mem_recordWrites member ok
  rw [alike.journalLength] at inside
  refine Or.inr ⟨idx, inside, off.trans (alike.journalOff idx), len.trans alike.blocksize,
    done.length, t, by simp, ?_⟩
  rcases List.mem_cons.mp member with rfl | later
  · exact Or.inl descBlock_magic
  · rcases List.mem_append.mp later with data | commit
    · obtain ⟨b, inside, same⟩ := List.mem_map.mp (recordData_data data)
      exact Or.inr (Or.inl ⟨b, inside, same.symm⟩)
    · refine Or.inr (Or.inr ?_)
      rw [List.mem_singleton.mp commit, closing, alike.blocksize, seq]

theorem committed_logged {h : Gofs} {done : List Txn} {t : Txn} (layout : Layout g agLen)
    (alike : Alike g h) (seq : h.sb.journalSeq = g.sb.journalSeq + done.length)
    (ok : TxnOk g agLen t) (logged : ∀ w, .write w ∈ h.dev.log → Logged g done w) {w : Write}
    (member : .write w ∈ (h.committed agLen t).dev.log) : Logged g (done ++ [t]) w := by
  have regions := layout.regions
  have size := layout.blocksize
  have sbLen : SB_SIZE = 512 := rfl
  have ok' := alike.txn ok
  simp only [committed_log, List.mem_append, List.mem_cons, List.mem_map, Event.write.injEq,
    exists_eq_right, reduceCtorEq, false_or] at member
  rcases member with old | record | placed | copy
  · exact (logged w old).append t
  · exact recordWrites_logged alike seq ok'.recordable record
  · left
    obtain ⟨b, inside, rfl⟩ := mem_inPlace placed
    rw [alike.blockOff, alike.blocksize]
    exact (ok.target b inside).journal
  · left
    rw [alike.superblockWrites] at copy
    simp only [superblockWrites, List.mem_cons, List.not_mem_nil, or_false] at copy
    rcases copy with rfl | rfl
    · exact Or.inl (by simp only; omega)
    · exact Or.inr (by simp only; omega)

namespace Quiet

variable {h : Gofs} {done : List Txn} {prev : Superblock}

theorem layout (quiet : Quiet g h agLen done prev) (layout : Layout g agLen) : Layout h agLen :=
  layout.alike quiet.alike quiet.current.fits

theorem settled_bytes (quiet : Quiet g h agLen done prev) (layout : Layout g agLen) :
    Settled g agLen done h.sb h.dev.bytes := by
  rw [quiet.bytes]
  rcases quiet.pending with ⟨none, same⟩ | copies
  · rw [none, ← same]
    exact quiet.settled
  · rw [copies]
    exact quiet.settled.superblock layout h.sb

theorem durable_committed (quiet : Quiet g h agLen done prev) (t : Txn) :
    Write.applyAll (Crash.durable (h.committed agLen t).dev.log) g.dev.bytes =
      Write.applyAll (h.inPlace t.blocks) (Write.applyAll (h.recordWrites t) h.dev.bytes) := by
  rw [committed_epochs, Crash.durable_writes, Crash.durable_sync, Crash.durable_writes,
    Crash.pending_writes, Crash.durable_sync, Crash.durable_writes, Crash.pending_writes,
    Crash.pending_sync, List.nil_append, Write.applyAll_append, Write.applyAll_append,
    Write.applyAll_append, ← quiet.bytes]

theorem commit (quiet : Quiet g h agLen done prev) (layout : Layout g agLen) {t : Txn}
    (ok : TxnOk g agLen t) (gen : h.sb.gen + 1 < 2 ^ 64) (seq : h.sb.journalSeq + 1 < 2 ^ 64) :
    Quiet g (h.committed agLen t) agLen (done ++ [t]) h.sb := by
  have layout' := quiet.layout layout
  have ok' := quiet.alike.txn ok
  have durable₂ := quiet.durable_committed t
  have pending₂ := @pending_committed _ agLen h t
  have journal : ∀ w ∈ h.recordWrites t, JournalWrite g w := by
    intro w member
    obtain ⟨i, inside, _, off, len⟩ := mem_recordWrites member ok'.recordable
    rw [quiet.alike.journalLength] at inside
    exact ⟨i, inside, off.trans (quiet.alike.journalOff i), len.trans quiet.alike.blocksize⟩
  have advanced := quiet.alike.trans (alike_committed layout' ok'.recordable)
  constructor
  · exact advanced
  · refine ⟨layout'.checkpoint_fits t gen seq, ?_, ?_, ?_⟩
    · exact ⟨rfl, advanced.blocksize, advanced.agmapOffset, advanced.agmapLength,
        advanced.journalStart, advanced.journalLength, rfl⟩
    · show h.sb.journalSeq + 1 = _
      rw [quiet.current.seq, List.length_append, Nat.add_assoc]
      rfl
    · show h.sb.gen + 1 = _
      rw [quiet.current.gen, List.length_append, Nat.add_assoc]
      rfl
  · exact ⟨done.length, quiet.current, Or.inr (by simp)⟩
  · rw [durable₂, quiet.alike.inPlace]
    exact ((quiet.settled_bytes layout).journal layout journal).inPlace layout ok
  · rw [durable₂, pending₂, committed_bytes]
  · right
    rw [pending₂, quiet.alike.superblockWrites]
    rfl
  · exact fun w => committed_logged layout quiet.alike quiet.current.seq ok quiet.logged

end Quiet

/-- The volume on other device contents, as a fresh open sees it. -/
def onDevice (g : Gofs) (d : Bytes) : Gofs := { g with dev := { g.dev with bytes := d, log := [] } }

omit [Crc32c] in
theorem alike_onDevice (g : Gofs) (d : Bytes) : Alike g (g.onDevice d) :=
  ⟨rfl, rfl, rfl, rfl, rfl, rfl, rfl⟩

/-- The superblock, AG 0's header and the AG map are on the device. The journal may hold anything.
-/
structure Durable (g : Gofs) (agLen : Nat) : Prop where
  log : g.dev.log = []
  settled : Settled g agLen [] g.sb g.dev.bytes
  agmap : loadAgmap g.dev g.sb = .ok g.map

/-- CRC32C rejects a superblock copy and a commit block that are not those of a whole write, and a
transaction that is not the one its commit block was written for. -/
structure CrcRejects (g : Gofs) (agLen : Nat) (ts : List Txn) (log : List Event) (d : Bytes) :
    Prop where
  copies : ∀ off, off = 0 ∨ off = (agLen - 1) * g.sb.blocksize → ∀ sb,
    Superblock.parse (clip SB_SIZE (drop off d)) = .ok sb →
    ∃ u, Crash.Untorn g.dev.bytes log u ∧ ∀ i < SB_SIZE, d (off + i) = u (off + i)
  commits : ∀ idx < g.sb.journalLength, g.Closes (g.journalBlock d idx) →
    ∃ u, Crash.Untorn g.dev.bytes log u ∧ g.journalBlock d idx = g.journalBlock u idx
  txns : ∀ pos n blocks t, ts[n]? = some t →
    (tryReadTxn pos (g.sb.journalSeq + n) (g.onDevice d)).1 = .ok (some blocks) →
    g.journalBlock d (pos + blocks.length + 1) = clip g.sb.blocksize (g.closing n t) →
    blocks = t.blocks

/-- What the checksums leave of crash contents: the copies are whole, and the records are those of
the run. -/
structure Sifted (g : Gofs) (agLen : Nat) (ts : List Txn) (log : List Event) (d : Bytes) :
    Prop where
  copies : ∀ off, off = 0 ∨ off = (agLen - 1) * g.sb.blocksize → ∀ sb,
    Superblock.parse (clip SB_SIZE (drop off d)) = .ok sb →
    ∃ u, Crash.Untorn g.dev.bytes log u ∧ ∀ i < SB_SIZE, d (off + i) = u (off + i)
  records : ∀ pos n blocks,
    (tryReadTxn pos (g.sb.journalSeq + n) (g.onDevice d)).1 = .ok (some blocks) →
    ∃ t, ts[n]? = some t ∧ t.blocks = blocks

/-- Commit the transactions in order. -/
def commitAll : List Txn → Prog Gofs Unit
  | [] => return ()
  | t :: rest => do
      Gofs.commit t
      commitAll rest

/-- The device log of a run that was cut when the commits of `done` had returned and that of `cur`,
if any, had started. -/
structure Run (g : Gofs) (agLen : Nat) (done : List Txn) (cur : Option Txn) (log : List Event) :
    Prop where
  cut : ∃ h, commitAll done g = (.ok (), h) ∧
    match cur with
    | none => log = h.dev.log
    | some t => h.dev.log <+: log ∧ log <+: (Gofs.commit t h).2.dev.log
  txns : ∀ t ∈ done ++ cur.toList, TxnOk g agLen t
  gen : g.sb.gen + (done ++ cur.toList).length + 2 < 2 ^ 64
  seq : g.sb.journalSeq + (done ++ cur.toList).length + 1 < 2 ^ 64

/-- The volume with the blocks of `ts` written in order. -/
def applyTxns (g : Gofs) (ts : List Txn) : Gofs :=
  g.onDevice (Write.applyAll (g.inPlaceAll ts) g.dev.bytes)

/-- The volume opens, and every target block is as after a prefix of the run that holds all commits
that had returned. -/
def Survives (g : Gofs) (done : List Txn) (cur : Option Txn) (d : Bytes) : Prop :=
  ∃ g' k, openRw (g.onDevice d).dev = .ok g' ∧ done.length ≤ k ∧
    k ≤ (done ++ cur.toList).length ∧ ∀ t ∈ done ++ cur.toList, ∀ blk ∈ t.targets,
      (readBlock blk g').1 = (readBlock blk (g.applyTxns ((done ++ cur.toList).take k))).1

/-- Any power cut in any run is survived. -/
def Atomic (g : Gofs) (agLen : Nat) : Prop :=
  ∀ done cur log d, Run g agLen done cur log → Crash.State g.dev.bytes log d →
    CrcRejects g agLen (done ++ cur.toList) log d → Survives g done cur d

theorem journalBlock_logged {ts : List Txn} {ws : List Write} (logged : ∀ w ∈ ws, Logged g ts w)
    (d : Bytes) {idx : Nat} (inside : idx < g.sb.journalLength) :
    g.journalBlock (Write.applyAll ws d) idx = g.journalBlock d idx ∨
      ∃ w ∈ ws, w.off = g.journalOff idx ∧ w.len = g.sb.blocksize ∧
        g.journalBlock (Write.applyAll ws d) idx = clip g.sb.blocksize w.data := by
  induction ws generalizing d with
  | nil => exact Or.inl rfl
  | cons w ws ih =>
      rw [Write.applyAll_cons]
      rcases ih (fun v member => logged v (List.mem_cons_of_mem _ member)) (w.apply d) with
        same | ⟨v, member, image⟩
      · rw [same]
        by_cases here : w.off = g.journalOff idx ∧ w.len = g.sb.blocksize
        · refine Or.inr ⟨w, List.mem_cons_self, here.1, here.2, clip_congr fun i hi => ?_⟩
          rw [drop, Write.apply, copyAt_of_mem (by omega), here.1, Nat.add_sub_cancel_left]
        · left
          have part := g.journalOff_inside inside
          have apart : Apart w.off w.len (g.journalOff idx) g.sb.blocksize := by
            rcases logged w List.mem_cons_self with outside | ⟨j, _, off, len, _⟩
            · simp only [Apart] at outside ⊢
              omega
            · rw [off, len] at here ⊢
              exact g.journalOff_apart fun equal => here ⟨by rw [equal], rfl⟩
          apply journalBlock_congr
          intro i hi
          simp only [Apart] at apart
          rw [Write.apply, copyAt_of_not_mem (by omega)]
      · exact Or.inr ⟨v, List.mem_cons_of_mem _ member, image⟩

/-- Where neither the journal at the start nor a data block has a commit block from the checkpoint
on, the only ones in the journal are those of the commits, and so are the records. -/
theorem CrcRejects.sifted {ts : List Txn} {log : List Event} {d : Bytes} (layout : Layout g agLen)
    (crc : CrcRejects g agLen ts log d) (ok : ∀ t ∈ ts, TxnOk g agLen t)
    (logged : ∀ w, .write w ∈ log → Logged g ts w)
    (seq : g.sb.journalSeq + ts.length + 1 < 2 ^ 64)
    (clean : ∀ idx < g.sb.journalLength, ¬ g.Closes (g.journalBlock g.dev.bytes idx))
    (plain : ∀ t ∈ ts, ∀ b ∈ t.blocks, ¬ g.Closes b.2) : Sifted g agLen ts log d := by
  refine ⟨crc.copies, fun pos n blocks accepted => ?_⟩
  have size := layout.blocksize
  have record : Record g d pos (g.sb.journalSeq + n) blocks := by
    have layout' := layout.alike (alike_onDevice g d) layout.fits
    obtain ⟨r, read, sound⟩ := tryReadTxn_sound layout' pos (g.sb.journalSeq + n)
    rw [read] at accepted
    injection accepted with accepted
    exact (sound blocks accepted).congr (alike_onDevice g d).symm fun _ _ _ => rfl
  have inside := record.inside
  have closes : g.Closes (g.journalBlock d (pos + blocks.length + 1)) := ⟨n, record.commit⟩
  obtain ⟨u, ⟨sub, sublist, rfl⟩, whole⟩ := crc.commits _ (by omega) closes
  have written : ∀ w ∈ Crash.durable log ++ sub, Logged g ts w := by
    intro w member
    refine logged w (Crash.mem_split ?_)
    exact List.mem_append.mpr ((List.mem_append.mp member).imp_right (sublist.subset ·))
  rw [← Write.applyAll_append] at whole
  rcases journalBlock_logged written g.dev.bytes (show pos + blocks.length + 1 < _ by omega) with
    old | ⟨w, member, off, _, image⟩
  · exact absurd (whole.trans old ▸ closes) (clean _ (by omega))
  · have same := whole.trans image
    rcases written w member with outside | ⟨_, _, _, _, m, t, found, kind⟩
    · have part := g.journalOff_inside (show pos + blocks.length + 1 < _ by omega)
      simp only [Apart] at outside
      omega
    · have commit := record.commit
      have bound := (List.getElem?_eq_some_iff.mp found).1
      have okT := ok t (List.mem_of_getElem? found)
      rcases kind with desc | ⟨b, data, equal⟩ | equal
      · have magic := commit.1
        rw [same, getU32, getBE_clip _ (by omega)] at magic
        rw [getU32, magic] at desc
        exact absurd desc (by decide)
      · rw [same, equal, (okT.target b data).whole] at closes
        exact absurd closes (plain t (List.mem_of_getElem? found) b data)
      · have number := commit.2.2
        rw [same, equal, getU64, getBE_clip _ (by omega)] at number
        have stored : getU64 (g.closing m t) 8 = g.sb.journalSeq + m :=
          commitBlock_seq (by omega)
        rw [getU64] at stored
        rw [stored] at number
        obtain rfl : m = n := by omega
        rw [equal] at same
        exact ⟨t, found, (crc.txns pos m blocks t found accepted same).symm⟩

theorem parse_copy {sb : Superblock} (fits : sb.Fits) (d : Bytes) (off : Nat)
    (same : ∀ i < SB_SIZE, d (off + i) = sb.toBytes i) :
    Superblock.parse (clip SB_SIZE (drop off d)) = .ok sb := by
  rw [Superblock.parse_clip, ← Superblock.parse_toBytes fits]
  exact Superblock.parse_congr same

omit [Crc32c] in
theorem readBlock_run {blk : Nat}
    (mapped : g.map.resolve blk g.sb.blocksize = some (g.blockOff blk))
    (inside : g.blockOff blk + g.sb.blocksize ≤ g.dev.fileLen) :
    (readBlock blk g).1 = .ok (clip g.sb.blocksize (drop (g.blockOff blk) g.dev.bytes)) := by
  have read := Device.pread_ok inside
  simp only [readBlock, resolve, bind_run, get_run, mapped, pure_run, pread, read]
  rfl

theorem TargetOk.bytes {blk : Nat} {data : Bytes}
    (target : TargetOk g agLen blk data) {i : Nat} (hi : i < g.sb.blocksize) :
    Body g agLen (g.blockOff blk + i) ∧
      Apart (g.blockOff blk + i) 1 (g.journalOff 0) (g.sb.journalLength * g.sb.blocksize) := by
  have primary := target.primary
  have backup := target.backup
  have journal := target.journal
  simp only [Body, Apart] at *
  omega

theorem readBlock_target {g' : Gofs} (alike : Alike g g') {blk : Nat} {data : Bytes}
    (target : TargetOk g agLen blk data) {content : Bytes}
    (same : ∀ i, Body g agLen i →
      Apart i 1 (g.journalOff 0) (g.sb.journalLength * g.sb.blocksize) →
      g'.dev.bytes i = content i) :
    (readBlock blk g').1 = (readBlock blk (g.onDevice content)).1 := by
  have left := alike.target target
  have right := (alike_onDevice g content).target target
  rw [readBlock_run left.mapped left.device, readBlock_run right.mapped right.device,
    alike.blockOff, alike.blocksize]
  congr 1
  apply clip_congr
  intro i hi
  have bytes := target.bytes hi
  exact same _ bytes.1 bytes.2

theorem Sifted.known {ts : List Txn} {log : List Event} {d : Bytes} (layout : Layout g agLen)
    (crc : Sifted g agLen ts log d) : ∀ pos n blocks,
    Record g d pos (g.sb.journalSeq + n) blocks → ∃ t, ts[n]? = some t ∧ t.blocks = blocks := by
  intro pos n blocks record
  apply crc.records pos n blocks
  have layout' : Layout (g.onDevice d) agLen := layout.alike (alike_onDevice g d) layout.fits
  rw [tryReadTxn_complete layout' (record.congr (alike_onDevice g d) fun _ _ _ => rfl)]

theorem inPlace_covers {t : Txn} (ok : TxnOk g agLen t) {i : Nat}
    (covered : Write.Covers (g.inPlace t.blocks) i) : Body g agLen i ∧
      Apart i 1 (g.journalOff 0) (g.sb.journalLength * g.sb.blocksize) ∧
      Apart i 1 g.sb.agmapOffset (2 * g.sb.agmapLength) := by
  obtain ⟨w, member, range⟩ := covered
  obtain ⟨b, inside, rfl⟩ := mem_inPlace member
  have target := ok.target b inside
  have primary := target.primary
  have backup := target.backup
  have journal := target.journal
  have agmap := target.agmap
  simp only [Body, Apart] at *
  omega

theorem inPlaceAll_outside {ts : List Txn} (ok : ∀ t ∈ ts, TxnOk g agLen t) (d : Bytes) {i : Nat}
    (low : g.sb.agmapOffset ≤ i) (high : i < g.sb.agmapOffset + 2 * g.sb.agmapLength) :
    Write.applyAll (g.inPlaceAll ts) d i = d i := by
  apply Write.applyAll_of_not_covers
  rintro ⟨w, member, range⟩
  obtain ⟨blk, data, target, rfl⟩ := inPlaceAll_apart ok member
  have apart := target.agmap
  simp only [Apart] at apart
  simp only at range
  omega

theorem recovers_found {ts : List Txn} {log : List Event} {d : Bytes} (layout : Layout g agLen)
    (durable : Durable g agLen) (ok : ∀ t ∈ ts, TxnOk g agLen t) (crc : Sifted g agLen ts log d)
    (seq : g.sb.journalSeq + ts.length + 1 < 2 ^ 64) (gen : g.sb.gen + ts.length + 2 < 2 ^ 64)
    {n : Nat} {sb : Superblock} {fromBackup : Bool}
    (found : findSuperblock (g.onDevice d).dev = .ok (sb, fromBackup)) (point : Checkpoint g n sb)
    (start : n ≤ ts.length) (near : ts.length ≤ n + 2)
    (agmap : ∀ i, g.sb.agmapOffset ≤ i → i < g.sb.agmapOffset + 2 * g.sb.agmapLength →
      d i = g.dev.bytes i) :
    ∃ m g', n + m ≤ ts.length ∧ openRw (g.onDevice d).dev = .ok g' ∧ Alike g g' ∧
      (∀ i, Body g agLen i →
        g'.dev.bytes i = Write.applyAll (g.inPlaceAll ((ts.drop n).take m)) d i) ∧
      (∀ blocks, Record g d sb.journalHead (g.sb.journalSeq + n) blocks ∨
        Record g d 0 (g.sb.journalSeq + n) blocks → 0 < m) := by
  have length := layout.journalLength
  have map : loadAgmap (g.onDevice d).dev sb = .ok g.map := by
    have same : loadAgmap (g.onDevice d).dev sb = loadAgmap g.dev g.sb :=
      loadAgmap_congr layout point.alike rfl agmap
    exact same.trans durable.agmap
  exact openRw_run (crc.known layout : ∀ pos n blocks, Record g (g.onDevice d).dev.bytes pos
    (g.sb.journalSeq + n) blocks → ∃ t, ts[n]? = some t ∧ t.blocks = blocks) ok (by omega) layout
    start
    (by omega) found map (point.alike.sb rfl) point.fits point.seq (by rw [point.gen]; omega)

omit [Crc32c] in
theorem replayed_prefix {ts done rest : List Txn} {n m : Nat} (split : ts = done ++ rest)
    (position : n = done.length ∨ n + 1 = done.length) (high : n + m ≤ ts.length) :
    ∃ k, done.length ≤ k ∧ k ≤ ts.length ∧
      Write.applyAll (g.inPlaceAll ((ts.drop n).take m))
        (Write.applyAll (g.inPlaceAll done) g.dev.bytes) =
      Write.applyAll (g.inPlaceAll (ts.take k)) g.dev.bytes := by
  have total : ts.length = done.length + rest.length := by rw [split, List.length_append]
  have whole : ts.take done.length = done := by rw [split, List.take_left]
  rcases position with same | early
  · refine ⟨n + m, by omega, high, ?_⟩
    rw [List.take_add, same, whole, inPlaceAll_append, Write.applyAll_append]
  · rcases m with _ | m
    · refine ⟨done.length, Nat.le_refl _, by omega, ?_⟩
      rw [whole]
      rfl
    · refine ⟨n + (m + 1), by omega, high, ?_⟩
      have inside : n < ts.length := by omega
      set t := ts[n] with ht
      have last : done = ts.take n ++ [t] := by
        rw [← whole, ← early, List.take_succ_eq_append_getElem inside]
      have first : (ts.drop n).take (m + 1) = [t] ++ (ts.drop (n + 1)).take m := by
        rw [List.drop_eq_getElem_cons inside, List.take_succ_cons]
        rfl
      have longer : ts.take (n + (m + 1)) = ts.take n ++ [t] ++ (ts.drop (n + 1)).take m := by
        rw [List.take_add, first, List.append_assoc]
      rw [first, last, longer]
      simp only [inPlaceAll_append, Write.applyAll_append]
      rw [Write.applyAll_idem]

namespace Quiet

variable {h : Gofs} {done : List Txn} {prev : Superblock} {log : List Event} {vs : List Write}

theorem pending_cases (quiet : Quiet g h agLen done prev)
    (pending : Crash.pending log = Crash.pending h.dev.log ++ vs)
    (journal : ∀ w ∈ vs, JournalWrite g w) {w : Write} (member : w ∈ Crash.pending log) :
    w = ⟨0, SB_SIZE, h.sb.toBytes⟩ ∨
      w = ⟨(agLen - 1) * g.sb.blocksize, SB_SIZE, h.sb.toBytes⟩ ∨ JournalWrite g w := by
  rw [pending] at member
  rcases List.mem_append.mp member with copy | record
  · rcases quiet.pending with ⟨none, _⟩ | copies
    · rw [none] at copy
      cases copy
    · rw [copies] at copy
      simp only [superblockWrites, List.mem_cons, List.not_mem_nil, or_false] at copy
      rcases copy with first | second
      · exact Or.inl first
      · exact Or.inr (Or.inl second)
  · exact Or.inr (Or.inr (journal w record))

theorem untorn_copy (quiet : Quiet g h agLen done prev) (layout : Layout g agLen)
    (durable : Crash.durable log = Crash.durable h.dev.log)
    (pending : Crash.pending log = Crash.pending h.dev.log ++ vs)
    (journal : ∀ w ∈ vs, JournalWrite g w) {u : Bytes} (untorn : Crash.Untorn g.dev.bytes log u)
    {off : Nat} (copy : off = 0 ∨ off = (agLen - 1) * g.sb.blocksize) :
    ∃ sb, (sb = prev ∨ sb = h.sb) ∧ ∀ i < SB_SIZE, u (off + i) = sb.toBytes i := by
  have regions := layout.regions
  have size := layout.blocksize
  have length : SB_SIZE = 512 := rfl
  obtain ⟨sub, sublist, rfl⟩ := untorn
  rw [durable]
  have each : ∀ w ∈ sub, (w.off + w.len ≤ off ∨ off + SB_SIZE ≤ w.off) ∨
      (w.off = off ∧ w.len = SB_SIZE ∧ w.data = h.sb.toBytes) := by
    intro w member
    rcases quiet.pending_cases pending journal (sublist.subset member) with rfl | rfl | record
    · rcases copy with rfl | rfl
      · exact Or.inr ⟨rfl, rfl, rfl⟩
      · left
        simp only
        omega
    · rcases copy with rfl | rfl
      · left
        simp only
        omega
      · exact Or.inr ⟨rfl, rfl, rfl⟩
    · have range := record.range layout
      left
      rcases copy with rfl | rfl <;> omega
  rcases Write.applyAll_region sub h.sb.toBytes
    (Write.applyAll (Crash.durable h.dev.log) g.dev.bytes) off SB_SIZE each with old | new
  · refine ⟨prev, Or.inl rfl, ?_⟩
    intro i hi
    rw [old i hi]
    rcases copy with rfl | rfl
    · rw [Nat.zero_add]
      exact quiet.settled.primary i hi
    · exact quiet.settled.backup i hi
  · exact ⟨h.sb, Or.inr rfl, new⟩

theorem cut_bytes (quiet : Quiet g h agLen done prev) (layout : Layout g agLen)
    (durable : Crash.durable log = Crash.durable h.dev.log)
    (pending : Crash.pending log = Crash.pending h.dev.log ++ vs)
    (journal : ∀ w ∈ vs, JournalWrite g w) {d : Bytes} (state : Crash.State g.dev.bytes log d)
    {i : Nat} (low : SB_SIZE ≤ i)
    (backup : Apart i 1 ((agLen - 1) * g.sb.blocksize) g.sb.blocksize)
    (outside : Apart i 1 (g.journalOff 0) (g.sb.journalLength * g.sb.blocksize)) :
    d i = Write.applyAll (Crash.durable h.dev.log) g.dev.bytes i := by
  have size := layout.blocksize
  have length : SB_SIZE = 512 := rfl
  rw [← durable]
  apply state.eq_durable
  rintro ⟨w, member, range⟩
  simp only [Apart] at backup outside
  rcases quiet.pending_cases pending journal member with rfl | rfl | record
  · simp only at range
    omega
  · simp only at range
    omega
  · have inside := record.range layout
    omega

/-- The superblock is found after a cut between two commits or inside the first epoch of one. -/
theorem found (quiet : Quiet g h agLen done prev) (layout : Layout g agLen)
    (probed : g.sb.blocksize ≤ 65536) (durable : Crash.durable log = Crash.durable h.dev.log)
    (pending : Crash.pending log = Crash.pending h.dev.log ++ vs)
    (journal : ∀ w ∈ vs, JournalWrite g w) {ts : List Txn} {d : Bytes}
    (state : Crash.State g.dev.bytes log d) (crc : Sifted g agLen ts log d) :
    ∃ sb fromBackup, findSuperblock (g.onDevice d).dev = .ok (sb, fromBackup) ∧
      (sb = prev ∨ sb = h.sb) := by
  have regions := layout.regions
  have size := layout.blocksize
  have length : SB_SIZE = 512 := rfl
  obtain ⟨_, previous, _⟩ := quiet.previous
  have fits : ∀ sb, sb = prev ∨ sb = h.sb → sb.Fits := by
    rintro sb (rfl | rfl)
    · exact previous.fits
    · exact quiet.current.fits
  have blocksize : ∀ sb, sb = prev ∨ sb = h.sb → sb.blocksize = g.sb.blocksize := by
    rintro sb (rfl | rfl)
    · exact previous.alike.blocksize
    · exact quiet.current.alike.blocksize
  have known : ∀ u, Crash.Untorn g.dev.bytes log u → ∀ off,
      off = 0 ∨ off = (agLen - 1) * g.sb.blocksize → ∃ sb, (sb = prev ∨ sb = h.sb) ∧
        ∀ i < SB_SIZE, u (off + i) = sb.toBytes i :=
    fun u untorn off copy => quiet.untorn_copy layout durable pending journal untorn copy
  have same := fun i => quiet.cut_bytes layout durable pending journal state (i := i)
  have file : (g.onDevice d).dev.fileLen = g.dev.fileLen := rfl
  apply findSuperblock_run layout probed file (fun sb => sb = prev ∨ sb = h.sb)
  · intro sb parsed
    obtain ⟨u, untorn, equal⟩ := crc.copies 0 (Or.inl rfl) sb (by rw [drop_zero]; exact parsed)
    obtain ⟨sb', good, bytes⟩ := known u untorn 0 (Or.inl rfl)
    have again := parse_copy (fits sb' good) d 0 fun i hi =>
      (equal i hi).trans (bytes i hi)
    rw [drop_zero, show d = (g.onDevice d).dev.bytes from rfl, parsed] at again
    injection again with again
    rw [again]
    exact good
  · intro bad
    obtain ⟨u, untorn, torn⟩ := state.untorn
    obtain ⟨sb, good, bytes⟩ := known u untorn 0 (Or.inl rfl)
    -- the primary copy is not a whole write, so it is the torn one
    have differs : ¬ ∀ i < SB_SIZE, d (0 + i) = u (0 + i) := by
      intro equal
      apply bad sb
      have parsed := parse_copy (fits sb good) d 0 fun i hi =>
        (equal i hi).trans (bytes i hi)
      rwa [drop_zero] at parsed
    rcases torn with rfl | ⟨w, member, elsewhere⟩
    · exact (differs fun _ _ => rfl).elim
    refine ⟨?_, ?_, ?_⟩
    · intro i low high
      rw [show (g.onDevice d).dev.bytes i = d i from rfl, same i low (Or.inl (by omega))
        (Or.inl (by omega))]
      exact quiet.settled.padding i low high
    · apply quiet.settled.header.congr
      intro i hi
      simp only [AGHDR_SIZE] at hi
      exact same _ (by omega) (Or.inl (by omega)) (Or.inl (by omega))
    · obtain ⟨sb', good', bytes'⟩ := known u untorn _ (Or.inr rfl)
      refine ⟨sb', good', blocksize sb' good', ?_⟩
      apply parse_copy (fits sb' good') d
      intro i hi
      refine (elsewhere _ ?_).trans (bytes' i hi)
      rcases quiet.pending_cases pending journal member with rfl | rfl | record
      · simp only
        omega
      · exfalso
        apply differs
        intro j hj
        apply elsewhere
        simp only
        omega
      · have range := record.range layout
        omega

theorem recovers (quiet : Quiet g h agLen done prev) (layout : Layout g agLen)
    (volume : Durable g agLen) (probed : g.sb.blocksize ≤ 65536)
    (durable : Crash.durable log = Crash.durable h.dev.log)
    (pending : Crash.pending log = Crash.pending h.dev.log ++ vs)
    (journal : ∀ w ∈ vs, JournalWrite g w) {ts rest : List Txn} (split : ts = done ++ rest)
    (short : rest.length ≤ 1) (ok : ∀ t ∈ ts, TxnOk g agLen t)
    (seq : g.sb.journalSeq + ts.length + 1 < 2 ^ 64) (gen : g.sb.gen + ts.length + 2 < 2 ^ 64)
    {d : Bytes} (state : Crash.State g.dev.bytes log d) (crc : Sifted g agLen ts log d) :
    ∃ g' k, openRw (g.onDevice d).dev = .ok g' ∧ done.length ≤ k ∧ k ≤ ts.length ∧
      ∀ t ∈ ts, ∀ blk ∈ t.targets,
        (readBlock blk g').1 = (readBlock blk (g.applyTxns (ts.take k))).1 := by
  have regions := layout.regions
  have size := layout.blocksize
  have sbLen : SB_SIZE = 512 := rfl
  have total : ts.length = done.length + rest.length := by rw [split, List.length_append]
  obtain ⟨sb, fromBackup, found, good⟩ :=
    quiet.found layout probed durable pending journal state crc
  obtain ⟨n, point, position⟩ : ∃ n, Checkpoint g n sb ∧
      (n = done.length ∨ n + 1 = done.length) := by
    rcases good with rfl | rfl
    · exact quiet.previous
    · exact ⟨_, quiet.current, Or.inl rfl⟩
  have same : ∀ i, Body g agLen i →
      Apart i 1 (g.journalOff 0) (g.sb.journalLength * g.sb.blocksize) →
      d i = Write.applyAll (g.inPlaceAll done) g.dev.bytes i := by
    intro i body outside
    rw [quiet.cut_bytes layout durable pending journal state (by have := body.1; omega) body.2
        outside]
    exact quiet.settled.body i body outside
  have okDone : ∀ t ∈ done, TxnOk g agLen t := by
    intro t member
    apply ok
    rw [split]
    exact List.mem_append_left _ member
  obtain ⟨m, g', high, opened, alike, content, _⟩ :=
      recovers_found layout volume ok crc seq gen found
    point (by omega) (by omega) (by
      intro i low high
      rw [same i ⟨by omega, Or.inl (by omega)⟩ (Or.inl (by omega)),
          inPlaceAll_outside okDone _ low high])
  obtain ⟨k, low, upTo, replayed⟩ := replayed_prefix (g := g) split position high
  refine ⟨g', k, opened, low, upTo, ?_⟩
  intro t member blk target
  obtain ⟨b, inside, rfl⟩ := List.mem_map.mp target
  apply readBlock_target alike ((ok t member).target b inside)
  intro i body outside
  rw [content i body, ← replayed]
  apply Write.applyAll_congr
  exact Or.inr (same i body outside)

theorem settled_recorded (quiet : Quiet g h agLen done prev) (layout : Layout g agLen) {t : Txn}
    (ok : TxnOk g agLen t) :
    Settled g agLen done h.sb (Write.applyAll (h.recordWrites t) h.dev.bytes) := by
  apply (quiet.settled_bytes layout).journal layout
  intro w member
  obtain ⟨i, inside, _, off, len⟩ := mem_recordWrites member (quiet.alike.txn ok).recordable
  rw [quiet.alike.journalLength] at inside
  exact ⟨i, inside, off.trans (quiet.alike.journalOff i), len.trans quiet.alike.blocksize⟩

theorem inPlace_cut (quiet : Quiet g h agLen done prev) {t : Txn}
    (sub : vs.Sublist (h.inPlace t.blocks))
    (cut : log = h.dev.log ++ (h.recordWrites t).map .write ++ [.sync] ++ vs.map .write) {d : Bytes}
    (state : Crash.State g.dev.bytes log d) {i : Nat}
    (out : ¬ Write.Covers (g.inPlace t.blocks) i) :
    d i = Write.applyAll (h.recordWrites t) h.dev.bytes i := by
  have pending : Crash.pending log = vs := by
    rw [cut, Crash.pending_writes, Crash.pending_sync, List.nil_append]
  have durable : Write.applyAll (Crash.durable log) g.dev.bytes =
      Write.applyAll (h.recordWrites t) h.dev.bytes := by
    rw [cut, Crash.durable_writes, Crash.durable_sync, Crash.durable_writes, Crash.pending_writes,
      Write.applyAll_append, Write.applyAll_append, ← quiet.bytes]
  rw [quiet.alike.inPlace] at sub
  rw [state.eq_durable, durable]
  rw [pending]
  exact fun covered => out (covered.of_sublist sub)

theorem found_inPlace (quiet : Quiet g h agLen done prev) (layout : Layout g agLen) {t : Txn}
    (ok : TxnOk g agLen t) {d : Bytes}
    (same : ∀ i, ¬ Write.Covers (g.inPlace t.blocks) i →
      d i = Write.applyAll (h.recordWrites t) h.dev.bytes i) :
    findSuperblock (g.onDevice d).dev = .ok (h.sb, false) := by
  have size := layout.blocksize
  have sbLen : SB_SIZE = 512 := rfl
  have regions := layout.regions
  have last := layout.last_bound
  have parsed := parse_copy quiet.current.fits d 0 fun i hi => by
    have outside : ¬ Write.Covers (g.inPlace t.blocks) i := by
      intro covered
      have low := (inPlace_covers ok covered).1.1
      omega
    rw [Nat.zero_add, same i outside]
    exact (quiet.settled_recorded layout ok).primary i hi
  have read : (g.onDevice d).dev.pread 0 SB_SIZE = .ok (clip SB_SIZE (drop 0 d)) :=
    Device.pread_ok (by simp only [onDevice]; omega)
  unfold findSuperblock
  rw [read]
  simp only [parsed]

theorem record_inPlace (quiet : Quiet g h agLen done prev) (layout : Layout g agLen) {t : Txn}
    (ok : TxnOk g agLen t) {d : Bytes}
    (same : ∀ i, ¬ Write.Covers (g.inPlace t.blocks) i →
      d i = Write.applyAll (h.recordWrites t) h.dev.bytes i) :
    Record g d (h.recordPos t) (g.sb.journalSeq + done.length) t.blocks := by
  have sameJournal : SameJournal g (Write.applyAll (h.recordWrites t) h.dev.bytes) d := by
    intro i low high
    symm
    apply same
    intro covered
    have apart := (inPlace_covers ok covered).2.1
    simp only [Apart] at apart
    omega
  have written :=
    record_written (quiet.layout layout) (quiet.alike.txn ok).recordable h.dev.bytes
  rw [quiet.current.seq] at written
  exact (written.congr quiet.alike.symm fun _ _ _ => rfl).congr (Alike.refl g) sameJournal

/-- A cut inside the second epoch of a commit: the record is on the device, and replay applies it
over whatever part of it had reached its place. -/
theorem recovers_inPlace (quiet : Quiet g h agLen done prev) (layout : Layout g agLen)
    (volume : Durable g agLen) {t : Txn} (ok : ∀ u ∈ done ++ [t], TxnOk g agLen u)
    (seq : g.sb.journalSeq + (done ++ [t]).length + 1 < 2 ^ 64)
    (gen : g.sb.gen + (done ++ [t]).length + 2 < 2 ^ 64)
    (sub : vs.Sublist (h.inPlace t.blocks))
    (cut : log = h.dev.log ++ (h.recordWrites t).map .write ++ [.sync] ++ vs.map .write) {d : Bytes}
    (state : Crash.State g.dev.bytes log d) (crc : Sifted g agLen (done ++ [t]) log d) :
    ∃ g', openRw (g.onDevice d).dev = .ok g' ∧ ∀ u ∈ done ++ [t], ∀ blk ∈ u.targets,
        (readBlock blk g').1 = (readBlock blk (g.applyTxns (done ++ [t]))).1 := by
  have size := layout.blocksize
  have regions := layout.regions
  have okT : TxnOk g agLen t := ok t (by simp)
  have same := fun i => quiet.inPlace_cut sub cut state (i := i)
  have settled := quiet.settled_recorded layout okT
  have record := quiet.record_inPlace layout okT same
  have length : (done ++ [t]).length = done.length + 1 := by simp
  have agmap : ∀ i, g.sb.agmapOffset ≤ i → i < g.sb.agmapOffset + 2 * g.sb.agmapLength →
      d i = g.dev.bytes i := by
    intro i low high
    have outside : ¬ Write.Covers (g.inPlace t.blocks) i := by
      intro covered
      have apart := (inPlace_covers okT covered).2.2
      simp only [Apart] at apart
      omega
    rw [same i outside, settled.body i ⟨by omega, Or.inl (by omega)⟩ (Or.inl (by omega)),
      inPlaceAll_outside (fun u member => ok u (List.mem_append_left _ member)) _ low high]
  obtain ⟨m, g', high, opened, alike, content, accepted⟩ := recovers_found layout volume ok crc
    seq gen (quiet.found_inPlace layout okT same) quiet.current (by omega) (by omega) agmap
  have applied : m = 1 := by
    have some : 0 < m := by
      apply accepted t.blocks
      unfold recordPos at record
      split at record
      · exact Or.inr record
      · exact Or.inl record
    omega
  refine ⟨g', opened, ?_⟩
  intro u member blk target
  obtain ⟨b, inside, rfl⟩ := List.mem_map.mp target
  apply readBlock_target alike ((ok u member).target b inside)
  intro i body outside
  have one : g.inPlaceAll [t] = g.inPlace t.blocks := by simp [inPlaceAll]
  rw [content i body, applied, List.drop_left, inPlaceAll_append, Write.applyAll_append]
  apply Write.applyAll_congr
  by_cases covered : Write.Covers (g.inPlaceAll [t]) i
  · exact Or.inl covered
  · right
    rw [one] at covered
    rw [same i covered, settled.body i body outside]

end Quiet

theorem quiet_start (durable : Durable g agLen) (layout : Layout g agLen) :
    Quiet g g agLen [] g.sb := by
  have point : Checkpoint g 0 g.sb := ⟨layout.fits, Alike.refl g, rfl, rfl⟩
  constructor
  · exact Alike.refl g
  · exact point
  · exact ⟨0, point, Or.inl rfl⟩
  · rw [durable.log]
    exact durable.settled
  · rw [durable.log]
    rfl
  · left
    rw [durable.log]
    exact ⟨rfl, rfl⟩
  · rw [durable.log]
    exact fun w member => absurd member List.not_mem_nil

theorem commitAll_run (layout : Layout g agLen) {rest done : List Txn} {h : Gofs}
    {prev : Superblock}
    (quiet : Quiet g h agLen done prev) (ok : ∀ t ∈ rest, TxnOk g agLen t)
    (gen : g.sb.gen + (done ++ rest).length + 1 < 2 ^ 64)
    (seq : g.sb.journalSeq + (done ++ rest).length + 1 < 2 ^ 64) :
    ∃ h' prev', commitAll rest h = (.ok (), h') ∧ Quiet g h' agLen (done ++ rest) prev' := by
  induction rest generalizing done h prev with
  | nil => exact ⟨h, prev, rfl, by rwa [List.append_nil]⟩
  | cons t rest ih =>
      have okT := ok t List.mem_cons_self
      have total : (done ++ t :: rest).length = done.length + 1 + rest.length := by
        simp
        omega
      have gen₁ : h.sb.gen + 1 < 2 ^ 64 := by
        rw [quiet.current.gen]
        omega
      have seq₁ : h.sb.journalSeq + 1 < 2 ^ 64 := by
        rw [quiet.current.seq]
        omega
      have next := quiet.commit layout okT gen₁ seq₁
      have regroup : done ++ t :: rest = (done ++ [t]) ++ rest := by simp
      rw [regroup] at gen seq ⊢
      obtain ⟨h', prev', run, quiet'⟩ := ih next (fun u member =>
          ok u (List.mem_cons_of_mem _ member))
        gen seq
      refine ⟨h', prev', ?_, quiet'⟩
      rw [commitAll, bind_ok _ _ (commit_run (quiet.layout layout) (quiet.alike.txn okT).recordable
          gen₁ seq₁)]
      exact run

theorem Sifted.mono {ts : List Txn} {log log' : List Event} {d : Bytes}
    (crc : Sifted g agLen ts log d) (same : Crash.durable log = Crash.durable log')
    (sub : (Crash.pending log).Sublist (Crash.pending log')) : Sifted g agLen ts log' d where
  copies off copy sb parsed := by
    obtain ⟨u, ⟨ws, sublist, content⟩, equal⟩ := crc.copies off copy sb parsed
    exact ⟨u, ⟨ws, sublist.trans sub, by rw [content, same]⟩, equal⟩
  records := crc.records

theorem Run.quiet {done : List Txn} {cur : Option Txn} {log : List Event} (layout : Layout g agLen)
    (volume : Durable g agLen) (run : Run g agLen done cur log) :
    ∃ h prev, Quiet g h agLen done prev ∧
      match cur with
      | none => log = h.dev.log
      | some t => Quiet g (h.committed agLen t) agLen (done ++ [t]) h.sb ∧ h.dev.log <+: log ∧
          log <+: (h.committed agLen t).dev.log := by
  obtain ⟨h, committed, cut⟩ := run.cut
  have gen := run.gen
  have seq := run.seq
  have total : (done ++ cur.toList).length = done.length + cur.toList.length := List.length_append
  obtain ⟨h', prev, again, quiet⟩ := commitAll_run layout (quiet_start volume layout)
    (fun t member => run.txns t (List.mem_append_left _ member))
    (by simp only [List.nil_append]; omega) (by simp only [List.nil_append]; omega)
  rw [committed] at again
  injection again with _ same
  subst same
  rw [List.nil_append] at quiet
  refine ⟨h, prev, quiet, ?_⟩
  cases cur with
  | none => exact cut
  | some t =>
      have one : (some t).toList.length = 1 := rfl
      have okT : TxnOk g agLen t := run.txns t (by simp)
      have gen₁ : h.sb.gen + 1 < 2 ^ 64 := by
        rw [quiet.current.gen]
        omega
      have seq₁ : h.sb.journalSeq + 1 < 2 ^ 64 := by
        rw [quiet.current.seq]
        omega
      refine ⟨quiet.commit layout okT gen₁ seq₁, cut.1, ?_⟩
      have whole := cut.2
      rwa [commit_run (quiet.layout layout) (quiet.alike.txn okT).recordable gen₁ seq₁] at whole

theorem Run.logged {done : List Txn} {cur : Option Txn} {log : List Event}
    (layout : Layout g agLen) (volume : Durable g agLen) (run : Run g agLen done cur log)
    (w : Write) (member : .write w ∈ log) : Logged g (done ++ cur.toList) w := by
  obtain ⟨h, prev, quiet, cut⟩ := run.quiet layout volume
  cases cur with
  | none =>
      simp only at cut
      rw [cut] at member
      rw [Option.toList_none, List.append_nil]
      exact quiet.logged w member
  | some t => exact cut.1.logged w (cut.2.2.subset member)

/-- Commits of blocks that do not pass as commit blocks survive every single power cut, on a volume
whose block size the probe for the backup superblock knows and whose journal has no commit block
from the checkpoint on. -/
theorem commit_atomic (layout : Layout g agLen) (volume : Durable g agLen)
    (probed : g.sb.blocksize ≤ 65536)
    (clean : ∀ idx < g.sb.journalLength, ¬ g.Closes (g.journalBlock g.dev.bytes idx))
    {done : List Txn} {cur : Option Txn} {log : List Event} {d : Bytes}
    (run : Run g agLen done cur log)
    (plain : ∀ t ∈ done ++ cur.toList, ∀ b ∈ t.blocks, ¬ g.Closes b.2)
    (state : Crash.State g.dev.bytes log d)
    (crcRejects : CrcRejects g agLen (done ++ cur.toList) log d) : Survives g done cur d := by
  have crc := crcRejects.sifted layout run.txns (run.logged layout volume) run.seq clean plain
  have gen := run.gen
  have seq := run.seq
  have noWrites : ∀ w ∈ ([] : List Write), JournalWrite g w := by simp
  obtain ⟨h, prev, quiet, cut⟩ := run.quiet layout volume
  rcases cur with _ | t
  · simp only at cut
    exact quiet.recovers layout volume probed (by rw [cut]) (by rw [cut, List.append_nil]) noWrites
      rfl (by simp) run.txns seq gen state crc
  · obtain ⟨next, low, high⟩ := cut
    have okT : TxnOk g agLen t := run.txns t (by simp)
    have len : (done ++ (some t).toList).length = done.length + 1 := by simp
    rw [committed_log] at high
    rcases Crash.prefix_writes_cases low high with ⟨vs, sub, rfl⟩ | ⟨low₁, high₁⟩
    · -- inside the first epoch: the record is being written
      have journal : ∀ w ∈ vs, JournalWrite g w := by
        intro w member
        have okT' := quiet.alike.txn okT
        obtain ⟨i, inside, _, off, len⟩ := mem_recordWrites (sub.subset member) okT'.recordable
        rw [quiet.alike.journalLength] at inside
        exact ⟨i, inside, off.trans (quiet.alike.journalOff i), len.trans quiet.alike.blocksize⟩
      exact quiet.recovers layout volume probed (Crash.durable_writes _ _)
          (Crash.pending_writes _ _)
        journal rfl (by simp) run.txns seq gen state crc
    · rcases Crash.prefix_writes_cases low₁ high₁ with ⟨vs, sub, same⟩ | ⟨⟨vs, rfl⟩, high₂⟩
      · -- inside the second epoch: the record is durable, its blocks are being written
        obtain ⟨g', opened, content⟩ := quiet.recovers_inPlace layout volume run.txns seq gen sub
          same state crc
        refine ⟨g', (done ++ [t]).length, opened, by simp, Nat.le_refl _, ?_⟩
        rw [Option.toList_some, List.take_length]
        exact content
      · -- the transaction is applied, the superblock moves on
        have part := (List.prefix_append_right_inj _).mp high₂
        obtain ⟨ws, copies, rfl⟩ := List.prefix_map_iff.mp part
        set head := h.dev.log ++ (h.recordWrites t).map .write ++ [.sync] ++
          (h.inPlace t.blocks).map .write ++ [.sync] with hhead
        have full : (h.committed agLen t).dev.log =
            head ++ (h.superblockWrites agLen (h.checkpoint t)).map .write := committed_epochs h t
        have durable : Crash.durable (head ++ ws.map .write) =
            Crash.durable (h.committed agLen t).dev.log := by
          rw [full, Crash.durable_writes, Crash.durable_writes]
        have sub : (Crash.pending (head ++ ws.map .write)).Sublist
            (Crash.pending (h.committed agLen t).dev.log) := by
          rw [full, Crash.pending_writes, Crash.pending_writes]
          exact copies.sublist.append_left _
        obtain ⟨g', k, opened, from_, upTo, content⟩ := next.recovers layout volume probed
          rfl (List.append_nil _).symm noWrites (List.append_nil _).symm (by simp) run.txns seq gen
          (state.mono durable sub) (crc.mono durable sub)
        rw [List.length_append] at from_
        exact ⟨g', k, opened, by omega, upTo, content⟩

theorem parse_zeros : Superblock.parse zeros = .error "superblock: bad magic" := by
  rw [Superblock.parse, if_pos]
  rw [getU32, getBE_zeros]
  decide

theorem findSuperblock_lost {dev : Device} {bs : Nat} (large : 131072 ≤ bs)
    (file : bs ≤ dev.fileLen) (zero : ∀ i < bs, dev.bytes i = 0) :
    ∃ e, findSuperblock dev = .error e := by
  have sbLen : SB_SIZE = 512 := rfl
  have primary : clip SB_SIZE (drop 0 dev.bytes) = zeros := by
    rw [← clip_zeros SB_SIZE]
    apply clip_congr
    intro i hi
    rw [drop, zero _ (by omega)]
    rfl
  have skip : ∀ probe ∈ probeSizes, SB_SIZE ≤ probe ∧ probe + AGHDR_SIZE ≤ bs := by
    have table : ∀ probe ∈ probeSizes, SB_SIZE ≤ probe ∧ probe + AGHDR_SIZE ≤ 131072 := by decide
    intro probe member
    have entry := table probe member
    omega
  unfold findSuperblock
  rw [Device.pread_ok (by omega), primary]
  simp only [parse_zeros]
  have skipped : probeBackup dev "superblock: bad magic" (probeSizes ++ []) =
      probeBackup dev "superblock: bad magic" [] :=
    probeBackup_skips skip file fun i _ high => zero i high
  exact ⟨_, skipped⟩

/-- Rewriting the block of AG 0's header. -/
def headerTxn (g : Gofs) : Txn := ⟨[(1, clip g.sb.blocksize (drop g.sb.blocksize g.dev.bytes))]⟩

theorem headerTxn_ok (layout : Layout g agLen) (volume : Durable g agLen) :
    TxnOk g agLen g.headerTxn := by
  have size := layout.blocksize
  have length := layout.journalLength
  have regions := layout.regions
  have last := layout.last_bound
  have inside := layout.journal
  have mapped := layout.resolve 1 (by omega)
  rw [Nat.one_mul] at mapped
  have off : g.blockOff 1 = g.sb.blocksize := by rw [blockOff, mapped, Option.getD_some]
  constructor
  · simp [headerTxn]
  · simp only [headerTxn, List.length_singleton, maxTargets, JHDR]
    omega
  · simp only [headerTxn, List.length_singleton]
    omega
  · intro b member
    rw [List.mem_singleton.mp member]
    constructor
    · exact (by decide : 1 < 2 ^ 64)
    · exact clip_clip _ _
    · rw [off]
      exact mapped
    · rw [off]
      omega
    · exact off.ge
    · rw [off]
      exact Or.inl (by omega)
    · rw [off]
      exact Or.inl (by omega)
    · rw [off]
      exact Or.inl (by omega)
    · refine Or.inr ⟨off, volume.settled.header.congr ?_⟩
      intro i hi
      simp only [AGHDR_SIZE] at hi
      exact clip_of_lt _ (by omega)

/-- No journal block passes as a descriptor from the checkpoint on. -/
def Bare (g : Gofs) : Prop :=
  ∀ idx < g.sb.journalLength, ∀ n,
    ¬ Marked g JDESC_MAGIC (g.sb.journalSeq + n) (g.journalBlock g.dev.bytes idx)

theorem headerTxn_records (layout : Layout g agLen) (volume : Durable g agLen) (bare : Bare g)
    {d : Bytes}
    (same : SameJournal g (Write.applyAll (g.recordWrites g.headerTxn) g.dev.bytes) d) {pos n : Nat}
    {blocks : List (Nat × Bytes)} (record : Record g d pos (g.sb.journalSeq + n) blocks) :
    n = 0 ∧ blocks = g.headerTxn.blocks := by
  have ok := headerTxn_ok layout volume
  have size := layout.blocksize
  have written := (record_written layout ok.recordable g.dev.bytes).congr (Alike.refl g) same
  set p := g.recordPos g.headerTxn with hp
  have one : g.headerTxn.blocks.length = 1 := rfl
  have bound := written.inside
  have inside := record.inside
  rw [one] at bound
  have data := written.data
  rw [one] at data
  have image : g.journalBlock d (p + 1) =
      clip g.sb.blocksize (drop g.sb.blocksize g.dev.bytes) := by
    simpa [headerTxn] using data
  have desc := record.desc
  have at_p : pos = p := by
    by_contra other
    by_cases data : pos = p + 1
    · -- the data block starts with the magic of an AG header
      have magic := desc.1
      rw [data, image, getU32, getBE_clip _ (by omega)] at magic
      have header := volume.settled.header.magic
      rw [getU32, magic] at header
      revert header
      decide
    by_cases com : pos = p + 2
    · have magic := desc.1
      have other := written.commit.1
      rw [one] at other
      rw [com, other] at magic
      revert magic
      decide
    apply bare pos (by omega) n
    have old : g.journalBlock d pos = g.journalBlock g.dev.bytes pos := by
      rw [← same.block (by omega)]
      apply journalBlock_congr
      intro i hi
      apply Write.applyAll_of_not_covers
      rintro ⟨w, member, range⟩
      obtain ⟨j, _, window, off, len⟩ := mem_recordWrites member ok.recordable
      have apart := g.journalOff_apart (i := j) (j := pos) (by omega)
      simp only [Apart] at apart
      omega
    rwa [← old]
  subst at_p
  obtain ⟨sequence, same⟩ := written.unique record
  exact ⟨by omega, same⟩

theorem headerTxn_run (layout : Layout g agLen) (volume : Durable g agLen)
    (gen : g.sb.gen + 3 < 2 ^ 64) (seq : g.sb.journalSeq + 2 < 2 ^ 64) :
    Run g agLen [g.headerTxn] none (g.committed agLen g.headerTxn).dev.log := by
  have ok := headerTxn_ok layout volume
  constructor
  · refine ⟨g.committed agLen g.headerTxn, ?_, rfl⟩
    rw [commitAll, bind_ok _ _ (commit_run layout ok.recordable (by omega) (by omega))]
    rfl
  · intro u member
    simp only [Option.toList_none, List.append_nil, List.mem_singleton] at member
    rw [member]
    exact ok
  · show g.sb.gen + 1 + 2 < 2 ^ 64
    omega
  · show g.sb.journalSeq + 1 + 1 < 2 ^ 64
    omega

/-- What the device holds when the power fails after the commit of `headerTxn`: the write of the
primary superblock is torn to zeros, the backup copy not written yet. -/
def headerTorn (g : Gofs) (agLen : Nat) : Bytes :=
  Write.applyAll [⟨0, SB_SIZE, zeros⟩]
    (Write.applyAll (Crash.durable (g.committed agLen g.headerTxn).dev.log) g.dev.bytes)

omit [Crc32c] in
theorem zeroed_outside (d : Bytes) {i : Nat} (low : SB_SIZE ≤ i) :
    Write.applyAll [⟨0, SB_SIZE, zeros⟩] d i = d i := by
  apply Write.applyAll_of_not_covers
  rintro ⟨w, member, range⟩
  rw [List.mem_singleton.mp member] at range
  simp only at range
  omega

theorem headerTorn_state (g : Gofs) (agLen : Nat) :
    Crash.State g.dev.bytes (g.committed agLen g.headerTxn).dev.log (g.headerTorn agLen) := by
  have pending := @pending_committed _ agLen g g.headerTxn
  refine ⟨[⟨0, SB_SIZE, (g.checkpoint g.headerTxn).toBytes⟩], _, ?_,
    Or.inr ⟨[], _, [], zeros, rfl, rfl⟩, rfl⟩
  rw [pending]
  simp [superblockWrites]

theorem headerTorn_zero (layout : Layout g agLen) (volume : Durable g agLen)
    (gen : g.sb.gen + 3 < 2 ^ 64) (seq : g.sb.journalSeq + 2 < 2 ^ 64) {i : Nat}
    (hi : i < g.sb.blocksize) : g.headerTorn agLen i = 0 := by
  have quiet := (quiet_start volume layout).commit layout (headerTxn_ok layout volume)
    (by omega) (by omega)
  by_cases low : SB_SIZE ≤ i
  · rw [headerTorn, zeroed_outside _ low]
    exact quiet.settled.padding i low hi
  · rw [headerTorn, Write.applyAll_cons, Write.applyAll_nil, Write.apply,
      copyAt_of_mem (by simp only; omega)]
    rfl

theorem headerTorn_crc (layout : Layout g agLen) (volume : Durable g agLen) (bare : Bare g)
    (gen : g.sb.gen + 3 < 2 ^ 64) (seq : g.sb.journalSeq + 2 < 2 ^ 64) :
    CrcRejects g agLen [g.headerTxn] (g.committed agLen g.headerTxn).dev.log
      (g.headerTorn agLen) := by
  have size := layout.blocksize
  have regions := layout.regions
  have sbLen : SB_SIZE = 512 := rfl
  have ok := headerTxn_ok layout volume
  set log := (g.committed agLen g.headerTxn).dev.log with hlog
  set u := Write.applyAll (Crash.durable log) g.dev.bytes with hu
  have untorn : Crash.Untorn g.dev.bytes log u := ⟨[], List.nil_sublist _, rfl⟩
  have outside : ∀ i, SB_SIZE ≤ i → g.headerTorn agLen i = u i := fun i => zeroed_outside _
  have journal : SameJournal g (Write.applyAll (g.recordWrites g.headerTxn) g.dev.bytes)
      (g.headerTorn agLen) := by
    intro i low high
    have moved :=
        inPlaceAll_journal
        (fun t (member : t ∈ [g.headerTxn]) => by
          rw [List.mem_singleton.mp member]
          exact ok.recordable.home)
      (Write.applyAll (g.recordWrites g.headerTxn) g.dev.bytes) i low high
    rw [moved, outside i (by omega), hu, hlog, (quiet_start volume layout).durable_committed]
    simp [inPlaceAll]
  constructor
  · rintro off (rfl | rfl) sb parsed
    · have zero : clip SB_SIZE (drop 0 (g.headerTorn agLen)) = zeros := by
        rw [← clip_zeros SB_SIZE, drop_zero]
        exact clip_congr fun i hi => headerTorn_zero layout volume gen seq (by omega)
      rw [zero, parse_zeros] at parsed
      cases parsed
    · exact ⟨u, untorn, fun i _ => outside _ (by omega)⟩
  · intro idx inside _
    have part := g.journalOff_inside inside
    exact ⟨u, untorn, journalBlock_congr fun i _ => outside _ (by omega)⟩
  · intro pos n blocks t found accepted _
    have layout' := layout.alike (alike_onDevice g (g.headerTorn agLen)) layout.fits
    obtain ⟨r, read, sound⟩ := tryReadTxn_sound layout' pos (g.sb.journalSeq + n)
    rw [read] at accepted
    injection accepted with accepted
    have record := (sound blocks accepted).congr (alike_onDevice g (g.headerTorn agLen)).symm
      fun _ _ _ => rfl
    obtain ⟨rfl, same⟩ := headerTxn_records layout volume bare journal record
    rw [List.getElem?_cons_zero, Option.some.injEq] at found
    rw [same, ← found]

theorem not_atomic_of_large (layout : Layout g agLen) (volume : Durable g agLen) (bare : Bare g)
    (gen : g.sb.gen + 3 < 2 ^ 64) (seq : g.sb.journalSeq + 2 < 2 ^ 64)
    (large : 65536 < g.sb.blocksize) : ¬ Atomic g agLen := by
  intro atomic
  have regions := layout.regions
  have last := layout.last_bound
  have big : 131072 ≤ g.sb.blocksize := by
    obtain ⟨k, _, same⟩ := isPowerOfTwo_iff.mp layout.fits.blocksize.1
    rw [same] at large ⊢
    have bound : 16 < k := (Nat.pow_lt_pow_iff_right (by decide)).mp
        (show 2 ^ 16 < 2 ^ k from large)
    exact Nat.pow_le_pow_right (show 0 < 2 by decide) bound
  obtain ⟨g', _, opened, _⟩ := atomic _ none _ _ (headerTxn_run layout volume gen seq)
    (headerTorn_state g agLen) (headerTorn_crc layout volume bare gen seq)
  have file : g.sb.blocksize ≤ (g.onDevice (g.headerTorn agLen)).dev.fileLen := by
    simp only [onDevice]
    omega
  obtain ⟨e, lost⟩ := findSuperblock_lost big file fun i => headerTorn_zero layout volume gen seq
  rw [openRw, lost] at opened
  cases opened

/-- A volume of sixteen blocks in one AG. -/
def smallSb (bs : Nat) : Superblock where
  blocksize := bs
  inodesize := bs / 16
  nextAg := 1
  agmapOffset := 2 * bs
  agmapLength := bs
  journalStart := 4
  journalLength := 8
  gen := 1
  journalSeq := 1

def smallMap : AgMap := ⟨1, [⟨AGF_PRESENT, 16, [⟨0, 16, 0⟩]⟩]⟩

def smallHeader : AgHeader := { length := 16, gen := 1, rsvdBlocks := 16, allocRoot := 2 }

def smallVolume (bs : Nat) : Gofs where
  dev := {
    bytes := Write.applyAll [⟨bs, AGHDR_SIZE, smallHeader.toBytes⟩,
      ⟨2 * bs, bs, (smallMap.toBytes bs).toOption.getD zeros⟩,
      ⟨3 * bs, bs, (smallMap.toBytes bs).toOption.getD zeros⟩,
      ⟨0, SB_SIZE, (smallSb bs).toBytes⟩,
      ⟨15 * bs, SB_SIZE, (smallSb bs).toBytes⟩] zeros
    fileLen := 16 * bs
    size := 16 * bs }
  sb := smallSb bs
  map := smallMap

omit [Crc32c] in
theorem smallSb_fits {bs : Nat} (power : Superblock.isPowerOfTwo bs = true) (low : 2048 ≤ bs)
    (high : bs < 2 ^ 20) : (smallSb bs).Fits := by
  constructor <;> simp only [smallSb] <;> first | omega | decide | exact ⟨power, by omega⟩

theorem smallVolume_layout {bs : Nat} (power : Superblock.isPowerOfTwo bs = true) (low : 2048 ≤ bs)
    (high : bs < 2 ^ 20) : Layout (smallVolume bs) 16 := by
  constructor
  · exact smallSb_fits power low high
  · exact low
  · exact ⟨⟨AGF_PRESENT, 16, [⟨0, 16, 0⟩]⟩, [], rfl, by decide, rfl, rfl⟩
  · decide
  · exact Nat.le_refl _
  · simp only [smallVolume, smallSb]
    omega
  · exact (by decide : 4 + 8 < 16)
  · exact (by decide : 3 ≤ 8)

theorem smallVolume_bytes (bs : Nat) : (smallVolume bs).dev.bytes =
    copyAt (copyAt (copyAt (copyAt (copyAt zeros bs AGHDR_SIZE smallHeader.toBytes)
      (2 * bs) bs ((smallMap.toBytes bs).toOption.getD zeros))
      (3 * bs) bs ((smallMap.toBytes bs).toOption.getD zeros)) 0 SB_SIZE (smallSb bs).toBytes)
      (15 * bs) SB_SIZE (smallSb bs).toBytes := rfl

theorem smallVolume_durable {bs : Nat} (low : 2048 ≤ bs)
    (high : bs < 2 ^ 20) : Durable (smallVolume bs) 16 := by
  have bs' : (smallVolume bs).sb.blocksize = bs := rfl
  have sbLen : SB_SIZE = 512 := rfl
  have hdrLen : AGHDR_SIZE = 64 := rfl
  have bytes := smallVolume_bytes bs
  obtain ⟨b, encoded⟩ : ∃ b, smallMap.toBytes bs = .ok b := by
    have room : ¬ AGMAP_HDR + 8 + 16 > bs := by
      simp only [AGMAP_HDR]
      omega
    simp only [AgMap.toBytes, smallMap, AgMap.putEntries, List.length_singleton, Nat.one_mul,
      if_neg room]
    exact ⟨_, rfl⟩
  have copy : (smallMap.toBytes bs).toOption.getD zeros = b := by
    rw [encoded]
    rfl
  have fits : smallMap.Fits := by
    refine ⟨by decide, by decide, ?_⟩
    intro e member
    rw [List.mem_singleton.mp member]
    refine ⟨by decide, by decide, by decide, ?_⟩
    intro s member
    rw [List.mem_singleton.mp member]
    exact ⟨by decide, by decide, by decide⟩
  have map : AgMap.parse (clip bs b) bs = .ok smallMap :=
    AgMap.parse_toBytes fits (by omega) (by simp only [AGMAP_HDR]; omega) encoded
  constructor
  · rfl
  · constructor
    · intro i hi
      rw [bytes, copyAt_of_not_mem (by omega), copyAt_of_mem (by omega)]
      rfl
    · intro i hi
      rw [bytes, bs', copyAt_of_mem (by omega), Nat.add_sub_cancel_left]
      rfl
    · intro i from_ upTo
      rw [bs'] at upTo
      rw [bytes, copyAt_of_not_mem (by omega), copyAt_of_not_mem (by omega),
        copyAt_of_not_mem (by omega), copyAt_of_not_mem (by omega), copyAt_of_not_mem (by omega)]
      rfl
    · have parsed : AgHeader.parse (clip AGHDR_SIZE smallHeader.toBytes) = .ok smallHeader := by
        rw [AgHeader.parse_clip, AgHeader.parse_toBytes]
        constructor <;> decide
      refine HeaderOk.congr ⟨smallHeader, parsed, rfl, rfl⟩ ?_
      intro i hi
      rw [drop, bs', bytes, copyAt_of_not_mem (by omega), copyAt_of_not_mem (by omega),
        copyAt_of_not_mem (by omega), copyAt_of_not_mem (by omega), copyAt_of_mem (by omega),
        Nat.add_sub_cancel_left]
    · intro i _ _
      rfl
  · have read : ∀ k, k < 2 → readAgmapCopy (smallVolume bs).dev (smallVolume bs).sb k =
        .ok smallMap := by
      intro k hk
      have size : (smallVolume bs).sb.agmapLength = bs := rfl
      have offset : (smallVolume bs).sb.agmapOffset = 2 * bs := rfl
      have file : (smallVolume bs).dev.fileLen = 16 * bs := rfl
      have part : k * bs + bs ≤ 2 * bs := by
        rw [← Nat.succ_mul]
        exact Nat.mul_le_mul_right _ hk
      rw [readAgmapCopy, offset, size, Device.pread_ok (by omega)]
      change AgMap.parse _ bs = _
      rw [← map]
      congr 1
      apply clip_congr
      intro i hi
      rw [drop, bytes, copyAt_of_not_mem (by omega), copyAt_of_not_mem (by omega), copy]
      obtain rfl | rfl : k = 0 ∨ k = 1 := by omega
      · rw [copyAt_of_not_mem (by omega), copyAt_of_mem (by omega)]
        congr 1
        omega
      · rw [copyAt_of_mem (by omega)]
        congr 1
        omega
    rw [loadAgmap, read 0 (by decide), read 1 (by decide)]
    rfl

theorem smallVolume_journal {bs : Nat} (low : 2048 ≤ bs) {idx : Nat} (inside : idx < 8) :
    (smallVolume bs).journalBlock (smallVolume bs).dev.bytes idx = zeros := by
  have bs' : (smallVolume bs).sb.blocksize = bs := rfl
  have sbLen : SB_SIZE = 512 := rfl
  have hdrLen : AGHDR_SIZE = 64 := rfl
  have off : (smallVolume bs).journalOff idx = (4 + idx) * bs := rfl
  have from_ : 4 * bs ≤ (4 + idx) * bs := Nat.mul_le_mul_right _ (by omega)
  have upTo : (4 + idx) * bs + bs ≤ 12 * bs := by
    rw [← Nat.succ_mul]
    exact Nat.mul_le_mul_right _ (by omega)
  rw [journalBlock, bs', off, ← clip_zeros bs]
  apply clip_congr
  intro i hi
  rw [drop, smallVolume_bytes, copyAt_of_not_mem (by omega), copyAt_of_not_mem (by omega),
    copyAt_of_not_mem (by omega), copyAt_of_not_mem (by omega), copyAt_of_not_mem (by omega)]
  rfl

theorem smallVolume_unmarked {bs : Nat} (low : 2048 ≤ bs) {magic seq idx : Nat} (some : magic ≠ 0)
    (inside : idx < (smallVolume bs).sb.journalLength) :
    ¬ Marked (smallVolume bs) magic seq
      ((smallVolume bs).journalBlock (smallVolume bs).dev.bytes idx) := by
  intro marked
  have equal := marked.1
  rw [smallVolume_journal low inside, getU32, getBE_zeros] at equal
  exact some equal.symm

theorem smallVolume_bare {bs : Nat} (low : 2048 ≤ bs) : Bare (smallVolume bs) :=
  fun _ inside _ => smallVolume_unmarked low (by decide) inside

theorem headerTxn_plain (layout : Layout g agLen) (volume : Durable g agLen) {b : Nat × Bytes}
    (member : b ∈ g.headerTxn.blocks) : ¬ g.Closes b.2 := by
  rintro ⟨n, marked⟩
  have size := layout.blocksize
  have magic := marked.1
  rw [List.mem_singleton.mp member, getU32, getBE_clip _ (by omega)] at magic
  have header := volume.settled.header.magic
  rw [getU32, magic] at header
  revert header
  decide

omit [Crc32c] in
/-- The header of AG 0 is rewritten, and the power fails with the primary superblock torn. -/
theorem commit_atomic_small :
    let crc := castagnoli
    let g := @smallVolume crc 4096
    ∃ log d, Run g 16 [g.headerTxn] none log ∧ Crash.State g.dev.bytes log d ∧
      (∀ i < 4096, d i = 0) ∧ Survives g [g.headerTxn] none d := by
  intro crc g
  have layout : Layout g 16 := smallVolume_layout (by decide) (by decide) (by decide)
  have volume : Durable g 16 := smallVolume_durable (by decide) (by decide)
  have bare : Bare g := smallVolume_bare (by decide)
  have run := headerTxn_run layout volume (by decide) (by decide)
  have state := headerTorn_state g 16
  have zero := fun i => headerTorn_zero layout volume (by decide) (by decide) (i := i)
  have clean : ∀ idx < g.sb.journalLength, ¬ g.Closes (g.journalBlock g.dev.bytes idx) := by
    rintro idx inside ⟨n, marked⟩
    exact smallVolume_unmarked (by decide) (by decide) inside marked
  have plain : ∀ t ∈ [g.headerTxn] ++ none.toList, ∀ b ∈ t.blocks, ¬ g.Closes b.2 := by
    intro t member b inside
    rw [List.mem_singleton.mp member] at inside
    exact headerTxn_plain layout volume inside
  exact ⟨_, _, run, state, zero, commit_atomic layout volume (by decide) clean run plain state
    (headerTorn_crc layout volume bare (by decide) (by decide))⟩

omit [Crc32c] in
/-- A block size that mkfs takes and no probe knows. -/
theorem commit_not_atomic : Layout (@smallVolume castagnoli 131072) 16 ∧
    @Durable castagnoli (@smallVolume castagnoli 131072) 16 ∧
    @Bare castagnoli (@smallVolume castagnoli 131072) ∧
    ¬ @Atomic castagnoli (@smallVolume castagnoli 131072) 16 :=
  have layout := @smallVolume_layout castagnoli 131072 (by decide) (by decide) (by decide)
  have volume := @smallVolume_durable castagnoli 131072 (by decide) (by decide)
  have bare := @smallVolume_bare castagnoli 131072 (by decide)
  ⟨layout, volume, bare, @not_atomic_of_large castagnoli _ 16 layout volume bare (by decide)
    (by decide) (by decide)⟩

end Gofs

end FiveFs

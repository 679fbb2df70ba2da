import FiveFs.Layout

/-! What a writable open does on given device contents: it accepts journal records by their bytes
alone, applies them in place and moves the superblock on. -/

namespace FiveFs

open Buffer

namespace Gofs

open Prog

variable {g : Gofs} {agLen : Nat}

def journalBlock (g : Gofs) (d : Bytes) (idx : Nat) : Bytes :=
  clip g.sb.blocksize (drop (g.journalOff idx) d)

theorem journalOff_apart (g : Gofs) {i j : Nat} (different : i ≠ j) :
    Apart (g.journalOff i) g.sb.blocksize (g.journalOff j) g.sb.blocksize := by
  have step : ∀ k l : Nat, k < l → g.journalOff k + g.sb.blocksize ≤ g.journalOff l := by
    intro k l less
    calc
      g.journalOff k + g.sb.blocksize = (g.sb.journalStart + k + 1) * g.sb.blocksize := by
        rw [journalOff, Nat.succ_mul]
      _ ≤ g.journalOff l := Nat.mul_le_mul_right _ (by omega)
  rcases Nat.lt_or_gt_of_ne different with less | more
  · exact Or.inl (step i j less)
  · exact Or.inr (step j i more)

theorem journalOff_inside (g : Gofs) {idx : Nat} (inside : idx < g.sb.journalLength) :
    g.journalOff 0 ≤ g.journalOff idx ∧
      g.journalOff idx + g.sb.blocksize ≤ g.journalOff 0 + g.sb.journalLength * g.sb.blocksize := by
  have split : g.journalOff idx = g.journalOff 0 + idx * g.sb.blocksize := by
    rw [journalOff, journalOff, Nat.add_mul, Nat.add_mul, Nat.zero_mul, Nat.add_zero]
  have high : idx * g.sb.blocksize + g.sb.blocksize ≤ g.sb.journalLength * g.sb.blocksize := by
    rw [← Nat.succ_mul]
    exact Nat.mul_le_mul_right _ inside
  omega

theorem journalBlock_congr {d e : Bytes} {idx : Nat}
    (same : ∀ i < g.sb.blocksize, d (g.journalOff idx + i) = e (g.journalOff idx + i)) :
    g.journalBlock d idx = g.journalBlock e idx := clip_congr same

theorem journalBlock_written (ws vs : List Write) (idx : Nat) (data d : Bytes)
    (later : ∀ w ∈ vs, ∃ i ≠ idx, w.off = g.journalOff i ∧ w.len = g.sb.blocksize) :
    g.journalBlock (Write.applyAll (ws ++ ⟨g.journalOff idx, g.sb.blocksize, data⟩ :: vs) d) idx =
      clip g.sb.blocksize data := by
  apply clip_congr
  intro i hi
  rw [drop, Write.applyAll_last]
  · simp
  · simp only
    omega
  · rintro ⟨w, member, range⟩
    obtain ⟨j, different, off, len⟩ := later w member
    have apart := g.journalOff_apart different
    simp only [Apart] at apart
    omega

theorem journalBlocks_written (vs : List Write) (idx : Nat) (blocks : List Bytes) (d : Bytes)
    (later : ∀ w ∈ vs, ∃ i, (i < idx ∨ idx + blocks.length ≤ i) ∧ w.off = g.journalOff i ∧
      w.len = g.sb.blocksize) :
    (List.range' idx blocks.length).map
        (g.journalBlock (Write.applyAll (g.recordData idx blocks ++ vs) d)) =
      blocks.map (clip g.sb.blocksize) := by
  induction blocks generalizing idx d with
  | nil => rfl
  | cons data rest ih =>
      rw [List.length_cons, List.range'_succ, List.map_cons, List.map_cons]
      congr 1
      · apply journalBlock_written []
        intro w member
        rcases List.mem_append.mp member with inner | outer
        · obtain ⟨i, low, _, off, len⟩ := mem_recordData inner
          exact ⟨i, by omega, off, len⟩
        · obtain ⟨i, range, off, len⟩ := later w outer
          rw [List.length_cons] at range
          exact ⟨i, by omega, off, len⟩
      · apply ih
        intro w member
        obtain ⟨i, range, off, len⟩ := later w member
        rw [List.length_cons] at range
        exact ⟨i, by omega, off, len⟩

theorem journalRead_run (layout : Layout g agLen) {idx : Nat} (inside : idx < g.sb.journalLength) :
    journalRead idx g = (.ok (g.journalBlock g.dev.bytes idx), g) := by
  have bound := layout.journalOff_bound inside
  have last := layout.last_bound
  have read : g.dev.pread (g.journalOff idx) g.sb.blocksize =
      .ok (clip g.sb.blocksize (drop (g.journalOff idx) g.dev.bytes)) :=
    Device.pread_ok (by omega)
  simp only [journalRead, bind_run, get_run, layout.journalPhys inside, pread, read]
  rfl

theorem journalReadData_run (layout : Layout g agLen) {n idx : Nat}
    (inside : idx + n ≤ g.sb.journalLength) :
    journalReadData idx n g = (.ok ((List.range' idx n).map (g.journalBlock g.dev.bytes)), g) := by
  induction n generalizing idx with
  | zero => rfl
  | succ n ih =>
      rw [journalReadData, bind_ok _ _ (journalRead_run layout (by omega)),
        bind_ok _ _ (ih (by omega))]
      rfl

/-- Two device contents with the same journal. -/
def SameJournal (g : Gofs) (d e : Bytes) : Prop :=
  ∀ i, g.journalOff 0 ≤ i → i < g.journalOff 0 + g.sb.journalLength * g.sb.blocksize → d i = e i

theorem SameJournal.trans {d e f : Bytes} (h : SameJournal g d e) (h' : SameJournal g e f) :
    SameJournal g d f := fun i low high => (h i low high).trans (h' i low high)

theorem SameJournal.back {d e : Bytes} {g' : Gofs} (h : SameJournal g d e) (alike : Alike g g') :
    SameJournal g' e d := by
  intro i low high
  rw [alike.journalOff] at low high
  rw [alike.journalLength, alike.blocksize] at high
  exact (h i low high).symm

theorem SameJournal.block {d e : Bytes} (same : SameJournal g d e) {idx : Nat}
    (inside : idx < g.sb.journalLength) : g.journalBlock d idx = g.journalBlock e idx := by
  apply journalBlock_congr
  intro i hi
  have part := g.journalOff_inside inside
  apply same <;> omega

/-- A byte outside the blocks that hold the superblock copies. -/
def Body (g : Gofs) (agLen i : Nat) : Prop :=
  g.sb.blocksize ≤ i ∧ Apart i 1 ((agLen - 1) * g.sb.blocksize) g.sb.blocksize

theorem journal_body (layout : Layout g agLen) {i : Nat} (low : g.journalOff 0 ≤ i)
    (high : i < g.journalOff 0 + g.sb.journalLength * g.sb.blocksize) : Body g agLen i := by
  have regions := layout.regions
  constructor
  · omega
  · left
    omega

variable [Crc32c]

/-- A journal block that passes as a record's first or last block. -/
def Marked (g : Gofs) (magic seq : Nat) (b : Bytes) : Prop :=
  getU32 b 0 = magic ∧ getU32 b 4 = csum b g.sb.blocksize 4 ∧ getU64 b 8 = seq

/-- A record for `seq` at journal index `pos` that replay accepts on contents `d`. -/
structure Record (g : Gofs) (d : Bytes) (pos seq : Nat) (blocks : List (Nat × Bytes)) : Prop where
  nonempty : blocks ≠ []
  targets : blocks.length ≤ maxTargets g.sb.blocksize
  inside : pos + blocks.length + 2 ≤ g.sb.journalLength
  desc : Marked g JDESC_MAGIC seq (g.journalBlock d pos)
  count : getU32 (g.journalBlock d pos) 16 = blocks.length
  commit : Marked g JCOMMIT_MAGIC seq (g.journalBlock d (pos + blocks.length + 1))
  addrs : getArr 8 (g.journalBlock d pos) JHDR blocks.length = blocks.map Prod.fst
  data : (List.range' (pos + 1) blocks.length).map (g.journalBlock d) = blocks.map Prod.snd
  sum : txnCsum g.sb.blocksize (g.journalBlock d pos) (blocks.map Prod.snd) =
    getU32 (g.journalBlock d (pos + blocks.length + 1)) 16

/-- `try_read_txn` accepts nothing but records, and leaves the state alone. -/
theorem tryReadTxn_sound (layout : Layout g agLen) (pos seq : Nat) :
    ∃ r, tryReadTxn pos seq g = (.ok r, g) ∧
      ∀ blocks, r = some blocks → Record g g.dev.bytes pos seq blocks := by
  have rejected : ∀ blocks, (none : Option (List (Nat × Bytes))) = some blocks →
      Record g g.dev.bytes pos seq blocks := by
    intro blocks h
    cases h
  by_cases short : pos + 2 > g.sb.journalLength
  · refine ⟨none, ?_, rejected⟩
    simp only [tryReadTxn, bind_run, get_run, ite_run, if_pos short, pure_run]
  have readDesc := journalRead_run layout (show pos < g.sb.journalLength by omega)
  simp only [tryReadTxn, bind_run, get_run, ite_run, if_neg short, readDesc]
  generalize hdesc : g.journalBlock g.dev.bytes pos = desc
  by_cases bad : getU32 desc 0 ≠ JDESC_MAGIC ∨ getU32 desc 4 ≠ csum desc g.sb.blocksize 4 ∨
      getU64 desc 8 ≠ seq
  · refine ⟨none, ?_, rejected⟩
    rw [if_pos bad]
    rfl
  rw [if_neg bad]
  generalize hcount : getU32 desc 16 = count
  by_cases badCount : count = 0 ∨ count > maxTargets g.sb.blocksize ∨
      pos + count + 2 > g.sb.journalLength
  · refine ⟨none, ?_, rejected⟩
    rw [if_pos badCount]
    rfl
  rw [if_neg badCount, journalRead_run layout (by omega)]
  dsimp only
  generalize hcom : g.journalBlock g.dev.bytes (pos + count + 1) = com
  by_cases badCom : getU32 com 0 ≠ JCOMMIT_MAGIC ∨ getU32 com 4 ≠ csum com g.sb.blocksize 4 ∨
      getU64 com 8 ≠ seq
  · refine ⟨none, ?_, rejected⟩
    rw [if_pos badCom]
    rfl
  rw [if_neg badCom, journalReadData_run layout (by omega)]
  dsimp only
  generalize hblocks : (List.range' (pos + 1) count).map (g.journalBlock g.dev.bytes) = blocks
  by_cases torn : txnCsum g.sb.blocksize desc blocks ≠ getU32 com 16
  · refine ⟨none, ?_, rejected⟩
    rw [if_pos torn]
    rfl
  rw [if_neg torn]
  refine ⟨_, rfl, ?_⟩
  intro found same
  rw [Option.some.injEq] at same
  subst same
  have lengths : (getArr 8 desc JHDR count).length = blocks.length := by
    simp [getArr, ← hblocks]
  have first : ((getArr 8 desc JHDR count).zip blocks).map Prod.fst = getArr 8 desc JHDR count :=
    List.map_fst_zip lengths.le
  have second : ((getArr 8 desc JHDR count).zip blocks).map Prod.snd = blocks :=
    List.map_snd_zip lengths.ge
  have length : ((getArr 8 desc JHDR count).zip blocks).length = count := by
    simp [getArr, ← hblocks]
  push Not at bad badCom torn
  constructor
  · rw [← List.length_pos_iff, length]
    omega
  · omega
  · omega
  · rw [hdesc]
    exact bad
  · rw [hdesc, hcount, length]
  · rw [length, hcom]
    exact badCom
  · rw [length, hdesc, first]
  · rw [length, hblocks, second]
  · rw [second, hdesc, length, hcom, torn]

theorem tryReadTxn_complete (layout : Layout g agLen) {pos seq : Nat} {blocks : List (Nat × Bytes)}
    (record : Record g g.dev.bytes pos seq blocks) :
    tryReadTxn pos seq g = (.ok (some blocks), g) := by
  have inside := record.inside
  have count := record.count
  have some : 0 < blocks.length := List.length_pos_iff.mpr record.nonempty
  have targets := record.targets
  obtain ⟨magic, sum, same⟩ := record.desc
  obtain ⟨magic', sum', same'⟩ := record.commit
  have short : ¬ pos + 2 > g.sb.journalLength := by omega
  have readDesc := journalRead_run layout (show pos < g.sb.journalLength by omega)
  simp only [tryReadTxn, bind_run, get_run, ite_run, if_neg short, readDesc, count]
  rw [if_neg (by simp [magic, sum, same]), if_neg (by omega), journalRead_run layout (by omega)]
  dsimp only
  rw [if_neg (by simp [magic', sum', same']), journalReadData_run layout (by omega)]
  dsimp only
  rw [record.data, if_neg (by simp [record.sum]), record.addrs]
  rw [← List.zip_of_prod rfl rfl]
  rfl

omit [Crc32c] in
theorem addrs_lt {t : Txn} (ok : Recordable g t) : ∀ blk ∈ t.targets, blk < 2 ^ 64 := by
  intro blk member
  obtain ⟨b, inside, rfl⟩ := List.mem_map.mp member
  exact ok.addr b inside

omit [Crc32c] in
theorem length_lt {t : Txn} (layout : Layout g agLen) (ok : Recordable g t) :
    t.blocks.length < 2 ^ 32 ∧ JHDR + 8 * t.blocks.length ≤ g.sb.blocksize := by
  have large := layout.fits.blocksize_lt
  have size := layout.blocksize
  have bound := ok.targets
  simp only [maxTargets, JHDR] at bound ⊢
  omega

/-- The record a commit writes is one that replay accepts. -/
theorem record_written (layout : Layout g agLen) {t : Txn} (ok : Recordable g t) (d : Bytes) :
    Record g (Write.applyAll (g.recordWrites t) d) (g.recordPos t) g.sb.journalSeq t.blocks := by
  set bs := g.sb.blocksize with hbs
  set pos := g.recordPos t with hpos
  set desc := descBlock bs g.sb.journalSeq t.targets with hdesc
  set blocks := t.blocks.map Prod.snd with hblocks
  set com := commitBlock bs g.sb.journalSeq (txnCsum bs desc blocks) with hcom
  have size := layout.blocksize
  have small := length_lt layout ok
  have large : JHDR ≤ bs := by
    simp only [JHDR]
    omega
  have field : 4 + 4 ≤ bs := by omega
  have length : blocks.length = t.blocks.length := List.length_map _
  have whole : blocks.map (clip bs) = blocks := by
    rw [hblocks, List.map_map]
    apply List.map_congr_left
    intro b member
    exact ok.whole b member
  have atDesc : g.journalBlock (Write.applyAll (g.recordWrites t) d) pos = clip bs desc := by
    apply journalBlock_written []
    intro w member
    rcases List.mem_append.mp member with data | commit
    · obtain ⟨i, low, _, off, len⟩ := mem_recordData data
      exact ⟨i, by omega, off, len⟩
    · rw [List.mem_singleton.mp commit]
      exact ⟨pos + t.blocks.length + 1, by omega, rfl, rfl⟩
  have atData : (List.range' (pos + 1) t.blocks.length).map
      (g.journalBlock (Write.applyAll (g.recordWrites t) d)) = blocks := by
    have read := journalBlocks_written (g := g)
      [⟨g.journalOff (pos + t.blocks.length + 1), bs, com⟩] (pos + 1) blocks
      (Write.apply ⟨g.journalOff pos, bs, desc⟩ d) (by
        intro w member
        rw [List.mem_singleton.mp member]
        exact ⟨pos + t.blocks.length + 1, by omega, rfl, rfl⟩)
    rw [whole, length] at read
    exact read
  have atCommit : g.journalBlock (Write.applyAll (g.recordWrites t) d) (pos + t.blocks.length + 1) =
      clip bs com := by
    have read := journalBlock_written (g := g)
      (⟨g.journalOff pos, bs, desc⟩ :: g.recordData (pos + 1) blocks) []
      (pos + t.blocks.length + 1) com d (by simp)
    exact read
  have targets : t.targets.length = t.blocks.length := List.length_map _
  constructor
  · exact ok.nonempty
  · exact ok.targets
  · have bound := recordPos_bound ok
    omega
  · rw [atDesc]
    refine ⟨?_, ?_, ?_⟩
    · rw [getU32, getBE_clip _ (by omega)]
      exact descBlock_magic
    · rw [getU32, getBE_clip _ (by omega), csum_clip _ field]
      exact descBlock_csum large
    · rw [getU64, getBE_clip _ (by omega)]
      exact descBlock_seq layout.fits.journalSeq
  · rw [atDesc, getU32, getBE_clip _ (by omega), ← targets]
    exact descBlock_count (by omega)
  · rw [atCommit]
    refine ⟨?_, ?_, ?_⟩
    · rw [getU32, getBE_clip _ (by omega)]
      exact commitBlock_magic
    · rw [getU32, getBE_clip _ (by omega), csum_clip _ field]
      exact commitBlock_csum large
    · rw [getU64, getBE_clip _ (by omega)]
      exact commitBlock_seq layout.fits.journalSeq
  · have read : getArr 8 (clip bs desc) JHDR t.blocks.length = getArr 8 desc JHDR t.blocks.length :=
      getArr_congr fun i hi => clip_of_lt _ (by omega)
    rw [atDesc, read, ← targets]
    exact descBlock_targets (addrs_lt ok)
  · exact atData
  · have sum := @txnCsum_clip _ bs desc blocks
    rw [whole] at sum
    rw [atDesc, atCommit, getU32, getBE_clip _ (by omega), sum]
    exact (commitBlock_txnCsum (txnCsum_lt _ _)).symm

theorem Record.of_blocks {d e : Bytes} {pos seq : Nat} {blocks : List (Nat × Bytes)} {g' : Gofs}
    (record : Record g d pos seq blocks) (alike : Alike g g')
    (block : ∀ idx, pos ≤ idx → idx ≤ pos + blocks.length + 1 →
    g'.journalBlock e idx = g.journalBlock d idx) :
    Record g' e pos seq blocks := by
  have atDesc := block pos (by omega) (by omega)
  have atCommit := block (pos + blocks.length + 1) (by omega) (by omega)
  constructor
  · exact record.nonempty
  · rw [alike.blocksize]
    exact record.targets
  · rw [alike.journalLength]
    exact record.inside
  · rw [atDesc, Marked, alike.blocksize]
    exact record.desc
  · rw [atDesc]
    exact record.count
  · rw [atCommit, Marked, alike.blocksize]
    exact record.commit
  · rw [atDesc]
    exact record.addrs
  · rw [← record.data]
    apply List.map_congr_left
    intro idx member
    obtain ⟨low, high⟩ := List.mem_range'_1.mp member
    exact block idx (by omega) (by omega)
  · rw [atDesc, atCommit, alike.blocksize]
    exact record.sum

theorem Record.congr {d e : Bytes} {pos seq : Nat} {blocks : List (Nat × Bytes)} {g' : Gofs}
    (record : Record g d pos seq blocks) (alike : Alike g g') (same : SameJournal g d e) :
    Record g' e pos seq blocks := by
  have inside := record.inside
  apply record.of_blocks alike
  intro idx _ high
  rw [same.block (by omega), journalBlock, journalBlock, alike.blocksize, alike.journalOff]

theorem Record.unique {d : Bytes} {pos seq seq' : Nat} {blocks blocks' : List (Nat × Bytes)}
    (record : Record g d pos seq blocks) (record' : Record g d pos seq' blocks') :
    seq' = seq ∧ blocks' = blocks := by
  have length : blocks'.length = blocks.length := by rw [← record'.count, record.count]
  have first : blocks'.map Prod.fst = blocks.map Prod.fst := by
    rw [← record'.addrs, ← record.addrs, length]
  have second : blocks'.map Prod.snd = blocks.map Prod.snd := by
    rw [← record'.data, ← record.data, length]
  refine ⟨record'.desc.2.2.symm.trans record.desc.2.2, ?_⟩
  rw [List.zip_of_prod first second]
  exact (List.zip_of_prod rfl rfl).symm

theorem tryReadTxn_run (layout : Layout g agLen) (pos seq : Nat) :
    ∃ r, tryReadTxn pos seq g = (.ok r, g) ∧
      ∀ blocks, r = some blocks ↔ Record g g.dev.bytes pos seq blocks := by
  obtain ⟨r, run, sound⟩ := tryReadTxn_sound layout pos seq
  refine ⟨r, run, fun blocks => ⟨sound blocks, ?_⟩⟩
  intro record
  have accepted := tryReadTxn_complete layout record
  rw [run] at accepted
  injection accepted with value
  injection value

theorem nextTxn_run (layout : Layout g agLen) (head seq : Nat) :
    ∃ r, nextTxn head seq g = (.ok r, g) ∧
      (∀ pos blocks, r = some (pos, blocks) → Record g g.dev.bytes pos seq blocks) ∧
      (∀ blocks, Record g g.dev.bytes head seq blocks ∨ Record g g.dev.bytes 0 seq blocks →
        r ≠ none) := by
  obtain ⟨r, run, spec⟩ := tryReadTxn_run layout head seq
  cases r with
  | some t =>
      refine ⟨some (head, t), ?_, ?_, ?_⟩
      · rw [nextTxn, bind_ok _ _ run]
        rfl
      · intro pos blocks same
        injection same with pair
        injection pair with first second
        rw [← first, ← second]
        exact (spec t).mp rfl
      · intro blocks _ absurd
        cases absurd
  | none =>
      have missing : ∀ blocks, ¬ Record g g.dev.bytes head seq blocks := by
        intro blocks record
        cases (spec blocks).mpr record
      by_cases start : head ≠ 0
      · obtain ⟨r, run', spec'⟩ := tryReadTxn_run layout 0 seq
        refine ⟨r.map fun t => (0, t), ?_, ?_, ?_⟩
        · rw [nextTxn, bind_ok _ _ run]
          simp only [if_pos start, bind_run, run']
          rfl
        · intro pos blocks same
          obtain ⟨t, found, pair⟩ := Option.map_eq_some_iff.mp same
          injection pair with first second
          rw [← first, ← second]
          exact (spec' t).mp found
        · intro blocks record absurd
          have found := (spec' blocks).mpr (record.resolve_left (missing blocks))
          rw [found] at absurd
          cases absurd
      · have zero : head = 0 := not_not.mp start
        refine ⟨none, ?_, ?_, ?_⟩
        · rw [nextTxn, bind_ok _ _ run]
          simp only [if_neg start]
          rfl
        · intro pos blocks absurd
          cases absurd
        · intro blocks record _
          rw [zero] at missing
          rcases record with record | record
          · rw [zero] at record
            exact missing blocks record
          · exact missing blocks record

/-- The in-place writes of several transactions. -/
def inPlaceAll (g : Gofs) (ts : List Txn) : List Write := ts.flatMap fun t => g.inPlace t.blocks

omit [Crc32c] in
theorem inPlaceAll_append (g : Gofs) (ts us : List Txn) :
    g.inPlaceAll (ts ++ us) = g.inPlaceAll ts ++ g.inPlaceAll us := List.flatMap_append

omit [Crc32c] in
theorem inPlaceAll_home {ts : List Txn} (home : ∀ t ∈ ts, ∀ b ∈ t.blocks, Home g b.1) {w : Write}
    (member : w ∈ g.inPlaceAll ts) : ∃ blk, Home g blk ∧ w.off = g.blockOff blk ∧
    w.len = g.sb.blocksize := by
  obtain ⟨t, inside, found⟩ := List.mem_flatMap.mp member
  obtain ⟨b, within, rfl⟩ := mem_inPlace found
  exact ⟨b.1, home t inside b within, rfl, rfl⟩

omit [Crc32c] in
theorem inPlaceAll_inside {ts : List Txn} (home : ∀ t ∈ ts, ∀ b ∈ t.blocks, Home g b.1) :
    ∀ w ∈ g.inPlaceAll ts, w.off + w.len ≤ g.dev.fileLen := by
  intro w member
  obtain ⟨blk, inside, off, len⟩ := inPlaceAll_home home member
  have device := inside.device
  omega

theorem inPlaceAll_apart {ts : List Txn} (ok : ∀ t ∈ ts, TxnOk g agLen t) {w : Write}
    (member : w ∈ g.inPlaceAll ts) : ∃ blk data, TargetOk g agLen blk data ∧
      w = ⟨g.blockOff blk, g.sb.blocksize, data⟩ := by
  obtain ⟨t, inside, found⟩ := List.mem_flatMap.mp member
  obtain ⟨b, within, rfl⟩ := mem_inPlace found
  exact ⟨b.1, b.2, (ok t inside).target b within, rfl⟩

omit [Crc32c] in
theorem inPlaceAll_journal {ts : List Txn} (home : ∀ t ∈ ts, ∀ b ∈ t.blocks, Home g b.1)
    (d : Bytes) :
    SameJournal g d (Write.applyAll (g.inPlaceAll ts) d) := by
  intro i low high
  symm
  apply Write.applyAll_of_not_covers
  rintro ⟨w, member, range⟩
  obtain ⟨blk, inside, off, len⟩ := inPlaceAll_home home member
  have apart := inside.journal
  simp only [Apart] at apart
  omega

/-- On contents where every record from `base` on is one of `ts`, the loop applies a stretch of
`ts` and stops. -/
theorem replayLoop_run {ts : List Txn} {base : Nat} {d : Bytes}
    (known : ∀ pos n blocks, Record g d pos (base + n) blocks → ∃ t, ts[n]? = some t ∧
    t.blocks = blocks)
    (ok : ∀ t ∈ ts, TxnOk g agLen t) (room : base + ts.length < 2 ^ 64)
    {fuel n head : Nat} {h : Gofs} (alike : Alike g h) (layout : Layout h agLen)
    (same : SameJournal g d h.dev.bytes) (start : n ≤ ts.length) (enough : ts.length - n < fuel)
    (bound : head < 2 ^ 64) (applied : Nat) :
    ∃ m head', n + m ≤ ts.length ∧ head' < 2 ^ 64 ∧
      replayLoop fuel head (base + n) applied h = (.ok (head', base + (n + m), applied + m),
        h.written (g.inPlaceAll ((ts.drop n).take m))) ∧
      (∀ blocks, Record g d head (base + n) blocks ∨ Record g d 0 (base + n) blocks → 0 < m) := by
  induction fuel generalizing n head applied h with
  | zero => omega
  | succ fuel ih =>
      obtain ⟨r, run, sound, complete⟩ := nextTxn_run layout head (base + n)
      have back : ∀ {pos blocks}, Record h h.dev.bytes pos (base + n) blocks →
          Record g d pos (base + n) blocks :=
        fun record => record.congr alike.symm (same.back alike)
      have forth : ∀ {pos blocks}, Record g d pos (base + n) blocks →
          Record h h.dev.bytes pos (base + n) blocks := fun record => record.congr alike same
      rcases r with _ | ⟨pos, blocks⟩
      · refine ⟨0, head, by omega, bound, ?_, ?_⟩
        · rw [replayLoop, bind_ok _ _ run]
          rfl
        · intro blocks record
          exact (complete blocks (record.imp forth forth) rfl).elim
      · have record := back (sound pos blocks rfl)
        obtain ⟨t, found, rfl⟩ := known pos n _ record
        have inside : n < ts.length := (List.getElem?_eq_some_iff.mp found).1
        have member : t ∈ ts := List.mem_of_getElem? found
        have mapped : ∀ b ∈ t.blocks, h.map.resolve b.1 h.sb.blocksize = some (h.blockOff b.1) := by
          intro b within
          exact (alike.target ((ok t member).target b within)).mapped
        have apply := applyBlocks_run mapped
        rw [alike.inPlace] at apply
        have writes : g.inPlace t.blocks = g.inPlaceAll [t] := by simp [inPlaceAll]
        rw [writes] at apply
        have one : ∀ u ∈ [t], TxnOk g agLen u := by
          intro u within
          rw [List.mem_singleton.mp within]
          exact ok t member
        have still : Alike h (h.written (g.inPlaceAll [t])) := alike_written _ (by
          rw [alike.fileLen]
          exact inPlaceAll_inside fun u within => (one u within).recordable.home)
        have unchanged := inPlaceAll_journal (fun u within => (one u within).recordable.home)
            h.dev.bytes
        set next := if pos + t.blocks.length + 2 ≥ h.sb.journalLength then 0
          else pos + t.blocks.length + 2 with hnext
        have small : next < 2 ^ 64 := by
          have length := layout.fits.journalLength
          rw [hnext]
          split <;> omega
        have later : SameJournal g d (h.written (g.inPlaceAll [t])).dev.bytes :=
          same.trans (by simpa using unchanged)
        obtain ⟨m, head', high, bound', loop, _⟩ := @ih (n + 1) next _
          (alike.trans still) (layout.alike still layout.fits) later (by omega) (by omega) small
          (applied + 1)
        refine ⟨m + 1, head', by omega, bound', ?_, fun _ _ => by omega⟩
        have next : ts.drop n = t :: ts.drop (n + 1) := by
          rw [List.drop_eq_getElem_cons inside]
          congr 1
          exact (List.getElem?_eq_some_iff.mp found).2
        have seq : base + n + 1 = base + (n + 1) := by omega
        have small : ¬ base + (n + 1) ≥ 2 ^ 64 := by omega
        simp only [replayLoop, bind_run, run, apply, get_run, written_sb, seq, if_neg small]
        have split : g.inPlaceAll (t :: (ts.drop (n + 1)).take m) =
          g.inPlaceAll [t] ++ g.inPlaceAll ((ts.drop (n + 1)).take m) := inPlaceAll_append g [t] _
        rw [next, List.take_succ_cons, split, ← written_written]
        refine loop.trans ?_
        congr 2
        congr 1
        congr 1 <;> omega

theorem superblockWrites_body (layout : Layout g agLen) {i : Nat} (body : Body g agLen i)
    (sb : Superblock) : ¬ Write.Covers (g.superblockWrites agLen sb) i := by
  have size := layout.blocksize
  obtain ⟨low, apart⟩ := body
  rintro ⟨w, member, range⟩
  simp only [superblockWrites, List.mem_cons, List.not_mem_nil, or_false] at member
  simp only [Apart] at apart
  rcases member with rfl | rfl
  · simp only [SB_SIZE] at range
    omega
  · simp only [SB_SIZE] at range
    omega

theorem superblock_body (layout : Layout g agLen) (sb : Superblock) (d : Bytes) {i : Nat}
    (body : Body g agLen i) : Write.applyAll (g.superblockWrites agLen sb) d i = d i :=
  Write.applyAll_of_not_covers _ _ _ (superblockWrites_body layout body sb)

theorem writeSuperblock_spec (layout : Layout g agLen) (gen : g.sb.gen + 1 < 2 ^ 64) :
    ∃ h, writeSuperblock g = (.ok (), h) ∧ Alike g h ∧ h.sb = { g.sb with gen := g.sb.gen + 1 } ∧
      ∀ i, Body g agLen i → h.dev.bytes i = g.dev.bytes i := by
  set sb := { g.sb with gen := g.sb.gen + 1 } with hsb
  refine ⟨_, writeSuperblock_run layout gen, ?_, rfl, ?_⟩
  · exact ⟨rfl, rfl, rfl, rfl, rfl, rfl,
      Device.pwriteAll_fileLen (superblockWrites_inside layout sb)⟩
  · intro i body
    simp only [written_dev, Device.pwriteAll_bytes]
    exact superblock_body layout sb _ body

theorem replay_run {ts : List Txn} {base n : Nat} {d : Bytes}
    (known : ∀ pos n blocks, Record g d pos (base + n) blocks → ∃ t, ts[n]? = some t ∧
    t.blocks = blocks)
    (ok : ∀ t ∈ ts, TxnOk g agLen t) (room : base + ts.length < 2 ^ 64)
    {h : Gofs} (alike : Alike g h) (layout : Layout h agLen) (same : SameJournal g d h.dev.bytes)
    (start : n ≤ ts.length) (enough : ts.length - n ≤ g.sb.journalLength)
    (seq : h.sb.journalSeq = base + n) (gen : h.sb.gen + 1 < 2 ^ 64) :
    ∃ m h', n + m ≤ ts.length ∧ replay h = (.ok m, h') ∧ Alike g h' ∧
      (∀ i, Body g agLen i →
        h'.dev.bytes i = Write.applyAll (g.inPlaceAll ((ts.drop n).take m)) h.dev.bytes i) ∧
      (∀ blocks, Record g d h.sb.journalHead (base + n) blocks ∨ Record g d 0 (base + n) blocks →
        0 < m) := by
  have fuel : ts.length - n < h.sb.journalLength + 1 := by
    rw [alike.journalLength]
    omega
  obtain ⟨m, head, high, bound, loop, accepted⟩ :=
      replayLoop_run known ok room alike layout same start
    fuel layout.fits.journalHead 0
  set ws := g.inPlaceAll ((ts.drop n).take m) with hws
  have inside : ∀ w ∈ ws, w.off + w.len ≤ h.dev.fileLen := by
    rw [alike.fileLen]
    apply inPlaceAll_inside
    intro t member
    exact (ok t (List.mem_of_mem_drop (List.mem_of_mem_take member))).recordable.home
  by_cases none : m = 0
  · refine ⟨m, h.written ws, high, ?_, alike.trans (alike_written ws inside), ?_, accepted⟩
    · simp only [replay, bind_run, get_run, seq, loop, ite_run]
      rw [if_neg (by omega)]
      simp
    · intro i _
      simp [← hws]
  · set moved : Gofs := { (h.written ws).synced with
      sb := { h.sb with journalHead := head, journalSeq := base + (n + m) } } with hmoved
    have fits : moved.sb.Fits :=
      { layout.fits with journalHead := bound, journalSeq := by simp only [hmoved]; omega }
    have advanced : Alike h moved := ⟨rfl, rfl, rfl, rfl, rfl, rfl,
        (alike_written ws inside).fileLen⟩
    obtain ⟨h', write, still, _, body⟩ := writeSuperblock_spec (layout.alike advanced fits) gen
    refine ⟨m, h', high, ?_, alike.trans (advanced.trans still), ?_, accepted⟩
    · simp only [replay, bind_run, get_run, seq, loop, ite_run]
      rw [if_pos (by omega)]
      simp only [sync_run, modify_run, Nat.zero_add]
      exact bind_ok _ _ write
    · intro i inBody
      have same' := body i (by
        rw [Body, (alike.trans advanced).blocksize]
        exact inBody)
      rw [same']
      exact congrFun (Device.pwriteAll_bytes ws h.dev) i

theorem openRw_run {ts : List Txn} {base n : Nat} {dev : Device}
    (known : ∀ pos n blocks, Record g dev.bytes pos (base + n) blocks →
      ∃ t, ts[n]? = some t ∧ t.blocks = blocks)
    (ok : ∀ t ∈ ts, TxnOk g agLen t) (room : base + ts.length < 2 ^ 64) (layout : Layout g agLen)
    (start : n ≤ ts.length) (enough : ts.length - n ≤ g.sb.journalLength) {sb : Superblock}
    {fromBackup : Bool} (found : findSuperblock dev = .ok (sb, fromBackup))
    (map : loadAgmap dev sb = .ok g.map) (alike : Alike g { dev, sb, map := g.map })
        (fits : sb.Fits)
    (seq : sb.journalSeq = base + n) (gen : sb.gen + 2 < 2 ^ 64) :
    ∃ m g', n + m ≤ ts.length ∧ openRw dev = .ok g' ∧ Alike g g' ∧
      (∀ i, Body g agLen i →
        g'.dev.bytes i = Write.applyAll (g.inPlaceAll ((ts.drop n).take m)) dev.bytes i) ∧
      (∀ blocks, Record g dev.bytes sb.journalHead (base + n) blocks ∨
        Record g dev.bytes 0 (base + n) blocks → 0 < m) := by
  set h : Gofs := { dev, sb, map := g.map } with hh
  have layout' : Layout h agLen := layout.alike alike fits
  by_cases heal : (fromBackup || !h.backupSuperblockOk) = true
  · have room₁ : h.sb.gen + 1 < 2 ^ 64 := by
      show sb.gen + 1 < 2 ^ 64
      omega
    obtain ⟨h₁, write, still, sameSb, body⟩ := writeSuperblock_spec layout' room₁
    have alike₁ := alike.trans still
    have fits₁ : h₁.sb.Fits := by
      rw [sameSb]
      exact { fits with gen := by show sb.gen + 1 < 2 ^ 64; omega }
    have same : SameJournal g dev.bytes h₁.dev.bytes := by
      intro i low high
      symm
      apply body
      have inBody := journal_body layout low high
      rwa [Body, alike.blocksize]
    obtain ⟨m, g', high, run, done, content, accepted⟩ := replay_run known ok room alike₁
      (layout.alike alike₁ fits₁) same start enough (by rw [sameSb]; exact seq)
      (by rw [sameSb]; show sb.gen + 1 + 1 < 2 ^ 64; omega)
    refine ⟨m, g', high, ?_, done, ?_, ?_⟩
    · simp only [openRw, found, map, bind_run, get_run, ite_run]
      rw [if_pos heal, write]
      simp only [run]
    · intro i inBody
      rw [content i inBody]
      apply Write.applyAll_congr
      right
      apply body
      rwa [Body, alike.blocksize]
    · intro blocks record
      apply accepted blocks
      rw [sameSb]
      exact record
  · obtain ⟨m, g', high, run, done, content, accepted⟩ := replay_run known ok room alike layout'
      (fun _ _ _ => rfl) start enough seq (by show sb.gen + 1 < 2 ^ 64; omega)
    refine ⟨m, g', high, ?_, done, content, accepted⟩
    simp only [openRw, found, map, bind_run, get_run, ite_run]
    rw [if_neg heal]
    split
    · rename_i replayed
      cases run.symm.trans replayed
      rfl
    · rename_i failed
      cases run.symm.trans failed

end Gofs

end FiveFs

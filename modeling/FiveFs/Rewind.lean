import FiveFs.CrashSafety
import Mathlib.Data.Finset.Card

/-! Replay against counting the pending transactions, and replay from an earlier checkpoint. -/

namespace FiveFs

open Buffer Prog

namespace Gofs

variable {g h : Gofs} {agLen : Nat} {d : Bytes} {head seq pos last : Nat} {t : Txn} {ts : List Txn}

/-- The head behind a record. -/
def headBehind (g : Gofs) (pos : Nat) (t : Txn) : Nat :=
  if pos + t.blocks.length + 2 ≥ g.sb.journalLength then 0 else pos + t.blocks.length + 2

/-- The journal blocks that a scan from sequence number `seq` on can still take for descriptors. -/
def awaited (g : Gofs) (d : Bytes) (seq : Nat) : Finset Nat :=
  (Finset.range g.sb.journalLength).filter fun idx => seq ≤ getU64 (g.journalBlock d idx) 8

theorem awaited_card (g : Gofs) (d : Bytes) (seq : Nat) :
    (g.awaited d seq).card ≤ g.sb.journalLength := by
  have bound := Finset.card_filter_le (Finset.range g.sb.journalLength)
    fun idx => seq ≤ getU64 (g.journalBlock d idx) 8
  rwa [Finset.card_range] at bound

variable [Crc32c]

/-- The record that a scan takes at `head`. -/
def Taken (g : Gofs) (d : Bytes) (head seq pos : Nat) (t : Txn) : Prop :=
  Record g d pos seq t.blocks ∧ (pos = head ∨ pos = 0 ∧ ∀ blocks, ¬ Record g d head seq blocks)

/-- A scan ends at `head`. -/
def Ends (g : Gofs) (d : Bytes) (head seq : Nat) : Prop :=
  ∀ blocks, ¬ Record g d head seq blocks ∧ ¬ Record g d 0 seq blocks

/-- A scan from `head` meets the transactions of the list and comes to `last`. -/
inductive Scan (g : Gofs) (d : Bytes) : Nat → Nat → List Txn → Nat → Prop
  | nil (head seq : Nat) : Scan g d head seq [] head
  | cons {head seq pos last : Nat} {t : Txn} {ts : List Txn} : Taken g d head seq pos t →
      Scan g d (g.headBehind pos t) (seq + 1) ts last → Scan g d head seq (t :: ts) last

theorem Scan.snoc (scan : Scan g d head seq ts last)
    (taken : Taken g d last (seq + ts.length) pos t) :
    Scan g d head seq (ts ++ [t]) (g.headBehind pos t) := by
  induction scan with
  | nil head seq => exact .cons taken (.nil _ _)
  | cons first _ ih =>
      apply Scan.cons first
      apply ih
      rwa [List.length_cons, Nat.add_comm _ 1, ← Nat.add_assoc] at taken

theorem Scan.record (scan : Scan g d head seq ts last) :
    ∀ t ∈ ts, ∃ pos n, Record g d pos (seq + n) t.blocks := by
  induction scan with
  | nil head seq => exact fun t member => absurd member List.not_mem_nil
  | cons taken _ ih =>
      intro u member
      rcases List.mem_cons.mp member with rfl | later
      · exact ⟨_, 0, taken.1⟩
      · obtain ⟨pos, n, record⟩ := ih u later
        exact ⟨pos, 1 + n, by rwa [← Nat.add_assoc]⟩

theorem awaited_drop {blocks : List (Nat × Bytes)} (record : Record g d pos seq blocks) :
    (g.awaited d (seq + 1)).card < (g.awaited d seq).card := by
  have inside := record.inside
  obtain ⟨-, -, number⟩ := record.desc
  apply Finset.card_lt_card
  refine (Finset.ssubset_iff_of_subset fun idx member => ?_).mpr ⟨pos, ?_, ?_⟩
  · obtain ⟨low, later⟩ := Finset.mem_filter.mp member
    exact Finset.mem_filter.mpr ⟨low, by omega⟩
  · exact Finset.mem_filter.mpr ⟨Finset.mem_range.mpr (by omega), number.ge⟩
  · intro member
    have later := (Finset.mem_filter.mp member).2
    omega

theorem taken_or_ends (g : Gofs) (d : Bytes) (head seq : Nat) :
    (∃ pos t, Taken g d head seq pos t) ∨ Ends g d head seq := by
  by_cases here : ∃ blocks, Record g d head seq blocks
  · obtain ⟨blocks, record⟩ := here
    exact Or.inl ⟨head, ⟨blocks⟩, record, Or.inl rfl⟩
  have missing : ∀ blocks, ¬ Record g d head seq blocks := not_exists.mp here
  by_cases start : ∃ blocks, Record g d 0 seq blocks
  · obtain ⟨blocks, record⟩ := start
    exact Or.inl ⟨0, ⟨blocks⟩, record, Or.inr ⟨rfl, missing⟩⟩
  · exact Or.inr fun blocks => ⟨missing blocks, not_exists.mp start blocks⟩

theorem Scan.length_le (scan : Scan g d head seq ts last) : ts.length ≤ (g.awaited d seq).card := by
  induction scan with
  | nil head seq => exact Nat.zero_le _
  | cons taken _ ih =>
      have fewer := awaited_drop taken.1
      rw [List.length_cons]
      omega

theorem Scan.length_le_journal (scan : Scan g d head seq ts last) :
    ts.length ≤ g.sb.journalLength :=
  scan.length_le.trans (g.awaited_card d seq)

theorem scan_ends (g : Gofs) (d : Bytes) (head seq : Nat) :
    ∃ ts last, Scan g d head seq ts last ∧ Ends g d last (seq + ts.length) := by
  induction hc : (g.awaited d seq).card using Nat.strong_induction_on generalizing head seq with
  | _ c ih =>
      rcases taken_or_ends g d head seq with ⟨pos, t, taken⟩ | ends
      · have fewer := awaited_drop taken.1
        obtain ⟨ts, last, scan, ends⟩ := ih _ (hc ▸ fewer) (g.headBehind pos t) (seq + 1) rfl
        refine ⟨t :: ts, last, .cons taken scan, ?_⟩
        rwa [List.length_cons, Nat.add_comm _ 1, ← Nat.add_assoc]
      · exact ⟨[], head, .nil _ _, ends⟩

theorem Taken.congr (taken : Taken g d head seq pos t) (alike : Alike g h) {e : Bytes}
    (same : SameJournal g d e) : Taken h e head seq pos t := by
  refine ⟨taken.1.congr alike same, taken.2.imp_right fun start => ⟨start.1, ?_⟩⟩
  intro blocks record
  exact start.2 blocks (record.congr alike.symm (same.back alike))

theorem Ends.congr (ends : Ends g d head seq) (alike : Alike g h) {e : Bytes}
    (same : SameJournal g d e) : Ends h e head seq := by
  intro blocks
  obtain ⟨here, start⟩ := ends blocks
  exact ⟨fun record => here (record.congr alike.symm (same.back alike)),
    fun record => start (record.congr alike.symm (same.back alike))⟩

theorem tryReadTxn_none (layout : Layout g agLen)
    (missing : ∀ blocks, ¬ Record g g.dev.bytes pos seq blocks) :
    tryReadTxn pos seq g = (.ok none, g) := by
  obtain ⟨r, run, spec⟩ := tryReadTxn_run layout pos seq
  cases r with
  | none => exact run
  | some blocks => exact absurd ((spec blocks).mp rfl) (missing blocks)

theorem nextTxn_taken (layout : Layout g agLen) (taken : Taken g g.dev.bytes head seq pos t) :
    nextTxn head seq g = (.ok (some (pos, t.blocks)), g) := by
  obtain ⟨record, rfl | ⟨rfl, missing⟩⟩ := taken
  · rw [nextTxn, bind_ok _ _ (tryReadTxn_complete layout record)]
    rfl
  · have start : head ≠ 0 := by
      rintro rfl
      exact missing _ record
    rw [nextTxn, bind_ok _ _ (tryReadTxn_none layout missing)]
    simp only [if_pos start, bind_run, tryReadTxn_complete layout record]
    rfl

theorem nextTxn_ends (layout : Layout g agLen) (ends : Ends g g.dev.bytes head seq) :
    nextTxn head seq g = (.ok none, g) := by
  have here := tryReadTxn_none layout fun blocks => (ends blocks).1
  have start := tryReadTxn_none layout fun blocks => (ends blocks).2
  rw [nextTxn, bind_ok _ _ here]
  by_cases zero : head ≠ 0
  · simp only [if_pos zero, bind_run, start]
    rfl
  · simp only [if_neg zero]
    rfl

/-- A state of the volume `g` with journal contents `d`. -/
structure Mid (g : Gofs) (agLen : Nat) (d : Bytes) (h : Gofs) : Prop where
  layout : Layout h agLen
  alike : Alike g h
  same : SameJournal g d h.dev.bytes

omit [Crc32c] in
theorem Mid.written (mid : Mid g agLen d h) (home : ∀ t ∈ ts, ∀ b ∈ t.blocks, Home g b.1) :
    Mid g agLen d (h.written (g.inPlaceAll ts)) := by
  have still : Alike h (h.written (g.inPlaceAll ts)) := alike_written _ (by
    rw [mid.alike.fileLen]
    exact inPlaceAll_inside home)
  refine ⟨mid.layout.alike still mid.layout.fits, mid.alike.trans still, ?_⟩
  rw [written_dev, Device.pwriteAll_bytes]
  exact mid.same.trans (inPlaceAll_journal home _)

omit [Crc32c] in
theorem inPlaceAll_cons (g : Gofs) (t : Txn) (ts : List Txn) :
    g.inPlaceAll (t :: ts) = g.inPlaceAll [t] ++ g.inPlaceAll ts := inPlaceAll_append g [t] ts

theorem replayLoop_taken (mid : Mid g agLen d h) (taken : Taken g d head seq pos t)
    (home : ∀ b ∈ t.blocks, Home g b.1) (fuel applied : Nat) :
    replayLoop (fuel + 1) head seq applied h =
      if seq + 1 ≥ 2 ^ 64 then
        (.error (.panic "attempt to add with overflow"), h.written (g.inPlaceAll [t]))
      else replayLoop fuel (g.headBehind pos t) (seq + 1) (applied + 1)
          (h.written (g.inPlaceAll [t])) := by
  have apply := applyBlocks_run fun b member => (mid.alike.home (home b member)).mapped
  have writes : h.inPlace t.blocks = g.inPlaceAll [t] := by
    simp [inPlaceAll, mid.alike.inPlace]
  have next : (if pos + t.blocks.length + 2 ≥ (h.written (g.inPlaceAll [t])).sb.journalLength then 0
      else pos + t.blocks.length + 2) = g.headBehind pos t := by
    rw [written_sb, mid.alike.journalLength, headBehind]
  rw [writes] at apply
  simp only [replayLoop, bind_run, nextTxn_taken mid.layout (taken.congr mid.alike mid.same), apply,
    get_run, next]
  split <;> rfl

theorem replayLoop_ends (mid : Mid g agLen d h) (ends : Ends g d head seq) (fuel applied : Nat) :
    replayLoop (fuel + 1) head seq applied h = (.ok (head, seq, applied), h) := by
  rw [replayLoop, bind_ok _ _ (nextTxn_ends mid.layout (ends.congr mid.alike mid.same))]
  rfl

theorem pendingLoop_taken (mid : Mid g agLen d h) (taken : Taken g d head seq pos t)
    (fuel n : Nat) :
    pendingLoop (fuel + 1) head seq n h =
      if seq + 1 ≥ 2 ^ 64 then (.error (.panic "attempt to add with overflow"), h)
      else pendingLoop fuel (g.headBehind pos t) (seq + 1) (n + 1) h := by
  have next : (if pos + t.blocks.length + 2 ≥ h.sb.journalLength then 0
      else pos + t.blocks.length + 2) = g.headBehind pos t := by
    rw [mid.alike.journalLength, headBehind]
  simp only [pendingLoop, bind_run, nextTxn_taken mid.layout (taken.congr mid.alike mid.same),
      get_run, next]
  split <;> rfl

theorem pendingLoop_ends (mid : Mid g agLen d h) (ends : Ends g d head seq) (fuel n : Nat) :
    pendingLoop (fuel + 1) head seq n h = (.ok n, h) := by
  rw [pendingLoop, bind_ok _ _ (nextTxn_ends mid.layout (ends.congr mid.alike mid.same))]
  rfl

theorem replayLoop_scan (scan : Scan g d head seq ts last) (ends : Ends g d last (seq + ts.length))
    (mid : Mid g agLen d h) (home : ∀ t ∈ ts, ∀ b ∈ t.blocks, Home g b.1) {fuel : Nat}
    (enough : ts.length < fuel) (room : seq < 2 ^ 64) (applied : Nat) :
    (seq + ts.length < 2 ^ 64 → replayLoop fuel head seq applied h =
      (.ok (last, seq + ts.length, applied + ts.length), h.written (g.inPlaceAll ts))) ∧
    (2 ^ 64 ≤ seq + ts.length → ∃ h', replayLoop fuel head seq applied h =
      (.error (.panic "attempt to add with overflow"), h')) := by
  induction scan generalizing h applied fuel with
  | nil head seq =>
      obtain ⟨fuel, rfl⟩ := Nat.exists_eq_succ_of_ne_zero (Nat.ne_of_gt (Nat.zero_lt_of_lt enough))
      exact ⟨fun _ => replayLoop_ends mid ends fuel applied,
          fun full => absurd full (by simpa using room)⟩
  | @cons head seq pos last t ts taken scan ih =>
      rw [List.length_cons] at ends enough ⊢
      obtain ⟨fuel, rfl⟩ := Nat.exists_eq_succ_of_ne_zero (Nat.ne_of_gt (Nat.zero_lt_of_lt enough))
      rw [replayLoop_taken mid taken (home t List.mem_cons_self)]
      by_cases past : seq + 1 ≥ 2 ^ 64
      · rw [if_pos past]
        exact ⟨fun small => absurd small (by omega), fun _ => ⟨_, rfl⟩⟩
      · rw [if_neg past]
        have one : ∀ u ∈ [t], ∀ b ∈ u.blocks, Home g b.1 := by
          intro u member
          rw [List.mem_singleton.mp member]
          exact home t List.mem_cons_self
        have shift : seq + 1 + ts.length = seq + (ts.length + 1) := by omega
        obtain ⟨fine, full⟩ := ih (shift ▸ ends) (mid.written one)
          (fun u member => home u (List.mem_cons_of_mem _ member)) (Nat.lt_of_succ_lt_succ enough)
          (by omega) (applied + 1)
        rw [shift] at fine full
        refine ⟨fun small => ?_, full⟩
        rw [fine small, written_written, ← inPlaceAll_cons, Nat.add_assoc applied, Nat.add_comm 1]

theorem pendingLoop_scan (scan : Scan g d head seq ts last) (ends : Ends g d last (seq + ts.length))
    (mid : Mid g agLen d h) {fuel : Nat} (enough : ts.length < fuel) (room : seq < 2 ^ 64)
    (n : Nat) :
    (seq + ts.length < 2 ^ 64 → pendingLoop fuel head seq n h = (.ok (n + ts.length), h)) ∧
    (2 ^ 64 ≤ seq + ts.length → pendingLoop fuel head seq n h =
      (.error (.panic "attempt to add with overflow"), h)) := by
  induction scan generalizing n fuel with
  | nil head seq =>
      obtain ⟨fuel, rfl⟩ := Nat.exists_eq_succ_of_ne_zero (Nat.ne_of_gt (Nat.zero_lt_of_lt enough))
      exact ⟨fun _ => pendingLoop_ends mid ends fuel n,
          fun full => absurd full (by simpa using room)⟩
  | @cons head seq pos last t ts taken scan ih =>
      rw [List.length_cons] at ends enough ⊢
      obtain ⟨fuel, rfl⟩ := Nat.exists_eq_succ_of_ne_zero (Nat.ne_of_gt (Nat.zero_lt_of_lt enough))
      rw [pendingLoop_taken mid taken]
      by_cases past : seq + 1 ≥ 2 ^ 64
      · rw [if_pos past]
        exact ⟨fun small => absurd small (by omega), fun _ => rfl⟩
      · rw [if_neg past]
        have shift : seq + 1 + ts.length = seq + (ts.length + 1) := by omega
        obtain ⟨fine, full⟩ := ih (shift ▸ ends) (Nat.lt_of_succ_lt_succ enough) (by omega) (n + 1)
        rw [shift] at fine full
        refine ⟨fun small => ?_, full⟩
        rw [fine small, Nat.add_assoc, Nat.add_comm 1]

theorem Scan.last_lt (scan : Scan g d head seq ts last) (length : g.sb.journalLength < 2 ^ 64)
    (low : head < 2 ^ 64) : last < 2 ^ 64 := by
  induction scan with
  | nil head seq => exact low
  | cons _ _ ih =>
      apply ih
      rw [headBehind]
      split <;> omega

theorem Mid.superblock (mid : Mid g agLen d h) (gen : h.sb.gen + 1 < 2 ^ 64) :
    ∃ h', writeSuperblock h = (.ok (), h') ∧ Mid g agLen d h' ∧
    h'.sb = { h.sb with gen := h.sb.gen + 1 } ∧
      ∀ i, Body g agLen i → h'.dev.bytes i = h.dev.bytes i := by
  obtain ⟨h', write, still, sb, body⟩ := writeSuperblock_spec mid.layout gen
  have fits : h'.sb.Fits := by
    rw [sb]
    exact { mid.layout.fits with gen := gen }
  have inBody : ∀ i, Body g agLen i → Body h agLen i := by
    intro i inside
    rwa [Body, mid.alike.blocksize]
  refine ⟨h', write, ⟨mid.layout.alike still fits, mid.alike.trans still, ?_⟩, sb,
      fun i inside => body i (inBody i inside)⟩
  intro i low high
  rw [mid.same i low high, body i]
  apply journal_body mid.layout
  · rwa [mid.alike.journalOff]
  · rwa [mid.alike.journalOff, mid.alike.journalLength, mid.alike.blocksize]

theorem journalPending_scan (scan : Scan g d h.sb.journalHead h.sb.journalSeq ts last)
    (ends : Ends g d last (h.sb.journalSeq + ts.length)) (mid : Mid g agLen d h) :
    (h.sb.journalSeq + ts.length < 2 ^ 64 → journalPending h = (.ok ts.length, h)) ∧
    (2 ^ 64 ≤ h.sb.journalSeq + ts.length →
      journalPending h = (.error (.panic "attempt to add with overflow"), h)) := by
  have enough : ts.length < h.sb.journalLength + 1 := by
    rw [mid.alike.journalLength]
    exact Nat.lt_succ_of_le scan.length_le_journal
  have loop := pendingLoop_scan scan ends mid enough mid.layout.fits.journalSeq 0
  rwa [Nat.zero_add] at loop

theorem replay_ends (mid : Mid g agLen d h) (ends : Ends g d h.sb.journalHead h.sb.journalSeq) :
    replay h = (.ok 0, h) := by
  simp only [replay, bind_run, get_run, replayLoop_ends mid ends, ite_run]
  rfl

theorem replay_scan (scan : Scan g d h.sb.journalHead h.sb.journalSeq ts last)
    (ends : Ends g d last (h.sb.journalSeq + ts.length)) (mid : Mid g agLen d h)
    (home : ∀ t ∈ ts, ∀ b ∈ t.blocks, Home g b.1) (gen : h.sb.gen + 1 < 2 ^ 64) :
    (h.sb.journalSeq + ts.length < 2 ^ 64 → ∃ h', replay h = (.ok ts.length, h') ∧
    Mid g agLen d h' ∧
      h'.sb.journalHead = last ∧ h'.sb.journalSeq = h.sb.journalSeq + ts.length ∧
      ∀ i, Body g agLen i → h'.dev.bytes i = Write.applyAll (g.inPlaceAll ts) h.dev.bytes i) ∧
    (2 ^ 64 ≤ h.sb.journalSeq + ts.length → ∃ h', replay h =
      (.error (.panic "attempt to add with overflow"), h')) := by
  have enough : ts.length < h.sb.journalLength + 1 := by
    rw [mid.alike.journalLength]
    exact Nat.lt_succ_of_le scan.length_le_journal
  obtain ⟨fine, full⟩ := replayLoop_scan scan ends mid home enough mid.layout.fits.journalSeq 0
  constructor
  · intro small
    have loop := fine small
    rw [Nat.zero_add] at loop
    by_cases none : ts.length = 0
    · obtain rfl := List.length_eq_zero_iff.mp none
      cases scan
      exact ⟨h, replay_ends mid ends, mid, rfl, rfl, fun _ _ => rfl⟩
    · have length := mid.layout.fits.journalLength
      rw [mid.alike.journalLength] at length
      have written := mid.written home
      set moved : Gofs := { (h.written (g.inPlaceAll ts)).synced with
        sb := { h.sb with journalHead := last, journalSeq := h.sb.journalSeq + ts.length }
        } with hmoved
      have fits : moved.sb.Fits :=
        { mid.layout.fits with
          journalHead := scan.last_lt length mid.layout.fits.journalHead
          journalSeq := small }
      have advanced : Alike (h.written (g.inPlaceAll ts)) moved :=
          ⟨rfl, rfl, rfl, rfl, rfl, rfl, rfl⟩
      have behind : Mid g agLen d moved :=
        ⟨written.layout.alike advanced fits, written.alike.trans advanced, written.same⟩
      obtain ⟨h', write, mid', sb, body⟩ := behind.superblock gen
      refine ⟨h', ?_, mid', by rw [sb], by rw [sb], ?_⟩
      · simp only [replay, bind_run, get_run, loop, ite_run]
        rw [if_pos (Nat.pos_of_ne_zero none)]
        simp only [sync_run, modify_run]
        exact bind_ok _ _ write
      · intro i inside
        rw [body i inside]
        exact congrFun (Device.pwriteAll_bytes _ h.dev) i
  · intro past
    obtain ⟨h', loop⟩ := full past
    refine ⟨h', ?_⟩
    simp only [replay, bind_run, get_run, loop]

/-- A run from the state `start`, with the transactions committed on the way and the states they
were committed in. Other steps leave alone the blocks that a transaction has written. -/
inductive Since (agLen : Nat) (start : Gofs) : List (Gofs × Txn) → Gofs → Prop
  | start : Since agLen start [] start
  | commit {cs : List (Gofs × Txn)} {h h' : Gofs} {t : Txn} : Since agLen start cs h →
      Recordable h t →
      h.sb.gen + 1 < 2 ^ 64 → h.sb.journalSeq + 1 < 2 ^ 64 → commit t h = (.ok (), h') →
      Since agLen start (cs ++ [(h, t)]) h'
  | other {cs : List (Gofs × Txn)} {h h' : Gofs} : Since agLen start cs h → Alike h h' →
      h'.sb.Fits →
      h'.sb.journalHead = h.sb.journalHead → h'.sb.journalSeq = h.sb.journalSeq →
      (∀ i, Body h agLen i → (∃ c ∈ cs, Write.Covers (h.inPlace c.2.blocks) i) →
        h'.dev.bytes i = h.dev.bytes i) → Since agLen start cs h'

/-- The records of the committed transactions are on the contents `d`. -/
def Intact (g : Gofs) (d : Bytes) (cs : List (Gofs × Txn)) : Prop :=
  ∀ c ∈ cs, Record g d (c.1.recordPos c.2) c.1.sb.journalSeq c.2.blocks

/-- Where a transaction did not fit behind the head, nothing there passes for its record. -/
def Unshadowed (g : Gofs) (d : Bytes) (cs : List (Gofs × Txn)) : Prop :=
  ∀ c ∈ cs, c.1.recordPos c.2 ≠ c.1.sb.journalHead →
    ∀ blocks, ¬ Record g d c.1.sb.journalHead c.1.sb.journalSeq blocks

/-- What a run keeps about the transactions it committed. -/
structure Tracks (agLen : Nat) (start : Gofs) (cs : List (Gofs × Txn)) (h : Gofs) : Prop where
  layout : Layout h agLen
  alike : Alike start h
  seq : h.sb.journalSeq = start.sb.journalSeq + cs.length
  home : ∀ t ∈ cs.map Prod.snd, ∀ b ∈ t.blocks, Home start b.1
  settled : ∀ i, Body start agLen i →
    Write.applyAll (start.inPlaceAll (cs.map Prod.snd)) h.dev.bytes i = h.dev.bytes i
  scan : ∀ d, Intact start d cs → Unshadowed start d cs →
    Scan start d start.sb.journalHead start.sb.journalSeq (cs.map Prod.snd) h.sb.journalHead

theorem Tracks.other {start h' : Gofs} {cs : List (Gofs × Txn)} (tracks : Tracks agLen start cs h)
    (still : Alike h h') (fits : h'.sb.Fits) (head : h'.sb.journalHead = h.sb.journalHead)
    (seq : h'.sb.journalSeq = h.sb.journalSeq)
    (kept : ∀ i, Body h agLen i → (∃ c ∈ cs, Write.Covers (h.inPlace c.2.blocks) i) →
      h'.dev.bytes i = h.dev.bytes i) : Tracks agLen start cs h' where
  layout := tracks.layout.alike still fits
  alike := tracks.alike.trans still
  seq := seq.trans tracks.seq
  home := tracks.home
  settled i inside := by
    by_cases covered : Write.Covers (start.inPlaceAll (cs.map Prod.snd)) i
    · obtain ⟨w, member, range⟩ := covered
      obtain ⟨t, within, found⟩ := List.mem_flatMap.mp member
      obtain ⟨c, held, rfl⟩ := List.mem_map.mp within
      have same := kept i (by rwa [Body, tracks.alike.blocksize])
        ⟨c, held, w, by rwa [tracks.alike.inPlace], range⟩
      rw [same, ← tracks.settled i inside]
      exact Write.applyAll_congr _ _ _ _ (Or.inl ⟨w, member, range⟩)
    · exact Write.applyAll_of_not_covers _ _ _ covered
  scan d intact unshadowed := head ▸ tracks.scan d intact unshadowed

theorem Tracks.commit {start h' : Gofs} {cs : List (Gofs × Txn)} (tracks : Tracks agLen start cs h)
    (ok : Recordable h t) (gen : h.sb.gen + 1 < 2 ^ 64) (seq : h.sb.journalSeq + 1 < 2 ^ 64)
    (run : Gofs.commit t h = (.ok (), h')) : Tracks agLen start (cs ++ [(h, t)]) h' := by
  rw [commit_run tracks.layout ok gen seq] at run
  obtain rfl : h.committed agLen t = h' := congrArg Prod.snd run
  have still := alike_committed tracks.layout ok
  have home : ∀ u ∈ (cs ++ [(h, t)]).map Prod.snd, ∀ b ∈ u.blocks, Home start b.1 := by
    intro u member b inside
    rw [List.map_append] at member
    rcases List.mem_append.mp member with before | this
    · exact tracks.home u before b inside
    · rw [List.map_singleton, List.mem_singleton] at this
      subst this
      exact tracks.alike.symm.home (ok.home b inside)
  constructor
  · exact tracks.layout.alike still (tracks.layout.checkpoint_fits t gen seq)
  · exact tracks.alike.trans still
  · show h.sb.journalSeq + 1 = _
    rw [tracks.seq, List.length_append]
    rfl
  · exact home
  · intro i inside
    have body : Body h agLen i := by rwa [Body, tracks.alike.blocksize]
    have content : (h.committed agLen t).dev.bytes i =
        Write.applyAll (start.inPlace t.blocks) (Write.applyAll (h.recordWrites t) h.dev.bytes)
        i := by
      rw [committed_bytes, superblock_body tracks.layout _ _ body, tracks.alike.inPlace]
    have split : start.inPlaceAll ((cs ++ [(h, t)]).map Prod.snd) =
        start.inPlaceAll (cs.map Prod.snd) ++ start.inPlace t.blocks := by
      simp [inPlaceAll]
    rw [split, Write.applyAll_append]
    by_cases last : Write.Covers (start.inPlace t.blocks) i
    · rw [content]
      exact Write.applyAll_congr _ _ _ _ (Or.inl last)
    rw [Write.applyAll_of_not_covers _ _ _ last]
    by_cases earlier : Write.Covers (start.inPlaceAll (cs.map Prod.snd)) i
    · -- a block of an earlier transaction lies outside the journal
      have outside : ¬ Write.Covers (h.recordWrites t) i := by
        rintro ⟨w, member, range⟩
        obtain ⟨j, low, _, off, len⟩ := mem_recordWrites member ok
        obtain ⟨v, found, reach⟩ := earlier
        obtain ⟨blk, lies, off', len'⟩ := inPlaceAll_home tracks.home found
        have apart := lies.journal
        rw [tracks.alike.journalLength] at low
        have part := start.journalOff_inside low
        rw [tracks.alike.journalOff] at off
        rw [tracks.alike.blocksize] at len
        simp only [Apart] at apart
        omega
      rw [Write.applyAll_of_not_covers _ _ _ last,
          Write.applyAll_of_not_covers _ _ _ outside] at content
      rw [content, ← tracks.settled i inside]
      exact Write.applyAll_congr _ _ _ _ (Or.inl earlier)
    · exact Write.applyAll_of_not_covers _ _ _ earlier
  · intro d intact unshadowed
    have before := tracks.scan d (fun c member => intact c (List.mem_append_left _ member))
      fun c member => unshadowed c (List.mem_append_left _ member)
    have record : Record start d (h.recordPos t) h.sb.journalSeq t.blocks := intact (h, t) (by simp)
    have shadow : h.recordPos t ≠ h.sb.journalHead →
        ∀ blocks, ¬ Record start d h.sb.journalHead h.sb.journalSeq blocks :=
        unshadowed (h, t) (by simp)
    have place : h.recordPos t = h.sb.journalHead ∨ h.recordPos t = 0 := by
      rw [recordPos]
      split
      · exact Or.inr rfl
      · exact Or.inl rfl
    have taken : Taken start d h.sb.journalHead h.sb.journalSeq (h.recordPos t) t := by
      refine ⟨record, ?_⟩
      by_cases same : h.recordPos t = h.sb.journalHead
      · exact Or.inl same
      · exact Or.inr ⟨place.resolve_left same, shadow same⟩
    have next : start.headBehind (h.recordPos t) t = (h.committed agLen t).sb.journalHead := by
      rw [headBehind, ← tracks.alike.journalLength]
      rfl
    rw [List.map_append, ← next]
    apply before.snoc
    rwa [List.length_map, ← tracks.seq]

theorem Since.tracks {start : Gofs} {cs : List (Gofs × Txn)} (run : Since agLen start cs h)
    (layout : Layout start agLen) : Tracks agLen start cs h := by
  induction run with
  | start =>
      exact ⟨layout, Alike.refl start, rfl, fun t member => absurd member List.not_mem_nil,
        fun i _ => rfl, fun d _ _ => .nil _ _⟩
  | commit _ ok gen seq run ih => exact ih.commit ok gen seq run
  | other _ still fits head seq kept ih => exact ih.other still fits head seq kept

/-- From the checkpoint on, the valid transactions write blocks of the device outside the journal.
-/
def Replayable (g : Gofs) : Prop :=
  ∀ pos seq (t : Txn), g.sb.journalSeq ≤ seq → Record g g.dev.bytes pos seq t.blocks →
  ∀ b ∈ t.blocks, Home g b.1

/-- The state `h` is `g` with the checkpoint of `start`. -/
structure Rewound (agLen : Nat) (start g h : Gofs) : Prop where
  alike : Alike g h
  fits : h.sb.Fits
  gen : h.sb.gen + 1 < 2 ^ 64
  head : h.sb.journalHead = start.sb.journalHead
  seq : h.sb.journalSeq = start.sb.journalSeq
  body : ∀ i, Body g agLen i → h.dev.bytes i = g.dev.bytes i

omit [Crc32c] in
theorem Mid.refl (layout : Layout g agLen) : Mid g agLen g.dev.bytes g :=
  ⟨layout, Alike.refl g, fun _ _ _ => rfl⟩

omit [Crc32c] in
theorem Rewound.mid {start : Gofs} (rewound : Rewound agLen start g h) (layout : Layout g agLen) :
    Mid g agLen g.dev.bytes h := by
  refine ⟨layout.alike rewound.alike rewound.fits, rewound.alike, ?_⟩
  intro i low high
  exact (rewound.body i (journal_body layout low high)).symm

theorem ends_of_pending (layout : Layout g agLen) (pending : journalPending g = (.ok 0, g)) :
    Ends g g.dev.bytes g.sb.journalHead g.sb.journalSeq := by
  obtain ⟨ts, last, scan, ends⟩ := scan_ends g g.dev.bytes g.sb.journalHead g.sb.journalSeq
  obtain ⟨fine, full⟩ := journalPending_scan scan ends (.refl layout)
  by_cases small : g.sb.journalSeq + ts.length < 2 ^ 64
  · have counted := congrArg Prod.fst ((fine small).symm.trans pending)
    injection counted with none
    obtain rfl := List.length_eq_zero_iff.mp none
    cases scan
    exact ends
  · rw [full (by omega)] at pending
    cases congrArg Prod.fst pending

theorem replay_rewound {start : Gofs} {cs : List (Gofs × Txn)} (layout : Layout g agLen)
    (layout' : Layout start agLen) (run : Since agLen start cs g) (intact : Intact g g.dev.bytes cs)
    (unshadowed : Unshadowed g g.dev.bytes cs) (pending : journalPending g = (.ok 0, g))
    (rewound : Rewound agLen start g h) :
    ∃ h', replay h = (.ok cs.length, h') ∧ h'.sb.journalHead = g.sb.journalHead ∧
      h'.sb.journalSeq = g.sb.journalSeq ∧ ∀ i, Body g agLen i →
      h'.dev.bytes i = g.dev.bytes i := by
  have tracks := run.tracks layout'
  have back := tracks.alike.symm
  have ends := ends_of_pending layout pending
  have mid : Mid start agLen g.dev.bytes h := by
    have mid := rewound.mid layout
    exact ⟨mid.layout, tracks.alike.trans mid.alike, fun i low high => mid.same i
      (by rwa [tracks.alike.journalOff])
      (by rwa [tracks.alike.journalOff, tracks.alike.journalLength, tracks.alike.blocksize])⟩
  have scan := tracks.scan g.dev.bytes (fun c member => (intact c member).congr back fun _ _ _ =>
      rfl)
    fun c member moved blocks record =>
      unshadowed c member moved blocks (record.congr tracks.alike fun _ _ _ => rfl)
  have last : start.sb.journalSeq + (cs.map Prod.snd).length = g.sb.journalSeq := by
    rw [tracks.seq, List.length_map]
  rw [← rewound.head, ← rewound.seq] at scan
  rw [← rewound.seq] at last
  have closed : Ends start g.dev.bytes g.sb.journalHead
      (h.sb.journalSeq + (cs.map Prod.snd).length) := by
    rw [last]
    exact ends.congr back fun _ _ _ => rfl
  obtain ⟨applies, -⟩ := replay_scan scan closed mid tracks.home rewound.gen
  rw [last, List.length_map] at applies
  obtain ⟨h', replayed, _, head, seq, body⟩ := applies layout.fits.journalSeq
  refine ⟨h', replayed, head, seq, fun i inside => ?_⟩
  have inside' : Body start agLen i := by rwa [Body, ← tracks.alike.blocksize]
  rw [body i inside', ← tracks.settled i inside']
  exact Write.applyAll_congr _ _ _ _ (Or.inr (rewound.body i inside))

theorem committed_record (layout : Layout g agLen) (ok : Recordable g t) :
    Record g (g.committed agLen t).dev.bytes (g.recordPos t) g.sb.journalSeq t.blocks := by
  apply (record_written layout ok g.dev.bytes).congr (Alike.refl g)
  intro i low high
  have home : ∀ u ∈ [t], ∀ b ∈ u.blocks, Home g b.1 := by
    intro u member
    rw [List.mem_singleton.mp member]
    exact ok.home
  have moved := inPlaceAll_journal home (Write.applyAll (g.recordWrites t) g.dev.bytes) i low high
  rw [moved, committed_bytes, superblock_body layout _ _ (journal_body layout low high)]
  simp [inPlaceAll]

theorem committed_block (layout : Layout g agLen) (ok : Recordable g t) {idx : Nat}
    (inside : idx < g.sb.journalLength)
    (out : idx < g.recordPos t ∨ g.recordPos t + (t.blocks.length + 2) ≤ idx) :
    g.journalBlock (g.committed agLen t).dev.bytes idx = g.journalBlock g.dev.bytes idx := by
  apply journalBlock_congr
  intro i hi
  have part := g.journalOff_inside inside
  rw [committed_bytes, superblock_body layout _ _ (journal_body layout (by omega) (by omega)),
    Write.applyAll_of_not_covers, Write.applyAll_of_not_covers]
  · rintro ⟨w, member, range⟩
    obtain ⟨j, _, window, off, len⟩ := mem_recordWrites member ok
    have apart := g.journalOff_apart (i := j) (j := idx) (by omega)
    simp only [Apart] at apart
    omega
  · rintro ⟨w, member, range⟩
    obtain ⟨b, held, rfl⟩ := mem_inPlace member
    have apart := (ok.home b held).journal
    simp only [Apart] at apart
    simp only at range
    omega

/-- A journal of eight blocks, and two transactions of one block for it. -/
structure Twice (agLen : Nat) (v : Gofs) (t₀ t₁ : Txn) : Prop where
  layout : Layout v agLen
  head : v.sb.journalHead = 0
  length : v.sb.journalLength = 8
  ok₀ : Recordable v t₀
  ok₁ : Recordable v t₁
  one₀ : t₀.blocks.length = 1
  one₁ : t₁.blocks.length = 1
  plain₀ : ∀ b ∈ t₀.blocks, getU32 b.2 0 ≠ JDESC_MAGIC
  plain₁ : ∀ b ∈ t₁.blocks, getU32 b.2 0 ≠ JDESC_MAGIC
  gen : v.sb.gen + 3 < 2 ^ 64
  seq : v.sb.journalSeq + 3 < 2 ^ 64

namespace Twice

variable {v : Gofs} {t₀ t₁ : Txn}

theorem once (two : Twice agLen v t₀ t₁) :
    Layout (v.committed agLen t₀) agLen ∧ Alike v (v.committed agLen t₀) ∧
      Recordable (v.committed agLen t₀) t₁ ∧ v.recordPos t₀ = 0 ∧
      (v.committed agLen t₀).recordPos t₁ = 3 ∧ (v.committed agLen t₀).sb.journalHead = 3 := by
  have gen := two.gen
  have seq := two.seq
  have still := alike_committed two.layout two.ok₀
  have pos : v.recordPos t₀ = 0 := by
    rw [recordPos, two.head]
    exact ite_self 0
  have head : (v.committed agLen t₀).sb.journalHead = 3 := by
    show (if v.recordPos t₀ + (t₀.blocks.length + 2) ≥ v.sb.journalLength then 0
      else v.recordPos t₀ + (t₀.blocks.length + 2)) = 3
    rw [pos, two.one₀, two.length]
    rfl
  refine ⟨two.layout.alike still (two.layout.checkpoint_fits t₀ (by omega) (by omega)), still,
    still.recordable two.ok₁, pos, ?_, head⟩
  rw [recordPos, head, still.journalLength, two.one₁, two.length]
  rfl

theorem records (two : Twice agLen v t₀ t₁) :
    Record v ((v.committed agLen t₀).committed agLen t₁).dev.bytes 0 v.sb.journalSeq t₀.blocks ∧
      Record v ((v.committed agLen t₀).committed agLen t₁).dev.bytes 3 (v.sb.journalSeq + 1)
      t₁.blocks := by
  obtain ⟨layout, still, ok, pos, pos', head⟩ := two.once
  constructor
  · have record := committed_record two.layout two.ok₀
    rw [pos] at record
    apply record.of_blocks (Alike.refl v)
    intro idx _ high
    rw [two.one₀] at high
    have low : idx < (v.committed agLen t₀).sb.journalLength := by
      rw [still.journalLength, two.length]
      omega
    have kept := committed_block layout ok low (by omega)
    rwa [journalBlock, journalBlock, still.journalOff, still.blocksize] at kept
  · have record := committed_record layout ok
    rw [pos'] at record
    exact record.congr still.symm fun _ _ _ => rfl

theorem only (two : Twice agLen v t₀ t₁) (first : Record v d 0 v.sb.journalSeq t₀.blocks)
    (second : Record v d 3 (v.sb.journalSeq + 1) t₁.blocks) {blocks : List (Nat × Bytes)}
    (record : Record v d pos seq blocks) :
    (pos = 0 ∧ seq = v.sb.journalSeq ∧ blocks = t₀.blocks) ∨
      (pos = 3 ∧ seq = v.sb.journalSeq + 1 ∧ blocks = t₁.blocks) := by
  have inside := record.inside
  have length := two.length
  have some : 0 < blocks.length := List.length_pos_iff.mpr record.nonempty
  have magic := record.desc.1
  have plain : ∀ p s (t : Txn), Record v d p s t.blocks → t.blocks.length = 1 →
      (∀ b ∈ t.blocks, getU32 b.2 0 ≠ JDESC_MAGIC) → pos ≠ p + 1 ∧ pos ≠ p + 2 := by
    intro p s t held one plain
    constructor
    · rintro rfl
      have data := held.data
      rw [one] at data
      obtain ⟨b, single⟩ := List.length_eq_one_iff.mp one
      rw [single] at data
      have image : v.journalBlock d (p + 1) = b.2 := by simpa using data
      rw [image] at magic
      exact plain b (by rw [single]; exact List.mem_singleton_self b) magic
    · rintro rfl
      have other := held.commit.1
      rw [one, magic] at other
      revert other
      decide
  have apart₀ := plain 0 _ t₀ first two.one₀ two.plain₀
  have apart₁ := plain 3 _ t₁ second two.one₁ two.plain₁
  obtain rfl | rfl : pos = 0 ∨ pos = 3 := by omega
  · exact Or.inl ⟨rfl, first.unique record⟩
  · exact Or.inr ⟨rfl, second.unique record⟩

theorem scan (two : Twice agLen v t₀ t₁) (first : Record v d 0 v.sb.journalSeq t₀.blocks)
    (second : Record v d 3 (v.sb.journalSeq + 1) t₁.blocks) :
    Scan v d 0 v.sb.journalSeq [t₀, t₁] 6 ∧ Ends v d 6 (v.sb.journalSeq + 2) := by
  have next₀ : v.headBehind 0 t₀ = 3 := by
    rw [headBehind, two.one₀, two.length]
    rfl
  have next₁ : v.headBehind 3 t₁ = 6 := by
    rw [headBehind, two.one₁, two.length]
    rfl
  constructor
  · apply Scan.cons ⟨first, Or.inl rfl⟩
    rw [next₀]
    apply Scan.cons ⟨second, Or.inl rfl⟩
    rw [next₁]
    exact .nil _ _
  · intro blocks
    constructor
    · intro record
      rcases two.only first second record with ⟨h, -⟩ | ⟨h, -⟩ <;> omega
    · intro record
      rcases two.only first second record with ⟨-, h, -⟩ | ⟨h, -⟩ <;> omega

/-- The checkpoint of `start` on the volume `g`. -/
def rewind (start g : Gofs) : Gofs :=
  { g with
    sb := { g.sb with
      journalHead := start.sb.journalHead
      journalSeq := start.sb.journalSeq } }

omit [Crc32c] in
theorem rewound {start : Gofs} (layout : Layout start agLen) (layout' : Layout g agLen)
    (gen : g.sb.gen + 1 < 2 ^ 64) : Rewound agLen start g (rewind start g) where
  alike := ⟨rfl, rfl, rfl, rfl, rfl, rfl, rfl⟩
  fits := { layout'.fits with
    journalHead := layout.fits.journalHead
    journalSeq := layout.fits.journalSeq }
  gen := gen
  head := rfl
  seq := rfl
  body _ _ := rfl

theorem settled (two : Twice agLen v t₀ t₁) :
    let g := (v.committed agLen t₀).committed agLen t₁
    let cs := [(v, t₀), (v.committed agLen t₀, t₁)]
    Layout g agLen ∧ Replayable g ∧ g.sb.gen + 1 < 2 ^ 64 ∧ Since agLen v cs g ∧
      Intact g g.dev.bytes cs ∧ Unshadowed g g.dev.bytes cs ∧ journalPending g = (.ok 0, g) := by
  intro g cs
  obtain ⟨layout, still, ok, pos, pos', head⟩ := two.once
  obtain ⟨first, second⟩ := two.records
  have seq := two.seq
  have gen := two.gen
  have seq₁ : (v.committed agLen t₀).sb.journalSeq = v.sb.journalSeq + 1 := rfl
  have gen₁ : (v.committed agLen t₀).sb.gen = v.sb.gen + 1 := rfl
  have still₁ := alike_committed layout ok
  have alike : Alike v g := still.trans still₁
  have layout₁ : Layout g agLen :=
    layout.alike still₁ (layout.checkpoint_fits t₁ (by omega) (by omega))
  have last : g.sb.journalHead = 6 := by
    show (if (v.committed agLen t₀).recordPos t₁ + (t₁.blocks.length + 2) ≥
      (v.committed agLen t₀).sb.journalLength then 0
      else (v.committed agLen t₀).recordPos t₁ + (t₁.blocks.length + 2)) = 6
    rw [pos', still.journalLength, two.one₁, two.length]
    rfl
  have seq₂ : g.sb.journalSeq = v.sb.journalSeq + 2 := rfl
  have gen₂ : g.sb.gen = v.sb.gen + 2 := rfl
  have ends : Ends g g.dev.bytes g.sb.journalHead g.sb.journalSeq := by
    rw [last, seq₂]
    exact (two.scan first second).2.congr alike fun _ _ _ => rfl
  have run : Since agLen v cs g :=
    .commit (.commit .start two.ok₀ (by omega) (by omega)
    (commit_run two.layout two.ok₀ (by omega) (by omega)))
      ok (by omega) (by omega) (commit_run layout ok (by omega) (by omega))
  refine ⟨layout₁, ?_, by omega, run, ?_, ?_, (journalPending_scan (.nil _ _) ends
      (.refl layout₁)).1
    layout₁.fits.journalSeq⟩
  · intro p s t low record
    rcases two.only first second (record.congr alike.symm fun _ _ _ => rfl) with ⟨_, h, _⟩ | ⟨_, h,
        _⟩ <;> omega
  · intro c member
    rcases List.mem_cons.mp member with rfl | later
    · rw [pos]
      exact first.congr alike fun _ _ _ => rfl
    · rw [List.mem_singleton.mp later, pos']
      exact second.congr alike fun _ _ _ => rfl
  · intro c member moved
    rcases List.mem_cons.mp member with rfl | later
    · exact absurd (pos.trans two.head.symm) moved
    · rw [List.mem_singleton.mp later] at moved
      exact absurd (pos'.trans head.symm) moved

/-- The volume after both commits, opened with the superblock from before them and not replayed. -/
def stale (agLen : Nat) (v : Gofs) (t₀ t₁ : Txn) : Gofs :=
  { (v.committed agLen t₀).committed agLen t₁ with sb := v.sb }

theorem alike_stale (two : Twice agLen v t₀ t₁) : Alike v (stale agLen v t₀ t₁) := by
  obtain ⟨layout, still, ok, -⟩ := two.once
  have alike := still.trans (alike_committed layout ok)
  exact ⟨alike.map, rfl, rfl, rfl, rfl, rfl, alike.fileLen⟩

theorem twice_stale (two : Twice agLen v t₀ t₁) : Twice agLen (stale agLen v t₀ t₁) t₀ t₁ :=
  { two with
    layout := two.layout.alike two.alike_stale two.layout.fits
    ok₀ := two.alike_stale.recordable two.ok₀
    ok₁ := two.alike_stale.recordable two.ok₁ }

theorem records_stale (two : Twice agLen v t₀ t₁) :
    Record v ((stale agLen v t₀ t₁).committed agLen t₀).dev.bytes 0 v.sb.journalSeq t₀.blocks ∧
      Record v ((stale agLen v t₀ t₁).committed agLen t₀).dev.bytes 3 (v.sb.journalSeq + 1)
      t₁.blocks := by
  have two' := two.twice_stale
  have pos := two'.once.2.2.2.1
  constructor
  · have record := committed_record two'.layout two'.ok₀
    rw [pos] at record
    exact record.congr two.alike_stale.symm fun _ _ _ => rfl
  · apply two.records.2.of_blocks (Alike.refl v)
    intro idx low high
    rw [two.one₁] at high
    have short : idx < (stale agLen v t₀ t₁).sb.journalLength := by
      rw [two'.length]
      omega
    exact committed_block two'.layout two'.ok₀ short (by rw [pos, two.one₀]; omega)

theorem replay_stale (two : Twice agLen v t₀ t₁) :
    let start := stale agLen v t₀ t₁
    let g := start.committed agLen t₀
    Layout g agLen ∧ Since agLen start [(start, t₀)] g ∧ Intact g g.dev.bytes [(start, t₀)] ∧
      Rewound agLen start g (rewind start g) ∧ Replayable (rewind start g) ∧
      ∃ h', replay (rewind start g) = (.ok 2, h') ∧ h'.sb.journalSeq = g.sb.journalSeq + 1 ∧
        ∀ i, Body v agLen i →
          h'.dev.bytes i = Write.applyAll (v.inPlaceAll [t₀, t₁]) g.dev.bytes i := by
  intro start g
  have two' : Twice agLen start t₀ t₁ := two.twice_stale
  obtain ⟨first, second⟩ := two.records_stale
  obtain ⟨layout, still, _, pos, -⟩ := two'.once
  have seq := two.seq
  have gen := two.gen
  have alike : Alike v g := two.alike_stale.trans still
  have rewound := rewound two'.layout layout (show v.sb.gen + 1 + 1 < 2 ^ 64 by omega)
  have valid : Replayable (rewind start g) := by
    intro p s t low record b member
    rcases two.only first second (record.congr (alike.trans rewound.alike).symm fun _ _ _ => rfl)
      with ⟨_, _, same⟩ | ⟨_, _, same⟩
    · rw [same] at member
      exact (alike.trans rewound.alike).home (two.ok₀.home b member)
    · rw [same] at member
      exact (alike.trans rewound.alike).home (two.ok₁.home b member)
  refine ⟨layout, .commit .start two'.ok₀ (show v.sb.gen + 1 < 2 ^ 64 by omega)
    (show v.sb.journalSeq + 1 < 2 ^ 64 by omega) (commit_run two'.layout two'.ok₀
      (show v.sb.gen + 1 < 2 ^ 64 by omega) (show v.sb.journalSeq + 1 < 2 ^ 64 by omega)), ?_,
    rewound, valid, ?_⟩
  · intro c member
    rw [List.mem_singleton.mp member, pos]
    exact first.congr alike fun _ _ _ => rfl
  · obtain ⟨scan, ends⟩ := two.scan first second
    have mid : Mid v agLen g.dev.bytes (rewind start g) :=
      ⟨(rewound.mid layout).layout, alike.trans rewound.alike, fun _ _ _ => rfl⟩
    have home : ∀ t ∈ [t₀, t₁], ∀ b ∈ t.blocks, Home v b.1 := by
      intro t member
      rcases List.mem_cons.mp member with rfl | later
      · exact two.ok₀.home
      · rw [List.mem_singleton.mp later]
        exact two.ok₁.home
    have head : (rewind start g).sb.journalHead = 0 := two.head
    rw [← head] at scan
    obtain ⟨h', replayed, _, _, seq', body⟩ :=
      (replay_scan scan ends mid home rewound.gen).1 (show v.sb.journalSeq + 2 < 2 ^ 64 by omega)
    exact ⟨h', replayed, seq', body⟩

theorem block_stale (two : Twice agLen v t₀ t₁) {blk : Nat} {data₀ data₁ : Bytes}
    (single₀ : t₀.blocks = [(blk, data₀)]) (single₁ : t₁.blocks = [(blk, data₁)])
    (inside : Body v agLen (v.blockOff blk)) (d : Bytes) :
    ((stale agLen v t₀ t₁).committed agLen t₀).dev.bytes (v.blockOff blk) = data₀ 0 ∧
      Write.applyAll (v.inPlaceAll [t₀, t₁]) d (v.blockOff blk) = data₁ 0 := by
  have alike := two.alike_stale
  have size := two.layout.blocksize
  constructor
  · have inside' : Body (stale agLen v t₀ t₁) agLen (v.blockOff blk) := inside
    rw [committed_bytes, superblock_body two.twice_stale.layout _ _ inside', alike.inPlace, inPlace,
        single₀]
    refine (Write.applyAll_last [] [] ⟨v.blockOff blk, v.sb.blocksize, data₀⟩ _ _ ?_ ?_).trans ?_
    · exact ⟨Nat.le_refl _, show v.blockOff blk < v.blockOff blk + v.sb.blocksize by omega⟩
    · simp [Write.Covers]
    · rw [Nat.sub_self]
  · have writes : v.inPlaceAll [t₀, t₁] = [⟨v.blockOff blk, v.sb.blocksize, data₀⟩] ++
        ⟨v.blockOff blk, v.sb.blocksize, data₁⟩ :: [] := by
      simp [inPlaceAll, inPlace, single₀, single₁]
    rw [writes, Write.applyAll_last]
    · simp only [Nat.sub_self]
    · exact ⟨Nat.le_refl _, show v.blockOff blk < v.blockOff blk + v.sb.blocksize by omega⟩
    · simp [Write.Covers]

end Twice

/-- Two transactions for one block of the small volume. -/
def blankTxn : Txn := ⟨[(12, zeros)]⟩

def onesTxn : Txn := ⟨[(12, clip 4096 fun _ => 1)]⟩

theorem blockOff_small : (smallVolume 4096).blockOff 12 = 12 * 4096 := by
  have layout : Layout (smallVolume 4096) 16 :=
      smallVolume_layout (by decide) (by decide) (by decide)
  rw [blockOff, layout.resolve 12 (by decide)]
  rfl

theorem twice_small : Twice 16 (smallVolume 4096) blankTxn onesTxn := by
  have layout : Layout (smallVolume 4096) 16 :=
      smallVolume_layout (by decide) (by decide) (by decide)
  have bs : (smallVolume 4096).sb.blocksize = 4096 := rfl
  have off := blockOff_small
  have home : Home (smallVolume 4096) 12 := by
    have start : (smallVolume 4096).journalOff 0 = 4 * 4096 := rfl
    have length : (smallVolume 4096).sb.journalLength = 8 := rfl
    have file : (smallVolume 4096).dev.fileLen = 16 * 4096 := rfl
    refine ⟨?_, ?_, ?_⟩
    · rw [layout.resolve 12 (by decide), off]
      rfl
    · rw [off, bs, file]
      decide
    · rw [off, bs, start, length]
      exact Or.inr (by decide)
  have ok : ∀ data, clip 4096 data = data → Recordable (smallVolume 4096) ⟨[(12, data)]⟩ := by
    intro data whole
    refine ⟨List.cons_ne_nil _ _, (by decide : 1 ≤ maxTargets 4096), (by decide : 1 + 2 ≤ 8), ?_,
        ?_, ?_⟩
    all_goals
      intro b member
      rw [List.mem_singleton.mp member]
    · exact (by decide : 12 < 2 ^ 64)
    · exact whole
    · exact home
  constructor
  · exact layout
  · rfl
  · rfl
  · exact ok zeros (clip_zeros 4096)
  · exact ok _ (clip_clip _ _)
  · rfl
  · rfl
  · intro b member
    rw [List.mem_singleton.mp member]
    decide
  · intro b member
    rw [List.mem_singleton.mp member]
    decide
  · exact (by decide : 1 + 3 < 2 ^ 64)
  · exact (by decide : 1 + 3 < 2 ^ 64)

/-- Replay ends, counts as `journal_pending` does and does nothing twice; from an earlier checkpoint
it comes back to the present one, if the scan meets no records but those of the run since. -/
theorem replay_settles (layout : Layout g agLen) (valid : Replayable g)
    (gen : g.sb.gen + 1 < 2 ^ 64) :
    ((replay g).1 ≠ .error (.panic "replay does not end") ∧
      (journalPending g).1 ≠ .error (.panic "replay does not end")) ∧
    (g.sb.journalSeq + g.sb.journalLength < 2 ^ 64 → ∃ n h, replay g = (.ok n, h)) ∧
    (∀ n, journalPending g = (.ok n, g) ↔ ∃ h, replay g = (.ok n, h)) ∧
    (∀ n h, replay g = (.ok n, h) → n ≤ g.sb.journalLength ∧ journalPending h = (.ok 0, h) ∧
      replay h = (.ok 0, h)) ∧
    ∀ start cs h, Layout start agLen → Since agLen start cs g → Intact g g.dev.bytes cs →
      Unshadowed g g.dev.bytes cs → journalPending g = (.ok 0, g) → Rewound agLen start g h →
      ∃ h', replay h = (.ok cs.length, h') ∧ h'.sb.journalHead = g.sb.journalHead ∧
        h'.sb.journalSeq = g.sb.journalSeq ∧ ∀ i, Body g agLen i →
        h'.dev.bytes i = g.dev.bytes i := by
  obtain ⟨ts, last, scan, ends⟩ := scan_ends g g.dev.bytes g.sb.journalHead g.sb.journalSeq
  have bound := scan.length_le_journal
  have home : ∀ t ∈ ts, ∀ b ∈ t.blocks, Home g b.1 := by
    intro t member
    obtain ⟨pos, n, record⟩ := scan.record t member
    exact valid pos _ t (Nat.le_add_right _ _) record
  obtain ⟨counts, counts'⟩ := journalPending_scan scan ends (.refl layout)
  obtain ⟨applies, applies'⟩ := replay_scan scan ends (.refl layout) home gen
  refine ⟨?_, ?_, ?_, ?_, fun start cs h layout' run intact unshadowed pending rewound =>
    replay_rewound layout layout' run intact unshadowed pending rewound⟩
  · by_cases small : g.sb.journalSeq + ts.length < 2 ^ 64
    · obtain ⟨h, replayed, -⟩ := applies small
      rw [replayed, counts small]
      exact ⟨(fun h => by cases h), (fun h => by cases h)⟩
    · obtain ⟨h, failed⟩ := applies' (by omega)
      rw [failed, counts' (by omega)]
      exact ⟨fun same => absurd (Except.error.inj same) (by decide),
        fun same => absurd (Except.error.inj same) (by decide)⟩
  · intro room
    obtain ⟨h, replayed, -⟩ := applies (by omega)
    exact ⟨_, h, replayed⟩
  · intro n
    by_cases small : g.sb.journalSeq + ts.length < 2 ^ 64
    · obtain ⟨h, replayed, -⟩ := applies small
      rw [replayed, counts small]
      constructor
      · intro counted
        injection counted with value
        exact ⟨h, by rw [value]⟩
      · rintro ⟨h', same⟩
        injection same with value
        rw [value]
    · obtain ⟨h, failed⟩ := applies' (by omega)
      rw [failed, counts' (by omega)]
      constructor
      · intro counted
        cases counted
      · rintro ⟨h', ran⟩
        cases ran
  · intro n h replayed
    by_cases small : g.sb.journalSeq + ts.length < 2 ^ 64
    · obtain ⟨h', replayed', mid, head, seq, -⟩ := applies small
      rw [replayed'] at replayed
      injection replayed with value state
      injection value with value
      subst value state
      have closed : Ends g g.dev.bytes h'.sb.journalHead h'.sb.journalSeq := by
        rw [head, seq]
        exact ends
      exact ⟨bound, (journalPending_scan (.nil _ _) closed mid).1 mid.layout.fits.journalSeq,
          replay_ends mid closed⟩
    · obtain ⟨h', failed⟩ := applies' (by omega)
      rw [failed] at replayed
      cases replayed

omit [Crc32c] in
/-- The two commits on the small volume, replayed from before them. -/
theorem replay_settles_twice :
    let _crc := castagnoli
    let v := smallVolume 4096
    let g := (v.committed 16 blankTxn).committed 16 onesTxn
    ∃ h', replay (Twice.rewind v g) = (.ok 2, h') ∧ h'.sb.journalHead = g.sb.journalHead ∧
      h'.sb.journalSeq = g.sb.journalSeq ∧ ∀ i, Body g 16 i → h'.dev.bytes i = g.dev.bytes i := by
  intro _ v g
  have two : Twice 16 v blankTxn onesTxn := twice_small
  obtain ⟨layout, valid, gen, run, intact, unshadowed, pending⟩ := two.settled
  exact (replay_settles layout valid gen).2.2.2.2 v _ _ two.layout run intact unshadowed pending
    (Twice.rewound two.layout layout gen)

omit [Crc32c] in
/-- With the superblock from before both commits the first is made once more; replay from there also
takes the second record, which nobody has committed since. -/
theorem replay_takes_stale :
    let _crc := castagnoli
    let start := Twice.stale 16 (smallVolume 4096) blankTxn onesTxn
    let g := start.committed 16 blankTxn
    Layout start 16 ∧ Layout g 16 ∧ Since 16 start [(start, blankTxn)] g ∧
      Intact g g.dev.bytes [(start, blankTxn)] ∧ Rewound 16 start g (Twice.rewind start g) ∧
      Replayable (Twice.rewind start g) ∧
      ∃ h', replay (Twice.rewind start g) = (.ok 2, h') ∧ h'.sb.journalSeq ≠ g.sb.journalSeq ∧
        ∃ i, Body g 16 i ∧ h'.dev.bytes i ≠ g.dev.bytes i := by
  intro _ start g
  have two : Twice 16 (smallVolume 4096) blankTxn onesTxn := twice_small
  obtain ⟨layout, run, intact, rewound, valid, h', replayed, seq, body⟩ := two.replay_stale
  refine ⟨two.twice_stale.layout, layout, run, intact, rewound, valid, h', replayed, ?_, 12 * 4096,
      ?_, ?_⟩
  · rw [seq]
    exact Nat.succ_ne_self _
  · exact ⟨(by decide : 4096 ≤ 12 * 4096), Or.inl (by decide : 12 * 4096 + 1 ≤ (16 - 1) * 4096)⟩
  · have inside : Body (smallVolume 4096) 16 (12 * 4096) :=
      ⟨(by decide : 4096 ≤ 12 * 4096), Or.inl (by decide : 12 * 4096 + 1 ≤ (16 - 1) * 4096)⟩
    have off := blockOff_small
    obtain ⟨before, after⟩ := two.block_stale (show blankTxn.blocks = [(12, zeros)] from rfl)
      (show onesTxn.blocks = [(12, _)] from rfl) (by rw [off]; exact inside) g.dev.bytes
    rw [off] at before after
    rw [body _ inside, before, after]
    decide

end Gofs

end FiveFs

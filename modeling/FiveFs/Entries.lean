import FiveFs.Fresh
import FiveFs.Lib.Utf16

/-! Directory entries with their names: the list embedded in an inode payload, and the records of a
bucket block. -/

namespace FiveFs

open Buffer Prog

/-- A `DirEntry` with its name as a string. -/
structure NamedEntry where
  ino : Nat
  ftype : Nat
  name : String
  deriving DecidableEq, Repr

/-- Inode number and type are of their widths, and the name is one that a directory takes. -/
structure NamedEntry.Proper (e : NamedEntry) : Prop where
  some : e.ino ≠ 0
  ino : e.ino < 2 ^ 64
  ftype : e.ftype < 2 ^ 8
  name : e.name ≠ ""
  length : (Utf16.encode e.name).length ≤ 255

def NamedEntry.coded (e : NamedEntry) : DirEntry := ⟨e.ino, e.ftype, Utf16.encode e.name⟩
def DirEntry.named (e : DirEntry) : NamedEntry := ⟨e.ino, e.ftype, Utf16.decodeLossy e.name⟩

@[simp] theorem NamedEntry.named_coded (e : NamedEntry) : e.coded.named = e := by
  rw [coded, DirEntry.named, Utf16.decodeLossy_encode]

def NamedEntry.need (e : NamedEntry) : Nat := 10 + (Utf16.encode e.name).length * 2

def dirParseNamed (payload : Bytes) : List NamedEntry := (dirParse payload).map DirEntry.named

def putEntry (b : Bytes) (off : Nat) (e : DirEntry) : Bytes :=
  let b := putU64 b off e.ino
  let b := putBE 1 b (off + 8) e.ftype
  let b := putBE 1 b (off + 9) e.name.length
  putArr 2 b (off + 10) e.name

/-- `dir_append` on the payload of an inode. -/
def dirAppendNamed (e : NamedEntry) : Prog Bytes Unit := do
  let units := Utf16.encode e.name
  if units.length > 255 then bail "name too long"
  else
    let payload ← get
    let off := ((dirParseNamed payload).map NamedEntry.need).sum
    if off + (10 + units.length * 2) > INODE_PAYLOAD then bail "embedded directory full"
    else modify fun b => putEntry b off e.coded

section Embedded

theorem dirParseFrom_units (p : Bytes) (fuel off : Nat) : ∀ e ∈ dirParseFrom p fuel off,
    ∀ u ∈ e.name, u < 2 ^ 16 := by
  induction fuel generalizing off with
  | zero => exact fun _ member => (List.not_mem_nil member).elim
  | succ fuel ih =>
      intro e member
      simp only [dirParseFrom] at member
      split at member
      · exact (List.not_mem_nil member).elim
      split at member
      · exact (List.not_mem_nil member).elim
      split at member
      · exact (List.not_mem_nil member).elim
      rcases List.mem_cons.mp member with head | tail
      · intro u unit
        rw [head] at unit
        obtain ⟨i, _, rfl⟩ := List.mem_map.mp unit
        exact getBE_lt p _ 2
      · exact ih _ e tail

/-- The append to the names of an embedded directory is the one to its entries. -/
theorem dirAppendNamed_eq (e : NamedEntry) (p : Bytes) : dirAppendNamed e p =
    match dirAppend p e.coded with
    | .ok p' => (.ok (), p')
    | .error m => (.error (.bail m), p) := by
  have sizes : (dirParseNamed p).map NamedEntry.need = (dirParse p).map DirEntry.need := by
    rw [dirParseNamed, List.map_map]
    apply List.map_congr_left
    intro e' member
    have length := Utf16.length_encode_decodeLossy (dirParseFrom_units p _ _ e' member)
    simp only [Function.comp_apply, NamedEntry.need, DirEntry.named, DirEntry.need, length]
  have step : dirAppendNamed e p = (if (Utf16.encode e.name).length > 255 then bail "name too long"
      else if ((dirParseNamed p).map NamedEntry.need).sum +
      (10 + (Utf16.encode e.name).length * 2) > INODE_PAYLOAD then
        bail "embedded directory full"
      else modify fun b => putEntry b ((dirParseNamed p).map NamedEntry.need).sum e.coded :
          Prog Bytes Unit) p := by
    rw [dirAppendNamed]
    split <;> rfl
  have append : dirAppend p e.coded = if (Utf16.encode e.name).length > 255 then .error
      "name too long"
      else if ((dirParse p).map DirEntry.need).sum + (10 + (Utf16.encode e.name).length * 2) >
      INODE_PAYLOAD then
        .error "embedded directory full"
      else .ok (putEntry p ((dirParse p).map DirEntry.need).sum e.coded) := rfl
  rw [step, sizes, append]
  by_cases long : (Utf16.encode e.name).length > 255
  · rw [if_pos long, if_pos long]
    rfl
  · rw [if_neg long, if_neg long]
    by_cases full : ((dirParse p).map DirEntry.need).sum + (10 + (Utf16.encode e.name).length * 2) >
    INODE_PAYLOAD
    · rw [if_pos full, if_pos full]
      rfl
    · rw [if_neg full, if_neg full]
      rfl

/-- The entries of `es` one after the other from `off` on. -/
def putDir : Bytes → Nat → List DirEntry → Bytes
  | b, _, [] => b
  | b, off, e :: rest => putDir (putEntry b off e) (off + e.need) rest

def dirSize (es : List DirEntry) : Nat := (es.map DirEntry.need).sum

@[simp] theorem dirSize_cons (e : DirEntry) (rest : List DirEntry) :
    dirSize (e :: rest) = e.need + dirSize rest := by
  simp [dirSize]

theorem putEntry_of_not_mem (b : Bytes) {off i : Nat} {e : DirEntry}
    (outside : i < off ∨ off + e.need ≤ i) :
    putEntry b off e i = b i := by
  rw [DirEntry.need] at outside
  rw [putEntry, putArr_of_not_mem _ _ _ _ _ (by omega), putBE_of_not_mem (by omega),
      putBE_of_not_mem (by omega),
    putU64, putBE_of_not_mem (by omega)]

theorem putDir_of_not_mem (es : List DirEntry) (b : Bytes) {off i : Nat}
    (outside : i < off ∨ off + dirSize es ≤ i) :
    putDir b off es i = b i := by
  induction es generalizing b off with
  | nil => rfl
  | cons e rest ih =>
      rw [dirSize_cons] at outside
      rw [putDir, ih _ (by omega), putEntry_of_not_mem _ (by omega)]

theorem putDir_append (es rest : List DirEntry) (b : Bytes) (off : Nat) :
    putDir b off (es ++ rest) = putDir (putDir b off es) (off + dirSize es) rest := by
  induction es generalizing b off with
  | nil => rfl
  | cons e es ih => rw [List.cons_append, putDir, ih, putDir, dirSize_cons, Nat.add_assoc]

/-- What a stored entry holds. -/
structure DirEntry.Stored (e : DirEntry) : Prop where
  some : e.ino ≠ 0
  ino : e.ino < 2 ^ 64
  ftype : e.ftype < 2 ^ 8
  length : e.name.length ≤ 255
  units : ∀ u ∈ e.name, u < 2 ^ 16

theorem NamedEntry.Proper.stored {e : NamedEntry} (proper : e.Proper) : e.coded.Stored :=
  ⟨proper.some, proper.ino, proper.ftype, proper.length, Utf16.encode_lt e.name⟩

theorem dirParseFrom_cons {e : DirEntry} (stored : e.Stored) (b p : Bytes) {off fuel : Nat}
    (room : off + e.need ≤ INODE_PAYLOAD) (same : ∀ i, off ≤ i → i < off + e.need →
    p i = putEntry b off e i) :
    dirParseFrom p (fuel + 1) off = e :: dirParseFrom p fuel (off + e.need) := by
  rw [DirEntry.need] at room same ⊢
  have field : ∀ k n, k + n ≤ 10 → getBE p (off + k) n =
      getBE (putBE 1 (putBE 1 (putU64 b off e.ino) (off + 8) e.ftype) (off + 9) e.name.length)
      (off + k) n := by
    intro k n small
    apply getBE_congr
    intro i hi
    rw [same _ (by omega) (by omega), putEntry, putArr_of_not_mem _ _ _ _ _ (Or.inl (by omega))]
  obtain ⟨some, ino, ftype, length, units⟩ := stored
  have first := field 0 8 (by decide)
  have second := field 8 1 (by decide)
  have third := field 9 1 (by decide)
  simp (disch := omega) only [putU64, getBE_putBE_disjoint, getBE_putBE, Nat.add_zero,
      Nat.reducePow,
    Nat.mod_eq_of_lt] at first second third
  have name : getArr 2 p (off + 10) e.name.length = e.name := by
    calc
      _ = getArr 2 (putEntry b off e) (off + 10) e.name.length := by
        apply getArr_congr
        intro i hi
        exact same _ (by omega) (by omega)
      _ = e.name := getArr_putArr 2 e.name _ _ units
  rw [dirParseFrom, getU64, first, third, second, if_neg (by omega), if_neg some, if_neg (by omega),
      name, Nat.add_assoc]

theorem dirParseFrom_putDir {es : List DirEntry} (stored : ∀ e ∈ es, e.Stored) (b p : Bytes)
    {off fuel : Nat}
    (enough : es.length < fuel) (room : off + dirSize es ≤ INODE_PAYLOAD)
    (same : ∀ i, off ≤ i → i < off + dirSize es → p i = putDir b off es i)
    (clear : off + dirSize es + 10 ≤ INODE_PAYLOAD → getU64 p (off + dirSize es) = 0) :
    dirParseFrom p fuel off = es := by
  induction es generalizing b off fuel with
  | nil =>
      obtain ⟨fuel, rfl⟩ : ∃ k, fuel = k + 1 := ⟨fuel - 1, by omega⟩
      rw [dirParseFrom]
      split
      · rfl
      · exact if_pos (clear (Nat.le_of_not_lt ‹_›))
  | cons e rest ih =>
      obtain ⟨fuel, rfl⟩ : ∃ k, fuel = k + 1 := ⟨fuel - 1, by omega⟩
      rw [dirSize_cons] at room same clear
      have first : ∀ i, off ≤ i → i < off + e.need → p i = putEntry b off e i := by
        intro i low high
        rw [same i low (by omega), putDir, putDir_of_not_mem _ _ (Or.inl high)]
      rw [dirParseFrom_cons (stored e List.mem_cons_self) b p (by omega) first]
      congr 1
      refine ih (fun e' member => stored e' (List.mem_cons_of_mem _ member))
          _ (Nat.lt_of_succ_lt_succ enough) (by omega)
        (fun i low high => same i (by omega) (by omega)) fun short => ?_
      rw [Nat.add_assoc]
      exact clear (by omega)

theorem length_le_dirSize (es : List DirEntry) : es.length * 10 ≤ dirSize es := by
  induction es with
  | nil => exact Nat.zero_le _
  | cons e rest ih =>
      rw [List.length_cons, dirSize_cons, DirEntry.need]
      omega

theorem dirParse_putDir {es : List DirEntry} (stored : ∀ e ∈ es, e.Stored)
    (room : dirSize es ≤ INODE_PAYLOAD) :
    dirParse (putDir zeros 0 es) = es := by
  have count := length_le_dirSize es
  have size : INODE_PAYLOAD = 128 := rfl
  apply dirParseFrom_putDir stored zeros _ (by omega) (by omega) fun _ _ _ => rfl
  intro _
  have clear : ∀ i < 8, putDir zeros 0 es (0 + dirSize es + i) = zeros (0 + i) := by
    intro i _
    exact putDir_of_not_mem _ _ (Or.inr (by omega))
  rw [getU64, getBE_congr clear, getBE_zeros]

/-- A payload made by calls of `dir_append`, with the entries whose calls succeeded. -/
inductive Built : List NamedEntry → Bytes → Prop
  | clear : Built [] zeros
  | stored {es : List NamedEntry} {p p' : Bytes} {e : NamedEntry} : Built es p → e.Proper →
      dirAppendNamed e p = (.ok (), p') → Built (es ++ [e]) p'
  | refused {es : List NamedEntry} {p p' : Bytes} {e : NamedEntry} {err : Err} : Built es p →
      e.Proper →
      dirAppendNamed e p = (.error err, p') → Built es p'

def entriesSize (es : List NamedEntry) : Nat := (es.map NamedEntry.need).sum

theorem dirSize_coded (es : List NamedEntry) :
    dirSize (es.map NamedEntry.coded) = entriesSize es := by
  rw [dirSize, entriesSize, List.map_map]
  rfl

theorem dirParseNamed_putDir {es : List NamedEntry} (proper : ∀ e ∈ es, e.Proper)
    (room : entriesSize es ≤ INODE_PAYLOAD) :
    dirParseNamed (putDir zeros 0 (es.map NamedEntry.coded)) = es := by
  rw [dirParseNamed, dirParse_putDir (List.forall_mem_map.mpr fun e member =>
      (proper e member).stored)
    (by rwa [dirSize_coded]), List.map_map]
  have each : DirEntry.named ∘ NamedEntry.coded = id := funext NamedEntry.named_coded
  rw [each, List.map_id]

theorem dirAppendNamed_putDir {es : List NamedEntry} (proper : ∀ e ∈ es, e.Proper)
    (room : entriesSize es ≤ INODE_PAYLOAD) {e : NamedEntry} (next : e.Proper) :
    dirAppendNamed e (putDir zeros 0 (es.map NamedEntry.coded)) =
      if entriesSize es + e.need > INODE_PAYLOAD then
        (.error (.bail "embedded directory full"), putDir zeros 0 (es.map NamedEntry.coded))
      else (.ok (), putDir zeros 0 ((es ++ [e]).map NamedEntry.coded)) := by
  have short : ¬ (Utf16.encode e.name).length > 255 := Nat.not_lt.mpr next.length
  have appended : putEntry (putDir zeros 0 (es.map NamedEntry.coded)) (entriesSize es) e.coded =
      putDir zeros 0 ((es ++ [e]).map NamedEntry.coded) := by
    rw [List.map_append, putDir_append, dirSize_coded, Nat.zero_add]
    rfl
  have parsed : dirParse (putDir zeros 0 (es.map NamedEntry.coded)) = es.map NamedEntry.coded :=
    dirParse_putDir (List.forall_mem_map.mpr fun e member => (proper e member).stored)
      (by rwa [dirSize_coded])
  have append : dirAppend (putDir zeros 0 (es.map NamedEntry.coded)) e.coded =
      if entriesSize es + e.need > INODE_PAYLOAD then .error "embedded directory full"
      else .ok (putEntry (putDir zeros 0 (es.map NamedEntry.coded)) (entriesSize es) e.coded) := by
    rw [dirAppend, parsed, ← dirSize, dirSize_coded]
    dsimp only
    rw [if_neg (show ¬ e.coded.name.length > 255 from short)]
    rfl
  rw [dirAppendNamed_eq, append]
  by_cases full : entriesSize es + e.need > INODE_PAYLOAD
  · rw [if_pos full, if_pos full]
  · rw [if_neg full, if_neg full, ← appended]

theorem Built.payload {es : List NamedEntry} {p : Bytes} (built : Built es p) :
    (∀ e ∈ es, e.Proper) ∧
    entriesSize es ≤ INODE_PAYLOAD ∧ p = putDir zeros 0 (es.map NamedEntry.coded) := by
  induction built with
  | clear => exact ⟨fun _ member => (List.not_mem_nil member).elim, Nat.zero_le _, rfl⟩
  | @stored es p p' e built next run ih =>
      obtain ⟨proper, room, rfl⟩ := ih
      rw [dirAppendNamed_putDir proper room next] at run
      split at run
      · cases run
      · rename_i fits
        cases run
        refine ⟨?_, ?_, rfl⟩
        · intro e' member
          rcases List.mem_append.mp member with old | new
          · exact proper e' old
          · rw [List.mem_singleton.mp new]
            exact next
        · simp only [entriesSize, List.map_append, List.sum_append, List.map_cons, List.map_nil,
              List.sum_cons,
            List.sum_nil] at fits ⊢
          omega
  | @refused es p p' e err built next run ih =>
      obtain ⟨proper, room, rfl⟩ := ih
      rw [dirAppendNamed_putDir proper room next] at run
      split at run
      · cases run
        exact ⟨proper, room, rfl⟩
      · cases run

end Embedded

def BK_HDR : Nat := 24

/-- `(20 + 2 * name_units + 3) & !3` -/
def entrySize (nameUnits : Nat) : Nat := (20 + 2 * nameUnits + 3) / 4 * 4

structure HEntry where
  ino : Nat
  hash : Nat
  ftype : Nat
  name : String
  deriving DecidableEq, Repr

structure HEntry.Proper (e : HEntry) : Prop where
  some : e.ino ≠ 0
  ino : e.ino < 2 ^ 64
  hash : e.hash < 2 ^ 64
  ftype : e.ftype < 2 ^ 8
  name : e.name ≠ ""
  length : (Utf16.encode e.name).length ≤ 255

def HEntry.size (e : HEntry) : Nat := entrySize (Utf16.encode e.name).length

/-- `count` records from `off` on, of a block of `len` bytes. -/
def bucketEntriesFrom (b : Bytes) (len : Nat) : Nat → Nat → Except Err (List HEntry)
  | 0, _ => .ok []
  | n + 1, off =>
      let nlen := getU16 b (off + 18)
      if off + 20 > len ∨ off + 20 + nlen * 2 > len then .error
          (.panic "range end index out of range")
      else do
        let rest ← bucketEntriesFrom b len n (off + entrySize nlen)
        return ⟨getU64 b off, getU64 b (off + 8), getBE b (off + 16) 1,
          Utf16.decodeLossy (getArr 2 b (off + 20) nlen)⟩ :: rest

def bucketEntries (b : Bytes) (len : Nat) : Except Err (List HEntry) :=
  if 20 > len then .error (.panic "range end index out of range")
  else bucketEntriesFrom b len (getU16 b 18) BK_HDR

def putHEntry (b : Bytes) (off : Nat) (e : HEntry) : Bytes :=
  let units := Utf16.encode e.name
  let b := putU64 b off e.ino
  let b := putU64 b (off + 8) e.hash
  let b := putBE 1 b (off + 16) e.ftype
  let b := putU16 b (off + 18) units.length
  putArr 2 b (off + 20) units

def bucketPut (bs : Nat) : Bytes → Nat → List HEntry → Except Err Bytes
  | b, _, [] => .ok b
  | b, off, e :: rest =>
      if off + e.size > bs then .error (.bail "bucket overflow")
      else bucketPut bs (putHEntry b off e) (off + e.size) rest

def bucketBuild (bs localDepth : Nat) (entries : List HEntry) : Except Err Bytes :=
  let b := putU32 zeros 0 BUCKET_MAGIC
  let b := putBE 1 b 16 localDepth
  let b := putU16 b 18 entries.length
  bucketPut bs b BK_HDR entries

def bucketFits (bs : Nat) (entries : List HEntry) (add : HEntry) : Bool :=
  BK_HDR + (entries.map HEntry.size).sum + add.size ≤ bs

/-- The test of `try_merge` on the entries of two buckets. -/
def mergeFits (bs : Nat) (entries entries2 : List HEntry) : Bool :=
  !decide (BK_HDR + ((entries ++ entries2).map HEntry.size).sum > bs)

section Buckets

theorem entrySize_ge (n : Nat) : 20 + 2 * n ≤ entrySize n := by
  rw [entrySize]
  omega

/-- The records of `es` one after the other from `off` on. -/
def putBucket : Bytes → Nat → List HEntry → Bytes
  | b, _, [] => b
  | b, off, e :: rest => putBucket (putHEntry b off e) (off + e.size) rest

def bucketSize (es : List HEntry) : Nat := (es.map HEntry.size).sum

@[simp] theorem bucketSize_cons (e : HEntry) (rest : List HEntry) :
    bucketSize (e :: rest) = e.size + bucketSize rest := by
  simp [bucketSize]

theorem bucketSize_append (es rest : List HEntry) :
    bucketSize (es ++ rest) = bucketSize es + bucketSize rest := by
  simp [bucketSize]

theorem putHEntry_of_not_mem (b : Bytes) {off i : Nat} {e : HEntry}
    (outside : i < off ∨ off + e.size ≤ i) :
    putHEntry b off e i = b i := by
  have size : 20 + 2 * (Utf16.encode e.name).length ≤ e.size := entrySize_ge _
  rw [putHEntry, putArr_of_not_mem _ _ _ _ _ (by omega), putU16, putBE_of_not_mem (by omega),
    putBE_of_not_mem (by omega), putU64, putBE_of_not_mem (by omega), putU64,
    putBE_of_not_mem (by omega)]

theorem putBucket_of_not_mem (es : List HEntry) (b : Bytes) {off i : Nat}
    (outside : i < off ∨ off + bucketSize es ≤ i) :
    putBucket b off es i = b i := by
  induction es generalizing b off with
  | nil => rfl
  | cons e rest ih =>
      rw [bucketSize_cons] at outside
      rw [putBucket, ih _ (by omega), putHEntry_of_not_mem _ (by omega)]

theorem bucketPut_fits {bs off : Nat} (inside : off ≤ bs) (b : Bytes) (es : List HEntry) :
    bucketPut bs b off es =
      if off + bucketSize es ≤ bs then .ok (putBucket b off es) else .error
      (.bail "bucket overflow") := by
  induction es generalizing b off with
  | nil => exact (if_pos inside).symm
  | cons e rest ih =>
      rw [bucketPut, bucketSize_cons]
      by_cases large : off + e.size > bs
      · rw [if_pos large, if_neg (by omega)]
      · rw [if_neg large, ih (by omega), Nat.add_assoc]
        rfl

theorem bucketBuild_eq {bs : Nat} (header : BK_HDR ≤ bs) (ld : Nat) (es : List HEntry) :
    bucketBuild bs ld es = if BK_HDR + bucketSize es ≤ bs then
      .ok (putBucket (putU16 (putBE 1 (putU32 zeros 0 BUCKET_MAGIC) 16 ld) 18 es.length) BK_HDR es)
      else .error (.bail "bucket overflow") :=
  bucketPut_fits header _ es

theorem bucketBuild_ok {bs : Nat} (header : BK_HDR ≤ bs) (ld : Nat) (es : List HEntry) :
    (∃ b, bucketBuild bs ld es = .ok b) ↔ BK_HDR + bucketSize es ≤ bs := by
  rw [bucketBuild_eq header]
  split
  · exact ⟨fun _ => ‹_›, fun _ => ⟨_, rfl⟩⟩
  · refine ⟨fun h => ?_, fun fits => absurd fits ‹_›⟩
    obtain ⟨_, h⟩ := h
    cases h

theorem bucketEntriesFrom_putBucket {es : List HEntry} (proper : ∀ e ∈ es, e.Proper) (b d : Bytes)
    {off len : Nat}
    (inside : off + bucketSize es ≤ len) (same : ∀ i, off ≤ i → i < off + bucketSize es →
    d i = putBucket b off es i) :
    bucketEntriesFrom d len es.length off = .ok es := by
  induction es generalizing b off with
  | nil => rfl
  | cons e rest ih =>
      rw [bucketSize_cons] at inside same
      have size : 20 + 2 * (Utf16.encode e.name).length ≤ e.size := entrySize_ge _
      have tail := ih (fun e' member => proper e' (List.mem_cons_of_mem _ member)) _
        (show off + e.size + bucketSize rest ≤ len by omega)
        (fun i low high => same i (by omega) (by omega))
      have stored : ∀ i, off ≤ i → i < off + e.size → d i = putHEntry b off e i := by
        intro i low high
        rw [same i low (by omega), putBucket, putBucket_of_not_mem _ _ (Or.inl high)]
      have field : ∀ k n, k + n ≤ 20 → getBE d (off + k) n = getBE
          (putU16 (putBE 1 (putU64 (putU64 b off e.ino)
          (off + 8) e.hash) (off + 16) e.ftype) (off + 18) (Utf16.encode e.name).length) (off + k)
          n := by
        intro k n small
        apply getBE_congr
        intro i hi
        rw [stored _ (by omega) (by omega), putHEntry,
            putArr_of_not_mem _ _ _ _ _ (Or.inl (by omega))]
      obtain ⟨some, ino, hash, ftype, _, length⟩ := proper e List.mem_cons_self
      have first := field 0 8 (by decide)
      have second := field 8 8 (by decide)
      have third := field 16 1 (by decide)
      have fourth := field 18 2 (by decide)
      simp (disch := omega) only [putU64, putU16, getBE_putBE_disjoint, getBE_putBE, Nat.add_zero,
          Nat.reducePow,
        Nat.mod_eq_of_lt] at first second third fourth
      have name : getArr 2 d (off + 20) (Utf16.encode e.name).length = Utf16.encode e.name := by
        calc
          _ = getArr 2 (putHEntry b off e) (off + 20) (Utf16.encode e.name).length := by
            apply getArr_congr
            intro i hi
            exact stored _ (by omega) (by omega)
          _ = Utf16.encode e.name := getArr_putArr 2 _ _ _ (Utf16.encode_lt e.name)
      have within : ¬ (off + 20 > len ∨ off + 20 + (Utf16.encode e.name).length * 2 > len) := by
        omega
      rw [List.length_cons, bucketEntriesFrom, getU16, fourth, if_neg within]
      change bucketEntriesFrom d len rest.length (off + entrySize (Utf16.encode e.name).length) =
          _ at tail
      rw [tail, getU64, getU64, first, second, third, name, Utf16.decodeLossy_encode]
      rfl

theorem length_le_bucketSize (es : List HEntry) : es.length * 20 ≤ bucketSize es := by
  induction es with
  | nil => exact Nat.zero_le _
  | cons e rest ih =>
      have size : 20 + 2 * (Utf16.encode e.name).length ≤ e.size := entrySize_ge _
      rw [List.length_cons, bucketSize_cons]
      omega

theorem bucketEntries_bucketBuild {bs ld : Nat} {es : List HEntry} {b d : Bytes}
    (header : BK_HDR ≤ bs)
    (count : es.length < 2 ^ 16) (proper : ∀ e ∈ es, e.Proper) (run : bucketBuild bs ld es = .ok b)
    (same : ∀ i, 16 ≤ i → i < bs → d i = b i) : bucketEntries d bs = .ok es := by
  have fits := (bucketBuild_ok header ld es).mp ⟨b, run⟩
  rw [bucketBuild_eq header, if_pos fits] at run
  cases run
  have hdr : BK_HDR = 24 := rfl
  have length : getU16 d 18 = es.length := by
    calc
      getU16 d 18 =
          getU16 (putU16 (putBE 1 (putU32 zeros 0 BUCKET_MAGIC) 16 ld) 18 es.length) 18 := by
        apply getBE_congr
        intro i hi
        rw [same _ (by omega) (by omega), putBucket_of_not_mem _ _ (Or.inl (by omega))]
      _ = es.length := by
        rw [getU16, putU16, getBE_putBE]
        exact Nat.mod_eq_of_lt count
  rw [bucketEntries, if_neg (by omega), length]
  exact bucketEntriesFrom_putBucket proper _ d fits fun i low high => same i (by omega) (by omega)

/-- The block sizes that get past the geometry tests of `mkfs`, with some inode size. -/
def TakesBlocksize (bs : Nat) : Prop :=
  ∃ inodesize, Superblock.isPowerOfTwo bs = true ∧ 2048 ≤ bs ∧
  Superblock.isPowerOfTwo inodesize = true ∧
    inodesize < 2 ^ 16 ∧ 128 ≤ inodesize ∧ inodesize ≤ bs ∧ bs / inodesize ≤ ALLOC_FANOUT

theorem takes_of_mkfs [Crc32c] {opts : MkfsOpts} {uuid : Nat} {now : Ts} {d d' : Device}
    {summary : MkfsSummary}
    (typed : opts.Typed d uuid) (run : Mkfs.mkfs opts uuid now d = (.ok summary, d')) :
    TakesBlocksize opts.blocksize := by
  refine wp_ok (Q := fun _ _ => TakesBlocksize opts.blocksize) (E := Mkfs.Fails) ?_ run
  rw [Mkfs.mkfs, wp_ite]
  split
  · trivial
  · rename_i blocksize
    rw [wp_ite]
    split
    · trivial
    · rename_i inodesize
      rw [wp_ite]
      split
      · trivial
      · rename_i fan
        apply wp_of_run
        intro _ _ _
        have block : Superblock.isPowerOfTwo opts.blocksize = true ∧ 2048 ≤ opts.blocksize := by
          simpa using blocksize
        have inode : (Superblock.isPowerOfTwo opts.inodesize = true ∧ 128 ≤ opts.inodesize) ∧
            opts.inodesize ≤ opts.blocksize := by
          simpa using inodesize
        exact ⟨opts.inodesize, block.1, block.2, inode.1.1, typed.inodesize, inode.1.2, inode.2,
            Nat.le_of_not_lt fan⟩

theorem TakesBlocksize.count {bs : Nat} (takes : TakesBlocksize bs) {es : List HEntry}
    (fits : BK_HDR + bucketSize es ≤ bs) : es.length < 2 ^ 16 := by
  obtain ⟨inodesize, _, _, _, short, large, _, fan⟩ := takes
  have count := length_le_bucketSize es
  have size : bs < inodesize * (ALLOC_FANOUT + 1) := by
    calc
      bs < inodesize * (bs / inodesize + 1) := Nat.lt_mul_div_succ bs (by omega)
      _ ≤ inodesize * (ALLOC_FANOUT + 1) := Nat.mul_le_mul_left _ (Nat.succ_le_succ fan)
  rw [ALLOC_FANOUT] at size
  omega

end Buckets

/-- What is stored of a list of entries is what is read back. In an inode payload a call fails
exactly when its entry has no room, and leaves the payload as it is. In a bucket, building fails
exactly when the padded records do not fit, which is what the tests before an insertion and before a
merge compute. -/
theorem entries_round_trip :
    (∀ es p, Built es p → clip INODE_PAYLOAD p = p ∧ dirParseNamed p = es ∧
    ∀ e : NamedEntry, e.Proper →
      ((∃ err p', dirAppendNamed e p = (.error err, p')) ↔
      INODE_PAYLOAD < entriesSize es + e.need) ∧
      ∀ err p', dirAppendNamed e p = (.error err, p') → p' = p) ∧
    ∀ bs, TakesBlocksize bs → ∀ ld, ∀ es : List HEntry, (∀ e ∈ es, e.Proper) →
      (∀ b, bucketBuild bs ld es = .ok b → bucketEntries (clip bs b) bs = .ok es) ∧
      ((∃ b, bucketBuild bs ld es = .ok b) ↔ BK_HDR + bucketSize es ≤ bs) ∧
      (∀ add, bucketFits bs es add = true ↔ ∃ b, bucketBuild bs ld (es ++ [add]) = .ok b) ∧
      ∀ es2, mergeFits bs es es2 = true ↔ ∃ b, bucketBuild bs ld (es ++ es2) = .ok b := by
  constructor
  · intro es p built
    obtain ⟨proper, room, rfl⟩ := built.payload
    refine ⟨?_, dirParseNamed_putDir proper room, fun e next => ?_⟩
    · funext i
      by_cases inside : i < INODE_PAYLOAD
      · exact clip_of_lt _ inside
      · rw [clip_of_le _ (Nat.le_of_not_lt inside),
            putDir_of_not_mem _ _ (by rw [dirSize_coded]; omega)]
        rfl
    · rw [dirAppendNamed_putDir proper room next]
      split
      · rename_i full
        refine ⟨⟨fun _ => full, fun _ => ⟨_, _, rfl⟩⟩, fun err p' run => ?_⟩
        cases run
        rfl
      · rename_i fits
        refine ⟨⟨fun h => ?_, fun full => absurd full fits⟩, fun err p' run => ?_⟩
        · obtain ⟨_, _, run⟩ := h
          cases run
        · cases run
  · intro bs takes ld es proper
    have header : BK_HDR ≤ bs := by
      obtain ⟨_, _, large, _⟩ := takes
      exact Nat.le_trans (by decide) large
    refine ⟨fun b run => ?_, bucketBuild_ok header ld es, fun add => ?_, fun es2 => ?_⟩
    · have fits := (bucketBuild_ok header ld es).mp ⟨b, run⟩
      exact bucketEntries_bucketBuild header (takes.count fits) proper run fun i _ inside =>
          clip_of_lt _ inside
    · rw [bucketBuild_ok header, bucketSize_append, ← Nat.add_assoc, bucketFits, decide_eq_true_iff]
      simp [bucketSize]
    · rw [bucketBuild_ok header, mergeFits]
      simp [bucketSize]

end FiveFs

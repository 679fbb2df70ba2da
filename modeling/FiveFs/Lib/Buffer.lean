import Mathlib.Tactic.Ring
import Mathlib.Tactic.Linarith
import Mathlib.Data.Fin.Basic

/-! Byte buffers as index functions, with big-endian integers and 2-bit arrays in them. -/

namespace Buffer

/-- Contents of a buffer by index; the length of a buffer is fixed by its use. -/
abbrev Bytes := Nat → UInt8

def zeros : Bytes := fun _ => 0

/-- The first `n` bytes, zero beyond: a buffer of length `n`. -/
def clip (n : Nat) (b : Bytes) : Bytes := fun i => if i < n then b i else 0

def drop (off : Nat) (b : Bytes) : Bytes := fun i => b (off + i)

/-- `b[off..off + n].copy_from_slice(src)` -/
def copyAt (b : Bytes) (off n : Nat) (src : Bytes) : Bytes :=
  fun i => if off ≤ i ∧ i < off + n then src (i - off) else b i

/-- `b[off..off + n]` as a list of bytes. -/
def slice (b : Bytes) (off n : Nat) : List UInt8 := (List.range n).map fun i => b (off + i)

def ofList (l : List UInt8) : Bytes := fun i => l.getD i 0

/-- Big-endian integer of `n` bytes at `off`. -/
def getBE (b : Bytes) (off : Nat) : Nat → Nat
  | 0 => 0
  | n + 1 => getBE b off n * 256 + (b (off + n)).toNat

/-- Store `v` truncated to `n` bytes, big-endian, at `off`. -/
def putBE (n : Nat) (b : Bytes) (off v : Nat) : Bytes :=
  fun i => if off ≤ i ∧ i < off + n then UInt8.ofNat (v / 256 ^ (off + n - 1 - i)) else b i

theorem clip_of_lt {n i : Nat} (b : Bytes) (h : i < n) : clip n b i = b i := by simp [clip, h]

theorem clip_of_le {n i : Nat} (b : Bytes) (h : n ≤ i) : clip n b i = 0 := by
  simp [clip, Nat.not_lt.mpr h]

@[simp] theorem clip_clip (n : Nat) (b : Bytes) : clip n (clip n b) = clip n b := by
  funext i
  by_cases h : i < n <;> simp [clip, h]

theorem clip_clip_of_le {n m : Nat} (h : n ≤ m) (b : Bytes) : clip n (clip m b) = clip n b := by
  funext i
  by_cases inside : i < n
  · simp [clip, inside, Nat.lt_of_lt_of_le inside h]
  · simp [clip, inside]

@[simp] theorem clip_zeros (n : Nat) : clip n zeros = zeros := by
  funext i
  simp [clip, zeros]

theorem clip_congr {n : Nat} {a b : Bytes} (h : ∀ i < n, a i = b i) : clip n a = clip n b := by
  funext i
  by_cases hi : i < n
  · simp [clip, hi, h i hi]
  · simp [clip, hi]

theorem clip_eq_iff {n : Nat} {a b : Bytes} : clip n a = clip n b ↔ ∀ i < n, a i = b i := by
  constructor
  · intro h i hi
    have := congrFun h i
    simpa [clip, hi] using this
  · exact clip_congr

theorem copyAt_of_mem {b src : Bytes} {off n i : Nat} (h : off ≤ i ∧ i < off + n) :
    copyAt b off n src i = src (i - off) := if_pos h

theorem copyAt_of_not_mem {b src : Bytes} {off n i : Nat} (h : i < off ∨ off + n ≤ i) :
    copyAt b off n src i = b i := if_neg (by omega)

theorem slice_congr {a b : Bytes} {off off' n : Nat} (h : ∀ i < n, a (off + i) = b (off' + i)) :
    slice a off n = slice b off' n := by
  apply List.map_congr_left
  intro i hi
  exact h i (List.mem_range.mp hi)

theorem getBE_lt (b : Bytes) (off n : Nat) : getBE b off n < 256 ^ n := by
  induction n with
  | zero => simp [getBE]
  | succ n ih =>
      have byte := (b (off + n)).toNat_lt
      rw [getBE, pow_succ]
      omega

theorem getBE_congr {a b : Bytes} {off off' n : Nat}
    (h : ∀ i < n, a (off + i) = b (off' + i)) : getBE a off n = getBE b off' n := by
  induction n with
  | zero => rfl
  | succ n ih =>
      rw [getBE, getBE, ih (fun i hi => h i (by omega)), h n (by omega)]

theorem getBE_clip (b : Bytes) {m off n : Nat} (h : off + n ≤ m) :
    getBE (clip m b) off n = getBE b off n :=
  getBE_congr fun i hi => clip_of_lt b (by omega)

@[simp] theorem getBE_zeros (off n : Nat) : getBE zeros off n = 0 := by
  induction n with
  | zero => rfl
  | succ n ih => simp [getBE, ih, zeros]

theorem getBE_copyAt_disjoint (b src : Bytes) {off n k m : Nat} (h : k + m ≤ off ∨ off + n ≤ k) :
    getBE (copyAt b off n src) k m = getBE b k m :=
  getBE_congr fun i hi => copyAt_of_not_mem (by omega)

theorem putBE_of_not_mem {n off v i : Nat} {b : Bytes} (h : i < off ∨ off + n ≤ i) :
    putBE n b off v i = b i := if_neg (by omega)

theorem putBE_mod (n : Nat) (b : Bytes) (off v : Nat) :
    putBE n b off (v % 256 ^ n) = putBE n b off v := by
  funext i
  rw [putBE, putBE]
  split
  · rename_i inside
    have digits : 256 ^ n = 256 ^ (off + n - 1 - i) * 256 ^ (n - (off + n - 1 - i)) := by
      rw [← Nat.pow_add]
      congr 1
      omega
    have low : 256 ∣ 256 ^ (n - (off + n - 1 - i)) := dvd_pow_self 256 (by omega)
    rw [digits, Nat.mod_mul_right_div_self]
    apply UInt8.toNat.inj
    rw [UInt8.toNat_ofNat', UInt8.toNat_ofNat']
    exact Nat.mod_mod_of_dvd _ low
  · rfl

theorem getBE_putBE_disjoint (b : Bytes) {n off v k m : Nat} (h : k + m ≤ off ∨ off + n ≤ k) :
    getBE (putBE n b off v) k m = getBE b k m :=
  getBE_congr fun i hi => putBE_of_not_mem (by omega)

theorem getBE_putBE_prefix (b : Bytes) (off v n k : Nat) (hk : k ≤ n) :
    getBE (putBE n b off v) off k = v / 256 ^ (n - k) % 256 ^ k := by
  induction k with
  | zero => simp [getBE, Nat.mod_one]
  | succ k ih =>
      have byte : (putBE n b off v (off + k)).toNat = v / 256 ^ (n - (k + 1)) % 256 := by
        have inside : off ≤ off + k ∧ off + k < off + n := by omega
        rw [putBE, if_pos inside, UInt8.toNat_ofNat']
        congr 2
        congr 1
        omega
      have weight : 256 ^ (n - k) = 256 ^ (n - (k + 1)) * 256 := by
        rw [← pow_succ]
        congr 1
        omega
      rw [getBE, ih (by omega), byte, weight, ← Nat.div_div_eq_div_mul]
      generalize v / 256 ^ (n - (k + 1)) = q
      rw [pow_succ, Nat.mul_comm (256 ^ k) 256, Nat.mod_mul]
      ring

theorem getBE_putBE (b : Bytes) (off v n : Nat) :
    getBE (putBE n b off v) off n = v % 256 ^ n := by
  simpa using getBE_putBE_prefix b off v n n (Nat.le_refl n)

theorem slice_clip (b : Bytes) {m off n : Nat} (h : off + n ≤ m) :
    slice (clip m b) off n = slice b off n :=
  slice_congr fun i hi => clip_of_lt b (by omega)

/-- Store the integers of `l` in `w` bytes each from `off` on. -/
def putArr (w : Nat) : Bytes → Nat → List Nat → Bytes
  | b, _, [] => b
  | b, off, v :: l => putArr w (putBE w b off v) (off + w) l

def getArr (w : Nat) (b : Bytes) (off n : Nat) : List Nat :=
  (List.range n).map fun i => getBE b (off + i * w) w

theorem putArr_of_not_mem (w : Nat) (l : List Nat) (b : Bytes) (off i : Nat)
    (h : i < off ∨ off + w * l.length ≤ i) : putArr w b off l i = b i := by
  induction l generalizing b off with
  | nil => rfl
  | cons v l ih =>
      have length : w * (v :: l).length = w + w * l.length := by
        rw [List.length_cons]
        ring
      rw [putArr, ih _ _ (by omega), putBE_of_not_mem (by omega)]

theorem getBE_putArr_disjoint (w : Nat) (l : List Nat) (b : Bytes) {off k m : Nat}
    (h : k + m ≤ off ∨ off + w * l.length ≤ k) : getBE (putArr w b off l) k m = getBE b k m :=
  getBE_congr fun i hi => putArr_of_not_mem w l b off _ (by omega)

theorem getArr_putArr (w : Nat) (l : List Nat) (b : Bytes) (off : Nat)
    (fits : ∀ v ∈ l, v < 256 ^ w) : getArr w (putArr w b off l) off l.length = l := by
  induction l generalizing b off with
  | nil => rfl
  | cons v l ih =>
      have rest := ih (putBE w b off v) (off + w) fun x hx => fits x (List.mem_cons_of_mem _ hx)
      rw [getArr, List.length_cons, List.range_succ_eq_map, List.map_cons, List.map_map]
      congr 1
      · rw [Nat.zero_mul, Nat.add_zero, putArr, getBE_putArr_disjoint _ _ _ (by omega), getBE_putBE,
          Nat.mod_eq_of_lt (fits v List.mem_cons_self)]
      · calc
          _ = getArr w (putArr w (putBE w b off v) (off + w) l) (off + w) l.length := by
            apply List.map_congr_left
            intro i _
            simp only [Function.comp_apply, putArr]
            congr 1
            rw [Nat.succ_mul]
            omega
          _ = l := rest

theorem getArr_congr {a b : Bytes} {w off off' n : Nat}
    (h : ∀ i < n * w, a (off + i) = b (off' + i)) : getArr w a off n = getArr w b off' n := by
  apply List.map_congr_left
  intro i hi
  have bound : i < n := List.mem_range.mp hi
  apply getBE_congr
  intro j hj
  have inside : i * w + j < n * w := by
    calc
      i * w + j < i * w + w := by omega
      _ = (i + 1) * w := by ring
      _ ≤ n * w := Nat.mul_le_mul_right w bound
  simpa only [Nat.add_assoc] using h _ inside

/-- Two bits at position `k` (0 to 3) of a byte. -/
def byteGet2 (x : UInt8) (k : Nat) : Nat := (x.toNat >>> (k * 2)) &&& 3

def byteSet2 (x : UInt8) (k v : Nat) : UInt8 :=
  UInt8.ofNat ((x.toNat &&& (255 ^^^ (3 <<< (k * 2)))) ||| ((v &&& 3) <<< (k * 2)))

/-- Element `idx` of the 2-bit array that starts at byte 0. -/
def get2 (b : Bytes) (idx : Nat) : Nat := byteGet2 (b (idx / 4)) (idx % 4)

def set2 (b : Bytes) (idx v : Nat) : Bytes :=
  fun i => if i = idx / 4 then byteSet2 (b i) (idx % 4) v else b i

private theorem byte_table : (List.range 4).all (fun k => (List.range 4).all fun k' =>
    (List.range 4).all fun v => (List.range 256).all fun x => Nat.beq
      (((((x &&& (255 ^^^ (3 <<< (k * 2)))) ||| ((v &&& 3) <<< (k * 2))) % 256) >>> (k' * 2)) &&& 3)
      (bif Nat.beq k k' then v else (x >>> (k' * 2)) &&& 3)) = true := by
  decide +kernel

theorem byteGet2_byteSet2 (x : UInt8) {k k' v : Nat} (hk : k < 4) (hk' : k' < 4) (hv : v < 4) :
    byteGet2 (byteSet2 x k v) k' = if k = k' then v else byteGet2 x k' := by
  have table := byte_table
  simp only [List.all_eq_true, List.mem_range] at table
  have entry := Nat.eq_of_beq_eq_true (table k hk k' hk' v hv x.toNat x.toNat_lt)
  rw [byteGet2, byteSet2, UInt8.toNat_ofNat', entry, byteGet2]
  by_cases same : k = k'
  · simp [same]
  · have unequal : Nat.beq k k' = false :=
      Bool.eq_false_iff.mpr fun h => same (Nat.eq_of_beq_eq_true h)
    rw [if_neg same, unequal, cond_false]

theorem get2_lt (b : Bytes) (idx : Nat) : get2 b idx < 4 :=
  Nat.lt_succ_of_le Nat.and_le_right

theorem get2_set2 (b : Bytes) (i j : Nat) {v : Nat} (hv : v < 4) :
    get2 (set2 b i v) j = if i = j then v else get2 b j := by
  unfold get2 set2
  by_cases byte : j / 4 = i / 4
  · rw [if_pos byte, byteGet2_byteSet2 _ (Nat.mod_lt _ (by decide)) (Nat.mod_lt _ (by decide)) hv]
    have same : i % 4 = j % 4 ↔ i = j := by omega
    simp only [same]
  · have different : i ≠ j := by rintro rfl; exact byte rfl
    rw [if_neg byte, if_neg different]

theorem get2_congr {a b : Bytes} {idx : Nat} (h : a (idx / 4) = b (idx / 4)) :
    get2 a idx = get2 b idx := by
  rw [get2, get2, h]

theorem set2_of_ne {b : Bytes} {idx i v : Nat} (h : i ≠ idx / 4) : set2 b idx v i = b i := if_neg h

@[simp] theorem get2_zeros (idx : Nat) : get2 zeros idx = 0 := by
  simp [get2, byteGet2, zeros]

end Buffer

import FiveFs.Lib.Crash
import FiveFs.Lib.Prog
import FiveFs.Fmt

/-! Block device access (file-backed). The log keeps every pwrite and sync, which is what the
write recorder of the crash tests reports as epochs. -/

namespace FiveFs

open Buffer

structure Device where
  bytes : Bytes
  /-- Length of the file. -/
  fileLen : Nat
  /-- The length taken at open or by `set_len`. -/
  size : Nat
  log : List Event := []

namespace Device

def pread (d : Device) (off n : Nat) : Except String Bytes :=
  if off + n ≤ d.fileLen then .ok (clip n (drop off d.bytes))
  else .error s!"read {n} bytes at {off}"

/-- A write past the end extends the file. -/
def pwrite (d : Device) (off n : Nat) (buf : Bytes) : Device :=
  { d with
    bytes := copyAt d.bytes off n buf
    fileLen := max d.fileLen (off + n)
    log := d.log ++ [.write ⟨off, n, buf⟩] }

/-- Resize a file-backed device. What a shrink cuts off reads as zeros after a later growth. -/
def setLen (d : Device) (size : Nat) : Device :=
  { d with bytes := clip (min d.fileLen size) d.bytes, fileLen := size, size := size }

/-- `Device::open` on the file of `d`. -/
def reopen (d : Device) : Device := { d with size := d.fileLen, log := [] }

def sync (d : Device) : Device := { d with log := d.log ++ [.sync] }

@[simp] theorem pwrite_size (d : Device) (off n : Nat) (buf : Bytes) :
    (d.pwrite off n buf).size = d.size := rfl

@[simp] theorem sync_bytes (d : Device) : d.sync.bytes = d.bytes := rfl

@[simp] theorem sync_fileLen (d : Device) : d.sync.fileLen = d.fileLen := rfl

theorem pread_ok {d : Device} {off n : Nat} (h : off + n ≤ d.fileLen) :
    d.pread off n = .ok (clip n (drop off d.bytes)) := if_pos h

theorem pwrite_grows (d : Device) (off n : Nat) (buf : Bytes) :
    d.fileLen ≤ (d.pwrite off n buf).fileLen :=
  Nat.le_max_left _ _

/-- The bytes of `b` at `off`. -/
structure Holds (d : Device) (off n : Nat) (b : Bytes) : Prop where
  inside : off + n ≤ d.fileLen
  same : ∀ i < n, d.bytes (off + i) = b i

theorem holds_pwrite (d : Device) (off n : Nat) (b : Bytes) : Holds (d.pwrite off n b) off n b := by
  refine ⟨Nat.le_max_right _ _, fun i hi => ?_⟩
  show copyAt d.bytes off n b (off + i) = b i
  rw [copyAt_of_mem ⟨by omega, by omega⟩, Nat.add_sub_cancel_left]

theorem Holds.pwrite {d : Device} {off n : Nat} {b : Bytes} (h : Holds d off n b) {off' n' : Nat}
    (apart : off + n ≤ off' ∨ off' + n' ≤ off) (b' : Bytes) :
    Holds (d.pwrite off' n' b') off n b := by
  refine ⟨Nat.le_trans h.inside (pwrite_grows d off' n' b'), fun i hi => ?_⟩
  show copyAt d.bytes off' n' b' (off + i) = b i
  rw [copyAt_of_not_mem (by omega)]
  exact h.same i hi

theorem Holds.pread {d : Device} {off n : Nat} {b : Bytes} (h : Holds d off n b) :
    d.pread off n = .ok (clip n b) := by
  rw [pread_ok h.inside]
  congr 1
  exact clip_congr h.same

theorem Holds.sync {d : Device} {off n : Nat} {b : Bytes} (h : Holds d off n b) :
    Holds d.sync off n b :=
  ⟨h.inside, h.same⟩

theorem Holds.reopen {d : Device} {off n : Nat} {b : Bytes} (h : Holds d off n b) :
    Holds d.reopen off n b :=
  ⟨h.inside, h.same⟩

/-- `d'` is `d` with writes to the bytes of `changed`. -/
structure Kept (changed : Nat → Prop) (d d' : Device) : Prop where
  grows : d.fileLen ≤ d'.fileLen
  same : ∀ x, ¬ changed x → d'.bytes x = d.bytes x

theorem Kept.refl (changed : Nat → Prop) (d : Device) : Kept changed d d :=
  ⟨Nat.le_refl _, fun _ _ => rfl⟩

theorem Kept.trans {changed : Nat → Prop} {d d' d'' : Device} (h : Kept changed d d')
    (h' : Kept changed d' d'') :
    Kept changed d d'' :=
  ⟨Nat.le_trans h.grows h'.grows, fun x other => (h'.same x other).trans (h.same x other)⟩

theorem kept_pwrite {changed : Nat → Prop} {off n : Nat}
    (inside : ∀ x, off ≤ x → x < off + n → changed x)
    (d : Device) (b : Bytes) : Kept changed d (d.pwrite off n b) := by
  refine ⟨pwrite_grows d off n b, fun x other => ?_⟩
  apply copyAt_of_not_mem
  by_contra among
  exact other (inside x (by omega) (by omega))

theorem Kept.mono {changed wider : Nat → Prop} {d d' : Device} (h : Kept changed d d')
    (le : ∀ x, changed x → wider x) : Kept wider d d' :=
  ⟨h.grows, fun x other => h.same x fun among => other (le x among)⟩

theorem Kept.sync {changed : Nat → Prop} {d d' : Device} (h : Kept changed d d') :
    Kept changed d d'.sync :=
  ⟨h.grows, h.same⟩

theorem Holds.kept {changed : Nat → Prop} {d d' : Device} {off n : Nat} {b : Bytes}
    (h : Holds d off n b)
    (kept : Kept changed d d') (outside : ∀ i < n, ¬ changed (off + i)) : Holds d' off n b :=
  ⟨Nat.le_trans h.inside kept.grows, fun i hi => (kept.same _ (outside i hi)).trans (h.same i hi)⟩

theorem Holds.part {d : Device} {off n : Nat} {b : Bytes} (h : Holds d off n b) {k m : Nat}
    (inside : k + m ≤ n) :
    Holds d (off + k) m (drop k b) := by
  have bound := h.inside
  refine ⟨by omega, fun i hi => ?_⟩
  rw [Nat.add_assoc]
  exact h.same (k + i) (by omega)

end Device

end FiveFs

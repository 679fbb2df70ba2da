import FiveFs.Lib.Buffer
import Mathlib.Data.List.Induction

/-! What a device holds after a power cut: every write before the last completed sync, and an
arbitrary subset of the later ones, at most one of them torn. -/

open Buffer

/-- A positioned write of `len` bytes. -/
structure Write where
  off : Nat
  len : Nat
  data : Bytes

namespace Write

def apply (w : Write) (d : Bytes) : Bytes := copyAt d w.off w.len w.data

def applyAll (ws : List Write) (d : Bytes) : Bytes := ws.foldl (fun d w => w.apply d) d

def Covers (ws : List Write) (i : Nat) : Prop := ∃ w ∈ ws, w.off ≤ i ∧ i < w.off + w.len

@[simp] theorem applyAll_nil (d : Bytes) : applyAll [] d = d := rfl

@[simp] theorem applyAll_cons (w : Write) (ws : List Write) (d : Bytes) :
    applyAll (w :: ws) d = applyAll ws (w.apply d) := rfl

theorem applyAll_append (ws vs : List Write) (d : Bytes) :
    applyAll (ws ++ vs) d = applyAll vs (applyAll ws d) := List.foldl_append

theorem covers_cons (w : Write) (ws : List Write) (i : Nat) :
    Covers (w :: ws) i ↔ (w.off ≤ i ∧ i < w.off + w.len) ∨ Covers ws i := by
  simp [Covers]

theorem covers_append (ws vs : List Write) (i : Nat) :
    Covers (ws ++ vs) i ↔ Covers ws i ∨ Covers vs i := by
  simp [Covers, or_and_right, exists_or]

theorem Covers.of_sublist {ws vs : List Write} {i : Nat} (h : Covers ws i)
    (sub : ws.Sublist vs) : Covers vs i := by
  obtain ⟨w, member, range⟩ := h
  exact ⟨w, sub.subset member, range⟩

theorem applyAll_congr (ws : List Write) (d d' : Bytes) (i : Nat)
    (h : Covers ws i ∨ d i = d' i) : applyAll ws d i = applyAll ws d' i := by
  induction ws generalizing d d' with
  | nil =>
      rcases h with ⟨w, member, _⟩ | same
      · cases member
      · exact same
  | cons w ws ih =>
      rw [applyAll_cons, applyAll_cons]
      apply ih
      by_cases inside : w.off ≤ i ∧ i < w.off + w.len
      · right
        rw [apply, apply, copyAt_of_mem inside, copyAt_of_mem inside]
      · rcases h with covered | same
        · left
          exact ((covers_cons w ws i).mp covered).resolve_left inside
        · right
          rw [apply, apply, copyAt_of_not_mem (by omega), copyAt_of_not_mem (by omega), same]

theorem applyAll_of_not_covers (ws : List Write) (d : Bytes) (i : Nat) (h : ¬ Covers ws i) :
    applyAll ws d i = d i := by
  induction ws generalizing d with
  | nil => rfl
  | cons w ws ih =>
      have split := (covers_cons w ws i).not.mp h
      rw [not_or] at split
      rw [applyAll_cons, ih _ split.2, apply, copyAt_of_not_mem (by omega)]

theorem applyAll_idem (ws : List Write) (d : Bytes) :
    applyAll ws (applyAll ws d) = applyAll ws d := by
  funext i
  apply applyAll_congr
  by_cases covered : Covers ws i
  · exact Or.inl covered
  · exact Or.inr (applyAll_of_not_covers ws d i covered)

theorem applyAll_last (ws vs : List Write) (w : Write) (d : Bytes) (i : Nat)
    (inside : w.off ≤ i ∧ i < w.off + w.len) (later : ¬ Covers vs i) :
    applyAll (ws ++ w :: vs) d i = w.data (i - w.off) := by
  rw [applyAll_append, applyAll_cons, applyAll_of_not_covers vs _ i later, apply,
    copyAt_of_mem inside]

theorem applyAll_region (ws : List Write) (data d : Bytes) (off n : Nat)
    (each : ∀ w ∈ ws, (w.off + w.len ≤ off ∨ off + n ≤ w.off) ∨
      (w.off = off ∧ w.len = n ∧ w.data = data)) :
    (∀ i < n, applyAll ws d (off + i) = d (off + i)) ∨
      (∀ i < n, applyAll ws d (off + i) = data i) := by
  induction ws generalizing d with
  | nil => exact Or.inl fun _ _ => rfl
  | cons w ws ih =>
      have rest := ih (w.apply d) fun v member => each v (List.mem_cons_of_mem _ member)
      rcases rest with same | replaced
      · rcases each w List.mem_cons_self with apart | ⟨offset, length, content⟩
        · left
          intro i hi
          rw [applyAll_cons, same i hi, apply, copyAt_of_not_mem (by omega)]
        · right
          intro i hi
          rw [applyAll_cons, same i hi, apply, copyAt_of_mem (by omega), content, offset]
          congr 1
          omega
      · exact Or.inr replaced

end Write

inductive Event
  | write (w : Write)
  | sync

namespace Crash

open Write

/-- The writes before the last sync, and the writes after it. -/
def split : List Event → List Write × List Write :=
  List.foldl (fun acc e =>
    match e with
    | .write w => (acc.1, acc.2 ++ [w])
    | .sync => (acc.1 ++ acc.2, [])) ([], [])

def durable (log : List Event) : List Write := (split log).1
def pending (log : List Event) : List Write := (split log).2

/-- The same list, or with the contents of one write replaced. -/
def Torn (ws ws' : List Write) : Prop :=
  ws' = ws ∨ ∃ l w r g, ws = l ++ w :: r ∧ ws' = l ++ { w with data := g } :: r

/-- Device contents that a power cut after `log` may leave. -/
def State (base : Bytes) (log : List Event) (d : Bytes) : Prop :=
  ∃ sub torn, sub.Sublist (pending log) ∧ Torn sub torn ∧
    d = applyAll torn (applyAll (durable log) base)

/-- What an untorn power cut may leave. -/
def Untorn (base : Bytes) (log : List Event) (d : Bytes) : Prop :=
  ∃ sub, sub.Sublist (pending log) ∧ d = applyAll sub (applyAll (durable log) base)

@[simp] theorem durable_nil : durable [] = [] := rfl
@[simp] theorem pending_nil : pending [] = [] := rfl

theorem split_writes (log : List Event) (ws : List Write) :
    split (log ++ ws.map .write) = (durable log, pending log ++ ws) := by
  induction ws using List.reverseRecOn with
  | nil => simp [durable, pending]
  | append_singleton ws w ih =>
      rw [List.map_append, ← List.append_assoc, split, List.foldl_append]
      rw [split] at ih
      rw [ih]
      simp

@[simp] theorem durable_writes (log : List Event) (ws : List Write) :
    durable (log ++ ws.map .write) = durable log := by
  rw [durable, split_writes]

@[simp] theorem pending_writes (log : List Event) (ws : List Write) :
    pending (log ++ ws.map .write) = pending log ++ ws := by
  rw [pending, split_writes]

@[simp] theorem durable_sync (log : List Event) :
    durable (log ++ [.sync]) = durable log ++ pending log := by
  simp [durable, pending, split]

@[simp] theorem pending_sync (log : List Event) : pending (log ++ [.sync]) = [] := by
  simp [pending, split]

theorem mem_split {log : List Event} {w : Write} (member : w ∈ durable log ++ pending log) :
    .write w ∈ log := by
  induction log using List.reverseRecOn with
  | nil => exact absurd member List.not_mem_nil
  | append_singleton log e ih =>
      cases e with
      | write v =>
          have parts := durable_writes log [v]
          have parts' := pending_writes log [v]
          rw [List.map_singleton] at parts parts'
          rw [parts, parts', ← List.append_assoc] at member
          rcases List.mem_append.mp member with old | new
          · exact List.mem_append_left _ (ih old)
          · rw [List.mem_singleton.mp new]
            exact List.mem_append_right _ List.mem_cons_self
      | sync =>
          rw [durable_sync, pending_sync, List.append_nil] at member
          exact List.mem_append_left _ (ih member)

theorem Torn.covers {ws ws' : List Write} (h : Torn ws ws') (i : Nat) :
    Covers ws' i ↔ Covers ws i := by
  rcases h with rfl | ⟨l, w, r, g, rfl, rfl⟩
  · rfl
  · simp only [covers_append, covers_cons]

theorem Untorn.state {base d : Bytes} {log : List Event} (h : Untorn base log d) :
    State base log d := by
  obtain ⟨sub, sublist, rfl⟩ := h
  exact ⟨sub, sub, sublist, Or.inl rfl, rfl⟩

theorem State.eq_durable {base d : Bytes} {log : List Event} (h : State base log d) {i : Nat}
    (out : ¬ Covers (pending log) i) : d i = applyAll (durable log) base i := by
  obtain ⟨sub, torn, sublist, tear, rfl⟩ := h
  apply applyAll_of_not_covers
  intro covered
  exact out (((tear.covers i).mp covered).of_sublist sublist)

theorem State.mono {base d : Bytes} {log log' : List Event} (h : State base log d)
    (same : durable log = durable log') (sub : (pending log).Sublist (pending log')) :
    State base log' d := by
  obtain ⟨ws, torn, sublist, tear, rfl⟩ := h
  exact ⟨ws, torn, sublist.trans sub, tear, by rw [same]⟩

theorem prefix_writes_cases {log head tail : List Event} {ws : List Write}
    (low : head <+: log) (high : log <+: head ++ (ws.map .write ++ .sync :: tail)) :
    (∃ vs : List Write, vs.Sublist ws ∧ log = head ++ vs.map .write) ∨
      (head ++ ws.map .write ++ [.sync] <+: log ∧
        log <+: head ++ ws.map .write ++ [.sync] ++ tail) := by
  obtain ⟨mid, rfl⟩ := low
  have inner : mid <+: ws.map .write ++ .sync :: tail := (List.prefix_append_right_inj head).mp high
  rcases List.prefix_or_prefix_of_prefix inner (List.prefix_append _ _) with short | ⟨rest, rfl⟩
  · left
    obtain ⟨vs, part, rfl⟩ := List.prefix_map_iff.mp short
    exact ⟨vs, part.sublist, rfl⟩
  · have more : rest <+: .sync :: tail := (List.prefix_append_right_inj _).mp inner
    rcases List.prefix_cons_iff.mp more with rfl | ⟨rest', rfl, last⟩
    · left
      exact ⟨ws, List.Sublist.refl ws, by simp⟩
    · right
      obtain ⟨rest'', rfl⟩ := last
      constructor
      · exact ⟨rest', by simp⟩
      · exact ⟨rest'', by simp⟩

theorem State.untorn {base d : Bytes} {log : List Event} (h : State base log d) :
    ∃ u, Untorn base log u ∧
      (d = u ∨ ∃ w ∈ pending log, ∀ i, ¬ (w.off ≤ i ∧ i < w.off + w.len) → d i = u i) := by
  obtain ⟨sub, torn, sublist, tear, rfl⟩ := h
  refine ⟨applyAll sub (applyAll (durable log) base), ⟨sub, sublist, rfl⟩, ?_⟩
  rcases tear with rfl | ⟨l, w, r, g, rfl, rfl⟩
  · exact Or.inl rfl
  · right
    refine ⟨w, sublist.subset (by simp), ?_⟩
    intro i outside
    rw [applyAll_append, applyAll_append, applyAll_cons, applyAll_cons]
    apply applyAll_congr
    right
    rw [apply, apply, copyAt_of_not_mem (by simp only; omega), copyAt_of_not_mem (by omega)]

end Crash

import Mathlib.Tactic.Common

/-! Programs with state and failure. A failure keeps the state reached so far, as a `?` on a
`Result` under `&mut` does, and a panic is a failure that no caller catches. -/

inductive Err
  | bail (msg : String)
  | panic (msg : String)
  deriving DecidableEq, Repr

/-- A program over state `σ`: its result together with the state it leaves. -/
def Prog (σ α : Type) := σ → Except Err α × σ

namespace Prog

variable {σ τ α β : Type}

def run (x : Prog σ α) (s : σ) : Except Err α × σ := x s

instance : Monad (Prog σ) where
  pure a := fun s => (.ok a, s)
  bind x f := fun s =>
    match x s with
    | (.ok a, s') => f a s'
    | (.error e, s') => (.error e, s')

def get : Prog σ σ := fun s => (.ok s, s)
def modify (f : σ → σ) : Prog σ Unit := fun s => (.ok (), f s)
def fail (e : Err) : Prog σ α := fun s => (.error e, s)
def bail (msg : String) : Prog σ α := fail (.bail msg)
def panicWith (msg : String) : Prog σ α := fail (.panic msg)

def ofExcept (x : Except Err α) : Prog σ α := fun s => (x, s)

/-- A computed `Result` whose error is a message. -/
def ofResult (x : Except String α) : Prog σ α := fun s => (x.mapError .bail, s)

/-- `match x { Ok(a) => .., Err(e) => .. }`: the state of a failed `x` is kept. -/
def attempt (x : Prog σ α) : Prog σ (Except String α) := fun s =>
  match x s with
  | (.ok a, s') => (.ok (.ok a), s')
  | (.error (.bail m), s') => (.ok (.error m), s')
  | (.error (.panic m), s') => (.error (.panic m), s')

/-- Run a program on a component of the state. -/
def zoom (get : σ → τ) (set : τ → σ → σ) (x : Prog τ α) : Prog σ α := fun s =>
  let (r, t) := x (get s)
  (r, set t s)

/-- `x` from `s` ends with a value and state in `Q`, or fails in a state of `E`. -/
def wp (x : Prog σ α) (Q : α → σ → Prop) (E : Err → σ → Prop) (s : σ) : Prop :=
  match x s with
  | (.ok a, s') => Q a s'
  | (.error e, s') => E e s'

variable {Q : α → σ → Prop} {E : Err → σ → Prop} {s s' : σ}

@[simp] theorem wp_pure (a : α) : wp (pure a : Prog σ α) Q E s = Q a s := rfl

@[simp] theorem wp_bind (x : Prog σ α) (f : α → Prog σ β) {Q : β → σ → Prop} :
    wp (x >>= f) Q E s = wp x (fun a => wp (f a) Q E) E s := by
  show (match (match x s with
    | (.ok a, s') => f a s'
    | (.error e, s') => (.error e, s')) with
    | (.ok a, s') => Q a s'
    | (.error e, s') => E e s') = _
  unfold wp
  rcases x s with ⟨e | a, s'⟩ <;> rfl

@[simp] theorem wp_map (x : Prog σ α) (f : α → β) {Q : β → σ → Prop} :
    wp (f <$> x) Q E s = wp x (fun a => Q (f a)) E s := by
  show wp (x >>= fun a => pure (f a)) Q E s = _
  rw [wp_bind]
  rfl

@[simp] theorem wp_get {Q : σ → σ → Prop} : wp (get : Prog σ σ) Q E s = Q s s := rfl

@[simp] theorem wp_modify (f : σ → σ) {Q : Unit → σ → Prop} :
    wp (modify f) Q E s = Q () (f s) := rfl

@[simp] theorem wp_fail (e : Err) : wp (fail e : Prog σ α) Q E s = E e s := rfl

@[simp] theorem wp_bail (m : String) : wp (bail m : Prog σ α) Q E s = E (.bail m) s := rfl

@[simp] theorem wp_panicWith (m : String) : wp (panicWith m : Prog σ α) Q E s = E (.panic m) s :=
    rfl

@[simp] theorem wp_ofExcept (x : Except Err α) :
    wp (ofExcept x : Prog σ α) Q E s =
      match x with
      | .ok a => Q a s
      | .error e => E e s := by
  cases x <;> rfl

@[simp] theorem wp_ofResult (x : Except String α) :
    wp (ofResult x : Prog σ α) Q E s =
      match x with
      | .ok a => Q a s
      | .error m => E (.bail m) s := by
  cases x <;> rfl

theorem wp_attempt (x : Prog σ α) {Q : Except String α → σ → Prop} :
    wp (attempt x) Q E s =
      wp x (fun a => Q (.ok a)) (fun e s' =>
        match e with
        | .bail m => Q (.error m) s'
        | .panic m => E (.panic m) s') s := by
  unfold wp attempt
  rcases x s with ⟨(m | m) | a, s'⟩ <;> rfl

theorem wp_ite (c : Prop) [Decidable c] (x y : Prog σ α) :
    wp (if c then x else y) Q E s = if c then wp x Q E s else wp y Q E s := by
  split <;> rfl

theorem wp_mono {x : Prog σ α} {Q' : α → σ → Prop} {E' : Err → σ → Prop} (h : wp x Q E s)
    (ok : ∀ a t, Q a t → Q' a t) (err : ∀ e t, E e t → E' e t) : wp x Q' E' s := by
  unfold wp at *
  split
  · simp_all
  · simp_all

theorem wp_and {x : Prog σ α} {Q' : α → σ → Prop} {E' : Err → σ → Prop} (h : wp x Q E s)
    (h' : wp x Q' E' s) : wp x (fun a t => Q a t ∧ Q' a t) (fun e t => E e t ∧ E' e t) s := by
  unfold wp at *
  split <;> simp_all

theorem wp_all {ι : Type} {P : ι → α → σ → Prop} (h : ∀ i, wp x (P i) E s) (total : ∀ e t, E e t) :
    wp x (fun a t => ∀ i, P i a t) E s := by
  unfold wp at *
  split
  · rename_i a t run
    intro i
    have := h i
    rw [run] at this
    exact this
  · exact total _ _

theorem wp_forall {x : Prog σ α} {p : Prop} (h : p → wp x Q E s) (total : ∀ e t, E e t) :
    wp x (fun a t => p → Q a t) E s := by
  unfold wp at *
  split
  · rename_i a t run
    intro hp
    have := h hp
    rw [run] at this
    exact this
  · exact total _ _

theorem wp_ok {x : Prog σ α} {a : α} (h : wp x Q E s) (run : x s = (.ok a, s')) : Q a s' := by
  simpa [wp, run] using h

theorem wp_error {x : Prog σ α} {e : Err} (h : wp x Q E s) (run : x s = (.error e, s')) :
    E e s' := by
  simpa [wp, run] using h

theorem wp_end {x : Prog σ α} {P : σ → Prop} (h : wp x (fun _ => P) (fun _ => P) s) :
    P (x s).2 := by
  unfold wp at h
  split at h <;> simp_all

theorem wp_run {x : Prog σ α} {a : α} (run : x s = (.ok a, s')) : wp x Q E s = Q a s' := by
  rw [wp, run]

theorem wp_run_error {x : Prog σ α} {e : Err} (run : x s = (.error e, s')) :
    wp x Q E s = E e s' := by
  rw [wp, run]

theorem wp_congr {x y : Prog σ α} (same : x s = y s) : wp x Q E s = wp y Q E s := by
  rw [wp, wp, same]

theorem wp_outcome {x : Prog σ α} (h : wp x Q E s) :
    wp x (fun a s' => x s = (.ok a, s') ∧ Q a s') (fun e s' => x s = (.error e, s') ∧ E e s')
    s := by
  unfold wp at h ⊢
  rcases run : x s with ⟨e | a, s'⟩
  all_goals
    rw [run] at h
    exact ⟨rfl, h⟩

theorem wp_total {x : Prog σ α} (h : wp x Q (fun _ _ => False) s) :
    ∃ a s', x s = (.ok a, s') ∧ Q a s' := by
  unfold wp at h
  split at h
  · rename_i a s' run
    exact ⟨a, s', run, h⟩
  · exact h.elim

theorem wp_of_ok {x : Prog σ α} {a : α} (run : x s = (.ok a, s')) (q : Q a s') : wp x Q E s := by
  simpa [wp, run] using q

theorem wp_of_run {x : Prog σ α} (h : ∀ a s', x s = (.ok a, s') → Q a s') :
    wp x Q (fun _ _ => True) s := by
  unfold wp
  split
  · rename_i a s' run
    exact h a s' run
  · trivial

/-- Every failure of `x` is one of `P`. -/
def Raises (x : Prog σ α) (P : Err → Prop) : Prop := ∀ s, wp x (fun _ _ => True) (fun e _ => P e) s

section Raises

variable {P : Err → Prop} {x : Prog σ α}

theorem raises_pure (a : α) : Raises (pure a : Prog σ α) P := fun _ => trivial

theorem raises_bind {f : α → Prog σ β} (h : Raises x P) (later : ∀ a, Raises (f a) P) :
    Raises (x >>= f) P := by
  intro s
  rw [wp_bind]
  exact wp_mono (h s) (fun a s' _ => later a s') fun _ _ => id

theorem raises_get {f : σ → Prog σ β} (later : ∀ s, Raises (f s) P) : Raises (get >>= f) P :=
  fun s => later s s

theorem raises_modify (f : σ → σ) : Raises (modify f : Prog σ Unit) P := fun _ => trivial

theorem raises_bail {m : String} (h : P (.bail m)) : Raises (bail m : Prog σ α) P := fun _ => h

theorem raises_panicWith {m : String} (h : P (.panic m)) : Raises (panicWith m : Prog σ α) P :=
  fun _ => h

theorem raises_ite {c : Prop} [Decidable c] {y : Prog σ α} (yes : c → Raises x P)
    (no : ¬ c → Raises y P) :
    Raises (if c then x else y) P := by
  split
  · exact yes ‹_›
  · exact no ‹_›

end Raises

theorem bind_inv {x : Except Err α} {f : α → Except Err β} {b : β} (run : (x >>= f) = .ok b) :
    ∃ a, x = .ok a ∧ f a = .ok b := by
  cases x with
  | error e => cases run
  | ok a => exact ⟨a, rfl, run⟩

theorem bind_run (x : Prog σ α) (f : α → Prog σ β) : (x >>= f) s =
    match x s with
    | (.ok a, s') => f a s'
    | (.error e, s') => (.error e, s') := rfl

@[simp] theorem bind_ok (x : Prog σ α) (f : α → Prog σ β) {a : α} (run : x s = (.ok a, s')) :
    (x >>= f) s = f a s' := by
  rw [bind_run, run]

theorem bind_error (x : Prog σ α) (f : α → Prog σ β) {e : Err} (run : x s = (.error e, s')) :
    (x >>= f) s = (.error e, s') := by
  rw [bind_run, run]

@[simp] theorem pure_run (a : α) : (pure a : Prog σ α) s = (.ok a, s) := rfl
@[simp] theorem get_run : (get : Prog σ σ) s = (.ok s, s) := rfl
@[simp] theorem modify_run (f : σ → σ) : (modify f : Prog σ Unit) s = (.ok (), f s) := rfl
@[simp] theorem fail_run (e : Err) : (fail e : Prog σ α) s = (.error e, s) := rfl
@[simp] theorem bail_run (m : String) : (bail m : Prog σ α) s = (.error (.bail m), s) := rfl

@[simp] theorem panicWith_run (m : String) :
    (panicWith m : Prog σ α) s = (.error (.panic m), s) := rfl

theorem ite_run (c : Prop) [Decidable c] (x y : Prog σ α) :
    (if c then x else y) s = if c then x s else y s := by
  split <;> rfl

end Prog

import FiveFs.Lib.Prog

/-! Two runs of one program, from a state and from what a map makes of it. The runs take the same
course as long as every step reads the same from both states. -/

namespace Prog

variable {σ α β : Type} {φ : σ → σ} {x : Prog σ α} {Q Q' : α → σ → Prop} {E E' : σ → Prop}
    {s s' : σ}

/-- From `s` and from `φ s` the program has one result, and leaves states related by `φ` again. The
run from `s` ends in `Q`, or fails in `E`. -/
def pair (φ : σ → σ) (x : Prog σ α) (Q : α → σ → Prop) (E : σ → Prop) (s : σ) : Prop :=
  x (φ s) = ((x s).1, φ (x s).2) ∧ wp x Q (fun _ => E) s

theorem pair_mono (h : pair φ x Q E s) (ok : ∀ a t, Q a t → Q' a t) (err : ∀ t, E t → E' t) :
    pair φ x Q' E' s :=
  ⟨h.1, wp_mono h.2 ok fun _ => err⟩

theorem pair_pure {a : α} (h : Q a s) : pair φ (pure a : Prog σ α) Q E s := ⟨rfl, h⟩

theorem pair_bind {f : α → Prog σ β} {Q : β → σ → Prop}
    (h : pair φ x (fun a => pair φ (f a) Q E) E s) :
    pair φ (x >>= f) Q E s := by
  obtain ⟨same, post⟩ := h
  rw [pair, wp_bind, bind_run, bind_run, same]
  unfold wp at post ⊢
  split at post
  · rename_i a t run
    rw [run]
    exact post
  · rename_i e t run
    rw [run]
    exact ⟨rfl, post⟩

theorem pair_seq {f : α → Prog σ β} {R : β → σ → Prop} (h : pair φ x Q E s)
    (rest : ∀ a t, Q a t → pair φ (f a) R E t) : pair φ (x >>= f) R E s :=
  pair_bind (pair_mono h rest fun _ err => err)

theorem pair_get {f : σ → Prog σ β} {Q : β → σ → Prop} (blind : f (φ s) = f s)
    (h : pair φ (f s) Q E s) :
    pair φ (get >>= f) Q E s := by
  refine ⟨?_, ?_⟩
  · rw [bind_ok _ _ (get_run (s := φ s)), bind_ok _ _ (get_run (s := s)), blind]
    exact h.1
  · rw [wp_bind, wp_get]
    exact h.2

theorem pair_modify {f : σ → σ} {Q : Unit → σ → Prop} (natural : f (φ s) = φ (f s))
    (h : Q () (f s)) :
    pair φ (modify f) Q E s :=
  ⟨by rw [modify_run, modify_run, natural], h⟩

theorem pair_bail {m : String} (h : E s) : pair φ (bail m : Prog σ α) Q E s := ⟨rfl, h⟩

theorem pair_panicWith {m : String} (h : E s) : pair φ (panicWith m : Prog σ α) Q E s := ⟨rfl, h⟩

theorem pair_ite {c : Prop} [Decidable c] {y : Prog σ α} (yes : c → pair φ x Q E s)
    (no : ¬ c → pair φ y Q E s) :
    pair φ (if c then x else y) Q E s := by
  split
  · exact yes ‹_›
  · exact no ‹_›

theorem pair_run {a : α} (run : x s = (.ok a, s')) (run' : x (φ s) = (.ok a, φ s')) (h : Q a s') :
    pair φ x Q E s :=
  ⟨by rw [run', run], wp_of_ok run h⟩

theorem pair_error {e : Err} (run : x s = (.error e, s')) (run' : x (φ s) = (.error e, φ s'))
    (h : E s') :
    pair φ x Q E s := by
  refine ⟨by rw [run', run], ?_⟩
  rw [wp_run_error run]
  exact h

theorem pair_wp (h : pair φ x Q' E' s) (post : wp x Q (fun _ => E) s) : pair φ x Q E s :=
  ⟨h.1, post⟩

theorem pair_attempt {Q : Except String α → σ → Prop}
    (h : pair φ x (fun a => Q (.ok a)) (fun t => (∀ m, Q (.error m) t) ∧ E t) s) :
    pair φ (attempt x) Q E s := by
  obtain ⟨same, post⟩ := h
  refine ⟨?_, ?_⟩
  · unfold attempt
    rw [same]
    rcases x s with ⟨(m | m) | a, t⟩ <;> rfl
  · rw [wp_attempt]
    refine wp_mono post (fun _ _ q => q) ?_
    rintro (m | m) t ⟨caught, failed⟩
    · exact caught m
    · exact failed

end Prog

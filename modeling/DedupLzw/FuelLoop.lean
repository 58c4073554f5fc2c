/-
**Loops that may not terminate.**

A loop whose termination is itself a question is modelled by a function that takes an amount of
fuel and answers `running` when the fuel is spent.  This module fixes that vocabulary once: the
outcomes of a bounded run, what it means for a computation to *exit* with a value, and the rules by
which a loop is shown to exit, or never to exit, round by round.

A computation exits with `b` when it answers `b` for **all sufficiently large** amounts of fuel.
With this definition no monotonicity lemma is needed for the bodies: two exits compose by taking
the larger of the two amounts.

Main definitions:

* `FuelLoop.Outcome` — still running, stuck in undefined behaviour, or finished;
* `FuelLoop.Exits` — a computation finishes with a value, given enough fuel;
* `FuelLoop.ComesTo` — a computation is running until it has an outcome, and keeps that; the outcome
  `running` says that it goes on for ever;
* `FuelLoop.iterate` — repeating a body until it asks to stop.

Main results:

* `FuelLoop.Exits.unique` — the value of an exiting computation is unique;
* `FuelLoop.exits_stop`, `FuelLoop.exits_again_iff` — one round of a loop;
* `FuelLoop.iterate_done_induction` — the rule for loops that have finished;
* `FuelLoop.iterate_ne_done` — the invariant rule for loops that never finish;
* `FuelLoop.ComesTo.unique`, `comesTo_again`, `comesTo_running_of_inv` — the same rules for all
  three outcomes.
-/

import Mathlib

set_option relaxedAutoImplicit false
set_option autoImplicit false

namespace FuelLoop

variable {σ β γ : Type}

/-! ### Outcomes -/

/-- What a run on a bounded amount of fuel has come to. -/
inductive Outcome (β : Type) where
  /-- The fuel is spent. -/
  | running
  /-- The run has left the defined behaviour of the program. -/
  | stuck
  /-- The run has finished with a value. -/
  | done (b : β)
deriving DecidableEq, Repr

/-- Sequencing: what comes after a finished run. -/
def Outcome.andThen (o : Outcome β) (f : β → Outcome γ) : Outcome γ :=
  match o with
  | .running => .running
  | .stuck => .stuck
  | .done b => f b

@[simp] theorem Outcome.andThen_done (b : β) (f : β → Outcome γ) :
    (Outcome.done b).andThen f = f b := rfl

@[simp] theorem Outcome.andThen_running (f : β → Outcome γ) :
    Outcome.running.andThen f = .running := rfl

@[simp] theorem Outcome.andThen_stuck (f : β → Outcome γ) :
    Outcome.stuck.andThen f = .stuck := rfl

theorem Outcome.andThen_eq_done {o : Outcome β} {f : β → Outcome γ} {c : γ} :
    o.andThen f = .done c ↔ ∃ b, o = .done b ∧ f b = .done c := by
  cases o <;> simp

/-- A computation finishes with `b`: it answers `b` on all sufficiently large amounts of fuel. -/
def Exits (run : ℕ → Outcome β) (b : β) : Prop :=
  ∃ n, ∀ m, n ≤ m → run m = .done b

theorem Exits.unique {run : ℕ → Outcome β} {b c : β} (hb : Exits run b) (hc : Exits run c) :
    b = c := by
  obtain ⟨n, hn⟩ := hb
  obtain ⟨k, hk⟩ := hc
  have h := (hn (max n k) (le_max_left _ _)).symm.trans (hk (max n k) (le_max_right _ _))
  exact Outcome.done.inj h

/-- A computation that ignores its fuel. -/
theorem exits_const (b : β) : Exits (fun _ => .done b) b := ⟨0, fun _ _ => rfl⟩

theorem Exits.andThen {run : ℕ → Outcome β} {f : ℕ → β → Outcome γ} {b : β} {c : γ}
    (hb : Exits run b) (hc : Exits (fun n => f n b) c) :
    Exits (fun n => (run n).andThen (f n)) c := by
  obtain ⟨n, hn⟩ := hb
  obtain ⟨k, hk⟩ := hc
  refine ⟨max n k, fun m hm => ?_⟩
  have h₁ := hn m (le_trans (le_max_left _ _) hm)
  have h₂ := hk m (le_trans (le_max_right _ _) hm)
  simp [h₁, h₂]

/-! ### Repeating a body -/

/-- How one round of a loop ends: with a further round, or with the loop's result. -/
inductive Next (σ β : Type) where
  /-- Go round again from this state. -/
  | again (s : σ)
  /-- Leave the loop with this result. -/
  | stop (b : β)
deriving DecidableEq, Repr

/-- Repeating `body` until it asks to stop.  Every round costs one unit of fuel, and the body of a
round may itself use what is left. -/
def iterate (body : ℕ → σ → Outcome (Next σ β)) : ℕ → σ → Outcome β
  | 0, _ => .running
  | n + 1, s =>
      match body n s with
      | .running => .running
      | .stuck => .stuck
      | .done (.again s') => iterate body n s'
      | .done (.stop b) => .done b

variable {body : ℕ → σ → Outcome (Next σ β)} {s s' : σ} {b : β}

theorem exits_stop (h : Exits (fun n => body n s) (.stop b)) :
    Exits (fun n => iterate body n s) b := by
  obtain ⟨n, hn⟩ := h
  refine ⟨n + 1, fun m hm => ?_⟩
  obtain ⟨k, rfl⟩ : ∃ k, m = k + 1 := ⟨m - 1, by omega⟩
  simp [iterate, hn k (by omega)]

/-- One round: a loop whose body goes round again to `s'` exits from `s` exactly as it exits from
`s'`. -/
theorem exits_again_iff (h : Exits (fun n => body n s) (.again s')) :
    Exits (fun n => iterate body n s) b ↔ Exits (fun n => iterate body n s') b := by
  obtain ⟨n, hn⟩ := h
  have hstep : ∀ m, n ≤ m → iterate body (m + 1) s = iterate body m s' := by
    intro m hm
    simp [iterate, hn m hm]
  constructor
  · rintro ⟨k, hk⟩
    refine ⟨max n k, fun m hm => ?_⟩
    exact (hstep m (le_trans (le_max_left _ _) hm)).symm.trans (hk (m + 1) (by omega))
  · rintro ⟨k, hk⟩
    refine ⟨max n k + 1, fun m hm => ?_⟩
    obtain ⟨j, rfl⟩ : ∃ j, m = j + 1 := ⟨m - 1, by omega⟩
    exact (hstep j (by omega)).trans (hk j (by omega))

/-! ### Loops that have finished -/

/-- **The rule for loops that have finished**: what the last round establishes, and what every other
round hands back from the state after it to the state before it, relates the first state to the
result. -/
theorem iterate_done_induction {P : σ → β → Prop}
    (hstop : ∀ n t c, body n t = .done (.stop c) → P t c)
    (hagain : ∀ n t t' c, body n t = .done (.again t') → P t' c → P t c) :
    ∀ n t c, iterate body n t = .done c → P t c := by
  intro n
  induction n with
  | zero => intro t c h; simp [iterate] at h
  | succ n ih =>
      intro t c h
      cases hbody : body n t with
      | running => simp [iterate, hbody] at h
      | stuck => simp [iterate, hbody] at h
      | done r =>
          cases r with
          | again t' =>
              simp only [iterate, hbody] at h
              exact hagain n t t' c hbody (ih t' c h)
          | stop b =>
              simp only [iterate, hbody, Outcome.done.injEq] at h
              exact hstop n t c (h ▸ hbody)

/-! ### Loops that never finish -/

/-- A computation that never answers does not exit. -/
theorem not_exits_of_ne_done {run : ℕ → Outcome β} (h : ∀ n c, run n ≠ .done c) (b : β) :
    ¬ Exits run b := by
  rintro ⟨n, hn⟩
  exact h n b (hn n le_rfl)

/-- **The invariant rule for endless loops**: if every finished round that starts in the invariant
asks for another round and re-establishes it, the loop never finishes. -/
theorem iterate_ne_done (inv : σ → Prop)
    (hstep : ∀ n t r, inv t → body n t = .done r → ∃ t', r = .again t' ∧ inv t') :
    ∀ n t, inv t → ∀ c, iterate body n t ≠ .done c := by
  intro n
  induction n with
  | zero => intro t _ c h; simp [iterate] at h
  | succ n ih =>
      intro t ht c h
      cases hbody : body n t with
      | running => simp [iterate, hbody] at h
      | stuck => simp [iterate, hbody] at h
      | done r =>
          obtain ⟨t', rfl, ht'⟩ := hstep n t r ht hbody
          simp only [iterate, hbody] at h
          exact ih t' ht' c h

/-- A loop whose body never finishes does not finish either. -/
theorem iterate_ne_done_of_body (hbody : ∀ n r, body n s ≠ .done r) :
    ∀ n c, iterate body n s ≠ .done c := by
  intro n c h
  cases n with
  | zero => simp [iterate] at h
  | succ n =>
      cases hb : body n s with
      | running => simp [iterate, hb] at h
      | stuck => simp [iterate, hb] at h
      | done r => exact hbody n r hb

/-! ### All three outcomes -/

/-- A computation is running until it comes to the outcome `o`, which it keeps.  With `running` for
the outcome, it never comes to another one. -/
def ComesTo (run : ℕ → Outcome β) (o : Outcome β) : Prop :=
  ∃ n, (∀ m < n, run m = .running) ∧ ∀ m, n ≤ m → run m = o

theorem ComesTo.unique {run : ℕ → Outcome β} {o o' : Outcome β} (h : ComesTo run o)
    (h' : ComesTo run o') : o = o' := by
  obtain ⟨n, _, hn⟩ := h
  obtain ⟨k, _, hk⟩ := h'
  exact (hn (max n k) (le_max_left _ _)).symm.trans (hk (max n k) (le_max_right _ _))

theorem ComesTo.exits {run : ℕ → Outcome β} (h : ComesTo run (.done b)) : Exits run b := by
  obtain ⟨n, _, hn⟩ := h
  exact ⟨n, hn⟩

/-- A computation that exits has not come to anything else. -/
theorem ComesTo.eq_done {run : ℕ → Outcome β} {o : Outcome β} (h : ComesTo run o)
    (hb : Exits run b) : o = .done b := by
  obtain ⟨n, _, hn⟩ := h
  obtain ⟨k, hk⟩ := hb
  exact (hn (max n k) (le_max_left _ _)).symm.trans (hk (max n k) (le_max_right _ _))

theorem comesTo_running_iff {run : ℕ → Outcome β} :
    ComesTo run .running ↔ ∀ n, run n = .running := by
  constructor
  · rintro ⟨n, hbefore, hafter⟩ m
    rcases Nat.lt_or_ge m n with hlt | hge
    · exact hbefore m hlt
    · exact hafter m hge
  · exact fun h => ⟨0, fun m hm => absurd hm (Nat.not_lt_zero m), fun m _ => h m⟩

/-- A computation that ignores its fuel. -/
theorem comesTo_const (o : Outcome β) : ComesTo (fun _ => o) o :=
  ⟨0, fun m hm => absurd hm (Nat.not_lt_zero m), fun _ _ => rfl⟩

theorem ComesTo.andThen {run : ℕ → Outcome β} {f : ℕ → β → Outcome γ} {b : β} {o : Outcome γ}
    (hb : ComesTo run (.done b)) (ho : ComesTo (fun n => f n b) o) :
    ComesTo (fun n => (run n).andThen (f n)) o := by
  obtain ⟨n, hbefore, hafter⟩ := hb
  obtain ⟨k, hbefore', hafter'⟩ := ho
  refine ⟨max n k, fun m hm => ?_, fun m hm => ?_⟩
  · rcases Nat.lt_or_ge m n with hlt | hge
    · simp [hbefore m hlt]
    · simp [hafter m hge, hbefore' m (by omega)]
  · simp [hafter m (by omega), hafter' m (by omega)]

theorem ComesTo.andThen_stuck {run : ℕ → Outcome β} (f : ℕ → β → Outcome γ)
    (h : ComesTo run .stuck) : ComesTo (fun n => (run n).andThen (f n)) .stuck := by
  obtain ⟨n, hbefore, hafter⟩ := h
  exact ⟨n, fun m hm => by simp [hbefore m hm], fun m hm => by simp [hafter m hm]⟩

theorem ComesTo.andThen_running {run : ℕ → Outcome β} (f : ℕ → β → Outcome γ)
    (h : ComesTo run .running) : ComesTo (fun n => (run n).andThen (f n)) .running :=
  comesTo_running_iff.2 fun n => by simp [comesTo_running_iff.1 h n]

theorem comesTo_stop (h : ComesTo (fun n => body n s) (.done (.stop b))) :
    ComesTo (fun n => iterate body n s) (.done b) := by
  obtain ⟨n, hbefore, hafter⟩ := h
  refine ⟨n + 1, fun m hm => ?_, fun m hm => ?_⟩
  · cases m with
    | zero => rfl
    | succ m => simp [iterate, hbefore m (by omega)]
  · obtain ⟨k, rfl⟩ : ∃ k, m = k + 1 := ⟨m - 1, by omega⟩
    simp [iterate, hafter k (by omega)]

/-- One round. -/
theorem comesTo_again {o : Outcome β} (h : ComesTo (fun n => body n s) (.done (.again s')))
    (ho : ComesTo (fun n => iterate body n s') o) : ComesTo (fun n => iterate body n s) o := by
  obtain ⟨n, hbefore, hafter⟩ := h
  obtain ⟨k, hbefore', hafter'⟩ := ho
  refine ⟨max n k + 1, fun m hm => ?_, fun m hm => ?_⟩
  · cases m with
    | zero => rfl
    | succ m =>
        rcases Nat.lt_or_ge m n with hlt | hge
        · simp [iterate, hbefore m hlt]
        · simp [iterate, hafter m hge, hbefore' m (by omega)]
  · obtain ⟨j, rfl⟩ : ∃ j, m = j + 1 := ⟨m - 1, by omega⟩
    simp [iterate, hafter j (by omega), hafter' j (by omega)]

theorem comesTo_body_stuck (h : ComesTo (fun n => body n s) .stuck) :
    ComesTo (fun n => iterate body n s) .stuck := by
  obtain ⟨n, hbefore, hafter⟩ := h
  refine ⟨n + 1, fun m hm => ?_, fun m hm => ?_⟩
  · cases m with
    | zero => rfl
    | succ m => simp [iterate, hbefore m (by omega)]
  · obtain ⟨k, rfl⟩ : ∃ k, m = k + 1 := ⟨m - 1, by omega⟩
    simp [iterate, hafter k (by omega)]

theorem comesTo_body_running (h : ComesTo (fun n => body n s) .running) :
    ComesTo (fun n => iterate body n s) .running := by
  refine comesTo_running_iff.2 fun n => ?_
  cases n with
  | zero => rfl
  | succ n => simp [iterate, comesTo_running_iff.1 h n]

/-- A loop that always goes round again from an invariant goes on for ever. -/
theorem comesTo_running_of_inv (inv : σ → Prop)
    (hstep : ∀ t, inv t → ∃ t', (∀ n, body n t = .done (.again t')) ∧ inv t') (hs : inv s) :
    ComesTo (fun n => iterate body n s) .running := by
  refine comesTo_running_iff.2 fun n => ?_
  induction n generalizing s with
  | zero => rfl
  | succ n ih =>
      obtain ⟨t', hbody, ht'⟩ := hstep s hs
      simpa [iterate, hbody n] using ih ht'

end FuelLoop

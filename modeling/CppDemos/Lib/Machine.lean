import Mathlib.Data.List.Induction
import Mathlib.Logic.Relation
import Mathlib.Tactic.Common

/-!
# Event-driven machines

A machine is a partial step function on explicit events; a run folds it over a
list of events and fails if any step does. The induction principles are the
ones a safety proof uses: `run_invariant` for an invariant, `run_invariant_along`
for a property preserved by the steps that meet a condition, and
`run_invariant_below` for one that is preserved only as long as some quantity
that never shrinks stays below a bound, which is then a condition on the last
state of the run alone.

`run_refines` turns a step-wise simulation into an abstract machine into one
of whole runs, and `run_simulates` one between two runs of the same machine.

`outputs` is what a run puts out, step by step, and `run_history` the rule for
what is said of the last state and of all that has happened.

`run_length_le` and `exists_stuck` are for machines that come to rest: but for
some events, from outside, every step costs.
-/

namespace Machine

variable {σ ε α : Type*} {step : σ → ε → Option σ}

/-- Fold the step function over the events, left to right. -/
def run (step : σ → ε → Option σ) : σ → List ε → Option σ
  | s, [] => some s
  | s, e :: es => (step s e).bind fun s' => run step s' es

@[simp] theorem run_nil (s : σ) : run step s [] = some s := rfl

theorem run_cons_eq_some {s t : σ} {e : ε} {es : List ε} :
    run step s (e :: es) = some t ↔ ∃ s', step s e = some s' ∧ run step s' es = some t := by
  simp [run, Option.bind_eq_some_iff]

theorem run_append {s t : σ} {es es' : List ε} :
    run step s (es ++ es') = some t ↔ ∃ s', run step s es = some s' ∧ run step s' es' = some t := by
  induction es generalizing s with
  | nil => simp
  | cons e es ih =>
      rw [List.cons_append, run_cons_eq_some]
      simp only [ih, run_cons_eq_some]
      constructor
      · rintro ⟨s1, h1, s', h2, h3⟩
        exact ⟨s', ⟨s1, h1, h2⟩, h3⟩
      · rintro ⟨s', ⟨s1, h1, h2⟩, h3⟩
        exact ⟨s1, h1, s', h2, h3⟩

theorem run_concat {s t : σ} {e : ε} {es : List ε} :
    run step s (es ++ [e]) = some t ↔ ∃ s', run step s es = some s' ∧ step s' e = some t := by
  rw [run_append]
  refine exists_congr fun s' => and_congr_right fun _ => ?_
  rw [run_cons_eq_some]
  exact ⟨fun ⟨_, h, heq⟩ => Option.some.inj heq ▸ h, fun h => ⟨t, h, rfl⟩⟩

/-- A machine that does on the images of some events what another one does on
the events runs like it on them. -/
theorem run_map {ε' : Type*} {step' : σ → ε' → Option σ} {f : ε → ε'}
    (h : ∀ s e, step' s (f e) = step s e) (s : σ) (es : List ε) :
    run step' s (es.map f) = run step s es := by
  induction es generalizing s with
  | nil => rfl
  | cons e es ih => simp only [List.map_cons, run, h, ih]

theorem run_invariant {P : σ → Prop}
    (hstep : ∀ s e s', P s → step s e = some s' → P s')
    {s t : σ} {es : List ε} (h : run step s es = some t) (hs : P s) : P t := by
  induction es generalizing s with
  | nil => exact Option.some.inj h ▸ hs
  | cons e es ih =>
      obtain ⟨s', h1, h2⟩ := run_cons_eq_some.mp h
      exact ih h2 (hstep s e s' hs h1)

/-- A relation to the first state that every step extends holds at the end of
every run. -/
theorem run_rel {R : σ → σ → Prop} (hrefl : ∀ s, R s s)
    (htrans : ∀ a b c, R a b → R b c → R a c)
    (hstep : ∀ s e s', step s e = some s' → R s s')
    {s t : σ} {es : List ε} (h : run step s es = some t) : R s t := by
  induction es generalizing s with
  | nil => exact Option.some.inj h ▸ hrefl s
  | cons e es ih =>
      obtain ⟨s', h1, h2⟩ := run_cons_eq_some.mp h
      exact htrans _ _ _ (hstep s e s' h1) (ih h2)

theorem run_size_le {size : σ → Nat} (hmono : ∀ s e s', step s e = some s' → size s ≤ size s')
    {s t : σ} {es : List ε} (h : run step s es = some t) : size s ≤ size t :=
  run_rel (R := fun a b => size a ≤ size b) (fun _ => Nat.le_refl _) (fun _ _ _ => Nat.le_trans)
    hmono h

/-- A property preserved while a growing quantity stays below a bound holds at
the end of a run that ends below it. -/
theorem run_invariant_below {Inv : σ → Prop} {size : σ → Nat} {bound : Nat}
    (hmono : ∀ s e s', step s e = some s' → size s ≤ size s')
    (hstep : ∀ s e s', Inv s → step s e = some s' → size s' < bound → Inv s')
    {s t : σ} {es : List ε} (h : run step s es = some t) (hs : Inv s)
    (hbound : size t < bound) : Inv t := by
  induction es generalizing s with
  | nil => exact Option.some.inj h ▸ hs
  | cons e es ih =>
      obtain ⟨s', h1, h2⟩ := run_cons_eq_some.mp h
      have hle : size s' ≤ size t := run_size_le hmono h2
      exact ih h2 (hstep s e s' hs h1 (Nat.lt_of_le_of_lt hle hbound))

/-- Every step of the run meets the condition in the state it is taken in. -/
def Along (step : σ → ε → Option σ) (ok : σ → ε → Prop) : σ → List ε → Prop
  | _, [] => True
  | s, e :: es => ok s e ∧ ∀ s', step s e = some s' → Along step ok s' es

instance Along.decidable {ok : σ → ε → Prop} [∀ s e, Decidable (ok s e)] :
    ∀ (s : σ) (es : List ε), Decidable (Along step ok s es)
  | _, [] => inferInstanceAs (Decidable True)
  | s, e :: es =>
      have : Decidable (∀ s', step s e = some s' → Along step ok s' es) :=
        match step s e with
        | none => isTrue fun _ h => nomatch h
        | some s' =>
            match (Along.decidable s' es : Decidable (Along step ok s' es)) with
            | isTrue h => isTrue fun _ heq => Option.some.inj heq ▸ h
            | isFalse h => isFalse fun hall => h (hall s' rfl)
      inferInstanceAs (Decidable (_ ∧ _))

theorem Along.imp {ok ok' : σ → ε → Prop} (himp : ∀ s e, ok s e → ok' s e) {s : σ} {es : List ε}
    (h : Along step ok s es) : Along step ok' s es := by
  induction es generalizing s with
  | nil => trivial
  | cons e es ih => exact ⟨himp s e h.1, fun s' hs' => ih (h.2 s' hs')⟩

/-- A property preserved by every step that meets a condition holds at the end
of a run all of whose steps meet it. -/
theorem run_invariant_along {Inv : σ → Prop} {ok : σ → ε → Prop}
    (hstep : ∀ s e s', Inv s → ok s e → step s e = some s' → Inv s')
    {s t : σ} {es : List ε} (h : run step s es = some t) (hok : Along step ok s es)
    (hs : Inv s) : Inv t := by
  induction es generalizing s with
  | nil => exact Option.some.inj h ▸ hs
  | cons e es ih =>
      obtain ⟨s', h1, h2⟩ := run_cons_eq_some.mp h
      exact ih h2 (hok.2 s' h1) (hstep s e s' hs hok.1 h1)

/-- Where some step of a run has not met the condition, what holds after any such step and is
preserved holds at the end. -/
theorem run_of_not_along {Inv P : σ → Prop} {ok : σ → ε → Prop}
    (hstep : ∀ s e s', Inv s → step s e = some s' → Inv s')
    (hbad : ∀ s e s', Inv s → ¬ ok s e → step s e = some s' → P s')
    (hkeep : ∀ s e s', Inv s → P s → step s e = some s' → P s')
    {s t : σ} {es : List ε} (h : run step s es = some t) (hnot : ¬ Along step ok s es)
    (hs : Inv s) : P t := by
  induction es generalizing s with
  | nil => exact absurd trivial hnot
  | cons e es ih =>
      obtain ⟨s', h1, h2⟩ := run_cons_eq_some.mp h
      have hs' := hstep s e s' hs h1
      by_cases hok : ok s e
      · refine ih h2 (fun hall => hnot ⟨hok, fun s₁ h₁ => ?_⟩) hs'
        rw [h1] at h₁
        exact Option.some.inj h₁ ▸ hall
      · have hboth : Inv t ∧ P t := run_invariant (P := fun s => Inv s ∧ P s)
          (fun s e s' hi hse => ⟨hstep s e s' hi.1 hse, hkeep s e s' hi.1 hi.2 hse⟩) h2
          ⟨hs', hbad s e s' hs hok h1⟩
        exact hboth.2

/-- If every step from a good state is matched by abstract steps, so is every
run; goodness may depend on a growing quantity as in `run_invariant_below`. -/
theorem run_refines {Inv : σ → Prop} {size : σ → Nat} {bound : Nat}
    {abs : σ → α} {Step : α → α → Prop}
    (hmono : ∀ s e s', step s e = some s' → size s ≤ size s')
    (hstep : ∀ s e s', Inv s → step s e = some s' → size s' < bound →
      Inv s' ∧ Relation.ReflTransGen Step (abs s) (abs s'))
    {s t : σ} {es : List ε} (h : run step s es = some t) (hs : Inv s)
    (hbound : size t < bound) : Relation.ReflTransGen Step (abs s) (abs t) := by
  induction es generalizing s with
  | nil => exact Option.some.inj h ▸ .refl
  | cons e es ih =>
      obtain ⟨s', h1, h2⟩ := run_cons_eq_some.mp h
      have hle : size s' ≤ size t := run_size_le hmono h2
      obtain ⟨hs', habs⟩ := hstep s e s' hs h1 (Nat.lt_of_le_of_lt hle hbound)
      exact habs.trans (ih h2 hs')

/-- If related states answer related events, every run is matched by one of related
events. -/
theorem run_simulates {R : σ → σ → Prop} {E : ε → ε → Prop}
    (hstep : ∀ {s s' t e}, R s s' → step s e = some t →
      ∃ e' t', E e e' ∧ step s' e' = some t' ∧ R t t')
    {s s' t : σ} {es : List ε} (hs : R s s') (h : run step s es = some t) :
    ∃ es' t', List.Forall₂ E es es' ∧ run step s' es' = some t' ∧ R t t' := by
  induction es generalizing s s' with
  | nil => exact ⟨[], s', .nil, rfl, Option.some.inj h ▸ hs⟩
  | cons e es ih =>
      obtain ⟨s₁, h1, h2⟩ := run_cons_eq_some.mp h
      obtain ⟨e', s₁', he, h1', hs₁⟩ := hstep hs h1
      obtain ⟨es', t', hes, h2', ht⟩ := ih hs₁ h2
      exact ⟨e' :: es', t', .cons he hes, run_cons_eq_some.mpr ⟨s₁', h1', h2'⟩, ht⟩

/-! ## What a run puts out -/

/-- What the events put out in the states they find, one after another. -/
def outputs {β : Type*} (step : σ → ε → Option σ) (out : σ → ε → List β) : σ → List ε → List β
  | _, [] => []
  | s, e :: es => out s e ++ ((step s e).map fun s' => outputs step out s' es).getD []

theorem outputs_append {β : Type*} {out : σ → ε → List β} {s t : σ} {es es' : List ε}
    (h : run step s es = some t) :
    outputs step out s (es ++ es') = outputs step out s es ++ outputs step out t es' := by
  induction es generalizing s with
  | nil =>
      obtain rfl := Option.some.inj h
      rfl
  | cons e es ih =>
      obtain ⟨s', h1, h2⟩ := run_cons_eq_some.mp h
      simp only [List.cons_append, outputs, h1, Option.map_some, Option.getD_some, ih h2,
        List.append_assoc]

theorem outputs_concat {β : Type*} {out : σ → ε → List β} {s t : σ} {es : List ε} {e : ε}
    (h : run step s es = some t) :
    outputs step out s (es ++ [e]) = outputs step out s es ++ out t e := by
  rw [outputs_append h]
  cases hstep : step t e <;> simp [outputs, hstep]

/-- What holds at first and is kept by every step holds at the end of the run, also of what
has happened. -/
theorem run_history {P : List ε → σ → Prop} {s t : σ} {es : List ε} (h : run step s es = some t)
    (hnil : P [] s)
    (hstep : ∀ es s' e t, run step s es = some s' → P es s' → step s' e = some t →
      P (es ++ [e]) t) : P es t := by
  induction es using List.reverseRecOn generalizing t with
  | nil => exact Option.some.inj h ▸ hnil
  | append_singleton es e ih =>
      obtain ⟨s', h1, h2⟩ := run_concat.mp h
      exact hstep es s' e t h1 (ih h1) h2

/-! ## Coming to rest -/

/-- Nothing can happen but what comes from outside. -/
def Stuck (step : σ → ε → Option σ) (outside : ε → Bool) (s : σ) : Prop :=
  ∀ e s', step s e = some s' → outside e

/-- Every step that is `ok` costs, and what comes from outside pays for `n` more. -/
def Costs (step : σ → ε → Option σ) (ok : σ → ε → Prop) (outside : ε → Bool) (Inv : σ → Prop)
    (rank : σ → Nat) (n : Nat) : Prop :=
  ∀ s e s', Inv s → ok s e → step s e = some s' →
    Inv s' ∧ rank s' + 1 ≤ rank s + if outside e then n else 0

/-- A run is no longer than what there is to pay for it. -/
theorem run_length_le {ok : σ → ε → Prop} {outside : ε → Bool} {Inv : σ → Prop} {rank : σ → Nat}
    {n : Nat} (hcosts : Costs step ok outside Inv rank n) {s t : σ} {es : List ε}
    (h : run step s es = some t) (hok : Along step ok s es) (hs : Inv s) :
    es.length + rank t ≤ rank s + n * es.countP outside := by
  induction es generalizing s with
  | nil =>
      obtain rfl := Option.some.inj h
      simp
  | cons e es ih =>
      obtain ⟨s', h1, h2⟩ := run_cons_eq_some.mp h
      obtain ⟨hs', hcost⟩ := hcosts s e s' hs hok.1 h1
      have hrest := ih h2 (hok.2 s' h1) hs'
      rw [List.length_cons, List.countP_cons, Nat.mul_add]
      split at hcost
      · rename_i hout
        rw [if_pos hout]
        omega
      · rename_i hin
        rw [if_neg hin]
        omega

theorem along_true : ∀ (s : σ) (es : List ε), Along step (fun _ _ => True) s es
  | _, [] => trivial
  | _, _ :: es => ⟨trivial, fun s' _ => along_true s' es⟩

/-- Left alone, the machine comes to rest. -/
theorem exists_stuck {outside : ε → Bool} {Inv : σ → Prop} {rank : σ → Nat} {n : Nat}
    (hcosts : Costs step (fun _ _ => True) outside Inv rank n) {s : σ} (hs : Inv s) :
    ∃ es t, run step s es = some t ∧ (∀ e ∈ es, ¬ outside e) ∧ Inv t ∧ Stuck step outside t := by
  induction hrank : rank s using Nat.strongRecOn generalizing s with
  | ind r ih =>
      by_cases hstuck : Stuck step outside s
      · exact ⟨[], s, rfl, by simp, hs, hstuck⟩
      · obtain ⟨e, s', hstep, hin⟩ : ∃ e s', step s e = some s' ∧ ¬ outside e := by
          simpa [Stuck] using hstuck
        obtain ⟨hs', hcost⟩ := hcosts s e s' hs trivial hstep
        rw [if_neg hin] at hcost
        obtain ⟨es, t, hrun, hes, ht, hend⟩ := ih (rank s') (by omega) hs' rfl
        refine ⟨e :: es, t, run_cons_eq_some.mpr ⟨s', hstep, hrun⟩, ?_, ht, hend⟩
        simpa [hin] using hes

end Machine

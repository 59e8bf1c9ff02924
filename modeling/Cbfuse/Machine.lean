import Mathlib.Tactic.Common

/-!
# Runs of a machine

A machine is a function from an input and a state to the next state, and a
run is a list of inputs. `Machine.Along` says something of every state of
a run, `Machine.Meets` asks something of every input in the state it is
given in. An invariant passes from the second to the first
(`along_of_meets`), and where breaking the condition breaks the property
at once the two are the same thing (`along_iff_meets`).

`Machine.lastSet` is the value the last input set that sets one. What it says
of the state a run ends in is a matter of single inputs: one that sets a
value makes it so, and any other leaves it so (`lastSet_final`).
-/

namespace Machine

variable {S X : Type} (step : X → S → S)

/-- The state a run ends in. -/
def final (xs : List X) (s : S) : S := xs.foldl (fun s x => step x s) s

/-- Every state of the run has the property, the first and the last
included. -/
def Along (P : S → Prop) : List X → S → Prop
  | [], s => P s
  | x :: xs, s => P s ∧ Along P xs (step x s)

/-- Every input of the run meets the condition in the state it is given
in. -/
def Meets (cond : X → S → Prop) : List X → S → Prop
  | [], _ => True
  | x :: xs, s => cond x s ∧ Meets cond xs (step x s)

variable {step}

/-- A condition on the inputs alone is met if every input meets it. -/
theorem meets_of_forall {A : X → Prop} {xs : List X} {s : S} (h : ∀ x ∈ xs, A x) :
    Meets step (fun x _ => A x) xs s := by
  induction xs generalizing s with
  | nil => trivial
  | cons x xs ih =>
    exact ⟨h x (List.mem_cons_self ..), ih (fun y hy => h y (List.mem_cons_of_mem x hy))⟩

/-- A property of every state is one of the last. -/
theorem Along.final {P : S → Prop} {xs : List X} {s : S} (h : Along step P xs s) :
    P (final step xs s) := by
  induction xs generalizing s with
  | nil => exact h
  | cons x xs ih => exact ih h.2

theorem Along.mono {P P' : S → Prop} (hP : ∀ s, P s → P' s) {xs : List X} {s : S}
    (h : Along step P xs s) : Along step P' xs s := by
  induction xs generalizing s with
  | nil => exact hP s h
  | cons x xs ih => exact ⟨hP s h.1, ih h.2⟩

variable (step) in
/-- **The invariant rule.** -/
theorem along_of_meets {Inv : S → Prop} {cond : X → S → Prop}
    (hstep : ∀ x s, Inv s → cond x s → Inv (step x s)) {xs : List X} {s : S} (hs : Inv s)
    (h : Meets step cond xs s) : Along step Inv xs s := by
  induction xs generalizing s with
  | nil => exact hs
  | cons x xs ih => exact ⟨hs, ih (hstep x s hs h.1) h.2⟩

variable (step) in
/-- **The exact condition of a property of runs.** Suppose that the
invariant gives the property, that an input which meets the condition
keeps the invariant, and that one which does not destroys the property at
once. Then the property holds in every state of a run exactly if every
input of the run meets the condition. -/
theorem along_iff_meets {Inv P : S → Prop} {guard cond : X → S → Prop}
    (hP : ∀ s, Inv s → P s)
    (hkeep : ∀ x s, Inv s → guard x s → cond x s → Inv (step x s))
    (hbreak : ∀ x s, Inv s → guard x s → ¬ cond x s → ¬ P (step x s))
    {xs : List X} {s : S} (hs : Inv s) (hg : Meets step guard xs s) :
    Along step P xs s ↔ Meets step cond xs s := by
  induction xs generalizing s with
  | nil => exact iff_of_true (hP s hs) trivial
  | cons x xs ih =>
    by_cases hc : cond x s
    · have hx := ih (hkeep x s hs hg.1 hc) hg.2
      exact ⟨fun h => ⟨hc, hx.mp h.2⟩, fun h => ⟨hP s hs, hx.mpr h.2⟩⟩
    · refine iff_of_false (fun h => ?_) (fun h => hc h.1)
      have hnext : P (step x s) := by
        cases xs with
        | nil => exact h.2
        | cons y ys => exact h.2.1
      exact hbreak x s hs hg.1 hc hnext

@[simp] theorem final_nil (s : S) : final step [] s = s := rfl

theorem final_append (xs ys : List X) (s : S) :
    final step (xs ++ ys) s = final step ys (final step xs s) := List.foldl_append ..

theorem meets_append {cond : X → S → Prop} (xs ys : List X) (s : S) :
    Meets step cond (xs ++ ys) s ↔ Meets step cond xs s ∧ Meets step cond ys (final step xs s) := by
  induction xs generalizing s with
  | nil => exact (and_iff_right trivial).symm
  | cons x xs ih => exact (and_congr_right fun _ => ih (step x s)).trans and_assoc.symm

/-- Two conditions that are the same wherever the invariant holds are met by
the same runs. -/
theorem meets_congr {Inv : S → Prop} {guard cond cond' : X → S → Prop}
    (hstep : ∀ x s, Inv s → guard x s → Inv (step x s))
    (hcond : ∀ x s, Inv s → guard x s → (cond x s ↔ cond' x s)) {xs : List X} {s : S}
    (hs : Inv s) (hg : Meets step guard xs s) :
    Meets step cond xs s ↔ Meets step cond' xs s := by
  induction xs generalizing s with
  | nil => exact Iff.rfl
  | cons x xs ih =>
    exact and_congr (hcond x s hs hg.1) (ih (hstep x s hs hg.1) hg.2)

/-! ## Values that the inputs set -/

variable {β : Type}

variable (step) in
/-- **The value last set** in a run, if any input of it sets one. -/
def lastSet (sets : X → S → Option β) : List X → S → Option β
  | [], _ => none
  | x :: xs, s => (lastSet sets xs (step x s)).or (sets x s)

/-- **What is said of the value last set** holds in the last state, if every
input makes it hold of the value it sets, and of the value set before it where
it sets none. -/
theorem lastSet_final {Inv : S → Prop} {guard : X → S → Prop} {sets : X → S → Option β}
    {Says : Option β → S → Prop} (hstep : ∀ x s, Inv s → guard x s → Inv (step x s))
    (hset : ∀ x s o, Inv s → guard x s → Says o s → Says ((sets x s).or o) (step x s))
    {xs : List X} {s : S} (hs : Inv s) (hg : Meets step guard xs s) {o : Option β}
    (ho : Says o s) : Says ((lastSet step sets xs s).or o) (final step xs s) := by
  induction xs generalizing s o with
  | nil => exact ho
  | cons x xs ih =>
    have hrest := ih (hstep x s hs hg.1) hg.2 (hset x s o hs hg.1 ho)
    rwa [← Option.or_assoc] at hrest

end Machine

import Cbfuse.Machine

/-!
# A machine and what it is for

What a machine is for can be told by a second one with smaller states, which
need not be a function: a **specification** says of an input, an output and
two of its states whether they go together. A machine does what it is for if
each of its states stands for one of the specification's, and each of its
steps for one of the specification's with the same output. Then its runs are
runs of the specification, output by output (`Machine.simulates`).

The inputs may be promised to be good ones. A promise can be made about the
state the machine is in, as everything else about a run is.
-/

namespace Machine

variable {S X O A : Type}

/-- What a run puts out, input by input. -/
def outputs (step : X → S → S) (out : X → S → O) : List X → S → List O
  | [], _ => []
  | x :: xs, s => out x s :: outputs step out xs (step x s)

/-- **A run of a specification** with given inputs and outputs, from one
state to another. -/
def Allows (spec : X → O → A → A → Prop) : List X → List O → A → A → Prop
  | [], [], a, a' => a' = a
  | x :: xs, o :: os, a, a' => ∃ b, spec x o a b ∧ Allows spec xs os b a'
  | _, _, _, _ => False

/-- **Runs follow one another.** -/
theorem Allows.append {spec : X → O → A → A → Prop} {xs ys : List X} {os ps : List O} {a b c : A}
    (h : Allows spec xs os a b) (h' : Allows spec ys ps b c) :
    Allows spec (xs ++ ys) (os ++ ps) a c := by
  induction xs generalizing os a with
  | nil =>
    cases os with
    | nil => exact (show b = a from h) ▸ h'
    | cons o os => exact h.elim
  | cons x xs ih =>
    cases os with
    | nil => exact h.elim
    | cons o os =>
      obtain ⟨d, hspec, hd⟩ := h
      exact ⟨d, hspec, ih hd⟩

/-- A run puts out as much as is put in. -/
@[simp] theorem length_outputs {step : X → S → S} {out : X → S → O} (xs : List X) (s : S) :
    (outputs step out xs s).length = xs.length := by
  induction xs generalizing s with
  | nil => rfl
  | cons x xs ih => exact congrArg Nat.succ (ih _)

/-- **Step by step is run by run.** -/
theorem simulates {step : X → S → S} {out : X → S → O} {spec : X → O → A → A → Prop}
    {stands : S → A → Prop} {guard : X → S → Prop}
    (hstep : ∀ x s a, stands s a → guard x s →
      ∃ b, spec x (out x s) a b ∧ stands (step x s) b)
    {xs : List X} {s : S} {a : A} (hs : stands s a) (hg : Meets step guard xs s) :
    ∃ b, Allows spec xs (outputs step out xs s) a b ∧ stands (final step xs s) b := by
  induction xs generalizing s a with
  | nil => exact ⟨a, rfl, hs⟩
  | cons x xs ih =>
    obtain ⟨b, hspec, hb⟩ := hstep x s a hs hg.1
    obtain ⟨b', hrun, hb'⟩ := ih hb hg.2
    exact ⟨b', ⟨b, hspec, hrun⟩, hb'⟩

end Machine

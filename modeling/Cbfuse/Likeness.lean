import Cbfuse.Interleave
import Mathlib.Order.Basic

/-!
# Runs that cannot be told apart

Two runs of a program need not be equal to be alike. A number the server drew
for one of them may be another number in the other, and all the same the
program cannot tell, if all it does with a number is hand it back.

A `Likeness` says which requests and which replies of two runs are alike. Which
are, depends on what has been drawn so far, so it is relative to a world, and
worlds grow. Two programs are alike if they make requests that are alike and
go on alike after replies that are (`Likeness.Alike`).

The use made of it here is a pool of which only some processes matter. If what
they ask of the server is answered alike with and without the others, they
return what they would have returned without the others (`Pool.alike_run`).
-/

/-- **When two runs are alike**, in a world. -/
structure Likeness (W Q : Type) [LE W] (R : Q → Type) where
  /-- The requests are alike. -/
  ask : W → Q → Q → Prop
  /-- The replies are alike. -/
  reply : W → (q q' : Q) → R q → R q' → Prop
  /-- Requests stay alike. -/
  ask_mono : ∀ {w w' q q'}, w ≤ w' → ask w q q' → ask w' q q'

namespace Likeness

variable {W Q : Type} [Preorder W] {R : Q → Type} {α β γ δ : Type} (L : Likeness W Q R)

/-- **The programs are alike**, and so is what they return. -/
inductive Alike (post : W → α → β → Prop) : Prog Q R α → Prog Q R β → W → Prop where
  /-- Both return. -/
  | ret {a : α} {b : β} {w : W} (h : post w a b) : Alike post (.ret a) (.ret b) w
  /-- Both make a request, and go on. -/
  | call {q q' : Q} {k : R q → Prog Q R α} {k' : R q' → Prog Q R β} {w : W} (hask : L.ask w q q')
      (h : ∀ w', w ≤ w' → ∀ r r', L.reply w' q q' r r' → Alike post (k r) (k' r') w') :
      Alike post (.call q k) (.call q' k') w
  /-- Both die. -/
  | crash {w : W} : Alike post .crash .crash w

variable {L} {post : W → α → β → Prop} {w w' : W}

/-- Programs stay alike. -/
theorem Alike.mono (hpost : ∀ {w w' a b}, w ≤ w' → post w a b → post w' a b)
    {p : Prog Q R α} {p' : Prog Q R β} (h : L.Alike post p p' w) (hw : w ≤ w') :
    L.Alike post p p' w' := by
  cases h with
  | ret h => exact .ret (hpost hw h)
  | call hask h => exact .call (L.ask_mono hw hask) (fun w₁ hw₁ => h w₁ (hw.trans hw₁))
  | crash => exact .crash

/-- Sequences are alike if their parts are. -/
theorem alike_bind {mid : W → γ → δ → Prop} {p : Prog Q R γ} {p' : Prog Q R δ}
    {f : γ → Prog Q R α} {f' : δ → Prog Q R β} (hp : L.Alike mid p p' w)
    (hf : ∀ w', w ≤ w' → ∀ c d, mid w' c d → L.Alike post (f c) (f' d) w') :
    L.Alike post (p >>= f) (p' >>= f') w := by
  induction hp with
  | ret h => exact hf _ le_rfl _ _ h
  | call hask _ ih =>
    exact .call hask (fun w₁ hw₁ r r' hr =>
      ih w₁ hw₁ r r' hr (fun w₂ hw₂ => hf w₂ (hw₁.trans hw₂)))
  | crash => exact .crash

end Likeness

namespace Pool

variable {ι Q : Type} {R : Q → Type} {W α S C : Type} [DecidableEq ι] [Preorder W]
variable {L : Likeness W Q R} {I : W → S → S → Prop} {ours : ι → Prop} {theirs : Q → Prop}

/-- **Two pools are alike to some processes**: their servers are alike, and
these processes; the other processes of the first keep to requests of their
own. -/
structure Config.Alike (L : Likeness W Q R) (I : W → S → S → Prop) (ours : ι → Prop)
    (theirs : Q → Prop) (x y : Config ι Q R α S) (w : W) : Prop where
  /-- The servers. -/
  store : I w x.store y.store
  /-- The processes that matter. -/
  procs : ∀ i, ours i → L.Alike (fun _ => Eq) (x.procs i) (y.procs i) w
  /-- The others. -/
  others : ∀ i, ¬ ours i → (x.procs i).Only theirs

section Run

variable {serve : C → (q : Q) → S → R q × S} {x y : Config ι Q R α S} {w : W}

/-- A step of one of the others. -/
theorem Config.Alike.step_other (htheirs : ∀ c w q s s', theirs q → I w s s' →
      I w (serve c q s).2 s') (h : x.Alike L I ours theirs y w) {i : ι} (hi : ¬ ours i) (c : C) :
    (step serve i c x).Alike L I ours theirs y w := by
  refine ⟨?_, fun j hj => ?_, fun j hj => ?_⟩
  · rw [step_store]
    have honly := h.others i hi
    cases hp : x.procs i with
    | ret a => exact h.store
    | call q k =>
      rw [hp] at honly
      exact htheirs c w q _ _ honly.1 h.store
    | crash => exact h.store
  · have hji : j ≠ i := by
      rintro rfl
      exact hi hj
    rw [step_procs, if_neg hji]
    exact h.procs j hj
  · rw [step_procs]
    split
    · have honly := h.others i hi
      cases hp : x.procs i with
      | ret a => trivial
      | call q k =>
        rw [hp] at honly
        exact honly.2 _
      | crash => trivial
    · exact h.others j hj

/-- A step of one of the processes that matter. -/
theorem Config.Alike.step_ours (hours : ∀ c w q q' s s', L.ask w q q' → I w s s' →
      ∃ w', w ≤ w' ∧ I w' (serve c q s).2 (serve c q' s').2
        ∧ L.reply w' q q' (serve c q s).1 (serve c q' s').1)
    (h : x.Alike L I ours theirs y w) {i : ι} (hi : ours i) (c : C) :
    ∃ w', w ≤ w' ∧ (step serve i c x).Alike L I ours theirs (step serve i c y) w' := by
  have hothers : ∀ j, ¬ ours j → ((step serve i c x).procs j).Only theirs := by
    intro j hj
    have hji : j ≠ i := by
      rintro rfl
      exact hj hi
    rw [step_procs, if_neg hji]
    exact h.others j hj
  have hproc := h.procs i hi
  generalize hp : x.procs i = p at hproc
  generalize hp' : y.procs i = p' at hproc
  cases hproc with
  | ret e =>
    rw [step_of_not_call serve (by simp [hp]), step_of_not_call serve (by simp [hp'])]
    exact ⟨w, le_rfl, h⟩
  | call hask hk =>
    obtain ⟨w', hw, hstore, hreply⟩ := hours c w _ _ _ _ hask h.store
    refine ⟨w', hw, ?_, fun j hj => ?_, hothers⟩
    · rwa [step_of_call serve hp, step_of_call serve hp']
    · rw [step_of_call serve hp, step_of_call serve hp']
      dsimp only
      split
      · exact hk w' hw _ _ hreply
      · exact (h.procs j hj).mono (fun _ e => e) hw
  | crash =>
    rw [step_of_not_call serve (by simp [hp]), step_of_not_call serve (by simp [hp'])]
    exact ⟨w, le_rfl, h⟩

/-- **The others do not matter**: with and without them the pools stay alike. -/
theorem alike_run [DecidablePred ours] (hours : ∀ c w q q' s s', L.ask w q q' → I w s s' →
      ∃ w', w ≤ w' ∧ I w' (serve c q s).2 (serve c q' s').2
        ∧ L.reply w' q q' (serve c q s).1 (serve c q' s').1)
    (htheirs : ∀ c w q s s', theirs q → I w s s' → I w (serve c q s).2 s')
    (sched : List (ι × C)) (h : x.Alike L I ours theirs y w) :
    ∃ w', w ≤ w' ∧ (run serve sched x).Alike L I ours theirs
      (run serve (sched.filter (fun ic => ours ic.1)) y) w' := by
  induction sched generalizing x y w with
  | nil => exact ⟨w, le_rfl, h⟩
  | cons ic sched ih =>
    by_cases hi : ours ic.1
    · obtain ⟨w₁, hw₁, h₁⟩ := h.step_ours hours hi ic.2
      obtain ⟨w₂, hw₂, h₂⟩ := ih h₁
      rw [List.filter_cons_of_pos (by simpa using hi)]
      exact ⟨w₂, hw₁.trans hw₂, h₂⟩
    · rw [List.filter_cons_of_neg (by simpa using hi)]
      exact ih (h.step_other htheirs hi ic.2)

end Run

omit [DecidableEq ι] in
/-- Processes that are alike have returned the same. -/
theorem Config.Alike.returned {x y : Config ι Q R α S} {w : W}
    (h : x.Alike L I ours theirs y w) {i : ι} (hi : ours i) : x.returned i = y.returned i := by
  have hproc := h.procs i hi
  unfold Config.returned
  generalize x.procs i = p at hproc
  generalize y.procs i = p' at hproc
  cases hproc with
  | ret e => exact congrArg some e
  | call hask hk => rfl
  | crash => rfl

end Pool

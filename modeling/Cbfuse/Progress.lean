import Mathlib.Data.List.Perm.Subperm
import Cbfuse.Interleave

/-!
# What a program gets done

Three things can be said of a tree of requests that no run of it has to be
looked at for. It is bounded: within some number of requests the program
returns, unless it gets a reply that is bad news (`Prog.Completes`). It works
for what it returns: a result that counts as a success comes after a reply that
does (`Prog.Earns`). And there may be requests of which it makes one at most
(`Prog.Once`).

In a pool each of them is a statement about every interleaving. A process that
gets its turns has returned, whatever the others do (`Pool.returns_of_turns`).
The trace of a run holds a reply for every success (`Pool.earned`), and one
request at most of the kind there is one of (`Pool.once_run`) – so successes
can be counted off against each other.
-/

namespace Prog

variable {Q : Type} {R : Q → Type} {α β : Type}

/-! ## A bound on the requests -/

/-- **Within `n` requests the program returns**, unless a reply is bad. -/
def Completes (bad : (q : Q) → R q → Prop) : Prog Q R α → ℕ → Prop
  | .ret _, _ => True
  | .call q k, n => 0 < n ∧ ∀ r, ¬ bad q r → Completes bad (k r) (n - 1)
  | .crash, _ => False

variable {bad : (q : Q) → R q → Prop} {n m : ℕ}

@[simp] theorem completes_ret (a : α) : (ret a : Prog Q R α).Completes bad n := trivial

/-- One request more. -/
theorem completes_call {q : Q} {k : R q → Prog Q R α}
    (h : ∀ r, ¬ bad q r → (k r).Completes bad n) : (call q k).Completes bad (n + 1) :=
  ⟨Nat.succ_pos n, h⟩

theorem Completes.mono {p : Prog Q R α} (h : p.Completes bad n) (hnm : n ≤ m) :
    p.Completes bad m := by
  induction p generalizing n m with
  | ret a => trivial
  | call q k ih => exact ⟨Nat.lt_of_lt_of_le h.1 hnm, fun r hr => ih r (h.2 r hr) (by omega)⟩
  | crash => exact h

/-- What is to return cannot die, but of bad news. -/
theorem Completes.diesOnly {p : Prog Q R α} (h : p.Completes bad n) : p.DiesOnly bad := by
  induction p generalizing n with
  | ret a => trivial
  | call q k ih => exact fun r hr => ih r (h.2 r hr)
  | crash => exact h.elim

/-- The bounds of a sequence add up. -/
theorem completes_bind {p : Prog Q R α} {f : α → Prog Q R β} (hp : p.Completes bad n)
    (hf : ∀ a, (f a).Completes bad m) : (p >>= f).Completes bad (n + m) := by
  induction p generalizing n with
  | ret a => exact (hf a).mono (Nat.le_add_left m n)
  | call q k ih =>
    obtain ⟨hpos, hk⟩ := hp
    refine ⟨by omega, fun r hr => ?_⟩
    rw [show n + m - 1 = n - 1 + m by omega]
    exact ih r (hk r hr)
  | crash => exact hp.elim

theorem completes_map (f : α → β) {p : Prog Q R α} (hp : p.Completes bad n) :
    (f <$> p : Prog Q R β).Completes bad n := by
  rw [map_eq_pure_bind]
  exact completes_bind (m := 0) hp (fun a => trivial)

/-! ## Success and its reason -/

/-- **A success has a reason**: the program returns a result in `ok` only after
a reply in `good`. -/
def Earns (good : (q : Q) → R q → Prop) (ok : α → Prop) : Prog Q R α → Prop
  | .ret a => ¬ ok a
  | .call q k => ∀ r, ¬ good q r → Earns good ok (k r)
  | .crash => True

variable {good : (q : Q) → R q → Prop} {ok : α → Prop}

/-- A program that has no success to return needs no reason. -/
theorem earns_of_returns {p : Prog Q R α} (h : p.Returns (fun a => ¬ ok a)) :
    p.Earns good ok := by
  induction p with
  | ret a => exact h
  | call q k ih => exact fun r _ => ih r (h r)
  | crash => trivial

/-- What counts as a success may be less. -/
theorem Earns.imp_ok {ok' : α → Prop} {p : Prog Q R α} (hp : p.Earns good ok)
    (h : ∀ a, ok' a → ok a) : p.Earns good ok' := by
  induction p with
  | ret a => exact fun ha => hp (h a ha)
  | call q k ih => exact fun r hr => ih r (hp r hr)
  | crash => trivial

/-- A sequence earns its success with its first part, where a first part that
has not earned it leads to a failure. -/
theorem earns_bind {ok' : β → Prop} {p : Prog Q R β} {f : β → Prog Q R α}
    (hp : p.Earns good ok') (hf : ∀ b, ¬ ok' b → (f b).Earns good ok) :
    (p >>= f).Earns good ok := by
  induction p with
  | ret b => exact hf b hp
  | call q k ih => exact fun r hr => ih r (hp r hr)
  | crash => trivial

theorem earns_map {f : β → α} {p : Prog Q R β} (hp : p.Earns good (fun b => ok (f b))) :
    (f <$> p : Prog Q R α).Earns good ok := by
  rw [map_eq_pure_bind]
  exact earns_bind hp (fun b hb => hb)

/-! ## Requests made once -/

/-- **Of these requests the program makes one at most.** -/
def Once (rare : Q → Prop) : Prog Q R α → Prop
  | .ret _ => True
  | .call q k => (rare q → ∀ r, (k r).Only (fun q => ¬ rare q)) ∧ ∀ r, Once rare (k r)
  | .crash => True

variable {rare : Q → Prop}

theorem once_of_only {p : Prog Q R α} (h : p.Only (fun q => ¬ rare q)) : p.Once rare := by
  induction p with
  | ret a => trivial
  | call q k ih => exact ⟨fun hq => absurd hq h.1, fun r => ih r (h.2 r)⟩
  | crash => trivial

/-- Where the first part of a sequence makes none of them, the second may. -/
theorem once_bind {p : Prog Q R β} {f : β → Prog Q R α} (hp : p.Only (fun q => ¬ rare q))
    (hf : ∀ b, (f b).Once rare) : (p >>= f).Once rare := by
  induction p with
  | ret b => exact hf b
  | call q k ih => exact ⟨fun hq => absurd hq hp.1, fun r => ih r (hp.2 r)⟩
  | crash => trivial

/-- What is made of a result in the end asks for nothing. -/
theorem only_map_iff {P : Q → Prop} (f : β → α) {p : Prog Q R β} :
    (f <$> p : Prog Q R α).Only P ↔ p.Only P := by
  induction p with
  | ret b => exact Iff.rfl
  | call q k ih => exact and_congr_right (fun _ => forall_congr' (fun r => ih r))
  | crash => exact Iff.rfl

theorem once_map (f : β → α) {p : Prog Q R β} (hp : p.Once rare) :
    (f <$> p : Prog Q R α).Once rare := by
  induction p with
  | ret b => trivial
  | call q k ih => exact ⟨fun hq r => (only_map_iff f).mpr (hp.1 hq r), fun r => ih r (hp.2 r)⟩
  | crash => trivial

end Prog

namespace Pool

variable {ι Q : Type} {R : Q → Type} {α S C : Type} [DecidableEq ι]
variable {serve : C → (q : Q) → S → R q × S}

/-! ## In a pool -/

section Turns

variable {bad : (q : Q) → R q → Prop} {A : C → Prop}

/-- A turn of the process brings it closer to its end, and others do not keep
it. -/
theorem completes_run (hgood : ∀ c q s, A c → ¬ bad q (serve c q s).1)
    {sched : List (ι × C)} {x : Config ι Q R α S} {i : ι} {n : ℕ}
    (h : (x.procs i).Completes bad n) (hA : ∀ ic ∈ sched, ic.1 = i → A ic.2) :
    ((run serve sched x).procs i).Completes bad
      (n - sched.countP (fun ic => ic.1 = i)) := by
  induction sched generalizing x n with
  | nil => exact h
  | cons ic sched ih =>
    have hA' : ∀ ic' ∈ sched, ic'.1 = i → A ic'.2 :=
      fun ic' hic => hA ic' (List.mem_cons_of_mem ic hic)
    by_cases hi : ic.1 = i
    · rw [List.countP_cons_of_pos (by simpa using hi), Nat.add_comm, ← Nat.sub_sub]
      refine ih ?_ hA'
      rw [step_procs, if_pos hi.symm]
      have hAi := hA ic (List.mem_cons_self ..) hi
      rw [← hi] at h
      cases hp : x.procs ic.1 with
      | ret a => trivial
      | call q k =>
        rw [hp] at h
        exact h.2 _ (hgood ic.2 q x.store hAi)
      | crash =>
        rw [hp] at h
        exact h.elim
    · rw [List.countP_cons_of_neg (by simpa using hi)]
      refine ih ?_ hA'
      rwa [step_procs, if_neg (fun e => hi e.symm)]

/-- **A process that gets its turns returns**, whatever the others do. -/
theorem returns_of_turns (hgood : ∀ c q s, A c → ¬ bad q (serve c q s).1)
    {sched : List (ι × C)} {x : Config ι Q R α S} {i : ι} {n : ℕ}
    (h : (x.procs i).Completes bad n) (hA : ∀ ic ∈ sched, ic.1 = i → A ic.2)
    (hturns : n ≤ sched.countP (fun ic => ic.1 = i)) :
    ∃ a, (run serve sched x).returned i = some a := by
  have hend := completes_run hgood h hA
  rw [Nat.sub_eq_zero_of_le hturns] at hend
  cases hp : (run serve sched x).procs i with
  | ret a => exact ⟨a, Config.returned_eq_some.mpr hp⟩
  | call q k =>
    rw [hp] at hend
    exact absurd hend.1 (Nat.lt_irrefl 0)
  | crash =>
    rw [hp] at hend
    exact hend.elim

end Turns

section Trace

variable {good : (q : Q) → R q → Prop} {rare : Q → Prop}

/-- Every process has earned its success, or will. -/
def Config.Earns (good : (q : Q) → R q → Prop) (ok : ι → α → Prop) (x : Config ι Q R α S) :
    Prop :=
  ∀ i, (∃ e ∈ x.trace, e.who = i ∧ good e.req e.reply) ∨ (x.procs i).Earns good (ok i)

theorem Config.Earns.step {ok : ι → α → Prop} {x : Config ι Q R α S} (h : x.Earns good ok)
    (i : ι) (c : C) : (step serve i c x).Earns good ok := by
  cases hp : x.procs i with
  | ret a => rwa [step_of_not_call serve (by simp [hp])]
  | crash => rwa [step_of_not_call serve (by simp [hp])]
  | call q k =>
    intro j
    rw [step_of_call serve hp]
    dsimp only
    obtain ⟨e, he, hgood⟩ | hearns := h j
    · exact .inl ⟨e, List.mem_append_left _ he, hgood⟩
    · by_cases hj : j = i
      · subst hj
        rw [hp] at hearns
        by_cases hr : good q (serve c q x.store).1
        · exact .inl ⟨_, List.mem_append_right _ (List.mem_singleton_self _), rfl, hr⟩
        · rw [if_pos rfl]
          exact .inr (hearns _ hr)
      · rw [if_neg hj]
        exact .inr hearns

theorem Config.Earns.run {ok : ι → α → Prop} {x : Config ι Q R α S} (h : x.Earns good ok)
    (sched : List (ι × C)) : (run serve sched x).Earns good ok := by
  induction sched generalizing x with
  | nil => exact h
  | cons ic sched ih => exact ih (h.step ic.1 ic.2)

/-- **There is a reply for every success.** -/
theorem earned {ok : ι → α → Prop} {code : ι → Prog Q R α}
    (hcode : ∀ i, (code i).Earns good (ok i)) (s : S) (sched : List (ι × C)) {i : ι} {a : α}
    (h : (run serve sched (start code s)).returned i = some a) (ha : ok i a) :
    ∃ e ∈ (run serve sched (start code s)).trace, e.who = i ∧ good e.req e.reply := by
  have hstart : (start code s).Earns good ok := fun i => .inr (hcode i)
  have hrun : (run serve sched (start code s)).Earns good ok := hstart.run sched
  obtain he | hearns := hrun i
  · exact he
  · rw [Config.returned_eq_some.mp h] at hearns
    exact absurd ha hearns

/-- The processes that made a rare request are pairwise different, and make no
other. -/
def Config.Rare (rare : Q → Prop) [DecidablePred rare] (x : Config ι Q R α S) : Prop :=
  ((x.trace.filter (fun e => rare e.req)).map Event.who).Nodup
    ∧ ∀ i, (x.procs i).Once rare
      ∧ (i ∈ (x.trace.filter (fun e => rare e.req)).map Event.who →
        (x.procs i).Only (fun q => ¬ rare q))

theorem Config.Rare.step [DecidablePred rare] {x : Config ι Q R α S} (h : x.Rare rare) (i : ι)
    (c : C) : (step serve i c x).Rare rare := by
  obtain ⟨hnodup, hprocs⟩ := h
  cases hp : x.procs i with
  | ret a => rw [step_of_not_call serve (by simp [hp])]; exact ⟨hnodup, hprocs⟩
  | crash => rw [step_of_not_call serve (by simp [hp])]; exact ⟨hnodup, hprocs⟩
  | call q k =>
    obtain ⟨honce, honly⟩ := hprocs i
    rw [hp] at honce honly
    rw [step_of_call serve hp]
    unfold Config.Rare
    dsimp only
    rw [List.filter_append]
    by_cases hq : rare q
    · rw [List.filter_cons_of_pos (by simpa using hq), List.filter_nil, List.map_append,
        List.map_singleton]
      have hnew : i ∉ (x.trace.filter (fun e => rare e.req)).map Event.who :=
        fun hi => (honly hi).1 hq
      refine ⟨List.nodup_append.mpr ⟨hnodup, List.pairwise_singleton _ i, ?_⟩, fun j => ?_⟩
      · rintro j hj j' hj' rfl
        rw [List.mem_singleton.mp hj'] at hj
        exact hnew hj
      · by_cases hj : j = i
        · rw [if_pos hj]
          exact ⟨honce.2 _, fun _ => honce.1 hq _⟩
        · rw [if_neg hj]
          refine ⟨(hprocs j).1, fun hmem => (hprocs j).2 ?_⟩
          obtain hmem | hmem := List.mem_append.mp hmem
          · exact hmem
          · exact absurd (List.mem_singleton.mp hmem) hj
    · rw [List.filter_cons_of_neg (by simpa using hq), List.filter_nil, List.append_nil]
      refine ⟨hnodup, fun j => ?_⟩
      by_cases hj : j = i
      · subst hj
        rw [if_pos rfl]
        exact ⟨honce.2 _, fun hmem => (honly hmem).2 _⟩
      · rw [if_neg hj]
        exact hprocs j

/-- **A process makes one rare request at most.** -/
theorem once_run [DecidablePred rare] (sched : List (ι × C)) {x : Config ι Q R α S}
    (h : x.Rare rare) : (run serve sched x).Rare rare := by
  induction sched generalizing x with
  | nil => exact h
  | cons ic sched ih => exact ih (h.step ic.1 ic.2)

/-- **The trace holds nothing but what the processes can ask for.** -/
theorem trace_only {P : ι → Q → Prop} (sched : List (ι × C)) {x : Config ι Q R α S}
    (h : ∀ i, (x.procs i).Only (P i)) (htrace : ∀ e ∈ x.trace, P e.who e.req) :
    ∀ e ∈ (run serve sched x).trace, P e.who e.req := by
  induction sched generalizing x with
  | nil => exact htrace
  | cons ic sched ih =>
    cases hp : x.procs ic.1 with
    | ret a =>
      rw [run_cons, step_of_not_call serve (by simp [hp])]
      exact ih h htrace
    | crash =>
      rw [run_cons, step_of_not_call serve (by simp [hp])]
      exact ih h htrace
    | call q k =>
      have hi := h ic.1
      rw [hp] at hi
      rw [run_cons, step_of_call serve hp]
      refine ih (fun j => ?_) (fun e he => ?_)
      · dsimp only
        split
        · next hj => exact hj ▸ hi.2 _
        · exact h j
      · obtain he | he := List.mem_append.mp he
        · exact htrace e he
        · rw [List.mem_singleton.mp he]
          exact hi.1

omit [DecidableEq ι] in
/-- Different processes have different events. -/
theorem length_le_countP {l : List ι} {P : Event ι Q R → Prop} [DecidablePred P]
    {tr : List (Event ι Q R)} (hl : l.Nodup) (h : ∀ i ∈ l, ∃ e ∈ tr, e.who = i ∧ P e) :
    l.length ≤ tr.countP P := by
  have hsub : l ⊆ (tr.filter P).map Event.who := by
    intro i hi
    obtain ⟨e, he, rfl, hP⟩ := h i hi
    exact List.mem_map.mpr ⟨e, List.mem_filter.mpr ⟨he, by simpa using hP⟩, rfl⟩
  have hle := (hl.subperm hsub).length_le
  rwa [List.length_map, ← List.countP_eq_length_filter] at hle

end Trace

end Pool

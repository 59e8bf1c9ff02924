import Cbfuse.Machine
import Cbfuse.Prog

/-!
# Interleaved programs

Several programs share one server. A **schedule** says whose request is
served next and under which choice, so the runs of a pool are its
schedules and a statement about every interleaving is a statement about
every list. A process that is never scheduled again has crashed; one that
is scheduled late has started late; a client that makes one call after
another is the schedules in which the second call waits for the first.

The configuration keeps the requests served so far with their replies.
The trace is what a statement about a run can refer to – which call read
what, and who stored in between – and it decides where every process
stands, since a process sees nothing but its own replies.

## Protocols

To reason about a pool one does not want to look at the programs, only at
what they may ask for next. A `Protocol` is an automaton over requests:
what may be asked in a phase, the phase a reply leads to, and what may be
returned. `Protocol.Follows` says a program keeps to it, which is checked
once per program, by unfolding. `Pool.run_invariant` then proves an
invariant of all interleavings from one step of one process in one phase,
and `Pool.run_decides` tells the runs that keep it from those that lose it
for good.
-/

namespace Pool

variable {ι Q : Type} {R : Q → Type} {α γ S C : Type}

/-- One request of one process, with the reply it got. -/
structure Event (ι Q : Type) (R : Q → Type) where
  /-- The process. -/
  who : ι
  /-- Its request. -/
  req : Q
  /-- The reply. -/
  reply : R req

/-- **A configuration of the pool**: what is left of every process, the
state of the server, and the requests served so far, oldest first. -/
structure Config (ι Q : Type) (R : Q → Type) (α S : Type) where
  /-- What is left of every process. -/
  procs : ι → Prog Q R α
  /-- The state of the server. -/
  store : S
  /-- The requests served so far. -/
  trace : List (Event ι Q R)

/-- The configuration in which no process has made a request. -/
def start (code : ι → Prog Q R α) (s : S) : Config ι Q R α S := ⟨code, s, []⟩

/-- What a process returned, if it has. -/
def Config.returned (x : Config ι Q R α S) (i : ι) : Option α :=
  match x.procs i with
  | .ret a => some a
  | _ => none

theorem Config.returned_eq_some {x : Config ι Q R α S} {i : ι} {a : α} :
    x.returned i = some a ↔ x.procs i = .ret a := by
  unfold returned
  cases x.procs i with
  | ret b => simp
  | call q k => simp
  | crash => simp

variable [DecidableEq ι] (serve : C → (q : Q) → S → R q × S)

/-- The request of process `i` is served under the choice `c`. A process
that has returned or died makes none. -/
def step (i : ι) (c : C) (x : Config ι Q R α S) : Config ι Q R α S :=
  match x.procs i with
  | .call q k =>
    { procs := fun j => if j = i then k (serve c q x.store).1 else x.procs j
      store := (serve c q x.store).2
      trace := x.trace ++ [⟨i, q, (serve c q x.store).1⟩] }
  | _ => x

/-- **A run of the pool** under a schedule. -/
def run (sched : List (ι × C)) (x : Config ι Q R α S) : Config ι Q R α S :=
  sched.foldl (fun x ic => step serve ic.1 ic.2 x) x

@[simp] theorem run_nil (x : Config ι Q R α S) : run serve [] x = x := rfl

@[simp] theorem run_cons (ic : ι × C) (sched : List (ι × C)) (x : Config ι Q R α S) :
    run serve (ic :: sched) x = run serve sched (step serve ic.1 ic.2 x) := rfl

theorem run_append (sched sched' : List (ι × C)) (x : Config ι Q R α S) :
    run serve (sched ++ sched') x = run serve sched' (run serve sched x) :=
  List.foldl_append ..

theorem step_of_call {i : ι} {c : C} {x : Config ι Q R α S} {q : Q}
    {k : R q → Prog Q R α} (h : x.procs i = .call q k) :
    step serve i c x =
      { procs := fun j => if j = i then k (serve c q x.store).1 else x.procs j
        store := (serve c q x.store).2
        trace := x.trace ++ [⟨i, q, (serve c q x.store).1⟩] } := by
  unfold step
  rw [h]

theorem step_of_not_call {i : ι} {c : C} {x : Config ι Q R α S}
    (h : ∀ q k, x.procs i ≠ .call q k) : step serve i c x = x := by
  unfold step
  cases hp : x.procs i with
  | ret a => rfl
  | call q k => exact absurd hp (h q k)
  | crash => rfl

/-- **A step of the pool is a step of one program.** -/
theorem step_procs (i j : ι) (c : C) (x : Config ι Q R α S) :
    (step serve i c x).procs j
      = if j = i then (Prog.step serve c (x.procs i, x.store)).1 else x.procs j := by
  by_cases hji : j = i
  · subst hji
    unfold step
    cases hp : x.procs j <;> simp [Prog.step, hp]
  · unfold step
    cases x.procs i <;> simp [hji]

theorem step_store (i : ι) (c : C) (x : Config ι Q R α S) :
    (step serve i c x).store = (Prog.step serve c (x.procs i, x.store)).2 := by
  unfold step
  cases x.procs i <;> rfl

/-- Processes that make only some requests make no others later. -/
theorem only_step {P : Q → Prop} {x : Config ι Q R α S} (h : ∀ i, (x.procs i).Only P) (i : ι)
    (c : C) (j : ι) : ((step serve i c x).procs j).Only P := by
  rw [step_procs]
  split
  · have hi := h i
    cases hp : x.procs i with
    | ret a => trivial
    | call q k =>
      rw [hp] at hi
      exact hi.2 _
    | crash => trivial
  · exact h j

theorem only_run {P : Q → Prop} (sched : List (ι × C)) {x : Config ι Q R α S}
    (h : ∀ i, (x.procs i).Only P) (j : ι) : ((run serve sched x).procs j).Only P := by
  induction sched generalizing x with
  | nil => exact h j
  | cons ic sched ih => exact ih (only_step serve h ic.1 ic.2)

/-- **The frame rule for pools**: if every request the processes can make
relates the store before to the store after, so does every run. -/
theorem run_of_only {P : Q → Prop} {T : S → S → Prop} (hrefl : ∀ s, T s s)
    (htrans : ∀ s s' s'', T s s' → T s' s'' → T s s'')
    (hserve : ∀ c q s, P q → T s (serve c q s).2) (sched : List (ι × C))
    {x : Config ι Q R α S} (h : ∀ i, (x.procs i).Only P) :
    T x.store (run serve sched x).store := by
  induction sched generalizing x with
  | nil => exact hrefl _
  | cons ic sched ih =>
    refine htrans _ _ _ ?_ (ih (only_step serve h ic.1 ic.2))
    rw [step_store]
    have hi := h ic.1
    cases hp : x.procs ic.1 with
    | ret a => exact hrefl _
    | call q k =>
      rw [hp] at hi
      exact hserve _ q _ hi.1
    | crash => exact hrefl _

/-- What has returned stays returned. -/
theorem returned_step {i j : ι} {c : C} {x : Config ι Q R α S} {a : α}
    (h : x.returned j = some a) : (step serve i c x).returned j = some a := by
  rw [Config.returned_eq_some] at h ⊢
  cases hp : x.procs i with
  | ret b => rwa [step_of_not_call serve (by simp [hp])]
  | call q k =>
    rw [step_of_call serve hp]
    have hji : j ≠ i := fun e => by rw [e, hp] at h; cases h
    exact (if_neg hji).trans h
  | crash => rwa [step_of_not_call serve (by simp [hp])]

/-- A step is the step of one process. -/
theorem returned_step_of_ne {i j : ι} (hj : j ≠ i) (c : C) (x : Config ι Q R α S) :
    (step serve i c x).returned j = x.returned j := by
  have hprocs : (step serve i c x).procs j = x.procs j := by
    unfold step
    split
    · exact if_neg hj
    · rfl
  unfold Config.returned
  rw [hprocs]

/-- What has returned at some point has returned at the end. -/
theorem returned_run {j : ι} {a : α} (sched : List (ι × C)) {x : Config ι Q R α S}
    (h : x.returned j = some a) : (run serve sched x).returned j = some a := by
  induction sched generalizing x with
  | nil => exact h
  | cons ic sched ih => exact ih (returned_step serve h)

/-- **The processes take turns** in this order, all under one choice. -/
def turns (c : C) (order : List ι) : List (ι × C) := order.map (fun i => (i, c))

omit [DecidableEq ι] in
theorem forall_turns {A : C → Prop} {c : C} (hc : A c) (order : List ι) :
    ∀ ic ∈ turns c order, A ic.2 := by
  intro ic hic
  obtain ⟨i, -, rfl⟩ := List.mem_map.mp hic
  exact hc

/-! ## Conditions on the steps of a run

A condition on a step sees the trace and the state of the server before
it, the request about to be served, and what becomes of it. -/

/-- Every step of the run meets the condition. -/
def Meets (cond : List (Event ι Q R) → S → ι → C → Q → Prop) :
    List (ι × C) → Config ι Q R α S → Prop
  | [], _ => True
  | ic :: sched, x =>
    (∀ q k, x.procs ic.1 = .call q k → cond x.trace x.store ic.1 ic.2 q)
      ∧ Meets cond sched (step serve ic.1 ic.2 x)

/-- A run can be checked step by step. -/
instance decidableMeets {cond : List (Event ι Q R) → S → ι → C → Q → Prop}
    [∀ tr s i c q, Decidable (cond tr s i c q)] :
    ∀ (sched : List (ι × C)) (x : Config ι Q R α S), Decidable (Meets serve cond sched x)
  | [], _ => isTrue trivial
  | ic :: sched, x =>
    have : Decidable (Meets serve cond sched (step serve ic.1 ic.2 x)) := decidableMeets sched _
    match hp : x.procs ic.1 with
    | .call q k =>
      decidable_of_iff
        (cond x.trace x.store ic.1 ic.2 q ∧ Meets serve cond sched (step serve ic.1 ic.2 x))
        (and_congr_left fun _ => ⟨fun h q' k' hq => by rw [hp] at hq; cases hq; exact h,
          fun h => h q k hp⟩)
    | .ret _ =>
      decidable_of_iff (Meets serve cond sched (step serve ic.1 ic.2 x))
        (Iff.symm (and_iff_right fun q k hq => by rw [hp] at hq; cases hq))
    | .crash =>
      decidable_of_iff (Meets serve cond sched (step serve ic.1 ic.2 x))
        (Iff.symm (and_iff_right fun q k hq => by rw [hp] at hq; cases hq))

/-- A pool is a machine whose inputs are the turns of a schedule. -/
theorem machine_meets {cond : List (Event ι Q R) → S → ι → C → Q → Prop}
    (sched : List (ι × C)) (x : Config ι Q R α S) :
    Machine.Meets (fun ic x => step serve ic.1 ic.2 x)
        (fun ic x => ∀ q k, x.procs ic.1 = .call q k → cond x.trace x.store ic.1 ic.2 q) sched x
      ↔ Meets serve cond sched x := by
  induction sched generalizing x with
  | nil => exact Iff.rfl
  | cons ic sched ih => exact and_congr_right (fun _ => ih _)

/-! ## Protocols -/

end Pool

/-- **A protocol**: an automaton over requests. -/
structure Protocol (Q : Type) (R : Q → Type) (α γ : Type) where
  /-- The phase before any request. -/
  start : γ
  /-- The requests a phase allows. -/
  allow : γ → Q → Prop
  /-- The phase a reply leads to. -/
  next : γ → (q : Q) → R q → γ
  /-- What may be returned in a phase. -/
  final : γ → α → Prop

namespace Protocol

variable {ι Q : Type} {R : Q → Type} {α γ : Type} (P : Protocol Q R α γ)

/-- **A program keeps to the protocol** from a phase on, whatever is
replied. A process may die in any phase. -/
def Follows : γ → Prog Q R α → Prop
  | g, .ret a => P.final g a
  | g, .call q k => P.allow g q ∧ ∀ r, Follows (P.next g q r) (k r)
  | _, .crash => True

@[simp] theorem follows_ret (g : γ) (a : α) :
    P.Follows g (.ret a : Prog Q R α) ↔ P.final g a := Iff.rfl

@[simp] theorem follows_call (g : γ) (q : Q) (k : R q → Prog Q R α) :
    P.Follows g (.call q k) ↔ P.allow g q ∧ ∀ r, P.Follows (P.next g q r) (k r) := Iff.rfl

@[simp] theorem follows_crash (g : γ) : P.Follows g (.crash : Prog Q R α) := trivial

/-- The protocol of the first part of a sequence: the one of the whole, with
the second part still to be followed wherever the first may return. -/
def before {β : Type} (f : β → Prog Q R α) : Protocol Q R β γ where
  start := P.start
  allow := P.allow
  next := P.next
  final g b := P.Follows g (f b)

@[simp] theorem next_before {β : Type} (f : β → Prog Q R α) : (P.before f).next = P.next := rfl

/-- **A sequence keeps to the protocol** if its first part does, leaving it
in phases from which the second does. -/
theorem follows_bind {β : Type} {p : Prog Q R β} {f : β → Prog Q R α} {g : γ}
    (h : (P.before f).Follows g p) : P.Follows g (p >>= f) := by
  induction p generalizing g with
  | ret b => exact h
  | call q k ih => exact ⟨h.1, fun r => ih r (h.2 r)⟩
  | crash => trivial

/-- A program that makes only requests a phase allows and does not leave
keeps to the protocol. -/
theorem follows_of_only {A : Q → Prop} {g : γ} (hallow : ∀ q, A q → P.allow g q)
    (hnext : ∀ q r, A q → P.next g q r = g) (hfinal : ∀ a, P.final g a) {p : Prog Q R α}
    (h : p.Only A) : P.Follows g p := by
  induction p with
  | ret a => exact hfinal a
  | call q k ih =>
    refine ⟨hallow q h.1, fun r => ?_⟩
    rw [hnext q r h.1]
    exact ih r (h.2 r)
  | crash => trivial

variable [DecidableEq ι]

/-- **The phase of a process**, read off the trace: its own requests, in
order, and nothing else. -/
def phase (i : ι) (tr : List (Pool.Event ι Q R)) : γ :=
  tr.foldl (fun g e => if e.who = i then P.next g e.req e.reply else g) P.start

@[simp] theorem phase_nil (i : ι) : P.phase i ([] : List (Pool.Event ι Q R)) = P.start := rfl

/-- One more event moves its own process and no other. -/
theorem phase_append (i : ι) (tr : List (Pool.Event ι Q R)) (e : Pool.Event ι Q R) :
    P.phase i (tr ++ [e])
      = if e.who = i then P.next (P.phase i tr) e.req e.reply else P.phase i tr := by
  unfold phase
  rw [List.foldl_append]
  rfl

/-- The phases of all processes, after one more event. -/
theorem phases_append (prot : ι → Protocol Q R α γ) (tr : List (Pool.Event ι Q R))
    (e : Pool.Event ι Q R) :
    (fun i => (prot i).phase i (tr ++ [e]))
      = Function.update (fun i => (prot i).phase i tr) e.who
          ((prot e.who).next ((prot e.who).phase e.who tr) e.req e.reply) := by
  funext i
  rw [phase_append, Function.update_apply]
  by_cases hi : e.who = i
  · subst hi
    rw [if_pos rfl]
  · rw [if_neg hi, if_neg (fun h => hi h.symm)]

end Protocol

namespace Pool

variable {ι Q : Type} {R : Q → Type} {α γ S C : Type} [DecidableEq ι]
variable {serve : C → (q : Q) → S → R q × S} {prot : ι → Protocol Q R α γ}

/-- Every process of the configuration keeps to its protocol from the
phase its own trace has brought it to. -/
def Config.Conforms (prot : ι → Protocol Q R α γ) (x : Config ι Q R α S) : Prop :=
  ∀ i, (prot i).Follows ((prot i).phase i x.trace) (x.procs i)

theorem Config.Conforms.step {x : Config ι Q R α S} (h : x.Conforms prot) (i : ι) (c : C) :
    (step serve i c x).Conforms prot := by
  cases hp : x.procs i with
  | ret a => rwa [step_of_not_call serve (by simp [hp])]
  | call q k =>
    intro j
    have hj := h j
    rw [step_of_call serve hp]
    dsimp only
    rw [Protocol.phase_append]
    by_cases hji : j = i
    · subst hji
      rw [hp] at hj
      rw [if_pos rfl, if_pos rfl]
      exact hj.2 _
    · rw [if_neg hji, if_neg (fun e => hji e.symm)]
      exact hj
  | crash => rwa [step_of_not_call serve (by simp [hp])]

theorem Config.Conforms.run {x : Config ι Q R α S} (h : x.Conforms prot)
    (serve : C → (q : Q) → S → R q × S) (sched : List (ι × C)) :
    (run serve sched x).Conforms prot := by
  induction sched generalizing x with
  | nil => exact h
  | cons ic sched ih => exact ih (h.step ic.1 ic.2)

/-- A process in a phase that its protocol does not leave is in it for
good. -/
theorem follows_run {P : Protocol Q R α γ} {g : γ} (hstay : ∀ q r, P.allow g q → P.next g q r = g)
    (serve : C → (q : Q) → S → R q × S) (sched : List (ι × C)) {x : Config ι Q R α S} {i : ι}
    (h : P.Follows g (x.procs i)) : P.Follows g ((run serve sched x).procs i) := by
  induction sched generalizing x with
  | nil => exact h
  | cons ic sched ih =>
    refine ih ?_
    rw [step_procs]
    split
    · next hi =>
      subst hi
      cases hp : x.procs ic.1 with
      | ret a => rwa [hp] at h
      | call q k =>
        rw [hp] at h
        have hk := h.2 (serve ic.2 q x.store).1
        rwa [hstay q _ h.1] at hk
      | crash => trivial
    · exact h

/-- **The invariant rule for pools.** If every program keeps to its
protocol, and a request that its protocol allows, served under a choice in
`A` where the step meets `cond`, preserves `J`, then `J` holds after every
schedule whose steps meet `cond`. -/
theorem run_invariant {A : C → Prop} {cond : List (Event ι Q R) → S → ι → C → Q → Prop}
    {J : List (Event ι Q R) → S → Prop}
    (hstep : ∀ tr s i q c, A c → cond tr s i c q →
      (prot i).allow ((prot i).phase i tr) q → J tr s →
      J (tr ++ [⟨i, q, (serve c q s).1⟩]) (serve c q s).2)
    {sched : List (ι × C)} {x : Config ι Q R α S} (hA : ∀ ic ∈ sched, A ic.2)
    (hcond : Meets serve cond sched x) (hx : x.Conforms prot) (hJ : J x.trace x.store) :
    (run serve sched x).Conforms prot
      ∧ J (run serve sched x).trace (run serve sched x).store := by
  induction sched generalizing x with
  | nil => exact ⟨hx, hJ⟩
  | cons ic sched ih =>
    have hA' : ∀ ic' ∈ sched, A ic'.2 := fun ic' h => hA ic' (List.mem_cons_of_mem ic h)
    have hJ' : J (step serve ic.1 ic.2 x).trace (step serve ic.1 ic.2 x).store := by
      cases hp : x.procs ic.1 with
      | ret a => rwa [step_of_not_call serve (by simp [hp])]
      | call q k =>
        have hi := hx ic.1
        rw [hp] at hi
        rw [step_of_call serve hp]
        exact hstep _ _ _ _ _ (hA ic (List.mem_cons_self ..)) (hcond.1 q k hp) hi.1 hJ
      | crash => rwa [step_of_not_call serve (by simp [hp])]
    exact ih hA' hcond.2 (hx.step ic.1 ic.2) hJ'

/-- Every step meets a condition that asks nothing. -/
theorem meets_true (sched : List (ι × C)) (x : Config ι Q R α S) :
    Meets serve (fun _ _ _ _ _ => True) sched x := by
  induction sched generalizing x with
  | nil => trivial
  | cons ic sched ih => exact ⟨fun _ _ _ => trivial, ih _⟩

/-- Every request of a trace was allowed in the phase its process was in. -/
def Allowed (prot : ι → Protocol Q R α γ) (tr : List (Event ι Q R)) : Prop :=
  ∀ before e after, tr = before ++ e :: after →
    (prot e.who).allow ((prot e.who).phase e.who before) e.req

theorem Allowed.append {tr : List (Event ι Q R)} (h : Allowed prot tr) {e : Event ι Q R}
    (he : (prot e.who).allow ((prot e.who).phase e.who tr) e.req) :
    Allowed prot (tr ++ [e]) := by
  intro before e' after heq
  obtain rfl | ⟨after', last, rfl⟩ := List.eq_nil_or_concat after
  · obtain ⟨rfl, hlast⟩ := List.append_inj' heq rfl
    cases hlast
    exact he
  · have hsplit : tr ++ [e] = (before ++ e' :: after') ++ [last] := by rw [heq]; simp
    exact h before e' after' (List.append_inj' hsplit rfl).1

/-- **Programs that keep to their protocols keep to them in every run**: what
they ask for is allowed when they ask for it, and what they return when they
return it. -/
theorem run_conforms {code : ι → Prog Q R α} (h : ∀ i, (prot i).Follows (prot i).start (code i))
    (s : S) (sched : List (ι × C)) :
    Allowed prot (run serve sched (start code s)).trace
      ∧ ∀ i a, (run serve sched (start code s)).returned i = some a →
        (prot i).final ((prot i).phase i (run serve sched (start code s)).trace) a := by
  have hstart : (start code s).Conforms prot := h
  have hnone : Allowed prot (start code s).trace :=
    fun before e after h =>
      absurd h.symm (List.append_ne_nil_of_right_ne_nil before (List.cons_ne_nil e after))
  obtain ⟨hconf, hallowed⟩ := @run_invariant _ _ _ _ _ _ _ _ serve prot (fun _ => True)
    (fun _ _ _ _ _ => True) (fun tr _ => Allowed prot tr)
    (fun tr s i q c _ _ hq htr => htr.append hq) sched (start code s) (fun _ _ => trivial)
    (meets_true sched (start code s)) hstart hnone
  refine ⟨hallowed, fun i a ha => ?_⟩
  have hi := hconf i
  rw [Config.returned_eq_some.mp ha] at hi
  exact hi

/-- **The first step that does not meet the condition decides.** If a step
that meets it preserves `J`, one that does not leads from `J` to `B`, and
from `B` there is no way back, then a run ends in `J` or in `B` according to
whether all its steps meet the condition. -/
theorem run_decides {A : C → Prop} {cond : List (Event ι Q R) → S → ι → C → Q → Prop}
    {J B : List (Event ι Q R) → S → Prop}
    (hkeep : ∀ tr s i q c, A c → (prot i).allow ((prot i).phase i tr) q → cond tr s i c q →
      J tr s → J (tr ++ [⟨i, q, (serve c q s).1⟩]) (serve c q s).2)
    (hbreak : ∀ tr s i q c, A c → (prot i).allow ((prot i).phase i tr) q → ¬ cond tr s i c q →
      J tr s → B (tr ++ [⟨i, q, (serve c q s).1⟩]) (serve c q s).2)
    (hstay : ∀ tr s i q c, A c → (prot i).allow ((prot i).phase i tr) q →
      B tr s → B (tr ++ [⟨i, q, (serve c q s).1⟩]) (serve c q s).2)
    {sched : List (ι × C)} {x : Config ι Q R α S} (hA : ∀ ic ∈ sched, A ic.2)
    (hx : x.Conforms prot) (hJ : J x.trace x.store) :
    (Meets serve cond sched x ∧ J (run serve sched x).trace (run serve sched x).store)
      ∨ (¬ Meets serve cond sched x ∧ B (run serve sched x).trace (run serve sched x).store) := by
  induction sched generalizing x with
  | nil => exact .inl ⟨trivial, hJ⟩
  | cons ic sched ih =>
    have hc : A ic.2 := hA ic (List.mem_cons_self ..)
    have hA' : ∀ ic' ∈ sched, A ic'.2 := fun ic' h => hA ic' (List.mem_cons_of_mem ic h)
    have hx' : (step serve ic.1 ic.2 x).Conforms prot := hx.step ic.1 ic.2
    -- a step that meets the condition leaves the rest of the run to decide
    have hgood : (∀ q k, x.procs ic.1 = .call q k → cond x.trace x.store ic.1 ic.2 q) →
        J (step serve ic.1 ic.2 x).trace (step serve ic.1 ic.2 x).store →
        (Meets serve cond (ic :: sched) x
            ∧ J (run serve (ic :: sched) x).trace (run serve (ic :: sched) x).store)
          ∨ (¬ Meets serve cond (ic :: sched) x
            ∧ B (run serve (ic :: sched) x).trace (run serve (ic :: sched) x).store) := by
      intro hcond hJ'
      obtain ⟨hm, hend⟩ | ⟨hm, hend⟩ := ih hA' hx' hJ'
      · exact .inl ⟨⟨hcond, hm⟩, hend⟩
      · exact .inr ⟨fun h => hm h.2, hend⟩
    cases hp : x.procs ic.1 with
    | call q k =>
      have hi := hx ic.1
      rw [hp] at hi
      by_cases hq : cond x.trace x.store ic.1 ic.2 q
      · refine hgood (fun q' k' hq' => ?_) ?_
        · cases hp.symm.trans hq'
          exact hq
        · rw [step_of_call serve hp]
          exact hkeep _ _ _ _ _ hc hi.1 hq hJ
      · refine .inr ⟨fun h => hq (h.1 q k hp), ?_⟩
        have hB : B (step serve ic.1 ic.2 x).trace (step serve ic.1 ic.2 x).store := by
          rw [step_of_call serve hp]
          exact hbreak _ _ _ _ _ hc hi.1 hq hJ
        exact (run_invariant (fun tr s i q c hc _ ha h => hstay tr s i q c hc ha h) hA'
          (meets_true sched _) hx' hB).2
    | _ =>
      have hsame : step serve ic.1 ic.2 x = x := step_of_not_call serve (by simp [hp])
      exact hgood (fun q k hq => by rw [hp] at hq; cases hq) (by rwa [hsame])

end Pool

/-! ## Replies that decide

A program that gives up at the first failing reply returns what it makes of
it. Among others it does so at a moment of the run, and what is asked of the
result is a question about that moment. -/

/-- **The program ends at the first reply that has a verdict**, and returns
it. Short of that it does not return `bad`. -/
def Prog.Decides {Q : Type} {R : Q → Type} {α β : Type} (verdict : (q : Q) → R q → Option β)
    (code : α → β) (bad : β) : Prog Q R α → Prop
  | .ret a => code a ≠ bad
  | .call q k => ∀ r, match verdict q r with
      | some b => ∃ a, k r = .ret a ∧ code a = b
      | none => Decides verdict code bad (k r)
  | .crash => True

namespace Prog

variable {Q : Type} {R : Q → Type} {α β γ : Type} {verdict : (q : Q) → R q → Option β}
  {code : α → β} {g : γ → β} {bad : β}

/-- **A sequence ends at the first reply that has a verdict** if its second
part only passes the verdict on. -/
theorem decides_bind {p : Prog Q R γ} {f : γ → Prog Q R α} (hp : p.Decides verdict g bad)
    (hpass : ∀ q r b c, verdict q r = some b → g c = b → ∃ a, f c = .ret a ∧ code a = b)
    (hrest : ∀ c, g c ≠ bad → (f c).Decides verdict code bad) :
    (p >>= f).Decides verdict code bad := by
  induction p with
  | ret c => exact hrest c hp
  | call q k ih =>
    intro r
    have hr := hp r
    cases hv : verdict q r with
    | none =>
      rw [hv] at hr
      exact ih r hr
    | some b =>
      rw [hv] at hr
      obtain ⟨c, hk, hc⟩ := hr
      obtain ⟨a, hf, ha⟩ := hpass q r b c hv hc
      refine ⟨a, ?_, ha⟩
      show k r >>= f = .ret a
      rw [hk]
      exact hf
  | crash => trivial

/-- A program whose requests have no verdicts. -/
theorem decides_of_only {P : Q → Prop} (hnone : ∀ q r, P q → verdict q r = none)
    {p : Prog Q R α} (hp : p.Only P) (hret : p.Returns (fun a => code a ≠ bad)) :
    p.Decides verdict code bad := by
  induction p with
  | ret a => exact hret
  | call q k ih =>
    intro r
    rw [hnone q r hp.1]
    exact ih r (hp.2 r) (hret r)
  | crash => trivial

end Prog

namespace Pool

variable {ι Q : Type} {R : Q → Type} {β S C : Type} [DecidableEq ι]
  {serve : C → (q : Q) → S → R q × S}

variable (serve) in
/-- Some step of the run is of this kind. -/
def Occurs {α : Type} (kind : S → ι → C → Q → Prop) :
    List (ι × C) → Config ι Q R α S → Prop
  | [], _ => False
  | ic :: sched, x =>
    (∃ q k, x.procs ic.1 = .call q k ∧ kind x.store ic.1 ic.2 q)
      ∨ Occurs kind sched (step serve ic.1 ic.2 x)

/-- A process that has returned takes no more steps. -/
theorem meets_of_ret {α : Type} {i : ι} {cond : S → C → Q → Prop} {a : α}
    (sched : List (ι × C)) {x : Config ι Q R α S} (h : x.procs i = .ret a) :
    Meets serve (fun _ s j c q => j = i → cond s c q) sched x := by
  induction sched generalizing x with
  | nil => trivial
  | cons ic sched ih =>
    refine ⟨fun q k hq hi => ?_, ih ?_⟩
    · rw [hi, h] at hq
      cases hq
    · exact Config.returned_eq_some.mp (returned_step serve (Config.returned_eq_some.mpr h))

theorem not_occurs_of_ret {α : Type} {i : ι} {kind : S → Q → Prop} {a : α}
    (sched : List (ι × C)) {x : Config ι Q R α S} (h : x.procs i = .ret a) :
    ¬ Occurs serve (fun s j _ q => j = i ∧ kind s q) sched x := by
  induction sched generalizing x with
  | nil => exact id
  | cons ic sched ih =>
    rintro (⟨q, k, hq, hi, -⟩ | hrest)
    · rw [hi, h] at hq
      cases hq
    · exact ih (Config.returned_eq_some.mp
        (returned_step serve (Config.returned_eq_some.mpr h))) hrest

/-- No step is of this kind. -/
theorem not_occurs_iff {α : Type} {kind : S → ι → C → Q → Prop} (sched : List (ι × C))
    (x : Config ι Q R α S) :
    ¬ Occurs serve kind sched x ↔ Meets serve (fun _ s j c q => ¬ kind s j c q) sched x := by
  induction sched generalizing x with
  | nil => exact iff_of_true id trivial
  | cons ic sched ih =>
    refine not_or.trans (and_congr ?_ (ih _))
    exact ⟨fun h q k hq hkind => h ⟨q, k, hq, hkind⟩, fun h ⟨q, k, hq, hkind⟩ => h q k hq hkind⟩

/-- A step that neither is of the kind nor asked about leaves the question to
the rest of the run. -/
theorem occurs_cons {α : Type} {kind : S → ι → C → Q → Prop} {ic : ι × C}
    {sched : List (ι × C)} {x : Config ι Q R α S}
    (h : ∀ q k, x.procs ic.1 = .call q k → ¬ kind x.store ic.1 ic.2 q) :
    Occurs serve kind (ic :: sched) x ↔ Occurs serve kind sched (step serve ic.1 ic.2 x) := by
  refine or_iff_right ?_
  rintro ⟨q, k, hq, hkind⟩
  exact h q k hq hkind

section Verdicts

variable {i : ι} {verdict : (q : Q) → R q → Option β} {bad : β} {reason : S → Q → Prop}

/-- **The step that decides.** A process that is at the reply with its verdict
returns it, and takes no more steps: the result is true exactly if this step
found the reason, where it needs one. -/
theorem returned_true_iff_of_verdict {c : C} {sched : List (ι × C)} {x : Config ι Q R β S} {q : Q}
    {k : R q → Prog Q R β} {b : β} (hp : x.procs i = .call q k)
    (hv : verdict q (serve c q x.store).1 = some b) (hk : k (serve c q x.store).1 = .ret b) :
    ((run serve ((i, c) :: sched) x).returned i = some bad →
        Occurs serve (fun s j _ q => j = i ∧ reason s q) ((i, c) :: sched) x)
      ↔ Meets serve (fun _ s j c q => j = i → verdict q (serve c q s).1 = some bad → reason s q)
          ((i, c) :: sched) x := by
  have hret : (step serve i c x).procs i = .ret b := by
    rw [step_of_call serve hp]
    exact (if_pos rfl).trans hk
  have hend : (run serve ((i, c) :: sched) x).returned i = some b :=
    returned_run serve sched (Config.returned_eq_some.mpr hret)
  have htail : Meets serve (fun _ s j c q => j = i → verdict q (serve c q s).1 = some bad →
      reason s q) sched (step serve i c x) := meets_of_ret sched hret
  by_cases hb : b = bad
  · subst hb
    refine ⟨fun h => ⟨fun q' k' hq' _ _ => ?_, htail⟩, fun h _ => .inl ⟨q, k, hp, rfl, ?_⟩⟩
    · cases hp.symm.trans hq'
      obtain ⟨q', k', hq', -, hre⟩ | hrest := h hend
      · cases hp.symm.trans hq'
        exact hre
      · exact absurd hrest (not_occurs_of_ret sched hret)
    · exact h.1 q k hp rfl hv
  · refine iff_of_true (fun h => ?_) ⟨fun q' k' hq' _ hv' => ?_, htail⟩
    · exact absurd (Option.some.inj (hend.symm.trans h)) hb
    · cases hp.symm.trans hq'
      exact absurd (Option.some.inj (hv.symm.trans hv')) hb

/-- A step that settles nothing leaves the question to the rest of the run. -/
theorem returned_true_iff_cons {ic : ι × C} {sched : List (ι × C)} {x : Config ι Q R β S}
    (hstep : ∀ q k, x.procs ic.1 = .call q k → ic.1 = i → ¬ reason x.store q
      ∧ verdict q (serve ic.2 q x.store).1 ≠ some bad)
    (hrest : ((run serve sched (step serve ic.1 ic.2 x)).returned i = some bad →
        Occurs serve (fun s j _ q => j = i ∧ reason s q) sched (step serve ic.1 ic.2 x))
      ↔ Meets serve (fun _ s j c q => j = i → verdict q (serve c q s).1 = some bad → reason s q)
          sched (step serve ic.1 ic.2 x)) :
    ((run serve (ic :: sched) x).returned i = some bad →
        Occurs serve (fun s j _ q => j = i ∧ reason s q) (ic :: sched) x)
      ↔ Meets serve (fun _ s j c q => j = i → verdict q (serve c q s).1 = some bad → reason s q)
          (ic :: sched) x := by
  rw [occurs_cons (fun q k hq hkind => (hstep q k hq hkind.1).1 hkind.2)]
  refine hrest.trans (and_iff_right (fun q k hq hj hv => ?_)).symm
  exact absurd hv (hstep q k hq hj).2

/-- **When a result is true.** Let a process end at the first reply that has a
verdict, and let every step that finds the reason for `bad` have one. Then the
process returns `bad` only where some step of it found the reason – exactly if
every step whose verdict is `bad` did. -/
theorem returned_true_iff
    (hreason : ∀ s c q, reason s q → verdict q (serve c q s).1 ≠ none)
    (sched : List (ι × C)) {x : Config ι Q R β S}
    (hi : (x.procs i).Decides verdict id bad) :
    ((run serve sched x).returned i = some bad →
        Occurs serve (fun s j _ q => j = i ∧ reason s q) sched x)
      ↔ Meets serve (fun _ s j c q => j = i → verdict q (serve c q s).1 = some bad → reason s q)
          sched x := by
  induction sched generalizing x with
  | nil =>
    refine iff_of_true (fun h => ?_) trivial
    rw [run_nil, Config.returned_eq_some] at h
    rw [h] at hi
    exact absurd rfl hi
  | cons ic sched ih =>
    obtain ⟨j, c⟩ := ic
    by_cases hj : j = i
    · subst hj
      cases hp : x.procs j with
      | call q k =>
        have hr := hi
        rw [hp] at hr
        have hr := hr (serve c q x.store).1
        cases hv : verdict q (serve c q x.store).1 with
        | none =>
          rw [hv] at hr
          refine returned_true_iff_cons (fun q' k' hq' _ => ?_) (ih ?_)
          · cases hp.symm.trans hq'
            exact ⟨fun hre => hreason _ _ _ hre hv,
              by rw [hv]; exact Option.some_ne_none _ |>.symm⟩
          · rw [step_of_call serve hp]
            dsimp only
            rwa [if_pos rfl]
        | some b =>
          rw [hv] at hr
          obtain ⟨a, hk, hab⟩ := hr
          have ha : a = b := hab
          subst ha
          exact returned_true_iff_of_verdict hp hv hk
      | _ =>
        refine returned_true_iff_cons (fun q k hq _ => by cases hp.symm.trans hq) (ih ?_)
        rwa [step_of_not_call serve (by simp [hp])]
    · refine returned_true_iff_cons (fun q k _ h => absurd h hj) (ih ?_)
      rw [step_procs, if_neg (fun h => hj h.symm)]
      exact hi

end Verdicts

end Pool

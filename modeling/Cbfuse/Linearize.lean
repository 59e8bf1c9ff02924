import Cbfuse.Interleave

/-!
# Calls that take effect in one request

Calls of several processes, interleaved request by request, are as good as
calls made one after another if each takes effect in one request: the one
that **decides** it. Every other request of a call changes nothing, and the
deciding one does, at the moment it is served, what the whole call would do
if it were run alone at that moment.

`TakesEffectOnce` says this of the steps of a pool, and
`TakesEffectOnce.linearizes` draws the conclusion for its runs: what the
run leaves is what the calls that succeeded leave, run alone in the order
of their deciding requests, each with the result it had.
-/

namespace Pool

variable {ι Q : Type} {R : Q → Type} {α S C : Type}

/-! ## Calls one after another -/

section Serial

variable (serve : C → (q : Q) → S → R q × S) (code : ι → Prog Q R α)

/-- One call, run alone and to its end under one choice; its result is
logged. -/
def alone (env : ι → C) (acc : S × List (ι × Option α)) (i : ι) : S × List (ι × Option α) :=
  let r := (code i).run serve (fun _ => env i) acc.1
  (r.2, acc.2 ++ [(i, r.1)])

/-- **Calls run one after another**: the state they leave, and their
results. -/
def serial (env : ι → C) (order : List ι) (s : S) : S × List (ι × Option α) :=
  order.foldl (alone serve code env) (s, [])

theorem serial_append (env : ι → C) (order : List ι) (i : ι) (s : S) :
    serial serve code env (order ++ [i]) s
      = alone serve code env (serial serve code env order s) i := by
  unfold serial
  rw [List.foldl_append]
  rfl

/-- Only the choices of the calls that are run matter. -/
theorem serial_congr {env env' : ι → C} {order : List ι} (h : ∀ i ∈ order, env i = env' i)
    (s : S) : serial serve code env order s = serial serve code env' order s := by
  unfold serial
  generalize (s, ([] : List (ι × Option α))) = acc
  induction order generalizing acc with
  | nil => rfl
  | cons i order ih =>
    have hi : alone serve code env acc i = alone serve code env' acc i := by
      unfold alone
      rw [h i (List.mem_cons_self ..)]
    rw [List.foldl_cons, List.foldl_cons, hi]
    exact ih (fun j hj => h j (List.mem_cons_of_mem i hj)) _

end Serial

/-! ## The order of the deciding requests -/

/-- The call has returned a success. -/
def Config.Succeeded (ok : α → Prop) (x : Config ι Q R α S) (i : ι) : Prop :=
  ∃ a ∈ x.returned i, ok a

instance (ok : α → Prop) [DecidablePred ok] (x : Config ι Q R α S) :
    DecidablePred (x.Succeeded ok) :=
  fun i => inferInstanceAs (Decidable (∃ a ∈ x.returned i, ok a))

/-- A call that has a request to make has not succeeded. -/
theorem Config.not_succeeded_of_call {ok : α → Prop} {x : Config ι Q R α S} {i : ι} {q : Q}
    {k : R q → Prog Q R α} (h : x.procs i = .call q k) : ¬ x.Succeeded ok i := by
  rintro ⟨a, ha, -⟩
  rw [returned_eq_some.mp ha] at h
  cases h

variable (decides : ι → Q → Prop) [∀ i, DecidablePred (decides i)]
variable (ok : α → Prop) [DecidablePred ok]

/-- **The calls that succeeded, in the order of their deciding
requests.** -/
def Config.decisionOrder (x : Config ι Q R α S) : List ι :=
  (x.trace.filter (fun e => decides e.who e.req ∧ x.Succeeded ok e.who)).map Event.who

/-! ## What one request does -/

variable (serve : C → (q : Q) → S → R q × S)

/-- **What a request of a call does**, to the call and to the state: it
does not decide the call, and changes nothing; it ends the call without a
success, and changes nothing; or it ends the call with the result, and the
change, that the whole call would have if it were run alone. -/
inductive Effect (decided : Prop) (code : Prog Q R α) (env : C) (s : S) :
    Prog Q R α → S → Prop
  | aside {rest : Prog Q R α} (hd : ¬ decided) (hrest : ∀ a, rest = .ret a → ¬ ok a) :
      Effect decided code env s rest s
  | fails {rest : Prog Q R α} (hd : decided) (hcall : ∀ q k, rest ≠ .call q k)
      (hrest : ∀ a, rest = .ret a → ¬ ok a) : Effect decided code env s rest s
  | succeeds {a : α} {s' : S} (hd : decided) (ha : ok a)
      (hrun : code.run serve (fun _ => env) s = (some a, s')) :
      Effect decided code env s (.ret a) s'

omit [DecidablePred ok] in
/-- A request that changes something ends its call with a success. -/
theorem Effect.ok_of_ne {decided : Prop} {code rest : Prog Q R α} {env : C} {s s' : S}
    (h : Effect ok serve decided code env s rest s') (hne : s' ≠ s) :
    ∃ a, ok a ∧ rest = .ret a ∧ code.run serve (fun _ => env) s = (some a, s') := by
  cases h with
  | aside => exact absurd rfl hne
  | fails => exact absurd rfl hne
  | succeeds hd ha hrun => exact ⟨_, ha, rfl, hrun⟩

variable [DecidableEq ι]

/-- **Every call takes effect in one request.** `I` is what holds of every
configuration, and `env` the choice under which a call would have to be run
alone, as far as the trace tells: the requests of other calls have no say in
it, nor has the one that decides. -/
structure TakesEffectOnce (code : ι → Prog Q R α) (env : List (Event ι Q R) → ι → C)
    (A : C → Prop) (I : Config ι Q R α S → Prop) : Prop where
  /-- No call succeeds without a request. -/
  initial : ∀ i a, code i = .ret a → ¬ ok a
  /-- The choice of a call is settled before its deciding request. -/
  settled : ∀ tr e j, j ≠ e.who ∨ decides e.who e.req → env (tr ++ [e]) j = env tr j
  /-- What one request does. -/
  effect : ∀ x i c q k, I x → A c → x.procs i = .call q k →
    Effect ok serve (decides i q) (code i) (env x.trace i) x.store
      (k (serve c q x.store).1) (serve c q x.store).2
  /-- What holds of every configuration is kept. -/
  kept : ∀ x i c, I x → A c → I (step serve i c x)

/-- **A run is as good as its successful calls one after another.** -/
structure Linearizes (code : ι → Prog Q R α) (env : ι → C) (s : S) (x : Config ι Q R α S) :
    Prop where
  /-- No call takes effect twice. -/
  nodup : (x.decisionOrder decides ok).Nodup
  /-- Exactly the calls that succeeded take effect. -/
  mem_iff : ∀ i, i ∈ x.decisionOrder decides ok ↔ x.Succeeded ok i
  /-- The state and the results are those of the calls run alone. -/
  serial : serial serve code env (x.decisionOrder decides ok) s
    = (x.store, (x.decisionOrder decides ok).map (fun i => (i, x.returned i)))

variable {decides ok serve} {code : ι → Prog Q R α} {env : List (Event ι Q R) → ι → C}
variable {A : C → Prop} {I : Config ι Q R α S → Prop}

omit [DecidablePred ok] in
/-- Only the call that made the request can have succeeded by it. -/
theorem succeeded_step_of_ne {i j : ι} (hj : j ≠ i) (c : C) (x : Config ι Q R α S) :
    (step serve i c x).Succeeded ok j ↔ x.Succeeded ok j := by
  unfold Config.Succeeded
  rw [returned_step_of_ne serve hj]

/-- The order after a step: the call that made the request comes last, if
the request decided it and it succeeded. -/
theorem decisionOrder_step {x : Config ι Q R α S} {i : ι} {c : C} {q : Q}
    {k : R q → Prog Q R α} (hp : x.procs i = .call q k)
    (hundecided : ∀ e ∈ x.trace, e.who = i → ¬ decides i e.req) :
    (step serve i c x).decisionOrder decides ok
      = x.decisionOrder decides ok
        ++ if decides i q ∧ (step serve i c x).Succeeded ok i then [i] else [] := by
  -- no earlier request of the call counts, before the step or after it
  have hold : ∀ e ∈ x.trace, (decides e.who e.req ∧ (step serve i c x).Succeeded ok e.who)
      ↔ (decides e.who e.req ∧ x.Succeeded ok e.who) := by
    intro e he
    by_cases hi : e.who = i
    · have hne := hundecided e he hi
      rw [hi]
      exact iff_of_false (fun h => hne h.1) (fun h => hne h.1)
    · rw [succeeded_step_of_ne hi]
  have htrace : (step serve i c x).trace = x.trace ++ [⟨i, q, (serve c q x.store).1⟩] := by
    rw [step_of_call serve hp]
  unfold Config.decisionOrder
  rw [htrace, List.filter_append, List.map_append]
  congr 1
  · congr 1
    exact List.filter_congr (fun e he => decide_eq_decide.mpr (hold e he))
  · by_cases h : decides i q ∧ (step serve i c x).Succeeded ok i
    · rw [if_pos h, List.filter_cons_of_pos (by simpa using h)]
      rfl
    · rw [if_neg h, List.filter_cons_of_neg (by simpa using h)]
      rfl

section Step

variable {env : ι → C} {s : S} {x : Config ι Q R α S} {i : ι} {c : C} {q : Q}
variable {k : R q → Prog Q R α}

/-- The calls that had succeeded before a step, run alone, leave what they
left and return what they returned. -/
theorem Linearizes.serial_step (h : Linearizes decides ok serve code env s x)
    (hp : x.procs i = .call q k) {env' : ι → C} (henv : ∀ j, j ≠ i → env' j = env j) :
    Pool.serial serve code env' (x.decisionOrder decides ok) s
      = (x.store, (x.decisionOrder decides ok).map
          (fun j => (j, (step serve i c x).returned j))) := by
  have hne : ∀ j ∈ x.decisionOrder decides ok, j ≠ i := by
    intro j hj e
    exact Config.not_succeeded_of_call hp (e ▸ (h.mem_iff j).mp hj)
  rw [serial_congr serve code (fun j hj => henv j (hne j hj)), h.serial]
  congr 1
  exact List.map_congr_left (fun j hj => by rw [returned_step_of_ne serve (hne j hj)])

/-- A step that changes nothing and has no success adds nothing. -/
theorem Linearizes.step_same (h : Linearizes decides ok serve code env s x)
    (hp : x.procs i = .call q k) (hund : ∀ e ∈ x.trace, e.who = i → ¬ decides i e.req)
    {env' : ι → C} (henv : ∀ j, j ≠ i → env' j = env j)
    (hno : ¬ (step serve i c x).Succeeded ok i)
    (hstore : (step serve i c x).store = x.store) :
    Linearizes decides ok serve code env' s (step serve i c x) := by
  have horder : (step serve i c x).decisionOrder decides ok = x.decisionOrder decides ok := by
    rw [decisionOrder_step hp hund, if_neg (fun hd => hno hd.2), List.append_nil]
  refine ⟨horder ▸ h.nodup, fun j => ?_, ?_⟩
  · rw [horder, h.mem_iff]
    by_cases hj : j = i
    · subst hj
      exact iff_of_false (Config.not_succeeded_of_call hp) hno
    · rw [succeeded_step_of_ne hj]
  · rw [horder, hstore]
    exact h.serial_step hp henv

/-- A step that decides a call and ends it with the success it would have
alone puts the call last. -/
theorem Linearizes.step_success (h : Linearizes decides ok serve code env s x)
    (hp : x.procs i = .call q k) (hund : ∀ e ∈ x.trace, e.who = i → ¬ decides i e.req)
    {env' : ι → C} (henv : ∀ j, j ≠ i → env' j = env j) (hd : decides i q) {a : α} (ha : ok a)
    (hret : (step serve i c x).returned i = some a)
    (hrun : (code i).run serve (fun _ => env' i) x.store = (some a, (step serve i c x).store)) :
    Linearizes decides ok serve code env' s (step serve i c x) := by
  have hsucc : (step serve i c x).Succeeded ok i := ⟨a, hret, ha⟩
  have hni : i ∉ x.decisionOrder decides ok :=
    fun hi => Config.not_succeeded_of_call hp ((h.mem_iff i).mp hi)
  have horder : (step serve i c x).decisionOrder decides ok
      = x.decisionOrder decides ok ++ [i] := by
    rw [decisionOrder_step hp hund, if_pos ⟨hd, hsucc⟩]
  refine ⟨?_, fun j => ?_, ?_⟩
  · rw [horder]
    refine List.nodup_append.mpr ⟨h.nodup, List.pairwise_singleton _ i, fun j hj j' hj' e => ?_⟩
    rw [e, List.mem_singleton.mp hj'] at hj
    exact hni hj
  · rw [horder, List.mem_append, List.mem_singleton, h.mem_iff]
    by_cases hj : j = i
    · subst hj
      exact iff_of_true (.inr rfl) hsucc
    · rw [succeeded_step_of_ne hj]
      exact or_iff_left hj
  · rw [horder, serial_append, h.serial_step hp henv, List.map_append]
    unfold alone
    dsimp only
    rw [hrun, List.map_singleton, hret]

end Step

/-- What holds after every request: the run so far linearizes, and a call
that has a request to make has not been decided. -/
structure LinearInv (decides : ι → Q → Prop) [∀ i, DecidablePred (decides i)] (ok : α → Prop)
    [DecidablePred ok] (serve : C → (q : Q) → S → R q × S) (code : ι → Prog Q R α)
    (env : List (Event ι Q R) → ι → C) (I : Config ι Q R α S → Prop) (s : S)
    (x : Config ι Q R α S) : Prop where
  /-- What holds of every configuration. -/
  inv : I x
  /-- The run so far linearizes. -/
  linear : Linearizes decides ok serve code (env x.trace) s x
  /-- Calls that go on are undecided. -/
  undecided : ∀ i q k, x.procs i = .call q k → ∀ e ∈ x.trace, e.who = i → ¬ decides i e.req

namespace TakesEffectOnce

variable (h : TakesEffectOnce decides ok serve code env A I)
include h

/-- **One request.** -/
theorem linearInv_step {s : S} {x : Config ι Q R α S}
    (hx : LinearInv decides ok serve code env I s x) (i : ι) {c : C} (hc : A c) :
    LinearInv decides ok serve code env I s (step serve i c x) := by
  cases hp : x.procs i with
  | ret a => rwa [step_of_not_call serve (by simp [hp])]
  | crash => rwa [step_of_not_call serve (by simp [hp])]
  | call q k =>
    have hund := hx.undecided i q k hp
    have hinv := h.kept x i c hx.inv hc
    have heff := h.effect x i c q k hx.inv hc hp
    have htrace : (step serve i c x).trace
        = x.trace ++ [⟨i, q, (serve c q x.store).1⟩] := by rw [step_of_call serve hp]
    have hstore : (step serve i c x).store = (serve c q x.store).2 := by
      rw [step_of_call serve hp]
    have hself : (step serve i c x).procs i = k (serve c q x.store).1 := by
      rw [step_of_call serve hp]
      exact if_pos rfl
    have henv : ∀ j, j ≠ i → env (step serve i c x).trace j = env x.trace j := by
      intro j hj
      rw [htrace]
      exact h.settled _ _ j (.inl hj)
    -- the other calls are as undecided as before
    have hund' : (∀ q' k', k (serve c q x.store).1 = .call q' k' → ¬ decides i q) →
        ∀ j q' k', (step serve i c x).procs j = .call q' k' →
          ∀ e ∈ (step serve i c x).trace, e.who = j → ¬ decides j e.req := by
      intro hi j q' k' hj e he hej
      rw [htrace] at he
      rcases List.mem_append.mp he with he | he
      · by_cases hji : j = i
        · exact hji ▸ hund e he (hej.trans hji)
        · rw [step_of_call serve hp] at hj
          exact hx.undecided j q' k' ((if_neg hji).symm.trans hj) e he hej
      · cases List.mem_singleton.mp he
        cases hej
        exact hi q' k' (hself ▸ hj)
    have hno : (∀ a, k (serve c q x.store).1 = .ret a → ¬ ok a) →
        ¬ (step serve i c x).Succeeded ok i := by
      rintro hrest ⟨a, ha, hok⟩
      exact hrest a (hself ▸ Config.returned_eq_some.mp ha) hok
    generalize hrest' : k (serve c q x.store).1 = rest at heff hund' hno hself
    generalize hs' : (serve c q x.store).2 = s' at heff hstore
    cases heff with
    | aside hd hrest =>
      exact ⟨hinv, hx.linear.step_same hp hund henv (hno hrest) hstore,
        hund' (fun _ _ _ => hd)⟩
    | fails hd hcall hrest =>
      exact ⟨hinv, hx.linear.step_same hp hund henv (hno hrest) hstore,
        hund' (fun q' k' hk => absurd hk (hcall q' k'))⟩
    | succeeds hd ha hrun =>
      have hset : env (step serve i c x).trace i = env x.trace i := by
        rw [htrace]
        exact h.settled _ _ i (.inr hd)
      refine ⟨hinv, hx.linear.step_success hp hund henv hd ha
        (Config.returned_eq_some.mpr hself) ?_, hund' (fun q' k' hk => by cases hk)⟩
      rw [hset, hstore]
      exact hrun

/-- **Every run linearizes.** -/
theorem linearizes {s : S} (hI : I (start code s)) {sched : List (ι × C)}
    (hA : ∀ ic ∈ sched, A ic.2) :
    LinearInv decides ok serve code env I s (run serve sched (start code s)) := by
  have hstart : LinearInv decides ok serve code env I s (start code s) := by
    refine ⟨hI, ⟨List.nodup_nil, fun i => iff_of_false List.not_mem_nil ?_, rfl⟩,
      fun _ _ _ _ e he => absurd he List.not_mem_nil⟩
    rintro ⟨a, ha, hok⟩
    exact h.initial i a (Config.returned_eq_some.mp ha) hok
  generalize start code s = x at hstart
  induction sched generalizing x with
  | nil => exact hstart
  | cons ic sched ih =>
    exact ih (fun ic' hic => hA ic' (List.mem_cons_of_mem ic hic)) _
      (h.linearInv_step hstart ic.1 (hA ic (List.mem_cons_self ..)))

/-- **Only a call that succeeds changes anything**, and what it changes at
one moment is what it would change alone. -/
theorem changes {s : S} (hI : I (start code s)) {sched₁ sched₂ : List (ι × C)} {i : ι} {c : C}
    (hA : ∀ ic ∈ sched₁ ++ (i, c) :: sched₂, A ic.2)
    (hne : (step serve i c (run serve sched₁ (start code s))).store
      ≠ (run serve sched₁ (start code s)).store) :
    (run serve (sched₁ ++ (i, c) :: sched₂) (start code s)).Succeeded ok i
      ∧ ∃ a, ok a ∧ (code i).run serve (fun _ => env (run serve sched₁ (start code s)).trace i)
          (run serve sched₁ (start code s)).store
        = (some a, (step serve i c (run serve sched₁ (start code s))).store) := by
  have hx := h.linearizes hI (fun ic hic => hA ic (List.mem_append_left _ hic))
  rw [run_append, run_cons]
  generalize run serve sched₁ (start code s) = x at hx hne
  cases hp : x.procs i with
  | ret a => exact absurd (by rw [step_of_not_call serve (by simp [hp])]) hne
  | crash => exact absurd (by rw [step_of_not_call serve (by simp [hp])]) hne
  | call q k =>
    have hc : A c := hA (i, c) (List.mem_append_right _ (List.mem_cons_self ..))
    have hstep := step_of_call serve (c := c) hp
    rw [hstep] at hne
    obtain ⟨a, ha, hret, hrun⟩ := (h.effect x i c q k hx.inv hc hp).ok_of_ne ok serve hne
    refine ⟨⟨a, returned_run serve sched₂ (Config.returned_eq_some.mpr ?_), ha⟩, a, ha, ?_⟩
    · rw [hstep, ← hret]
      exact if_pos rfl
    · rw [hstep]
      exact hrun

end TakesEffectOnce

end Pool

import Cbfuse.Interleave

/-!
# Contracts among the programs of a pool

Programs that share a server see what the others have made of it. That they
see nothing bad can be shown without a look at any interleaving, where it is a
matter of single requests: a `Contract` says which replies a program may rely
on and which requests it may then make, and a program keeps it if it makes no
other requests as long as it gets no other replies (`Contract.Kept`). If the
requests of the contract keep the server in a good state, and a server in a
good state gives the replies of the contract, then all is well with programs
that keep it (`Pool.kept_run`).

The argument goes round in a circle, each program relying on what the others
guarantee. It is sound as the circle takes a step of the run to go round.
-/

/-- **A contract**: what a program may rely on, and what it guarantees. -/
structure Contract (Q : Type) (R : Q → Type) where
  /-- The replies that are relied on. -/
  relies : (q : Q) → R q → Prop
  /-- The requests that are made. -/
  asks : Q → Prop

namespace Contract

variable {Q : Type} {R : Q → Type} {α β : Type} (K : Contract Q R)

/-- **The program keeps the contract**, and what it returns meets `post`. -/
def Kept (post : α → Prop) : Prog Q R α → Prop
  | .ret a => post a
  | .call q k => K.asks q ∧ ∀ r, K.relies q r → Kept post (k r)
  | .crash => True

variable {K} {post : α → Prop}

@[simp] theorem kept_ret (a : α) : K.Kept post (.ret a : Prog Q R α) ↔ post a := Iff.rfl

@[simp] theorem kept_call (q : Q) (k : R q → Prog Q R α) :
    K.Kept post (.call q k) ↔ K.asks q ∧ ∀ r, K.relies q r → K.Kept post (k r) := Iff.rfl

@[simp] theorem kept_crash : K.Kept post (.crash : Prog Q R α) := trivial

/-- A sequence keeps the contract if its second part does, from every result
of the first on. -/
theorem kept_bind {mid : β → Prop} {p : Prog Q R β} {f : β → Prog Q R α} (hp : K.Kept mid p)
    (hf : ∀ b, mid b → K.Kept post (f b)) : K.Kept post (p >>= f) := by
  induction p with
  | ret b => exact hf b hp
  | call q k ih => exact ⟨hp.1, fun r hr => ih r (hp.2 r hr)⟩
  | crash => trivial

theorem Kept.mono {post' : α → Prop} {p : Prog Q R α} (hp : K.Kept post p)
    (h : ∀ a, post a → post' a) : K.Kept post' p := by
  induction p with
  | ret a => exact h a hp
  | call q k ih => exact ⟨hp.1, fun r hr => ih r (hp.2 r hr)⟩
  | crash => trivial

/-- What is made of a result in the end is a matter of the result. -/
theorem kept_map {f : β → α} {p : Prog Q R β} (hp : K.Kept (fun b => post (f b)) p) :
    K.Kept post (f <$> p) := by
  rw [map_eq_pure_bind]
  exact kept_bind hp (fun b hb => hb)

/-- A program that makes no other requests whatever is replied keeps the
contract. -/
theorem kept_of_only {p : Prog Q R α} (hp : p.Only K.asks) (hpost : p.Returns post) :
    K.Kept post p := by
  induction p with
  | ret a => exact hpost
  | call q k ih => exact ⟨hp.1, fun r _ => ih r (hp.2 r) (hpost r)⟩
  | crash => trivial

end Contract

namespace Pool

variable {ι Q : Type} {R : Q → Type} {α S C : Type} [DecidableEq ι]
variable {K : Contract Q R} {post : ι → α → Prop}

/-- What holds while a pool runs. -/
structure Config.Keeps (K : Contract Q R) (post : ι → α → Prop) (I : S → Prop)
    (x : Config ι Q R α S) : Prop where
  /-- The server is in a good state. -/
  store : I x.store
  /-- What is left of every program keeps the contract. -/
  procs : ∀ i, K.Kept (post i) (x.procs i)

section Run

variable {serve : C → (q : Q) → S → R q × S} {A : C → Prop} {I : S → Prop}

/-- One request. -/
theorem Config.Keeps.step
    (hserve : ∀ c q s, A c → I s → K.asks q → I (serve c q s).2 ∧ K.relies q (serve c q s).1)
    {x : Config ι Q R α S} (hx : x.Keeps K post I) (i : ι) {c : C} (hc : A c) :
    (step serve i c x).Keeps K post I := by
  cases hp : x.procs i with
  | ret a => rwa [step_of_not_call serve (by simp [hp])]
  | crash => rwa [step_of_not_call serve (by simp [hp])]
  | call q k =>
    have hi := hx.procs i
    rw [hp] at hi
    obtain ⟨hstore, hreply⟩ := hserve c q x.store hc hx.store hi.1
    rw [step_of_call serve hp]
    refine ⟨hstore, fun j => ?_⟩
    dsimp only
    split
    · next hj => exact hj ▸ hi.2 _ hreply
    · exact hx.procs j

/-- **Contracts are kept together**, in every interleaving. -/
theorem kept_run
    (hserve : ∀ c q s, A c → I s → K.asks q → I (serve c q s).2 ∧ K.relies q (serve c q s).1)
    {sched : List (ι × C)} {x : Config ι Q R α S} (hsched : ∀ ic ∈ sched, A ic.2)
    (hx : x.Keeps K post I) : (run serve sched x).Keeps K post I := by
  induction sched generalizing x with
  | nil => exact hx
  | cons ic sched ih =>
    exact ih (fun ic' hic => hsched ic' (List.mem_cons_of_mem ic hic))
      (hx.step hserve ic.1 (hsched ic (List.mem_cons_self ..)))

end Run

omit [DecidableEq ι] in
/-- What has been returned meets what was asked of it. -/
theorem Config.Keeps.returned {I : S → Prop} {x : Config ι Q R α S} (hx : x.Keeps K post I)
    {i : ι} {a : α} (h : x.returned i = some a) : post i a := by
  have hi := hx.procs i
  rwa [Config.returned_eq_some.mp h] at hi

end Pool

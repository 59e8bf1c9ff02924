import Mathlib.Logic.Function.Basic
import Mathlib.Tactic.Common

/-!
# Programs that make requests

A program that talks to a server is a tree: it returns, it dies, or it
makes one request and goes on with whatever the server replied. Nothing
else about it can be observed, so a tree is all there is to keep of it,
and the same tree can be run in every way the surroundings allow – alone
and to its end (`Prog.run`), alone and abandoned after some number of
requests (`Prog.exec`), or interleaved with others
(`Cbfuse.Interleave`).

The surroundings are a function `serve`. It is given one **choice** per
request – whether the request gets through, what the clock reads, what an
allocation finds in memory – and it is a function of that choice, so a
run is determined by the choices made during it and a statement about
every run is a statement about every list of choices.

`Prog.wp` is the weakest precondition of a program under such a server.
It carries, besides the postcondition, an assertion that has to hold in
every state between two requests: that is the condition a crash leaves
behind, and it is what a postcondition alone cannot speak of.
-/

/-- **A program over requests**: `Q` are the requests it can make and
`R q` the replies it can get to `q`. -/
inductive Prog (Q : Type) (R : Q → Type) (α : Type) : Type where
  /-- The program returns. -/
  | ret (a : α)
  /-- The program makes a request and goes on with the reply. -/
  | call (q : Q) (k : R q → Prog Q R α)
  /-- The process dies: no reply can bring it back. -/
  | crash

namespace Prog

variable {Q : Type} {R : Q → Type} {α β : Type}

/-- Sequencing: run the first program, and the second on what it
returns. -/
def bind : Prog Q R α → (α → Prog Q R β) → Prog Q R β
  | ret a, f => f a
  | call q k, f => call q (fun r => (k r).bind f)
  | crash, _ => crash

instance : Monad (Prog Q R) where
  pure := ret
  bind := bind

@[simp] theorem pure_eq_ret (a : α) : (pure a : Prog Q R α) = ret a := rfl

@[simp] theorem ret_bind (a : α) (f : α → Prog Q R β) : ret a >>= f = f a := rfl

@[simp] theorem call_bind (q : Q) (k : R q → Prog Q R α) (f : α → Prog Q R β) :
    call q k >>= f = call q (fun r => k r >>= f) := rfl

@[simp] theorem crash_bind (f : α → Prog Q R β) : (crash : Prog Q R α) >>= f = crash := rfl

/-- Nothing is added to a program by returning its result. -/
theorem bind_ret (p : Prog Q R α) : p >>= (fun a => ret a) = p := by
  induction p with
  | ret a => rfl
  | call q k ih => exact congrArg (call q) (funext ih)
  | crash => rfl

/-- Programs one after the other can be grouped in any way. -/
theorem bind_assoc {γ : Type} (p : Prog Q R α) (f : α → Prog Q R β)
    (g : β → Prog Q R γ) : p >>= f >>= g = p >>= fun a => f a >>= g := by
  induction p with
  | ret a => rfl
  | call q k ih => exact congrArg (call q) (funext ih)
  | crash => rfl

instance : LawfulMonad (Prog Q R) :=
  LawfulMonad.mk' _ (fun p => bind_ret p) (fun _ _ => rfl)
    (fun p f g => bind_assoc p f g)

/-! ## Running one program

`serve c q s` is the reply to `q` in the state `s` under the choice `c`,
with the state the request leaves. -/

section Run

variable {S C : Type} (serve : C → (q : Q) → S → R q × S)

/-- One request: a program that has returned or died stays as it is. -/
def step (c : C) : Prog Q R α × S → Prog Q R α × S
  | (call q k, s) => (k (serve c q s).1, (serve c q s).2)
  | (ret a, s) => (ret a, s)
  | (crash, s) => (crash, s)

/-- **A run that may be abandoned**: one request per choice, and what is
left of the program when the choices run out. -/
def exec (cs : List C) (x : Prog Q R α × S) : Prog Q R α × S :=
  cs.foldl (fun x c => step serve c x) x

/-- **A run to the end**, the `n`-th request being served under the
choice `env n`. It has no result when the program dies. -/
def run : Prog Q R α → (ℕ → C) → S → Option α × S
  | ret a, _, s => (some a, s)
  | call q k, env, s =>
    (k (serve (env 0) q s).1).run (fun n => env (n + 1)) (serve (env 0) q s).2
  | crash, _, s => (none, s)

@[simp] theorem exec_nil (x : Prog Q R α × S) : exec serve [] x = x := rfl

/-- A turn of a process that makes a request serves it. -/
@[simp] theorem exec_call (c : C) (cs : List C) (q : Q) (k : R q → Prog Q R α) (s : S) :
    exec serve (c :: cs) (call q k, s)
      = exec serve cs (k (serve c q s).1, (serve c q s).2) := rfl

/-- A process that has returned stays so, whatever turns it gets. -/
@[simp] theorem exec_ret (cs : List C) (a : α) (s : S) :
    exec serve cs (ret a, s) = (ret a, s) := by
  induction cs with
  | nil => rfl
  | cons c cs ih => exact ih

/-- A process that has died stays so, whatever turns it gets. -/
@[simp] theorem exec_crash (cs : List C) (s : S) :
    exec serve cs ((crash : Prog Q R α), s) = (crash, s) := by
  induction cs with
  | nil => rfl
  | cons c cs ih => exact ih

@[simp] theorem run_ret (a : α) (env : ℕ → C) (s : S) :
    (ret a : Prog Q R α).run serve env s = (some a, s) := rfl

/-- A run serves the first request under the first choice, and goes on with the
others. -/
@[simp] theorem run_call (q : Q) (k : R q → Prog Q R α) (env : ℕ → C) (s : S) :
    (call q k).run serve env s
      = (k (serve (env 0) q s).1).run serve (fun n => env (n + 1)) (serve (env 0) q s).2 :=
  rfl

@[simp] theorem run_crash (env : ℕ → C) (s : S) :
    (crash : Prog Q R α).run serve env s = (none, s) := rfl

/-- What is made of a result in the end changes nothing of the run. -/
theorem run_bind_ret (p : Prog Q R α) (f : α → β) (env : ℕ → C) (s : S) :
    (p >>= fun a => ret (f a)).run serve env s
      = ((p.run serve env s).1.map f, (p.run serve env s).2) := by
  induction p generalizing env s with
  | ret a => rfl
  | call q k ih => exact ih _ _ _
  | crash => rfl

end Run

/-! ## Weakest preconditions with a crash invariant -/

section Wp

variable {S C : Type} (serve : C → (q : Q) → S → R q × S)
variable (A : C → Prop) (I : S → Prop)

/-- **The weakest precondition of a program**: under every choice in `A`,
each request leaves a state in `I`, the process does not die, and what the
program returns meets `post`. -/
def wp : Prog Q R α → (α → S → Prop) → S → Prop
  | ret a, post, s => post a s
  | call q k, post, s =>
    ∀ c, A c → I (serve c q s).2 ∧ (k (serve c q s).1).wp post (serve c q s).2
  | crash, _, _ => False

@[simp] theorem wp_ret (a : α) (post : α → S → Prop) (s : S) :
    (ret a : Prog Q R α).wp serve A I post s ↔ post a s := Iff.rfl

/-- A request has to be safe whatever is chosen for it. -/
@[simp] theorem wp_call (q : Q) (k : R q → Prog Q R α) (post : α → S → Prop) (s : S) :
    (call q k).wp serve A I post s
      ↔ ∀ c, A c → I (serve c q s).2
          ∧ (k (serve c q s).1).wp serve A I post (serve c q s).2 := Iff.rfl

/-- Sequencing composes preconditions. -/
theorem wp_bind (p : Prog Q R α) (f : α → Prog Q R β) (post : β → S → Prop) (s : S) :
    (p >>= f).wp serve A I post s
      ↔ p.wp serve A I (fun a s' => (f a).wp serve A I post s') s := by
  induction p generalizing s with
  | ret a => exact Iff.rfl
  | call q k ih =>
    exact forall_congr' (fun c => imp_congr_right (fun _ => and_congr_right (fun _ => ih _ _)))
  | crash => exact Iff.rfl

variable {serve A I}

/-- **A weakest precondition speaks of complete runs**: the program
returns, and its result meets the postcondition. -/
theorem wp_run {p : Prog Q R α} {post : α → S → Prop} {s : S} {env : ℕ → C}
    (h : p.wp serve A I post s) (henv : ∀ n, A (env n)) :
    ∃ a s', p.run serve env s = (some a, s') ∧ post a s' := by
  induction p generalizing s env with
  | ret a => exact ⟨a, s, rfl, h⟩
  | call q k ih => exact ih _ (h (env 0) (henv 0)).2 (fun n => henv (n + 1))
  | crash => exact h.elim

/-- **A weakest precondition speaks of abandoned runs**: wherever the run
is cut, the state is in the crash invariant. -/
theorem wp_exec {p : Prog Q R α} {post : α → S → Prop} {s : S} {cs : List C}
    (h : p.wp serve A I post s) (hs : I s) (hcs : ∀ c ∈ cs, A c) :
    I (exec serve cs (p, s)).2 := by
  induction cs generalizing p s with
  | nil => exact hs
  | cons c cs ih =>
    have hcs' : ∀ c' ∈ cs, A c' := fun c' hc' => hcs c' (List.mem_cons_of_mem c hc')
    cases p with
    | ret a => rw [exec_ret]; exact hs
    | call q k =>
      have hq := h c (hcs c (List.mem_cons_self ..))
      exact ih hq.2 hq.1 hcs'
    | crash => exact h.elim

/-- The end of a complete run is in the crash invariant as well. -/
theorem wp_run_inv {p : Prog Q R α} {post : α → S → Prop} {s : S} {env : ℕ → C}
    (h : p.wp serve A I post s) (hs : I s) (henv : ∀ n, A (env n)) :
    I (p.run serve env s).2 := by
  induction p generalizing s env with
  | ret a => exact hs
  | call q k ih =>
    have hq := h (env 0) (henv 0)
    exact ih _ hq.2 hq.1 (fun n => henv (n + 1))
  | crash => exact h.elim

end Wp

/-! ## What a run asks

The requests of a run with their replies are what the surroundings see of
it, and what a statement about a clock value read in the course of it, or
about memory it should not have looked at, can refer to. -/

section Events

variable {S C : Type} (serve : C → (q : Q) → S → R q × S)

/-- **The requests of a run** with the replies they got, oldest first. -/
def events : Prog Q R α → (ℕ → C) → S → List (Σ q, R q)
  | ret _, _, _ => []
  | call q k, env, s =>
    ⟨q, (serve (env 0) q s).1⟩ ::
      (k (serve (env 0) q s).1).events (fun n => env (n + 1)) (serve (env 0) q s).2
  | crash, _, _ => []

@[simp] theorem events_ret (a : α) (env : ℕ → C) (s : S) :
    (ret a : Prog Q R α).events serve env s = [] := rfl

/-- The trace of a run starts with the first request and its reply. -/
@[simp] theorem events_call (q : Q) (k : R q → Prog Q R α) (env : ℕ → C) (s : S) :
    (call q k).events serve env s
      = ⟨q, (serve (env 0) q s).1⟩ ::
        (k (serve (env 0) q s).1).events serve (fun n => env (n + 1)) (serve (env 0) q s).2 :=
  rfl

variable {serve}

/-- **A sequence runs its first part to the end**, and its second part under
the choices that are left. -/
theorem run_bind {p : Prog Q R α} {env : ℕ → C} {s s' : S} {a : α}
    (h : p.run serve env s = (some a, s')) (f : α → Prog Q R β) :
    ∃ n, (p >>= f).run serve env s = (f a).run serve (fun k => env (k + n)) s'
      ∧ (p >>= f).events serve env s
        = p.events serve env s ++ (f a).events serve (fun k => env (k + n)) s' := by
  induction p generalizing env s with
  | ret b =>
    cases h
    exact ⟨0, rfl, rfl⟩
  | call q k ih =>
    obtain ⟨n, hrun, hev⟩ := ih _ h
    exact ⟨n + 1, hrun, congrArg (List.cons _) hev⟩
  | crash => cases h

/-- What is made of a result in the end asks for nothing. -/
theorem events_bind_ret (p : Prog Q R α) (f : α → β) (env : ℕ → C) (s : S) :
    (p >>= fun a => ret (f a)).events serve env s = p.events serve env s := by
  induction p generalizing env s with
  | ret a => rfl
  | call q k ih => exact congrArg (List.cons _) (ih _ _ _)
  | crash => rfl

/-- **Surroundings that agree on what a run asks agree on the run**, and on what
it asks: where both answer the requests of one kind alike, and the run under the
first makes no others. -/
theorem run_events_congr {P : Q → Prop} {p : Prog Q R α} {env env' : ℕ → C} {s : S}
    (henv : ∀ n q s, P q → serve (env n) q s = serve (env' n) q s)
    (h : ∀ e ∈ p.events serve env s, P e.1) :
    p.run serve env s = p.run serve env' s ∧ p.events serve env s = p.events serve env' s := by
  induction p generalizing env env' s with
  | ret a => exact ⟨rfl, rfl⟩
  | call q k ih =>
    rw [events_call] at h
    obtain ⟨hq, hk⟩ := List.forall_mem_cons.mp h
    obtain ⟨hrun, hev⟩ := ih _ (fun n => henv (n + 1)) hk
    rw [run_call, run_call, events_call, events_call, ← henv 0 q s hq, hrun, hev]
    exact ⟨rfl, rfl⟩
  | crash => exact ⟨rfl, rfl⟩

end Events

/-! ## What a program can ask for

A program that makes only requests of one kind cannot touch what such
requests leave alone, whatever is replied to it. -/

/-- Every request the program can ever make satisfies `P`. -/
def Only (P : Q → Prop) : Prog Q R α → Prop
  | ret _ => True
  | call q k => P q ∧ ∀ r, (k r).Only P
  | crash => True

section Only

variable {P : Q → Prop}

@[simp] theorem only_ret (a : α) : (ret a : Prog Q R α).Only P := trivial

@[simp] theorem only_crash : (crash : Prog Q R α).Only P := trivial

@[simp] theorem only_call (q : Q) (k : R q → Prog Q R α) :
    (call q k).Only P ↔ P q ∧ ∀ r, (k r).Only P := Iff.rfl

/-- A sequence makes the requests of its parts. -/
theorem only_bind {p : Prog Q R α} {f : α → Prog Q R β} (hp : p.Only P)
    (hf : ∀ a, (f a).Only P) : (p >>= f).Only P := by
  induction p with
  | ret a => exact hf a
  | call q k ih => exact ⟨hp.1, fun r => ih r (hp.2 r)⟩
  | crash => trivial

/-- A program that makes some requests only makes no others of a larger class.
-/
theorem Only.mono {P' : Q → Prop} {p : Prog Q R α} (hp : p.Only P)
    (h : ∀ q, P q → P' q) : p.Only P' := by
  induction p with
  | ret a => trivial
  | call q k ih => exact ⟨h q hp.1, fun r => ih r (hp.2 r)⟩
  | crash => trivial

/-- **The frame rule**: what every allowed request leaves alone, the whole
run leaves alone. -/
theorem Only.run {S C γ : Type} {serve : C → (q : Q) → S → R q × S} {view : S → γ}
    (hview : ∀ c q s, P q → view (serve c q s).2 = view s) {p : Prog Q R α}
    (hp : p.Only P) (env : ℕ → C) (s : S) : view (p.run serve env s).2 = view s := by
  induction p generalizing s env with
  | ret a => rfl
  | call q k ih => exact (ih _ (hp.2 _) _ _).trans (hview _ _ _ hp.1)
  | crash => rfl

/-- A run asks for nothing else. -/
theorem Only.events {S C : Type} {serve : C → (q : Q) → S → R q × S} {p : Prog Q R α}
    (hp : p.Only P) (env : ℕ → C) (s : S) : ∀ e ∈ p.events serve env s, P e.1 := by
  induction p generalizing s env with
  | ret a => exact fun e he => absurd he List.not_mem_nil
  | call q k ih =>
    intro e he
    rcases List.mem_cons.mp he with rfl | he
    · exact hp.1
    · exact ih _ (hp.2 _) _ _ e he
  | crash => exact fun e he => absurd he List.not_mem_nil

/-- What follows a program without touching the view leaves the view as
the program left it. -/
theorem Only.run_bind {S C γ : Type} {serve : C → (q : Q) → S → R q × S} {view : S → γ}
    (hview : ∀ c q s, P q → view (serve c q s).2 = view s) (p : Prog Q R α)
    {f : α → Prog Q R β} (hf : ∀ a, (f a).Only P) (env : ℕ → C) (s : S) :
    view ((p >>= f).run serve env s).2 = view (p.run serve env s).2 := by
  induction p generalizing s env with
  | ret a => exact (hf a).run hview env s
  | call q k ih => exact ih _ _ _
  | crash => rfl

end Only

/-! ## Requests among others

A part of a program may know only some of the requests the whole of it makes.
-/

/-- **The program among those that can ask for more**, each of its requests by
the name it has there. -/
def via {Q' : Type} {R' : Q' → Type} (name : Q → Q') (reply : (q : Q) → R' (name q) → R q) :
    Prog Q R α → Prog Q' R' α
  | ret a => ret a
  | call q k => call (name q) (fun r => (k (reply q r)).via name reply)
  | crash => crash

/-! ## Conditions on a run

`Prog.Meets` asks something of every request of a run, in the state it is made
in. What then holds in the end is `Prog.wlp`, which says it also of a run whose
program dies. -/

section Meets

variable {S C : Type} (serve : C → (q : Q) → S → R q × S) (cond : C → Q → S → Prop)

/-- Every request of the run meets the condition, in the state it is made
in. -/
def Meets : Prog Q R α → (ℕ → C) → S → Prop
  | ret _, _, _ => True
  | call q k, env, s =>
    cond (env 0) q s
      ∧ (k (serve (env 0) q s).1).Meets (fun n => env (n + 1)) (serve (env 0) q s).2
  | crash, _, _ => True

/-- **The weakest liberal precondition**: as long as the requests meet the
condition, the run ends in `post`, and it may end with the program dead. -/
def wlp : Prog Q R α → (Option α → S → Prop) → S → Prop
  | ret a, post, s => post (some a) s
  | call q k, post, s => ∀ c, cond c q s → (k (serve c q s).1).wlp post (serve c q s).2
  | crash, post, s => post none s

variable {serve cond}

/-- Sequencing composes them: a program that dies goes no further. -/
theorem wlp_bind {p : Prog Q R α} {f : α → Prog Q R β} {post : Option β → S → Prop} {s : S}
    (h : p.wlp serve cond
      (fun r s' => r.elim (post none s') (fun a => (f a).wlp serve cond post s')) s) :
    (p >>= f).wlp serve cond post s := by
  induction p generalizing s with
  | ret a => exact h
  | call q k ih => exact fun c hc => ih _ (h c hc)
  | crash => exact h

/-- A postcondition can be weakened. -/
theorem wlp_mono {p : Prog Q R α} {post post' : Option α → S → Prop}
    (hpost : ∀ r s, post r s → post' r s) {s : S} (h : p.wlp serve cond post s) :
    p.wlp serve cond post' s := by
  induction p generalizing s with
  | ret a => exact hpost _ _ h
  | call q k ih => exact fun c hc => ih _ (h c hc)
  | crash => exact hpost _ _ h

/-- A program whose requests leave the state alone ends where it began. -/
theorem wlp_of_only {P : Q → Prop} {p : Prog Q R α} {post : Option α → S → Prop} {s : S}
    (h : p.Only P) (hkeep : ∀ c q s, P q → (serve c q s).2 = s) (hpost : ∀ r, post r s) :
    p.wlp serve cond post s := by
  induction p with
  | ret a => exact hpost _
  | call q k ih =>
    intro c _
    rw [hkeep c q s h.1]
    exact ih _ (h.2 _)
  | crash => exact hpost _

/-- **A liberal precondition speaks of the runs that meet the condition.** -/
theorem wlp_run {p : Prog Q R α} {post : Option α → S → Prop} {env : ℕ → C} {s : S}
    (h : p.wlp serve cond post s) (hmeets : p.Meets serve cond env s) :
    post (p.run serve env s).1 (p.run serve env s).2 := by
  induction p generalizing env s with
  | ret a => exact h
  | call q k ih => exact ih _ (h _ hmeets.1) hmeets.2
  | crash => exact h

/-- A condition that is met by all requests a program can make is met. -/
theorem meets_of_only {P : Q → Prop} {p : Prog Q R α} (hp : p.Only P)
    (h : ∀ c q s, P q → cond c q s) (env : ℕ → C) (s : S) : p.Meets serve cond env s := by
  induction p generalizing env s with
  | ret a => trivial
  | call q k ih => exact ⟨h _ _ _ hp.1, ih _ (hp.2 _) _ _⟩
  | crash => trivial

/-- A sequence meets a condition if both of its parts do. -/
theorem meets_bind {p : Prog Q R α} {f : α → Prog Q R β} {env : ℕ → C} {s : S}
    (hp : p.Meets serve cond env s) (hf : ∀ a env s, (f a).Meets serve cond env s) :
    (p >>= f).Meets serve cond env s := by
  induction p generalizing env s with
  | ret a => exact hf a env s
  | call q k ih => exact ⟨hp.1, ih _ hp.2⟩
  | crash => trivial

/-- **Surroundings that make no difference to any request of a run make none to
the run.** -/
theorem run_congr {p : Prog Q R α} {env env' : ℕ → C} {s : S}
    (henv : ∀ n q s, cond (env n) q s → serve (env n) q s = serve (env' n) q s)
    (h : p.Meets serve cond env s) : p.run serve env s = p.run serve env' s := by
  induction p generalizing env env' s with
  | ret a => rfl
  | call q k ih =>
    show (k _).run serve _ _ = (k _).run serve _ _
    rw [← henv 0 q s h.1]
    exact ih _ (fun n => henv (n + 1)) h.2
  | crash => rfl

/-- A condition every request meets is met. -/
theorem meets_of_forall {p : Prog Q R α} {env : ℕ → C} (h : ∀ n q s, cond (env n) q s) (s : S) :
    p.Meets serve cond env s := by
  induction p generalizing env s with
  | ret a => trivial
  | call q k ih => exact ⟨h 0 q s, ih _ (fun n => h (n + 1)) _⟩
  | crash => trivial

end Meets

/-! ## What a program can return

A property of every result, whatever is replied, needs no server to speak
of, and so it holds of a program run alone and of one among others. -/

/-- Whatever the program returns satisfies `P`. -/
def Returns (P : α → Prop) : Prog Q R α → Prop
  | ret a => P a
  | call _ k => ∀ r, (k r).Returns P
  | crash => True

section Returns

variable {P : α → Prop}

@[simp] theorem returns_ret (a : α) : (ret a : Prog Q R α).Returns P ↔ P a := Iff.rfl

@[simp] theorem returns_call (q : Q) (k : R q → Prog Q R α) :
    (call q k).Returns P ↔ ∀ r, (k r).Returns P := Iff.rfl

@[simp] theorem returns_crash : (crash : Prog Q R α).Returns P := trivial

/-- Of any program nothing is said by saying that it returns something. -/
theorem returns_true (p : Prog Q R α) : p.Returns (fun _ => True) := by
  induction p with
  | ret a => trivial
  | call q k ih => exact ih
  | crash => trivial

/-- A program returns what follows from what it returns. -/
theorem Returns.mono {P' : α → Prop} {p : Prog Q R α} (hp : p.Returns P)
    (h : ∀ a, P a → P' a) : p.Returns P' := by
  induction p with
  | ret a => exact h a hp
  | call q k ih => exact fun r => ih r (hp r)
  | crash => trivial

/-- What a sequence returns its second part does, on a result of the first. -/
theorem returns_bind {P' : β → Prop} {p : Prog Q R α} {f : α → Prog Q R β} (hp : p.Returns P)
    (hf : ∀ a, P a → (f a).Returns P') : (p >>= f).Returns P' := by
  induction p with
  | ret a => exact hf a hp
  | call q k ih => exact fun r => ih r (hp r)
  | crash => trivial

/-- A run returns nothing else. -/
theorem Returns.run {S C : Type} {serve : C → (q : Q) → S → R q × S} {p : Prog Q R α}
    (hp : p.Returns P) {env : ℕ → C} {s : S} {a : α} (h : (p.run serve env s).1 = some a) :
    P a := by
  induction p generalizing s env with
  | ret b =>
    cases h
    exact hp
  | call q k ih => exact ih _ (hp _) h
  | crash => cases h

end Returns

/-! ## Bad replies

Some replies are bad news: no memory, say. Two things can be asked of a
program then. That it does not die of anything else is a matter of its tree
(`DiesOnly`). That it does not die of them either, and owns up to them in what
it returns and leaves, is a matter of one run (`Withstands`). -/

/-- The program dies only after a reply in `bad`. -/
def DiesOnly (bad : (q : Q) → R q → Prop) : Prog Q R α → Prop
  | ret _ => True
  | call q k => ∀ r, ¬ bad q r → (k r).DiesOnly bad
  | crash => False

section BadReplies

variable {S C : Type} {serve : C → (q : Q) → S → R q × S} {bad : (q : Q) → R q → Prop}

@[simp] theorem diesOnly_ret (a : α) : (ret a : Prog Q R α).DiesOnly bad := trivial

@[simp] theorem diesOnly_call (q : Q) (k : R q → Prog Q R α) :
    (call q k).DiesOnly bad ↔ ∀ r, ¬ bad q r → (k r).DiesOnly bad := Iff.rfl

/-- A sequence dies of what its parts die of. -/
theorem diesOnly_bind {p : Prog Q R α} {f : α → Prog Q R β} (hp : p.DiesOnly bad)
    (hf : ∀ a, (f a).DiesOnly bad) : (p >>= f).DiesOnly bad := by
  induction p with
  | ret a => exact hf a
  | call q k ih => exact fun r hr => ih r (hp r hr)
  | crash => exact hp.elim

/-- Where a run has no result, there was a bad reply. -/
theorem DiesOnly.run {p : Prog Q R α} (hp : p.DiesOnly bad) {env : ℕ → C} {s : S}
    (h : (p.run serve env s).1 = none) : ∃ e ∈ p.events serve env s, bad e.1 e.2 := by
  induction p generalizing s env with
  | ret a => cases h
  | call q k ih =>
    by_cases hbad : bad q (serve (env 0) q s).1
    · exact ⟨_, List.mem_cons_self .., hbad⟩
    · obtain ⟨e, he, hb⟩ := ih _ (hp _ hbad) h
      exact ⟨e, List.mem_cons_of_mem _ he, hb⟩
  | crash => exact hp.elim

variable (serve bad)

/-- **A run withstands bad replies**: it comes to its end, and if any reply was
bad, what it returns and leaves is as `post` says. -/
def Withstands (post : α → S → Prop) (p : Prog Q R α) (env : ℕ → C) (s : S) : Prop :=
  ∃ a s', p.run serve env s = (some a, s')
    ∧ ((∃ e ∈ p.events serve env s, bad e.1 e.2) → post a s')

variable {serve bad} {post : α → S → Prop} {env : ℕ → C} {s : S}

@[simp] theorem withstands_ret (a : α) :
    (ret a : Prog Q R α).Withstands serve bad post env s :=
  ⟨a, s, rfl, fun ⟨_, he, _⟩ => absurd he List.not_mem_nil⟩

/-- A reply that is not bad changes nothing. -/
theorem withstands_call {q : Q} {k : R q → Prog Q R α} (h : ¬ bad q (serve (env 0) q s).1) :
    (call q k).Withstands serve bad post env s
      ↔ (k (serve (env 0) q s).1).Withstands serve bad post (fun n => env (n + 1))
          (serve (env 0) q s).2 := by
  refine exists_congr (fun a => exists_congr (fun s' => and_congr_right (fun _ => ?_)))
  refine imp_congr_left ⟨fun ⟨e, he, hb⟩ => ?_, fun ⟨e, he, hb⟩ => ?_⟩
  · rcases List.mem_cons.mp he with rfl | he
    · exact absurd hb h
    · exact ⟨e, he, hb⟩
  · exact ⟨e, List.mem_cons_of_mem _ he, hb⟩

/-- After a bad reply the rest of the run has to be as `post` says. -/
theorem withstands_call_of_bad {q : Q} {k : R q → Prog Q R α}
    (h : bad q (serve (env 0) q s).1) :
    (call q k).Withstands serve bad post env s
      ↔ ∃ a s', (k (serve (env 0) q s).1).run serve (fun n => env (n + 1))
            (serve (env 0) q s).2 = (some a, s') ∧ post a s' := by
  refine exists_congr (fun a => exists_congr (fun s' => and_congr_right (fun _ => ?_)))
  exact ⟨fun hp => hp ⟨_, List.mem_cons_self .., h⟩, fun hp _ => hp⟩

/-- Where no reply can be bad, nothing is left to die of. -/
theorem withstands_of_only {p : Prog Q R α} (honly : p.Only (fun q => ∀ r, ¬ bad q r))
    (hp : p.DiesOnly bad) : p.Withstands serve bad post env s := by
  have hgood : ¬ ∃ e ∈ p.events serve env s, bad e.1 e.2 :=
    fun ⟨e, he, hb⟩ => honly.events env s e he e.2 hb
  cases hrun : p.run serve env s with
  | mk a s' =>
    cases a with
    | some a => exact ⟨a, s', hrun, fun h => absurd h hgood⟩
    | none => exact absurd (hp.run (congrArg Prod.fst hrun)) hgood

end BadReplies

/-! ## Coming to an end -/

section Survives

variable {S C : Type} (serve : C → (q : Q) → S → R q × S)

/-- **The run comes to its end**: the process does not die in the course of it. -/
def Survives (p : Prog Q R α) (env : ℕ → C) (s : S) : Prop := ∃ a, (p.run serve env s).1 = some a

variable {serve} {env : ℕ → C} {s : S}

/-- A program that returns at once has come to its end. -/
theorem survives_ret (a : α) : (ret a : Prog Q R α).Survives serve env s := ⟨a, rfl⟩

/-- A program that dies does not come to its end. -/
theorem not_survives_crash : ¬ (crash : Prog Q R α).Survives serve env s := by
  rintro ⟨a, h⟩
  cases h

/-- A program comes to its end if the rest of it does, from the reply to its
first request on. -/
theorem survives_call {q : Q} {k : R q → Prog Q R α} :
    (call q k).Survives serve env s
      ↔ (k (serve (env 0) q s).1).Survives serve (fun n => env (n + 1)) (serve (env 0) q s).2 :=
  Iff.rfl

/-- What is made of a result in the end cannot be died of. -/
theorem survives_bind_ret {p : Prog Q R α} (f : α → β) :
    (p >>= fun a => ret (f a)).Survives serve env s ↔ p.Survives serve env s := by
  unfold Survives
  rw [run_bind_ret]
  constructor
  · rintro ⟨b, hb⟩
    obtain ⟨a, ha, -⟩ := Option.map_eq_some_iff.mp hb
    exact ⟨a, ha⟩
  · rintro ⟨a, ha⟩
    exact ⟨f a, by rw [ha]; rfl⟩

/-- What comes to its end returns one of the results there are. -/
theorem Survives.returns {p : Prog Q R α} {P : α → Prop} (h : p.Survives serve env s)
    (hp : p.Returns P) : ∃ a, (p.run serve env s).1 = some a ∧ P a := by
  obtain ⟨a, ha⟩ := h
  exact ⟨a, ha, hp.run ha⟩

/-- A program that dies of nothing comes to its end. -/
theorem DiesOnly.survives {p : Prog Q R α} (hp : p.DiesOnly (fun _ _ => False)) :
    p.Survives serve env s := by
  cases h : (p.run serve env s).1 with
  | some a => exact ⟨a, h⟩
  | none =>
    obtain ⟨_, _, hfalse⟩ := hp.run h
    exact hfalse.elim

end Survives

end Prog

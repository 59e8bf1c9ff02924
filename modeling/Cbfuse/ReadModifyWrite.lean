import Cbfuse.Interleave
import Cbfuse.KeyValue

/-!
# Read, modify, write

Several processes change one value on a server, each by fetching it,
changing its own copy and storing the copy. Whether a change survives
depends on what the others store between a fetch and the store that
follows it.

`Rmw.Access` says how the value is reached through requests, and its
`protocol` what it is to change it so. `Access.run_changes` is the one
case in which nothing is lost: where every store finds the value its own
process fetched, the value is at the end what the changes make of it one
after the other, whatever the schedule.
-/

namespace Rmw

variable {ι Q : Type} {R : Q → Type} {α S C V : Type}

/-- What a request does to the value. -/
inductive Kind (V : Type) where
  /-- It fetches the value. -/
  | fetch
  /-- It stores a value. -/
  | store (v : V)
  /-- It has nothing to do with the value. -/
  | aside
  /-- It reaches the value in some other way. -/
  | other

/-- **How a value is reached through requests.** -/
structure Access (Q : Type) (R : Q → Type) (S V : Type) where
  /-- What a request does to the value. -/
  kind : Q → Kind V
  /-- The value a reply to a fetch tells, if any. -/
  seen : (q : Q) → R q → Option V
  /-- Whether a reply to a store says that the value was stored. -/
  granted : (q : Q) → R q → Bool
  /-- The value on the server. -/
  val : S → V

/-- The server keeps to the access: a fetch tells the value, a store sets
it where it says so, and nothing else changes it. -/
structure Access.Faithful (a : Access Q R S V) (serve : C → (q : Q) → S → R q × S)
    (A : C → Prop) : Prop where
  /-- A fetch that tells a value tells the one there is. -/
  seen : ∀ c q s v, A c → a.kind q = .fetch → a.seen q (serve c q s).1 = some v → v = a.val s
  /-- A fetch changes nothing. -/
  fetch : ∀ c q s, A c → a.kind q = .fetch → a.val (serve c q s).2 = a.val s
  /-- A store sets the value or changes nothing. -/
  store : ∀ c q s v, A c → a.kind q = .store v →
    a.val (serve c q s).2 = if a.granted q (serve c q s).1 then v else a.val s
  /-- A request aside changes nothing. -/
  aside : ∀ c q s, A c → a.kind q = .aside → a.val (serve c q s).2 = a.val s

/-- How far a process has got with its change. -/
inductive Phase (V : Type) where
  /-- It has not fetched the value. -/
  | idle
  /-- It holds the value it fetched. -/
  | holding (v : V)
  /-- It has stored a changed value. -/
  | stored
  /-- It will not store any. -/
  | gaveUp

namespace Access

variable (a : Access Q R S V)

/-- **Fetch once, store once, a changed copy of what was fetched.** A
process that has not stored returns no success. -/
def protocol (change : V → V → Prop) (ok : α → Prop) : Protocol Q R α (Phase V) where
  start := .idle
  allow g q :=
    match g with
    | .idle => a.kind q = .fetch
    | .holding v => a.kind q = .aside ∨ ∃ w, a.kind q = .store w ∧ change v w
    | _ => a.kind q = .aside
  next g q r :=
    match g with
    | .idle =>
      match a.seen q r with
      | some v => .holding v
      | none => .gaveUp
    | .holding v =>
      match a.kind q with
      | .store _ => if a.granted q r then .stored else .gaveUp
      | _ => .holding v
    | g => g
  final g x := g = .stored ∨ ¬ ok x

variable [DecidableEq ι]

/-- The value the last fetch of a process was told. -/
def fetched (i : ι) (tr : List (Pool.Event ι Q R)) : Option V :=
  tr.foldl (fun acc e =>
    match a.kind e.req with
    | .fetch => if e.who = i then a.seen e.req e.reply else acc
    | _ => acc) none

theorem fetched_append (i : ι) (tr : List (Pool.Event ι Q R)) (e : Pool.Event ι Q R) :
    a.fetched i (tr ++ [e])
      = match a.kind e.req with
        | .fetch => if e.who = i then a.seen e.req e.reply else a.fetched i tr
        | _ => a.fetched i tr := by
  unfold fetched
  rw [List.foldl_append]
  rfl

/-- **A store finds the value its process fetched**: the condition under
which a step overwrites nothing its process has not seen. -/
def FindsFetched (tr : List (Pool.Event ι Q R)) (s : S) (i : ι) (_ : C) (q : Q) : Prop :=
  ∀ v, a.kind q = .store v → a.fetched i tr = some (a.val s)

instance [DecidableEq V] (tr : List (Pool.Event ι Q R)) (s : S) (i : ι) (c : C) (q : Q) :
    Decidable (a.FindsFetched tr s i c q) :=
  match hq : a.kind q with
  | .store v => decidable_of_iff (a.fetched i tr = some (a.val s))
      ⟨fun h _ _ => h, fun h => h v hq⟩
  | .fetch => isTrue (fun v hv => by rw [hq] at hv; cases hv)
  | .aside => isTrue (fun v hv => by rw [hq] at hv; cases hv)
  | .other => isTrue (fun v hv => by rw [hq] at hv; cases hv)

/-- What the trace says about the value: a process holds what it fetched,
and the property holds of the value and of the processes that have
stored. -/
structure Inv (change : ι → V → V → Prop) (ok : ι → α → Prop) (P : (ι → Prop) → V → Prop)
    (tr : List (Pool.Event ι Q R)) (s : S) : Prop where
  /-- What a process holds it was told by its fetch. -/
  holding : ∀ i v, (a.protocol (change i) (ok i)).phase i tr = .holding v →
    a.fetched i tr = some v
  /-- The property of the changes made so far. -/
  changes : P (fun i => (a.protocol (change i) (ok i)).phase i tr = .stored) (a.val s)

variable {a} {serve : C → (q : Q) → S → R q × S} {A : C → Prop}
variable {change : ι → V → V → Prop} {ok : ι → α → Prop} {P : (ι → Prop) → V → Prop}

theorem fetched_append_of_ne {i j : ι} (hij : i ≠ j) (tr : List (Pool.Event ι Q R)) (q : Q)
    (r : R q) : a.fetched j (tr ++ [⟨i, q, r⟩]) = a.fetched j tr := by
  rw [fetched_append]
  dsimp only
  split
  · rw [if_neg hij]
  · rfl

/-- A request that is no fetch leaves what was fetched. -/
theorem fetched_append_of_kind {i : ι} (tr : List (Pool.Event ι Q R)) {q : Q} (r : R q)
    (hq : a.kind q ≠ .fetch) : a.fetched i (tr ++ [⟨i, q, r⟩]) = a.fetched i tr := by
  rw [fetched_append]
  dsimp only
  split
  · next h => exact absurd h hq
  · rfl

/-- One step moves one process, to the phase `g`. -/
theorem Inv.of_next {tr : List (Pool.Event ι Q R)} {s s' : S} {i : ι} {q : Q} {r : R q}
    {g : Phase V} (h : a.Inv change ok P tr s)
    (hg : (a.protocol (change i) (ok i)).next
      ((a.protocol (change i) (ok i)).phase i tr) q r = g)
    (hholding : ∀ v, g = .holding v → a.fetched i (tr ++ [⟨i, q, r⟩]) = some v)
    (hchanges : P (fun j => if j = i then g = .stored
      else (a.protocol (change j) (ok j)).phase j tr = .stored) (a.val s')) :
    a.Inv change ok P (tr ++ [⟨i, q, r⟩]) s' := by
  have hphase : ∀ j, (a.protocol (change j) (ok j)).phase j (tr ++ [⟨i, q, r⟩])
      = if j = i then g else (a.protocol (change j) (ok j)).phase j tr := by
    intro j
    rw [Protocol.phase_append]
    by_cases hj : j = i
    · subst hj
      rw [if_pos rfl, if_pos rfl]
      exact hg
    · rw [if_neg hj, if_neg (Ne.symm hj)]
  refine ⟨fun j v hj => ?_, ?_⟩
  · rw [hphase] at hj
    by_cases hji : j = i
    · subst hji
      rw [if_pos rfl] at hj
      exact hholding v hj
    · rw [if_neg hji] at hj
      rw [fetched_append_of_ne (Ne.symm hji)]
      exact h.holding j v hj
  · have hD : (fun j => (a.protocol (change j) (ok j)).phase j (tr ++ [⟨i, q, r⟩]) = .stored)
        = fun j => if j = i then g = .stored
            else (a.protocol (change j) (ok j)).phase j tr = .stored := by
      funext j
      rw [hphase]
      split <;> rfl
    rw [hD]
    exact hchanges

/-- A step that neither stores nor unstores a change, and leaves the value
alone, leaves the property alone. -/
theorem Inv.changes_same {tr : List (Pool.Event ι Q R)} {s s' : S} {i : ι} {g : Phase V}
    (h : a.Inv change ok P tr s) (hval : a.val s' = a.val s)
    (hg : g = .stored ↔ (a.protocol (change i) (ok i)).phase i tr = .stored) :
    P (fun j => if j = i then g = .stored
      else (a.protocol (change j) (ok j)).phase j tr = .stored) (a.val s') := by
  have hD : (fun j => if j = i then g = .stored
        else (a.protocol (change j) (ok j)).phase j tr = .stored)
      = fun j => (a.protocol (change j) (ok j)).phase j tr = .stored := by
    funext j
    by_cases hj : j = i
    · subst hj
      rw [if_pos rfl]
      exact propext hg
    · rw [if_neg hj]
  rw [hD, hval]
  exact h.changes

section Step

variable {tr : List (Pool.Event ι Q R)} {s : S} {i : ι} {q : Q} {c : C}

/-- A request aside, of a process that holds nothing. -/
theorem Inv.step_aside (hf : a.Faithful serve A) (hc : A c) {g : Phase V}
    (hph : (a.protocol (change i) (ok i)).phase i tr = g)
    (hnext : ∀ r, (a.protocol (change i) (ok i)).next g q r = g) (hne : ∀ v, g ≠ .holding v)
    (hq : a.kind q = .aside) (h : a.Inv change ok P tr s) :
    a.Inv change ok P (tr ++ [⟨i, q, (serve c q s).1⟩]) (serve c q s).2 := by
  refine h.of_next (by rw [hph]; exact hnext _) (fun v hv => absurd hv (hne v))
    (h.changes_same (hf.aside c q s hc hq) (by rw [hph]))

/-- A request aside, of a process that holds a value. -/
theorem Inv.step_holding (hf : a.Faithful serve A) (hc : A c) {v : V}
    (hph : (a.protocol (change i) (ok i)).phase i tr = .holding v) (hq : a.kind q = .aside)
    (h : a.Inv change ok P tr s) :
    a.Inv change ok P (tr ++ [⟨i, q, (serve c q s).1⟩]) (serve c q s).2 := by
  refine h.of_next (g := .holding v) ?_ (fun w hw => ?_)
    (h.changes_same (hf.aside c q s hc hq) (by simp [hph]))
  · rw [hph]
    simp only [protocol, hq]
  · cases hw
    rw [fetched_append_of_kind tr _ (by rw [hq]; exact fun e => by cases e)]
    exact h.holding i v hph

/-- A fetch tells its process the value. -/
theorem Inv.step_fetch (hf : a.Faithful serve A) (hc : A c)
    (hph : (a.protocol (change i) (ok i)).phase i tr = .idle) (hq : a.kind q = .fetch)
    (h : a.Inv change ok P tr s) :
    a.Inv change ok P (tr ++ [⟨i, q, (serve c q s).1⟩]) (serve c q s).2 := by
  have hval := hf.fetch c q s hc hq
  cases hseen : a.seen q (serve c q s).1 with
  | none =>
    refine h.of_next (g := .gaveUp) ?_ (fun v hv => by cases hv)
      (h.changes_same hval (by simp [hph]))
    rw [hph]
    simp only [protocol, hseen]
  | some v =>
    refine h.of_next (g := .holding v) ?_ (fun w hw => ?_)
      (h.changes_same hval (by simp [hph]))
    · rw [hph]
      simp only [protocol, hseen]
    · cases hw
      rw [fetched_append]
      simp only [hq, if_true, hseen]

/-- A store of a change of the value changes the value, if it is granted. -/
theorem Inv.step_store (hf : a.Faithful serve A)
    (hP : ∀ D v w i, P D v → ¬ D i → change i v w → P (fun j => D j ∨ j = i) w) (hc : A c)
    {w : V} (hph : (a.protocol (change i) (ok i)).phase i tr = .holding (a.val s))
    (hq : a.kind q = .store w) (hch : change i (a.val s) w) (h : a.Inv change ok P tr s) :
    a.Inv change ok P (tr ++ [⟨i, q, (serve c q s).1⟩]) (serve c q s).2 := by
  have hst := hf.store c q s w hc hq
  cases hgr : a.granted q (serve c q s).1 with
  | false =>
    rw [hgr] at hst
    refine h.of_next (g := .gaveUp) ?_ (fun v hv => by cases hv)
      (h.changes_same hst (by simp [hph]))
    rw [hph]
    simp [protocol, hq, hgr]
  | true =>
    rw [hgr] at hst
    refine h.of_next (g := .stored) ?_ (fun v hv => by cases hv) ?_
    · rw [hph]
      simp [protocol, hq, hgr]
    · rw [hst, if_pos rfl]
      have hnew := hP _ (a.val s) w i h.changes (by rw [hph]; exact fun e => by cases e) hch
      have hD : (fun j => if j = i then Phase.stored = (Phase.stored : Phase V)
            else (a.protocol (change j) (ok j)).phase j tr = .stored)
          = fun j => (a.protocol (change j) (ok j)).phase j tr = .stored ∨ j = i := by
        funext j
        by_cases hj : j = i <;> simp [hj]
      rw [hD]
      exact hnew

/-- **One step.** A fetch tells its process the value; a store of a change
of that value changes the value; and nothing else touches it. -/
theorem Inv.step (hf : a.Faithful serve A)
    (hP : ∀ D v w i, P D v → ¬ D i → change i v w → P (fun j => D j ∨ j = i) w) (hc : A c)
    (hfound : a.FindsFetched tr s i c q)
    (hallow : (a.protocol (change i) (ok i)).allow
      ((a.protocol (change i) (ok i)).phase i tr) q)
    (h : a.Inv change ok P tr s) :
    a.Inv change ok P (tr ++ [⟨i, q, (serve c q s).1⟩]) (serve c q s).2 := by
  cases hph : (a.protocol (change i) (ok i)).phase i tr with
  | idle =>
    rw [hph] at hallow
    exact h.step_fetch hf hc hph hallow
  | holding v =>
    rw [hph] at hallow
    rcases hallow with hq | ⟨w, hq, hch⟩
    · exact h.step_holding hf hc hph hq
    · -- the value found is the value fetched, so the change is a change of it
      have hv : a.val s = v :=
        Option.some.inj ((hfound w hq).symm.trans (h.holding i v hph))
      subst hv
      exact h.step_store hf hP hc hph hq hch
  -- a process that has stored, or never will, makes only requests aside
  | stored =>
    rw [hph] at hallow
    exact h.step_aside hf hc hph (fun _ => rfl) (fun v e => by cases e) hallow
  | gaveUp =>
    rw [hph] at hallow
    exact h.step_aside hf hc hph (fun _ => rfl) (fun v e => by cases e) hallow

end Step

/-- **No change is lost where every store finds what was fetched.** A
property that every change carries from the value before to the value
after, counting its process among those that have changed it, holds of the
value after every such run – and every process that returned success is
among them. -/
theorem run_changes (hf : a.Faithful serve A)
    (hP : ∀ D v w i, P D v → ¬ D i → change i v w → P (fun j => D j ∨ j = i) w)
    {code : ι → Prog Q R α} (hcode : ∀ i, (a.protocol (change i) (ok i)).Follows .idle (code i))
    {s : S} (h0 : P (fun _ => False) (a.val s)) {sched : List (ι × C)}
    (hA : ∀ ic ∈ sched, A ic.2)
    (hfound : Pool.Meets serve a.FindsFetched sched (Pool.start code s)) :
    let x := Pool.run serve sched (Pool.start code s)
    ∃ D, P D (a.val x.store) ∧ ∀ i r, x.returned i = some r → ok i r → D i := by
  intro x
  have hstart : a.Inv change ok P ([] : List (Pool.Event ι Q R)) s := by
    refine ⟨fun i v hv => ?_, ?_⟩
    · rw [Protocol.phase_nil] at hv
      cases hv
    · have hD : (fun i => (a.protocol (change i) (ok i)).phase i
          ([] : List (Pool.Event ι Q R)) = .stored) = fun _ => False := by
        funext i
        rw [Protocol.phase_nil]
        exact propext (iff_false_intro (fun e => by cases e))
      rw [hD]
      exact h0
  have hcode' : (Pool.start code s).Conforms (fun i => a.protocol (change i) (ok i)) := hcode
  have hstep : ∀ tr s i q c, A c → a.FindsFetched tr s i c q →
      (a.protocol (change i) (ok i)).allow ((a.protocol (change i) (ok i)).phase i tr) q →
      a.Inv change ok P tr s →
      a.Inv change ok P (tr ++ [⟨i, q, (serve c q s).1⟩]) (serve c q s).2 :=
    fun tr s i q c hc hfound hallow h => Inv.step hf hP hc hfound hallow h
  obtain ⟨hconf, hinv⟩ := Pool.run_invariant hstep hA hfound hcode' hstart
  refine ⟨_, hinv.changes, fun i r hret hok => ?_⟩
  have hi := hconf i
  rw [Pool.Config.returned_eq_some.mp hret] at hi
  exact hi.resolve_right (not_not_intro hok)

end Access

/-! ## A document as a value

The document under a key is such a value: fetched by a get, stored by one
kind of store request without a CAS. -/

section Document

variable {K : Type} [DecidableEq K] {op : Kv.StoreOp} {k : K} {r : Kv.Request K V}

/-- What a request does to the document of `k`, for clients that store it
by `op`. -/
def docKind (op : Kv.StoreOp) (k : K) : Kv.Request K V → Kind (Option V)
  | .get k' => if k' = k then .fetch else .other
  | .store op' k' v cas => if op' = op ∧ k' = k ∧ cas = 0 then .store (some v) else .other
  | .remove _ => .other

/-- The document a reply tells. A failing status is read as there being
none. -/
def docSeen (r : Kv.Reply V) : Option (Option V) :=
  if r.rc ≠ none then none
  else if r.status ≠ none then some none
  else r.doc.map (fun d => some d.value)

/-- Whether a reply says that the document was stored. -/
def docGranted (r : Kv.Reply V) : Bool := r.rc = none ∧ r.status = none

@[simp] theorem docKind_get : docKind op k (.get k : Kv.Request K V) = .fetch := if_pos rfl

@[simp] theorem docKind_store (v : V) : docKind op k (.store op k v 0) = .store (some v) :=
  if_pos ⟨rfl, rfl, rfl⟩

theorem get_of_docKind (h : docKind op k r = .fetch) : r = .get k := by
  cases r with
  | get k' =>
    simp only [docKind] at h
    split at h
    · next hk => rw [hk]
    · cases h
  | store op' k' v cas => simp only [docKind] at h; split at h <;> cases h
  | remove k' => cases h

theorem store_of_docKind {w : Option V} (h : docKind op k r = .store w) :
    ∃ v, w = some v ∧ r = .store op k v 0 := by
  cases r with
  | get k' => simp only [docKind] at h; split at h <;> cases h
  | store op' k' v cas =>
    simp only [docKind] at h
    split at h
    · next hk =>
      obtain ⟨rfl, rfl, rfl⟩ := hk
      cases h
      exact ⟨v, rfl, rfl⟩
    · cases h
  | remove k' => cases h

theorem docKind_ne_aside : docKind op k r ≠ .aside := by
  cases r with
  | get k' => simp only [docKind]; split <;> exact fun h => by cases h
  | store op' k' v cas => simp only [docKind]; split <;> exact fun h => by cases h
  | remove k' => exact fun h => by cases h

/-- A get that is served tells the document. -/
theorem docSeen_serve (b : Kv.Collection K V) (k : K) :
    docSeen ⟨none, (b.serve (.get k)).1, (b.serve (.get k)).2.1⟩ = some (b.val k) := by
  cases hd : b.docs k with
  | none => simp [docSeen, Kv.Collection.serve, Kv.Collection.val, hd]
  | some d => simp [docSeen, Kv.Collection.serve, Kv.Collection.val, hd]

/-- A store that is served stores the document or changes nothing, and the
reply says which. -/
theorem val_serve_store (b : Kv.Collection K V) (op : Kv.StoreOp) (k : K) (v : V) :
    ((b.serve (.store op k v 0)).2.2).val k
      = if docGranted (⟨none, (b.serve (.store op k v 0)).1, (b.serve (.store op k v 0)).2.1⟩
          : Kv.Reply V) then some v else b.val k := by
  cases hv : b.verdict op k 0 with
  | none => simp [docGranted, Kv.Collection.serve, hv]
  | some e => simp [docGranted, Kv.Collection.serve, hv]

variable {S C : Type} {a : Access Q R S (Option V)} {serve : C → (q : Q) → S → R q × S}
  {A : C → Prop}

/-- **Access to a document is faithful** where every request is aside and
leaves it, or is one to its collection that the collection serves. -/
theorem Access.faithful_of_document (op : Kv.StoreOp) {docs : S → Kv.Collection K V}
    (hval : ∀ s, a.val s = (docs s).val k)
    (h : ∀ c q s, A c →
      (a.kind q = .aside ∧ a.val (serve c q s).2 = a.val s)
        ∨ ∃ r, a.kind q = docKind op k r
          ∧ a.seen q (serve c q s).1
            = docSeen ⟨none, ((docs s).serve r).1, ((docs s).serve r).2.1⟩
          ∧ a.granted q (serve c q s).1
            = docGranted (⟨none, ((docs s).serve r).1, ((docs s).serve r).2.1⟩ : Kv.Reply V)
          ∧ docs (serve c q s).2 = ((docs s).serve r).2.2) :
    a.Faithful serve A where
  seen c q s v hc hq hv := by
    obtain ⟨haside, -⟩ | ⟨r, hkind, hseen, -, -⟩ := h c q s hc
    · rw [haside] at hq
      cases hq
    · rw [hkind] at hq
      cases get_of_docKind hq
      rw [hseen, docSeen_serve] at hv
      rw [hval]
      exact (Option.some.inj hv).symm
  fetch c q s hc hq := by
    obtain ⟨haside, -⟩ | ⟨r, hkind, -, -, hdocs⟩ := h c q s hc
    · rw [haside] at hq
      cases hq
    · rw [hkind] at hq
      cases get_of_docKind hq
      have hget : ((docs s).serve (.get k)).2.2 = docs s := Kv.Collection.answer_get .served _ _
      rw [hval, hval, hdocs, hget]
  store c q s v hc hq := by
    obtain ⟨haside, -⟩ | ⟨r, hkind, -, hgranted, hdocs⟩ := h c q s hc
    · rw [haside] at hq
      cases hq
    · rw [hkind] at hq
      obtain ⟨b, rfl, rfl⟩ := store_of_docKind hq
      rw [hval, hval, hdocs, hgranted]
      exact val_serve_store _ _ _ _
  aside c q s hc hq := by
    obtain ⟨-, hleaves⟩ | ⟨r, hkind, -, -, -⟩ := h c q s hc
    · exact hleaves
    · rw [hkind] at hq
      exact absurd hq docKind_ne_aside

end Document

end Rmw

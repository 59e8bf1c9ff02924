import Mathlib.Logic.Function.Basic
import Mathlib.Tactic.Common

/-!
# A collection of documents with compare-and-swap

A document store keeps, per key, a value and a **CAS**: a number that
changes with every mutation, so that a client can ask for a change to be
made only if the document is still the one it read. Each mutation draws a
CAS that was never used before, and none is zero, since zero is how a
request says that it does not care.

Freshness is what makes the comparison mean anything – a document that is
removed and inserted again must not come back under the CAS a reader
still holds – so it is a field of `Kv.Collection` and not a hypothesis of
the lemmas.

A server can be reached over a network that fails. `Kv.Collection.answer`
is the server seen through it: a request may be served, refused with an
error it did not earn, never sent, or served without its reply getting
back.
-/

namespace Kv

/-- The errors a request can come back with. -/
inductive Error where
  /-- The key has no document. -/
  | notFound
  /-- The key already has a document. -/
  | keyExists
  /-- The document is no longer the one the client read. -/
  | casMismatch
  /-- The reply did not come in time. -/
  | timeout
  /-- Any other status, by its number. -/
  | other (code : ℕ)
  deriving DecidableEq, Repr

/-- The status of a request: `none` is success. -/
abbrev Status := Option Error

/-- A document: its value and the CAS of its last mutation. -/
structure Doc (V : Type) where
  /-- What the client stored. -/
  value : V
  /-- The number the last mutation drew. -/
  cas : ℕ
  deriving DecidableEq

/-- **A collection**: a document or none per key, and the CAS the last
mutation drew. Every CAS in use was drawn, and none is zero. -/
structure Collection (K V : Type) where
  /-- The documents. -/
  docs : K → Option (Doc V)
  /-- The CAS of the last mutation. -/
  lastCas : ℕ
  /-- Every CAS in use is nonzero and was drawn. -/
  fresh : ∀ k d, docs k = some d → 0 < d.cas ∧ d.cas ≤ lastCas

/-- How a store request treats the document that is already there. -/
inductive StoreOp where
  /-- Store whatever is there. -/
  | upsert
  /-- Store only where there is nothing. -/
  | insert
  /-- Store only over an existing document. -/
  | replace
  deriving DecidableEq, Repr

/-- The requests a collection serves. The CAS of a store request is the
one the document has to have, and zero if any will do. -/
inductive Request (K V : Type) where
  /-- Fetch the document. -/
  | get (k : K)
  /-- Store a value. -/
  | store (op : StoreOp) (k : K) (v : V) (cas : ℕ)
  /-- Remove the document. -/
  | remove (k : K)

/-- The key a request is about. -/
def Request.key {K V : Type} : Request K V → K
  | get k => k
  | store _ k _ _ => k
  | remove k => k

/-- The request is for a document that is there. -/
def Request.Wants {K V : Type} : Request K V → Prop
  | store op _ _ _ => op = .replace
  | _ => True

instance {K V : Type} : DecidablePred (Request.Wants : Request K V → Prop) := fun r =>
  match r with
  | .store op _ _ _ => inferInstanceAs (Decidable (op = .replace))
  | .get _ => isTrue trivial
  | .remove _ => isTrue trivial

namespace Collection

variable {K V : Type}

/-- The collection with no document. -/
def empty : Collection K V := ⟨fun _ => none, 0, fun _ _ h => by cases h⟩

/-- The value stored at a key. -/
def val (c : Collection K V) (k : K) : Option V := (c.docs k).map Doc.value

@[simp] theorem val_empty (k : K) : (empty : Collection K V).val k = none := rfl

theorem val_eq_none (c : Collection K V) (k : K) : c.val k = none ↔ c.docs k = none :=
  Option.map_eq_none_iff

theorem val_of_docs {c : Collection K V} {k : K} {d : Doc V} (h : c.docs k = some d) :
    c.val k = some d.value := by
  rw [val, h, Option.map_some]

theorem val_ne_none_of_docs {c : Collection K V} {k : K} {d : Doc V} (h : c.docs k = some d) :
    c.val k ≠ none := by
  rw [val_of_docs h]
  exact Option.some_ne_none _

variable [DecidableEq K]

/-- The collection after a mutation that stores `v` at `k`. -/
def put (c : Collection K V) (k : K) (v : V) : Collection K V where
  docs k' := if k' = k then some ⟨v, c.lastCas + 1⟩ else c.docs k'
  lastCas := c.lastCas + 1
  fresh k' d h := by
    by_cases hk : k' = k
    · rw [if_pos hk] at h
      cases h
      exact ⟨Nat.succ_pos _, Nat.le_refl _⟩
    · rw [if_neg hk] at h
      exact ⟨(c.fresh k' d h).1, Nat.le_succ_of_le (c.fresh k' d h).2⟩

/-- The collection after the document at `k` is removed. -/
def erase (c : Collection K V) (k : K) : Collection K V where
  docs k' := if k' = k then none else c.docs k'
  lastCas := c.lastCas + 1
  fresh k' d h := by
    by_cases hk : k' = k
    · rw [if_pos hk] at h
      cases h
    · rw [if_neg hk] at h
      exact ⟨(c.fresh k' d h).1, Nat.le_succ_of_le (c.fresh k' d h).2⟩

@[simp] theorem docs_put (c : Collection K V) (k k' : K) (v : V) :
    (c.put k v).docs k' = if k' = k then some ⟨v, c.lastCas + 1⟩ else c.docs k' := rfl

@[simp] theorem docs_erase (c : Collection K V) (k k' : K) :
    (c.erase k).docs k' = if k' = k then none else c.docs k' := rfl

/-- A document that is stored is a new one, even with the value of the old. -/
theorem docs_put_ne (c : Collection K V) (k : K) (v : V) : (c.put k v).docs k ≠ c.docs k := by
  rw [docs_put, if_pos rfl]
  intro h
  exact Nat.not_succ_le_self _ (c.fresh k _ h.symm).2

@[simp] theorem val_put (c : Collection K V) (k k' : K) (v : V) :
    (c.put k v).val k' = if k' = k then some v else c.val k' := by
  unfold val
  rw [docs_put]
  split <;> rfl

@[simp] theorem val_erase (c : Collection K V) (k k' : K) :
    (c.erase k).val k' = if k' = k then none else c.val k' := by
  unfold val
  rw [docs_erase]
  split <;> rfl

/-! ## Serving a request -/

/-- Whether a store request is granted, and the error it comes back with
if not. -/
def verdict (c : Collection K V) (op : StoreOp) (k : K) (cas : ℕ) : Status :=
  match op, c.docs k with
  | .upsert, none => if cas = 0 then none else some .notFound
  | .insert, none => none
  | .insert, some _ => some .keyExists
  | .replace, none => some .notFound
  | _, some d => if cas = 0 ∨ d.cas = cas then none else some .casMismatch

omit [DecidableEq K] in
/-- A store that asks for nothing is always granted. -/
@[simp] theorem verdict_upsert_zero (c : Collection K V) (k : K) :
    c.verdict .upsert k 0 = none := by
  unfold verdict
  split <;> simp_all

omit [DecidableEq K] in
/-- A replacement under the CAS of the document is granted. -/
theorem verdict_replace_cas {c : Collection K V} {k : K} {d : Doc V} (h : c.docs k = some d) :
    c.verdict .replace k d.cas = none := by
  unfold verdict
  rw [h]
  simp

/-- **The server**: the status of a request, the document a fetch found,
and the collection the request leaves. -/
def serve (c : Collection K V) : Request K V → Status × Option (Doc V) × Collection K V
  | .get k =>
    match c.docs k with
    | some d => (none, some d, c)
    | none => (some .notFound, none, c)
  | .store op k v cas =>
    match c.verdict op k cas with
    | none => (none, none, c.put k v)
    | some e => (some e, none, c)
  | .remove k =>
    match c.docs k with
    | some _ => (none, none, c.erase k)
    | none => (some .notFound, none, c)

omit [DecidableEq K] in
/-- An insertion is granted where there is nothing. -/
theorem verdict_insert_iff (c : Collection K V) (k : K) (cas : ℕ) :
    c.verdict .insert k cas = none ↔ c.val k = none := by
  rw [val_eq_none]
  unfold verdict
  cases c.docs k with
  | none => exact iff_of_true rfl rfl
  | some d => exact iff_of_false (Option.some_ne_none _) (Option.some_ne_none _)

/-- A store that is granted stores its value. -/
theorem serve_store_granted {c : Collection K V} {op : StoreOp} {k : K} {v : V} {cas : ℕ}
    (h : (c.serve (.store op k v cas)).1 = none) :
    c.verdict op k cas = none ∧ (c.serve (.store op k v cas)).2.2 = c.put k v := by
  cases hv : c.verdict op k cas with
  | none => exact ⟨rfl, by simp only [serve, hv]⟩
  | some e => simp [serve, hv] at h

/-- A removal that is granted removes what was there. -/
theorem serve_remove_granted {c : Collection K V} {k : K} (h : (c.serve (.remove k)).1 = none) :
    c.val k ≠ none ∧ (c.serve (.remove k)).2.2 = c.erase k := by
  cases hd : c.docs k with
  | none => simp [serve, hd] at h
  | some d =>
    exact ⟨val_ne_none_of_docs hd, by simp only [serve, hd]⟩

/-- A removal leaves nothing. -/
theorem val_serve_remove (c : Collection K V) (k : K) :
    (c.serve (.remove k)).2.2.val k = none := by
  cases hd : c.docs k with
  | none =>
    simp only [serve, hd]
    exact (val_eq_none c k).mpr hd
  | some d => simp [serve, hd]

end Collection

/-- **What becomes of a request on its way** to the server and back. -/
inductive Fate where
  /-- It is served, and the reply is the server's. -/
  | served
  /-- The server refuses it with an error, and nothing happens. -/
  | refused (e : Error)
  /-- The client library fails before anything is sent. -/
  | unsent (e : Error)
  /-- It is served, and the reply is lost: the client sees an error. -/
  | lost (e : Error)
  deriving DecidableEq

/-- The fates under which a failed request has had no effect. -/
def Fate.Clean : Fate → Prop
  | lost _ => False
  | _ => True

/-- What the client library makes of a request: the result code of the
call itself, and the status and the document of the reply. -/
structure Reply (V : Type) where
  /-- The result code of the library call. -/
  rc : Status
  /-- The status the reply carries. -/
  status : Status
  /-- The document the reply carries. -/
  doc : Option (Doc V)

namespace Collection

variable {K V : Type} [DecidableEq K]

/-- **The server as the client sees it.** -/
def answer (f : Fate) (c : Collection K V) (r : Request K V) : Reply V × Collection K V :=
  match f with
  | .served => (⟨none, (c.serve r).1, (c.serve r).2.1⟩, (c.serve r).2.2)
  | .refused e => (⟨none, some e, none⟩, c)
  | .unsent e => (⟨some e, none, none⟩, c)
  | .lost e => (⟨none, some e, none⟩, (c.serve r).2.2)

/-! ## What a request can do

Whatever its fate, a request leaves the collection alone, stores the value
it carries where its verdict allows it, or removes a document that was
there. -/

/-- The collections a served request can leave. -/
theorem serve_cases (c : Collection K V) (r : Request K V) :
    (c.serve r).2.2 = c
      ∨ (∃ op k v cas, r = .store op k v cas ∧ c.verdict op k cas = none
          ∧ (c.serve r).2.2 = c.put k v)
      ∨ (∃ k d, r = .remove k ∧ c.docs k = some d ∧ (c.serve r).2.2 = c.erase k) := by
  cases r with
  | get k =>
    left
    simp only [serve]
    split <;> rfl
  | store op k v cas =>
    cases hv : c.verdict op k cas with
    | none => exact .inr (.inl ⟨op, k, v, cas, rfl, hv, by simp only [serve, hv]⟩)
    | some e => exact .inl (by simp only [serve, hv])
  | remove k =>
    cases hd : c.docs k with
    | none => exact .inl (by simp only [serve, hd])
    | some d => exact .inr (.inr ⟨k, d, rfl, hd, by simp only [serve, hd]⟩)

/-- The collections a request can leave, whatever its fate. -/
theorem answer_cases (f : Fate) (c : Collection K V) (r : Request K V) :
    (c.answer f r).2 = c
      ∨ (∃ op k v cas, r = .store op k v cas ∧ c.verdict op k cas = none
          ∧ (c.answer f r).2 = c.put k v)
      ∨ (∃ k d, r = .remove k ∧ c.docs k = some d ∧ (c.answer f r).2 = c.erase k) := by
  cases f with
  | served => exact serve_cases c r
  | refused e => exact .inl rfl
  | unsent e => exact .inl rfl
  | lost e => exact serve_cases c r

/-- A store leaves the collection alone, or stores its value. -/
theorem answer_store_cases (f : Fate) (c : Collection K V) (op : StoreOp) (k : K) (v : V)
    (cas : ℕ) :
    (c.answer f (.store op k v cas)).2 = c ∨ (c.answer f (.store op k v cas)).2 = c.put k v := by
  obtain h | ⟨op', k', v', cas', hr, -, h⟩ | ⟨k', d, hr, -, -⟩ :=
    answer_cases f c (.store op k v cas)
  · exact .inl h
  · cases hr
    exact .inr h
  · cases hr

/-- A removal leaves the collection alone, or removes the document. -/
theorem answer_remove_cases (f : Fate) (c : Collection K V) (k : K) :
    (c.answer f (.remove k)).2 = c ∨ (c.answer f (.remove k)).2 = c.erase k := by
  obtain h | ⟨op', k', v', cas', hr, -, -⟩ | ⟨k', d, hr, -, h⟩ := answer_cases f c (.remove k)
  · exact .inl h
  · cases hr
  · cases hr
    exact .inr h

/-- A fetch changes nothing. -/
@[simp] theorem answer_get (f : Fate) (c : Collection K V) (k : K) :
    (c.answer f (.get k)).2 = c := by
  obtain h | ⟨op, k', v, cas, hr, -, -⟩ | ⟨k', d, hr, -, -⟩ := answer_cases f c (.get k)
  · exact h
  · cases hr
  · cases hr

/-- **What a fetch comes back with**: the document, an error of the client
library, or the status of a failure. -/
theorem answer_get_cases (f : Fate) (c : Collection K V) (k : K) :
    (∃ d, f = .served ∧ c.docs k = some d ∧ (c.answer f (.get k)).1 = ⟨none, none, some d⟩)
      ∨ (∃ e, f = .unsent e ∧ (c.answer f (.get k)).1 = ⟨some e, none, none⟩)
      ∨ ((∀ e, f ≠ .unsent e) ∧ (f = .served → c.docs k = none)
          ∧ ∃ e, (c.answer f (.get k)).1 = ⟨none, some e, none⟩) := by
  cases f with
  | served =>
    cases hd : c.docs k with
    | none =>
      refine .inr (.inr ⟨nofun, fun _ => rfl, .notFound, ?_⟩)
      simp only [answer, serve, hd]
    | some d =>
      refine .inl ⟨d, rfl, rfl, ?_⟩
      simp only [answer, serve, hd]
  | refused e => exact .inr (.inr ⟨nofun, nofun, e, rfl⟩)
  | unsent e => exact .inr (.inl ⟨e, rfl, rfl⟩)
  | lost e => exact .inr (.inr ⟨nofun, nofun, e, rfl⟩)

/-- A fetch tells the document there is. -/
theorem docs_of_answer_get {f : Fate} {c : Collection K V} {k : K} {d : Doc V}
    (h : (c.answer f (.get k)).1.doc = some d) : c.docs k = some d := by
  cases f with
  | served =>
    cases hd : c.docs k with
    | none => simp [answer, serve, hd] at h
    | some d' => simpa [answer, serve, hd] using h
  | refused e => cases h
  | unsent e => cases h
  | lost e => cases h

/-- A reply without an error is the server's. -/
theorem serve_of_granted {f : Fate} {c : Collection K V} {r : Request K V}
    (hrc : (c.answer f r).1.rc = none) (hst : (c.answer f r).1.status = none) :
    f = .served ∧ (c.serve r).1 = none := by
  cases f with
  | served => exact ⟨rfl, hst⟩
  | refused e => cases hst
  | unsent e => cases hrc
  | lost e => cases hst

/-- A request that is not served has no effect, where failures have
none. -/
theorem answer_of_not_served {f : Fate} (hf : f.Clean) (hs : f ≠ .served) (c : Collection K V)
    (r : Request K V) : (c.answer f r).2 = c := by
  cases f with
  | served => exact absurd rfl hs
  | refused e => rfl
  | unsent e => rfl
  | lost e => exact hf.elim

/-- A request that the server answers with an error has changed nothing. -/
theorem serve_of_error {c : Collection K V} {r : Request K V} {e : Error}
    (h : (c.serve r).1 = some e) : (c.serve r).2.2 = c := by
  cases r with
  | get k => simp only [serve]; split <;> rfl
  | store op k v cas =>
    simp only [serve] at h ⊢
    split at h
    · cases h
    · rfl
  | remove k =>
    simp only [serve] at h ⊢
    split at h
    · cases h
    · rfl

/-- **Granted or nothing**: where failures have no effect, a request is
served and granted, or the client sees that it was not and the collection is
as it was. -/
theorem answer_of_clean {f : Fate} (hf : f.Clean) (c : Collection K V) (r : Request K V) :
    ((c.answer f r).1.rc = none ∧ (c.answer f r).1.status = none
        ∧ f = .served ∧ (c.serve r).1 = none)
      ∨ (¬ ((c.answer f r).1.rc = none ∧ (c.answer f r).1.status = none)
        ∧ (c.answer f r).2 = c) := by
  by_cases hs : f = .served
  · subst hs
    cases hst : (c.serve r).1 with
    | none => exact .inl ⟨rfl, hst, rfl, rfl⟩
    | some e =>
      refine .inr ⟨fun h => ?_, serve_of_error hst⟩
      exact absurd (hst.symm.trans h.2) (Option.some_ne_none e)
  · refine .inr ⟨fun h => hs (serve_of_granted h.1 h.2).1, answer_of_not_served hf hs c r⟩

/-- A request that is not granted has left the collection alone, where
failures have no effect. -/
theorem answer_of_not_granted {f : Fate} (hf : f.Clean) {c : Collection K V} {r : Request K V}
    (h : ¬ ((c.answer f r).1.rc = none ∧ (c.answer f r).1.status = none)) :
    (c.answer f r).2 = c := by
  obtain ⟨hrc, hst, -⟩ | ⟨-, hsame⟩ := answer_of_clean hf c r
  · exact absurd ⟨hrc, hst⟩ h
  · exact hsame

/-- **A document that is not there is not granted**, whatever befalls the
request for it. -/
theorem not_granted_of_absent {f : Fate} {c : Collection K V} {r : Request K V} (hr : r.Wants)
    (h : c.val r.key = none) :
    ¬ ((c.answer f r).1.rc = none ∧ (c.answer f r).1.status = none) := by
  rintro ⟨hrc, hst⟩
  obtain ⟨-, hserve⟩ := serve_of_granted hrc hst
  rw [val_eq_none] at h
  cases r with
  | get k => simp [serve, show c.docs k = none from h] at hserve
  | store op k v cas =>
    cases (show op = .replace from hr)
    simp [serve, verdict, show c.docs k = none from h] at hserve
  | remove k => simp [serve, show c.docs k = none from h] at hserve

/-! ## What every document keeps -/

section Keeps

variable {P : K → V → Prop} {c : Collection K V}

/-- **What holds of every value that is stored holds of every document**: of
those a request leaves, and of the one its reply carries. -/
theorem answer_keeps (f : Fate) {r : Request K V} (hc : ∀ k v, c.val k = some v → P k v)
    (hr : ∀ op k v cas, r = .store op k v cas → P k v) :
    (∀ k v, (c.answer f r).2.val k = some v → P k v)
      ∧ ∀ d, (c.answer f r).1.doc = some d → P r.key d.value := by
  refine ⟨fun k v hv => ?_, fun d hd => ?_⟩
  · obtain h | ⟨op, k', v', cas, rfl, -, h⟩ | ⟨k', d, rfl, -, h⟩ := answer_cases f c r
    · exact hc k v (h ▸ hv)
    · rw [h, val_put] at hv
      split at hv
      · next hk =>
        cases hv
        exact hk ▸ hr op k' v cas rfl
      · exact hc k v hv
    · rw [h, val_erase] at hv
      split at hv
      · cases hv
      · exact hc k v hv
  · cases r with
    | get k => exact hc k d.value (val_of_docs (docs_of_answer_get hd))
    | store op k v cas =>
      cases f with
      | served =>
        simp only [answer, serve] at hd
        split at hd <;> cases hd
      | _ => cases hd
    | remove k =>
      cases f with
      | served =>
        simp only [answer, serve] at hd
        split at hd <;> cases hd
      | _ => cases hd

/-- A fetch that is granted comes with its document. -/
theorem doc_of_granted_get {f : Fate} {k : K} (hrc : (c.answer f (.get k)).1.rc = none)
    (hst : (c.answer f (.get k)).1.status = none) : (c.answer f (.get k)).1.doc ≠ none := by
  obtain ⟨d, -, -, h⟩ | ⟨e, -, h⟩ | ⟨-, -, e, h⟩ := answer_get_cases f c k
  · rw [h]
    exact Option.some_ne_none d
  · rw [h] at hrc
    cases hrc
  · rw [h] at hst
    cases hst

end Keeps

/-! ## What a client remembers

A client that fetched a document goes on with its value and its CAS while
others change the collection. The CAS is what its memory is worth: whatever
is stored under the key with that CAS is the document it fetched. -/

/-- **A document as a client fetched it**, some time ago. -/
structure Remembers (c : Collection K V) (k : K) (d : Doc V) : Prop where
  /-- Its CAS is one. -/
  pos : 0 < d.cas
  /-- Its CAS was drawn. -/
  drawn : d.cas ≤ c.lastCas
  /-- A document with its CAS is the one fetched. -/
  same : ∀ d', c.docs k = some d' → d'.cas = d.cas → d' = d

omit [DecidableEq K] in
/-- A client remembers what it has just fetched. -/
theorem Remembers.of_docs {c : Collection K V} {k : K} {d : Doc V} (h : c.docs k = some d) :
    c.Remembers k d where
  pos := (c.fresh k d h).1
  drawn := (c.fresh k d h).2
  same _ h' _ := Option.some.inj (h'.symm.trans h)

/-- What a mutation stores it stores under a new CAS. -/
theorem Remembers.put {c : Collection K V} {k : K} {d : Doc V} (h : c.Remembers k d) (k' : K)
    (v : V) : (c.put k' v).Remembers k d where
  pos := h.pos
  drawn := Nat.le_succ_of_le h.drawn
  same d' hd' hcas := by
    rw [docs_put] at hd'
    split at hd'
    · cases hd'
      exact absurd (hcas ▸ h.drawn) (Nat.not_succ_le_self _)
    · exact h.same d' hd' hcas

/-- **No request makes a memory wrong.** -/
theorem Remembers.answer {c : Collection K V} {k : K} {d : Doc V} (h : c.Remembers k d)
    (f : Fate) (r : Request K V) : (c.answer f r).2.Remembers k d := by
  obtain he | ⟨op, k', v, cas, -, -, he⟩ | ⟨k', d₁, -, -, he⟩ := answer_cases f c r
  · rw [he]
    exact h
  · rw [he]
    exact h.put k' v
  · rw [he]
    refine ⟨h.pos, Nat.le_succ_of_le h.drawn, fun d' hd' hcas => ?_⟩
    rw [docs_erase] at hd'
    split at hd'
    · cases hd'
    · exact h.same d' hd' hcas

omit [DecidableEq K] in
/-- **Compare and swap**: a replacement under a remembered CAS is granted
only if the document is the remembered one. -/
theorem Remembers.docs_of_verdict {c : Collection K V} {k : K} {d : Doc V}
    (h : c.Remembers k d) (hv : c.verdict .replace k d.cas = none) : c.docs k = some d := by
  cases hd : c.docs k with
  | none => simp [verdict, hd] at hv
  | some d' =>
    have hcas : d'.cas = d.cas := by
      simpa [verdict, hd, Nat.pos_iff_ne_zero.mp h.pos] using hv
    rw [h.same d' hd hcas]

omit [DecidableEq K] in
/-- **Compare and swap is exact**: it is granted as long as the document is
the remembered one, and no longer. -/
theorem Remembers.verdict_iff {c : Collection K V} {k : K} {d : Doc V} (h : c.Remembers k d) :
    c.verdict .replace k d.cas = none ↔ c.docs k = some d :=
  ⟨h.docs_of_verdict, fun hd => verdict_replace_cas hd⟩

/-- A document that is stored over is not the one remembered, whatever is
stored. -/
theorem Remembers.docs_put_ne {c : Collection K V} {k : K} {d : Doc V} (h : c.Remembers k d)
    (v : V) : (c.put k v).docs k ≠ some d := by
  rw [docs_put, if_pos rfl]
  intro he
  cases he
  exact Nat.not_succ_le_self _ h.drawn

end Collection

end Kv

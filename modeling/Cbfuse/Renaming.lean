import Mathlib.Order.Basic
import Cbfuse.KeyValue

/-!
# Collections that differ in their CAS

A CAS is a number without a meaning: a client hands it back, and the server
compares. So two collections in which the same values stand under different
numbers are alike, as long as equal numbers of the one are equal numbers of
the other – and so are requests that carry them.

The numbers correspond by a relation `ρ` that grows, since both servers draw
one with every mutation. They need not draw them in step: of the two
collections one may see mutations that the other does not, of keys nobody
compares. That is what the lemmas here are for (`Kv.Collection.Like.answer`,
`Kv.Collection.Like.answer_of_ne`).
-/

namespace Kv

/-- **The numbers of one server, and those of another that they correspond
to.** -/
abbrev Cas := ℕ → ℕ → Prop

variable {K V : Type} {ρ ρ' : Cas}

/-- The same value under corresponding numbers. -/
def Doc.Like (ρ : Cas) (d d' : Doc V) : Prop := d.value = d'.value ∧ ρ d.cas d'.cas

/-- The same documents, or none. -/
inductive DocsLike (ρ : Cas) : Option (Doc V) → Option (Doc V) → Prop where
  /-- No document. -/
  | none : DocsLike ρ none none
  /-- A document. -/
  | some {d d' : Doc V} (h : d.Like ρ d') : DocsLike ρ (some d) (some d')

theorem DocsLike.mono (hρ : ρ ≤ ρ') {o o' : Option (Doc V)} (h : DocsLike ρ o o') :
    DocsLike ρ' o o' := by
  cases h with
  | none => exact .none
  | some h => exact .some ⟨h.1, hρ _ _ h.2⟩

/-- Documents alike have the same value. -/
theorem DocsLike.map_value {o o' : Option (Doc V)} (h : DocsLike ρ o o') :
    o.map Doc.value = o'.map Doc.value := by
  cases h with
  | none => rfl
  | some h => exact congrArg Option.some h.1

/-- **The same request** under corresponding numbers. -/
inductive Request.Like (ρ : Cas) : Request K V → Request K V → Prop where
  /-- A fetch. -/
  | get (k : K) : Like ρ (.get k) (.get k)
  /-- A store that does not care for a number. -/
  | store (op : StoreOp) (k : K) (v : V) : Like ρ (.store op k v 0) (.store op k v 0)
  /-- A store under a number. -/
  | storeCas (op : StoreOp) (k : K) (v : V) {cas cas' : ℕ} (h : ρ cas cas') :
    Like ρ (.store op k v cas) (.store op k v cas')
  /-- A removal. -/
  | remove (k : K) : Like ρ (.remove k) (.remove k)

theorem Request.Like.mono (hρ : ρ ≤ ρ') {r r' : Request K V} (h : r.Like ρ r') :
    r.Like ρ' r' := by
  cases h with
  | get k => exact .get k
  | store op k v => exact .store op k v
  | storeCas op k v h => exact .storeCas op k v (hρ _ _ h)
  | remove k => exact .remove k

theorem Request.Like.key {r r' : Request K V} (h : r.Like ρ r') : r.key = r'.key := by
  cases h <;> rfl

/-- **The same reply**: the same result codes, and documents that are alike. -/
structure Reply.Like (ρ : Cas) (r r' : Reply V) : Prop where
  /-- The result code of the call. -/
  rc : r.rc = r'.rc
  /-- The status. -/
  status : r.status = r'.status
  /-- The document. -/
  doc : DocsLike ρ r.doc r'.doc

namespace Collection

variable {F : K → Prop} {c c' : Collection K V}

/-- **Collections alike at some keys.** -/
structure Like (ρ : Cas) (F : K → Prop) (c c' : Collection K V) : Prop where
  /-- The documents at these keys. -/
  docs : ∀ k, F k → DocsLike ρ (c.docs k) (c'.docs k)
  /-- A number corresponds to one number. -/
  right_unique : ∀ a b b', ρ a b → ρ a b' → b = b'
  /-- One number corresponds to it. -/
  left_unique : ∀ a a' b, ρ a b → ρ a' b → a = a'
  /-- Numbers that correspond were drawn. -/
  drawn : ∀ a b, ρ a b → (0 < a ∧ a ≤ c.lastCas) ∧ 0 < b ∧ b ≤ c'.lastCas

/-- Where the documents at these keys are the same, so are the collections, but
for their numbers. -/
theorem Like.refl (F : K → Prop) (c : Collection K V) :
    c.Like (fun a b => a = b ∧ 0 < a ∧ a ≤ c.lastCas) F c where
  docs k _ := by
    cases hd : c.docs k with
    | none => exact .none
    | some d => exact .some ⟨rfl, rfl, c.fresh k d hd⟩
  right_unique := fun _ _ _ h h' => h.1.symm.trans h'.1
  left_unique := fun _ _ _ h h' => h.1.trans h'.1.symm
  drawn := fun _ _ h => ⟨h.2, h.1 ▸ h.2⟩

theorem Like.val (h : c.Like ρ F c') {k : K} (hk : F k) : c.val k = c'.val k :=
  (h.docs k hk).map_value

/-- One more pair of numbers, the ones drawn next. -/
def drawNext (ρ : Cas) (c c' : Collection K V) : Cas :=
  fun a b => ρ a b ∨ a = c.lastCas + 1 ∧ b = c'.lastCas + 1

theorem le_drawNext (ρ : Cas) (c c' : Collection K V) : ρ ≤ drawNext ρ c c' :=
  fun _ _ h => .inl h

/-- Both collections have drawn. -/
theorem Like.draw (h : c.Like ρ F c') {d d' : Collection K V} (hd : d.lastCas = c.lastCas + 1)
    (hd' : d'.lastCas = c'.lastCas + 1)
    (hdocs : ∀ k, F k → DocsLike (drawNext ρ c c') (d.docs k) (d'.docs k)) :
    d.Like (drawNext ρ c c') F d' where
  docs := hdocs
  right_unique := by
    rintro a b b' (hb | ⟨rfl, rfl⟩) (hb' | ⟨ha, rfl⟩)
    · exact h.right_unique a b b' hb hb'
    · have hdrawn := (h.drawn a b hb).1.2
      omega
    · have hdrawn := (h.drawn _ b' hb').1.2
      omega
    · rfl
  left_unique := by
    rintro a a' b (hb | ⟨rfl, rfl⟩) (hb' | ⟨rfl, hb'⟩)
    · exact h.left_unique a a' b hb hb'
    · have hdrawn := (h.drawn a b hb).2.2
      omega
    · have hdrawn := (h.drawn a' _ hb').2.2
      omega
    · rfl
  drawn := by
    rintro a b (hb | ⟨rfl, rfl⟩)
    · have hdrawn := h.drawn a b hb
      omega
    · omega

variable [DecidableEq K]

theorem Like.put (h : c.Like ρ F c') (k : K) (v : V) :
    (c.put k v).Like (drawNext ρ c c') F (c'.put k v) := by
  refine h.draw rfl rfl (fun k' hk' => ?_)
  rw [docs_put, docs_put]
  split
  · exact .some ⟨rfl, .inr ⟨rfl, rfl⟩⟩
  · exact (h.docs k' hk').mono (le_drawNext ρ c c')

theorem Like.erase (h : c.Like ρ F c') (k : K) :
    (c.erase k).Like (drawNext ρ c c') F (c'.erase k) := by
  refine h.draw rfl rfl (fun k' hk' => ?_)
  rw [docs_erase, docs_erase]
  split
  · exact .none
  · exact (h.docs k' hk').mono (le_drawNext ρ c c')

omit [DecidableEq K] in
/-- The server comes to the same verdict. -/
theorem Like.verdict (h : c.Like ρ F c') {k : K} (hk : F k) (op : StoreOp) {cas cas' : ℕ}
    (hcas : cas = 0 ∧ cas' = 0 ∨ ρ cas cas') : c.verdict op k cas = c'.verdict op k cas' := by
  have hzero : cas = 0 ↔ cas' = 0 := by
    obtain h0 | hρ := hcas
    · exact iff_of_true h0.1 h0.2
    · have hdrawn := h.drawn _ _ hρ
      omega
  unfold Collection.verdict
  generalize hd : c.docs k = o
  generalize hd' : c'.docs k = o'
  have hdocs := h.docs k hk
  rw [hd, hd'] at hdocs
  cases hdocs with
  | none => cases op <;> simp [hzero]
  | some hlike =>
    rename_i d d'
    have hmatch : d.cas = cas ↔ d'.cas = cas' := by
      obtain h0 | hρ := hcas
      · have hfresh := c.fresh k d hd
        have hfresh' := c'.fresh k d' hd'
        omega
      · exact ⟨fun e => h.right_unique _ _ _ (e ▸ hlike.2) hρ,
          fun e => h.left_unique _ _ _ (e ▸ hlike.2) hρ⟩
    cases op <;> simp [hzero, hmatch]

/-- **A request is served alike.** -/
theorem Like.serve (h : c.Like ρ F c') {r r' : Request K V} (hr : r.Like ρ r') (hk : F r.key) :
    ∃ ρ', ρ ≤ ρ' ∧ (c.serve r).2.2.Like ρ' F (c'.serve r').2.2
      ∧ (c.serve r).1 = (c'.serve r').1 ∧ DocsLike ρ' (c.serve r).2.1 (c'.serve r').2.1 := by
  have hstore : ∀ op k v cas cas', F k → (cas = 0 ∧ cas' = 0 ∨ ρ cas cas') →
      ∃ ρ', ρ ≤ ρ'
        ∧ (c.serve (.store op k v cas)).2.2.Like ρ' F (c'.serve (.store op k v cas')).2.2
        ∧ (c.serve (.store op k v cas)).1 = (c'.serve (.store op k v cas')).1
        ∧ DocsLike ρ' (c.serve (.store op k v cas)).2.1 (c'.serve (.store op k v cas')).2.1 := by
    intro op k v cas cas' hk hcas
    have hverdict := h.verdict hk op hcas
    simp only [Collection.serve]
    rw [← hverdict]
    cases c.verdict op k cas with
    | none => exact ⟨_, le_drawNext ρ c c', h.put k v, rfl, .none⟩
    | some e => exact ⟨ρ, le_rfl, h, rfl, .none⟩
  cases hr with
  | get k =>
    have hdocs := h.docs k hk
    simp only [Collection.serve]
    generalize c.docs k = o at hdocs ⊢
    generalize c'.docs k = o' at hdocs ⊢
    cases hdocs with
    | none => exact ⟨ρ, le_rfl, h, rfl, .none⟩
    | some hlike => exact ⟨ρ, le_rfl, h, rfl, .some hlike⟩
  | store op k v => exact hstore op k v 0 0 hk (.inl ⟨rfl, rfl⟩)
  | storeCas op k v hcas => exact hstore op k v _ _ hk (.inr hcas)
  | remove k =>
    have hdocs := h.docs k hk
    simp only [Collection.serve]
    generalize c.docs k = o at hdocs ⊢
    generalize c'.docs k = o' at hdocs ⊢
    cases hdocs with
    | none => exact ⟨ρ, le_rfl, h, rfl, .none⟩
    | some hlike => exact ⟨_, le_drawNext ρ c c', h.erase k, rfl, .none⟩

/-- **A request is answered alike**, whatever becomes of it. -/
theorem Like.answer (h : c.Like ρ F c') (f : Fate) {r r' : Request K V} (hr : r.Like ρ r')
    (hk : F r.key) :
    ∃ ρ', ρ ≤ ρ' ∧ (c.answer f r).2.Like ρ' F (c'.answer f r').2
      ∧ (c.answer f r).1.Like ρ' (c'.answer f r').1 := by
  obtain ⟨ρ', hρ, hstore, hstatus, hdoc⟩ := h.serve hr hk
  cases f with
  | served => exact ⟨ρ', hρ, hstore, ⟨rfl, hstatus, hdoc⟩⟩
  | refused e => exact ⟨ρ, le_rfl, h, ⟨rfl, rfl, .none⟩⟩
  | unsent e => exact ⟨ρ, le_rfl, h, ⟨rfl, rfl, .none⟩⟩
  | lost e => exact ⟨ρ', hρ, hstore, ⟨rfl, rfl, .none⟩⟩

/-- **A request for another key is not noticed.** -/
theorem Like.answer_of_ne (h : c.Like ρ F c') (f : Fate) {r : Request K V} (hk : ¬ F r.key) :
    (c.answer f r).2.Like ρ F c' := by
  have hnext : ∀ d : Collection K V, c.lastCas ≤ d.lastCas →
      (∀ k, F k → d.docs k = c.docs k) → d.Like ρ F c' := by
    refine fun d hcas hdocs => ⟨fun k hF => ?_, h.right_unique, h.left_unique, fun a b hab => ?_⟩
    · rw [hdocs k hF]
      exact h.docs k hF
    · obtain ⟨ha, hb⟩ := h.drawn a b hab
      exact ⟨⟨ha.1, Nat.le_trans ha.2 hcas⟩, hb⟩
  obtain he | ⟨op, k, v, cas, rfl, -, he⟩ | ⟨k, d, rfl, -, he⟩ := answer_cases f c r
  · rw [he]
    exact h
  · rw [he]
    refine hnext _ (Nat.le_succ _) (fun k' hF => ?_)
    have hne : k' ≠ k := by
      rintro rfl
      exact hk hF
    rw [docs_put, if_neg hne]
  · rw [he]
    refine hnext _ (Nat.le_succ _) (fun k' hF => ?_)
    have hne : k' ≠ k := by
      rintro rfl
      exact hk hF
    rw [docs_erase, if_neg hne]

end Collection

end Kv

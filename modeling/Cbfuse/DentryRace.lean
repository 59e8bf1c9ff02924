import Cbfuse.Dentries
import Cbfuse.ReadModifyWrite

/-!
# Several clients, one directory

Adding a name to a directory and removing one are a fetch of its document
and a replacement of it. The replacement carries no CAS, so it succeeds
whatever was stored since the fetch, and a name another client added in
between is gone (`children_lost`). Where no client gets in between,
nothing is lost (`children_of_run`).
-/

namespace Cbfuse

variable {Text : Type} [CJson Text]

/-- A change of the children of a directory. -/
inductive ChildEdit where
  /-- `add_child_to_dentry` -/
  | add (childName : CString)
  /-- `remove_child_from_dentry` -/
  | remove (childName : CString)

namespace ChildEdit

/-- The name a change is about. -/
def name : ChildEdit → CString
  | add n => n
  | remove n => n

/-- What the change does to the items of the children. -/
def edit : ChildEdit → List Json → List Json
  | add n => addChild n
  | remove n => removeChild n

/-- The program of the change, on the directory `k`. -/
def code (k : CString) : ChildEdit → Op Text ℤ
  | add n => addChildToDentry k n
  | remove n => removeChildFromDentry k n

theorem code_eq (k : CString) (e : ChildEdit) : (e.code k : Op Text ℤ) = editDentry k e.edit := by
  cases e <;> rfl

/-- What the change is for: its name is there, or it is not. -/
def Done (e : ChildEdit) (items : List Json) : Prop :=
  match e with
  | add n => .string n ∈ items
  | remove n => .string n ∉ items

end ChildEdit

/-- A change does what it is for. -/
theorem ChildEdit.done_edit (e : ChildEdit) (items : List Json) : e.Done (e.edit items) := by
  cases e with
  | add n => exact mem_addChild.mpr (.inr rfl)
  | remove n => exact fun hmem => (mem_removeChild.mp hmem).2 rfl

/-- A change about another name leaves it done. -/
theorem ChildEdit.Done.edit_of_ne {e f : ChildEdit} {items : List Json} (h : e.Done items)
    (hne : e.name ≠ f.name) : e.Done (f.edit items) := by
  cases e with
  | add n =>
    cases f with
    | add m => exact mem_addChild.mpr (.inl h)
    | remove m => exact mem_removeChild.mpr ⟨h, hne⟩
  | remove n =>
    cases f with
    | add m => exact fun hmem => (mem_addChild.mp hmem).elim h hne
    | remove m => exact fun hmem => h (mem_removeChild.mp hmem).1

/-! ## The document as the clients reach it -/

section Access

variable (k : CString)

omit [CJson Text] in
/-- **The document of the directory `k`**: fetched by a get, stored by a
replacement without a CAS. -/
def dentryAccess : Rmw.Access (Req Text) Req.Reply (Store Text) (Option Text) where
  kind q :=
    match q with
    | .dentries r => Rmw.docKind .replace k r
    | _ => .aside
  seen q r :=
    match q, r with
    | .dentries _, r => Rmw.docSeen r.toReply
    | _, _ => none
  granted q r :=
    match q, r with
    | .dentries _, r => Rmw.docGranted r.toReply
    | _, _ => false
  val s := s.dentries.val k

variable {k}

omit [CJson Text] in
/-- A server that serves every request keeps to it. -/
theorem dentryAccess_faithful :
    (dentryAccess k : Rmw.Access (Req Text) _ _ _).Faithful serve Choice.Served := by
  refine Rmw.Access.faithful_of_document .replace (fun _ => rfl) (fun c q s hc => ?_)
  cases q with
  | dentries r =>
    refine .inr ⟨r, rfl, ?_, ?_, ?_⟩ <;> simp only [dentryAccess, serve, hc.answer]
  | _ => exact .inl ⟨rfl, rfl⟩

/-- The change of a document that an edit of its children makes. -/
def EditsText (edit : List Json → List Json) (v w : Option Text) : Prop :=
  ∃ t t', v = some t ∧ w = some t' ∧ editText edit t = some t'

/-- An edit fetches the document and stores it edited, and returns zero only
if that was granted. -/
theorem editDentry_follows (edit : List Json → List Json) :
    ((dentryAccess k).protocol (EditsText edit) (fun r : ℤ => r = 0)).Follows .idle
      (editDentry k edit : Op Text ℤ) := by
  rw [editDentry_eq]
  refine ⟨by simp [Rmw.Access.protocol, dentryAccess], fun resp => ?_⟩
  dsimp only
  cases hr : editReply edit resp with
  | error e => exact .inr (Int.ne_of_lt (editReply_error hr))
  | ok t =>
    obtain ⟨hrc, hst, d, hd, ht⟩ := editReply_ok hr
    have hseen : (dentryAccess k).seen (.dentries (.get k)) resp = some (some d.value) := by
      simp [dentryAccess, Rmw.docSeen, hrc, hst, hd]
    have hkind : (@dentryAccess Text k).kind (.dentries (.store .replace k t 0))
        = .store (some t) := by
      simp [dentryAccess]
    have hnext : ((dentryAccess k).protocol (EditsText edit) (fun r : ℤ => r = 0)).next .idle
        (.dentries (.get k)) resp = .holding (some d.value) := by
      simp only [Rmw.Access.protocol, hseen]
    rw [hnext]
    refine ⟨.inr ⟨_, hkind, d.value, t, rfl, rfl, ht⟩, fun resp' => ?_⟩
    simp only [Rmw.Access.protocol, hkind, Protocol.follows_ret]
    by_cases hg : checkResult (-enoent) resp' = 0
    · left
      rw [checkResult_eq_zero (by decide)] at hg
      exact if_pos (by simpa [dentryAccess, Rmw.docGranted] using hg)
    · exact .inr hg

end Access

/-! ## Any number of clients -/

section Clients

variable {ι : Type} [DecidableEq ι] {calls : ι → ChildEdit} {items₀ : List Json}

/-- **What the directory has to say** once the clients in `D` have made
their changes: theirs are made, and every name that was there and is not
for removal still is. -/
def Merged (calls : ι → ChildEdit) (items₀ : List Json) (D : ι → Prop) (v : Option Text) : Prop :=
  ∃ t items, v = some t ∧ childItems t = some items
    ∧ (∀ i, D i → (calls i).Done items)
    ∧ ∀ n, .string n ∈ items₀ → (∀ i, calls i ≠ .remove n) → .string n ∈ items

omit [DecidableEq ι] in
/-- One more change leaves the others made, as they are about other
names. -/
theorem Merged.step (hdiff : ∀ i j, i ≠ j → (calls i).name ≠ (calls j).name) {D : ι → Prop}
    {v w : Option Text} {i : ι} (h : Merged calls items₀ D v) (hi : ¬ D i)
    (hch : EditsText (calls i).edit v w) : Merged calls items₀ (fun j => D j ∨ j = i) w := by
  obtain ⟨t, items, rfl, hitems, hdone, hkeep⟩ := h
  obtain ⟨t₁, t', ht₁, rfl, ht'⟩ := hch
  cases ht₁
  obtain ⟨items', hi', hc⟩ := childItems_of_editText ht'
  rw [hitems] at hi'
  cases hi'
  refine ⟨t', _, rfl, hc, fun j hj => ?_, fun n hn hrem => ?_⟩
  · rcases hj with hj | rfl
    · exact (hdone j hj).edit_of_ne (hdiff j i (fun e => hi (e ▸ hj)))
    · exact ChildEdit.done_edit _ _
  · have hn' := hkeep n hn hrem
    cases hci : calls i with
    | add m => exact mem_addChild.mpr (.inl hn')
    | remove m => exact mem_removeChild.mpr ⟨hn', fun e => hrem i (by rw [hci, e])⟩

/-- **No directory update is lost where no client gets in between.** Any
number of clients add and remove names of one directory, all of them
different, and no request fails. In every run in which each replacement
finds the document its client fetched, once all calls have returned zero
the directory lists every name added and every name that was there and not
removed, and no name removed. -/
theorem children_of_run (hdiff : ∀ i j, i ≠ j → (calls i).name ≠ (calls j).name)
    {k : CString} {s : Store Text} {t₀ : Text} (ht₀ : s.dentries.val k = some t₀)
    (hitems : childItems t₀ = some items₀) {sched : List (ι × Choice)}
    (hA : ∀ ic ∈ sched, ic.2.Served)
    (hfound : Pool.Meets serve (dentryAccess k).FindsFetched sched
      (Pool.start (fun i => (calls i).code k) s))
    (hret : ∀ i, (Pool.run serve sched
      (Pool.start (fun i => (calls i).code k) s)).returned i = some 0) :
    ∃ t items,
      (Pool.run serve sched (Pool.start (fun i => (calls i).code k) s)).store.dentries.val k
        = some t
      ∧ childItems t = some items
      ∧ (∀ i n, calls i = .add n → .string n ∈ items)
      ∧ (∀ n, .string n ∈ items₀ → (∀ i, calls i ≠ .remove n) → .string n ∈ items)
      ∧ ∀ i n, calls i = .remove n → .string n ∉ items := by
  have hcode : ∀ i, ((dentryAccess k).protocol (EditsText (calls i).edit)
      (fun r : ℤ => r = 0)).Follows .idle ((calls i).code k : Op Text ℤ) := by
    intro i
    rw [ChildEdit.code_eq]
    exact editDentry_follows _
  have h0 : Merged calls items₀ (fun _ => False) (s.dentries.val k) :=
    ⟨t₀, items₀, ht₀, hitems, fun _ h => h.elim, fun _ h _ => h⟩
  obtain ⟨D, ⟨t, items, ht, hc, hdone, hkeep⟩, hD⟩ :=
    Rmw.Access.run_changes dentryAccess_faithful
      (fun D v w i h hi hch => h.step hdiff hi hch) hcode h0 hA hfound
  have hdone' : ∀ i, (calls i).Done items := fun i => hdone i (hD i 0 (hret i) rfl)
  refine ⟨t, items, ht, hc, fun i n hi => ?_, hkeep, fun i n hi => ?_⟩
  · have h := hdone' i
    rw [hi] at h
    exact h
  · have h := hdone' i
    rw [hi] at h
    exact h

end Clients

/-- The root directory, with one entry. -/
def oneEntry : Store (Option Json) :=
  Store.empty.putDentry ['/'] (some (createDentry ['/'] none [['c']]))

/-- One client adds a name, and another removes the entry when the first is
done. -/
theorem children_of_run_inTurn :
    let calls : Bool → ChildEdit := fun i => if i then .remove ['c'] else .add ['a']
    let g := Choice.good ⟨0, 0⟩
    let x := Pool.run serve (Pool.turns g [false, false, true, true])
      (Pool.start (fun i => (calls i).code ['/']) oneEntry)
    ∃ t items, x.store.dentries.val ['/'] = some t ∧ childItems t = some items
      ∧ (∀ i n, calls i = .add n → .string n ∈ items)
      ∧ (∀ n, .string n ∈ [Json.string ['c']] → (∀ i, calls i ≠ .remove n) → .string n ∈ items)
      ∧ ∀ i n, calls i = .remove n → .string n ∉ items := by
  intro calls g x
  refine @children_of_run _ _ _ _ calls _ (fun i j hij => ?_) _ _ _ rfl rfl _
    (Pool.forall_turns (A := Choice.Served) (c := g) rfl _) ?_ (fun i => ?_)
  · cases i <;> cases j <;> first | exact absurd rfl hij | decide
  · refine ⟨fun q k hq v hv => ?_, fun q k hq v hv => ?_, fun q k hq v hv => ?_,
      fun q k hq v hv => ?_, trivial⟩ <;> cases hq
    · cases hv
    · rfl
    · cases hv
    · rfl
  · cases i <;> rfl

/-- Both clients fetch before either stores: both calls return zero, and
the name the first one added is not there. -/
theorem children_lost :
    let calls : Bool → ChildEdit := fun i => if i then .add ['b'] else .add ['a']
    let g := Choice.good ⟨0, 0⟩
    let x := Pool.run serve (Pool.turns g [false, true, false, true])
      (Pool.start (fun i => (calls i).code ['/']) oneEntry)
    (∀ i j, i ≠ j → (calls i).name ≠ (calls j).name)
      ∧ (∀ i, x.returned i = some 0)
      ∧ calls false = .add ['a']
      ∧ ∃ t items, x.store.dentries.val ['/'] = some t ∧ childItems t = some items
        ∧ .string ['a'] ∉ items := by
  intro calls g x
  refine ⟨fun i j hij => ?_, fun i => ?_, rfl, _, [.string ['c'], .string ['b']], rfl, rfl, ?_⟩
  · cases i <;> cases j <;> first | exact absurd rfl hij | decide
  · cases i <;> rfl
  · simp

end Cbfuse

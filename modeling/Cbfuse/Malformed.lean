import Cbfuse.Readdir

/-!
# Directory documents that are not (`dentries.c`)

What a client finds under a directory need not be what `create_dentry`
builds. The two edits of the children ask for an array and give up without
one; beyond that nobody is strict. A listing of a document without an array
is an empty one. An item of the array that is not a string ends the listing
there, with success; an addition keeps it, and a removal drops it together
with the name it was asked to remove (`malformed_spec`).
-/

namespace Cbfuse

variable {Text β : Type} [CJson Text] {p : CString} {s : Store Text} {t : Text}

/-! ## The edits -/

/-- **An edit gives up where there is no array**, whatever becomes of its
request. -/
theorem run_editDentry_refused (ht : s.dentries.val p = some t) (hi : childItems t = none)
    (edit : List Json → List Json) (env : ℕ → Choice) :
    ∃ r, (editDentry p edit).run serve env s = (some r, s) ∧ r < 0 := by
  have hsame := congrArg Prod.snd (serve_dentries_get (env 0) s p)
  rw [editDentry_eq, Prog.run_call, hsame]
  cases hr : editReply edit (serve (env 0) (.dentries (.get p)) s).1 with
  | error e => exact ⟨e, rfl, editReply_error hr⟩
  | ok t' =>
    obtain ⟨-, -, d, hdoc, ht'⟩ := editReply_ok hr
    have hval := Kv.Collection.val_of_docs (Kv.Collection.docs_of_answer_get hdoc)
    obtain ⟨items, hitems, -⟩ := childItems_of_editText ht'
    rw [← Option.some.inj (ht.symm.trans hval), hi] at hitems
    cases hitems

/-- An edit of a list of children, with nothing failing. -/
theorem run_editDentry (ht : s.dentries.val p = some t) {items : List Json}
    (hi : childItems t = some items) (edit : List Json → List Json) {env : ℕ → Choice}
    (henv : ∀ n, (env n).FaultFree) :
    ∃ t', (editDentry p edit).run serve env s = (some 0, s.putDentry p t')
      ∧ childItems t' = some (edit items) := by
  obtain ⟨t', ht'⟩ := editText_of_childItems edit hi
  obtain ⟨items', hitems, hedit⟩ := childItems_of_editText ht'
  cases hi.symm.trans hitems
  have hwp : (editDentry p edit).wp serve Choice.FaultFree (fun _ => True)
      (fun r s' => r = 0 ∧ s' = s.putDentry p t') s := by
    refine wp_editDentry trivial (fun hnone => ?_) (fun t₁ h₁ hbad => ?_) (fun t₁ t₂ h₁ h₂ => ?_)
    · cases ht.symm.trans hnone
    · cases ht.symm.trans h₁
      cases ht'.symm.trans hbad
    · cases ht.symm.trans h₁
      cases ht'.symm.trans h₂
      exact ⟨trivial, rfl, rfl⟩
  obtain ⟨r, s', hrun, rfl, rfl⟩ := Prog.wp_run hwp henv
  exact ⟨t', hrun, hedit⟩

/-- A removal leaves the strings of the array, all but the name. -/
theorem removeChild_eq (name : CString) (items : List Json) :
    removeChild name items
      = ((items.filterMap Json.getStringValue).filter (· ≠ name)).map Json.string := by
  induction items with
  | nil => rfl
  | cons child items ih =>
    unfold removeChild at ih ⊢
    cases hc : child.getStringValue with
    | none => rw [List.filterMap_cons_none (by rw [hc]), List.filterMap_cons_none hc, ih]
    | some m =>
      rw [List.filterMap_cons_some hc]
      by_cases hm : m = name
      · rw [List.filterMap_cons_none (by simp [hc, hm]),
          List.filter_cons_of_neg (by simpa using hm), ih]
      · rw [List.filterMap_cons_some (by simp [hc, hm]; rfl),
          List.filter_cons_of_pos (by simpa using hm), List.map_cons, ih]

/-! ## The listing -/

/-- The strings an array begins with. -/
def leadingNames : List Json → List CString
  | [] => []
  | child :: children =>
    match child.getStringValue with
    | none => []
    | some name => name :: leadingNames children

/-- The buffer after these names were offered to the filler one after the
other, the first of them being the child at `n`. -/
def offerNames (filler : β → CString → ℕ → ℤ × β) : List CString → ℕ → β → β
  | [], _, buf => buf
  | name :: names, n, buf => offerNames filler names (n + 1) (filler buf name (n + 1)).2

omit [CJson Text] in
/-- **The loop ends at the first item that is not a string**, with zero. -/
theorem fillLoop_of_not_string (filler : β → CString → ℕ → ℤ × β) {items : List Json}
    (hbad : ∃ child ∈ items, child.getStringValue = none) (n : ℕ) (fresult : ℤ) (buf : β) :
    fillLoop filler 0 items n fresult buf = (0, offerNames filler (leadingNames items) n buf) := by
  induction items generalizing n fresult buf with
  | nil =>
    obtain ⟨child, hmem, -⟩ := hbad
    cases hmem
  | cons child items ih =>
    rw [fillLoop, if_pos (by omega), leadingNames]
    cases hc : child.getStringValue with
    | none => rfl
    | some name =>
      refine ih ?_ (n + 1) _ _
      obtain ⟨child', hmem, hnone⟩ := hbad
      obtain rfl | hmem := List.mem_cons.mp hmem
      · cases hc.symm.trans hnone
      · exact ⟨child', hmem, hnone⟩

/-- A fetch of a directory document that nothing befalls. -/
theorem run_getDentryJson (ht : s.dentries.val p = some t) {env : ℕ → Choice}
    (henv : ∀ n, (env n).FaultFree) :
    (getDentryJson p).run serve env s = (some (.ok (CJson.parse t)), s) := by
  obtain ⟨d, hd, rfl⟩ := Option.map_eq_some_iff.mp ht
  unfold getDentryJson askDentries
  rw [Prog.call_bind, Prog.run_call, (henv 0).serve_dentries]
  simp only [Kv.Collection.serve, hd]
  rfl

/-- A listing from the start, with nothing failing. -/
theorem run_cbfuseReaddir (ht : s.dentries.val p = some t)
    (filler : β → CString → ℕ → ℤ × β) (buf : β) {env : ℕ → Choice}
    (henv : ∀ n, (env n).FaultFree) :
    (cbfuseReaddir p filler 0 buf).run serve env s
      = (some (match childItems t with
        | none => (0, buf)
        | some items => fillLoop filler 0 items 0 0 buf), s) := by
  obtain ⟨d, hd, rfl⟩ := Option.map_eq_some_iff.mp ht
  rw [cbfuseReaddir_eq, Prog.run_call, (henv 0).serve_dentries]
  simp only [Kv.Collection.serve, hd]
  rw [show dentryReply ⟨⟨none, none, some d⟩, true⟩ = .ok (CJson.parse d.value) from rfl]
  unfold childItems
  dsimp only
  cases Json.arrayItems (Json.getObjectItemCaseSensitive (CJson.parse d.value) dentryChildren) <;>
    rfl

/-- **What becomes of a directory document that is none.**

Where the text does not parse, or has no array of children, an addition and a
removal return an error and leave the store as it is, whatever becomes of
their requests. With nothing failing: a text that parses is handed out; where
it has no array, a listing returns zero and offers nothing; and where the
array holds an item that is not a string, a listing offers the names before
the first such item and returns zero, an addition appends its name to the
items as they are, and a removal leaves the strings but its name. -/
theorem malformed_spec (ht : s.dentries.val p = some t) (name : CString)
    (filler : β → CString → ℕ → ℤ × β) (buf : β) :
    (childItems t = none → ∀ env : ℕ → Choice,
        (∃ r, (addChildToDentry p name).run serve env s = (some r, s) ∧ r < 0)
          ∧ ∃ r, (removeChildFromDentry p name).run serve env s = (some r, s) ∧ r < 0)
      ∧ ∀ env : ℕ → Choice, (∀ n, (env n).FaultFree) →
        (∀ j, CJson.parse t = some j →
          (getDentryJson p).run serve env s = (some (.ok (some j)), s)
            ∧ (childItems t = none →
              (cbfuseReaddir p filler 0 buf).run serve env s = (some (0, buf), s)))
        ∧ ∀ items, childItems t = some items → (∃ child ∈ items, child.getStringValue = none) →
          (cbfuseReaddir p filler 0 buf).run serve env s
              = (some (0, offerNames filler (leadingNames items) 0 buf), s)
            ∧ (∃ t', (addChildToDentry p name).run serve env s = (some 0, s.putDentry p t')
              ∧ childItems t' = some (items ++ [.string name]))
            ∧ ∃ t', (removeChildFromDentry p name).run serve env s = (some 0, s.putDentry p t')
              ∧ childItems t' = some
                (((items.filterMap Json.getStringValue).filter (· ≠ name)).map Json.string) := by
  refine ⟨fun hi env => ⟨run_editDentry_refused ht hi _ env, run_editDentry_refused ht hi _ env⟩,
    fun env henv => ⟨fun j hj => ⟨?_, fun hi => ?_⟩, fun items hi hbad => ⟨?_, ?_, ?_⟩⟩⟩
  · rw [run_getDentryJson ht henv, hj]
  · rw [run_cbfuseReaddir ht filler buf henv, hi]
  · rw [run_cbfuseReaddir ht filler buf henv, hi]
    dsimp only
    rw [fillLoop_of_not_string filler hbad]
  · exact run_editDentry ht hi _ henv
  · rw [← removeChild_eq]
    exact run_editDentry ht hi _ henv

/-- A listing of two names with a number between them offers the first. -/
theorem malformed_spec_number :
    let t : Option Json := some (.object [(dentryChildren,
      .array [.string ['a'], .number ['7'], .string ['b']])])
    let s : Store (Option Json) := Store.empty.putDentry ['/'] t
    let env : ℕ → Choice := fun _ => .good ⟨0, 0⟩
    (cbfuseReaddir ['/'] (DirBuf.fill List.length) 0 (.fresh 9)).run serve env s
        = (some (0, ⟨8, [(['a'], 1)]⟩), s)
      ∧ ∃ t', (removeChildFromDentry ['/'] ['a']).run serve env s = (some 0, s.putDentry ['/'] t')
        ∧ childItems t' = some [.string ['b']] := by
  intro t s env
  have hval : s.dentries.val ['/'] = some t := rfl
  obtain ⟨hlist, -, hremove⟩ := ((malformed_spec hval ['a'] (DirBuf.fill List.length) (.fresh 9)).2
    env (fun _ => Choice.faultFree_good _)).2 _ rfl ⟨.number ['7'], by simp, rfl⟩
  exact ⟨hlist, hremove⟩

/-- A document without an array is listed as an empty directory, and one whose
array holds no string is listed and changed as if it were one. -/
theorem malformed_hidden :
    let s (j : Json) : Store (Option Json) := Store.empty.putDentry ['/'] (some j)
    let bare : Json := .object []
    let odd : Json := .object [(dentryChildren, .array [.null])]
    let env : ℕ → Choice := fun _ => .good ⟨0, 0⟩
    let list : Op (Option Json) (ℤ × DirBuf) :=
      cbfuseReaddir ['/'] (DirBuf.fill List.length) 0 (.fresh 9)
    childItems (some bare : Option Json) = none
      ∧ (list.run serve env (s bare)).1 = some (0, .fresh 9)
      ∧ childItems (some odd : Option Json) = some [.null]
      ∧ (list.run serve env (s odd)).1 = some (0, .fresh 9)
      ∧ ((addChildToDentry ['/'] ['a']).run serve env (s odd)).1 = some 0
      ∧ ((removeChildFromDentry ['/'] ['a']).run serve env (s odd)).1 = some 0
      ∧ (((removeChildFromDentry ['/'] ['a']).run serve env (s odd)).2.dentries.val ['/']).bind
          childItems = some [] := by
  intro s bare odd env list
  exact ⟨rfl, by decide, rfl, by decide, by decide, by decide, rfl⟩

end Cbfuse

import Mathlib.Data.List.Perm.Basic
import Cbfuse.Documents

/-!
# Calls on unrelated paths commute

A call on `p` reads and writes the documents under `p` and edits the
document of its directory. Two calls on different paths, neither the
directory of the other, can therefore meet in one document only, that of a
directory they share, and there they are two edits by different names.

Such edits commute up to the order of what they add (`NameEdit.perm`), and
the result of an edit does not depend on the edits before it
(`editCode_edited`). The rest is a matter of which keys are which.
-/

namespace Cbfuse

open CString (rootDirString)

variable {Text : Type} [CJson Text]

/-! ## The same up to order -/

/-- The two texts are the same document, or two that differ in the order of
their children. -/
def SameListing (t t' : Text) : Prop :=
  t = t' ∨ ∃ items items', childItems t = some items ∧ childItems t' = some items'
    ∧ items.Perm items'
    ∧ CJson.parse t' = (CJson.parse t).map (fun j =>
        j.replaceItemInObjectCaseSensitive dentryChildren (.array items'))

/-- **The same documents up to the order of names in directories.** -/
structure Docs.SameUpToOrder (d d' : Docs Text) : Prop where
  /-- The stats are the same. -/
  stats : d.stats = d'.stats
  /-- The directory documents list the same names. -/
  dentries : ∀ k, Option.Rel SameListing (d.dentries k) (d'.dentries k)
  /-- The blocks are the same. -/
  blocks : d.blocks = d'.blocks

theorem rel_sameListing_refl (o : Option Text) : Option.Rel SameListing o o := by
  cases o with
  | none => exact .none
  | some t => exact .some (.inl rfl)

/-- Two edits that agree up to order leave documents that do. -/
theorem rel_sameListing_edited {e e' : List Json → List Json}
    (h : ∀ items, (e items).Perm (e' items)) (o : Option Text) :
    Option.Rel SameListing (edited e o) (edited e' o) := by
  cases o with
  | none => exact .none
  | some t =>
    cases he : editText e t with
    | none =>
      have hi := editText_eq_none_iff.mp he
      rw [edited_of_no_children hi, edited_of_no_children hi]
      exact rel_sameListing_refl _
    | some t₁ =>
      obtain ⟨items, hi, hi₁⟩ := childItems_of_editText he
      obtain ⟨t₂, he'⟩ := editText_of_childItems e' hi
      obtain ⟨items', hi', hi₂⟩ := childItems_of_editText he'
      cases hi.symm.trans hi'
      rw [edited_of_editText he, edited_of_editText he']
      refine .some (.inr ⟨_, _, hi₁, hi₂, h items, ?_⟩)
      obtain ⟨j, items₁, hj, hc, rfl⟩ := parse_of_editText he
      obtain ⟨j', items₂, hj', hc', rfl⟩ := parse_of_editText he'
      cases hj.symm.trans hj'
      cases hi.symm.trans hc
      cases hi.symm.trans hc'
      rw [CJson.parse_print, CJson.parse_print, Option.map_some, Json.replace_replace]

/-! ## Edits by different names -/

/-- The edit adds or removes the name `n`. -/
def NameEdit (n : CString) (edit : List Json → List Json) : Prop :=
  edit = addChild n ∨ edit = removeChild n

omit [CJson Text] in
/-- A name that is added is not one of another name to be removed. -/
theorem removeChild_addChild {n m : CString} (h : n ≠ m) (items : List Json) :
    removeChild m (addChild n items) = addChild n (removeChild m items) := by
  unfold removeChild addChild
  rw [List.filterMap_append]
  simp [Json.getStringValue, h]

omit [CJson Text] in
/-- **Edits by different names commute**, up to the order of what they
add. -/
theorem NameEdit.perm {n m : CString} (hne : n ≠ m) {e e' : List Json → List Json}
    (he : NameEdit n e) (he' : NameEdit m e') (items : List Json) :
    (e' (e items)).Perm (e (e' items)) := by
  obtain rfl | rfl := he
  · obtain rfl | rfl := he'
    · -- the two names change places at the end
      unfold addChild
      rw [List.append_assoc, List.append_assoc]
      exact List.Perm.append_left items (List.Perm.swap _ _ [])
    · rw [removeChild_addChild hne]
  · obtain rfl | rfl := he'
    · rw [removeChild_addChild hne.symm]
    · rw [removeChild_removeChild, removeChild_removeChild]
      simp only [and_comm]
      exact List.Perm.refl _

/-- The edit of a call is by the name of its path. -/
theorem TreeOp.nameEdit_change (op : TreeOp) (ts : Timespec) (o : Own Text)
    {edit : List Json → List Json} (h : (op.change ts o).edit = some edit) :
    NameEdit op.path.basename edit := by
  cases op with
  | create p mode =>
    by_cases hnew : sIsreg mode ∧ ¬ p.length > maxPathLen ∧ o.stat = none
    · rw [change_create_new hnew.1 hnew.2.1 hnew.2.2] at h
      cases h
      exact .inl rfl
    · obtain ⟨r, hr⟩ := @change_create_refused _ _ p mode ts o hnew
      rw [hr] at h
      cases h
  | mkdir p mode =>
    by_cases hstat : o.stat = none
    · by_cases hdir : o.dentry = none
      · rw [change_mkdir_new hstat hdir] at h
        cases h
        exact .inl rfl
      · rw [change_mkdir_half hstat hdir] at h
        cases h
    · rw [change_mkdir_old hstat] at h
      cases h
  | unlink p =>
    cases h
    exact .inr rfl
  | rmdir p =>
    cases h
    exact .inr rfl

/-! ## Calls on paths -/

/-- Two edits, or none, commute up to the order of the names. -/
def EditsCommute (e e' : Option (List Json → List Json)) : Prop :=
  ∀ o : Option Text, Option.Rel SameListing (editedBy e' (editedBy e o))
    (editedBy e (editedBy e' o))

theorem editCode_editedBy (e : Option (List Json → List Json)) (o : Option Text) :
    editCode (editedBy e o) = editCode o := by
  cases e with
  | none => rfl
  | some e => exact editCode_edited e o

namespace Docs

variable {d : Docs Text} {p q : CString} {c c' : Own Text → Change Text}

theorem dentries_apply (hp : p.dirname ≠ p) (k : CString) :
    (d.apply p c).2.dentries k
      = if k = p.dirname then editedBy (c (d.own p)).edit (d.dentries k)
        else if k = p then (c (d.own p)).own.dentry else d.dentries k := by
  simp only [apply, setOwn, dentries_setDentry, dentries_setBlock, dentries_setStat]
  split
  · next hk => simp only [hk]
  · rfl

/-- The result of a call on `p` depends on the documents under `p` and on
that of its directory only. -/
theorem code_apply (hp : p.dirname ≠ p) :
    (d.apply p c).1 = (c (d.own p)).code (editCode (d.dentries p.dirname)) := by
  simp only [apply, setOwn, dentries_setDentry, dentries_setBlock, dentries_setStat, if_neg hp]

/-- A call on another path that is not the directory of `q` leaves the
documents under `q` alone. -/
theorem own_apply (hp : p.dirname ≠ p) (hne : q ≠ p) (hq : q ≠ p.dirname) :
    (d.apply p c).2.own q = d.own q := by
  unfold own
  rw [stats_apply, blocks_apply, dentries_apply hp, if_neg hne, if_neg hne, if_neg hne,
    if_neg hq]

/-- The result of a call is not changed by a call on a path that has
nothing to do with it. -/
theorem code_apply_apply (hp : p.dirname ≠ p) (hq : q.dirname ≠ q) (hne : q ≠ p)
    (hqp : q ≠ p.dirname) (hpq : p ≠ q.dirname) :
    ((d.apply p c).2.apply q c').1 = (d.apply q c').1 := by
  rw [code_apply hq, code_apply hq, own_apply hp hne hqp, dentries_apply hp]
  split
  · rw [editCode_editedBy]
  · rw [if_neg (Ne.symm hpq)]

/-- **Two calls on unrelated paths commute.** -/
theorem sameUpToOrder_apply (hp : p.dirname ≠ p) (hq : q.dirname ≠ q) (hne : p ≠ q)
    (hpq : p ≠ q.dirname) (hqp : q ≠ p.dirname)
    (hedit : p.dirname = q.dirname →
      @EditsCommute Text _ (c (d.own p)).edit (c' (d.own q)).edit) :
    SameUpToOrder ((d.apply p c).2.apply q c').2 ((d.apply q c').2.apply p c).2 := by
  have hownq := @own_apply _ _ d p q c hp hne.symm hqp
  have hownp := @own_apply _ _ d q p c' hq hne hpq
  refine ⟨?_, fun k => ?_, ?_⟩
  · funext k
    simp only [stats_apply, hownq, hownp]
    split
    · next hk => rw [if_neg (fun h => hne (h.symm.trans hk))]
    · rfl
  · simp only [dentries_apply hp, dentries_apply hq, hownq, hownp]
    by_cases hkp : k = p.dirname
    · by_cases hkq : k = q.dirname
      · -- the directory they share
        rw [if_pos hkp, if_pos hkp, if_pos hkq, if_pos hkq]
        exact hedit (hkp.symm.trans hkq) _
      · have hkq' : k ≠ q := fun e => hqp (e.symm.trans hkp)
        rw [if_pos hkp, if_pos hkp, if_neg hkq, if_neg hkq, if_neg hkq', if_neg hkq']
        exact rel_sameListing_refl _
    · by_cases hkq : k = q.dirname
      · have hkp' : k ≠ p := fun e => hpq (e.symm.trans hkq)
        rw [if_neg hkp, if_neg hkp, if_pos hkq, if_pos hkq, if_neg hkp', if_neg hkp']
        exact rel_sameListing_refl _
      · rw [if_neg hkp, if_neg hkp, if_neg hkq, if_neg hkq]
        split
        · next hk => rw [if_neg (fun h => hne (h.symm.trans hk))]; exact rel_sameListing_refl _
        · exact rel_sameListing_refl _
  · funext k
    simp only [blocks_apply, hownq, hownp]
    split
    · next hk => rw [if_neg (fun h => hne (h.symm.trans hk))]
    · rfl

end Docs

/-- The edits of two calls on different entries of one directory commute. -/
theorem editsCommute_change {f g : TreeOp} {ts ts' : Timespec} {o o' : Own Text}
    (hne : f.path.basename ≠ g.path.basename) :
    @EditsCommute Text _ (f.change ts o).edit (g.change ts' o').edit := by
  intro t
  cases he : (f.change ts o).edit with
  | none => exact rel_sameListing_refl _
  | some e =>
    cases he' : (g.change ts' o').edit with
    | none => exact rel_sameListing_refl _
    | some e' =>
      simp only [editedBy, edited_edited]
      exact rel_sameListing_edited
        (NameEdit.perm hne (f.nameEdit_change ts o he) (g.nameEdit_change ts' o' he')) t

/-- **Calls on unrelated paths commute.** Two calls on the tree, on different
normalised paths neither of which is the directory of the other: whichever is
first, each returns the same, and the documents they leave are the same up to
the order of names in directories. -/
theorem treeOps_commute (f g : TreeOp) (hf : f.path.Normalised) (hf' : f.path ≠ rootDirString)
    (hg : g.path.Normalised) (hg' : g.path ≠ rootDirString) (hne : f.path ≠ g.path)
    (hfg : f.path ≠ g.path.dirname) (hgf : g.path ≠ f.path.dirname) (s : Store Text)
    {envf envf' envg envg' : ℕ → Choice} (henvf : ∀ n, (envf n).FaultFree)
    (henvf' : ∀ n, (envf' n).FaultFree) (henvg : ∀ n, (envg n).FaultFree)
    (henvg' : ∀ n, (envg' n).FaultFree) (hclockf : ∀ n, (envf n).now = (envf' n).now)
    (hclockg : ∀ n, (envg n).now = (envg' n).now) :
    let x := f.code.run serve envf s
    let y := g.code.run serve envg x.2
    let y' := g.code.run serve envg' s
    let x' := f.code.run serve envf' y'.2
    ∃ rf rg, x.1 = some rf ∧ x'.1 = some rf ∧ y.1 = some rg ∧ y'.1 = some rg
      ∧ y.2.docs.SameUpToOrder x'.2.docs := by
  obtain ⟨tf, htf⟩ := (henvf 0).exists_now
  obtain ⟨tg, htg⟩ := (henvg 0).exists_now
  obtain ⟨s₁, hx, hs₁⟩ := run_treeOp f s henvf htf
  obtain ⟨s₂, hy, hs₂⟩ := run_treeOp g s₁ henvg htg
  obtain ⟨s₁', hy', hs₁'⟩ := run_treeOp g s henvg' ((hclockg 0).symm.trans htg)
  obtain ⟨s₂', hx', hs₂'⟩ := run_treeOp f s₁' henvf' ((hclockf 0).symm.trans htf)
  have hfd := hf.dirname_ne hf'
  have hgd := hg.dirname_ne hg'
  rw [hs₁] at hy hs₂
  rw [hs₁'] at hx' hs₂'
  rw [Docs.code_apply_apply hfd hgd hne.symm hgf hfg] at hy
  rw [Docs.code_apply_apply hgd hfd hne hfg hgf] at hx'
  refine ⟨_, _, by rw [hx], by rw [hy', hx'], by rw [hx, hy], by rw [hy'], ?_⟩
  rw [hx, hy, hy', hx', hs₂, hs₂']
  refine Docs.sameUpToOrder_apply hfd hgd hne hfg hgf (fun hdir => editsCommute_change ?_)
  -- of two entries of one directory the names differ
  intro hb
  refine hne ?_
  rw [← (hf.eq_join hf').2.2, ← (hg.eq_join hg').2.2, hdir, hb]

/-- Two entries of the root, made in either order. -/
theorem treeOps_commute_create :
    let env : ℕ → Choice := fun _ => .good ⟨0, 0⟩
    let s : Store (Option Json) := rootStore env
    let y := (cbfuseMkdir ['/', 'b'] 0o755).run serve env
      ((cbfuseCreate ['/', 'a'] sIfreg).run serve env s).2
    let x := (cbfuseCreate ['/', 'a'] sIfreg).run serve env
      ((cbfuseMkdir ['/', 'b'] 0o755).run serve env s).2
    (y.2.dentries.val ['/']).bind childItems = some [Json.string ['a'], Json.string ['b']]
      ∧ (x.2.dentries.val ['/']).bind childItems = some [Json.string ['b'], Json.string ['a']]
      ∧ y.2.docs.SameUpToOrder x.2.docs := by
  intro env s y x
  have hn : ∀ n : CString, n.IsName → (CString.join rootDirString n).Normalised :=
    fun _ => .entry .top
  obtain ⟨-, -, -, -, -, -, h⟩ := treeOps_commute (.create ['/', 'a'] sIfreg)
    (.mkdir ['/', 'b'] 0o755) (hn ['a'] (by decide)) (by decide) (hn ['b'] (by decide))
    (by decide) (by decide) (by decide) (by decide) s
    (fun _ => Choice.faultFree_good ⟨0, 0⟩) (fun _ => Choice.faultFree_good ⟨0, 0⟩)
    (fun _ => Choice.faultFree_good ⟨0, 0⟩) (fun _ => Choice.faultFree_good ⟨0, 0⟩)
    (fun _ => rfl) (fun _ => rfl)
  exact ⟨rfl, rfl, h⟩

end Cbfuse

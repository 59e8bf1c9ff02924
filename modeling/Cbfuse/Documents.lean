import Cbfuse.Tree

/-!
# What an operation makes of the documents

A handler is a row of requests, and what it is for is a change of the
documents. With nothing failing the change can be told without the
requests: a call on `p` looks at the three documents under `p`, decides from
them what becomes of them, and edits the document of one other path, the
directory of `p`. `TreeOp.change` says so for the four calls on the tree, and
`run_treeOp` that the handlers do it.

Documents are told apart here by what they hold. The CAS of a document is
not part of it: the server draws a new one at every mutation, so two ways to
the same documents differ in it whenever they differ in length or in order.
-/

namespace Cbfuse

variable {Text : Type}

/-! ## The documents of a store -/

/-- **The documents**: what is stored under each path. -/
@[ext] structure Docs (Text : Type) where
  /-- The stats. -/
  stats : CString → Option StatDoc
  /-- The directory documents. -/
  dentries : CString → Option Text
  /-- The blocks. -/
  blocks : CString → Option Bytes

/-- The documents of a store, without their CAS. -/
def Store.docs (s : Store Text) : Docs Text := ⟨s.stats.val, s.dentries.val, s.blocks.val⟩

namespace Docs

variable (d : Docs Text) (p k : CString)

/-- The documents with the stat of `p` set or removed. -/
def setStat (o : Option StatDoc) : Docs Text :=
  { d with stats := Function.update d.stats p o }

/-- The documents with the directory document of `p` set or removed. -/
def setDentry (o : Option Text) : Docs Text :=
  { d with dentries := Function.update d.dentries p o }

/-- The documents with the block of `p` set or removed. -/
def setBlock (o : Option Bytes) : Docs Text :=
  { d with blocks := Function.update d.blocks p o }

/-- A stat that is set is at its own path, and elsewhere as it was. -/
@[simp] theorem stats_setStat (o : Option StatDoc) :
    (d.setStat p o).stats k = if k = p then o else d.stats k := Function.update_apply ..
@[simp] theorem dentries_setStat (o : Option StatDoc) :
    (d.setStat p o).dentries = d.dentries := rfl
@[simp] theorem blocks_setStat (o : Option StatDoc) : (d.setStat p o).blocks = d.blocks := rfl
@[simp] theorem stats_setDentry (o : Option Text) : (d.setDentry p o).stats = d.stats := rfl
/-- A directory document that is set is at its own path, and elsewhere as it
was. -/
@[simp] theorem dentries_setDentry (o : Option Text) :
    (d.setDentry p o).dentries k = if k = p then o else d.dentries k := Function.update_apply ..
@[simp] theorem blocks_setDentry (o : Option Text) : (d.setDentry p o).blocks = d.blocks := rfl
@[simp] theorem stats_setBlock (o : Option Bytes) : (d.setBlock p o).stats = d.stats := rfl
@[simp] theorem dentries_setBlock (o : Option Bytes) :
    (d.setBlock p o).dentries = d.dentries := rfl
/-- A block that is set is at its own path, and elsewhere as it was. -/
@[simp] theorem blocks_setBlock (o : Option Bytes) :
    (d.setBlock p o).blocks k = if k = p then o else d.blocks k := Function.update_apply ..

end Docs

namespace Store

variable (s : Store Text) (p : CString)

/-- A stored stat is the stat at its path; the CAS is forgotten. -/
theorem docs_putStat (stat : CbfuseStat) :
    (s.putStat p stat).docs = s.docs.setStat p (some (.packed stat)) := by
  ext1 <;> funext k <;> simp [docs]

/-- A removed stat is none at its path. -/
theorem docs_eraseStat : (s.eraseStat p).docs = s.docs.setStat p none := by
  ext1 <;> funext k <;> simp [docs]

/-- A stored directory document is the one at its path. -/
theorem docs_putDentry (t : Text) : (s.putDentry p t).docs = s.docs.setDentry p (some t) := by
  ext1 <;> funext k <;> simp [docs]

/-- A removed directory document is none at its path. -/
theorem docs_eraseDentry : (s.eraseDentry p).docs = s.docs.setDentry p none := by
  ext1 <;> funext k <;> simp [docs]

/-- A removed block is none at its path. -/
theorem docs_eraseBlock : (s.eraseBlock p).docs = s.docs.setBlock p none := by
  ext1 <;> funext k <;> simp [docs]

end Store

namespace Docs

variable {d : Docs Text} {p : CString}

/-- Setting the stat to what it is changes nothing. -/
theorem setStat_self {o : Option StatDoc} (h : d.stats p = o) : d.setStat p o = d := by
  subst h
  exact congrArg (fun f => Docs.mk f d.dentries d.blocks) (Function.update_eq_self p d.stats)

/-- Setting the directory document to what it is changes nothing. -/
theorem setDentry_self {o : Option Text} (h : d.dentries p = o) : d.setDentry p o = d := by
  subst h
  exact congrArg (fun f => Docs.mk d.stats f d.blocks) (Function.update_eq_self p d.dentries)

/-- Setting the block to what it is changes nothing. -/
theorem setBlock_self {o : Option Bytes} (h : d.blocks p = o) : d.setBlock p o = d := by
  subst h
  exact congrArg (fun f => Docs.mk d.stats d.dentries f) (Function.update_eq_self p d.blocks)

/-- Of two stats that are set at a path the second stays. -/
@[simp] theorem setStat_setStat (o o' : Option StatDoc) :
    (d.setStat p o).setStat p o' = d.setStat p o' := by
  unfold setStat
  rw [Function.update_idem]

/-- Of two directory documents that are set at a path the second stays. -/
@[simp] theorem setDentry_setDentry (o o' : Option Text) :
    (d.setDentry p o).setDentry p o' = d.setDentry p o' := by
  unfold setDentry
  rw [Function.update_idem]

/-- Directory documents at two paths can be set in either order. -/
theorem setDentry_comm {k : CString} (h : p ≠ k) (o o' : Option Text) :
    (d.setDentry p o).setDentry k o' = (d.setDentry k o').setDentry p o := by
  unfold setDentry
  rw [Function.update_comm h]

@[simp] theorem setBlock_setBlock (o o' : Option Bytes) :
    (d.setBlock p o).setBlock p o' = d.setBlock p o' := by
  unfold setBlock
  rw [Function.update_idem]

end Docs

/-! ## Edits of a directory document -/

section Edits

variable [CJson Text]

/-- What an edit leaves under the path of a directory: the edited text, and
what was there where that is no directory document. -/
def edited (edit : List Json → List Json) (o : Option Text) : Option Text :=
  o.map (fun t => (editText edit t).getD t)

/-- The result of an edit, whichever it is: there has to be a document, and
it has to have children. -/
def editCode (o : Option Text) : ℤ :=
  match o with
  | none => -enoent
  | some t => if (childItems t).isSome then 0 else -eio

/-- An edit fails only where there are no children. -/
theorem editText_eq_none_iff {edit : List Json → List Json} {t : Text} :
    editText edit t = none ↔ childItems t = none := by
  refine ⟨fun h => ?_, fun h => ?_⟩
  · cases hi : childItems t with
    | none => rfl
    | some items =>
      obtain ⟨t', ht'⟩ := editText_of_childItems edit hi
      cases h.symm.trans ht'
  · unfold editText
    rw [h]
    cases CJson.parse t <;> rfl

@[simp] theorem edited_none (edit : List Json → List Json) :
    edited edit (none : Option Text) = none := rfl

/-- An edit that succeeds leaves what it makes. -/
theorem edited_of_editText {edit : List Json → List Json} {t t' : Text}
    (h : editText edit t = some t') : edited edit (some t) = some t' := by
  rw [edited, Option.map_some, h]
  rfl

/-- A document without an array of children is left alone. -/
theorem edited_of_no_children {edit : List Json → List Json} {t : Text}
    (h : childItems t = none) : edited edit (some t) = some t := by
  rw [edited, Option.map_some, editText_eq_none_iff.mpr h]
  rfl

/-- Two edits are one. -/
theorem edited_edited (e f : List Json → List Json) (o : Option Text) :
    edited f (edited e o) = edited (f ∘ e) o := by
  cases o with
  | none => rfl
  | some t =>
    cases he : editText e t with
    | none =>
      have hi := editText_eq_none_iff.mp he
      rw [edited_of_no_children hi, edited_of_no_children hi, edited_of_no_children hi]
    | some t' =>
      rw [edited_of_editText he]
      cases hf : editText f t' with
      | none =>
        obtain ⟨items, -, hi'⟩ := childItems_of_editText he
        cases hi'.symm.trans (editText_eq_none_iff.mp hf)
      | some t'' =>
        rw [edited_of_editText hf]
        exact (edited_of_editText ((editText_editText he).symm.trans hf)).symm

/-- An edit does not change what the next one returns. -/
@[simp] theorem editCode_edited (e : List Json → List Json) (o : Option Text) :
    editCode (edited e o) = editCode o := by
  cases o with
  | none => rfl
  | some t =>
    cases he : editText e t with
    | none => rw [edited_of_no_children (editText_eq_none_iff.mp he)]
    | some t' =>
      obtain ⟨items, hi, hi'⟩ := childItems_of_editText he
      rw [edited_of_editText he]
      simp only [editCode, hi, hi', Option.isSome_some]

/-- The documents with that of the directory `k` edited. -/
def Docs.editDir (d : Docs Text) (k : CString) (edit : List Json → List Json) : Docs Text :=
  d.setDentry k (edited edit (d.dentries k))

/-- An edit, with nothing failing. -/
theorem wp_editDentry_docs {s : Store Text} {k : CString} {edit : List Json → List Json}
    {post : ℤ → Store Text → Prop}
    (h : ∀ s', s'.docs = s.docs.editDir k edit → post (editCode (s.docs.dentries k)) s') :
    (editDentry k edit).wp serve Choice.FaultFree (fun _ => True) post s := by
  have hsame : ∀ o, s.docs.dentries k = o → edited edit o = o →
      s.docs = s.docs.editDir k edit := by
    intro o ho he
    unfold Docs.editDir
    rw [ho, he]
    exact (Docs.setDentry_self ho).symm
  refine wp_editDentry trivial (fun hd => ?_) (fun t hd ht => ?_)
    (fun t t' hd ht => ⟨trivial, ?_⟩)
  · have hp := h s (hsame none hd rfl)
    rwa [show s.docs.dentries k = none from hd] at hp
  · have hi := editText_eq_none_iff.mp ht
    have hp := h s (hsame (some t) hd (edited_of_no_children hi))
    rwa [show s.docs.dentries k = some t from hd, editCode, hi] at hp
  · have hk : s.docs.dentries k = some t := hd
    obtain ⟨items, hi, -⟩ := childItems_of_editText ht
    have hp := h (s.putDentry k t')
      (by rw [s.docs_putDentry, Docs.editDir, hk, edited_of_editText ht])
    rwa [hk, editCode, hi] at hp

end Edits

/-! ## What a call on a path is -/

/-- The documents under one path. -/
@[ext] structure Own (Text : Type) where
  /-- The stat. -/
  stat : Option StatDoc
  /-- The directory document. -/
  dentry : Option Text
  /-- The block. -/
  block : Option Bytes

/-- The documents under `p`. -/
def Docs.own (d : Docs Text) (p : CString) : Own Text := ⟨d.stats p, d.dentries p, d.blocks p⟩

/-- The documents with those under `p` set. -/
def Docs.setOwn (d : Docs Text) (p : CString) (o : Own Text) : Docs Text :=
  ((d.setStat p o.stat).setDentry p o.dentry).setBlock p o.block

/-- **What a call decides on**: what becomes of the documents under its
path, whether and how it edits the document of the directory, and the result,
which may depend on that of the edit. -/
structure Change (Text : Type) where
  /-- The documents the path gets. -/
  own : Own Text
  /-- The edit of the directory's document. -/
  edit : Option (List Json → List Json)
  /-- The result of the call, given that of the edit. -/
  code : ℤ → ℤ

/-- A call that changes nothing. -/
def Change.refused (o : Own Text) (r : ℤ) : Change Text := ⟨o, none, fun _ => r⟩

section Calls

variable [CJson Text]

/-- **The calls on the tree, as changes.** Making an entry is refused where
the path has a stat, and stops half-way where it has a directory document
and is to get one; removing an entry always removes all it can. -/
def TreeOp.change (ts : Timespec) : TreeOp → Own Text → Change Text
  | create p mode, o =>
    if ¬ sIsreg mode then .refused o (-einval)
    else if p.length > maxPathLen then .refused o enametoolong
    else if o.stat ≠ none then .refused o (-enoent)
    else
      { own := { o with stat := some (.packed (rootStat mode ts)) }
        edit := some (addChild p.basename)
        code := id }
  | mkdir p mode, o =>
    if o.stat ≠ none then .refused o (-enoent)
    else
      let o := { o with stat := some (.packed (rootStat mode ts)) }
      if o.dentry ≠ none then .refused o (-enoent)
      else
        { own := { o with dentry := some (CJson.printUnformatted
            (createDentry p (some p.dirname) [])) }
          edit := some (addChild p.basename)
          code := id }
  | unlink p, o =>
    { own := { o with stat := none, block := none }
      edit := some (removeChild p.basename)
      code := fun _ => if o.stat = none then -enoent else 0 }
  | rmdir p, o =>
    { own := { o with stat := none, dentry := none }
      edit := some (removeChild p.basename)
      code := fun _ => if o.stat = none then -enoent else 0 }

/-- What a call leaves under the path of its directory. -/
def editedBy : Option (List Json → List Json) → Option Text → Option Text
  | none, o => o
  | some edit, o => edited edit o

/-- **A call on `p`, as a change**: its result and the documents it
leaves. -/
def Docs.apply (d : Docs Text) (p : CString) (change : Own Text → Change Text) :
    ℤ × Docs Text :=
  let c := change (d.own p)
  let d' := d.setOwn p c.own
  (c.code (editCode (d'.dentries p.dirname)),
    d'.setDentry p.dirname (editedBy c.edit (d'.dentries p.dirname)))

end Calls

/-! ## The calls do what they are for -/

section Calls

variable [CJson Text] {s : Store Text} {p : CString} {mode : ℕ} {ts : Timespec}

namespace Docs

variable {d : Docs Text}

omit [CJson Text] in
/-- Setting the documents of a path to what they are changes nothing. -/
theorem setOwn_own : d.setOwn p (d.own p) = d := by
  have hstat : d.setStat p (d.own p).stat = d := setStat_self rfl
  have hdentry : d.setDentry p (d.own p).dentry = d := setDentry_self rfl
  have hblock : d.setBlock p (d.own p).block = d := setBlock_self rfl
  unfold setOwn
  rw [hstat, hdentry, hblock]

omit [CJson Text] in
/-- Of the documents of a path only the stat is set. -/
theorem setOwn_stat (o : Option StatDoc) :
    d.setOwn p { d.own p with stat := o } = d.setStat p o := by
  have hdentry : (d.setStat p o).setDentry p (d.own p).dentry = d.setStat p o :=
    setDentry_self rfl
  have hblock : (d.setStat p o).setBlock p (d.own p).block = d.setStat p o := setBlock_self rfl
  unfold setOwn
  dsimp only
  rw [hdentry, hblock]

omit [CJson Text] in
/-- Of the documents of a path the block is left, as a directory leaves it. -/
theorem setOwn_dir (o : Option StatDoc) (t : Option Text) :
    d.setOwn p ⟨o, t, (d.own p).block⟩ = (d.setStat p o).setDentry p t := setBlock_self rfl

omit [CJson Text] in
/-- Of the documents of a path the directory document is left, as a file leaves
it. -/
theorem setOwn_file (o : Option StatDoc) (b : Option Bytes) :
    d.setOwn p ⟨o, (d.own p).dentry, b⟩ = (d.setStat p o).setBlock p b :=
  congrArg (fun d => Docs.setBlock d p b) (setDentry_self rfl)

/-- A call that is refused edits nothing. -/
theorem apply_refused {change : Own Text → Change Text} {o : Own Text} {r : ℤ}
    (h : change (d.own p) = .refused o r) : d.apply p change = (r, d.setOwn p o) := by
  unfold apply
  rw [h]
  exact congrArg (Prod.mk r) (setDentry_self rfl)

/-- A call that edits the document of the directory. -/
theorem apply_edit {change : Own Text → Change Text} {o : Own Text}
    {edit : List Json → List Json} {code : ℤ → ℤ}
    (h : change (d.own p) = ⟨o, some edit, code⟩) :
    d.apply p change = (code (editCode ((d.setOwn p o).dentries p.dirname)),
      (d.setOwn p o).editDir p.dirname edit) := by
  unfold apply
  rw [h]
  rfl

/-- A removed file. -/
theorem apply_unlink :
    d.apply p ((TreeOp.unlink p).change ts)
      = (if d.stats p = none then -enoent else 0,
        ((d.setBlock p none).editDir p.dirname (removeChild p.basename)).setStat p none) := by
  rw [apply_edit (d := d) rfl, setOwn_file]
  rfl

/-- A removed directory. -/
theorem apply_rmdir :
    d.apply p ((TreeOp.rmdir p).change ts)
      = (if d.stats p = none then -enoent else 0,
        ((d.setDentry p none).editDir p.dirname (removeChild p.basename)).setStat p none) := by
  rw [apply_edit (d := d) rfl, setOwn_dir]
  rfl

end Docs

/-- The call makes the change it is. -/
def Performs (op : TreeOp) (ts : Timespec) (s : Store Text) (r : ℤ) (s' : Store Text) : Prop :=
  (r, s'.docs) = s.docs.apply op.path (op.change ts)

namespace TreeOp

variable {o : Own Text}

/-- A file is not created where there is a stat. -/
theorem change_create_old (hreg : sIsreg mode) (hlen : ¬ p.length > maxPathLen)
    (h : o.stat ≠ none) : (create p mode).change ts o = .refused o (-enoent) := by
  simp only [change, not_true_eq_false, if_false, hreg, hlen, h, not_false_eq_true, ne_eq, if_true]

/-- A file that is created is its stat and a name in the directory. -/
theorem change_create_new (hreg : sIsreg mode) (hlen : ¬ p.length > maxPathLen)
    (h : o.stat = none) :
    (create p mode).change ts o = ⟨{ o with stat := some (.packed (rootStat mode ts)) },
      some (addChild p.basename), id⟩ := by
  simp only [change, not_true_eq_false, if_false, hreg, hlen, h, ne_eq]

/-- A creation that is refused leaves the documents of its path. -/
theorem change_create_refused
    (h : ¬ (sIsreg mode ∧ ¬ p.length > maxPathLen ∧ o.stat = none)) :
    ∃ r, (create p mode).change ts o = .refused o r := by
  by_cases hreg : sIsreg mode
  · by_cases hlen : p.length > maxPathLen
    · exact ⟨enametoolong, (if_neg (not_not.mpr hreg)).trans (if_pos hlen)⟩
    · exact ⟨-enoent, change_create_old hreg hlen (fun hs => h ⟨hreg, hlen, hs⟩)⟩
  · exact ⟨-einval, if_pos hreg⟩

/-- A directory is not made where there is a stat. -/
theorem change_mkdir_old (h : o.stat ≠ none) :
    (mkdir p mode).change ts o = .refused o (-enoent) := if_pos h

/-- A directory is made by half where a directory document was left behind: its
stat is new, the call fails. -/
theorem change_mkdir_half (h : o.stat = none) (hd : o.dentry ≠ none) :
    (mkdir p mode).change ts o
      = .refused { o with stat := some (.packed (rootStat mode ts)) } (-enoent) :=
  (if_neg (not_not.mpr h)).trans (if_pos hd)

/-- A directory that is made is a stat, a document that lists nothing, and a
name in the directory above. -/
theorem change_mkdir_new (h : o.stat = none) (hd : o.dentry = none) :
    (mkdir p mode).change ts o
      = ⟨⟨some (.packed (rootStat mode ts)),
          some (CJson.printUnformatted (createDentry p (some p.dirname) [])), o.block⟩,
        some (addChild p.basename), id⟩ :=
  (if_neg (not_not.mpr h)).trans (if_neg (not_not.mpr hd))

end TreeOp

/-- A new file. -/
theorem Docs.apply_create_new {d : Docs Text} (hreg : sIsreg mode)
    (hlen : ¬ p.length > maxPathLen) (h : d.stats p = none) :
    d.apply p ((TreeOp.create p mode).change ts)
      = (editCode (d.dentries p.dirname),
        (d.setStat p (some (.packed (rootStat mode ts)))).editDir p.dirname
          (addChild p.basename)) := by
  rw [apply_edit (d := d) (TreeOp.change_create_new hreg hlen h), setOwn_stat]
  rfl

/-- A new directory. -/
theorem Docs.apply_mkdir_new {d : Docs Text} (h : d.stats p = none) (hd : d.dentries p = none) :
    d.apply p ((TreeOp.mkdir p mode).change ts)
      = let d' := (d.setStat p (some (.packed (rootStat mode ts)))).setDentry p
          (some (CJson.printUnformatted (createDentry p (some p.dirname) [])))
        (editCode (d'.dentries p.dirname), d'.editDir p.dirname (addChild p.basename)) := by
  rw [apply_edit (d := d) (TreeOp.change_mkdir_new h hd), setOwn_dir]
  rfl

/-- The end of a creation, once the clock is read. -/
theorem wp_createAt (hreg : sIsreg mode) (hlen : ¬ p.length > maxPathLen) :
    (insertStatAt p mode ts >>= fun fresult =>
        if fresult ≠ 0 then .ret fresult else addChildToDentry p.dirname p.basename).wp
      serve Choice.FaultFree (fun _ => True) (Performs (.create p mode) ts s) s := by
  rw [Prog.wp_bind]
  refine wp_insertStatAt trivial (fun hnew => ⟨trivial, ?_⟩) (fun hold => ?_)
  · rw [if_neg (fun h => h rfl)]
    refine wp_editDentry_docs (fun s' hs' => ?_)
    show (_, s'.docs) = s.docs.apply p _
    rw [Docs.apply_create_new hreg hlen hnew, hs', Store.docs_putStat]
    rfl
  · rw [if_pos (by decide)]
    show (_, s.docs) = s.docs.apply p _
    rw [Docs.apply_refused (d := s.docs) (TreeOp.change_create_old hreg hlen hold), Docs.setOwn_own]

/-- The end of the making of a directory, once the clock is read. -/
theorem wp_mkdirAt :
    (insertStatAt p mode ts >>= fun fresult =>
        if fresult ≠ 0 then .ret fresult
        else addNewDentry p p (some p.dirname) >>= fun fresult =>
          if fresult ≠ 0 then .ret fresult else addChildToDentry p.dirname p.basename).wp
      serve Choice.FaultFree (fun _ => True) (Performs (.mkdir p mode) ts s) s := by
  rw [Prog.wp_bind]
  refine wp_insertStatAt trivial (fun hnew => ⟨trivial, ?_⟩) (fun hold => ?_)
  · rw [if_neg (fun h => h rfl), Prog.wp_bind]
    refine wp_addNewDentry trivial (fun hnone => ⟨trivial, ?_⟩) (fun hdir => ?_)
    · rw [if_neg (fun h => h rfl)]
      refine wp_editDentry_docs (fun s' hs' => ?_)
      show (_, s'.docs) = s.docs.apply p _
      rw [Docs.apply_mkdir_new hnew hnone, hs', Store.docs_putDentry, Store.docs_putStat]
    · rw [if_pos (by decide)]
      show (_, (s.putStat p _).docs) = s.docs.apply p _
      rw [Docs.apply_refused (d := s.docs) (TreeOp.change_mkdir_half hnew hdir), Docs.setOwn_stat,
        Store.docs_putStat]
  · rw [if_pos (by decide)]
    show (_, s.docs) = s.docs.apply p _
    rw [Docs.apply_refused (d := s.docs) (TreeOp.change_mkdir_old hold), Docs.setOwn_own]

/-- The end of a removal, which sees only what the first request leaves. -/
theorem wp_removeEntryAt {s₁ : Store Text} {post : ℤ → Store Text → Prop}
    (h : ∀ s', s'.docs = (s₁.docs.editDir p.dirname (removeChild p.basename)).setStat p none →
      post (if s₁.docs.stats p = none then -enoent else 0) s') :
    (do let _ ← removeChildFromDentry p.dirname p.basename; removeStat p : Op Text ℤ).wp
      serve Choice.FaultFree (fun _ => True) post s₁ := by
  rw [Prog.wp_bind]
  refine wp_editDentry_docs (fun s₂ hs₂ => ?_)
  have hstat : s₂.stats.val p = s₁.docs.stats p := congrFun (congrArg Docs.stats hs₂) p
  refine wp_removeStat trivial (fun hold => ⟨trivial, ?_⟩) (fun hnone => ?_)
  · have hp := h (s₂.eraseStat p) (by rw [Store.docs_eraseStat, hs₂])
    rwa [if_neg (hstat ▸ hold)] at hp
  · have hp := h s₂ (by rw [← hs₂]; exact (Docs.setStat_self hnone).symm)
    rwa [if_pos (hstat ▸ hnone)] at hp

/-- An unlink performs the change it is said to. -/
theorem wp_unlinkAt :
    (cbfuseUnlink p).wp serve Choice.FaultFree (fun _ => True) (Performs (.unlink p) ts s) s := by
  have hrest : ∀ s₁ : Store Text, s₁.docs = s.docs.setBlock p none →
      (do let _ ← removeChildFromDentry p.dirname p.basename; removeStat p : Op Text ℤ).wp
        serve Choice.FaultFree (fun _ => True) (Performs (.unlink p) ts s) s₁ := by
    intro s₁ hs₁
    refine wp_removeEntryAt (fun s' hs' => ?_)
    show (_, s'.docs) = s.docs.apply p _
    rw [Docs.apply_unlink, hs', hs₁]
    rfl
  unfold cbfuseUnlink
  rw [Prog.wp_bind]
  exact wp_removeData trivial (fun _ => ⟨trivial, hrest _ (s.docs_eraseBlock p)⟩)
    (fun hnone => hrest s (Docs.setBlock_self hnone).symm)

/-- The removal of a directory performs the change it is said to. -/
theorem wp_rmdirAt :
    (cbfuseRmdir p).wp serve Choice.FaultFree (fun _ => True) (Performs (.rmdir p) ts s) s := by
  have hrest : ∀ s₁ : Store Text, s₁.docs = s.docs.setDentry p none →
      (do let _ ← removeChildFromDentry p.dirname p.basename; removeStat p : Op Text ℤ).wp
        serve Choice.FaultFree (fun _ => True) (Performs (.rmdir p) ts s) s₁ := by
    intro s₁ hs₁
    refine wp_removeEntryAt (fun s' hs' => ?_)
    show (_, s'.docs) = s.docs.apply p _
    rw [Docs.apply_rmdir, hs', hs₁]
    rfl
  unfold cbfuseRmdir
  rw [Prog.wp_bind]
  exact wp_removeDentry trivial (fun _ => ⟨trivial, hrest _ (s.docs_eraseDentry p)⟩)
    (fun hnone => hrest s (Docs.setDentry_self hnone).symm)

namespace Docs

variable {d : Docs Text} {c : Own Text → Change Text}

/-- A change at a path sets no stat but the one there. -/
theorem stats_apply (k : CString) :
    (d.apply p c).2.stats k = if k = p then (c (d.own p)).own.stat else d.stats k := by
  simp only [apply, setOwn, stats_setDentry, stats_setBlock, stats_setStat]

/-- A change at a path sets no block but the one there. -/
theorem blocks_apply (k : CString) :
    (d.apply p c).2.blocks k = if k = p then (c (d.own p)).own.block else d.blocks k := by
  simp only [apply, setOwn, blocks_setDentry, blocks_setBlock, blocks_setStat]

/-- No edit makes a document or removes one. -/
theorem editedBy_eq_none {e : Option (List Json → List Json)} {o : Option Text} :
    editedBy e o = none ↔ o = none := by
  cases e with
  | none => exact Iff.rfl
  | some e => exact Option.map_eq_none_iff

/-- An edit makes no directory document, and takes none away. -/
theorem dentries_apply_eq_none (k : CString) :
    (d.apply p c).2.dentries k = none
      ↔ (if k = p then (c (d.own p)).own.dentry else d.dentries k) = none := by
  simp only [apply, setOwn, dentries_setDentry, dentries_setBlock, dentries_setStat]
  by_cases hk : k = p.dirname
  · rw [if_pos hk, editedBy_eq_none, hk]
  · rw [if_neg hk]

end Docs

/-- **The handlers make the changes.** With nothing failing, and the clock
reading `ts` at the first request, a call on the tree returns the result and
leaves the documents of its change. -/
theorem run_treeOp (op : TreeOp) (s : Store Text) {env : ℕ → Choice}
    (henv : ∀ n, (env n).FaultFree) (hts : (env 0).now = some ts) :
    ∃ s', op.code.run serve env s
        = (some (s.docs.apply op.path (op.change ts)).1, s')
      ∧ s'.docs = (s.docs.apply op.path (op.change ts)).2 := by
  have hrun : ∃ r s', op.code.run serve env s = (some r, s') ∧ Performs op ts s r s' := by
    have henv' : ∀ n, (env (n + 1)).FaultFree := fun n => henv (n + 1)
    cases op with
    | create p mode =>
      show ∃ r s', (cbfuseCreate p mode).run serve env s = _ ∧ _
      unfold cbfuseCreate
      split
      · next hreg =>
        refine ⟨_, s, rfl, ?_⟩
        show (_, s.docs) = s.docs.apply p _
        rw [Docs.apply_refused (d := s.docs) (if_pos hreg), Docs.setOwn_own]
      · next hreg =>
        split
        · next hlen =>
          refine ⟨_, s, rfl, ?_⟩
          show (_, s.docs) = s.docs.apply p _
          rw [Docs.apply_refused (d := s.docs) ((if_neg hreg).trans (if_pos hlen)),
            Docs.setOwn_own]
        · next hlen =>
          rw [insertStat_eq, Prog.call_bind, Prog.run_call]
          simp only [serve, hts]
          exact Prog.wp_run (wp_createAt (not_not.mp hreg) hlen) henv'
    | mkdir p mode =>
      show ∃ r s', (cbfuseMkdir p mode).run serve env s = _ ∧ _
      unfold cbfuseMkdir
      rw [if_neg (or_sIfdir_ne_zero mode), insertStat_eq, Prog.call_bind, Prog.run_call]
      simp only [serve, hts]
      exact Prog.wp_run wp_mkdirAt henv'
    | unlink p => exact Prog.wp_run wp_unlinkAt henv
    | rmdir p => exact Prog.wp_run wp_rmdirAt henv
  obtain ⟨r, s', hrun, hp⟩ := hrun
  obtain ⟨hr, hs'⟩ := Prod.ext_iff.mp hp
  dsimp only at hr hs'
  rw [← hr]
  exact ⟨s', hrun, hs'⟩

/-- The documents a call leaves. -/
theorem docs_run_treeOp (op : TreeOp) (s : Store Text) {env : ℕ → Choice}
    (henv : ∀ n, (env n).FaultFree) :
    ∃ ts, (op.code.run serve env s).2.docs = (s.docs.apply op.path (op.change ts)).2 := by
  obtain ⟨ts, hts⟩ := (henv 0).exists_now
  obtain ⟨s', hrun, hs'⟩ := run_treeOp op s henv hts
  exact ⟨ts, by rw [hrun, hs']⟩

/-- **The documents after a creation that succeeds.** -/
theorem docs_run_create {env : ℕ → Choice} (henv : ∀ n, (env n).FaultFree)
    (hreg : sIsreg mode) (hlen : ¬ p.length > maxPathLen) (hs : s.stats.val p = none) :
    ∃ ts, ((cbfuseCreate p mode).run serve env s).2.docs
      = (s.docs.setStat p (some (.packed (rootStat mode ts)))).editDir p.dirname
          (addChild p.basename) := by
  obtain ⟨ts, h⟩ := docs_run_treeOp (.create p mode) s henv
  exact ⟨ts, h.trans (congrArg Prod.snd (Docs.apply_create_new hreg hlen hs))⟩

/-- **The documents after a directory was made.** -/
theorem docs_run_mkdir {env : ℕ → Choice} (henv : ∀ n, (env n).FaultFree)
    (hs : s.stats.val p = none) (hd : s.dentries.val p = none) :
    ∃ ts, ((cbfuseMkdir p mode).run serve env s).2.docs
      = ((s.docs.setStat p (some (.packed (rootStat mode ts)))).setDentry p
          (some (CJson.printUnformatted (createDentry p (some p.dirname) [])))).editDir p.dirname
          (addChild p.basename) := by
  obtain ⟨ts, h⟩ := docs_run_treeOp (.mkdir p mode) s henv
  exact ⟨ts, h.trans (congrArg Prod.snd (Docs.apply_mkdir_new hs hd))⟩

/-- **The documents after an unlink**, whatever there was to remove. -/
theorem docs_run_unlink {env : ℕ → Choice} (henv : ∀ n, (env n).FaultFree) :
    ((cbfuseUnlink p).run serve env s).2.docs
      = ((s.docs.setBlock p none).editDir p.dirname (removeChild p.basename)).setStat p none := by
  obtain ⟨ts, h⟩ := docs_run_treeOp (.unlink p) s henv
  exact h.trans (congrArg Prod.snd Docs.apply_unlink)

/-- **The documents after the removal of a directory**, whatever there was to
remove. -/
theorem docs_run_rmdir {env : ℕ → Choice} (henv : ∀ n, (env n).FaultFree) :
    ((cbfuseRmdir p).run serve env s).2.docs
      = ((s.docs.setDentry p none).editDir p.dirname (removeChild p.basename)).setStat p none := by
  obtain ⟨ts, h⟩ := docs_run_treeOp (.rmdir p) s henv
  exact h.trans (congrArg Prod.snd Docs.apply_rmdir)

end Calls

end Cbfuse

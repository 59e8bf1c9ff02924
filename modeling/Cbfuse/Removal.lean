import Cbfuse.Documents

/-!
# Removing an entry

Removing a file or a directory is three steps, one for each document that
has to do with it: its block or its directory document, its name in the
directory above, its stat. Each step is made whatever became of the one
before, and only the last is reported.

So zero says that the stat is gone and little else: a step before it may
have failed in silence, and what it was to remove stays
(`unlink_leaves_block`). What zero is good for is said by
`removed_of_zero`, one document at a time. That the steps go on regardless
is meant for recovery, and for that it is good: an attempt that failed, or
was cut off, is repaired by the next one, since each of its requests leaves
what a removal would make of the store as it was (`removal_converges`).
-/

namespace Cbfuse

variable {Text : Type} [CJson Text]

/-! ## Request by request -/

omit [CJson Text] in
/-- The last step. -/
theorem removeStat_eq (p : CString) :
    (removeStat p : Op Text ℤ)
      = .call (.stats (.remove p)) (fun resp => .ret (checkResult (-enoent) resp)) := rfl

/-- The last two steps: the name is taken from the directory and the stat
removed. -/
def removeEntry (p : CString) : Op Text ℤ :=
  .call (.dentries (.get p.dirname)) (fun resp =>
    match editReply (removeChild p.basename) resp with
    | .error _ => removeStat p
    | .ok t => .call (.dentries (.store .replace p.dirname t 0)) (fun _ => removeStat p))

theorem removeEntry_eq (p : CString) :
    (do let _ ← removeChildFromDentry p.dirname p.basename; removeStat p : Op Text ℤ)
      = removeEntry p := by
  unfold removeChildFromDentry removeEntry
  rw [editDentry_eq, Prog.call_bind]
  congr 1
  funext resp
  cases editReply (removeChild p.basename) resp with
  | error e => rfl
  | ok t => rfl

/-- An unlink asks for the removal of the block, and does not look at the reply.
-/
theorem cbfuseUnlink_eq (p : CString) :
    (cbfuseUnlink p : Op Text ℤ) = .call (.blocks (.remove p)) (fun _ => removeEntry p) := by
  unfold cbfuseUnlink removeData askBlocks
  simp only [Prog.call_bind, Prog.ret_bind, Prog.pure_eq_ret, removeEntry_eq]

/-- The removal of a directory asks for that of its document, and does not look
at the reply. -/
theorem cbfuseRmdir_eq (p : CString) :
    (cbfuseRmdir p : Op Text ℤ) = .call (.dentries (.remove p)) (fun _ => removeEntry p) := by
  unfold cbfuseRmdir removeDentry askDentries
  simp only [Prog.call_bind, Prog.ret_bind, Prog.pure_eq_ret, removeEntry_eq]

/-! ## What zero says -/

/-- The directory of `p` does not list it. -/
def Store.Unlisted (s : Store Text) (p : CString) : Prop :=
  ∀ t items, s.dentries.val p.dirname = some t → childItems t = some items →
    Json.string p.basename ∉ items

section Zero

variable {s s' : Store Text} {p : CString} {env : ℕ → Choice}

omit [CJson Text] in
/-- The stat is gone if its removal says so, and nothing else is. -/
theorem removeStat_zero (hc : (env 0).Clean)
    (h : (removeStat p).run serve env s = (some 0, s')) :
    s'.stats.val p = none ∧ s'.dentries = s.dentries ∧ s'.blocks = s.blocks := by
  rw [removeStat_eq, Prog.run_call, Prog.run_ret] at h
  obtain ⟨hcode, rfl⟩ := Prod.ext_iff.mp h
  have hzero := Option.some.inj hcode
  obtain ⟨-, hst, hb⟩ | ⟨hne, -⟩ :=
    hc.checked (by decide : (-enoent : ℤ) ≠ 0) s.stats (.remove p)
  · refine ⟨?_, rfl, rfl⟩
    simp only [serve, hb]
    exact Kv.Collection.val_serve_remove s.stats p
  · exact absurd hzero hne

/-- A fetch that is answered and copied leaves an edit without a text only
where there are no children. -/
theorem childItems_of_editReply_error {c : Choice} (hc : c.Served) (ha : c.alloc = true)
    {k : CString} {edit : List Json → List Json} {e : ℤ} {t : Text}
    (h : editReply edit (serve c (.dentries (.get k)) s).1 = .error e)
    (ht : s.dentries.val k = some t) : childItems t = none := by
  obtain ⟨d, hd, rfl⟩ := Option.map_eq_some_iff.mp ht
  have hreply : (serve c (.dentries (.get k)) s).1 = ⟨⟨none, none, some d⟩, true⟩ := by
    simp only [serve, hc.answer, Kv.Collection.serve, hd, ha]
  rw [hreply] at h
  cases he : editText edit d.value with
  | none => exact editText_eq_none_iff.mp he
  | some t' => simp [editReply, he] at h

/-- What the last two steps leave when they end in zero. -/
theorem removeEntry_zero (henv : ∀ n, (env n).Clean)
    (h : (removeEntry p).run serve env s = (some 0, s')) :
    s'.stats.val p = none ∧ s'.blocks = s.blocks
      ∧ (s.dentries.val p = none → s'.dentries.val p = none)
      ∧ ((env 0).Served → (env 0).alloc = true → (env 1).Served → s'.Unlisted p) := by
  have hget : (serve (env 0) (.dentries (.get p.dirname)) s).2 = s := by simp [serve]
  unfold removeEntry at h
  rw [Prog.run_call, hget] at h
  cases hr : editReply (removeChild p.basename)
      (serve (env 0) (.dentries (.get p.dirname)) s).1 with
  | error e =>
    rw [hr] at h
    obtain ⟨hstat, hdent, hblock⟩ := removeStat_zero (henv 1) h
    refine ⟨hstat, hblock, fun hnone => by rw [hdent, hnone], fun hs ha _ t items ht hi => ?_⟩
    rw [hdent] at ht
    cases hi.symm.trans (childItems_of_editReply_error hs ha hr ht)
  | ok t' =>
    rw [hr] at h
    obtain ⟨-, -, d, hd, ht'⟩ := editReply_ok hr
    have hdoc := Kv.Collection.docs_of_answer_get hd
    have hval := Kv.Collection.val_of_docs hdoc
    rw [Prog.run_call] at h
    obtain ⟨hstat, hdent, hblock⟩ := removeStat_zero (henv 2) h
    refine ⟨hstat, hblock, fun hnone => ?_, fun _ _ hs' t items ht hi hmem => ?_⟩
    · have hne : p ≠ p.dirname := by
        intro e
        rw [← e, hnone] at hval
        cases hval
      rw [hdent]
      obtain he | he := s.dentries.answer_store_cases (env 1).fate .replace p.dirname t' 0
      · simp only [serve, he, hnone]
      · simp only [serve, he, Kv.Collection.val_put, if_neg hne, hnone]
    · have hput : (serve (env 1) (.dentries (.store .replace p.dirname t' 0)) s).2.dentries
          = s.dentries.put p.dirname t' := by
        have hv : s.dentries.verdict .replace p.dirname 0 = none := by
          simp [Kv.Collection.verdict, hdoc]
        simp only [serve, hs'.answer, Kv.Collection.serve, hv]
      rw [hdent, hput, Kv.Collection.val_put, if_pos rfl] at ht
      cases ht
      obtain ⟨items₀, -, hi'⟩ := childItems_of_editText ht'
      cases hi.symm.trans hi'
      exact (mem_removeChild.mp hmem).2 rfl

/-- **What zero says of a removal.** Where a request that fails has had no
effect, and whichever do: a removal that returns zero has removed the stat. It
has removed the block, or the directory document, if that request was
answered; and no directory lists the name if the fetch and the replacement of
the directory's document were answered, the fetch with memory for its copy. -/
theorem removed_of_zero (s : Store Text) (p : CString) {env : ℕ → Choice}
    (henv : ∀ n, (env n).Clean) (s' : Store Text) :
    ((cbfuseUnlink p).run serve env s = (some 0, s') →
        s'.stats.val p = none ∧ ((env 0).Served → s'.blocks.val p = none)
          ∧ ((env 1).Served → (env 1).alloc = true → (env 2).Served → s'.Unlisted p))
      ∧ ((cbfuseRmdir p).run serve env s = (some 0, s') →
        s'.stats.val p = none ∧ ((env 0).Served → s'.dentries.val p = none)
          ∧ ((env 1).Served → (env 1).alloc = true → (env 2).Served → s'.Unlisted p)) := by
  refine ⟨fun h => ?_, fun h => ?_⟩
  · rw [cbfuseUnlink_eq, Prog.run_call] at h
    obtain ⟨hstat, hblock, -, hlist⟩ := removeEntry_zero (fun n => henv (n + 1)) h
    refine ⟨hstat, fun hs => ?_, hlist⟩
    rw [hblock]
    simp only [serve, hs.answer]
    exact Kv.Collection.val_serve_remove s.blocks p
  · rw [cbfuseRmdir_eq, Prog.run_call] at h
    obtain ⟨hstat, -, hdent, hlist⟩ := removeEntry_zero (fun n => henv (n + 1)) h
    refine ⟨hstat, fun hs => hdent ?_, hlist⟩
    simp only [serve, hs.answer]
    exact Kv.Collection.val_serve_remove s.dentries p

end Zero

/-- A store with one file of one byte. -/
def oneFile : Store (Option Json) :=
  let env : ℕ → Choice := fun _ => .good ⟨0, 0⟩
  let s := ((cbfuseCreate ['/', 'f'] sIfreg).run serve env (rootStore env)).2
  ((writeData ['/', 'f'] [7] 0).run serve env s).2

/-- The directory cannot be written: the file is gone, but for its name. -/
theorem removed_of_zero_listed :
    let env : ℕ → Choice := fun n =>
      if n = 2 then { Choice.good ⟨0, 0⟩ with fate := .refused .timeout } else .good ⟨0, 0⟩
    let s' := ((cbfuseUnlink ['/', 'f']).run serve env oneFile).2
    s'.stats.val ['/', 'f'] = none ∧ s'.blocks.val ['/', 'f'] = none := by
  intro env s'
  have hclean : ∀ n, (env n).Clean := by
    intro n
    dsimp only [env]
    split <;> trivial
  obtain ⟨hstat, hblock, -⟩ := (removed_of_zero oneFile ['/', 'f'] hclean s').1 rfl
  exact ⟨hstat, hblock rfl⟩

/-- An unlink that can neither remove the block nor write the directory: the call
returns zero, and both are as they were. -/
theorem unlink_leaves_block :
    let env : ℕ → Choice := fun n =>
      if n = 0 ∨ n = 2 then { Choice.good ⟨0, 0⟩ with fate := .refused .timeout }
      else .good ⟨0, 0⟩
    let x := (cbfuseUnlink ['/', 'f']).run serve env oneFile
    (∀ n, (env n).Clean) ∧ x.1 = some 0 ∧ x.2.stats.val ['/', 'f'] = none
      ∧ x.2.blocks.val ['/', 'f'] = some [7]
      ∧ (x.2.dentries.val ['/']).bind childItems = some [Json.string ['f']] := by
  refine ⟨fun n => ?_, by decide, by decide, by decide, rfl⟩
  dsimp only
  split <;> trivial

/-! ## What a removal makes of the documents -/

section Converges

/-- **What the first request of a removal does**, seen from the other two:
once is enough, and the edit of the directory need not be made before it as
well. -/
structure Clears (p : CString) (first : Docs Text → Docs Text) : Prop where
  /-- Clearing twice is clearing once. -/
  idem : ∀ d, first (first d) = first d
  /-- Clearing has nothing to do with the stat. -/
  stat : ∀ d, first (d.setStat p none) = (first d).setStat p none
  /-- An edit before is lost in the same edit after. -/
  edit : ∀ d, (first (d.editDir p.dirname (removeChild p.basename))).editDir p.dirname
      (removeChild p.basename) = (first d).editDir p.dirname (removeChild p.basename)

variable {p : CString} {first : Docs Text → Docs Text}

/-- The documents a removal leaves. -/
def Docs.removed (d : Docs Text) (p : CString) (first : Docs Text → Docs Text) : Docs Text :=
  ((first d).editDir p.dirname (removeChild p.basename)).setStat p none

/-- A name that is removed twice is removed once. -/
theorem edited_removeChild_idem (n : CString) (o : Option Text) :
    edited (removeChild n) (edited (removeChild n) o) = edited (removeChild n) o := by
  rw [edited_edited]
  congr 1
  funext items
  exact removeChild_idem n items

theorem editDir_removeChild_idem (d : Docs Text) (k n : CString) :
    (d.editDir k (removeChild n)).editDir k (removeChild n) = d.editDir k (removeChild n) := by
  simp only [Docs.editDir, Docs.setDentry_setDentry, Docs.dentries_setDentry, if_pos,
    edited_removeChild_idem]

/-- Setting a block to nothing clears the path of it. -/
theorem clears_block (p : CString) : Clears p (fun d : Docs Text => d.setBlock p none) where
  idem _ := Docs.setBlock_setBlock none none
  stat _ := rfl
  edit d := editDir_removeChild_idem (d.setBlock p none) p.dirname p.basename

/-- Setting a directory document to nothing clears the path of it. -/
theorem clears_dentry (p : CString) : Clears p (fun d : Docs Text => d.setDentry p none) where
  idem _ := Docs.setDentry_setDentry none none
  stat _ := rfl
  edit d := by
    by_cases hp : p.dirname = p
    · simp only [Docs.editDir, hp, Docs.setDentry_setDentry]
    · simp only [Docs.editDir, Docs.dentries_setDentry, if_neg hp, if_pos,
        Docs.setDentry_comm hp, Docs.setDentry_setDentry, edited_removeChild_idem]

namespace Clears

variable (h : Clears p first) (d : Docs Text)
include h

/-- **Each step of a removal leaves what the removal makes of the
documents as it was.** -/
theorem removed_first : (first d).removed p first = d.removed p first := by
  unfold Docs.removed
  rw [h.idem]

theorem removed_edit :
    (d.editDir p.dirname (removeChild p.basename)).removed p first = d.removed p first := by
  unfold Docs.removed
  rw [h.edit]

theorem removed_stat : (d.setStat p none).removed p first = d.removed p first := by
  unfold Docs.removed
  rw [h.stat]
  exact Docs.setStat_setStat (d := (first d).editDir p.dirname (removeChild p.basename)) none none

/-- A second removal finds nothing to do. -/
theorem removed_removed : (d.removed p first).removed p first = d.removed p first := by
  have hlast := h.removed_stat ((first d).editDir p.dirname (removeChild p.basename))
  rw [h.removed_edit, h.removed_first] at hlast
  exact hlast

end Clears

/-! ## Attempts that fail -/

omit [CJson Text] in
/-- A request to remove a stat removes it or does nothing, whatever becomes of
it. -/
theorem docs_serve_removeStat (c : Choice) (p : CString) (s : Store Text) :
    (serve c (.stats (.remove p)) s).2.docs = s.docs
      ∨ (serve c (.stats (.remove p)) s).2.docs = s.docs.setStat p none := by
  obtain he | he := s.stats.answer_remove_cases c.fate p
  · exact .inl (by simp only [serve, he])
  · right
    simp only [serve, he]
    exact s.docs_eraseStat p

omit [CJson Text] in
/-- A request to remove a block removes it or does nothing, whatever becomes of
it. -/
theorem docs_serve_removeBlock (c : Choice) (p : CString) (s : Store Text) :
    (serve c (.blocks (.remove p)) s).2.docs = s.docs
      ∨ (serve c (.blocks (.remove p)) s).2.docs = s.docs.setBlock p none := by
  obtain he | he := s.blocks.answer_remove_cases c.fate p
  · exact .inl (by simp only [serve, he])
  · right
    simp only [serve, he]
    exact s.docs_eraseBlock p

omit [CJson Text] in
/-- A request to remove a directory document removes it or does nothing,
whatever becomes of it. -/
theorem docs_serve_removeDentry (c : Choice) (p : CString) (s : Store Text) :
    (serve c (.dentries (.remove p)) s).2.docs = s.docs
      ∨ (serve c (.dentries (.remove p)) s).2.docs = s.docs.setDentry p none := by
  obtain he | he := s.dentries.answer_remove_cases c.fate p
  · exact .inl (by simp only [serve, he])
  · right
    simp only [serve, he]
    exact s.docs_eraseDentry p

omit [CJson Text] in
/-- A request to replace a directory document replaces it or does nothing,
whatever becomes of it. -/
theorem docs_serve_replaceDentry (c : Choice) (p : CString) (t : Text) (s : Store Text) :
    (serve c (.dentries (.store .replace p t 0)) s).2.docs = s.docs
      ∨ (serve c (.dentries (.store .replace p t 0)) s).2.docs
          = s.docs.setDentry p (some t) := by
  obtain he | he := s.dentries.answer_store_cases c.fate .replace p t 0
  · exact .inl (by simp only [serve, he])
  · right
    simp only [serve, he]
    exact s.docs_putDentry p t

/-- The last two steps, whatever becomes of each request. -/
theorem Clears.wp_removeEntry (h : Clears p first) {s : Store Text} {d : Docs Text}
    (hs : s.docs.removed p first = d) :
    (removeEntry p).wp serve (fun _ => True) (fun s' => s'.docs.removed p first = d)
      (fun _ s' => s'.docs.removed p first = d) s := by
  have hstat : ∀ s' : Store Text, s'.docs.removed p first = d →
      (removeStat p).wp serve (fun _ => True) (fun s' => s'.docs.removed p first = d)
        (fun _ s' => s'.docs.removed p first = d) s' := by
    intro s' hs' c _
    have hnext : (serve c (.stats (.remove p)) s').2.docs.removed p first = d := by
      obtain he | he := docs_serve_removeStat c p s'
      · rw [he, hs']
      · rw [he, h.removed_stat, hs']
    exact ⟨hnext, hnext⟩
  intro c _
  have hget : (serve c (.dentries (.get p.dirname)) s).2 = s := by simp [serve]
  rw [hget]
  refine ⟨hs, ?_⟩
  dsimp only
  cases hr : editReply (removeChild p.basename) (serve c (.dentries (.get p.dirname)) s).1 with
  | error e => exact hstat s hs
  | ok t' =>
    obtain ⟨-, -, doc, hd, ht'⟩ := editReply_ok hr
    have hval := Kv.Collection.val_of_docs (Kv.Collection.docs_of_answer_get hd)
    intro c' _
    have hnext : (serve c' (.dentries (.store .replace p.dirname t' 0)) s).2.docs.removed p first
        = d := by
      obtain he | he := docs_serve_replaceDentry c' p.dirname t' s
      · rw [he, hs]
      · -- what is stored is the edit of what is there
        have hedit : s.docs.setDentry p.dirname (some t')
            = s.docs.editDir p.dirname (removeChild p.basename) := by
          rw [Docs.editDir, show s.docs.dentries p.dirname = some doc.value from hval,
            edited_of_editText ht']
        rw [he, hedit, h.removed_edit, hs]
    exact ⟨hnext, hstat _ hnext⟩

/-- A removal, whatever becomes of each request. -/
theorem Clears.wp_removal (h : Clears p first) {q : Req Text}
    (hq : ∀ c s, (serve c q s).2.docs = s.docs ∨ (serve c q s).2.docs = first s.docs)
    {s : Store Text} {d : Docs Text} (hs : s.docs.removed p first = d) :
    (Prog.call q (fun _ => removeEntry p)).wp serve (fun _ => True)
      (fun s' => s'.docs.removed p first = d) (fun _ s' => s'.docs.removed p first = d) s := by
  intro c _
  have hnext : (serve c q s).2.docs.removed p first = d := by
    obtain he | he := hq c s
    · rw [he, hs]
    · rw [he, h.removed_first, hs]
  exact ⟨hnext, h.wp_removeEntry hnext⟩

/-- **Any number of attempts**, each cut off anywhere, leave what a removal
would make of the documents as it was. -/
theorem Clears.removed_attempts (h : Clears p first) {q : Req Text}
    (hq : ∀ c s, (serve c q s).2.docs = s.docs ∨ (serve c q s).2.docs = first s.docs)
    (op : TreeOp) (hop : op.code = Prog.call q (fun _ => removeEntry p))
    (attempts : List (List Choice)) (s : Store Text) :
    (Machine.final (fun cs => crashStep (op, cs)) attempts s).docs.removed p first
      = s.docs.removed p first := by
  induction attempts generalizing s with
  | nil => rfl
  | cons cs attempts ih =>
    refine (ih (crashStep (op, cs) s)).trans ?_
    unfold crashStep
    rw [hop]
    exact Prog.wp_exec (h.wp_removal hq rfl) rfl (fun _ _ => trivial)

end Converges

/-! ## One more attempt is enough -/

/-- The call removes an entry. -/
def TreeOp.Removes : TreeOp → Prop
  | unlink _ => True
  | rmdir _ => True
  | _ => False

/-- What the first request of a removal removes. -/
def TreeOp.first : TreeOp → Docs Text → Docs Text
  | rmdir p, d => d.setDentry p none
  | op, d => d.setBlock op.path none

section Removal

variable {op : TreeOp} {s : Store Text} {env : ℕ → Choice}

theorem TreeOp.Removes.clears (hop : op.Removes) :
    Clears op.path (op.first : Docs Text → Docs Text) := by
  cases op with
  | create p mode => exact hop.elim
  | mkdir p mode => exact hop.elim
  | unlink p => exact clears_block p
  | rmdir p => exact clears_dentry p

/-- A removal with nothing failing. -/
theorem docs_run_removal (hop : op.Removes) (henv : ∀ n, (env n).FaultFree) :
    (op.code.run serve env s).2.docs = s.docs.removed op.path op.first := by
  cases op with
  | create p mode => exact hop.elim
  | mkdir p mode => exact hop.elim
  | unlink p => exact docs_run_unlink henv
  | rmdir p => exact docs_run_rmdir henv

/-- Whatever became of any number of attempts, one more leaves what one would
have left. -/
theorem docs_run_removal_attempts (hop : op.Removes) (attempts : List (List Choice))
    (henv : ∀ n, (env n).FaultFree) :
    (op.code.run serve env (Machine.final (fun cs => crashStep (op, cs)) attempts s)).2.docs
      = s.docs.removed op.path op.first := by
  rw [docs_run_removal hop henv]
  cases op with
  | create p mode => exact hop.elim
  | mkdir p mode => exact hop.elim
  | unlink p =>
    exact (clears_block p).removed_attempts (fun c s => docs_serve_removeBlock c p s)
      (.unlink p) (cbfuseUnlink_eq p) attempts s
  | rmdir p =>
    exact (clears_dentry p).removed_attempts (fun c s => docs_serve_removeDentry c p s)
      (.rmdir p) (cbfuseRmdir_eq p) attempts s

end Removal

/-- **Removal converges on retry.** Whatever the store, and whatever becomes of
the requests of any number of attempts, each cut off after any of them: one
attempt with nothing failing leaves the documents that it would have left
without them. In particular a second removal changes nothing. -/
theorem removal_converges (op : TreeOp) (hop : op.Removes) (s : Store Text)
    (attempts : List (List Choice)) {env env' : ℕ → Choice} (henv : ∀ n, (env n).FaultFree)
    (henv' : ∀ n, (env' n).FaultFree) :
    (op.code.run serve env (Machine.final (fun cs => crashStep (op, cs)) attempts s)).2.docs
        = (op.code.run serve env' s).2.docs
      ∧ (op.code.run serve env (op.code.run serve env' s).2).2.docs
        = (op.code.run serve env' s).2.docs := by
  refine ⟨?_, ?_⟩
  · rw [docs_run_removal_attempts hop attempts henv, docs_run_removal hop henv']
  · rw [docs_run_removal hop henv, docs_run_removal hop henv']
    exact hop.clears.removed_removed s.docs

/-- The first attempt loses its first reply and is cut off, the second
cannot fetch the directory. -/
theorem removal_converges_unlink :
    let lost : Choice := { Choice.good ⟨0, 0⟩ with fate := .lost .timeout }
    let attempts := [[lost], [Choice.good ⟨0, 0⟩, lost, Choice.good ⟨0, 0⟩]]
    let s' := Machine.final (fun cs => crashStep (.unlink ['/', 'f'], cs)) attempts oneFile
    s'.blocks.val ['/', 'f'] = none ∧ s'.stats.val ['/', 'f'] = none
      ∧ ((cbfuseUnlink ['/', 'f']).run serve (fun _ => .good ⟨0, 0⟩) s').2.docs
        = ((cbfuseUnlink ['/', 'f']).run serve (fun _ => .good ⟨0, 0⟩) oneFile).2.docs :=
  ⟨by decide, by decide, (removal_converges (.unlink ['/', 'f']) trivial oneFile _
    (fun _ => Choice.faultFree_good _) (fun _ => Choice.faultFree_good _)).1⟩

end Cbfuse

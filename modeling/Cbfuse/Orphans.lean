import Cbfuse.Tree

/-!
# Entries the tree has lost

An entry is found by listing: from the root, each directory document
names what lies below. An entry whose directory is gone still has its
stat, and its bytes, but no listing leads to it any more.

`cbfuse_rmdir` removes a directory without looking at its document. Where
that document still lists something, the entries listed are lost – all
that lie below the directory, at any depth. Nothing else loses an entry:
`noOrphans_iff` says that a run without faults keeps every entry reachable
exactly if each directory it removes is empty at that moment.
-/

namespace Cbfuse

open CString (rootDirString join)

variable {Text : Type} [CJson Text]

/-! ## What it is to be found -/

/-- What a listing from the root leads to. -/
inductive Store.Reachable (s : Store Text) : CString → Prop
  | top : s.Reachable rootDirString
  | child {k n : CString} {t : Text} {items : List Json} :
      s.Reachable k → s.dentries.val k = some t → childItems t = some items →
      .string n ∈ items → s.Reachable (join k n)

/-- **No entry is lost**: every path but the root that has a stat has a
directory with a stat and a directory document, that document lists it,
and a listing from the root leads to it. -/
structure Store.NoOrphans (s : Store Text) : Prop where
  /-- The directory of an entry has a stat. -/
  parent : ∀ q, q ≠ rootDirString → s.stats.val q ≠ none → s.stats.val q.dirname ≠ none
  /-- The directory of an entry has a document, which lists the entry. -/
  listed : ∀ q, q ≠ rootDirString → s.stats.val q ≠ none →
    ∃ t items, s.dentries.val q.dirname = some t ∧ childItems t = some items
      ∧ .string q.basename ∈ items
  /-- A listing leads to the entry. -/
  reachable : ∀ q, s.stats.val q ≠ none → s.Reachable q

/-- **The entries but `p` are linked**: the invariant of the tree, with
one entry left out. A call links or unlinks one entry over several
requests, and while it does so that entry is the one left out; between
calls it is the root, which is nobody's entry. -/
structure Store.Linked (s : Store Text) (p : CString) : Prop where
  /-- The directory documents are sound. -/
  sound : s.Sound
  /-- The root has a stat. -/
  root : s.stats.val rootDirString ≠ none
  /-- Every directory has a stat. -/
  dirStat : ∀ k, s.dentries.val k ≠ none → s.stats.val k ≠ none
  /-- Every entry stands at a normalised path. -/
  normalised : ∀ q, s.stats.val q ≠ none → q.Normalised
  /-- Every entry but `p` has a directory with a stat, and is listed. -/
  linked : ∀ q, q ≠ rootDirString → q ≠ p → s.stats.val q ≠ none →
    s.stats.val q.dirname ≠ none ∧ s.Listed q

namespace Store.Linked

variable {s : Store Text} {p : CString}

/-- Leaving out an entry asks for less. -/
theorem weaken (h : s.Linked rootDirString) (p : CString) : s.Linked p where
  sound := h.sound
  root := h.root
  dirStat := h.dirStat
  normalised := h.normalised
  linked q hq _ hs := h.linked q hq hq hs

theorem reachable (h : s.Linked rootDirString) {q : CString} (hn : q.Normalised)
    (hs : s.stats.val q ≠ none) : s.Reachable q := by
  induction hn with
  | top => exact .top
  | @entry k n hk hn ih =>
    have hq := CString.join_ne_root k hn
    obtain ⟨hpar, t, names, ht, hl, hmem⟩ := h.linked _ hq hq hs
    rw [CString.dirname_join hk hn] at hpar ht hl
    rw [CString.basename_join _ hn] at hmem
    exact .child (ih hpar) ht hl.items (List.mem_map_of_mem hmem)

/-- The invariant between calls is that no entry is lost. -/
theorem noOrphans (h : s.Linked rootDirString) : s.NoOrphans where
  parent q hq hs := (h.linked q hq hq hs).1
  listed q hq hs := by
    obtain ⟨-, t, names, ht, hl, hmem⟩ := h.linked q hq hq hs
    exact ⟨t, _, ht, hl.items, List.mem_map_of_mem hmem⟩
  reachable q hs := h.reachable (h.normalised q hs) hs

/-! ## Linking an entry -/

theorem putStat (h : s.Linked p) (hp : p.Normalised) (stat : CbfuseStat) :
    (s.putStat p stat).Linked p where
  sound := h.sound.putStat stat
  root := by
    simp only [stats_putStat, Kv.Collection.val_put]
    split
    · exact Option.some_ne_none _
    · exact h.root
  dirStat k hk := by
    simp only [stats_putStat, Kv.Collection.val_put]
    split
    · exact Option.some_ne_none _
    · exact h.dirStat k hk
  normalised q hs := by
    by_cases hq : q = p
    · exact hq ▸ hp
    · rw [stats_putStat, Kv.Collection.val_put, if_neg hq] at hs
      exact h.normalised q hs
  linked q hr hq hs := by
    rw [stats_putStat, Kv.Collection.val_put, if_neg hq] at hs
    obtain ⟨hpar, hl⟩ := h.linked q hr hq hs
    refine ⟨?_, hl⟩
    simp only [stats_putStat, Kv.Collection.val_put]
    split
    · exact Option.some_ne_none _
    · exact hpar

/-- A directory that has no document yet lists nothing, so giving it an
empty one unlinks nothing. -/
theorem putDentry_new (h : s.Linked p) (hp : p.Normalised) (hs : s.stats.val p ≠ none)
    (hd : s.dentries.val p = none) {t : Text} (hl : Lists p t []) :
    (s.putDentry p t).Linked p where
  sound := h.sound.putDentry hp hl List.nodup_nil (fun n hn => by simp at hn)
  root := h.root
  dirStat k hk := by
    by_cases hkp : k = p
    · exact hkp ▸ hs
    · rw [dentries_putDentry, Kv.Collection.val_put, if_neg hkp] at hk
      exact h.dirStat k hk
  normalised := h.normalised
  linked q hr hq hqs := by
    obtain ⟨hpar, t', names, ht', hl', hmem⟩ := h.linked q hr hq hqs
    refine ⟨hpar, t', names, ?_, hl', hmem⟩
    have hne : q.dirname ≠ p := fun e => by rw [e, hd] at ht'; cases ht'
    rw [dentries_putDentry, Kv.Collection.val_put, if_neg hne]
    exact ht'

/-- Replacing the document of a directory by one that lists the same
entries, `p` apart, leaves the other entries linked. -/
theorem putDentry (h : s.Linked p) {k : CString} {t t' : Text} {names names' : List CString}
    (ht : s.dentries.val k = some t) (hl : Lists k t names) (hl' : Lists k t' names')
    (hsound : (s.putDentry k t').Sound)
    (hsub : ∀ n ∈ names, join k n ≠ p → n ∈ names') :
    (s.putDentry k t').Linked p where
  sound := hsound
  root := h.root
  dirStat k' hk' := by
    rw [dentries_putDentry, Kv.Collection.val_put] at hk'
    split at hk'
    · next e =>
      refine h.dirStat k' ?_
      rw [e, ht]
      exact Option.some_ne_none _
    · exact h.dirStat k' hk'
  normalised := h.normalised
  linked q hr hq hs := by
    obtain ⟨hpar, t₁, names₁, ht₁, hl₁, hmem⟩ := h.linked q hr hq hs
    refine ⟨hpar, ?_⟩
    by_cases hk : q.dirname = k
    · subst hk
      rw [ht] at ht₁
      cases ht₁
      rw [hl₁.unique hl] at hmem
      refine ⟨t', names', by simp, hl', hsub _ hmem (fun e => hq ?_)⟩
      rw [← e, ((h.normalised q hs).eq_join hr).2.2]
    · refine ⟨t₁, names₁, ?_, hl₁, hmem⟩
      rw [dentries_putDentry, Kv.Collection.val_put, if_neg hk]
      exact ht₁

/-- **Adding its name links an entry.** -/
theorem addChild (h : s.Linked p) (hp : p.Normalised) (hr : p ≠ rootDirString)
    (hs : s.stats.val p ≠ none) (hnl : ¬ s.Listed p) (hpar : s.stats.val p.dirname ≠ none)
    {t t' : Text} (ht : s.dentries.val p.dirname = some t)
    (ht' : editText (addChild p.basename) t = some t') :
    (s.putDentry p.dirname t').Linked rootDirString := by
  obtain ⟨-, names, hl, -, -⟩ := h.sound _ _ ht
  have hl' := hl.edit ht' (addChild_map _ _)
  have h' := h.putDentry ht hl hl' (h.sound.addChild hp hr hs hnl ht ht')
    (fun n hn _ => List.mem_append_left _ hn)
  refine ⟨h'.sound, h'.root, h'.dirStat, h'.normalised, fun q hqr _ hqs => ?_⟩
  by_cases hq : q = p
  · subst hq
    exact ⟨hpar, t', _, by simp, hl', List.mem_append_right _ (List.mem_singleton_self _)⟩
  · exact h'.linked q hqr hq hqs

/-! ## Unlinking an entry -/

/-- Removing the document of a directory that lists nothing. -/
theorem eraseDentry (h : s.Linked p)
    (hempty : ∀ t, s.dentries.val p = some t → childItems t = some []) :
    (s.eraseDentry p).Linked p where
  sound := h.sound.eraseDentry
  root := h.root
  dirStat k hk := by
    refine h.dirStat k (fun hnone => hk ?_)
    rw [dentries_eraseDentry, Kv.Collection.val_erase, hnone, ite_self]
  normalised := h.normalised
  linked q hr hq hs := by
    obtain ⟨hpar, t, names, ht, hl, hmem⟩ := h.linked q hr hq hs
    refine ⟨hpar, t, names, ?_, hl, hmem⟩
    have hne : q.dirname ≠ p := by
      intro e
      have hnil := hl.items.symm.trans (hempty t (e ▸ ht))
      rw [List.map_eq_nil_iff.mp (Option.some.inj hnil)] at hmem
      cases hmem
    rw [dentries_eraseDentry, Kv.Collection.val_erase, if_neg hne]
    exact ht

/-- Removing a name unlinks no other entry. -/
theorem removeChild (h : s.Linked p) (hp : p.Normalised) (hr : p ≠ rootDirString)
    {t t' : Text} (ht : s.dentries.val p.dirname = some t)
    (ht' : editText (removeChild p.basename) t = some t') :
    (s.putDentry p.dirname t').Linked p := by
  obtain ⟨-, names, hl, -, -⟩ := h.sound _ _ ht
  refine h.putDentry ht hl (hl.edit ht' (removeChild_map _ _)) (h.sound.removeChild ht ht').1
    (fun n hmem hne => List.mem_filter.mpr ⟨hmem, ?_⟩)
  have hb : n ≠ p.basename := fun e => hne (by rw [e, (hp.eq_join hr).2.2])
  simpa using hb

/-- **Removing its stat removes an entry** that is neither listed nor a
directory. -/
theorem eraseStat (h : s.Linked p) (hr : p ≠ rootDirString) (hnl : ¬ s.Listed p)
    (hd : s.dentries.val p = none) : (s.eraseStat p).Linked rootDirString where
  sound := h.sound.eraseStat hnl
  root := by
    rw [stats_eraseStat, Kv.Collection.val_erase, if_neg (Ne.symm hr)]
    exact h.root
  dirStat k hk := by
    have hkp : k ≠ p := fun e => hk (by rw [dentries_eraseStat, e, hd])
    rw [stats_eraseStat, Kv.Collection.val_erase, if_neg hkp]
    exact h.dirStat k hk
  normalised q hs := by
    rw [stats_eraseStat, Kv.Collection.val_erase] at hs
    split at hs
    · exact absurd rfl hs
    · exact h.normalised q hs
  linked q hqr _ hs := by
    have hq : q ≠ p := fun e => hs (by simp [e])
    rw [stats_eraseStat, Kv.Collection.val_erase, if_neg hq] at hs
    obtain ⟨hpar, t, names, ht, hl⟩ := h.linked q hqr hq hs
    have hne : q.dirname ≠ p := fun e => by rw [e, hd] at ht; cases ht
    refine ⟨?_, t, names, ht, hl⟩
    rw [stats_eraseStat, Kv.Collection.val_erase, if_neg hne]
    exact hpar

end Store.Linked

/-! ## The calls, as the kernel makes them -/

/-- The path is a directory: it has a stat and a directory document. -/
def Store.IsDir (s : Store Text) (p : CString) : Prop :=
  s.stats.val p ≠ none ∧ s.dentries.val p ≠ none

/-- The path is a file: it has a stat and no directory document. -/
def Store.IsFile (s : Store Text) (p : CString) : Prop :=
  s.stats.val p ≠ none ∧ s.dentries.val p = none

/-- **The calls the kernel makes** once its lookups have succeeded: on a
normalised path that is not the root, making an entry in a directory,
unlinking a file, removing a directory. -/
def TreeOp.Allowed (op : TreeOp) (s : Store Text) : Prop :=
  op.path.Normalised ∧ op.path ≠ rootDirString ∧
    match op with
    | create p _ => s.IsDir p.dirname
    | mkdir p _ => s.IsDir p.dirname
    | unlink p => s.IsFile p
    | rmdir p => s.IsDir p

/-- The document of a directory to be removed lists nothing. -/
def TreeOp.LeavesNoEntry (op : TreeOp) (s : Store Text) : Prop :=
  match op with
  | rmdir p => ∀ t, s.dentries.val p = some t → childItems t = some []
  | _ => True

/-- A whole call, its requests served under the choices given with it. -/
def treeStep (x : TreeOp × (ℕ → Choice)) (s : Store Text) : Store Text :=
  (x.1.code.run serve x.2 s).2

section Calls

variable {s : Store Text} {p : CString}

/-- Adding its name to a directory that is there links an entry. -/
theorem wp_addChild_linked {I : Store Text → Prop} (hI : ∀ s, I s) (h : s.Linked p)
    (hp : p.Normalised) (hr : p ≠ rootDirString) (hs : s.stats.val p ≠ none)
    (hnl : ¬ s.Listed p) (hdir : s.IsDir p.dirname) :
    (addChildToDentry p.dirname p.basename).wp serve Choice.FaultFree I
      (fun _ s' => s'.Linked rootDirString) s := by
  refine wp_editDentry (hI s) (fun hd => absurd hd hdir.2) (fun t ht hbad => ?_)
    (fun t t' ht ht' => ⟨hI _, h.addChild hp hr hs hnl hdir.1 ht ht'⟩)
  obtain ⟨-, names, hl, -, -⟩ := h.sound _ _ ht
  obtain ⟨t', ht'⟩ := editText_of_childItems (addChild p.basename) hl.items
  rw [ht'] at hbad
  cases hbad

theorem wp_create_linked {mode : ℕ} (h : s.Linked rootDirString) (hp : p.Normalised)
    (hr : p ≠ rootDirString) (hdir : s.IsDir p.dirname) :
    (cbfuseCreate p mode).wp serve Choice.FaultFree (fun _ => True)
      (fun _ s' => s'.Linked rootDirString) s := by
  unfold cbfuseCreate
  split
  · exact h
  · split
    · exact h
    · rw [Prog.wp_bind]
      refine wp_insertStat trivial (fun hnew ts => ⟨trivial, ?_⟩) (fun _ => ?_)
      · rw [if_neg (by decide)]
        refine wp_addChild_linked (fun _ => trivial) ((h.weaken p).putStat hp _) hp hr (by simp)
          (h.sound.not_listed hp hr hnew) ⟨?_, hdir.2⟩
        rw [Store.stats_putStat, Kv.Collection.val_put, if_neg (hp.dirname_ne hr)]
        exact hdir.1
      · rw [if_pos (by decide)]
        exact h

theorem wp_mkdir_linked {mode : ℕ} (h : s.Linked rootDirString) (hp : p.Normalised)
    (hr : p ≠ rootDirString) (hdir : s.IsDir p.dirname) :
    (cbfuseMkdir p mode).wp serve Choice.FaultFree (fun _ => True)
      (fun _ s' => s'.Linked rootDirString) s := by
  have hne := hp.dirname_ne hr
  unfold cbfuseMkdir
  rw [if_neg (or_sIfdir_ne_zero mode), Prog.wp_bind]
  refine wp_insertStat trivial (fun hnew ts => ⟨trivial, ?_⟩) (fun _ => ?_)
  · have h₁ := (h.weaken p).putStat hp (rootStat mode ts)
    -- a path without a stat has no directory document either
    have hd : s.dentries.val p = none := by
      by_contra hd
      exact h.dirStat p hd hnew
    rw [if_neg (by decide), Prog.wp_bind]
    refine wp_addNewDentry trivial (fun _ => ⟨trivial, ?_⟩) (fun hold => absurd hd hold)
    have hl : Lists p (CJson.printUnformatted (createDentry p (some p.dirname) []) : Text) [] :=
      lists_createDentry p _ (by simp [parentPath, hr])
    rw [if_neg (by decide)]
    refine wp_addChild_linked (fun _ => trivial) (h₁.putDentry_new hp (by simp) hd hl) hp hr
      (by simp) (Store.not_listed_putDentry hl (h.sound.not_listed hp hr hnew)) ⟨?_, ?_⟩
    · rw [Store.stats_putDentry, Store.stats_putStat, Kv.Collection.val_put, if_neg hne]
      exact hdir.1
    · rw [Store.dentries_putDentry, Kv.Collection.val_put, if_neg hne]
      exact hdir.2
  · rw [if_pos (by decide)]
    exact h

/-- The end of both removals unlinks an entry that is no directory, or no
longer one. -/
theorem wp_removeEntry_linked (h : s.Linked p) (hp : p.Normalised) (hr : p ≠ rootDirString)
    (hs : s.stats.val p ≠ none) (hd : s.dentries.val p = none) :
    (do let _ ← removeChildFromDentry p.dirname p.basename; removeStat p : Op Text ℤ).wp
      serve Choice.FaultFree (fun _ => True) (fun _ s' => s'.Linked rootDirString) s := by
  rw [Prog.wp_bind]
  refine wp_editDentry trivial (fun hnone => ?_) (fun t ht hbad => ?_)
    (fun t t' ht ht' => ⟨trivial, ?_⟩)
  · have hnl : ¬ s.Listed p := by
      rintro ⟨t, names, ht, -, -⟩
      rw [hnone] at ht
      cases ht
    exact wp_removeStat trivial (fun _ => ⟨trivial, h.eraseStat hr hnl hd⟩)
      (fun hsn => absurd hsn hs)
  · obtain ⟨-, names, hl, -, -⟩ := h.sound _ _ ht
    obtain ⟨t', ht'⟩ := editText_of_childItems (removeChild p.basename) hl.items
    rw [ht'] at hbad
    cases hbad
  · have hd' : (s.putDentry p.dirname t').dentries.val p = none := by
      rw [Store.dentries_putDentry, Kv.Collection.val_put, if_neg (hp.dirname_ne hr).symm, hd]
    have hnl := (h.sound.removeChild ht ht').2
    exact wp_removeStat trivial
      (fun _ => ⟨trivial, (h.removeChild hp hr ht ht').eraseStat hr hnl hd'⟩)
      (fun hsn => absurd hsn hs)

theorem wp_unlink_linked (h : s.Linked rootDirString) (hp : p.Normalised)
    (hr : p ≠ rootDirString) (hfile : s.IsFile p) :
    (cbfuseUnlink p).wp serve Choice.FaultFree (fun _ => True)
      (fun _ s' => s'.Linked rootDirString) s := by
  unfold cbfuseUnlink
  rw [Prog.wp_bind]
  -- the blocks are no part of the tree
  have h' : (s.eraseBlock p).Linked p :=
    ⟨h.sound, h.root, h.dirStat, h.normalised, (h.weaken p).linked⟩
  exact wp_removeData trivial
    (fun _ => ⟨trivial, wp_removeEntry_linked h' hp hr hfile.1 hfile.2⟩)
    (fun _ => wp_removeEntry_linked (h.weaken p) hp hr hfile.1 hfile.2)

theorem wp_rmdir_linked (h : s.Linked rootDirString) (hp : p.Normalised)
    (hr : p ≠ rootDirString) (hdir : s.IsDir p)
    (hempty : ∀ t, s.dentries.val p = some t → childItems t = some []) :
    (cbfuseRmdir p).wp serve Choice.FaultFree (fun _ => True)
      (fun _ s' => s'.Linked rootDirString) s := by
  unfold cbfuseRmdir
  rw [Prog.wp_bind]
  refine wp_removeDentry trivial (fun _ => ⟨trivial, ?_⟩) (fun hnone => absurd hnone hdir.2)
  exact wp_removeEntry_linked ((h.weaken p).eraseDentry hempty) hp hr hdir.1 (by simp)

/-- An allowed call that removes no directory with entries keeps the tree
linked. -/
theorem treeStep_linked (x : TreeOp × (ℕ → Choice)) (h : s.Linked rootDirString)
    (hx : ∀ n, (x.2 n).FaultFree) (hok : x.1.Allowed s) (hempty : x.1.LeavesNoEntry s) :
    (treeStep x s).Linked rootDirString := by
  obtain ⟨op, env⟩ := x
  obtain ⟨hp, hr, hop⟩ := hok
  have hwp : (op.code : Op Text ℤ).wp serve Choice.FaultFree (fun _ => True)
      (fun _ s' => s'.Linked rootDirString) s := by
    cases op with
    | create p mode => exact wp_create_linked h hp hr hop
    | mkdir p mode => exact wp_mkdir_linked h hp hr hop
    | unlink p => exact wp_unlink_linked h hp hr hop
    | rmdir p => exact wp_rmdir_linked h hp hr hop hempty
  obtain ⟨a, s', hrun, hs'⟩ := Prog.wp_run hwp hx
  rw [treeStep, hrun]
  exact hs'

/-! ## A directory that is not empty -/

/-- Of all stats, removing a directory removes that of the directory. -/
theorem wp_rmdir_stats (s : Store Text) (p : CString) :
    (cbfuseRmdir p : Op Text ℤ).wp serve Choice.FaultFree (fun _ => True)
      (fun _ s' => ∀ q, s'.stats.val q = if q = p then none else s.stats.val q) s := by
  -- the first two steps leave the stats alone
  have hstat : ∀ s₂ : Store Text, s₂.stats = s.stats →
      (removeStat p).wp serve Choice.FaultFree (fun _ => True)
        (fun _ s' => ∀ q, s'.stats.val q = if q = p then none else s.stats.val q) s₂ := by
    intro s₂ h₂
    refine wp_removeStat trivial (fun _ => ⟨trivial, fun q => ?_⟩) (fun hnone q => ?_)
    · rw [Store.stats_eraseStat, Kv.Collection.val_erase, h₂]
    · split
      · next e => rw [e, hnone]
      · rw [h₂]
  have hrest : ∀ s₁ : Store Text, s₁.stats = s.stats →
      (do let _ ← removeChildFromDentry p.dirname p.basename; removeStat p : Op Text ℤ).wp
        serve Choice.FaultFree (fun _ => True)
        (fun _ s' => ∀ q, s'.stats.val q = if q = p then none else s.stats.val q) s₁ := by
    intro s₁ h₁
    rw [Prog.wp_bind]
    exact wp_editDentry trivial (fun _ => hstat _ h₁) (fun _ _ _ => hstat _ h₁)
      (fun _ _ _ _ => ⟨trivial, hstat _ h₁⟩)
  unfold cbfuseRmdir
  rw [Prog.wp_bind]
  exact wp_removeDentry trivial (fun _ => ⟨trivial, hrest _ rfl⟩) (fun _ => hrest _ rfl)

/-- **Removing a directory that lists an entry loses that entry.** -/
theorem treeStep_orphans (x : TreeOp × (ℕ → Choice)) (h : s.Linked rootDirString)
    (hx : ∀ n, (x.2 n).FaultFree) (hempty : ¬ x.1.LeavesNoEntry s) :
    ¬ (treeStep x s).NoOrphans := by
  obtain ⟨op, env⟩ := x
  cases op with
  | create p mode => exact absurd trivial hempty
  | mkdir p mode => exact absurd trivial hempty
  | unlink p => exact absurd trivial hempty
  | rmdir p =>
    simp only [TreeOp.LeavesNoEntry, not_forall] at hempty
    obtain ⟨t, ht, hne⟩ := hempty
    obtain ⟨hk, names, hl, -, hn⟩ := h.sound p t ht
    cases names with
    | nil => exact absurd hl.items hne
    | cons n names =>
      obtain ⟨hname, hs⟩ := hn n (List.mem_cons_self ..)
      obtain ⟨a, s', hrun, hs'⟩ := Prog.wp_run (wp_rmdir_stats s p) hx
      have hstep : treeStep (.rmdir p, env) s = s' := congrArg Prod.snd hrun
      rw [hstep]
      intro hno
      refine hno.parent (join p n) (CString.join_ne_root p hname) ?_ ?_
      · rw [hs', if_neg (CString.join_ne_left p hname)]
        exact hs
      · rw [CString.dirname_join hk hname, hs', if_pos rfl]

end Calls

/-! ## Runs -/

theorem rootStore_linked {env : ℕ → Choice} (henv : ∀ n, (env n).FaultFree) :
    (rootStore env : Store Text).Linked rootDirString := by
  have hsound : (rootStore env : Store Text).Sound := rootStore_sound henv
  obtain ⟨ts, h⟩ := @rootStore_eq Text _ _ henv
  rw [h] at hsound ⊢
  have honly : ∀ q : CString, ((Store.empty.putStat rootDirString
      (rootStat (sIfdir ||| 0o755) ts)).putDentry rootDirString
        (CJson.printUnformatted rootDentry : Text)).stats.val q ≠ none → q = rootDirString := by
    intro q hq
    by_contra hne
    simp [Store.empty, hne] at hq
  refine ⟨hsound, by simp, fun k hk => ?_, fun q hq => honly q hq ▸ .top,
    fun q hr _ hq => absurd (honly q hq) hr⟩
  by_contra hne
  by_cases hkr : k = rootDirString
  · simp [hkr] at hne
  · simp [Store.empty, hkr] at hk

/-- **No entry is ever lost exactly if no directory is removed that lists
one.** Over any calls the kernel makes, without faults and starting from
what `insert_root` leaves, every state between two calls keeps every entry
in its directory and reachable from the root if and only if each directory
handed to `cbfuse_rmdir` is empty at that moment. -/
theorem noOrphans_iff {env : ℕ → Choice} (henv : ∀ n, (env n).FaultFree)
    (calls : List (TreeOp × (ℕ → Choice)))
    (hcalls : Machine.Meets treeStep
      (fun x s => (∀ n, (x.2 n).FaultFree) ∧ x.1.Allowed s) calls
      (rootStore env : Store Text)) :
    Machine.Along treeStep Store.NoOrphans calls (rootStore env : Store Text)
      ↔ Machine.Meets treeStep (fun x s => x.1.LeavesNoEntry s) calls
          (rootStore env : Store Text) :=
  Machine.along_iff_meets treeStep (fun _ h => h.noOrphans)
    (fun x _ h hx hempty => treeStep_linked x h hx.1 hx.2 hempty)
    (fun x _ h hx hempty => treeStep_orphans x h hx.1 hempty) (rootStore_linked henv) hcalls

/-- A directory is made and removed again. -/
theorem noOrphans_iff_mkdir_rmdir :
    let calls : List (TreeOp × (ℕ → Choice)) :=
      [(.mkdir ['/', 'a'] 0o755, fun _ => .good ⟨0, 0⟩),
        (.rmdir ['/', 'a'], fun _ => .good ⟨0, 0⟩)]
    Machine.Along treeStep Store.NoOrphans calls
      (rootStore (fun _ => .good ⟨0, 0⟩) : Store (Option Json)) := by
  intro calls
  have hff : ∀ _ : ℕ, (Choice.good ⟨0, 0⟩).FaultFree := fun _ => Choice.faultFree_good _
  have ha : CString.Normalised ['/', 'a'] := .entry (n := ['a']) .top (by decide)
  refine (noOrphans_iff hff calls ⟨⟨hff, ha, by decide, ?_⟩, ⟨hff, ha, by decide, ?_⟩,
    trivial⟩).mpr ⟨trivial, ?_, trivial⟩
  · exact ⟨by decide, by decide⟩
  · exact ⟨by decide, by decide⟩
  · rintro t ht
    cases ht
    rfl

/-- A directory is made, a file in it, and the directory removed: the file
is lost. -/
theorem orphans_mkdir_create_rmdir :
    let calls : List (TreeOp × (ℕ → Choice)) :=
      [(.mkdir ['/', 'a'] 0o755, fun _ => .good ⟨0, 0⟩),
        (.create ['/', 'a', '/', 'f'] (sIfreg ||| 0o644), fun _ => .good ⟨0, 0⟩),
        (.rmdir ['/', 'a'], fun _ => .good ⟨0, 0⟩)]
    let s : Store (Option Json) := rootStore (fun _ => .good ⟨0, 0⟩)
    Machine.Meets treeStep (fun x s => (∀ n, (x.2 n).FaultFree) ∧ x.1.Allowed s) calls s
      ∧ ¬ Machine.Along treeStep Store.NoOrphans calls s := by
  have hff : ∀ _ : ℕ, (Choice.good ⟨0, 0⟩).FaultFree := fun _ => Choice.faultFree_good _
  have ha : CString.Normalised ['/', 'a'] := .entry (n := ['a']) .top (by decide)
  have hf : CString.Normalised ['/', 'a', '/', 'f'] := .entry (n := ['f']) ha (by decide)
  refine ⟨⟨⟨hff, ha, by decide, ?_⟩, ⟨hff, hf, by decide, ?_⟩, ⟨hff, ha, by decide, ?_⟩,
    trivial⟩, fun h => ?_⟩
  · exact ⟨by decide, by decide⟩
  · exact ⟨by decide, by decide⟩
  · exact ⟨by decide, by decide⟩
  · exact h.final.parent ['/', 'a', '/', 'f'] (by decide) (by decide) (by decide)

end Cbfuse

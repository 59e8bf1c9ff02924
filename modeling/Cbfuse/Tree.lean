import Mathlib.Data.List.Nodup
import Cbfuse.Handlers
import Cbfuse.Machine

/-!
# The directory tree

The tree is spread over two collections keyed by full path, with no
pointers between them: a path exists if it has a stat, and it can be
listed if the document of its directory has its name. The two are written
by separate requests, so what relates them has to be kept by every handler
and, where a handler can be cut off, by every request of it.

`Store.Sound` is what the directory documents keep through everything –
crashes included. That no name is listed twice is checked nowhere: it
holds because an entry is inserted into `stats` before its name is added,
and the insertion fails where the name is already listed.
-/

namespace Cbfuse

open CString (rootDirString join)

variable {Text : Type} [CJson Text]

/-! ## The store `insert_root` leaves -/

/-- The store `insert_root` leaves when nothing fails. -/
def rootStore (env : ℕ → Choice) : Store Text := (insertRoot.run serve env Store.empty).2

/-- The document of the root directory. -/
def rootDentry : Json := createDentry rootDirString none []

/-- The store of the root, by the clock value read first. -/
theorem rootStore_of_now {env : ℕ → Choice} (henv : ∀ n, (env n).FaultFree) {ts : Timespec}
    (hnow : (env 0).now = some ts) :
    (rootStore env : Store Text)
      = (Store.empty.putStat rootDirString (rootStat (sIfdir ||| 0o755) ts)).putDentry
          rootDirString (CJson.printUnformatted rootDentry) := by
  have hinsert : (insertStat rootDirString (sIfdir ||| 0o755) : Op Text ℤ).run serve env Store.empty
      = (some 0, Store.empty.putStat rootDirString (rootStat (sIfdir ||| 0o755) ts)) := by
    rw [insertStat_eq, Prog.run_call]
    simp only [serve, hnow]
    unfold insertStatAt
    rw [Prog.run_call, (henv (0 + 1)).serve_stats]
    rfl
  unfold rootStore insertRoot
  obtain ⟨n, hrun, -⟩ := Prog.run_bind hinsert _
  rw [hrun, if_neg (by decide)]
  have hdentry : (addNewDentry rootDirString rootDirString none : Op Text ℤ).wp serve
      Choice.FaultFree (fun _ => True)
      (fun _ s => s = (Store.empty.putStat rootDirString (rootStat (sIfdir ||| 0o755) ts)).putDentry
        rootDirString (CJson.printUnformatted rootDentry))
      (Store.empty.putStat rootDirString (rootStat (sIfdir ||| 0o755) ts)) :=
    wp_addNewDentry trivial (fun _ => ⟨trivial, rfl⟩) (fun h => absurd rfl h)
  obtain ⟨a, s, hrun', rfl⟩ := Prog.wp_run hdentry (fun k => henv (k + n))
  rw [hrun']

theorem rootStore_eq {env : ℕ → Choice} (henv : ∀ n, (env n).FaultFree) :
    ∃ ts, (rootStore env : Store Text)
      = (Store.empty.putStat rootDirString (rootStat (sIfdir ||| 0o755) ts)).putDentry
          rootDirString (CJson.printUnformatted rootDentry) := by
  obtain ⟨ts, hnow⟩ := (henv 0).exists_now
  exact ⟨ts, rootStore_of_now henv hnow⟩

/-! ## Directory documents -/

/-- The path of the directory a document belongs to, empty for the root. -/
def parentPath (k : CString) : CString := if k = rootDirString then [] else k.dirname

/-- **The document of `k` lists `names`**: it names its own path and its
parent's, and its children are those strings. -/
structure Lists (k : CString) (t : Text) (names : List CString) : Prop where
  /-- `d` is the directory's own path. -/
  dir : Json.getObjectItemCaseSensitive (CJson.parse t) dentryDirPath = some (.string k)
  /-- `p` is the path of its parent. -/
  par : Json.getObjectItemCaseSensitive (CJson.parse t) dentryParPath
    = some (.string (parentPath k))
  /-- `c` is an array of strings. -/
  items : childItems t = some (names.map Json.string)

theorem map_string_inj {names names' : List CString}
    (h : names.map Json.string = names'.map Json.string) : names = names' :=
  List.map_injective_iff.mpr (fun _ _ e => by cases e; rfl) h

/-- A document lists one list of names. -/
theorem Lists.unique {k : CString} {t : Text} {names names' : List CString}
    (h : Lists k t names) (h' : Lists k t names') : names = names' :=
  map_string_inj (Option.some.inj (h.items.symm.trans h'.items))

/-- The loop of `remove_child_from_dentry`, on a list of names. -/
theorem removeChild_map (n : CString) (names : List CString) :
    removeChild n (names.map Json.string) = (names.filter (· ≠ n)).map Json.string := by
  unfold removeChild
  induction names with
  | nil => rfl
  | cons a names ih =>
    rw [List.map_cons, List.filterMap_cons, ih]
    by_cases ha : a = n
    · simp [Json.getStringValue, ha]
    · simp [Json.getStringValue, ha]

theorem addChild_map (n : CString) (names : List CString) :
    addChild n (names.map Json.string) = (names ++ [n]).map Json.string := by
  rw [List.map_append]
  rfl

/-- An edit of the children keeps the two paths. -/
theorem Lists.edit {k : CString} {t t' : Text} {names names' : List CString}
    {edit : List Json → List Json} (h : Lists k t names) (ht : editText edit t = some t')
    (hedit : edit (names.map Json.string) = names'.map Json.string) : Lists k t' names' := by
  obtain ⟨items, hi, hi'⟩ := childItems_of_editText ht
  have hitems : items = names.map Json.string := Option.some.inj (hi.symm.trans h.items)
  refine ⟨?_, ?_, ?_⟩
  · rw [getItem_of_editText ht (by decide), h.dir]
  · rw [getItem_of_editText ht (by decide), h.par]
  · rw [hi', hitems, hedit]

/-- A new directory document lists nothing. -/
theorem lists_createDentry (k : CString) (parent : Option CString)
    (hp : parent.getD [] = parentPath k) :
    Lists k (CJson.printUnformatted (createDentry k parent []) : Text) [] := by
  refine ⟨?_, ?_, ?_⟩
  · rw [CJson.parse_print]
    rfl
  · rw [CJson.parse_print, ← hp]
    rfl
  · unfold childItems
    rw [CJson.parse_print]
    rfl

/-! ## What the directory documents keep -/

/-- **The directory documents are sound**: each stands at a normalised
path, names itself and its parent, lists no name twice, and lists only
names of entries that have a stat. -/
def Store.Sound (s : Store Text) : Prop :=
  ∀ k t, s.dentries.val k = some t → k.Normalised ∧ ∃ names, Lists k t names
    ∧ names.Nodup ∧ ∀ n ∈ names, n.IsName ∧ s.stats.val (join k n) ≠ none

/-- The path `p` is listed by the document of its directory. -/
def Store.Listed (s : Store Text) (p : CString) : Prop :=
  ∃ t names, s.dentries.val p.dirname = some t ∧ Lists p.dirname t names
    ∧ p.basename ∈ names

namespace Store.Sound

variable {s : Store Text} {p : CString}

/-- Where the documents stay and no stat goes, they stay sound. -/
theorem congr (h : s.Sound) {s' : Store Text} (hd : s'.dentries.val = s.dentries.val)
    (hs : ∀ k, s.stats.val k ≠ none → s'.stats.val k ≠ none) : s'.Sound := by
  intro k t ht
  obtain ⟨hk, names, hl, hnd, hn⟩ := h k t (hd ▸ ht)
  exact ⟨hk, names, hl, hnd, fun n hmem => ⟨(hn n hmem).1, hs _ (hn n hmem).2⟩⟩

theorem putStat (h : s.Sound) (stat : CbfuseStat) : (s.putStat p stat).Sound := by
  intro k t ht
  obtain ⟨hk, names, hl, hnd, hn⟩ := h k t ht
  refine ⟨hk, names, hl, hnd, fun n hmem => ⟨(hn n hmem).1, ?_⟩⟩
  simp only [stats_putStat, Kv.Collection.val_put]
  split
  · exact Option.some_ne_none _
  · exact (hn n hmem).2

/-- A path without a stat is not listed. -/
theorem not_listed (h : s.Sound) (hp : p.Normalised) (hr : p ≠ rootDirString)
    (hs : s.stats.val p = none) : ¬ s.Listed p := by
  rintro ⟨t, names, ht, hl, hmem⟩
  obtain ⟨-, names', hl', -, hn⟩ := h _ _ ht
  rw [hl'.unique hl] at hn
  have hne := (hn _ hmem).2
  rw [(hp.eq_join hr).2.2] at hne
  exact hne hs

/-- The stat of a path that is not listed can be removed. -/
theorem eraseStat (h : s.Sound) (hp : ¬ s.Listed p) : (s.eraseStat p).Sound := by
  intro k t ht
  obtain ⟨hk, names, hl, hnd, hn⟩ := h k t ht
  refine ⟨hk, names, hl, hnd, fun n hmem => ⟨(hn n hmem).1, ?_⟩⟩
  have hne : join k n ≠ p := by
    rintro rfl
    refine hp ⟨t, names, ?_, ?_, ?_⟩
    · rwa [CString.dirname_join hk (hn n hmem).1]
    · rwa [CString.dirname_join hk (hn n hmem).1]
    · rwa [CString.basename_join k (hn n hmem).1]
  simp only [stats_eraseStat, Kv.Collection.val_erase, if_neg hne]
  exact (hn n hmem).2

/-- Replacing the document of `k` by one that lists entries without
repetition, all of which have a stat. -/
theorem putDentry (h : s.Sound) {k : CString} {t : Text} {names : List CString}
    (hk : k.Normalised) (hl : Lists k t names) (hnd : names.Nodup)
    (hn : ∀ n ∈ names, n.IsName ∧ s.stats.val (join k n) ≠ none) :
    (s.putDentry k t).Sound := by
  intro k' t' ht'
  simp only [dentries_putDentry, Kv.Collection.val_put] at ht'
  split at ht'
  · next e =>
    cases ht'
    exact ⟨e ▸ hk, names, e ▸ hl, hnd, fun n hmem => e ▸ hn n hmem⟩
  · exact h k' t' ht'

theorem eraseDentry (h : s.Sound) : (s.eraseDentry p).Sound := by
  intro k t ht
  simp only [dentries_eraseDentry, Kv.Collection.val_erase] at ht
  split at ht
  · cases ht
  · exact h k t ht

/-- The name of an entry that has a stat can be added where it is not
listed. -/
theorem addChild (h : s.Sound) (hp : p.Normalised) (hr : p ≠ rootDirString)
    (hs : s.stats.val p ≠ none) (hnl : ¬ s.Listed p) {t t' : Text}
    (ht : s.dentries.val p.dirname = some t)
    (ht' : editText (addChild p.basename) t = some t') :
    (s.putDentry p.dirname t').Sound := by
  obtain ⟨hk, names, hl, hnd, hn⟩ := h _ _ ht
  obtain ⟨-, hb, hj⟩ := hp.eq_join hr
  have hnew : p.basename ∉ names := fun hmem => hnl ⟨t, names, ht, hl, hmem⟩
  refine h.putDentry hk (hl.edit ht' (addChild_map _ _)) ?_ ?_
  · exact List.nodup_append.mpr ⟨hnd, List.nodup_singleton _,
      fun a ha b hb' e => hnew (by rw [List.mem_singleton] at hb'; rwa [← hb', ← e])⟩
  · intro n hmem
    rcases List.mem_append.mp hmem with hmem | hmem
    · exact hn n hmem
    · rw [List.mem_singleton.mp hmem, hj]
      exact ⟨hb, hs⟩

/-- A name can be removed, and then it is not listed. -/
theorem removeChild (h : s.Sound) {t t' : Text}
    (ht : s.dentries.val p.dirname = some t)
    (ht' : editText (removeChild p.basename) t = some t') :
    (s.putDentry p.dirname t').Sound ∧ ¬ (s.putDentry p.dirname t').Listed p := by
  obtain ⟨hk, names, hl, hnd, hn⟩ := h _ _ ht
  have hl' := hl.edit ht' (removeChild_map _ _)
  refine ⟨h.putDentry hk hl' (hnd.filter _) (fun n hmem => hn n (List.mem_of_mem_filter hmem)),
    ?_⟩
  rintro ⟨t₁, names₁, ht₁, hl₁, hmem⟩
  simp only [dentries_putDentry, Kv.Collection.val_put, if_true] at ht₁
  cases ht₁
  rw [hl₁.unique hl'] at hmem
  simpa using List.of_mem_filter hmem

end Store.Sound

/-- A document without children lists nothing that was not listed. -/
theorem Store.not_listed_putDentry {s : Store Text} {p k : CString} {t : Text}
    (hl : Lists k t []) (h : ¬ s.Listed p) : ¬ (s.putDentry k t).Listed p := by
  rintro ⟨t', names, ht', hl', hmem⟩
  simp only [dentries_putDentry, Kv.Collection.val_put] at ht'
  split at ht'
  · next e =>
    cases ht'
    rw [e] at hl'
    rw [hl'.unique hl] at hmem
    simp at hmem
  · exact h ⟨t', names, ht', hl', hmem⟩

/-! ## The four operations on the tree -/

/-- A call that changes the tree. -/
inductive TreeOp where
  /-- `cbfuse_create(path, mode)` -/
  | create (path : CString) (mode : ℕ)
  /-- `cbfuse_mkdir(path, mode)` -/
  | mkdir (path : CString) (mode : ℕ)
  /-- `cbfuse_unlink(path)` -/
  | unlink (path : CString)
  /-- `cbfuse_rmdir(path)` -/
  | rmdir (path : CString)

namespace TreeOp

/-- The path a call is about. -/
def path : TreeOp → CString
  | create p _ => p
  | mkdir p _ => p
  | unlink p => p
  | rmdir p => p

/-- The program of a call. -/
def code : TreeOp → Op Text ℤ
  | create p mode => cbfuseCreate p mode
  | mkdir p mode => cbfuseMkdir p mode
  | unlink p => cbfuseUnlink p
  | rmdir p => cbfuseRmdir p

end TreeOp

/-! ## Every request keeps the directory documents sound -/

section Sound

variable {s : Store Text} {p : CString}

/-- Adding the name of an entry that has a stat keeps the documents sound
at every request. -/
theorem wp_addChild_sound (h : s.Sound) (hp : p.Normalised) (hr : p ≠ rootDirString)
    (hs : s.stats.val p ≠ none) (hnl : ¬ s.Listed p) :
    (addChildToDentry p.dirname p.basename).wp serve Choice.FaultFree Store.Sound
      (fun _ _ => True) s :=
  wp_editDentry h (fun _ => trivial) (fun _ _ _ => trivial)
    (fun _ _ ht ht' => ⟨h.addChild hp hr hs hnl ht ht', trivial⟩)

/-- Removing a name keeps the documents sound at every request, and leaves
it unlisted: where there is no document to edit, nothing lists it. -/
theorem wp_removeChild_sound {post : ℤ → Store Text → Prop} (h : s.Sound)
    (hpost : ∀ fr s', s'.Sound → ¬ s'.Listed p → post fr s') :
    (removeChildFromDentry p.dirname p.basename).wp serve Choice.FaultFree Store.Sound
      post s := by
  refine wp_editDentry h (fun hd => ?_) (fun t ht hbad => ?_) (fun t t' ht ht' => ?_)
  · refine hpost _ _ h ?_
    rintro ⟨t, names, ht, -, -⟩
    rw [hd] at ht
    cases ht
  · obtain ⟨-, names, hl, -, -⟩ := h _ _ ht
    obtain ⟨t', ht'⟩ := editText_of_childItems (removeChild p.basename) hl.items
    rw [ht'] at hbad
    cases hbad
  · obtain ⟨h', hnl⟩ := h.removeChild ht ht'
    exact ⟨h', hpost _ _ h' hnl⟩

/-- Removing the stat of an entry that is not listed keeps the documents
sound. -/
theorem wp_removeStat_sound (h : s.Sound) (hnl : ¬ s.Listed p) :
    (removeStat p).wp serve Choice.FaultFree Store.Sound (fun _ _ => True) s :=
  wp_removeStat h (fun _ => ⟨h.eraseStat hnl, trivial⟩) (fun _ => trivial)

theorem wp_create_sound {mode : ℕ} (h : s.Sound) (hp : p.Normalised)
    (hr : p ≠ rootDirString) :
    (cbfuseCreate p mode).wp serve Choice.FaultFree Store.Sound (fun _ _ => True) s := by
  unfold cbfuseCreate
  split
  · trivial
  · split
    · trivial
    · rw [Prog.wp_bind]
      refine wp_insertStat h (fun hnew ts => ⟨h.putStat _, ?_⟩) (fun _ => ?_)
      · rw [if_neg (by decide)]
        refine wp_addChild_sound (h.putStat _) hp hr ?_ (h.not_listed hp hr hnew)
        simp
      · rw [if_pos (by decide)]
        trivial

theorem wp_mkdir_sound {mode : ℕ} (h : s.Sound) (hp : p.Normalised)
    (hr : p ≠ rootDirString) :
    (cbfuseMkdir p mode).wp serve Choice.FaultFree Store.Sound (fun _ _ => True) s := by
  unfold cbfuseMkdir
  rw [if_neg (or_sIfdir_ne_zero mode), Prog.wp_bind]
  refine wp_insertStat h (fun hnew ts => ⟨h.putStat _, ?_⟩) (fun _ => ?_)
  · have h₁ := h.putStat (p := p) (rootStat mode ts)
    rw [if_neg (by decide), Prog.wp_bind]
    refine wp_addNewDentry h₁ (fun hnone => ?_) (fun _ => ?_)
    · have hl : Lists p (CJson.printUnformatted (createDentry p (some p.dirname) []) : Text) [] :=
        lists_createDentry p _ (by simp [parentPath, hr])
      have h₂ := h₁.putDentry hp hl List.nodup_nil (fun n hn => by simp at hn)
      refine ⟨h₂, ?_⟩
      rw [if_neg (by decide)]
      exact wp_addChild_sound h₂ hp hr (by simp)
        (Store.not_listed_putDentry hl (h.not_listed hp hr hnew))
    · rw [if_pos (by decide)]
      trivial
  · rw [if_pos (by decide)]
    trivial

/-- What unlinking and removing a directory end with, in whatever store
their first request leaves. -/
theorem wp_removeEntry_sound (h : s.Sound) :
    (do let _ ← removeChildFromDentry p.dirname p.basename; removeStat p : Op Text ℤ).wp
      serve Choice.FaultFree Store.Sound (fun _ _ => True) s := by
  rw [Prog.wp_bind]
  exact wp_removeChild_sound h (fun _ _ h' hnl => wp_removeStat_sound h' hnl)

theorem wp_unlink_sound (h : s.Sound) :
    (cbfuseUnlink p).wp serve Choice.FaultFree Store.Sound (fun _ _ => True) s := by
  unfold cbfuseUnlink
  rw [Prog.wp_bind]
  exact wp_removeData h (fun _ => ⟨h, wp_removeEntry_sound h⟩) (fun _ => wp_removeEntry_sound h)

theorem wp_rmdir_sound (h : s.Sound) :
    (cbfuseRmdir p).wp serve Choice.FaultFree Store.Sound (fun _ _ => True) s := by
  unfold cbfuseRmdir
  rw [Prog.wp_bind]
  exact wp_removeDentry h
    (fun _ => ⟨h.eraseDentry, wp_removeEntry_sound h.eraseDentry⟩)
    (fun _ => wp_removeEntry_sound h)

/-- **Every call on a normalised path other than the root keeps the
directory documents sound, at every request.** -/
theorem wp_treeOp_sound (op : TreeOp) (h : s.Sound) (hp : op.path.Normalised)
    (hr : op.path ≠ rootDirString) :
    op.code.wp serve Choice.FaultFree Store.Sound (fun _ _ => True) s := by
  cases op with
  | create p mode => exact wp_create_sound h hp hr
  | mkdir p mode => exact wp_mkdir_sound h hp hr
  | unlink p => exact wp_unlink_sound h
  | rmdir p => exact wp_rmdir_sound h

end Sound

/-! ## Runs with crashes -/

/-- A call that is served as many requests as there are choices, and then
abandoned. -/
def crashStep (x : TreeOp × List Choice) (s : Store Text) : Store Text :=
  (Prog.exec serve x.2 (x.1.code, s)).2

theorem rootStore_sound {env : ℕ → Choice} (henv : ∀ n, (env n).FaultFree) :
    (rootStore env : Store Text).Sound := by
  obtain ⟨ts, h⟩ := @rootStore_eq Text _ _ henv
  rw [h]
  have hempty : (Store.empty : Store Text).Sound := fun k t ht => by cases ht
  have hl := @lists_createDentry Text _ rootDirString none rfl
  exact (hempty.putStat _).putDentry .top hl List.nodup_nil (fun n hn => by simp at hn)

/-- A call that may be cut anywhere keeps the directory documents sound. -/
theorem crashStep_sound {s : Store Text} (x : TreeOp × List Choice) (h : s.Sound)
    (hp : x.1.path.Normalised) (hr : x.1.path ≠ rootDirString)
    (hx : ∀ c ∈ x.2, c.FaultFree) : (crashStep x s).Sound :=
  Prog.wp_exec (wp_treeOp_sound x.1 h hp hr) h hx

theorem sound_of_crashRun {calls : List (TreeOp × List Choice)}
    (hcalls : ∀ x ∈ calls, x.1.path.Normalised ∧ x.1.path ≠ rootDirString
      ∧ ∀ c ∈ x.2, c.FaultFree) {s : Store Text} (h : s.Sound) :
    (Machine.final crashStep calls s).Sound := by
  induction calls generalizing s with
  | nil => exact h
  | cons x calls ih =>
    obtain ⟨hp, hr, hx⟩ := hcalls x (List.mem_cons_self ..)
    exact ih (fun y hy => hcalls y (List.mem_cons_of_mem x hy)) (crashStep_sound x h hp hr hx)

/-- **The directory documents stay sound, crashes included.** After any
calls, each cut off after any number of requests, a directory document
names its own path and its parent's, lists strings, lists none of them
twice, and lists only names of entries that have a stat. -/
theorem dentries_sound_of_crashRun {env : ℕ → Choice} (henv : ∀ n, (env n).FaultFree)
    (calls : List (TreeOp × List Choice))
    (hcalls : ∀ x ∈ calls, x.1.path.Normalised ∧ x.1.path ≠ rootDirString
      ∧ ∀ c ∈ x.2, c.FaultFree) (k : CString) (t : Text)
    (ht : (Machine.final crashStep calls (rootStore env)).dentries.val k = some t) :
    Json.getObjectItemCaseSensitive (CJson.parse t) dentryDirPath = some (.string k)
      ∧ Json.getObjectItemCaseSensitive (CJson.parse t) dentryParPath
          = some (.string (if k = rootDirString then [] else k.dirname))
      ∧ ∃ names : List CString, childItems t = some (names.map Json.string)
          ∧ names.Nodup
          ∧ ∀ n ∈ names,
              (Machine.final crashStep calls (rootStore env : Store Text)).stats.val (join k n)
                ≠ none := by
  obtain ⟨-, names, hl, hnd, hn⟩ := sound_of_crashRun hcalls (rootStore_sound henv) k t ht
  exact ⟨hl.dir, hl.par, names, hl.items, hnd, fun n hmem => (hn n hmem).2⟩

/-- Two calls, the second cut off between its two inserts: the root lists
the first directory. -/
theorem dentries_sound_of_crashRun_mkdir :
    let calls := [(TreeOp.mkdir ['/', 'a'] 0o755, List.replicate 5 (Choice.good ⟨0, 0⟩)),
      (TreeOp.mkdir ['/', 'b'] 0o755, List.replicate 3 (Choice.good ⟨0, 0⟩))]
    let s : Store (Option Json) :=
      Machine.final crashStep calls (rootStore (fun _ => .good ⟨0, 0⟩))
    ∃ t, s.dentries.val rootDirString = some t ∧ childItems t = some [Json.string ['a']]
      ∧ ∃ names : List CString, childItems t = some (names.map Json.string) ∧ names.Nodup
          ∧ ∀ n ∈ names, s.stats.val (join rootDirString n) ≠ none := by
  refine ⟨_, rfl, rfl, (dentries_sound_of_crashRun (fun _ => Choice.faultFree_good ⟨0, 0⟩) _ ?_
    rootDirString _ rfl).2.2⟩
  have hn : ∀ n : CString, n.IsName → (join rootDirString n).Normalised := fun _ => .entry .top
  intro x hx
  rcases List.mem_pair.mp hx with rfl | rfl
  · refine ⟨hn ['a'] (by decide), by decide, fun c hc => ?_⟩
    exact List.eq_of_mem_replicate hc ▸ Choice.faultFree_good _
  · refine ⟨hn ['b'] (by decide), by decide, fun c hc => ?_⟩
    exact List.eq_of_mem_replicate hc ▸ Choice.faultFree_good _

end Cbfuse

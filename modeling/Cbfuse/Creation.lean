import Cbfuse.Tree

/-!
# A creation that fails

Making an entry is two requests that change something, or three: the stat
of the entry is inserted, a directory gets its document, and the name is
added to the parent. Each stops at its first failure and takes nothing
back, so a call that fails may have made the entry by halves: the stat is
there, no directory lists it, and the same call made again is refused for
it (`create_halfway`).

What was there before is never touched. `creation_of_failed` says what a
failed call leaves: the store as it was, or the documents of the new entry
it had already inserted.
-/

namespace Cbfuse

variable {Text : Type}

/-! ## What the programs do when a request may fail without effect -/

section Clean

variable {I : Store Text → Prop} {s : Store Text} {p : CString} {post : ℤ → Store Text → Prop}

theorem wp_insertStat_clean {mode : ℕ} (hI : I s) (hfail : ∀ r, r ≠ 0 → post r s)
    (hnew : s.stats.val p = none → ∀ ts,
      I (s.putStat p (rootStat mode ts)) ∧ post 0 (s.putStat p (rootStat mode ts))) :
    (insertStat p mode).wp serve Choice.Clean I post s := by
  rw [insertStat_eq]
  intro c _
  refine ⟨hI, ?_⟩
  simp only [serve]
  cases c.now with
  | none => exact hfail _ (by decide)
  | some ts =>
    intro c' hc'
    obtain ⟨h0, hnone, hput⟩ | ⟨hne, hsame⟩ := hc'.checked_insert s.stats p
      (.packed (rootStat mode ts))
    · simp only [serve, hput]
      show _ ∧ post (checkResult _ _) _
      rw [h0]
      exact hnew hnone ts
    · simp only [serve, hsame]
      exact ⟨hI, hfail _ hne⟩

variable [CJson Text]

theorem wp_addNewDentry_clean {dirPath : CString} {parentPath : Option CString} (hI : I s)
    (hfail : ∀ r, r ≠ 0 → post r s)
    (hnew : s.dentries.val p = none →
      let t := CJson.printUnformatted (createDentry dirPath parentPath [])
      I (s.putDentry p t) ∧ post 0 (s.putDentry p t)) :
    (addNewDentry p dirPath parentPath).wp serve Choice.Clean I post s := by
  unfold addNewDentry askDentries
  rw [Prog.call_bind]
  intro c hc
  obtain ⟨h0, hnone, hput⟩ | ⟨hne, hsame⟩ := hc.checked_insert s.dentries p
    (CJson.printUnformatted (createDentry dirPath parentPath []))
  · simp only [serve, hput]
    show _ ∧ post (checkResult _ _) _
    rw [h0]
    exact hnew hnone
  · simp only [serve, hsame]
    exact ⟨hI, hfail _ hne⟩

/-- An edit of a directory document that does not return zero has changed
nothing. -/
theorem wp_editDentry_clean {edit : List Json → List Json} (hI : I s)
    (hfail : ∀ r, r ≠ 0 → post r s)
    (hok : ∀ t t', s.dentries.val p = some t → editText edit t = some t' →
      I (s.putDentry p t') ∧ post 0 (s.putDentry p t')) :
    (editDentry p edit).wp serve Choice.Clean I post s := by
  rw [editDentry_eq]
  intro c _
  have hget : (serve c (.dentries (.get p)) s).2 = s := by simp [serve]
  rw [hget]
  refine ⟨hI, ?_⟩
  dsimp only
  cases hr : editReply edit (serve c (.dentries (.get p)) s).1 with
  | error e => exact hfail e (Int.ne_of_lt (editReply_error hr))
  | ok t' =>
    obtain ⟨-, -, d, hd, ht'⟩ := editReply_ok hr
    have hval := Kv.Collection.val_of_docs (Kv.Collection.docs_of_answer_get hd)
    intro c' hc'
    obtain ⟨h0, hst, hb⟩ | ⟨hne, hb⟩ := hc'.checked (by decide : (-enoent : ℤ) ≠ 0) s.dentries
      (.store .replace p t' 0)
    · simp only [serve, hb, (Kv.Collection.serve_store_granted hst).2]
      show _ ∧ post (checkResult _ _) _
      rw [h0]
      exact hok _ _ hval ht'
    · simp only [serve, hb]
      exact ⟨hI, hfail _ hne⟩

end Clean

/-! ## What a failed creation leaves -/

section Creation

variable [CJson Text] {s : Store Text} {p : CString} {mode : ℕ}

/-- **A creation by halves**: the stat of the entry was inserted where there
was none, and nothing else was changed. -/
def HalfCreated (s : Store Text) (p : CString) (mode : ℕ) (s' : Store Text) : Prop :=
  s.stats.val p = none ∧ ∃ ts, s' = s.putStat p (rootStat mode ts)

/-- **A directory by halves**: its stat was inserted where there was none,
and perhaps its document where there was none, and nothing else was
changed. -/
def HalfMade (s : Store Text) (p : CString) (mode : ℕ) (s' : Store Text) : Prop :=
  s.stats.val p = none ∧ ∃ ts, s' = s.putStat p (rootStat mode ts)
    ∨ (s.dentries.val p = none
      ∧ s' = (s.putStat p (rootStat mode ts)).putDentry p
          (CJson.printUnformatted (createDentry p (some p.dirname) [])))

theorem wp_create_failed :
    (cbfuseCreate p mode).wp serve Choice.Clean (fun _ => True)
      (fun r s' => r ≠ 0 → s' = s ∨ HalfCreated s p mode s') s := by
  unfold cbfuseCreate
  split
  · exact fun _ => .inl rfl
  · split
    · exact fun _ => .inl rfl
    · rw [Prog.wp_bind]
      refine wp_insertStat_clean trivial (fun r hr => ?_) (fun hnew ts => ⟨trivial, ?_⟩)
      · rw [if_pos hr]
        exact fun _ => .inl rfl
      · rw [if_neg (fun h => h rfl)]
        exact wp_editDentry_clean trivial (fun r _ _ => .inr ⟨hnew, ts, rfl⟩)
          (fun _ _ _ _ => ⟨trivial, fun h => absurd rfl h⟩)

theorem wp_mkdir_failed :
    (cbfuseMkdir p mode).wp serve Choice.Clean (fun _ => True)
      (fun r s' => r ≠ 0 → s' = s ∨ HalfMade s p mode s') s := by
  unfold cbfuseMkdir
  rw [if_neg (or_sIfdir_ne_zero mode), Prog.wp_bind]
  refine wp_insertStat_clean trivial (fun r hr => ?_) (fun hnew ts => ⟨trivial, ?_⟩)
  · rw [if_pos hr]
    exact fun _ => .inl rfl
  · rw [if_neg (fun h => h rfl), Prog.wp_bind]
    refine wp_addNewDentry_clean trivial (fun r hr => ?_) (fun hnone => ⟨trivial, ?_⟩)
    · rw [if_pos hr]
      exact fun _ => .inr ⟨hnew, ts, .inl rfl⟩
    · rw [if_neg (fun h => h rfl)]
      exact wp_editDentry_clean trivial
        (fun r _ _ => .inr ⟨hnew, ts, .inr ⟨hnone, rfl⟩⟩)
        (fun _ _ _ _ => ⟨trivial, fun h => absurd rfl h⟩)

/-- **A failed creation touches nothing that was there.** Whatever the
store and whichever requests fail, as long as a request that fails has had
no effect: a creation that does not return zero leaves the store as it was,
or has made its entry by halves. -/
theorem creation_of_failed (s : Store Text) (p : CString) (mode : ℕ) {env : ℕ → Choice}
    (henv : ∀ n, (env n).Clean) {r : ℤ} (hr : r ≠ 0) (s' : Store Text) :
    ((cbfuseCreate p mode).run serve env s = (some r, s') → s' = s ∨ HalfCreated s p mode s')
    ∧ ((cbfuseMkdir p mode).run serve env s = (some r, s') → s' = s ∨ HalfMade s p mode s') := by
  refine ⟨fun hrun => ?_, fun hrun => ?_⟩
  · obtain ⟨a, s₁, hrun', hpost⟩ := Prog.wp_run (@wp_create_failed _ _ s p mode) henv
    cases hrun.symm.trans hrun'
    exact hpost hr
  · obtain ⟨a, s₁, hrun', hpost⟩ := Prog.wp_run (@wp_mkdir_failed _ _ s p mode) henv
    cases hrun.symm.trans hrun'
    exact hpost hr

end Creation

/-- The insertion of the directory's document is refused: the stat of the
directory stays. -/
theorem creation_of_failed_mkdir :
    let env : ℕ → Choice := fun n =>
      if n = 2 then { Choice.good ⟨0, 0⟩ with fate := .refused .timeout } else .good ⟨0, 0⟩
    let s : Store (Option Json) := rootStore (fun _ => .good ⟨0, 0⟩)
    let s' := ((cbfuseMkdir ['/', 'a'] 0o755).run serve env s).2
    s' = s ∨ HalfMade s ['/', 'a'] 0o755 s' := by
  intro env s s'
  have hclean : ∀ n, (env n).Clean := by
    intro n
    dsimp only [env]
    split <;> trivial
  exact (creation_of_failed s ['/', 'a'] 0o755 hclean (r := -enoent) (by decide) s').2 rfl

/-- The parent cannot be fetched: the file is there, the call has failed, and
made again it fails where nothing goes wrong. -/
theorem create_halfway :
    let env : ℕ → Choice := fun n =>
      if n = 2 then { Choice.good ⟨0, 0⟩ with fate := .refused .timeout } else .good ⟨0, 0⟩
    let s : Store (Option Json) := rootStore (fun _ => .good ⟨0, 0⟩)
    let x := (cbfuseCreate ['/', 'f'] (sIfreg ||| 0o644)).run serve env s
    (∀ n, (env n).Clean) ∧ x.1 = some (-enoent) ∧ s.stats.val ['/', 'f'] = none
      ∧ x.2.stats.val ['/', 'f'] ≠ none
      ∧ ((cbfuseCreate ['/', 'f'] (sIfreg ||| 0o644)).run serve (fun _ => .good ⟨0, 0⟩) x.2).1
        = some (-enoent) := by
  refine ⟨fun n => ?_, by decide, by decide, by decide, by decide⟩
  dsimp only
  split <;> trivial

end Cbfuse

import Cbfuse.Origins
import Cbfuse.Progress

/-!
# A path has one maker at a time

An entry is made by inserting its stat, and a server that is asked twice to
insert the same document refuses once. So `cbfuse_create` can be used as a
lock: of any number of clients that make the same path one is told zero, until
somebody removes it.

That is a matter of counting. Every maker that is told zero has seen an
insertion of the stat granted; between two of these the stat was removed; and
nothing removes it but the last request of an `unlink` or `rmdir` of the path,
which makes one such request. So the makers told zero are one more than the
removers, at most – and no more than the removers once the stat is gone
(`makers_balance`). Failures do not change the account: a reply that is lost is
a success nobody is told of.
-/

namespace Cbfuse

open CString (rootDirString)

variable {Text β ι : Type}

/-! ## Insertions and removals of one stat -/

/-- The request inserted the stat of `p`, and its client knows. -/
def Req.Makes (p : CString) : (q : Req Text) → q.Reply → Prop
  | .stats (.store .insert k _ _), resp => k = p ∧ resp.rc = none ∧ resp.status = none
  | _, _ => False

instance (p : CString) (q : Req Text) (r : q.Reply) : Decidable (q.Makes p r) :=
  match q, r with
  | .stats (.store .insert _ _ _), _ => inferInstanceAs (Decidable (_ ∧ _ ∧ _))
  | .stats (.store .upsert _ _ _), _ => isFalse id
  | .stats (.store .replace _ _ _), _ => isFalse id
  | .stats (.get _), _ => isFalse id
  | .stats (.remove _), _ => isFalse id
  | .dentries _, _ => isFalse id
  | .blocks _, _ => isFalse id
  | .clockGettime, _ => isFalse id
  | .malloc _, _ => isFalse id
  | .overread _, _ => isFalse id

/-- The request removes the stat of `p`. -/
def Req.Unmakes (p : CString) : Req Text → Prop
  | .stats (.remove k) => k = p
  | _ => False

instance (p : CString) : DecidablePred (Req.Unmakes p : Req Text → Prop) := fun q =>
  match q with
  | .stats (.remove _) => inferInstanceAs (Decidable (_ = _))
  | .stats (.get _) => isFalse id
  | .stats (.store _ _ _ _) => isFalse id
  | .dentries _ => isFalse id
  | .blocks _ => isFalse id
  | .clockGettime => isFalse id
  | .malloc _ => isFalse id
  | .overread _ => isFalse id

/-- One where there is no stat of `p`, and nothing where there is one. -/
def Store.absent (s : Store Text) (p : CString) : ℕ := if s.stats.val p = none then 1 else 0

/-- A stat that is not lost leaves no more places vacant. -/
theorem Store.absent_le {s s' : Store Text} {p : CString}
    (h : s'.stats.val p = none → s.stats.val p = none) : s'.absent p ≤ s.absent p := by
  unfold absent
  split
  · next hs' => rw [if_pos (h hs')]
  · exact Nat.zero_le _

/-- A path is vacant once at most. -/
theorem Store.absent_le_one (s : Store Text) (p : CString) : s.absent p ≤ 1 := by
  unfold absent
  split <;> omega

/-- **Every request balances**: what it makes was not there, and what is not
there any more it removed. -/
theorem serve_balance (c : Choice) (q : Req Text) (s : Store Text) (p : CString) :
    (if q.Makes p (serve c q s).1 then 1 else 0) + (serve c q s).2.absent p
      ≤ (if q.Unmakes p then 1 else 0) + s.absent p := by
  have hkeep : ∀ r : Kv.Request CString StatDoc, ¬ (Req.stats r : Req Text).Unmakes p →
      (serve c (.stats r) s).2.stats.val p = none → s.stats.val p = none := by
    intro r hr
    show (s.stats.answer c.fate r).2.val p = none → _
    obtain he | ⟨op, k, v, cas, rfl, -, he⟩ | ⟨k, d, rfl, -, he⟩ :=
      Kv.Collection.answer_cases c.fate s.stats r
    · rw [he]
      exact id
    · rw [he, Kv.Collection.val_put]
      split
      · exact fun h => absurd h (Option.some_ne_none v)
      · exact id
    · rw [he, Kv.Collection.val_erase, if_neg (fun e => hr e.symm)]
      exact id
  have hother : ∀ q : Req Text, (∀ r, q ≠ .stats r) → (serve c q s).2.absent p = s.absent p := by
    intro q hq
    cases q with
    | stats r => exact absurd rfl (hq r)
    | _ => rfl
  cases q with
  | stats r =>
    by_cases hun : (Req.stats r : Req Text).Unmakes p
    · have hno : ¬ (Req.stats r : Req Text).Makes p (serve c (.stats r) s).1 := by
        cases r with
        | remove k => exact id
        | get k => exact hun.elim
        | store op k v cas => exact hun.elim
      rw [if_neg hno, if_pos hun]
      have hle := (serve c (.stats r) s).2.absent_le_one p
      omega
    · rw [if_neg hun]
      by_cases hmake : (Req.stats r : Req Text).Makes p (serve c (.stats r) s).1
      · rw [if_pos hmake]
        cases r with
        | get k => exact hmake.elim
        | remove k => exact hmake.elim
        | store op k v cas =>
          cases op with
          | upsert => exact hmake.elim
          | replace => exact hmake.elim
          | insert =>
            obtain ⟨rfl, hrc, hst⟩ := hmake
            obtain ⟨hfate, hgranted⟩ := Kv.Collection.serve_of_granted hrc hst
            obtain ⟨hverdict, hput⟩ := Kv.Collection.serve_store_granted hgranted
            have hbefore : s.absent k = 1 :=
              if_pos ((Kv.Collection.verdict_insert_iff _ _ _).mp hverdict)
            have hafter : (serve c (.stats (.store .insert k v cas)) s).2.absent k = 0 := by
              refine if_neg ?_
              show (s.stats.answer c.fate (.store .insert k v cas)).2.val k ≠ none
              rw [hfate]
              show (s.stats.serve (.store .insert k v cas)).2.2.val k ≠ none
              rw [hput, Kv.Collection.val_put, if_pos rfl]
              exact Option.some_ne_none v
            omega
      · rw [if_neg hmake]
        have hle := Store.absent_le (hkeep r hun)
        omega
  | _ =>
    rw [hother _ (fun r h => by cases h)]
    exact Nat.le_refl _

section Run

variable {α : Type} [DecidableEq ι] {p : CString} {n : ℕ}
  {x : Pool.Config ι (Req Text) Req.Reply α (Store Text)}

/-- **The account of a run**: the insertions that were granted, and the removals
with what was not there at first. -/
def Balanced (p : CString) (n : ℕ) (x : Pool.Config ι (Req Text) Req.Reply α (Store Text)) : Prop :=
  x.trace.countP (fun e => e.req.Makes p e.reply) + x.store.absent p
    ≤ x.trace.countP (fun e => e.req.Unmakes p) + n

/-- A turn of any process keeps the balance. -/
theorem Balanced.step (h : Balanced p n x) (i : ι) (c : Choice) :
    Balanced p n (Pool.step serve i c x) := by
  cases hp : x.procs i with
  | ret a => rwa [Pool.step_of_not_call serve (by simp [hp])]
  | crash => rwa [Pool.step_of_not_call serve (by simp [hp])]
  | call q k =>
    have hstep := serve_balance c q x.store p
    unfold Balanced at h ⊢
    rw [Pool.step_of_call serve hp, List.countP_append, List.countP_append, List.countP_singleton,
      List.countP_singleton]
    simp only [decide_eq_true_eq]
    omega

/-- Every run keeps the balance. -/
theorem Balanced.run (h : Balanced p n x) (sched : List (ι × Choice)) :
    Balanced p n (Pool.run serve sched x) := by
  induction sched generalizing x with
  | nil => exact h
  | cons ic sched ih => exact ih (h.step ic.1 ic.2)

end Run

/-! ## Makers and removers -/

/-- The call makes an entry at `p`. -/
def Call.Creates (p : CString) : Call β → Prop
  | fuse (.fs (.tree op)) => op.path = p ∧ op.mode ≠ none
  | _ => False

/-- The call removes the entry at `p`. -/
def Call.Removes (p : CString) : Call β → Prop
  | fuse (.fs (.tree op)) => op.path = p ∧ op.mode = none
  | _ => False

/-- The request removes no stat. -/
def Req.SparesStats : Req Text → Prop
  | .stats (.remove _) => False
  | _ => True

/-- A request that spares all stats spares the one of the path. -/
theorem Req.SparesStats.not_unmakes {q : Req Text} (h : q.SparesStats) (p : CString) :
    ¬ q.Unmakes p := by
  cases q with
  | stats r =>
    cases r with
    | remove k => exact h.elim
    | _ => exact id
  | _ => exact id

section Calls

variable [CJson Text] {p : CString}

omit [CJson Text] in
/-- An insertion that returns zero was granted. -/
theorem insertStat_earns (p : CString) (mode : ℕ) :
    (insertStat p mode : Op Text ℤ).Earns (Req.Makes p) (· = 0) := by
  rw [insertStat_eq]
  intro now _
  cases now with
  | none => exact (by decide : ¬ (-eio : ℤ) = 0)
  | some ts =>
    intro resp hresp h
    exact hresp ⟨rfl, (checkResult_eq_zero (by decide) resp).mp h⟩

/-- Making an entry begins with its stat. -/
theorem treeOp_earns {op : TreeOp} (h : op.mode ≠ none) :
    (op.code : Op Text ℤ).Earns (Req.Makes op.path) (· = 0) := by
  have hfirst : ∀ (mode : ℕ) (rest : Op Text ℤ),
      (insertStat op.path mode >>= fun fresult =>
        if fresult ≠ 0 then .ret fresult else rest : Op Text ℤ).Earns (Req.Makes op.path)
          (· = 0) := by
    intro mode rest
    refine Prog.earns_bind (insertStat_earns op.path mode) (fun fresult hne => ?_)
    rw [if_pos hne]
    exact hne
  cases op with
  | create p mode =>
    show (cbfuseCreate p mode : Op Text ℤ).Earns _ _
    unfold cbfuseCreate
    split
    · exact (by decide : ¬ (-einval : ℤ) = 0)
    · split
      · exact (by decide : ¬ enametoolong = 0)
      · exact hfirst mode _
  | mkdir p mode =>
    show (cbfuseMkdir p mode : Op Text ℤ).Earns _ _
    unfold cbfuseMkdir
    rw [if_neg (or_sIfdir_ne_zero mode)]
    exact hfirst mode _
  | unlink p => exact absurd rfl h
  | rmdir p => exact absurd rfl h

/-- **Whoever is told that a path was made has made it.** -/
theorem call_earns {call : Call β} (h : call.Creates p) :
    (call.code : Op Text _).Earns (Req.Makes p) (Answer.told · = 0) := by
  cases call with
  | startUp fc => exact h.elim
  | fuse op =>
    cases op with
    | fs op =>
      cases op with
      | tree op =>
        obtain ⟨rfl, hmode⟩ := h
        exact Prog.earns_map ((treeOp_earns hmode).imp_ok (fun r hr => hr))
      | entry op => exact h.elim
    | _ => exact h.elim

omit [CJson Text] in
/-- An edit of a directory document spares the stats. -/
theorem editDentry_spares [CJson Text] (k : CString) (edit : List Json → List Json) :
    (editDentry k edit : Op Text ℤ).Only Req.SparesStats := by
  rw [editDentry_eq]
  refine ⟨trivial, fun resp => ?_⟩
  dsimp only
  cases editReply edit resp with
  | error e => trivial
  | ok t => exact ⟨trivial, fun _ => trivial⟩

omit [CJson Text] in
/-- An insertion of a stat spares the others. -/
theorem insertStat_spares (p : CString) (mode : ℕ) :
    (insertStat p mode : Op Text ℤ).Only Req.SparesStats := by
  rw [insertStat_eq]
  refine ⟨trivial, fun now => ?_⟩
  cases now with
  | none => trivial
  | some ts => exact ⟨trivial, fun _ => trivial⟩

omit [CJson Text] in
/-- A first part that fails is the end. -/
theorem only_orElse {P : Req Text → Prop} {prog rest : Op Text ℤ} (h : prog.Only P)
    (hrest : rest.Only P) :
    Prog.Only P
      (prog >>= fun fresult => if fresult ≠ 0 then .ret fresult else rest : Op Text ℤ) := by
  refine Prog.only_bind h (fun fresult => ?_)
  split
  · trivial
  · exact hrest

/-- **Only removers remove a stat.** -/
theorem treeOp_spares {op : TreeOp} (h : op.mode ≠ none) :
    (op.code : Op Text ℤ).Only Req.SparesStats := by
  cases op with
  | create p mode =>
    show (cbfuseCreate p mode : Op Text ℤ).Only _
    unfold cbfuseCreate
    split
    · trivial
    · split
      · trivial
      · exact only_orElse (insertStat_spares p mode) (editDentry_spares _ _)
  | mkdir p mode =>
    show (cbfuseMkdir p mode : Op Text ℤ).Only _
    unfold cbfuseMkdir
    rw [if_neg (or_sIfdir_ne_zero mode)]
    exact only_orElse (insertStat_spares p mode)
      (only_orElse ⟨trivial, fun _ => trivial⟩ (editDentry_spares _ _))
  | unlink p => exact absurd rfl h
  | rmdir p => exact absurd rfl h

omit [CJson Text] in
/-- A request of a call on an entry spares the stats. -/
theorem Req.OnEntry.sparesStats {q : Req Text} (h : q.OnEntry p) : q.SparesStats := by
  cases q with
  | stats r =>
    cases r with
    | remove k => exact h.elim
    | _ => trivial
  | _ => trivial

omit [CJson Text] in
/-- A request that only adds spares the stats. -/
theorem Req.Adds.sparesStats {q : Req Text} (h : q.Adds) : q.SparesStats := by
  cases q with
  | stats r =>
    cases r with
    | remove k => exact h.elim
    | _ => trivial
  | _ => trivial

/-- A call that is not on the tree neither makes nor removes a stat. -/
theorem call_spares {call : Call β} (h : ∀ op, call ≠ .fuse (.fs (.tree op))) :
    (call.code : Op Text _).Only Req.SparesStats := by
  cases call with
  | startUp fc =>
    exact (Prog.only_map_iff _).mpr ((rootCheck_only fc).mono (fun _ hq => hq.sparesStats))
  | fuse op =>
    refine (Prog.only_map_iff Answer.told).mp ?_
    show Prog.Only _ (Answer.told <$> op.full : Op Text ℤ)
    rw [FuseOp.told_full]
    cases op with
    | getattr fc p =>
      refine (Prog.only_map_iff _).mpr ?_
      unfold cbfuseGetattr
      split
      · trivial
      · refine Prog.only_bind ⟨trivial, fun _ => trivial⟩ (fun resp => ?_)
        dsimp only
        split
        · trivial
        · split
          · trivial
          · split
            · trivial
            · split <;> trivial
    | openFile p =>
      show (cbfuseOpen p : Op Text ℤ).Only _
      unfold cbfuseOpen
      split
      · trivial
      · rw [getStat_eq]
        refine Prog.only_bind ⟨trivial, fun resp => ?_⟩ (fun r => ?_)
        · dsimp only
          split <;> trivial
        · cases r <;> trivial
    | readdir p filler offset buf =>
      refine (Prog.only_map_iff _).mpr ?_
      rw [cbfuseReaddir_eq]
      refine ⟨trivial, fun resp => ?_⟩
      dsimp only
      split
      · trivial
      · split <;> trivial
    | fs op =>
      cases op with
      | tree op => exact absurd rfl (h op)
      | entry op => exact (EntryOp.code_only op).mono (fun _ hq => hq.sparesStats)

omit [CJson Text] in
/-- What comes before the removal of the stat removes none. -/
theorem remover_spares (p : CString) :
    (removeData p : Op Text ℤ).Only Req.SparesStats
      ∧ (removeDentry p : Op Text ℤ).Only Req.SparesStats :=
  ⟨⟨trivial, fun _ => trivial⟩, trivial, fun _ => trivial⟩

/-- **A remover removes one stat, once.** -/
theorem call_once (call : Call β) (p : CString) :
    (call.code : Op Text _).Once (Req.Unmakes p)
      ∧ (call.code : Op Text _).Only (fun q => q.Unmakes p → call.Removes p) := by
  have hspared : (call.code : Op Text _).Only Req.SparesStats →
      (call.code : Op Text _).Once (Req.Unmakes p)
        ∧ (call.code : Op Text _).Only (fun q => q.Unmakes p → call.Removes p) :=
    fun h => ⟨Prog.once_of_only (h.mono (fun _ hq => hq.not_unmakes p)),
      h.mono (fun _ hq hun => absurd hun (hq.not_unmakes p))⟩
  by_cases hop : ∃ op, call = .fuse (.fs (.tree op))
  · obtain ⟨op, rfl⟩ := hop
    by_cases hmode : op.mode = none
    · have hlast : ∀ q : CString, op.path = q →
          (removeStat q : Op Text ℤ).Once (Req.Unmakes p)
            ∧ (removeStat q : Op Text ℤ).Only
              (fun r => r.Unmakes p → (Call.fuse (.fs (.tree op)) : Call β).Removes p) := by
        rintro q rfl
        exact ⟨⟨fun _ _ => trivial, fun _ => trivial⟩, fun h => ⟨h, hmode⟩, fun _ => trivial⟩
      have hseq : ∀ (first : Op Text ℤ), first.Only Req.SparesStats →
          (op.code : Op Text ℤ) = (do
            let _ ← first
            let _ ← removeChildFromDentry op.path.dirname op.path.basename
            removeStat op.path) →
          ((Call.fuse (.fs (.tree op)) : Call β).code : Op Text _).Once (Req.Unmakes p)
            ∧ ((Call.fuse (.fs (.tree op)) : Call β).code : Op Text _).Only
              (fun q => q.Unmakes p → (Call.fuse (.fs (.tree op)) : Call β).Removes p) := by
        intro first hfirst heq
        have hedit := @editDentry_spares Text _ op.path.dirname (removeChild op.path.basename)
        show Prog.Once _ (Answer.code <$> op.code : Op Text (Answer β))
          ∧ Prog.Only _ (Answer.code <$> op.code : Op Text (Answer β))
        rw [Prog.only_map_iff, heq]
        refine ⟨Prog.once_map _ ?_, ?_⟩
        · exact Prog.once_bind (hfirst.mono (fun _ hq => hq.not_unmakes p)) (fun _ =>
            Prog.once_bind (hedit.mono (fun _ hq => hq.not_unmakes p)) (fun _ => (hlast _ rfl).1))
        · exact Prog.only_bind (hfirst.mono (fun _ hq hun => absurd hun (hq.not_unmakes p)))
            (fun _ => Prog.only_bind (hedit.mono (fun _ hq hun => absurd hun (hq.not_unmakes p)))
              (fun _ => (hlast _ rfl).2))
      cases op with
      | create q mode => cases hmode
      | mkdir q mode => cases hmode
      | unlink q => exact hseq (removeData q) (remover_spares q).1 rfl
      | rmdir q => exact hseq (removeDentry q) (remover_spares q).2 rfl
    · exact hspared ((Prog.only_map_iff _).mpr (treeOp_spares hmode))
  · exact hspared (call_spares (fun op h => hop ⟨op, h⟩))

variable [DecidableEq ι] (calls : ι → Call β) (s : Store Text)

/-- **Makers and removers balance.** Take any calls that make the path `p` and
have been told zero. There are as many removers of `p` that have asked for the
removal of its stat, and one more maker at most, where the path was free at
first; and not that one more if it is free now. So without a removal one maker
at most is told zero, and what it made stays – in every interleaving with any
other calls, whatever becomes of anyone's requests and wherever anyone is cut
off. -/
theorem makers_balance (sched : List (ι × Choice)) {made : List ι} (hnodup : made.Nodup)
    (hmade : ∀ i ∈ made, (calls i).Creates p
      ∧ ((runCalls calls s sched).returned i).map Answer.told = some 0) :
    ∃ removed : List ι, removed.Nodup
      ∧ (∀ j ∈ removed, (calls j).Removes p
        ∧ ∃ e ∈ (runCalls calls s sched).trace, e.who = j ∧ e.req.Unmakes p)
      ∧ made.length + (runCalls calls s sched).store.absent p ≤ removed.length + s.absent p := by
  let x := runCalls calls s sched
  have hstart : Balanced p (s.absent p) (Pool.start (fun i => ((calls i).code : Op Text _)) s) := by
    unfold Balanced Pool.start
    simp
  have hbalance : Balanced p (s.absent p) x := hstart.run sched
  have hcount : made.length ≤ x.trace.countP (fun e => e.req.Makes p e.reply) := by
    refine Pool.length_le_countP hnodup (fun i hi => ?_)
    obtain ⟨hcreates, htold⟩ := hmade i hi
    obtain ⟨a, hret, ha⟩ := Option.map_eq_some_iff.mp htold
    let ok (j : ι) (a : Answer β) : Prop := (calls j).Creates p ∧ a.told = 0
    have hearns : ∀ j, ((calls j).code : Op Text _).Earns (Req.Makes p) (ok j) := by
      intro j
      by_cases hj : (calls j).Creates p
      · exact (call_earns hj).imp_ok (fun _ ha => ha.2)
      · exact Prog.earns_of_returns ((Prog.returns_true _).mono (fun _ _ ha => hj ha.1))
    exact Pool.earned hearns s sched hret ⟨hcreates, ha⟩
  have hrare : x.Rare (Req.Unmakes p) := by
    refine Pool.once_run sched ⟨List.nodup_nil, fun i => ⟨(call_once (calls i) p).1, ?_⟩⟩
    exact fun h => absurd h List.not_mem_nil
  have honly : ∀ e ∈ x.trace, e.req.Unmakes p → (calls e.who).Removes p :=
    Pool.trace_only (P := fun i (q : Req Text) => q.Unmakes p → (calls i).Removes p) sched
      (fun i => (call_once (calls i) p).2) (fun e he => absurd he List.not_mem_nil)
  refine ⟨(x.trace.filter (fun e => e.req.Unmakes p)).map Pool.Event.who, hrare.1,
    fun j hj => ?_, ?_⟩
  · obtain ⟨e, he, rfl⟩ := List.mem_map.mp hj
    obtain ⟨htrace, hun⟩ := List.mem_filter.mp he
    have hun' : e.req.Unmakes p := by simpa using hun
    exact ⟨honly e htrace hun', e, htrace, rfl, hun'⟩
  · rw [List.length_map, ← List.countP_eq_length_filter]
    unfold Balanced at hbalance
    show made.length + x.store.absent p ≤ _
    omega

end Calls

/-- A file is made, a second client fails to make it, a third one removes it, and
a fourth one makes it again. -/
theorem makers_balance_four :
    let f : CString := ['/', 'f']
    let calls : Fin 4 → Call Unit := fun i =>
      .fuse (.fs (.tree (if i = 2 then .unlink f else .create f (sIfreg ||| 0o644))))
    let c := Choice.good ⟨7, 0⟩
    let s : Store (Option Json) := rootStore (fun _ => c)
    let sched := Pool.turns c [0, 1, 0, 1, 0, 0, 2, 2, 3, 2, 2, 3, 3, 3]
    ((runCalls calls s sched).returned 1).map Answer.told = some (-enoent)
      ∧ ∃ removed : List (Fin 4), removed.Nodup
        ∧ (∀ j ∈ removed, (calls j).Removes f
          ∧ ∃ e ∈ (runCalls calls s sched).trace, e.who = j ∧ e.req.Unmakes f)
        ∧ 2 + (runCalls calls s sched).store.absent f ≤ removed.length + s.absent f := by
  intro f calls c s sched
  refine ⟨by decide, @makers_balance _ _ _ _ f _ calls s sched [0, 3] (by decide) (fun i hi => ?_)⟩
  obtain rfl | rfl : i = 0 ∨ i = 3 := by simpa using hi
  · exact ⟨⟨rfl, by decide⟩, by decide⟩
  · exact ⟨⟨rfl, by decide⟩, by decide⟩

end Cbfuse

import Cbfuse.Handlers
import Cbfuse.Interleave
import Cbfuse.Machine

/-!
# The root check (`main`)

Before it mounts, a client makes sure that there is a root: it fetches the
stat of `/`, and if there is none it inserts the two documents of `/`, the
stat first. Nothing a start-up does changes or removes a document that is
there (`rootCheck_run_extends`), but the check looks at one of the two only.
A start-up that finds the stat between the two insertions of another mounts
a root without a directory document, and where the other was cut off there,
so do all start-ups after it (`bootstrap_cut_off`).

A start-up that inserted the root mounts with both documents. So every
start-up that gets past the check has a usable root exactly if no check
finds the stat without the directory document (`bootstrap_iff`).
-/

namespace Cbfuse

variable {Text ι : Type} [CJson Text]

open CString (rootDirString)

/-- The root check of `main`: whether the client goes on to mount. -/
def rootCheck (fc : FuseContext) : Op Text Bool := do
  match ← cbfuseGetattr fc rootDirString with
  | .ok rootStat => return sIsdir rootStat.stMode
  | .error getRootRc =>
    if getRootRc = -enoent then
      return (← insertRoot) = 0
    else
      return false

/-! ## The check, request by request -/

/-- What is left of a start-up that is about to insert the directory
document. -/
def installDentry : Op Text Bool :=
  .call (.dentries (.store .insert rootDirString
      (CJson.printUnformatted (createDentry rootDirString none [])) 0))
    (fun resp => .ret (checkResult (-enoent) resp = 0))

/-- What is left of a start-up that is about to insert the stat. -/
def installStat (ts : Timespec) : Op Text Bool :=
  .call (.stats (.store .insert rootDirString (.packed (rootStat (sIfdir ||| 0o755) ts)) 0))
    (fun resp => if checkResult (-enoent) resp = 0 then installDentry else .ret false)

/-- What is left of a start-up that found no root. -/
def installRoot : Op Text Bool :=
  .call .clockGettime (fun now =>
    match now with
    | none => .ret false
    | some ts => installStat ts)

theorem installRoot_eq : (insertRoot >>= fun r => .ret (r = 0) : Op Text Bool) = installRoot := by
  unfold insertRoot installRoot
  rw [insertStat_eq]
  simp only [Prog.call_bind]
  congr 1
  funext now
  cases now with
  | none => rfl
  | some ts =>
    unfold insertStatAt installStat
    simp only [Prog.call_bind, Prog.ret_bind]
    congr 1
    funext resp
    by_cases h : checkResult (-enoent) resp = 0
    · simp only [h, ne_eq, not_true, if_false, if_true]
      rfl
    · simp [h]

theorem rootCheck_eq (fc : FuseContext) :
    (rootCheck fc : Op Text Bool)
      = .call (.stats (.get rootDirString)) (fun resp =>
          match statReply resp with
          | none => .crash
          | some (.error e) => if e = -enoent then installRoot else .ret false
          | some (.ok (stat, _)) => .ret (sIsdir stat.stMode)) := by
  have hlen : ¬ rootDirString.length > maxPathLen := by decide
  unfold rootCheck
  rw [cbfuseGetattr_eq fc hlen, Prog.call_bind]
  congr 1
  funext resp
  cases statReply resp with
  | none => rfl
  | some r =>
    cases r with
    | ok r => rfl
    | error e =>
      simp only [Prog.ret_bind, ← installRoot_eq]
      rfl

/-! ## Nothing is changed or removed -/

/-- The request can add a document, and do nothing else to the store. -/
def Req.Adds : Req Text → Prop
  | .stats (.store o _ _ _) => o = .insert
  | .stats (.remove _) => False
  | .dentries (.store o _ _ _) => o = .insert
  | .dentries (.remove _) => False
  | .blocks _ => False
  | _ => True

/-- **The second store extends the first**: the stats and the directory
documents of the first are in the second as they were, down to their CAS. -/
structure Store.Extends (s s' : Store Text) : Prop where
  /-- The stats are there. -/
  stats : ∀ k d, s.stats.docs k = some d → s'.stats.docs k = some d
  /-- The directory documents are there. -/
  dentries : ∀ k d, s.dentries.docs k = some d → s'.dentries.docs k = some d

omit [CJson Text] in
theorem Store.Extends.refl (s : Store Text) : s.Extends s := ⟨fun _ _ h => h, fun _ _ h => h⟩

omit [CJson Text] in
theorem Store.Extends.trans {s s' s'' : Store Text} (h : s.Extends s') (h' : s'.Extends s'') :
    s.Extends s'' :=
  ⟨fun k d hd => h'.stats k d (h.stats k d hd),
    fun k d hd => h'.dentries k d (h.dentries k d hd)⟩

/-- A request that stores nothing but by insertion leaves every document
that is there, whatever becomes of it. -/
theorem docs_answer_of_insert {V : Type} (f : Kv.Fate) {b : Kv.Collection CString V}
    {r : Kv.Request CString V} (hstore : ∀ o k v cas, r = .store o k v cas → o = .insert)
    (hremove : ∀ k, r ≠ .remove k) {k : CString} {d : Kv.Doc V} (hd : b.docs k = some d) :
    (b.answer f r).2.docs k = some d := by
  obtain h | ⟨o, k', v, cas, rfl, hv, h⟩ | ⟨k', d', rfl, -, -⟩ :=
    Kv.Collection.answer_cases f b r
  · rw [h, hd]
  · cases hstore o k' v cas rfl
    have hnone : b.docs k' = none :=
      (Kv.Collection.val_eq_none b k').mp ((Kv.Collection.verdict_insert_iff b k' cas).mp hv)
    have hk : k ≠ k' := fun e => by
      rw [e, hnone] at hd
      cases hd
    rw [h, Kv.Collection.docs_put, if_neg hk, hd]
  · exact absurd rfl (hremove k')

omit [CJson Text] in
theorem Req.Adds.serve {q : Req Text} (hq : q.Adds) (c : Choice) (s : Store Text) :
    s.Extends (Cbfuse.serve c q s).2 := by
  cases q with
  | stats r =>
    refine ⟨fun k d hd => docs_answer_of_insert c.fate ?_ ?_ hd, fun k d hd => hd⟩
    · rintro o k v cas rfl
      exact hq
    · rintro k rfl
      exact hq
  | dentries r =>
    refine ⟨fun k d hd => hd, fun k d hd => docs_answer_of_insert c.fate ?_ ?_ hd⟩
    · rintro o k v cas rfl
      exact hq
    · rintro k rfl
      exact hq
  | blocks r => exact hq.elim
  | _ => exact .refl s

theorem installRoot_only : (installRoot : Op Text Bool).Only Req.Adds := by
  refine ⟨trivial, fun now => ?_⟩
  cases now with
  | none => trivial
  | some ts =>
    refine ⟨rfl, fun resp => ?_⟩
    dsimp only
    split
    · exact ⟨rfl, fun _ => trivial⟩
    · trivial

theorem rootCheck_only (fc : FuseContext) : (rootCheck fc : Op Text Bool).Only Req.Adds := by
  rw [rootCheck_eq]
  refine ⟨trivial, fun resp => ?_⟩
  dsimp only
  split
  · trivial
  · split
    · exact installRoot_only
    · trivial
  · trivial

/-- **No start-up changes or removes a document that is there**, whatever
becomes of the requests. -/
theorem rootCheck_run_extends [DecidableEq ι] (fcs : ι → FuseContext)
    (sched sched' : List (ι × Choice)) (s : Store Text) :
    (Pool.run serve sched (Pool.start (fun i => rootCheck (fcs i)) s)).store.Extends
      (Pool.run serve (sched ++ sched') (Pool.start (fun i => rootCheck (fcs i)) s)).store := by
  have honly : ∀ (sched : List (ι × Choice)) (i : ι),
      ((Pool.run serve sched (Pool.start (fun i => (rootCheck (fcs i) : Op Text Bool)) s)).procs
        i).Only Req.Adds :=
    fun sched => Pool.only_run serve sched (fun i => rootCheck_only (fcs i))
  rw [Pool.run_append]
  exact Pool.run_of_only serve Store.Extends.refl (fun _ _ _ h h' => h.trans h')
    (fun c q s hq => Req.Adds.serve hq c s) sched' (honly sched)

/-! ## Any number of start-ups -/

/-- **A usable root**: both documents of `/` are there. -/
def Store.HasRoot (s : Store Text) : Prop :=
  s.stats.val rootDirString ≠ none ∧ s.dentries.val rootDirString ≠ none

/-- **Where a start-up stands**, with what it can count on there. -/
inductive Stage (s : Store Text) : Op Text Bool → Prop where
  /-- It has done nothing. -/
  | check (fc : FuseContext) : Stage s (rootCheck fc)
  /-- It found no root. -/
  | noRoot : Stage s installRoot
  /-- It is about to insert the stat. -/
  | install (ts : Timespec) : Stage s (installStat ts)
  /-- It inserted the stat, and is about to insert the directory
  document. -/
  | halfDone (h : s.stats.val rootDirString ≠ none) : Stage s installDentry
  /-- It went on to mount. -/
  | mounted (h : s.HasRoot) : Stage s (.ret true)
  /-- It gave up. -/
  | gaveUp : Stage s (.ret false)
  /-- It died. -/
  | died : Stage s .crash

/-- **What holds between any two requests**: the root's stat is the one
`insert_root` stores, and every start-up stands at one of the stages. -/
structure Booting (x : Pool.Config ι (Req Text) Req.Reply Bool (Store Text)) : Prop where
  /-- The root is a directory. -/
  root : ∀ v, x.store.stats.val rootDirString = some v →
    ∃ ts, v = .packed (rootStat (sIfdir ||| 0o755) ts)
  /-- The start-ups. -/
  stage : ∀ i, Stage x.store (x.procs i)

omit [CJson Text] in
/-- A document that is there is there in an extension. -/
theorem Store.Extends.val {s s' : Store Text} (h : s.Extends s') (k : CString) :
    (s.stats.val k ≠ none → s'.stats.val k ≠ none)
      ∧ (s.dentries.val k ≠ none → s'.dentries.val k ≠ none) := by
  simp only [ne_eq, Kv.Collection.val_eq_none]
  constructor
  · intro hk
    obtain ⟨d, hd⟩ := Option.ne_none_iff_exists'.mp hk
    rw [h.stats k d hd]
    exact Option.some_ne_none _
  · intro hk
    obtain ⟨d, hd⟩ := Option.ne_none_iff_exists'.mp hk
    rw [h.dentries k d hd]
    exact Option.some_ne_none _

/-- What a start-up can count on is not taken away. -/
theorem Stage.extends {s s' : Store Text} (hs : s.Extends s') {prog : Op Text Bool}
    (h : Stage s prog) : Stage s' prog := by
  cases h with
  | check fc => exact .check fc
  | noRoot => exact .noRoot
  | install ts => exact .install ts
  | halfDone h => exact .halfDone ((hs.val _).1 h)
  | mounted h => exact .mounted ⟨(hs.val _).1 h.1, (hs.val _).2 h.2⟩
  | gaveUp => exact .gaveUp
  | died => exact .died

/-- A start-up that has mounted did so on a usable root. -/
theorem Stage.hasRoot {s : Store Text} {prog : Op Text Bool} (h : Stage s prog)
    (hret : prog = .ret true) : s.HasRoot := by
  cases h with
  | check fc =>
    rw [rootCheck_eq] at hret
    cases hret
  | mounted h => exact h
  | _ => cases hret

/-- A start-up that is about to fetch the stat has done nothing. -/
theorem Stage.check_of_get {s : Store Text} {prog : Op Text Bool} (h : Stage s prog)
    {k : Response StatDoc → Op Text Bool} (hget : prog = .call (.stats (.get rootDirString)) k) :
    ∃ fc, prog = rootCheck fc := by
  cases h with
  | check fc => exact ⟨fc, rfl⟩
  | _ => cases hget

/-- What a start-up leaves in the store extends what was there. -/
theorem Stage.step_extends {s : Store Text} {prog : Op Text Bool} (h : Stage s prog) (c : Choice) :
    s.Extends (Prog.step serve c (prog, s)).2 := by
  cases h with
  | check fc =>
    rw [rootCheck_eq]
    have hadds : (Req.stats (.get rootDirString) : Req Text).Adds := trivial
    exact hadds.serve c s
  | install ts =>
    have hadds : (Req.stats (.store .insert rootDirString
      (.packed (rootStat (sIfdir ||| 0o755) ts)) 0) : Req Text).Adds := rfl
    exact hadds.serve c s
  | halfDone hstat =>
    have hadds : (Req.dentries (.store .insert rootDirString
      (CJson.printUnformatted (createDentry rootDirString none [])) 0) : Req Text).Adds := rfl
    exact hadds.serve c s
  | _ => exact .refl s

section Step

variable {s : Store Text} {c : Choice} {prog : Op Text Bool}

/-- The check finds a root where the store has a stat, and mounts. -/
theorem step_rootCheck_found {fc : FuseContext} {ts : Timespec} (hc : c.Served)
    (halloc : c.alloc = true)
    (hs : s.stats.val rootDirString = some (.packed (rootStat (sIfdir ||| 0o755) ts))) :
    Prog.step serve c (rootCheck fc, s) = (.ret true, s) := by
  obtain ⟨d, hd, hv⟩ := Option.map_eq_some_iff.mp hs
  obtain ⟨v, cas⟩ := d
  cases hv
  have hreply : statReply (serve c (.stats (.get rootDirString)) s).1
      = some (.ok (rootStat (sIfdir ||| 0o755) ts, cas)) := by
    simp only [serve, hc.answer, Kv.Collection.serve, hd, statReply, halloc]
    simp
  have hdir : sIsdir (rootStat (sIfdir ||| 0o755) ts).stMode :=
    show sIsdir (sIfdir ||| 0o755) by decide
  rw [rootCheck_eq]
  unfold Prog.step
  dsimp only
  rw [hreply]
  simp only [hdir, decide_true, Prod.mk.injEq, true_and]
  simp only [serve, Kv.Collection.answer_get]

/-- The check where it may go on. -/
theorem Stage.step_check {fc : FuseContext}
    (hboth : c.Served → c.alloc = true → s.stats.val rootDirString ≠ none →
      s.dentries.val rootDirString ≠ none) :
    Stage s (Prog.step serve c (rootCheck fc, s)).1 := by
  rw [rootCheck_eq]
  show Stage s (match statReply (serve c (.stats (.get rootDirString)) s).1 with
    | none => .crash
    | some (.error e) => if e = -enoent then installRoot else .ret false
    | some (.ok (stat, _)) => .ret (sIsdir stat.stMode))
  cases hr : statReply (serve c (.stats (.get rootDirString)) s).1 with
  | none => exact .died
  | some r =>
    cases r with
    | error e =>
      dsimp only
      split
      · exact .noRoot
      · exact .gaveUp
    | ok r =>
      obtain ⟨stat, cas⟩ := r
      by_cases hdir : sIsdir stat.stMode
      · simp only [hdir, decide_true]
        have hdoc := doc_of_statReply hr
        have hstat : s.stats.val rootDirString ≠ none :=
            Kv.Collection.val_ne_none_of_docs (Kv.Collection.docs_of_answer_get hdoc)
        obtain ⟨hrc, hst, halloc⟩ := granted_of_statReply hr
        have hserved : c.Served := (Kv.Collection.serve_of_granted hrc hst).1
        exact .mounted ⟨hstat, hboth hserved halloc hstat⟩
      · simp only [hdir, decide_false]
        exact .gaveUp

/-- An insertion that is granted leaves its document. -/
theorem answer_of_insert {V : Type} (hc : c.Clean) {b : Kv.Collection CString V} {k : CString}
    {v : V} (h : checkResult (-enoent)
      (⟨(b.answer c.fate (.store .insert k v 0)).1, c.alloc⟩ : Response V) = 0) :
    (b.answer c.fate (.store .insert k v 0)).2 = b.put k v := by
  obtain ⟨-, -, hput⟩ | ⟨hne, -⟩ := hc.checked_insert b k v
  · exact hput
  · exact absurd h hne

/-- **One request of a start-up**, where the check may go on. -/
theorem Stage.step (h : Stage s prog) (hc : c.Clean)
    (hboth : ∀ fc, prog = rootCheck fc → c.Served → c.alloc = true →
      s.stats.val rootDirString ≠ none → s.dentries.val rootDirString ≠ none) :
    Stage (Prog.step serve c (prog, s)).2 (Prog.step serve c (prog, s)).1 := by
  cases h with
  | check fc =>
    have hcheck : Stage s (Prog.step serve c (rootCheck fc, s)).1 :=
      Stage.step_check (hboth fc rfl)
    exact hcheck.extends ((Stage.check fc).step_extends c)
  | noRoot =>
    unfold installRoot Prog.step serve
    dsimp only
    cases c.now with
    | none => exact .gaveUp
    | some ts => exact .install ts
  | install ts =>
    show Stage _ (if checkResult (-enoent) _ = 0 then installDentry else .ret false)
    split
    · next h0 =>
      refine .halfDone ?_
      have hput := answer_of_insert hc h0
      show ((s.stats.answer c.fate _).2).val _ ≠ none
      rw [hput, Kv.Collection.val_put, if_pos rfl]
      exact Option.some_ne_none _
    · exact .gaveUp
  | halfDone hstat =>
    show Stage _ (.ret (decide (checkResult (-enoent) _ = 0)))
    by_cases h0 : checkResult (-enoent) (serve c (.dentries (.store .insert rootDirString
        (CJson.printUnformatted (createDentry rootDirString none [])) 0)) s).1 = 0
    · rw [decide_eq_true h0]
      refine .mounted ⟨hstat, ?_⟩
      have hput := answer_of_insert hc h0
      show ((s.dentries.answer c.fate _).2).val _ ≠ none
      rw [hput, Kv.Collection.val_put, if_pos rfl]
      exact Option.some_ne_none _
    · rw [decide_eq_false h0]
      exact .gaveUp
  | mounted h => exact .mounted h
  | gaveUp => exact .gaveUp
  | died => exact .died

end Step

section Runs

variable [DecidableEq ι]

/-- A configuration of start-ups. -/
abbrev Boots (Text ι : Type) := Pool.Config ι (Req Text) Req.Reply Bool (Store Text)

/-- A request of one of the start-ups. -/
abbrev bootStep (ic : ι × Choice) (x : Boots Text ι) : Boots Text ι :=
  Pool.step serve ic.1 ic.2 x

/-- Every start-up that got past the check has a usable root. -/
def Boots.Usable (x : Boots Text ι) : Prop := ∀ i, x.returned i = some true → x.store.HasRoot

/-- **The check sees both**: where a start-up is about to fetch the stat, the
fetch goes through and there is a stat, the directory document is there
too. -/
def ChecksBoth (ic : ι × Choice) (x : Boots Text ι) : Prop :=
  ∀ k, x.procs ic.1 = .call (.stats (.get rootDirString)) k → ic.2.Served → ic.2.alloc = true →
    x.store.stats.val rootDirString ≠ none → x.store.dentries.val rootDirString ≠ none

/-- The stat of the root is only ever stored by `insert_root`. -/
theorem Stage.root_step {s : Store Text} {c : Choice} {prog : Op Text Bool} (h : Stage s prog)
    (hroot : ∀ v, s.stats.val rootDirString = some v →
      ∃ ts, v = .packed (rootStat (sIfdir ||| 0o755) ts))
    {v : StatDoc} (hv : (Prog.step serve c (prog, s)).2.stats.val rootDirString = some v) :
    ∃ ts, v = .packed (rootStat (sIfdir ||| 0o755) ts) := by
  cases h with
  | check fc =>
    rw [rootCheck_eq] at hv
    refine hroot v ?_
    rw [← hv]
    simp only [Prog.step, serve, Kv.Collection.answer_get]
  | install ts =>
    obtain hsame | hput := s.stats.answer_store_cases c.fate .insert rootDirString
      (.packed (rootStat (sIfdir ||| 0o755) ts)) 0
    · refine hroot v ?_
      rw [← hv]
      simp only [installStat, Prog.step, serve, hsame]
    · simp only [installStat, Prog.step, serve, hput, Kv.Collection.val_put, if_pos] at hv
      exact ⟨ts, (Option.some.inj hv).symm⟩
  | _ => exact hroot v hv

/-- **One request where the check sees both.** -/
theorem Booting.step {x : Boots Text ι} {ic : ι × Choice} (h : Booting x) (hc : ic.2.Clean)
    (hboth : ChecksBoth ic x) : Booting (bootStep ic x) := by
  have hext : x.store.Extends (bootStep ic x).store := by
    rw [bootStep, Pool.step_store]
    exact (h.stage ic.1).step_extends ic.2
  refine ⟨fun v hv => ?_, fun i => ?_⟩
  · rw [bootStep, Pool.step_store] at hv
    exact (h.stage ic.1).root_step h.root hv
  · by_cases hi : i = ic.1
    · rw [bootStep, Pool.step_store, Pool.step_procs, if_pos hi]
      refine (h.stage ic.1).step hc (fun fc hp => ?_)
      rw [rootCheck_eq] at hp
      exact hboth _ hp
    · rw [show (bootStep ic x).procs i = x.procs i from by
        rw [bootStep, Pool.step_procs, if_neg hi]]
      exact (h.stage i).extends hext

/-- **One request where it does not**: the start-up mounts a root without a
directory document. -/
theorem Booting.not_usable {x : Boots Text ι} {ic : ι × Choice} (h : Booting x)
    (hboth : ¬ ChecksBoth ic x) : ¬ (bootStep ic x).Usable := by
  intro huse
  refine hboth (fun k hp hserved halloc hstat => ?_)
  obtain ⟨fc, hfc⟩ := (h.stage ic.1).check_of_get hp
  obtain ⟨v, hv⟩ := Option.ne_none_iff_exists'.mp hstat
  obtain ⟨ts, rfl⟩ := h.root v hv
  have hstep := @step_rootCheck_found _ _ x.store ic.2 fc ts hserved halloc hv
  have hret : (bootStep ic x).returned ic.1 = some true := by
    rw [Pool.Config.returned_eq_some, bootStep, Pool.step_procs, if_pos rfl, hfc, hstep]
  have hroot := huse ic.1 hret
  rw [bootStep, Pool.step_store, hfc, hstep] at hroot
  exact hroot.2

/-- **When bootstrap yields a usable root.** Any number of start-ups on an
empty store, each cut off wherever it may be, their requests interleaved in
any way, any of them failing as long as it then has no effect. Every
start-up that gets past the check has both documents of the root at every
moment from then on, and none ever changes or removes a root document that is
there – exactly if no start-up's check finds the stat where the directory
document is missing. -/
theorem bootstrap_iff (fcs : ι → FuseContext) {sched : List (ι × Choice)}
    (hclean : ∀ ic ∈ sched, ic.2.Clean) :
    let x₀ : Boots Text ι := Pool.start (fun i => rootCheck (fcs i)) Store.empty
    (Machine.Along bootStep Boots.Usable sched x₀
        ∧ ∀ sched₁ sched₂, sched = sched₁ ++ sched₂ →
          (∀ d, (Pool.run serve sched₁ x₀).store.stats.docs rootDirString = some d →
            (Pool.run serve sched x₀).store.stats.docs rootDirString = some d)
          ∧ ∀ d, (Pool.run serve sched₁ x₀).store.dentries.docs rootDirString = some d →
            (Pool.run serve sched x₀).store.dentries.docs rootDirString = some d)
      ↔ Machine.Meets bootStep ChecksBoth sched x₀ := by
  intro x₀
  have hstart : Booting x₀ := ⟨fun v hv => (Option.some_ne_none v hv.symm).elim,
    fun i => .check (fcs i)⟩
  have huse : ∀ x : Boots Text ι, Booting x → x.Usable := fun x h i hret =>
    (h.stage i).hasRoot (Pool.Config.returned_eq_some.mp hret)
  have hg : Machine.Meets bootStep (fun ic _ => ic.2.Clean) sched x₀ :=
    Machine.meets_of_forall hclean
  rw [← @Machine.along_iff_meets _ _ bootStep Booting Boots.Usable
    (fun ic _ => ic.2.Clean) ChecksBoth huse (fun _ _ h hc hboth => h.step hc hboth)
    (fun _ _ h _ hboth => h.not_usable hboth) _ _ hstart hg]
  refine and_iff_left (fun sched₁ sched₂ hsched => ?_)
  rw [hsched]
  have hext := rootCheck_run_extends fcs sched₁ sched₂ (Store.empty : Store Text)
  exact ⟨fun d hd => hext.stats _ d hd, fun d hd => hext.dentries _ d hd⟩

end Runs

/-- One start-up installs the root, and the next finds it. -/
theorem bootstrap_iff_two :
    let sched := Pool.turns (Choice.good ⟨0, 0⟩) [false, false, false, false, true]
    let x₀ : Boots (Option Json) Bool :=
      Pool.start (fun _ => rootCheck ⟨0, 0⟩) Store.empty
    (Pool.run serve sched x₀).returned true = some true
      ∧ Machine.Along bootStep Boots.Usable sched x₀ := by
  intro sched x₀
  have hiff := @bootstrap_iff (Option Json) Bool _ _ (fun _ => ⟨0, 0⟩) sched
    (Pool.forall_turns (Choice.faultFree_good _).clean _)
  refine ⟨by decide, (hiff.mpr ⟨fun k _ _ _ h => absurd rfl h, fun k hk => ?_, fun k hk => ?_,
    fun k hk => ?_, fun k _ _ _ _ => ?_, trivial⟩).1⟩
  · cases hk
  · cases hk
  · cases hk
  · exact Option.some_ne_none _

/-- A start-up is cut off between the two insertions, and the next one mounts
a root without a directory document. -/
theorem bootstrap_cut_off :
    let sched := Pool.turns (Choice.good ⟨0, 0⟩) [false, false, false, true]
    let x₀ : Boots (Option Json) Bool :=
      Pool.start (fun _ => rootCheck ⟨0, 0⟩) Store.empty
    let x := Pool.run serve sched x₀
    (∀ ic ∈ sched, ic.2.Clean)
      ∧ x.returned true = some true
      ∧ x.store.dentries.val rootDirString = none
      ∧ ¬ Machine.Along bootStep Boots.Usable sched x₀ := by
  intro sched x₀ x
  have hret : x.returned true = some true := by decide
  have hnone : x.store.dentries.val rootDirString = none := by decide
  refine ⟨Pool.forall_turns (Choice.faultFree_good _).clean _, hret, hnone, fun h => ?_⟩
  exact (h.final true hret).2 hnone

end Cbfuse

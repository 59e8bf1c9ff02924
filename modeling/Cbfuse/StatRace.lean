import Cbfuse.Linearize
import Cbfuse.Stats

/-!
# Several clients, one stat

The calls on a stat take effect in one request each. A removal and an
insertion are one request that the server answers; an update fetches the
struct, changes its copy and replaces the struct under the CAS it fetched,
which is refused if anything was stored in between. So calls on one stat,
interleaved in any way, are as good as the calls that returned zero, made
one after another (`stats_linearize`).
-/

namespace Cbfuse

variable {Text : Type}

/-! ## The calls -/

/-- A call on the stat of an entry. -/
inductive StatCall where
  /-- `get_stat` -/
  | get
  /-- `insert_stat` -/
  | insert (mode : ℕ)
  /-- `remove_stat` -/
  | remove
  /-- `update_stat_atime` -/
  | updateAtime
  /-- `update_stat_utimens` -/
  | updateUtimens (tv : Option (Timespec × Timespec))
  /-- `update_stat_size` -/
  | updateSize (size : ℕ)
  /-- `update_stat_mode` -/
  | updateMode (mode : ℕ)

/-- What a call returns: its result code, and the struct and the CAS that
`get_stat` hands out. -/
abbrev StatResult := ℤ × Option (CbfuseStat × ℕ)

namespace StatCall

/-- The program of the call, on the entry `p`. -/
def code (p : CString) : StatCall → Op Text StatResult
  | get => do
    match ← getStat p with
    | .error fresult => return (fresult, none)
    | .ok r => return (0, some r)
  | insert mode => do return (← insertStat p mode, none)
  | remove => do return (← removeStat p, none)
  | updateAtime => do return (← updateStatAtime p, none)
  | updateUtimens tv => do return (← updateStatUtimens p tv, none)
  | updateSize size => do return (← updateStatSize p size, none)
  | updateMode mode => do return (← updateStatMode p mode, none)

/-- The request that decides a call: the one that fetches the struct, for a
call that only reads it, and the one that stores or removes it otherwise. -/
def decides (call : StatCall) : Req Text → Bool
  | .stats (.get _) => match call with | get => true | _ => false
  | .stats _ => true
  | _ => false

/-- What an update is made of: whether it reads the clock, and its change
of the struct. -/
def update : StatCall → Option (Bool × (Timespec → CbfuseStat → CbfuseStat))
  | updateAtime => some (true, CbfuseStat.touchAtime)
  | updateUtimens tv => some (utimensNeedsClock tv, CbfuseStat.utimens tv)
  | updateSize size => some (true, CbfuseStat.resize size)
  | updateMode mode => some (false, fun _ stat => { stat with stMode := mode })
  | _ => none

/-- The last request of a call that stores or removes the struct. -/
def finish (r : Kv.Request CString StatDoc) : Op Text StatResult :=
  .call (.stats r) (fun resp => .ret (checkResult (-enoent) resp, none))

variable {p : CString}

theorem code_get : (get.code p : Op Text StatResult)
    = .call (.stats (.get p)) (fun resp =>
        match statReply resp with
        | none => .crash
        | some (.error e) => .ret (e, none)
        | some (.ok r) => .ret (0, some r)) := by
  simp only [code]
  rw [getStat_eq, Prog.call_bind]
  congr 1
  funext resp
  cases statReply resp with
  | none => rfl
  | some r => cases r <;> rfl

theorem code_insert (mode : ℕ) : ((insert mode).code p : Op Text StatResult)
    = .call .clockGettime (fun now =>
        match now with
        | none => .ret (-eio, none)
        | some ts => finish (.store .insert p (.packed (rootStat mode ts)) 0)) := by
  show Prog.call _ _ = Prog.call _ _
  congr 1
  funext now
  cases now <;> rfl

theorem code_remove : (remove.code p : Op Text StatResult) = finish (.remove p) := rfl

theorem code_update {call : StatCall} {clock : Bool}
    {change : Timespec → CbfuseStat → CbfuseStat} (hu : call.update = some (clock, change)) :
    (call.code p : Op Text StatResult)
      = .call (.stats (.get p)) (fun resp =>
          match statReply resp with
          | none => .crash
          | some (.error e) => .ret (e, none)
          | some (.ok (stat, cas)) =>
            replaceStat p clock change stat cas >>= fun fresult => .ret (fresult, none)) := by
  have hcode : (call.code p : Op Text StatResult)
      = updateStat p clock change >>= fun fresult => .ret (fresult, none) := by
    cases call <;> cases hu <;> rfl
  rw [hcode, updateStat_eq, Prog.call_bind]
  congr 1
  funext resp
  cases statReply resp with
  | none => rfl
  | some r => cases r <;> rfl

/-- An update that does not read the clock stores the struct at once. -/
theorem replaceStat_false (change : Timespec → CbfuseStat → CbfuseStat) (stat : CbfuseStat)
    (cas : ℕ) :
    (replaceStat p false change stat cas >>= fun fresult => .ret (fresult, none)
        : Op Text StatResult)
      = finish (.store .replace p (.packed (change ⟨0, 0⟩ stat)) cas) := rfl

/-- An update that reads the clock stores the struct once it has. -/
theorem replaceStat_true (change : Timespec → CbfuseStat → CbfuseStat) (stat : CbfuseStat)
    (cas : ℕ) :
    (replaceStat p true change stat cas >>= fun fresult => .ret (fresult, none)
        : Op Text StatResult)
      = .call .clockGettime (fun now =>
          match now with
          | none => .ret (-eio, none)
          | some ts => finish (.store .replace p (.packed (change ts stat)) cas)) := by
  show Prog.call _ _ = Prog.call _ _
  congr 1
  funext now
  cases now <;> rfl

end StatCall

/-! ## A call run alone -/

section Alone

variable {s : Store Text} {p : CString} {stat : CbfuseStat} {cas : ℕ} (ts : Timespec)

theorem serve_get_good (hd : s.stats.docs p = some ⟨.packed stat, cas⟩) :
    serve (.good ts) (.stats (.get p)) s
      = (⟨⟨none, none, some ⟨.packed stat, cas⟩⟩, true⟩, s) := by
  rw [(Choice.faultFree_good ts).serve_stats]
  simp only [Kv.Collection.serve, hd]

theorem run_get (hd : s.stats.docs p = some ⟨.packed stat, cas⟩) :
    (StatCall.get.code p).run serve (fun _ => .good ts) s = (some (0, some (stat, cas)), s) := by
  rw [StatCall.code_get, Prog.run_call, serve_get_good ts hd]
  rfl

/-- The last request of a call, served. -/
theorem run_finish {r : Kv.Request CString StatDoc} (h : (s.stats.serve r).1 = none) :
    (StatCall.finish r).run serve (fun _ => .good ts) s
      = (some (0, none), { s with stats := (s.stats.serve r).2.2 }) := by
  unfold StatCall.finish
  rw [Prog.run_call, (Choice.faultFree_good ts).serve_stats, h]
  rfl

theorem run_insert {mode : ℕ} (h : (s.stats.serve
      (.store .insert p (.packed (rootStat mode ts)) 0)).1 = none) :
    ((StatCall.insert mode).code p).run serve (fun _ => .good ts) s
      = (some (0, none), { s with stats := (s.stats.serve
          (.store .insert p (.packed (rootStat mode ts)) 0)).2.2 }) := by
  rw [StatCall.code_insert, Prog.run_call]
  exact run_finish ts h

/-- **An update run alone** sets the struct there is. -/
theorem run_update {call : StatCall} {clock : Bool}
    {change : Timespec → CbfuseStat → CbfuseStat} (hu : call.update = some (clock, change))
    (hd : s.stats.docs p = some ⟨.packed stat, cas⟩) :
    let r := .store .replace p (.packed (change (if clock then ts else ⟨0, 0⟩) stat)) cas
    (call.code p).run serve (fun _ => .good ts) s
      = (some (0, none), { s with stats := (s.stats.serve r).2.2 }) := by
  intro r
  have hr : (s.stats.serve r).1 = none := by
    have hv : s.stats.verdict .replace p cas = none := Kv.Collection.verdict_replace_cas hd
    simp only [r, Kv.Collection.serve, hv]
  rw [StatCall.code_update hu, Prog.run_call, serve_get_good ts hd]
  cases clock with
  | false => exact run_finish ts hr
  | true =>
    show (replaceStat p true change stat cas >>= fun fresult => .ret (fresult, none)).run
      serve _ s = _
    rw [StatCall.replaceStat_true, Prog.run_call]
    exact run_finish ts hr

/-- **A stat that is not there comes back only through an insertion.** -/
theorem insert_of_run {call : StatCall} {a : StatResult} {s' : Store Text}
    (hrun : (call.code p).run serve (fun _ => .good ts) s = (some a, s'))
    (hnone : s.stats.val p = none) (hsome : s'.stats.val p ≠ none) :
    ∃ mode, call = .insert mode := by
  have hd : s.stats.docs p = none := (Kv.Collection.val_eq_none _ _).mp hnone
  have hget : serve (.good ts) (.stats (.get p)) s
      = (⟨⟨none, some .notFound, none⟩, true⟩, s) := by
    rw [(Choice.faultFree_good ts).serve_stats]
    simp only [Kv.Collection.serve, hd]
  have hupdate : ∀ r, call.update ≠ some r := by
    rintro ⟨clock, change⟩ hu
    rw [StatCall.code_update hu, Prog.run_call, hget] at hrun
    cases hrun
    exact hsome hnone
  cases call with
  | insert mode => exact ⟨mode, rfl⟩
  | get =>
    rw [StatCall.code_get, Prog.run_call, hget] at hrun
    cases hrun
    exact absurd hnone hsome
  | remove =>
    rw [StatCall.code_remove, StatCall.finish, Prog.run_call,
      (Choice.faultFree_good ts).serve_stats] at hrun
    simp only [Kv.Collection.serve, hd] at hrun
    cases hrun
    exact absurd hnone hsome
  | _ => exact absurd rfl (hupdate _)

end Alone

/-! ## The stages of a call -/

/-- What the clock read, if the request was for the time and was
answered. -/
def Req.reading : (q : Req Text) → q.Reply → Option Timespec
  | .clockGettime, now => now
  | _, _ => none

/-- **How far a call has got**, given the last reading of its clock and the
state of the server: what is left of it, and that it remembers the struct
it fetched. -/
inductive StatCall.Stage (p : CString) (now : Timespec) (s : Store Text) :
    StatCall → Op Text StatResult → Prop
  | begun (call : StatCall) : Stage p now s call (call.code p)
  | stamped (mode : ℕ) :
      Stage p now s (.insert mode) (finish (.store .insert p (.packed (rootStat mode now)) 0))
  | holding {call : StatCall} {clock : Bool} {change : Timespec → CbfuseStat → CbfuseStat}
      {stat : CbfuseStat} {cas : ℕ} (hu : call.update = some (clock, change))
      (hr : s.stats.Remembers p ⟨.packed stat, cas⟩) :
      Stage p now s call
        (replaceStat p clock change stat cas >>= fun fresult => .ret (fresult, none))
  | changed {call : StatCall} {change : Timespec → CbfuseStat → CbfuseStat} {stat : CbfuseStat}
      {cas : ℕ} (hu : call.update = some (true, change))
      (hr : s.stats.Remembers p ⟨.packed stat, cas⟩) :
      Stage p now s call (finish (.store .replace p (.packed (change now stat)) cas))
  | ended {call : StatCall} {rest : Op Text StatResult} (h : ∀ q k, rest ≠ .call q k) :
      Stage p now s call rest

section Stage

variable {p : CString} {now : Timespec} {s : Store Text} {call : StatCall}

/-- No request of another call takes a call back. -/
theorem StatCall.Stage.serve {rest : Op Text StatResult} (h : Stage p now s call rest)
    (c : Choice) (q : Req Text) : Stage p now (serve c q s).2 call rest := by
  have hrem : ∀ d, s.stats.Remembers p d → (Cbfuse.serve c q s).2.stats.Remembers p d := by
    intro d hd
    cases q with
    | stats r => exact hd.answer c.fate r
    | _ => exact hd
  cases h with
  | begun => exact .begun call
  | stamped mode => exact .stamped mode
  | holding hu hr => exact .holding hu (hrem _ hr)
  | changed hu hr => exact .changed hu (hrem _ hr)
  | ended h => exact .ended h

/-- A request that stores or removes either is granted or changes
nothing. -/
theorem Choice.Clean.serve_stats {c : Choice} (hc : c.Clean) (s : Store Text)
    (r : Kv.Request CString StatDoc) :
    (checkResult (-enoent) (serve c (.stats r) s).1 = 0 ∧ (s.stats.serve r).1 = none
        ∧ (serve c (.stats r) s).2 = { s with stats := (s.stats.serve r).2.2 })
      ∨ (checkResult (-enoent) (serve c (.stats r) s).1 ≠ 0 ∧ (serve c (.stats r) s).2 = s) := by
  simp only [Cbfuse.serve]
  obtain ⟨h0, hst, hb⟩ | ⟨hne, hb⟩ := hc.checked (by decide : (-enoent : ℤ) ≠ 0) s.stats r
  · exact .inl ⟨h0, hst, by rw [hb]⟩
  · exact .inr ⟨hne, by rw [hb]⟩

/-- The success of a call. -/
abbrev StatResult.Ok (r : StatResult) : Prop := r.1 = 0

/-- **One request of a call**, and where it leaves the call. -/
def StatCall.Steps (p : CString) (now : Timespec) (s : Store Text) (call : StatCall) :
    Op Text StatResult → Prop
  | .call q k => ∀ c : Choice, c.Clean →
      Pool.Effect StatResult.Ok serve (call.decides q = true) (call.code p) (.good now) s
          (k (Cbfuse.serve c q s).1) (Cbfuse.serve c q s).2
        ∧ Stage p ((q.reading (Cbfuse.serve c q s).1).getD now) (Cbfuse.serve c q s).2 call
          (k (Cbfuse.serve c q s).1)
  | _ => True

/-- The last request of a call takes effect if it is granted. -/
theorem StatCall.steps_finish {r : Kv.Request CString StatDoc}
    (hd : call.decides (.stats r : Req Text) = true)
    (hrun : (s.stats.serve r).1 = none → (call.code p).run serve (fun _ => .good now) s
      = (some (0, none), { s with stats := (s.stats.serve r).2.2 })) :
    Steps p now s call (finish r) := by
  intro c hc
  refine ⟨?_, .ended (fun q k h => by cases h)⟩
  dsimp only
  obtain ⟨h0, hst, hs⟩ | ⟨hne, hs⟩ := hc.serve_stats s r
  · rw [h0, hs]
    exact .succeeds hd rfl (hrun hst)
  · rw [hs]
    exact .fails hd (fun q k h => by cases h) (fun a h => by cases h; exact hne)

/-- The reading of the clock stamps what the call goes on to store. -/
theorem StatCall.steps_clock {next : Timespec → Op Text StatResult}
    (hnext : ∀ ts, (∀ a, next ts ≠ .ret a) ∧ Stage p ts s call (next ts)) :
    Steps p now s call (.call .clockGettime (fun reading =>
      match reading with
      | none => .ret (-eio, none)
      | some ts => next ts)) := by
  intro c hc
  cases hnow : c.now with
  | none =>
    simp only [Cbfuse.serve, Req.reading, hnow]
    exact ⟨.aside (by simp [decides]) (fun a h => by cases h; decide),
      .ended (fun q k h => by cases h)⟩
  | some ts =>
    simp only [Cbfuse.serve, Req.reading, hnow]
    exact ⟨.aside (by simp [decides]) (fun a h => absurd h ((hnext ts).1 a)), (hnext ts).2⟩

/-- The fetch of an update makes it remember the struct. -/
theorem StatCall.steps_update {clock : Bool} {change : Timespec → CbfuseStat → CbfuseStat}
    (hu : call.update = some (clock, change)) : Steps p now s call (call.code p) := by
  have hd : ¬ call.decides (.stats (.get p) : Req Text) = true := by
    cases call <;> cases hu <;> exact Bool.false_ne_true
  rw [code_update hu]
  intro c hc
  have hs : (Cbfuse.serve c (.stats (.get p)) s).2 = s := by simp [Cbfuse.serve]
  rw [hs]
  dsimp only
  cases hr : statReply (Cbfuse.serve c (.stats (.get p)) s).1 with
  | none => exact ⟨.aside hd (fun a h => by cases h), .ended (fun q k h => by cases h)⟩
  | some r =>
    cases r with
    | error e =>
      refine ⟨.aside hd (fun a h => ?_), .ended (fun q k h => by cases h)⟩
      cases h
      exact Int.ne_of_lt (statReply_error_neg hr)
    | ok r =>
      obtain ⟨stat, cas⟩ := r
      have hdoc := Kv.Collection.docs_of_answer_get (doc_of_statReply hr)
      refine ⟨.aside hd (fun a h => ?_), .holding hu (.of_docs hdoc)⟩
      cases clock <;> cases h

/-- A fetch that is all there is of a call is the call. -/
theorem StatCall.steps_get : Steps p now s .get (StatCall.get.code p) := by
  rw [code_get]
  intro c hc
  have hs : (Cbfuse.serve c (.stats (.get p)) s).2 = s := by simp [Cbfuse.serve]
  rw [hs]
  dsimp only
  cases hr : statReply (Cbfuse.serve c (.stats (.get p)) s).1 with
  | none =>
    exact ⟨.fails rfl (fun q k h => by cases h) (fun a h => by cases h),
      .ended (fun q k h => by cases h)⟩
  | some r =>
    refine ⟨?_, .ended (fun q k h => by cases r <;> cases h)⟩
    cases r with
    | error e =>
      refine .fails rfl (fun q k h => by cases h) (fun a h => ?_)
      cases h
      exact Int.ne_of_lt (statReply_error_neg hr)
    | ok r =>
      have hdoc := Kv.Collection.docs_of_answer_get (doc_of_statReply hr)
      exact .succeeds rfl rfl (run_get now hdoc)

/-- A replacement under the CAS of a remembered struct is granted only if
the struct is the one there is, and then the call is what it would be
alone. -/
theorem StatCall.steps_replace {clock : Bool} {change : Timespec → CbfuseStat → CbfuseStat}
    {stat : CbfuseStat} {cas : ℕ} (hu : call.update = some (clock, change))
    (hr : s.stats.Remembers p ⟨.packed stat, cas⟩) {ts : Timespec}
    (hts : (if clock then now else ⟨0, 0⟩) = ts) :
    Steps p now s call (finish (.store .replace p (.packed (change ts stat)) cas)) := by
  subst hts
  refine steps_finish (by cases call <;> rfl) (fun hst => ?_)
  have hv : s.stats.verdict .replace p cas = none := by
    cases hv : s.stats.verdict .replace p cas with
    | none => rfl
    | some e => simp [Kv.Collection.serve, hv] at hst
  exact run_update now hu (hr.docs_of_verdict hv)

/-- **Every request of a call**, whatever its stage. -/
theorem StatCall.Stage.steps {rest : Op Text StatResult} (h : Stage p now s call rest) :
    Steps p now s call rest := by
  cases h with
  | begun =>
    cases hcall : call with
    | get => exact steps_get
    | insert mode =>
      rw [code_insert]
      exact steps_clock (fun ts => ⟨fun a h => (by cases h), .stamped mode⟩)
    | remove =>
      rw [code_remove]
      refine steps_finish rfl (fun hst => ?_)
      rw [code_remove]
      exact run_finish now hst
    | updateAtime => exact steps_update rfl
    | updateUtimens tv => exact steps_update rfl
    | updateSize size => exact steps_update rfl
    | updateMode mode => exact steps_update rfl
  | stamped mode => exact steps_finish rfl (fun hst => run_insert now hst)
  | @holding _ clock change stat cas hu hr =>
    cases clock with
    | false =>
      rw [replaceStat_false]
      exact steps_replace hu hr rfl
    | true =>
      rw [replaceStat_true]
      exact steps_clock (fun ts => ⟨fun a h => (by cases h), .changed hu hr⟩)
  | changed hu hr => exact steps_replace hu hr rfl
  | @ended _ rest h =>
    cases rest with
    | call q k => exact absurd rfl (h q k)
    | _ => trivial

end Stage

/-! ## Any number of clients -/

section Clients

variable {ι : Type} [DecidableEq ι]

/-- What the clock last read to a call. -/
def clockRead (tr : List (Pool.Event ι (Req Text) Req.Reply)) (i : ι) : Timespec :=
  tr.foldl (fun ts e => if e.who = i then (e.req.reading e.reply).getD ts else ts) ⟨0, 0⟩

theorem clockRead_append (tr : List (Pool.Event ι (Req Text) Req.Reply))
    (e : Pool.Event ι (Req Text) Req.Reply) (i : ι) :
    clockRead (tr ++ [e]) i
      = if e.who = i then (e.req.reading e.reply).getD (clockRead tr i) else clockRead tr i := by
  unfold clockRead
  rw [List.foldl_append]
  rfl

/-- Every call on a stat takes effect in one request. -/
theorem stats_takeEffectOnce (calls : ι → StatCall) (p : CString) :
    Pool.TakesEffectOnce (S := Store Text) (fun i q => (calls i).decides q = true)
      StatResult.Ok serve (fun i => (calls i).code p) (fun tr i => .good (clockRead tr i))
      Choice.Clean
      (fun x => ∀ i, (calls i).Stage p (clockRead x.trace i) x.store (x.procs i)) where
  initial i a h := by
    cases hc : calls i with
    | _ => rw [hc] at h; cases h
  settled tr e j h := by
    rw [clockRead_append]
    split
    · next hj =>
      have hd := h.resolve_left (fun hne => hne hj.symm)
      have hr : e.req.reading e.reply = none := by
        obtain ⟨who, req, reply⟩ := e
        cases req with
        | clockGettime => exact absurd hd Bool.false_ne_true
        | _ => rfl
      rw [hr, Option.getD_none]
    · rfl
  effect x i c q k hI hc hp := by
    have hsteps := (hI i).steps
    rw [hp] at hsteps
    exact (hsteps c hc).1
  kept x i c hI hc := by
    cases hp : x.procs i with
    | ret a => rwa [Pool.step_of_not_call serve (by simp [hp])]
    | crash => rwa [Pool.step_of_not_call serve (by simp [hp])]
    | call q k =>
      intro j
      rw [Pool.step_of_call serve hp]
      dsimp only
      rw [clockRead_append]
      by_cases hj : j = i
      · subst hj
        have hsteps := (hI j).steps
        rw [hp] at hsteps
        rw [if_pos rfl, if_pos rfl]
        exact (hsteps c hc).2
      · rw [if_neg hj, if_neg (Ne.symm hj)]
        exact (hI j).serve c q

/-- **Calls on one stat linearize.** Any number of calls on the stat of one
entry, interleaved in any way, with any request failing as long as it then
has no effect: what is left on the server, and what the calls that returned
zero returned, is what these calls would have left and returned one after
another, in the order of their deciding requests and with the same readings
of the clock. A call that did not return zero has changed nothing, and a
stat that was not there has come back only through `insert_stat`. -/
theorem stats_linearize (calls : ι → StatCall) (p : CString) (s : Store Text)
    {sched : List (ι × Choice)} (hA : ∀ ic ∈ sched, ic.2.Clean) :
    let run sched := Pool.run serve sched (Pool.start (fun i => (calls i).code p) s)
    Pool.Linearizes (fun i q => (calls i).decides q = true) StatResult.Ok serve
        (fun i => (calls i).code p) (fun i => .good (clockRead (run sched).trace i)) s (run sched)
      ∧ ∀ sched₁ i c sched₂, sched = sched₁ ++ (i, c) :: sched₂ →
        (Pool.step serve i c (run sched₁)).store ≠ (run sched₁).store →
          (run sched).Succeeded StatResult.Ok i
            ∧ ((run sched₁).store.stats.val p = none →
              (Pool.step serve i c (run sched₁)).store.stats.val p ≠ none →
                ∃ mode, calls i = .insert mode) := by
  intro run
  have h := @stats_takeEffectOnce Text _ _ calls p
  have hI : ∀ i, (calls i).Stage p (@clockRead Text ι _ [] i) s
      ((calls i).code p) := fun i => .begun _
  refine ⟨(h.linearizes hI hA).linear, ?_⟩
  rintro sched₁ i c sched₂ rfl hne
  obtain ⟨hsucc, a, -, hrun⟩ := h.changes hI hA hne
  exact ⟨hsucc, insert_of_run _ hrun⟩

end Clients

/-- Two updates fetch the same struct; the second one to replace it is
refused, and the run is the first update alone. -/
theorem stats_linearize_refused :
    let calls : Bool → StatCall := fun i => if i then .updateSize 5 else .updateMode 0o600
    let g := Choice.good ⟨7, 0⟩
    let s : Store Unit := Store.empty.putStat ['/', 'f'] (rootStat (sIfreg ||| 0o644) ⟨0, 0⟩)
    let x := Pool.run serve (Pool.turns g [true, false, true, true, false])
      (Pool.start (fun i => (calls i).code ['/', 'f']) s)
    x.returned false = some (-enoent, none)
      ∧ x.decisionOrder (fun i q => (calls i).decides q = true) StatResult.Ok = [true]
      ∧ Pool.serial serve (fun i => (calls i).code ['/', 'f'])
          (fun i => .good (clockRead x.trace i)) [true] s
        = (x.store, [(true, x.returned true)]) := by
  intro calls g s x
  have horder : x.decisionOrder (fun i q => (calls i).decides q = true) StatResult.Ok
      = [true] := by decide +kernel
  refine ⟨by decide +kernel, horder, ?_⟩
  have hA := Pool.forall_turns (Choice.faultFree_good ⟨7, 0⟩).clean [true, false, true, true, false]
  have h := (stats_linearize calls ['/', 'f'] s hA).1.serial
  rwa [horder] at h

end Cbfuse

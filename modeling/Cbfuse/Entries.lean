import Cbfuse.BlockRace
import Cbfuse.Machine
import Cbfuse.Sizes
import Cbfuse.World

/-!
# Calls on an entry, with nothing failing

The five calls on an entry come down to two changes, of its block and of its
stat. Which bytes a block gets is not all the call's to say – fresh memory
and the memory past a buffer have a part in it – so that change is a relation
(`EntryOp.Reblocks`). The change of the stat is a function of the call, of the
clock, and of the block the call found (`EntryOp.restat`), and so is the
result (`EntryOp.result`). `run_entryOp_spec` says that the five programs do
just that.

It takes a store in which nothing is out of shape: every stat is a packed
struct, and no block is longer than a file may be. Every call of a client
keeps it so (`World.shapely_step`).
-/

namespace Cbfuse

variable {Text : Type}

/-! ## The clock values of a run -/

/-- The clock value a request read, if it read one. -/
def clockReading : (Σ q : Req Text, q.Reply) → Option Timespec
  | ⟨.clockGettime, now⟩ => now
  | _ => none

/-- **The clock values read** in the course of a run. -/
def clockReadings {α : Type} (p : Op Text α) (env : ℕ → Choice) (s : Store Text) :
    List Timespec :=
  (p.events serve env s).filterMap clockReading

/-- The request does not read the clock. -/
def Req.NotClock : Req Text → Prop
  | .clockGettime => False
  | _ => True

theorem clockReadings_of_only {α : Type} {p : Op Text α} (h : p.Only Req.NotClock)
    (env : ℕ → Choice) (s : Store Text) : clockReadings p env s = [] := by
  unfold clockReadings
  rw [List.filterMap_eq_nil_iff]
  rintro ⟨q, r⟩ he
  have hq := @Prog.Only.events _ _ _ _ _ _ serve p h env s _ he
  cases q with
  | clockGettime => exact hq.elim
  | _ => rfl

/-- A request for anything else has no clock value. -/
theorem clockReadings_call_of_notClock {α : Type} {q : Req Text} (hq : q.NotClock)
    (k : q.Reply → Op Text α) (env : ℕ → Choice) (s : Store Text) :
    clockReadings (.call q k) env s
      = clockReadings (k (serve (env 0) q s).1) (fun n => env (n + 1)) (serve (env 0) q s).2 := by
  unfold clockReadings
  rw [Prog.events_call]
  refine List.filterMap_cons_none ?_
  cases q with
  | clockGettime => exact hq.elim
  | _ => rfl

/-- A request for the clock comes first. -/
theorem clockReadings_call {α : Type} (k : Option Timespec → Op Text α) (env : ℕ → Choice)
    (s : Store Text) :
    clockReadings (.call .clockGettime k) env s
      = (env 0).now.toList ++ clockReadings (k (env 0).now) (fun n => env (n + 1)) s := by
  unfold clockReadings
  rw [Prog.events_call]
  show List.filterMap clockReading (⟨.clockGettime, (env 0).now⟩ :: _) = _
  cases h : (env 0).now with
  | none =>
    rw [List.filterMap_cons_none (by rfl)]
    simp only [serve, h, Option.toList_none, List.nil_append]
  | some ts =>
    rw [List.filterMap_cons_some (by rfl)]
    simp only [serve, h, Option.toList_some, List.singleton_append]

/-- A sequence, run by run: the second part goes on under choices of the same
kind, and its clock values come after those of the first. -/
theorem run_bind_readings {α β : Type} {p : Op Text α} {env : ℕ → Choice} {s s' : Store Text}
    {a : α} {A : Choice → Prop} (henv : ∀ n, A (env n)) (h : p.run serve env s = (some a, s'))
    (f : α → Op Text β) :
    ∃ env', (∀ n, A (env' n)) ∧ (p >>= f).run serve env s = (f a).run serve env' s'
      ∧ clockReadings (p >>= f) env s = clockReadings p env s ++ clockReadings (f a) env' s' := by
  obtain ⟨n, hrun, hev⟩ := Prog.run_bind h f
  refine ⟨fun k => env (k + n), fun k => henv _, hrun, ?_⟩
  unfold clockReadings
  rw [hev, List.filterMap_append]

section Update

variable {s : Store Text} {p : CString} {clock : Bool} {change : Timespec → CbfuseStat → CbfuseStat}
  {env : ℕ → Choice}

/-- **An update of a stat** sets it by the one clock value it reads, if it
reads one. -/
theorem run_updateStat {stat : CbfuseStat} {cas : ℕ} (hs : s.statOf p = .ok (stat, cas))
    (henv : ∀ n, (env n).FaultFree) :
    ∃ ts, (updateStat p clock change).run serve env s
        = (some 0, s.putStat p (change ts stat))
      ∧ clockReadings (updateStat p clock change) env s = if clock then [ts] else [] := by
  have hd := Store.docs_of_statOf hs
  have hv : s.stats.verdict .replace p cas = none := Kv.Collection.verdict_replace_cas hd
  have hget : serve (env 0) (.stats (.get p)) s
      = (⟨⟨none, none, some ⟨.packed stat, cas⟩⟩, true⟩, s) := by
    rw [(henv 0).serve_stats]
    simp only [Kv.Collection.serve, hd]
  have hstore : ∀ n ts, serve (env n) (.stats (.store .replace p (.packed (change ts stat)) cas)) s
      = (⟨⟨none, none, none⟩, true⟩, s.putStat p (change ts stat)) := by
    intro n ts
    rw [(henv n).serve_stats]
    simp only [Kv.Collection.serve, hv]
    rfl
  obtain ⟨ts, hts⟩ := (henv 1).exists_now
  have hnow : serve (env 1) .clockGettime s = (some ts, s) := by simp only [serve, hts]
  unfold clockReadings
  rw [updateStat_eq]
  simp only [Prog.run_call, Prog.events_call, hget]
  show ∃ ts', (replaceStat p clock change stat cas).run serve (fun n => env (n + 1)) s = _
    ∧ (_ :: (replaceStat p clock change stat cas).events serve (fun n => env (n + 1)) s).filterMap _
      = _
  unfold replaceStat
  cases clock with
  | true =>
    refine ⟨ts, ?_, ?_⟩
    · simp only [if_true, Prog.run_call, Nat.zero_add, hnow, hstore]
      rfl
    · simp only [if_true, Prog.events_call, Nat.zero_add, hnow, hstore]
      rfl
  | false =>
    refine ⟨⟨0, 0⟩, ?_, ?_⟩
    · simp only [Bool.false_eq_true, if_false, Prog.run_call, Nat.zero_add, hstore]
      rfl
    · simp only [Bool.false_eq_true, if_false, Prog.events_call, Nat.zero_add, hstore]
      rfl

/-- Without a stat an update fails. -/
theorem run_updateStat_error {e : ℤ} (hs : s.statOf p = .error e)
    (henv : ∀ n, (env n).FaultFree) :
    (updateStat p clock change).run serve env s = (some e, s) := by
  have hwp : (updateStat p clock change).wp serve Choice.FaultFree (fun _ => True)
      (fun r s' => r = e ∧ s' = s) s := by
    refine wp_updateStat trivial (fun e' he' => ?_) (fun stat cas ts hs' => ?_)
    · cases hs.symm.trans he'
      exact ⟨rfl, rfl⟩
    · cases hs.symm.trans hs'
  obtain ⟨r, s', hrun, rfl, rfl⟩ := Prog.wp_run hwp henv
  exact hrun

end Update

/-! ## What the calls are for -/

/-- **A block cut or lengthened** to `offset` bytes, those past its old end
being whatever they are. Where there is no block there is nothing to cut. -/
def Recut (offset : ℤ) (v w : Option Bytes) : Prop :=
  match v with
  | none => w = none
  | some b => ∃ past : Bytes, past.length = offset.toNat - b.length
      ∧ w = some (b.take offset.toNat ++ past)

namespace EntryOp

/-- Arguments a call can have: an offset is an `off_t` and not negative, and a
range ends where a `size_t` can say. -/
def InRange : EntryOp → Prop
  | write _ buf offset => 0 ≤ offset ∧ offset < 2 ^ 63 ∧ offset + buf.length < 2 ^ 64
  | truncate _ offset => 0 ≤ offset ∧ offset < 2 ^ 63
  | read _ nbuf offset => 0 ≤ offset ∧ offset < 2 ^ 63 ∧ offset + nbuf < 2 ^ 64
  | _ => True

instance : DecidablePred InRange := fun op =>
  match op with
  | write _ _ _ => inferInstanceAs (Decidable (_ ≤ _ ∧ _ < _ ∧ _ < _))
  | truncate _ _ => inferInstanceAs (Decidable (_ ≤ _ ∧ _ < _))
  | read _ _ _ => inferInstanceAs (Decidable (_ ≤ _ ∧ _ < _ ∧ _ < _))
  | chmod _ _ => inferInstanceAs (Decidable True)
  | utimens _ _ => inferInstanceAs (Decidable True)

/-- What becomes of the block. A write of nothing is a truncation. -/
def Reblocks (v w : Option Bytes) : EntryOp → Prop
  | write _ buf offset =>
    if maxFileLen < offset + buf.length then w = v
    else if buf = [] then Recut offset v w
    else WritesBytes offset buf v w
  | truncate _ offset =>
    if maxFileLen < offset then w = v
    else if offset = 0 then w = none
    else Recut offset v w
  | _ => w = v

/-- Whether the call gets as far as changing the stat, given the block it
finds. -/
def Restats (v : Option Bytes) : EntryOp → Prop
  | write _ buf offset =>
    buf ≠ [] ∧ offset + buf.length ≤ maxFileLen
      ∧ (v.getD []).length < offset.toNat + buf.length
  | truncate _ offset => offset ≤ maxFileLen ∧ (offset = 0 → v ≠ none)
  | read _ _ offset => offset < (v.getD []).length
  | _ => True

instance (v : Option Bytes) : DecidablePred (Restats v) := fun op =>
  match op with
  | write _ _ _ => inferInstanceAs (Decidable (_ ≠ _ ∧ _ ≤ _ ∧ _ < _))
  | truncate _ _ => inferInstanceAs (Decidable (_ ≤ _ ∧ (_ → _ ≠ _)))
  | read _ _ _ => inferInstanceAs (Decidable (_ < _))
  | chmod _ _ => inferInstanceAs (Decidable True)
  | utimens _ _ => inferInstanceAs (Decidable True)

/-- The change of the stat, at a clock value. -/
def change : EntryOp → Timespec → CbfuseStat → CbfuseStat
  | write _ buf offset, ts, stat => stat.resize (offset.toNat + buf.length) ts
  | truncate _ offset, ts, stat => stat.resize offset.toNat ts
  | read _ _ _, ts, stat => stat.touchAtime ts
  | chmod _ mode, _, stat => { stat with stMode := mode }
  | utimens _ tv, ts, stat => stat.utimens tv ts

/-- Whether the change of the stat reads the clock. -/
def clock : EntryOp → Bool
  | chmod _ _ => false
  | utimens _ tv => utimensNeedsClock tv
  | _ => true

/-- What becomes of the stat, given the block the call finds. -/
def restat (op : EntryOp) (v : Option Bytes) (ts : Timespec) (stat : CbfuseStat) : CbfuseStat :=
  if op.Restats v then op.change ts stat else stat

/-- The result, given the block the call finds. -/
def result (v : Option Bytes) : EntryOp → ℤ
  | write _ buf offset =>
    if maxFileLen < offset + buf.length then -1 else dataDone (toInt buf.length)
  | truncate _ offset =>
    if maxFileLen < offset then -efbig
    else if offset = 0 ∧ v = none then -enoent
    else 0
  | read _ nbuf offset =>
    match v with
    | none => -1
    | some b => dataDone (toInt ((b.drop offset.toNat).take nbuf).length)
  | _ => 0

/-- **What a call does** where nothing fails: to the block, whatever the
entry, and to the stat, where there is one, by the clock value it reads. -/
structure Performs (op : EntryOp) (s : Store Text) (r : ℤ) (s' : Store Text)
    (readings : List Timespec) : Prop where
  /-- The block. -/
  block : op.Reblocks (s.blocks.val op.path) (s'.blocks.val op.path)
  /-- The result, the stat, and the clock. -/
  stat : ∀ stat, s.stats.val op.path = some (.packed stat) →
    r = op.result (s.blocks.val op.path)
      ∧ ∃ ts, s'.stats.val op.path = some (.packed (op.restat (s.blocks.val op.path) ts stat))
        ∧ readings = if op.Restats (s.blocks.val op.path) ∧ op.clock then [ts] else []

end EntryOp

/-- The stat of an entry, where it is a packed struct. -/
def Store.statAt (s : Store Text) (p : CString) : Option CbfuseStat :=
  match s.stats.val p with
  | some (.packed stat) => some stat
  | _ => none

theorem Store.statAt_of_val {s : Store Text} {p : CString} {stat : CbfuseStat}
    (h : s.stats.val p = some (.packed stat)) : s.statAt p = some stat := by
  unfold statAt
  rw [h]

theorem Store.statAt_of_none {s : Store Text} {p : CString} (h : s.stats.val p = none) :
    s.statAt p = none := by
  unfold statAt
  rw [h]

theorem Store.statAt_congr {s s' : Store Text} {p : CString}
    (h : s'.stats.val p = s.stats.val p) : s'.statAt p = s.statAt p := by
  unfold statAt
  rw [h]

/-- **A store in which nothing is out of shape**: every stat is a packed
struct, and no block is longer than a file may be. -/
structure Store.Shapely (s : Store Text) : Prop where
  /-- The stats. -/
  stats : ∀ p v, s.stats.val p = some v → ∃ stat, v = .packed stat
  /-- The blocks. -/
  blocks : ∀ p b, s.blocks.val p = some b → b.length ≤ maxFileLen

/-! ## The programs do what they are for -/

theorem Req.OnBlock.notClock {p : CString} {q : Req Text} (h : q.OnBlock p) : q.NotClock := by
  cases q with
  | clockGettime => exact h.elim
  | _ => trivial

theorem updateBlock_notClock (p : CString) (buf : Option Bytes) (offset : ℤ) :
    (updateBlock p buf offset : Op Text _).Only Req.NotClock :=
  (updateBlock_only p buf offset).mono (fun _ h => h.notClock)

/-- A write of nothing updates the block as a truncation does. -/
theorem updateBlock_nil (p : CString) (offset : ℤ) :
    (updateBlock p (some []) offset : Op Text _) = updateBlock p none offset := rfl

section Runs

variable {s : Store Text} {p : CString} {env : ℕ → Choice}

/-- The stat is there and packed, or a fetch finds none. -/
theorem Store.Shapely.statOf_cases (h : s.Shapely) (p : CString) :
    (s.stats.val p = none ∧ s.statOf p = .error (-enoent))
      ∨ ∃ stat cas, s.stats.val p = some (.packed stat) ∧ s.statOf p = .ok (stat, cas) := by
  cases hv : s.stats.val p with
  | none =>
    left
    refine ⟨rfl, ?_⟩
    unfold Store.statOf
    rw [(Kv.Collection.val_eq_none _ _).mp hv]
  | some v =>
    right
    obtain ⟨stat, rfl⟩ := h.stats p v hv
    obtain ⟨cas, hs⟩ := Store.statOf_of_val hv
    exact ⟨stat, cas, rfl, hs⟩

/-- A stat that is there is packed. -/
theorem Store.Shapely.exists_stat (h : s.Shapely) (hp : s.stats.val p ≠ none) :
    ∃ stat, s.stats.val p = some (.packed stat) := by
  obtain ⟨v, hv⟩ := Option.ne_none_iff_exists'.mp hp
  obtain ⟨stat, rfl⟩ := h.stats p v hv
  exact ⟨stat, hv⟩

/-- **The end of a call**: the update of the stat, where there is one. -/
theorem run_updateStat_of_shapely {s₁ : Store Text} (h : s.Shapely) (hs₁ : s₁.stats = s.stats)
    {clock : Bool} {change : Timespec → CbfuseStat → CbfuseStat}
    (henv : ∀ n, (env n).FaultFree) :
    ∃ r s', (updateStat p clock change).run serve env s₁ = (some r, s')
      ∧ s'.blocks = s₁.blocks
      ∧ (s.stats.val p = none → r = -enoent)
      ∧ ∀ stat, s.stats.val p = some (.packed stat) → r = 0
        ∧ ∃ ts, s'.stats.val p = some (.packed (change ts stat))
          ∧ clockReadings (updateStat p clock change) env s₁ = if clock then [ts] else [] := by
  have hof : s₁.statOf p = s.statOf p := by unfold Store.statOf; rw [hs₁]
  obtain ⟨hnone, herr⟩ | ⟨stat, cas, hval, hok⟩ := h.statOf_cases p
  · refine ⟨-enoent, s₁, run_updateStat_error (hof.trans herr) henv, rfl, fun _ => rfl,
      fun stat hstat => ?_⟩
    cases hnone.symm.trans hstat
  · obtain ⟨ts, hrun, hread⟩ := @run_updateStat Text s₁ p clock change env _ _
      (hof.trans hok) henv
    refine ⟨0, _, hrun, rfl, fun hnone => ?_, fun stat' hstat' => ⟨rfl, ts, ?_, hread⟩⟩
    · cases hnone.symm.trans hval
    · cases hval.symm.trans hstat'
      simp

/-- A block is cut or lengthened. -/
theorem run_recut {offset : ℤ} (h0 : 0 ≤ offset) (hmax : offset ≤ maxFileLen)
    (henv : ∀ n, (env n).FaultFree) :
    ∃ s₁, (updateBlock p none offset).run serve env s = (some (0, 0), s₁)
      ∧ s₁.stats = s.stats ∧ Recut offset (s.blocks.val p) (s₁.blocks.val p) := by
  have hwp : (updateBlock p none offset).wp serve Choice.FaultFree (fun _ => True)
      (fun r s₁ => r = (0, 0) ∧ s₁.stats = s.stats
        ∧ Recut offset (s.blocks.val p) (s₁.blocks.val p)) s := by
    refine wp_updateBlock_truncate trivial h0 hmax (fun hb => ?_)
      (fun b past hb hpast => ⟨trivial, ?_⟩)
    · rw [hb]
      exact ⟨rfl, rfl, rfl⟩
    · rw [hb]
      exact ⟨rfl, rfl, past, hpast, by simp⟩
  obtain ⟨r, s₁, hrun, rfl, hstats, hcut⟩ := Prog.wp_run hwp henv
  exact ⟨s₁, hrun, hstats, hcut⟩

/-- A block is written to. -/
theorem run_updateBlock_write {data : Bytes} {offset : ℤ} (hd : data ≠ []) (h0 : 0 ≤ offset)
    (hmax : offset + data.length ≤ maxFileLen) (henv : ∀ n, (env n).FaultFree) :
    ∃ s₁, (updateBlock p (some data) offset).run serve env s
        = (some (0, grownTo (s.bytesOf p) (offset.toNat + data.length)), s₁)
      ∧ s₁.stats = s.stats ∧ WritesBytes offset data (s.blocks.val p) (s₁.blocks.val p) := by
  have hwp : (updateBlock p (some data) offset).wp serve Choice.FaultFree (fun _ => True)
      (fun r s₁ => r = (0, grownTo (s.bytesOf p) (offset.toNat + data.length))
        ∧ s₁.stats = s.stats ∧ WritesBytes offset data (s.blocks.val p) (s₁.blocks.val p)) s :=
    wp_updateBlock_write trivial hd h0 hmax (fun fresh => ⟨trivial, rfl, rfl, _,
      by simp only [Store.blocks_putBlock, Kv.Collection.val_put, if_pos, Store.bytesOf],
      Buffer.overwrites_write fresh.2⟩)
  obtain ⟨r, s₁, hrun, rfl, hstats, hw⟩ := Prog.wp_run hwp henv
  exact ⟨s₁, hrun, hstats, hw⟩

namespace EntryOp

variable {op : EntryOp} {s' : Store Text} {r : ℤ} {readings : List Timespec}

/-- A call that does not get as far as the stat. -/
theorem Performs.of_not_restats (hnot : ¬ op.Restats (s.blocks.val op.path))
    (hblock : op.Reblocks (s.blocks.val op.path) (s'.blocks.val op.path))
    (hr : r = op.result (s.blocks.val op.path)) (hstat : s'.stats = s.stats)
    (hread : readings = []) : op.Performs s r s' readings where
  block := hblock
  stat stat hs := by
    refine ⟨hr, ⟨0, 0⟩, ?_, ?_⟩
    · rw [hstat, hs, restat, if_neg hnot]
    · rw [hread, if_neg (fun h => hnot h.1)]

/-- A call that does. -/
theorem Performs.of_restats (h : op.Restats (s.blocks.val op.path))
    (hblock : op.Reblocks (s.blocks.val op.path) (s'.blocks.val op.path))
    (hstat : ∀ stat, s.stats.val op.path = some (.packed stat) →
      r = op.result (s.blocks.val op.path)
        ∧ ∃ ts, s'.stats.val op.path = some (.packed (op.change ts stat))
          ∧ readings = if op.clock then [ts] else []) : op.Performs s r s' readings where
  block := hblock
  stat stat hs := by
    obtain ⟨hr, ts, hval, hread⟩ := hstat stat hs
    refine ⟨hr, ts, ?_, ?_⟩
    · rw [hval, restat, if_pos h]
    · simp only [hread, h, true_and]

/-- **A call that ends in the update of its stat**, once its block is as it
should be. -/
theorem run_restat_bind (op : EntryOp) {s₁ : Store Text} (h : s.Shapely) (hs₁ : s₁.stats = s.stats)
    (hre : op.Restats (s.blocks.val op.path))
    (hblock : op.Reblocks (s.blocks.val op.path) (s₁.blocks.val op.path)) {α : Type} (f : ℤ → α)
    {g : α → ℤ} (hf : g (f 0) = op.result (s.blocks.val op.path))
    (henv : ∀ n, (env n).FaultFree) :
    let last : Op Text α := updateStat op.path op.clock op.change >>= fun fr => .ret (f fr)
    ∃ fr s', last.run serve env s₁ = (some (f fr), s')
      ∧ op.Performs s (g (f fr)) s' (clockReadings last env s₁) := by
  intro last
  obtain ⟨fr, s', hrun, hblocks, -, hstat⟩ := @run_updateStat_of_shapely Text s op.path env s₁ h
    hs₁ op.clock op.change henv
  obtain ⟨env', -, hrun', hread⟩ := run_bind_readings henv hrun (fun fr => .ret (f fr))
  rw [← hblocks] at hblock
  refine ⟨fr, s', hrun', .of_restats hre hblock (fun stat hs => ?_)⟩
  obtain ⟨hfr, ts, hval, hts⟩ := hstat stat hs
  refine ⟨by rw [hfr, hf], ts, hval, ?_⟩
  rw [hread, hts]
  exact List.append_nil _

/-- A call that ends with an update of the stat, and returns its result, performs
what it is for. -/
theorem run_restat (op : EntryOp) {s₁ : Store Text} (h : s.Shapely) (hs₁ : s₁.stats = s.stats)
    (hre : op.Restats (s.blocks.val op.path))
    (hblock : op.Reblocks (s.blocks.val op.path) (s₁.blocks.val op.path))
    (hresult : op.result (s.blocks.val op.path) = 0) (henv : ∀ n, (env n).FaultFree) :
    let last : Op Text ℤ := updateStat op.path op.clock op.change
    ∃ r s', last.run serve env s₁ = (some r, s')
      ∧ op.Performs s r s' (clockReadings last env s₁) := by
  intro last
  obtain ⟨r, s', hrun, hperf⟩ :=
    run_restat_bind (g := id) op h hs₁ hre hblock id hresult.symm henv
  have hlast : (updateStat op.path op.clock op.change >>= fun fr => .ret (id fr) : Op Text ℤ)
      = last := bind_pure _
  rw [hlast] at hrun hperf
  exact ⟨r, s', hrun, hperf⟩

end EntryOp

/-- The stat is given the new length of a block that grew. -/
theorem finishWrite_grown {nbuf n : ℕ} (hn : n ≠ 0) :
    (finishWrite p nbuf (0, n) : Op Text ℤ)
      = updateStatSize p n >>= fun fr =>
        .ret (if fr ≠ 0 then dataDone fr else dataDone (toInt nbuf)) := by
  unfold finishWrite
  rw [if_neg (fun h => h rfl), if_pos hn]
  congr 1
  funext fr
  exact (apply_ite Prog.ret _ _ _).symm

/-- A write past the limit is refused. -/
theorem run_writeData_refused {buf : Bytes} {offset : ℤ}
    (hrep : offset + buf.length < 2 ^ 64) (hmax : (maxFileLen : ℤ) < offset + buf.length) :
    ∃ r s', (writeData p buf offset).run serve env s = (some r, s')
      ∧ (EntryOp.write p buf offset).Performs s r s'
        (clockReadings (writeData p buf offset) env s) := by
  rw [writeData_refused hrep hmax]
  refine ⟨-1, s, rfl, .of_not_restats (fun hr => ?_) ?_ ?_ rfl rfl⟩
  · exact absurd hr.2.1 (by omega)
  · simp only [EntryOp.Reblocks, hmax, if_true]
  · simp only [EntryOp.result, hmax, if_true]

/-- A write of nothing cuts the block, and stops there. -/
theorem run_writeData_nil {offset : ℤ} (h0 : 0 ≤ offset) (hmax : offset ≤ maxFileLen)
    (henv : ∀ n, (env n).FaultFree) :
    ∃ r s', (writeData p [] offset).run serve env s = (some r, s')
      ∧ (EntryOp.write p [] offset).Performs s r s'
        (clockReadings (writeData p [] offset) env s) := by
  have hnot : ¬ (maxFileLen : ℤ) < offset + ([] : Bytes).length := by simpa using hmax
  obtain ⟨s₁, hrun₁, hstats, hcut⟩ := @run_recut Text s p env offset h0 hmax henv
  obtain ⟨env', -, hrun, hread⟩ :=
    run_bind_readings henv hrun₁ (finishWrite p ([] : Bytes).length)
  rw [writeData_eq (by rw [toSizeT_range h0 (by simpa using hmax)]; omega), updateBlock_nil, hrun,
    hread, clockReadings_of_only (updateBlock_notClock _ _ _)]
  refine ⟨_, s₁, rfl, .of_not_restats (fun hr => hr.1 rfl) ?_ ?_ hstats rfl⟩
  · simp only [EntryOp.Reblocks, hnot, if_false, if_true]
    exact hcut
  · simp only [EntryOp.result, hnot, if_false]

/-- A write of data changes the block, and the stat where the block grew. -/
theorem run_writeData_data (h : s.Shapely) {buf : Bytes} {offset : ℤ} (hd : buf ≠ [])
    (h0 : 0 ≤ offset) (hmax : offset + buf.length ≤ maxFileLen)
    (henv : ∀ n, (env n).FaultFree) :
    ∃ r s', (writeData p buf offset).run serve env s = (some r, s')
      ∧ (EntryOp.write p buf offset).Performs s r s'
        (clockReadings (writeData p buf offset) env s) := by
  have hnot : ¬ (maxFileLen : ℤ) < offset + buf.length := Int.not_lt.mpr hmax
  have hresult : (EntryOp.write p buf offset).result (s.blocks.val p)
      = dataDone (toInt buf.length) := by
    simp only [EntryOp.result, hnot, if_false]
  obtain ⟨s₁, hrun₁, hstats, hw⟩ :=
    @run_updateBlock_write Text s p env buf offset hd h0 hmax henv
  obtain ⟨env', henv', hrun, hread⟩ := run_bind_readings henv hrun₁ (finishWrite p buf.length)
  have hblock : (EntryOp.write p buf offset).Reblocks (s.blocks.val p) (s₁.blocks.val p) := by
    simp only [EntryOp.Reblocks, hnot, hd, if_false]
    exact hw
  rw [writeData_eq (by rw [toSizeT_range h0 hmax]; omega), hrun, hread,
    clockReadings_of_only (updateBlock_notClock _ _ _), List.nil_append]
  unfold grownTo
  split
  · next hlt =>
    have hre : (EntryOp.write p buf offset).Restats (s.blocks.val p) := ⟨hd, hmax, hlt⟩
    obtain ⟨fr, s₂, hrun₂, hperf⟩ := EntryOp.run_restat_bind (g := fun r => r)
      (.write p buf offset) h hstats hre hblock
      (fun fr => if fr ≠ 0 then dataDone fr else dataDone (toInt buf.length))
      (by rw [if_neg (fun h => h rfl)]; exact hresult.symm) henv'
    rw [finishWrite_grown (by omega)]
    exact ⟨_, s₂, hrun₂, hperf⟩
  · next hle =>
    exact ⟨_, s₁, rfl, .of_not_restats (fun hr => hle hr.2.2) hblock hresult.symm hstats rfl⟩

/-- A write, with nothing failing. -/
theorem run_writeData (h : s.Shapely) {buf : Bytes} {offset : ℤ}
    (hop : (EntryOp.write p buf offset).InRange) (henv : ∀ n, (env n).FaultFree) :
    ∃ r s', (writeData p buf offset).run serve env s = (some r, s')
      ∧ (EntryOp.write p buf offset).Performs s r s'
        (clockReadings (writeData p buf offset) env s) := by
  obtain ⟨h0, hoff, hrep⟩ := hop
  by_cases hmax : (maxFileLen : ℤ) < offset + buf.length
  · exact run_writeData_refused hrep hmax
  · by_cases hnil : buf = []
    · subst hnil
      exact run_writeData_nil h0 (by simpa using hmax) henv
    · exact run_writeData_data h hnil h0 (Int.not_lt.mp hmax) henv

/-- The block part of a truncation, with nothing failing: the call goes on to
the stat, or stops with its result. -/
theorem wp_truncateBlock {offset : ℤ} (hop : (EntryOp.truncate p offset).InRange) :
    (if offset = 0 then removeData p else Prod.fst <$> updateBlock p none offset).wp
      serve Choice.FaultFree (fun _ => True)
      (fun fr s₁ => s₁.stats = s.stats
        ∧ (EntryOp.truncate p offset).Reblocks (s.blocks.val p) (s₁.blocks.val p)
        ∧ (fr = 0 ∧ (EntryOp.truncate p offset).Restats (s.blocks.val p)
          ∨ fr ≠ 0 ∧ fr = (EntryOp.truncate p offset).result (s.blocks.val p)
            ∧ ¬ (EntryOp.truncate p offset).Restats (s.blocks.val p))) s := by
  obtain ⟨h0, hoff⟩ := hop
  have hlim : ¬ (maxFileLen : ℤ) < 0 := Int.not_lt.mpr (Int.natCast_nonneg _)
  by_cases hz : offset = 0
  · simp only [EntryOp.Reblocks, EntryOp.Restats, EntryOp.result, hz, hlim, if_true, if_false]
    refine wp_removeData trivial (fun hb => ⟨trivial, rfl, by simp, .inl ⟨rfl, by omega,
      fun _ => hb⟩⟩) (fun hb => ⟨rfl, hb, .inr ⟨by decide, ?_, fun h => h.2 trivial hb⟩⟩)
    rw [if_pos ⟨trivial, hb⟩]
  · rw [if_neg hz, map_eq_pure_bind, Prog.wp_bind]
    by_cases hmax : (maxFileLen : ℤ) < offset
    · have hn : (toSizeT offset : ℤ) = offset := toSizeT_of_lt h0 (by omega)
      simp only [EntryOp.Reblocks, EntryOp.Restats, EntryOp.result, hmax, if_true]
      refine wp_updateBlock_efbig ?_ ⟨rfl, rfl, .inr ⟨by decide, rfl, fun h => ?_⟩⟩
      · simp only [Option.getD_none, List.length_nil, Int.ofNat_zero, Int.add_zero]
        omega
      · exact absurd h.1 (Int.not_le.mpr hmax)
    · have hre : (EntryOp.truncate p offset).Restats (s.blocks.val p) :=
        ⟨Int.not_lt.mp hmax, fun h => absurd h hz⟩
      simp only [EntryOp.Reblocks, hmax, hz, if_false]
      refine wp_updateBlock_truncate trivial h0 (Int.not_lt.mp hmax)
        (fun hb => ⟨rfl, ?_, .inl ⟨rfl, hre⟩⟩)
        (fun b past hb hpast => ⟨trivial, rfl, ?_, .inl ⟨rfl, hre⟩⟩)
      · rw [hb]
        rfl
      · rw [hb]
        exact ⟨past, hpast, by simp⟩

/-- A truncation, with nothing failing. -/
theorem run_truncateData (h : s.Shapely) {offset : ℤ} (hop : (EntryOp.truncate p offset).InRange)
    (henv : ∀ n, (env n).FaultFree) :
    ∃ r s', (truncateData p offset).run serve env s = (some r, s')
      ∧ (EntryOp.truncate p offset).Performs s r s'
        (clockReadings (truncateData p offset) env s) := by
  have hn : toSizeT offset = offset.toNat := by
    obtain ⟨h0, hoff⟩ := hop
    have hcast := toSizeT_of_lt (i := offset) h0 (by omega)
    omega
  have hnot : (if offset = 0 then removeData p else Prod.fst <$> updateBlock p none offset
      : Op Text ℤ).Only Req.NotClock := by
    split
    · exact ⟨trivial, fun _ => trivial⟩
    · exact Prog.only_bind (updateBlock_notClock _ _ _) (fun _ => trivial)
  obtain ⟨fr, s₁, hrun₁, hstats, hblock, hcase⟩ := Prog.wp_run (wp_truncateBlock hop) henv
  unfold truncateData
  obtain ⟨env', henv', hrun, hread⟩ := run_bind_readings henv hrun₁ (fun fresult =>
    if fresult ≠ 0 then (pure fresult : Op Text ℤ) else updateStatSize p (toSizeT offset))
  rw [hrun, hread, clockReadings_of_only hnot, List.nil_append, hn]
  obtain ⟨hfr, hre⟩ | ⟨hfr, hresult, hre⟩ := hcase
  · rw [if_neg (not_not.mpr hfr)]
    have hresult : (EntryOp.truncate p offset).result (s.blocks.val p) = 0 := by
      simp only [EntryOp.result]
      rw [if_neg (Int.not_lt.mpr hre.1), if_neg (fun h => hre.2 h.1 h.2)]
    exact EntryOp.run_restat (.truncate p offset) h hstats hre hblock hresult henv'
  · rw [if_pos hfr]
    exact ⟨fr, s₁, rfl, .of_not_restats hre hblock hresult hstats rfl⟩

/-- A read, with nothing failing. -/
theorem run_readData (h : s.Shapely) {nbuf : ℕ} {offset : ℤ}
    (hop : (EntryOp.read p nbuf offset).InRange) (henv : ∀ n, (env n).FaultFree) :
    ∃ r s', (readData p nbuf offset).run serve env s = (some r, s')
      ∧ (EntryOp.read p nbuf offset).Performs s r.1 s'
        (clockReadings (readData p nbuf offset) env s)
      ∧ (s.stats.val p ≠ none → r.2 = ((s.bytesOf p).drop offset.toNat).take nbuf) := by
  obtain ⟨h0, hoff, hrep⟩ := hop
  have hlim : (maxFileLen : ℤ) < 2 ^ 63 := by decide
  obtain ⟨k, hk, habsent, hfound⟩ := @readData_eq Text p nbuf offset
  have hget : (Req.blocks (.get p) : Req Text).NotClock := trivial
  rw [hk, Prog.run_call, clockReadings_call_of_notClock hget, (henv 0).serve_blocks]
  cases hb : s.blocks.docs p with
  | none =>
    have hv := (Kv.Collection.val_eq_none _ _).mpr hb
    have hbytes : s.bytesOf p = [] := Store.bytesOf_of_none hb
    simp only [Kv.Collection.serve, hb]
    rw [habsent]
    refine ⟨(-1, []), s, rfl, .of_not_restats (fun hr => ?_) rfl ?_ rfl rfl, fun _ => ?_⟩
    · have hlt : offset < (s.bytesOf p).length := hr
      rw [hbytes] at hlt
      exact absurd hlt (Int.not_lt.mpr h0)
    · show (-1 : ℤ) = EntryOp.result (s.blocks.val p) _
      rw [hv]
      rfl
    · rw [hbytes, List.drop_nil, List.take_nil]
  | some d =>
    have hv := Kv.Collection.val_of_docs hb
    have hbytes : s.bytesOf p = d.value := Store.bytesOf_of_docs hb
    have hlen := h.blocks p d.value hv
    have hresult : (EntryOp.read p nbuf offset).result (s.blocks.val p)
        = dataDone (toInt ((d.value.drop offset.toNat).take nbuf).length) := by
      rw [hv]
      rfl
    simp only [Kv.Collection.serve, hb]
    rw [hfound d h0 hrep (by omega)]
    by_cases hend : (d.value.length : ℤ) ≤ offset
    · -- the end of the block
      have hnil : (d.value.drop offset.toNat).take nbuf = [] := by
        rw [List.drop_of_length_le (by omega), List.take_nil]
      rw [if_pos hend]
      refine ⟨(0, []), s, rfl, .of_not_restats (fun hr => ?_) rfl ?_ rfl rfl, fun _ => ?_⟩
      · have hlt : offset < (s.bytesOf p).length := hr
        rw [hbytes] at hlt
        omega
      · show (0 : ℤ) = EntryOp.result (s.blocks.val p) _
        rw [hresult, hnil]
        rfl
      · rw [hbytes, hnil]
    · rw [if_neg hend]
      have henv' : ∀ n, (env (n + 1)).FaultFree := fun n => henv (n + 1)
      have hre : (EntryOp.read p nbuf offset).Restats (s.blocks.val p) := by
        show offset < (s.bytesOf p).length
        rw [hbytes]
        omega
      obtain ⟨fr, s', hrun, hperf⟩ := EntryOp.run_restat_bind (g := Prod.fst)
        (.read p nbuf offset) h rfl hre rfl (fun fr => (dataDone (if fr ≠ 0 then fr
            else toInt ((d.value.drop offset.toNat).take nbuf).length),
          (d.value.drop offset.toNat).take nbuf))
        (by dsimp only; rw [if_neg (fun h => h rfl)]; exact hresult.symm) henv'
      exact ⟨_, s', hrun, hperf, fun _ => by rw [hbytes]⟩

/-- **The calls on an entry do what they are for.** -/
theorem run_entryOp_spec (h : s.Shapely) {op : EntryOp} (hop : op.InRange)
    (henv : ∀ n, (env n).FaultFree) :
    ∃ r s', op.code.run serve env s = (some r, s')
      ∧ op.Performs s r s' (clockReadings op.code env s) := by
  -- the calls that are an update of the stat and nothing else
  have hupdate : ∀ op : EntryOp, (∀ v, op.Restats v) → (∀ v, op.Reblocks v v) →
      (∀ v, op.result v = 0) → (op.code : Op Text ℤ) = updateStat op.path op.clock op.change →
      ∃ r s', op.code.run serve env s = (some r, s')
        ∧ op.Performs s r s' (clockReadings op.code env s) := by
    intro op hre hblock hresult hcode
    rw [hcode]
    exact EntryOp.run_restat op h rfl (hre _) (hblock _) (hresult _) henv
  cases op with
  | write p buf offset => exact run_writeData h hop henv
  | truncate p offset => exact run_truncateData h hop henv
  | read p nbuf offset =>
    obtain ⟨⟨r, bytes⟩, s', hrun, hperf, -⟩ := @run_readData Text s p env h nbuf offset hop henv
    obtain ⟨env', -, hrun', hread'⟩ := run_bind_readings henv hrun
      (fun a : ℤ × Bytes => (.ret a.1 : Op Text ℤ))
    refine ⟨r, s', hrun', ?_⟩
    show (EntryOp.read p nbuf offset).Performs s r s'
      (clockReadings (readData p nbuf offset >>= fun a => .ret a.1) env s)
    rw [hread', show clockReadings (.ret r : Op Text ℤ) env' s' = [] from rfl, List.append_nil]
    exact hperf
  | chmod p mode =>
    exact hupdate (.chmod p mode) (fun _ => trivial) (fun _ => rfl) (fun _ => rfl) rfl
  | utimens p tv =>
    exact hupdate (.utimens p tv) (fun _ => trivial) (fun _ => rfl) (fun _ => rfl) rfl

end Runs

/-! ## Nothing gets out of shape -/

theorem EntryOp.Reblocks.length_le {op : EntryOp} (hop : op.InRange) {v w : Option Bytes}
    (h : op.Reblocks v w) (hv : ∀ b, v = some b → b.length ≤ maxFileLen) :
    ∀ b, w = some b → b.length ≤ maxFileLen := by
  have hcut : ∀ {offset : ℤ}, ¬ maxFileLen < offset → Recut offset v w →
      ∀ b, w = some b → b.length ≤ maxFileLen := by
    intro offset hmax hcut b hw
    cases v with
    | none => cases hw.symm.trans (show w = none from hcut)
    | some b₀ =>
      obtain ⟨past, hpast, hw'⟩ := hcut
      cases hw.symm.trans hw'
      rw [List.length_append, List.length_take]
      omega
  cases op with
  | write p buf offset =>
    obtain ⟨h0, -, -⟩ := hop
    simp only [Reblocks] at h
    split at h
    · rwa [h]
    · next hmax =>
      split at h
      · next hnil =>
        subst hnil
        exact hcut (by simpa using hmax) h
      · obtain ⟨b', rfl, hw⟩ := h
        intro b hb
        cases hb
        rw [hw.length]
        cases v with
        | none =>
          simp only [Option.getD_none, List.length_nil]
          omega
        | some b₀ =>
          have hb₀ := hv b₀ rfl
          simp only [Option.getD_some]
          omega
  | truncate p offset =>
    simp only [Reblocks] at h
    split at h
    · rwa [h]
    · next hmax =>
      split at h
      · intro b hb
        cases hb.symm.trans h
      · exact hcut hmax h
  | read p nbuf offset => rwa [show w = v from h]
  | chmod p mode => rwa [show w = v from h]
  | utimens p tv => rwa [show w = v from h]

/-- The mode a call makes an entry with, if it makes any. -/
def TreeOp.mode : TreeOp → Option ℕ
  | create _ mode => some mode
  | mkdir _ mode => some mode
  | _ => none

/-- **What a call on the tree can do to the stat of its path**: leave it,
remove it, or make it where there is none. -/
theorem TreeOp.change_stat_cases [CJson Text] (op : TreeOp) (ts : Timespec) (o : Own Text) :
    (op.change ts o).own.stat = o.stat ∨ (op.change ts o).own.stat = none
      ∨ ∃ mode, op.mode = some mode ∧ o.stat = none
        ∧ (op.change ts o).own.stat = some (.packed (rootStat mode ts)) := by
  cases op with
  | create p mode =>
    simp only [change]
    split
    · exact .inl rfl
    · split
      · exact .inl rfl
      · split
        · exact .inl rfl
        · next hnone => exact .inr (.inr ⟨mode, rfl, not_not.mp hnone, rfl⟩)
  | mkdir p mode =>
    simp only [change]
    split
    · exact .inl rfl
    · next hnone =>
      have hmade : ∃ mode', TreeOp.mode (.mkdir p mode) = some mode' ∧ o.stat = none
          ∧ some (StatDoc.packed (rootStat mode ts)) = some (.packed (rootStat mode' ts)) :=
        ⟨mode, rfl, not_not.mp hnone, rfl⟩
      split
      · exact .inr (.inr hmade)
      · exact .inr (.inr hmade)
  | unlink p => exact .inr (.inl rfl)
  | rmdir p => exact .inr (.inl rfl)

/-- A call on the tree leaves the block of its path, or removes it. -/
theorem TreeOp.change_block_cases [CJson Text] (op : TreeOp) (ts : Timespec) (o : Own Text) :
    (op.change ts o).own.block = o.block ∨ (op.change ts o).own.block = none := by
  cases op with
  | create p mode =>
    simp only [change]
    split
    · exact .inl rfl
    · split
      · exact .inl rfl
      · split <;> exact .inl rfl
  | mkdir p mode =>
    simp only [change]
    split
    · exact .inl rfl
    · split <;> exact .inl rfl
  | unlink p => exact .inr rfl
  | rmdir p => exact .inl rfl

/-- The arguments of the call are in range. -/
def FsOp.InRange : FsOp → Prop
  | tree _ => True
  | entry op => op.InRange

instance : DecidablePred FsOp.InRange := fun op =>
  match op with
  | .tree _ => inferInstanceAs (Decidable True)
  | .entry op => inferInstanceAs (Decidable op.InRange)

/-- A call of a client for which nothing fails. -/
def World.Runs (x : FsOp × (ℕ → Choice)) : Prop := (∀ n, (x.2 n).FaultFree) ∧ x.1.InRange

/-- Calls whose requests are all served under one choice. -/
def World.callsUnder (c : Choice) (ops : List FsOp) : List (FsOp × (ℕ → Choice)) :=
  ops.map (fun op => (op, fun _ => c))

theorem World.runs_callsUnder {c : Choice} (hc : c.FaultFree) {ops : List FsOp}
    (hops : ∀ op ∈ ops, op.InRange) : ∀ x ∈ callsUnder c ops, Runs x := by
  intro x hx
  obtain ⟨op, hop, rfl⟩ := List.mem_map.mp hx
  exact ⟨fun _ => hc, hops op hop⟩

namespace World

variable [CJson Text] {w : World Text} {env : ℕ → Choice} {p : CString}

/-- What a call returns. -/
def result (x : FsOp × (ℕ → Choice)) (w : World Text) : Option ℤ :=
  (x.1.code.run serve x.2 w.store).1

/-- The clock values read in a call. -/
def readings (x : FsOp × (ℕ → Choice)) (w : World Text) : List Timespec :=
  clockReadings x.1.code x.2 w.store

/-- A call on an entry, path by path. -/
theorem step_entry_performs {op : EntryOp} (h : w.store.Shapely) (hop : op.InRange)
    (henv : ∀ n, (env n).FaultFree) :
    ∃ r, op.code.run serve env w.store = (some r, (step (.entry op, env) w).store)
      ∧ op.Performs w.store r (step (.entry op, env) w).store
        (clockReadings op.code env w.store) := by
  obtain ⟨r, s', hrun, hperf⟩ := run_entryOp_spec h hop henv
  have hstep : (step (.entry op, env) w).store = s' := congrArg Prod.snd hrun
  rw [hstep]
  exact ⟨r, hrun, hperf⟩

/-- **A call on an entry that has a stat**, under its own path. -/
theorem run_entry {op : EntryOp} {stat : CbfuseStat} (h : w.store.Shapely) (hop : op.InRange)
    (henv : ∀ n, (env n).FaultFree) (hpath : op.path = p)
    (hs : w.store.stats.val p = some (.packed stat)) :
    ∃ ts, op.code.run serve env w.store
        = (some (op.result (w.store.blocks.val p)), (step (.entry op, env) w).store)
      ∧ (step (.entry op, env) w).store.stats.val p
        = some (.packed (op.restat (w.store.blocks.val p) ts stat))
      ∧ op.Reblocks (w.store.blocks.val p) ((step (.entry op, env) w).store.blocks.val p)
      ∧ readings (.entry op, env) w
        = if op.Restats (w.store.blocks.val p) ∧ op.clock then [ts] else [] := by
  subst hpath
  obtain ⟨r, hrun, hperf⟩ := step_entry_performs h hop henv
  obtain ⟨rfl, ts, hval, hread⟩ := hperf.stat stat hs
  exact ⟨ts, hrun, hval, hperf.block, hread⟩

/-- A call on an entry leaves the stats of other paths. -/
theorem stats_step_entry_ne (op : EntryOp) (env : ℕ → Choice) (w : World Text)
    (hp : p ≠ op.path) :
    (step (.entry op, env) w).store.stats.val p = w.store.stats.val p := by
  obtain ⟨hothers, -⟩ := run_entryOp op env w.store
  exact (Docs.others_eq_iff.mp hothers).1 p hp

theorem shapely_start {env : ℕ → Choice} (henv : ∀ n, (env n).FaultFree) :
    (start env : World Text).store.Shapely := by
  obtain ⟨hstats, hblocks⟩ := @rootStore_bare Text _ env henv
  refine ⟨fun p v hv => ?_, fun p b hb => ?_⟩
  · obtain ⟨stat, hstat, -⟩ := hstats p v hv
    exact ⟨stat, hstat⟩
  · cases (hblocks p).symm.trans hb

/-- A call that makes an entry has read the clock first. -/
theorem head_clockReadings_tree {op : TreeOp} {ts : Timespec} (henv : (env 0).now = some ts)
    (hop : op.mode ≠ none) {o : Own Text} (hmade : (op.change ts o).own.stat ≠ o.stat)
    (s : Store Text) : (clockReadings op.code env s).head? = some ts := by
  have hinsert : ∀ (path : CString) (mode : ℕ) (f : ℤ → Op Text ℤ),
      (clockReadings (insertStat path mode >>= f) env s).head? = some ts := by
    intro path mode f
    rw [insertStat_eq, Prog.call_bind, clockReadings_call, henv]
    rfl
  cases op with
  | create p mode =>
    simp only [TreeOp.change] at hmade
    show (clockReadings (cbfuseCreate p mode) env s).head? = some ts
    unfold cbfuseCreate
    split at hmade
    · exact absurd rfl hmade
    · next hreg =>
      split at hmade
      · exact absurd rfl hmade
      · next hlen =>
        rw [if_neg hreg, if_neg hlen]
        exact hinsert _ _ _
  | mkdir p mode =>
    show (clockReadings (cbfuseMkdir p mode) env s).head? = some ts
    unfold cbfuseMkdir
    rw [if_neg (or_sIfdir_ne_zero mode)]
    exact hinsert _ _ _
  | unlink p => exact absurd rfl hop
  | rmdir p => exact absurd rfl hop

/-- **A call on the tree, stat by stat**: the stat of its path is left,
removed, or made where there was none. -/
theorem step_tree_stat (op : TreeOp) (w : World Text) (henv : ∀ n, (env n).FaultFree) :
    (∀ k, k ≠ op.path →
        (step (.tree op, env) w).store.stats.val k = w.store.stats.val k)
      ∧ ((step (.tree op, env) w).store.stats.val op.path = w.store.stats.val op.path
        ∨ (step (.tree op, env) w).store.stats.val op.path = none
        ∨ ∃ mode ts, op.mode = some mode ∧ w.store.stats.val op.path = none
          ∧ (step (.tree op, env) w).store.stats.val op.path
            = some (.packed (rootStat mode ts))
          ∧ (readings (.tree op, env) w).head? = some ts) := by
  obtain ⟨ts, hts⟩ := (henv 0).exists_now
  obtain ⟨s', hrun, hs'⟩ := run_treeOp op w.store henv hts
  have hstep : (step (.tree op, env) w).store = s' := congrArg Prod.snd hrun
  have hbec := Store.Becomes.of_apply hs'
  rw [hstep]
  refine ⟨hbec.stats_ne, ?_⟩
  rw [hbec.stat]
  obtain he | he | ⟨mode, hmode, hnone, he⟩ := op.change_stat_cases ts (w.store.docs.own op.path)
  · exact .inl he
  · exact .inr (.inl he)
  · refine .inr (.inr ⟨mode, ts, hmode, hnone, he, ?_⟩)
    refine @head_clockReadings_tree _ _ env op ts hts (by rw [hmode]; exact Option.some_ne_none _)
      (w.store.docs.own op.path) ?_ w.store
    rw [he, hnone]
    exact Option.some_ne_none _

/-- **What a call can do to the stat of `p`.** -/
inductive StatStep (p : CString) (x : FsOp × (ℕ → Choice)) (w : World Text) :
    Option CbfuseStat → Option CbfuseStat → Prop where
  /-- The stat is not there afterwards. -/
  | gone (o : Option CbfuseStat) : StatStep p x w o none
  /-- A call on the tree leaves it, and so does a call on another path. -/
  | kept (hx : x.1.path = p → ∃ op, x.1 = .tree op) (o : Option CbfuseStat) : StatStep p x w o o
  /-- A call on the tree makes it. -/
  | made {op : TreeOp} {mode : ℕ} {ts : Timespec} (hx : x.1 = .tree op) (hpath : op.path = p)
      (hmode : op.mode = some mode) (hread : (readings x w).head? = some ts) :
      StatStep p x w none (some (rootStat mode ts))
  /-- A call on the entry changes it. -/
  | changed {op : EntryOp} {stat : CbfuseStat} {ts : Timespec} (hx : x.1 = .entry op)
      (hpath : op.path = p) (hresult : result x w = some (op.result (w.store.blocks.val p)))
      (hread : readings x w = if op.Restats (w.store.blocks.val p) ∧ op.clock then [ts] else []) :
      StatStep p x w (some stat) (some (op.restat (w.store.blocks.val p) ts stat))

/-- **Stat by stat**, a call does one of these things. -/
theorem statStep (h : w.store.Shapely) {x : FsOp × (ℕ → Choice)} (hx : Runs x) (p : CString) :
    StatStep p x w (w.store.statAt p) ((step x w).store.statAt p) := by
  obtain ⟨op, env⟩ := x
  obtain ⟨henv, hop⟩ := hx
  cases op with
  | tree op =>
    obtain ⟨hne, hcase⟩ := step_tree_stat op w henv
    by_cases hp : p = op.path
    · subst hp
      obtain he | he | ⟨mode, ts, hmode, hnone, he, hread⟩ := hcase
      · rw [Store.statAt_congr he]
        exact .kept (fun _ => ⟨op, rfl⟩) _
      · rw [Store.statAt_of_none he]
        exact .gone _
      · rw [Store.statAt_of_none hnone, Store.statAt_of_val he]
        exact .made rfl rfl hmode hread
    · rw [Store.statAt_congr (hne p hp)]
      exact .kept (fun _ => ⟨op, rfl⟩) _
  | entry op =>
    by_cases hp : p = op.path
    · subst hp
      obtain hnone | ⟨stat, hs⟩ := em (w.store.stats.val op.path = none) |>.imp_right h.exists_stat
      · have hnone' := ((step_entry op env w).1 op.path).mpr hnone
        rw [Store.statAt_of_none hnone']
        exact .gone _
      · obtain ⟨ts, hrun, hval, -, hread⟩ := run_entry h hop henv rfl hs
        rw [Store.statAt_of_val hs, Store.statAt_of_val hval]
        exact .changed rfl rfl (congrArg Prod.fst hrun) hread
    · rw [Store.statAt_congr (stats_step_entry_ne op env w hp)]
      exact .kept (fun hpath => absurd hpath.symm hp) _

/-- **No call gets a store out of shape.** -/
theorem shapely_step (x : FsOp × (ℕ → Choice)) (w : World Text) (h : w.store.Shapely)
    (hx : Runs x) : (step x w).store.Shapely := by
  obtain ⟨op, env⟩ := x
  obtain ⟨henv, hop⟩ := hx
  cases op with
  | tree op =>
    obtain ⟨ts, hbec⟩ := step_tree op w henv
    refine ⟨fun p v hv => ?_, fun p b hb => ?_⟩
    · by_cases hp : p = op.path
      · subst hp
        rw [hbec.stat] at hv
        obtain he | he | ⟨mode, -, -, he⟩ := op.change_stat_cases ts (w.store.docs.own op.path)
        · exact h.stats _ v (he.symm.trans hv)
        · cases he.symm.trans hv
        · cases he.symm.trans hv
          exact ⟨_, rfl⟩
      · rw [hbec.stats_ne p hp] at hv
        exact h.stats p v hv
    · by_cases hp : p = op.path
      · subst hp
        rw [hbec.block] at hb
        obtain he | he := op.change_block_cases ts (w.store.docs.own op.path)
        · exact h.blocks _ b (he.symm.trans hb)
        · cases he.symm.trans hb
      · rw [hbec.blocks_ne p hp] at hb
        exact h.blocks p b hb
  | entry op =>
    obtain ⟨r, -, hperf⟩ := step_entry_performs h hop henv
    obtain ⟨hnone, -, hblocks⟩ := step_entry op env w
    refine ⟨fun p v hv => ?_, fun p b hb => ?_⟩
    · by_cases hp : p = op.path
      · subst hp
        obtain ⟨stat, hs⟩ := @Store.Shapely.exists_stat _ _ op.path h
          (fun h₀ => Option.some_ne_none v (hv.symm.trans ((hnone op.path).mpr h₀)))
        obtain ⟨-, ts, hval, -⟩ := hperf.stat stat hs
        exact ⟨_, Option.some.inj (hv.symm.trans hval)⟩
      · rw [stats_step_entry_ne op env w hp] at hv
        exact h.stats p v hv
    · by_cases hp : p = op.path
      · subst hp
        exact hperf.block.length_le hop (h.blocks _) b hb
      · rw [hblocks p (.inl hp)] at hb
        exact h.blocks p b hb

/-- Every run of calls in range leaves a shapely store. -/
theorem shapely_final {env₀ : ℕ → Choice} (henv₀ : ∀ n, (env₀ n).FaultFree)
    {calls : List (FsOp × (ℕ → Choice))} (hcalls : ∀ x ∈ calls, Runs x) :
    (Machine.final step calls (start env₀ : World Text)).store.Shapely := by
  have halong := Machine.along_of_meets step
    (fun x (w : World Text) h hx => shapely_step x w h hx) (shapely_start henv₀)
    (Machine.meets_of_forall hcalls)
  exact halong.final

end World

end Cbfuse

import Cbfuse.Attributes

/-!
# Modification times

A program that watches a file goes by its modification time, the time of the
last data modification as the stat struct has it. The code sets it along with
the size, and so only where the size may have changed: a truncation always
sets it, and a write sets it where it made the block longer. A write over
bytes that were there leaves the time as it was (`mtime_follows_iff`).

That two states of a file have different times is then a matter of the clock.
Every time of the run is a clock value read in some call of it, or one a
`utimens` was given (`World.mtimeOf_final`); and a clock value read after a
write was not read before it.
-/

namespace Cbfuse

variable {Text : Type} [CJson Text]

/-- The modification time of an entry, where it has a stat to tell it. -/
def Store.mtimeOf {Text : Type} (s : Store Text) (p : CString) : Option Timespec :=
  (s.statAt p).map CbfuseStat.mtime

/-- One time is before another. -/
def Timespec.Before (a b : Timespec) : Prop :=
  a.tvSec < b.tvSec ∨ a.tvSec = b.tvSec ∧ a.tvNsec < b.tvNsec

instance : DecidableRel Timespec.Before := fun _ _ =>
  inferInstanceAs (Decidable (_ < _ ∨ _ = _ ∧ _ < _))

theorem Timespec.not_before_self (a : Timespec) : ¬ a.Before a := by
  unfold Before
  omega

namespace World

/-! ## What is asked of a run -/

/-- **The call changed the data of `p`**: a write of at least one byte that
returned its length, or a truncation that returned zero, of an entry that has
a stat. -/
def ChangesData (p : CString) (x : FsOp × (ℕ → Choice)) (w : World Text) : Prop :=
  w.store.stats.val p ≠ none ∧
    match x.1 with
    | .entry (.write q buf _) => q = p ∧ buf ≠ [] ∧ result x w = some (buf.length : ℤ)
    | .entry (.truncate q _) => q = p ∧ result x w = some 0
    | _ => False

/-- **The modification time follows the data**: where the call changed it, the
time is a clock value read in the call. -/
def StampsData (x : FsOp × (ℕ → Choice)) (w : World Text) : Prop :=
  ∀ p, ChangesData p x w → ∃ ts ∈ readings x w, (step x w).store.mtimeOf p = some ts

/-- The clock values read in a run. -/
def clockValues : List (FsOp × (ℕ → Choice)) → World Text → List Timespec
  | [], _ => []
  | x :: calls, w => readings x w ++ clockValues calls (step x w)

/-- Some call set the modification time of `p` to a value it was given. -/
def SetByUtimens (calls : List (FsOp × (ℕ → Choice))) (p : CString) (ts : Timespec) : Prop :=
  ∃ tv₀ env, (FsOp.entry (.utimens p (some (tv₀, ts))), env) ∈ calls
    ∧ ts.tvNsec ≠ utimeNow ∧ ts.tvNsec ≠ utimeOmit

/-- The clock values read when the root was made. -/
def rootReadings (Text : Type) [CJson Text] (env₀ : ℕ → Choice) : List Timespec :=
  clockReadings (insertRoot : Op Text ℤ) env₀ Store.empty

/-- **The clock goes forward** all through the run, from the making of the
root on. -/
def ClockIncreases (Text : Type) [CJson Text] (env₀ : ℕ → Choice)
    (calls : List (FsOp × (ℕ → Choice))) : Prop :=
  (rootReadings Text env₀ ++ clockValues calls (start env₀ : World Text)).Pairwise Timespec.Before

/-- **Modification times tell states apart**: two states of a run between which
the data of `p` was changed have different times, unless a call has set the
time they have in common. -/
def TimesDiffer (Text : Type) [CJson Text] (env₀ : ℕ → Choice)
    (calls : List (FsOp × (ℕ → Choice))) : Prop :=
  ∀ p xs ys x zs rest ts, calls = xs ++ (ys ++ (x :: zs ++ rest)) →
    let w₁ : World Text := Machine.final step xs (start env₀)
    let w : World Text := Machine.final step ys w₁
    let w₂ : World Text := Machine.final step zs (step x w)
    ChangesData p x w → w₁.store.mtimeOf p = some ts → w₂.store.mtimeOf p = some ts →
      SetByUtimens (xs ++ (ys ++ x :: zs)) p ts

/-- **The write makes its block longer**, where it is one that can succeed: of
at least one byte, and as many as an `int` can tell, to an entry that has a
stat, and within the limit of the file length. -/
def Lengthens (x : FsOp × (ℕ → Choice)) (w : World Text) : Prop :=
  ∀ p buf offset, x.1 = .entry (.write p buf offset) → w.store.stats.val p ≠ none →
    buf ≠ [] → buf.length < 2 ^ 31 → offset + buf.length ≤ maxFileLen →
    (w.store.bytesOf p).length < offset + buf.length

/-! ## Where a modification time comes from -/

section Times

variable {p : CString} {ts : Timespec} {w : World Text} {calls : List (FsOp × (ℕ → Choice))}

omit [CJson Text] in
theorem SetByUtimens.mono {calls' : List (FsOp × (ℕ → Choice))} (h : SetByUtimens calls p ts)
    (hsub : ∀ x ∈ calls, x ∈ calls') : SetByUtimens calls' p ts := by
  obtain ⟨tv₀, env, hmem, hts⟩ := h
  exact ⟨tv₀, env, hsub _ hmem, hts⟩

/-- **Where a modification time comes from**, call by call: it was there, or
is a clock value read in the call, or the call was given it. -/
theorem mtimeOf_step (hs : w.store.Shapely) {x : FsOp × (ℕ → Choice)} (hx : Runs x)
    (h : (step x w).store.mtimeOf p = some ts) :
    w.store.mtimeOf p = some ts ∨ ts ∈ readings x w ∨ SetByUtimens [x] p ts := by
  have hstep := statStep hs hx p
  unfold Store.mtimeOf at h ⊢
  generalize w.store.statAt p = before at hstep ⊢
  generalize (step x w).store.statAt p = after at hstep h
  cases hstep with
  | gone => cases h
  | kept => exact .inl h
  | made hop hpath hmode hread =>
    cases h
    exact .inr (.inl (List.mem_of_head? hread))
  | @changed op stat ts₀ hop hpath hresult hread =>
    have hmtime : (op.restat (w.store.blocks.val p) ts₀ stat).mtime = ts := Option.some.inj h
    unfold EntryOp.restat at hmtime
    split at hmtime
    · next hre =>
      have hstamp : (op.change ts₀ stat).mtime = ts₀ → op.clock = true → ts ∈ readings x w := by
        intro hts hclock
        rw [hread, if_pos ⟨hre, hclock⟩, ← hmtime, hts]
        exact List.mem_cons_self ..
      cases op with
      | write q buf offset => exact .inr (.inl (hstamp rfl rfl))
      | truncate q offset => exact .inr (.inl (hstamp rfl rfl))
      | read q nbuf offset => exact .inl (congrArg some hmtime)
      | chmod q mode => exact .inl (congrArg some hmtime)
      | utimens q tv =>
        have hsets := utimensSets_of_readings Prod.snd
          (fun tv h => by simp [utimensNeedsClock, h]) hread
        change (stat.utimens tv ts₀).mtime = ts at hmtime
        rw [CbfuseStat.mtime_utimens, ← hsets] at hmtime
        obtain hclock | hnone | ⟨⟨tv₀, tv₁⟩, rfl, hgiven, hnow, homit⟩ :=
          utimensSets_cases Prod.snd (clock x w) tv
        · -- the clock, if it was read
          rw [hclock] at hmtime
          cases hc : clock x w with
          | none =>
            rw [hc] at hmtime
            exact .inl (congrArg some hmtime)
          | some ts₁ =>
            rw [hc] at hmtime
            exact .inr (.inl (List.mem_of_head? (hc.trans (congrArg some hmtime))))
        · rw [hnone] at hmtime
          exact .inl (congrArg some hmtime)
        · rw [hgiven] at hmtime
          have hts : tv₁ = ts := hmtime
          subst hts
          obtain ⟨op', env⟩ := x
          cases hop
          cases (show q = p from hpath)
          exact .inr (.inr ⟨tv₀, env, List.mem_cons_self .., hnow, homit⟩)
    · exact .inl (congrArg some hmtime)

/-- **Where a modification time comes from, run by run**: it was there at first,
the clock showed it, or a call set it. -/
theorem mtimeOf_final (hs : w.store.Shapely) (hcalls : ∀ x ∈ calls, Runs x)
    (h : (Machine.final step calls w).store.mtimeOf p = some ts) :
    w.store.mtimeOf p = some ts ∨ ts ∈ clockValues calls w ∨ SetByUtimens calls p ts := by
  induction calls generalizing w with
  | nil => exact .inl h
  | cons x calls ih =>
    have hx : Runs x := hcalls x (List.mem_cons_self ..)
    obtain hnext | hread | hset := ih (shapely_step x w hs hx)
      (fun y hy => hcalls y (List.mem_cons_of_mem x hy)) h
    · obtain hbefore | hread | hset := mtimeOf_step hs hx hnext
      · exact .inl hbefore
      · exact .inr (.inl (List.mem_append_left _ hread))
      · exact .inr (.inr (hset.mono (fun y hy => by
          rw [List.mem_singleton.mp hy]
          exact List.mem_cons_self ..)))
    · exact .inr (.inl (List.mem_append_right _ hread))
    · exact .inr (.inr (hset.mono (fun y hy => List.mem_cons_of_mem x hy)))

theorem clockValues_append (xs ys : List (FsOp × (ℕ → Choice))) (w : World Text) :
    clockValues (xs ++ ys) w = clockValues xs w ++ clockValues ys (Machine.final step xs w) := by
  induction xs generalizing w with
  | nil => rfl
  | cons x xs ih =>
    show readings x w ++ clockValues (xs ++ ys) (step x w) = _
    rw [ih, ← List.append_assoc]
    rfl

/-- The time of the root is a clock value read when it was made. -/
theorem mtimeOf_start {env₀ : ℕ → Choice} (henv₀ : ∀ n, (env₀ n).FaultFree)
    (h : (start env₀ : World Text).store.mtimeOf p = some ts) : ts ∈ rootReadings Text env₀ := by
  obtain ⟨ts₀, hnow⟩ := (henv₀ 0).exists_now
  have hread : ts₀ ∈ rootReadings Text env₀ := by
    unfold rootReadings insertRoot
    rw [insertStat_eq, Prog.call_bind, clockReadings_call, hnow]
    exact List.mem_cons_self ..
  change (rootStore env₀).mtimeOf p = some ts at h
  rw [rootStore_of_now henv₀ hnow] at h
  unfold Store.mtimeOf Store.statAt at h
  simp only [Store.stats_putDentry, Store.stats_putStat, Kv.Collection.val_put] at h
  split_ifs at h
  · cases h
    exact hread
  · cases h

end Times

/-! ## Which calls set it -/

section Stamps

variable {p : CString} {w : World Text} {env : ℕ → Choice}

/-- A call that gets as far as the stat, and sets the time to the clock. -/
theorem stamps_of_restats {op : EntryOp} (hs : w.store.Shapely) (hx : Runs (.entry op, env))
    (hpath : op.path = p) (hp : w.store.stats.val p ≠ none)
    (hre : op.Restats (w.store.blocks.val p)) (hclock : op.clock = true)
    (hmtime : ∀ ts stat, (op.change ts stat).mtime = ts) :
    ∃ ts ∈ readings (.entry op, env) w,
      (step (.entry op, env) w).store.mtimeOf p = some ts := by
  obtain ⟨stat, hstat⟩ := hs.exists_stat hp
  obtain ⟨ts, -, hval, -, hread⟩ := run_entry hs hx.2 hx.1 hpath hstat
  refine ⟨ts, ?_, ?_⟩
  · rw [hread, if_pos ⟨hre, hclock⟩]
    exact List.mem_cons_self ..
  · unfold Store.mtimeOf EntryOp.restat at *
    rw [Store.statAt_of_val hval, if_pos hre, Option.map_some, hmtime]

/-- What a call returns, on an entry that has a stat. -/
theorem result_entry {op : EntryOp} (hs : w.store.Shapely) (hx : Runs (.entry op, env))
    (hpath : op.path = p) (hp : w.store.stats.val p ≠ none) :
    result (.entry op, env) w = some (op.result (w.store.blocks.val p)) := by
  obtain ⟨stat, hstat⟩ := hs.exists_stat hp
  obtain ⟨ts, hrun, -⟩ := run_entry hs hx.2 hx.1 hpath hstat
  exact congrArg Prod.fst hrun

omit [CJson Text] in
/-- A write returns its length exactly if it is within the limit, and its
length an `int`. -/
theorem result_write_iff {buf : Bytes} {offset : ℤ} (v : Option Bytes) :
    (EntryOp.write p buf offset).result v = buf.length
      ↔ buf.length < 2 ^ 31 ∧ offset + buf.length ≤ maxFileLen := by
  show (if maxFileLen < offset + buf.length then -1 else dataDone (toInt buf.length)) = _ ↔ _
  have hlt : toInt buf.length < 2 ^ 31 := Int.bmod_lt (by decide)
  split
  · next hmax => exact iff_of_false (by omega) (fun h => by omega)
  · next hmax =>
    refine ⟨fun h => ⟨?_, by omega⟩, fun h => ?_⟩
    · unfold dataDone at h
      split at h <;> omega
    · exact dataDone_toInt h.1

omit [CJson Text] in
/-- A truncation that returns zero gets as far as the stat. -/
theorem restats_of_truncate {offset : ℤ} {v : Option Bytes}
    (h : (EntryOp.truncate p offset).result v = 0) : (EntryOp.truncate p offset).Restats v := by
  have hbig : (-efbig : ℤ) ≠ 0 := by decide
  have hent : (-enoent : ℤ) ≠ 0 := by decide
  unfold EntryOp.result at h
  dsimp only at h
  split_ifs at h with hmax hnone
  · exact absurd h hbig
  · exact absurd h hent
  · exact ⟨Int.not_lt.mp hmax, fun h0 hv => hnone ⟨h0, hv⟩⟩

/-- **Which calls set the modification time**: where nothing fails, every call
that changes data, but for a write that does not make its block longer. -/
theorem stampsData_iff (hs : w.store.Shapely) {x : FsOp × (ℕ → Choice)} (hx : Runs x) :
    StampsData x w ↔ Lengthens x w := by
  obtain ⟨op, env⟩ := x
  cases op with
  | tree op => exact iff_of_true (fun p h => h.2.elim) (fun _ _ _ h => by cases h)
  | entry op =>
    cases op with
    | read q nbuf offset => exact iff_of_true (fun p h => h.2.elim) (fun _ _ _ h => by cases h)
    | chmod q mode => exact iff_of_true (fun p h => h.2.elim) (fun _ _ _ h => by cases h)
    | utimens q tv => exact iff_of_true (fun p h => h.2.elim) (fun _ _ _ h => by cases h)
    | truncate q offset =>
      refine iff_of_true (fun p h => ?_) (fun _ _ _ h => by cases h)
      obtain ⟨hp, hpath, hr⟩ := h
      rw [result_entry hs hx hpath hp] at hr
      exact stamps_of_restats hs hx hpath hp (restats_of_truncate (Option.some.inj hr)) rfl
        (fun _ _ => rfl)
    | write q buf offset =>
      constructor
      · intro h p buf' offset' hop hp hbuf hlen hmax
        cases hop
        have hr := result_entry hs hx rfl hp
        rw [(result_write_iff _).mpr ⟨hlen, hmax⟩] at hr
        obtain ⟨ts, hmem, -⟩ := h q ⟨hp, rfl, hbuf, hr⟩
        obtain ⟨stat, hstat⟩ := hs.exists_stat hp
        have hop : (EntryOp.write q buf offset).InRange := hx.2
        obtain ⟨ts', -, -, -, hread⟩ := run_entry hs hop hx.1 rfl hstat
        rw [hread] at hmem
        split_ifs at hmem with hre
        · have hlt : (w.store.bytesOf q).length < offset.toNat + buf.length := hre.1.2.2
          have h0 : 0 ≤ offset := hx.2.1
          omega
        · cases hmem
      · intro h p hchange
        obtain ⟨hp, hpath, hbuf, hr⟩ := hchange
        rw [result_entry hs hx hpath hp] at hr
        obtain ⟨hlen, hmax⟩ := (result_write_iff _).mp (Option.some.inj hr)
        cases (show q = p from hpath)
        have hlt := h q buf offset rfl hp hbuf hlen hmax
        have h0 : 0 ≤ offset := hx.2.1
        have hre : (EntryOp.write q buf offset).Restats (w.store.blocks.val q) :=
          ⟨hbuf, hmax, show (w.store.bytesOf q).length < _ by omega⟩
        exact stamps_of_restats hs hx rfl hp hre rfl (fun _ _ => rfl)

end Stamps

/-! ## Runs -/

section Run

variable {env₀ : ℕ → Choice} {calls : List (FsOp × (ℕ → Choice))}

/-- **With a clock that goes forward, times tell states apart**, where every
call that changes data sets the time. -/
theorem timesDiffer_of_stamps (henv₀ : ∀ n, (env₀ n).FaultFree) (hcalls : ∀ x ∈ calls, Runs x)
    (hstamps : Machine.Meets step StampsData calls (start env₀ : World Text))
    (hclock : ClockIncreases Text env₀ calls) : TimesDiffer Text env₀ calls := by
  rintro p xs ys x zs rest ts rfl w₁ w w₂ hchange h₁ h₂
  have hxzs : ∀ y ∈ x :: zs, Runs y := fun y hy =>
    hcalls y (List.mem_append_right _ (List.mem_append_right _ (List.mem_append_left _ hy)))
  have hw : w.store.Shapely := by
    have hfinal := @shapely_final Text _ env₀ henv₀ (xs ++ ys) (fun y hy => hcalls y (by
      rw [← List.append_assoc]
      exact List.mem_append_left _ hy))
    rwa [Machine.final_append] at hfinal
  have hstamp : StampsData x w := by
    rw [Machine.meets_append, Machine.meets_append] at hstamps
    exact hstamps.2.2.1
  obtain ⟨tx, hread, htx⟩ := hstamp p hchange
  by_contra hset
  -- the later time is a clock value read from the write on
  have hlater : ts ∈ clockValues (x :: zs) w := by
    obtain hkept | hmem | hgiven := mtimeOf_final
      (shapely_step x w hw (hxzs x (List.mem_cons_self ..)))
      (fun y hy => hxzs y (List.mem_cons_of_mem x hy)) h₂
    · cases htx.symm.trans hkept
      exact List.mem_append_left _ hread
    · exact List.mem_append_right _ hmem
    · exact absurd (hgiven.mono (fun y hy => by simp [hy])) hset
  -- and the earlier one a value read before it
  have hearlier : ts ∈ rootReadings Text env₀ ++ clockValues xs (start env₀ : World Text) := by
    obtain hroot | hmem | hgiven := mtimeOf_final (shapely_start henv₀)
      (fun y hy => hcalls y (List.mem_append_left _ hy)) h₁
    · exact List.mem_append_left _ (mtimeOf_start henv₀ hroot)
    · exact List.mem_append_right _ hmem
    · exact absurd (hgiven.mono (fun y hy => List.mem_append_left _ hy)) hset
  unfold ClockIncreases at hclock
  rw [clockValues_append, clockValues_append, clockValues_append, ← List.append_assoc] at hclock
  have hbefore := (List.pairwise_append.mp hclock).2.2 ts hearlier ts
    (List.mem_append_right _ (List.mem_append_left _ hlater))
  exact Timespec.not_before_self ts hbefore

/-- **When the modification time follows the data.** In every run of a client
with nothing failing: the time a call that changes data leaves is a clock
value read in the call, and with a clock that goes forward two states between
which the data was changed never have the same time unless a call set it –
exactly if every write of the run makes its block longer. -/
theorem mtime_follows_iff (henv₀ : ∀ n, (env₀ n).FaultFree) (hcalls : ∀ x ∈ calls, Runs x) :
    (Machine.Meets step StampsData calls (start env₀ : World Text)
        ∧ (ClockIncreases Text env₀ calls → TimesDiffer Text env₀ calls))
      ↔ Machine.Meets step Lengthens calls (start env₀ : World Text) := by
  rw [← Machine.meets_congr shapely_step (fun x w hs hx => stampsData_iff hs hx)
    (shapely_start henv₀) (Machine.meets_of_forall hcalls)]
  exact ⟨fun h => h.1, fun h => ⟨h, timesDiffer_of_stamps henv₀ hcalls h⟩⟩

end Run

end World

open World

/-- A file is written, and a byte is written behind what is there. -/
theorem mtime_follows_iff_append :
    let g : ℕ → Choice := fun _ => .good ⟨3, 0⟩
    let calls := callsUnder (.good ⟨3, 0⟩) [.tree (.create ['/', 'f'] (sIfreg ||| 0o644)),
      .entry (.write ['/', 'f'] [1, 2, 3] 0), .entry (.write ['/', 'f'] [9] 3)]
    Machine.Meets step StampsData calls (start g : World (Option Json)) := by
  intro g calls
  have hff : ∀ n, (g n).FaultFree := fun _ => Choice.faultFree_good _
  have hcalls : ∀ x ∈ calls, Runs x := runs_callsUnder (Choice.faultFree_good _) (by decide)
  refine ((mtime_follows_iff hff hcalls).mpr ⟨?_, ?_, ?_, trivial⟩).1
  · rintro p buf offset h - - - -
    cases h
  · rintro p buf offset h - - - -
    cases h
    decide
  · rintro p buf offset h - - - -
    cases h
    decide

/-- The first byte of a file is written over. The clock goes forward, and the
call reads it not once: the file has the time it had. -/
theorem mtime_kept_by_write :
    let g : ℤ → ℕ → Choice := fun sec _ => .good ⟨sec, 0⟩
    let before := [(FsOp.tree (.create ['/', 'f'] (sIfreg ||| 0o644)), g 2),
      (FsOp.entry (.write ['/', 'f'] [1, 2, 3] 0), g 3)]
    let x := (FsOp.entry (.write ['/', 'f'] [9] 0), g 4)
    let w : World (Option Json) := Machine.final step before (start (g 1))
    (result x w = some 1 ∧ (step x w).store.bytesOf ['/', 'f'] = [9, 2, 3]
        ∧ w.store.mtimeOf ['/', 'f'] = some ⟨3, 0⟩
        ∧ (step x w).store.mtimeOf ['/', 'f'] = some ⟨3, 0⟩ ∧ readings x w = [])
      ∧ ¬ StampsData x w
      ∧ ClockIncreases (Option Json) (g 1) (before ++ [x])
      ∧ ¬ TimesDiffer (Option Json) (g 1) (before ++ [x]) := by
  intro g before x w
  have hresult : result x w = some 1 := by decide
  have hreads : readings x w = [] := by decide
  have hbefore : w.store.mtimeOf ['/', 'f'] = some ⟨3, 0⟩ := by decide
  have hafter : (step x w).store.mtimeOf ['/', 'f'] = some ⟨3, 0⟩ := by decide
  have hchange : ChangesData ['/', 'f'] x w :=
    ⟨by decide, rfl, by decide, hresult⟩
  refine ⟨⟨hresult, by decide, hbefore, hafter, hreads⟩, fun h => ?_, ?_, fun h => ?_⟩
  · obtain ⟨ts, hmem, -⟩ := h _ hchange
    rw [hreads] at hmem
    cases hmem
  · unfold ClockIncreases
    decide
  · have hset := h ['/', 'f'] before [] x [] [] ⟨3, 0⟩ rfl
    simp only [Machine.final_nil] at hset
    obtain ⟨tv₀, env, hmem, -⟩ := hset hchange hbefore hafter
    simp [before, x] at hmem

end Cbfuse

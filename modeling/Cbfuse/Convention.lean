import Cbfuse.Completion
import Cbfuse.Memory

/-!
# The convention of FUSE, kept and broken

A call that keeps to the convention of FUSE first of all returns. What a process
dies of is memory: a copy of a stat or of a block that there was none for, a
buffer that a range is not within, the end of one with nothing behind it.
`EntryOp.Survives` says of every call on an entry, by what it is given, by the
block it finds and by what becomes of its requests, when it is spared all of
this, and it comes to its end exactly then (`EntryOp.survives_iff`). No other
call works on bytes, and all there is to die of in these is the copy of a stat.

What a call returns is then zero, an error or a number of bytes – unless a path
is too long, or the last answer of the filler is passed on and positive
(`FuseOp.code_obeys_iff`).
-/

namespace Cbfuse

variable {Text β : Type}

/-! ## The stat -/

/-- **A fetch of a stat that kills**: it finds one of the right size, and has no
memory for the copy of it. -/
def StatKills (c : Choice) (s : Store Text) (p : CString) : Prop :=
  StatUncopied c s p ∧ ∃ stat, s.stats.val p = some (.packed stat)

/-- Whether a fetch of a stat kills depends on the stats alone. -/
theorem statKills_congr {c : Choice} {s s' : Store Text} {p : CString} (h : s'.stats = s.stats) :
    StatKills c s' p ↔ StatKills c s p := by
  unfold StatKills StatUncopied
  rw [h]

section Stat

variable {p : CString} {s : Store Text} {env : ℕ → Choice} {α : Type}

/-- `get_stat` makes nothing of the reply to a fetch that kills, and something of
every other. -/
theorem statReply_eq_none_iff (c : Choice) (s : Store Text) (p : CString) :
    statReply (serve c (.stats (.get p)) s).1 = none ↔ StatKills c s p := by
  rw [serve_stats_get]
  obtain ⟨⟨v, cas⟩, hs, hd, hr⟩ | ⟨e, hf, hr⟩ | ⟨-, hnone, e, hr⟩ :=
    Kv.Collection.answer_get_cases c.fate s.stats p
  · have hval := Kv.Collection.val_of_docs hd
    rw [hr]
    unfold StatKills StatUncopied
    rw [hval]
    cases v with
    | malformed n hn =>
      refine iff_of_false (fun h => ?_) (fun h => ?_)
      · cases h
      · obtain ⟨-, stat, hstat⟩ := h
        cases hstat
    | packed stat =>
      cases hcopy : c.alloc with
      | true => exact iff_of_false (fun h => by cases h) (fun h => by cases h.1.2.2)
      | false => exact iff_of_true rfl ⟨⟨hs, Option.some_ne_none _, rfl⟩, stat, rfl⟩
  · rw [hr]
    refine iff_of_false (fun h => by cases h) (fun h => ?_)
    cases hf.symm.trans h.1.1
  · rw [hr]
    refine iff_of_false (fun h => by cases h) (fun h => h.1.2.1 ?_)
    exact (Kv.Collection.val_eq_none _ _).mpr (hnone h.1.1)

/-- The end of an update dies of nothing. -/
theorem replaceStat_diesOnly (clock : Bool) (change : Timespec → CbfuseStat → CbfuseStat)
    (stat : CbfuseStat) (cas : ℕ) :
    (replaceStat p clock change stat cas : Op Text ℤ).DiesOnly (fun _ _ => False) := by
  unfold replaceStat
  split
  · intro now _
    cases now with
    | none => trivial
    | some ts => exact fun _ _ => trivial
  · exact fun _ _ => trivial

/-- **What starts with the fetch of a stat** and dies of nothing else survives
unless that kills. -/
theorem fetchStat_survives_iff {f : Response StatDoc → Op Text α}
    (hsome : ∀ resp r, statReply resp = some r → (f resp).DiesOnly (fun _ _ => False))
    (hnone : ∀ resp, statReply resp = none → f resp = .crash) :
    (Prog.call (.stats (.get p)) f).Survives serve env s ↔ ¬ StatKills (env 0) s p := by
  rw [Prog.survives_call, ← statReply_eq_none_iff]
  cases hr : statReply (serve (env 0) (.stats (.get p)) s).1 with
  | none =>
    rw [hnone _ hr]
    exact iff_of_false Prog.not_survives_crash (fun h => h rfl)
  | some r => exact iff_of_true (hsome _ r hr).survives (Option.some_ne_none r)

/-- An update of a stat dies of nothing but its fetch. -/
theorem updateStat_survives_iff (clock : Bool) (change : Timespec → CbfuseStat → CbfuseStat) :
    (updateStat p clock change : Op Text ℤ).Survives serve env s ↔ ¬ StatKills (env 0) s p := by
  rw [updateStat_eq]
  refine fetchStat_survives_iff (fun resp r hr => ?_) (fun resp hr => by rw [hr])
  rw [hr]
  cases r with
  | error e => trivial
  | ok r => exact replaceStat_diesOnly clock change r.1 r.2

/-- A lookup of attributes dies of nothing but its fetch. -/
theorem getattr_survives_iff (fc : FuseContext) (h : p.length ≤ maxPathLen) :
    (cbfuseGetattr fc p : Op Text _).Survives serve env s ↔ ¬ StatKills (env 0) s p := by
  rw [cbfuseGetattr_eq fc (Nat.not_lt.mpr h)]
  refine fetchStat_survives_iff (fun resp r hr => ?_) (fun resp hr => by rw [hr])
  rw [hr]
  cases r with
  | error e => trivial
  | ok r => trivial

/-- An open dies of nothing but its fetch. -/
theorem open_survives_iff (h : p.length ≤ maxPathLen) :
    (cbfuseOpen p : Op Text ℤ).Survives serve env s ↔ ¬ StatKills (env 0) s p := by
  unfold cbfuseOpen
  rw [if_neg (Nat.not_lt.mpr h), getStat_eq, Prog.call_bind]
  refine fetchStat_survives_iff (fun resp r hr => ?_) (fun resp hr => by rw [hr]; rfl)
  rw [hr]
  cases r with
  | error e => trivial
  | ok r => trivial

end Stat

/-! ## The buffers -/

/-- A range of `len` bytes lies within a buffer. -/
def Inside (offset : ℤ) (len size : ℕ) : Prop := 0 ≤ offset ∧ offset.toNat + len ≤ size

/-- **What was fetched can be read**: the copy of the bytes `b` is there under
the first choice, `n` bytes from `off` on do not start before it, and where they
go past its end there is memory behind it under the second. -/
def Readable (c c' : Choice) (b : Bytes) (off : ℤ) (n : ℕ) : Prop :=
  n ≠ 0 → c.alloc = true ∧ 0 ≤ off ∧ (b.length < off.toNat + n → c'.mapped = true)

/-- How many reads past the end of a buffer that takes. -/
def overreads (b : Bytes) (off : ℤ) (n : ℕ) : ℕ :=
  if n ≠ 0 ∧ b.length < off.toNat + n then 1 else 0

section Buffers

variable {p : CString} {s : Store Text} {env : ℕ → Choice} {α : Type} {b data : Bytes}
  {offset : ℤ} {len n nvalue nupdate n₀ : ℕ}

/-- A read of what was fetched, with what follows it: if that survives on a
condition of the choices to come, the read adds what it needs itself. -/
theorem load_survives_iff {c : Choice} {f : Bytes → Op Text α} {K : (ℕ → Choice) → Prop}
    (hf : ∀ bytes env, (f bytes).Survives serve env s ↔ K env) :
    (load (if c.alloc = true then some b else none) offset n >>= f).Survives serve env s
      ↔ Readable c (env 0) b offset n ∧ K (fun k => env (k + overreads b offset n)) := by
  unfold load Readable overreads
  by_cases hn : n = 0
  · subst hn
    rw [if_pos rfl, if_neg (fun h => h.1 rfl)]
    exact (hf [] env).trans ⟨fun h => ⟨fun h0 => absurd rfl h0, h⟩, fun h => h.2⟩
  · rw [if_neg hn]
    cases hcopy : c.alloc with
    | false =>
      refine iff_of_false Prog.not_survives_crash (fun h => ?_)
      cases (h.1 hn).1
    | true =>
      rw [if_pos rfl]
      dsimp only
      by_cases hoff : offset < 0
      · rw [if_pos hoff]
        refine iff_of_false Prog.not_survives_crash (fun h => ?_)
        exact absurd (h.1 hn).2.1 (Int.not_le.mpr hoff)
      · rw [if_neg hoff]
        have h0 : 0 ≤ offset := Int.not_lt.mp hoff
        have hlen : ((b.drop offset.toNat).take n).length = n
            ↔ ¬ b.length < offset.toNat + n := by
          rw [List.length_take, List.length_drop]
          omega
        by_cases hpast : b.length < offset.toNat + n
        · rw [if_neg (mt hlen.mp (not_not.mpr hpast)), if_pos ⟨hn, hpast⟩, Prog.bind_assoc]
          unfold overread
          rw [Prog.call_bind, Prog.survives_call]
          cases hmapped : (env 0).mapped with
          | false =>
            rw [serve_overread_none s _ hmapped]
            refine iff_of_false Prog.not_survives_crash (fun h => ?_)
            cases (h.1 hn).2.2 hpast
          | true =>
            rw [serve_overread_some s _ hmapped]
            exact (hf _ _).trans ⟨fun h => ⟨fun _ => ⟨rfl, h0, fun _ => rfl⟩, h⟩, fun h => h.2⟩
        · rw [if_pos (hlen.mpr hpast), if_neg (fun h => hpast h.2)]
          exact (hf _ _).trans
            ⟨fun h => ⟨fun _ => ⟨rfl, h0, fun h => absurd h hpast⟩, h⟩, fun h => h.2⟩

/-- The store at the end of an update of a block, with what follows it: that has
to survive where the store succeeds, and may rely on the stats being what they
were. -/
theorem upsert_survives_iff {f : ℤ → Op Text α} {K : (ℕ → Choice) → Prop}
    (hf : ∀ r env s', s'.stats = s.stats → ((f r).Survives serve env s' ↔ (r = 0 → K env))) :
    (Prog.call (.blocks (.store .upsert p b 0)) (fun resp => f (upsertReply resp))).Survives
        serve env s
      ↔ ((env 0).Served → K (fun k => env (k + 1))) := by
  have hstored : upsertReply (serve (env 0) (.blocks (.store .upsert p b 0)) s).1 = 0
      ↔ (env 0).Served := by
    refine ⟨fun h => ?_, fun hs => ?_⟩
    · obtain ⟨-, hrc, hst⟩ | ⟨hneg, -⟩ := upsertReply_cases
        (serve (env 0) (.blocks (.store .upsert p b 0)) s).1
      · exact (Kv.Collection.serve_of_granted hrc hst).1
      · exact absurd h (Int.ne_of_lt hneg)
    · simp only [serve, hs.answer, Kv.Collection.serve, Kv.Collection.verdict_upsert_zero]
      rfl
  have hstats : (serve (env 0) (.blocks (.store .upsert p b 0)) s).2.stats = s.stats := rfl
  rw [Prog.survives_call]
  exact (hf _ _ _ hstats).trans (imp_congr_left hstored)

/-- A store of bytes that are read from what was fetched, with what follows it:
they have to be there to be read. -/
theorem storeBlock_survives_iff {c : Choice} {f : ℤ → Op Text α} {K : (ℕ → Choice) → Prop}
    (hf : ∀ r env s', s'.stats = s.stats → ((f r).Survives serve env s' ↔ (r = 0 → K env))) :
    (storeBlock p (if c.alloc = true then some b else none) n >>= f).Survives serve env s
      ↔ Readable c (env 0) b 0 n
        ∧ ((env (overreads b 0 n)).Served → K (fun k => env (k + 1 + overreads b 0 n))) := by
  rw [storeBlock_eq, Prog.bind_assoc]
  refine (load_survives_iff (K := fun env => (env 0).Served → K (fun k => env (k + 1)))
    (fun bytes env => upsert_survives_iff hf)).trans ?_
  simp only [Nat.zero_add]

/-- **The end of a write** can be died of where the block grew and was stored. -/
theorem finishWrite_survives_iff (r : ℤ) (env : ℕ → Choice) (s' : Store Text)
    (hs' : s'.stats = s.stats) :
    (finishWrite p len (r, n)).Survives serve env s'
      ↔ (r = 0 → n ≠ 0 → ¬ StatKills (env 0) s p) := by
  by_cases hr : r = 0
  · subst hr
    by_cases hn : n = 0
    · subst hn
      exact iff_of_true (Prog.survives_ret _) (fun _ h => absurd rfl h)
    · rw [finishWrite_grown hn, Prog.survives_bind_ret]
      unfold updateStatSize
      rw [updateStat_survives_iff, statKills_congr hs']
      exact ⟨fun h _ _ => h, fun h => h rfl hn⟩
  · unfold finishWrite
    rw [if_pos hr]
    exact iff_of_true (Prog.survives_ret _) (fun h => absurd h hr)

/-- A write that fails before its store has nothing left to die of. -/
theorem enomem_survives (p : CString) (len n : ℕ) (env : ℕ → Choice) (s : Store Text) :
    (finishWrite p len (-enomem, n)).Survives serve env s :=
  (finishWrite_survives_iff _ env s rfl).mpr (fun h => by cases h)

/-- A copy into a buffer and its store, with the end of the write: the data has to
fit the buffer. -/
theorem copyAndStore_survives_iff (hb : b.length = nvalue) :
    (copyAndStore p data offset (some b) nvalue n >>= finishWrite p len).Survives serve env s
      ↔ Inside offset data.length nvalue
        ∧ ((env 0).Served → n ≠ 0 → ¬ StatKills (env 1) s p) := by
  by_cases hin : Inside offset data.length nvalue
  · rw [copyAndStore_eq hb hin.1 hin.2, Prog.call_bind]
    refine (upsert_survives_iff (K := fun env => n ≠ 0 → ¬ StatKills (env 0) s p)
      (fun r env s' hs' => finishWrite_survives_iff r env s' hs')).trans ?_
    exact ⟨fun h => ⟨hin, h⟩, fun h => h.2⟩
  · unfold copyAndStore memcpy
    subst hb
    dsimp only
    rw [if_neg (show ¬ (0 ≤ offset ∧ offset.toNat + data.length ≤ b.length) from hin)]
    exact iff_of_false Prog.not_survives_crash (fun h => hin h.1)

/-- **The second half of a write to a buffer there is** survives where its data fits
that buffer, or the longer one that is made. -/
theorem modifyBlock_survives_iff (hd : data ≠ []) (hb : b.length = nvalue) :
    (modifyBlock p (some data) offset nupdate (some b) nvalue n₀
        >>= finishWrite p len).Survives serve env s
      ↔ if nvalue < nupdate then
          (env 0).alloc = true ∧ Inside offset data.length nupdate
            ∧ ((env 1).Served → ¬ StatKills (env 2) s p)
        else Inside offset data.length nvalue
          ∧ ((env 0).Served → n₀ ≠ 0 → ¬ StatKills (env 1) s p) := by
  subst hb
  unfold modifyBlock
  rw [if_pos (isNotTruncate_some hd)]
  by_cases hlt : b.length < nupdate
  · rw [if_pos hlt, if_pos hlt, memdupm_eq (Nat.le_of_lt hlt), Prog.call_bind, Prog.call_bind,
      Prog.survives_call]
    cases halloc : (env 0).alloc with
    | false =>
      rw [serve_malloc_none s nupdate halloc]
      refine iff_of_false Prog.not_survives_crash (fun h => ?_)
      cases h.1
    | true =>
      have hlen : (Buffer.splice ((env 0).buf nupdate).1 0 b).length = nupdate := by
        rw [Buffer.length_splice (by rw [((env 0).buf nupdate).2]; omega),
          ((env 0).buf nupdate).2]
      rw [serve_malloc_some s nupdate halloc]
      refine (copyAndStore_survives_iff hlen).trans ?_
      exact ⟨fun h => ⟨rfl, h.1, fun hs => h.2 hs (by omega)⟩,
        fun h => ⟨h.2.1, fun hs _ => h.2.2 hs⟩⟩
  · rw [if_neg hlt, if_neg hlt]
    exact copyAndStore_survives_iff rfl

/-- **The second half of a write without a buffer to start from** survives where
it fails before there is anything to copy. -/
theorem modifyBlock_null_survives_iff (hd : data ≠ []) :
    (modifyBlock p (some data) offset nupdate none nvalue n₀
        >>= finishWrite p len).Survives serve env s
      ↔ nvalue < nupdate ∧ (nvalue = 0 ∨ (env 0).alloc = false) := by
  rw [modifyBlock_null hd]
  by_cases hlt : nvalue < nupdate
  · rw [if_pos hlt, Prog.call_bind, Prog.survives_call]
    cases halloc : (env 0).alloc with
    | false =>
      rw [serve_malloc_none s nupdate halloc]
      exact iff_of_true (enomem_survives p len n₀ _ s) ⟨hlt, .inr rfl⟩
    | true =>
      rw [serve_malloc_some s nupdate halloc]
      dsimp only
      by_cases hz : nvalue = 0
      · rw [if_pos hz]
        exact iff_of_true (enomem_survives p len n₀ _ s) ⟨hlt, .inl hz⟩
      · rw [if_neg hz]
        refine iff_of_false Prog.not_survives_crash (fun h => ?_)
        exact h.2.elim hz (fun h => absurd h.symm Bool.false_ne_true)
  · rw [if_neg hlt]
    exact iff_of_false Prog.not_survives_crash (fun h => hlt h.1)

end Buffers

/-! ## The calls on an entry -/

/-- **What spares a call on an entry its death**, by what it is given, the block
it finds and what becomes of its requests. Past the limit a write and a
truncation ask for nothing. -/
def EntryOp.Survives (env : ℕ → Choice) (s : Store Text) : EntryOp → Prop
  | write p buf offset =>
    let n := toSizeT (offset + buf.length)
    n ≤ maxFileLen →
      match foundBlock env s p with
      | none =>
        -- a new block is made for the bytes there are, and the stat told
        buf ≠ [] → (∀ e, (env 0).fate ≠ .unsent e) → (env 1).alloc = true →
          Inside offset buf.length n ∧ ((env 2).Served → ¬ StatKills (env 3) s p)
      | some b =>
        if buf = [] then Readable (env 0) (env 1) b 0 n
        else if b.length < n then
          -- the block grows; the copy of it is the one that is tested
          if (env 0).alloc = true then
            (env 1).alloc = true ∧ Inside offset buf.length n
              ∧ ((env 2).Served → ¬ StatKills (env 3) s p)
          else b = [] ∨ (env 1).alloc = false
        else (env 0).alloc = true ∧ Inside offset buf.length b.length
  | truncate p offset =>
    let n := toSizeT offset
    if offset = 0 then foundBlock env s p ≠ none → ¬ StatKills (env 1) s p
    else n ≤ maxFileLen →
      match foundBlock env s p with
      | none => (∀ e, (env 0).fate ≠ .unsent e) → ¬ StatKills (env 1) s p
      | some b => Readable (env 0) (env 1) b 0 n
        ∧ ((env (1 + overreads b 0 n)).Served → ¬ StatKills (env (2 + overreads b 0 n)) s p)
  | read p nbuf offset =>
    ∀ b, foundBlock env s p = some b → offset < toOffT b.length →
      let n := trimmed b.length nbuf offset
      Readable (env 0) (env 1) b offset n ∧ ¬ StatKills (env (1 + overreads b offset n)) s p
  | chmod p _ => ¬ StatKills (env 0) s p
  | utimens p _ => ¬ StatKills (env 0) s p

section Calls

variable {p : CString} {s : Store Text} {env : ℕ → Choice}

/-- **An update of a block, after the reply to its fetch.** -/
def updateReply (pkey : CString) (buf : Option Bytes) (offset : ℤ) (resp : Response Bytes) :
    Op Text (ℤ × ℕ) :=
  let nupdate := toSizeT (offset + (buf.getD []).length)
  let r := blockReply resp
  if r.1 = -enoent then
    if isNotTruncate buf then
      .call (.malloc nupdate) (fun dest =>
        match dest with
        | none => .ret (-enomem, 0)
        | some value => modifyBlock pkey buf offset nupdate (some value.1) nupdate nupdate)
    else .ret (0, 0)
  else if r.1 ≠ 0 then .ret (r.1, 0)
  else modifyBlock pkey buf offset nupdate r.2.value r.2.nvalue 0

/-- Within the limit an update of a block fetches it, and goes by the reply. -/
theorem updateBlock_call {buf : Option Bytes} {offset : ℤ}
    (hmax : toSizeT (offset + (buf.getD []).length) ≤ maxFileLen) :
    (updateBlock p buf offset : Op Text _)
      = .call (.blocks (.get p)) (updateReply p buf offset) := by
  unfold updateBlock
  dsimp only
  rw [if_neg (Nat.not_lt.mpr hmax), getBlock_eq, Prog.call_bind]
  congr 1
  funext resp
  rw [Prog.ret_bind]
  unfold updateReply
  dsimp only
  split
  · split
    · unfold malloc
      rw [Prog.call_bind]
      congr 1
      funext dest
      cases dest <;> rfl
    · rfl
  · split <;> rfl

/-- **A write that finds no block** makes one, if it has any bytes for it. -/
theorem write_none_survives_iff {buf : Bytes} {offset : ℤ} {e : Kv.Error} {a : Bool} :
    let n := toSizeT (offset + buf.length)
    (updateReply p (some buf) offset ⟨⟨none, some e, none⟩, a⟩
        >>= finishWrite p buf.length).Survives serve env s
      ↔ (buf ≠ [] → (env 0).alloc = true →
          Inside offset buf.length n ∧ ((env 1).Served → ¬ StatKills (env 2) s p)) := by
  intro n
  by_cases hd : buf = []
  · subst hd
    exact iff_of_true (Prog.survives_ret _) (fun h => absurd rfl h)
  · have hreply : updateReply p (some buf) offset ⟨⟨none, some e, none⟩, a⟩
        = (.call (.malloc n) (fun dest =>
          match dest with
          | none => .ret (-enomem, 0)
          | some value => modifyBlock p (some buf) offset n (some value.1) n n) : Op Text _) :=
      if_pos (isNotTruncate_some hd)
    rw [hreply, Prog.call_bind, Prog.survives_call]
    cases halloc : (env 0).alloc with
    | false =>
      rw [serve_malloc_none s n halloc]
      exact iff_of_true (enomem_survives p buf.length 0 _ s) (fun _ h => by cases h)
    | true =>
      rw [serve_malloc_some s n halloc]
      refine (modifyBlock_survives_iff hd ((env 0).buf n).2).trans ?_
      rw [if_neg (Nat.lt_irrefl n)]
      refine ⟨fun h _ _ => ⟨h.1, fun hs => h.2 hs ?_⟩, fun h => ?_⟩
      · have hpos : 0 < buf.length := List.length_pos_of_ne_nil hd
        exact Nat.ne_of_gt (Nat.lt_of_lt_of_le hpos (Nat.le_trans (Nat.le_add_left _ _) h.1.2))
      · exact ⟨(h hd rfl).1, fun hs _ => (h hd rfl).2 hs⟩

/-- **A write that finds a block** goes on with the copy of it. -/
theorem write_some_survives_iff {c : Choice} {buf : Bytes} {offset : ℤ} {d : Kv.Doc Bytes} :
    let n := toSizeT (offset + buf.length)
    (updateReply p (some buf) offset ⟨⟨none, none, some d⟩, c.alloc⟩
        >>= finishWrite p buf.length).Survives serve env s
      ↔ if buf = [] then Readable c (env 0) d.value 0 n
        else if d.value.length < n then
          if c.alloc = true then
            (env 0).alloc = true ∧ Inside offset buf.length n
              ∧ ((env 1).Served → ¬ StatKills (env 2) s p)
          else d.value = [] ∨ (env 0).alloc = false
        else c.alloc = true ∧ Inside offset buf.length d.value.length := by
  intro n
  have hreply : (updateReply p (some buf) offset ⟨⟨none, none, some d⟩, c.alloc⟩ : Op Text _)
      = modifyBlock p (some buf) offset n (if c.alloc = true then some d.value else none)
          d.value.length 0 := rfl
  rw [hreply]
  by_cases hd : buf = []
  · subst hd
    have hn : toSizeT offset = n := by
      show toSizeT offset = toSizeT (offset + ([] : Bytes).length)
      simp
    rw [if_pos rfl]
    show ((storeBlock p _ (toSizeT offset) >>= fun fresult => .ret (fresult, 0))
      >>= finishWrite p 0).Survives serve env s ↔ _
    rw [hn, Prog.bind_assoc]
    refine (storeBlock_survives_iff (K := fun _ => True) (fun r env s' hs' => ?_)).trans
      (and_iff_left (fun _ => trivial))
    rw [Prog.ret_bind, finishWrite_survives_iff r env s' hs']
    exact iff_of_true (fun _ h => absurd rfl h) (fun _ => trivial)
  · rw [if_neg hd]
    cases hcopy : c.alloc with
    | true =>
      rw [if_pos rfl]
      refine (modifyBlock_survives_iff hd rfl).trans ?_
      split
      · rfl
      · exact ⟨fun h => ⟨rfl, h.1⟩, fun h => ⟨h.2, fun _ h0 => absurd rfl h0⟩⟩
    | false =>
      refine (modifyBlock_null_survives_iff hd).trans ?_
      rw [List.length_eq_zero_iff]
      split
      · next hlt => exact and_iff_right hlt
      · next hlt => exact iff_of_false (fun h => hlt h.1) (fun h => by cases h.1)

/-- **What a write survives.** -/
theorem writeData_survives_iff (p : CString) (buf : Bytes) (offset : ℤ) (env : ℕ → Choice)
    (s : Store Text) :
    (writeData p buf offset).Survives serve env s
      ↔ (EntryOp.write p buf offset).Survives env s := by
  unfold EntryOp.Survives
  dsimp only
  by_cases hmax : toSizeT (offset + buf.length) ≤ maxFileLen
  · rw [forall_prop_of_true hmax, writeData_eq hmax, updateBlock_call (by exact hmax),
      Prog.call_bind, Prog.survives_call, serve_blocks_get]
    obtain ⟨d, hs, hd, hr⟩ | ⟨e, hf, hr⟩ | ⟨hsent, hnone, e, hr⟩ :=
      Kv.Collection.answer_get_cases (env 0).fate s.blocks p
    · rw [hr, foundBlock_of_docs hs hd]
      exact write_some_survives_iff
    · rw [hr, foundBlock_eq_none (fun hs => by cases hf.symm.trans hs)]
      refine iff_of_true (Prog.survives_ret _) (fun _ hsent => absurd hf (hsent e))
    · rw [hr, foundBlock_eq_none hnone]
      refine write_none_survives_iff.trans ?_
      exact ⟨fun h hd _ => h hd, fun h hd => h hd hsent⟩
  · unfold writeData
    rw [if_pos (Nat.lt_of_not_le hmax)]
    exact iff_of_true (Prog.survives_ret _) (fun h => absurd h hmax)

/-- A part that fails is the end of a truncation, and otherwise the stat is told. -/
theorem tellSize_survives_iff {r : ℤ} {n : ℕ} {s' : Store Text} (hs' : s'.stats = s.stats) :
    (if r ≠ 0 then .ret r else updateStatSize p n : Op Text ℤ).Survives serve env s'
      ↔ (r = 0 → ¬ StatKills (env 0) s p) := by
  by_cases hr : r = 0
  · rw [if_neg (not_not.mpr hr)]
    unfold updateStatSize
    rw [updateStat_survives_iff, statKills_congr hs']
    exact ⟨fun h _ => h, fun h => h hr⟩
  · rw [if_pos hr]
    exact iff_of_true (Prog.survives_ret _) (fun h => absurd h hr)

/-- A block is removed where it is there and the request is served. -/
theorem removed_iff :
    checkResult (-enoent) (serve (env 0) (.blocks (.remove p)) s).1 = 0
      ↔ foundBlock env s p ≠ none := by
  rw [checkResult_eq_zero (by decide)]
  unfold foundBlock
  constructor
  · rintro ⟨hrc, hst⟩
    obtain ⟨hs, hgranted⟩ := Kv.Collection.serve_of_granted hrc hst
    have hserved : (env 0).Served := hs
    rw [if_pos hserved]
    intro hval
    rw [Kv.Collection.serve, (Kv.Collection.val_eq_none _ _).mp hval] at hgranted
    cases hgranted
  · intro hfound
    by_cases hs : (env 0).Served
    · rw [if_pos hs] at hfound
      cases hd : s.blocks.docs p with
      | none => exact absurd ((Kv.Collection.val_eq_none _ _).mpr hd) hfound
      | some d =>
        simp only [serve, hs.answer, Kv.Collection.serve, hd, and_self]
    · rw [if_neg hs] at hfound
      exact absurd rfl hfound

/-- **What a truncation survives.** -/
theorem truncateData_survives_iff (p : CString) (offset : ℤ) (env : ℕ → Choice) (s : Store Text) :
    (truncateData p offset).Survives serve env s
      ↔ (EntryOp.truncate p offset).Survives env s := by
  unfold EntryOp.Survives truncateData
  dsimp only
  by_cases hoff : offset = 0
  · rw [if_pos hoff, if_pos hoff, ← removed_iff]
    exact tellSize_survives_iff rfl
  · have hn : toSizeT (offset + ((none : Option Bytes).getD []).length) = toSizeT offset := by simp
    rw [if_neg hoff, if_neg hoff, map_eq_pure_bind, Prog.bind_assoc]
    by_cases hmax : toSizeT offset ≤ maxFileLen
    · rw [forall_prop_of_true hmax, updateBlock_call (by rw [hn]; exact hmax), Prog.call_bind,
        Prog.survives_call, serve_blocks_get]
      obtain ⟨d, hs, hd, hr⟩ | ⟨e, hf, hr⟩ | ⟨hsent, hnone, e, hr⟩ :=
        Kv.Collection.answer_get_cases (env 0).fate s.blocks p
      · rw [hr, foundBlock_of_docs hs hd]
        dsimp only
        show (((storeBlock p _ (toSizeT offset) >>= fun fresult => .ret (fresult, 0)) >>= _)
          : Op Text ℤ).Survives serve (fun k => env (k + 1)) s ↔ _
        rw [Prog.bind_assoc]
        refine (storeBlock_survives_iff (K := fun env => ¬ StatKills (env 0) s p)
          (fun r env s' hs' => tellSize_survives_iff hs')).trans ?_
        simp only [Nat.zero_add]
        rw [Nat.add_right_comm 1, Nat.add_comm (overreads d.value 0 (toSizeT offset)) 1]
      · rw [hr, foundBlock_eq_none (fun hs => by cases hf.symm.trans hs)]
        exact iff_of_true (Prog.survives_ret _) (fun hsent => absurd hf (hsent e))
      · rw [hr, foundBlock_eq_none hnone]
        refine (tellSize_survives_iff (r := 0) rfl).trans ?_
        exact ⟨fun h _ => h rfl, fun h _ => h hsent⟩
    · unfold updateBlock
      rw [if_pos (by rw [hn]; exact Nat.lt_of_not_le hmax)]
      exact iff_of_true (Prog.survives_ret _) (fun h => absurd h hmax)

/-- **What a read survives.** -/
theorem readData_survives_iff (p : CString) (nbuf : ℕ) (offset : ℤ) (env : ℕ → Choice)
    (s : Store Text) :
    (Prod.fst <$> readData p nbuf offset).Survives serve env s
      ↔ (EntryOp.read p nbuf offset).Survives env s := by
  unfold EntryOp.Survives
  dsimp only
  rw [map_eq_pure_bind, readData_call, Prog.call_bind, Prog.survives_call, serve_blocks_get]
  obtain ⟨d, hs, hd, hr⟩ | ⟨e, hf, hr⟩ | ⟨-, hnone, e, hr⟩ :=
    Kv.Collection.answer_get_cases (env 0).fate s.blocks p
  · rw [hr, foundBlock_of_docs hs hd]
    dsimp only
    show (readReply p nbuf offset ⟨⟨none, none, some d⟩, (env 0).alloc⟩ >>= fun r => .ret r.1
      : Op Text ℤ).Survives serve _ s ↔ _
    rw [readReply_found]
    split
    · next hend =>
      refine iff_of_true (Prog.survives_ret _) (fun b hb hlt => ?_)
      cases hb
      exact absurd hlt (Int.not_lt.mpr hend)
    · next hend =>
      refine (load_survives_iff (K := fun env => ¬ StatKills (env 0) s p)
        (fun bytes env => ?_)).trans ?_
      · rw [Prog.survives_bind_ret]
        exact updateStat_survives_iff true CbfuseStat.touchAtime
      · simp only [Nat.zero_add, Nat.add_comm]
        refine ⟨fun h b hb _ => ?_, fun h => h _ rfl (Int.not_le.mp hend)⟩
        cases hb
        exact h
  · rw [hr, foundBlock_eq_none (fun hs => by cases hf.symm.trans hs)]
    exact iff_of_true (Prog.survives_ret _) (fun b hb => by cases hb)
  · rw [hr, foundBlock_eq_none hnone]
    exact iff_of_true (Prog.survives_ret _) (fun b hb => by cases hb)

/-- **A call on an entry survives exactly where it is spared.** -/
theorem EntryOp.survives_iff (op : EntryOp) (env : ℕ → Choice) (s : Store Text) :
    (op.code : Op Text ℤ).Survives serve env s ↔ op.Survives env s := by
  cases op with
  | write p buf offset => exact writeData_survives_iff p buf offset env s
  | truncate p offset => exact truncateData_survives_iff p offset env s
  | read p nbuf offset => exact readData_survives_iff p nbuf offset env s
  | chmod p mode => exact updateStat_survives_iff false _
  | utimens p tv => exact updateStat_survives_iff _ _

end Calls

/-! ## The operations -/

namespace FuseOp

variable [CJson Text]

/-- **Nothing comes out positive that should not, and the process lives**: a
path that is to be fetched or inserted as it is fits a key, the filler's last
answer, if it gives any, is zero or an error, and the call is spared what it
could die of. -/
def Fits (env : ℕ → Choice) (s : Store Text) : FuseOp β → Prop
  | getattr _ path => path.length ≤ maxPathLen ∧ ¬ StatKills (env 0) s path
  | openFile path => path.length ≤ maxPathLen ∧ ¬ StatKills (env 0) s path
  | fs (.tree (.create path mode)) => sIsreg mode → path.length ≤ maxPathLen
  | fs (.entry op) => op.Survives env s
  | readdir path filler offset buf =>
    ∀ names, offeredNames offset.toNat (serve (env 0) (.dentries (.get path)) s).1 = some names →
      ∀ a, (answers filler names offset.toNat buf).getLast? = some a → IsCode a
  | _ => True

/-- What a listing returns: what the fetch came to, or the last answer of the
filler. -/
theorem run_readdir_code (path : CString) (filler : β → CString → ℕ → ℤ × β) (offset : ℤ)
    (buf : β) (env : ℕ → Choice) (s : Store Text) :
    let resp := (serve (env 0) (.dentries (.get path)) s).1
    ((readdir path filler offset buf).code.run serve env s).1
      = some ((offeredNames offset.toNat resp).elim (codeOf (dentryReply resp))
        (fun names => ((answers filler names offset.toNat buf).getLast?).getD 0)) := by
  show ((Prod.fst <$> cbfuseReaddir path filler offset buf).run serve env s).1 = _
  rw [cbfuseReaddir_eq, map_eq_pure_bind, Prog.call_bind, Prog.run_call]
  generalize (serve (env 0) (.dentries (.get path)) s).1 = resp
  unfold offeredNames
  cases dentryReply resp with
  | error e => rfl
  | ok j =>
    dsimp only
    cases Json.arrayItems (Json.getObjectItemCaseSensitive j dentryChildren) with
    | none => rfl
    | some children =>
      have hloop := fillLoop_code filler offset children 0 0 buf
      rw [Nat.sub_zero, Nat.zero_max] at hloop
      show some (fillLoop filler offset children 0 0 buf).1 = _
      rw [hloop]
      dsimp only
      cases (children.drop offset.toNat).mapM Json.getStringValue with
      | none => rfl
      | some names => rfl

/-- The code of a fetched directory document is zero or an error. -/
theorem isCode_dentryReply (resp : Response Text) : IsCode (codeOf (dentryReply resp)) := by
  unfold dentryReply
  split
  · exact .neg_eio
  · dsimp only
    split
    · exact .neg_enoent
    · exact isCode_zero

/-- A path that is too long is reported as a positive number. -/
theorem not_isCode_enametoolong : ¬ IsCode enametoolong := by decide

omit [CJson Text] in
/-- A lookup of attributes keeps to the convention if its path fits a key and it
lives. -/
theorem getattr_obeys_iff (fc : FuseContext) (path : CString) (env : ℕ → Choice)
    (s : Store Text) :
    (∃ r, ((codeOf <$> cbfuseGetattr fc path).run serve env s).1 = some r ∧ IsCode r)
      ↔ path.length ≤ maxPathLen ∧ ¬ StatKills (env 0) s path := by
  by_cases hlen : path.length ≤ maxPathLen
  · have hcode : (codeOf <$> cbfuseGetattr fc path : Op Text ℤ).Returns IsCode :=
      Prog.returns_bind (cbfuseGetattr_isCode fc hlen) (fun _ h => h)
    have hlives : (codeOf <$> cbfuseGetattr fc path : Op Text ℤ).Survives serve env s
        ↔ ¬ StatKills (env 0) s path :=
      (Prog.survives_bind_ret codeOf).trans (getattr_survives_iff fc hlen)
    rw [and_iff_right hlen, ← hlives]
    exact ⟨fun ⟨r, hr, _⟩ => ⟨r, hr⟩, fun h => h.returns hcode⟩
  · refine iff_of_false ?_ (fun h => hlen h.1)
    rintro ⟨r, hr, hcode⟩
    unfold cbfuseGetattr at hr
    rw [if_pos (Nat.lt_of_not_le hlen)] at hr
    cases hr
    exact not_isCode_enametoolong hcode

omit [CJson Text] in
/-- An open keeps to the convention if its path fits a key and it lives. -/
theorem open_obeys_iff (path : CString) (env : ℕ → Choice) (s : Store Text) :
    (∃ r, ((cbfuseOpen path).run serve env s).1 = some r ∧ IsCode r)
      ↔ path.length ≤ maxPathLen ∧ ¬ StatKills (env 0) s path := by
  by_cases hlen : path.length ≤ maxPathLen
  · rw [and_iff_right hlen, ← open_survives_iff hlen]
    exact ⟨fun ⟨r, hr, _⟩ => ⟨r, hr⟩, fun h => h.returns (cbfuseOpen_isCode hlen)⟩
  · refine iff_of_false ?_ (fun h => hlen h.1)
    rintro ⟨r, hr, hcode⟩
    unfold cbfuseOpen at hr
    rw [if_pos (Nat.lt_of_not_le hlen)] at hr
    cases hr
    exact not_isCode_enametoolong hcode

/-- A listing keeps to it if what it passes on of the filler does. -/
theorem readdir_obeys_iff (path : CString) (filler : β → CString → ℕ → ℤ × β) (offset : ℤ)
    (buf : β) (env : ℕ → Choice) (s : Store Text) :
    (∃ r, ((readdir path filler offset buf).code.run serve env s).1 = some r ∧ IsCode r)
      ↔ (readdir path filler offset buf).Fits env s := by
  have hrun := run_readdir_code path filler offset buf env s
  unfold Fits
  dsimp only at hrun ⊢
  rw [hrun]
  cases hnames : offeredNames offset.toNat (serve (env 0) (.dentries (.get path)) s).1 with
  | none => exact iff_of_true ⟨_, rfl, isCode_dentryReply _⟩ (fun names h => by cases h)
  | some names =>
    rw [Option.elim_some]
    cases ha : (answers filler names offset.toNat buf).getLast? with
    | none =>
      refine iff_of_true ⟨0, rfl, isCode_zero⟩ (fun names' h a ha' => ?_)
      cases h
      cases ha.symm.trans ha'
    | some a =>
      constructor
      · rintro ⟨r, hr, hcode⟩ names' h a' ha'
        cases h
        cases hr
        cases ha.symm.trans ha'
        exact hcode
      · exact fun h => ⟨a, rfl, h names rfl a ha⟩

/-- An operation on the tree always returns. -/
theorem tree_survives (op : TreeOp) (env : ℕ → Choice) (s : Store Text) :
    (op.code : Op Text ℤ).Survives serve env s :=
  (treeOp_completes op).diesOnly.survives

/-- A creation keeps to the convention if its path fits a key, or it is refused
for its mode before that is tested. -/
theorem create_obeys_iff (path : CString) (mode : ℕ) (env : ℕ → Choice) (s : Store Text) :
    (∃ r, ((cbfuseCreate path mode).run serve env s).1 = some r ∧ IsCode r)
      ↔ (sIsreg mode → path.length ≤ maxPathLen) := by
  by_cases hfits : sIsreg mode → path.length ≤ maxPathLen
  · refine iff_of_true ?_ hfits
    exact (tree_survives (.create path mode) env s).returns (cbfuseCreate_isCode hfits)
  · refine iff_of_false ?_ hfits
    obtain ⟨hreg, hlen⟩ := Classical.not_imp.mp hfits
    rintro ⟨r, hr, hcode⟩
    unfold cbfuseCreate at hr
    rw [if_neg (not_not.mpr hreg), if_pos (Nat.lt_of_not_le hlen)] at hr
    cases hr
    exact not_isCode_enametoolong hcode

/-- **Which operations keep to the convention of FUSE.** Whatever the store,
whatever becomes of the requests and whatever the filler answers: an operation
returns, and returns zero or a negative error, or as a read or a write at most as
many bytes as it was asked for – exactly if its path is not too long, where that
is checked, the last answer of the filler, if it is passed on, is not positive,
and the call is spared what a process dies of. -/
theorem code_obeys_iff (op : FuseOp β) (env : ℕ → Choice) (s : Store Text) :
    (∃ r, (op.code.run serve env s).1 = some r ∧ op.Obeys r) ↔ op.Fits env s := by
  cases op with
  | getattr fc path => exact getattr_obeys_iff fc path env s
  | openFile path => exact open_obeys_iff path env s
  | readdir path filler offset buf => exact readdir_obeys_iff path filler offset buf env s
  | fs op =>
    cases op with
    | entry op =>
      refine Iff.trans ⟨fun ⟨r, hr, _⟩ => ⟨r, hr⟩, fun h => ?_⟩ (op.survives_iff env s)
      exact h.returns op.code_obeys
    | tree op =>
      have hlives := tree_survives op env s
      cases op with
      | create path mode => exact create_obeys_iff path mode env s
      | mkdir path mode =>
        exact iff_of_true (hlives.returns (cbfuseMkdir_isCode path mode)) trivial
      | unlink path =>
        exact iff_of_true (hlives.returns (remove_isCode path _ _)) trivial
      | rmdir path =>
        exact iff_of_true (hlives.returns (remove_isCode path _ _)) trivial

end FuseOp

/-- A path of 251 bytes is reported as 63, and of two names, with room for one
of them, the listing as 1. -/
theorem positive_results :
    let g : ℕ → Choice := fun _ => .good ⟨0, 0⟩
    let long : CString := '/' :: List.replicate 250 'a'
    let s : Store (Option Json) := Store.empty.putDentry ['/']
      (CJson.printUnformatted (createDentry ['/'] none [['a'], ['b']]))
    let getattr : FuseOp DirBuf := .getattr ⟨0, 0⟩ long
    let readdir : FuseOp DirBuf := .readdir ['/'] (DirBuf.fill List.length) 0 (.fresh 1)
    (long.length = 251 ∧ (getattr.code.run serve g s).1 = some 63 ∧ ¬ getattr.Obeys 63)
      ∧ (readdir.code.run serve g s).1 = some 1 ∧ ¬ readdir.Obeys 1 := by
  intro g long s getattr readdir
  have hlen : long.length = 251 := by rw [List.length_cons, List.length_replicate]
  have hlong : (getattr.code.run serve g s).1 = some 63 := by
    show ((codeOf <$> cbfuseGetattr ⟨0, 0⟩ long).run serve g s).1 = _
    unfold cbfuseGetattr
    rw [if_pos (by rw [hlen]; decide)]
    rfl
  refine ⟨⟨hlen, hlong, ?_⟩, by decide, ?_⟩
  · exact fun h => absurd (show IsCode 63 from h) (by decide)
  · exact fun h => absurd (show IsCode 1 from h) (by decide)

end Cbfuse

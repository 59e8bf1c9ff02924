import Cbfuse.Data
import Cbfuse.Interleave

/-!
# Data operations that fail

A write and a truncation change two documents: first the block, then the
size and the times in the stat. Nothing is undone. Where the second half
fails – the stat is gone, or cannot be fetched, or another client has
replaced it – the call reports an error and the block stays stored or
removed (`write_half_done`).

That is all a failed call leaves behind. It has not touched a stat or a
directory document, and at most one of its requests has changed anything at
all, the one that stores or removes the block of its own file
(`failed_leaves`).
-/

namespace Cbfuse

variable {Text ι : Type}

/-- A call that changes the data of a file. -/
inductive DataCall where
  /-- `write_data` -/
  | write (buf : Bytes) (offset : ℤ)
  /-- `truncate_data` -/
  | truncate (offset : ℤ)

namespace DataCall

/-- The program of the call, on the file `p`. -/
def code (p : CString) : DataCall → Op Text ℤ
  | write buf offset => writeData p buf offset
  | truncate offset => truncateData p offset

/-- An `int` can hold the length of a write, which is what it returns. -/
def Fits : DataCall → Prop
  | write buf _ => buf.length < 2 ^ 31
  | truncate _ => True

end DataCall

/-! ## The call as a protocol -/

/-- What a call has changed. -/
inductive DataPhase where
  /-- Nothing. -/
  | untouched
  /-- The block. -/
  | changed
  /-- The stat, at the end. -/
  | updated

/-- **What a call does about the file `p`**: it stores or removes the block
once, replaces the stat once and after that, and has not replaced it when it
returns an error. -/
def dataProtocol (p : CString) : Protocol (Req Text) Req.Reply ℤ DataPhase where
  start := .untouched
  allow g q :=
    match q with
    | .stats (.get _) => True
    | .stats (.store o k _ _) => o = .replace ∧ k = p ∧ g ≠ .updated
    | .stats (.remove _) => False
    | .dentries _ => False
    | .blocks (.get _) => True
    | .blocks (.store o k _ _) => o = .upsert ∧ k = p ∧ g = .untouched
    | .blocks (.remove k) => k = p ∧ g = .untouched
    | _ => True
  next g q r :=
    match q, r with
    | .stats (.store _ _ _ _), resp => if resp.Granted then .updated else g
    | .blocks (.store _ _ _ _), resp => if resp.Granted then .changed else g
    | .blocks (.remove _), resp => if resp.Granted then .changed else g
    | _, _ => g
  final g r := r < 0 → g ≠ .updated

section Follows

variable {p : CString} {f : ℤ → Op Text ℤ}

/-- Memory is asked for in any phase. -/
theorem memory_follows {α : Type} {f : α → Op Text ℤ} {g : DataPhase}
    (hf : ∀ a, (dataProtocol p).Follows g (f a)) {prog : Op Text α}
    (h : prog.Only Req.OnMemory) : (dataProtocol p).Follows g (prog >>= f) := by
  refine Protocol.follows_bind _ (Protocol.follows_of_only _ (fun q hq => ?_) (fun q r hq => ?_)
    hf h)
  · cases q with
    | malloc n => trivial
    | overread n => trivial
    | _ => exact hq.elim
  · cases q with
    | malloc n => rfl
    | overread n => rfl
    | _ => exact hq.elim

/-- The store of a block, once. -/
theorem storeBlock_follows {value : Option Bytes} {nvalue : ℕ}
    (hf : ∀ r, (dataProtocol p).Follows .untouched (f r)
      ∧ (dataProtocol p).Follows .changed (f r)) :
    (dataProtocol p).Follows .untouched (storeBlock p value nvalue >>= f) := by
  unfold storeBlock
  rw [bind_assoc]
  refine memory_follows (fun bytes => ?_) (load_only _ _ _)
  unfold askBlocks
  rw [Prog.call_bind, Prog.call_bind]
  refine ⟨⟨rfl, rfl, rfl⟩, fun resp => ?_⟩
  have hgoal : ∀ r : ℤ, (dataProtocol p).Follows
      ((@dataProtocol Text p).next .untouched (.blocks (.store .upsert p bytes 0)) resp) (f r) := by
    intro r
    show (dataProtocol p).Follows (if resp.Granted then .changed else .untouched) (f r)
    split
    · exact (hf r).2
    · exact (hf r).1
  beta_reduce
  rw [Prog.ret_bind]
  split
  · exact hgoal _
  · split
    · exact hgoal _
    · split <;> exact hgoal _

/-- The second half of `update_block`. -/
theorem modifyBlock_data_follows {f : ℤ × ℕ → Op Text ℤ} {buf : Option Bytes} {offset : ℤ}
    {nupdate nvalue n₀ : ℕ} {value : Option Bytes}
    (hf : ∀ r, (dataProtocol p).Follows .untouched (f r)
      ∧ (dataProtocol p).Follows .changed (f r)) :
    (dataProtocol p).Follows .untouched
      (modifyBlock p buf offset nupdate value nvalue n₀ >>= f) := by
  have hcopy : ∀ value nvalue n, (dataProtocol p).Follows .untouched
      (copyAndStore p (buf.getD []) offset value nvalue n >>= f) := by
    intro value nvalue n
    unfold copyAndStore
    rw [bind_assoc]
    refine memory_follows (fun bytes => ?_) (memcpy_only _ _ _)
    rw [bind_assoc]
    exact storeBlock_follows (fun r => hf (r, n))
  unfold modifyBlock
  split
  · split
    · rw [bind_assoc]
      refine memory_follows (fun newData => ?_) (memdupm_only _ _ _)
      split
      · exact (hf _).1
      · exact hcopy _ _ _
    · exact hcopy _ _ _
  · rw [bind_assoc]
    exact storeBlock_follows (fun r => hf (r, n₀))

/-- `update_block` stores the block once, or not at all. -/
theorem updateBlock_data_follows {f : ℤ × ℕ → Op Text ℤ} {buf : Option Bytes} {offset : ℤ}
    (hf : ∀ r, (dataProtocol p).Follows .untouched (f r)
      ∧ (dataProtocol p).Follows .changed (f r)) :
    (dataProtocol p).Follows .untouched (updateBlock p buf offset >>= f) := by
  unfold updateBlock
  dsimp only
  split
  · exact (hf _).1
  · rw [getBlock_eq, Prog.call_bind, Prog.call_bind]
    refine ⟨trivial, fun resp => ?_⟩
    show (dataProtocol p).Follows .untouched _
    beta_reduce
    rw [Prog.ret_bind]
    split
    · split
      · rw [bind_assoc]
        refine memory_follows (fun dest => ?_) ⟨trivial, fun _ => trivial⟩
        cases dest with
        | none => exact (hf _).1
        | some value => exact modifyBlock_data_follows hf
      · exact (hf _).1
    · split
      · exact (hf _).1
      · exact modifyBlock_data_follows hf

/-- An update of the stat replaces it once, and returns zero if that is
granted. -/
theorem updateStat_data_follows {clock : Bool} {change : Timespec → CbfuseStat → CbfuseStat}
    {g : DataPhase} (hg : g ≠ .updated) (hf : ∀ r, (dataProtocol p).Follows g (f r))
    (h0 : (dataProtocol p).Follows .updated (f 0)) :
    (dataProtocol p).Follows g (updateStat p clock change >>= f) := by
  have hstore : ∀ v cas, (dataProtocol p).Follows g
      ((Prog.call (.stats (.store .replace p v cas))
        (fun resp => .ret (checkResult (-enoent) resp)) : Op Text ℤ) >>= f) := by
    intro v cas
    rw [Prog.call_bind]
    refine ⟨⟨rfl, rfl, hg⟩, fun resp => ?_⟩
    show (dataProtocol p).Follows (if resp.Granted then .updated else g)
      (f (checkResult (-enoent) resp))
    split
    · next hgr =>
      have hne : (-enoent : ℤ) ≠ 0 := by decide
      rwa [(checkResult_eq_zero hne resp).mpr hgr]
    · exact hf _
  rw [updateStat_eq, Prog.call_bind]
  refine ⟨trivial, fun resp => ?_⟩
  show (dataProtocol p).Follows g _
  dsimp only
  split
  · trivial
  · exact hf _
  · unfold replaceStat
    split
    · rw [Prog.call_bind]
      refine ⟨trivial, fun now => ?_⟩
      show (dataProtocol p).Follows g _
      cases now with
      | none => exact hf _
      | some ts => exact hstore _ _
    · exact hstore _ _

/-- An error may be returned before the stat is replaced, and anything
else at any time. -/
theorem ret_follows {g : DataPhase} {r : ℤ} (h : g ≠ .updated ∨ 0 ≤ r) :
    (dataProtocol p).Follows g (.ret r : Op Text ℤ) := by
  intro hneg
  exact h.resolve_right (by omega)

/-- The end of a write. -/
theorem finishWrite_data_follows {nbuf : ℕ} (hfits : nbuf < 2 ^ 31) (r : ℤ × ℕ) {g : DataPhase}
    (hg : g ≠ .updated) : (dataProtocol p).Follows g (finishWrite p nbuf r : Op Text ℤ) := by
  have hdone : 0 ≤ dataDone (toInt nbuf) := by
    rw [dataDone_toInt hfits]
    exact Int.natCast_nonneg _
  unfold finishWrite
  split
  · exact ret_follows (.inl hg)
  · split
    · refine updateStat_data_follows hg (fun r => ?_) ?_
      · split
        · exact ret_follows (.inl hg)
        · exact ret_follows (.inl hg)
      · rw [if_neg (not_not.mpr rfl)]
        exact ret_follows (.inr hdone)
    · exact ret_follows (.inl hg)

/-- The end of a truncation. -/
theorem finishTruncate_follows {n : ℕ} (r : ℤ) {g : DataPhase} (hg : g ≠ .updated) :
    (dataProtocol p).Follows g
      (if r ≠ 0 then .ret r else updateStatSize p n : Op Text ℤ) := by
  split
  · exact ret_follows (.inl hg)
  · rw [← bind_pure (updateStatSize p n)]
    exact updateStat_data_follows hg (fun r => ret_follows (.inl hg))
      (ret_follows (.inr (Int.le_refl 0)))

/-- **Both calls keep to the protocol.** -/
theorem dataCall_follows {call : DataCall} (hfits : call.Fits) :
    (dataProtocol p).Follows .untouched (call.code p : Op Text ℤ) := by
  have hne : ∀ {g : DataPhase}, g = .untouched ∨ g = .changed → g ≠ .updated := by
    rintro g (rfl | rfl) h <;> cases h
  cases call with
  | write buf offset =>
    by_cases hmax : toSizeT (offset + buf.length) ≤ maxFileLen
    · show (dataProtocol p).Follows .untouched (writeData p buf offset)
      rw [writeData_eq hmax]
      exact updateBlock_data_follows (fun r =>
        ⟨finishWrite_data_follows hfits r (hne (.inl rfl)),
          finishWrite_data_follows hfits r (hne (.inr rfl))⟩)
    · show (dataProtocol p).Follows .untouched (writeData p buf offset)
      unfold writeData
      rw [if_pos (Nat.lt_of_not_le hmax)]
      exact ret_follows (.inl (hne (.inl rfl)))
  | truncate offset =>
    show (dataProtocol p).Follows .untouched (truncateData p offset)
    unfold truncateData
    split
    · unfold removeData askBlocks
      rw [Prog.call_bind, Prog.call_bind]
      refine ⟨⟨rfl, rfl⟩, fun resp => ?_⟩
      show (dataProtocol p).Follows (if resp.Granted then .changed else .untouched) _
      split
      · exact finishTruncate_follows _ (hne (.inr rfl))
      · exact finishTruncate_follows _ (hne (.inl rfl))
    · rw [map_eq_pure_bind, bind_assoc]
      exact updateBlock_data_follows (fun r =>
        ⟨finishTruncate_follows _ (hne (.inl rfl)), finishTruncate_follows _ (hne (.inr rfl))⟩)

end Follows

/-! ## What one request changes -/

/-- A request changes nothing but the block of `p`. -/
def ChangesBlock (p : CString) (s s' : Store Text) : Prop :=
  (∃ b, s' = s.putBlock p b) ∨ s' = s.eraseBlock p

section Serve

variable {p : CString} {c : Choice} {s : Store Text}

/-- A request that is not granted leaves the block alone, where failures
have no effect. -/
theorem serve_blocks_of_not_granted (hc : c.Clean) {r : Kv.Request CString Bytes}
    (h : ¬ (serve c (.blocks r) s).1.Granted) : (serve c (.blocks r) s).2 = s := by
  show ({ s with blocks := (s.blocks.answer c.fate r).2 } : Store Text) = s
  rw [Kv.Collection.answer_of_not_granted hc h]

theorem serve_stats_of_not_granted (hc : c.Clean) {r : Kv.Request CString StatDoc}
    (h : ¬ (serve c (.stats r) s).1.Granted) : (serve c (.stats r) s).2 = s := by
  show ({ s with stats := (s.stats.answer c.fate r).2 } : Store Text) = s
  rw [Kv.Collection.answer_of_not_granted hc h]

/-- **One request of a call**: it leaves everything as it was, and the call
in its phase; or it is the one that changes the block; or the one that
replaces the stat. -/
theorem serve_of_allow (hc : c.Clean) {g : DataPhase} {q : Req Text}
    (hallow : (dataProtocol p).allow g q) :
    ((serve c q s).2 = s ∧ (dataProtocol p).next g q (serve c q s).1 = g)
      ∨ (g = .untouched ∧ ChangesBlock p s (serve c q s).2
        ∧ (dataProtocol p).next g q (serve c q s).1 = .changed)
      ∨ (dataProtocol p).next g q (serve c q s).1 = .updated := by
  cases q with
  | stats r =>
    cases r with
    | get k =>
      exact .inl ⟨congrArg Prod.snd (serve_stats_get c s k), rfl⟩
    | store o k v cas =>
      by_cases hgr : (serve c (.stats (.store o k v cas)) s).1.Granted
      · exact .inr (.inr (if_pos hgr))
      · exact .inl ⟨serve_stats_of_not_granted hc hgr, if_neg hgr⟩
    | remove k => exact hallow.elim
  | dentries r => exact hallow.elim
  | blocks r =>
    cases r with
    | get k =>
      exact .inl ⟨congrArg Prod.snd (serve_blocks_get c s k), rfl⟩
    | store o k b cas =>
      obtain ⟨rfl, rfl, rfl⟩ := hallow
      by_cases hgr : (serve c (.blocks (.store .upsert k b cas)) s).1.Granted
      · refine .inr (.inl ⟨rfl, .inl ⟨b, ?_⟩, if_pos hgr⟩)
        obtain ⟨hserved, hok⟩ := Kv.Collection.serve_of_granted hgr.1 hgr.2
        have hput := (Kv.Collection.serve_store_granted hok).2
        show ({ s with blocks := (s.blocks.answer c.fate (.store .upsert k b cas)).2 }
          : Store Text) = s.putBlock k b
        rw [hserved]
        exact congrArg (fun b => ({ s with blocks := b } : Store Text)) hput
      · exact .inl ⟨serve_blocks_of_not_granted hc hgr, if_neg hgr⟩
    | remove k =>
      obtain ⟨rfl, rfl⟩ := hallow
      by_cases hgr : (serve c (.blocks (.remove k)) s).1.Granted
      · refine .inr (.inl ⟨rfl, .inr ?_, if_pos hgr⟩)
        obtain ⟨hserved, hok⟩ := Kv.Collection.serve_of_granted hgr.1 hgr.2
        have herase := (Kv.Collection.serve_remove_granted hok).2
        show ({ s with blocks := (s.blocks.answer c.fate (.remove k)).2 } : Store Text)
          = s.eraseBlock k
        rw [hserved]
        exact congrArg (fun b => ({ s with blocks := b } : Store Text)) herase
      · exact .inl ⟨serve_blocks_of_not_granted hc hgr, if_neg hgr⟩
  | _ => exact .inl ⟨rfl, rfl⟩

end Serve

/-! ## Among other clients -/

section Runs

variable [DecidableEq ι] {i : ι} {p : CString}

/-- The requests of the process leave the store as it was. -/
def Leaves (i : ι) (_ : List (Pool.Event ι (Req Text) Req.Reply)) (s : Store Text) (j : ι)
    (c : Choice) (q : Req Text) : Prop :=
  j = i → (serve c q s).2 = s

/-- A call that has replaced the stat returns no error. -/
theorem not_neg_of_updated {x : Pool.Config ι (Req Text) Req.Reply ℤ (Store Text)}
    {sched : List (ι × Choice)} (h : (dataProtocol p).Follows .updated (x.procs i)) {r : ℤ}
    (hret : (Pool.run serve sched x).returned i = some r) : ¬ r < 0 := by
  have hstay : ∀ (q : Req Text) (r : q.Reply), (dataProtocol p).allow .updated q →
      (dataProtocol p).next .updated q r = .updated := by
    intro q r hq
    cases q with
    | stats req =>
      cases req with
      | get k => rfl
      | store o k v cas => exact absurd rfl hq.2.2
      | remove k => exact hq.elim
    | dentries req => exact hq.elim
    | blocks req =>
      cases req with
      | get k => rfl
      | store o k v cas => cases hq.2.2
      | remove k => cases hq.2
    | _ => rfl
  have hend := Pool.follows_run hstay serve sched h
  rw [Pool.Config.returned_eq_some.mp hret] at hend
  exact fun hneg => hend hneg rfl

/-- **One step of the pool**: the call stays in its phase and leaves the
store as it was; or it has just changed the block; or it has just replaced
the stat. -/
theorem step_of_follows {g : DataPhase} {ic : ι × Choice} (hc : ic.2.Clean)
    {x : Pool.Config ι (Req Text) Req.Reply ℤ (Store Text)}
    (h : (dataProtocol p).Follows g (x.procs i)) :
    ((∀ q k, x.procs ic.1 = .call q k → Leaves i x.trace x.store ic.1 ic.2 q)
        ∧ (dataProtocol p).Follows g ((Pool.step serve ic.1 ic.2 x).procs i))
      ∨ (ic.1 = i ∧ g = .untouched
        ∧ ChangesBlock p x.store (Pool.step serve ic.1 ic.2 x).store
        ∧ (dataProtocol p).Follows .changed ((Pool.step serve ic.1 ic.2 x).procs i))
      ∨ (dataProtocol p).Follows .updated ((Pool.step serve ic.1 ic.2 x).procs i) := by
  by_cases hi : ic.1 = i
  · subst hi
    rw [Pool.step_procs, if_pos rfl, Pool.step_store]
    cases hp : x.procs ic.1 with
    | call q k =>
      rw [hp] at h
      have hk := h.2 (serve ic.2 q x.store).1
      obtain ⟨hsame, hnext⟩ | ⟨hg, hch, hnext⟩ | hnext := serve_of_allow (s := x.store) hc h.1
      · rw [hnext] at hk
        refine .inl ⟨fun q' k' hq' _ => ?_, hk⟩
        cases hq'
        exact hsame
      · rw [hnext] at hk
        exact .inr (.inl ⟨rfl, hg, hch, hk⟩)
      · rw [hnext] at hk
        exact .inr (.inr hk)
    | ret a =>
      rw [hp] at h
      exact .inl ⟨fun q k hq => (by cases hq), h⟩
    | crash => exact .inl ⟨fun q k hq => (by cases hq), trivial⟩
  · refine .inl ⟨fun q k _ hji => absurd hji hi, ?_⟩
    rw [Pool.step_procs, if_neg (fun e => hi e.symm)]
    exact h

/-- **The rest of a call that has changed the block** and returns an error:
it changes nothing. -/
theorem leaves_of_changed {sched : List (ι × Choice)} (hclean : ∀ ic ∈ sched, ic.2.Clean)
    {x : Pool.Config ι (Req Text) Req.Reply ℤ (Store Text)}
    (h : (dataProtocol p).Follows .changed (x.procs i)) {r : ℤ}
    (hret : (Pool.run serve sched x).returned i = some r) (hneg : r < 0) :
    Pool.Meets serve (Leaves i) sched x := by
  induction sched generalizing x with
  | nil => trivial
  | cons ic sched ih =>
    have hrest : ∀ ic' ∈ sched, ic'.2.Clean := fun ic' h => hclean ic' (List.mem_cons_of_mem ic h)
    obtain ⟨hleaves, hnext⟩ | ⟨-, hg, -⟩ | hnext :=
      step_of_follows (hclean ic (List.mem_cons_self ..)) h
    · exact ⟨hleaves, ih hrest hnext hret⟩
    · cases hg
    · exact absurd hneg (not_neg_of_updated hnext hret)

/-- **A call that returns an error**, from where it has changed nothing. -/
theorem leaves_or_changes {sched : List (ι × Choice)} (hclean : ∀ ic ∈ sched, ic.2.Clean)
    {x : Pool.Config ι (Req Text) Req.Reply ℤ (Store Text)}
    (h : (dataProtocol p).Follows .untouched (x.procs i)) {r : ℤ}
    (hret : (Pool.run serve sched x).returned i = some r) (hneg : r < 0) :
    Pool.Meets serve (Leaves i) sched x
      ∨ ∃ sched₁ c sched₂, sched = sched₁ ++ (i, c) :: sched₂
        ∧ Pool.Meets serve (Leaves i) sched₁ x
        ∧ ChangesBlock p (Pool.run serve sched₁ x).store
          (Pool.run serve (sched₁ ++ [(i, c)]) x).store
        ∧ Pool.Meets serve (Leaves i) sched₂ (Pool.run serve (sched₁ ++ [(i, c)]) x) := by
  induction sched generalizing x with
  | nil => exact .inl trivial
  | cons ic sched ih =>
    have hrest : ∀ ic' ∈ sched, ic'.2.Clean := fun ic' h => hclean ic' (List.mem_cons_of_mem ic h)
    obtain ⟨hleaves, hnext⟩ | ⟨hi, -, hch, hnext⟩ | hnext :=
      step_of_follows (hclean ic (List.mem_cons_self ..)) h
    · obtain hall | ⟨sched₁, c, sched₂, rfl, h₁, hch, h₂⟩ := ih hrest hnext hret
      · exact .inl ⟨hleaves, hall⟩
      · exact .inr ⟨ic :: sched₁, c, sched₂, rfl, ⟨hleaves, h₁⟩, hch, h₂⟩
    · -- this is the request that changes the block
      subst hi
      exact .inr ⟨[], ic.2, sched, rfl, trivial, hch, leaves_of_changed hrest hnext hret hneg⟩
    · exact absurd hneg (not_neg_of_updated hnext hret)

/-- **What a failed call leaves behind.** A write or a truncation of `p`
among any other programs, their requests interleaved in any way, any of them
failing as long as it then has no effect. If the call returns a negative
value, then each of its requests has left the whole store as it was, but for
at most one, and that one has stored or removed the block of `p` and nothing
else. In particular no stat has been touched. -/
theorem failed_leaves {call : DataCall} (hfits : call.Fits) {code : ι → Op Text ℤ}
    (hcode : code i = call.code p) {sched : List (ι × Choice)}
    (hclean : ∀ ic ∈ sched, ic.2.Clean) {s : Store Text} {r : ℤ}
    (hret : (Pool.run serve sched (Pool.start code s)).returned i = some r) (hneg : r < 0) :
    let x := Pool.start code s
    Pool.Meets serve (Leaves i) sched x
      ∨ ∃ sched₁ c sched₂, sched = sched₁ ++ (i, c) :: sched₂
        ∧ Pool.Meets serve (Leaves i) sched₁ x
        ∧ ChangesBlock p (Pool.run serve sched₁ x).store
          (Pool.run serve (sched₁ ++ [(i, c)]) x).store
        ∧ Pool.Meets serve (Leaves i) sched₂ (Pool.run serve (sched₁ ++ [(i, c)]) x) := by
  refine leaves_or_changes hclean ?_ hret hneg
  show (dataProtocol p).Follows .untouched (code i)
  rw [hcode]
  exact dataCall_follows hfits

end Runs

/-- A file of one byte. -/
def byteFile : Store (Option Json) :=
  (Store.empty.putStat ['/', 'f'] ((rootStat (sIfreg ||| 0o644) ⟨0, 0⟩).resize 1 ⟨0, 0⟩)).putBlock
    ['/', 'f'] [1]

/-- A write appends a byte; the fetch of the stat times out. -/
def appendTimesOut : List (Unit × Choice) :=
  let g := Choice.good ⟨0, 0⟩
  [((), g), ((), g), ((), g), ((), { g with fate := .refused .timeout })]

theorem clean_appendTimesOut (ic : Unit × Choice) (hic : ic ∈ appendTimesOut) : ic.2.Clean := by
  simp only [appendTimesOut, List.mem_cons, List.not_mem_nil, or_false] at hic
  rcases hic with rfl | rfl | rfl | rfl <;> trivial

/-- The one request that has changed anything has stored the block. -/
theorem failed_leaves_append :
    let x := Pool.start (fun _ => (DataCall.write [9] 1).code ['/', 'f']) byteFile
    Pool.Meets serve (Leaves ()) appendTimesOut x
      ∨ ∃ sched₁ c sched₂, appendTimesOut = sched₁ ++ ((), c) :: sched₂
        ∧ Pool.Meets serve (Leaves ()) sched₁ x
        ∧ ChangesBlock ['/', 'f'] (Pool.run serve sched₁ x).store
          (Pool.run serve (sched₁ ++ [((), c)]) x).store
        ∧ Pool.Meets serve (Leaves ()) sched₂ (Pool.run serve (sched₁ ++ [((), c)]) x) :=
  @failed_leaves _ _ _ () ['/', 'f'] (.write [9] 1) (show 1 < 2 ^ 31 by decide) _ rfl _
    clean_appendTimesOut _ (-1) (by decide) (by decide)

/-- The write reports an error, and the file has the byte. -/
theorem write_half_done :
    let x := Pool.run serve appendTimesOut
      (Pool.start (fun _ => (DataCall.write [9] 1).code ['/', 'f']) byteFile)
    x.returned () = some (-1)
      ∧ byteFile.blocks.val ['/', 'f'] = some [1]
      ∧ x.store.blocks.val ['/', 'f'] = some [1, 9]
      ∧ x.store.stats.val ['/', 'f'] = byteFile.stats.val ['/', 'f'] := by
  intro x
  exact ⟨by decide, by decide, by decide, by decide⟩

end Cbfuse

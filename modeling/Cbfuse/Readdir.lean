import Cbfuse.Handlers

/-!
# Listing a directory

`cbfuse_readdir` is given a buffer by way of a `filler`, which takes one
entry at a time, with the offset a later call is to go on from. The filler
says when the buffer is full, and FUSE calls again from the offset of the
last entry it took.

The loop does not stop when the filler says so. It goes on offering the
entries that come after, of which a shorter one may still fit, and it returns
what the filler said of the last one. So a listing that needs more than one
call either ends in an error or has lost the entries that were refused
before the last was taken: the accepted names are the children, and every
call returns zero, exactly if all entries fit the buffer at once
(`readdir_complete_iff`).
-/

namespace Cbfuse

variable {Text β : Type} [CJson Text]

/-! ## The handler -/

/-- The loop of `cbfuse_readdir`, from the child at `childOffset`: children
before `offset` are passed over, the others go to the filler. The first one
that is not a string ends it. -/
def fillLoop (filler : β → CString → ℕ → ℤ × β) (offset : ℤ) :
    List Json → ℕ → ℤ → β → ℤ × β
  | [], _, fresult, buf => (fresult, buf)
  | child :: children, childOffset, fresult, buf =>
    if (childOffset : ℤ) ≥ offset then
      match child.getStringValue with
      | none => (0, buf)
      | some name =>
        -- what the filler returns is kept, and not looked at
        let r := filler buf name (childOffset + 1)
        fillLoop filler offset children (childOffset + 1) r.1 r.2
    else fillLoop filler offset children (childOffset + 1) fresult buf

/-- `cbfuse_readdir`: `filler` is what FUSE passes, `buf` the buffer it
fills. -/
def cbfuseReaddir (path : CString) (filler : β → CString → ℕ → ℤ × β) (offset : ℤ) (buf : β) :
    Op Text (ℤ × β) := do
  match ← getDentryJson path with
  | .error fresult => return (fresult, buf)
  | .ok dentryJson =>
    match Json.arrayItems (Json.getObjectItemCaseSensitive dentryJson dentryChildren) with
    | none => return (0, buf)
    | some children => return fillLoop filler offset children 0 0 buf

/-- A listing makes one request. -/
theorem cbfuseReaddir_eq (path : CString) (filler : β → CString → ℕ → ℤ × β) (offset : ℤ)
    (buf : β) :
    (cbfuseReaddir path filler offset buf : Op Text (ℤ × β))
      = .call (.dentries (.get path)) (fun resp =>
          match dentryReply resp with
          | .error fresult => .ret (fresult, buf)
          | .ok dentryJson =>
            match Json.arrayItems (Json.getObjectItemCaseSensitive dentryJson dentryChildren) with
            | none => .ret (0, buf)
            | some children => .ret (fillLoop filler offset children 0 0 buf)) := by
  unfold cbfuseReaddir getDentryJson askDentries
  simp only [Prog.call_bind, Prog.ret_bind, Prog.pure_eq_ret]

/-! ## The buffer of FUSE, and the calls it makes -/

/-- A buffer for directory entries: the space that is left, and the entries
it took, each with the offset to go on from. -/
structure DirBuf where
  /-- The space that is left. -/
  space : ℕ
  /-- The entries taken. -/
  entries : List (CString × ℕ)
  deriving DecidableEq

/-- A fresh buffer. -/
def DirBuf.fresh (size : ℕ) : DirBuf := ⟨size, []⟩

/-- **The filler**: an entry that fits is taken, any other refused. How
much space an entry takes is up to `entSize`. -/
def DirBuf.fill (entSize : CString → ℕ) (buf : DirBuf) (name : CString) (offset : ℕ) :
    ℤ × DirBuf :=
  if entSize name ≤ buf.space then
    (0, ⟨buf.space - entSize name, buf.entries ++ [(name, offset)]⟩)
  else (1, buf)

/-- What one call returns, if it returns, and the entries it got taken. -/
abbrev Page := Option ℤ × List (CString × ℕ)

/-- **The calls FUSE makes**: from an offset with a fresh buffer, and again
from the offset of the last entry taken, until a call takes none – at most
`fuel` calls, the next one served under the choices `envs 0`. -/
def listDir (entSize : CString → ℕ) (size : ℕ) (path : CString) :
    ℕ → (ℕ → ℕ → Choice) → ℕ → Store Text → List Page
  | 0, _, _, _ => []
  | fuel + 1, envs, offset, s =>
    match (cbfuseReaddir path (DirBuf.fill entSize) offset (.fresh size)).run serve (envs 0) s with
    | (none, _) => [(none, [])]
    | (some (fresult, buf), s) => (some fresult, buf.entries) ::
      match buf.entries.getLast? with
      | none => []
      | some last => listDir entSize size path fuel (fun n => envs (n + 1)) last.2 s

/-! ## What one call offers -/

/-- Names offered to the filler one after the other, whatever it says, the
first of them being the child at `n`. -/
def offer (entSize : CString → ℕ) : List CString → ℕ → ℤ → DirBuf → ℤ × DirBuf
  | [], _, fresult, buf => (fresult, buf)
  | name :: names, n, _, buf =>
    let r := buf.fill entSize name (n + 1)
    offer entSize names (n + 1) r.1 r.2

section Offer

variable {entSize : CString → ℕ}

omit [CJson Text] in
/-- On a list of names the loop offers those from the offset on. -/
theorem fillLoop_names (offset : ℕ) (names : List CString) (n : ℕ) (fresult : ℤ) (buf : DirBuf) :
    fillLoop (DirBuf.fill entSize) offset (names.map Json.string) n fresult buf
      = offer entSize (names.drop (offset - n)) (max n offset) fresult buf := by
  induction names generalizing n fresult buf with
  | nil => rw [List.drop_nil]; rfl
  | cons name names ih =>
    rw [List.map_cons, fillLoop]
    by_cases hn : offset ≤ n
    · rw [if_pos (by omega), Nat.sub_eq_zero_of_le hn, List.drop_zero, offer]
      dsimp only [Json.getStringValue]
      rw [ih, Nat.sub_eq_zero_of_le (by omega), List.drop_zero, max_eq_left hn,
        max_eq_left (by omega)]
    · rw [if_neg (by omega), ih, max_eq_right (by omega), max_eq_right (by omega),
        show offset - n = offset - (n + 1) + 1 by omega, List.drop_succ_cons]

/-- If all names fit they are all taken. -/
theorem offer_fits {names : List CString} {n : ℕ} {fresult : ℤ} {buf : DirBuf}
    (h : (names.map entSize).sum ≤ buf.space) :
    (offer entSize names n fresult buf).1 = (if names = [] then fresult else 0)
      ∧ (offer entSize names n fresult buf).2.entries.map Prod.fst
        = buf.entries.map Prod.fst ++ names := by
  induction names generalizing n fresult buf with
  | nil => exact ⟨rfl, (List.append_nil _).symm⟩
  | cons name names ih =>
    rw [List.map_cons, List.sum_cons] at h
    have hfill : buf.fill entSize name (n + 1)
        = (0, ⟨buf.space - entSize name, buf.entries ++ [(name, n + 1)]⟩) := if_pos (by omega)
    obtain ⟨hcode, hentries⟩ := @ih (n + 1) 0
      ⟨buf.space - entSize name, buf.entries ++ [(name, n + 1)]⟩ (Nat.le_sub_of_add_le (by omega))
    rw [offer, hfill]
    refine ⟨?_, ?_⟩
    · rw [hcode, if_neg (List.cons_ne_nil name names), ite_self]
    · rw [hentries, List.map_append, List.append_assoc]
      rfl

/-- **What one call gets taken**: at most one entry for each name offered,
with offsets among theirs, and fewer entries than names if not all fit. If
the call returns zero the last name was taken. -/
theorem offer_spec (entSize : CString → ℕ) (names : List CString) (n : ℕ) (fresult : ℤ)
    (buf : DirBuf) :
    ∃ l, (offer entSize names n fresult buf).2.entries = buf.entries ++ l
      ∧ (∀ e ∈ l, n < e.2 ∧ e.2 ≤ n + names.length)
      ∧ l.length ≤ names.length
      ∧ (buf.space < (names.map entSize).sum → l.length < names.length)
      ∧ (names ≠ [] → (offer entSize names n fresult buf).1 = 0 →
          ∃ e, l.getLast? = some e ∧ e.2 = n + names.length) := by
  induction names generalizing n fresult buf with
  | nil => exact ⟨[], by simp [offer]⟩
  | cons name names ih =>
    rw [offer]
    by_cases hfit : entSize name ≤ buf.space
    · -- the name is taken
      have hfill : buf.fill entSize name (n + 1)
          = (0, ⟨buf.space - entSize name, buf.entries ++ [(name, n + 1)]⟩) := if_pos hfit
      rw [hfill]
      obtain ⟨l, hl, hoff, hlen, hlt, hlast⟩ := ih (n + 1) 0
        ⟨buf.space - entSize name, buf.entries ++ [(name, n + 1)]⟩
      refine ⟨(name, n + 1) :: l, ?_, fun e he => ?_, ?_, fun hsum => ?_, fun _ h0 => ?_⟩
      · rw [hl, List.append_assoc]
        rfl
      · rw [List.length_cons]
        rcases List.mem_cons.mp he with rfl | he
        · dsimp only
          omega
        · have hrange := hoff e he
          omega
      · simpa using hlen
      · rw [List.map_cons, List.sum_cons] at hsum
        simpa using hlt (by dsimp only; omega)
      · by_cases hnil : names = []
        · subst hnil
          have hl0 : l = [] := List.length_eq_zero_iff.mp (Nat.le_zero.mp hlen)
          exact ⟨(name, n + 1), by rw [hl0]; rfl, rfl⟩
        · obtain ⟨e, he, he'⟩ := hlast hnil h0
          refine ⟨e, by rw [List.getLast?_cons, he]; rfl, ?_⟩
          rw [he', List.length_cons]
          omega
    · -- the name is refused, and the loop goes on
      have hfill : buf.fill entSize name (n + 1) = (1, buf) := if_neg hfit
      rw [hfill]
      obtain ⟨l, hl, hoff, hlen, -, hlast⟩ := ih (n + 1) 1 buf
      refine ⟨l, hl, fun e he => ?_, ?_, fun _ => ?_, fun _ h0 => ?_⟩
      · have hrange := hoff e he
        rw [List.length_cons]
        omega
      · exact Nat.le_succ_of_le hlen
      · exact Nat.lt_succ_of_le hlen
      · by_cases hnil : names = []
        · subst hnil
          cases h0
        · obtain ⟨e, he, he'⟩ := hlast hnil h0
          refine ⟨e, he, ?_⟩
          rw [he', List.length_cons]
          omega

end Offer

/-! ## What all calls get -/

section List

variable {entSize : CString → ℕ} {size : ℕ} {path : CString} {t : Text} {names : List CString}
  {s : Store Text}

/-- A call, with nothing failing, on a directory that lists `names`. -/
theorem run_readdir (ht : s.dentries.val path = some t)
    (hi : childItems t = some (names.map Json.string)) {env : ℕ → Choice}
    (henv : ∀ n, (env n).FaultFree) (offset : ℕ) (buf : DirBuf) :
    (cbfuseReaddir path (DirBuf.fill entSize) offset buf).run serve env s
      = (some (offer entSize (names.drop offset) offset 0 buf), s) := by
  obtain ⟨d, hd, rfl⟩ := Option.map_eq_some_iff.mp ht
  rw [cbfuseReaddir_eq, Prog.run_call, (henv 0).serve_dentries]
  simp only [Kv.Collection.serve, hd]
  rw [show dentryReply ⟨⟨none, none, some d⟩, true⟩ = .ok (CJson.parse d.value) from rfl]
  dsimp only
  rw [show Json.arrayItems (Json.getObjectItemCaseSensitive (CJson.parse d.value)
    dentryChildren) = some (names.map Json.string) from hi]
  simp only [Prog.run_ret, fillLoop_names, Nat.sub_zero, Nat.zero_max]

/-- One call and those after it. -/
theorem listDir_succ (ht : s.dentries.val path = some t)
    (hi : childItems t = some (names.map Json.string)) {envs : ℕ → ℕ → Choice}
    (henvs : ∀ k n, (envs k n).FaultFree) (fuel offset : ℕ) :
    listDir entSize size path (fuel + 1) envs offset s
      = let r := offer entSize (names.drop offset) offset 0 (.fresh size)
        (some r.1, r.2.entries) ::
          match r.2.entries.getLast? with
          | none => []
          | some last => listDir entSize size path fuel (fun n => envs (n + 1)) last.2 s := by
  rw [listDir, run_readdir ht hi (henvs 0)]

/-- **The calls come to an end**: each goes on from a later offset, so the
last one takes nothing. -/
theorem listDir_ends (ht : s.dentries.val path = some t)
    (hi : childItems t = some (names.map Json.string)) {envs : ℕ → ℕ → Choice}
    (henvs : ∀ k n, (envs k n).FaultFree) {fuel offset : ℕ} (hoff : offset ≤ names.length)
    (hfuel : names.length < fuel + offset) :
    ∃ page, (listDir entSize size path fuel envs offset s).getLast? = some page
      ∧ page.2 = [] := by
  induction fuel generalizing offset envs with
  | zero => omega
  | succ fuel ih =>
    obtain ⟨l, hl, hrange, -, -, -⟩ := offer_spec entSize (names.drop offset) offset 0
      (.fresh size)
    rw [List.length_drop] at hrange
    rw [listDir_succ ht hi henvs]
    dsimp only
    rw [hl, DirBuf.fresh, List.nil_append]
    cases hlast : l.getLast? with
    | none =>
      rw [List.getLast?_eq_none_iff] at hlast
      subst hlast
      exact ⟨_, rfl, rfl⟩
    | some e =>
      have he := hrange e (List.mem_of_getLast? hlast)
      obtain ⟨page, hpage, hnil⟩ := ih (fun k => henvs (k + 1))
        (show e.2 ≤ names.length by omega) (by omega)
      refine ⟨page, ?_, hnil⟩
      rw [List.getLast?_cons, hpage]
      rfl

/-- A call from the end of the list is the last. -/
theorem listDir_length (ht : s.dentries.val path = some t)
    (hi : childItems t = some (names.map Json.string)) {envs : ℕ → ℕ → Choice}
    (henvs : ∀ k n, (envs k n).FaultFree) {fuel : ℕ} (hfuel : 0 < fuel) :
    listDir entSize size path fuel envs names.length s = [(some 0, [])] := by
  obtain ⟨fuel, rfl⟩ := Nat.exists_eq_add_one_of_ne_zero (Nat.pos_iff_ne_zero.mp hfuel)
  rw [listDir_succ ht hi henvs, List.drop_length]
  rfl

end List

/-- **A listing is complete exactly if it takes one call.** On a directory
that lists `names`, with nothing failing, the calls FUSE makes come to an end;
and every one of them returns zero and the names accepted are `names` in
order, none skipped and none repeated, exactly if all of them fit one buffer
together. -/
theorem readdir_complete_iff (entSize : CString → ℕ) (size : ℕ) {path : CString} {t : Text}
    {names : List CString} {s : Store Text} (ht : s.dentries.val path = some t)
    (hi : childItems t = some (names.map Json.string)) {envs : ℕ → ℕ → Choice}
    (henvs : ∀ k n, (envs k n).FaultFree) {fuel : ℕ} (hfuel : names.length < fuel) :
    let pages := listDir entSize size path fuel envs 0 s
    (∃ page, pages.getLast? = some page ∧ page.2 = [])
      ∧ (((∀ page ∈ pages, page.1 = some 0)
            ∧ pages.flatMap (fun page => page.2.map Prod.fst) = names)
          ↔ (names.map entSize).sum ≤ size) := by
  intro pages
  refine ⟨listDir_ends ht hi henvs (Nat.zero_le _) (by omega), ?_⟩
  obtain ⟨fuel, rfl⟩ := Nat.exists_eq_add_one_of_ne_zero
    (Nat.pos_iff_ne_zero.mp (Nat.zero_lt_of_lt hfuel))
  by_cases hnil : names = []
  · subst hnil
    have hpages : pages = [(some 0, [])] := listDir_length ht hi henvs (Nat.succ_pos _)
    rw [hpages]
    simp
  have hpos := List.length_pos_of_ne_nil hnil
  obtain ⟨l, hl, -, hlen, hlt, hlast⟩ :=
    offer_spec entSize names 0 0 (.fresh size)
  have hpages : pages = _ := listDir_succ ht hi henvs fuel 0
  rw [List.drop_zero] at hpages
  -- if the first call returns zero, the second one finds nothing left
  have hsecond : (offer entSize names 0 0 (.fresh size)).1 = 0 →
      pages = [(some 0, l), (some 0, [])] := by
    intro h0
    obtain ⟨e, he, he'⟩ := hlast hnil h0
    rw [hpages]
    dsimp only
    rw [h0, hl, DirBuf.fresh, List.nil_append, he]
    dsimp only
    rw [he', Nat.zero_add, listDir_length ht hi (fun k => henvs (k + 1)) (by omega)]
  by_cases hfit : (names.map entSize).sum ≤ size
  · refine iff_of_true ?_ hfit
    obtain ⟨hcode, hentries⟩ := @offer_fits entSize names 0 0 (.fresh size) hfit
    rw [if_neg hnil] at hcode
    rw [hl] at hentries
    rw [hsecond hcode]
    refine ⟨?_, by simpa [DirBuf.fresh] using hentries⟩
    simp
  · refine iff_of_false (fun ⟨hzero, hall⟩ => ?_) hfit
    have hcode : (offer entSize names 0 0 (.fresh size)).1 = 0 :=
      Option.some.inj (hzero _ (by rw [hpages]; exact List.mem_cons_self ..))
    rw [hsecond hcode] at hall
    have hcount := congrArg List.length hall
    have hfew := hlt (Nat.lt_of_not_le hfit)
    simp at hcount
    omega

/-- Two names that fit one buffer together. -/
theorem readdir_complete_iff_two :
    let s : Store (Option Json) := Store.empty.putDentry ['/']
      (CJson.printUnformatted (createDentry ['/'] none [['a'], ['b']]))
    listDir List.length 2 ['/'] 3 (fun _ _ => .good ⟨0, 0⟩) 0 s
        = [(some 0, [(['a'], 1), (['b'], 2)]), (some 0, [])]
      ∧ (listDir List.length 2 ['/'] 3 (fun _ _ => .good ⟨0, 0⟩) 0 s).flatMap
          (fun page => page.2.map Prod.fst) = [['a'], ['b']] := by
  intro s
  refine ⟨by decide, ((readdir_complete_iff List.length 2 (t := _) (s := s) rfl rfl
    (fun _ _ => Choice.faultFree_good _) (by decide)).2.mpr (by decide)).2⟩

/-- Of a long name and a short one behind it the long one is lost, though
either fits the buffer. -/
theorem readdir_skips :
    let s : Store (Option Json) := Store.empty.putDentry ['/']
      (CJson.printUnformatted (createDentry ['/'] none [['a'], ['b', 'b'], ['c']]))
    let pages := listDir List.length 2 ['/'] 4 (fun _ _ => .good ⟨0, 0⟩) 0 s
    pages = [(some 0, [(['a'], 1), (['c'], 3)]), (some 0, [])]
      ∧ pages.flatMap (fun page => page.2.map Prod.fst) ≠ [['a'], ['b', 'b'], ['c']] := by
  decide

-- with room for one of two names the first call returns what the filler said of the second
example :
    listDir List.length 1 ['/'] 3 (fun _ _ => .good ⟨0, 0⟩) 0
        ((Store.empty : Store (Option Json)).putDentry ['/']
          (CJson.printUnformatted (createDentry ['/'] none [['a'], ['b']])))
      = [(some 1, [(['a'], 1)]), (some 0, [(['b'], 2)]), (some 0, [])] := by
  decide

end Cbfuse

import Mathlib.Order.CompleteBooleanAlgebra
import Cbfuse.Likeness
import Cbfuse.Origins
import Cbfuse.Renaming

/-!
# Clients that have nothing to do with each other

The documents a call can touch are known from its arguments (`Call.places`).
Calls that have none in common share the server all the same, and they notice
it in one way only: the CAS numbers are drawn from one source. A stat update
hands back the number it was given and does nothing else with it, so there is
nothing else to notice.

So a group of clients works as if it were alone, whatever the others do,
whatever becomes of their requests, and wherever they are cut off
(`isolated`). And what becomes of several groups depends on the order within
each group only, not on how the groups are interleaved (`groups_commute`).
-/

namespace Cbfuse

open CString (rootDirString)

variable {Text α β ι : Type}

/-! ## Documents -/

/-- **The documents of the bucket**, by collection and key. -/
inductive Place where
  /-- A stat. -/
  | stat (p : CString)
  /-- A directory document. -/
  | dentry (k : CString)
  /-- A block. -/
  | block (p : CString)
  deriving DecidableEq

/-- The document a request is about. -/
def Req.place : Req Text → Option Place
  | .stats r => some (.stat r.key)
  | .dentries r => some (.dentry r.key)
  | .blocks r => some (.block r.key)
  | _ => none

/-- The request is about one of these documents, if it is about any. -/
def Req.At (F : Place → Prop) (q : Req Text) : Prop := ∀ d, q.place = some d → F d

/-- Two stores have the same value there. -/
def Store.SameAt (s s' : Store Text) : Place → Prop
  | .stat p => s.stats.val p = s'.stats.val p
  | .dentry k => s.dentries.val k = s'.dentries.val k
  | .block p => s.blocks.val p = s'.blocks.val p

/-- A store is the same as itself at any document. -/
theorem Store.SameAt.refl (s : Store Text) (d : Place) : s.SameAt s d := by
  cases d <;> rfl

/-- Sameness at a document goes from store to store. -/
theorem Store.SameAt.trans {s s' s'' : Store Text} {d : Place} (h : s.SameAt s' d)
    (h' : s'.SameAt s'' d) : s.SameAt s'' d := by
  cases d with
  | stat p => exact Eq.trans h h'
  | dentry k => exact Eq.trans h h'
  | block p => exact Eq.trans h h'

/-- Sameness at a document goes both ways. -/
theorem Store.SameAt.symm {s s' : Store Text} {d : Place} (h : s.SameAt s' d) :
    s'.SameAt s d := by
  cases d with
  | stat p => exact Eq.symm h
  | dentry k => exact Eq.symm h
  | block p => exact Eq.symm h

/-! ## Stores alike -/

/-- The numbers of the three collections, and those they correspond to. -/
abbrev Numbers := Kv.Cas × Kv.Cas × Kv.Cas

/-- The same request. -/
inductive Req.Like (w : Numbers) : Req Text → Req Text → Prop where
  /-- To the stats. -/
  | stats {r r' : Kv.Request CString StatDoc} (h : r.Like w.1 r') : Like w (.stats r) (.stats r')
  /-- To the directory documents. -/
  | dentries {r r' : Kv.Request CString Text} (h : r.Like w.2.1 r') :
    Like w (.dentries r) (.dentries r')
  /-- To the blocks. -/
  | blocks {r r' : Kv.Request CString Bytes} (h : r.Like w.2.2 r') :
    Like w (.blocks r) (.blocks r')
  /-- For the clock. -/
  | clockGettime : Like w .clockGettime .clockGettime
  /-- For memory. -/
  | malloc (n : ℕ) : Like w (.malloc n) (.malloc n)
  /-- For the memory behind a buffer. -/
  | overread (n : ℕ) : Like w (.overread n) (.overread n)

/-- The same response. -/
def Response.Like {V : Type} (ρ : Kv.Cas) (resp resp' : Response V) : Prop :=
  resp.toReply.Like ρ resp'.toReply ∧ resp.alloc = resp'.alloc

/-- The same reply. -/
def Req.RepliesLike (w : Numbers) : (q q' : Req Text) → q.Reply → q'.Reply → Prop
  | .stats _, .stats _, resp, resp' => Response.Like w.1 resp resp'
  | .dentries _, .dentries _, resp, resp' => Response.Like w.2.1 resp resp'
  | .blocks _, .blocks _, resp, resp' => Response.Like w.2.2 resp resp'
  | .clockGettime, .clockGettime, now, now' => now = now'
  | .malloc _, .malloc _, buf, buf' => buf.map Subtype.val = buf'.map Subtype.val
  | .overread _, .overread _, buf, buf' => buf.map Subtype.val = buf'.map Subtype.val
  | _, _, _, _ => False

/-- Requests stay alike when more numbers correspond. -/
theorem Req.Like.mono {w w' : Numbers} (hw : w ≤ w') {q q' : Req Text} (h : q.Like w q') :
    q.Like w' q' := by
  cases h with
  | stats h => exact .stats (h.mono hw.1)
  | dentries h => exact .dentries (h.mono hw.2.1)
  | blocks h => exact .blocks (h.mono hw.2.2)
  | clockGettime => exact .clockGettime
  | malloc n => exact .malloc n
  | overread n => exact .overread n

/-- **Requests about these documents, and replies, up to the numbers.** -/
def likeness (Text : Type) (F : Place → Prop) : Likeness Numbers (Req Text) Req.Reply where
  ask w q q' := q.At F ∧ q.Like w q'
  reply := Req.RepliesLike
  ask_mono hw h := ⟨h.1, h.2.mono hw⟩

/-- **Stores with the same values at these documents.** -/
structure Store.Like (F : Place → Prop) (w : Numbers) (s s' : Store Text) : Prop where
  /-- The stats. -/
  stats : s.stats.Like w.1 (fun p => F (.stat p)) s'.stats
  /-- The directory documents. -/
  dentries : s.dentries.Like w.2.1 (fun k => F (.dentry k)) s'.dentries
  /-- The blocks. -/
  blocks : s.blocks.Like w.2.2 (fun p => F (.block p)) s'.blocks

/-- A store is like itself, with every number it has drawn corresponding to
itself. -/
theorem Store.Like.refl (F : Place → Prop) (s : Store Text) : ∃ w, s.Like F w s :=
  ⟨(_, _, _), .refl _ _, .refl _ _, .refl _ _⟩

/-- Stores that are alike have the same documents where they are. -/
theorem Store.Like.sameAt {F : Place → Prop} {w : Numbers} {s s' : Store Text}
    (h : s.Like F w s') {d : Place} (hd : F d) : s.SameAt s' d := by
  cases d with
  | stat p => exact h.stats.val hd
  | dentry k => exact h.dentries.val hd
  | block p => exact h.blocks.val hd

/-- **Requests alike are answered alike.** -/
theorem serve_like {F : Place → Prop} (c : Choice) {w : Numbers} {q q' : Req Text}
    {s s' : Store Text} (hq : (likeness Text F).ask w q q') (hs : s.Like F w s') :
    ∃ w', w ≤ w' ∧ (serve c q s).2.Like F w' (serve c q' s').2
      ∧ Req.RepliesLike w' q q' (serve c q s).1 (serve c q' s').1 := by
  obtain ⟨hat, hlike⟩ := hq
  cases hlike with
  | stats h =>
    obtain ⟨ρ, hρ, hstats, hreply⟩ := hs.stats.answer c.fate h (hat _ rfl)
    exact ⟨(ρ, w.2), ⟨hρ, le_rfl⟩, ⟨hstats, hs.dentries, hs.blocks⟩, hreply, rfl⟩
  | dentries h =>
    obtain ⟨ρ, hρ, hdentries, hreply⟩ := hs.dentries.answer c.fate h (hat _ rfl)
    exact ⟨(w.1, ρ, w.2.2), ⟨le_rfl, hρ, le_rfl⟩, ⟨hs.stats, hdentries, hs.blocks⟩, hreply, rfl⟩
  | blocks h =>
    obtain ⟨ρ, hρ, hblocks, hreply⟩ := hs.blocks.answer c.fate h (hat _ rfl)
    exact ⟨(w.1, w.2.1, ρ), ⟨le_rfl, le_rfl, hρ⟩, ⟨hs.stats, hs.dentries, hblocks⟩, hreply, rfl⟩
  | clockGettime => exact ⟨w, le_rfl, hs, rfl⟩
  | malloc n => exact ⟨w, le_rfl, hs, rfl⟩
  | overread n => exact ⟨w, le_rfl, hs, rfl⟩

/-- **A request about another document is not noticed.** -/
theorem serve_unnoticed {F : Place → Prop} (c : Choice) {w : Numbers} {q : Req Text}
    {s s' : Store Text} (hq : q.At (fun d => ¬ F d)) (hs : s.Like F w s') :
    (serve c q s).2.Like F w s' := by
  cases q with
  | stats r => exact ⟨hs.stats.answer_of_ne c.fate (hq _ rfl), hs.dentries, hs.blocks⟩
  | dentries r => exact ⟨hs.stats, hs.dentries.answer_of_ne c.fate (hq _ rfl), hs.blocks⟩
  | blocks r => exact ⟨hs.stats, hs.dentries, hs.blocks.answer_of_ne c.fate (hq _ rfl)⟩
  | clockGettime => exact hs
  | malloc n => exact hs
  | overread n => exact hs

/-! ## Programs that work within some documents -/

/-- **The program works within these documents**, and does nothing with a CAS
but hand it back. -/
def Op.Within (F : Place → Prop) (prog : Op Text α) : Prop :=
  ∀ w, (likeness Text F).Alike (fun _ => Eq) prog prog w

section Within

variable {F : Place → Prop}

/-- A program that returns touches nothing. -/
theorem within_ret (a : α) : Op.Within F (.ret a : Op Text α) := fun _ => .ret rfl

/-- A program that dies touches nothing. -/
theorem within_crash : Op.Within F (.crash : Op Text α) := fun _ => .crash

/-- A sequence touches what its parts touch. -/
theorem within_bind {γ : Type} {prog : Op Text γ} {f : γ → Op Text α} (hp : prog.Within F)
    (hf : ∀ a, (f a).Within F) : (prog >>= f).Within F := by
  refine fun w => Likeness.alike_bind (hp w) (fun w' _ a b hab => ?_)
  subst hab
  exact hf a w'

/-- What is made of a result touches nothing. -/
theorem within_map {γ : Type} (f : γ → α) {prog : Op Text γ} (hp : prog.Within F) :
    (f <$> prog : Op Text α).Within F := by
  rw [map_eq_pure_bind]
  exact within_bind hp (fun a => within_ret (f a))

/-- A program that stays within some documents stays within more of them. -/
theorem Op.Within.mono {G : Place → Prop} (hFG : ∀ d, F d → G d) {prog : Op Text α}
    (h : prog.Within F) : prog.Within G := by
  have hmono : ∀ {p p' : Op Text α} {w : Numbers},
      (likeness Text F).Alike (fun _ => Eq) p p' w →
        (likeness Text G).Alike (fun _ => Eq) p p' w := by
    intro p p' w h
    induction h with
    | ret h => exact .ret h
    | call hask _ ih => exact .call ⟨fun d hd => hFG d (hask.1 d hd), hask.2⟩ ih
    | crash => exact .crash
  exact fun w => hmono (h w)

/-- A reply is like itself, as long as nothing has to be told apart. -/
theorem repliesLike_top (q : Req Text) (r : q.Reply) : Req.RepliesLike ⊤ q q r r := by
  have hdoc : ∀ {V : Type} (o : Option (Kv.Doc V)), Kv.DocsLike ⊤ o o := by
    intro V o
    cases o with
    | none => exact .none
    | some d => exact .some ⟨rfl, trivial⟩
  cases q with
  | stats q => exact ⟨⟨rfl, rfl, hdoc _⟩, rfl⟩
  | dentries q => exact ⟨⟨rfl, rfl, hdoc _⟩, rfl⟩
  | blocks q => exact ⟨⟨rfl, rfl, hdoc _⟩, rfl⟩
  | clockGettime => rfl
  | malloc n => rfl
  | overread n => rfl

/-- **A program that works within some documents makes no request about
others.** -/
theorem Op.Within.only {prog : Op Text α} (h : prog.Within F) : prog.Only (Req.At F) := by
  have honly : ∀ {p : Op Text α}, (likeness Text F).Alike (fun _ => Eq) p p ⊤ →
      p.Only (Req.At F) := by
    intro p
    induction p with
    | ret a => exact fun _ => trivial
    | call q k ih =>
      intro h
      cases h with
      | call hask h => exact ⟨hask.1, fun r => ih r (h ⊤ le_rfl r r (repliesLike_top q r))⟩
    | crash => exact fun _ => trivial
  exact honly (h ⊤)

/-! ### Requests whose CAS is not looked at -/

/-- Reading the clock touches no document. -/
theorem within_clock {f : Option Timespec → Op Text α} (hf : ∀ now, (f now).Within F) :
    Op.Within F (.call .clockGettime f : Op Text α) := by
  refine fun w => .call ⟨(fun _ hd => by cases hd), .clockGettime⟩ (fun w' _ now now' hnow => ?_)
  obtain rfl : now = now' := hnow
  exact hf now w'

/-- An allocation touches no document. -/
theorem within_malloc {n : ℕ} {f : Option (Buf n) → Op Text α} (hf : ∀ buf, (f buf).Within F) :
    Op.Within F (.call (.malloc n) f : Op Text α) := by
  refine fun w => .call ⟨(fun _ hd => by cases hd), .malloc n⟩ (fun w' _ buf buf' hbuf => ?_)
  obtain rfl : buf = buf' := Option.map_injective Subtype.val_injective hbuf
  exact hf buf w'

/-- Reading past the end of a buffer touches no document. -/
theorem within_overread {n : ℕ} {f : Option (Buf n) → Op Text α} (hf : ∀ buf, (f buf).Within F) :
    Op.Within F (.call (.overread n) f : Op Text α) := by
  refine fun w => .call ⟨(fun _ hd => by cases hd), .overread n⟩ (fun w' _ buf buf' hbuf => ?_)
  obtain rfl : buf = buf' := Option.map_injective Subtype.val_injective hbuf
  exact hf buf w'

/-- A request for memory is no request for a document. -/
theorem within_of_onMemory {prog : Op Text α} (h : prog.Only Req.OnMemory) : prog.Within F := by
  induction prog with
  | ret a => exact within_ret a
  | call q k ih =>
    cases q with
    | malloc n => exact within_malloc (fun buf => ih buf (h.2 buf))
    | overread n => exact within_overread (fun buf => ih buf (h.2 buf))
    | _ => exact h.1.elim
  | crash => exact within_crash

/-- A response without its CAS. -/
def Response.bare {V : Type} (resp : Response V) : Response V :=
  { resp with doc := resp.doc.map (fun d => ⟨d.value, 0⟩) }

/-- Replies that are alike are the same but for the CAS. -/
theorem Response.Like.bare {V : Type} {ρ : Kv.Cas} {resp resp' : Response V}
    (h : resp.Like ρ resp') : resp.bare = resp'.bare := by
  obtain ⟨⟨rc, status, doc⟩, alloc⟩ := resp
  obtain ⟨⟨rc', status', doc'⟩, alloc'⟩ := resp'
  obtain ⟨⟨rfl, rfl, hdoc⟩, rfl⟩ := h
  cases hdoc with
  | none => rfl
  | some h =>
    show (⟨⟨rc, status, some ⟨_, 0⟩⟩, alloc⟩ : Response V) = ⟨⟨rc, status, some ⟨_, 0⟩⟩, alloc⟩
    rw [h.1]

/-- The program goes on as if there were no CAS. -/
def Blind {V : Type} (f : Response V → Op Text α) : Prop := ∀ resp, f resp = f resp.bare

/-- A request to the stats. -/
theorem within_stats {r : Kv.Request CString StatDoc} {f : Response StatDoc → Op Text α}
    (hr : r.Like ⊥ r) (hF : F (.stat r.key)) (hblind : Blind f) (hf : ∀ resp, (f resp).Within F) :
    Op.Within F (.call (.stats r) f : Op Text α) := by
  refine fun w => .call ⟨(fun _ hd => by cases hd; exact hF), .stats (hr.mono bot_le)⟩
    (fun w' _ resp resp' hresp => ?_)
  rw [hblind resp, hblind resp', Response.Like.bare hresp]
  exact hf _ w'

/-- A request to the directory documents. -/
theorem within_dentries {r : Kv.Request CString Text} {f : Response Text → Op Text α}
    (hr : r.Like ⊥ r) (hF : F (.dentry r.key)) (hblind : Blind f)
    (hf : ∀ resp, (f resp).Within F) : Op.Within F (.call (.dentries r) f : Op Text α) := by
  refine fun w => .call ⟨(fun _ hd => by cases hd; exact hF), .dentries (hr.mono bot_le)⟩
    (fun w' _ resp resp' hresp => ?_)
  rw [hblind resp, hblind resp', Response.Like.bare hresp]
  exact hf _ w'

/-- A request to the blocks. -/
theorem within_blocks {r : Kv.Request CString Bytes} {f : Response Bytes → Op Text α}
    (hr : r.Like ⊥ r) (hF : F (.block r.key)) (hblind : Blind f) (hf : ∀ resp, (f resp).Within F) :
    Op.Within F (.call (.blocks r) f : Op Text α) := by
  refine fun w => .call ⟨(fun _ hd => by cases hd; exact hF), .blocks (hr.mono bot_le)⟩
    (fun w' _ resp resp' hresp => ?_)
  rw [hblind resp, hblind resp', Response.Like.bare hresp]
  exact hf _ w'

/-! ### Stats -/

/-- What a fetch of a stat hands out is the same, but for the CAS. -/
def StatsLike (ρ : Kv.Cas) : Except ℤ (CbfuseStat × ℕ) → Except ℤ (CbfuseStat × ℕ) → Prop
  | .error e, .error e' => e = e'
  | .ok r, .ok r' => r.1 = r'.1 ∧ ρ r.2 r'.2
  | _, _ => False

/-- Responses alike lead to the same result, or to the end of both. -/
theorem statReply_like {ρ : Kv.Cas} {resp resp' : Response StatDoc} (h : resp.Like ρ resp') :
    statReply resp = none ∧ statReply resp' = none
      ∨ ∃ r r', statReply resp = some r ∧ statReply resp' = some r' ∧ StatsLike ρ r r' := by
  obtain ⟨⟨rc, status, doc⟩, alloc⟩ := resp
  obtain ⟨⟨rc', status', doc'⟩, alloc'⟩ := resp'
  obtain ⟨⟨rfl, rfl, hdoc⟩, rfl⟩ := h
  cases rc with
  | some e => exact .inr ⟨_, _, rfl, rfl, rfl⟩
  | none =>
    cases status with
    | some e => exact .inr ⟨_, _, rfl, rfl, rfl⟩
    | none =>
      dsimp only at hdoc
      cases hdoc with
      | none => exact .inr ⟨_, _, rfl, rfl, rfl⟩
      | @some d d' h =>
        obtain ⟨v, cas⟩ := d
        obtain ⟨v', cas'⟩ := d'
        obtain ⟨rfl, hcas⟩ := h
        cases v with
        | malformed n hn => exact .inr ⟨_, _, rfl, rfl, rfl⟩
        | packed stat =>
          cases alloc with
          | false => exact .inl ⟨rfl, rfl⟩
          | true => exact .inr ⟨_, _, rfl, rfl, rfl, hcas⟩

/-- Two programs that go on from the fetch of a stat, and die where there is no
memory for it. -/
theorem within_statReply {p : CString} (hF : F (.stat p))
    {f : Except ℤ (CbfuseStat × ℕ) → Op Text α} {g : Response StatDoc → Op Text α}
    (hg : ∀ resp, g resp = (statReply resp).elim .crash f)
    (hf : ∀ w r r', StatsLike w.1 r r' → (likeness Text F).Alike (fun _ => Eq) (f r) (f r') w) :
    Op.Within F (.call (.stats (.get p)) g : Op Text α) := by
  refine fun w => .call ⟨(fun _ hd => by cases hd; exact hF), .stats (.get p)⟩
    (fun w' _ resp resp' h => ?_)
  rw [hg resp, hg resp']
  obtain ⟨he, he'⟩ | ⟨r, r', he, he', hlike⟩ := statReply_like h
  · rw [he, he']
    exact .crash
  · rw [he, he']
    exact hf w' r r' hlike

/-- **An update hands the CAS back**, and does nothing else with it. -/
theorem updateStat_within {p : CString} (hF : F (.stat p)) (clock : Bool)
    (change : Timespec → CbfuseStat → CbfuseStat) :
    Op.Within F (updateStat p clock change : Op Text ℤ) := by
  rw [updateStat_eq]
  let f (r : Except ℤ (CbfuseStat × ℕ)) : Op Text ℤ :=
    r.casesOn (fun e => .ret e) (fun r => replaceStat p clock change r.1 r.2)
  refine within_statReply (f := f) hF (fun resp => ?_) (fun w r r' h => ?_)
  · cases statReply resp with
    | none => rfl
    | some r => cases r <;> rfl
  cases r with
  | error e =>
    cases r' with
    | error e' =>
      obtain rfl : e = e' := h
      exact .ret rfl
    | ok r' => exact h.elim
  | ok r =>
    cases r' with
    | error e' => exact h.elim
    | ok r' =>
      obtain ⟨stat, cas⟩ := r
      obtain ⟨stat', cas'⟩ := r'
      obtain ⟨rfl, hcas⟩ : stat = stat' ∧ w.1 cas cas' := h
      have hstore : ∀ w', w ≤ w' → ∀ ts, (likeness Text F).Alike (fun _ => Eq)
          (.call (.stats (.store .replace p (.packed (change ts stat)) cas))
            (fun resp => .ret (checkResult (-enoent) resp)) : Op Text ℤ)
          (.call (.stats (.store .replace p (.packed (change ts stat)) cas'))
            (fun resp => .ret (checkResult (-enoent) resp))) w' := by
        refine fun w' hw ts => .call ⟨(fun _ hd => by cases hd; exact hF),
          .stats (.storeCas _ _ _ (hw.1 _ _ hcas))⟩ (fun _ _ resp resp' hresp => .ret ?_)
        unfold checkResult
        rw [show resp.rc = resp'.rc from hresp.1.rc,
          show resp.status = resp'.status from hresp.1.status]
      show (likeness Text F).Alike (fun _ => Eq) (replaceStat p clock change stat cas)
        (replaceStat p clock change stat cas') w
      unfold replaceStat
      cases clock with
      | false => exact hstore w le_rfl ⟨0, 0⟩
      | true =>
        refine .call ⟨(fun _ hd => by cases hd), .clockGettime⟩ (fun w' hw now now' hnow => ?_)
        obtain rfl : now = now' := hnow
        cases now with
        | none => exact .ret rfl
        | some ts => exact hstore w' hw ts

/-- An insertion of a stat touches that stat. -/
theorem insertStat_within {p : CString} (hF : F (.stat p)) (mode : ℕ) :
    Op.Within F (insertStat p mode : Op Text ℤ) := by
  rw [insertStat_eq]
  refine within_clock (fun now => ?_)
  cases now with
  | none => exact within_ret _
  | some ts => exact within_stats (.store _ _ _) hF (fun _ => rfl) (fun _ => within_ret _)

/-- A removal of a stat touches that stat. -/
theorem removeStat_within {p : CString} (hF : F (.stat p)) :
    Op.Within F (removeStat p : Op Text ℤ) :=
  within_stats (.remove p) hF (fun _ => rfl) (fun _ => within_ret _)

/-! ### Directories -/

variable [CJson Text]

/-- An insertion of a directory document touches that document. -/
theorem addNewDentry_within {k : CString} (hF : F (.dentry k)) (parent : Option CString) :
    Op.Within F (addNewDentry k k parent : Op Text ℤ) :=
  within_dentries (.store _ _ _) hF (fun _ => rfl) (fun _ => within_ret _)

omit [CJson Text] in
/-- A removal of a directory document touches that document. -/
theorem removeDentry_within {k : CString} (hF : F (.dentry k)) :
    Op.Within F (removeDentry k : Op Text ℤ) :=
  within_dentries (.remove k) hF (fun _ => rfl) (fun _ => within_ret _)

/-- An edit does not look at the CAS it fetched. -/
theorem editReply_bare (edit : List Json → List Json) (resp : Response Text) :
    editReply edit resp.bare = editReply edit resp := by
  obtain ⟨⟨rc, status, doc⟩, alloc⟩ := resp
  cases doc with
  | none => rfl
  | some d => cases alloc <;> rfl

/-- An edit touches the directory document it edits. -/
theorem editDentry_within {k : CString} (hF : F (.dentry k)) (edit : List Json → List Json) :
    Op.Within F (editDentry k edit : Op Text ℤ) := by
  rw [editDentry_eq]
  refine within_dentries (.get k) hF (fun resp => ?_) (fun resp => ?_)
  · rw [editReply_bare]
  · cases editReply edit resp with
    | error e => exact within_ret _
    | ok t => exact within_dentries (.store _ _ _) hF (fun _ => rfl) (fun _ => within_ret _)

/-- A listing does not look at the CAS it fetched. -/
theorem dentryReply_bare (resp : Response Text) : dentryReply resp.bare = dentryReply resp := by
  obtain ⟨⟨rc, status, doc⟩, alloc⟩ := resp
  cases doc with
  | none => rfl
  | some d =>
    cases status with
    | none => rfl
    | some e => rfl

/-- A listing touches the directory document it lists. -/
theorem cbfuseReaddir_within {k : CString} (hF : F (.dentry k))
    (filler : β → CString → ℕ → ℤ × β) (offset : ℤ) (buf : β) :
    Op.Within F (cbfuseReaddir k filler offset buf : Op Text _) := by
  rw [cbfuseReaddir_eq]
  refine within_dentries (.get k) hF (fun resp => ?_) (fun resp => ?_)
  · rw [dentryReply_bare]
  · cases dentryReply resp with
    | error e => exact within_ret _
    | ok dentry =>
      dsimp only
      split
      · exact within_ret _
      · exact within_ret _

/-! ### Blocks -/

omit [CJson Text] in
/-- The store of a block touches that block. -/
theorem storeBlock_within {p : CString} (hF : F (.block p)) (value : Option Bytes) (n : ℕ) :
    Op.Within F (storeBlock p value n : Op Text ℤ) := by
  refine within_bind (within_of_onMemory (load_only _ _ _)) (fun bytes => ?_)
  refine within_blocks (.store _ _ _) hF (fun _ => rfl) (fun resp => ?_)
  show Op.Within F (if resp.rc ≠ none then _ else _)
  split
  · exact within_ret _
  · split
    · exact within_ret _
    · split
      · exact within_ret _
      · exact within_ret _

omit [CJson Text] in
/-- A copy into a buffer and its store touch the block that is stored. -/
theorem copyAndStore_within {p : CString} (hF : F (.block p)) (data : Bytes) (offset : ℤ)
    (value : Option Bytes) (n m : ℕ) :
    Op.Within F (copyAndStore p data offset value n m : Op Text _) :=
  within_bind (within_of_onMemory (memcpy_only _ _ _)) (fun _ =>
    within_bind (storeBlock_within hF _ _) (fun _ => within_ret _))

omit [CJson Text] in
/-- The second half of an update of a block touches that block. -/
theorem modifyBlock_within {p : CString} (hF : F (.block p)) (buf : Option Bytes) (offset : ℤ)
    (nupdate : ℕ) (value : Option Bytes) (n m : ℕ) :
    Op.Within F (modifyBlock p buf offset nupdate value n m : Op Text _) := by
  unfold modifyBlock
  split
  · split
    · refine within_bind (within_of_onMemory (memdupm_only _ _ _)) (fun newData => ?_)
      split
      · exact within_ret _
      · exact copyAndStore_within hF _ _ _ _ _
    · exact copyAndStore_within hF _ _ _ _ _
  · exact within_bind (storeBlock_within hF _ _) (fun _ => within_ret _)

/-- A fetched block without its CAS. -/
def SyncGetResult.bare {V : Type} (r : SyncGetResult V) : SyncGetResult V := { r with cas := 0 }

omit [CJson Text] in
/-- An update of a block does not look at the CAS it fetched. -/
theorem blockReply_bare (resp : Response Bytes) :
    blockReply resp.bare = ((blockReply resp).1, (blockReply resp).2.bare) := by
  obtain ⟨⟨rc, status, doc⟩, alloc⟩ := resp
  cases doc with
  | none => cases status <;> rfl
  | some d => cases status <;> rfl

omit [CJson Text] in
/-- What follows the fetch of a block and has no use for the CAS. -/
theorem within_getBlock {p : CString} (hF : F (.block p))
    {f : ℤ × SyncGetResult Bytes → Op Text α} (hblind : ∀ r, f r = f (r.1, r.2.bare))
    (hf : ∀ r, (f r).Within F) : Op.Within F (getBlock p >>= f) := by
  rw [getBlock_eq, Prog.call_bind]
  refine within_blocks (.get p) hF (fun resp => ?_) (fun resp => hf _)
  rw [Prog.ret_bind, Prog.ret_bind, blockReply_bare]
  exact hblind _

omit [CJson Text] in
/-- An update of a block touches that block. -/
theorem updateBlock_within {p : CString} (hF : F (.block p)) (buf : Option Bytes) (offset : ℤ) :
    Op.Within F (updateBlock p buf offset : Op Text _) := by
  unfold updateBlock
  dsimp only
  split
  · exact within_ret _
  · refine within_getBlock hF (fun r => rfl) (fun r => ?_)
    split
    · split
      · refine within_malloc (fun value => ?_)
        cases value with
        | none => exact within_ret _
        | some value => exact modifyBlock_within hF _ _ _ _ _ _
      · exact within_ret _
    · split
      · exact within_ret _
      · exact modifyBlock_within hF _ _ _ _ _ _

section Entry

variable {p : CString} (hF : ∀ d ∈ [Place.stat p, .block p], F d)

include hF

omit [CJson Text] in
/-- A read touches the block and the stat of its path. -/
theorem readData_within (nbuf : ℕ) (offset : ℤ) :
    Op.Within F (readData p nbuf offset : Op Text _) := by
  refine within_getBlock (hF _ (by simp)) (fun r => rfl) (fun r => ?_)
  dsimp only
  split
  · exact within_ret _
  · split
    · exact within_ret _
    · refine within_bind (within_of_onMemory (load_only _ _ _)) (fun bytes => ?_)
      refine within_bind (updateStat_within (hF _ (by simp)) _ _) (fun fresult => ?_)
      split
      · exact within_ret _
      · exact within_ret _

omit [CJson Text] in
/-- A write touches the block and the stat of its path. -/
theorem writeData_within (buf : Bytes) (offset : ℤ) :
    Op.Within F (writeData p buf offset : Op Text ℤ) := by
  unfold writeData
  split
  · exact within_ret _
  · refine within_bind (updateBlock_within (hF _ (by simp)) _ _) (fun r => ?_)
    dsimp only
    split
    · exact within_ret _
    · split
      · refine within_bind (updateStat_within (hF _ (by simp)) _ _) (fun fresult => ?_)
        split
        · exact within_ret _
        · exact within_ret _
      · exact within_ret _

omit [CJson Text] in
/-- A truncation touches the block and the stat of its path. -/
theorem truncateData_within (offset : ℤ) :
    Op.Within F (truncateData p offset : Op Text ℤ) := by
  unfold truncateData
  have hcut : Op.Within F (if offset = 0 then removeData p
      else Prod.fst <$> updateBlock p none offset : Op Text ℤ) := by
    split
    · exact within_blocks (.remove p) (hF (.block p) (by simp)) (fun _ => rfl)
        (fun _ => within_ret _)
    · exact within_map _ (updateBlock_within (hF _ (by simp)) _ _)
  refine within_bind hcut (fun fresult => ?_)
  split
  · exact within_ret _
  · exact updateStat_within (hF _ (by simp)) _ _

end Entry

/-! ### The operations -/

omit [CJson Text] in
/-- A lookup of attributes touches the stat it looks up. -/
theorem cbfuseGetattr_within {p : CString} (hF : F (.stat p)) (fc : FuseContext) :
    Op.Within F (cbfuseGetattr fc p : Op Text _) := by
  by_cases hlen : p.length > maxPathLen
  · unfold cbfuseGetattr
    rw [if_pos hlen]
    exact within_ret _
  · rw [cbfuseGetattr_eq fc hlen]
    let f (r : Except ℤ (CbfuseStat × ℕ)) : Op Text (Except ℤ FuseStat) :=
      r.casesOn (fun e => .ret (.error e))
        (fun r => .ret (.ok { r.1 with stUid := fc.uid, stGid := fc.gid }))
    refine within_statReply (f := f) hF (fun resp => ?_) (fun w r r' h => ?_)
    · cases statReply resp with
      | none => rfl
      | some r => cases r <;> rfl
    · cases r with
      | error e =>
        cases r' with
        | error e' =>
          obtain rfl : e = e' := h
          exact .ret rfl
        | ok r' => exact h.elim
      | ok r =>
        cases r' with
        | error e' => exact h.elim
        | ok r' =>
          obtain ⟨stat, cas⟩ := r
          obtain ⟨stat', cas'⟩ := r'
          obtain ⟨rfl, -⟩ : stat = stat' ∧ w.1 cas cas' := h
          exact .ret rfl

omit [CJson Text] in
/-- Of the stat fetched by `cbfuse_open` only the error matters. -/
theorem cbfuseOpen_within {p : CString} (hF : F (.stat p)) :
    Op.Within F (cbfuseOpen p : Op Text ℤ) := by
  unfold cbfuseOpen
  split
  · exact within_ret _
  · rw [getStat_eq, Prog.call_bind]
    let f (r : Except ℤ (CbfuseStat × ℕ)) : Op Text ℤ := .ret (codeOf r)
    refine within_statReply (f := f) hF (fun resp => ?_) (fun w r r' h => ?_)
    · cases statReply resp with
      | none => rfl
      | some r => cases r <;> rfl
    · cases r with
      | error e =>
        cases r' with
        | error e' =>
          obtain rfl : e = e' := h
          exact .ret rfl
        | ok r' => exact h.elim
      | ok r =>
        cases r' with
        | error e' => exact h.elim
        | ok r' => exact .ret rfl

omit [CJson Text] in
/-- A step that fails ends the making of an entry. -/
theorem within_orElse {prog rest : Op Text ℤ} (h : prog.Within F) (hrest : rest.Within F) :
    Op.Within F (prog >>= fun fresult => if fresult ≠ 0 then .ret fresult else rest) := by
  refine within_bind h (fun fresult => ?_)
  split
  · exact within_ret _
  · exact hrest

end Within

/-- **The documents a call can touch.** -/
def TreeOp.places : TreeOp → List Place
  | create p _ => [.stat p, .dentry p.dirname]
  | mkdir p _ => [.stat p, .dentry p, .dentry p.dirname]
  | unlink p => [.block p, .dentry p.dirname, .stat p]
  | rmdir p => [.dentry p, .dentry p.dirname, .stat p]

/-- The documents a call on an entry can touch. -/
def EntryOp.places : EntryOp → List Place
  | chmod p _ => [.stat p]
  | utimens p _ => [.stat p]
  | op => [.stat op.path, .block op.path]

/-- The documents an operation can touch. -/
def FuseOp.places : FuseOp β → List Place
  | getattr _ p => [.stat p]
  | openFile p => [.stat p]
  | readdir p _ _ _ => [.dentry p]
  | fs (.tree op) => op.places
  | fs (.entry op) => op.places

/-- The documents a client can touch with a call. -/
def Call.places : Call β → List Place
  | startUp _ => [.stat rootDirString, .dentry rootDirString]
  | fuse op => op.places

section Places

variable [CJson Text]

/-- **A call on the tree stays within its places**: those of its path, and the
document of the directory above. -/
theorem treeOp_within (op : TreeOp) : Op.Within (· ∈ op.places) (op.code : Op Text ℤ) := by
  cases op with
  | create p mode =>
    have hstat : Place.stat p ∈ (TreeOp.create p mode).places := by simp [TreeOp.places]
    have hdir : Place.dentry p.dirname ∈ (TreeOp.create p mode).places := by simp [TreeOp.places]
    show Op.Within _ (cbfuseCreate p mode)
    unfold cbfuseCreate
    split
    · exact within_ret _
    · split
      · exact within_ret _
      · exact within_orElse (insertStat_within hstat mode) (editDentry_within hdir _)
  | mkdir p mode =>
    have hstat : Place.stat p ∈ (TreeOp.mkdir p mode).places := by simp [TreeOp.places]
    have hown : Place.dentry p ∈ (TreeOp.mkdir p mode).places := by simp [TreeOp.places]
    have hdir : Place.dentry p.dirname ∈ (TreeOp.mkdir p mode).places := by simp [TreeOp.places]
    show Op.Within _ (cbfuseMkdir p mode)
    unfold cbfuseMkdir
    rw [if_neg (or_sIfdir_ne_zero mode)]
    exact within_orElse (insertStat_within hstat mode)
      (within_orElse (addNewDentry_within hown _) (editDentry_within hdir _))
  | unlink p =>
    have hblock : Place.block p ∈ (TreeOp.unlink p).places := by simp [TreeOp.places]
    have hdir : Place.dentry p.dirname ∈ (TreeOp.unlink p).places := by simp [TreeOp.places]
    have hstat : Place.stat p ∈ (TreeOp.unlink p).places := by simp [TreeOp.places]
    exact within_bind
      (within_blocks (.remove p) hblock (fun _ => rfl) (fun _ => within_ret _))
      (fun _ => within_bind (editDentry_within hdir _) (fun _ => removeStat_within hstat))
  | rmdir p =>
    have hown : Place.dentry p ∈ (TreeOp.rmdir p).places := by simp [TreeOp.places]
    have hdir : Place.dentry p.dirname ∈ (TreeOp.rmdir p).places := by simp [TreeOp.places]
    have hstat : Place.stat p ∈ (TreeOp.rmdir p).places := by simp [TreeOp.places]
    exact within_bind (removeDentry_within hown)
      (fun _ => within_bind (editDentry_within hdir _) (fun _ => removeStat_within hstat))

/-- **A call on an entry stays within its places.** -/
theorem entryOp_within (op : EntryOp) :
    Op.Within (· ∈ op.places) ((FuseOp.fs (.entry op) : FuseOp β).full : Op Text _) := by
  cases op with
  | write p buf offset => exact within_map _ (writeData_within (fun _ hd => hd) buf offset)
  | truncate p offset => exact within_map _ (truncateData_within (fun _ hd => hd) offset)
  | read p nbuf offset => exact within_map _ (readData_within (fun _ hd => hd) nbuf offset)
  | chmod p mode => exact within_map _ (updateStat_within (by simp [EntryOp.places]) _ _)
  | utimens p tv => exact within_map _ (updateStat_within (by simp [EntryOp.places]) _ _)

/-- **Every call works within its documents.** -/
theorem call_within (call : Call β) : Op.Within (· ∈ call.places) (call.code : Op Text _) := by
  cases call with
  | startUp fc =>
    have hstat : Place.stat rootDirString ∈ (Call.startUp fc : Call β).places := by
      simp [Call.places]
    have hdentry : Place.dentry rootDirString ∈ (Call.startUp fc : Call β).places := by
      simp [Call.places]
    refine within_map _ (within_bind (cbfuseGetattr_within hstat fc) (fun r => ?_))
    cases r with
    | ok rootStat => exact within_ret _
    | error e =>
      dsimp only
      split
      · exact within_bind (within_orElse (insertStat_within hstat _)
          (addNewDentry_within hdentry _)) (fun _ => within_ret _)
      · exact within_ret _
  | fuse op =>
    cases op with
    | getattr fc p =>
      exact within_map _ (cbfuseGetattr_within (by simp [Call.places, FuseOp.places]) fc)
    | openFile p => exact within_map _ (cbfuseOpen_within (by simp [Call.places, FuseOp.places]))
    | readdir p filler offset buf =>
      exact within_map _ (cbfuseReaddir_within (by simp [Call.places, FuseOp.places]) _ _ _)
    | fs op =>
      cases op with
      | tree op => exact within_map _ (treeOp_within op)
      | entry op => exact entryOp_within op

/-! ## Groups of clients -/

variable [DecidableEq ι] (calls : ι → Call β) (s : Store Text)

/-- **A group of calls works as if it were alone.** If it shares no document
with the other calls, all of its calls return what they return when the others
make no request at all, and its documents have the same values in the end –
in every interleaving, whatever becomes of anyone's requests and wherever
anyone is cut off. -/
theorem isolated (ours : ι → Prop) [DecidablePred ours]
    (hdisjoint : ∀ i j, ours i → ¬ ours j → ∀ d ∈ (calls i).places, d ∉ (calls j).places)
    (sched : List (ι × Choice)) :
    let x := runCalls calls s sched
    let y := runCalls calls s (sched.filter (fun ic => ours ic.1))
    ∀ i, ours i → x.returned i = y.returned i
      ∧ ∀ d ∈ (calls i).places, x.store.SameAt y.store d := by
  intro x y i hi
  let F (d : Place) : Prop := ∃ j, ours j ∧ d ∈ (calls j).places
  obtain ⟨w, hstore⟩ := Store.Like.refl F s
  have hstart : (Pool.start (fun i => ((calls i).code : Op Text _)) s).Alike (likeness Text F)
      (fun w s s' => s.Like F w s') ours (Req.At (fun d => ¬ F d))
      (Pool.start (fun i => (calls i).code) s) w := by
    refine ⟨hstore, fun j hj => ?_, fun j hj => ?_⟩
    · exact (call_within (calls j)).mono (fun d hd => ⟨j, hj, hd⟩) w
    · refine (call_within (calls j)).only.mono (fun q hq d hd => ?_)
      rintro ⟨j', hj', hd'⟩
      exact hdisjoint j' j hj' hj d hd' (hq d hd)
  obtain ⟨w', -, h⟩ := Pool.alike_run (fun c w q q' s s' hq hs => serve_like c hq hs)
    (fun c w q s s' hq hs => serve_unnoticed c hq hs) sched hstart
  exact ⟨h.returned hi, fun d hd => h.store.sameAt ⟨i, hi, hd⟩⟩

omit [CJson Text] in
/-- A request leaves every other document alone. -/
theorem serve_sameAt (c : Choice) {q : Req Text} (s : Store Text) {d : Place}
    (hd : q.place ≠ some d) : (serve c q s).2.SameAt s d := by
  obtain ⟨w, hs⟩ := Store.Like.refl (fun d' => d' = d) s
  refine (serve_unnoticed c (fun d' hd' he => hd ?_) hs).sameAt rfl
  rw [hd', he]

/-- What no call touches stays as it is. -/
theorem runCalls_untouched {d : Place} (hd : ∀ i, d ∉ (calls i).places)
    (sched : List (ι × Choice)) : s.SameAt (runCalls calls s sched).store d := by
  have hserve : ∀ (c : Choice) (q : Req Text) (s : Store Text), q.place ≠ some d →
      s.SameAt (serve c q s).2 d := fun c q s hq => (serve_sameAt c s hq).symm
  have honly : ∀ i, ((calls i).code : Op Text _).Only (fun q => q.place ≠ some d) :=
    fun i => (call_within (calls i)).only.mono (fun q hq he => hd i (hq d he))
  exact Pool.run_of_only serve (T := fun s s' : Store Text => s.SameAt s' d)
    (fun s => Store.SameAt.refl s d) (fun _ _ _ h h' => h.trans h') hserve sched
    (x := Pool.start (fun i => (calls i).code) s) honly

/-- **Only the order within each group matters.** Calls are grouped so that
calls of different groups share no document. Two schedules that agree on the
order, the fates and the surroundings of the requests within each group give
every call the same result and leave the same values in the whole bucket –
however the groups are interleaved. -/
theorem groups_commute {γ : Type} [DecidableEq γ] (group : ι → γ)
    (hdisjoint : ∀ i j, group i ≠ group j → ∀ d ∈ (calls i).places, d ∉ (calls j).places)
    {sched sched' : List (ι × Choice)}
    (hsched : ∀ g, sched.filter (fun ic => group ic.1 = g)
      = sched'.filter (fun ic => group ic.1 = g)) :
    let x := runCalls calls s sched
    let y := runCalls calls s sched'
    (∀ i, x.returned i = y.returned i) ∧ ∀ d, x.store.SameAt y.store d := by
  intro x y
  have hgroup : ∀ i, x.returned i = y.returned i
      ∧ ∀ d ∈ (calls i).places, x.store.SameAt y.store d := by
    intro i
    have hdis : ∀ j j', group j = group i → ¬ group j' = group i →
        ∀ d ∈ (calls j).places, d ∉ (calls j').places :=
      fun j j' hj hj' => hdisjoint j j' (fun e => hj' (e.symm.trans hj))
    obtain ⟨hx, hxd⟩ := isolated calls s (fun j => group j = group i) hdis sched i rfl
    obtain ⟨hy, hyd⟩ := isolated calls s (fun j => group j = group i) hdis sched' i rfl
    rw [hsched] at hx hxd
    exact ⟨hx.trans hy.symm, fun d hd => (hxd d hd).trans (hyd d hd).symm⟩
  refine ⟨fun i => (hgroup i).1, fun d => ?_⟩
  by_cases hd : ∃ i, d ∈ (calls i).places
  · obtain ⟨i, hi⟩ := hd
    exact (hgroup i).2 d hi
  · have hnone : ∀ i, d ∉ (calls i).places := fun i hi => hd ⟨i, hi⟩
    exact (runCalls_untouched calls s hnone sched).symm.trans
      (runCalls_untouched calls s hnone sched')

end Places

/-- Two clients each set a time of a file of their own. The second draws a CAS
between the fetch and the store of the first, which does not notice. -/
theorem isolated_two :
    let calls : Bool → Call Unit := fun i =>
      .fuse (.fs (.entry (.utimens ['/', if i then 'a' else 'b'] none)))
    let s : Store (Option Json) :=
      (Store.empty.putStat ['/', 'a'] (rootStat sIfreg ⟨0, 0⟩)).putStat ['/', 'b']
        (rootStat sIfreg ⟨0, 0⟩)
    let sched := Pool.turns (Choice.good ⟨7, 0⟩) [true, false, false, false, true, true]
    let x := runCalls calls s sched
    let y := runCalls calls s (sched.filter (fun ic => ic.1 = true))
    (x.returned true).map Answer.told = some 0
      ∧ (x.store.stats.docs ['/', 'a']).map Kv.Doc.cas
        ≠ (y.store.stats.docs ['/', 'a']).map Kv.Doc.cas
      ∧ x.returned true = y.returned true ∧ x.store.SameAt y.store (.stat ['/', 'a']) := by
  intro calls s sched x y
  have hdisjoint : ∀ i j, i = true → ¬ j = true →
      ∀ d ∈ (calls i).places, d ∉ (calls j).places := by
    rintro i j rfl hj
    obtain rfl := Bool.eq_false_iff.mpr hj
    decide
  obtain ⟨hret, hsame⟩ := isolated calls s (· = true) hdisjoint sched true rfl
  exact ⟨by decide, by decide, hret, hsame _ (by decide)⟩

/-- Two files are written to at once, or one after the other. -/
theorem groups_commute_two :
    let calls : Bool → Call Unit := fun i =>
      .fuse (.fs (.entry (.write ['/', if i then 'a' else 'b'] [1, 2] 1)))
    let s : Store (Option Json) :=
      (Store.empty.putStat ['/', 'a'] (rootStat sIfreg ⟨0, 0⟩)).putStat ['/', 'b']
        (rootStat sIfreg ⟨0, 0⟩)
    let c := Choice.good ⟨7, 0⟩
    let x := runCalls calls s
      (Pool.turns c [true, false, true, false, true, false, true, false, true, false, true, false])
    let y := runCalls calls s
      (Pool.turns c ((List.replicate 6 true) ++ List.replicate 6 false))
    (x.returned true).map Answer.told = some 2 ∧ (x.returned false).map Answer.told = some 2
      ∧ (∀ i, x.returned i = y.returned i) ∧ ∀ d, x.store.SameAt y.store d := by
  intro calls s c x y
  refine ⟨by decide, by decide, groups_commute calls s id (fun i j hij => ?_) (fun g => ?_)⟩
  · cases i <;> cases j <;> first | exact absurd rfl hij | decide
  · cases g <;> rfl

end Cbfuse

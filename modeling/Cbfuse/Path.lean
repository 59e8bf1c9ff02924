import Mathlib.Data.List.Basic
import Mathlib.Data.List.TakeWhile
import Mathlib.Tactic.Common

/-!
# Paths

A path is a C string, kept without its terminating NUL: every character
is one byte. `dirname` and `basename` are the two functions of
`<libgen.h>` that the handlers cut a path with; they are defined on every
string, following POSIX, and not only on the paths one expects.

The paths one expects are the **normalised** ones: absolute, no repeated
and no trailing slash. They are the tree of names – the root, and a child
of a normalised path for each name – and on them `dirname` and `basename`
are the two projections of `join`, which is what makes a full path as good
a key as a parent with a name in it.
-/

/-- A C string, without the terminating NUL. -/
abbrev CString := List Char

namespace CString

/-- The string without its trailing slashes, last character first. -/
def trimmed (path : CString) : List Char := path.reverse.dropWhile (· = '/')

/-- `dirname(3)`: the path without its last component. -/
def dirname (path : CString) : CString :=
  if path = [] then ['.']
  else if path.trimmed = [] then ['/']
  else
    match path.trimmed.dropWhile (· ≠ '/') with
    | [] => ['.']
    | r => match r.dropWhile (· = '/') with
      | [] => ['/']
      | r' => r'.reverse

/-- `basename(3)`: the last component of the path. -/
def basename (path : CString) : CString :=
  if path = [] then ['.']
  else if path.trimmed = [] then ['/']
  else (path.trimmed.takeWhile (· ≠ '/')).reverse

/-- The root directory, `ROOT_DIR_STRING`. -/
def rootDirString : CString := ['/']

/-- The path of the entry `n` of the directory `k`. -/
def join (k n : CString) : CString := if k = rootDirString then '/' :: n else k ++ '/' :: n

/-- A name a directory entry can have. -/
def IsName (n : CString) : Prop := n ≠ [] ∧ '/' ∉ n

instance (n : CString) : Decidable n.IsName := inferInstanceAs (Decidable (_ ∧ _))

/-- **Normalised paths**: the root, and the entries of normalised paths. -/
inductive Normalised : CString → Prop
  | top : Normalised rootDirString
  | entry {k n : CString} : Normalised k → IsName n → Normalised (join k n)

/-! ## The two projections of a join -/

/-- What stands before the last component, slash included: nothing for an
entry of the root beyond that slash. -/
theorem reverse_join (k n : CString) :
    (join k n).reverse = n.reverse ++ '/' :: (if k = rootDirString then [] else k.reverse) := by
  unfold join
  split <;> simp

theorem IsName.dropWhile_reverse {n : CString} (h : n.IsName) (t : List Char) :
    (n.reverse ++ t).dropWhile (· = '/') = n.reverse ++ t := by
  obtain ⟨hn, hs⟩ := h
  cases hr : n.reverse with
  | nil => exact absurd (List.reverse_eq_nil_iff.mp hr) hn
  | cons c r =>
    have hc : c ∈ n := List.mem_reverse.mp (by rw [hr]; exact List.mem_cons_self ..)
    have hcs : c ≠ '/' := fun e => hs (e ▸ hc)
    simp [hcs]

theorem IsName.all_ne {n : CString} (h : n.IsName) :
    ∀ c ∈ n.reverse, (decide (c ≠ '/')) = true := by
  intro c hc
  have hcs : c ≠ '/' := fun e => h.2 (e ▸ List.mem_reverse.mp hc)
  simpa using hcs

theorem trimmed_join (k : CString) {n : CString} (h : n.IsName) :
    (join k n).trimmed = n.reverse ++ '/' :: (if k = rootDirString then [] else k.reverse) := by
  rw [trimmed, reverse_join, h.dropWhile_reverse]

/-- A join ends in its name, so nothing is trimmed off it. -/
theorem join_ne_nil (k n : CString) : join k n ≠ [] := by
  unfold join
  split <;> simp

theorem trimmed_join_ne_nil (k : CString) {n : CString} (h : n.IsName) :
    (join k n).trimmed ≠ [] := by
  rw [trimmed_join k h]
  simp

/-- **The base name of an entry is its name.** -/
theorem basename_join (k : CString) {n : CString} (h : n.IsName) :
    (join k n).basename = n := by
  rw [basename, if_neg (join_ne_nil k n), if_neg (trimmed_join_ne_nil k h), trimmed_join k h,
    List.takeWhile_append_of_pos h.all_ne]
  simp

theorem join_ne_root (k : CString) {n : CString} (h : n.IsName) : join k n ≠ rootDirString := by
  intro e
  have hb := basename_join k h
  rw [e] at hb
  exact h.2 (hb ▸ List.mem_singleton.mpr rfl)

/-- An entry is not its own directory. -/
theorem join_ne_left (k : CString) {n : CString} (h : n.IsName) : join k n ≠ k := by
  intro e
  by_cases hk : k = rootDirString
  · exact join_ne_root k h (e.trans hk)
  · rw [join, if_neg hk] at e
    exact List.cons_ne_nil _ _ (List.append_right_eq_self.mp e)

/-- A normalised path other than the root does not end in a slash. -/
theorem Normalised.dropWhile_reverse {k : CString} (h : k.Normalised) (hk : k ≠ rootDirString) :
    k.reverse.dropWhile (· = '/') = k.reverse ∧ k.reverse ≠ [] := by
  cases h with
  | top => exact absurd rfl hk
  | entry hk' hn =>
    rw [reverse_join]
    exact ⟨hn.dropWhile_reverse _, by simp⟩

/-- **The directory of an entry is the directory it is an entry of.** -/
theorem dirname_join {k n : CString} (hk : k.Normalised) (h : n.IsName) :
    (join k n).dirname = k := by
  rw [dirname, if_neg (join_ne_nil k n), if_neg (trimmed_join_ne_nil k h), trimmed_join k h,
    List.dropWhile_append_of_pos h.all_ne]
  by_cases hr : k = rootDirString
  · subst hr
    rfl
  · obtain ⟨hd, hne⟩ := hk.dropWhile_reverse hr
    rw [if_neg hr]
    simp only [ne_eq, not_true_eq_false, decide_false, Bool.false_eq_true, not_false_eq_true,
      List.dropWhile_cons_of_neg, decide_true, List.dropWhile_cons_of_pos, hd]
    exact List.reverse_reverse k

/-- A normalised path other than the root is an entry of its directory. -/
theorem Normalised.eq_join {p : CString} (h : p.Normalised) (hp : p ≠ rootDirString) :
    p.dirname.Normalised ∧ p.basename.IsName ∧ join p.dirname p.basename = p := by
  cases h with
  | top => exact absurd rfl hp
  | entry hk hn =>
    rw [dirname_join hk hn, basename_join _ hn]
    exact ⟨hk, hn, rfl⟩

theorem Normalised.dirname_ne {p : CString} (h : p.Normalised) (hp : p ≠ rootDirString) :
    p.dirname ≠ p := by
  obtain ⟨-, hn, hj⟩ := h.eq_join hp
  intro e
  exact join_ne_left p.dirname hn (hj.trans e.symm)

example : dirname ['/', 'a', '/', 'b'] = ['/', 'a'] ∧ basename ['/', 'a', '/', 'b'] = ['b']
    ∧ dirname ['/', 'a'] = ['/'] := by decide

end CString

import Mathlib.Data.List.Basic
import Mathlib.Tactic.Common

/-!
# Buffers

What `memcpy` does to the bytes of a buffer, `Buffer.splice`, and what a
write is for, `Buffer.Overwrites`: the bytes of the range are the ones
written, every other byte that was there still is, and the buffer is as
long as it has to be. The second says nothing about the bytes between the
old end and the range of a write that starts past it: which those are is
exactly what a write leaves open.
-/

namespace Buffer

variable {α : Type}

/-- The buffer `b` with `src` copied over it from position `off` on. -/
def splice (b : List α) (off : ℕ) (src : List α) : List α :=
  b.take off ++ src ++ b.drop (off + src.length)

theorem length_splice {b : List α} {off : ℕ} {src : List α}
    (h : off + src.length ≤ b.length) : (splice b off src).length = b.length := by
  unfold splice
  rw [List.length_append, List.length_append, List.length_take, List.length_drop]
  omega

theorem getElem?_splice_inside {b : List α} {off : ℕ} {src : List α}
    (h : off + src.length ≤ b.length) {j : ℕ} (hj : j < src.length) :
    (splice b off src)[off + j]? = src[j]? := by
  have hlen : (b.take off).length = off := by
    rw [List.length_take]
    omega
  unfold splice
  rw [List.append_assoc, List.getElem?_append_right (by omega), hlen,
    Nat.add_sub_cancel_left, List.getElem?_append_left hj]

theorem getElem?_splice_outside {b : List α} {off : ℕ} {src : List α}
    (h : off + src.length ≤ b.length) {i : ℕ} (hi : i < off ∨ off + src.length ≤ i) :
    (splice b off src)[i]? = b[i]? := by
  have hlen : (b.take off).length = off := by
    rw [List.length_take]
    omega
  unfold splice
  rcases hi with hi | hi
  · rw [List.append_assoc, List.getElem?_append_left (by omega),
      List.getElem?_take_of_lt hi]
  · rw [List.getElem?_append_right (by rw [List.length_append]; omega), List.length_append,
      hlen, List.getElem?_drop]
    congr 1
    omega

/-- **A write**: `b'` is `b` with the range of `src` from `off` on
overwritten or appended. -/
structure Overwrites (b : List α) (off : ℕ) (src : List α) (b' : List α) : Prop where
  /-- The buffer ends where the old one did, or where the range does. -/
  length : b'.length = max b.length (off + src.length)
  /-- The range holds what was written. -/
  inside : ∀ j < src.length, b'[off + j]? = src[j]?
  /-- Every old byte outside the range is still there. -/
  outside : ∀ i < b.length, i < off ∨ off + src.length ≤ i → b'[i]? = b[i]?

/-- A copy within the buffer is a write. -/
theorem Overwrites.of_splice {b : List α} {off : ℕ} {src : List α}
    (h : off + src.length ≤ b.length) : Overwrites b off src (splice b off src) where
  length := by rw [length_splice h, Nat.max_eq_left h]
  inside _ hj := getElem?_splice_inside h hj
  outside _ _ hi := getElem?_splice_outside h hi

/-- A copy into a longer buffer that starts with the old bytes is a write,
whatever the rest of the longer buffer holds. -/
theorem Overwrites.of_grow {b fresh : List α} {off : ℕ} {src : List α}
    (hb : b.length ≤ off + src.length) (hf : fresh.length = off + src.length) :
    Overwrites b off src (splice (splice fresh 0 b) off src) where
  length := by
    have hg : (splice fresh 0 b).length = fresh.length := length_splice (by omega)
    rw [length_splice (by omega), hg, hf, Nat.max_eq_right hb]
  inside j hj := by
    have hg : (splice fresh 0 b).length = fresh.length := length_splice (by omega)
    exact getElem?_splice_inside (by omega) hj
  outside i hi hio := by
    have hg : (splice fresh 0 b).length = fresh.length := length_splice (by omega)
    rw [getElem?_splice_outside (by omega) hio]
    have h0 : (splice fresh 0 b)[0 + i]? = b[i]? := getElem?_splice_inside (by omega) hi
    rwa [Nat.zero_add] at h0

/-- **A copy into a buffer that has nothing to do with the old one** is a
write, or leaves the old one, exactly if the old one is not longer and the
buffer happens to hold its bytes below the range. -/
theorem overwrites_anew_iff {b fresh : List α} {off : ℕ} {src : List α}
    (hf : fresh.length = off + src.length) :
    (splice fresh off src = b ∨ Overwrites b off src (splice fresh off src))
      ↔ b.length ≤ off + src.length ∧ ∀ i < b.length, i < off → b[i]? = fresh[i]? := by
  have hlen : (splice fresh off src).length = off + src.length := by
    rw [length_splice (by omega), hf]
  have hbelow : ∀ i < off, (splice fresh off src)[i]? = fresh[i]? :=
    fun i hi => getElem?_splice_outside (by omega) (.inl hi)
  refine ⟨fun h => ?_, fun h => .inr ⟨?_, fun j hj => ?_, fun i hi hio => ?_⟩⟩
  · rcases h with rfl | h
    · exact ⟨by omega, fun i _ hi => hbelow i hi⟩
    · have hmax := h.length
      exact ⟨by omega, fun i hib hi => by rw [← h.outside i hib (.inl hi), hbelow i hi]⟩
  · rw [hlen, Nat.max_eq_right h.1]
  · exact getElem?_splice_inside (by omega) hj
  · have hi' : i < off := by omega
    rw [hbelow i hi', h.2 i hi hi']

/-- **The buffer a write ends in**: the old one where the range fits into
it, and otherwise a fresh one that starts with the old bytes. -/
def write (b fresh : List α) (off : ℕ) (src : List α) : List α :=
  if b.length < off + src.length then splice (splice fresh 0 b) off src else splice b off src

/-- Over nothing, the fresh buffer is all there is to write to. -/
theorem write_nil {fresh : List α} {off : ℕ} {src : List α} (h : src ≠ []) :
    write [] fresh off src = splice fresh off src := by
  have hpos : 0 < src.length := List.length_pos_of_ne_nil h
  have hnil : splice fresh 0 [] = fresh := by simp [splice]
  unfold write
  rw [if_pos (by rw [List.length_nil]; omega), hnil]

/-- `write` is such a write, whatever the fresh buffer held. -/
theorem overwrites_write {b fresh : List α} {off : ℕ} {src : List α}
    (hf : fresh.length = off + src.length) : Overwrites b off src (write b fresh off src) := by
  unfold write
  split
  · next h => exact .of_grow (by omega) hf
  · next h => exact .of_splice (by omega)

/-- **Between the old end and the range, the buffer holds what the fresh
one did.** -/
theorem getElem?_write_gap {b fresh : List α} {off : ℕ} {src : List α}
    (hf : fresh.length = off + src.length) {i : ℕ} (hb : b.length ≤ i) (hi : i < off) :
    (write b fresh off src)[i]? = fresh[i]? := by
  have hg : (splice fresh 0 b).length = fresh.length := length_splice (by omega)
  unfold write
  rw [if_pos (by omega), getElem?_splice_outside (by omega) (.inl hi),
    getElem?_splice_outside (by omega) (.inr (by omega))]

end Buffer

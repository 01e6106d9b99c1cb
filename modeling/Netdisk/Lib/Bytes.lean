import Mathlib.Data.List.Basic

/-!
# Files as lists of bytes

`resize` is `ftruncate`, `overwrite` a write through a mapping, which never makes the file longer.
`Agrees` compares a file with the content it is to have, byte by byte up to a bound.
-/

namespace Bytes

variable {α : Type}

def resize (fill : α) (n : Nat) (l : List α) : List α := l.take n ++ List.replicate (n - l.length) fill

def overwrite (off : Nat) (bs l : List α) : List α :=
  l.take off ++ (bs.take (l.length - off) ++ l.drop (off + bs.length))

/-- The first `n` bytes of `l` are those of `content`. -/
def Agrees (content : List α) (n : Nat) (l : List α) : Prop := ∀ k < n, l[k]? = content[k]?

variable {fill : α} {content l bs : List α} {n off k : Nat}

@[simp] theorem length_resize : (resize fill n l).length = n := by
  simp [resize]
  omega

theorem getElem?_resize (hl : k < l.length) (hn : k < n) : (resize fill n l)[k]? = l[k]? := by
  rw [resize, List.getElem?_append_left (by simp; omega), List.getElem?_take_of_lt hn]

@[simp] theorem length_overwrite : (overwrite off bs l).length = l.length := by
  simp [overwrite]
  omega

theorem getElem?_overwrite_mid (hoff : off ≤ k) (hk : k < off + bs.length) (hl : k < l.length) :
    (overwrite off bs l)[k]? = bs[k - off]? := by
  have hlen : (l.take off).length = off := by simp; omega
  rw [overwrite, List.getElem?_append_right (by omega), hlen, List.getElem?_append_left (by simp; omega),
    List.getElem?_take_of_lt (by omega)]

theorem getElem?_overwrite_other (hk : k < off ∨ off + bs.length ≤ k) : (overwrite off bs l)[k]? = l[k]? := by
  rcases Nat.lt_or_ge k l.length with hl | hl
  · rcases hk with hk | hk
    · rw [overwrite, List.getElem?_append_left (by simp; omega), List.getElem?_take_of_lt hk]
    · rw [overwrite, List.getElem?_append_right (by simp; omega),
        List.getElem?_append_right (by simp; omega), List.getElem?_drop]
      congr 1
      simp
      omega
  · rw [List.getElem?_eq_none (by simpa using hl), List.getElem?_eq_none hl]

theorem take_overwrite (h : off + bs.length ≤ l.length) :
    (overwrite off bs l).take (off + bs.length) = l.take off ++ bs := by
  have hoff : (l.take off).length = off := List.length_take_of_le (by omega)
  have hbs : bs.take (l.length - off) = bs := List.take_of_length_le (by omega)
  rw [overwrite, hbs, ← List.append_assoc, List.take_left' (by rw [List.length_append, hoff])]

theorem Agrees.mono {m : Nat} (h : Agrees content n l) (hm : m ≤ n) : Agrees content m l :=
  fun k hk => h k (by omega)

theorem Agrees.lt_length (h : Agrees content n l) (hn : n ≤ content.length) (hk : k < n) : k < l.length := by
  have hsome : l[k]? = some content[k] := (h k hk).trans (List.getElem?_eq_getElem (by omega))
  exact (List.getElem?_eq_some_iff.1 hsome).1

/-- Bytes that are right stay so when the file is brought to its full length. -/
theorem Agrees.resize (h : Agrees content n l) (hn : n ≤ content.length) :
    Agrees content n (resize fill content.length l) := by
  intro k hk
  have hl := h.lt_length hn hk
  rw [getElem?_resize hl (by omega), h k hk]

/-- Writing bytes of the content in their place does no harm. -/
theorem Agrees.overwrite (h : Agrees content n l) (hn : n ≤ content.length)
    (hbs : ∀ j < bs.length, bs[j]? = content[off + j]?) : Agrees content n (overwrite off bs l) := by
  intro k hk
  have hl := h.lt_length hn hk
  by_cases hmid : off ≤ k ∧ k < off + bs.length
  · rw [getElem?_overwrite_mid hmid.1 hmid.2 hl, hbs _ (by omega)]
    congr 1
    omega
  · rw [getElem?_overwrite_other (by omega), h k hk]

/-- Writing the next bytes of the content. -/
theorem Agrees.extend (h : Agrees content off l) (hl : off + bs.length ≤ l.length)
    (hbs : ∀ j < bs.length, bs[j]? = content[off + j]?) :
    Agrees content (off + bs.length) (Bytes.overwrite off bs l) := by
  intro k hk
  by_cases hmid : off ≤ k
  · rw [getElem?_overwrite_mid hmid hk (by omega), hbs _ (by omega)]
    congr 1
    omega
  · rw [getElem?_overwrite_other (by omega), h k (by omega)]

theorem Agrees.eq (h : Agrees content content.length l) (hl : l.length ≤ content.length) : l = content := by
  refine List.ext_getElem? fun k => ?_
  rcases Nat.lt_or_ge k content.length with hk | hk
  · exact h k hk
  · rw [List.getElem?_eq_none (by omega), List.getElem?_eq_none hk]

end Bytes

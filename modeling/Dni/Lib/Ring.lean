import Mathlib.Data.List.Basic

namespace Ring

variable {size head a b s : Nat}

/-- The offset `b` bytes after `head`, at most once around a ring of `size` bytes. -/
def place (size head b : Nat) : Nat := if head + b < size then head + b else head + b - size

/-- The bytes from `head` up to `tail` around the ring. -/
def pending (size head tail : Nat) : Nat := if head ≤ tail then tail - head else tail + size - head

theorem place_zero (h : head < size) : place size head 0 = head := by simp [place, h]

theorem place_lt (h : head < size) (hb : b ≤ size) : place size head b < size := by
  unfold place
  split <;> omega

theorem place_place (h : head < size) (hab : a + b ≤ size) :
    place size (place size head a) b = place size head (a + b) := by
  unfold place
  split <;> split <;> split <;> omega

theorem pending_place (h : head < size) (hb : b < size) :
    pending size head (place size head b) = b := by
  unfold pending place
  split <;> split <;> omega

theorem pending_self : pending size head head = 0 := by simp [pending]

/-- Advancing by a slot that fits wraps to zero at most. -/
theorem place_eq_mod (h : head + s ≤ size) : place size head s = (head + s) % size := by
  unfold place
  split
  next hlt => exact (Nat.mod_eq_of_lt hlt).symm
  next hge =>
    have he : head + s = size := by omega
    rw [he, Nat.sub_self, Nat.mod_self]

/-- Slots apart along the ring do not meet, as long as neither goes around nor over the end. -/
theorem slots_apart (hab : a + s ≤ b) (hb : b + s ≤ size) :
    place size head a + s ≤ place size head b ∨ place size head b + s ≤ place size head a := by
  unfold place
  split <;> split <;> omega

/-- The next slot after a full turn lies less than a slot past the head. -/
theorem pending_full (h : head < size) (hb : b < size) (hfull : size ≤ b + s)
    (hfit : place size head b + s ≤ size) :
    pending size head (place size (place size head b) s) < s := by
  unfold pending place at *
  split_ifs at hfit ⊢ <;> omega

end Ring

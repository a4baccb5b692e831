import Mathlib.Tactic.Ring
import Mathlib.Data.List.Basic

/-! # Storage

Addresses are rounded up to an alignment, and bytes are moved within a buffer. -/

/-! ## Rounding an address up to an alignment

`alignUp a x` is the least multiple of `a` which is not below `x`. The padding skipped is less than
the alignment; when the address is already a multiple of some divisor `d` of the alignment, then it is
at most the alignment less `d`, which is what an allocator exploits that hands out its storage with
some basic alignment. -/

namespace Lumiera

/-- The next multiple of `a`, starting from `x`. -/
def alignUp (a x : Nat) : Nat := (x + a - 1) / a * a

variable {a d x : Nat}

theorem dvd_alignUp : a ∣ alignUp a x := Dvd.intro_left _ rfl

theorem le_alignUp (ha : 0 < a) : x ≤ alignUp a x := by
  have hdiv := Nat.div_add_mod (x + a - 1) a
  have hmod := Nat.mod_lt (x + a - 1) ha
  have hcomm : alignUp a x = a * ((x + a - 1) / a) := Nat.mul_comm _ _
  omega

theorem alignUp_lt (ha : 0 < a) : alignUp a x < x + a := by
  have hle : alignUp a x ≤ x + a - 1 := Nat.div_mul_le_self _ _
  omega

theorem alignUp_of_dvd (ha : 0 < a) (h : a ∣ x) : alignUp a x = x := by
  have hle := le_alignUp (x := x) ha
  have hlt := alignUp_lt (x := x) ha
  obtain ⟨k, hk⟩ := (Nat.dvd_sub dvd_alignUp h : a ∣ alignUp a x - x)
  rcases k with _ | k
  · omega
  · -- a positive multiple of the alignment would exceed the padding
    have hmul : a ≤ a * (k + 1) := Nat.le_mul_of_pos_right a k.succ_pos
    omega

theorem alignUp_add_le (ha : 0 < a) (hda : d ∣ a) (hdx : d ∣ x) : alignUp a x + d ≤ x + a := by
  have hlt := alignUp_lt (x := x) ha
  have hdvd : d ∣ x + a - alignUp a x :=
    Nat.dvd_sub (Nat.dvd_add hdx hda) (hda.trans dvd_alignUp)
  have hle := Nat.le_of_dvd (by omega) hdvd
  omega

theorem alignUp_add (h : a ∣ x) (hd : 0 < d) (hda : d ≤ a) : alignUp a (x + d) = x + a := by
  have ha : 0 < a := by omega
  obtain ⟨k, rfl⟩ := h
  have hsum : a * k + d + a - 1 = (d - 1 + a * (k + 1)) := by
    rw [Nat.mul_add]
    omega
  unfold alignUp
  rw [hsum, Nat.add_mul_div_left _ _ ha, Nat.div_eq_of_lt (by omega)]
  ring

/-! ## Bytes within a buffer

A buffer assigns a value to each offset. `blit` is the effect of `std::memmove`, which reads the whole
range before it writes; `StoredAt` states that a sequence of bytes is found at some offset. Whatever is
stored is carried along when it lies within the range moved, and untouched when it is clear of the range
written. -/

universe u

variable {β : Type u}

/-- The buffer `tar` after copying `amount` bytes from `oldPos` in the buffer `src` to `newPos`. -/
def blit (src tar : Nat → β) (oldPos newPos amount : Nat) : Nat → β :=
  fun i => if newPos ≤ i ∧ i < newPos + amount then src (oldPos + (i - newPos)) else tar i

/-- The buffer after writing a sequence of bytes. -/
def overwrite (mem : Nat → β) (pos : Nat) (bytes : List β) : Nat → β :=
  fun i => if pos ≤ i then (bytes[i - pos]?).getD (mem i) else mem i

/-- The bytes are found at this offset. -/
def StoredAt (mem : Nat → β) (pos : Nat) (bytes : List β) : Prop :=
  ∀ k b, bytes[k]? = some b → mem (pos + k) = b

variable {mem src tar : Nat → β} {pos oldPos newPos amount : Nat} {bytes other : List β}

theorem storedAt_overwrite : StoredAt (overwrite mem pos bytes) pos bytes := by
  intro k b hk
  rw [overwrite, if_pos (Nat.le_add_right _ _), Nat.add_sub_cancel_left, hk, Option.getD_some]

theorem StoredAt.overwrite (h : StoredAt mem pos bytes)
    (hclear : pos + bytes.length ≤ newPos ∨ newPos + other.length ≤ pos) :
    StoredAt (overwrite mem newPos other) pos bytes := by
  intro k b hk
  have hlt : k < bytes.length := (List.getElem?_eq_some_iff.mp hk).1
  unfold Lumiera.overwrite
  split_ifs with hpos
  · rw [List.getElem?_eq_none (by omega)]
    exact h k b hk
  · exact h k b hk

theorem StoredAt.blit (h : StoredAt src oldPos bytes) (hlen : bytes.length ≤ amount) :
    StoredAt (blit src tar oldPos newPos amount) newPos bytes := by
  intro k b hk
  have hlt : k < bytes.length := (List.getElem?_eq_some_iff.mp hk).1
  rw [Lumiera.blit, if_pos ⟨Nat.le_add_right _ _, by omega⟩, Nat.add_sub_cancel_left]
  exact h k b hk

theorem StoredAt.blit_other (h : StoredAt tar pos bytes)
    (hclear : pos + bytes.length ≤ newPos ∨ newPos + amount ≤ pos) :
    StoredAt (Lumiera.blit src tar oldPos newPos amount) pos bytes := by
  intro k b hk
  have hlt : k < bytes.length := (List.getElem?_eq_some_iff.mp hk).1
  rw [Lumiera.blit, if_neg (by omega)]
  exact h k b hk

end Lumiera

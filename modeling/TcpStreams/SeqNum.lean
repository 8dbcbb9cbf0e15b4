/-!
# Sequence numbers

TCP numbers the bytes of a stream modulo `2 ^ 32`, so a number says where a byte is only relative to
another number nearby.  Two numbers are compared by their *signed distance*: the integer of least
size that leads from one to the other, `-2 ^ 31` where both ways round are equally long.

* `SeqNum.toNat_advance`: advancing adds modulo `2 ^ 32`.
* `SeqNum.distance_advance`: advancing by fewer than `2 ^ 31` bytes leads exactly that far away.
* `SeqNum.distance_bounds`: a distance is at least `-2 ^ 31` and below `2 ^ 31`.
* `SeqNum.advance_distance`: a distance that is not negative leads where it says.
-/

namespace TcpStreams

/-- The number of a byte in a stream, modulo `2 ^ 32`. -/
structure SeqNum where
  /-- The number as it stands in the header. -/
  raw : UInt32
deriving DecidableEq

namespace SeqNum

/-- The sequence number of a natural number, modulo `2 ^ 32`. -/
def ofNat (n : Nat) : SeqNum := ⟨UInt32.ofNat n⟩

/-- The natural number below `2 ^ 32` that a sequence number stands for. -/
def toNat (a : SeqNum) : Nat := a.raw.toNat

/-- The number `n` bytes further on. -/
def advance (a : SeqNum) (n : Nat) : SeqNum := ofNat (a.toNat + n)

/-- The signed distance from `a` to `b`: positive if `b` follows `a`, negative if it precedes. -/
def distance (a b : SeqNum) : Int := ((b.toNat : Int) - (a.toNat : Int)).bmod 0x100000000

/-- Whether `a` comes strictly before `b`. -/
def precedes (a b : SeqNum) : Bool := decide (0 < a.distance b)

/-- Whether `a` comes strictly after `b`. -/
def follows (a b : SeqNum) : Bool := decide (a.distance b < 0)

/-- The number in decimal. -/
def text (a : SeqNum) : String := toString a.toNat

/-! ## Laws of the three operations -/

theorem toNat_lt (a : SeqNum) : a.toNat < 0x100000000 := a.raw.toNat_lt

theorem toNat_inj {a b : SeqNum} : a.toNat = b.toNat ↔ a = b := by
  cases a; cases b
  simp [toNat, UInt32.toNat_inj]

theorem toNat_ofNat (n : Nat) : (ofNat n).toNat = n % 0x100000000 := by
  simp [ofNat, toNat]

theorem toNat_advance (a : SeqNum) (n : Nat) : (a.advance n).toNat = (a.toNat + n) % 0x100000000 :=
  toNat_ofNat _

theorem advance_zero (a : SeqNum) : a.advance 0 = a := by
  have h := a.toNat_lt
  rw [← toNat_inj, toNat_advance]
  omega

theorem advance_advance (a : SeqNum) (m n : Nat) :
    (a.advance m).advance n = a.advance (m + n) := by
  rw [← toNat_inj]
  simp only [toNat_advance]
  omega

/-- A distance is the integer of least size that leads from one number to the other. -/
theorem distance_bounds (a b : SeqNum) : -0x80000000 ≤ a.distance b ∧ a.distance b < 0x80000000 := by
  rw [distance, Int.bmod_def]
  split <;> omega

theorem distance_self (a : SeqNum) : a.distance a = 0 := by
  simp [distance]

/-- Advancing by fewer than `2 ^ 31` bytes leads exactly that far away. -/
theorem distance_advance (a : SeqNum) {n : Nat} (h : n < 0x80000000) :
    a.distance (a.advance n) = n := by
  have ha := a.toNat_lt
  rw [distance, Int.bmod_def, toNat_advance]
  split <;> omega

/-- A distance that is not negative leads where it says. -/
theorem advance_distance (a b : SeqNum) (h : 0 ≤ a.distance b) :
    a.advance (a.distance b).toNat = b := by
  have ha := a.toNat_lt
  have hb := b.toNat_lt
  rw [← toNat_inj, toNat_advance]
  revert h
  rw [distance, Int.bmod_def]
  split <;> omega

end SeqNum

end TcpStreams

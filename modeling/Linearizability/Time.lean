import Linearizability.Decimal.Digits

/-! # Time

Timestamps are opaque signed counters of 64 bits. Only their order has a meaning; arithmetic on
them stops at the ends of the range instead of wrapping around.
-/

namespace Linearizability

structure Timestamp where
  raw : Int64
  deriving DecidableEq, Inhabited

namespace Timestamp

instance : LT Timestamp := ⟨fun s t => s.raw < t.raw⟩

instance : LE Timestamp := ⟨fun s t => s.raw ≤ t.raw⟩

instance : DecidableLT Timestamp := fun s t => inferInstanceAs (Decidable (s.raw < t.raw))

instance : DecidableLE Timestamp := fun s t => inferInstanceAs (Decidable (s.raw ≤ t.raw))

theorem lt_iff {s t : Timestamp} : s < t ↔ s.raw.toInt < t.raw.toInt :=
  Int64.lt_iff_toInt_lt

theorem le_iff {s t : Timestamp} : s ≤ t ↔ s.raw.toInt ≤ t.raw.toInt :=
  Int64.le_iff_toInt_le

/-- The timestamp, in nanoseconds, of a number of milliseconds. -/
def ofMillis (millis : Int64) : Timestamp := ⟨.ofIntClamp (millis.toInt * 1000000)⟩

/-- The timestamp a number of nanoseconds later (earlier, if the number is negative). -/
def shift (t : Timestamp) (delta : Int) : Timestamp := ⟨.ofIntClamp (t.raw.toInt + delta)⟩

theorem toInt_ofIntClamp (i : Int) : (Int64.ofIntClamp i).toInt =
    max Int64.minValue.toInt (min i Int64.maxValue.toInt) := by
  have hends : Int64.minValue.toInt ≤ Int64.maxValue.toInt := by decide
  unfold Int64.ofIntClamp
  split
  · split
    · rw [Int64.toInt_ofIntLE]
      omega
    · omega
  · omega

@[simp]
theorem shift_zero (t : Timestamp) : t.shift 0 = t := by
  rw [shift, Int.add_zero, Int64.ofIntClamp_toInt]

theorem shift_mono (t : Timestamp) {d e : Int} (h : d ≤ e) : t.shift d ≤ t.shift e := by
  rw [le_iff]
  simp only [shift, toInt_ofIntClamp]
  omega

def order (s t : Timestamp) : Ordering :=
  if s < t then .lt else if t < s then .gt else .eq

def text (t : Timestamp) : String := Decimal.ofInt t.raw.toInt

end Timestamp

/-- The span of real time from the call of an operation to its return. -/
structure Interval where
  call : Timestamp
  ret : Timestamp
  deriving DecidableEq

namespace Interval

/-- The two ends of an interval that returns before it is called. -/
structure Inverted where
  call : Timestamp
  ret : Timestamp
  deriving DecidableEq

def Inverted.message (fault : Inverted) : String :=
  s!"invalid interval: return {fault.ret.text} precedes call {fault.call.text}"

/-- An interval may be empty, but its return may not precede its call. -/
def make (call ret : Timestamp) : Except Inverted Interval :=
  if ret < call then .error ⟨call, ret⟩ else .ok ⟨call, ret⟩

end Interval

end Linearizability

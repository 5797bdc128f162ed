import Mathlib.Algebra.Order.Ring.Nat
/-! Collaborator types the managers share through `nakamoto_net`, `std` and `fastrand`:
clock readings and durations, peer addresses, and the injected random generator. -/

namespace NakamotoP2p

/-- Modelled from the spec: `LocalTime`, a reading of the injected monotonic clock, counted
in milliseconds. -/
structure LocalTime where
  millis : Nat
  deriving DecidableEq, Repr

/-- Modelled from the spec: `LocalDuration`, a span of milliseconds. -/
structure LocalDuration where
  millis : Nat
  deriving DecidableEq, Repr

namespace LocalDuration

def fromSecs (secs : Nat) : LocalDuration := ⟨secs * 1000⟩

def fromMins (mins : Nat) : LocalDuration := ⟨mins * 60 * 1000⟩

instance : LE LocalDuration := ⟨fun a b => a.millis ≤ b.millis⟩

instance : LT LocalDuration := ⟨fun a b => a.millis < b.millis⟩

instance (a b : LocalDuration) : Decidable (a ≤ b) := inferInstanceAs (Decidable (a.millis ≤ b.millis))

instance (a b : LocalDuration) : Decidable (a < b) := inferInstanceAs (Decidable (a.millis < b.millis))

@[simp] theorem le_iff {a b : LocalDuration} : a ≤ b ↔ a.millis ≤ b.millis := Iff.rfl

@[simp] theorem lt_iff {a b : LocalDuration} : a < b ↔ a.millis < b.millis := Iff.rfl

/-- Modelled from the spec: the sum of durations adds their `u128` millisecond counts with
`checked_add`; a sum past `u128::MAX` panics, written `none`. -/
def sum (durations : List LocalDuration) : Option LocalDuration :=
  durations.foldlM (fun total sample =>
    if total.millis + sample.millis < 2 ^ 128 then some ⟨total.millis + sample.millis⟩ else none) ⟨0⟩

/-- The checked fold from a running total that fits: it fails exactly when the running total
plus the exact sum of the rest passes `u128::MAX`, since the running totals only grow. -/
theorem foldlM_checked_add (durations : List LocalDuration) {total : Nat} (fits : total < 2 ^ 128) :
    durations.foldlM (fun (total sample : LocalDuration) =>
        if total.millis + sample.millis < 2 ^ 128 then some ⟨total.millis + sample.millis⟩ else none)
        ⟨total⟩ =
      if total + (durations.map millis).sum < 2 ^ 128 then some ⟨total + (durations.map millis).sum⟩
      else none := by
  induction durations generalizing total with
  | nil => rw [List.map_nil, List.sum_nil, Nat.add_zero, if_pos fits]; rfl
  | cons sample rest ih =>
    rw [List.foldlM_cons, List.map_cons, List.sum_cons, ← Nat.add_assoc]
    by_cases next : total + sample.millis < 2 ^ 128
    · rw [if_pos next]
      exact ih next
    · have over : ¬total + sample.millis + (rest.map millis).sum < 2 ^ 128 := by omega
      rw [if_neg next, if_neg over]
      rfl

/-- The checked sum is the exact sum of the millisecond counts, or `none` when that passes
`u128::MAX`, whatever the order of the durations. -/
theorem sum_eq (durations : List LocalDuration) :
    sum durations =
      if (durations.map millis).sum < 2 ^ 128 then some ⟨(durations.map millis).sum⟩ else none := by
  simpa using foldlM_checked_add durations (Nat.two_pow_pos 128)

/-- Modelled from the spec: a duration divided by a `u32` count; dividing by zero panics,
written `none`. -/
def div (duration : LocalDuration) (count : UInt32) : Option LocalDuration :=
  if count = 0 then none else some ⟨duration.millis / count.toNat⟩

end LocalDuration

namespace LocalTime

instance : LE LocalTime := ⟨fun a b => a.millis ≤ b.millis⟩

instance (a b : LocalTime) : Decidable (a ≤ b) := inferInstanceAs (Decidable (a.millis ≤ b.millis))

@[simp] theorem le_iff {a b : LocalTime} : a ≤ b ↔ a.millis ≤ b.millis := Iff.rfl

/-- Modelled from the spec: `now - since`, the time elapsed between two readings. The `u128`
difference stops at zero when `since` is the later reading. -/
instance : HSub LocalTime LocalTime LocalDuration := ⟨fun a b => ⟨a.millis - b.millis⟩⟩

@[simp] theorem sub_millis (a b : LocalTime) : (a - b).millis = a.millis - b.millis := rfl

end LocalTime

/-- `std::net::SocketAddr`, the `PeerId` every manager keys its table by. -/
inductive SocketAddr where
  | v4 (ip : UInt32) (port : UInt16)
  | v6 (ip : BitVec 128) (port : UInt16) (flowinfo scopeId : UInt32)
  deriving DecidableEq, Repr

/-- A network address, the sole identifier of a peer session. -/
abbrev PeerId := SocketAddr

/-- `fastrand::Rng`, handed to the manager already seeded. A generator is modelled by the
values its successive `u64(..)` calls return, so every seed of every generator is one `Rng`. -/
structure Rng where
  draws : Nat → UInt64

/-- `Rng::u64(..)`: the next value, and the generator moved past it. -/
def Rng.u64 (rng : Rng) : UInt64 × Rng := (rng.draws 0, ⟨fun i => rng.draws (i + 1)⟩)

end NakamotoP2p

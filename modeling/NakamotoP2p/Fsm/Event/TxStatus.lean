import NakamotoP2p.Fsm.Event
import Mathlib.Data.String.Basic

namespace NakamotoP2p

open Batteries

/-- Modelled from the spec: the derived order on socket addresses, IPv4 before IPv6, then the
fields in declaration order. -/
def SocketAddr.compare : SocketAddr → SocketAddr → Ordering
  | .v4 ip port, .v4 ip' port' => (Ord.compare ip ip').then (Ord.compare port port')
  | .v4 .., .v6 .. => .lt
  | .v6 .., .v4 .. => .gt
  | .v6 ip port flowinfo scopeId, .v6 ip' port' flowinfo' scopeId' =>
    (Ord.compare ip.toNat ip'.toNat).then ((Ord.compare port port').then
      ((Ord.compare flowinfo flowinfo').then (Ord.compare scopeId scopeId')))

instance : Ord SocketAddr := ⟨SocketAddr.compare⟩

theorem SocketAddr.compare_def (a b : SocketAddr) : Ord.compare a b = a.compare b := rfl

section Lex

variable {α : Type} {cmp : α → α → Ordering} [TransCmp cmp]

/-- A lexicographic step is transitive when its first comparison is, and its tie-breaks are
on the values the first comparison finds equal. -/
theorem then_le_trans {a b c : α} {r₁ r₂ r₃ : Ordering} (ab : (cmp a b).then r₁ ≠ .gt)
    (bc : (cmp b c).then r₂ ≠ .gt) (rest : r₁ ≠ .gt → r₂ ≠ .gt → r₃ ≠ .gt) :
    (cmp a c).then r₃ ≠ .gt := by
  rw [Ne, Ordering.then_eq_gt, not_or, not_and] at ab bc ⊢
  refine ⟨TransCmp.le_trans ab.1 bc.1, fun ac => ?_⟩
  have tied : cmp a b = .eq ∧ cmp b c = .eq := by
    constructor
    · cases ab' : cmp a b
      · exact absurd (TransCmp.lt_le_trans ab' bc.1) (by rw [ac]; decide)
      · rfl
      · exact absurd ab' ab.1
    · cases bc' : cmp b c
      · exact absurd (TransCmp.le_lt_trans ab.1 bc') (by rw [ac]; decide)
      · rfl
      · exact absurd bc' bc.1
  exact rest (ab.2 tied.1) (bc.2 tied.2)

end Lex

namespace SocketAddr

theorem compare_eq_iff {a b : SocketAddr} : Ord.compare a b = .eq ↔ a = b := by
  cases a <;> cases b <;>
    simp [compare_def, SocketAddr.compare, Ordering.then_eq_eq, BEqCmp.cmp_iff_eq, BitVec.toNat_eq]

instance : OrientedOrd SocketAddr where
  symm a b := by
    cases a <;> cases b <;> simp only [compare_def, SocketAddr.compare, Ordering.swap_then,
      OrientedCmp.symm] <;> rfl

instance : TransOrd SocketAddr where
  le_trans {a b c} ab bc := by
    cases a <;> cases b <;> cases c <;> simp only [compare_def, SocketAddr.compare] at ab bc ⊢
    · exact then_le_trans ab bc TransCmp.le_trans
    all_goals first
      | exact then_le_trans ab bc fun r₁ r₂ => then_le_trans r₁ r₂ fun r₁ r₂ =>
          then_le_trans r₁ r₂ TransCmp.le_trans
      | exact absurd rfl ab
      | exact absurd rfl bc
      | decide

end SocketAddr

namespace Fsm

namespace TxStatus

variable {Tx : Type} [Ord Tx]

/-- The position of the variant in the declaration, which the derived order compares first. -/
def rank : TxStatus Tx → Nat
  | unconfirmed => 0
  | acknowledged _ => 1
  | confirmed .. => 2
  | reverted _ => 3
  | stale .. => 4

/-- `#[derive(PartialOrd, Ord)]`: the variants by their position, two values of one variant by
their fields in declaration order. -/
def compare : TxStatus Tx → TxStatus Tx → Ordering
  | unconfirmed, unconfirmed => .eq
  | acknowledged peer, acknowledged peer' => Ord.compare peer peer'
  | confirmed height block, confirmed height' block' =>
    (Ord.compare height height').then (Ord.compare block block')
  | reverted transaction, reverted transaction' => Ord.compare transaction transaction'
  | stale replacedBy block, stale replacedBy' block' =>
    (Ord.compare replacedBy replacedBy').then (Ord.compare block block')
  | status, status' => Ord.compare status.rank status'.rank

instance : Ord (TxStatus Tx) := ⟨compare⟩

theorem compare_def (a b : TxStatus Tx) : Ord.compare a b = a.compare b := rfl

/-- Statuses of different variants compare by position alone. -/
theorem compare_of_rank_ne {a b : TxStatus Tx} (differ : a.rank ≠ b.rank) :
    Ord.compare a b = Ord.compare a.rank b.rank := by
  cases a <;> cases b <;> first | rfl | exact absurd rfl differ

theorem rank_le_of_compare {a b : TxStatus Tx} (le : Ord.compare a b ≠ .gt) : a.rank ≤ b.rank := by
  by_contra later
  rw [compare_of_rank_ne (by omega)] at le
  exact le (Nat.compare_eq_gt.mpr (by omega))

/-- The order follows the lifecycle: a status of an earlier variant is below every status of
a later one, whatever either carries. -/
theorem compare_of_rank_lt {a b : TxStatus Tx} (earlier : a.rank < b.rank) : Ord.compare a b = .lt := by
  rw [compare_of_rank_ne (by omega)]
  exact Nat.compare_eq_lt.mpr earlier

theorem compare_eq_iff (eqTx : ∀ x y : Tx, Ord.compare x y = .eq ↔ x = y) {a b : TxStatus Tx} :
    Ord.compare a b = .eq ↔ a = b := by
  cases a <;> cases b <;> simp [compare_def, compare, rank, Ordering.then_eq_eq, BEqCmp.cmp_iff_eq,
    SocketAddr.compare_eq_iff, eqTx]

theorem compare_swap [OrientedOrd Tx] (a b : TxStatus Tx) : (Ord.compare a b).swap = Ord.compare b a := by
  cases a <;> cases b <;> first | rfl | simp only [compare_def, compare, Ordering.swap_then, OrientedCmp.symm]

theorem compare_le_trans [TransOrd Tx] {a b c : TxStatus Tx} (ab : Ord.compare a b ≠ .gt)
    (bc : Ord.compare b c ≠ .gt) : Ord.compare a c ≠ .gt := by
  have first := rank_le_of_compare ab
  have second := rank_le_of_compare bc
  by_cases same : a.rank = c.rank
  swap
  · rw [compare_of_rank_lt (by omega)]; decide
  have tied : a.rank = b.rank ∧ b.rank = c.rank := ⟨by omega, by omega⟩
  cases a <;> cases b <;> cases c <;> simp only [rank] at tied <;> (try omega) <;>
    simp only [compare_def, compare] at ab bc ⊢
  · decide
  · exact TransCmp.le_trans ab bc
  · exact then_le_trans ab bc TransCmp.le_trans
  · exact TransCmp.le_trans ab bc
  · exact then_le_trans ab bc TransCmp.le_trans

end TxStatus

/-- The derived order on `TxStatus` is total and follows the lifecycle
`Unconfirmed < Acknowledged < Confirmed < Reverted < Stale`, whatever the statuses carry. -/
theorem tx_status_order_follows_lifecycle {Tx : Type} [Ord Tx] [TransOrd Tx]
    (eqTx : ∀ x y : Tx, Ord.compare x y = .eq ↔ x = y) :
    (∀ a b : TxStatus Tx, a.rank < b.rank → Ord.compare a b = .lt) ∧
    (∀ a b : TxStatus Tx, Ord.compare a b = .eq ↔ a = b) ∧
    (∀ a b : TxStatus Tx, (Ord.compare a b).swap = Ord.compare b a) ∧
    (∀ a b c : TxStatus Tx, Ord.compare a b ≠ .gt → Ord.compare b c ≠ .gt → Ord.compare a c ≠ .gt) :=
  ⟨fun _ _ => TxStatus.compare_of_rank_lt, fun _ _ => TxStatus.compare_eq_iff eqTx, TxStatus.compare_swap,
    fun _ _ _ => TxStatus.compare_le_trans⟩

/-- The ordering the source's unit test checks, on statuses carrying zero payloads. -/
theorem tx_status_test_ordering :
    let hash : Hash256 := ⟨0, by decide⟩
    (∀ x y : UInt64, Ord.compare x y = .eq ↔ x = y) ∧
      Ord.compare (TxStatus.unconfirmed : TxStatus UInt64) (.acknowledged (.v4 0 0)) = .lt ∧
      Ord.compare (TxStatus.acknowledged (.v4 0 0) : TxStatus UInt64) (.confirmed 0 hash) = .lt ∧
      Ord.compare (TxStatus.confirmed 0 hash : TxStatus UInt64) (.reverted 0) = .lt ∧
      Ord.compare (TxStatus.reverted 0 : TxStatus UInt64) (.stale hash hash) = .lt := by
  intro hash
  have eqTx : ∀ x y : UInt64, Ord.compare x y = .eq ↔ x = y := fun _ _ => BEqCmp.cmp_iff_eq
  have lifecycle := (tx_status_order_follows_lifecycle eqTx).1
  exact ⟨eqTx, lifecycle _ _ (by decide), lifecycle _ _ (by decide), lifecycle _ _ (by decide),
    lifecycle _ _ (by decide)⟩

end Fsm

end NakamotoP2p

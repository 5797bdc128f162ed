import NakamotoP2p.Fsm.PingMgr.Received
import Mathlib.Data.List.MinMax
import Mathlib.Algebra.Order.BigOperators.Group.List
import Mathlib.Algebra.Order.Group.Nat

namespace NakamotoP2p.Fsm.PingMgr

/-- Truncating after a push absorbs an earlier truncation to the same length. -/
theorem take_append_take {α : Type} (n : Nat) (front back : List α) :
    (front ++ back.take n).take n = (front ++ back).take n := by
  rw [List.take_append_eq_append_take, List.take_append_eq_append_take, List.take_take,
    inf_of_le_left (Nat.sub_le _ _)]

/-- Samples below `2^122` ms, at most `MAX_RECORDED_LATENCIES` of them, sum below `u128::MAX`. -/
theorem total_lt_of_small {samples : List LocalDuration} (bounded : samples.length ≤ maxRecordedLatencies)
    (small : ∀ sample ∈ samples, sample.millis < 2 ^ 122) :
    (samples.map LocalDuration.millis).sum < 2 ^ 128 :=
  calc (samples.map LocalDuration.millis).sum
      ≤ (samples.map LocalDuration.millis).length • (2 ^ 122 - 1) :=
        List.sum_le_card_nsmul _ _ fun _ member => by
          obtain ⟨sample, mem, rfl⟩ := List.mem_map.mp member
          exact Nat.le_sub_one_of_lt (small sample mem)
    _ ≤ maxRecordedLatencies * (2 ^ 122 - 1) := by
        rw [List.length_map]
        exact Nat.mul_le_mul_right _ bounded
    _ < 2 ^ 128 := by decide

/-- A nonempty list of samples has a least one, and it is at most the mean. -/
theorem exists_least_le_mean {samples : List LocalDuration} (nonempty : samples ≠ []) :
    ∃ low ∈ samples, (∀ sample ∈ samples, low ≤ sample) ∧
      low.millis ≤ (samples.map LocalDuration.millis).sum / samples.length := by
  obtain ⟨low, found⟩ : ∃ low, low ∈ samples.argmin LocalDuration.millis :=
    Option.ne_none_iff_exists'.mp (mt List.argmin_eq_none.mp nonempty)
  have least : ∀ sample ∈ samples, low ≤ sample := fun _ member => List.le_of_mem_argmin member found
  refine ⟨low, List.argmin_mem found, least, (Nat.le_div_iff_mul_le (List.length_pos.mpr nonempty)).mpr ?_⟩
  simpa [Nat.mul_comm] using
    List.card_nsmul_le_sum (samples.map LocalDuration.millis) low.millis (by simpa using least)

/-- A nonempty list of samples has a greatest one, and it is at least the mean. -/
theorem exists_mean_le_greatest {samples : List LocalDuration} (nonempty : samples ≠ []) :
    ∃ high ∈ samples, (∀ sample ∈ samples, sample ≤ high) ∧
      (samples.map LocalDuration.millis).sum / samples.length ≤ high.millis := by
  obtain ⟨high, found⟩ : ∃ high, high ∈ samples.argmax LocalDuration.millis :=
    Option.ne_none_iff_exists'.mp (mt List.argmax_eq_none.mp nonempty)
  have greatest : ∀ sample ∈ samples, sample ≤ high := fun _ member => List.le_of_mem_argmax member found
  refine ⟨high, List.argmax_mem found, greatest, Nat.div_le_of_le_mul ?_⟩
  simpa using List.sum_le_card_nsmul (samples.map LocalDuration.millis) high.millis (by simpa using greatest)

namespace Peer

/-- `record_latency` over samples passed in order, from a history within the bound: the newest
`MAX_RECORDED_LATENCIES` of the samples and the history, newest first. -/
theorem foldl_recordLatency (peer : Peer) (samples : List LocalDuration)
    (bounded : peer.latencies.length ≤ maxRecordedLatencies) :
    (samples.foldl recordLatency peer).latencies =
      (samples.reverse ++ peer.latencies).take maxRecordedLatencies := by
  induction samples generalizing peer with
  | nil => exact (List.take_of_length_le bounded).symm
  | cons sample rest ih =>
    rw [List.foldl_cons, ih _ (List.length_take_le _ _), List.reverse_cons, List.append_assoc,
      List.singleton_append]
    exact take_append_take _ _ _

/-- On a full history `record_latency` evicts the oldest sample, the last one. -/
theorem recordLatency_of_full (peer : Peer) (full : peer.latencies.length = maxRecordedLatencies)
    (sample : LocalDuration) : (peer.recordLatency sample).latencies = sample :: peer.latencies.dropLast := by
  rw [List.dropLast_eq_take, full]
  rfl

/-- With a count that is positive and fits in a `u32`, `latency` divides the checked sum by the
exact count, rounded down. -/
theorem latency_of_count (peer : Peer) (counted : 0 < peer.latencies.length)
    (narrow : peer.latencies.length < 2 ^ 32) :
    peer.latency = (LocalDuration.sum peer.latencies).map fun sum => ⟨sum.millis / peer.latencies.length⟩ := by
  have exact : peer.latencies.length.toUInt32.toNat = peer.latencies.length := UInt32.toNat_ofNat_of_lt narrow
  have nonzero : peer.latencies.length.toUInt32 ≠ 0 := fun zero => by
    rw [zero] at exact
    exact absurd exact.symm (Nat.pos_iff_ne_zero.mp counted)
  unfold latency
  cases LocalDuration.sum peer.latencies <;> simp [LocalDuration.div, nonzero, exact]

/-- With a total that fits in a `u128` as well, `latency` is the total divided by the count,
rounded down. -/
theorem latency_eq_mean (peer : Peer) (fits : (peer.latencies.map LocalDuration.millis).sum < 2 ^ 128)
    (counted : 0 < peer.latencies.length) (narrow : peer.latencies.length < 2 ^ 32) :
    peer.latency = some ⟨(peer.latencies.map LocalDuration.millis).sum / peer.latencies.length⟩ := by
  rw [peer.latency_of_count counted narrow, LocalDuration.sum_eq, if_pos fits]
  rfl

/-- `latency` does not depend on the order of the samples. -/
theorem latency_perm (peer : Peer) {latencies : List LocalDuration} (relaid : latencies.Perm peer.latencies) :
    { peer with latencies }.latency = peer.latency := by
  simp only [latency, LocalDuration.sum_eq, (relaid.map LocalDuration.millis).sum_eq, relaid.length_eq]

/-- From an empty history, `record_latency` over `k` samples keeps the newest
`min k MAX_RECORDED_LATENCIES` of them, newest first. -/
theorem foldl_recordLatency_of_empty (peer : Peer) (empty : peer.latencies = []) (samples : List LocalDuration) :
    (samples.foldl recordLatency peer).latencies = (samples.drop (samples.length - maxRecordedLatencies)).reverse ∧
      (samples.foldl recordLatency peer).latencies.length = min samples.length maxRecordedLatencies := by
  have law := peer.foldl_recordLatency samples (by simp [empty])
  rw [empty, List.append_nil] at law
  have newest : (samples.drop (samples.length - maxRecordedLatencies)).reverse =
      samples.reverse.take maxRecordedLatencies := by
    rw [← List.reverse_reverse (samples.reverse.take _), List.reverse_take, List.length_reverse,
      List.reverse_reverse]
  rw [law, newest, List.length_take, List.length_reverse, min_comm]
  exact ⟨rfl, rfl⟩

end Peer

/-- `record_latency` keeps exactly the newest `MAX_RECORDED_LATENCIES` samples, newest first;
on a full history one more sample evicts the oldest. -/
theorem latency_ring_keeps_newest (peer : Peer) (samples : List LocalDuration)
    (bounded : peer.latencies.length ≤ maxRecordedLatencies) :
    (samples.foldl Peer.recordLatency peer).latencies =
        (samples.reverse ++ peer.latencies).take maxRecordedLatencies ∧
      (∀ (m : PingManager) (now : LocalTime) (addr : PeerId) services height, ∃ created,
        (m.receivedEvent now (.peerNegotiated addr services height)).peers.lookup addr = some created ∧
        created.latencies = [] ∧
        (samples.foldl Peer.recordLatency created).latencies =
          (samples.drop (samples.length - maxRecordedLatencies)).reverse ∧
        (samples.foldl Peer.recordLatency created).latencies.length = min samples.length maxRecordedLatencies) ∧
      ∀ full : Peer, full.latencies.length = maxRecordedLatencies → ∀ sample,
        (full.recordLatency sample).latencies = sample :: full.latencies.dropLast := by
  refine ⟨peer.foldl_recordLatency samples bounded, fun m now addr _ _ => ?_, Peer.recordLatency_of_full⟩
  refine ⟨⟨addr, .awaitingPong m.rng.u64.1 now, []⟩, by simp [PingManager.receivedEvent], rfl, ?_⟩
  exact Peer.foldl_recordLatency_of_empty _ rfl samples

/-- Three samples pushed on a one-sample history come out newest first, the old one last. -/
theorem three_samples_newest_first :
    let peer : Peer := ⟨.v4 0x7f000001 8333, .idle ⟨0⟩, [⟨5⟩]⟩
    peer.latencies.length ≤ maxRecordedLatencies ∧
      ([⟨10⟩, ⟨20⟩, ⟨30⟩].foldl Peer.recordLatency peer).latencies = [⟨30⟩, ⟨20⟩, ⟨10⟩, ⟨5⟩] := by
  intro peer
  have bounded : peer.latencies.length ≤ maxRecordedLatencies := by decide
  exact ⟨bounded, (latency_ring_keeps_newest peer [⟨10⟩, ⟨20⟩, ⟨30⟩] bounded).1⟩

/-- `latency` is the floor mean of the samples, when their `u128` sum cannot overflow; it lies
between the least and the greatest sample and does not depend on their order. -/
theorem latency_is_floor_mean (peer : Peer) (nonempty : peer.latencies ≠ [])
    (bounded : peer.latencies.length ≤ maxRecordedLatencies)
    (small : ∀ sample ∈ peer.latencies, sample.millis < 2 ^ 122) :
    ∃ mean, peer.latency = some mean ∧
      mean.millis = (peer.latencies.map LocalDuration.millis).sum / peer.latencies.length ∧
      (∃ low ∈ peer.latencies, (∀ sample ∈ peer.latencies, low ≤ sample) ∧ low ≤ mean) ∧
      (∃ high ∈ peer.latencies, (∀ sample ∈ peer.latencies, sample ≤ high) ∧ mean ≤ high) ∧
      ∀ latencies : List LocalDuration, latencies.Perm peer.latencies →
        { peer with latencies }.latency = peer.latency :=
  ⟨_, peer.latency_eq_mean (total_lt_of_small bounded small) (List.length_pos.mpr nonempty)
      (bounded.trans_lt (by decide)), rfl, exists_least_le_mean nonempty, exists_mean_le_greatest nonempty,
    fun _ relaid => peer.latency_perm relaid⟩

/-- Round trips of 40, 60 and 50 ms average to 50 ms. -/
theorem three_samples_average :
    let peer : Peer := ⟨.v4 0x7f000001 8333, .idle ⟨0⟩, [⟨40⟩, ⟨60⟩, ⟨50⟩]⟩
    peer.latencies ≠ [] ∧ peer.latencies.length ≤ maxRecordedLatencies ∧
      (∀ sample ∈ peer.latencies, sample.millis < 2 ^ 122) ∧ peer.latency = some ⟨50⟩ := by
  intro peer
  have nonempty : peer.latencies ≠ [] := by decide
  have bounded : peer.latencies.length ≤ maxRecordedLatencies := by decide
  have small : ∀ sample ∈ peer.latencies, sample.millis < 2 ^ 122 := by decide
  obtain ⟨⟨mean⟩, latency, millis, -⟩ := latency_is_floor_mean peer nonempty bounded small
  obtain rfl : mean = 50 := millis.trans (by decide)
  exact ⟨nonempty, bounded, small, latency⟩

end NakamotoP2p.Fsm.PingMgr

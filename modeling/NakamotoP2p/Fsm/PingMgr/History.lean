import NakamotoP2p.Fsm.PingMgr.Tick
import NakamotoP2p.Fsm.PingMgr.Received

/-! What an observer records of a run: every call with its clock reading and every effect it
enqueued, newest first; and queries that read one peer's session off it. -/

namespace NakamotoP2p.Fsm.PingMgr

/-- One observation of a run. -/
inductive Obs where
  /-- `received_event` called at `now`; `accepted` is the flag `received_pong` returns, which
  `received_event` drops. -/
  | delivered (now : LocalTime) (event : Event) (accepted : Bool)
  | ticked (now : LocalTime)
  /-- An effect the call at `now` pushed onto the outbox. -/
  | enqueued (now : LocalTime) (io : Io)

namespace Obs

def time : Obs → LocalTime
  | delivered now .. => now
  | ticked now => now
  | enqueued now _ => now

/-- The delivery of `PeerNegotiated` for `p`. -/
def negotiates (p : PeerId) : Obs → Bool
  | delivered _ (.peerNegotiated addr ..) _ => decide (addr = p)
  | _ => false

/-- The delivery of `PeerDisconnected` for `p`. -/
def disconnects (p : PeerId) : Obs → Bool
  | delivered _ (.peerDisconnected addr ..) _ => decide (addr = p)
  | _ => false

/-- A ping enqueued to `p`: when, and with which nonce. -/
def pingTo (p : PeerId) : Obs → Option (LocalTime × UInt64)
  | enqueued now (.send addr (.ping nonce)) => if addr = p then some (now, nonce) else none
  | _ => none

/-- A `pong` delivered from `p`, and the nonce it echoes. -/
def pongFrom (p : PeerId) : Obs → Option UInt64
  | delivered _ (.messageReceived addr (.pong nonce)) _ => if addr = p then some nonce else none
  | _ => none

/-- A `pong` from `p` the manager accepted: when, and the nonce it echoes. -/
def acceptedFrom (p : PeerId) : Obs → Option (LocalTime × UInt64)
  | delivered now (.messageReceived addr (.pong nonce)) true =>
    if addr = p then some (now, nonce) else none
  | _ => none

/-- The nonce of a ping enqueued to any peer. -/
def pingNonce : Obs → Option UInt64
  | enqueued _ (.send _ (.ping nonce)) => some nonce
  | _ => none

/-- The observation moves nothing in `p`'s session: no negotiation or disconnection of `p`, no
ping to it and no accepted `pong` from it. -/
def Inert (p : PeerId) (o : Obs) : Prop :=
  o.negotiates p = false ∧ o.disconnects p = false ∧ o.pingTo p = none ∧ o.acceptedFrom p = none

theorem acceptedFrom_of_pingTo {p : PeerId} {o : Obs} {ping : LocalTime × UInt64}
    (sent : o.pingTo p = some ping) : o.acceptedFrom p = none := by
  unfold acceptedFrom
  split
  · simp [pingTo] at sent
  · rfl

theorem pongFrom_of_acceptedFrom {p : PeerId} {o : Obs} {answer : LocalTime × UInt64}
    (accepted : o.acceptedFrom p = some answer) : o.pongFrom p = some answer.2 := by
  unfold acceptedFrom at accepted
  split at accepted
  · next addr nonce =>
    by_cases same : addr = p
    · simp only [same, if_true, Option.some.injEq] at accepted
      subst accepted; simp [pongFrom, same]
    · simp [same] at accepted
  · cases accepted

theorem eq_of_pingTo {p : PeerId} {o : Obs} {sent : LocalTime} {nonce : UInt64}
    (ping : o.pingTo p = some (sent, nonce)) : o = .enqueued sent (.send p (.ping nonce)) := by
  unfold pingTo at ping
  split at ping
  · next addr _ =>
    by_cases same : addr = p
    · simp only [same, if_true, Option.some.injEq, Prod.mk.injEq] at ping
      obtain ⟨rfl, rfl⟩ := ping; rw [same]
    · simp [same] at ping
  · cases ping

theorem eq_of_acceptedFrom {p : PeerId} {o : Obs} {answered : LocalTime} {nonce : UInt64}
    (accepted : o.acceptedFrom p = some (answered, nonce)) :
    o = .delivered answered (.messageReceived p (.pong nonce)) true := by
  unfold acceptedFrom at accepted
  split at accepted
  · next addr _ =>
    by_cases same : addr = p
    · simp only [same, if_true, Option.some.injEq, Prod.mk.injEq] at accepted
      obtain ⟨rfl, rfl⟩ := accepted; rw [same]
    · simp [same] at accepted
  · cases accepted

end Obs

/-- Whether `p` is in session: its newest negotiation is newer than its newest disconnection. -/
def connected (p : PeerId) : List Obs → Bool
  | [] => false
  | o :: h => o.negotiates p || (!o.disconnects p && connected p h)

/-- The observations of `p`'s current session: all those since its newest negotiation. -/
def lifetime (p : PeerId) (h : List Obs) : List Obs := h.takeWhile fun o => !o.negotiates p

/-- The newest ping enqueued to `p`. -/
def lastPing (p : PeerId) (h : List Obs) : Option (LocalTime × UInt64) := h.findSome? (Obs.pingTo p)

/-- The observations newer than the newest ping to `p`. -/
def sinceLastPing (p : PeerId) (h : List Obs) : List Obs := h.takeWhile fun o => (o.pingTo p).isNone

/-- A `pong` the manager accepted, with the newest ping before it. -/
structure Answer where
  sent : LocalTime
  answered : LocalTime
  nonce : UInt64
  deriving DecidableEq, Repr

/-- The accepted pongs from `p`, newest first, each with the enqueue time of the newest ping
before it. -/
def answers (p : PeerId) : List Obs → List Answer
  | [] => []
  | o :: h =>
    match o.acceptedFrom p, lastPing p h with
    | some (answered, nonce), some (sent, _) => ⟨sent, answered, nonce⟩ :: answers p h
    | _, _ => answers p h

/-- The round-trip times the history gives `p`, newest first. -/
def samples (p : PeerId) (h : List Obs) : List LocalDuration :=
  (answers p h).map fun answer => answer.answered - answer.sent

/-- A ping to `p` or an accepted `pong` from it. -/
inductive Turn where
  | ping (nonce : UInt64)
  | accept (nonce : UInt64)
  deriving DecidableEq, Repr

def Obs.turn (p : PeerId) (o : Obs) : Option Turn :=
  match o.pingTo p, o.acceptedFrom p with
  | some (_, nonce), _ => some (.ping nonce)
  | none, some (_, nonce) => some (.accept nonce)
  | none, none => none

/-- The pings to `p` and the accepted pongs from it, newest first. -/
def turns (p : PeerId) (h : List Obs) : List Turn := h.filterMap (Obs.turn p)

/-- Every accepted `pong` is answered by the ping just before it, with the same nonce. -/
def paired : List Turn → Bool
  | [] => true
  | .ping _ :: rest => paired rest
  | .accept nonce :: .ping sent :: rest => nonce == sent && paired rest
  | .accept _ :: _ => false

/-- `P` holds of every observation together with the history older than it. -/
def Throughout (P : Obs → List Obs → Prop) : List Obs → Prop
  | [] => True
  | o :: older => P o older ∧ Throughout P older

@[simp] theorem throughout_cons {P : Obs → List Obs → Prop} {o : Obs} {older : List Obs} :
    Throughout P (o :: older) ↔ P o older ∧ Throughout P older := Iff.rfl

/-- The clock never went back: each observation is no earlier than the ones before it. -/
def Chronological (h : List Obs) : Prop := h.Pairwise fun newer older => older.time ≤ newer.time

instance (h : List Obs) : Decidable (Chronological h) := inferInstanceAs (Decidable (List.Pairwise _ h))

/-- The nonces of all pings ever enqueued, newest first. -/
def pingNonces (h : List Obs) : List UInt64 := h.filterMap Obs.pingNonce

section Inert

variable {p : PeerId} {xs : List Obs} (h : List Obs)

theorem connected_append_inert (inert : ∀ o ∈ xs, o.Inert p) :
    connected p (xs ++ h) = connected p h := by
  induction xs with
  | nil => rfl
  | cons o xs ih =>
    obtain ⟨negotiates, disconnects, -, -⟩ := inert o (List.mem_cons_self _ _)
    simp [connected, negotiates, disconnects, ih fun o member => inert o (List.mem_cons_of_mem _ member)]

theorem lifetime_append_inert (inert : ∀ o ∈ xs, o.Inert p) :
    lifetime p (xs ++ h) = xs ++ lifetime p h :=
  List.takeWhile_append_of_pos fun o member => by simp [(inert o member).1]

theorem lastPing_append_silent (silent : ∀ o ∈ xs, o.pingTo p = none) :
    lastPing p (xs ++ h) = lastPing p h := by
  simp [lastPing, List.findSome?_append, List.findSome?_eq_none_iff.mpr silent]

theorem sinceLastPing_append_silent (silent : ∀ o ∈ xs, o.pingTo p = none) :
    sinceLastPing p (xs ++ h) = xs ++ sinceLastPing p h :=
  List.takeWhile_append_of_pos fun o member => by simp [silent o member]

theorem lastPing_append_inert (inert : ∀ o ∈ xs, o.Inert p) :
    lastPing p (xs ++ h) = lastPing p h :=
  lastPing_append_silent h fun o member => (inert o member).2.2.1

theorem sinceLastPing_append_inert (inert : ∀ o ∈ xs, o.Inert p) :
    sinceLastPing p (xs ++ h) = xs ++ sinceLastPing p h :=
  sinceLastPing_append_silent h fun o member => (inert o member).2.2.1

theorem answers_append_inert (inert : ∀ o ∈ xs, o.Inert p) :
    answers p (xs ++ h) = answers p h := by
  induction xs with
  | nil => rfl
  | cons o xs ih =>
    simp [answers, (inert o (List.mem_cons_self _ _)).2.2.2,
      ih fun o member => inert o (List.mem_cons_of_mem _ member)]

theorem turns_append_inert (inert : ∀ o ∈ xs, o.Inert p) :
    turns p (xs ++ h) = turns p h := by
  have quiet : xs.filterMap (Obs.turn p) = [] := List.filterMap_eq_nil_iff.mpr fun o member => by
    obtain ⟨-, -, ping, accepted⟩ := inert o member
    simp [Obs.turn, ping, accepted]
  simp [turns, quiet]

theorem lifetime_cons {o : Obs} (quiet : o.negotiates p = false) :
    lifetime p (o :: h) = o :: lifetime p h := by
  simp [lifetime, quiet]

theorem turns_cons_ping {o : Obs} {sent : LocalTime} {nonce : UInt64}
    (ping : o.pingTo p = some (sent, nonce)) : turns p (o :: h) = .ping nonce :: turns p h := by
  simp [turns, Obs.turn, ping]

theorem answers_cons_ping {o : Obs} {ping : LocalTime × UInt64} (sent : o.pingTo p = some ping) :
    answers p (o :: h) = answers p h := by
  simp [answers, Obs.acceptedFrom_of_pingTo sent]

end Inert

theorem lastPing_of_lifetime {p : PeerId} {h : List Obs} {ping : LocalTime × UInt64}
    (found : lastPing p (lifetime p h) = some ping) : lastPing p h = some ping := by
  obtain ⟨rest, split⟩ : List.IsPrefix (lifetime p h) h := List.takeWhile_prefix _
  rw [← split, lastPing, List.findSome?_append, ← lastPing, found]
  rfl

theorem lastPing_append_of_some {p : PeerId} {xs : List Obs} {ping : LocalTime × UInt64}
    (found : lastPing p xs = some ping) (ys : List Obs) : lastPing p (xs ++ ys) = some ping := by
  rw [lastPing, List.findSome?_append, ← lastPing, found]
  rfl

theorem sinceLastPing_append_of_some {p : PeerId} {xs : List Obs} {ping : LocalTime × UInt64}
    (found : lastPing p xs = some ping) (ys : List Obs) :
    sinceLastPing p (xs ++ ys) = sinceLastPing p xs := by
  induction xs with
  | nil => cases found
  | cons o xs ih =>
    cases sent : o.pingTo p with
    | none =>
      have later : lastPing p xs = some ping := by simpa [lastPing, sent] using found
      simpa [sinceLastPing, sent] using ih later
    | some _ => simp [sinceLastPing, sent]

/-- The newest ping splits the history at that ping. -/
theorem split_at_lastPing {p : PeerId} {h : List Obs} {sent : LocalTime} {nonce : UInt64}
    (found : lastPing p h = some (sent, nonce)) :
    ∃ older, h = sinceLastPing p h ++ .enqueued sent (.send p (.ping nonce)) :: older ∧
      lastPing p (sinceLastPing p h) = none := by
  induction h with
  | nil => cases found
  | cons o rest ih =>
    cases ping : o.pingTo p with
    | none =>
      have later : lastPing p rest = some (sent, nonce) := by simpa [lastPing, ping] using found
      obtain ⟨older, split, quiet⟩ := ih later
      refine ⟨older, ?_, ?_⟩
      · simp only [sinceLastPing, List.takeWhile_cons, ping, Option.isNone_none, if_true,
          List.cons_append] at split ⊢
        exact congrArg (o :: ·) split
      · simpa [sinceLastPing, lastPing, ping] using quiet
    | some found' =>
      have same : found' = (sent, nonce) := by simpa [lastPing, ping] using found
      subst same
      refine ⟨rest, ?_, by simp [sinceLastPing, ping, lastPing]⟩
      simp [sinceLastPing, ping, Obs.eq_of_pingTo ping, Obs.pingTo]

theorem ping_mem_of_lastPing {p : PeerId} {h : List Obs} {sent : LocalTime} {nonce : UInt64}
    (found : lastPing p h = some (sent, nonce)) : .enqueued sent (.send p (.ping nonce)) ∈ h := by
  obtain ⟨older, split, -⟩ := split_at_lastPing found
  rw [split]
  simp

/-- A split of the session is a split of the whole history. -/
theorem split_of_lifetime {p : PeerId} {h newer older : List Obs} {o : Obs}
    (split : lifetime p h = newer ++ o :: older) :
    h = newer ++ o :: (older ++ h.dropWhile fun o => !o.negotiates p) := by
  conv_lhs => rw [← List.takeWhile_append_dropWhile (fun o => !o.negotiates p) h]
  rw [← lifetime, split]
  simp

/-- Each answer is an accepted `pong` of the history, with the newest ping older than it. -/
theorem mem_answers {p : PeerId} {a : Answer} {h : List Obs} (member : a ∈ answers p h) :
    ∃ newer older nonce, h = newer ++ .delivered a.answered (.messageReceived p (.pong a.nonce)) true :: older ∧
      lastPing p older = some (a.sent, nonce) := by
  induction h with
  | nil => cases member
  | cons o h ih =>
    have later (member : a ∈ answers p h) :
        ∃ newer older nonce, o :: h = newer ++
          .delivered a.answered (.messageReceived p (.pong a.nonce)) true :: older ∧
          lastPing p older = some (a.sent, nonce) := by
      obtain ⟨newer, older, nonce, split, found⟩ := ih member
      exact ⟨o :: newer, older, nonce, by rw [split]; rfl, found⟩
    cases accepted : o.acceptedFrom p with
    | none => exact later (by simpa [answers, accepted] using member)
    | some answer =>
      cases last : lastPing p h with
      | none => exact later (by simpa [answers, accepted, last] using member)
      | some ping =>
        simp only [answers, accepted, last, List.mem_cons] at member
        rcases member with rfl | member
        · exact ⟨[], h, ping.2, by rw [Obs.eq_of_acceptedFrom accepted]; rfl, last⟩
        · exact later member

theorem answers_sublist_accepted (p : PeerId) (h : List Obs) :
    List.Sublist ((answers p h).map Answer.nonce) ((h.filterMap (Obs.acceptedFrom p)).map Prod.snd) := by
  induction h with
  | nil => exact .slnil
  | cons o h ih =>
    cases accepted : o.acceptedFrom p with
    | none => simpa [answers, accepted] using ih
    | some answer =>
      cases last : lastPing p h with
      | none => simpa [answers, accepted, last] using ih.cons _
      | some ping => simpa [answers, accepted, last] using ih.cons₂ answer.2

theorem throughout_iff {P : Obs → List Obs → Prop} {h : List Obs} :
    Throughout P h ↔ ∀ newer o older, h = newer ++ o :: older → P o older := by
  induction h with
  | nil => simp [Throughout]
  | cons o rest ih =>
    simp only [Throughout, ih]
    constructor
    · rintro ⟨here, later⟩ newer o' older split
      cases newer with
      | nil => cases split; exact here
      | cons head newer => exact later newer o' older (List.cons.inj split).2
    · intro all
      exact ⟨all [] o rest rfl, fun newer o' older split => all (o :: newer) o' older (by rw [split]; rfl)⟩

theorem throughout_append {P : Obs → List Obs → Prop} {xs h : List Obs}
    (block : ∀ newer o older, xs = newer ++ o :: older → P o (older ++ h)) (old : Throughout P h) :
    Throughout P (xs ++ h) := by
  induction xs with
  | nil => exact old
  | cons o xs ih =>
    exact ⟨block [] o xs rfl, ih fun newer o' older split => block (o :: newer) o' older (by rw [split]; rfl)⟩

/-- In a paired sequence the accepted nonces are a sublist of the pinged ones. -/
theorem paired_sublist : ∀ turns : List Turn, paired turns →
    List.Sublist (turns.filterMap fun | .accept nonce => some nonce | _ => none)
      (turns.filterMap fun | .ping nonce => some nonce | _ => none)
  | [], _ => .slnil
  | .ping _ :: rest, ok => .cons _ (paired_sublist rest ok)
  | .accept nonce :: .ping sent :: rest, ok => by
    simp only [paired, Bool.and_eq_true, beq_iff_eq] at ok
    obtain ⟨rfl, ok⟩ := ok
    exact .cons₂ _ (paired_sublist rest ok)
  | .accept _ :: [], ok => by simp [paired] at ok
  | .accept _ :: .accept _ :: _, ok => by simp [paired] at ok

theorem turns_accepted (p : PeerId) (h : List Obs) :
    (turns p h).filterMap (fun | .accept nonce => some nonce | _ => none) =
      (h.filterMap (Obs.acceptedFrom p)).map Prod.snd := by
  induction h with
  | nil => rfl
  | cons o rest ih =>
    simp only [turns, List.filterMap_cons, Obs.turn] at ih ⊢
    cases ping : o.pingTo p with
    | some sent => simp [Obs.acceptedFrom_of_pingTo ping, ih]
    | none => cases accepted : o.acceptedFrom p <;> simp [ih]

theorem turns_pinged (p : PeerId) (h : List Obs) :
    (turns p h).filterMap (fun | .ping nonce => some nonce | _ => none) =
      (h.filterMap (Obs.pingTo p)).map Prod.snd := by
  induction h with
  | nil => rfl
  | cons o rest ih =>
    simp only [turns, List.filterMap_cons, Obs.turn] at ih ⊢
    cases ping : o.pingTo p with
    | some sent => simp [ih]
    | none => cases accepted : o.acceptedFrom p <;> simp [ih]

theorem pinged_sublist_pingNonces (p : PeerId) (h : List Obs) :
    List.Sublist ((h.filterMap (Obs.pingTo p)).map Prod.snd) (pingNonces h) := by
  induction h with
  | nil => exact .slnil
  | cons o rest ih =>
    cases ping : o.pingTo p with
    | none => simpa [ping] using ih.trans ((List.sublist_cons_self o rest).filterMap Obs.pingNonce)
    | some sent =>
      obtain ⟨sentAt, nonce⟩ := sent
      rw [Obs.eq_of_pingTo ping]
      simpa [pingNonces, Obs.pingNonce, Obs.pingTo] using ih

end NakamotoP2p.Fsm.PingMgr

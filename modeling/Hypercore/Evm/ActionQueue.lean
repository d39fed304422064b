import Hypercore.Evm.CoreWriter
import Hypercore.Lib.Trace
/-!
# Hypercore.Evm.ActionQueue

The queue that delays the actions of contracts to a later block.

A history of the queue is the list of its calls with their answers. As long as block
numbers do not go back, every action that was queued is in exactly one of three places:
returned, cancelled or pending (`Accounted`), and the pending ones are sorted by block.
-/

namespace Hypercore

open Exec Int128

/-- Action queue: the pending actions, those of the current block, and the next id counter. -/
structure ActionQueue (K : SymbolicKeccak) where
  pending : List (CoreWriterAction K.Digest)
  processing : List (CoreWriterAction K.Digest)
  nextId : Nat

namespace ActionQueue

variable (K : SymbolicKeccak)

/-- Create new action queue. -/
def new : ActionQueue K := ⟨[], [], 0⟩

/-- The id of an action. -/
def actionIdOf (sender : AccountAddress) (nextId block : Nat) : K.Digest :=
  K.hashBytes (addressBytes sender ++ leBytes 8 nextId ++ leBytes 8 block)

variable {K} (q : ActionQueue K)

/-- Queue a new action. -/
def queueAction (sender beneficiary : AccountAddress) (actionType : ActionType) (data : Bytes)
    (block : Nat) (timestamp : Timestamp) : Exec (K.Digest × ActionQueue K) := do
  let actionId := actionIdOf K sender q.nextId block
  let nextId ← u64 (q.nextId + 1)
  let action := {
    actionId, sender, beneficiary, actionType, data
    queuedBlock := block
    queuedTime := timestamp }
  return (actionId, { q with pending := q.pending ++ [action], nextId })

/-- The actions at the front that were queued before a block, and the rest. -/
def popReady (currentBlock : Nat) : List (CoreWriterAction K.Digest) →
    List (CoreWriterAction K.Digest) × List (CoreWriterAction K.Digest)
  | [] => ([], [])
  | action :: pending =>
    if action.queuedBlock < currentBlock then
      let (ready, rest) := popReady currentBlock pending
      (action :: ready, rest)
    else ([], action :: pending)

/-- Get actions queued before a given block. -/
def getReadyActions (currentBlock : Nat) :
    List (CoreWriterAction K.Digest) × ActionQueue K :=
  let (ready, pending) := popReady currentBlock q.pending
  (ready, { q with pending, processing := ready })

/-- Mark actions as processed. -/
def markProcessed : ActionQueue K := { q with processing := [] }

/-- Cancel action by id, only if it is still pending. -/
def cancelAction (actionId : K.Digest) (sender : AccountAddress) : Bool × ActionQueue K :=
  match q.pending.findIdx? fun a => a.actionId = actionId ∧ a.sender = sender with
  | some pos => (true, { q with pending := q.pending.eraseIdx pos })
  | none => (false, q)

end ActionQueue

/-! ### Histories -/

/-- A call of the queue with its answer. -/
inductive QueueEvent (K : SymbolicKeccak)
  /-- `queue_action` made this action. -/
  | queued (action : CoreWriterAction K.Digest)
  /-- `get_ready_actions` returned these. -/
  | ready (currentBlock : Nat) (actions : List (CoreWriterAction K.Digest))
  | processed
  | cancelCall (actionId : K.Digest) (sender : AccountAddress) (done : Bool)

namespace QueueEvent

variable {K : SymbolicKeccak}

/-- The block number of a call. -/
def block : QueueEvent K → Option Nat
  | queued a => some a.queuedBlock
  | ready currentBlock _ => some currentBlock
  | _ => none

/-- The action of a call that queues. -/
def queued? : QueueEvent K → Option (CoreWriterAction K.Digest)
  | queued a => some a
  | _ => none

/-- What a call returned. -/
def returned : QueueEvent K → List (CoreWriterAction K.Digest)
  | ready _ actions => actions
  | _ => []

end QueueEvent

namespace ActionQueue

variable {K : SymbolicKeccak}

/-- A call with this answer takes one state to the other. -/
def Does (q : ActionQueue K) : QueueEvent K → ActionQueue K → Prop
  | .queued a, q' => q.queueAction a.sender a.beneficiary a.actionType a.data a.queuedBlock
      a.queuedTime = .ok (a.actionId, q')
  | .ready currentBlock actions, q' => q.getReadyActions currentBlock = (actions, q')
  | .processed, q' => q' = q.markProcessed
  | .cancelCall actionId sender done, q' => q.cancelAction actionId sender = (done, q')

/-- The actions that a history queued, oldest first. -/
def queuedIn (h : List (QueueEvent K)) : List (CoreWriterAction K.Digest) :=
  h.filterMap QueueEvent.queued?

/-- All that a history returned, in order. -/
def returnedIn (h : List (QueueEvent K)) : List (CoreWriterAction K.Digest) :=
  h.flatMap QueueEvent.returned

/-- An action with this id was cancelled. -/
def CancelledIn (h : List (QueueEvent K)) (actionId : K.Digest) : Prop :=
  ∃ sender, .cancelCall actionId sender true ∈ h

/-- Block numbers do not go back. -/
def Forward (h : List (QueueEvent K)) : Prop :=
  (h.filterMap QueueEvent.block).Pairwise (· ≤ ·)

/-- What a history of the queue should look like. -/
structure Delivers (h : List (QueueEvent K)) : Prop where
  /-- An action that was not cancelled is returned by the first call for a later block. -/
  released : ∀ pre mid post a currentBlock actions,
    h = pre ++ .queued a :: (mid ++ .ready currentBlock actions :: post) →
      (a ∈ actions ↔ a.queuedBlock < currentBlock ∧
        (∀ block' actions', .ready block' actions' ∈ mid → block' ≤ a.queuedBlock) ∧
        ¬ CancelledIn mid a.actionId)
  /-- Only what was queued before is returned. -/
  known : ∀ pre post currentBlock actions, h = pre ++ .ready currentBlock actions :: post →
    ∀ a ∈ actions, a ∈ queuedIn pre
  /-- In queueing order, and each action once. -/
  inOrder : (returnedIn h).Sublist (queuedIn h)
  distinct : ((queuedIn h).map (·.actionId)).Nodup
  /-- A cancellation succeeds exactly for the sender, while the action is pending. -/
  cancels : ∀ pre post actionId sender done, h = pre ++ .cancelCall actionId sender done :: post →
    (done = true ↔ ∃ a ∈ queuedIn pre, a.actionId = actionId ∧ a.sender = sender ∧
      a ∉ returnedIn pre ∧ ¬ CancelledIn pre actionId)
  /-- What was cancelled is never returned. -/
  withdrawn : ∀ a ∈ returnedIn h, ¬ CancelledIn h a.actionId

/-! ### One call -/

variable {q q' : ActionQueue K} {h : List (QueueEvent K)} {e : QueueEvent K}
  {a : CoreWriterAction K.Digest}

theorem popReady_append (currentBlock : Nat) (l : List (CoreWriterAction K.Digest)) :
    (popReady currentBlock l).1 ++ (popReady currentBlock l).2 = l := by
  induction l with
  | nil => rfl
  | cons a l ih =>
    unfold popReady
    split
    · exact congrArg (a :: ·) ih
    · rfl

variable {currentBlock : Nat} {sender : AccountAddress} {l : List (QueueEvent K)}

/-- On actions sorted by block the front is all that was queued before. -/
theorem popReady_sorted {l : List (CoreWriterAction K.Digest)}
    (hsorted : l.Pairwise fun a b => a.queuedBlock ≤ b.queuedBlock) :
    (∀ a ∈ (popReady currentBlock l).1, a.queuedBlock < currentBlock) ∧
      ∀ a ∈ (popReady currentBlock l).2, currentBlock ≤ a.queuedBlock := by
  induction l with
  | nil => exact ⟨nofun, nofun⟩
  | cons a l ih =>
    obtain ⟨hfirst, hrest⟩ := List.pairwise_cons.mp hsorted
    unfold popReady
    split
    · next hready =>
      refine ⟨fun b hb => ?_, (ih hrest).2⟩
      rcases List.mem_cons.mp hb with rfl | hb
      · exact hready
      · exact (ih hrest).1 b hb
    · next hlate =>
      refine ⟨nofun, fun b hb => ?_⟩
      rcases List.mem_cons.mp hb with rfl | hb
      · exact Nat.not_lt.mp hlate
      · exact (Nat.not_lt.mp hlate).trans (hfirst b hb)

/-- The ids of two actions differ with the counter. -/
theorem actionIdOf_inj {sender' : AccountAddress} {n n' block block' : Nat} (hn : n < 2 ^ 64)
    (hn' : n' < 2 ^ 64) (h : actionIdOf K sender n block = actionIdOf K sender' n' block') :
    n = n' := by
  have hbytes := K.hashBytes_injective h
  have hfront := (List.append_inj_left' hbytes (by rw [length_leBytes, length_leBytes]))
  have hcount := List.append_inj_right' hfront (by rw [length_leBytes, length_leBytes])
  exact leBytes_inj hn hn' hcount

/-! ### The invariant -/

/-- Every queued action is returned, cancelled or pending, and only one of these. The ids come
from the counter, and the pending actions are sorted by block, up to the last one. -/
structure Accounted (h : List (QueueEvent K)) (q : ActionQueue K) : Prop where
  order : (returnedIn h ++ q.pending).Sublist (queuedIn h)
  distinct : ((queuedIn h).map (·.actionId)).Nodup
  counted : ∀ a ∈ queuedIn h, ∃ sender n block,
    n < q.nextId ∧ a.actionId = actionIdOf K sender n block
  bound : q.nextId < 2 ^ 64
  placed : ∀ a ∈ queuedIn h, a ∈ returnedIn h ∨ a ∈ q.pending ∨ CancelledIn h a.actionId
  cancelled : ∀ actionId, CancelledIn h actionId → ∃ a ∈ queuedIn h, a.actionId = actionId ∧
    a ∉ returnedIn h ++ q.pending
  sorted : q.pending.Pairwise fun a b => a.queuedBlock ≤ b.queuedBlock
  recent : ∀ a ∈ q.pending, ∃ block ∈ h.filterMap QueueEvent.block, a.queuedBlock ≤ block

namespace Accounted

variable (ha : Accounted h q)
include ha

theorem ids_nodup : ((returnedIn h ++ q.pending).map (·.actionId)).Nodup :=
  ha.distinct.sublist (ha.order.map _)

/-- An action is known by its id. -/
theorem eq_of_id {b : CoreWriterAction K.Digest} (hmem : a ∈ queuedIn h) (hmem' : b ∈ queuedIn h)
    (heq : a.actionId = b.actionId) : a = b :=
  List.inj_on_of_nodup_map ha.distinct hmem hmem' heq

theorem pending_queued (hmem : a ∈ q.pending) : a ∈ queuedIn h :=
  ha.order.subset (List.mem_append_right _ hmem)

theorem pending_not_returned (hmem : a ∈ q.pending) : a ∉ returnedIn h := fun hret =>
  (List.nodup_append.mp (List.Nodup.of_map _ ha.ids_nodup)).2.2 a hret a hmem rfl

/-- A pending action was not cancelled. -/
theorem pending_not_cancelled (hmem : a ∈ q.pending) : ¬ CancelledIn h a.actionId := by
  intro hcancel
  obtain ⟨b, hb, hid, hnot⟩ := ha.cancelled _ hcancel
  obtain rfl := ha.eq_of_id hb (ha.pending_queued hmem) hid
  exact hnot (List.mem_append_right _ hmem)

/-- What is pending was queued no later than the block of a call that follows. -/
theorem pending_le {block : Nat} (hforward : Forward (h ++ [e])) (hblock : e.block = some block)
    (hmem : a ∈ q.pending) : a.queuedBlock ≤ block := by
  obtain ⟨block', hmem', hle⟩ := ha.recent a hmem
  unfold Forward at hforward
  rw [List.filterMap_append, List.pairwise_append] at hforward
  refine hle.trans (hforward.2.2 block' hmem' block ?_)
  rw [List.filterMap_cons, hblock]
  exact .head _

end Accounted

/-- What queueing an action does. -/
theorem queued_cases (hdoes : q.Does (.queued a) q') :
    a.actionId = actionIdOf K a.sender q.nextId a.queuedBlock ∧ q.nextId + 1 < 2 ^ 64 ∧
      q' = { q with pending := q.pending ++ [a], nextId := q.nextId + 1 } := by
  obtain ⟨next, hnext, hdoes⟩ := bind_inv hdoes
  obtain ⟨hlt, rfl⟩ := u64_eq_ok.mp hnext
  obtain ⟨hid, hq⟩ := pair_inv hdoes
  refine ⟨hid.symm, hlt, ?_⟩
  rw [← hq, hid]

variable {actionId : K.Digest} {actions : List (CoreWriterAction K.Digest)}

/-- What cancelling does: it removes an action with the id and of the sender, if one is pending. -/
theorem cancel_cases {done : Bool} (hdoes : q.Does (.cancelCall actionId sender done) q') :
    (done = false ∧ q' = q ∧ ∀ a ∈ q.pending, ¬ (a.actionId = actionId ∧ a.sender = sender)) ∨
    (done = true ∧ ∃ front a rest, q.pending = front ++ a :: rest ∧ a.actionId = actionId ∧
      a.sender = sender ∧ q' = { q with pending := front ++ rest }) := by
  have hdoes : q.cancelAction actionId sender = (done, q') := hdoes
  unfold cancelAction at hdoes
  cases hfind : q.pending.findIdx? fun a => a.actionId = actionId ∧ a.sender = sender with
  | none =>
    rw [hfind] at hdoes
    cases hdoes
    refine .inl ⟨rfl, rfl, fun a hmem => ?_⟩
    exact of_decide_eq_false (List.findIdx?_eq_none_iff.mp hfind a hmem)
  | some pos =>
    rw [hfind] at hdoes
    cases hdoes
    obtain ⟨hlt, hfound, -⟩ := List.findIdx?_eq_some_iff_getElem.mp hfind
    obtain ⟨hid, hsender⟩ := of_decide_eq_true hfound
    refine .inr ⟨rfl, q.pending.take pos, q.pending[pos], q.pending.drop (pos + 1), ?_, hid,
      hsender, ?_⟩
    · rw [List.getElem_cons_drop, List.take_append_drop]
    · rw [List.eraseIdx_eq_take_drop_succ]

theorem queuedIn_append (l : List (QueueEvent K)) : queuedIn (h ++ l) = queuedIn h ++ queuedIn l :=
  List.filterMap_append

theorem returnedIn_append (l : List (QueueEvent K)) :
    returnedIn (h ++ l) = returnedIn h ++ returnedIn l := List.flatMap_append

theorem cancelledIn_append :
    CancelledIn (h ++ l) actionId ↔ CancelledIn h actionId ∨ CancelledIn l actionId := by
  unfold CancelledIn
  simp only [List.mem_append, exists_or]

theorem Forward.front (hforward : Forward (h ++ l)) : Forward h := by
  unfold Forward at hforward ⊢
  rw [List.filterMap_append] at hforward
  exact (List.pairwise_append.mp hforward).1

/-- **Queueing** keeps the account. -/
theorem Accounted.queued (ha : Accounted h q) (hforward : Forward (h ++ [.queued a]))
    (hdoes : q.Does (.queued a) q') : Accounted (h ++ [.queued a]) q' := by
  obtain ⟨hid, hroom, rfl⟩ := queued_cases hdoes
  have hqueued : queuedIn (h ++ [.queued a]) = queuedIn h ++ [a] := queuedIn_append _
  have hreturned : returnedIn (h ++ [.queued a]) = returnedIn h := by
    rw [returnedIn_append]
    exact List.append_nil _
  have hcancelled (i : K.Digest) : CancelledIn (h ++ [.queued a]) i ↔ CancelledIn h i := by
    rw [cancelledIn_append]
    refine or_iff_left fun ⟨sender, hmem⟩ => ?_
    cases List.mem_singleton.mp hmem
  have hfresh : ∀ b ∈ queuedIn h, b.actionId ≠ a.actionId := by
    intro b hb heq
    obtain ⟨sender, n, block, hn, hbid⟩ := ha.counted b hb
    rw [hbid, hid] at heq
    exact hn.ne (actionIdOf_inj (hn.trans ha.bound) ha.bound heq)
  constructor
  · rw [hqueued, hreturned, ← List.append_assoc]
    exact ha.order.append (List.Sublist.refl _)
  · rw [hqueued, List.map_append, List.nodup_append]
    refine ⟨ha.distinct, List.nodup_singleton _, fun i hi j hj => ?_⟩
    obtain ⟨b, hb, rfl⟩ := List.mem_map.mp hi
    rw [List.map_singleton, List.mem_singleton] at hj
    exact hj ▸ hfresh b hb
  · intro b hb
    rw [hqueued, List.mem_append, List.mem_singleton] at hb
    rcases hb with hb | rfl
    · obtain ⟨sender, n, block, hn, hbid⟩ := ha.counted b hb
      exact ⟨sender, n, block, Nat.lt_succ_of_lt hn, hbid⟩
    · exact ⟨_, _, _, Nat.lt_succ_self _, hid⟩
  · exact hroom
  · intro b hb
    rw [hqueued, List.mem_append, List.mem_singleton] at hb
    rw [hreturned, hcancelled]
    rcases hb with hb | rfl
    · exact (ha.placed b hb).imp id (.imp (fun hp => List.mem_append_left _ hp) id)
    · exact .inr (.inl (List.mem_append_right _ (.head _)))
  · intro i hi
    obtain ⟨b, hb, hbid, hnot⟩ := ha.cancelled i ((hcancelled i).mp hi)
    refine ⟨b, ?_, hbid, ?_⟩
    · rw [hqueued]
      exact List.mem_append_left _ hb
    · rw [hreturned, ← List.append_assoc, List.mem_append, List.mem_singleton]
      rintro (hmem | rfl)
      · exact hnot hmem
      · exact hfresh b hb rfl
  · refine List.pairwise_append.mpr ⟨ha.sorted, List.pairwise_singleton _ _, fun b hb c hc => ?_⟩
    obtain rfl := List.mem_singleton.mp hc
    exact ha.pending_le hforward rfl hb
  · intro b hb
    rw [List.filterMap_append]
    rcases List.mem_append.mp hb with hb | hb
    · obtain ⟨block, hmem, hle⟩ := ha.recent b hb
      exact ⟨block, List.mem_append_left _ hmem, hle⟩
    · obtain rfl := List.mem_singleton.mp hb
      exact ⟨b.queuedBlock, List.mem_append_right _ (.head _), Nat.le_refl _⟩

/-- What extraction does: the front that was queued before the block is returned. -/
theorem ready_cases (hdoes : q.Does (.ready currentBlock actions) q') :
    q.pending = actions ++ q'.pending ∧ q'.nextId = q.nextId ∧
      (q.pending.Pairwise (fun a b => a.queuedBlock ≤ b.queuedBlock) →
        (∀ a ∈ actions, a.queuedBlock < currentBlock) ∧
          ∀ a ∈ q'.pending, currentBlock ≤ a.queuedBlock) := by
  have hdoes : q.getReadyActions currentBlock = (actions, q') := hdoes
  obtain ⟨rfl, rfl⟩ := Prod.mk.inj hdoes
  exact ⟨(popReady_append currentBlock q.pending).symm, rfl, popReady_sorted⟩

/-- **Extraction** keeps the account. -/
theorem Accounted.ready (ha : Accounted h q) (hdoes : q.Does (.ready currentBlock actions) q') :
    Accounted (h ++ [.ready currentBlock actions]) q' := by
  obtain ⟨hpending, hnext, -⟩ := ready_cases hdoes
  have hqueued : queuedIn (h ++ [.ready currentBlock actions]) = queuedIn h := by
    rw [queuedIn_append]
    exact List.append_nil _
  have hreturned : returnedIn (h ++ [.ready currentBlock actions]) = returnedIn h ++ actions := by
    rw [returnedIn_append]
    exact congrArg _ (List.append_nil _)
  have hsame : returnedIn (h ++ [.ready currentBlock actions]) ++ q'.pending =
      returnedIn h ++ q.pending := by
    rw [hreturned, hpending, List.append_assoc]
  have hcancelled (i : K.Digest) :
      CancelledIn (h ++ [.ready currentBlock actions]) i ↔ CancelledIn h i := by
    rw [cancelledIn_append]
    refine or_iff_left fun ⟨sender, hmem⟩ => ?_
    cases List.mem_singleton.mp hmem
  have hrest : ∀ a ∈ q'.pending, a ∈ q.pending := fun a hmem => by
    rw [hpending]
    exact List.mem_append_right _ hmem
  constructor
  · rw [hsame, hqueued]
    exact ha.order
  · rw [hqueued]
    exact ha.distinct
  · rw [hqueued, hnext]
    exact ha.counted
  · rw [hnext]
    exact ha.bound
  · intro b hb
    rw [hqueued] at hb
    rw [hreturned, hcancelled, List.mem_append]
    rcases ha.placed b hb with hret | hp | hc
    · exact .inl (.inl hret)
    · rw [hpending, List.mem_append] at hp
      exact hp.elim (fun hp => .inl (.inr hp)) fun hp => .inr (.inl hp)
    · exact .inr (.inr hc)
  · intro i hi
    rw [hsame, hqueued]
    exact ha.cancelled i ((hcancelled i).mp hi)
  · have hsorted := ha.sorted
    rw [hpending] at hsorted
    exact (List.pairwise_append.mp hsorted).2.1
  · intro b hb
    obtain ⟨block, hmem, hle⟩ := ha.recent b (hrest b hb)
    rw [List.filterMap_append]
    exact ⟨block, List.mem_append_left _ hmem, hle⟩

/-- A call that neither queues nor returns nor cancels keeps the account. -/
theorem Accounted.idle (ha : Accounted h q) (hqueued : e.queued? = none)
    (hreturned : e.returned = []) (hcancelled : ∀ i sender, e ≠ .cancelCall i sender true)
    (hpending : q'.pending = q.pending) (hnext : q'.nextId = q.nextId) :
    Accounted (h ++ [e]) q' := by
  have hq : queuedIn (h ++ [e]) = queuedIn h := by
    rw [queuedIn_append]
    simp [queuedIn, hqueued]
  have hr : returnedIn (h ++ [e]) = returnedIn h := by
    rw [returnedIn_append]
    simp [returnedIn, hreturned]
  have hc (i : K.Digest) : CancelledIn (h ++ [e]) i ↔ CancelledIn h i := by
    rw [cancelledIn_append]
    exact or_iff_left fun ⟨sender, hmem⟩ => hcancelled i sender (List.mem_singleton.mp hmem).symm
  constructor
  · rw [hr, hq, hpending]
    exact ha.order
  · rw [hq]
    exact ha.distinct
  · rw [hq, hnext]
    exact ha.counted
  · rw [hnext]
    exact ha.bound
  · intro b hb
    rw [hr, hpending, hc]
    exact ha.placed b (hq ▸ hb)
  · intro i hi
    rw [hr, hq, hpending]
    exact ha.cancelled i ((hc i).mp hi)
  · rw [hpending]
    exact ha.sorted
  · intro b hb
    obtain ⟨block, hmem, hle⟩ := ha.recent b (hpending ▸ hb)
    rw [List.filterMap_append]
    exact ⟨block, List.mem_append_left _ hmem, hle⟩

/-- **Cancellation** keeps the account: what is removed was neither returned nor twice pending. -/
theorem Accounted.cancel (ha : Accounted h q) {front rest : List (CoreWriterAction K.Digest)}
    (hpending : q.pending = front ++ a :: rest) :
    Accounted (h ++ [.cancelCall a.actionId sender true]) { q with pending := front ++ rest } := by
  have hqueued : queuedIn (h ++ [.cancelCall a.actionId sender true]) = queuedIn h := by
    rw [queuedIn_append]
    exact List.append_nil _
  have hreturned : returnedIn (h ++ [.cancelCall a.actionId sender true]) = returnedIn h := by
    rw [returnedIn_append]
    exact List.append_nil _
  have hcancelled (i : K.Digest) : CancelledIn (h ++ [.cancelCall a.actionId sender true]) i ↔
      CancelledIn h i ∨ i = a.actionId := by
    rw [cancelledIn_append]
    refine or_congr_right ⟨fun ⟨sender', hmem⟩ => ?_, fun heq => ⟨sender, heq ▸ .head _⟩⟩
    cases List.mem_singleton.mp hmem
    rfl
  have hsub : (front ++ rest).Sublist q.pending := by
    rw [hpending]
    exact (List.Sublist.refl front).append (List.sublist_cons_self a rest)
  have hmem : a ∈ q.pending := by
    rw [hpending]
    exact List.mem_append_right _ (.head _)
  constructor
  · rw [hqueued, hreturned]
    exact ((List.Sublist.refl _).append hsub).trans ha.order
  · rw [hqueued]
    exact ha.distinct
  · rw [hqueued]
    exact ha.counted
  · exact ha.bound
  · intro b hb
    rw [hqueued] at hb
    rw [hreturned, hcancelled]
    rcases ha.placed b hb with hret | hp | hc
    · exact .inl hret
    · rw [hpending, List.mem_append, List.mem_cons] at hp
      rcases hp with hp | rfl | hp
      · exact .inr (.inl (List.mem_append_left _ hp))
      · exact .inr (.inr (.inr rfl))
      · exact .inr (.inl (List.mem_append_right _ hp))
    · exact .inr (.inr (.inl hc))
  · intro i hi
    rw [hqueued, hreturned]
    rcases (hcancelled i).mp hi with hi | rfl
    · obtain ⟨b, hb, hid, hnot⟩ := ha.cancelled i hi
      exact ⟨b, hb, hid, fun hin => hnot (((List.Sublist.refl _).append hsub).subset hin)⟩
    · refine ⟨a, ha.pending_queued hmem, rfl, fun hin => ?_⟩
      rcases List.mem_append.mp hin with hret | hin
      · exact ha.pending_not_returned hmem hret
      · have hnodup := (List.nodup_append.mp (List.Nodup.of_map _ ha.ids_nodup)).2.1
        rw [hpending, List.nodup_middle] at hnodup
        exact (List.nodup_cons.mp hnodup).1 hin
  · exact ha.sorted.sublist hsub
  · intro b hb
    obtain ⟨block, hmem, hle⟩ := ha.recent b (hsub.subset hb)
    rw [List.filterMap_append]
    exact ⟨block, List.mem_append_left _ hmem, hle⟩

/-- **One call** keeps the account. -/
theorem Accounted.step (ha : Accounted h q) (hforward : Forward (h ++ [e])) (hdoes : q.Does e q') :
    Accounted (h ++ [e]) q' := by
  cases e with
  | queued a => exact ha.queued hforward hdoes
  | ready currentBlock actions => exact ha.ready hdoes
  | processed =>
    have hq : q' = q.markProcessed := hdoes
    exact ha.idle rfl rfl (fun _ _ => nofun) (hq ▸ rfl) (hq ▸ rfl)
  | cancelCall actionId sender done =>
    obtain ⟨rfl, rfl, -⟩ | ⟨rfl, front, a, rest, hpending, rfl, -, rfl⟩ := cancel_cases hdoes
    · exact ha.idle rfl rfl (fun _ _ => nofun) rfl rfl
    · exact ha.cancel hpending

/-- **All calls** keep the account. -/
theorem Accounted.run (ha : Accounted h q) (hforward : Forward (h ++ l))
    (hrun : Trace.Reads Does q l q') : Accounted (h ++ l) q' := by
  induction hrun generalizing h with
  | nil => rwa [List.append_nil]
  | @cons s t u e l hdoes _ ih =>
    rw [← List.singleton_append, ← List.append_assoc] at hforward ⊢
    exact ih (ha.step hforward.front hdoes) hforward

theorem accounted_new : Accounted [] (new K) where
  order := List.Sublist.refl _
  distinct := List.nodup_nil
  counted := nofun
  bound := Nat.two_pow_pos 64
  placed := nofun
  cancelled := by
    rintro i ⟨sender, hmem⟩
    cases hmem
  sorted := List.Pairwise.nil
  recent := nofun

/-! ### How long an action waits -/

/-- A call leaves an action where it is. -/
def Spares (a : CoreWriterAction K.Digest) : QueueEvent K → Prop
  | .ready currentBlock _ => currentBlock ≤ a.queuedBlock
  | .cancelCall actionId _ done => ¬ (done = true ∧ actionId = a.actionId)
  | _ => True

/-- **Waiting, one call.** An action that was queued stays pending while it is spared. -/
theorem Accounted.pending_step (ha : Accounted h q) (hmem : a ∈ queuedIn h)
    (hforward : Forward (h ++ [e])) (hdoes : q.Does e q') :
    a ∈ q'.pending ↔ a ∈ q.pending ∧ Spares a e := by
  cases e with
  | queued b =>
    have hnext := ha.queued hforward hdoes
    obtain ⟨-, -, rfl⟩ := queued_cases hdoes
    have hne : a ≠ b := by
      rintro rfl
      have hids := hnext.distinct
      rw [queuedIn_append, List.map_append, List.nodup_append] at hids
      exact hids.2.2 _ (List.mem_map_of_mem hmem) _ (.head _) rfl
    show a ∈ q.pending ++ [b] ↔ a ∈ q.pending ∧ True
    rw [List.mem_append, List.mem_singleton, and_true]
    exact or_iff_left hne
  | ready currentBlock actions =>
    obtain ⟨hpending, -, hsplit⟩ := ready_cases hdoes
    obtain ⟨hready, hrest⟩ := hsplit ha.sorted
    rw [hpending, List.mem_append]
    constructor
    · exact fun hin => ⟨.inr hin, hrest a hin⟩
    · rintro ⟨hin | hin, hspare⟩
      · exact absurd (hready a hin) (Nat.not_lt.mpr hspare)
      · exact hin
  | processed =>
    have hq : q' = q.markProcessed := hdoes
    rw [hq]
    exact (and_iff_left trivial).symm
  | cancelCall actionId sender done =>
    obtain ⟨rfl, rfl, -⟩ | ⟨rfl, front, b, rest, hpending, rfl, -, rfl⟩ := cancel_cases hdoes
    · exact (and_iff_left fun hdone => absurd hdone.1 Bool.false_ne_true).symm
    · show a ∈ front ++ rest ↔ a ∈ q.pending ∧ ¬ (true = true ∧ b.actionId = a.actionId)
      have hb : b ∈ q.pending := by
        rw [hpending]
        exact List.mem_append_right _ (.head _)
      have hid : b.actionId = a.actionId ↔ a = b :=
        ⟨fun heq => ha.eq_of_id hmem (ha.pending_queued hb) heq.symm, fun heq => heq ▸ rfl⟩
      have hnodup := (List.nodup_append.mp (List.Nodup.of_map _ ha.ids_nodup)).2.1
      rw [hpending, List.nodup_middle] at hnodup
      have hout := (List.nodup_cons.mp hnodup).1
      rw [hpending, and_iff_right rfl, hid, List.mem_append, List.mem_append, List.mem_cons]
      constructor
      · intro hin
        refine ⟨hin.imp id .inr, ?_⟩
        rintro rfl
        exact hout (List.mem_append.mpr hin)
      · rintro ⟨hin | rfl | hin, hne⟩
        · exact .inl hin
        · exact absurd rfl hne
        · exact .inr hin

/-- **Waiting.** Along any calls. -/
theorem Accounted.pending_run (ha : Accounted h q) (hmem : a ∈ queuedIn h)
    (hforward : Forward (h ++ l)) (hrun : Trace.Reads Does q l q') :
    a ∈ q'.pending ↔ a ∈ q.pending ∧ ∀ e ∈ l, Spares a e := by
  induction hrun generalizing h with
  | nil => simp
  | @cons s t u e l hdoes _ ih =>
    rw [← List.singleton_append, ← List.append_assoc] at hforward
    have hmem' : a ∈ queuedIn (h ++ [e]) := by
      rw [queuedIn_append]
      exact List.mem_append_left _ hmem
    rw [ih (ha.step hforward.front hdoes) hmem' hforward,
      ha.pending_step hmem hforward.front hdoes, List.forall_mem_cons, and_assoc]

/-- Calls that spare an action: none for a later block, and no cancellation of it. -/
theorem spares_all_iff : (∀ e ∈ l, Spares a e) ↔
    (∀ block actions, .ready block actions ∈ l → block ≤ a.queuedBlock) ∧
      ¬ CancelledIn l a.actionId := by
  constructor
  · intro hspares
    refine ⟨fun block actions hin => hspares _ hin, ?_⟩
    rintro ⟨sender, hin⟩
    exact hspares _ hin ⟨rfl, rfl⟩
  · rintro ⟨hready, hcancel⟩ e he
    cases e with
    | queued b => trivial
    | ready block actions => exact hready block actions he
    | processed => trivial
    | cancelCall actionId sender done =>
      rintro ⟨rfl, rfl⟩
      exact hcancel ⟨sender, he⟩

/-! ### The queue -/

/-- What is pending after some calls: queued, not returned and not cancelled. -/
theorem Accounted.mem_pending_iff (ha : Accounted h q) : a ∈ q.pending ↔
    a ∈ queuedIn h ∧ a ∉ returnedIn h ∧ ¬ CancelledIn h a.actionId := by
  constructor
  · exact fun hmem => ⟨ha.pending_queued hmem, ha.pending_not_returned hmem,
      ha.pending_not_cancelled hmem⟩
  · rintro ⟨hqueued, hret, hcancel⟩
    rcases ha.placed a hqueued with hin | hin | hin
    · exact absurd hin hret
    · exact hin
    · exact absurd hin hcancel

/-- **Delivery.** In every history of a new queue in which block numbers do not go back, each
action is returned by the first call for a later block unless it was cancelled, in queueing order
and once, under an id of its own; and its sender alone can cancel it, while it is pending. -/
theorem queue_delivers {h : List (QueueEvent K)} {q : ActionQueue K}
    (hrun : Trace.Reads Does (new K) h q) (hforward : Forward h) : Delivers h := by
  have haccount {pre post : List (QueueEvent K)} {t : ActionQueue K} (heq : h = pre ++ post)
      (hpre : Trace.Reads Does (new K) pre t) : Accounted pre t := by
    rw [heq] at hforward
    exact accounted_new.run hforward.front hpre
  have ha : Accounted h q := accounted_new.run hforward hrun
  constructor
  · rintro pre mid post a currentBlock actions rfl
    obtain ⟨s, s', hpre, hqueue, htail⟩ := hrun.cut
    obtain ⟨t, t', hmid, hready, -⟩ := htail.cut
    have hs := haccount rfl hpre
    have hforward' : Forward ((pre ++ [.queued a]) ++ mid) := by
      have hassoc : pre ++ .queued a :: (mid ++ .ready currentBlock actions :: post) =
          ((pre ++ [.queued a]) ++ mid) ++ .ready currentBlock actions :: post := by simp
      rw [hassoc] at hforward
      exact hforward.front
    have hs' := hs.queued hforward'.front hqueue
    have hin : a ∈ queuedIn (pre ++ [.queued a]) := by
      rw [queuedIn_append]
      exact List.mem_append_right _ (.head _)
    have hpend : a ∈ s'.pending := by
      obtain ⟨-, -, rfl⟩ := queued_cases hqueue
      exact List.mem_append_right _ (.head _)
    have hwait := (hs'.pending_run hin hforward' hmid).trans (and_iff_right hpend)
    rw [spares_all_iff] at hwait
    have ht := hs'.run hforward' hmid
    obtain ⟨hpending, -, hsplit⟩ := ready_cases hready
    obtain ⟨hbefore, hafter⟩ := hsplit ht.sorted
    rw [← hwait, hpending, List.mem_append]
    constructor
    · exact fun hret => ⟨hbefore a hret, .inl hret⟩
    · rintro ⟨hlt, hret | hrest⟩
      · exact hret
      · exact absurd hlt (Nat.not_lt.mpr (hafter a hrest))
  · rintro pre post currentBlock actions rfl a hmem
    obtain ⟨s, s', hpre, hready, -⟩ := hrun.cut
    obtain ⟨hpending, -⟩ := ready_cases hready
    refine (haccount rfl hpre).pending_queued ?_
    rw [hpending]
    exact List.mem_append_left _ hmem
  · exact (List.sublist_append_left _ _).trans ha.order
  · exact ha.distinct
  · rintro pre post actionId sender done rfl
    obtain ⟨s, s', hpre, hcancel, -⟩ := hrun.cut
    have hs := haccount rfl hpre
    have hpending : (∃ a ∈ queuedIn pre, a.actionId = actionId ∧ a.sender = sender ∧
        a ∉ returnedIn pre ∧ ¬ CancelledIn pre actionId) ↔
        ∃ a ∈ s.pending, a.actionId = actionId ∧ a.sender = sender := by
      constructor
      · rintro ⟨a, hin, rfl, rfl, hret, hc⟩
        exact ⟨a, hs.mem_pending_iff.mpr ⟨hin, hret, hc⟩, rfl, rfl⟩
      · rintro ⟨a, hin, rfl, rfl⟩
        obtain ⟨hqueued, hret, hc⟩ := hs.mem_pending_iff.mp hin
        exact ⟨a, hqueued, rfl, rfl, hret, hc⟩
    rw [hpending]
    obtain ⟨rfl, -, hnone⟩ | ⟨rfl, front, a, rest, hin, hid, hsender, -⟩ := cancel_cases hcancel
    · refine iff_of_false Bool.false_ne_true ?_
      rintro ⟨a, hin, hid⟩
      exact hnone a hin hid
    · refine iff_of_true rfl ⟨a, ?_, hid, hsender⟩
      rw [hin]
      exact List.mem_append_right _ (.head _)
  · rintro a hret hcancel
    obtain ⟨b, hb, hid, hnot⟩ := ha.cancelled _ hcancel
    have hin : a ∈ returnedIn h ++ q.pending := List.mem_append_left _ hret
    obtain rfl := ha.eq_of_id (ha.order.subset hin) hb hid.symm
    exact hnot hin

/-- An action of account 1, queued in block 1 by a queue that has queued `n` before. -/
def nthAction (K : SymbolicKeccak) (n : Nat) : CoreWriterAction K.Digest where
  actionId := actionIdOf K 1 n 1
  sender := 1
  beneficiary := 1
  actionType := .cancelOrder
  data := []
  queuedBlock := 1
  queuedTime := 0

/-- Of three actions the second is cancelled, by its sender only; the others are not returned
in their own block, but in the next one. -/
def twoOfThree (K : SymbolicKeccak) : List (QueueEvent K) :=
  [.queued (nthAction K 0), .queued (nthAction K 1), .queued (nthAction K 2),
    .cancelCall (nthAction K 1).actionId 2 false, .cancelCall (nthAction K 1).actionId 1 true,
    .ready 1 [], .ready 2 [nthAction K 0, nthAction K 2], .processed]

theorem twoOfThree_reads (K : SymbolicKeccak) :
    ∃ q, Trace.Reads Does (new K) (twoOfThree K) q := by
  let three : ActionQueue K := ⟨[nthAction K 0, nthAction K 1, nthAction K 2], [], 3⟩
  let waiting : ActionQueue K := ⟨[nthAction K 0, nthAction K 2], [], 3⟩
  have hqueue : Trace.Reads Does (new K)
      [.queued (nthAction K 0), .queued (nthAction K 1), .queued (nthAction K 2)] three :=
    .cons rfl (.cons rfl (.single rfl))
  have hsender (n : Nat) : (nthAction K n).sender = 1 := rfl
  have hne : (nthAction K 0).actionId ≠ (nthAction K 1).actionId := by
    intro h
    have hcount := actionIdOf_inj (by decide) (by decide) h
    cases hcount
  have hother : three.Does (.cancelCall (nthAction K 1).actionId 2 false) three := by
    simp [Does, cancelAction, three, hsender, List.findIdx?_cons]
  have hcancel : three.Does (.cancelCall (nthAction K 1).actionId 1 true) waiting := by
    simp [Does, cancelAction, three, waiting, hsender, List.findIdx?_cons, hne]
  have hsame : waiting.Does (.ready 1 []) waiting := rfl
  exact ⟨_, hqueue.append (.cons hother (.cons hcancel (.cons hsame (.cons rfl (.single rfl)))))⟩

theorem queue_delivers_two : Delivers (twoOfThree .numbered) := by
  obtain ⟨q, hq⟩ := twoOfThree_reads .numbered
  refine queue_delivers hq ?_
  unfold Forward
  decide

end ActionQueue

end Hypercore

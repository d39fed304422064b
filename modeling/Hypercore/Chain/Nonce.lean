import Hypercore.Chain.Run
/-!
# Hypercore.Chain.Nonce

Replay protection over runs of the application.

A timestamp nonce has to exceed the last one of its account, so it is spent for
good. A sequential nonce only has to lie within 100 of the account's counter, and
executing it moves the counter by one: a nonce ahead of the counter stays valid
until the counter has passed it. Transactions are told apart by sender and nonce.
-/

namespace Hypercore

open Exec Int128

namespace AppState

/-! ### Nonces move forward -/

section Forward

variable {s s' : AppState} {a b : AccountAddress} {n : Nat} {t : Timestamp}

/-- Effects do not touch nonces. -/
theorem applyEffect_nonces {sender : AccountAddress} {i : Effect}
    (h : applyEffect sender i s = .ok s') :
    s'.nonces = s.nonces ∧ s'.lastTimestampNonces = s.lastTimestampNonces :=
  ⟨applyEffect_keeps (fun _ _ _ _ _ => rfl) (fun _ _ _ _ _ => rfl) h,
    applyEffect_keeps (fun _ _ _ _ _ => rfl) (fun _ _ _ _ _ => rfl) h⟩

/-- Actions do not touch nonces. -/
theorem executeAction_nonces {action : TransactionType} {r : Except AppError (List Event)}
    (h : s.executeAction a t action = .ok (r, s')) :
    s'.nonces = s.nonces ∧ s'.lastTimestampNonces = s.lastTimestampNonces := by
  refine (executeAction_run h).invariant
    (P := fun t => t.nonces = s.nonces ∧ t.lastTimestampNonces = s.lastTimestampNonces)
    ⟨rfl, rfl⟩ ?_
  intro u i v hu _ hi
  obtain ⟨h₁, h₂⟩ := applyEffect_nonces hi
  exact ⟨h₁.trans hu.1, h₂.trans hu.2⟩

theorem incrementNonce_spec (h : s.incrementNonce a = .ok s') :
    s'.getNonce b = s.getNonce b + (if a = b then 1 else 0) ∧
      s'.lastTimestampNonces = s.lastTimestampNonces := by
  obtain ⟨next, hn, h⟩ := bind_inv h
  cases pure_inv h
  rw [u64_eq_ok] at hn
  obtain ⟨-, rfl⟩ := hn
  refine ⟨?_, rfl⟩
  unfold getNonce
  rw [FinMap.get_insert]
  split
  · rename_i hab
    rw [hab]
    rfl
  · rfl

theorem updateTimestampNonce_spec :
    (s.updateTimestampNonce a n).getNonce b = s.getNonce b ∧
      (s.updateTimestampNonce a n).lastTimestamp b =
        if timestampThreshold < n ∧ a = b then max (s.lastTimestamp b) n
        else s.lastTimestamp b := by
  unfold updateTimestampNonce
  by_cases hn : timestampThreshold < n
  · rw [if_pos hn]
    refine ⟨rfl, ?_⟩
    unfold lastTimestamp
    rw [FinMap.get_insert]
    by_cases hab : a = b
    · subst hab
      rw [if_pos rfl, if_pos ⟨hn, rfl⟩]
      rfl
    · rw [if_neg hab, if_neg fun h => hab h.2]
  · rw [if_neg hn, if_neg fun h => hn h.1]
    exact ⟨rfl, rfl⟩

/-- What a transaction that succeeds does to the nonces: the sender's counter moves by
one, and a timestamp nonce is remembered. -/
theorem executeTx_nonces {tx : Transaction} {result : TxResult}
    (h : s.executeTx tx t = .ok (.ok result, s')) :
    ∃ a, tx.signer = some a ∧ s.validateNonce a tx.nonce t = true ∧
      ∀ b, s'.getNonce b = s.getNonce b + (if a = b then 1 else 0) ∧
        s'.lastTimestamp b =
          if timestampThreshold < tx.nonce ∧ a = b then max (s.lastTimestamp b) tx.nonce
          else s.lastTimestamp b := by
  obtain ⟨-, e, he⟩ | ⟨a, ra, s₁, ha, hv, hact, ⟨e, -, he, -⟩ | ⟨events, s₂, -, -, hi, rfl⟩⟩ :=
    executeTx_cases h
  · cases he
  · cases he
  · refine ⟨a, ha, hv, fun b => ?_⟩
    obtain ⟨hn, hl⟩ := executeAction_nonces hact
    obtain ⟨hi₁, hi₂⟩ := incrementNonce_spec (b := b) hi
    obtain ⟨hu₁, hu₂⟩ := updateTimestampNonce_spec (s := s₂) (a := a) (b := b) (n := tx.nonce)
    have hget : s₁.getNonce b = s.getNonce b := by unfold getNonce; rw [hn]
    have hlast : s₂.lastTimestamp b = s.lastTimestamp b := by unfold lastTimestamp; rw [hi₂, hl]
    rw [hu₁, hi₁, hget, hu₂, hlast]
    exact ⟨rfl, rfl⟩

/-- Everything else leaves the nonces alone, a transaction that fails included. -/
theorem executeTx_failed_nonces {tx : Transaction} {e : AppError}
    (h : s.executeTx tx t = .ok (.error e, s')) :
    s'.nonces = s.nonces ∧ s'.lastTimestampNonces = s.lastTimestampNonces := by
  obtain ⟨rfl, -⟩ | ⟨a, ra, s₁, ha, hv, hact, ⟨e, -, -, rfl⟩ | ⟨events, s₂, -, he, -, -⟩⟩ :=
    executeTx_cases h
  · exact ⟨rfl, rfl⟩
  · exact executeAction_nonces hact
  · cases he

theorem finishBlock_nonces {ord : HashOrder} (h : finishBlock ord s = .ok s') :
    s'.nonces = s.nonces ∧ s'.lastTimestampNonces = s.lastTimestampNonces := by
  obtain ⟨⟨events, s₁⟩, hu, h⟩ := bind_inv h
  cases pure_inv h
  unfold upkeep at hu
  split at hu
  · cases pure_inv hu
    exact ⟨rfl, rfl⟩
  · obtain ⟨⟨rates, e₁⟩, -, hu⟩ := bind_inv hu
    obtain ⟨⟨done, e₂⟩, -, hu⟩ := bind_inv hu
    cases pure_inv hu
    exact ⟨rfl, rfl⟩

end Forward

/-! ### Histories -/

/-- One operation, with a record of the transactions that succeeded, newest first. -/
def recordStep (op : AppOp) (x : AppState × List Transaction) :
    Exec (AppState × List Transaction) :=
  match op with
  | .tx tx t => do
    let (r, s) ← x.1.executeTx tx t
    return (s, if r.isOk then tx :: x.2 else x.2)
  | op => do return (← step op x.1, x.2)

/-- A nonce that its account has spent: below the counter, or a timestamp up to the
last one. -/
def Spent (s : AppState) (a : AccountAddress) (n : Nat) : Prop :=
  if timestampThreshold < n then n ≤ s.lastTimestamp a else n < s.getNonce a

/-- A transaction in sequence: its nonce is a timestamp, or the counter of its sender
if it is valid at all. -/
def InSequence (s : AppState) : AppOp → Prop
  | .tx ⟨_, nonce, some a⟩ t => nonce ≤ timestampThreshold →
      s.validateNonce a nonce t = true → nonce = s.getNonce a
  | _ => True

instance (s : AppState) : (op : AppOp) → Decidable (InSequence s op)
  | .tx ⟨_, nonce, some a⟩ t => inferInstanceAs (Decidable (nonce ≤ timestampThreshold →
      s.validateNonce a nonce t = true → nonce = s.getNonce a))
  | .tx ⟨_, _, none⟩ _ => isTrue trivial
  | .beginBlock .. => isTrue trivial
  | .endBlock .. => isTrue trivial

theorem InSequence.nonce {s : AppState} {tx : Transaction} {a : AccountAddress} {t : Timestamp}
    (h : InSequence s (.tx tx t)) (ha : tx.signer = some a) (hn : tx.nonce ≤ timestampThreshold)
    (hv : s.validateNonce a tx.nonce t = true) : tx.nonce = s.getNonce a := by
  obtain ⟨action, nonce, signer⟩ := tx
  cases ha
  exact h hn hv

/-- Sender and nonce of a transaction. -/
def sentAs (tx : Transaction) : Option AccountAddress × Nat := (tx.signer, tx.nonce)

/-- All transactions of a history have a sender and are spent, and no sender used a nonce
twice. -/
structure HistoryOk (x : AppState × List Transaction) : Prop where
  spent : ∀ tx ∈ x.2, ∃ a, tx.signer = some a ∧ Spent x.1 a tx.nonce
  nodup : (x.2.map sentAs).Nodup

/-- What is spent stays spent while counters and timestamps grow. -/
theorem Spent.mono {s s' : AppState} {a : AccountAddress} {n : Nat} (h : Spent s a n)
    (hn : s.getNonce a ≤ s'.getNonce a) (hl : s.lastTimestamp a ≤ s'.lastTimestamp a) :
    Spent s' a n := by
  unfold Spent at *
  by_cases ht : timestampThreshold < n
  · rw [if_pos ht] at *
    exact le_trans h hl
  · rw [if_neg ht] at *
    exact lt_of_lt_of_le h hn

/-- A valid nonce that is in sequence has not been spent. -/
theorem not_spent_of_valid {s : AppState} {tx : Transaction} {a : AccountAddress} {t : Timestamp}
    (hok : InSequence s (.tx tx t)) (ha : tx.signer = some a)
    (hv : s.validateNonce a tx.nonce t = true) : ¬ Spent s a tx.nonce := by
  unfold Spent
  by_cases hn : timestampThreshold < tx.nonce
  · rw [if_pos hn]
    unfold validateNonce at hv
    rw [if_pos hn] at hv
    simp only [decide_eq_true_eq] at hv
    omega
  · rw [if_neg hn, hok.nonce ha (by omega) hv]
    omega

/-- Nonces that stay as they are stay spent. -/
theorem Spent.of_same {s s' : AppState} {a : AccountAddress} {n : Nat} (hsp : Spent s a n)
    (h : s'.nonces = s.nonces ∧ s'.lastTimestampNonces = s.lastTimestampNonces) :
    Spent s' a n := by
  obtain ⟨hn, hl⟩ := h
  refine hsp.mono ?_ ?_
  · unfold getNonce; rw [hn]
  · unfold lastTimestamp; rw [hl]

/-- A transaction in sequence that succeeds spends a nonce that was not spent. -/
theorem executeTx_spends {s s' : AppState} {tx : Transaction} {t : Timestamp} {result : TxResult}
    (hok : InSequence s (.tx tx t)) (h : s.executeTx tx t = .ok (.ok result, s')) :
    ∃ a, tx.signer = some a ∧ ¬ Spent s a tx.nonce ∧ Spent s' a tx.nonce ∧
      ∀ b n, Spent s b n → Spent s' b n := by
  obtain ⟨a, ha, hv, hnext⟩ := executeTx_nonces h
  refine ⟨a, ha, not_spent_of_valid hok ha hv, ?_, fun b n hsp => ?_⟩
  · have hseq : tx.nonce ≤ timestampThreshold → tx.nonce = s.getNonce a :=
      fun hle => hok.nonce ha hle hv
    obtain ⟨hn, hl⟩ := hnext a
    unfold Spent
    by_cases hts : timestampThreshold < tx.nonce
    · rw [if_pos hts, hl, if_pos ⟨hts, rfl⟩]
      exact le_max_right _ _
    · rw [if_neg hts, hn, if_pos rfl, hseq (by omega)]
      exact Nat.lt_succ_self _
  · obtain ⟨hn, hl⟩ := hnext b
    refine hsp.mono (by omega) ?_
    rw [hl]
    split <;> omega

/-- **Step lemma.** An operation in sequence keeps a history in order. -/
theorem HistoryOk.step {x x' : AppState × List Transaction} {op : AppOp} (h : HistoryOk x)
    (hok : InSequence x.1 op) (hs : recordStep op x = .ok x') : HistoryOk x' := by
  obtain ⟨s, log⟩ := x
  -- operations that leave the nonces alone, and record nothing
  have hsame : ∀ s', s'.nonces = s.nonces ∧ s'.lastTimestampNonces = s.lastTimestampNonces →
      HistoryOk (s', log) := by
    intro s' hs'
    refine ⟨fun tx htx => ?_, h.nodup⟩
    obtain ⟨a, ha, hsp⟩ := h.spent tx htx
    exact ⟨a, ha, hsp.of_same hs'⟩
  cases op with
  | beginBlock k t =>
    obtain ⟨s', hs', hs⟩ := bind_inv hs
    cases pure_inv hs
    cases pure_inv hs'
    exact hsame _ ⟨rfl, rfl⟩
  | endBlock ord =>
    obtain ⟨s', hs', hs⟩ := bind_inv hs
    cases pure_inv hs
    exact hsame _ (finishBlock_nonces hs')
  | tx tx t =>
    obtain ⟨⟨r, s'⟩, hr, hs⟩ := bind_inv hs
    change s.executeTx tx t = _ at hr
    cases r with
    | error e =>
      cases pure_inv hs
      exact hsame _ (executeTx_failed_nonces hr)
    | ok result =>
      cases pure_inv hs
      obtain ⟨a, ha, hfresh, hnow, hgrow⟩ := executeTx_spends hok hr
      constructor
      · intro tx' htx'
        rcases List.mem_cons.mp htx' with rfl | htx'
        · exact ⟨a, ha, hnow⟩
        · obtain ⟨b, hb, hsp⟩ := h.spent tx' htx'
          exact ⟨b, hb, hgrow b _ hsp⟩
      · refine List.nodup_cons.mpr ⟨fun hmem => ?_, h.nodup⟩
        obtain ⟨tx', htx', heq⟩ := List.mem_map.mp hmem
        obtain ⟨b, hb, hsp⟩ := h.spent tx' htx'
        obtain ⟨hsigner, hnonce⟩ := Prod.ext_iff.mp heq
        simp only [sentAs] at hsigner hnonce
        rw [hb, ha] at hsigner
        cases hsigner
        rw [hnonce] at hsp
        exact hfresh hsp

/-- **No replay in sequence.** In every run, from any state, whose sequential nonces are used in
sequence, no sender executes two transactions with one nonce. What was executed is spent for good
(`HistoryOk`): counters and timestamps only grow. -/
theorem no_replay_in_sequence {s₀ s : AppState} {log : List Transaction}
    (h : Run.Reaches recordStep (fun x op => InSequence x.1 op) (s₀, []) (s, log)) :
    (log.map sentAs).Nodup :=
  (h.invariant (P := HistoryOk) ⟨by simp, .nil⟩ fun _ _ _ => HistoryOk.step).nodup

/-- A transfer of 100 USDC from account 1 to account 2. -/
def transferTx (nonce : Nat) : Transaction := ⟨.usdTransfer 2 "100", nonce, some 1⟩

/-- A history from a node where account 1 has 1000 USDC. -/
def transferRun (ops : List AppOp) (ok : AppState → AppOp → Prop)
    [∀ s op, Decidable (ok s op)] : Exec (AppState × List Transaction) := do
  let s₀ ← genesis (usdcGenesis [(1, 1000000000)])
  ops.foldlM (fun x op => if ok x.1 op then recordStep op x else .error .panic) (s₀, [])

theorem transferRun_reaches {ops : List AppOp} {ok : AppState → AppOp → Prop}
    [inst : ∀ s op, Decidable (ok s op)] {x : AppState × List Transaction}
    (h : transferRun ops ok = .ok x) :
    ∃ s₀, genesis (usdcGenesis [(1, 1000000000)]) = .ok s₀ ∧
      Run.Reaches recordStep (fun x op => ok x.1 op) (s₀, []) x := by
  obtain ⟨s₀, h0, h⟩ := bind_inv h
  exact ⟨s₀, h0, .of_checked (fun x op => inst x.1 op) h⟩

/-- Two transfers in sequence and one with a timestamp. -/
theorem no_replay_transfers : ∃ s₀ s log,
    Run.Reaches recordStep (fun x op => InSequence x.1 op) (s₀, []) (s, log) ∧
      log = [transferTx 1700000000000, transferTx 1, transferTx 0] ∧ (log.map sentAs).Nodup := by
  obtain ⟨⟨s, log⟩, h, hlog⟩ := exists_of_test
    (x := transferRun [.tx (transferTx 0) 0, .tx (transferTx 1) 0,
      .tx (transferTx 1700000000000) 1700000000000] InSequence)
    (p := fun x => x.2 = [transferTx 1700000000000, transferTx 1, transferTx 0])
    (by decide +kernel)
  obtain ⟨s₀, -, hr⟩ := transferRun_reaches h
  exact ⟨s₀, s, log, hr, of_decide_eq_true hlog, no_replay_in_sequence hr⟩

/-- A transfer whose nonce is ahead of the counter executes twice, and moves the amount
twice. -/
theorem replay_ahead_of_counter : ∃ s₀ s log,
    genesis (usdcGenesis [(1, 1000000000)]) = .ok s₀ ∧
      Run.Reaches recordStep (fun _ _ => True) (s₀, []) (s, log) ∧
      log = [transferTx 5, transferTx 5] ∧ ¬ log.Nodup ∧
      s.unifiedState.getCoreView 2 0 = ⟨200000000, 6⟩ := by
  obtain ⟨⟨s, log⟩, h, hlog⟩ := exists_of_test
    (x := transferRun [.tx (transferTx 5) 0, .tx (transferTx 5) 0] fun _ _ => True)
    (p := fun x => x.2 = [transferTx 5, transferTx 5] ∧
      x.1.unifiedState.getCoreView 2 0 = ⟨200000000, 6⟩)
    (by decide +kernel)
  obtain ⟨s₀, h0, hr⟩ := transferRun_reaches h
  obtain ⟨rfl, hview⟩ := of_decide_eq_true hlog
  exact ⟨s₀, s, _, h0, hr, rfl, by decide, hview⟩

end AppState

end Hypercore

import Hypercore.Gateway.StateProof
/-!
# Hypercore.Chain.AppHash

Checking an app hash by computing it again.

`compute_app_hash` hashes the stored app hash as the previous one, and `end_block` stores
its result there. Whoever computes again after the block therefore hashes one block more:
`verify_app_hash` takes the hash that the block would have with itself as its predecessor,
and never the hash that `end_block` returned.
-/

namespace Hypercore

open Exec

namespace SymbolicKeccak

variable {K : SymbolicKeccak}

/-- The previous app hash stands behind 16 bytes. -/
theorem prev_of_appHashData {inputs inputs' : HashInputs} {prev prev' : K.Digest}
    (h : K.appHashData inputs prev = K.appHashData inputs' prev') : prev = prev' := by
  unfold appHashData at h
  rw [List.append_assoc, List.append_assoc] at h
  have hlen : ∀ i : HashInputs, ((leBytes 8 i.height ++ leBytes 8 i.timestamp).map
      (Sum.inl : UInt8 → UInt8 ⊕ K.Digest)).length = 16 := by
    intro i
    rw [List.length_map, List.length_append, length_leBytes, length_leBytes]
  have htail := (List.append_inj h ((hlen inputs).trans (hlen inputs').symm)).2
  exact Sum.inr_injective (List.cons.inj htail).1

/-- The bytes of an app hash say how many blocks went into it. -/
theorem appHash_length_inj : ∀ {l l' : AppHash}, K.appHash l = K.appHash l' → l.length = l'.length
  | [], [], _ => rfl
  | [], _ :: _, h => absurd h.symm (K.ne_zero _)
  | _ :: _, [], h => absurd h (K.ne_zero _)
  | _ :: _, _ :: _, h =>
    congrArg (· + 1) (appHash_length_inj (prev_of_appHashData (K.injective h)))

end SymbolicKeccak

namespace AppState

variable (K : SymbolicKeccak)

/-- Compute the app hash from the state and compare it against an expected value: whether they
match, and the computed hash. -/
def verifyAppHash (s : AppState) (expected : K.Digest) : Bool × K.Digest :=
  (K.appHash s.computeAppHash = expected, K.appHash s.computeAppHash)

/-- A restart brings back all that the app hash commits to, and the stored app hash. -/
structure Restarted (s r : AppState) : Prop where
  hashInputs : r.hashInputs = s.hashInputs
  appHash : r.appHash = s.appHash

theorem Restarted.refl (s : AppState) : Restarted s s := ⟨rfl, rfl⟩

/-- After the block of a state, and after any restart from there, verification takes the hash
that the block returned and no other. -/
def AppHashVerifies (s : AppState) : Prop :=
  ∀ r, Restarted s.endBlock r → ∀ x : K.Digest,
    (r.verifyAppHash K x).1 = true ↔ x = K.appHash s.computeAppHash

variable {K} {s r : AppState}

/-- Computed again, the hash is that of one block more. -/
theorem computeAppHash_restarted (h : Restarted s.endBlock r) :
    r.computeAppHash = s.hashInputs :: s.computeAppHash := by
  unfold computeAppHash
  rw [h.hashInputs, h.appHash]
  rfl

theorem verifyAppHash_restarted (h : Restarted s.endBlock r) (x : K.Digest) :
    (r.verifyAppHash K x).1 = true ↔ x = K.appHash (s.hashInputs :: s.computeAppHash) := by
  unfold verifyAppHash
  rw [computeAppHash_restarted h]
  exact decide_eq_true_iff.trans eq_comm

theorem appHash_recomputed_ne (K : SymbolicKeccak) (s : AppState) :
    K.appHash (s.hashInputs :: s.computeAppHash) ≠ K.appHash s.computeAppHash := fun heq =>
  Nat.succ_ne_self _ (SymbolicKeccak.appHash_length_inj heq)

/-- **Verification.** After no block does the check succeed: not right after it, and not after a
restart. It refuses the hash that the block returned and takes another one. -/
theorem app_hash_never_verifies (K : SymbolicKeccak) (s : AppState) :
    ¬ s.AppHashVerifies K ∧ ∀ r, Restarted s.endBlock r →
      (r.verifyAppHash K (K.appHash s.computeAppHash)).1 = false ∧
      ∃ x, x ≠ K.appHash s.computeAppHash ∧ (r.verifyAppHash K x).1 = true := by
  have hne := appHash_recomputed_ne K s
  constructor
  · intro h
    have htakes := (verifyAppHash_restarted (.refl _) _).mpr
      (rfl : K.appHash (s.hashInputs :: s.computeAppHash) = _)
    exact hne ((h s.endBlock (.refl _) _).mp htakes)
  · intro r hr
    refine ⟨?_, _, hne, (verifyAppHash_restarted hr _).mpr rfl⟩
    rw [Bool.eq_false_iff]
    exact fun htakes => hne ((verifyAppHash_restarted hr _).mp htakes).symm

theorem app_hash_never_verifies_new :
    (new.endBlock.verifyAppHash .numbered
      (SymbolicKeccak.numbered.appHash new.computeAppHash)).1 = false :=
  ((app_hash_never_verifies .numbered new).2 new.endBlock (.refl _)).1

/-- After its first block a node does not verify the app hash of that block. -/
theorem first_hash_refused : ∃ s s', Reachable s ∧ finishBlock .sorted s = .ok s' ∧
    (s'.verifyAppHash .numbered (SymbolicKeccak.numbered.appHash s'.appHash)).1 = false := by
  obtain ⟨s, hs, htest⟩ := exists_of_test
    (x := nodeRun (usdcGenesis [(1, 1000000000)]) [.beginBlock 1 1000])
    (p := fun s => match finishBlock .sorted s with | .ok _ => true | .error _ => false)
    (by decide +kernel)
  cases hfinish : finishBlock .sorted s with
  | error e =>
    rw [hfinish] at htest
    cases htest
  | ok s' =>
    refine ⟨s, s', nodeRun_reachable (usdcGenesis_nonneg _) hs, hfinish, ?_⟩
    unfold verifyAppHash computeAppHash
    refine decide_eq_false fun heq => ?_
    exact Nat.succ_ne_self _ (SymbolicKeccak.appHash_length_inj heq)

end AppState

end Hypercore

import Hypercore.HyperBft.Network
/-!
# Hypercore.HyperBft.Agreement

Agreement of the consensus runners.

A run in which every vote that is counted is genuine, every certificate that is
accepted is backed, and no runner gets to vote for two blocks of one height,
commits at most one block at each height, and every commit is backed by a quorum.
The invariant (`Inv`) is that collectors hold
genuine votes, one a voter and height, and that honest validators have voted for
one block a height; quorum intersection does the rest.

Other runs can commit two blocks. A faulty validator needs one made-up
certificate for each of two runners, and with no faulty validator a leader that
proposes again after a timeout is enough.
-/

namespace Hypercore

namespace HyperBft

open Exec Int128

/-! ### Collectors -/

/-- Every vote of a collector has the property, is filed under its own height and block,
and no voter is filed twice. -/
structure VoteCollector.Ok (P : Vote → Prop) (c : VoteCollector) : Prop where
  filed : ∀ h b, ∀ v ∈ c.votesFor h b,
    v.height = h ∧ v.blockHash = b ∧ v.voter ∈ c.votersAt h ∧ P v
  nodup : ∀ h b, ((c.votesFor h b).map (·.voter)).Nodup

/-- A certificate of enough votes for its own block, all different and with the
property. -/
structure CommitCertificate.Certifies (P : Vote → Prop) (quorum : Nat)
    (c : CommitCertificate) : Prop where
  enough : quorum ≤ c.votes.length
  nodup : (c.votes.map (·.voter)).Nodup
  votes : ∀ v ∈ c.votes, v.height = c.height ∧ v.blockHash = c.blockHash ∧ P v

namespace VoteCollector

variable {P Q : Vote → Prop} {c c' : VoteCollector}

theorem Ok.new : VoteCollector.new.Ok P where
  filed h b v hv := by simp [votesFor, VoteCollector.new] at hv
  nodup h b := by simp [votesFor, VoteCollector.new]

theorem Ok.mono (hc : c.Ok P) (h : ∀ v, P v → Q v) : c.Ok Q where
  filed height b v hv := by
    obtain ⟨h1, h2, h3, h4⟩ := hc.filed height b v hv
    exact ⟨h1, h2, h3, h v h4⟩
  nodup := hc.nodup

/-- **Adding a vote.** A vote with the property keeps the collector in order, and a
certificate that comes out certifies. -/
theorem Ok.addVote {q : Nat} {vote : Vote} {cert : Option CommitCertificate} (hc : c.Ok P)
    (hv : P vote) (h : c.addVote q vote = (cert, c')) :
    c'.Ok P ∧ ∀ x ∈ cert, x.Certifies P q := by
  unfold VoteCollector.addVote at h
  split at h
  · obtain ⟨rfl, rfl⟩ := Prod.mk.inj h
    exact ⟨hc, by simp⟩
  · rename_i hnew
    obtain ⟨rfl, rfl⟩ := Prod.mk.inj h
    set votes := c.votesFor vote.height vote.blockHash ++ [vote] with hvotes
    have hfor : ∀ (h : Nat) (b : BlockHash), votesFor
        ⟨c.votes.insert ⟨vote.height, vote.blockHash⟩ votes,
          c.voted.insert vote.height (vote.voter :: c.votersAt vote.height)⟩ h b =
        if vote.height = h ∧ vote.blockHash = b then votes else c.votesFor h b := by
      intro h b
      unfold votesFor
      rw [FinMap.get_insert]
      simp only [PairKey.mk.injEq]
      split <;> rfl
    have hat : ∀ h : Nat, votersAt
        ⟨c.votes.insert ⟨vote.height, vote.blockHash⟩ votes,
          c.voted.insert vote.height (vote.voter :: c.votersAt vote.height)⟩ h =
        if vote.height = h then vote.voter :: c.votersAt vote.height else c.votersAt h := by
      intro h
      unfold votersAt
      rw [FinMap.get_insert]
      split <;> rfl
    have hfiled : ∀ v ∈ votes, v.height = vote.height ∧ v.blockHash = vote.blockHash ∧
        v.voter ∈ vote.voter :: c.votersAt vote.height ∧ P v := by
      intro v hmem
      rcases List.mem_append.mp hmem with hmem | hmem
      · obtain ⟨h1, h2, h3, h4⟩ := hc.filed _ _ v hmem
        exact ⟨h1, h2, .tail _ h3, h4⟩
      · obtain rfl := List.mem_singleton.mp hmem
        exact ⟨rfl, rfl, .head _, hv⟩
    have hnodup : (votes.map (·.voter)).Nodup := by
      rw [hvotes, List.map_append, List.map_singleton, List.nodup_append]
      refine ⟨hc.nodup _ _, List.nodup_singleton _, fun a ha b hb => ?_⟩
      obtain ⟨v, hmem, rfl⟩ := List.mem_map.mp ha
      obtain rfl := List.mem_singleton.mp hb
      intro heq
      exact hnew (heq ▸ (hc.filed _ _ v hmem).2.2.1)
    refine ⟨⟨fun h b v hmem => ?_, fun h b => ?_⟩, fun x hx => ?_⟩
    · rw [hfor] at hmem
      rw [hat]
      split at hmem
      · rename_i heq
        obtain ⟨rfl, rfl⟩ := heq
        rw [if_pos rfl]
        exact hfiled v hmem
      · obtain ⟨h1, h2, h3, h4⟩ := hc.filed _ _ v hmem
        refine ⟨h1, h2, ?_, h4⟩
        split
        · rename_i heq
          exact .tail _ (heq ▸ h3)
        · exact h3
    · rw [hfor]
      split
      · exact hnodup
      · exact hc.nodup h b
    · rw [Option.mem_def, Option.ite_none_right_eq_some] at hx
      obtain ⟨hq, hx⟩ := hx
      obtain rfl := Option.some.inj hx
      exact ⟨hq, hnodup, fun v hmem => ⟨(hfiled v hmem).1, (hfiled v hmem).2.1,
        (hfiled v hmem).2.2.2⟩⟩

theorem votesFor_prune (c : VoteCollector) (m h : Nat) (b : BlockHash) :
    (c.prune m).votesFor h b = if m ≤ h then c.votesFor h b else [] := by
  unfold votesFor prune
  rw [Std.ExtTreeMap.getElem?_filter']
  cases (c.votes[(⟨h, b⟩ : PairKey _ _)]?) with
  | none => split <;> rfl
  | some vs => by_cases hm : m ≤ h <;> simp [hm, Option.filter]

theorem votersAt_prune (c : VoteCollector) (m h : Nat) :
    (c.prune m).votersAt h = if m ≤ h then c.votersAt h else [] := by
  unfold votersAt prune
  rw [Std.ExtTreeMap.getElem?_filter']
  cases (c.voted[h]?) with
  | none => split <;> rfl
  | some vs => by_cases hm : m ≤ h <;> simp [hm, Option.filter]

/-- Pruning drops the votes of a height together with its voters. -/
theorem Ok.prune (hc : c.Ok P) (m : Nat) : (c.prune m).Ok P where
  filed h b v hv := by
    rw [votesFor_prune] at hv
    rw [votersAt_prune]
    split at hv
    · rename_i hm
      rw [if_pos hm]
      exact hc.filed h b v hv
    · cases hv
  nodup h b := by
    rw [votesFor_prune]
    split
    · exact hc.nodup h b
    · exact List.nodup_nil

end VoteCollector

/-! ### Runners -/

namespace Runner

variable {P : Vote → Prop} {r r' : Runner}

/-- Entering a round sends no vote and leaves the collector alone. -/
theorem enterRound_spec {p : Production} {ms : List BftMessage}
    (h : r.enterRound p = .ok (ms, r')) :
    Net.votesOf ms = [] ∧ r'.config = r.config ∧ r'.voteCollector = r.voteCollector := by
  obtain ⟨height, -, h⟩ := bind_inv h
  split at h
  · split at h <;> obtain ⟨rfl, rfl⟩ := pair_inv h <;> exact ⟨rfl, rfl, rfl⟩
  · obtain ⟨rfl, rfl⟩ := pair_inv h
    exact ⟨rfl, rfl, rfl⟩

@[simp] theorem timeout_config : r.timeout.config = r.config := by
  unfold timeout
  split <;> rfl

@[simp] theorem timeout_voteCollector : r.timeout.voteCollector = r.voteCollector := by
  unfold timeout
  split <;> rfl

/-- Collecting a vote sends no vote. -/
theorem votesOf_collect (r : Runner) (height : Nat) (vote : Vote) :
    Net.votesOf (r.collect height vote).sent = [] := by
  unfold collect
  dsimp only
  split <;> rfl

/-- A commit that collecting a vote leads to is certified. -/
theorem collect_spec (height : Nat) {vote : Vote} (hr : r.voteCollector.Ok P) (hv : P vote) :
    let handled := r.collect height vote
    handled.runner.config = r.config ∧ handled.runner.voteCollector.Ok P ∧
      ∀ c, handled.result = .ok (some c) → c.Certifies P r.config.quorumSize := by
  cases hadd : r.voteCollector.addVote r.config.quorumSize vote with
  | mk cert collector =>
    obtain ⟨hok, hcert⟩ := hr.addVote hv hadd
    unfold collect
    rw [hadd]
    cases cert with
    | none => exact ⟨rfl, hok, fun c hc => by cases hc⟩
    | some x =>
      refine ⟨rfl, hok.prune _, fun c hc => ?_⟩
      obtain rfl := Option.some.inj (Except.ok.inj hc)
      exact hcert _ rfl

variable {hasher : HashFeed → Fin (2 ^ 64)} {height : Nat}

/-- The only vote that handling a message sends is the one for a proposal. -/
theorem votesOf_handleMessage {m : BftMessage} {v : Vote}
    (hv : v ∈ Net.votesOf (r.handleMessage hasher height m).sent) :
    ∃ p, m = .propose p ∧ p.height = height ∧ v = r.voteFor hasher p := by
  cases m with
  | propose p =>
    rw [handleMessage] at hv
    split at hv
    · cases hv
    · rename_i hheight
      change v ∈ r.voteFor hasher p :: Net.votesOf (collect _ height _).sent at hv
      rw [votesOf_collect, List.mem_singleton] at hv
      exact ⟨p, rfl, not_not.mp hheight, hv⟩
  | vote w =>
    rw [handleMessage] at hv
    split at hv
    · cases hv
    · rw [votesOf_collect] at hv
      cases hv
  | commit c =>
    rw [handleMessage] at hv
    split at hv
    · cases hv
    · split at hv <;> cases hv
  | syncRequest _ => cases hv
  | syncResponse _ _ _ => cases hv

/-- What handling a message does, when the votes it counts have the property and the
certificates it accepts are good. -/
theorem handleMessage_spec (m : BftMessage) {K : CommitCertificate → Prop}
    (hr : r.voteCollector.Ok P) (hK : ∀ c, c.Certifies P r.config.quorumSize → K c)
    (hpropose : ∀ p, m = .propose p → p.height = height → P (r.voteFor hasher p))
    (hvote : ∀ v, m = .vote v → v.height = height → P v)
    (hcommit : ∀ c, m = .commit c → c.height = height →
      c.hasQuorum r.config.quorumSize = true → K c) :
    let handled := r.handleMessage hasher height m
    handled.runner.config = r.config ∧ handled.runner.voteCollector.Ok P ∧
      ∀ c, handled.result = .ok (some c) → K c := by
  have hdrop : ∀ res : Except ConsensusError (Option CommitCertificate),
      (∀ c, res ≠ .ok (some c)) → r.config = r.config ∧ r.voteCollector.Ok P ∧
        ∀ c, res = .ok (some c) → K c := fun res hres => ⟨rfl, hr, fun c hc => absurd hc (hres c)⟩
  cases m with
  | propose p =>
    rw [handleMessage]
    split
    · exact hdrop _ (by simp)
    · rename_i hheight
      obtain ⟨h1, h2, h3⟩ := collect_spec height
        (r := { r with optimistic := .beginSpeculative height, phase := .vote }) hr
        (hpropose p rfl (not_not.mp hheight))
      exact ⟨h1, h2, fun c hc => hK c (h3 c hc)⟩
  | vote v =>
    rw [handleMessage]
    split
    · exact hdrop _ (by simp)
    · rename_i hheight
      obtain ⟨h1, h2, h3⟩ := collect_spec height hr (hvote v rfl (not_not.mp hheight))
      exact ⟨h1, h2, fun c hc => hK c (h3 c hc)⟩
  | commit c =>
    rw [handleMessage]
    split
    · exact hdrop _ (by simp)
    · rename_i hheight
      split
      · exact hdrop _ (by simp)
      · rename_i hq
        refine ⟨rfl, hr, fun c' hc => ?_⟩
        obtain rfl := Option.some.inj (Except.ok.inj hc)
        exact hcommit c rfl (not_not.mp hheight) (by simpa using hq)
  | syncRequest _ => exact hdrop (.ok none) (by simp)
  | syncResponse _ _ _ => exact hdrop (.ok none) (by simp)

end Runner

/-! ### The invariant -/

namespace Net

variable {C : Committee} {s : Net} {i : Nat} {r : Runner} {ms : List BftMessage}
  {cs : List CommitCertificate} {hasher : HashFeed → Fin (2 ^ 64)}

theorem votesOf_append (ms ms' : List BftMessage) :
    votesOf (ms ++ ms') = votesOf ms ++ votesOf ms' := List.filterMap_append

/-- What is genuine stays so as more is sent. -/
theorem Genuine.update {v : Vote} (h : s.Genuine C v) : (s.update i r ms cs).Genuine C v := by
  refine ⟨h.1, fun hc => ?_⟩
  show v ∈ votesOf (Function.update s.sent i (s.sent i ++ ms) v.voter)
  by_cases hi : v.voter = i
  · rw [hi, Function.update_self, votesOf_append]
    exact List.mem_append_left _ (hi ▸ h.2 hc)
  · rw [Function.update_of_ne hi]
    exact h.2 hc

theorem backers_mono {s' : Net} (c : CommitCertificate)
    (h : ∀ v, s.Genuine C v → s'.Genuine C v) : s.backers C c ⊆ s'.backers C c := by
  intro a ha
  simp only [backers, List.mem_toFinset, List.mem_map, List.mem_filter, decide_eq_true_eq] at *
  obtain ⟨v, ⟨hv, h1, h2, h3⟩, rfl⟩ := ha
  exact ⟨v, ⟨hv, h1, h2, h v h3⟩, rfl⟩

/-- All voters of a certificate that certifies back it. -/
theorem backers_of_certifies {c : CommitCertificate} {q : Nat}
    (h : c.Certifies (s.Genuine C) q) : q ≤ (s.backers C c).card := by
  have hall : c.votes.filter (fun v =>
      v.height = c.height ∧ v.blockHash = c.blockHash ∧ s.Genuine C v) = c.votes :=
    List.filter_eq_self.mpr fun v hv => decide_eq_true (h.votes v hv)
  rw [backers, hall, List.toFinset_card_of_nodup h.nodup, List.length_map]
  exact h.enough

/-- The invariant of genuine runs. -/
structure Inv (C : Committee) (s : Net) : Prop where
  config : ∀ i, C.Honest i → (s.runner i).config = C.config i
  collector : ∀ i, C.Honest i → (s.runner i).voteCollector.Ok (s.Genuine C)
  once : ∀ i, C.Honest i → ∀ v ∈ votesOf (s.sent i), ∀ v' ∈ votesOf (s.sent i),
    v.height = v'.height → v.blockHash = v'.blockHash
  backed : s.Backed C

theorem Inv.init (C : Committee) : (init C).Inv C where
  config _ _ := rfl
  collector _ _ := .new
  once i _ v hv := by simp [Net.init, votesOf] at hv
  backed i _ c hc := by simp [Net.init] at hc

/-- **Step lemma.** What one validator does keeps the invariant, if its collector stays in
order, its votes agree with those it has sent, and its commits are backed. -/
theorem Inv.update (h : s.Inv C) (hi : C.Honest i) (hcfg : r.config = C.config i)
    (hcol : r.voteCollector.Ok ((s.update i r ms cs).Genuine C))
    (honce : ∀ v ∈ votesOf ms, ∀ v' ∈ votesOf (s.sent i ++ ms),
      v.height = v'.height → v.blockHash = v'.blockHash)
    (hcs : ∀ c ∈ cs, C.quorum ≤ ((s.update i r ms cs).backers C c).card) :
    (s.update i r ms cs).Inv C where
  config j hj := by
    show (Function.update s.runner i r j).config = _
    by_cases hji : j = i
    · rw [hji, Function.update_self, hcfg]
    · rw [Function.update_of_ne hji]
      exact h.config j hj
  collector j hj := by
    show (Function.update s.runner i r j).voteCollector.Ok _
    by_cases hji : j = i
    · rw [hji, Function.update_self]
      exact hcol
    · rw [Function.update_of_ne hji]
      exact (h.collector j hj).mono fun _ => .update
  once j hj := by
    show ∀ v ∈ votesOf (Function.update s.sent i (s.sent i ++ ms) j),
      ∀ v' ∈ votesOf (Function.update s.sent i (s.sent i ++ ms) j), _
    by_cases hji : j = i
    · rw [hji, Function.update_self]
      intro v hv v' hv' heq
      rw [votesOf_append] at hv
      rcases List.mem_append.mp hv with hv | hv
      · rcases List.mem_append.mp (votesOf_append _ _ ▸ hv') with hv'' | hv''
        · exact h.once i hi v hv v' hv'' heq
        · refine (honce v' hv'' v ?_ heq.symm).symm
          rw [votesOf_append]
          exact List.mem_append_left _ hv
      · exact honce v hv v' hv' heq
    · rw [Function.update_of_ne hji]
      exact h.once j hj
  backed j hj c hc := by
    change c ∈ Function.update s.commits i (s.commits i ++ cs) j at hc
    have hold : ∀ k, C.Honest k → c ∈ s.commits k →
        C.quorum ≤ ((s.update i r ms cs).backers C c).card := fun k hk hck =>
      (h.backed k hk c hck).trans (Finset.card_le_card (backers_mono c fun _ => .update))
    by_cases hji : j = i
    · rw [hji, Function.update_self] at hc
      rcases List.mem_append.mp hc with hc | hc
      · exact hold i hi hc
      · exact hcs c hc
    · rw [Function.update_of_ne hji] at hc
      exact hold j hj hc

/-- Entering a round keeps the invariant. -/
theorem Inv.enterRound (h : s.Inv C) (hi : C.Honest i) {p : Production} {r₀ : Runner}
    (hcfg : r₀.config = C.config i)
    (hcol : r₀.voteCollector = (s.runner i).voteCollector)
    (hr : r₀.enterRound p = .ok (ms, r)) : (s.update i r ms []).Inv C := by
  obtain ⟨hms, hc, hv⟩ := Runner.enterRound_spec hr
  refine h.update hi (hc.trans hcfg) ?_ (fun v hmem => ?_) (by simp)
  · rw [hv, hcol]
    exact (h.collector i hi).mono fun _ => .update
  · rw [hms] at hmem
    cases hmem

/-- **Step lemma for deliveries.** Handling a message that meets the condition keeps the
invariant, whatever is sent besides, as long as it is no vote. -/
theorem Inv.deliver {s' : Net} {m : BftMessage} {height : Nat} {extra : List BftMessage}
    (h : s.Inv C) (hi : C.Honest i) (hm : s.DeliveryMeets C hasher i m)
    (hheight : (s.runner i).height = .ok height) (hextra : votesOf extra = [])
    (hr : r.config = ((s.runner i).handleMessage hasher height m).runner.config ∧
      r.voteCollector = ((s.runner i).handleMessage hasher height m).runner.voteCollector)
    (hcs : ∀ c ∈ cs, ((s.runner i).handleMessage hasher height m).result = .ok (some c))
    (hs' : s' = s.update i r (((s.runner i).handleMessage hasher height m).sent ++ extra) cs) :
    s'.Inv C := by
  have hh : height = (s.runner i).currentHeight + 1 := (u64_eq_ok.mp hheight).2.symm
  have hcfg := h.config i hi
  have hq : (s.runner i).config.quorumSize = C.quorum := by rw [hcfg]; rfl
  -- the runner's own vote is genuine once it is sent
  have hown : ∀ p, m = .propose p → p.height = height →
      s'.Genuine C ((s.runner i).voteFor hasher p) := by
    rintro p rfl hp
    have hvoter : ((s.runner i).voteFor hasher p).voter = i := by
      show (s.runner i).config.validatorIndex = i
      rw [hcfg]
      rfl
    refine ⟨by rw [hvoter]; exact hi.1, fun _ => ?_⟩
    rw [hvoter, hs']
    show _ ∈ votesOf (Function.update s.sent i (s.sent i ++ _) i)
    rw [Function.update_self, votesOf_append, votesOf_append]
    refine List.mem_append_right _ (List.mem_append_left _ ?_)
    rw [Runner.handleMessage, if_neg (not_not.mpr hp)]
    exact .head _
  have hmono : ∀ v, s.Genuine C v → s'.Genuine C v := fun v hv => hs' ▸ hv.update
  obtain ⟨h1, h2, h3⟩ := Runner.handleMessage_spec m
    (K := fun c => C.quorum ≤ (s'.backers C c).card)
    ((h.collector i hi).mono hmono) (fun c hc => backers_of_certifies (hq ▸ hc)) hown
    (by
      rintro v rfl hv
      exact hmono v (hm (hv.trans hh)))
    (by
      rintro c rfl hc hquorum
      exact (hm (hc.trans hh) (hq ▸ hquorum)).trans
        (Finset.card_le_card (backers_mono c hmono)))
  rw [hs'] at h2 h3 ⊢
  refine h.update hi ((hr.1.trans h1).trans hcfg) (hr.2 ▸ h2) ?_ (fun c hc => h3 c (hcs c hc))
  intro v hv v' hv' heq
  rw [votesOf_append, hextra, List.append_nil] at hv
  obtain ⟨p, rfl, hp, rfl⟩ := Runner.votesOf_handleMessage hv
  rw [votesOf_append, votesOf_append, hextra, List.append_nil] at hv'
  rcases List.mem_append.mp hv' with hv' | hv'
  · exact (hm (hp.trans hh) v' hv' heq.symm).symm
  · obtain ⟨p', hpp, -, rfl⟩ := Runner.votesOf_handleMessage hv'
    obtain rfl := BftMessage.propose.inj hpp
    rfl

/-- **Step lemma.** -/
theorem Inv.step {e : Event} {s' : Net} (h : s.Inv C) (hlegal : s.Legal C e)
    (hm : s.Meets C hasher e) (hs : step hasher e s = .ok s') : s'.Inv C := by
  cases e with
  | start i p =>
    obtain ⟨⟨ms, r⟩, hr, hs⟩ := bind_inv hs
    obtain rfl := pure_inv hs
    have hcfg : { s.runner i with running := true }.config = C.config i := h.config i hlegal.1
    exact h.enterRound hlegal.1 hcfg rfl hr
  | timeout i p =>
    obtain ⟨⟨ms, r⟩, hr, hs⟩ := bind_inv hs
    obtain rfl := pure_inv hs
    exact h.enterRound hlegal.1 (by simpa using h.config i hlegal.1) (by simp) hr
  | deliver i m p =>
    obtain ⟨height, hheight, hs⟩ := bind_inv hs
    dsimp only at hs
    split at hs
    · rename_i certificate hres
      obtain ⟨⟨ms, r⟩, hr, hs⟩ := bind_inv hs
      obtain ⟨hms, hc, hv⟩ := Runner.enterRound_spec hr
      refine h.deliver hlegal.1 hm hheight hms ⟨hc, hv⟩ ?_ (pure_inv hs).symm
      intro c hmem
      obtain rfl := List.mem_singleton.mp hmem
      exact hres
    · obtain rfl := pure_inv hs
      have hnone : votesOf [] = [] := rfl
      exact h.deliver hlegal.1 hm hheight hnone ⟨rfl, rfl⟩
        (fun _ hc => (List.not_mem_nil hc).elim) (by rw [List.append_nil])

/-- Backed commits of one height are for one block. -/
theorem Inv.agreement (h : s.Inv C) : s.Agreement C := by
  intro i j hi hj c hc c' hc' hheight
  -- validators vote for blocks at the height of the two certificates
  let voted (k : Nat) (b : BlockHash) : Prop :=
    ∃ v ∈ votesOf (s.sent k), v.height = c.height ∧ v.blockHash = b
  have hcert : ∀ x : CommitCertificate, x.height = c.height →
      C.quorum ≤ (s.backers C x).card →
      Quorum.Certified (Finset.range C.n) C.faulty C.f voted x.blockHash := by
    intro x hx hq
    have hback : ∀ a ∈ s.backers C x, ∃ v ∈ x.votes, v.height = x.height ∧
        v.blockHash = x.blockHash ∧ s.Genuine C v ∧ v.voter = a := by
      intro a ha
      simp only [backers, List.mem_toFinset, List.mem_map, List.mem_filter,
        decide_eq_true_eq] at ha
      obtain ⟨v, ⟨hv, h1, h2, h3⟩, h4⟩ := ha
      exact ⟨v, hv, h1, h2, h3, h4⟩
    refine ⟨s.backers C x, fun a ha => ?_, hq, fun a ha hcorrect => ?_⟩
    · obtain ⟨v, -, -, -, hgen, rfl⟩ := hback a ha
      exact Finset.mem_range.mpr hgen.1
    · obtain ⟨v, -, h1, h2, hgen, rfl⟩ := hback a ha
      exact ⟨v, hgen.2 hcorrect, h1.trans hx, h2⟩
  refine Quorum.certified_unique (by simp [Committee.n]) C.faulty_card ?_
    (hcert c rfl (h.backed i hi c hc)) (hcert c' hheight.symm (h.backed j hj c' hc'))
  intro a ha hcorrect b b' ⟨v, hv, h1, h2⟩ ⟨v', hv', h1', h2'⟩
  rw [← h2, ← h2']
  exact h.once a ⟨Finset.mem_range.mp ha, hcorrect⟩ v hv v' hv' (h1.trans h1'.symm)

/-- **Agreement.** In every run of legal events that meet the condition, no two honest validators
commit different blocks at one height, and every commit is backed by genuine votes of a quorum of
validators. Honest validators have voted for one block a height (`Inv`), and two quorums share one
of them. -/
theorem agreement_of_genuine_run {C : Committee} {hasher : HashFeed → Fin (2 ^ 64)} {s : Net}
    (h : Run.Reaches (step hasher) (fun s e => s.Legal C e ∧ s.Meets C hasher e) (init C) s) :
    s.Agreement C ∧ s.Backed C := by
  have hinv : s.Inv C := h.invariant (.init C) fun _ _ _ hi hok hs => hi.step hok.1 hok.2 hs
  exact ⟨hinv.agreement, hinv.backed⟩

/-! ### Runs of four validators -/

/-- Four validators, one of which may be faulty. -/
def four (faulty : Finset Nat) (hlt : ∀ i ∈ faulty, i < 3 * 1 + 1) (hcard : faulty.card ≤ 1) :
    Committee := ⟨1, faulty, hlt, hcard, 5⟩

/-- Validator 3 is faulty. -/
def faultyFour : Committee := four {3} (by decide) (by decide)

/-- A hasher that tells proposals with different timestamps apart. -/
def timeHasher (feed : HashFeed) : Fin (2 ^ 64) := Fin.ofNat _ feed.2.2.2.1

/-- Legal events from the start, each checked for a condition. -/
def checkedRun (C : Committee) (ok : Net → Event → Prop) [∀ s e, Decidable (ok s e)]
    (events : List Event) : Exec Net :=
  events.foldlM (fun s e => if s.Legal C e ∧ ok s e then step timeHasher e s else .error .panic)
    (.init C)

theorem checkedRun_reaches {ok : Net → Event → Prop} [∀ s e, Decidable (ok s e)]
    {events : List Event} (h : checkedRun C ok events = .ok s) :
    Run.Reaches (step timeHasher) (fun s e => s.Legal C e ∧ ok s e) (.init C) s :=
  .of_checked (fun _ _ => inferInstance) h

/-- A producer with a block. -/
def block (now : Nat) : Production := ⟨.ok 7, now⟩

/-- What the leader of the first height, validator 1, proposes. -/
def firstProposal (now : Nat) : BlockProposal := ⟨1, 1, [], 7, now, []⟩

/-- The vote of a validator for it. -/
def firstVote (now voter : Nat) : Vote :=
  ⟨1, voter, computeProposalHash timeHasher (firstProposal now), []⟩

/-- A certificate for it. -/
def firstCertificate (now : Nat) (voters : List Nat) : CommitCertificate :=
  ⟨1, computeProposalHash timeHasher (firstProposal now), voters.map (firstVote now)⟩

/-- Three validators vote for one block; one collects the votes and commits, another
commits with the certificate. -/
theorem agreement_of_genuine_votes : ∃ s,
    Run.Reaches (step timeHasher)
      (fun s e => s.Legal faultyFour e ∧ s.Meets faultyFour timeHasher e) (init faultyFour) s ∧
    s.commits 0 = [firstCertificate 10 [0, 1, 2]] ∧
    s.commits 1 = [firstCertificate 10 [0, 1, 2]] ∧
    s.Agreement faultyFour ∧ s.Backed faultyFour := by
  obtain ⟨s, h, ht⟩ := exists_of_test
    (x := checkedRun faultyFour (fun s e => s.Meets faultyFour timeHasher e)
      [.start 0 (block 10), .start 1 (block 10), .start 2 (block 10),
        .deliver 0 (.propose (firstProposal 10)) (block 11),
        .deliver 1 (.propose (firstProposal 10)) (block 11),
        .deliver 2 (.propose (firstProposal 10)) (block 11),
        .deliver 0 (.vote (firstVote 10 1)) (block 12),
        .deliver 0 (.vote (firstVote 10 2)) (block 12),
        .deliver 1 (.commit (firstCertificate 10 [0, 1, 2])) (block 13)])
    (p := fun s => s.commits 0 = [firstCertificate 10 [0, 1, 2]] ∧
      s.commits 1 = [firstCertificate 10 [0, 1, 2]])
    (by decide +kernel)
  obtain ⟨h0, h1⟩ := of_decide_eq_true ht
  have hrun := checkedRun_reaches h
  exact ⟨s, hrun, h0, h1, agreement_of_genuine_run hrun⟩

/-- A certificate of three times the same vote, which is for nothing. -/
def forgedCertificate (b : BlockHash) : CommitCertificate :=
  ⟨1, b, List.replicate 3 ⟨0, 0, 0, []⟩⟩

/-- One made-up certificate each, and two honest validators commit different blocks that
nobody has voted for. -/
theorem forged_certificates_split : ∃ s,
    Run.Reaches (step timeHasher) (Legal faultyFour) (init faultyFour) s ∧
    s.commits 0 = [forgedCertificate 1] ∧ s.commits 1 = [forgedCertificate 2] ∧
    ¬ s.Agreement faultyFour ∧ ¬ s.Backed faultyFour := by
  obtain ⟨s, h, ht⟩ := exists_of_test
    (x := checkedRun faultyFour (fun _ _ => True)
      [.start 0 (block 10), .start 1 (block 10),
        .deliver 0 (.commit (forgedCertificate 1)) (block 11),
        .deliver 1 (.commit (forgedCertificate 2)) (block 11)])
    (p := fun s => s.commits 0 = [forgedCertificate 1] ∧ s.commits 1 = [forgedCertificate 2] ∧
      (s.backers faultyFour (forgedCertificate 1)).card = 0)
    (by decide +kernel)
  obtain ⟨h0, h1, hback⟩ := of_decide_eq_true ht
  have honest : ∀ i, i < 3 → faultyFour.Honest i := by decide
  refine ⟨s, (checkedRun_reaches h).mono fun _ _ hok => hok.1, h0, h1, fun hagree => ?_,
    fun hbacked => ?_⟩
  · exact absurd (hagree 0 1 (honest 0 (by decide)) (honest 1 (by decide))
      (forgedCertificate 1) (by simp [h0]) (forgedCertificate 2) (by simp [h1]) rfl) (by decide)
  · have hq := hbacked 0 (honest 0 (by decide)) (forgedCertificate 1) (by simp [h0])
    rw [hback] at hq
    exact absurd hq (by decide)

end Net

end HyperBft

end Hypercore

import Hypercore.Chain.Run
import Hypercore.Chain.TypedData
/-!
# Hypercore.Chain.SignedEffect

What a signature binds.

Two actions hash alike under one nonce just when they agree on the fields that are hashed
(`SignedAlike`). Of an order that leaves out the client order id, the terms of a trigger and
the spelling of its time-in-force, and for spot orders `reduce_only`; a spot cancellation is
hashed without its market. Execution reads all of them.
-/

namespace Hypercore

open Exec Int128 SymbolicKeccak

/-! ### Encoded fields -/

namespace SymbolicKeccak

variable {K : SymbolicKeccak} {x y : K.Data}

theorem length_encodeUint8 (v : UInt8) : (encodeUint8 v : K.Data).length = 32 := by
  unfold encodeUint8
  simp

theorem length_encodeUint64 (v : Nat) : (encodeUint64 v : K.Data).length = 32 := by
  unfold encodeUint64
  simp [length_beBytes]

@[simp] theorem encodeUint8_append_inj {v w : UInt8} :
    encodeUint8 v ++ x = encodeUint8 w ++ y ↔ v = w ∧ x = y := by
  constructor
  · intro h
    obtain ⟨hhead, htail⟩ :=
      List.append_inj h ((length_encodeUint8 v).trans (length_encodeUint8 w).symm)
    have hbytes := List.map_injective_iff.mpr Sum.inl_injective hhead
    exact ⟨List.singleton_inj.mp (List.append_cancel_left hbytes), htail⟩
  · rintro ⟨rfl, rfl⟩
    rfl

@[simp] theorem encodeBool_append_inj {v w : Bool} :
    encodeBool v ++ x = encodeBool w ++ y ↔ v = w ∧ x = y := by
  unfold encodeBool
  rw [encodeUint8_append_inj]
  cases v <;> cases w <;> simp

@[simp] theorem encodeUint8_inj {v w : UInt8} :
    (encodeUint8 v : K.Data) = encodeUint8 w ↔ v = w := by
  have h := encodeUint8_append_inj (K := K) (x := []) (y := []) (v := v) (w := w)
  simpa using h

@[simp] theorem encodeBool_inj {v w : Bool} :
    (encodeBool v : K.Data) = encodeBool w ↔ v = w := by
  have h := encodeBool_append_inj (K := K) (x := []) (y := []) (v := v) (w := w)
  simpa using h

theorem encodeUint64_append_inj {v w : Nat} (hv : v < 2 ^ 64) (hw : w < 2 ^ 64) :
    encodeUint64 v ++ x = encodeUint64 w ++ y ↔ v = w ∧ x = y := by
  constructor
  · intro h
    obtain ⟨hhead, htail⟩ :=
      List.append_inj h ((length_encodeUint64 v).trans (length_encodeUint64 w).symm)
    have hbytes := List.append_cancel_left (List.map_injective_iff.mpr Sum.inl_injective hhead)
    refine ⟨?_, htail⟩
    rw [← ofBeBytes_beBytes (show v < 256 ^ 8 by omega), hbytes,
      ofBeBytes_beBytes (by omega)]
  · rintro ⟨rfl, rfl⟩
    rfl

theorem encodeUint64_inj {v w : Nat} (hv : v < 2 ^ 64) (hw : w < 2 ^ 64) :
    (encodeUint64 v : K.Data) = encodeUint64 w ↔ v = w := by
  have h := encodeUint64_append_inj (K := K) (x := []) (y := []) hv hw
  simpa using h

@[simp] theorem encodeAddress_append_inj {a b : AccountAddress} :
    encodeAddressBytes (addressBytes a) ++ x = encodeAddressBytes (addressBytes b) ++ y ↔
      a = b ∧ x = y := by
  constructor
  · intro h
    have hlen : ∀ a : AccountAddress,
        (encodeAddressBytes (addressBytes a) : K.Data).length = 32 := fun a => by
      unfold encodeAddressBytes addressBytes
      simp [length_beBytes]
    obtain ⟨hhead, htail⟩ := List.append_inj h ((hlen a).trans (hlen b).symm)
    have hbytes := List.append_cancel_left (List.map_injective_iff.mpr Sum.inl_injective hhead)
    have ha := a.isLt
    have hb := b.isLt
    refine ⟨Fin.ext ?_, htail⟩
    unfold addressBytes at hbytes
    rw [← ofBeBytes_beBytes (show a.val < 256 ^ 20 by omega), hbytes,
      ofBeBytes_beBytes (by omega)]
  · rintro ⟨rfl, rfl⟩
    rfl

/-- Structs hash alike just when their types and their fields do. -/
theorem structHash_eq_iff {typeStr typeStr' : String} {fields fields' : List K.Data} :
    K.structHash typeStr fields = K.structHash typeStr' fields' ↔
      typeStr = typeStr' ∧ fields.flatten = fields'.flatten := by
  constructor
  · intro h
    have htype := Sum.inr.inj (List.cons.inj (K.injective h)).1
    obtain rfl : typeStr = typeStr' := encodeString_inj.mp htype
    exact ⟨rfl, structHash_inj.mp h⟩
  · rintro ⟨rfl, h⟩
    exact structHash_inj.mpr h

/-- Arrays hash alike just when their elements do. -/
@[simp] theorem encodeArray_inj {hashes hashes' : List K.Digest} :
    K.encodeArray hashes = K.encodeArray hashes' ↔ hashes = hashes' := by
  refine ⟨fun h => ?_, fun h => by rw [h]⟩
  exact List.map_injective_iff.mpr Sum.inr_injective (K.injective h)

end SymbolicKeccak

/-! ### Fields that are hashed -/

section Fields

variable (S : Signing)

/-- The fields of an order that are hashed. -/
def OrderWire.signedFields (w : OrderWire) : MarketId × Bool × String × String × Bool × String :=
  (w.a, w.b, w.p, w.s, w.r, w.t.toTifString S)

/-- The fields of a spot order that are hashed. -/
def OrderWire.signedSpotFields (w : OrderWire) : MarketId × Bool × String × String × String :=
  (w.a, w.b, w.p, w.s, w.t.toTifString S)

namespace SignedTransactionType

/-- Order ids of an action are `u64`s. -/
def Typed : SignedTransactionType → Prop
  | cancel cancels => ∀ c ∈ cancels, c.o < 2 ^ 64
  | cancelTrigger _ orderId => orderId < 2 ^ 64
  | _ => True

/-- Two actions of one kind that agree on every field that is hashed. -/
def SignedAlike : SignedTransactionType → SignedTransactionType → Prop
  | order orders grouping, order orders' grouping' =>
    orders.map (·.signedFields S) = orders'.map (·.signedFields S) ∧ grouping = grouping'
  | spotOrder orders grouping, spotOrder orders' grouping' =>
    orders.map (·.signedSpotFields S) = orders'.map (·.signedSpotFields S) ∧
      grouping = grouping'
  | spotCancelAll _, spotCancelAll _ => True
  | a, b => a = b

end SignedTransactionType

variable {S}

theorem OrderWire.computeHashEip712_inj {w w' : OrderWire} :
    w.computeHashEip712 S = w'.computeHashEip712 S ↔ w.signedFields S = w'.signedFields S := by
  unfold OrderWire.computeHashEip712 OrderWire.signedFields
  rw [structHash_eq_iff]
  simp [List.flatten_cons]

theorem OrderWire.computeHashEip712Spot_inj {w w' : OrderWire} :
    w.computeHashEip712Spot S = w'.computeHashEip712Spot S ↔
      w.signedSpotFields S = w'.signedSpotFields S := by
  unfold OrderWire.computeHashEip712Spot OrderWire.signedSpotFields
  rw [structHash_eq_iff]
  simp [List.flatten_cons]

theorem CancelByCloidWire.computeHashEip712_inj {c c' : CancelByCloidWire} :
    c.computeHashEip712 S = c'.computeHashEip712 S ↔ c = c' := by
  unfold CancelByCloidWire.computeHashEip712
  rw [structHash_eq_iff]
  cases c
  cases c'
  simp [List.flatten_cons]

theorem CancelWire.computeHashEip712_inj {c c' : CancelWire} (hc : c.o < 2 ^ 64)
    (hc' : c'.o < 2 ^ 64) : c.computeHashEip712 S = c'.computeHashEip712 S ↔ c = c' := by
  unfold CancelWire.computeHashEip712
  rw [structHash_eq_iff]
  cases c
  cases c'
  simp [List.flatten_cons, encodeUint64_inj hc hc']

/-- Lists of fields are alike when a map of them that is injective on the fields is. -/
theorem map_hash_inj {ι φ : Type} {hash : ι → S.Digest} {fields : ι → φ}
    (h : ∀ i j, hash i = hash j ↔ fields i = fields j) {is js : List ι} :
    is.map hash = js.map hash ↔ is.map fields = js.map fields := by
  induction is generalizing js with
  | nil => cases js <;> simp
  | cons i is ih =>
    cases js with
    | nil => simp
    | cons j js => simp [h, ih]

theorem map_cancel_inj {cs cs' : List CancelWire} (hc : ∀ c ∈ cs, c.o < 2 ^ 64)
    (hc' : ∀ c ∈ cs', c.o < 2 ^ 64) :
    cs.map (·.computeHashEip712 S) = cs'.map (·.computeHashEip712 S) ↔ cs = cs' := by
  induction cs generalizing cs' with
  | nil => cases cs' <;> simp
  | cons c cs ih =>
    cases cs' with
    | nil => simp
    | cons c' cs' =>
      simp only [List.map_cons, List.cons.injEq]
      rw [CancelWire.computeHashEip712_inj (hc _ (.head _)) (hc' _ (.head _)),
        ih (fun d hd => hc d (.tail _ hd)) fun d hd => hc' d (.tail _ hd)]

variable {v : UInt8} {typeStr : String}

theorem encodeUint8_ne_typeHash {x y : S.Data} :
    encodeUint8 v ++ x ≠ .inr (S.typeHash typeStr) :: y := by
  intro h
  unfold encodeUint8 at h
  cases h

@[simp] theorem evm_ne_structHash {x : S.Data} {fields : List S.Data} :
    S.keccak (encodeUint8 v ++ x) ≠ S.structHash typeStr fields :=
  fun h => encodeUint8_ne_typeHash (S.injective h)

@[simp] theorem structHash_ne_evm {x : S.Data} {fields : List S.Data} :
    S.structHash typeStr fields ≠ S.keccak (encodeUint8 v ++ x) :=
  evm_ne_structHash.symm

/-- **What is signed.** Actions hash alike under one nonce just when they agree on every field
that is hashed. -/
theorem computeStructHash_eq_iff {a b : SignedTransactionType} (ha : a.Typed) (hb : b.Typed)
    {n : Nat} : a.computeStructHash S n = b.computeStructHash S n ↔ a.SignedAlike S b := by
  cases a <;> cases b <;>
    simp only [SignedTransactionType.computeStructHash, SignedTransactionType.SignedAlike,
      structHash_eq_iff, List.flatten_cons, List.append_assoc]
  case order.order orders grouping orders' grouping' =>
    rw [← map_hash_inj fun _ _ => OrderWire.computeHashEip712_inj]
    cases grouping <;> cases grouping' <;> simp [OrderGrouping.asStr]
  case spotOrder.spotOrder orders grouping orders' grouping' =>
    rw [← map_hash_inj fun _ _ => OrderWire.computeHashEip712Spot_inj]
    cases grouping <;> cases grouping' <;> simp [OrderGrouping.asStr]
  case cancel.cancel cancels cancels' =>
    simp [map_cancel_inj ha hb]
  case cancelByCloid.cancelByCloid cancels cancels' =>
    have hinj : cancels.map (·.computeHashEip712 S) = cancels'.map (·.computeHashEip712 S) ↔
        cancels.map id = cancels'.map id :=
      map_hash_inj fun _ _ => CancelByCloidWire.computeHashEip712_inj
    rw [List.map_id, List.map_id] at hinj
    simp [hinj]
  case evmAction.evmAction t data t' data' =>
    refine (S.injective.eq_iff).trans ?_
    simp only [encodeUint8_append_inj, List.append_cancel_right_eq,
      SignedTransactionType.evmAction.injEq, (List.map_injective_iff.mpr Sum.inl_injective).eq_iff]
  case cancelTrigger.cancelTrigger asset orderId asset' orderId' =>
    simp [encodeUint64_inj ha hb]
  case setMarginMode.setMarginMode mode mode' =>
    cases mode <;> cases mode' <;> simp
  -- actions of two kinds have another type or another name
  all_goals simp

end Fields

/-! ### What execution reads -/

/-- What execution reads of a batch: the requests up to the first order that cannot be read,
and what is wrong with that one. -/
def readOrders : List OrderWire → List OrderRequest × Option TransactionError
  | [] => ([], none)
  | wire :: wires =>
    match wire.toOrderRequest with
    | .error e => ([], some e)
    | .ok request => (request :: (readOrders wires).1, (readOrders wires).2)

namespace AppState

/-- A batch, on the requests that are read. -/
def runRequests (sender : AccountAddress) (timestamp : Timestamp)
    (unreadable : Option TransactionError) : List OrderRequest → OrderBatch → Exec Handled
  | [], b =>
    match unreadable with
    | none => return finishBatch b sender
    | some e => return (.error (.txError e), b.app)
  | request :: requests, b => do
    let b ← (if 128 ≤ request.marketId then
        batchSpotOrder b sender request.marketId request timestamp
      else batchPerpOrder b sender request.marketId request timestamp)
    runRequests sender timestamp unreadable requests b

/-- A batch comes to what its requests come to. -/
theorem runOrders_eq (sender : AccountAddress) (t : Timestamp) (wires : List OrderWire)
    (b : OrderBatch) : runOrders sender t wires b =
      runRequests sender t (readOrders wires).2 (readOrders wires).1 b := by
  induction wires generalizing b with
  | nil => rfl
  | cons wire wires ih =>
    unfold runOrders readOrders batchOrder
    cases hr : wire.toOrderRequest with
    | error e => rfl
    | ok request =>
      dsimp only
      unfold runRequests
      rw [OrderWire.toOrderRequest_marketId hr, bind_assoc]
      refine bind_congr fun b => ?_
      exact ih b

end AppState

namespace SignedTransactionType

/-- Execution reads the same of two actions of one kind, as far as that is not hashed. -/
def ReadAlike : SignedTransactionType → SignedTransactionType → Prop
  | order orders _, order orders' _ => readOrders orders = readOrders orders'
  | spotOrder orders _, spotOrder orders' _ => readOrders orders = readOrders orders'
  | spotCancelAll market, spotCancelAll market' => market = market'
  | _, _ => True

/-- Executing one or the other action for a sender comes to the same, from any state. -/
def SameEffect (n : Nat) (a b : SignedTransactionType) : Prop :=
  ∀ (s : AppState) (sender : AccountAddress) (t : Timestamp),
    s.executeTx ⟨a.executed, n, some sender⟩ t = s.executeTx ⟨b.executed, n, some sender⟩ t

/-- All orders of an action can be read. -/
def Readable : SignedTransactionType → Prop
  | order orders _ => (readOrders orders).2 = none
  | spotOrder orders _ => (readOrders orders).2 = none
  | _ => True

/-- An action whose every field that execution reads is hashed. -/
def Bound : SignedTransactionType → Prop
  | order orders _ => orders = []
  | spotOrder orders _ => orders = []
  | spotCancelAll _ => False
  | _ => True

variable {S : Signing} {a b : SignedTransactionType}

theorem executeAction_eq (hsigned : a.SignedAlike S b) (hread : a.ReadAlike b) (s : AppState)
    (sender : AccountAddress) (t : Timestamp) :
    s.executeAction sender t a.executed = s.executeAction sender t b.executed := by
  have horders : ∀ {orders orders' : List OrderWire}, readOrders orders = readOrders orders' →
      s.executeOrders sender orders t = s.executeOrders sender orders' t := by
    intro orders orders' h
    unfold AppState.executeOrders
    rw [AppState.runOrders_eq, AppState.runOrders_eq, h]
  cases a with
  | order orders grouping =>
    cases b with
    | order orders' grouping' => exact horders hread
    | _ => cases hsigned
  | spotOrder orders grouping =>
    cases b with
    | spotOrder orders' grouping' => exact horders hread
    | _ => cases hsigned
  | spotCancelAll market =>
    cases b with
    | spotCancelAll market' =>
      obtain rfl : market = market' := hread
      rfl
    | _ => cases hsigned
  | _ =>
    cases b with
    | _ =>
      cases hsigned
      try rfl

theorem sameEffect_of_readAlike (hsigned : a.SignedAlike S b) (hread : a.ReadAlike b) (n : Nat) :
    SameEffect n a b := by
  intro s sender t
  unfold AppState.executeTx
  simp only [executeAction_eq hsigned hread]
  rfl

/-- Of an action that is bound, execution reads what is hashed. -/
theorem Bound.readAlike (ha : a.Bound) (hsigned : a.SignedAlike S b) : a.ReadAlike b := by
  cases a with
  | order orders grouping =>
    obtain rfl : orders = [] := ha
    cases b with
    | order orders' grouping' =>
      obtain rfl : orders' = [] := List.map_eq_nil_iff.mp hsigned.1.symm
      rfl
    | _ => trivial
  | spotOrder orders grouping =>
    obtain rfl : orders = [] := ha
    cases b with
    | spotOrder orders' grouping' =>
      obtain rfl : orders' = [] := List.map_eq_nil_iff.mp hsigned.1.symm
      rfl
    | _ => trivial
  | spotCancelAll market => exact ha.elim
  | _ => trivial

end SignedTransactionType

/-! ### What is not bound -/

/-- Lower case on ASCII text, as documented. -/
def Signing.LowersAscii (S : Signing) : Prop :=
  ∀ text : String, (∀ c ∈ text.toList, c.val < 128) → S.lowercase text = toLowercase text

namespace AppState

/-- A state with a counter for which a nonce is in sequence, if it is no timestamp. -/
def awaiting (s : AppState) (sender : AccountAddress) (n : Nat) : AppState :=
  { s with
    nonces := s.nonces.insert sender (min n timestampThreshold)
    lastTimestampNonces := ∅ }

variable {s s' : AppState} {sender : AccountAddress} {n : Nat} {t : Timestamp}

theorem validateNonce_awaiting (hn : n < 2 ^ 64 - 1) :
    (s.awaiting sender n).validateNonce sender n n = true := by
  have hcounter : (s.awaiting sender n).getNonce sender = min n timestampThreshold := by
    unfold awaiting getNonce
    rw [FinMap.get_insert_self]
    rfl
  have hlast : (s.awaiting sender n).lastTimestamp sender = 0 := by
    unfold awaiting lastTimestamp
    rw [FinMap.get_empty]
    rfl
  have hthreshold : timestampThreshold = 1000000000000 := rfl
  have hhour : oneHourMs = 3600000 := rfl
  unfold validateNonce
  rw [hcounter, hlast]
  split
  · refine decide_eq_true ⟨Nat.sub_lt (by omega) (by decide), lt_min ?_ hn, ?_⟩
    · exact Nat.lt_add_of_pos_right (by decide)
    · omega
  · exact decide_eq_true (by omega)

/-- A transaction with a valid nonce is executed, and its counter can advance. -/
theorem executeTx_of_action (action : TransactionType) {r : Except AppError (List Event)}
    (hvalid : s.validateNonce sender n t = true) (hcounter : s.getNonce sender < 2 ^ 64 - 1)
    (h : s.executeAction sender t action = .ok (r, s')) (hnonces : s'.nonces = s.nonces) :
    ∃ s'', s.executeTx ⟨action, n, some sender⟩ t =
      .ok (r.map fun events => ⟨true, events, 1⟩, s'') := by
  have hsame : s'.getNonce sender = s.getNonce sender := by
    unfold getNonce
    rw [hnonces]
  have hnext : u64 (s'.getNonce sender + 1) = .ok (s'.getNonce sender + 1) :=
    u64_eq_ok.mpr ⟨by omega, rfl⟩
  unfold executeTx validateTx Transaction.sender
  dsimp only
  rw [hvalid]
  simp only [if_true, h, ok_bind]
  cases r with
  | error e => exact ⟨_, rfl⟩
  | ok events =>
    unfold incrementNonce
    rw [hnext]
    exact ⟨_, rfl⟩

theorem executeTx_awaiting (action : TransactionType) {r : Except AppError (List Event)}
    (hn : n < 2 ^ 64 - 1)
    (h : (s.awaiting sender n).executeAction sender n action = .ok (r, s'))
    (hnonces : s'.nonces = (s.awaiting sender n).nonces) :
    ∃ s'', (s.awaiting sender n).executeTx ⟨action, n, some sender⟩ n =
      .ok (r.map fun events => ⟨true, events, 1⟩, s'') := by
  refine executeTx_of_action action (validateNonce_awaiting hn) ?_ h hnonces
  unfold getNonce awaiting
  rw [FinMap.get_insert_self]
  exact (min_le_left n _).trans_lt hn

/-- The result of a batch that does nothing. -/
def idleResult (unreadable : Option TransactionError) (events : List Event) :
    Except AppError (List Event) :=
  match unreadable with
  | none => .ok events
  | some e => .error (.txError e)

/-- Without engines a batch does nothing. -/
theorem runRequests_idle {unreadable : Option TransactionError} {requests : List OrderRequest}
    {b : OrderBatch} (hspot : b.app.spot = none) (hperp : b.app.perp = none)
    (hregister : b.cloidsToRegister = []) (hfilled : b.filledOrderCloids = []) :
    ∃ events, runRequests sender t unreadable requests b =
      .ok (idleResult unreadable events, b.app) := by
  induction requests generalizing b with
  | nil =>
    unfold runRequests
    cases unreadable with
    | none =>
      refine ⟨b.events, ?_⟩
      unfold finishBatch
      rw [hregister, hfilled]
      rfl
    | some e => exact ⟨[], rfl⟩
  | cons request requests ih =>
    unfold runRequests
    split
    · unfold batchSpotOrder
      rw [hspot]
      exact ih hspot hperp hregister hfilled
    · unfold batchPerpOrder
      rw [hperp]
      exact ih (b := { b with events := b.events ++ [_] }) hspot hperp hregister hfilled

theorem executeOrders_idle {orders : List OrderWire} (hspot : s.spot = none)
    (hperp : s.perp = none) : ∃ events, s.executeOrders sender orders t =
      .ok (idleResult (readOrders orders).2 events, s) := by
  unfold executeOrders
  rw [runOrders_eq]
  exact runRequests_idle (b := ⟨s, [], [], []⟩) hspot hperp rfl rfl

end AppState

/-- An order with its terms spelled so that it cannot be read, hashed as before. -/
def OrderWire.garbled (w : OrderWire) : OrderWire where
  a := w.a
  b := w.b
  p := w.p
  s := w.s
  r := w.r
  t :=
    match w.t with
    | .limit tif => .limit (toLowercase tif)
    | .trigger trigger => .trigger { trigger with triggerPx := "" }
  c := w.c

theorem OrderTypeWire.tif_of_toOrderType {tif : String} {t : OrderType}
    (h : (OrderTypeWire.limit tif).toOrderType = .ok t) :
    tif = "Gtc" ∨ tif = "Ioc" ∨ tif = "Fok" ∨ tif = "Alo" := by
  unfold OrderTypeWire.toOrderType at h
  by_contra hnone
  push Not at hnone
  obtain ⟨h1, h2, h3, h4⟩ := hnone
  dsimp only at h
  rw [if_neg h1, if_neg h2, if_neg h3, if_neg h4] at h
  cases h

namespace OrderWire

variable {S : Signing} {w : OrderWire} {request : OrderRequest}

theorem toOrderType_of_read (h : w.toOrderRequest = .ok request) :
    ∃ price size t, parse .invalidPrice w.p = .ok price ∧ parse .invalidSize w.s = .ok size ∧
      w.t.toOrderType = .ok t := by
  unfold toOrderRequest at h
  obtain ⟨price, hprice, h⟩ := ok_of_bind h
  obtain ⟨size, hsize, h⟩ := ok_of_bind h
  obtain ⟨t, ht, h⟩ := ok_of_bind h
  exact ⟨price, size, t, hprice, hsize, ht⟩

theorem toTifString_garbled (hS : S.LowersAscii) (h : w.toOrderRequest = .ok request) :
    w.garbled.t.toTifString S = w.t.toTifString S := by
  obtain ⟨-, -, t, -, -, ht⟩ := toOrderType_of_read h
  unfold garbled
  cases hw : w.t with
  | trigger trigger => rfl
  | limit tif =>
    rw [hw] at ht
    have hlower : ∀ tif : String, tif.toList.all (·.val < 128) →
        (toLowercase tif).toList.all (·.val < 128) →
        toLowercase (toLowercase tif) = toLowercase tif →
        S.lowercase (toLowercase tif) = S.lowercase tif := by
      intro tif hascii hascii' hidem
      have hbelow : ∀ text : String, text.toList.all (·.val < 128) →
          ∀ c ∈ text.toList, c.val < 128 := fun text h c hc => by
        simpa using List.all_eq_true.mp h c hc
      rw [hS _ (hbelow _ hascii), hS _ (hbelow _ hascii'), hidem]
    unfold OrderTypeWire.toTifString
    rcases OrderTypeWire.tif_of_toOrderType ht with rfl | rfl | rfl | rfl
    · exact hlower _ (by decide) (by decide) (by decide)
    · exact hlower _ (by decide) (by decide) (by decide)
    · exact hlower _ (by decide) (by decide) (by decide)
    · exact hlower _ (by decide) (by decide) (by decide)

theorem signedFields_garbled (hS : S.LowersAscii) (h : w.toOrderRequest = .ok request) :
    w.garbled.signedFields S = w.signedFields S := by
  unfold signedFields
  rw [toTifString_garbled hS h]
  rfl

theorem signedSpotFields_garbled (hS : S.LowersAscii) (h : w.toOrderRequest = .ok request) :
    w.garbled.signedSpotFields S = w.signedSpotFields S := by
  unfold signedSpotFields
  rw [toTifString_garbled hS h]
  rfl

theorem toOrderRequest_garbled (h : w.toOrderRequest = .ok request) :
    ∃ e, w.garbled.toOrderRequest = .error e := by
  obtain ⟨price, size, t, hprice, hsize, ht⟩ := toOrderType_of_read h
  have hp : parse .invalidPrice w.garbled.p = .ok price := hprice
  have hs : parse .invalidSize w.garbled.s = .ok size := hsize
  unfold toOrderRequest
  rw [hp, hs]
  cases hw : w.t with
  | limit tif =>
    rw [hw] at ht
    have hg : w.garbled.t = .limit (toLowercase tif) := by
      unfold garbled
      rw [hw]
    rw [hg]
    refine ⟨.invalidTimeInForce, ?_⟩
    rcases OrderTypeWire.tif_of_toOrderType ht with rfl | rfl | rfl | rfl <;> rfl
  | trigger trigger =>
    have hg : w.garbled.t = .trigger { trigger with triggerPx := "" } := by
      unfold garbled
      rw [hw]
    rw [hg]
    exact ⟨.invalidPrice, rfl⟩

end OrderWire

/-! ### A spot order that rests -/

namespace AppState

/-- A node with one spot market, where account 1 has USDC. -/
def spotGenesis : GenesisState where
  tokens := [⟨"PURR", 8, 2, ⟨100000000, 8⟩, []⟩]
  balances := [⟨1, 0, ⟨1000000000, 6⟩, false⟩]

theorem spotGenesis_nonneg : spotGenesis.Nonneg where
  supply := by decide
  allocations := by decide
  balances := by decide

/-- Account 1 bids in the spot market. -/
def spotBid : Transaction where
  action := .spotOrder [{
    a := 128, b := true, p := "2", s := "0.01", r := false, t := .limit "Gtc", c := none }]
  nonce := 0
  signer := some 1

/-- One order of account 1 rests, in the only spot market. -/
structure OneResting (s : AppState) (e e' : SpotEngineState) (canceled : List Order) : Prop where
  spot : s.spot = some e
  markets : e.getMarketIds = [128]
  cancel : e.cancelAllOrders 1 128 = .ok (canceled, e')
  one : canceled.length = 1
  others : ∀ m : MarketId, m ≠ 128 → e.getOrdersByAccount 1 m = []

/-- `OneResting`, for evaluation. -/
def restsOne (s : AppState) : Bool :=
  match s.spot with
  | none => false
  | some e => decide (e.getMarketIds = [128] ∧ s.getNonce 1 = 1 ∧
    ((·.1.length) <$> e.cancelAllOrders 1 128 : Exec Nat) = .ok 1 ∧
    ∀ k ∈ List.range 256, k = 128 ∨ e.getOrdersByAccount 1 (UInt8.ofNat k) = [])

theorem exists_oneResting : ∃ s e e' canceled,
    nodeRun spotGenesis [.tx spotBid 0] = .ok s ∧ s.getNonce 1 = 1 ∧
      OneResting s e e' canceled := by
  obtain ⟨s, hs, htest⟩ := exists_of_test (x := nodeRun spotGenesis [.tx spotBid 0])
    (p := restsOne) (by decide +kernel)
  unfold restsOne at htest
  cases he : s.spot with
  | none =>
    rw [he] at htest
    cases htest
  | some e =>
    rw [he] at htest
    obtain ⟨hmarkets, hnonce, hcancel, hothers⟩ := of_decide_eq_true htest
    obtain ⟨⟨canceled, e'⟩, hcancel, hone⟩ := map_eq_ok.mp hcancel
    refine ⟨s, e, e', canceled, hs, hnonce, he, hmarkets, hcancel, hone, fun m hm => ?_⟩
    have hne : m.toNat ≠ 128 := fun h => hm (UInt8.toNat_inj.mp h)
    have h := (hothers m.toNat (List.mem_range.mpr m.toNat_lt)).resolve_left hne
    rwa [UInt8.ofNat_toNat] at h

/-- Cancelling in the market, in all markets, or in another one. -/
theorem OneResting.spotCancelAll {s : AppState} {e e' : SpotEngineState} {canceled : List Order}
    (h : OneResting s e e' canceled) (market : Option MarketId) :
    ∃ s', s'.nonces = s.nonces ∧ s.executeSpotCancelAll 1 market =
      .ok (.ok [.spotCancelAll 1 (if market = none ∨ market = some 128 then 1 else 0)], s') := by
  have hin : cancelSpotMarkets 1 [128] s = .ok (canceled, s.setSpot e') := by
    unfold cancelSpotMarkets
    rw [h.spot]
    simp only [h.cancel, ok_bind]
    unfold cancelSpotMarkets
    cases hspot : (s.setSpot e').spot <;> simp [pure, Except.pure, bind, Except.bind]
  have hout : ∀ m : MarketId, m ≠ 128 → cancelSpotMarkets 1 [m] s = .ok ([], s.setSpot e) := by
    intro m hm
    have hnone : e.cancelAllOrders 1 m = .ok ([], e) := by
      unfold SpotEngineState.cancelAllOrders
      rw [h.others m hm]
      rfl
    unfold cancelSpotMarkets
    rw [h.spot]
    simp only [hnone, ok_bind]
    unfold cancelSpotMarkets
    cases hspot : (s.setSpot e).spot <;> simp [pure, Except.pure, bind, Except.bind]
  have hmarkets : s.spotMarketIds = [128] := by
    unfold spotMarketIds
    rw [h.spot]
    exact h.markets
  unfold executeSpotCancelAll
  cases market with
  | none =>
    simp only [hmarkets, hin, ok_bind, h.one]
    exact ⟨s.setSpot e', rfl, rfl⟩
  | some m =>
    dsimp only
    by_cases hm : m = 128
    · subst hm
      simp only [hin, ok_bind, h.one]
      exact ⟨s.setSpot e', rfl, rfl⟩
    · rw [hout m hm, if_neg (by simpa using hm)]
      exact ⟨s.setSpot e, rfl, rfl⟩

end AppState

/-! ### The theorem -/

namespace SignedTransactionType

variable {S : Signing} {n : Nat}

/-- A batch that is read and the batch with its first order garbled end differently. -/
theorem orders_differ {w : OrderWire} {ws : List OrderWire}
    (hread : (readOrders (w :: ws)).2 = none) (hn : n < 2 ^ 64 - 1) {a b : TransactionType}
    (ha : ∀ s : AppState, ∀ t, s.executeAction 1 t a = s.executeOrders 1 (w :: ws) t)
    (hb : ∀ s : AppState, ∀ t, s.executeAction 1 t b = s.executeOrders 1 (w.garbled :: ws) t) :
    ∃ (s : AppState) (t : Timestamp),
      s.executeTx ⟨a, n, some 1⟩ t ≠ s.executeTx ⟨b, n, some 1⟩ t := by
  have hidle : ∀ orders, ∃ events,
      (AppState.new.awaiting 1 n).executeOrders 1 orders n =
        .ok (AppState.idleResult (readOrders orders).2 events, AppState.new.awaiting 1 n) :=
    fun orders => AppState.executeOrders_idle rfl rfl
  obtain ⟨request, hrequest⟩ : ∃ request, w.toOrderRequest = .ok request := by
    cases hw : w.toOrderRequest with
    | ok request => exact ⟨request, rfl⟩
    | error e =>
      unfold readOrders at hread
      rw [hw] at hread
      cases hread
  obtain ⟨e, he⟩ := OrderWire.toOrderRequest_garbled hrequest
  have hgarbled : (readOrders (w.garbled :: ws)).2 = some e := by
    unfold readOrders
    rw [he]
  obtain ⟨events, hrun⟩ := hidle (w :: ws)
  obtain ⟨events', hrun'⟩ := hidle (w.garbled :: ws)
  rw [hread, ← ha] at hrun
  rw [hgarbled, ← hb] at hrun'
  obtain ⟨s₁, hs₁⟩ := AppState.executeTx_awaiting a hn hrun rfl
  obtain ⟨s₂, hs₂⟩ := AppState.executeTx_awaiting b hn hrun' rfl
  refine ⟨AppState.new.awaiting 1 n, n, fun heq => ?_⟩
  have hresult := Except.ok.inj (hs₁.symm.trans (heq.trans hs₂))
  cases (Prod.mk.inj hresult).1

/-- Cancelling in two markets, in one of which an order rests, comes to two things. -/
theorem spotCancelAll_differ (market : Option MarketId) (hn : n < 2 ^ 64 - 1) :
    ∃ market', ¬ SameEffect n (.spotCancelAll market) (.spotCancelAll market') := by
  obtain ⟨s, e, e', canceled, -, -, hresting⟩ := AppState.exists_oneResting
  have hawaiting : AppState.OneResting (s.awaiting 1 n) e e' canceled :=
    ⟨hresting.spot, hresting.markets, hresting.cancel, hresting.one, hresting.others⟩
  let other : Option MarketId :=
    if market = none ∨ market = some 128 then some 129 else some 128
  refine ⟨other, fun hsame => ?_⟩
  obtain ⟨s₁, hnonces₁, hrun₁⟩ := hawaiting.spotCancelAll market
  obtain ⟨s₂, hnonces₂, hrun₂⟩ := hawaiting.spotCancelAll other
  obtain ⟨t₁, ht₁⟩ := AppState.executeTx_awaiting (.spotCancelAll market) hn hrun₁ hnonces₁
  obtain ⟨t₂, ht₂⟩ := AppState.executeTx_awaiting (.spotCancelAll other) hn hrun₂ hnonces₂
  have heq := Except.ok.inj (ht₁.symm.trans ((hsame _ _ _).trans ht₂))
  have hevents := (Prod.mk.inj heq).1
  simp only [Except.map, Except.ok.injEq, TxResult.mk.injEq, List.cons.injEq,
    Event.spotCancelAll.injEq, true_and, and_true] at hevents
  by_cases hm : market = none ∨ market = some 128
  · simp [other, if_pos hm] at hevents
  · simp [other, if_neg hm] at hevents

/-- An action that is not bound is hashed like one with another effect. -/
theorem exists_differing {a : SignedTransactionType} (hS : S.LowersAscii) (hread : a.Readable)
    (hbound : ¬ a.Bound) (hn : n < 2 ^ 64 - 1) :
    ∃ b : SignedTransactionType, b.Typed ∧ a.SignedAlike S b ∧ ¬ SameEffect n a b := by
  have hfirst : ∀ {w ws}, (readOrders (w :: ws)).2 = none →
      ∃ request, w.toOrderRequest = .ok request := by
    intro w ws h
    cases hw : w.toOrderRequest with
    | ok request => exact ⟨request, rfl⟩
    | error e =>
      unfold readOrders at h
      rw [hw] at h
      cases h
  cases a with
  | order orders grouping =>
    cases orders with
    | nil => exact absurd rfl hbound
    | cons w ws =>
      obtain ⟨request, hrequest⟩ := hfirst hread
      obtain ⟨s, t, hne⟩ := orders_differ hread hn (a := .order (w :: ws))
        (b := .order (w.garbled :: ws)) (fun _ _ => rfl) fun _ _ => rfl
      refine ⟨.order (w.garbled :: ws) grouping, trivial, ⟨?_, rfl⟩, fun h => hne (h s 1 t)⟩
      rw [List.map_cons, List.map_cons, OrderWire.signedFields_garbled hS hrequest]
  | spotOrder orders grouping =>
    cases orders with
    | nil => exact absurd rfl hbound
    | cons w ws =>
      obtain ⟨request, hrequest⟩ := hfirst hread
      obtain ⟨s, t, hne⟩ := orders_differ hread hn (a := .spotOrder (w :: ws))
        (b := .spotOrder (w.garbled :: ws)) (fun _ _ => rfl) fun _ _ => rfl
      refine ⟨.spotOrder (w.garbled :: ws) grouping, trivial, ⟨?_, rfl⟩, fun h => hne (h s 1 t)⟩
      rw [List.map_cons, List.map_cons, OrderWire.signedSpotFields_garbled hS hrequest]
  | spotCancelAll market =>
    obtain ⟨market', hne⟩ := spotCancelAll_differ market hn
    exact ⟨.spotCancelAll market', trivial, trivial, hne⟩
  | _ => exact absurd trivial hbound

/-- Nothing is executed with a nonce at the end of `u64`. -/
theorem sameEffect_of_last {a b : SignedTransactionType} (hn : 2 ^ 64 - 1 ≤ n) :
    SameEffect n a b := by
  intro s sender t
  have hinvalid : s.validateNonce sender n t = false := by
    have hthreshold : AppState.timestampThreshold = 1000000000000 := rfl
    unfold AppState.validateNonce
    rw [if_pos (by omega)]
    exact decide_eq_false fun h => absurd (lt_min_iff.mp h.2.1).2 (by omega)
  unfold AppState.executeTx AppState.validateTx Transaction.sender
  simp only [hinvalid]
  rfl

/-- **What a signature binds.** Actions that hash alike have the same effect when execution
reads the same of their unsigned fields. An action that can be read has the effect of every
action that hashes like it exactly when it has no unsigned field, or its nonce is never valid. -/
theorem signature_binds_iff {a : SignedTransactionType} (hS : S.LowersAscii) (ha : a.Typed)
    (n : Nat) :
    (∀ b : SignedTransactionType, b.Typed →
      a.computeStructHash S n = b.computeStructHash S n → a.ReadAlike b → SameEffect n a b) ∧
    (a.Readable → ((∀ b : SignedTransactionType, b.Typed →
      a.computeStructHash S n = b.computeStructHash S n → SameEffect n a b) ↔
        a.Bound ∨ 2 ^ 64 - 1 ≤ n)) := by
  refine ⟨fun b hb hhash hread => ?_, fun hread => ⟨fun hall => ?_, fun hbound b hb hhash => ?_⟩⟩
  · exact sameEffect_of_readAlike ((computeStructHash_eq_iff ha hb).mp hhash) hread n
  · by_contra hnot
    push Not at hnot
    obtain ⟨b, hb, hsigned, hne⟩ := exists_differing hS hread hnot.1 hnot.2
    exact hne (hall b hb ((computeStructHash_eq_iff ha hb).mpr hsigned))
  · have hsigned := (computeStructHash_eq_iff ha hb).mp hhash
    rcases hbound with hbound | hn
    · exact sameEffect_of_readAlike hsigned (hbound.readAlike hsigned) n
    · exact sameEffect_of_last hn

theorem hashesOnly_lowersAscii : hashesOnly.LowersAscii := fun _ _ => rfl

/-- A take-profit order of a tenth of a coin, with its trigger price in one spelling or another. -/
def takeProfit (px : String) : SignedTransactionType :=
  .order [{
    a := 0, b := false, p := "70000", s := "0.1", r := true, t := .trigger ⟨true, px, "tp"⟩,
    c := none }] .na

/-- A transfer of ten USDC to account 2. -/
def sendTen : SignedTransactionType := .usdTransfer 2 "10"

/-- A trigger price is not hashed, but its spelling makes no difference; of a transfer
everything is hashed. -/
theorem signature_binds_spellings : ∃ S : Signing, S.LowersAscii ∧
    (takeProfit "70000").Readable ∧ takeProfit "70000" ≠ takeProfit "70000.0" ∧
    (takeProfit "70000").computeStructHash S 0 = (takeProfit "70000.0").computeStructHash S 0 ∧
    SameEffect 0 (takeProfit "70000") (takeProfit "70000.0") ∧
    ∀ b : SignedTransactionType, b.Typed →
      sendTen.computeStructHash S 0 = b.computeStructHash S 0 → SameEffect 0 sendTen b := by
  have hhash : (takeProfit "70000").computeStructHash hashesOnly 0 =
      (takeProfit "70000.0").computeStructHash hashesOnly 0 :=
    (computeStructHash_eq_iff (a := takeProfit "70000") (b := takeProfit "70000.0") trivial
      trivial).mpr ⟨rfl, rfl⟩
  have hread : (takeProfit "70000").ReadAlike (takeProfit "70000.0") := by
    unfold takeProfit ReadAlike
    decide +kernel
  refine ⟨hashesOnly, hashesOnly_lowersAscii, ?_, by decide +kernel, hhash,
    (signature_binds_iff hashesOnly_lowersAscii (a := takeProfit "70000") trivial 0).1 _ trivial
      hhash hread,
    ((signature_binds_iff hashesOnly_lowersAscii (a := sendTen) trivial 0).2 trivial).mpr
      (.inl trivial)⟩
  unfold takeProfit Readable
  decide +kernel

/-- A cancellation in one market, altered into one in all markets: an order that rests in
another market is kept by the first, and cancelled by the second. -/
theorem market_not_signed : ∃ (S : Signing) (s s₁ s₂ : AppState), S.LowersAscii ∧
    AppState.Reachable s ∧
    (spotCancelAll (some 129)).computeStructHash S 1 = (spotCancelAll none).computeStructHash S 1 ∧
    s.executeTx ⟨(spotCancelAll (some 129)).executed, 1, some 1⟩ 0 =
      .ok (.ok ⟨true, [.spotCancelAll 1 0], 1⟩, s₁) ∧
    s.executeTx ⟨(spotCancelAll none).executed, 1, some 1⟩ 0 =
      .ok (.ok ⟨true, [.spotCancelAll 1 1], 1⟩, s₂) := by
  obtain ⟨s, e, e', canceled, hs, hnonce, hresting⟩ := AppState.exists_oneResting
  have hvalid : s.validateNonce 1 1 0 = true := by
    unfold AppState.validateNonce
    rw [hnonce, if_neg (by decide)]
    decide
  have hcounter : s.getNonce 1 < 2 ^ 64 - 1 := by
    rw [hnonce]
    decide
  obtain ⟨t₁, hnonces₁, hrun₁⟩ := hresting.spotCancelAll (some 129)
  obtain ⟨t₂, hnonces₂, hrun₂⟩ := hresting.spotCancelAll none
  obtain ⟨s₁, hs₁⟩ := AppState.executeTx_of_action (.spotCancelAll (some 129))
    hvalid hcounter hrun₁ hnonces₁
  obtain ⟨s₂, hs₂⟩ := AppState.executeTx_of_action (.spotCancelAll none)
    hvalid hcounter hrun₂ hnonces₂
  exact ⟨hashesOnly, s, s₁, s₂, hashesOnly_lowersAscii,
    AppState.nodeRun_reachable AppState.spotGenesis_nonneg hs,
    (computeStructHash_eq_iff (a := spotCancelAll (some 129)) (b := spotCancelAll none) trivial
      trivial).mpr trivial, hs₁, hs₂⟩

end SignedTransactionType

end Hypercore

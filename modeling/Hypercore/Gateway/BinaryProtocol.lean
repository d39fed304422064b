import Hypercore.Lib.Layout
import Hypercore.Primitives.Keccak
/-!
# Hypercore.Gateway.BinaryProtocol

The binary market data messages.

A message is a frame: the number of its type, the length of its payload in four bytes, and the
payload. The payload is what `bincode` writes of the data. The crate is a parameter: it reads
back what it writes of a value, that has a known length, and it refuses a text that is cut. A
frame has room for a length below 2^32; the length of a longer payload is cut to its low 32 bits,
and the frame ends there for its reader.

`Bincode` has the format of the crate, as an instance of the parameter: fields in order, numbers
of a fixed width in little-endian, a vector behind its length.
-/

namespace Hypercore

namespace Gateway

/-! ### Messages -/

/-- Binary message type identifiers. -/
inductive BinaryMsgType
  | l2BookSnapshot
  | tradeUpdate
  | orderUpdate
  | fillUpdate
  | positionUpdate
  | allMids
  | placeOrder
  | cancelOrder
  | batchOrder
  | error
  | pong
  deriving DecidableEq, Repr

namespace BinaryMsgType

/-- `msg_type as u8`. -/
def asU8 : BinaryMsgType → UInt8
  | l2BookSnapshot => 0x01
  | tradeUpdate => 0x02
  | orderUpdate => 0x03
  | fillUpdate => 0x04
  | positionUpdate => 0x05
  | allMids => 0x06
  | placeOrder => 0x10
  | cancelOrder => 0x11
  | batchOrder => 0x12
  | error => 0xFE
  | pong => 0xFF

def fromU8 : UInt8 → Option BinaryMsgType
  | 0x01 => some l2BookSnapshot
  | 0x02 => some tradeUpdate
  | 0x03 => some orderUpdate
  | 0x04 => some fillUpdate
  | 0x05 => some positionUpdate
  | 0x06 => some allMids
  | 0x10 => some placeOrder
  | 0x11 => some cancelOrder
  | 0x12 => some batchOrder
  | 0xFE => some error
  | 0xFF => some pong
  | _ => none

theorem fromU8_iff {v : UInt8} {t : BinaryMsgType} : fromU8 v = some t ↔ v = t.asU8 := by
  constructor
  · intro h
    unfold fromU8 at h
    split at h
    case h_12 => cases h
    all_goals
      obtain rfl := Option.some.inj h
      rfl
  · intro h
    rw [h]
    cases t <;> rfl

end BinaryMsgType

/-- The values of a vector, which has a length of 64 bits. -/
abbrev Vec (α : Type) : Type := { as : List α // as.length < 256 ^ 8 }

/-- Compact L2 book level: fixed-point price and size, and the number of orders. -/
structure BinaryL2Level where
  priceRaw : UInt64
  sizeRaw : UInt64
  orderCount : UInt32

/-- Compact L2 book snapshot, best levels first. -/
structure BinaryL2Book where
  marketId : UInt16
  timestamp : UInt64
  bids : Vec BinaryL2Level
  asks : Vec BinaryL2Level

/-- Bytes of a book: fields of 2 and 8 bytes, two lengths of 8, and 20 for each level. -/
def BinaryL2Book.size (b : BinaryL2Book) : Nat := 26 + 20 * (b.bids.val.length + b.asks.val.length)

/-- Compact trade update. -/
structure BinaryTrade where
  marketId : UInt16
  priceRaw : UInt64
  sizeRaw : UInt64
  isBuy : Bool
  timestamp : UInt64

/-! ### Frames -/

/-- Binary protocol errors. -/
inductive BinaryProtocolError
  | messageTooShort
  | unknownMessageType (type : UInt8)
  | incompletePayload (expected got : Nat)
  /-- The text of the deserializer is left out. -/
  | deserializationFailed
  deriving DecidableEq, Repr

/-- Encode a binary message with TLV framing. The length is cut to 32 bits. -/
def encodeMessage (msgType : BinaryMsgType) (payload : List UInt8) : List UInt8 :=
  msgType.asU8 :: leBytes 4 (payload.length % 2 ^ 32) ++ payload

/-- Decode a binary message type and payload from a TLV frame. What follows the frame is
ignored. -/
def decodeMessage (data : List UInt8) : Except BinaryProtocolError (BinaryMsgType × List UInt8) :=
  match data with
  | type :: l₀ :: l₁ :: l₂ :: l₃ :: rest =>
    match BinaryMsgType.fromU8 type with
    | none => .error (.unknownMessageType type)
    | some msgType =>
      let len := ofBeBytes [l₃, l₂, l₁, l₀]
      if rest.length < len then .error (.incompletePayload len rest.length)
      else .ok (msgType, rest.take len)
  | _ => .error .messageTooShort

/-- `bincode::deserialize`, with the error of the protocol. -/
def deserialize {α : Type} (C : Codec α (List UInt8)) (payload : List UInt8) :
    Except BinaryProtocolError α :=
  match C.decode payload with
  | none => .error .deserializationFailed
  | some a => .ok a

section Payloads

variable (B : Codec BinaryL2Book (List UInt8)) (T : Codec BinaryTrade (List UInt8))

/-- Encode an L2 book snapshot to binary. -/
def encodeL2Book (book : BinaryL2Book) : List UInt8 :=
  encodeMessage .l2BookSnapshot (B.encode book)

/-- Decode an L2 book snapshot from a binary payload. -/
def decodeL2Book (payload : List UInt8) : Except BinaryProtocolError BinaryL2Book :=
  deserialize B payload

/-- Encode a trade update to binary. -/
def encodeTrade (trade : BinaryTrade) : List UInt8 :=
  encodeMessage .tradeUpdate (T.encode trade)

/-- Decode a trade update from a binary payload. -/
def decodeTrade (payload : List UInt8) : Except BinaryProtocolError BinaryTrade :=
  deserialize T payload

end Payloads

section Frames

variable {t : BinaryMsgType} {data payload : List UInt8}

/-- A frame is read as its payload, up to the length that is left of it. -/
theorem decodeMessage_encodeMessage (t : BinaryMsgType) (payload rest : List UInt8) :
    decodeMessage (encodeMessage t payload ++ rest) =
      .ok (t, payload.take (payload.length % 2 ^ 32)) := by
  obtain ⟨l₀, l₁, l₂, l₃, hl⟩ :=
    List.length_eq_four.mp (length_leBytes 4 (payload.length % 2 ^ 32))
  have hlen : ofBeBytes [l₃, l₂, l₁, l₀] = payload.length % 2 ^ 32 := by
    have hback : ofBeBytes (beBytes 4 (payload.length % 2 ^ 32)) = payload.length % 2 ^ 32 :=
      ofBeBytes_beBytes (Nat.mod_lt _ (by decide))
    unfold beBytes at hback
    rw [hl] at hback
    exact hback
  have hle : payload.length % 2 ^ 32 ≤ payload.length := Nat.mod_le ..
  have htype : BinaryMsgType.fromU8 t.asU8 = some t := BinaryMsgType.fromU8_iff.mpr rfl
  unfold encodeMessage
  rw [hl]
  simp only [List.cons_append, List.nil_append, decodeMessage, htype, hlen]
  rw [if_neg (by rw [List.length_append]; omega), List.take_append_of_le_length hle]

/-- **The parser.** A message is read exactly where a frame that has room for its payload stands.
What is read determines the type, the length and the payload; the rest is free. -/
theorem decodeMessage_iff : decodeMessage data = .ok (t, payload) ↔
    payload.length < 2 ^ 32 ∧ ∃ rest, data = encodeMessage t payload ++ rest := by
  constructor
  · intro h
    unfold decodeMessage at h
    split at h
    · rename_i type l₀ l₁ l₂ l₃ rest
      cases htype : BinaryMsgType.fromU8 type with
      | none =>
        rw [htype] at h
        cases h
      | some msgType =>
        rw [htype] at h
        dsimp only at h
        split at h
        · cases h
        · rename_i hlen
          obtain ⟨rfl, rfl⟩ := Prod.mk.inj (Except.ok.inj h)
          have hlt : ofBeBytes [l₃, l₂, l₁, l₀] < 256 ^ 4 := ofBeBytes_lt [l₃, l₂, l₁, l₀]
          have hlength : (rest.take (ofBeBytes [l₃, l₂, l₁, l₀])).length =
              ofBeBytes [l₃, l₂, l₁, l₀] := by
            rw [List.length_take]
            omega
          have hbytes : leBytes 4 (ofBeBytes [l₃, l₂, l₁, l₀]) = [l₀, l₁, l₂, l₃] :=
            List.reverse_injective (beBytes_ofBeBytes [l₃, l₂, l₁, l₀])
          refine ⟨by rw [hlength]; omega, rest.drop (ofBeBytes [l₃, l₂, l₁, l₀]), ?_⟩
          unfold encodeMessage
          rw [hlength, Nat.mod_eq_of_lt (by omega), hbytes, BinaryMsgType.fromU8_iff.mp htype]
          simp
    · cases h
  · intro ⟨hlt, rest, h⟩
    rw [h, decodeMessage_encodeMessage, Nat.mod_eq_of_lt hlt, List.take_length]

/-- **Round trip.** A payload that fits its frame is read back. Of a longer one the frame has a
part that is shorter than the value, and that part is refused. -/
theorem received_iff {α : Type} {C : Codec α (List UInt8)} {size : α → Nat} (hC : C.Sized size)
    (t : BinaryMsgType) (a : α) (rest : List UInt8) :
    ∃ payload, decodeMessage (encodeMessage t (C.encode a) ++ rest) = .ok (t, payload) ∧
      deserialize C payload =
        if size a < 2 ^ 32 then .ok a else .error .deserializationFailed := by
  refine ⟨_, decodeMessage_encodeMessage t (C.encode a) rest, ?_⟩
  unfold deserialize
  rw [hC.length]
  split_ifs with hfits
  · rw [Nat.mod_eq_of_lt hfits, ← hC.length, List.take_length, C.decode_encode]
  · have hmod := Nat.mod_lt (size a) (by decide : 0 < 2 ^ 32)
    rw [hC.truncated a _ (by omega)]

/-- **Books and trades.** A book is received as it was sent if it has few enough levels for the
length field of its frame, and what arrives of any other is refused; a trade is received
always. -/
theorem market_data_received {B : Codec BinaryL2Book (List UInt8)}
    {T : Codec BinaryTrade (List UInt8)}
    (hB : B.Sized BinaryL2Book.size) (hT : T.Sized fun _ => 27) (book : BinaryL2Book)
    (trade : BinaryTrade) (rest : List UInt8) :
    (∃ payload, decodeMessage (encodeL2Book B book ++ rest) = .ok (.l2BookSnapshot, payload) ∧
      decodeL2Book B payload =
        if 26 + 20 * (book.bids.val.length + book.asks.val.length) < 2 ^ 32 then .ok book
        else .error .deserializationFailed) ∧
    ∃ payload, decodeMessage (encodeTrade T trade ++ rest) = .ok (.tradeUpdate, payload) ∧
      decodeTrade T payload = .ok trade :=
  ⟨received_iff hB _ book rest, received_iff hT _ trade rest⟩

end Frames

/-! ### The format of the crate -/

namespace Bincode

/-- A number of so many bytes, little-endian. -/
def littleEndian (width : Nat) : Layout UInt8 (Fin (256 ^ width)) :=
  .block width (fun n => leBytes width n)
    (fun text => if h : ofBeBytes text.reverse < 256 ^ width then some ⟨_, h⟩ else none)
    (fun _ => length_leBytes ..) fun text n hlength => by
      have hlt : ofBeBytes text.reverse < 256 ^ width := by
        have h := ofBeBytes_lt text.reverse
        rwa [List.length_reverse, hlength] at h
      rw [dif_pos hlt]
      constructor
      · intro h
        obtain rfl := Option.some.inj h
        have hback := beBytes_ofBeBytes text.reverse
        rw [List.length_reverse, hlength] at hback
        exact (List.reverse_injective hback).symm
      · rintro rfl
        exact congrArg some (Fin.ext (ofBeBytes_beBytes n.isLt))

theorem length_littleEndian (width : Nat) (n : Fin (256 ^ width)) :
    ((littleEndian width).write n).length = width := length_leBytes ..

def u16 : Layout UInt8 UInt16 := (littleEndian 2).as
  { toFun n := .ofNat n, invFun v := ⟨v.toNat, v.toNat_lt⟩
    left_inv n := Fin.ext (UInt16.toNat_ofNat_of_lt' n.isLt)
    right_inv _ := UInt16.ofNat_toNat }

def u32 : Layout UInt8 UInt32 := (littleEndian 4).as
  { toFun n := .ofNat n, invFun v := ⟨v.toNat, v.toNat_lt⟩
    left_inv n := Fin.ext (UInt32.toNat_ofNat_of_lt' n.isLt)
    right_inv _ := UInt32.ofNat_toNat }

def u64 : Layout UInt8 UInt64 := (littleEndian 8).as
  { toFun n := .ofNat n, invFun v := ⟨v.toNat, v.toNat_lt⟩
    left_inv n := Fin.ext (UInt64.toNat_ofNat_of_lt' n.isLt)
    right_inv _ := UInt64.ofNat_toNat }

/-- A truth value. Bytes other than 0 and 1 are not read. -/
def bool : Layout UInt8 Bool :=
  .block 1 (fun b => [if b then 1 else 0])
    (fun text => if text = [0] then some false else if text = [1] then some true else none)
    (fun _ => rfl) fun text b _ => by cases b <;> split_ifs <;> simp_all

/-- A vector behind its length. -/
def vec {α : Type} (W : Layout UInt8 α) : Layout UInt8 (Vec α) := W.counted (littleEndian 8)

@[simp] theorem length_u16 (v : UInt16) : (u16.write v).length = 2 := length_littleEndian ..

@[simp] theorem length_u32 (v : UInt32) : (u32.write v).length = 4 := length_littleEndian ..

@[simp] theorem length_u64 (v : UInt64) : (u64.write v).length = 8 := length_littleEndian ..

@[simp] theorem length_bool (v : Bool) : (bool.write v).length = 1 := rfl

theorem length_vec {α : Type} {W : Layout UInt8 α} {n : Nat} (h : ∀ a, (W.write a).length = n)
    (as : Vec α) : ((vec W).write as).length = 8 + n * as.val.length := by
  unfold vec
  rw [Layout.counted_write, List.length_append, length_littleEndian, W.length_flatMap_write h]

def l2Level : Layout UInt8 BinaryL2Level := (u64.pair (u64.pair u32)).as
  { toFun x := ⟨x.1, x.2.1, x.2.2⟩, invFun l := (l.priceRaw, l.sizeRaw, l.orderCount)
    left_inv _ := rfl, right_inv _ := rfl }

def l2Book : Layout UInt8 BinaryL2Book :=
  (u16.pair (u64.pair ((vec l2Level).pair (vec l2Level)))).as
    { toFun x := ⟨x.1, x.2.1, x.2.2.1, x.2.2.2⟩
      invFun b := (b.marketId, b.timestamp, b.bids, b.asks)
      left_inv _ := rfl, right_inv _ := rfl }

def trade : Layout UInt8 BinaryTrade := (u16.pair (u64.pair (u64.pair (bool.pair u64)))).as
  { toFun x := ⟨x.1, x.2.1, x.2.2.1, x.2.2.2.1, x.2.2.2.2⟩
    invFun t := (t.marketId, t.priceRaw, t.sizeRaw, t.isBuy, t.timestamp)
    left_inv _ := rfl, right_inv _ := rfl }

@[simp] theorem length_l2Level (l : BinaryL2Level) : (l2Level.write l).length = 20 := by
  simp [l2Level]

theorem length_l2Book (b : BinaryL2Book) : (l2Book.write b).length = b.size := by
  have hbids := length_vec length_l2Level b.bids
  have hasks := length_vec length_l2Level b.asks
  simp only [l2Book, Layout.as_write, Layout.pair_write, Equiv.coe_fn_symm_mk, List.length_append,
    length_u16, length_u64, hbids, hasks, BinaryL2Book.size]
  omega

theorem length_trade (t : BinaryTrade) : (trade.write t).length = 27 := by
  simp [trade]

/-- Two bids and an ask, and a trade, each before the next message. -/
theorem market_data_received_bincode :
    let book : BinaryL2Book := ⟨0, 1234567890, ⟨[⟨6500000000000, 100000000, 3⟩,
      ⟨6499900000000, 500000000, 7⟩], by decide⟩, ⟨[⟨6500100000000, 200000000, 2⟩], by decide⟩⟩
    let trade : BinaryTrade := ⟨0, 6500000000000, 100000000, true, 1234567890⟩
    (∃ payload, decodeMessage (encodeL2Book l2Book.codec book ++ [0xFF]) =
        .ok (.l2BookSnapshot, payload) ∧ decodeL2Book l2Book.codec payload = .ok book) ∧
      ∃ payload, decodeMessage (encodeTrade Bincode.trade.codec trade ++ [0xFF]) =
        .ok (.tradeUpdate, payload) ∧ decodeTrade Bincode.trade.codec payload = .ok trade :=
  market_data_received (l2Book.codec_sized length_l2Book)
    (Bincode.trade.codec_sized length_trade) _ _ _

end Bincode

end Gateway

end Hypercore

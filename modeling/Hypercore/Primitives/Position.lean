import Hypercore.Primitives.Decimal
/-!
# Hypercore.Primitives.Position

A position in a perpetual market, and what one fill does to it.

A fill takes one of three branches: it increases the position, reduces it (down
to flat at most), or flips it to the other side. `applyFill` first settles entry
notional and realized PnL in the branch taken, then writes the new size.
-/

namespace Hypercore

open Exec Int128

/-- Position in a perpetual market. -/
structure Position where
  /-- Positive for long, negative for short. -/
  size : Decimal
  /-- Cumulative entry notional. -/
  entryNotional : Decimal
  realizedPnl : Decimal
  /-- Funding accumulator at the last settlement. -/
  lastFundingIndex : Decimal
  deriving DecidableEq, Repr

namespace Position

/-- A new empty position. -/
def new : Position where
  size := ⟨0, 8⟩
  entryNotional := ⟨0, 8⟩
  realizedPnl := ⟨0, 6⟩
  lastFundingIndex := ⟨0, 10⟩

def isEmpty (p : Position) : Bool := p.size.isZero
def isLong (p : Position) : Bool := p.size.isPositive
def isShort (p : Position) : Bool := p.size.isNegative

def absSize (p : Position) : Exec Decimal := p.size.abs

/-- Average entry price, `None` for an empty position. -/
def entryPrice (p : Position) : Exec (Option Decimal) :=
  if p.size.isZero then return none
  else do
    let price ← p.entryNotional.div (← p.absSize)
    return some price

/-- Unrealized PnL at a given mark price. -/
def unrealizedPnl (p : Position) (markPrice : Decimal) : Exec Decimal :=
  if p.size.isZero then return ⟨0, 6⟩
  else do
    let currentNotional ← (← p.absSize).mul markPrice
    if p.isLong then currentNotional.sub p.entryNotional
    else p.entryNotional.sub currentNotional

/-- Position notional value. -/
def notionalValue (p : Position) (markPrice : Decimal) : Exec Decimal := do
  (← p.absSize).mul markPrice

/-! ### Fills -/

/-- The fill size with the sign of its side. -/
def fillSideSize (fillSize : Decimal) (isBuy : Bool) : Exec Decimal :=
  if isBuy then return fillSize else fillSize.neg

/-- The position keeps its side, or ends flat. -/
def keepsSide (p : Position) (newSize : Decimal) : Bool :=
  (p.size.isPositive && newSize.isPositive) || (p.size.isNegative && newSize.isNegative) ||
    newSize.isZero

/-- Entry notional and PnL of the part of the position that a fill closes. -/
def closedPart (p : Position) (fillSize fillNotional : Decimal) : Exec (Decimal × Decimal) := do
  let closeRatio ← fillSize.div (← p.absSize)
  let closedNotional ← p.entryNotional.mul closeRatio
  let pnl ← (if p.isLong then fillNotional.sub closedNotional
    else closedNotional.sub fillNotional)
  return (closedNotional, pnl)

/-- The PnL a fill would realize, without modifying the position. -/
def calculateFillPnl (p : Position) (fillSize fillPrice : Decimal) (isBuy : Bool) :
    Exec Decimal :=
  if p.size.isZero then return ⟨0, 6⟩
  else do
    let sideSize ← fillSideSize fillSize isBuy
    let newSize ← p.size.add sideSize
    let fillNotional ← fillSize.mul fillPrice
    if p.keepsSide newSize then
      if p.size.value.sign = sideSize.value.sign then return ⟨0, 6⟩
      else
        let (_, pnl) ← p.closedPart fillSize fillNotional
        pnl.toDecimals 6
    else (← p.unrealizedPnl fillPrice).toDecimals 6

/-- `realized_pnl += pnl`, on the scale of the former. -/
def addRealized (p : Position) (pnl : Decimal) : Exec Decimal := do
  p.realizedPnl.add (← pnl.toDecimals p.realizedPnl.decimals)

/-- The increasing branch. -/
def increase (p : Position) (fillNotional : Decimal) : Exec Position := do
  let n ← p.entryNotional.add fillNotional
  return { p with entryNotional := n }

/-- The reducing branch. -/
def reduce (p : Position) (fillSize fillNotional : Decimal) : Exec Position := do
  let (closedNotional, pnl) ← p.closedPart fillSize fillNotional
  let realized ← p.addRealized pnl
  let n ← p.entryNotional.sub closedNotional
  return { p with realizedPnl := realized, entryNotional := n }

/-- The flipping branch: close the old position, open a new one with the rest. -/
def flip (p : Position) (fillSize fillPrice : Decimal) : Exec Position := do
  let closePnl ← p.unrealizedPnl fillPrice
  let realized ← p.addRealized closePnl
  let remainingSize ← (← fillSize.sub (← p.absSize)).abs
  let n ← remainingSize.mul fillPrice
  return { p with realizedPnl := realized, entryNotional := n }

/-- Write the new size; a flat position keeps no entry notional. -/
def setSize (p : Position) (newSize : Decimal) : Position :=
  { p with
    size := newSize
    entryNotional :=
      if newSize.isZero then ⟨0, p.entryNotional.decimals⟩ else p.entryNotional }

/-- Update the position after a fill. -/
def applyFill (p : Position) (fillSize fillPrice : Decimal) (isBuy : Bool) :
    Exec Position := do
  let sideSize ← fillSideSize fillSize isBuy
  let newSize ← p.size.add sideSize
  let fillNotional ← fillSize.mul fillPrice
  let settled ← (
    if p.keepsSide newSize || p.size.isZero then
      if p.size.isZero || p.size.value.sign = sideSize.value.sign then p.increase fillNotional
      else p.reduce fillSize fillNotional
    else p.flip fillSize fillPrice)
  return settled.setSize newSize

variable {f price : Decimal} {isBuy : Bool} {p p' : Position}

theorem fillSideSize_eq_ok {s : Decimal} (h : fillSideSize f isBuy = .ok s) :
    s = ⟨if isBuy then f.value else -f.value, f.decimals⟩ := by
  unfold fillSideSize at h
  split at h
  · rename_i hb
    rw [if_pos hb, ← pure_inv h]
  · rename_i hb
    rw [if_neg hb, (Decimal.neg_eq_ok.mp h).2]

/-- **Size after a fill.** Whatever branch is taken, the fill's signed size is added. -/
theorem applyFill_size (h : p.applyFill f price isBuy = .ok p') :
    p'.size = ⟨p.size.value + if isBuy then f.value else -f.value, p.size.decimals⟩ := by
  obtain ⟨side, hside, h⟩ := bind_inv h
  obtain ⟨size, hsize, h⟩ := bind_inv h
  obtain ⟨n, -, h⟩ := bind_inv h
  obtain ⟨q, -, h⟩ := bind_inv h
  obtain rfl := pure_inv h
  obtain rfl := fillSideSize_eq_ok hside
  exact (Decimal.add_eq_ok.mp hsize).2

/-- Fills leave the funding index. -/
theorem applyFill_index (h : p.applyFill f price isBuy = .ok p') :
    p'.lastFundingIndex = p.lastFundingIndex := by
  obtain ⟨side, -, h⟩ := bind_inv h
  obtain ⟨size, -, h⟩ := bind_inv h
  obtain ⟨n, -, h⟩ := bind_inv h
  obtain ⟨q, hq, h⟩ := bind_inv h
  obtain rfl := pure_inv h
  show q.lastFundingIndex = _
  split at hq
  · split at hq
    · obtain ⟨_, -, hq⟩ := bind_inv hq
      obtain rfl := pure_inv hq
      rfl
    · obtain ⟨⟨_, _⟩, -, hq⟩ := bind_inv hq
      obtain ⟨_, -, hq⟩ := bind_inv hq
      obtain ⟨_, -, hq⟩ := bind_inv hq
      obtain rfl := pure_inv hq
      rfl
  · obtain ⟨_, -, hq⟩ := bind_inv hq
    obtain ⟨_, -, hq⟩ := bind_inv hq
    obtain ⟨_, -, hq⟩ := bind_inv hq
    obtain ⟨_, -, hq⟩ := bind_inv hq
    obtain ⟨_, -, hq⟩ := bind_inv hq
    obtain ⟨_, -, hq⟩ := bind_inv hq
    obtain rfl := pure_inv hq
    rfl

/-- Settle funding: the payment owed since the last settlement (positive: the
holder pays), and the position with the new index. -/
def settleFunding (p : Position) (fundingAccumulator : Decimal) :
    Exec (Decimal × Position) := do
  let fundingDelta ← fundingAccumulator.sub p.lastFundingIndex
  let payment ← p.size.mul fundingDelta
  let payment ← payment.toDecimals 6
  return (payment, { p with lastFundingIndex := fundingAccumulator })

end Position

end Hypercore

import Hypercore.Chain.EngineHandle
import Hypercore.Gateway.Handlers
import Hypercore.Primitives.DecimalRead
/-!
# Hypercore.Gateway.Candles

The `candleSnapshot` request: recorded trades in buckets of an interval.

The loop opens a bucket with the price of the first trade it visits and closes it with the last.
`get_recent_trades` hands the trades out newest first, so a candle opens with its latest trade
and closes with its earliest. The volume is summed up right and then printed with six decimals,
where sizes have eight.
-/

namespace Hypercore

open Exec Int128

namespace Gateway

/-- The result of a `u128` addition whose exact value is `n`. -/
def u128 (n : Nat) : Exec Nat := if n < 2 ^ 128 then .ok n else .error .panic

@[simp] theorem u128_eq_ok {n m : Nat} : u128 n = .ok m ↔ n < 2 ^ 128 ∧ n = m := by
  unfold u128
  split <;> simp_all

/-! ### Aggregation -/

/-- Milliseconds of an interval. -/
def intervalMs : String → Option Nat
  | "1m" => some 60000
  | "5m" => some 300000
  | "15m" => some 900000
  | "1h" => some 3600000
  | "4h" => some 14400000
  | "1d" => some 86400000
  | _ => none

/-- What is kept of the trades of a bucket. The count is a `u32`; at most 500 trades are visited. -/
structure Bucket where
  o : Int
  h : Int
  l : Int
  c : Int
  v : Nat
  n : Nat
  deriving DecidableEq, Repr

/-- Add a trade to the entry of its bucket. -/
def Bucket.add (entry : Option Bucket) (trade : Fill) : Exec Bucket := do
  let price := ofU128 trade.price
  let b := entry.getD ⟨price, price, price, price, 0, 0⟩
  let v ← u128 (b.v + trade.size)
  return {
    o := b.o
    h := if b.h < price then price else b.h
    l := if price < b.l then price else b.l
    c := price
    v
    n := b.n + 1 }

/-- Start of the bucket of a trade. -/
def bucketOf (ms : Nat) (trade : Fill) : Nat := trade.timestamp / ms * ms

/-- A trade lies within a window. -/
def Within (start stop : Nat) (trade : Fill) : Prop :=
  start ≤ trade.timestamp ∧ trade.timestamp ≤ stop

instance (start stop : Nat) (trade : Fill) : Decidable (Within start stop trade) :=
  inferInstanceAs (Decidable (_ ∧ _))

/-- Visit a trade. -/
def visit (ms start stop : Nat) (buckets : FinMap Nat Bucket) (trade : Fill) :
    Exec (FinMap Nat Bucket) :=
  if ¬ Within start stop trade then return buckets
  else do
    let b ← Bucket.add buckets[bucketOf ms trade]? trade
    return buckets.insert (bucketOf ms trade) b

/-- A candle, as it is sent. -/
structure Candle where
  t : Nat
  T : Nat
  o : String
  h : String
  l : String
  c : String
  v : String
  n : Nat
  deriving DecidableEq, Repr

/-- The candle of a bucket. -/
def candle (ms : Nat) (row : Nat × Bucket) : Exec Candle := do
  let next ← u64 (row.1 + ms)
  let o ← Decimal.Trapping.toStringTrimmed ⟨row.2.o, 8⟩
  let h ← Decimal.Trapping.toStringTrimmed ⟨row.2.h, 8⟩
  let l ← Decimal.Trapping.toStringTrimmed ⟨row.2.l, 8⟩
  let c ← Decimal.Trapping.toStringTrimmed ⟨row.2.c, 8⟩
  let v ← Decimal.Trapping.toStringTrimmed ⟨ofU128 row.2.v, 6⟩
  return { t := row.1, T := next - 1, o, h, l, c, v, n := row.2.n }

/-- The window of a request: the last day when no bounds are given. -/
def windowStart (startTime : Option Nat) (now : Nat) : Nat := startTime.getD (now - 86400000)

/-- `InfoRequest::CandleSnapshot` for the market of the coin. -/
def candleSnapshot (s : EngineState) (m : MarketId) (interval : String)
    (startTime endTime : Option Nat) (now : Nat) : Exec (Except HandlerError (List Candle)) :=
  match intervalMs interval with
  | none => return .error (.invalidParameter ("Unknown interval: " ++ interval))
  | some ms => do
    let buckets ← (s.getRecentTrades m (some 500)).foldlM
      (visit ms (windowStart startTime now) (endTime.getD now)) ∅
    let candles ← buckets.toList.mapM (candle ms)
    return .ok candles

/-! ### What a candle should say -/

/-- The text of a raw price. -/
def priceText (price : Nat) : String := (⟨price, 8⟩ : Decimal).toStringTrimmed

/-- A candle tells of the trades of its bucket, oldest first: the earliest and the latest price,
the highest and the lowest, the exact sum of the sizes, and the number of trades. -/
structure Candle.Tells (ms : Nat) (trades : List Fill) (c : Candle) : Prop where
  stop : c.T = c.t + ms - 1
  opens : ∃ first, trades.head? = some first ∧ c.o = priceText first.price
  closes : ∃ last, trades.getLast? = some last ∧ c.c = priceText last.price
  high : ∃ top ∈ trades, c.h = priceText top.price ∧ ∀ t ∈ trades, t.price ≤ top.price
  low : ∃ bottom ∈ trades, c.l = priceText bottom.price ∧ ∀ t ∈ trades, bottom.price ≤ t.price
  volume : c.v = (⟨((trades.map (·.size)).sum : Nat), 8⟩ : Decimal).toStringTrimmed
  count : c.n = trades.length

/-- Candles for the trades of a window: one for each aligned interval with a trade in it. -/
structure Exact (ms : Nat) (window : List Fill) (candles : List Candle) : Prop where
  nodup : (candles.map (·.t)).Nodup
  buckets : ∀ b, b ∈ candles.map (·.t) ↔ ∃ trade ∈ window, bucketOf ms trade = b
  tells : ∀ c ∈ candles, c.Tells ms (window.filter (bucketOf ms · = c.t))

/-! ### What the loop keeps -/

/-- What a bucket holds of the trades visited for it, in the order of the visits. -/
structure Bucket.Holds (visited : List Fill) (b : Bucket) : Prop where
  o : ∃ first, visited.head? = some first ∧ b.o = ofU128 first.price
  c : ∃ last, visited.getLast? = some last ∧ b.c = ofU128 last.price
  h : (∃ t ∈ visited, b.h = ofU128 t.price) ∧ ∀ t ∈ visited, ofU128 t.price ≤ b.h
  l : (∃ t ∈ visited, b.l = ofU128 t.price) ∧ ∀ t ∈ visited, b.l ≤ ofU128 t.price
  v : b.v = (visited.map (·.size)).sum
  n : b.n = visited.length
  fits : b.v < 2 ^ 128

/-- The entry of a bucket for which these trades have been visited. -/
def Kept (visited : List Fill) : Option Bucket → Prop
  | none => visited = []
  | some b => b.Holds visited

section Loop

variable {ms start stop : Nat} {visited : List Fill} {entry : Option Bucket} {t : Fill}

/-- **Step lemma.** -/
theorem Kept.add {b : Bucket} (h : Kept visited entry) (hb : Bucket.add entry t = .ok b) :
    b.Holds (visited ++ [t]) := by
  obtain ⟨v, hv, hb⟩ := bind_inv hb
  obtain ⟨hfits, rfl⟩ := u128_eq_ok.mp hv
  obtain rfl := pure_inv hb
  cases entry with
  | none =>
    obtain rfl : visited = [] := h
    exact {
      o := ⟨t, rfl, rfl⟩
      c := ⟨t, rfl, rfl⟩
      h := by simp
      l := by simp
      v := by simp
      n := rfl
      fits := hfits }
  | some b =>
    have hb : b.Holds visited := h
    obtain ⟨first, hfirst, ho⟩ := hb.o
    obtain ⟨⟨top, htop, hh⟩, hhigh⟩ := hb.h
    obtain ⟨⟨bottom, hbottom, hl⟩, hlow⟩ := hb.l
    refine {
      o := ⟨first, by simp [hfirst], ho⟩
      c := ⟨t, by simp, rfl⟩
      h := ?_
      l := ?_
      v := by simp [hb.v]
      n := by simp [hb.n]
      fits := hfits }
    · dsimp only [Option.getD_some]
      split
      · rename_i hlt
        refine ⟨⟨t, by simp, rfl⟩, fun u hu => ?_⟩
        rcases List.mem_append.mp hu with hu | hu
        · exact (hhigh u hu).trans hlt.le
        · rw [List.mem_singleton.mp hu]
      · rename_i hge
        refine ⟨⟨top, List.mem_append_left _ htop, hh⟩, fun u hu => ?_⟩
        rcases List.mem_append.mp hu with hu | hu
        · exact hhigh u hu
        · rw [List.mem_singleton.mp hu]
          exact not_lt.mp hge
    · dsimp only [Option.getD_some]
      split
      · rename_i hlt
        refine ⟨⟨t, by simp, rfl⟩, fun u hu => ?_⟩
        rcases List.mem_append.mp hu with hu | hu
        · exact hlt.le.trans (hlow u hu)
        · rw [List.mem_singleton.mp hu]
      · rename_i hge
        refine ⟨⟨bottom, List.mem_append_left _ hbottom, hl⟩, fun u hu => ?_⟩
        rcases List.mem_append.mp hu with hu | hu
        · exact hlow u hu
        · rw [List.mem_singleton.mp hu]
          exact not_lt.mp hge

/-- The trades visited for a bucket. -/
def visitedFor (ms start stop : Nat) (trades : List Fill) (b : Nat) : List Fill :=
  (trades.filter (Within start stop ·)).filter (bucketOf ms · = b)

/-- **Run lemma.** The loop keeps of each bucket the trades visited for it. -/
theorem visits_kept {trades : List Fill} {buckets : FinMap Nat Bucket}
    (h : trades.foldlM (visit ms start stop) ∅ = .ok buckets) (b : Nat) :
    Kept (visitedFor ms start stop trades b) buckets[b]? := by
  induction trades using List.reverseRecOn generalizing buckets with
  | nil =>
    obtain rfl := foldlM_nil_eq_ok.mp h
    rw [FinMap.get_empty]
    rfl
  | append_singleton trades t ih =>
    rw [List.foldlM_append] at h
    obtain ⟨before, hbefore, h⟩ := bind_inv h
    have hvisit : visit ms start stop before t = .ok buckets := by simpa using h
    have ih := ih hbefore
    unfold visitedFor visit at *
    rw [List.filter_append, List.filter_append]
    by_cases hin : Within start stop t
    · rw [if_neg (by simpa using hin)] at hvisit
      obtain ⟨added, hadded, hvisit⟩ := bind_inv hvisit
      obtain rfl := pure_inv hvisit
      rw [FinMap.get_insert]
      by_cases hb : bucketOf ms t = b
      · rw [if_pos hb]
        rw [hb] at hadded
        have hkept : Kept (_ ++ [t]) (some added) := ih.add hadded
        simpa [hin, hb] using hkept
      · simpa [hin, hb] using ih
    · rw [if_pos hin] at hvisit
      obtain rfl := pure_inv hvisit
      simpa [hin] using ih

/-- The buckets are those of the trades visited. -/
theorem bucket_iff {trades : List Fill} {buckets : FinMap Nat Bucket}
    (h : trades.foldlM (visit ms start stop) ∅ = .ok buckets) (b : Nat) :
    (∃ bucket, buckets[b]? = some bucket) ↔ visitedFor ms start stop trades b ≠ [] := by
  have hkept := visits_kept h b
  cases hb : buckets[b]? with
  | none =>
    rw [hb] at hkept
    have hnil : visitedFor ms start stop trades b = [] := hkept
    simp [hnil]
  | some bucket =>
    rw [hb] at hkept
    obtain ⟨first, hfirst, -⟩ := hkept.o
    have hne : visitedFor ms start stop trades b ≠ [] := by
      intro hnil
      simp [hnil] at hfirst
    simp [hne]

/-- The candle of a bucket, as texts. -/
theorem candle_eq_ok {row : Nat × Bucket} {c : Candle} : candle ms row = .ok c ↔
    row.1 + ms < 2 ^ 64 ∧ (InRange |row.2.o| ∧ InRange |row.2.h| ∧ InRange |row.2.l| ∧
      InRange |row.2.c| ∧ InRange |ofU128 row.2.v|) ∧
    c = ⟨row.1, row.1 + ms - 1, (⟨row.2.o, 8⟩ : Decimal).toStringTrimmed,
      (⟨row.2.h, 8⟩ : Decimal).toStringTrimmed, (⟨row.2.l, 8⟩ : Decimal).toStringTrimmed,
      (⟨row.2.c, 8⟩ : Decimal).toStringTrimmed,
      (⟨ofU128 row.2.v, 6⟩ : Decimal).toStringTrimmed, row.2.n⟩ := by
  unfold candle
  simp only [bind_eq_ok, pure_eq_ok, u64_eq_ok, Decimal.toStringTrimmed_eq_ok]
  constructor
  · rintro ⟨_, ⟨hT, rfl⟩, _, ⟨-, ho, rfl⟩, _, ⟨-, hh, rfl⟩, _, ⟨-, hl, rfl⟩, _, ⟨-, hc, rfl⟩, _,
      ⟨-, hv, rfl⟩, rfl⟩
    exact ⟨hT, ⟨ho, hh, hl, hc, hv⟩, rfl⟩
  · rintro ⟨hT, ⟨ho, hh, hl, hc, hv⟩, rfl⟩
    exact ⟨_, ⟨hT, rfl⟩, _, ⟨by decide, ho, rfl⟩, _, ⟨by decide, hh, rfl⟩, _,
      ⟨by decide, hl, rfl⟩, _, ⟨by decide, hc, rfl⟩, _, ⟨by decide, hv, rfl⟩, rfl⟩

/-- The candles stand in the order of their buckets. -/
theorem candles_starts {rows : List (Nat × Bucket)} {candles : List Candle}
    (h : rows.mapM (candle ms) = .ok candles) : candles.map (·.t) = rows.map Prod.fst := by
  induction rows generalizing candles with
  | nil =>
    obtain rfl := pure_inv h
    rfl
  | cons row rows ih =>
    obtain ⟨c, hc, rest, hrest, rfl⟩ := mapM_cons_eq_ok.mp h
    obtain ⟨-, -, rfl⟩ := candle_eq_ok.mp hc
    rw [List.map_cons, List.map_cons, ih hrest]

end Loop

/-! ### When the candles are exact -/

/-- The window shows neither defect. Its trades have no size, and each bucket begins and ends at
one price; prices are `i128`, and the buckets end within `u64`. -/
def Flat (ms : Nat) (window : List Fill) : Prop :=
  (∀ t ∈ window, t.size = 0 ∧ t.price < 2 ^ 127 ∧ bucketOf ms t + ms < 2 ^ 64) ∧
  ∀ b, (window.filter (bucketOf ms · = b)).head?.map (·.price) =
    (window.filter (bucketOf ms · = b)).getLast?.map (·.price)

section Texts

variable {ms b : Nat} {trades : List Fill} {bucket : Bucket}

theorem ofU128_of_lt {n : Nat} (h : n < 2 ^ 127) : ofU128 n = n := if_pos h

/-- A price is printed right exactly when it is an `i128`. -/
theorem priceText_eq {v : Int} {price : Nat}
    (h : (⟨v, 8⟩ : Decimal).toStringTrimmed = priceText price) : v = price := by
  have := Decimal.toStringTrimmed_inj h
  dsimp only at this
  omega

/-- Printed with six decimals, only nothing is printed right. -/
theorem volumeText_iff {v : Nat} (hv : v < 2 ^ 128) :
    (⟨ofU128 v, 6⟩ : Decimal).toStringTrimmed = (⟨v, 8⟩ : Decimal).toStringTrimmed ↔ v = 0 := by
  constructor
  · intro h
    have := Decimal.toStringTrimmed_inj h
    unfold ofU128 at this
    dsimp only at this
    split at this <;> omega
  · rintro rfl
    decide +kernel

/-- A candle that tells of the trades of its bucket: they have no size, and one price at both
ends. The trades were visited newest first. -/
theorem flat_of_tells {c : Candle} (hheld : bucket.Holds trades.reverse)
    (hc : candle ms (b, bucket) = .ok c) (htells : c.Tells ms trades) :
    (∀ t ∈ trades, t.size = 0 ∧ t.price < 2 ^ 127) ∧
      trades.head?.map (·.price) = trades.getLast?.map (·.price) := by
  obtain ⟨-, ⟨-, hhigh, -, -, -⟩, rfl⟩ := candle_eq_ok.mp hc
  -- the high is an `i128`, and all prices are below it
  have hprices : ∀ t ∈ trades, t.price < 2 ^ 127 := by
    obtain ⟨top, -, htext, htop⟩ := htells.high
    have hh : bucket.h = top.price := priceText_eq htext
    have hlt := hhigh.2
    have hle := le_abs_self bucket.h
    intro t ht
    have := htop t ht
    dsimp only at hlt
    omega
  have hsum : (trades.map (·.size)).sum = 0 := by
    have hv : bucket.v = (trades.map (·.size)).sum := by
      rw [hheld.v, List.map_reverse, List.sum_reverse]
    have hvolume := htells.volume
    dsimp only at hvolume
    rw [← hv] at hvolume ⊢
    exact (volumeText_iff hheld.fits).mp hvolume
  refine ⟨fun t ht => ⟨?_, hprices t ht⟩, ?_⟩
  · have := List.single_le_sum (fun _ _ => Nat.zero_le _) _ (List.mem_map_of_mem ht)
      (l := trades.map (·.size))
    omega
  · obtain ⟨first, hfirst, htext⟩ := htells.opens
    obtain ⟨latest, hlatest, ho⟩ := hheld.o
    rw [List.head?_reverse] at hlatest
    have hlt := hprices latest (List.mem_of_getLast? hlatest)
    have ho' : bucket.o = first.price := priceText_eq htext
    rw [ho, ofU128_of_lt hlt] at ho'
    rw [hfirst, hlatest]
    simp only [Option.map_some, Option.some.injEq]
    omega

/-- Such trades make a candle that tells of them. -/
theorem tells_of_flat (hheld : bucket.Holds trades.reverse) (hend : b + ms < 2 ^ 64)
    (htrades : ∀ t ∈ trades, t.size = 0 ∧ t.price < 2 ^ 127)
    (hends : trades.head?.map (·.price) = trades.getLast?.map (·.price)) :
    ∃ c, candle ms (b, bucket) = .ok c ∧ c.Tells ms trades := by
  have hrange : ∀ t ∈ trades, InRange |ofU128 t.price| := by
    intro t ht
    have hlt := (htrades t ht).2
    rw [ofU128_of_lt hlt, Nat.abs_cast]
    unfold InRange
    omega
  have hraw : ∀ t ∈ trades, ofU128 t.price = t.price := fun t ht => ofU128_of_lt (htrades t ht).2
  have hsum : (trades.map (·.size)).sum = 0 := by
    refine List.sum_eq_zero fun x hx => ?_
    obtain ⟨t, ht, rfl⟩ := List.mem_map.mp hx
    exact (htrades t ht).1
  have hv : bucket.v = 0 := by rw [hheld.v, List.map_reverse, List.sum_reverse, hsum]
  obtain ⟨latest, hlatest, ho⟩ := hheld.o
  obtain ⟨first, hfirst, hc⟩ := hheld.c
  obtain ⟨⟨top, htop, hh⟩, hhigh⟩ := hheld.h
  obtain ⟨⟨bottom, hbottom, hl⟩, hlow⟩ := hheld.l
  rw [List.head?_reverse] at hlatest
  rw [List.getLast?_reverse] at hfirst
  simp only [List.mem_reverse] at htop hhigh hbottom hlow
  have hmem : latest ∈ trades := List.mem_of_getLast? hlatest
  have hmem' : first ∈ trades := List.mem_of_head? hfirst
  -- what the loop takes for the two ends is one price
  have hsame : first.price = latest.price := by
    rw [hfirst, hlatest] at hends
    simpa using hends
  refine ⟨_, candle_eq_ok.mpr ⟨hend, ⟨ho ▸ hrange latest hmem, hh ▸ hrange top htop,
    hl ▸ hrange bottom hbottom, hc ▸ hrange first hmem', ?_⟩, rfl⟩, ?_⟩
  · dsimp only
    rw [hv]
    decide
  · exact {
      stop := rfl
      opens := ⟨first, hfirst, by
        dsimp only
        rw [ho, hraw latest hmem, ← hsame]
        rfl⟩
      closes := ⟨latest, hlatest, by
        dsimp only
        rw [hc, hraw first hmem', hsame]
        rfl⟩
      high := ⟨top, htop, by
        dsimp only
        rw [hh, hraw top htop]
        rfl, fun t ht => by
        have := hhigh t ht
        rw [hh, hraw t ht, hraw top htop] at this
        exact_mod_cast this⟩
      low := ⟨bottom, hbottom, by
        dsimp only
        rw [hl, hraw bottom hbottom]
        rfl, fun t ht => by
        have := hlow t ht
        rw [hl, hraw t ht, hraw bottom hbottom] at this
        exact_mod_cast this⟩
      volume := by
        dsimp only
        rw [hsum]
        exact (volumeText_iff (hv ▸ hheld.fits)).mpr hv |>.trans (by rw [hv])
      count := by
        dsimp only
        rw [hheld.n, List.length_reverse] }

end Texts

/-- The recorded trades of a market within the window of a request, oldest first. -/
def windowOf (s : EngineState) (m : MarketId) (startTime endTime : Option Nat) (now : Nat) :
    List Fill :=
  ((s.recentTrades[m]?).getD []).filter
    (Within (windowStart startTime now) (endTime.getD now) ·)

section Snapshot

variable {s : EngineState} {m : MarketId} {interval : String} {ms : Nat}
  {startTime endTime : Option Nat} {now : Nat}

/-- A history of at most 500 trades is handed out whole, backwards. -/
theorem getRecentTrades_all (h : ((s.recentTrades[m]?).getD []).length ≤ 500) :
    s.getRecentTrades m (some 500) = ((s.recentTrades[m]?).getD []).reverse := by
  unfold EngineState.getRecentTrades EngineState.newest
  rw [Option.getD_some, Nat.min_eq_right h]
  exact List.take_of_length_le (by simp)

theorem visitedFor_reverse {start stop : Nat} (trades : List Fill) (b : Nat) :
    visitedFor ms start stop trades.reverse b =
      ((trades.filter (Within start stop ·)).filter (bucketOf ms · = b)).reverse := by
  unfold visitedFor
  rw [List.filter_reverse, List.filter_reverse]

/-- Trades without size are summed up without overflow. -/
theorem visits_ok {start stop : Nat} {trades : List Fill}
    (h : ∀ t ∈ trades, Within start stop t → t.size = 0) :
    ∃ buckets, trades.foldlM (visit ms start stop) ∅ = .ok buckets := by
  induction trades using List.reverseRecOn with
  | nil => exact ⟨∅, rfl⟩
  | append_singleton trades t ih =>
    obtain ⟨before, hbefore⟩ := ih fun t ht => h t (List.mem_append_left _ ht)
    rw [List.foldlM_append, hbefore, ok_bind]
    simp only [List.foldlM_cons, List.foldlM_nil]
    by_cases hin : Within start stop t
    · have hadd : ∃ b, Bucket.add before[bucketOf ms t]? t = .ok b := by
        have hkept := visits_kept hbefore (bucketOf ms t)
        have hempty : (before[bucketOf ms t]?.getD ⟨ofU128 t.price, ofU128 t.price,
            ofU128 t.price, ofU128 t.price, 0, 0⟩).v = 0 := by
          cases hb : before[bucketOf ms t]? with
          | none => rfl
          | some b =>
            rw [hb] at hkept
            rw [Option.getD_some, hkept.v]
            refine List.sum_eq_zero fun x hx => ?_
            obtain ⟨u, hu, rfl⟩ := List.mem_map.mp hx
            obtain ⟨hu, -⟩ := List.mem_filter.mp hu
            obtain ⟨hu, hwithin⟩ := List.mem_filter.mp hu
            exact h u (List.mem_append_left _ hu) (by simpa using hwithin)
        refine ⟨_, bind_eq_ok.mpr ⟨_, u128_eq_ok.mpr ⟨?_, rfl⟩, rfl⟩⟩
        rw [hempty, h t (by simp) hin]
        decide
      obtain ⟨b, hb⟩ := hadd
      refine ⟨before.insert (bucketOf ms t) b, ?_⟩
      unfold visit
      rw [if_neg (by simpa using hin), hb]
      rfl
    · refine ⟨before, ?_⟩
      unfold visit
      rw [if_pos hin]
      rfl

theorem candles_ok {rows : List (Nat × Bucket)} (h : ∀ row ∈ rows, ∃ c, candle ms row = .ok c) :
    ∃ candles, rows.mapM (candle ms) = .ok candles := by
  induction rows with
  | nil => exact ⟨[], rfl⟩
  | cons row rows ih =>
    obtain ⟨c, hc⟩ := h row (.head _)
    obtain ⟨candles, hcandles⟩ := ih fun row hrow => h row (.tail _ hrow)
    exact ⟨c :: candles, mapM_cons_eq_ok.mpr ⟨c, hc, candles, hcandles, rfl⟩⟩

/-- What a request returns. -/
theorem candleSnapshot_eq_ok {candles : List Candle} (hms : intervalMs interval = some ms)
    (hlen : ((s.recentTrades[m]?).getD []).length ≤ 500) :
    candleSnapshot s m interval startTime endTime now = .ok (.ok candles) ↔
      ∃ buckets, ((s.recentTrades[m]?).getD []).reverse.foldlM
          (visit ms (windowStart startTime now) (endTime.getD now)) ∅ = .ok buckets ∧
        buckets.toList.mapM (candle ms) = .ok candles := by
  unfold candleSnapshot
  simp only [hms, getRecentTrades_all hlen, bind_eq_ok, pure_eq_ok, Except.ok.injEq,
    exists_eq_right]

/-- **Candles.** For a history of at most 500 trades, any interval and any window: the candles are
there and exact if and only if the window is flat. Trades come newest first, so open and close are
exchanged, and volumes lose two places in print. -/
theorem candles_exact_iff (hms : intervalMs interval = some ms)
    (hlen : ((s.recentTrades[m]?).getD []).length ≤ 500) :
    (∃ candles, candleSnapshot s m interval startTime endTime now = .ok (.ok candles) ∧
      Exact ms (windowOf s m startTime endTime now) candles) ↔
    Flat ms (windowOf s m startTime endTime now) := by
  have hfor : ∀ b, visitedFor ms (windowStart startTime now) (endTime.getD now)
      ((s.recentTrades[m]?).getD []).reverse b =
        ((windowOf s m startTime endTime now).filter (bucketOf ms · = b)).reverse :=
    visitedFor_reverse _
  constructor
  · intro ⟨candles, hsnapshot, hexact⟩
    obtain ⟨buckets, hbuckets, hcandles⟩ := (candleSnapshot_eq_ok hms hlen).mp hsnapshot
    have hone : ∀ b, (∃ t ∈ windowOf s m startTime endTime now, bucketOf ms t = b) →
        b + ms < 2 ^ 64 ∧
        (∀ t ∈ (windowOf s m startTime endTime now).filter (bucketOf ms · = b),
          t.size = 0 ∧ t.price < 2 ^ 127) ∧
        ((windowOf s m startTime endTime now).filter (bucketOf ms · = b)).head?.map (·.price) =
          ((windowOf s m startTime endTime now).filter (bucketOf ms · = b)).getLast?.map
            (·.price) := by
      intro b hb
      obtain ⟨c, hc, hcb⟩ := List.mem_map.mp ((hexact.buckets b).mpr hb)
      obtain ⟨⟨b', bucket⟩, hrow, hcandle⟩ := (mapM_mem hcandles).1 c hc
      have htells := hexact.tells c hc
      obtain ⟨hend, -, hceq⟩ := candle_eq_ok.mp hcandle
      obtain rfl : b' = b := by rw [← hcb, hceq]
      have hkept := visits_kept hbuckets b'
      rw [FinMap.mem_toList.mp hrow, hfor] at hkept
      rw [hcb] at htells
      exact ⟨hend, flat_of_tells hkept hcandle htells⟩
    refine ⟨fun t ht => ?_, fun b => ?_⟩
    · obtain ⟨hend, hall, -⟩ := hone (bucketOf ms t) ⟨t, ht, rfl⟩
      obtain ⟨hsize, hprice⟩ := hall t (List.mem_filter.mpr ⟨ht, by simp⟩)
      exact ⟨hsize, hprice, hend⟩
    · by_cases hb : ∃ t ∈ windowOf s m startTime endTime now, bucketOf ms t = b
      · exact (hone b hb).2.2
      · have hnil : (windowOf s m startTime endTime now).filter (bucketOf ms · = b) = [] := by
          rw [List.filter_eq_nil_iff]
          intro t ht hbt
          exact hb ⟨t, ht, by simpa using hbt⟩
        rw [hnil]
        rfl
  · intro ⟨htrades, hends⟩
    have hvisits : ∃ buckets, ((s.recentTrades[m]?).getD []).reverse.foldlM
        (visit ms (windowStart startTime now) (endTime.getD now)) ∅ = .ok buckets :=
      visits_ok fun t ht hin =>
        (htrades t (List.mem_filter.mpr ⟨List.mem_reverse.mp ht, by simpa using hin⟩)).1
    obtain ⟨buckets, hbuckets⟩ := hvisits
    have hrow : ∀ row ∈ buckets.toList, ∃ c, candle ms row = .ok c ∧
        c.Tells ms ((windowOf s m startTime endTime now).filter (bucketOf ms · = row.1)) := by
      intro ⟨b, bucket⟩ hrow
      have hget := FinMap.mem_toList.mp hrow
      have hkept := visits_kept hbuckets b
      rw [hget, hfor] at hkept
      have hne := (bucket_iff hbuckets b).mp ⟨bucket, hget⟩
      rw [hfor] at hne
      obtain ⟨t, ht⟩ := List.exists_mem_of_ne_nil _ hne
      obtain ⟨ht, hbt⟩ := List.mem_filter.mp (List.mem_reverse.mp ht)
      have hbt : bucketOf ms t = b := by simpa using hbt
      refine tells_of_flat hkept (hbt ▸ (htrades t ht).2.2) (fun u hu => ?_) (hends b)
      obtain ⟨hsize, hprice, -⟩ := htrades u (List.mem_filter.mp hu).1
      exact ⟨hsize, hprice⟩
    obtain ⟨candles, hcandles⟩ := candles_ok fun row hr => (hrow row hr).imp fun c hc => hc.1
    have hstarts := candles_starts hcandles
    refine ⟨candles, (candleSnapshot_eq_ok hms hlen).mpr ⟨buckets, hbuckets, hcandles⟩, {
      nodup := hstarts ▸ FinMap.nodup_keys buckets
      buckets := fun b => ?_
      tells := fun c hc => ?_ }⟩
    · have hkeys : b ∈ candles.map (·.t) ↔ ∃ bucket, buckets[b]? = some bucket := by
        rw [hstarts, List.mem_map]
        constructor
        · intro ⟨row, hrow, hb⟩
          exact ⟨row.2, hb ▸ FinMap.mem_toList.mp hrow⟩
        · intro ⟨bucket, hget⟩
          exact ⟨(b, bucket), FinMap.mem_toList.mpr hget, rfl⟩
      rw [hkeys, bucket_iff hbuckets, hfor, ne_eq, List.reverse_eq_nil_iff,
        List.filter_eq_nil_iff]
      simp
    · obtain ⟨row, hr, hcandle⟩ := (mapM_mem hcandles).1 c hc
      obtain ⟨c', hc', htells⟩ := hrow row hr
      obtain rfl := ok_unique hcandle hc'
      have ht : c.t = row.1 := by
        obtain ⟨-, -, rfl⟩ := candle_eq_ok.mp hcandle
        rfl
      rw [ht]
      exact htells

end Snapshot

/-- Two trades in the second minute, of 0.1 BTC each, at 65000 and then at 66000. -/
def twoTrades : Exec Engine :=
  Engine.btcRun none [
    .deposit 1 20000000000,
    .deposit 2 20000000000,
    .placeOrder 2 (Engine.limitOrder .sell .gtc 6500000000000 10000000) 5,
    .placeOrder 1 (Engine.limitOrder .buy .gtc 6500000000000 10000000) 60000,
    .placeOrder 2 (Engine.limitOrder .sell .gtc 6600000000000 10000000) 60500,
    .placeOrder 1 (Engine.limitOrder .buy .gtc 6600000000000 10000000) 61000]

/-- Asked for the time after both trades, the request has no candles to show. -/
theorem candles_exact_after : ∃ (e : Engine) (candles : List Candle), Engine.Reachable e ∧
    ((e.state.recentTrades[(0 : MarketId)]?).getD []).length = 2 ∧
    candleSnapshot e.state 0 "1m" (some 120000) none 150000 = .ok (.ok candles) ∧
    Exact 60000 (windowOf e.state 0 (some 120000) none 150000) candles := by
  obtain ⟨e, he, htest⟩ := exists_of_test (x := twoTrades)
    (p := fun e => decide (((e.state.recentTrades[(0 : MarketId)]?).getD []).length = 2 ∧
      windowOf e.state 0 (some 120000) none 150000 = [])) (by decide +kernel)
  obtain ⟨hlen, hwindow⟩ := of_decide_eq_true htest
  have hflat : Flat 60000 (windowOf e.state 0 (some 120000) none 150000) := by
    rw [hwindow]
    exact ⟨by simp, fun _ => rfl⟩
  have hminute : intervalMs "1m" = some 60000 := by decide
  obtain ⟨candles, hcandles, hexact⟩ :=
    (candles_exact_iff hminute (hlen.trans_le (by decide))).mpr hflat
  exact ⟨e, candles, Engine.btcRun_reachable he, hlen, hcandles, hexact⟩

/-- The candle of the two trades opens at 66000 and closes at 65000, and has a volume of 20. -/
theorem candle_swaps_ends : ∃ (e : Engine) (first last : Fill), Engine.Reachable e ∧
    (e.state.recentTrades[(0 : MarketId)]?).getD [] = [first, last] ∧
    first.price = 6500000000000 ∧ last.price = 6600000000000 ∧
    first.timestamp = 60000 ∧ last.timestamp = 61000 ∧ first.size + last.size = 20000000 ∧
    candleSnapshot e.state 0 "1m" (some 0) (some 120000) 0 = .ok (.ok [
      { t := 60000, T := 119999, o := "66000", h := "66000", l := "65000", c := "65000",
        v := "20", n := 2 }]) ∧
    priceText first.price = "65000" ∧
    (⟨20000000, 8⟩ : Decimal).toStringTrimmed = "0.2" := by
  obtain ⟨e, he, htest⟩ := exists_of_test (x := twoTrades)
    (p := fun e => decide (((e.state.recentTrades[(0 : MarketId)]?).getD []).map
        (fun t => (t.price, t.timestamp, t.size)) =
          [(6500000000000, 60000, 10000000), (6600000000000, 61000, 10000000)] ∧
      candleSnapshot e.state 0 "1m" (some 0) (some 120000) 0 = .ok (.ok [
        { t := 60000, T := 119999, o := "66000", h := "66000", l := "65000", c := "65000",
          v := "20", n := 2 }]))) (by decide +kernel)
  obtain ⟨htrades, hcandles⟩ := of_decide_eq_true htest
  obtain ⟨first, rest, hall, hfirst, hrest⟩ := List.map_eq_cons_iff.mp htrades
  obtain ⟨last, rest', rfl, hlast, hnil⟩ := List.map_eq_cons_iff.mp hrest
  obtain rfl := List.map_eq_nil_iff.mp hnil
  simp only [Prod.mk.injEq] at hfirst hlast
  obtain ⟨hprice, htime, hsize⟩ := hfirst
  obtain ⟨hprice', htime', hsize'⟩ := hlast
  refine ⟨e, first, last, Engine.btcRun_reachable he, hall, hprice, hprice', htime, htime', ?_,
    hcandles, ?_, by decide +kernel⟩
  · rw [hsize, hsize']
  · rw [hprice]
    decide +kernel

end Gateway

end Hypercore

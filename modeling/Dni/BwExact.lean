import Dni.Assessor
import Dni.Lib.Loops

namespace Dni.Dms

open Words

/-- The utilisation of a device in percent, in unbounded integers. -/
def utilisation (bytes speed : Nat) : Nat := 100 * (bytes * 8 / 2 ^ 20) / speed

/-- The bits and marks of one device say whether its utilisation reaches the threshold. -/
structure DeviceRight (data : GoMap String UInt64) (speed : UInt64) (th : BwUtilThreshold) (d : DeviceStatus) :
    Prop where
  rx : Has d.status bwRxBpsHigh ↔
    th.bps.toInt ≤ utilisation (counter data nicRxBytes).toNat speed.toNat
  rxMark : d.marks.lookup nicRxBytes = some true ↔
    th.bps.toInt ≤ utilisation (counter data nicRxBytes).toNat speed.toNat
  tx : Has d.status bwTxBpsHigh ↔
    th.bps.toInt ≤ utilisation (counter data nicTxBytes).toNat speed.toNat
  txMark : d.marks.lookup nicTxBytes = some true ↔
    th.bps.toInt ≤ utilisation (counter data nicTxBytes).toNat speed.toNat

/-- In every order the loop ends, with the right bits for each device, all of them together in the
aggregate, and the same marks. -/
def AssessesBandwidth (bw : GoMap String (GoMap String UInt64)) (speed : GoMap String UInt64)
    (th : BwUtilThreshold) : Prop :=
  ∃ device : String → DeviceStatus,
    (∀ dev data, bw.lookup dev = some data →
      calcDevice data (counter speed dev) th = some (device dev) ∧
        DeviceRight data (counter speed dev) th (device dev)) ∧
    ∀ ord, ∃ statusMap,
      calcBWUtil ord bw speed th = some (union (bw.keys.map fun dev => (device dev).status), statusMap) ∧
        ∀ dev, statusMap.lookup dev = (bw.lookup dev).map fun _ => (device dev).marks

/-- The least number of bytes at which a threshold is reached. -/
def reachBytes (bps speed : Nat) : Nat := (bps * speed + 99) / 100 * 2 ^ 17

/-- Cut to the 61 bits that are left of them, the bytes are on the same side of a level. -/
def SameSide (bytes level : Nat) : Prop := bytes < level ∨ level ≤ bytes % 2 ^ 61

/-- A device with a speed, a threshold that is not negative, and bytes that their cut does not move
below the threshold. -/
structure DeviceFits (data : GoMap String UInt64) (speed : UInt64) (th : BwUtilThreshold) : Prop where
  known : speed ≠ 0
  bps : 0 ≤ th.bps.toInt
  rx : SameSide (counter data nicRxBytes).toNat (reachBytes th.bps.toInt.toNat speed.toNat)
  tx : SameSide (counter data nicTxBytes).toNat (reachBytes th.bps.toInt.toNat speed.toNat)

section Utilisation

theorem le_utilisation_iff {bps bytes speed : Nat} (hs : 0 < speed) :
    bps ≤ utilisation bytes speed ↔ reachBytes bps speed ≤ bytes := by
  rw [utilisation, Nat.le_div_iff_mul_le hs, reachBytes]
  omega

theorem bpsUtil_eq (bytes : UInt64) {speed : UInt64} (hs : speed ≠ 0) :
    ∃ u, bpsUtil bytes speed = some u ∧ u.toNat = utilisation (bytes.toNat % 2 ^ 61) speed.toNat := by
  refine ⟨_, if_neg hs, ?_⟩
  have hmb : mb.toNat = 2 ^ 20 := by decide
  have height : (8 : UInt64).toNat = 8 := rfl
  have hcent : (100 : UInt64).toNat = 100 := rfl
  have hcut : (bytes * 8).toNat = bytes.toNat % 2 ^ 61 * 8 := by
    rw [UInt64.toNat_mul, height]
    omega
  have hhundred : (100 * (bytes * 8 / mb)).toNat = 100 * (bytes * 8 / mb).toNat := by
    apply mul_exact_iff.mpr
    rw [UInt64.toNat_div, hcut, hmb, hcent]
    omega
  rw [UInt64.toNat_div, hhundred, UInt64.toNat_div, hcut, hmb, utilisation]

/-- The comparison of words agrees with the one of integers exactly for a threshold that is not
negative and bytes that stay on their side of it. -/
theorem threshold_le_iff {bps : Int64} {bytes speed u : UInt64} (hs : speed ≠ 0) (hu : bpsUtil bytes speed = some u) :
    (bps.toUInt64 ≤ u ↔ bps.toInt ≤ utilisation bytes.toNat speed.toNat) ↔
      0 ≤ bps.toInt ∧ SameSide bytes.toNat (reachBytes bps.toInt.toNat speed.toNat) := by
  obtain ⟨u', hu', hvalue⟩ := bpsUtil_eq bytes hs
  cases Option.some.inj (hu.symm.trans hu')
  have hpos : 0 < speed.toNat := by
    apply Nat.pos_of_ne_zero
    intro h
    exact hs (UInt64.toNat_inj.mp h)
  have hconv : (bps.toUInt64.toNat : Int) = if 0 ≤ bps.toInt then bps.toInt else bps.toInt + 2 ^ 64 := by
    have hbits : bps.toInt = bps.toBitVec.toInt := rfl
    have hnat : bps.toUInt64.toNat = bps.toBitVec.toNat := rfl
    rw [hbits, hnat, BitVec.toInt_eq_toNat_cond]
    have := bps.toBitVec.isLt
    split <;> split <;> omega
  rw [UInt64.le_iff_toNat_le, hvalue]
  by_cases hneg : 0 ≤ bps.toInt
  · rw [if_pos hneg] at hconv
    obtain ⟨t, ht⟩ := Int.eq_ofNat_of_zero_le hneg
    have htu : bps.toUInt64.toNat = t := by omega
    rw [htu, ht, Nat.cast_le, le_utilisation_iff hpos, le_utilisation_iff hpos, Int.toNat_natCast, SameSide]
    have := Nat.mod_le bytes.toNat (2 ^ 61)
    omega
  · -- the threshold reads as a huge word, which no utilisation reaches, yet every one is above it
    rw [if_neg hneg] at hconv
    have hsmall : utilisation (bytes.toNat % 2 ^ 61) speed.toNat < 2 ^ 63 := by
      have := Nat.div_le_self (100 * (bytes.toNat % 2 ^ 61 * 8 / 2 ^ 20)) speed.toNat
      rw [utilisation]
      omega
    have hleast := bps.le_toInt
    apply iff_of_false
    · intro h
      have hreached := h.mpr (by omega)
      omega
    · exact fun h => hneg h.1

end Utilisation

section Devices

variable {data : GoMap String UInt64} {speed : UInt64} {th : BwUtilThreshold} {d : DeviceStatus}

@[simp] theorem has_mark {high : Bool} {flag f : BwUtil} {name : String} :
    Has (d.mark high flag name).status f ↔ Has d.status f ∨ high = true ∧ Has flag f := by
  cases high with
  | false => simp [DeviceStatus.mark]
  | true => simp [DeviceStatus.mark]

@[simp] theorem lookup_mark {high : Bool} {flag : BwUtil} {name k : String} :
    (d.mark high flag name).marks.lookup k = some true ↔
      d.marks.lookup k = some true ∨ high = true ∧ k = name := by
  cases high with
  | false => simp [DeviceStatus.mark]
  | true =>
    change (AList.insert name true d.marks).lookup k = some true ↔ _
    rw [GoMap.lookup_insert_if]
    by_cases hk : k = name
    · simp [hk]
    · simp [hk]

theorem calcDevice_spec (data : GoMap String UInt64) (th : BwUtilThreshold) (hs : speed ≠ 0) :
    ∃ d rx tx, calcDevice data speed th = some d ∧ bpsUtil (counter data nicRxBytes) speed = some rx ∧
      bpsUtil (counter data nicTxBytes) speed = some tx ∧
      (Has d.status bwRxBpsHigh ↔ th.bps.toUInt64 ≤ rx) ∧
      (d.marks.lookup nicRxBytes = some true ↔ th.bps.toUInt64 ≤ rx) ∧
      (Has d.status bwTxBpsHigh ↔ th.bps.toUInt64 ≤ tx) ∧
      (d.marks.lookup nicTxBytes = some true ↔ th.bps.toUInt64 ≤ tx) := by
  obtain ⟨rx, hrx, _⟩ := bpsUtil_eq (counter data nicRxBytes) hs
  obtain ⟨tx, htx, _⟩ := bpsUtil_eq (counter data nicTxBytes) hs
  have hlow : ∀ f, ¬ Has bwLow f := fun _ => not_has_zero
  have hrxbit : Has bwRxBpsHigh bwRxBpsHigh ∧ ¬ Has bwRxPpsHigh bwRxBpsHigh ∧
      ¬ Has bwTxBpsHigh bwRxBpsHigh ∧ ¬ Has bwTxPpsHigh bwRxBpsHigh := by decide
  have htxbit : ¬ Has bwRxBpsHigh bwTxBpsHigh ∧ ¬ Has bwRxPpsHigh bwTxBpsHigh ∧
      Has bwTxBpsHigh bwTxBpsHigh ∧ ¬ Has bwTxPpsHigh bwTxBpsHigh := by decide
  refine ⟨_, rx, tx, by rw [calcDevice, hrx, htx]; rfl, hrx, htx, ?_, ?_, ?_, ?_⟩
  · simp [hlow, hrxbit]
  · simp [nicRxBytes, nicRxPackets, nicTxBytes, nicTxPackets]
  · simp [hlow, htxbit]
  · simp [nicRxBytes, nicRxPackets, nicTxBytes, nicTxPackets]

theorem calcDevice_zero : calcDevice data 0 th = none := rfl

/-- A device is assessed right exactly if it fits. -/
theorem calcDevice_right_iff :
    (∃ d, calcDevice data speed th = some d ∧ DeviceRight data speed th d) ↔ DeviceFits data speed th := by
  by_cases hs : speed = 0
  · subst hs
    apply iff_of_false
    · intro ⟨d, hd, _⟩
      rw [calcDevice_zero] at hd
      cases hd
    · exact fun h => h.known rfl
  · obtain ⟨d, rx, tx, hd, hrx, htx, hrxbit, hrxmark, htxbit, htxmark⟩ := calcDevice_spec data th hs
    have hright : DeviceRight data speed th d ↔
        (th.bps.toUInt64 ≤ rx ↔ th.bps.toInt ≤ utilisation (counter data nicRxBytes).toNat speed.toNat) ∧
        (th.bps.toUInt64 ≤ tx ↔ th.bps.toInt ≤ utilisation (counter data nicTxBytes).toNat speed.toNat) := by
      apply Iff.intro
      · intro h
        exact ⟨hrxbit.symm.trans h.rx, htxbit.symm.trans h.tx⟩
      · intro ⟨hr, ht⟩
        exact ⟨hrxbit.trans hr, hrxmark.trans hr, htxbit.trans ht, htxmark.trans ht⟩
    rw [threshold_le_iff hs hrx, threshold_le_iff hs htx] at hright
    apply Iff.intro
    · intro ⟨d', hd', hr⟩
      cases Option.some.inj (hd.symm.trans hd')
      obtain ⟨⟨hbps, hrxfit⟩, _, htxfit⟩ := hright.mp hr
      exact ⟨hs, hbps, hrxfit, htxfit⟩
    · intro h
      exact ⟨d, hd, hright.mpr ⟨⟨h.bps, h.rx⟩, h.bps, h.tx⟩⟩

end Devices

section Loop

variable {bw : GoMap String (GoMap String UInt64)} {speed : GoMap String UInt64} {th : BwUtilThreshold}

theorem foldl_shape (device : String → DeviceStatus) (es : List (String × GoMap String UInt64)) (u : BwUtil)
    (m : GoMap String (GoMap String Bool)) :
    es.foldl (fun s e => (s.1 ||| (device e.1).status, s.2.insert e.1 (device e.1).marks)) (u, m) =
      (es.foldl (fun u e => u ||| (device e.1).status) u,
        es.foldl (fun m e => m.insert e.1 (device e.1).marks) m) := by
  induction es generalizing u m with
  | nil => rfl
  | cons e es ih => exact ih _ _

/-- Where every device has a status, the loop ends with their union and their marks. -/
theorem calcBWUtil_eq {device : String → DeviceStatus}
    (h : ∀ dev data, bw.lookup dev = some data → calcDevice data (counter speed dev) th = some (device dev))
    (ord : GoMap.Order String (GoMap String UInt64)) :
    ∃ statusMap,
      calcBWUtil ord bw speed th = some (union (bw.keys.map fun dev => (device dev).status), statusMap) ∧
        ∀ dev, statusMap.lookup dev = (bw.lookup dev).map fun _ => (device dev).marks := by
  have hround : ∀ e ∈ ord.run bw, ∀ s : BwUtil × GoMap String (GoMap String Bool),
      ((calcDevice e.2 (counter speed e.1) th).map fun d => (s.1 ||| d.status, s.2.insert e.1 d.marks)) =
        some (s.1 ||| (device e.1).status, s.2.insert e.1 (device e.1).marks) := by
    intro e he s
    rw [h e.1 e.2 (ord.mem_run.mp he), Option.map_some]
  have hkeys : (ord.run bw).map (fun e => (device e.1).status) =
      (ord.keys bw).map fun dev => (device dev).status := by
    rw [GoMap.Order.keys, List.map_map]
    rfl
  refine ⟨(ord.run bw).foldl (fun m e => m.insert e.1 (device e.1).marks) ∅, ?_, ?_⟩
  · refine (Loops.foldlM_eq_some hround (bwLow, ∅)).trans ?_
    rw [foldl_shape, foldl_or fun e : String × GoMap String UInt64 => (device e.1).status, hkeys,
      union_perm ((ord.keys_perm bw).map _), bwLow, UInt64.zero_or]
  · intro dev
    apply Option.ext
    intro marks
    have hsame : ∀ x ∈ ord.run bw, ∀ y ∈ ord.run bw, x.1 = y.1 → (device x.1).marks = (device y.1).marks :=
      fun x _ y _ hxy => by rw [hxy]
    rw [GoMap.lookup_foldl_insert hsame, Option.map_eq_some_iff]
    apply Iff.intro
    · intro hset
      obtain ⟨⟨x, data⟩, hx, rfl, hmarks⟩ | ⟨_, hnone⟩ := hset
      · exact ⟨data, ord.mem_run.mp hx, hmarks⟩
      · cases hnone
    · intro ⟨data, hdata, hmarks⟩
      exact Or.inl ⟨(dev, data), ord.mem_run.mpr hdata, rfl, hmarks⟩

end Loop

/-- The bandwidth is assessed right, whatever the order of the devices, exactly if every device fits. -/
theorem assessesBandwidth_iff (bw : GoMap String (GoMap String UInt64)) (speed : GoMap String UInt64)
    (th : BwUtilThreshold) :
    AssessesBandwidth bw speed th ↔
      ∀ dev data, bw.lookup dev = some data → DeviceFits data (counter speed dev) th := by
  apply Iff.intro
  · intro ⟨device, hdevice, _⟩ dev data hdata
    exact calcDevice_right_iff.mp ⟨device dev, hdevice dev data hdata⟩
  · intro h
    have hex : ∀ dev, ∃ d, ∀ data, bw.lookup dev = some data →
        calcDevice data (counter speed dev) th = some d ∧ DeviceRight data (counter speed dev) th d := by
      intro dev
      cases hl : bw.lookup dev with
      | none => exact ⟨{}, fun data hdata => by cases hdata⟩
      | some data =>
        obtain ⟨d, hd⟩ := calcDevice_right_iff.mpr (h dev data hl)
        refine ⟨d, fun data' hdata' => ?_⟩
        cases hdata'
        exact hd
    choose device hdevice using hex
    exact ⟨device, hdevice, calcBWUtil_eq fun dev data hdata => (hdevice dev data hdata).1⟩

/-- One device without traffic, whose speed is not known. -/
def unknownSpeed : GoMap String (GoMap String UInt64) := (∅ : GoMap String (GoMap String UInt64)).insert "eth0" ∅

/-- The missing speed is a divisor. -/
theorem unknownSpeed_panics :
    calcBWUtil .stored unknownSpeed ∅ ⟨80, 100⟩ = none ∧ ¬ AssessesBandwidth unknownSpeed ∅ ⟨80, 100⟩ := by
  have hpanic : calcBWUtil .stored unknownSpeed ∅ ⟨80, 100⟩ = none := rfl
  refine ⟨hpanic, ?_⟩
  intro ⟨_, _, hruns⟩
  obtain ⟨_, hruns, _⟩ := hruns .stored
  rw [hpanic] at hruns
  cases hruns

end Dni.Dms

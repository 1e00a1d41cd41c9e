import Dni.Assessor

namespace Dni.Dms

open Words

variable {F : Type} [FloatArith F] (data : GoMap String UInt64) (freq : UInt64) (pps : ProtoThreshold F)

/-- In unbounded integers the segments reach the threshold together with drops, cookies and resets. -/
def OtherFlood : Prop :=
  pps.getPPSThreshold "tcp" true * freq.toNat + (counter data "TcpExtTCPReqQFullDrop").toNat +
      (counter data "TcpExtTCPReqQFullDoCookies").toNat + (counter data "TcpOutRsts").toNat ≤
    ((counter data "TcpInSegs").toNat : Int)

/-- The conversion and the product of a threshold are exact. -/
structure ThresholdExact (proto : String) : Prop where
  conversion : ((UInt64.ofInt (pps.getPPSThreshold proto true)).toNat : Int) = pps.getPPSThreshold proto true
  product : (packetThreshold freq pps proto).toNat =
    (UInt64.ofInt (pps.getPPSThreshold proto true)).toNat * freq.toNat

/-- No operation of checkTcp and calcSnmpUtil wraps. The checks of ICMP and UDP are only made of
protocols that are not prohibited, and below the bound on the reverse path. -/
structure NoWrap (protoProhibit : GoMap String Bool) : Prop where
  reverse : (thReversePath * freq).toNat = thReversePath.toNat * freq.toNat
  tcp : ThresholdExact freq pps "tcp"
  sum : (counter data "TcpExtTCPReqQFullDrop" + counter data "TcpExtTCPReqQFullDoCookies").toNat =
    (counter data "TcpExtTCPReqQFullDrop").toNat + (counter data "TcpExtTCPReqQFullDoCookies").toNat
  total : (counter data "TcpExtTCPReqQFullDrop" + counter data "TcpExtTCPReqQFullDoCookies" +
      counter data "TcpOutRsts").toNat =
    (counter data "TcpExtTCPReqQFullDrop" + counter data "TcpExtTCPReqQFullDoCookies").toNat +
      (counter data "TcpOutRsts").toNat
  margin : ((counter data "TcpInSegs" - (counter data "TcpExtTCPReqQFullDrop" +
      counter data "TcpExtTCPReqQFullDoCookies" + counter data "TcpOutRsts")).toNat : Int) =
    (counter data "TcpInSegs").toNat - (counter data "TcpExtTCPReqQFullDrop" +
      counter data "TcpExtTCPReqQFullDoCookies" + counter data "TcpOutRsts").toNat
  others : ∀ proto ∈ ["icmp", "udp"], prohibited protoProhibit proto = false → reversePath data freq = false →
    ThresholdExact freq pps proto

/-- The bit for other floods says what the unbounded integers say, and nothing wraps on the way. -/
structure AssessesOthers (protoProhibit : GoMap String Bool) : Prop where
  check : Has (checkTcp data freq pps) protoTcpOthers ↔ OtherFlood data freq pps
  util : prohibited protoProhibit "tcp" = false →
    (counter data "TcpExtIPReversePathFilter").toNat ≤ 100000 * freq.toNat →
    (Has (calcSnmpUtil data freq pps protoProhibit) protoTcpOthers ↔ OtherFlood data freq pps)
  noWrap : NoWrap data freq pps protoProhibit

/-- A threshold that is not negative and stays a word when it is multiplied. -/
structure ThresholdFits (proto : String) : Prop where
  nonneg : 0 ≤ pps.getPPSThreshold proto true
  word : pps.getPPSThreshold proto true < 2 ^ 64
  product : pps.getPPSThreshold proto true * freq.toNat < 2 ^ 64

/-- The drops, cookies and resets are among the segments, and the products fit in a word. -/
structure CountersFit (protoProhibit : GoMap String Bool) : Prop where
  reverse : 100000 * freq.toNat < 2 ^ 64
  tcp : ThresholdFits freq pps "tcp"
  covered : (counter data "TcpExtTCPReqQFullDrop").toNat + (counter data "TcpExtTCPReqQFullDoCookies").toNat +
    (counter data "TcpOutRsts").toNat ≤ (counter data "TcpInSegs").toNat
  others : ∀ proto ∈ ["icmp", "udp"], prohibited protoProhibit proto = false →
    (counter data "TcpExtIPReversePathFilter").toNat ≤ 100000 * freq.toNat → ThresholdFits freq pps proto

variable {data : GoMap String UInt64} {freq : UInt64} {pps : ProtoThreshold F}

theorem thresholdExact_iff {proto : String} : ThresholdExact freq pps proto ↔ ThresholdFits freq pps proto := by
  have hproduct : (UInt64.ofInt (pps.getPPSThreshold proto true)).toNat = pps.getPPSThreshold proto true →
      ((packetThreshold freq pps proto).toNat =
          (UInt64.ofInt (pps.getPPSThreshold proto true)).toNat * freq.toNat ↔
        pps.getPPSThreshold proto true * freq.toNat < 2 ^ 64) := by
    intro hconv
    have hcast : (((UInt64.ofInt (pps.getPPSThreshold proto true)).toNat * freq.toNat : Nat) : Int) =
        pps.getPPSThreshold proto true * freq.toNat := by
      rw [Nat.cast_mul, hconv]
    rw [packetThreshold, mul_exact_iff]
    omega
  apply Iff.intro
  · intro h
    obtain ⟨hnonneg, hword⟩ := ofInt_exact_iff.mp h.conversion
    exact ⟨hnonneg, hword, (hproduct h.conversion).mp h.product⟩
  · intro h
    have hconv := ofInt_exact_iff.mpr ⟨h.nonneg, h.word⟩
    exact ⟨hconv, (hproduct hconv).mpr h.product⟩

/-- A threshold that fits is the exact product. -/
theorem ThresholdFits.toNat {proto : String} (h : ThresholdFits freq pps proto) :
    ((packetThreshold freq pps proto).toNat : Int) = pps.getPPSThreshold proto true * freq.toNat := by
  have hexact := thresholdExact_iff.mpr h
  rw [hexact.product, Nat.cast_mul, hexact.conversion]

theorem reversePath_eq_false_iff (h : 100000 * freq.toNat < 2 ^ 64) :
    reversePath data freq = false ↔ (counter data "TcpExtIPReversePathFilter").toNat ≤ 100000 * freq.toNat := by
  have hexact : (thReversePath * freq).toNat = 100000 * freq.toNat := mul_exact_iff.mpr h
  rw [reversePath, decide_eq_false_iff_not, UInt64.lt_iff_toNat_lt, hexact, Nat.not_lt]

@[simp] theorem not_has_protoNormal {f : SnmpUtil} : ¬ Has protoNormal f := not_has_zero

theorem has_checkTcp : Has (checkTcp data freq pps) protoTcpOthers ↔
    packetThreshold freq pps "tcp" ≤ counter data "TcpInSegs" - (counter data "TcpExtTCPReqQFullDrop" +
      counter data "TcpExtTCPReqQFullDoCookies" + counter data "TcpOutRsts") := by
  have hsyn1 : ¬ Has protoTcpSyn1 protoTcpOthers := by decide
  have hsyn2 : ¬ Has protoTcpSyn2 protoTcpOthers := by decide
  have hrst : ¬ Has protoTcpOutrst protoTcpOthers := by decide
  have hothers : Has protoTcpOthers protoTcpOthers := by decide
  simp [checkTcp, hsyn1, hsyn2, hrst, hothers]

theorem not_has_checkIcmp : ¬ Has (checkIcmp data freq pps) protoTcpOthers := by
  have hicmp : ¬ Has protoIcmp protoTcpOthers := by decide
  simp [checkIcmp, hicmp]

theorem not_has_checkUdp : ¬ Has (checkUdp data freq pps) protoTcpOthers := by
  have hopened : ¬ Has protoUdpOpened protoTcpOthers := by decide
  have hclosed : ¬ Has protoUdpClosed protoTcpOthers := by decide
  simp [checkUdp, hopened, hclosed]

/-- Only the check of TCP raises the bit while the reverse path stays within its bound. -/
theorem has_calcSnmpUtil {protoProhibit : GoMap String Bool} (htcp : prohibited protoProhibit "tcp" = false)
    (hrp : reversePath data freq = false) :
    Has (calcSnmpUtil data freq pps protoProhibit) protoTcpOthers ↔ Has (checkTcp data freq pps) protoTcpOthers := by
  simp [calcSnmpUtil, htcp, hrp, not_has_checkIcmp, not_has_checkUdp]

theorem noWrap_iff {protoProhibit : GoMap String Bool} :
    NoWrap data freq pps protoProhibit ↔ CountersFit data freq pps protoProhibit := by
  apply Iff.intro
  · intro h
    have hreverse : 100000 * freq.toNat < 2 ^ 64 := mul_exact_iff.mp h.reverse
    refine ⟨hreverse, thresholdExact_iff.mp h.tcp, ?_, ?_⟩
    · have hle := sub_exact_iff.mp h.margin
      rwa [h.total, h.sum] at hle
    · intro proto hproto hallowed hbound
      exact thresholdExact_iff.mp (h.others proto hproto hallowed ((reversePath_eq_false_iff hreverse).mpr hbound))
  · intro h
    have hsegs := (counter data "TcpInSegs").toNat_lt
    have hcovered := h.covered
    have hsum : (counter data "TcpExtTCPReqQFullDrop" + counter data "TcpExtTCPReqQFullDoCookies").toNat =
        (counter data "TcpExtTCPReqQFullDrop").toNat + (counter data "TcpExtTCPReqQFullDoCookies").toNat := by
      rw [add_exact_iff]
      omega
    have htotal : (counter data "TcpExtTCPReqQFullDrop" + counter data "TcpExtTCPReqQFullDoCookies" +
        counter data "TcpOutRsts").toNat =
        (counter data "TcpExtTCPReqQFullDrop" + counter data "TcpExtTCPReqQFullDoCookies").toNat +
          (counter data "TcpOutRsts").toNat := by
      rw [add_exact_iff]
      omega
    refine ⟨mul_exact_iff.mpr h.reverse, thresholdExact_iff.mpr h.tcp, hsum, htotal, ?_, ?_⟩
    · rw [sub_exact_iff, htotal, hsum]
      exact h.covered
    · intro proto hproto hallowed hrp
      exact thresholdExact_iff.mpr (h.others proto hproto hallowed ((reversePath_eq_false_iff h.reverse).mp hrp))

/-- Where nothing wraps, the comparison of words is the one of integers. -/
theorem has_checkTcp_iff {protoProhibit : GoMap String Bool} (h : CountersFit data freq pps protoProhibit) :
    Has (checkTcp data freq pps) protoTcpOthers ↔ OtherFlood data freq pps := by
  have hexact := noWrap_iff.mpr h
  have hth := h.tcp.toNat
  have hmargin := hexact.margin
  rw [hexact.total, hexact.sum] at hmargin
  rw [has_checkTcp, UInt64.le_iff_toNat_le, OtherFlood, ← hth]
  omega

/-- The bit for other TCP floods is right, without a wrapping operation, exactly for counters that fit. -/
theorem assessesOthers_iff {F : Type} [FloatArith F] (data : GoMap String UInt64) (freq : UInt64)
    (pps : ProtoThreshold F) (protoProhibit : GoMap String Bool) :
    AssessesOthers data freq pps protoProhibit ↔ CountersFit data freq pps protoProhibit := by
  apply Iff.intro
  · intro h
    exact noWrap_iff.mp h.noWrap
  · intro h
    refine ⟨has_checkTcp_iff h, ?_, noWrap_iff.mpr h⟩
    intro htcp hrp
    rw [has_calcSnmpUtil htcp ((reversePath_eq_false_iff h.reverse).mpr hrp)]
    exact has_checkTcp_iff h

/-- A snapshot in which one reset was sent and no segment came in. -/
def oneReset : GoMap String UInt64 := (∅ : GoMap String UInt64).insert "TcpOutRsts" 1

def tenPackets : ProtoThreshold ℚ := ⟨10, ∅, 0⟩

/-- The margin of minus one reads as the largest word, so a flood is reported. -/
theorem oneReset_misread : ¬ AssessesOthers oneReset 1 tenPackets ∅ := by
  intro h
  have hth : tenPackets.getPPSThreshold "tcp" true = 10 := by decide +kernel
  have hflagged : Has (checkTcp oneReset 1 tenPackets) protoTcpOthers := by
    rw [has_checkTcp, packetThreshold, hth]
    decide
  have hflood := h.check.mp hflagged
  rw [OtherFlood, hth] at hflood
  exact absurd hflood (by decide)

end Dni.Dms

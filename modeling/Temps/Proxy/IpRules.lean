import Mathlib.Data.List.Basic

namespace Temps.Proxy.IpRules

inductive IpAddr
  | v4 (bits : BitVec 32)
  | v6 (bits : BitVec 128)
deriving DecidableEq

namespace IpAddr

def width : IpAddr → ℕ
  | .v4 _ => 32
  | .v6 _ => 128

def toIpv4Mapped (bits : BitVec 128) : Option (BitVec 32) :=
  if bits.extractLsb' 32 96 = 0xffff#96 then some (bits.setWidth 32) else none

def normalize : IpAddr → IpAddr
  | .v6 bits => ((toIpv4Mapped bits).map v4).getD (.v6 bits)
  | ip => ip

/-- The address that a form of it stands for, in the 128 bits of its IPv6 form. -/
def address : IpAddr → BitVec 128
  | .v4 bits => 0xffff#96 ++ bits
  | .v6 bits => bits

end IpAddr

/-- A stored rule. The address keeps its host bits, and a rule without a slash has no prefix. -/
structure Rule where
  ip : IpAddr
  prefixLen : Option ℕ
  valid : ∀ p ∈ prefixLen, p ≤ ip.width

/-- The parsed rule of the `ipnetwork` crate, where a lone address is a network of one. -/
structure IpNetwork where
  ip : IpAddr
  prefixLen : ℕ

def Rule.network (rule : Rule) : IpNetwork := ⟨rule.ip, rule.prefixLen.getD rule.ip.width⟩

def IpNetwork.hostBits (net : IpNetwork) : ℕ := net.ip.width - net.prefixLen

def IpNetwork.contains (net : IpNetwork) (ip : IpAddr) : Bool :=
  match net.ip, ip with
  | .v4 bits, .v4 ip => ip >>> net.hostBits == bits >>> net.hostBits
  | .v6 bits, .v6 ip => ip >>> net.hostBits == bits >>> net.hostBits
  | _, _ => false

def ipListed (entries : List Rule) (ip : IpAddr) : Bool :=
  entries.any fun entry ↦
    match entry.prefixLen with
    | some _ => entry.network.contains ip
    | none => entry.ip.normalize == ip

def blacklisted (blacklist : List Rule) (ip : IpAddr) : Bool := ipListed blacklist ip.normalize

def parseCidr (ip : IpAddr) (prefixLen : ℕ) : Option (IpAddr × ℕ) :=
  if ip.width < prefixLen then none else some (ip, prefixLen)

def bitsInCidr {w : ℕ} (ip net : BitVec w) (prefixLen : ℕ) : Bool :=
  if prefixLen = 0 then true
  else
    let mask := BitVec.allOnes w <<< (w - prefixLen)
    (ip &&& mask) == (net &&& mask)

def ipInCidr (ip net : IpAddr) (prefixLen : ℕ) : Bool :=
  match ip, net with
  | .v4 ip, .v4 net => bitsInCidr ip net prefixLen
  | .v6 ip, .v6 net => bitsInCidr ip net prefixLen
  | _, _ => false

structure TcpConnectionFilter where
  blockedIps : List IpAddr
  blockedCidrs : List (IpAddr × ℕ)

def refreshCache (rules : List Rule) : TcpConnectionFilter where
  blockedIps := rules.filterMap fun rule ↦ if rule.prefixLen.isNone then some rule.ip else none
  blockedCidrs := rules.filterMap fun rule ↦ rule.prefixLen.bind (parseCidr rule.ip)

def TcpConnectionFilter.isIpBlocked (filter : TcpConnectionFilter) (ip : IpAddr) : Bool :=
  filter.blockedIps.contains ip || filter.blockedCidrs.any fun cidr ↦ ipInCidr ip cidr.1 cidr.2

def refreshBlocklist (rules : List Rule) : List IpNetwork := rules.map Rule.network

def isBlocked (blocklist : List IpNetwork) (ip : IpAddr) : Bool :=
  blocklist.any fun network ↦ network.contains ip

def Rule.Covers (rule : Rule) (address : BitVec 128) : Prop :=
  address >>> rule.network.hostBits = rule.ip.address >>> rule.network.hostBits

instance (rule : Rule) (address : BitVec 128) : Decidable (rule.Covers address) :=
  inferInstanceAs (Decidable (_ = _))

def Ipv4Mapped (address : BitVec 128) : Prop := address.extractLsb' 32 96 = 0xffff#96

open IpAddr IpNetwork Rule TcpConnectionFilter

variable {rule : Rule} {ip : IpAddr} {a : BitVec 128}

theorem shift_eq_iff {w k : ℕ} {a b : BitVec w} :
    a >>> k = b >>> k ↔ ∀ i, k ≤ i → a.getLsbD i = b.getLsbD i := by
  refine ⟨fun h i hi ↦ ?_, fun h ↦ BitVec.eq_of_getLsbD_eq fun i _ ↦ ?_⟩
  · obtain ⟨j, rfl⟩ := Nat.exists_eq_add_of_le hi
    simpa only [BitVec.getLsbD_ushiftRight] using congrArg (·.getLsbD j) h
  · simpa only [BitVec.getLsbD_ushiftRight] using h (k + i) (Nat.le_add_right k i)

theorem bitsInCidr_iff {w p : ℕ} {ip net : BitVec w} :
    bitsInCidr ip net p ↔ ip >>> (w - p) = net >>> (w - p) := by
  rw [bitsInCidr, shift_eq_iff]
  split
  · grind
  · rw [beq_iff_eq]
    constructor
    · intro h i hi
      have := congrArg (·.getLsbD i) h
      grind
    · grind

theorem shift_append {a b : BitVec 32} {k : ℕ} :
    (0xffff#96 ++ a) >>> k = (0xffff#96 ++ b) >>> k ↔ a >>> k = b >>> k := by
  simp only [shift_eq_iff]
  grind

theorem mapped_eq (h : Ipv4Mapped a) : 0xffff#96 ++ a.setWidth 32 = a := by
  rw [← h]
  grind

theorem normalize_v6 (ip : IpAddr) : (v6 ip.address).normalize = ip.normalize := by
  cases ip with
  | v6 bits => rfl
  | v4 bits =>
    have hmapped : toIpv4Mapped (0xffff#96 ++ bits) = some bits :=
      (if_pos BitVec.extractLsb'_append_eq_left).trans
        (congrArg some BitVec.setWidth_append_eq_right)
    rw [address, IpAddr.normalize, hmapped]
    rfl

theorem address_normalize (ip : IpAddr) : ip.normalize.address = ip.address := by
  cases ip with
  | v4 bits => rfl
  | v6 bits =>
    rw [IpAddr.normalize, toIpv4Mapped]
    split
    · exact mapped_eq ‹_›
    · rfl

theorem normalize_eq_iff {other : IpAddr} :
    ip.normalize = other.normalize ↔ other.address = ip.address := by
  refine ⟨fun h ↦ ?_, fun h ↦ ?_⟩
  · rw [← address_normalize, ← h, address_normalize]
  · rw [← normalize_v6, ← h, normalize_v6]

theorem width_of_not_mapped (h : ¬ Ipv4Mapped ip.address) : ip.width = 128 := by
  cases ip with
  | v4 bits => exact absurd BitVec.extractLsb'_append_eq_left h
  | v6 bits => rfl

theorem width_of_covers (h : rule.Covers a) (hmapped : ¬ Ipv4Mapped a) : rule.ip.width = 128 := by
  obtain ⟨net, p, hp⟩ := rule
  cases net with
  | v6 bits => rfl
  | v4 bits =>
    -- the prefix of an IPv4 rule includes the 96 bits that mark a mapped address
    have heq : a.extractLsb' 32 96 = (0xffff#96 ++ bits).extractLsb' 32 96 := by
      ext i hi
      rw [BitVec.getElem_extractLsb', BitVec.getElem_extractLsb']
      exact shift_eq_iff.mp h (32 + i) (Nat.le_add_right_of_le (Nat.sub_le ..))
    exact absurd (heq.trans BitVec.extractLsb'_append_eq_left) hmapped

theorem contains_iff {net : IpNetwork} :
    net.contains ip ↔ ip.width = net.ip.width ∧
      ip.address >>> net.hostBits = net.ip.address >>> net.hostBits := by
  obtain ⟨net, p⟩ := net
  cases net <;> cases ip <;> simp [contains, width, address, shift_append]

theorem ipInCidr_iff {net : IpAddr} {p : ℕ} :
    ipInCidr ip net p ↔ (IpNetwork.mk net p).contains ip := by
  cases ip <;> cases net <;> simp [ipInCidr, contains, bitsInCidr_iff, hostBits, width]

theorem isBlocked_iff :
    isBlocked (refreshBlocklist [rule]) ip ↔ ip.width = rule.ip.width ∧ rule.Covers ip.address := by
  simp [isBlocked, refreshBlocklist, contains_iff, Covers, network]

theorem isIpBlocked_iff :
    (refreshCache [rule]).isIpBlocked ip ↔ isBlocked (refreshBlocklist [rule]) ip := by
  rw [isBlocked, refreshBlocklist, isIpBlocked, refreshCache]
  obtain ⟨net, p, hp⟩ := rule
  cases p with
  | none => cases net <;> cases ip <;> simp [network, contains, hostBits]
  | some p =>
    have hparse : parseCidr net p = some (net, p) := if_neg (Nat.not_lt.mpr (hp p rfl))
    simp [hparse, ipInCidr_iff, network]

theorem blacklisted_iff :
    blacklisted [rule] ip ↔
      (rule.prefixLen = none ∨ ip.normalize.width = rule.ip.width) ∧ rule.Covers ip.address := by
  rw [blacklisted, ipListed, Covers]
  obtain ⟨net, p, hp⟩ := rule
  cases p with
  | none => simp [normalize_eq_iff, network, hostBits]
  | some p => simp [contains_iff, address_normalize, network]

/-- Only IPv4 clients are told apart by notation, and they are as soon as the rule covers them. -/
theorem matched_by_address_iff (rule : Rule) (client : IpAddr) :
    (∀ form : IpAddr, form.address = client.address →
      (blacklisted [rule] form ↔ rule.Covers client.address) ∧
      ((refreshCache [rule]).isIpBlocked form ↔ rule.Covers client.address) ∧
      (isBlocked (refreshBlocklist [rule]) form ↔ rule.Covers client.address)) ↔
    (Ipv4Mapped client.address → ¬ rule.Covers client.address) := by
  constructor
  · intro hagree hmapped hcovers
    -- the rule has the width of one of the two forms only
    have hwidth (form : IpAddr) (h : form.address = client.address) : form.width = rule.ip.width :=
      (isBlocked_iff.mp ((hagree form h).2.2.mpr hcovers)).1
    have hv4 := hwidth (v4 (client.address.setWidth 32)) (mapped_eq hmapped)
    exact nomatch (hv4.trans (hwidth (v6 client.address) rfl).symm : 32 = 128)
  · intro hclient form hform
    rw [isIpBlocked_iff, blacklisted_iff, isBlocked_iff, hform]
    have hwidth (h : rule.Covers client.address) (ip : IpAddr) (hip : ip.address = client.address) :
        ip.width = rule.ip.width := by
      have hmapped : ¬ Ipv4Mapped client.address := fun hmapped ↦ hclient hmapped h
      rw [width_of_covers h hmapped, width_of_not_mapped (hip ▸ hmapped)]
    have hsame := and_iff_right_of_imp fun h ↦ hwidth h form hform
    refine ⟨and_iff_right_of_imp fun h ↦ .inr (hwidth h _ ?_), hsame, hsame⟩
    exact (address_normalize form).trans hform

/-- Clients of the blocked `10.0.0.0/8` pass as `::ffff:10.0.0.1`. -/
theorem mapped_client_passes :
    let rule : Rule := ⟨v4 0x0a000000, some 8, by decide⟩
    let client := v6 0xffff0a000001
    rule.Covers client.address ∧ blacklisted [rule] client = true ∧
      (refreshCache [rule]).isIpBlocked client = false ∧
      isBlocked (refreshBlocklist [rule]) client = false := by
  decide

end Temps.Proxy.IpRules

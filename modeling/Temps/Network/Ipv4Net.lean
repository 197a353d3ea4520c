import Mathlib.Algebra.Order.Group.Nat

namespace Temps.Network

inductive IpAddr
  | v4 (bits : Nat)
  | v6 (bits : Nat)
deriving DecidableEq

def IpAddr.le : IpAddr → IpAddr → Bool
  | .v4 a, .v4 b => a ≤ b
  | .v4 _, .v6 _ => true
  | .v6 _, .v4 _ => false
  | .v6 a, .v6 b => a ≤ b

/-- An address with a prefix length. The address keeps its host bits, as in the `ipnet` crate. -/
structure Ipv4Net where
  addr : Nat
  prefixLen : Nat
  addr_lt : addr < 2 ^ 32
  prefixLen_le : prefixLen ≤ 32
deriving DecidableEq

namespace Ipv4Net

def le (a b : Ipv4Net) : Bool := a.addr < b.addr || a.addr == b.addr && a.prefixLen ≤ b.prefixLen

def size (net : Ipv4Net) : Nat := 2 ^ (32 - net.prefixLen)

def network (net : Ipv4Net) : Nat := net.addr / net.size * net.size

def broadcast (net : Ipv4Net) : Nat := net.network + (net.size - 1)

def contains (net : Ipv4Net) (ip : Nat) : Bool := net.network ≤ ip && ip ≤ net.broadcast

end Ipv4Net

def cidrsOverlap (a b : Ipv4Net) : Bool := a.contains b.network || b.contains a.network

namespace Ipv4Net

variable {a b net pool : Ipv4Net} {ip : Nat}

theorem contains_iff : net.contains ip ↔ net.network ≤ ip ∧ ip ≤ net.broadcast := by
  simp [contains]

theorem size_pos (net : Ipv4Net) : 0 < net.size := Nat.two_pow_pos _

theorem network_le_broadcast (net : Ipv4Net) : net.network ≤ net.broadcast := Nat.le_add_right _ _

theorem overlap_of_common (ha : a.contains ip) (hb : b.contains ip) : cidrsOverlap a b := by
  rw [contains_iff] at ha hb
  rw [cidrsOverlap, Bool.or_eq_true, contains_iff, contains_iff]
  omega

theorem overlap_of_network_eq (h : a.network = b.network) : cidrsOverlap a b := by
  have ha : a.contains a.network := contains_iff.mpr ⟨le_rfl, a.network_le_broadcast⟩
  have hb : b.contains a.network := contains_iff.mpr ⟨h.ge, h ▸ b.network_le_broadcast⟩
  exact overlap_of_common ha hb

theorem overlap_comm (a b : Ipv4Net) : cidrsOverlap a b = cidrsOverlap b a := Bool.or_comm _ _

/-- `net` is one of the equal blocks that `pool` splits into. -/
structure BlockOf (pool : Ipv4Net) (i : Nat) (net : Ipv4Net) : Prop where
  longer : pool.prefixLen ≤ net.prefixLen
  index : i < 2 ^ (net.prefixLen - pool.prefixLen)
  addr : net.addr = pool.network + i * net.size

theorem size_of_longer (h : pool.prefixLen ≤ net.prefixLen) :
    pool.size = 2 ^ (net.prefixLen - pool.prefixLen) * net.size := by
  have := net.prefixLen_le
  rw [size, size, ← pow_add]
  congr 1
  omega

theorem BlockOf.network_eq {i : Nat} (h : BlockOf pool i net) : net.network = net.addr := by
  have hdvd : net.size ∣ net.addr := by
    rw [h.addr, network, size_of_longer h.longer, ← mul_assoc]
    exact Nat.dvd_add (Nat.dvd_mul_left _ _) (Nat.dvd_mul_left _ _)
  exact Nat.div_mul_cancel hdvd

theorem BlockOf.within {i : Nat} (h : BlockOf pool i net) (hip : net.contains ip) :
    pool.contains ip := by
  have hblocks : (i + 1) * net.size ≤ pool.size := by
    rw [size_of_longer h.longer]
    exact Nat.mul_le_mul_right _ h.index
  have hpos := net.size_pos
  have haddr := h.addr
  rw [contains_iff, broadcast, h.network_eq] at hip
  rw [contains_iff, broadcast]
  rw [Nat.add_mul] at hblocks
  omega

end Ipv4Net

def slash24 (third : Fin 256) : Ipv4Net where
  addr := 172 * 2 ^ 24 + 20 * 2 ^ 16 + third * 2 ^ 8
  prefixLen := 24
  addr_lt := by omega
  prefixLen_le := by decide

end Temps.Network

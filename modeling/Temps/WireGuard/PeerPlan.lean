import Mathlib.Data.List.Nodup
import Mathlib.Data.List.Pairwise
import Mathlib.Data.List.Sort
import Mathlib.Logic.Embedding.Basic
import Temps.Lib.Machine

namespace Temps.WireGuard

open List

/-- Another node; keys, addresses and endpoints are of any type. -/
structure MeshPeer (K A E : Type) where
  publicKey : K
  endpoint : Option E
  address : A
  relayed : List A

structure CurrentPeer (I E : Type) where
  endpoint : Option E
  allowedIps : List I
  live : Bool

/-- A peer of the interface, with its allowed addresses as texts. -/
structure Peer (I E : Type) where
  endpoint : Option E
  persistentKeepaliveInterval : Option ℕ
  allowedIps : List I

structure PeerChanges where
  added : ℕ
  updated : ℕ
  removed : ℕ

variable {K A E I : Type} [DecidableEq K]

/-- `text` writes an address as its `/32`. -/
def MeshPeer.allowedIps (text : A ↪ I) (peer : MeshPeer K A E) : List I :=
  (peer.address :: peer.relayed).map text

def CurrentPeer.differs [DecidableEq E] [LinearOrder I] (text : A ↪ I) (peer : MeshPeer K A E)
    (held : CurrentPeer I E) : Bool :=
  peer.endpoint.isSome && held.endpoint ≠ peer.endpoint && !held.live ||
    held.allowedIps.insertionSort (· ≤ ·) ≠ (peer.allowedIps text).insertionSort (· ≤ ·)

/-- `keys` are the keys of the map `current`, in the order in which it lists them. -/
def planPeerChanges [DecidableEq E] [LinearOrder I] (text : A ↪ I) (keys : List K)
    (current : K → Option (CurrentPeer I E)) (desired : List (MeshPeer K A E)) :
    List (MeshPeer K A E) × List K × PeerChanges :=
  let toSet := desired.filter fun peer ↦ (current peer.publicKey).all (·.differs text peer)
  let toRemove := keys.filter fun key ↦ !desired.any (·.publicKey = key)
  (toSet, toRemove, ⟨desired.countP fun peer ↦ (current peer.publicKey).isNone,
    toSet.countP fun peer ↦ (current peer.publicKey).isSome, toRemove.length⟩)

abbrev Interface (K I E : Type) := K → Option (Peer I E)

namespace Interface

def removePeer (iface : Interface K I E) (key : K) : Interface K I E :=
  Function.update iface key none

theorem foldl_removePeer (keys : List K) (iface : Interface K I E) (key : K) :
    keys.foldl removePeer iface key = if key ∈ keys then none else iface key := by
  induction keys generalizing iface with
  | nil => rfl
  | cons k keys ih =>
    rw [foldl_cons, ih]
    by_cases heq : key = k
    · simp [heq, removePeer]
    · simp [heq, removePeer]

variable [LinearOrder I]

/-- The listed addresses go to the peer from whichever peer had them. Without an endpoint the peer
keeps the one it has. -/
def configurePeer (text : A ↪ I) (iface : Interface K I E) (peer : MeshPeer K A E) :
    Interface K I E := fun key ↦
  if key = peer.publicKey then
    some ⟨peer.endpoint.or ((iface key).bind Peer.endpoint), some 25, peer.allowedIps text⟩
  else (iface key).map fun held ↦
    { held with allowedIps := held.allowedIps.filter (· ∉ peer.allowedIps text) }

/-- The interface has the peer with the addresses that it should have, and no other. -/
def Holds (text : A ↪ I) (iface : Interface K I E) (peer : MeshPeer K A E) : Prop :=
  ∃ held, iface peer.publicKey = some held ∧ held.allowedIps.Perm (peer.allowedIps text)

variable {text : A ↪ I} {iface : Interface K I E} {desired toSet : List (MeshPeer K A E)}
  {p q : MeshPeer K A E} {keys : List K} {live : K → Bool}

theorem holds_configurePeer (iface : Interface K I E) (p : MeshPeer K A E) :
    (iface.configurePeer text p).Holds text p :=
  ⟨_, if_pos rfl, .refl _⟩

theorem Holds.configurePeer (h : iface.Holds text p) (hkey : p.publicKey ≠ q.publicKey)
    (hips : (p.allowedIps text).Disjoint (q.allowedIps text)) :
    (iface.configurePeer text q).Holds text p := by
  obtain ⟨held, hheld, hperm⟩ := h
  have hkept : held.allowedIps.filter (· ∉ q.allowedIps text) = held.allowedIps := by
    refine filter_eq_self.mpr fun ip hip ↦ decide_eq_true ?_
    exact hips (hperm.mem_iff.mp hip)
  refine ⟨_, (if_neg hkey).trans (congrArg (Option.map _) hheld), ?_⟩
  exact (Perm.of_eq hkept).trans hperm

/-- A plan that is partly applied leaves alone the peers that already hold their addresses. -/
theorem holds_foldl (hapart : ∀ p ∈ desired, ∀ q ∈ desired, p ≠ q → p.publicKey ≠ q.publicKey ∧
      (p.allowedIps text).Disjoint (q.allowedIps text))
    (hsub : ∀ q ∈ toSet, q ∈ desired) (hp : p ∈ desired) (h : p ∈ toSet ∨ iface.Holds text p) :
    Holds text (toSet.foldl (Interface.configurePeer text) iface) p := by
  induction toSet generalizing iface with
  | nil => exact h.resolve_left not_mem_nil
  | cons q toSet ih =>
    obtain ⟨hq, hsub⟩ := forall_mem_cons.mp hsub
    refine ih hsub (or_iff_not_imp_left.mpr fun hnot ↦ ?_)
    by_cases heq : p = q
    · exact heq ▸ holds_configurePeer iface p
    · obtain ⟨hkey, hips⟩ := hapart p hp q hq heq
      have hholds := h.resolve_left fun hin ↦ hnot ((mem_cons.mp hin).resolve_left heq)
      exact hholds.configurePeer hkey hips

variable [DecidableEq E]

def current (iface : Interface K I E) (live : K → Bool) (key : K) : Option (CurrentPeer I E) :=
  (iface key).map fun peer ↦ ⟨peer.endpoint, peer.allowedIps, live key⟩

def reconcilePeers (text : A ↪ I) (keys : List K) (live : K → Bool) (iface : Interface K I E)
    (desired : List (MeshPeer K A E)) : Interface K I E :=
  let (toSet, toRemove, _) := planPeerChanges text keys (iface.current live) desired
  toSet.foldl (configurePeer text) (toRemove.foldl removePeer iface)

def Lists (keys : List K) (iface : Interface K I E) : Prop :=
  ∀ key, key ∈ keys ↔ (iface key).isSome = true

omit [DecidableEq K] in
theorem holds_of_same (hheld : (iface.current live p.publicKey).all (·.differs text p) = false) :
    iface.Holds text p := by
  cases hpeer : iface p.publicKey with
  | none => simp [current, hpeer] at hheld
  | some held =>
    have hsorted : held.allowedIps.insertionSort (· ≤ ·) =
        (p.allowedIps text).insertionSort (· ≤ ·) := by
      simp only [current, hpeer, Option.map_some, Option.all_some, CurrentPeer.differs,
        Bool.or_eq_false_iff, decide_eq_false_iff_not, Classical.not_not] at hheld
      exact hheld.2
    have hperm := perm_insertionSort (· ≤ ·) held.allowedIps
    rw [hsorted] at hperm
    exact ⟨held, hpeer, hperm.symm.trans (perm_insertionSort _ _)⟩

theorem reconcilePeers_holds (hkeys : (desired.map MeshPeer.publicKey).Nodup)
    (haddresses : (desired.flatMap fun p ↦ p.address :: p.relayed).Nodup) (hp : p ∈ desired) :
    (iface.reconcilePeers text keys live desired).Holds text p := by
  have hapart : ∀ p ∈ desired, ∀ q ∈ desired, p ≠ q → p.publicKey ≠ q.publicKey ∧
      (p.allowedIps text).Disjoint (q.allowedIps text) := by
    intro p hp q hq hne
    have : Std.Symm (Function.onFun List.Disjoint fun p : MeshPeer K A E ↦ p.address :: p.relayed) :=
      ⟨fun _ _ h _ hp hq ↦ h hq hp⟩
    have hdisjoint := (nodup_flatMap.mp haddresses).2.forall hp hq hne
    exact ⟨fun h ↦ hne (inj_on_of_nodup_map hkeys hp hq h), disjoint_map text.injective hdisjoint⟩
  refine holds_foldl hapart (fun q hq ↦ (mem_filter.mp hq).1) hp ?_
  cases hset : (iface.current live p.publicKey).all (·.differs text p) with
  | true => exact .inl (mem_filter.mpr ⟨hp, hset⟩)
  | false =>
    obtain ⟨held, hheld, hperm⟩ := holds_of_same hset
    refine .inr ⟨held, ?_, hperm⟩
    rw [foldl_removePeer, if_neg]
    · exact hheld
    · intro hgone
      have hany : desired.any (·.publicKey = p.publicKey) :=
        any_eq_true.mpr ⟨p, hp, decide_eq_true rfl⟩
      simp [hany] at hgone

theorem reconcilePeers_none (hlists : iface.Lists keys) {key : K}
    (hkey : ∀ p ∈ desired, p.publicKey ≠ key) :
    iface.reconcilePeers text keys live desired key = none := by
  have hremoved : (keys.filter fun key ↦ !desired.any (·.publicKey = key)).foldl removePeer iface
      key = none := by
    rw [foldl_removePeer]
    split
    case isTrue => rfl
    case isFalse hnot =>
      have hany : desired.any (·.publicKey = key) = false := by simpa using hkey
      simpa [hany, hlists key] using hnot
  refine foldlRecOn (motive := fun s : Interface K I E ↦ s key = none) _ _ hremoved
    fun s hs p hp ↦ ?_
  rw [configurePeer, if_neg (hkey p (mem_of_mem_filter hp)).symm, hs]
  rfl

/-- Reconciling gives the interface the desired peers with the desired addresses, whichever peers
had them, and a second plan has nothing to remove and no addresses to change. -/
theorem peers_converge (text : A ↪ I) (iface : Interface K I E) (keys : List K) (live : K → Bool)
    (desired : List (MeshPeer K A E)) (hlists : iface.Lists keys)
    (hkeys : (desired.map MeshPeer.publicKey).Nodup)
    (haddresses : (desired.flatMap fun p ↦ p.address :: p.relayed).Nodup) :
    (∀ key, (iface.reconcilePeers text keys live desired key).isSome ↔
      ∃ p ∈ desired, p.publicKey = key) ∧
    (∀ p ∈ desired, (iface.reconcilePeers text keys live desired).Holds text p) ∧
    ∀ keys' live', (iface.reconcilePeers text keys live desired).Lists keys' →
      let plan := planPeerChanges text keys'
        ((iface.reconcilePeers text keys live desired).current live') desired
      plan.2.1 = [] ∧ plan.2.2.added = 0 ∧
        ∀ p ∈ plan.1, (iface.reconcilePeers text keys live desired).Holds text p := by
  have hholds : ∀ p ∈ desired, (iface.reconcilePeers text keys live desired).Holds text p :=
    fun p hp ↦ reconcilePeers_holds hkeys haddresses hp
  have hsome : ∀ key, (iface.reconcilePeers text keys live desired key).isSome ↔
      ∃ p ∈ desired, p.publicKey = key := by
    intro key
    constructor
    · intro hsome
      by_contra hnot
      push Not at hnot
      rw [reconcilePeers_none hlists hnot] at hsome
      cases hsome
    · intro ⟨p, hp, hkey⟩
      obtain ⟨held, hheld, -⟩ := hholds p hp
      rw [← hkey, hheld]
      rfl
  refine ⟨hsome, hholds, fun keys' live' hlists' ↦ ⟨?_, ?_, fun p hp ↦ ?_⟩⟩
  · refine filter_eq_nil_iff.mpr fun key hkey ↦ ?_
    simpa using (hsome key).mp ((hlists' key).mp hkey)
  · refine countP_eq_zero.mpr fun p hp ↦ ?_
    simpa [current, Option.ne_none_iff_isSome] using (hsome p.publicKey).mpr ⟨p, hp, rfl⟩
  · exact hholds p (mem_filter.mp hp).1

def crossed : Interface Bool ℕ ℕ := fun key ↦ some ⟨none, none, [if key then 1 else 2]⟩

def straight : List (MeshPeer Bool ℕ ℕ) := [⟨true, none, 2, []⟩, ⟨false, none, 1, []⟩]

theorem crossed_converges :
    (crossed.reconcilePeers (.refl ℕ) [true, false] (fun _ ↦ true) straight true).map
      Peer.allowedIps = some [2] ∧
    ∀ p ∈ straight,
      (crossed.reconcilePeers (.refl ℕ) [true, false] (fun _ ↦ true) straight).Holds (.refl ℕ) p :=
  ⟨by decide, (peers_converge (.refl ℕ) crossed [true, false] (fun _ ↦ true) straight
    (by unfold Lists; decide) (by decide) (by decide)).2.1⟩

end Interface

end Temps.WireGuard

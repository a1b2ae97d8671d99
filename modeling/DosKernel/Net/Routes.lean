import Mathlib.Data.List.MinMax

namespace DosKernel.Net.Routes

open List

abbrev Ip := BitVec 32

-- A `net_device` as far as routing reads it; `id` stands for which one it is.
structure Device where
  id : ℕ
  loopback : Bool := false
  simulated : Bool := false
  adminDown : Bool := false
  ip : Ip
  netmask : Ip
  gateway : Ip
deriving DecidableEq

variable (devs : List Device) (dst : Ip)

def Device.carries (n : Device) : Bool := !n.loopback && !n.simulated

def Device.onSubnet (n : Device) : Bool := dst &&& n.netmask == n.ip &&& n.netmask

def netPrimary : Option Device :=
  (devs.find? fun n => n.carries && !n.adminDown).or (devs.find? (·.carries))

def netRoute : Option Device :=
  if dst >>> 24 = 127 then devs.find? (·.loopback)
  else (devs.find? fun n => n.carries && !n.adminDown && n.netmask != 0 && n.onSubnet dst).or
    (netPrimary devs)

-- The next hop of `route_mac`; a loopback asks for none and hands the frame straight back.
def Device.nexthop (dev : Device) : Ip :=
  if dev.loopback || dev.onSubnet dst then dst else dev.gateway

-- The mask loses its first bit in each turn, so 32 turns are all there are.
def prefixOf (mask : Ip) : ℕ → ℕ
  | 0 => 0
  | turns + 1 => if mask.msb then prefixOf (mask <<< 1) turns + 1 else 0

-- What `put_route` tells; a gateway of 0 is not put.
structure Route where
  dst : Ip
  dstLen : ℕ
  gateway : Ip
  dev : Device

def devCollect : List Device := (devs.filter (!·.simulated)).take 16

def Device.connected (d : Device) : Route := ⟨d.ip &&& d.netmask, prefixOf d.netmask 32, 0, d⟩

def Device.default (d : Device) : Route := ⟨0, 0, d.gateway, d⟩

def gatewayDevice : Option Device := (devCollect devs).find? fun d => d.gateway != 0 && !d.loopback

def getRoute : List Route :=
  ((devCollect devs).filter (·.ip != 0)).map Device.connected ++
    ((gatewayDevice devs).map Device.default).toList

def Route.holds (r : Route) : Bool := dst >>> (32 - r.dstLen) == r.dst >>> (32 - r.dstLen)

def Route.hop (r : Route) : Device × Ip := (r.dev, if r.gateway = 0 then dst else r.gateway)

def select (routes : List Route) : Option (Device × Ip) :=
  (argmax Route.dstLen (routes.filter (·.holds dst))).map (·.hop dst)

def Agrees : Prop :=
  select dst (getRoute devs) = (netRoute devs dst).map fun n => (n, n.nexthop dst)

def networks : List Device :=
  (devCollect devs).filter fun d => d.ip != 0 && d.connected.holds dst

theorem argmax_map {α β : Type} (len : β → ℕ) (f : α → β) (l : List α) :
    argmax len (l.map f) = (argmax (len ∘ f) l).map f := by
  induction l using reverseRecOn with
  | nil => rfl
  | append_singleton l a ih =>
    rw [map_append, map_singleton, argmax_concat, argmax_concat, ih]
    cases argmax (len ∘ f) l with
    | none => rfl
    | some b =>
      simp only [Option.map_some, Function.comp_apply]
      split <;> rfl

variable {devs dst}

theorem select_getRoute : select dst (getRoute devs) =
    (((argmax (prefixOf ·.netmask 32) (networks devs dst)).map Device.connected).or
      ((gatewayDevice devs).map Device.default)).map (·.hop dst) := by
  have hfilter : (((devCollect devs).filter (·.ip != 0)).map Device.connected).filter (·.holds dst) =
      (networks devs dst).map Device.connected := by
    rw [filter_map, filter_filter, networks]
    congr 2
    funext d
    exact Bool.and_comm ..
  have hmap : argmax Route.dstLen ((networks devs dst).map Device.connected) =
      (argmax (prefixOf ·.netmask 32) (networks devs dst)).map Device.connected := argmax_map ..
  rw [select, getRoute, filter_append, hfilter]
  cases gatewayDevice devs with
  | none =>
    rw [Option.map_none, Option.toList_none, filter_nil, append_nil, hmap, Option.or_none]
  | some g =>
    have hall : filter (·.holds dst) [g.default] = [g.default] := by
      have hzero : ∀ x : Ip, x >>> 32 = 0 := fun x => BitVec.ushiftRight_eq_zero (Nat.le_refl 32)
      simp [Route.holds, Device.default, hzero]
    rw [Option.map_some, Option.toList_some, hall, argmax_concat, hmap]
    cases argmax (prefixOf ·.netmask 32) (networks devs dst) <;> rfl

def Device.meets (n m : Device) : Bool :=
  n.ip &&& (n.netmask &&& m.netmask) == m.ip &&& (n.netmask &&& m.netmask)

-- All devices are up, with an address and a prefix of ones; there is one loopback, with 127/8. Of
-- two networks that meet, the first has the longer prefix, and the first adapter has a gateway.
structure Regular (devs : List Device) : Prop where
  few : devs.length ≤ 16
  up : ∀ n ∈ devs, n.simulated = false ∧ n.adminDown = false ∧ n.ip ≠ 0
  masks : ∀ n ∈ devs, n.netmask ≠ 0 ∧
    n.netmask = BitVec.allOnes 32 <<< (32 - prefixOf n.netmask 32)
  loopbacks : ∀ n ∈ devs, n.loopback = true →
    n.netmask = BitVec.allOnes 32 <<< 24 ∧ n.ip >>> 24 = 127
  loopback : ∃ n ∈ devs, n.loopback = true
  apart : ∀ n ∈ devs, ∀ m ∈ devs, n.meets m = true → n.loopback = m.loopback
  longer : devs.Pairwise fun n m => n.meets m = true →
    prefixOf m.netmask 32 ≤ prefixOf n.netmask 32
  gateway : ∀ n ∈ devs.find? (!·.loopback), n.gateway ≠ 0

theorem shift_eq_iff {x y : Ip} {k : ℕ} : x >>> k = y >>> k ↔
    x &&& BitVec.allOnes 32 <<< k = y &&& BitVec.allOnes 32 <<< k := by
  have hback : ∀ z : Ip, z >>> k <<< k >>> k = z >>> k := by
    intro z
    have hle := Nat.div_mul_le_self z.toNat (2 ^ k)
    apply BitVec.eq_of_toNat_eq
    simp only [BitVec.toNat_ushiftRight, BitVec.toNat_shiftLeft, Nat.shiftRight_eq_div_pow,
      Nat.shiftLeft_eq]
    rw [Nat.mod_eq_of_lt (by omega), Nat.mul_div_cancel _ (Nat.two_pow_pos k)]
  rw [← BitVec.shiftLeft_ushiftRight, ← BitVec.shiftLeft_ushiftRight]
  refine ⟨fun h => by rw [h], fun h => ?_⟩
  rw [← hback x, h, hback]

theorem Device.meets_of_onSubnet {n m : Device} (hn : n.onSubnet dst = true)
    (hm : m.onSubnet dst = true) : n.meets m = true := by
  rw [onSubnet, beq_iff_eq] at hn hm
  rw [meets, beq_iff_eq, ← BitVec.and_assoc, ← hn, BitVec.and_comm n.netmask, ← BitVec.and_assoc,
    ← hm, BitVec.and_assoc, BitVec.and_assoc, BitVec.and_comm m.netmask]

theorem argmax_cons_of_le {α : Type} {len : α → ℕ} {a : α} {l : List α}
    (h : ∀ b ∈ l, len b ≤ len a) : argmax len (a :: l) = some a := by
  rw [argmax_cons]
  cases hm : argmax len l with
  | none => rfl
  | some b => exact if_neg (Nat.not_lt.mpr (h b (argmax_mem hm)))

theorem find?_congr_mem {f g : Device → Bool} (hfg : ∀ n ∈ devs, f n = g n) :
    devs.find? f = devs.find? g := by
  rw [← head?_filter, ← head?_filter, filter_congr hfg]

section

variable (h : Regular devs)

include h

theorem Regular.devCollect_eq : devCollect devs = devs := by
  rw [devCollect, filter_eq_self.mpr fun n hn => by rw [(h.up n hn).1]; rfl,
    take_of_length_le h.few]

theorem Regular.networks_eq : networks devs dst = devs.filter (·.onSubnet dst) := by
  rw [networks, h.devCollect_eq]
  refine filter_congr fun n hn => ?_
  have hmask := (h.masks n hn).2
  rw [bne_iff_ne.mpr (h.up n hn).2.2, Bool.true_and, Route.holds, Device.onSubnet, Bool.eq_iff_iff,
    beq_iff_eq, beq_iff_eq, Device.connected, shift_eq_iff, ← hmask, BitVec.and_assoc,
    BitVec.and_self]

theorem Regular.onSubnet_loopback {n : Device} (hn : n ∈ devs) (hlo : n.loopback = true) :
    n.onSubnet dst = true ↔ dst >>> 24 = 127 := by
  obtain ⟨hmask, hip⟩ := h.loopbacks n hn hlo
  rw [Device.onSubnet, beq_iff_eq, hmask, ← shift_eq_iff, hip]

theorem Regular.carries_eq {n : Device} (hn : n ∈ devs) :
    n.carries = !n.loopback ∧ (n.carries && !n.adminDown) = !n.loopback := by
  obtain ⟨hsim, hup, -⟩ := h.up n hn
  simp [Device.carries, hsim, hup]

theorem Regular.netRoute_eq : netRoute devs dst =
    (devs.find? (·.onSubnet dst)).or (devs.find? (!·.loopback)) := by
  obtain ⟨l, hl, hlo⟩ := h.loopback
  rw [netRoute]
  split
  next hdst =>
    have hsame : devs.find? (·.onSubnet dst) = devs.find? (·.loopback) := by
      refine find?_congr_mem fun n hn => Bool.eq_iff_iff.mpr ⟨fun hon => ?_, fun hlo => ?_⟩
      · have honl := (h.onSubnet_loopback hl hlo).mpr hdst
        exact (h.apart n hn l hl (Device.meets_of_onSubnet hon honl)).trans hlo
      · exact (h.onSubnet_loopback hn hlo).mpr hdst
    rw [hsame]
    cases hfind : devs.find? (·.loopback) with
    | none => exact absurd hlo (find?_eq_none.mp hfind l hl)
    | some n => rfl
  next hdst =>
    rw [netPrimary, find?_congr_mem fun n hn => (h.carries_eq hn).1,
      find?_congr_mem fun n hn => (h.carries_eq hn).2, Option.or_self]
    congr 1
    refine find?_congr_mem fun n hn => ?_
    rw [(h.carries_eq hn).2, bne_iff_ne.mpr (h.masks n hn).1, Bool.and_true]
    cases hlo : n.loopback with
    | false => rfl
    | true => exact (Bool.eq_false_iff.mpr (mt (h.onSubnet_loopback hn hlo).mp hdst)).symm

theorem Regular.gatewayDevice_eq : gatewayDevice devs = devs.find? (!·.loopback) := by
  rw [gatewayDevice, h.devCollect_eq]
  cases hfind : devs.find? (!·.loopback) with
  | none =>
    rw [find?_eq_none] at hfind ⊢
    exact fun n hn hg => hfind n hn (Bool.and_eq_true_iff.mp hg).2
  | some n =>
    have hg := bne_iff_ne.mpr (h.gateway n hfind)
    obtain ⟨hn, l, r, hdevs, hl⟩ := find?_eq_some_iff_append.mp hfind
    refine find?_eq_some_iff_append.mpr ⟨by rw [hg, hn]; rfl, l, r, hdevs, fun a ha => ?_⟩
    simp [show a.loopback = true by simpa using hl a ha]

end

-- A loopback and two adapters.
def twoNetworks : List Device :=
  [{ id := 0, loopback := true, ip := 0x7f000001, netmask := 0xff000000, gateway := 0 },
    { id := 1, ip := 0x0a00020f, netmask := 0xffffff00, gateway := 0x0a000202 },
    { id := 2, ip := 0xc0a80105, netmask := 0xffff0000, gateway := 0xc0a80101 }]

-- The first adapter is disabled, and the second carries the traffic.
def twoAdapters : List Device :=
  [{ id := 0, adminDown := true, ip := 0x0a00020f, netmask := 0xffffff00, gateway := 0x0a000202 },
    { id := 1, ip := 0xc0a80105, netmask := 0xffffff00, gateway := 0xc0a80101 }]

end DosKernel.Net.Routes

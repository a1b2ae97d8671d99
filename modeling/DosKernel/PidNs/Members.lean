import DosKernel.PidNs.World

namespace DosKernel.PidNs

open List

open DosKernel.Sched (masterInsert mem_masterInsert nodup_masterInsert)

variable {w w' : World} {t u : Task} {o : ℕ} {v : Option ℕ}

-- A live task that a viewer in namespace `v` sees. The boot task's number is 0, that of no task.
structure World.Sees (w : World) (v : Option ℕ) (t : Task) : Prop where
  mem : t ∈ w.tasks
  live : t.dead = false
  inside : w.within t v = true
  numbered : t.pid ≠ 0

-- What the death of an init is for: nothing is left running in its namespace or below it.
def World.Reaped (w : World) : Prop :=
  ∀ o, (w.ns o).died = true → ∀ t ∈ w.tasks, t.dead = false → w.within t (some o) = true →
    t.killed = true

structure World.Sound (w : World) : Prop where
  distinct : ∀ v t u, w.Sees v t → w.Sees v u → w.vnr v t = w.vnr v u → t.id = u.id
  resolves : ∀ v t, w.Sees v t → w.resolve v (w.vnr v t) = t.pid
  outside : ∀ v t, w.within t v = false → w.vnr v t = 0
  reaped : w.Reaped

structure World.Member (w : World) (t : Task) : Prop where
  old : t.id < w.nextId
  home : Known w.nsCount t.ns
  nest : Known w.nsCount t.childNs
  numbered : ∀ o ∈ w.chain t.ns,
    1 ≤ t.upid (w.ns o).level ∧ t.upid (w.ns o).level < (w.ns o).nextNr

structure World.Apart (w : World) (t u : Task) : Prop where
  numbers : ∀ o ∈ w.chain t.ns, o ∈ w.chain u.ns →
    t.upid (w.ns o).level = u.upid (w.ns o).level → t.id = u.id
  pids : t.dead = false → u.dead = false → t.pid = u.pid → t.id = u.id

theorem World.Apart.symm (h : w.Apart t u) : w.Apart u t where
  numbers o hu ht heq := (h.numbers o ht hu heq.symm).symm
  pids hu ht heq := (h.pids ht hu heq.symm).symm

theorem apart_of_id (hid : t.id = u.id) : w.Apart t u := ⟨fun _ _ _ _ => hid, fun _ _ _ => hid⟩

structure Inv (w : World) : Prop where
  ids : (w.tasks.map Task.id).Nodup
  levelled : Levelled w.ns w.nsCount
  member : ∀ t ∈ w.tasks, w.Member t
  apart : ∀ t ∈ w.tasks, ∀ u ∈ w.tasks, w.Apart t u
  counters : ∀ o < w.nsCount, 1 ≤ (w.ns o).nextNr ∧ (w.ns o).nextNr ≤ intMax + 1
  pidPos : 1 ≤ w.nextPid
  reaped : w.Reaped

theorem inv_boot : Inv boot where
  ids := by simp [boot]
  levelled := by
    intro o ho
    cases ho
  member := by
    intro t ht
    rw [mem_singleton.mp ht]
    exact ⟨Nat.zero_lt_one, by simp [Known], by simp [Known], fun o ho => by cases ho⟩
  apart := by
    intro t ht u hu
    rw [mem_singleton.mp ht, mem_singleton.mp hu]
    exact apart_of_id rfl
  counters := by
    intro o ho
    cases ho
  pidPos := Nat.le_refl 1
  reaped := by
    intro o ho
    cases ho

theorem within_some : w.within t (some o) = true ↔ o ∈ w.chain t.ns := by
  simp [World.within]

theorem Inv.eq_of_id (h : Inv w) (ht : t ∈ w.tasks) (hu : u ∈ w.tasks) (hid : t.id = u.id) :
    t = u :=
  inj_on_of_nodup_map h.ids ht hu hid

theorem Inv.known_births (h : Inv w) (ht : t ∈ w.tasks) : Known w.nsCount t.births := by
  unfold Task.births
  split
  next o ho =>
    exact ho ▸ (h.member t ht).nest
  · exact (h.member t ht).home

theorem Inv.vnr_some (h : Inv w) (ht : t ∈ w.tasks) (ho : w.within t (some o) = true) :
    w.vnr (some o) t = t.upid (w.ns o).level := by
  have hlt := mem_chainOf_lt h.levelled (h.member t ht).home (within_some.mp ho)
  have hlevel := (h.levelled o hlt).1
  simp only [World.vnr, ho, hlevel, if_true]

theorem Inv.vnr_pos (h : Inv w) (ht : w.Sees v t) : 0 < w.vnr v t := by
  cases v with
  | none =>
    have hpid := Nat.pos_of_ne_zero ht.numbered
    simp only [World.vnr]
    omega
  | some o =>
    rw [h.vnr_some ht.mem ht.inside]
    have hnumber := ((h.member t ht.mem).numbered o (within_some.mp ht.inside)).1
    omega

theorem Inv.distinct (h : Inv w) (ht : w.Sees v t) (hu : w.Sees v u)
    (heq : w.vnr v t = w.vnr v u) : t.id = u.id := by
  cases v with
  | none =>
    simp only [World.vnr, Int.natCast_inj] at heq
    exact (h.apart t ht.mem u hu.mem).pids ht.live hu.live heq
  | some o =>
    rw [h.vnr_some ht.mem ht.inside, h.vnr_some hu.mem hu.inside] at heq
    exact (h.apart t ht.mem u hu.mem).numbers o (within_some.mp ht.inside)
      (within_some.mp hu.inside) heq

theorem vnr_eq_zero (hout : w.within t v = false) : w.vnr v t = 0 := by
  cases v with
  | none => cases hout
  | some o => simp [World.vnr, hout]

theorem Inv.resolves (h : Inv w) (ht : w.Sees v t) : w.resolve v (w.vnr v t) = t.pid := by
  have hpos := h.vnr_pos ht
  rw [World.resolve.eq_def, if_neg (by omega)]
  cases v with
  | none =>
    have hfound : (w.taskFind (w.vnr none t)).isSome := by
      rw [World.taskFind, find?_isSome]
      exact ⟨t, ht.mem, by simp [World.vnr]⟩
    obtain ⟨u, hu⟩ := Option.isSome_iff_exists.mp hfound
    have hpid := find?_some hu
    simp only [hu, Option.map_some, Option.getD_some]
    exact of_decide_eq_true hpid
  | some o =>
    have hfound : (w.tasks.find? fun u => !u.dead && w.vnr (some o) u = w.vnr (some o) t).isSome := by
      rw [find?_isSome]
      exact ⟨t, ht.mem, by simp [ht.live]⟩
    obtain ⟨u, hu⟩ := Option.isSome_iff_exists.mp hfound
    have hmem := mem_of_find?_eq_some hu
    have hprop := find?_some hu
    simp only [Bool.and_eq_true, Bool.not_eq_true', decide_eq_true_eq] at hprop
    have hinside : w.within u (some o) = true := by
      by_contra hout
      rw [Bool.not_eq_true] at hout
      rw [vnr_eq_zero hout] at hprop
      omega
    have hid : u.id = t.id := by
      have heq := hprop.2
      rw [h.vnr_some hmem hinside, h.vnr_some ht.mem ht.inside] at heq
      exact (h.apart u hmem t ht.mem).numbers o (within_some.mp hinside)
        (within_some.mp ht.inside) heq
    simp only [hu, h.eq_of_id hmem ht.mem hid, Option.map_some, Option.getD_some]

theorem Inv.sound (h : Inv w) : w.Sound where
  distinct _ _ _ ht hu := h.distinct ht hu
  resolves _ _ ht := h.resolves ht
  outside _ _ hout := vnr_eq_zero hout
  reaped := h.reaped

structure Extends (w w' : World) : Prop where
  ns : ∀ o < w.nsCount, (w'.ns o).level = (w.ns o).level ∧ (w'.ns o).parent = (w.ns o).parent ∧
    (w.ns o).nextNr ≤ (w'.ns o).nextNr
  count : w.nsCount ≤ w'.nsCount
  nextId : w.nextId ≤ w'.nextId

section Extends

variable (e : Extends w w')

include e

theorem Extends.known (hv : Known w.nsCount v) : Known w'.nsCount v := fun o ho =>
  Nat.lt_of_lt_of_le (hv o ho) e.count

variable (h : Inv w)

include h

theorem Extends.chain (hv : Known w.nsCount v) : w'.chain v = w.chain v :=
  chainOf_congr h.levelled hv fun o ho => (e.ns o ho).2.1

theorem Extends.placed (ho : o < w.nsCount) : (w'.ns o).level < maxLevel ∧
    (((w'.ns o).parent = none ∧ (w'.ns o).level = 1) ∨
      ∃ p < w'.nsCount, (w'.ns o).parent = some p ∧ (w'.ns o).level = (w'.ns p).level + 1) := by
  obtain ⟨hlevel, hparent, -⟩ := e.ns o ho
  rw [hlevel, hparent]
  refine (h.levelled o ho).imp id (Or.imp id ?_)
  rintro ⟨p, hp, hsome, hp'⟩
  exact ⟨p, Nat.lt_of_lt_of_le hp e.count, hsome, by rw [(e.ns p hp).1, hp']⟩

theorem Extends.member (ht : w.Member t) : w'.Member t where
  old := Nat.lt_of_lt_of_le ht.old e.nextId
  home := e.known ht.home
  nest := e.known ht.nest
  numbered := by
    intro o ho
    rw [e.chain h ht.home] at ho
    obtain ⟨hlevel, -, hle⟩ := e.ns o (mem_chainOf_lt h.levelled ht.home ho)
    obtain ⟨hpos, hlt⟩ := ht.numbered o ho
    rw [hlevel]
    omega

theorem Extends.apart (ht : w.Member t) (hu : w.Member u) (ha : w.Apart t u) : w'.Apart t u where
  numbers := by
    intro o hto huo
    rw [e.chain h ht.home] at hto
    rw [e.chain h hu.home] at huo
    rw [(e.ns o (mem_chainOf_lt h.levelled ht.home hto)).1]
    exact ha.numbers o hto huo
  pids := ha.pids

end Extends

structure Follows (t t' : Task) : Prop where
  id : t'.id = t.id
  pid : t'.pid = t.pid
  ns : t'.ns = t.ns
  upid : t'.upid = t.upid
  dead : t'.dead = false → t.dead = false
  killed : t.killed = true → t'.killed = true

structure Inherits (w w' : World) : Prop extends Extends w w' where
  ids : (w'.tasks.map Task.id).Sublist (w.tasks.map Task.id)
  origin : ∀ t' ∈ w'.tasks, ∃ t ∈ w.tasks, Follows t t'
  nextPid : w'.nextPid = w.nextPid

theorem Inv.inherit (h : Inv w) (n : Inherits w w') (hlevelled : Levelled w'.ns w'.nsCount)
    (hcounters : ∀ o < w'.nsCount, 1 ≤ (w'.ns o).nextNr ∧ (w'.ns o).nextNr ≤ intMax + 1)
    (hnests : ∀ t ∈ w'.tasks, Known w'.nsCount t.childNs) (hreaped : w'.Reaped) : Inv w' where
  ids := h.ids.sublist n.ids
  levelled := hlevelled
  member := by
    intro t' ht'
    obtain ⟨t, ht, hf⟩ := n.origin t' ht'
    have hm := n.member h (h.member t ht)
    refine ⟨hf.id ▸ hm.old, hf.ns ▸ hm.home, hnests t' ht', ?_⟩
    rw [hf.ns, hf.upid]
    exact hm.numbered
  apart := by
    intro t' ht' u' hu'
    obtain ⟨t, ht, hft⟩ := n.origin t' ht'
    obtain ⟨u, hu, hfu⟩ := n.origin u' hu'
    have ha := n.apart h (h.member t ht) (h.member u hu) (h.apart t ht u hu)
    refine ⟨?_, fun htlive hulive => ?_⟩
    · rw [hft.ns, hft.upid, hft.id, hfu.ns, hfu.upid, hfu.id]
      exact ha.numbers
    · rw [hft.pid, hft.id, hfu.pid, hfu.id]
      exact ha.pids (hft.dead htlive) (hfu.dead hulive)
  counters := hcounters
  pidPos := n.nextPid ▸ h.pidPos
  reaped := hreaped

theorem Inv.reaped_inherit (h : Inv w) (n : Inherits w w')
    (hdied : ∀ o < w.nsCount, (w'.ns o).died = true → (w.ns o).died = true) : w'.Reaped := by
  intro o ho t' ht' hlive hin
  obtain ⟨t, ht, hf⟩ := n.origin t' ht'
  have hhome := (h.member t ht).home
  rw [within_some, hf.ns, n.chain h hhome] at hin
  have hold := hdied o (mem_chainOf_lt h.levelled hhome hin) ho
  exact hf.killed (h.reaped o hold t ht (hf.dead hlive) (within_some.mpr hin))

open Nat

-- A child can be born in `v`: its pid is free, and each namespace it is in has numbers and an init.
structure World.Room (w : World) (v : Option ℕ) : Prop where
  pid : ∀ t ∈ w.tasks, t.dead = false → t.pid ≠ w.nextPid
  numbers : ∀ o ∈ w.chain v, (w.ns o).nextNr ≤ intMax
  init : ∀ o ∈ w.chain v, (w.ns o).died = false

def World.newborn (w : World) (v : Option ℕ) : Task :=
  ⟨w.nextId, w.nextPid, v, v, (w.assign v).2, false, false⟩

theorem mem_spawn : t ∈ (w.spawn v).tasks ↔ t = w.newborn v ∨ t ∈ w.tasks :=
  mem_masterInsert

theorem map_masterInsert {α β : Type} (f : α → β) (table : List α) (a : α) :
    (masterInsert table a).map f = masterInsert (table.map f) (f a) := by
  cases table with
  | nil => rfl
  | cons b rest => rfl

section Spawn

variable (h : Inv w) (hv : Known w.nsCount v)
include h hv

theorem Inv.spawn_ns (o : ℕ) : (w.spawn v).ns o =
    if o ∈ w.chain v then (w.ns o).bump w.nextPid w.nextId else w.ns o :=
  foldl_assign_ns (List.Nodup.of_map _ (nodup_levels h.levelled hv)) o

theorem Inv.extends_spawn : Extends w (w.spawn v) where
  ns o _ := by
    rw [h.spawn_ns hv]
    split
    · exact ⟨rfl, rfl, le_succ _⟩
    · exact ⟨rfl, rfl, Nat.le_refl _⟩
  count := Nat.le_refl _
  nextId := le_succ _

theorem Inv.spawn_died (o : ℕ) : ((w.spawn v).ns o).died = (w.ns o).died := by
  rw [h.spawn_ns hv]
  split <;> rfl

theorem Inv.newborn_chain : (w.spawn v).chain (w.newborn v).ns = w.chain v :=
  (h.extends_spawn hv).chain h hv

theorem Inv.newborn_level (ho : o ∈ w.chain v) : ((w.spawn v).ns o).level = (w.ns o).level :=
  ((h.extends_spawn hv).ns o (mem_chainOf_lt h.levelled hv ho)).1

theorem Inv.newborn_upid (ho : o ∈ w.chain v) :
    (w.newborn v).upid (w.ns o).level = int32 (w.ns o).nextNr :=
  foldl_assign_upid (nodup_levels h.levelled hv)
    (fun q hq => (h.levelled q (mem_chainOf_lt h.levelled hv hq)).1) ho

theorem Inv.newborn_member (hroom : w.Room v) : (w.spawn v).Member (w.newborn v) where
  old := lt_succ_self _
  home := hv
  nest := hv
  numbered := by
    intro o ho
    rw [h.newborn_chain hv] at ho
    have hpos := (h.counters o (mem_chainOf_lt h.levelled hv ho)).1
    have hnext : ((w.spawn v).ns o).nextNr = (w.ns o).nextNr + 1 := by
      rw [h.spawn_ns hv, if_pos ho]
      rfl
    rw [h.newborn_level hv ho, hnext, h.newborn_upid hv ho, int32_of_le (hroom.numbers o ho)]
    omega

theorem Inv.newborn_apart (hroom : w.Room v) (ht : t ∈ w.tasks) :
    (w.spawn v).Apart (w.newborn v) t where
  numbers := by
    intro o hvo hto heq
    rw [h.newborn_chain hv] at hvo
    rw [(h.extends_spawn hv).chain h (h.member t ht).home] at hto
    rw [h.newborn_level hv hvo, h.newborn_upid hv hvo, int32_of_le (hroom.numbers o hvo)] at heq
    have hlt := ((h.member t ht).numbered o hto).2
    omega
  pids _ hlive heq := absurd heq.symm (hroom.pid t ht hlive)

theorem Inv.spawn_apart (hroom : w.Room v) :
    ∀ t ∈ (w.spawn v).tasks, ∀ u ∈ (w.spawn v).tasks, (w.spawn v).Apart t u := by
  intro t ht u hu
  cases mem_spawn.mp ht with
  | inl htnew =>
    subst htnew
    cases mem_spawn.mp hu with
    | inl hunew => exact apart_of_id (hunew ▸ rfl)
    | inr huold => exact h.newborn_apart hv hroom huold
  | inr htold =>
    cases mem_spawn.mp hu with
    | inl hunew => exact hunew ▸ (h.newborn_apart hv hroom htold).symm
    | inr huold =>
      exact (h.extends_spawn hv).apart h (h.member t htold) (h.member u huold)
        (h.apart t htold u huold)

theorem Inv.spawn_reaped (hroom : w.Room v) : (w.spawn v).Reaped := by
  intro o hdied t ht hlive hin
  rw [h.spawn_died hv] at hdied
  rw [within_some] at hin
  cases mem_spawn.mp ht with
  | inl hnew =>
    subst hnew
    rw [h.newborn_chain hv] at hin
    rw [hroom.init o hin] at hdied
    cases hdied
  | inr hold =>
    rw [(h.extends_spawn hv).chain h (h.member t hold).home, ← within_some] at hin
    exact h.reaped o hdied t hold hlive hin

theorem Inv.spawn (hroom : w.Room v) : Inv (w.spawn v) where
  ids := by
    rw [World.spawn, map_masterInsert]
    refine nodup_masterInsert h.ids fun hmem => ?_
    obtain ⟨t, ht, hid⟩ := List.mem_map.mp hmem
    have hlt := (h.member t ht).old
    exact Nat.lt_irrefl _ (hid ▸ hlt)
  levelled _ := (h.extends_spawn hv).placed h
  member := by
    intro t ht
    cases mem_spawn.mp ht with
    | inl hnew => exact hnew ▸ h.newborn_member hv hroom
    | inr hold => exact (h.extends_spawn hv).member h (h.member t hold)
  apart := h.spawn_apart hv hroom
  counters := by
    intro o ho
    obtain ⟨hpos, hmax⟩ := h.counters o ho
    rw [h.spawn_ns hv]
    split
    next hmem =>
      exact ⟨le_add_left 1 _, succ_le_succ (hroom.numbers o hmem)⟩
    · exact ⟨hpos, hmax⟩
  pidPos := by
    simp only [World.spawn]
    split
    · exact le_add_left 1 _
    · exact Nat.le_refl 1
  reaped := h.spawn_reaped hv hroom

theorem Inv.newborn_within : (w.spawn v).within (w.newborn v) (some o) = true ↔ o ∈ w.chain v := by
  rw [within_some, h.newborn_chain hv]

theorem Inv.newborn_seen {x : Option ℕ} (hx : ∀ o, x = some o → o ∈ w.chain v) :
    (w.spawn v).Sees x (w.newborn v) where
  mem := mem_spawn.mpr (.inl rfl)
  live := rfl
  inside := by
    cases x with
    | none => rfl
    | some o => exact (h.newborn_within hv).mpr (hx o rfl)
  numbered := Nat.ne_of_gt h.pidPos

theorem Inv.room_of_sound (hs : (w.spawn v).Sound) : w.Room v where
  pid := by
    intro t ht hlive heq
    have hpos := h.pidPos
    have hseen : (w.spawn v).Sees none t :=
      ⟨mem_spawn.mpr (.inr ht), hlive, rfl, by omega⟩
    have hid := hs.distinct none t (w.newborn v) hseen
      (h.newborn_seen hv (by simp)) (congrArg Nat.cast heq)
    exact Nat.ne_of_lt (h.member t ht).old hid
  numbers := by
    intro o ho
    by_contra hover
    have hlt := mem_chainOf_lt h.levelled hv ho
    have hnext : (w.ns o).nextNr = intMax + 1 := by
      have hmax := (h.counters o hlt).2
      omega
    have hres := hs.resolves (some o) (w.newborn v)
      (h.newborn_seen hv fun q hq => Option.some.inj hq ▸ ho)
    have hvnr : (w.spawn v).vnr (some o) (w.newborn v) = int32 (intMax + 1) := by
      simp only [World.vnr, (h.newborn_within hv).mpr ho, h.newborn_level hv ho, (h.levelled o hlt).1,
        if_true]
      rw [h.newborn_upid hv ho, hnext]
    have hneg := int32_succ_intMax
    rw [hvnr, World.resolve.eq_def, if_pos (by omega)] at hres
    omega
  init := by
    intro o ho
    by_contra hdied
    rw [Bool.not_eq_false] at hdied
    have hkilled := hs.reaped o ((h.spawn_died hv o).trans hdied) (w.newborn v)
      (mem_spawn.mpr (.inl rfl)) rfl ((h.newborn_within hv).mpr ho)
    cases hkilled

end Spawn

section NewNs

structure Nests (t : Task) (w w' : World) : Prop where
  tasks : w'.tasks = w.tasks
  nextPid : w'.nextPid = w.nextPid
  nextId : w'.nextId = w.nextId
  count : w'.nsCount = w.nsCount + 1
  same : ∀ o < w.nsCount, w'.ns o = w.ns o
  parent : (w'.ns w.nsCount).parent = t.births
  level : (w'.ns w.nsCount).level < maxLevel
  above : (t.births = none ∧ (w'.ns w.nsCount).level = 1) ∨
    ∃ p, t.births = some p ∧ (w'.ns w.nsCount).level = (w.ns p).level + 1
  nextNr : (w'.ns w.nsCount).nextNr = 1
  died : (w'.ns w.nsCount).died = false

theorem nests_of_newNs (hw : w.newNs t = some w') : Nests t w w' := by
  rw [World.newNs, Option.ite_none_left_eq_some] at hw
  obtain ⟨hlevel, hw⟩ := hw
  have hw' := Option.some.inj hw
  subst hw'
  constructor
  case same => exact fun o ho => Function.update_of_ne (Nat.ne_of_lt ho) _ _
  case level =>
    simp only [Function.update_self]
    exact Nat.lt_of_not_le hlevel
  case above =>
    simp only [Function.update_self]
    cases t.births with
    | none => exact .inl ⟨rfl, rfl⟩
    | some p => exact .inr ⟨p, rfl, rfl⟩
  all_goals simp

theorem Nests.inherits (n : Nests t w w') : Inherits w w' where
  ns o ho := n.same o ho ▸ ⟨rfl, rfl, Nat.le_refl _⟩
  count := n.count ▸ le_succ _
  nextId := n.nextId ▸ Nat.le_refl _
  ids := by rw [n.tasks]
  origin x hx := ⟨x, n.tasks ▸ hx, rfl, rfl, rfl, rfl, id, id⟩
  nextPid := n.nextPid

variable (h : Inv w) (n : Nests t w w')
include h n

theorem Inv.levelled_nests (ht : t ∈ w.tasks) : Levelled w'.ns w'.nsCount := by
  intro o ho
  rw [n.count] at ho
  cases Nat.lt_succ_iff_lt_or_eq.mp ho with
  | inl hlt => exact n.inherits.placed h hlt
  | inr heq =>
    subst heq
    rw [n.parent, n.count]
    refine ⟨n.level, n.above.imp id ?_⟩
    rintro ⟨p, hsome, hlevel⟩
    have hp := h.known_births ht p hsome
    exact ⟨p, lt_succ_of_lt hp, hsome, by rw [n.same p hp, hlevel]⟩

theorem Inv.nests_keeps (ht : t ∈ w.tasks) : Inv w' := by
  refine h.inherit n.inherits (h.levelled_nests n ht) (fun o ho => ?_) (fun x hx => ?_)
    (h.reaped_inherit n.inherits fun o ho hdied => n.same o ho ▸ hdied)
  · rw [n.count] at ho
    cases Nat.lt_succ_iff_lt_or_eq.mp ho with
    | inl hlt =>
      rw [n.same o hlt]
      exact h.counters o hlt
    | inr heq =>
      rw [heq, n.nextNr]
      exact ⟨Nat.le_refl 1, Nat.le_add_left 1 _⟩
  · exact n.inherits.known (h.member x (n.tasks ▸ hx)).nest

theorem Inv.chain_new (ht : t ∈ w.tasks) :
    w'.chain (some w.nsCount) = w.nsCount :: w.chain t.births := by
  have hknown := h.known_births ht
  rw [World.chain, maxLevel, chainOf, n.parent]
  refine congrArg (w.nsCount :: ·) (Eq.trans ?_ (chainOf_fuel h.levelled hknown ?_).symm)
  · exact chainOf_congr h.levelled hknown fun o ho => congrArg Ns.parent (n.same o ho)
  · intro p hp
    exact le_of_lt_succ (h.levelled p (hknown p hp)).1

theorem Inv.room_nests (ht : t ∈ w.tasks) : w'.Room (some w.nsCount) ↔ w.Room t.births := by
  have hchain := h.chain_new n ht
  have hlt : ∀ o ∈ w.chain t.births, o < w.nsCount := fun o ho =>
    mem_chainOf_lt h.levelled (h.known_births ht) ho
  constructor
  · intro hroom
    have hmem : ∀ o ∈ w.chain t.births, o ∈ w'.chain (some w.nsCount) := fun o ho =>
      hchain ▸ List.mem_cons_of_mem _ ho
    refine ⟨n.tasks ▸ n.nextPid ▸ hroom.pid, fun o ho => ?_, fun o ho => ?_⟩
    · rw [← n.same o (hlt o ho)]
      exact hroom.numbers o (hmem o ho)
    · rw [← n.same o (hlt o ho)]
      exact hroom.init o (hmem o ho)
  · intro hroom
    refine ⟨n.tasks ▸ n.nextPid ▸ hroom.pid, fun o ho => ?_, fun o ho => ?_⟩
    · rw [hchain] at ho
      cases List.mem_cons.mp ho with
      | inl heq =>
        rw [heq, n.nextNr]
        decide
      | inr hmem =>
        rw [n.same o (hlt o hmem)]
        exact hroom.numbers o hmem
    · rw [hchain] at ho
      cases List.mem_cons.mp ho with
      | inl heq => rw [heq, n.died]
      | inr hmem =>
        rw [n.same o (hlt o hmem)]
        exact hroom.init o hmem

end NewNs

end DosKernel.PidNs

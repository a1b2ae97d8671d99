import DosKernel.Vfs.Boot
import DosKernel.Vfs.View

namespace DosKernel.Vfs

open DosKernel.Lib Relation State
open Function (update update_eq_self update_eq_self_iff update_of_ne update_self)

variable {ψ : Type} {drv : Drivers ψ} {c : Caller} {s t : State ψ} {d m : ℕ}

-- One table of redirects per namespace, which only it changes and a new one copies from its parent.
abbrev Table := DentryId → Option DentryId

inductive MntCall where
  | new (parent : ℕ)
  | bind (c : Caller) (src tgt : Path)
  | unbind (c : Caller) (fuel : ℕ) (tgt : Path)
  | readonly (c : Caller) (path : Path) (ro : Bool)

structure Machine (ψ : Type) where
  vfs : State ψ
  table : ℕ → Table

-- A bind in a namespace's own table: refused over another, and between a directory and a file.
def tableBind (s : State ψ) (tbl : Table) (source target : DentryId) : Table :=
  match s.inodeOf source, s.inodeOf target with
  | some sino, some tino =>
    if (tbl target).isSome ∨ decide (sino.kind = .dir) ≠ decide (tino.kind = .dir) ∨
        source = target then tbl
    else update tbl target (some source)
  | _, _ => tbl

def Machine.step (drv : Drivers ψ) (h : Machine ψ) : MntCall → Machine ψ
  | .new parent =>
    { vfs := (vfsMntnsNew h.vfs parent).2
      table := update h.table h.vfs.ns.length (h.table parent) }
  | .bind c src tgt =>
    { vfs := (vfsBind drv c h.vfs src tgt).2
      table := match bindPaths drv c h.vfs src tgt with
        | ((some source, some target), s) =>
          update h.table c.mntns (tableBind s (h.table c.mntns) source target)
        | _ => h.table }
  | .unbind c fuel tgt =>
    { vfs := (vfsUnbind drv c fuel h.vfs tgt).2
      table := match bindTarget drv c h.vfs tgt with
        | (some target, _) =>
          update h.table c.mntns (update (h.table c.mntns) target none)
        | _ => h.table }
  | .readonly c path ro => { h with vfs := (vfsSetReadonly drv c h.vfs path ro).2 }

-- A task lives in a namespace that exists and has its "/" in the tree.
def MntCall.Legal (s : State ψ) : MntCall → Prop
  | .new _ => True
  | .bind c _ _ | .unbind c _ _ | .readonly c _ _ =>
    c.mntns < s.ns.length ∧ s.base c < s.dentries.next

-- A bind finds its target without a bind it cannot see, and room; an unbind removes a bind no other
-- namespace sees, not an anonymous filesystem's; no namespace is made right after a bind.
def separate (drv : Drivers ψ) (h : Machine ψ) : MntCall → Bool
  | .new parent => decide (h.vfs.dentries.All fun _ dn =>
    dn.bound.isSome → dn.boundNs = parent → dn.boundSeq < h.vfs.bindSeq)
  | .bind c src tgt =>
    decide (h.vfs.bindSeq + 1 < seqWrap) && decide (h.vfs.binds.length < maxBinds) &&
      match bindPaths drv c h.vfs src tgt with
      | ((_, some target), s) =>
        ((s.dentries.get target).bind (·.bound)).isNone || (s.boundFor c.mntns target).isSome
      | _ => true
  | .unbind c _ tgt =>
    match bindTarget drv c h.vfs tgt with
    | (some target, s) =>
      match s.boundFor c.mntns target with
      | none => true
      | some source =>
        decide (∀ m < s.ns.length, m ≠ c.mntns → s.boundFor m target = none) &&
          ((s.dentryPath c source).filter isAnon).isNone
    | _ => true
  | .readonly _ _ _ => decide (h.vfs.bindSeq + 1 < seqWrap)

-- The tree with exactly the binds of one table mounted in it.
def State.onlyBinds (s : State ψ) (m : ℕ) (tbl : Table) : State ψ :=
  { s with dentries := s.dentries.mapIdx fun d dn => { dn with bound := tbl d, boundNs := m } }

-- Every path resolves in any namespace as if only that namespace's table had ever been mounted.
def Isolated (drv : Drivers ψ) (h : Machine ψ) : Prop :=
  ∀ (c : Caller) (path : Path), c.mntns < h.vfs.ns.length →
    (resolvePath drv c h.vfs path).1 =
      (resolvePath drv c (h.vfs.onlyBinds c.mntns (h.table c.mntns)) path).1

theorem alike_onlyBinds {tbl : Table} (h : ∀ d, s.boundFor m d = tbl d) :
    Alike m s (s.onlyBinds m tbl) where
  inodes := rfl
  files := rfl
  root := rfl
  ns := rfl
  vol := rfl
  next := rfl
  bare d := by
    simp only [onlyBinds, Heap.mapIdx, Option.map_map]
    rfl
  bound d := by
    have hd := h d
    cases hget : s.dentries.get d with
    | none => simp [boundFor, onlyBinds, Heap.mapIdx, hget]
    | some dn =>
      rw [hd]
      simp [boundFor, onlyBinds, Heap.mapIdx, hget, nsVisible]

structure Agrees (s : State ψ) (table : ℕ → Table) : Prop where
  bounded : Bounded s
  older : ParentsOlder s.ns
  born : ∀ (n : ℕ) r, s.ns[n]? = some r → r.born ≤ s.bindSeq
  owner : ∀ {d dn}, s.dentries.get d = some dn → dn.bound.isSome → dn.boundNs < s.ns.length
  view : ∀ m < s.ns.length, ∀ d, s.boundFor m d = table m d

variable {table : ℕ → Table}

theorem Agrees.isolated {h : Machine ψ} (ha : Agrees h.vfs h.table) : Isolated drv h :=
  fun c path hc => (resolvePath_parallel (alike_onlyBinds (ha.view c.mntns hc)) path).value.symm

theorem update_rest {target n : ℕ} {x : Option DentryId} (hd : d ≠ target) :
    update table m (update (table m) target x) n d = table n d := by
  by_cases hn : n = m
  · subst hn
    simp [hd]
  · rw [update_of_ne hn]

section

variable (ha : Agrees s table)

include ha

theorem Agrees.fills (hf : Fills drv s t) : Agrees t table where
  bounded := Fills.bounded hf ha.bounded
  older := by
    rw [(Fills.extends hf).ns]
    exact ha.older
  born := by
    rw [(Fills.extends hf).ns, (Fills.extends hf).bindSeq]
    exact ha.born
  owner {d dn} hget hbound := by
    have hx := Fills.extends hf
    rw [hx.ns]
    by_cases hd : d < s.dentries.next
    · obtain ⟨l, hl⟩ := hx.dentry hd
      rw [hl] at hget
      obtain ⟨dn', hdn', rfl⟩ := Option.map_eq_some_iff.mp hget
      have howner := ha.owner hdn' hbound
      exact howner
    · simp [(hx.fresh (Nat.le_of_not_lt hd) hget).1] at hbound
  view m hm d := by
    rw [(Fills.extends hf).ns] at hm
    rw [(Fills.extends hf).view]
    exact ha.view m hm d

theorem Agrees.mntnsNew {parent : ℕ} (hp : parent < s.ns.length)
    (hlast : s.dentries.All fun _ dn =>
      dn.bound.isSome → dn.boundNs = parent → dn.boundSeq < s.bindSeq) :
    Agrees { s with ns := s.ns ++ [{ parent, born := s.bindSeq }] }
      (update table s.ns.length (table parent)) := by
  refine ⟨ha.bounded.addNs _, ha.older.concat hp, ?_, ?_, ?_⟩
  · intro n r hr
    obtain hr | ⟨-, rfl⟩ := concat_cases hr
    · exact ha.born n r hr
    · exact le_rfl
  · intro d dn hget hbound
    have := ha.owner hget hbound
    simp only [List.length_append, List.length_singleton]
    omega
  · intro m hm d
    simp only [List.length_append, List.length_singleton] at hm
    by_cases hold : m < s.ns.length
    · rw [update_of_ne hold.ne, ← ha.view m hold d]
      simp only [boundFor, nsVisible_append ha.older _ hold]
    · obtain rfl : m = s.ns.length := by omega
      rw [update_self, ← ha.view parent hp d]
      cases hget : s.dentries.get d with
      | none => simp [boundFor, hget]
      | some dn =>
        simp only [boundFor, hget, Option.bind_some]
        cases hbound : dn.bound with
        | none => simp
        | some e =>
          have hsome : dn.bound.isSome := by simp [hbound]
          rw [nsVisible_new ha.older hp (ha.owner hget hsome) fun ho =>
            hlast d dn hget hsome ho]

theorem Agrees.modified {target : ℕ} {f : Dentry → Dentry} {table' : ℕ → Table} (hb : Bounded t)
    (hd : t.dentries = s.dentries.modify target f) (hns : t.ns = s.ns)
    (hseq : s.bindSeq ≤ t.bindSeq)
    (howner : ∀ {dn}, s.dentries.get target = some dn → (f dn).bound.isSome →
      (f dn).boundNs < s.ns.length)
    (hself : ∀ n < s.ns.length, t.boundFor n target = table' n target)
    (hrest : ∀ n d, d ≠ target → table' n d = table n d) : Agrees t table' := by
  refine ⟨hb, hns ▸ ha.older, fun n r hr => ?_, fun {d dn} hget hbound => ?_, fun n hn d => ?_⟩
  · rw [hns] at hr
    exact (ha.born n r hr).trans hseq
  · rw [hd] at hget
    rw [hns]
    obtain ⟨dn, rfl, hdn, rfl⟩ | ⟨-, hget⟩ := Heap.get_modify_cases hget
    · exact howner hdn hbound
    · exact ha.owner hget hbound
  · rw [hns] at hn
    by_cases htarget : d = target
    · rw [htarget, hself n hn]
    · rw [hrest n d htarget, ← ha.view n hn d]
      unfold boundFor
      rw [hd, hns, Heap.get_modify_of_ne htarget]

theorem Agrees.installBind (hm : m < s.ns.length) {source target : ℕ}
    (hclock : s.bindSeq + 1 < seqWrap) (hsource : source < s.dentries.next)
    (hfree : (s.dentries.get target).bind (·.bound) = none)
    (hlive : (s.dentries.get target).isSome) :
    Agrees (s.installBind m target source)
      (update table m (update (table m) target (some source))) := by
  have hseq : s.nextSeq = s.bindSeq + 1 := Nat.mod_eq_of_lt hclock
  refine ha.modified (ha.bounded.installBind m hsource) rfl rfl (hseq.ge.trans' (Nat.le_succ _))
    (fun _ _ => hm) (fun n hn => ?_) fun n d hd => update_rest hd
  -- stamped after every birth, the new bind is seen in its own namespace only
  obtain ⟨dn, hdn⟩ := Option.isSome_iff_exists.mp hlive
  have hvis : nsVisible s.ns n m s.nextSeq = decide (m = n) := by
    have : inheritsFrom s.ns m s.nextSeq s.ns.length n = false := inheritsFrom_late fun k r hr =>
      (ha.born k r hr).trans (by omega)
    simp [nsVisible, this]
  have hnew : (s.installBind m target source).boundFor n target =
      if m = n then some source else none := by
    unfold boundFor
    rw [show (s.installBind m target source).dentries.get target = _ from Heap.get_modify_self, hdn]
    show (if nsVisible s.ns n m s.nextSeq = true then some source else none) = _
    rw [hvis]
    by_cases hmn : m = n <;> simp [hmn]
  rw [hnew]
  by_cases hmn : m = n
  · subst hmn
    simp
  · have hnone : dn.bound = none := by simpa [hdn] using hfree
    rw [if_neg hmn, update_of_ne (Ne.symm hmn), ← ha.view n hn target]
    simp [boundFor, hdn, hnone]

theorem Agrees.removeBind {target : ℕ}
    (halone : ∀ m' < s.ns.length, m' ≠ m → s.boundFor m' target = none) :
    Agrees (s.removeBind target)
      (update table m (update (table m) target none)) := by
  refine ha.modified (ha.bounded.removeBind target) rfl rfl le_rfl
    (fun _ hbound => by cases hbound) (fun n hn => ?_) fun n d hd => update_rest hd
  have hgone : (s.removeBind target).boundFor n target = none := by
    unfold boundFor
    rw [show (s.removeBind target).dentries.get target = _ from Heap.get_modify_self]
    cases s.dentries.get target <;> simp
  rw [hgone]
  by_cases hmn : n = m
  · subst hmn
    simp
  · rw [update_of_ne hmn, ← ha.view n hn target, halone n hn hmn]

theorem Agrees.markReadonly {target : ℕ} {ro : Bool}
    (hclock : s.bindSeq + 1 < seqWrap) : Agrees (s.markReadonly m target ro) table := by
  have hseq : s.nextSeq = s.bindSeq + 1 := Nat.mod_eq_of_lt hclock
  refine ha.modified (ha.bounded.markReadonly m target ro) rfl rfl (hseq.ge.trans' (Nat.le_succ _))
    (fun {dn} hdn hbound => @Agrees.owner _ _ _ ha _ dn hdn hbound) (fun n hn => ?_) fun _ _ _ => rfl
  rw [← ha.view n hn target]
  unfold boundFor
  rw [show (s.markReadonly m target ro).dentries.get target = _ from Heap.get_modify_self]
  cases s.dentries.get target <;> rfl

end

theorem get_of_inodeOf {ino : Inode} (h : s.inodeOf d = some ino) :
    ∃ dn, s.dentries.get d = some dn := by
  cases hget : s.dentries.get d with
  | none => simp [inodeOf, hget] at h
  | some dn => exact ⟨dn, rfl⟩

theorem agrees_step {h : Machine ψ} {call : MntCall} (ha : Agrees h.vfs h.table)
    (hlegal : call.Legal h.vfs) (hsep : separate drv h call = true) :
    Agrees (h.step drv call).vfs (h.step drv call).table := by
  cases call with
  | new parent =>
    have hall := of_decide_eq_true hsep
    simp only [Machine.step, vfsMntnsNew]
    split
    next hroom =>
      exact ha.mntnsNew hroom.2 hall
    · refine ⟨ha.bounded, ha.older, ha.born, ha.owner, fun m hm d => ?_⟩
      rw [update_of_ne hm.ne]
      exact ha.view m hm d
  | bind c src tgt =>
    obtain ⟨hm, hbase⟩ := hlegal
    have hf := bindPaths_fills drv c h.vfs src tgt
    simp only [separate, Bool.and_eq_true, decide_eq_true_eq] at hsep
    simp only [Machine.step, vfsBind]
    obtain ⟨⟨hclock, hroom⟩, htarget⟩ := hsep
    have hx := Fills.extends hf
    have ha' := ha.fills hf
    rcases hp : bindPaths drv c h.vfs src tgt with ⟨⟨source, target⟩, s⟩
    simp only [hp] at htarget hx ha'
    rcases source with _ | source
    · exact ha'
    rcases target with _ | target
    · exact ha'
    rw [← hx.bindSeq] at hclock
    rw [← hx.binds] at hroom
    rw [← hx.ns] at hm
    simp only [bindDentries, tableBind]
    rcases hsi : s.inodeOf source with _ | sino
    · simpa using ha'
    rcases hti : s.inodeOf target with _ | tino
    · simpa using ha'
    rw [← ha'.view c.mntns hm target]
    by_cases hseen : (s.boundFor c.mntns target).isSome = true
    · simpa [hseen] using ha'
    · by_cases hkind : decide (sino.kind = .dir) = decide (tino.kind = .dir)
      · by_cases hsame : source = target
        · simpa [hseen, hkind, hsame, Nat.not_le.mpr hroom] using ha'
        · simp only [hseen, hkind, hsame, Nat.not_le.mpr hroom, if_false, ne_eq,
            not_true_eq_false, or_self, Bool.false_eq_true]
          obtain ⟨sn, hsn⟩ := get_of_inodeOf hsi
          obtain ⟨tn, htn⟩ := get_of_inodeOf hti
          refine ha'.installBind hm hclock (Heap.lt_next hsn) ?_ (by simp [htn])
          simpa [hseen] using htarget
      · simpa [hseen, hkind] using ha'
  | unbind c fuel tgt =>
    obtain ⟨hm, hbase⟩ := hlegal
    have hf := bindTarget_fills drv c h.vfs tgt
    have ha' := ha.fills hf
    have hns := (Fills.extends hf).ns
    simp only [separate] at hsep
    simp only [Machine.step, vfsUnbind]
    rcases ht : bindTarget drv c h.vfs tgt with ⟨_ | target, s⟩
    · simpa only [ht] using ha'
    · simp only [ht] at hsep ha' hns ⊢
      rw [← hns] at hm
      cases hb : s.boundFor c.mntns target with
      | none =>
        have hself : update (h.table c.mntns) target none = h.table c.mntns := by
          rw [update_eq_self_iff, ← ha'.view c.mntns hm target, hb]
        simpa only [hself, update_eq_self] using ha'
      | some source =>
        simp only [hb, Bool.and_eq_true, decide_eq_true_eq, Option.isNone_iff_eq_none] at hsep
        simp only [hsep.2]
        exact ha'.removeBind hsep.1
  | readonly c path ro =>
    obtain ⟨hm, hbase⟩ := hlegal
    have hclock := of_decide_eq_true hsep
    simp only [Machine.step, vfsSetReadonly]
    by_cases hpath : path = ['/']
    · simp only [if_pos hpath]
      exact ha.markReadonly hclock
    · have hf := bindTarget_fills drv c h.vfs path
      have ha' := ha.fills hf
      have hseq := (Fills.extends hf).bindSeq
      simp only [if_neg hpath]
      rcases ht : bindTarget drv c h.vfs path with ⟨_ | target, s⟩
      · simpa only [ht] using ha'
      · simp only [ht] at ha' hseq ⊢
        rw [← hseq] at hclock
        exact ha'.markReadonly hclock

-- A tree before the first bind: the machine's namespace is the only one.
structure Unmounted (s : State ψ) : Prop where
  bounded : Bounded s
  unbound : ∀ {d dn}, s.dentries.get d = some dn → dn.bound = none
  ns : ∃ r, s.ns = [r] ∧ r.born ≤ s.bindSeq

def Machine.start (s : State ψ) : Machine ψ := { vfs := s, table := fun _ _ => none }

theorem agrees_start (hs : Unmounted s) : Agrees (Machine.start s).vfs (Machine.start s).table := by
  obtain ⟨r, hns, hborn⟩ := hs.ns
  have hget : ∀ {n q}, s.ns[n]? = some q → n = 0 ∧ q = r := by
    intro n q hq
    rw [hns] at hq
    cases n with
    | zero => exact ⟨rfl, (Option.some.inj hq).symm⟩
    | succ n => simp at hq
  refine ⟨hs.bounded, ?_, ?_, ?_, ?_⟩
  · intro n q hq hn
    have := (hget hq).1
    omega
  · intro n q hq
    rw [(hget hq).2]
    exact hborn
  · intro d dn hdn hbound
    simp [hs.unbound hdn] at hbound
  · intro m _ d
    cases hd : s.dentries.get d with
    | none => simp [Machine.start, boundFor, hd]
    | some dn => simp [Machine.start, boundFor, hd, hs.unbound hd]

-- In a run whose calls all keep to their own namespace, every namespace resolves every path by its
-- own table alone.
theorem isolated_of_separate (hs : Unmounted s) (calls : List MntCall)
    (hlegal : Allowed (Machine.step drv) (fun h call => call.Legal h.vfs) (.start s) calls)
    (hsep : Allowed (Machine.step drv) (fun h call => separate drv h call = true) (.start s) calls) :
    Always (Machine.step drv) (Isolated drv) (.start s) calls := by
  refine always_of_allowed ?_ (fun h (ha : Agrees h.vfs h.table) => ha.isolated)
    (agrees_start hs) (hlegal.and hsep)
  intro h call ha hok
  exact agrees_step ha hok.1 hok.2

theorem unmounted_bootTree (v : ψ) : Unmounted (bootTree v) where
  bounded := bounded_bootTree v
  unbound {d dn} h := by
    have hall : (bootTree ()).dentries.All fun _ dn => dn.bound = none := by decide
    exact hall d dn h
  ns := ⟨_, rfl, le_rfl⟩

def childTask : Caller := { kernelTask with mntns := 1 }

def separateCalls : List MntCall :=
  [.bind kernelTask "/etc".toList "/mnt".toList, .readonly kernelTask "/dev".toList true, .new 0,
    .bind childTask "/tmp".toList "/dev".toList, .unbind childTask 1 "/dev".toList]

theorem separateCalls_isolated :
    Always (Machine.step noVolumes) (Isolated noVolumes) (.start (bootTree ())) separateCalls :=
  isolated_of_separate (unmounted_bootTree ()) separateCalls
    ⟨⟨by decide, by decide⟩, ⟨by decide, by decide⟩, trivial, ⟨by decide, by decide⟩,
      ⟨by decide, by decide⟩, trivial⟩
    (by decide +kernel)

-- Two namespaces bind the same target: the second bind takes the first one's place.
def siblingCalls : List MntCall :=
  [.new 0, .bind kernelTask "/etc".toList "/mnt".toList,
    .bind childTask "/tmp".toList "/mnt".toList]

theorem siblingCalls_not_isolated :
    Allowed (Machine.step noVolumes) (fun h call => call.Legal h.vfs) (.start (bootTree ())) siblingCalls ∧
      ¬Always (Machine.step noVolumes) (Isolated noVolumes) (.start (bootTree ())) siblingCalls := by
  refine ⟨⟨trivial, ⟨by decide, by decide⟩, ⟨by decide, by decide⟩, trivial⟩, fun h => ?_⟩
  have hlast := h.2.2.2 kernelTask "/mnt".toList (by decide +kernel)
  revert hlast
  decide +kernel

end DosKernel.Vfs

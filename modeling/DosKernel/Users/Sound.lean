import DosKernel.Lib.Run
import DosKernel.Users.Database

namespace DosKernel.Users

open DosKernel.Identity DosKernel.Lib SlotTable List

structure Account.Plain (u : Account) : Prop where
  name : nameOk u.name = true ∧ nul ∉ u.name
  gid : u.gid = gidAdmin ∨ u.gid = gidUsers
  type : u.type = userTypePerson
  elevation : u.elevation = userElevPerOp ∨ u.elevation = userElevAlways
  home : u.home = "/root".toList ∨ u.home = "/home/".toList ++ u.name

structure AccountsSound (users : SlotTable Account) (nextUid : ℤ) : Prop where
  slots : users.length = userMaxAccounts
  root : ∃ r t, users = some r :: t ∧ r.name = rootName ∧ r.uid = uidRoot
  names : (users.live.map Account.name).Nodup
  uids : (users.live.map Account.uid).Nodup
  issued : ∀ u ∈ users.live, 0 ≤ u.uid ∧ u.uid < nextUid
  first : userUidFirst ≤ nextUid
  plain : ∀ u ∈ users.live, u.Plain

structure Group.Plain (nextUid nextGid : ℤ) (g : Group) : Prop where
  name : nameOk g.name = true ∧ nul ∉ g.name
  gid : 0 ≤ g.gid ∧ (g.gid < nextGid ∨ g.gid = gidUsers)
  places : g.members.length = groupMaxMembers
  members : ∀ m ∈ g.members, m = uidNone ∨ 0 ≤ m ∧ m < nextUid

structure GroupsSound (groups : SlotTable Group) (nextUid nextGid : ℤ) : Prop where
  slots : groups.length = userMaxGroups
  admins : ∃ g t, groups = some g :: t ∧ g.name = adminsName ∧ g.gid = gidAdmin ∧
    ∀ h ∈ SlotTable.live t, gidUsers ≤ h.gid
  names : (groups.live.map Group.name).Nodup
  first : gidUsers ≤ nextGid
  plain : ∀ g ∈ groups.live, g.Plain nextUid nextGid

def Group.Kind (g : Group) : Prop :=
  g.name = adminsName ∧ g.gid = gidAdmin ∨ g.name ≠ adminsName ∧ gidUsers ≤ g.gid

structure Db.Sound (db : Db) : Prop where
  accounts : AccountsSound db.users db.nextUid
  groups : GroupsSound db.groups db.nextUid db.nextGid

section Accounts

variable {users users' : SlotTable Account} {next : ℤ} {u v : Account} {f : Account → Option Account}

theorem AccountsSound.insert (h : AccountsSound users next) (hinsert : users.insert u = some users')
    (hname : ∀ w ∈ users.live, w.name ≠ u.name) (huid : u.uid = next) (hplain : u.Plain) :
    AccountsSound users' (next + 1) := by
  have hfirst := h.first
  refine ⟨?_, ?_, ?_, ?_, ?_, by omega, ?_⟩
  · rw [length_insert hinsert, h.slots]
  · obtain ⟨r, t, rfl, hr⟩ := h.root
    obtain ⟨t', -, rfl⟩ := Option.map_eq_some_iff.mp hinsert
    exact ⟨r, t', rfl, hr⟩
  · exact nodup_insert h.names hinsert hname
  · refine nodup_insert h.uids hinsert fun w hw heq => ?_
    have := (h.issued w hw).2
    omega
  · intro w hw
    rcases (mem_insert hinsert).mp hw with rfl | hw
    · have : (0 : ℤ) ≤ userUidFirst := by decide
      omega
    · have := h.issued w hw
      omega
  · intro w hw
    rcases (mem_insert hinsert).mp hw with rfl | hw
    · exact hplain
    · exact h.plain w hw

theorem AccountsSound.update (h : AccountsSound users next)
    (hu : users.find (·.name == u.name) = some u)
    (hf : ∀ v, f u = some v → v.name = u.name ∧ v.uid = u.uid ∧ v.Plain)
    (hroot : f u = none → u.uid ≠ uidRoot) :
    AccountsSound (users.update (·.name == u.name) f) next := by
  have hmem : ∀ w ∈ (users.update (·.name == u.name) f).live, f u = some w ∨ w ∈ users.live :=
    fun w hw => ((mem_update h.names hu).mp hw).imp_right And.left
  refine ⟨by simp [h.slots], ?_, nodup_update h.names hu fun w hw => (hf w hw).1,
    nodup_update h.uids hu fun w hw => (hf w hw).2.1, fun w hw => ?_, h.first,
    fun w hw => ?_⟩
  · obtain ⟨r, t, rfl, hr, hruid⟩ := h.root
    by_cases hru : r.name = u.name
    · have heq : u = r := by simpa [find, hru] using hu.symm
      subst heq
      cases hv : f u with
      | none => exact absurd hruid (hroot hv)
      | some v =>
        obtain ⟨hname, huid, -⟩ := hf v hv
        exact ⟨v, t, by simp [update, hv], hname.trans hr, huid.trans hruid⟩
    · exact ⟨r, _, update_cons_of_not (by simpa using hru), hr, hruid⟩
  · rcases hmem w hw with hw | hw
    · rw [(hf w hw).2.1]
      exact h.issued u (mem_of_find hu).1
    · exact h.issued w hw
  · rcases hmem w hw with hw | hw
    · exact (hf w hw).2.2
    · exact h.plain w hw

theorem AccountsSound.rewrite (h : AccountsSound users next)
    (hu : users.find (·.name == u.name) = some u) (hf : f u = some v) (hname : v.name = u.name)
    (huid : v.uid = u.uid) (hplain : v.Plain) :
    AccountsSound (users.update (·.name == u.name) f) next := by
  refine h.update hu (fun w hw => ?_) fun hnone => by cases hf.symm.trans hnone
  obtain rfl := Option.some.inj (hf.symm.trans hw)
  exact ⟨hname, huid, hplain⟩

end Accounts

theorem mem_of_mem_replace {l : List ℤ} {a b m : ℤ} (h : m ∈ l.replace a b) : m ∈ l ∨ m = b := by
  induction l with
  | nil => simp at h
  | cons x l ih =>
    rw [replace_cons] at h
    split at h
    · rcases mem_cons.mp h with h | h
      · exact Or.inr h
      · exact Or.inl (mem_cons_of_mem x h)
    · rcases mem_cons.mp h with h | h
      · exact Or.inl (h ▸ mem_cons_self)
      · exact (ih h).imp_left (mem_cons_of_mem x)

theorem mem_replace_of_ne {l : List ℤ} {a b m : ℤ} (h : m ∈ l) (hm : m ≠ a) : m ∈ l.replace a b := by
  induction l with
  | nil => cases h
  | cons x l ih =>
    rw [replace_cons]
    split
    · next hx =>
      rcases mem_cons.mp h with rfl | h
      · exact absurd (eq_of_beq hx).symm hm
      · exact mem_cons_of_mem b h
    · rcases mem_cons.mp h with rfl | h
      · exact mem_cons_self
      · exact mem_cons_of_mem x (ih h)

section Groups

variable {groups groups' : SlotTable Group} {nextUid nextGid : ℤ} {g g' : Group}
  {p : Group → Bool} {f : Group → Option Group}

section

variable (h : GroupsSound groups nextUid nextGid)

include h

theorem GroupsSound.mono {nextUid' nextGid' : ℤ} (huid : nextUid ≤ nextUid')
    (hgid : nextGid ≤ nextGid') : GroupsSound groups nextUid' nextGid' := by
  refine ⟨h.slots, h.admins, h.names, Int.le_trans h.first hgid, fun g hg => ?_⟩
  have hplain := h.plain g hg
  refine ⟨hplain.name, ⟨hplain.gid.1, ?_⟩, hplain.places, fun m hm => ?_⟩
  · exact hplain.gid.2.imp_left fun hlt => by omega
  · exact (hplain.members m hm).imp_right fun hm => ⟨hm.1, by omega⟩

theorem GroupsSound.kind (hg : g ∈ groups.live) : g.Kind := by
  obtain ⟨a, t, rfl, haname, hagid, hothers⟩ := h.admins
  have hnames := h.names
  rw [live_some_cons, map_cons, nodup_cons] at hnames
  rcases mem_cons.mp hg with rfl | hg
  · exact Or.inl ⟨haname, hagid⟩
  · refine Or.inr ⟨fun heq => hnames.1 ?_, hothers g hg⟩
    exact mem_map.mpr ⟨g, hg, heq.trans haname.symm⟩

theorem GroupsSound.of_kind (hslots : groups'.length = groups.length)
    (hhead : ∃ a t, groups' = some a :: t ∧ a.name = adminsName)
    (hnames : (groups'.live.map Group.name).Nodup)
    (hall : ∀ k ∈ groups'.live, k.Kind ∧ k.Plain nextUid nextGid) :
    GroupsSound groups' nextUid nextGid := by
  refine ⟨hslots.trans h.slots, ?_, hnames, h.first, fun k hk => (hall k hk).2⟩
  obtain ⟨a, t, rfl, ha⟩ := hhead
  rw [live_some_cons, map_cons, nodup_cons] at hnames
  refine ⟨a, t, rfl, ha, ?_, fun k hk => ?_⟩
  · exact ((hall a mem_cons_self).1.resolve_right fun hne => hne.1 ha).2
  · refine ((hall k (mem_cons_of_mem a hk)).1.resolve_left fun heq => hnames.1 ?_).2
    exact mem_map.mpr ⟨k, hk, heq.1.trans ha.symm⟩

theorem GroupsSound.insert
    (hinsert : groups.insert g = some groups') (hname : ∀ k ∈ groups.live, k.name ≠ g.name)
    (hgid : g.name ≠ adminsName → gidUsers ≤ g.gid) (hplain : g.Plain nextUid nextGid) :
    GroupsSound groups' nextUid nextGid := by
  obtain ⟨a, t, rfl, ha, -, -⟩ := h.admins
  have hne : g.name ≠ adminsName := fun heq => hname a mem_cons_self (ha.trans heq.symm)
  refine h.of_kind (length_insert hinsert) ?_ (nodup_insert h.names hinsert hname) fun k hk => ?_
  · obtain ⟨t', -, rfl⟩ := Option.map_eq_some_iff.mp hinsert
    exact ⟨a, t', rfl, ha⟩
  · rcases (mem_insert hinsert).mp hk with rfl | hk
    · exact ⟨Or.inr ⟨hne, hgid hne⟩, hplain⟩
    · exact ⟨h.kind hk, h.plain k hk⟩

theorem GroupsSound.update (hg : groups.find p = some g)
    (hf : ∀ k, f g = some k → k.name = g.name ∧ k.Kind ∧ k.Plain nextUid nextGid)
    (hadmin : f g = none → g.gid ≠ gidAdmin) :
    GroupsSound (groups.update p f) nextUid nextGid := by
  refine h.of_kind (by simp) ?_ (nodup_update h.names hg fun k hk => (hf k hk).1) fun k hk => ?_
  · obtain ⟨a, t, rfl, ha, hagid, -⟩ := h.admins
    by_cases hpa : p a = true
    · obtain rfl : g = a := by simpa [find, hpa] using hg.symm
      cases hk : f g with
      | none => exact absurd hagid (hadmin hk)
      | some k => exact ⟨k, t, by simp [update, hpa, hk], (hf k hk).1.trans ha⟩
    · exact ⟨a, _, update_cons_of_not (by simpa using hpa), ha⟩
  · rcases (mem_update h.names hg).mp hk with hk | hk
    · exact (hf k hk).2
    · exact ⟨h.kind hk.1, h.plain k hk.1⟩

theorem GroupsSound.rewrite
    (hg : groups.find p = some g) (hf : f g = some g') (hname : g'.name = g.name)
    (hgid : g'.gid = g.gid) (hplain : g'.Plain nextUid nextGid) :
    GroupsSound (groups.update p f) nextUid nextGid := by
  refine h.update hg (fun k hk => ?_) fun hnone => by cases hf.symm.trans hnone
  obtain rfl := Option.some.inj (hf.symm.trans hk)
  have hkind := h.kind (mem_of_find hg).1
  rw [Group.Kind, ← hname, ← hgid] at hkind
  exact ⟨hname, hkind, hplain⟩

end

theorem Group.Plain.dropMember (h : g.Plain nextUid nextGid) (uid : ℤ) :
    (g.dropMember uid).Plain nextUid nextGid := by
  refine ⟨h.name, h.gid, by simp [Group.dropMember, h.places], fun m hm => ?_⟩
  obtain ⟨k, hk, rfl⟩ := mem_map.mp hm
  split
  · exact Or.inl rfl
  · exact h.members k hk

theorem Group.Plain.addMember {uid : ℤ} (h : g.Plain nextUid nextGid) (huid : 0 ≤ uid ∧ uid < nextUid) :
    (g.addMember uid).Plain nextUid nextGid := by
  refine ⟨h.name, h.gid, by simp [Group.addMember, h.places], fun m hm => ?_⟩
  rcases mem_of_mem_replace hm with hm | rfl
  · exact h.members m hm
  · exact Or.inr huid

theorem GroupsSound.dropMember (h : GroupsSound groups nextUid nextGid) (uid : ℤ) :
    GroupsSound (groups.map (Option.map (Group.dropMember uid))) nextUid nextGid := by
  refine h.of_kind (length_map _) ?_ ?_ fun k hk => ?_
  · obtain ⟨a, t, rfl, ha, -, -⟩ := h.admins
    exact ⟨a.dropMember uid, _, rfl, ha⟩
  · rw [live_map, map_map]
    exact h.names
  · rw [live_map] at hk
    obtain ⟨j, hj, rfl⟩ := mem_map.mp hk
    exact ⟨h.kind (g := j) hj, (h.plain j hj).dropMember uid⟩

theorem GroupsSound.adminGroup (h : GroupsSound groups nextUid nextGid) :
    ∃ a, groups.find (·.gid == gidAdmin) = some a ∧ a.Plain nextUid nextGid := by
  obtain ⟨a, t, rfl, -, hagid, -⟩ := h.admins
  exact ⟨a, by simp [find, hagid], h.plain a (by simp)⟩

end Groups

variable {kdf : Kdf} {db db' : Db} {c : Cred} {r : Request}

theorem nameOk_length {name : Text} (h : nameOk name = true) : name.length ≤ userNameMax := by
  simp only [nameOk, Bool.and_eq_true, decide_eq_true_eq] at h
  exact h.1.2

theorem sCopy_name {name : Text} (h : nameOk name = true) : sCopy (userNameMax + 1) name = name :=
  take_of_length_le (nameOk_length h)

theorem newAccount_plain {name : Text} (h : nameOk name = true ∧ nul ∉ name) (makeAdmin : Bool)
    (conf : ℤ) : (newAccount db name makeAdmin conf).Plain := by
  have hlen : name.length ≤ 31 := nameOk_length h.1
  refine ⟨?_, ?_, rfl, Or.inl rfl, Or.inr ?_⟩
  · simpa [newAccount, sCopy_name h.1] using h
  · cases makeAdmin
    · exact Or.inr rfl
    · exact Or.inl rfl
  · simp only [newAccount, sCopy_name h.1]
    rw [sCat, show sCopy (userPathMax + 1) "/home/".toList = "/home/".toList by decide,
      take_of_length_le (by simpa [userPathMax] using by omega)]

theorem effect_sound (h : db.Sound) (he : Effect kdf db c r db') : db'.Sound := by
  have hlive : ∀ {u : Account}, userByName db u.name = some u → u ∈ db.users.live :=
    fun hu => (mem_of_find hu).1
  cases he with
  | unchanged => exact h
  | added name makeAdmin conf users hreq hname hgate hfresh hinsert =>
    refine ⟨h.accounts.insert hinsert (fun w hw => ?_) rfl (newAccount_plain hname _ _), ?_⟩
    · have := find_none.mp hfresh w hw
      simpa [newAccount, sCopy_name hname.1] using this
    · exact h.groups.mono (Int.le_add_one (Int.le_refl _)) (Int.le_refl _)
  | removed u hu hroot hgate =>
    exact ⟨h.accounts.update hu (fun v hv => by cases hv) fun _ => hroot, h.groups.dropMember u.uid⟩
  | disabled u hu hgate hstrand | secured u password salt conf hu hgate =>
    have hp := h.accounts.plain u (hlive hu)
    refine ⟨h.accounts.rewrite hu rfl rfl rfl ?_, h.groups⟩
    exact ⟨hp.name, hp.gid, hp.type, hp.elevation, hp.home⟩
  | elevated u mode hu hmode =>
    have hp := h.accounts.plain u (hlive hu)
    refine ⟨h.accounts.rewrite hu rfl rfl rfl ?_, h.groups⟩
    exact ⟨hp.name, hp.gid, hp.type, hmode, hp.home⟩
  | promoted u hu hgate =>
    refine ⟨h.accounts, ?_⟩
    obtain ⟨a, hfind, hplain⟩ := h.groups.adminGroup
    exact h.groups.rewrite hfind rfl rfl rfl (hplain.addMember (h.accounts.issued u (hlive hu)))
  | demoted u hu hroot hgate hstrand =>
    have hp := h.accounts.plain u (hlive hu)
    obtain ⟨a, hfind, hplain⟩ := h.groups.adminGroup
    refine ⟨h.accounts.rewrite hu rfl rfl rfl ?_, h.groups.rewrite hfind rfl rfl rfl (hplain.dropMember u.uid)⟩
    refine ⟨hp.name, ?_, hp.type, hp.elevation, hp.home⟩
    rcases hp.gid with hgid | hgid
    · exact Or.inr (if_pos hgid)
    · refine Or.inr ?_
      simp [hgid, gidUsers, gidAdmin]
  | groupCreated name groups hreq hname hfresh hinsert =>
    have hgroups := h.groups.mono (Int.le_refl db.nextUid) (Int.le_add_one (Int.le_refl db.nextGid))
    refine ⟨h.accounts, hgroups.insert hinsert (fun k hk => ?_) (fun _ => h.groups.first) ?_⟩
    · have := find_none.mp hfresh k hk
      simpa [sCopy_name hname.1] using this
    · have hfirst : (100 : ℤ) ≤ db.nextGid := h.groups.first
      have hgid : 0 ≤ db.nextGid ∧ (db.nextGid < db.nextGid + 1 ∨ db.nextGid = gidUsers) := by omega
      refine ⟨by simpa [sCopy_name hname.1] using hname, hgid, rfl, fun m hm => ?_⟩
      exact Or.inl (eq_of_mem_replicate hm)
  | groupDestroyed g hg hadmin =>
    exact ⟨h.accounts, h.groups.update hg (fun k hk => by cases hk) fun _ => hadmin⟩
  | joined g u hg hu hadmin =>
    have hp := h.groups.plain g (mem_of_find hg).1
    exact ⟨h.accounts, h.groups.rewrite hg rfl rfl rfl
      (hp.addMember (h.accounts.issued u (hlive hu)))⟩
  | left g u hg hadmin =>
    have hp := h.groups.plain g (mem_of_find hg).1
    exact ⟨h.accounts, h.groups.rewrite hg rfl rfl rfl (hp.dropMember u.uid)⟩

def adminsGroup : Group := { name := adminsName, gid := gidAdmin }

def usersGroup : Group := { name := usersName, gid := gidUsers }

theorem usersInit_eq (kdf : Kdf) (salt : Salt) :
    usersInit kdf salt =
      { users := some (rootAccount kdf salt) :: replicate 31 none
        groups := some adminsGroup :: some usersGroup :: replicate 14 none } := rfl

theorem rootAccount_plain (kdf : Kdf) (salt : Salt) : (rootAccount kdf salt).Plain :=
  ⟨⟨(by decide : nameOk rootName = true), (by decide : nul ∉ rootName)⟩, Or.inl rfl, rfl, Or.inl rfl,
    Or.inl rfl⟩

theorem builtin_plain {name : Text} {gid : ℤ} (hname : nameOk name = true ∧ nul ∉ name)
    (hgid : 0 ≤ gid ∧ (gid < 100 ∨ gid = gidUsers)) :
    ({ name := name, gid := gid } : Group).Plain userUidFirst 100 :=
  ⟨hname, hgid, rfl, fun _ hm => Or.inl (eq_of_mem_replicate hm)⟩

theorem usersInit_sound (kdf : Kdf) (salt : Salt) : (usersInit kdf salt).Sound := by
  rw [usersInit_eq]
  refine ⟨⟨rfl, ⟨_, _, rfl, rfl, rfl⟩, ?_, ?_, ?_, Int.le_refl _, ?_⟩,
    ⟨rfl, ⟨_, _, rfl, rfl, rfl, ?_⟩, ?_, Int.le_refl _, ?_⟩⟩
  · simp
  · simp
  · have huid : (rootAccount kdf salt).uid = 0 := rfl
    simp [huid, userUidFirst]
  · simpa using rootAccount_plain kdf salt
  · simp [usersGroup]
  · have : adminsGroup.name ≠ usersGroup.name := by decide
    simpa using this
  · intro g hg
    simp only [live_some_cons, live_replicate_none, mem_cons,
      not_mem_nil, or_false] at hg
    rcases hg with rfl | rfl
    · exact builtin_plain (by decide) (by decide)
    · exact builtin_plain (by decide) (by decide)

theorem run_sound (kdf : Kdf) (h : db.Sound) (calls : List Call) : (run (step kdf) db calls).Sound := by
  induction calls generalizing db with
  | nil => exact h
  | cons call calls ih => exact ih (effect_sound h (effect_step kdf db call))

theorem sound_always (kdf : Kdf) (salt : Salt) (calls : List Call) :
    Always (step kdf) Db.Sound (usersInit kdf salt) calls :=
  always_of_step (fun db call h => effect_sound h (effect_step kdf db call)) (fun _ h => h)
    (usersInit_sound kdf salt)

end DosKernel.Users

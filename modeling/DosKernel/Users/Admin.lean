import Mathlib.Data.Set.Defs
import DosKernel.Users.Sound

namespace DosKernel.Users

open DosKernel.Identity DosKernel.Lib SlotTable List Option

variable {kdf : Kdf} {db db' : Db} {c : Cred} {r : Request} {u v w : Account}

-- Logged in as root, or a session of the system before the machine has an administrator.
def MayAdminister (db : Db) (c : Cred) : Prop :=
  c.owner = .user ∧ c.uid = uidRoot ∨ c.owner ≠ .user ∧ usersNeedsSetup db = true

def adminAccounts (db : Db) : Set (Text × ℤ) :=
  { k | ∃ u ∈ db.users.live, userIsAdminUid db u.uid = true ∧ (u.name, u.uid) = k }

def Account.password (u : Account) : Option (ℕ × Text × Text) :=
  if u.hasPassword then some (u.kdfIters, u.saltHex, u.hashHex) else none

def passwordOf (db : Db) (uid : ℤ) : Option (ℕ × Text × Text) :=
  (userByUid db uid).bind Account.password

-- Root exists and is an administrator, and somebody can log in as one.
structure Administrable (db : Db) : Prop where
  root : ∃ u, userByName db rootName = some u ∧ userIsAdminUid db u.uid = true
  usable : ∃ u ∈ db.users.live, u.type = userTypePerson ∧ u.hasPassword = true ∧
    userIsAdminUid db u.uid = true

structure LeavesAdmins (db db' : Db) (c : Cred) : Prop where
  admins : adminAccounts db' ≠ adminAccounts db → MayAdminister db c
  passwords : ∀ u ∈ db.users.live, userIsAdminUid db u.uid = true → actsFor c u = false →
    passwordOf db' u.uid ≠ passwordOf db u.uid → MayAdminister db c

theorem mayAdminister_of_actorIsRoot (h : actorIsRoot db c = true) : MayAdminister db c := by
  unfold actorIsRoot at h
  split at h
  · next howner => exact Or.inr ⟨howner, h⟩
  · next howner =>
    have howner' : c.owner = .user := by simpa using howner
    simp only [credIsRoot, credUid, howner', if_true, decide_eq_true_eq] at h
    exact Or.inl ⟨howner', h⟩

def stamp (u : Account) : Text × ℤ × ℤ := (u.name, u.uid, u.gid)

def adminMembers (db : Db) : List ℤ := ((groupByGid db gidAdmin).map Group.members).getD []

def AdminBy (members : List ℤ) (k : Text × ℤ × ℤ) : Prop :=
  k.2.1 = uidRoot ∨ k.2.2 = gidAdmin ∨ k.2.1 ∈ members

theorem uid_ne_none (h : db.Sound) (hu : u ∈ db.users.live) : u.uid ≠ uidNone := by
  have hpos := (h.accounts.issued u hu).1
  simp only [uidNone]
  omega

theorem userByUid_of_live (h : db.Sound) (hu : u ∈ db.users.live) : userByUid db u.uid = some u := by
  rw [userByUid, if_neg (uid_ne_none h hu)]
  exact find_key h.accounts.uids hu

theorem userIsAdminUid_iff (h : db.Sound) (hu : u ∈ db.users.live) :
    userIsAdminUid db u.uid = true ↔ AdminBy (adminMembers db) (stamp u) := by
  obtain ⟨a, hfind, -⟩ := h.groups.adminGroup
  have hgroup : groupByGid db gidAdmin = some a := hfind
  rw [userIsAdminUid, userByUid_of_live h hu]
  simp only [AdminBy, stamp, adminMembers, hgroup, any_some, groupHas, map_some,
    getD_some]
  split
  · next hroot => simp [hroot]
  · next hroot =>
    split
    · next hgid => simp [hgid]
    · next hgid => simp [hroot, hgid]

theorem adminAccounts_eq (h : db.Sound) :
    adminAccounts db =
      { k | ∃ s ∈ db.users.live.map stamp, AdminBy (adminMembers db) s ∧ (s.1, s.2.1) = k } := by
  ext k
  constructor
  · rintro ⟨u, hu, hadmin, rfl⟩
    exact ⟨stamp u, mem_map_of_mem hu, (userIsAdminUid_iff h hu).mp hadmin, rfl⟩
  · rintro ⟨s, hs, hadmin, rfl⟩
    obtain ⟨u, hu, rfl⟩ := mem_map.mp hs
    exact ⟨u, hu, (userIsAdminUid_iff h hu).mpr hadmin, rfl⟩

theorem passwordOf_live (h : db.Sound) (hu : u ∈ db.users.live) : passwordOf db u.uid = u.password := by
  rw [passwordOf, userByUid_of_live h hu, bind_some]

theorem adminMembers_cons {a : Group} {t : SlotTable Group} (h : db.groups = some a :: t)
    (ha : a.gid = gidAdmin) : adminMembers db = a.members := by
  simp [adminMembers, groupByGid, h, find, ha]

theorem adminMembers_update {g : Group} {f : Group → Option Group} (h : db.Sound)
    (hg : groupByName db g.name = some g) (hadmin : g.gid ≠ gidAdmin) :
    adminMembers { db with groups := db.groups.update (·.name == g.name) f } = adminMembers db := by
  obtain ⟨a, t, hgroups, -, hagid, -⟩ := h.groups.admins
  have hag : a.name ≠ g.name := by
    intro hag
    have heq : g = a := by simpa [groupByName, find, hgroups, hag] using hg.symm
    exact hadmin (heq ▸ hagid)
  have hfirst : db.groups.update (·.name == g.name) f =
      some a :: update (·.name == g.name) f t := by
    rw [hgroups, update_cons_of_not (by simpa using hag)]
  rw [adminMembers_cons hgroups hagid]
  exact adminMembers_cons hfirst hagid

theorem adminMembers_insert {g : Group} {groups : SlotTable Group} {n : ℤ} (h : db.Sound)
    (hinsert : db.groups.insert g = some groups) :
    adminMembers { db with groups := groups, nextGid := n } = adminMembers db := by
  obtain ⟨a, t, hgroups, -, hagid, -⟩ := h.groups.admins
  rw [hgroups] at hinsert
  obtain ⟨t', -, rfl⟩ := map_eq_some_iff.mp hinsert
  rw [adminMembers_cons hgroups hagid]
  exact adminMembers_cons rfl hagid

theorem mem_dropMember {g : Group} {m uid : ℤ} (hm : m ≠ uidNone) :
    m ∈ (g.dropMember uid).members ↔ m ∈ g.members ∧ m ≠ uid := by
  simp only [Group.dropMember, List.mem_map]
  constructor
  · rintro ⟨k, hk, heq⟩
    split at heq
    · exact absurd heq.symm hm
    · next hne => exact ⟨heq ▸ hk, heq ▸ hne⟩
  · rintro ⟨hmem, hne⟩
    exact ⟨m, hmem, if_neg hne⟩

def UsableBeside (db : Db) (uid : ℤ) : Prop :=
  ∃ w ∈ db.users.live, w.uid ≠ uid ∧ w.type = userTypePerson ∧ w.hasPassword = true ∧
    AdminBy (adminMembers db) (stamp w)

theorem usableBeside_of_not_strand (h : db.Sound) {uid : ℤ} (hs : wouldStrandMachine db uid = false) :
    UsableBeside db uid := by
  have hpos : 0 < usableAdminCount db uid := by
    simp only [wouldStrandMachine, beq_eq_false_iff_ne] at hs
    omega
  obtain ⟨w, hw, hp⟩ := countP_pos_iff.mp hpos
  simp only [usableAdmin, Bool.and_eq_true, decide_eq_true_eq] at hp
  exact ⟨w, hw, hp.1, hp.2.1.1, hp.2.1.2, (userIsAdminUid_iff h hw).mp hp.2.2⟩

def Usable (db : Db) : Prop :=
  ∃ w ∈ db.users.live, w.type = userTypePerson ∧ w.hasPassword = true ∧
    AdminBy (adminMembers db) (stamp w)

theorem usableBeside_of_gate (h : db.Sound) (husable : Usable db)
    (hgate : userIsAdminUid db u.uid = true → wouldStrandMachine db u.uid = false) :
    UsableBeside db u.uid := by
  by_cases hadmin : userIsAdminUid db u.uid = true
  · exact usableBeside_of_not_strand h (hgate hadmin)
  · obtain ⟨w, hw, htype, hpw, hby⟩ := husable
    refine ⟨w, hw, fun heq => hadmin ?_, htype, hpw, hby⟩
    rw [← heq]
    exact (userIsAdminUid_iff h hw).mpr hby

abbrev amend (db : Db) (u : Account) (f : Account → Option Account) (groups : SlotTable Group) : Db :=
  { db with users := db.users.update (·.name == u.name) f, groups := groups }

section Rewrite

variable {f : Account → Option Account} {groups : SlotTable Group}

theorem mem_update_of_ne (h : db.Sound) (hu : userByName db u.name = some u)
    (hw : w ∈ db.users.live) (hne : w.uid ≠ u.uid) :
    w ∈ (db.users.update (·.name == u.name) f).live := by
  refine (mem_update h.accounts.names hu).mpr (Or.inr ⟨hw, fun hname => hne ?_⟩)
  rw [key_inj h.accounts.names hw (mem_of_find hu).1 hname]

theorem usable_of_beside (h : db.Sound) (hu : userByName db u.name = some u)
    (hb : UsableBeside db u.uid)
    (hmembers : ∀ w ∈ db.users.live, w.uid ≠ u.uid → w.uid ∈ adminMembers db →
      w.uid ∈ adminMembers (amend db u f groups)) :
    Usable (amend db u f groups) := by
  obtain ⟨w, hw, hne, htype, hpw, hby⟩ := hb
  refine ⟨w, mem_update_of_ne h hu hw hne, htype, hpw, ?_⟩
  exact hby.imp_right (Or.imp_right (hmembers w hw hne))

theorem usable_update (h : db.Sound) (husable : Usable db) (hu : userByName db u.name = some u)
    (hf : f u = some v) (hv : stamp v = stamp u) (htype : v.type = u.type)
    (hpw : u.hasPassword = true → v.hasPassword = true) :
    Usable (amend db u f db.groups) := by
  obtain ⟨w, hw, hwtype, hwpw, hby⟩ := husable
  by_cases hwu : w.uid = u.uid
  · -- the rewritten account itself can still log in
    obtain rfl : w = u := key_inj h.accounts.uids hw (mem_of_find hu).1 hwu
    exact ⟨v, (mem_update h.accounts.names hu).mpr (Or.inl hf), htype.trans hwtype, hpw hwpw, hv ▸ hby⟩
  · exact usable_of_beside h hu ⟨w, hw, hwu, hwtype, hwpw, hby⟩ fun w _ _ hmem => hmem

theorem adminAccounts_rewrite (h : db.Sound) (h' : (amend db u f db.groups).Sound)
    (hu : userByName db u.name = some u) (hf : f u = some v) (hv : stamp v = stamp u) :
    adminAccounts (amend db u f db.groups) = adminAccounts db := by
  rw [adminAccounts_eq h, adminAccounts_eq h', map_update hu hf hv]
  rfl

theorem passwordOf_rewrite (h : db.Sound) (hu : userByName db u.name = some u)
    (h' : (amend db u f groups).Sound) (hw : w ∈ db.users.live) (hne : w.uid ≠ u.uid) :
    passwordOf (amend db u f groups) w.uid = passwordOf db w.uid := by
  rw [passwordOf_live h hw, passwordOf_live h' (mem_update_of_ne h hu hw hne)]

end Rewrite

theorem adminMembers_dropMember (h : db.Sound) {users : SlotTable Account} {uid m : ℤ}
    (hm : m ≠ uidNone) :
    m ∈ adminMembers { db with
      users := users, groups := db.groups.map (Option.map (Group.dropMember uid)) } ↔
      m ∈ adminMembers db ∧ m ≠ uid := by
  obtain ⟨a, t, hgroups, -, hagid, -⟩ := h.groups.admins
  have hfirst : db.groups.map (Option.map (Group.dropMember uid)) =
      some (a.dropMember uid) :: t.map (Option.map (Group.dropMember uid)) := by
    rw [hgroups, map_cons, Option.map_some]
  rw [adminMembers_cons hgroups hagid, adminMembers_cons (a := a.dropMember uid) hfirst hagid]
  exact mem_dropMember hm

theorem adminMembers_rewrite (h : db.Sound) (users : SlotTable Account) (f : Group → Group)
    (hf : ∀ g, (f g).gid = g.gid) : ∃ a : Group, adminMembers db = a.members ∧
      adminMembers { db with
        users := users, groups := db.groups.update (·.gid == gidAdmin) fun g => some (f g) } =
        (f a).members := by
  obtain ⟨a, t, hgroups, -, hagid, -⟩ := h.groups.admins
  have hfirst : db.groups.update (·.gid == gidAdmin) (fun g => some (f g)) = some (f a) :: t := by
    rw [hgroups, update, if_pos (by simpa using hagid)]
  exact ⟨a, adminMembers_cons hgroups hagid,
    adminMembers_cons (a := f a) hfirst ((hf a).trans hagid)⟩

theorem effect_usable (h : db.Sound) (husable : Usable db) (he : Effect kdf db c r db') : Usable db' := by
  have hsame : ∀ {groups : SlotTable Group} {n : ℤ},
      adminMembers { db with groups := groups, nextGid := n } = adminMembers db →
      Usable { db with groups := groups, nextGid := n } := by
    intro groups n hmembers
    obtain ⟨w, hw, htype, hpw, hby⟩ := husable
    exact ⟨w, hw, htype, hpw, by rwa [hmembers]⟩
  cases he with
  | unchanged => exact husable
  | added name makeAdmin conf users hreq hname hgate hfresh hinsert =>
    obtain ⟨w, hw, hrest⟩ := husable
    exact ⟨w, (mem_insert hinsert).mpr (Or.inr hw), hrest⟩
  | removed u hu hroot hgate =>
    refine usable_of_beside h hu (usableBeside_of_gate h husable fun ha => (hgate ha).2) ?_
    intro w hw hne hmem
    exact (adminMembers_dropMember h (uid_ne_none h hw)).mpr ⟨hmem, hne⟩
  | disabled u hu hgate hstrand =>
    exact usable_of_beside h hu (usableBeside_of_gate h husable hstrand) fun w _ _ hmem => hmem
  | secured u password salt conf hu hgate =>
    exact usable_update h husable hu rfl rfl rfl fun _ => rfl
  | elevated u mode hu hmode => exact usable_update h husable hu rfl rfl rfl id
  | promoted u hu hgate =>
    obtain ⟨a, hmembers, hmembers'⟩ :=
      adminMembers_rewrite h db.users (Group.addMember u.uid) fun _ => rfl
    obtain ⟨w, hw, htype, hpw, hby⟩ := husable
    refine ⟨w, hw, htype, hpw, hby.imp_right (Or.imp_right fun hmem => ?_)⟩
    rw [hmembers']
    rw [hmembers] at hmem
    exact mem_replace_of_ne hmem (uid_ne_none h hw)
  | demoted u hu hroot hgate hstrand =>
    refine usable_of_beside h hu (usableBeside_of_not_strand h hstrand) fun w hw hne hmem => ?_
    obtain ⟨a, hmembers, hmembers'⟩ := adminMembers_rewrite h _ (Group.dropMember u.uid) fun _ => rfl
    rw [hmembers']
    rw [hmembers] at hmem
    exact (mem_dropMember (uid_ne_none h hw)).mpr ⟨hmem, hne⟩
  | groupCreated name groups hreq hname hfresh hinsert => exact hsame (adminMembers_insert h hinsert)
  | groupDestroyed g hg hadmin | joined g u hg hu hadmin | left g u hg hadmin =>
    exact hsame (adminMembers_update h hg hadmin)

theorem leavesAdmins_of_root (h : actorIsRoot db c = true) : LeavesAdmins db db' c :=
  ⟨fun _ => mayAdminister_of_actorIsRoot h, fun _ _ _ _ _ => mayAdminister_of_actorIsRoot h⟩

theorem adminAccounts_added (h : db.Sound) {users : SlotTable Account}
    (hinsert : db.users.insert u = some users) (huid : u.uid = db.nextUid) (hgid : u.gid = gidUsers)
    (h' : Db.Sound { db with users := users, nextUid := db.nextUid + 1 }) :
    adminAccounts { db with users := users, nextUid := db.nextUid + 1 } = adminAccounts db := by
  have hnew : ¬AdminBy (adminMembers db) (stamp u) := by
    have hfirst := h.accounts.first
    simp only [userUidFirst] at hfirst
    rintro (hroot | hadmin | hmem)
    · simp only [stamp, huid, uidRoot] at hroot
      omega
    · exact absurd (hgid.symm.trans hadmin) (by decide)
    · obtain ⟨a, hfind, hplain⟩ := h.groups.adminGroup
      have hgroup : groupByGid db gidAdmin = some a := hfind
      simp only [stamp, adminMembers, hgroup, map_some, getD_some, huid] at hmem
      have := hplain.members _ hmem
      simp only [uidNone] at this
      omega
  rw [adminAccounts_eq h, adminAccounts_eq h']
  ext k
  constructor
  · rintro ⟨s, hs, hby, hk⟩
    obtain ⟨w, hw, rfl⟩ := mem_map.mp hs
    rcases (mem_insert hinsert).mp hw with rfl | hw
    · exact absurd hby hnew
    · exact ⟨stamp w, mem_map_of_mem hw, hby, hk⟩
  · rintro ⟨s, hs, hby, hk⟩
    obtain ⟨w, hw, rfl⟩ := mem_map.mp hs
    exact ⟨stamp w, mem_map_of_mem ((mem_insert hinsert).mpr (Or.inr hw)), hby, hk⟩

theorem adminAccounts_removed (h : db.Sound) (hu : userByName db u.name = some u)
    (hadmin : userIsAdminUid db u.uid = false) {groups : SlotTable Group}
    (hgroups : groups = db.groups.map (Option.map (Group.dropMember u.uid)))
    (h' : (amend db u (fun _ => none) groups).Sound) :
    adminAccounts (amend db u (fun _ => none) groups) = adminAccounts db := by
  subst hgroups
  have hulive := (mem_of_find hu).1
  rw [adminAccounts_eq h, adminAccounts_eq h']
  have hby : ∀ w ∈ db.users.live, w.uid ≠ u.uid →
      (AdminBy (adminMembers (amend db u (fun _ => none)
        (db.groups.map (Option.map (Group.dropMember u.uid))))) (stamp w) ↔
        AdminBy (adminMembers db) (stamp w)) := by
    intro w hw hne
    simp only [AdminBy, stamp, adminMembers_dropMember h (uid_ne_none h hw)]
    tauto
  ext k
  constructor
  · rintro ⟨s, hs, hsby, hk⟩
    obtain ⟨w, hw, rfl⟩ := mem_map.mp hs
    rcases (mem_update h.accounts.names hu).mp hw with hw | ⟨hw, hname⟩
    · cases hw
    · refine ⟨stamp w, mem_map_of_mem hw, (hby w hw fun heq => hname ?_).mp hsby, hk⟩
      rw [key_inj h.accounts.uids hw hulive heq]
  · rintro ⟨s, hs, hsby, hk⟩
    obtain ⟨w, hw, rfl⟩ := mem_map.mp hs
    have hne : w.uid ≠ u.uid := by
      intro heq
      have hw' := (userIsAdminUid_iff h hw).mpr hsby
      rw [heq, hadmin] at hw'
      cases hw'
    exact ⟨stamp w, mem_map_of_mem (mem_update_of_ne h hu hw hne), (hby w hw hne).mpr hsby, hk⟩

theorem effect_leavesAdmins (h : db.Sound) (he : Effect kdf db c r db') : LeavesAdmins db db' c := by
  have h' := effect_sound h he
  -- an administrator whose account is rewritten is the actor, or root acts
  have hother : ∀ {u w : Account}, userByName db u.name = some u → w ∈ db.users.live →
      userIsAdminUid db w.uid = true → actsFor c w = false →
      actsFor c u = true ∨ (userIsAdminUid db u.uid = true → actorIsRoot db c = true) →
      w.uid = u.uid → MayAdminister db c := by
    intro u w hu hw hadmin hacts hgate heq
    have hwu : w = u := key_inj h.accounts.uids hw (mem_of_find hu).1 heq
    subst hwu
    rcases hgate with hself | hroot
    · rw [hself] at hacts
      cases hacts
    · exact mayAdminister_of_actorIsRoot (hroot hadmin)
  have hgroupsOnly : ∀ {groups : SlotTable Group} {n : ℤ},
      Db.Sound { db with groups := groups, nextGid := n } →
      adminMembers { db with groups := groups, nextGid := n } = adminMembers db →
      LeavesAdmins db { db with groups := groups, nextGid := n } c := by
    intro groups n hs hmembers
    refine ⟨fun hne => absurd ?_ hne, fun w hw _ _ hne => absurd ?_ hne⟩
    · rw [adminAccounts_eq h, adminAccounts_eq hs, hmembers]
    · rw [passwordOf_live h hw, passwordOf_live hs hw]
  cases he with
  | unchanged => exact ⟨fun hne => absurd rfl hne, fun _ _ _ _ hne => absurd rfl hne⟩
  | added name makeAdmin conf users hreq hname hgate hfresh hinsert =>
    cases makeAdmin with
    | true => exact leavesAdmins_of_root (hgate rfl)
    | false =>
      refine ⟨fun hne => absurd (adminAccounts_added h hinsert rfl rfl h') hne,
        fun w hw _ _ hne => absurd ?_ hne⟩
      rw [passwordOf_live h hw, passwordOf_live h' ((mem_insert hinsert).mpr (Or.inr hw))]
  | removed u hu hroot hgate =>
    cases hadmin : userIsAdminUid db u.uid with
    | true => exact leavesAdmins_of_root (hgate hadmin).1
    | false =>
      refine ⟨fun hne => absurd (adminAccounts_removed h hu hadmin rfl h') hne,
        fun w hw hw' _ hne => absurd (passwordOf_rewrite h hu h' hw fun heq => ?_) hne⟩
      rw [heq, hadmin] at hw'
      cases hw'
  | disabled u hu hgate hstrand | secured u password salt conf hu hgate =>
    refine ⟨fun hne => absurd (adminAccounts_rewrite h h' hu rfl rfl) hne, fun w hw hw' hacts hne => ?_⟩
    by_cases heq : w.uid = u.uid
    · exact hother hu hw hw' hacts hgate heq
    · exact absurd (passwordOf_rewrite h hu h' hw heq) hne
  | elevated u mode hu hmode =>
    refine ⟨fun hne => absurd (adminAccounts_rewrite h h' hu rfl rfl) hne, fun w hw hw' _ hne => absurd ?_ hne⟩
    by_cases heq : w.uid = u.uid
    · have hwu : w = u := key_inj h.accounts.uids hw (mem_of_find hu).1 heq
      subst hwu
      have hmem := (mem_update h.accounts.names hu
        (f := fun u => some { u with elevation := mode })).mpr (Or.inl rfl)
      exact (passwordOf_live h' hmem).trans (passwordOf_live h hw).symm
    · exact passwordOf_rewrite h hu h' hw heq
  | promoted u hu hgate | demoted u hu hroot hgate hstrand => exact leavesAdmins_of_root hgate
  | groupCreated name groups hreq hname hfresh hinsert => exact hgroupsOnly h' (adminMembers_insert h hinsert)
  | groupDestroyed g hg hadmin | joined g u hg hu hadmin | left g u hg hadmin =>
    exact hgroupsOnly h' (adminMembers_update h hg hadmin)

theorem root_found (h : db.Sound) : ∃ r, userByName db rootName = some r ∧ r.uid = uidRoot := by
  obtain ⟨r, t, husers, hname, huid⟩ := h.accounts.root
  exact ⟨r, by simp [userByName, husers, find, hname], huid⟩

theorem usersInit_usable (kdf : Kdf) (salt : Salt) : Usable (usersInit kdf salt) := by
  rw [usersInit_eq]
  exact ⟨rootAccount kdf salt, by simp, rfl, rfl, Or.inl rfl⟩

theorem run_usable (kdf : Kdf) (h : db.Sound) (husable : Usable db) (calls : List Call) :
    Usable (run (step kdf) db calls) := by
  induction calls generalizing db with
  | nil => exact husable
  | cons call calls ih =>
    have he := effect_step kdf db call
    exact ih (effect_sound h he) (effect_usable h husable he)

-- After any calls root is an administrator and somebody can log in as one, and the next call
-- touches administrators only for root or for the console of a new machine.
theorem administrable_after (kdf : Kdf) (salt : Salt) (calls : List Call) :
    Administrable (run (step kdf) (usersInit kdf salt) calls) ∧
      ∀ call : Call, LeavesAdmins (run (step kdf) (usersInit kdf salt) calls)
        (step kdf (run (step kdf) (usersInit kdf salt) calls) call) call.actor := by
  have hinit := usersInit_sound kdf salt
  have hsound := run_sound kdf hinit calls
  refine ⟨⟨?_, ?_⟩, fun call => effect_leavesAdmins hsound (effect_step kdf _ call)⟩
  · obtain ⟨r, hr, huid⟩ := root_found hsound
    exact ⟨r, hr, by rw [huid]; rfl⟩
  · obtain ⟨w, hw, htype, hpw, hby⟩ := run_usable kdf hinit (usersInit_usable kdf salt) calls
    exact ⟨w, hw, htype, hpw, (userIsAdminUid_iff hsound hw).mpr hby⟩

end DosKernel.Users

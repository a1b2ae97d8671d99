import Mathlib.Data.Set.Insert
import DosKernel.Users.Reload

namespace DosKernel.Users

open DosKernel.Identity DosKernel.Lib SlotTable List Users.Group

variable {kdf : Kdf} {salt : Salt} {db db' : Db} {c : Cred} {r : Request}
  {u : Account} {g : Group}

-- What the database says about an account beside its password, and about a group.
def Account.entry (u : Account) : Text × ℤ × ℤ × ℤ × ℤ × Text :=
  (u.name, u.uid, u.gid, u.type, u.elevation, u.home)

def Group.entry (g : Group) : Text × ℤ × Set ℤ := (g.name, g.gid, { m | m ∈ g.members ∧ m ≠ uidNone })

-- The same accounts, groups, members and counters, and the same answer to every login.
structure Survives (kdf : Kdf) (db db' : Db) : Prop where
  accounts : { k | k ∈ db'.users.live.map Account.entry } = { k | k ∈ db.users.live.map Account.entry }
  groups : { k | k ∈ db'.groups.live.map Group.entry } = { k | k ∈ db.groups.live.map Group.entry }
  nextUid : db'.nextUid = db.nextUid
  nextGid : db'.nextGid = db.nextGid
  login : ∀ name password, userCheckPassword kdf db' name password = userCheckPassword kdf db name password

-- The group "users" is there; where its line is the last of a full table, it is as built in.
def UsersKept (db : Db) : Prop :=
  ∃ g, groupByName db usersName = some g ∧
    (db.groups.live.length = userMaxGroups → db.groups.live.getLast? = some g →
      g.gid = gidUsers ∧ g.uids = [])

-- Root has a password, no account looks like a comment, and the group "users" is read back.
structure Restorable (db : Db) : Prop where
  root : ∃ r, userByName db rootName = some r ∧ r.hasPassword = true
  names : ∀ u ∈ db.users.live, u.name.head? ≠ some '#'
  users : UsersKept db

def Db.Fits (db : Db) : Prop := (savePasswd db).length ≤ fileMax ∧ (saveShadow db).length ≤ fileMax

theorem mem_uids_iff {m : ℤ} : m ∈ g.uids ↔ m ∈ g.members ∧ m ≠ uidNone := by
  simp [uids]

theorem entry_packed (g : Group) : g.packed.entry = g.entry := by
  have hset : { m | m ∈ g.packed.members ∧ m ≠ uidNone } = { m | m ∈ g.members ∧ m ≠ uidNone } := by
    ext m
    simp only [Group.packed, Set.mem_ofPred_eq, mem_append, mem_replicate, mem_uids_iff]
    tauto
  rw [Group.entry, Group.entry, hset]
  rfl

theorem entry_restored (u : Account) : (restored kdf salt u).entry = u.entry := by
  rw [restored]
  split <;> rfl

theorem entry_usersGroup_iff (hname : g.name = usersName) :
    g.entry = usersGroup.entry ↔ g.gid = gidUsers ∧ g.uids = [] := by
  have hempty : { m | m ∈ usersGroup.members ∧ m ≠ uidNone } = (∅ : Set ℤ) := by
    ext m
    simp only [Set.mem_ofPred_eq, Set.mem_empty_iff_false, iff_false, not_and, not_not]
    exact eq_of_mem_replicate
  rw [entry, entry, hempty, Prod.mk.injEq, Prod.mk.injEq, hname]
  simp only [Set.eq_empty_iff_forall_notMem, Set.mem_ofPred_eq, ← mem_uids_iff,
    eq_nil_iff_forall_not_mem]
  tauto

theorem foldl_overGroups_new {gs ks : List Group} (hnames : (ks.map name).Nodup)
    (hnew : ∀ k ∈ ks, k.name ∉ gs.map name) (hlen : gs.length + ks.length ≤ userMaxGroups) :
    ks.foldl overGroups gs = gs ++ ks.map Group.packed := by
  induction ks generalizing gs with
  | nil => simp
  | cons k ks ih =>
    rw [map_cons, nodup_cons] at hnames
    rw [length_cons] at hlen
    have hk := hnew k mem_cons_self
    have hstep : overGroups gs k = gs ++ [k.packed] := by
      rw [overGroups, if_neg (by omega), if_neg hk]
    rw [foldl_cons, hstep, ih hnames.2 _ (by simpa using by omega)]
    · simp
    · intro j hj hmem
      rw [map_append, mem_append] at hmem
      rcases hmem with hmem | hmem
      · exact hnew j (mem_cons_of_mem k hj) hmem
      · have heq : j.name = k.name := by simpa [Group.packed] using hmem
        exact hnames.1 (heq ▸ mem_map_of_mem hj)

theorem mem_names_overGroups {gs : List Group} {n : Text} (k : Group) (h : n ∈ gs.map Group.name) :
    n ∈ (overGroups gs k).map name := by
  unfold overGroups
  split
  · exact h
  · split
    · obtain ⟨j, hj, rfl⟩ := mem_map.mp h
      refine mem_map.mpr ⟨_, mem_map_of_mem hj, ?_⟩
      by_cases hjk : j.name = k.name
      · simp [hjk, Group.packed]
      · simp [hjk]
    · rw [map_append]
      exact mem_append_left _ h

theorem mem_names_foldl {gs ks : List Group} {n : Text} (h : n ∈ gs.map name) :
    n ∈ (ks.foldl overGroups gs).map name := by
  induction ks generalizing gs with
  | nil => exact h
  | cons k ks ih => exact ih (mem_names_overGroups k h)

theorem map_entry_packed (gs : List Group) :
    (gs.map Group.packed).map Group.entry = gs.map Group.entry := by
  simp [map_map, Function.comp_def, entry_packed]

theorem overGroups_admins (hname : g.name = adminsName) :
    overGroups [adminsGroup, usersGroup] g = [g.packed, usersGroup] := by
  have hlen : ¬userMaxGroups ≤ [adminsGroup, usersGroup].length := by decide
  have hmem : g.name ∈ [adminsGroup, usersGroup].map name := by
    rw [hname]
    decide
  have hne : usersGroup.name ≠ g.name := by
    rw [hname]
    decide
  rw [overGroups, if_neg hlen, if_pos hmem]
  simp [show adminsGroup.name = g.name from hname.symm, hne]

structure Split (db : Db) (a g : Group) (pre post : List Group) : Prop where
  live : db.groups.live = a :: (pre ++ g :: post)
  admins : a.name = adminsName
  users : g.name = usersName
  names : ((pre ++ post).map Group.name).Nodup
  other : ∀ k ∈ pre ++ post, k.name ≠ adminsName ∧ k.name ≠ usersName
  length : pre.length + post.length ≤ 14

theorem exists_split (h : db.Sound) (hg : groupByName db usersName = some g) :
    ∃ a pre post, Split db a g pre post := by
  obtain ⟨a, t, hgroups, haname, -, -⟩ := h.groups.admins
  have hgname : g.name = usersName := groupByName_name hg
  have hlive : db.groups.live = a :: live t := by rw [hgroups, live_some_cons]
  have hmem : g ∈ live t := by
    have hg' := (mem_of_find hg).1
    rw [hlive] at hg'
    rcases mem_cons.mp hg' with rfl | hg'
    · exact absurd (haname.symm.trans hgname) (by decide)
    · exact hg'
  obtain ⟨pre, post, hsplit⟩ := append_of_mem hmem
  have hnames := h.groups.names
  have hlen := live_length_le db.groups
  rw [h.groups.slots, hlive, hsplit] at hlen
  rw [hlive, hsplit, map_cons, nodup_cons, map_append, map_cons,
    nodup_middle, nodup_cons, ← map_append, ← map_cons, ← map_append] at hnames
  refine ⟨a, pre, post, by rw [hlive, hsplit], haname, hgname, hnames.2.2, ?_, ?_⟩
  · intro k hk
    constructor
    · intro heq
      refine hnames.1 (mem_map.mpr ⟨k, ?_, heq.trans haname.symm⟩)
      simp only [mem_append, mem_cons] at hk ⊢
      tauto
    · intro heq
      exact hnames.2.1 (mem_map.mpr ⟨k, hk, heq.trans hgname.symm⟩)
  · simp only [length_cons, length_append, userMaxGroups] at hlen
    omega

section Split

variable {a : Group} {pre post : List Group} (hs : Split db a g pre post)
include hs

theorem Split.fold_pre :
    pre.foldl overGroups [a.packed, usersGroup] = [a.packed, usersGroup] ++ pre.map Group.packed := by
  have hlen := hs.length
  apply foldl_overGroups_new
  · exact hs.names.sublist ((sublist_append_left pre post).map _)
  · intro k hk hmem
    obtain ⟨h1, h2⟩ := hs.other k (mem_append_left post hk)
    rcases mem_cons.mp hmem with heq | hmem
    · exact h1 (heq.trans hs.admins)
    · exact h2 (by simpa [usersGroup] using hmem)
  · simp only [length_cons, length_nil, userMaxGroups]
    omega

theorem Split.restoredGroups_of_room (hroom : pre.length < 14) :
    restoredGroups db = [a.packed, g.packed] ++ pre.map Group.packed ++ post.map Group.packed := by
  have hlen := hs.length
  have hother : ∀ k ∈ pre, ¬k.packed.name = g.name := by
    intro k hk heq
    exact (hs.other k (mem_append_left post hk)).2 (heq.trans hs.users)
  have hag : a.packed.name ≠ g.name := by
    intro heq
    exact absurd (hs.admins.symm.trans (heq.trans hs.users)) (by decide)
  have hover : overGroups ([a.packed, usersGroup] ++ pre.map Group.packed) g =
      [a.packed, g.packed] ++ pre.map Group.packed := by
    have hmem : g.name ∈ ([a.packed, usersGroup] ++ pre.map Group.packed).map Group.name := by
      simp [hs.users, usersGroup]
    have hpre : (pre.map Group.packed).map (fun k => if k.name = g.name then g.packed else k) =
        pre.map Group.packed := by
      rw [map_map]
      exact map_congr_left fun k hk => if_neg (hother k hk)
    rw [overGroups, if_neg (by simpa [userMaxGroups] using by omega), if_pos hmem, map_append, hpre]
    simp [hag, show usersGroup.name = g.name from hs.users.symm]
  rw [restoredGroups, hs.live, foldl_cons, overGroups_admins hs.admins, foldl_append,
    hs.fold_pre, foldl_cons, hover]
  apply foldl_overGroups_new
  · exact hs.names.sublist ((sublist_append_right pre post).map _)
  · intro k hk hmem
    obtain ⟨h1, h2⟩ := hs.other k (mem_append_right pre hk)
    simp only [cons_append, nil_append, map_cons, map_map, mem_cons,
      mem_map] at hmem
    rcases hmem with heq | heq | ⟨j, hj, heq⟩
    · exact h1 (heq.trans hs.admins)
    · exact h2 (heq.trans hs.users)
    · have hnames := hs.names
      rw [map_append, nodup_append] at hnames
      exact hnames.2.2 _ (mem_map_of_mem hj) _ (mem_map_of_mem hk) heq
  · simp only [length_append, length_cons, length_nil, length_map, userMaxGroups]
    omega

theorem Split.restoredGroups_of_full (hfull : pre.length = 14) :
    post = [] ∧ restoredGroups db = [a.packed, usersGroup] ++ pre.map Group.packed := by
  have hlen := hs.length
  have hpost : post = [] := length_eq_zero_iff.mp (by omega)
  refine ⟨hpost, ?_⟩
  rw [restoredGroups, hs.live, foldl_cons, overGroups_admins hs.admins, foldl_append,
    hs.fold_pre, foldl_cons, hpost, foldl_nil, overGroups, if_pos]
  simp [hfull, userMaxGroups]

theorem Split.groups_of_full (hfull : pre.length = 14) :
    { k | k ∈ (restoredGroups db).map entry } = { k | k ∈ db.groups.live.map entry } ↔
      g.gid = gidUsers ∧ g.uids = [] := by
  obtain ⟨hpost, hrestored⟩ := hs.restoredGroups_of_full hfull
  rw [← entry_usersGroup_iff hs.users, hrestored, hs.live, hpost]
  simp only [map_append, map_cons, map_nil, map_entry_packed, entry_packed]
  constructor
  · intro heq
    have hmem : g.entry ∈ { k | k ∈ [a.entry, usersGroup.entry] ++ pre.map entry } := by
      rw [heq]
      simp
    have hname : ∀ k : Group, g.entry = k.entry → k.name = usersName := by
      intro k hk
      rw [← hs.users]
      exact (congrArg Prod.fst hk).symm
    simp only [cons_append, nil_append, Set.mem_ofPred_eq, mem_cons, mem_map] at hmem
    rcases hmem with hmem | hmem | ⟨k, hk, hmem⟩
    · exact absurd (hs.admins.symm.trans (hname a hmem)) (by decide)
    · exact hmem
    · exact absurd (hname k hmem.symm) (hs.other k (mem_append_left post hk)).2
  · intro heq
    ext k
    simp only [heq, cons_append, nil_append, Set.mem_ofPred_eq, mem_cons,
      mem_append, not_mem_nil, or_false]
    tauto

theorem Split.groups_of_room (hroom : pre.length < 14) :
    { k | k ∈ (restoredGroups db).map entry } = { k | k ∈ db.groups.live.map entry } := by
  rw [hs.restoredGroups_of_room hroom, hs.live]
  ext k
  simp only [map_append, map_cons, map_entry_packed, entry_packed, cons_append,
    nil_append, Set.mem_ofPred_eq, mem_cons, mem_append]
  tauto

theorem Split.last (hlast : db.groups.live.getLast? = some g) : post = [] := by
  rw [hs.live] at hlast
  cases hpost : post with
  | nil => rfl
  | cons k post' =>
    have hmem : g ∈ post := by
      have hrest : (a :: (pre ++ g :: post)) = (a :: pre ++ [g]) ++ post := by simp
      rw [hrest, hpost, getLast?_append_cons] at hlast
      rw [hpost]
      exact mem_of_getLast? hlast
    exact absurd hs.users (hs.other g (mem_append_right pre hmem)).2

end Split

theorem groups_survive_iff (h : db.Sound) :
    { k | k ∈ (restoredGroups db).map entry } = { k | k ∈ db.groups.live.map entry } ↔
      UsersKept db := by
  constructor
  · intro heq
    -- the built-in group is never lost, so it was saved
    have hmem : usersName ∈ (restoredGroups db).map name := mem_names_foldl (by decide)
    obtain ⟨k, hk, hkname⟩ := mem_map.mp hmem
    have hentry : k.entry ∈ { j | j ∈ db.groups.live.map entry } := by
      rw [← heq]
      exact mem_map_of_mem hk
    obtain ⟨g, hg, hgk⟩ := mem_map.mp hentry
    have hgname : g.name = usersName := (congrArg Prod.fst hgk).trans hkname
    have hfind : groupByName db usersName = some g := by
      rw [← hgname]
      exact find_key h.groups.names hg
    refine ⟨g, hfind, fun hlen hlast => ?_⟩
    obtain ⟨a, pre, post, hs⟩ := exists_split h hfind
    have hpost := hs.last hlast
    refine (hs.groups_of_full ?_).mp heq
    rw [hs.live, hpost] at hlen
    simpa [userMaxGroups] using hlen
  · rintro ⟨g, hfind, hlast⟩
    obtain ⟨a, pre, post, hs⟩ := exists_split h hfind
    have hlen := hs.length
    by_cases hroom : pre.length < 14
    · exact hs.groups_of_room hroom
    · have hfull : pre.length = 14 := by omega
      have hpost := (hs.restoredGroups_of_full hfull).1
      refine (hs.groups_of_full hfull).mpr (hlast ?_ ?_)
      · rw [hs.live, hpost]
        simp [hfull, userMaxGroups]
      · rw [hs.live, hpost]
        simp [getLast?_cons]

theorem accounts_survive_iff :
    { k | k ∈ ((db.users.live.filter kept).map (restored kdf salt)).map Account.entry } =
        { k | k ∈ db.users.live.map Account.entry } ↔
      ∀ u ∈ db.users.live, u.name.head? ≠ some '#' := by
  have hentries : ((db.users.live.filter kept).map (restored kdf salt)).map Account.entry =
      (db.users.live.filter kept).map Account.entry := by
    simp [map_map, Function.comp_def, entry_restored]
  rw [hentries]
  constructor
  · intro heq u hu
    have hmem : u.entry ∈ { k | k ∈ (db.users.live.filter kept).map Account.entry } := by
      rw [heq]
      exact mem_map_of_mem hu
    obtain ⟨w, hw, hwu⟩ := mem_map.mp hmem
    have hname : w.name = u.name := congrArg Prod.fst hwu
    rw [← hname]
    simpa [kept] using (mem_filter.mp hw).2
  · intro hall
    rw [filter_eq_self.mpr fun u hu => by simpa [kept] using hall u hu]

theorem restored_name (u : Account) : (restored kdf salt u).name = u.name := by
  rw [restored]
  split <;> rfl

theorem userByName_restored (hlive : db'.users.live = db.users.live.map (restored kdf salt))
    (name : Text) : userByName db' name = (userByName db name).map (restored kdf salt) := by
  rw [userByName, userByName, find, find, hlive, find?_map]
  congr 2
  funext u
  rw [Function.comp_apply, restored_name]

theorem check_of_no_password {name password : Text} (hu : userByName db name = some u)
    (hpw : u.hasPassword = false) : userCheckPassword kdf db name password = false := by
  rw [userCheckPassword, hu]
  simp [hpw]

theorem check_default {r : Account} (hplain : r.Plain) (hname : r.name = rootName)
    (hpw : r.hasPassword = false) (hr : userByName db rootName = some (restored kdf salt r)) :
    userCheckPassword kdf db rootName userDefaultPassword = true := by
  have hrestored : restored kdf salt r = overlay r (rootAccount kdf salt) := by
    rw [restored, if_neg (by simp [hpw]), loaded, if_pos hname]
  have htype : (overlay r (rootAccount kdf salt)).type = userTypePerson := hplain.type
  rw [userCheckPassword, hr, hrestored]
  simp only [htype, decide_true, Bool.and_true, Bool.and_eq_true]
  exact ⟨rfl, hashEqual_self _⟩

theorem login_survives_iff (h : db.Sound)
    (hlive : db'.users.live = db.users.live.map (restored kdf salt)) :
    (∀ name password, userCheckPassword kdf db' name password = userCheckPassword kdf db name password) ↔
      ∃ r, userByName db rootName = some r ∧ r.hasPassword = true := by
  obtain ⟨r, t, husers, hrname, -⟩ := h.accounts.root
  have hfind : userByName db rootName = some r := by
    simp [userByName, husers, find, hrname]
  have hplain : r.Plain := h.accounts.plain r (mem_of_find hfind).1
  constructor
  · intro hlogin
    refine ⟨r, hfind, ?_⟩
    by_contra hpw
    have hpw' : r.hasPassword = false := by simpa using hpw
    have hafter : userByName db' rootName = some (restored kdf salt r) := by
      rw [userByName_restored hlive, hfind, Option.map_some]
    have heq := hlogin rootName userDefaultPassword
    rw [check_of_no_password hfind hpw', check_default hplain hrname hpw' hafter] at heq
    cases heq
  · rintro ⟨r', hr', hpw⟩ name password
    have hbyName := userByName_restored hlive name
    cases hu : userByName db name with
    | none =>
      rw [hu, Option.map_none] at hbyName
      rw [userCheckPassword, userCheckPassword, hu, hbyName]
    | some u =>
      rw [hu, Option.map_some] at hbyName
      by_cases hupw : u.hasPassword = true
      · rw [restored, if_pos hupw] at hbyName
        rw [userCheckPassword, userCheckPassword, hu, hbyName]
      · -- an account without a password is not root
        have hupw' : u.hasPassword = false := by simpa using hupw
        have hne : u.name ≠ rootName := by
          intro heq
          rw [← userByName_name hu, heq, hr'] at hu
          rw [Option.some.inj hu] at hpw
          exact hupw hpw
        have hslot : (restored kdf salt u).hasPassword = false := by
          rw [restored, if_neg hupw, loaded, if_neg hne]
          rfl
        rw [check_of_no_password hu hupw', check_of_no_password hbyName hslot]

theorem reboot_survives_iff (h : db.Sound) (hsecrets : db.SecretsSet) (hrange : db.InRange)
    (hfits : db.Fits) : Survives kdf db (reboot kdf salt db) ↔ Restorable db := by
  have hreboot : reboot kdf salt db = _ := reboot_eq h hsecrets hrange hfits.1 hfits.2
  have husers : (reboot kdf salt db).users.live =
      (db.users.live.filter kept).map (restored kdf salt) := by rw [hreboot, live_packed]
  have hgroups : (reboot kdf salt db).groups.live = restoredGroups db := by rw [hreboot, live_packed]
  have hall : (∀ u ∈ db.users.live, u.name.head? ≠ some '#') →
      (reboot kdf salt db).users.live = db.users.live.map (restored kdf salt) := by
    intro hnames
    rw [husers, filter_eq_self.mpr fun u hu => by simpa [kept] using hnames u hu]
  constructor
  · intro hs
    have haccounts := hs.accounts
    rw [husers, accounts_survive_iff] at haccounts
    refine ⟨(login_survives_iff h (hall haccounts)).mp hs.login, haccounts, ?_⟩
    rw [← groups_survive_iff h, ← hgroups]
    exact hs.groups
  · intro hr
    refine ⟨?_, ?_, by rw [hreboot], by rw [hreboot],
      (login_survives_iff h (hall hr.names)).mpr hr.root⟩
    · rw [husers]
      exact accounts_survive_iff.mpr hr.names
    · rw [hgroups]
      exact (groups_survive_iff h).mpr hr.users

theorem kdfIterations_le (conf : ℤ) : kdfIterations conf ≤ 5000000 := by
  unfold kdfIterations
  split
  · decide
  · split
    · decide
    · omega

theorem usersInit_secretsSet (kdf : Kdf) (salt : Salt) : (usersInit kdf salt).SecretsSet := by
  intro u hu _
  obtain rfl : u = rootAccount kdf salt := by simpa [usersInit_eq] using hu
  exact ⟨salt, kdf userDefaultPassword (fromHex userSaltBytes (toHex salt.toList)) userKdfItersDefault,
    rfl, rfl, (by decide : userKdfItersDefault ≤ 5000000)⟩

theorem SecretsSet.update {f : Account → Option Account} (hsecrets : db.SecretsSet) (h : db.Sound)
    (hu : userByName db u.name = some u)
    (hf : ∀ v, f u = some v → v.hasPassword = true → v.SecretSet) :
    ∀ w ∈ (db.users.update (·.name == u.name) f).live, w.hasPassword = true → w.SecretSet := by
  intro w hw hpw
  rcases (mem_update h.accounts.names hu).mp hw with hw | hw
  · exact hf w hw hpw
  · exact hsecrets w hw.1 hpw

theorem effect_secretsSet (h : db.Sound) (hsecrets : db.SecretsSet) (he : Effect kdf db c r db') :
    db'.SecretsSet := by
  have hold : ∀ {u : Account}, userByName db u.name = some u → u.hasPassword = true → u.SecretSet :=
    fun hu => hsecrets _ (mem_of_find hu).1
  cases he with
  | unchanged | promoted u hu hgate | groupCreated name groups hreq hname hfresh hinsert
  | groupDestroyed g hg hadmin | joined g u hg hu hadmin | left g u hg hadmin =>
    exact hsecrets
  | added name makeAdmin conf users hreq hname hgate hfresh hinsert =>
    intro w hw hpw
    rcases (mem_insert hinsert).mp hw with rfl | hw
    · cases hpw
    · exact hsecrets w hw hpw
  | removed u hu hroot hgate =>
    exact SecretsSet.update hsecrets h hu fun v hv => by cases hv
  | disabled u hu hgate hstrand =>
    refine SecretsSet.update hsecrets h hu fun v hv hpw => ?_
    cases hv
    cases hpw
  | secured u password salt conf hu hgate =>
    refine SecretsSet.update hsecrets h hu fun v hv _ => ?_
    cases hv
    exact ⟨salt, _, rfl, rfl, kdfIterations_le conf⟩
  | elevated u mode hu hmode | demoted u hu hroot hgate hstrand =>
    refine SecretsSet.update hsecrets h hu fun v hv hpw => ?_
    have hset : u.SecretSet := hold hu (by cases hv; exact hpw)
    cases hv
    exact hset

theorem run_secretsSet (kdf : Kdf) (h : db.Sound) (hsecrets : db.SecretsSet) (calls : List Call) :
    (run (step kdf) db calls).SecretsSet := by
  induction calls generalizing db with
  | nil => exact hsecrets
  | cons call calls ih =>
    have he := effect_step kdf db call
    exact ih (effect_sound h he) (effect_secretsSet h hsecrets he)

-- After any calls whose counters stay C integers and whose files fit the read, a save and a boot
-- give the same database exactly where it is restorable.
theorem survives_iff_restorable (kdf : Kdf) (salt salt' : Salt) (calls : List Call)
    (hrange : (run (step kdf) (usersInit kdf salt) calls).InRange)
    (hfits : (run (step kdf) (usersInit kdf salt) calls).Fits) :
    Survives kdf (run (step kdf) (usersInit kdf salt) calls)
        (reboot kdf salt' (run (step kdf) (usersInit kdf salt) calls)) ↔
      Restorable (run (step kdf) (usersInit kdf salt) calls) := by
  have hinit := usersInit_sound kdf salt
  have hsecrets := run_secretsSet kdf hinit (usersInit_secretsSet kdf salt) calls
  exact reboot_survives_iff (run_sound kdf hinit calls) hsecrets hrange hfits

def sampleKdf : Kdf := fun password _ _ => Vector.replicate 32 (UInt8.ofNat password.length)

def sampleSalt : Salt := Vector.replicate 16 7

def rootSession : Cred := { owner := .user, uid := uidRoot, gid := gidAdmin, session := 1 }

def aliceName : Text := "alice".toList

def secondAdmin : List Call :=
  [⟨rootSession, .userAdd aliceName true 10000⟩,
    ⟨rootSession, .userSetPassword aliceName "wonder".toList sampleSalt 10000⟩]

theorem secondAdmin_survives :
    Survives sampleKdf (run (step sampleKdf) (usersInit sampleKdf sampleSalt) secondAdmin)
      (reboot sampleKdf sampleSalt
        (run (step sampleKdf) (usersInit sampleKdf sampleSalt) secondAdmin)) := by
  refine (survives_iff_restorable sampleKdf sampleSalt sampleSalt secondAdmin ?_ ?_).mpr ⟨?_, ?_, ?_⟩
  · unfold Db.InRange
    decide +kernel
  · unfold Db.Fits
    decide +kernel
  · exact ⟨_, rfl, rfl⟩
  · decide +kernel
  · exact ⟨usersGroup, rfl, fun hlen => absurd hlen (by decide +kernel)⟩

-- Root then gives up the password. After a boot the one printed in the manual logs in.
def passwordless : List Call :=
  secondAdmin ++ [⟨rootSession, .userSetPassword rootName [] sampleSalt 10000⟩]

theorem passwordless_not_survives :
    userCheckPassword sampleKdf (run (step sampleKdf) (usersInit sampleKdf sampleSalt) passwordless)
        rootName userDefaultPassword = false ∧
      userCheckPassword sampleKdf
        (reboot sampleKdf sampleSalt
          (run (step sampleKdf) (usersInit sampleKdf sampleSalt) passwordless))
        rootName userDefaultPassword = true ∧
      ¬Survives sampleKdf (run (step sampleKdf) (usersInit sampleKdf sampleSalt) passwordless)
        (reboot sampleKdf sampleSalt
          (run (step sampleKdf) (usersInit sampleKdf sampleSalt) passwordless)) := by
  have hbefore : userCheckPassword sampleKdf
      (run (step sampleKdf) (usersInit sampleKdf sampleSalt) passwordless)
      rootName userDefaultPassword = false := by decide +kernel
  have hafter : userCheckPassword sampleKdf
      (reboot sampleKdf sampleSalt
        (run (step sampleKdf) (usersInit sampleKdf sampleSalt) passwordless))
      rootName userDefaultPassword = true := by decide +kernel
  refine ⟨hbefore, hafter, fun h => ?_⟩
  have heq := h.login rootName userDefaultPassword
  rw [hbefore, hafter] at heq
  cases heq

end DosKernel.Users

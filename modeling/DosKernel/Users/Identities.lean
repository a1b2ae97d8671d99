import DosKernel.Users.Reload
import Mathlib.Data.List.Perm.Subperm
import DosKernel.Users.Survival

namespace DosKernel.Users

open DosKernel.Identity DosKernel.Lib SlotTable List

variable {kdf : Kdf} {salt : Salt} {db db' : Db} {u : Account} {g : Group}

def Db.Keeps (db db' : Db) : Prop :=
  db'.Sound ∧ db'.groups = db.groups ∧ db'.nextUid = db.nextUid ∧ db'.nextGid = db.nextGid

theorem parseShadowLine_keeps (h : db.Sound) (line : Text) : db.Keeps (parseShadowLine db line) := by
  have hsame : db.Keeps db := ⟨h, rfl, rfl, rfl⟩
  unfold parseShadowLine
  split
  · exact hsame
  · split
    · exact hsame
    · unfold parseSecret
      split
      next f0 f1 f2 f3 fs _ =>
        cases hfind : db.users.find (·.name == f0) with
        | none =>
          rw [update_of_find_none hfind]
          exact hsame
        | some u =>
          obtain rfl : u.name = f0 := by simpa using (mem_of_find hfind).2
          have hp := h.accounts.plain u (mem_of_find hfind).1
          refine ⟨⟨h.accounts.rewrite hfind rfl rfl rfl ?_, h.groups⟩, rfl, rfl, rfl⟩
          exact ⟨hp.name, hp.gid, hp.type, hp.elevation, hp.home⟩
      · exact hsame

theorem loadShadow_keeps (h : db.Sound) (file : Text) :
    db.Keeps (loadFile parseShadowLine db file) := by
  unfold loadFile
  generalize lines [] (file.take fileMax) = ls
  induction ls generalizing db with
  | nil => exact ⟨h, rfl, rfl, rfl⟩
  | cons l ls ih =>
    obtain ⟨h1, h2, h3, h4⟩ := parseShadowLine_keeps h l
    obtain ⟨k1, k2, k3, k4⟩ := ih h1
    exact ⟨k1, k2.trans h2, k3.trans h3, k4.trans h4⟩

theorem loaded_plain (h : u.Plain) : (loaded kdf salt u).Plain :=
  ⟨h.name, h.gid, h.type, h.elevation, h.home⟩

theorem loaded_accounts_sound (h : AccountsSound db.users db.nextUid) :
    AccountsSound (packed userMaxAccounts ((db.users.live.filter kept).map (loaded kdf salt)))
      db.nextUid := by
  have hsub : (db.users.live.filter kept).Sublist db.users.live := filter_sublist
  have hmem : ∀ w ∈ (packed userMaxAccounts ((db.users.live.filter kept).map (loaded kdf salt))).live,
      ∃ u ∈ db.users.live, loaded kdf salt u = w := by
    intro w hw
    rw [live_packed] at hw
    obtain ⟨u, hu, rfl⟩ := mem_map.mp hw
    exact ⟨u, hsub.subset hu, rfl⟩
  refine ⟨?_, ?_, ?_, ?_, ?_, h.first, ?_⟩
  · apply length_packed
    rw [length_map]
    exact Nat.le_trans hsub.length_le (h.slots ▸ live_length_le db.users)
  · obtain ⟨r, t, husers, hrname, hruid⟩ := h.root
    have hkept : kept r = true := by
      rw [kept, hrname]
      decide
    rw [husers, live_some_cons, filter_cons_of_pos hkept]
    exact ⟨loaded kdf salt r, _, rfl, hrname, hruid⟩
  · rw [live_packed, map_loaded_name]
    exact h.names.sublist (hsub.map _)
  · have huids : ((db.users.live.filter kept).map (loaded kdf salt)).map Account.uid =
        (db.users.live.filter kept).map Account.uid := by
      rw [map_map]
      rfl
    rw [live_packed, huids]
    exact h.uids.sublist (hsub.map _)
  · intro w hw
    obtain ⟨u, hu, rfl⟩ := hmem w hw
    exact h.issued u hu
  · intro w hw
    obtain ⟨u, hu, rfl⟩ := hmem w hw
    exact loaded_plain (h.plain u hu)

section Groups

variable {nextUid nextGid : ℤ} {gs : List Group}

theorem Group.Plain.packed (h : g.Plain nextUid nextGid) : g.packed.Plain nextUid nextGid := by
  have hlen := uids_length h
  refine ⟨h.name, h.gid, ?_, fun m hm => ?_⟩
  · simp only [Group.packed, length_append, length_replicate, groupMaxMembers]
    omega
  · rcases mem_append.mp hm with hm | hm
    · exact Or.inr (mem_uids h hm)
    · exact Or.inl (eq_of_mem_replicate hm)

theorem mem_overGroups {k : Group} (h : k ∈ overGroups gs g) : k ∈ gs ∨ k = g.packed := by
  unfold overGroups at h
  split at h
  · exact Or.inl h
  · split at h
    · obtain ⟨j, hj, rfl⟩ := mem_map.mp h
      by_cases hjg : j.name = g.name
      · exact Or.inr (if_pos hjg)
      · rw [if_neg hjg]
        exact Or.inl hj
    · rcases mem_append.mp h with h | h
      · exact Or.inl h
      · exact Or.inr (mem_singleton.mp h)

theorem mem_foldl_overGroups {ks : List Group} {k : Group} (h : k ∈ ks.foldl overGroups gs) :
    k ∈ gs ∨ ∃ g ∈ ks, k = g.packed := by
  induction ks generalizing gs with
  | nil => exact Or.inl h
  | cons j ks ih =>
    rcases ih h with h | ⟨g, hg, h⟩
    · rcases mem_overGroups h with h | h
      · exact Or.inl h
      · exact Or.inr ⟨j, mem_cons_self, h⟩
    · exact Or.inr ⟨g, mem_cons_of_mem j hg, h⟩

theorem GroupsSound.put (h : GroupsSound db.groups nextUid nextGid) (hkind : g.Kind)
    (hplain : g.Plain nextUid nextGid) :
    GroupsSound (putGroup db g.name g).groups nextUid nextGid := by
  unfold putGroup
  split
  · exact h
  next groups hinsert =>
    split
    next hsome =>
      obtain ⟨k, hk⟩ := Option.isSome_iff_exists.mp hsome
      refine h.update hk (fun j hj => ?_) fun hnone => by cases hnone
      obtain rfl := Option.some.inj hj
      exact ⟨(groupByName_name hk).symm, hkind, hplain⟩
    next hnone =>
      refine h.insert hinsert (fun k hk heq => hnone ?_) (fun hne => ?_) hplain
      · rw [groupByName, find, find?_isSome]
        exact ⟨k, hk, beq_iff_eq.mpr heq⟩
      · exact (hkind.resolve_left fun heq => hne heq.1).2

theorem foldl_overGroups_sound {ks : List Group}
    (h : GroupsSound (packed userMaxGroups gs) nextUid nextGid)
    (hks : ∀ k ∈ ks, k.Kind ∧ k.Plain nextUid nextGid) :
    GroupsSound (packed userMaxGroups (ks.foldl overGroups gs)) nextUid nextGid := by
  induction ks generalizing gs with
  | nil => exact h
  | cons k ks ih =>
    obtain ⟨hkind, hplain⟩ := hks k mem_cons_self
    have hput : GroupsSound (putGroup { groups := packed userMaxGroups gs } k.name k.packed).groups
        nextUid nextGid := GroupsSound.put (g := k.packed) h hkind hplain.packed
    have hnames := h.names
    rw [live_packed] at hnames
    rw [putGroup_packed rfl hnames] at hput
    exact ih hput fun j hj => hks j (mem_cons_of_mem k hj)

theorem restoredGroups_sound (h : db.Sound) :
    GroupsSound (packed userMaxGroups (restoredGroups db)) db.nextUid db.nextGid := by
  refine foldl_overGroups_sound ?_ fun k hk => ⟨h.groups.kind hk, h.groups.plain k hk⟩
  exact (usersInit_sound default default).groups.mono h.accounts.first h.groups.first

end Groups

theorem reboot_keeps (h : db.Sound) (hrange : db.InRange) (hfit : (savePasswd db).length ≤ fileMax) :
    (reboot kdf salt db).Sound ∧
      (reboot kdf salt db).groups = packed userMaxGroups (restoredGroups db) ∧
      (reboot kdf salt db).nextUid = db.nextUid ∧ (reboot kdf salt db).nextGid = db.nextGid := by
  have hload : loadFile parsePasswdLine (usersInit kdf salt) (savePasswd db) = _ :=
    load_passwd h hrange hfit
  have hsound : (loadFile parsePasswdLine (usersInit kdf salt) (savePasswd db)).Sound := by
    rw [hload]
    exact ⟨loaded_accounts_sound h.accounts, restoredGroups_sound h⟩
  obtain ⟨h1, h2, h3, h4⟩ := loadShadow_keeps hsound (saveShadow db)
  exact ⟨h1, h2.trans (by rw [hload]), h3.trans (by rw [hload]), h4.trans (by rw [hload])⟩

variable {c : Cred} {r : Request}

-- A lifecycle call, a save, or a save that succeeded followed by a boot.
inductive Act where
  | call (c : Call)
  | save
  | reboot (salt : Salt)
deriving DecidableEq

-- The database with the uids that accounts have had, and the ids the last act gave out.
structure Machine where
  db : Db
  held : List ℤ := []
  newUid : Option ℤ := none
  newGid : Option ℤ := none
deriving DecidableEq

def givenUid (db db' : Db) : Request → Option ℤ
  | .userAdd name _ _ =>
    if (userByName db (cString name)).isSome then none
    else (userByName db' (cString name)).map Account.uid
  | _ => none

def givenGid (db db' : Db) : Request → Option ℤ
  | .groupCreate name =>
    if (groupByName db (cString name)).isSome then none
    else (groupByName db' (cString name)).map Group.gid
  | _ => none

def Machine.act (kdf : Kdf) (m : Machine) (a : Act) : Machine :=
  let held := m.db.users.live.map Account.uid ++ m.held
  match a with
  | .call c =>
    let db := step kdf m.db c
    { db := db, held := held, newUid := givenUid m.db db c.request, newGid := givenGid m.db db c.request }
  | .save => { db := m.db, held := held }
  | .reboot salt => { db := Users.reboot kdf salt m.db, held := held }

-- No live ids are shared, a new uid was never anybody's, and a new gid is no built-in group's.
structure Unshared (m : Machine) : Prop where
  uids : (m.db.users.live.map Account.uid).Nodup
  gids : (m.db.groups.live.map Group.gid).Nodup
  fresh : ∀ uid, m.newUid = some uid → uid ∉ m.held
  created : ∀ gid, m.newGid = some gid → gid ≠ gidAdmin ∧ gid ≠ gidUsers

-- A `group_create` by an administrator under a valid name finds the name taken.
def CreatesNone (m : Machine) : Act → Prop
  | .call ⟨c, .groupCreate name⟩ =>
    nameOk (cString name) = true → actorIsAdmin c = true →
      (groupByName m.db (cString name)).isSome = true
  | _ => True

def Counting (m : Machine) (_ : Act) : Prop := m.db.InRange

def Group.BuiltIn (g : Group) : Prop :=
  g.name = adminsName ∧ g.gid = gidAdmin ∨ g.name = usersName ∧ g.gid = gidUsers

structure Db.Original (db : Db) : Prop where
  sound : db.Sound
  groups : ∀ g ∈ db.groups.live, g.BuiltIn
  nextGid : db.nextGid = gidUsers

theorem Db.Original.gids (h : db.Original) : (db.groups.live.map Group.gid).Nodup := by
  refine List.Nodup.map_on ?_ (List.Nodup.of_map _ h.sound.groups.names)
  intro g hg k hk heq
  refine key_inj h.sound.groups.names hg hk ?_
  have hne : gidAdmin ≠ gidUsers := by decide
  rcases h.groups g hg with ⟨hg1, hg2⟩ | ⟨hg1, hg2⟩ <;> rcases h.groups k hk with ⟨hk1, hk2⟩ | ⟨hk1, hk2⟩
  · rw [hg1, hk1]
  · exact absurd (hg2.symm.trans (heq.trans hk2)) hne
  · exact absurd (hk2.symm.trans (heq.symm.trans hg2)) hne
  · rw [hg1, hk1]

theorem Db.Original.length (h : db.Original) : db.groups.live.length ≤ 2 := by
  have hsub : db.groups.live.map Group.name ⊆ [adminsName, usersName] := by
    intro n hn
    obtain ⟨g, hg, rfl⟩ := mem_map.mp hn
    rcases h.groups g hg with ⟨h1, -⟩ | ⟨h1, -⟩ <;> simp [h1]
  simpa using (subperm_of_subset h.sound.groups.names hsub).length_le

theorem length_flatMap_le {α : Type*} {f : α → Text} {l : List α} {n : ℕ}
    (h : ∀ a ∈ l, (f a).length ≤ n) : (l.flatMap f).length ≤ n * l.length := by
  induction l with
  | nil => simp
  | cons a l ih =>
    have ha := h a mem_cons_self
    have hl := ih fun b hb => h b (mem_cons_of_mem a hb)
    rw [flatMap_cons, length_append, length_cons, Nat.mul_add]
    omega

theorem Db.Original.fits (h : db.Original) (hrange : db.InRange) : (savePasswd db).length ≤ fileMax := by
  obtain ⟨huid, hgid⟩ := counters_range h.sound hrange
  have haccounts : (db.users.live.flatMap accountLine).length ≤ 89 * db.users.live.length := by
    refine length_flatMap_le fun u hu => ?_
    obtain ⟨hp, hr⟩ := account_range h.sound hrange hu
    exact (account_written hp hr).line_length
  have hgroups : (db.groups.live.flatMap groupLine).length ≤ 227 * db.groups.live.length := by
    refine length_flatMap_le fun g hg => ?_
    exact (group_written (h.sound.groups.plain g hg) hrange.1
      ⟨h.sound.groups.first, hrange.2⟩).line_length
  have hnext := (next_written huid hgid).line_length
  have h1 : passwdHeader.length = 53 := by decide
  have h2 : groupsHeader.length = 41 := by decide
  have h3 := live_length_le db.users
  have h3' : db.users.length = 32 := h.sound.accounts.slots
  have h4 := h.length
  simp only [savePasswd, length_append, fileMax]
  omega

theorem usersInit_original (kdf : Kdf) (salt : Salt) : (usersInit kdf salt).Original := by
  refine ⟨usersInit_sound kdf salt, fun g hg => ?_, rfl⟩
  simp only [usersInit_eq, live_some_cons, live_replicate_none, mem_cons, not_mem_nil,
    or_false] at hg
  rcases hg with rfl | rfl
  · exact Or.inl ⟨rfl, rfl⟩
  · exact Or.inr ⟨rfl, rfl⟩

theorem reboot_original (h : db.Original) (hrange : db.InRange) : (reboot kdf salt db).Original := by
  obtain ⟨hsound, hgroups, -, hnext⟩ := @reboot_keeps kdf salt _ h.sound hrange (h.fits hrange)
  refine ⟨hsound, fun g hg => ?_, hnext.trans h.nextGid⟩
  rw [hgroups, live_packed] at hg
  rcases mem_foldl_overGroups hg with hg | ⟨k, hk, rfl⟩
  · simp only [mem_cons, not_mem_nil, or_false] at hg
    rcases hg with rfl | rfl
    · exact Or.inl ⟨rfl, rfl⟩
    · exact Or.inr ⟨rfl, rfl⟩
  · exact h.groups k hk

theorem builtIn_update (h : db.Original) {p : Group → Bool} {g : Group} {f : Group → Option Group}
    (hg : db.groups.find p = some g)
    (hf : ∀ k, f g = some k → k.name = g.name ∧ k.gid = g.gid) :
    ∀ k ∈ (db.groups.update p f).live, k.BuiltIn := by
  intro k hk
  rcases (mem_update h.sound.groups.names hg).mp hk with hk | hk
  · obtain ⟨hname, hgid⟩ := hf k hk
    rw [Group.BuiltIn, hname, hgid]
    exact h.groups g (mem_of_find hg).1
  · exact h.groups k hk.1

theorem effect_original (h : db.Original) (hr : r.createsGroup = false)
    (he : Effect kdf db c r db') : db'.Original := by
  have hsound := effect_sound h.sound he
  cases he with
  | unchanged => exact h
  | added name makeAdmin conf users hreq hname hgate hfresh hinsert | disabled u hu hgate hstrand
  | secured u password salt conf hu hgate | elevated u mode hu hmode =>
    exact ⟨hsound, h.groups, h.nextGid⟩
  | removed u hu hroot hgate =>
    refine ⟨hsound, fun g hg => ?_, h.nextGid⟩
    rw [live_map] at hg
    obtain ⟨k, hk, rfl⟩ := mem_map.mp hg
    exact h.groups k hk
  | promoted u hu hgate | demoted u hu hroot hgate hstrand =>
    obtain ⟨a, hfind, -⟩ := h.sound.groups.adminGroup
    refine ⟨hsound, builtIn_update h hfind fun k hk => ?_, h.nextGid⟩
    cases hk
    exact ⟨rfl, rfl⟩
  | groupCreated name groups hreq hname hfresh hinsert =>
    rw [hr] at hreq
    cases hreq
  | groupDestroyed g hg hadmin =>
    refine ⟨hsound, builtIn_update h hg fun k hk => ?_, h.nextGid⟩
    cases hk
  | joined g u hg hu hadmin | left g u hg hadmin =>
    refine ⟨hsound, builtIn_update h hg fun k hk => ?_, h.nextGid⟩
    cases hk
    exact ⟨rfl, rfl⟩

theorem effect_nextUid (he : Effect kdf db c r db') : db.nextUid ≤ db'.nextUid := by
  cases he with
  | added name makeAdmin conf users hreq hname hgate hfresh hinsert =>
    show db.nextUid ≤ db.nextUid + 1
    omega
  | _ => exact Int.le_refl _

theorem givenUid_eq (call : Call) {uid : ℤ}
    (hgiven : givenUid db (step kdf db call) call.request = some uid) : uid = db.nextUid := by
  obtain ⟨c, r⟩ := call
  cases r with
  | userAdd name makeAdmin conf =>
    simp only [givenUid] at hgiven
    split at hgiven
    · cases hgiven
    next hnew =>
      obtain ⟨u, hu, rfl⟩ := Option.map_eq_some_iff.mp hgiven
      have hstep : step kdf db ⟨c, .userAdd name makeAdmin conf⟩ =
          (userAdd db c (cString name) makeAdmin conf).getD db := rfl
      cases hadd : userAdd db c (cString name) makeAdmin conf with
      | none =>
        rw [hstep, hadd, Option.getD_none] at hu
        simp [hu] at hnew
      | some db' =>
        obtain ⟨hname, -, hfresh, users, hinsert, rfl⟩ := userAdd_some hadd
        rw [hstep, hadd, Option.getD_some] at hu
        rcases (mem_insert hinsert).mp (mem_of_find hu).1 with rfl | hmem
        · rfl
        · have hne := find_none.mp hfresh u hmem
          rw [userByName_name hu] at hne
          simp at hne
  | _ => cases hgiven

theorem groupCreate_goes (h : db.Original) {name : Text} (hname : nameOk name = true)
    (hadmin : actorIsAdmin c = true) (hfresh : groupByName db name = none) :
    ∃ db', groupCreate db c name = some db' ∧
      (groupByName db' name).map Group.gid = some db.nextGid := by
  cases hcreate : groupCreate db c name with
  | none =>
    -- the table has room for a third group
    have hlen := h.length
    simp only [groupCreate, hname, hadmin, hfresh, Bool.not_true, Option.isSome_none, if_false,
      Bool.false_eq_true, Option.map_eq_none_iff] at hcreate
    have hfull := insert_eq_none hcreate
    rw [h.sound.groups.slots] at hfull
    simp only [userMaxGroups] at hfull
    omega
  | some db' =>
    refine ⟨db', rfl, ?_⟩
    obtain ⟨-, -, -, groups, hinsert, rfl⟩ := groupCreate_some hcreate
    have hfirst : groupByName { db with groups := groups, nextGid := db.nextGid + 1 } name =
        some { name := sCopy (userNameMax + 1) name, gid := db.nextGid } := by
      cases hfind : groupByName { db with groups := groups, nextGid := db.nextGid + 1 } name with
      | none =>
        have hnone := find_none.mp hfind _ ((mem_insert hinsert).mpr (Or.inl rfl))
        simp [sCopy_name hname] at hnone
      | some g =>
        rcases (mem_insert hinsert).mp (mem_of_find hfind).1 with rfl | hmem
        · rfl
        · have hne := find_none.mp hfresh g hmem
          rw [groupByName_name hfind] at hne
          simp at hne
    rw [hfirst, Option.map_some]

theorem groupCreate_refused {name : Text}
    (h : nameOk name = true → actorIsAdmin c = true → (groupByName db name).isSome = true) :
    groupCreate db c name = none := by
  cases hcreate : groupCreate db c name with
  | none => rfl
  | some db' =>
    obtain ⟨hname, hadmin, hfresh, -⟩ := groupCreate_some hcreate
    simp [hfresh] at h
    exact absurd hadmin (by simpa using h hname)

structure Kept (m : Machine) : Prop where
  original : m.db.Original
  held : ∀ uid ∈ m.held, uid < m.db.nextUid
  fresh : ∀ uid, m.newUid = some uid → uid ∉ m.held
  created : m.newGid = none

theorem Kept.unshared {m : Machine} (h : Kept m) : Unshared m := by
  refine ⟨h.original.sound.accounts.uids, h.original.gids, h.fresh, fun gid hgid => ?_⟩
  rw [h.created] at hgid
  cases hgid

theorem kept_of_original {held : List ℤ} (h : db.Original) (hheld : ∀ uid ∈ held, uid < db.nextUid) :
    Kept { db := db, held := held } :=
  ⟨h, hheld, fun _ hnew => (by cases hnew), rfl⟩

variable {m : Machine} {a : Act}

theorem held_lt (h : Kept m) :
    ∀ uid ∈ m.db.users.live.map Account.uid ++ m.held, uid < m.db.nextUid := by
  intro uid huid
  rcases mem_append.mp huid with huid | huid
  · obtain ⟨u, hu, rfl⟩ := mem_map.mp huid
    exact (h.original.sound.accounts.issued u hu).2
  · exact h.held uid huid

theorem step_groupCreate (c : Cred) (name : Text) :
    step kdf db ⟨c, .groupCreate name⟩ = (groupCreate db c (cString name)).getD db := rfl

theorem step_original (h : db.Original) {call : Call}
    (hnone : ∀ name, call.request = .groupCreate name → groupCreate db call.actor (cString name) = none) :
    (step kdf db call).Original := by
  cases hr : call.request.createsGroup with
  | false => exact effect_original h hr (effect_step kdf db call)
  | true =>
    obtain ⟨c, r⟩ := call
    cases r with
    | groupCreate name =>
      rw [step_groupCreate, hnone name rfl]
      exact h
    | _ => cases hr

theorem givenGid_none {call : Call}
    (hnone : ∀ name, call.request = .groupCreate name → groupCreate db call.actor (cString name) = none) :
    givenGid db (step kdf db call) call.request = none := by
  obtain ⟨c, r⟩ := call
  cases r with
  | groupCreate name =>
    rw [step_groupCreate, hnone name rfl]
    simp only [givenGid, Option.getD_none]
    split
    · rfl
    · next hnew => simpa using hnew
  | _ => rfl

theorem act_kept (h : Kept m) (hrange : Counting m a) (hcond : CreatesNone m a) :
    Kept (m.act kdf a) := by
  have hheld := held_lt h
  cases a with
  | call call =>
    have hnone : ∀ name, call.request = .groupCreate name →
        groupCreate m.db call.actor (cString name) = none := by
      intro name hr
      obtain ⟨c, r⟩ := call
      obtain rfl : r = .groupCreate name := hr
      exact groupCreate_refused hcond
    have hmono := effect_nextUid (effect_step kdf m.db call)
    refine ⟨step_original h.original hnone, fun uid huid => ?_, fun uid hgiven huid => ?_,
      givenGid_none hnone⟩
    · exact Int.lt_of_lt_of_le (hheld uid huid) hmono
    · have hlt := hheld uid huid
      rw [givenUid_eq call hgiven] at hlt
      omega
  | save => exact kept_of_original h.original hheld
  | reboot salt =>
    have horiginal : (reboot kdf salt m.db).Original := reboot_original h.original hrange
    have hnext : (reboot kdf salt m.db).nextUid = m.db.nextUid :=
      (reboot_keeps h.original.sound hrange (h.original.fits hrange)).2.2.1
    apply kept_of_original horiginal
    rw [hnext]
    exact hheld

theorem createsNone_of_unshared (h : Kept m) (hP : Unshared (m.act kdf a)) : CreatesNone m a := by
  cases a with
  | call call =>
    obtain ⟨c, r⟩ := call
    cases r with
    | groupCreate name =>
      intro hname hadmin
      by_contra hnew
      have hfresh : groupByName m.db (cString name) = none := by simpa using hnew
      obtain ⟨db', hcreate, hgid⟩ := groupCreate_goes h.original hname hadmin hfresh
      have hgiven : (m.act kdf (.call ⟨c, .groupCreate name⟩)).newGid = some gidUsers := by
        have hgiven' : givenGid m.db db' (.groupCreate name) = some gidUsers := by
          rw [givenGid, hfresh, hgid, h.original.nextGid]
          rfl
        simp only [Machine.act]
        rw [step_groupCreate, hcreate, Option.getD_some, hgiven']
      exact (hP.created gidUsers hgiven).2 rfl
    | _ => trivial
  | _ => trivial

-- Over every run that the counters survive, ids stay unshared exactly where no group is created.
theorem unshared_iff_createsNone (kdf : Kdf) (salt : Salt) (acts : List Act)
    (hcount : Allowed (Machine.act kdf) Counting { db := usersInit kdf salt } acts) :
    Always (Machine.act kdf) Unshared { db := usersInit kdf salt } acts ↔
      Allowed (Machine.act kdf) CreatesNone { db := usersInit kdf salt } acts :=
  always_iff_allowed (fun _ _ => act_kept) (fun _ h => h.unshared)
    (fun _ _ h _ => createsNone_of_unshared h)
    (kept_of_original (usersInit_original kdf salt) (by simp)) hcount

def returning : List Act :=
  [.call ⟨rootSession, .userAdd aliceName false 10000⟩, .reboot sampleSalt,
    .call ⟨rootSession, .userDel aliceName⟩, .call ⟨rootSession, .userAdd aliceName false 10000⟩]

theorem returning_unshared :
    Always (Machine.act sampleKdf) Unshared { db := usersInit sampleKdf sampleSalt } returning := by
  refine (unshared_iff_createsNone sampleKdf sampleSalt returning ?_).mpr ?_
  · refine ⟨?_, ?_, ?_, ?_, trivial⟩ <;> unfold Counting Db.InRange <;> decide +kernel
  · exact ⟨trivial, trivial, trivial, trivial, trivial⟩

-- The first group that root creates has the gid of the built-in group "users".
def firstGroup : List Act := [.call ⟨rootSession, .groupCreate "dev".toList⟩]

theorem firstGroup_shared :
    (run (Machine.act sampleKdf) { db := usersInit sampleKdf sampleSalt } firstGroup).newGid =
        some gidUsers ∧
      (run (Machine.act sampleKdf) { db := usersInit sampleKdf sampleSalt }
        firstGroup).db.groups.live.map Group.gid = [gidAdmin, gidUsers, gidUsers] ∧
      ¬Always (Machine.act sampleKdf) Unshared { db := usersInit sampleKdf sampleSalt } firstGroup := by
  have hgid : (run (Machine.act sampleKdf) { db := usersInit sampleKdf sampleSalt } firstGroup).newGid =
      some gidUsers := by decide +kernel
  refine ⟨hgid, by decide +kernel, fun h => ?_⟩
  exact (h.last.created gidUsers hgid).2 rfl

end DosKernel.Users

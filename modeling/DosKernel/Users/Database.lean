import DosKernel.Identity.Caps
import DosKernel.Lib.SlotTable
import DosKernel.Users.Text

namespace DosKernel.Users

open DosKernel.Identity DosKernel.Lib

-- The account database of kernel/core/users.c and the calls that change it.

def userNameMax : ℕ := 31
def userPathMax : ℕ := 63
def userMaxAccounts : ℕ := 32
def userMaxGroups : ℕ := 16
def groupMaxMembers : ℕ := 16
def userUidFirst : ℤ := 1000
def userSaltBytes : ℕ := 16
def userKdfItersDefault : ℕ := 10000
def userDefaultPassword : Text := "dos".toList

def userTypePerson : ℤ := 0
def userElevPerOp : ℤ := 0
def userElevAlways : ℤ := 1

def gidUsers : ℤ := 100

def rootName : Text := "root".toList
def adminsName : Text := "admins".toList
def usersName : Text := "users".toList

structure Account where
  name : Text
  uid : ℤ
  gid : ℤ
  type : ℤ := userTypePerson
  elevation : ℤ := userElevPerOp
  home : Text
  hasPassword : Bool := false
  pwIsDefault : Bool := false
  kdfIters : ℕ
  saltHex : Text := []
  hashHex : Text := []
deriving DecidableEq

-- The members are uids; `uidNone` is an empty place.
structure Group where
  name : Text
  gid : ℤ
  members : List ℤ := List.replicate groupMaxMembers uidNone
deriving DecidableEq

structure Db where
  users : SlotTable Account := List.replicate userMaxAccounts none
  groups : SlotTable Group := List.replicate userMaxGroups none
  nextUid : ℤ := userUidFirst
  nextGid : ℤ := 100
deriving DecidableEq

abbrev Salt := Vector UInt8 16
abbrev Key := Vector UInt8 32

abbrev Kdf := Text → List UInt8 → ℕ → Key

def credUid (c : Cred) : ℤ := if c.owner = .user then c.uid else uidNone

def credIsRoot (c : Cred) : Bool := decide (credUid c = uidRoot)

section Lookup

variable (db : Db)

def userByName (name : Text) : Option Account := db.users.find (·.name == name)

def userByUid (uid : ℤ) : Option Account :=
  if uid = uidNone then none else db.users.find (·.uid == uid)

def groupByName (name : Text) : Option Group := db.groups.find (·.name == name)

def groupByGid (gid : ℤ) : Option Group := db.groups.find (·.gid == gid)

def groupHas (g : Group) (uid : ℤ) : Bool := decide (uid ∈ g.members)

def userIsAdminUid (uid : ℤ) : Bool :=
  if uid = uidRoot then true else
  match userByUid db uid with
  | none => false
  | some u => if u.gid = gidAdmin then true else (groupByGid db gidAdmin).any (groupHas · uid)

def usableAdmin (u : Account) : Bool :=
  decide (u.type = userTypePerson) && u.hasPassword && userIsAdminUid db u.uid

def usableAdminCount (excludingUid : ℤ) : ℕ :=
  db.users.live.countP fun u => decide (u.uid ≠ excludingUid) && usableAdmin db u

def wouldStrandMachine (uidLosingAdmin : ℤ) : Bool := usableAdminCount db uidLosingAdmin == 0

def usersNeedsSetup : Bool :=
  db.users.live.all fun u => !(decide (u.type = userTypePerson) && u.hasPassword && !u.pwIsDefault)

def actorIsAdmin (c : Cred) : Bool := credIsAdmin c

def actorIsRoot (c : Cred) : Bool := if c.owner ≠ .user then usersNeedsSetup db else credIsRoot c

end Lookup

section Passwords

variable (kdf : Kdf)

def kdfIterations (conf : ℤ) : ℕ :=
  (if conf < 1000 then 1000 else if 5000000 < conf then 5000000 else conf).toNat

def derive (password saltHex : Text) (iters : ℕ) : Text :=
  toHex (kdf password (fromHex userSaltBytes saltHex) iters).toList

def userCheckPassword (db : Db) (name password : Text) : Bool :=
  match userByName db name with
  | none => false
  | some u =>
    u.hasPassword && decide (u.type = userTypePerson) &&
      hashEqual (derive kdf password u.saltHex u.kdfIters) u.hashHex

def setSecret (password : Text) (salt : Salt) (iters : ℕ) (u : Account) : Account :=
  { u with
    saltHex := toHex salt.toList
    kdfIters := iters
    hashHex := derive kdf password (toHex salt.toList) iters
    hasPassword := true }

end Passwords

def makeGroup (db : Db) (name : Text) (gid : ℤ) : Db :=
  match db.groups.insert { name := name, gid := gid } with
  | none => db
  | some groups => { db with groups := groups }

def rootAccount (kdf : Kdf) (salt : Salt) : Account :=
  { setSecret kdf userDefaultPassword salt userKdfItersDefault
      { name := rootName, uid := uidRoot, gid := gidAdmin, home := "/root".toList
        kdfIters := userKdfItersDefault } with
    pwIsDefault := true }

def usersInit (kdf : Kdf) (salt : Salt) : Db :=
  let db := makeGroup (makeGroup {} adminsName gidAdmin) usersName gidUsers
  match db.users.insert (rootAccount kdf salt) with
  | none => db
  | some users => { db with users := users }

def nameOk (name : Text) : Bool :=
  decide (name ≠ []) && decide (name.length ≤ userNameMax) &&
    name.all fun c => decide (c ∉ [':', ',', '\n', '@', ' '])

section Lifecycle

variable (kdf : Kdf) (db : Db) (c : Cred)

-- Each call gives the database it leaves, `none` for -1. `conf`: the configured iterations.

def newAccount (name : Text) (makeAdmin : Bool) (conf : ℤ) : Account :=
  { name := sCopy (userNameMax + 1) name
    uid := db.nextUid
    gid := if makeAdmin then gidAdmin else gidUsers
    kdfIters := kdfIterations conf
    home := sCat (userPathMax + 1) (sCopy (userPathMax + 1) "/home/".toList) name }

def mayAdd (makeAdmin : Bool) : Bool := if makeAdmin then actorIsRoot db c else actorIsAdmin c

def userAdd (name : Text) (makeAdmin : Bool) (conf : ℤ) : Option Db :=
  if !nameOk name then none
  else if !mayAdd db c makeAdmin then none
  else if (userByName db name).isSome then none
  else (db.users.insert (newAccount db name makeAdmin conf)).map fun users =>
    { db with users := users, nextUid := db.nextUid + 1 }

def mayTouch (u : Account) : Bool :=
  if userIsAdminUid db u.uid then actorIsRoot db c else actorIsAdmin c

def Group.dropMember (uid : ℤ) (g : Group) : Group :=
  { g with members := g.members.map fun m => if m = uid then uidNone else m }

def Group.addMember (uid : ℤ) (g : Group) : Group :=
  { g with members := g.members.replace uidNone uid }

def userDel (name : Text) : Option Db :=
  match userByName db name with
  | none => none
  | some u =>
    if u.uid = uidRoot then none
    else if !mayTouch db c u then none
    else if userIsAdminUid db u.uid && wouldStrandMachine db u.uid then none
    else some { db with
      users := db.users.update (·.name == name) fun _ => none
      groups := db.groups.map (Option.map (Group.dropMember u.uid)) }

def userSetPassword (name password : Text) (salt : Salt) (conf : ℤ) : Option Db :=
  match userByName db name with
  | none => none
  | some u =>
    if !(decide (c.owner = .user) && decide (credUid c = u.uid)) && !mayTouch db c u then none
    else if password = [] then
      if userIsAdminUid db u.uid && wouldStrandMachine db u.uid then none
      else some { db with
        users := db.users.update (·.name == name) fun u => some { u with hasPassword := false } }
    else some { db with
      users := db.users.update (·.name == name) fun u =>
        some { setSecret kdf password salt (kdfIterations conf) u with pwIsDefault := false } }

def userSetAdmin (name : Text) (admin : Bool) : Option Db :=
  match userByName db name with
  | none => none
  | some u =>
    if !actorIsRoot db c then none
    else if u.uid = uidRoot then none
    else if !admin && wouldStrandMachine db u.uid then none
    else match groupByGid db gidAdmin with
    | none => none
    | some g =>
      if admin then
        if groupHas g u.uid then some db
        else if uidNone ∉ g.members then none
        else some { db with
          groups := db.groups.update (·.gid == gidAdmin) fun g => some (g.addMember u.uid) }
      else some { db with
        groups := db.groups.update (·.gid == gidAdmin) fun g => some (g.dropMember u.uid)
        users := db.users.update (·.name == name) fun u =>
          some { u with gid := if u.gid = gidAdmin then gidUsers else u.gid } }

def userSetElevation (name : Text) (mode : ℤ) : Option Db :=
  match userByName db name with
  | none => none
  | some _ =>
    if !actorIsRoot db c then none
    else if mode ≠ userElevPerOp ∧ mode ≠ userElevAlways then none
    else some { db with
      users := db.users.update (·.name == name) fun u => some { u with elevation := mode } }

def groupCreate (name : Text) : Option Db :=
  if !nameOk name then none
  else if !actorIsAdmin c then none
  else if (groupByName db name).isSome then none
  else
    let g : Group := { name := sCopy (userNameMax + 1) name, gid := db.nextGid }
    (db.groups.insert g).map fun groups => { db with groups := groups, nextGid := db.nextGid + 1 }

def groupDestroy (name : Text) : Option Db :=
  match groupByName db name with
  | none => none
  | some g =>
    if g.gid = gidAdmin then none
    else if !actorIsAdmin c then none
    else some { db with groups := db.groups.update (·.name == name) fun _ => none }

def groupAddMember (gname uname : Text) : Option Db :=
  match groupByName db gname, userByName db uname with
  | some g, some u =>
    if g.gid = gidAdmin then userSetAdmin db c uname true
    else if !actorIsAdmin c then none
    else if groupHas g u.uid then some db
    else if uidNone ∉ g.members then none
    else some { db with
      groups := db.groups.update (·.name == gname) fun g => some (g.addMember u.uid) }
  | _, _ => none

def groupDelMember (gname uname : Text) : Option Db :=
  match groupByName db gname, userByName db uname with
  | some g, some u =>
    if g.gid = gidAdmin then userSetAdmin db c uname false
    else if !actorIsAdmin c then none
    else some { db with
      groups := db.groups.update (·.name == gname) fun g => some (g.dropMember u.uid) }
  | _, _ => none

end Lifecycle

-- A lifecycle call with its arguments. Names and passwords are buffers.
inductive Request where
  | userAdd (name : Text) (makeAdmin : Bool) (conf : ℤ)
  | userDel (name : Text)
  | userSetPassword (name password : Text) (salt : Salt) (conf : ℤ)
  | userSetAdmin (name : Text) (admin : Bool)
  | userSetElevation (name : Text) (mode : ℤ)
  | groupCreate (name : Text)
  | groupDestroy (name : Text)
  | groupAddMember (gname uname : Text)
  | groupDelMember (gname uname : Text)
deriving DecidableEq

structure Call where
  actor : Cred
  request : Request
deriving DecidableEq

def Request.perform (kdf : Kdf) (db : Db) (c : Cred) : Request → Option Db
  | .userAdd name makeAdmin conf => Users.userAdd db c (cString name) makeAdmin conf
  | .userDel name => Users.userDel db c (cString name)
  | .userSetPassword name password salt conf =>
    Users.userSetPassword kdf db c (cString name) (cString password) salt conf
  | .userSetAdmin name admin => Users.userSetAdmin db c (cString name) admin
  | .userSetElevation name mode => Users.userSetElevation db c (cString name) mode
  | .groupCreate name => Users.groupCreate db c (cString name)
  | .groupDestroy name => Users.groupDestroy db c (cString name)
  | .groupAddMember gname uname => Users.groupAddMember db c (cString gname) (cString uname)
  | .groupDelMember gname uname => Users.groupDelMember db c (cString gname) (cString uname)

def step (kdf : Kdf) (db : Db) (call : Call) : Db :=
  (call.request.perform kdf db call.actor).getD db

open Option (ite_none_left_eq_some map_eq_some_iff)

def actsFor (c : Cred) (u : Account) : Bool := decide (c.owner = .user) && decide (credUid c = u.uid)

def Request.addsUser : Request → Bool
  | .userAdd .. => true
  | _ => false

def Request.createsGroup : Request → Bool
  | .groupCreate .. => true
  | _ => false

inductive Effect (kdf : Kdf) (db : Db) (c : Cred) (r : Request) : Db → Prop
  | unchanged : Effect kdf db c r db
  | added (name : Text) (makeAdmin : Bool) (conf : ℤ) (users : SlotTable Account)
      (hreq : r.addsUser = true) (hname : nameOk name = true ∧ nul ∉ name)
      (hgate : makeAdmin = true → actorIsRoot db c = true)
      (hfresh : userByName db name = none)
      (hinsert : db.users.insert (newAccount db name makeAdmin conf) = some users) :
      Effect kdf db c r { db with users := users, nextUid := db.nextUid + 1 }
  | removed (u : Account) (hu : userByName db u.name = some u) (hroot : u.uid ≠ uidRoot)
      (hgate : userIsAdminUid db u.uid = true →
        actorIsRoot db c = true ∧ wouldStrandMachine db u.uid = false) :
      Effect kdf db c r { db with
        users := db.users.update (·.name == u.name) fun _ => none
        groups := db.groups.map (Option.map (Group.dropMember u.uid)) }
  | disabled (u : Account) (hu : userByName db u.name = some u)
      (hgate : actsFor c u = true ∨ (userIsAdminUid db u.uid = true → actorIsRoot db c = true))
      (hstrand : userIsAdminUid db u.uid = true → wouldStrandMachine db u.uid = false) :
      Effect kdf db c r { db with
        users := db.users.update (·.name == u.name) fun u => some { u with hasPassword := false } }
  | secured (u : Account) (password : Text) (salt : Salt) (conf : ℤ)
      (hu : userByName db u.name = some u)
      (hgate : actsFor c u = true ∨ (userIsAdminUid db u.uid = true → actorIsRoot db c = true)) :
      Effect kdf db c r { db with
        users := db.users.update (·.name == u.name) fun u =>
          some { setSecret kdf password salt (kdfIterations conf) u with pwIsDefault := false } }
  | elevated (u : Account) (mode : ℤ) (hu : userByName db u.name = some u)
      (hmode : mode = userElevPerOp ∨ mode = userElevAlways) :
      Effect kdf db c r { db with
        users := db.users.update (·.name == u.name) fun u => some { u with elevation := mode } }
  | promoted (u : Account) (hu : userByName db u.name = some u)
      (hgate : actorIsRoot db c = true) :
      Effect kdf db c r { db with
        groups := db.groups.update (·.gid == gidAdmin) fun g => some (g.addMember u.uid) }
  | demoted (u : Account) (hu : userByName db u.name = some u) (hroot : u.uid ≠ uidRoot)
      (hgate : actorIsRoot db c = true) (hstrand : wouldStrandMachine db u.uid = false) :
      Effect kdf db c r { db with
        groups := db.groups.update (·.gid == gidAdmin) fun g => some (g.dropMember u.uid)
        users := db.users.update (·.name == u.name) fun u =>
          some { u with gid := if u.gid = gidAdmin then gidUsers else u.gid } }
  | groupCreated (name : Text) (groups : SlotTable Group) (hreq : r.createsGroup = true)
      (hname : nameOk name = true ∧ nul ∉ name) (hfresh : groupByName db name = none)
      (hinsert : db.groups.insert { name := sCopy (userNameMax + 1) name, gid := db.nextGid } =
        some groups) :
      Effect kdf db c r { db with groups := groups, nextGid := db.nextGid + 1 }
  | groupDestroyed (g : Group) (hg : groupByName db g.name = some g) (hadmin : g.gid ≠ gidAdmin) :
      Effect kdf db c r { db with groups := db.groups.update (·.name == g.name) fun _ => none }
  | joined (g : Group) (u : Account) (hg : groupByName db g.name = some g)
      (hu : userByName db u.name = some u) (hadmin : g.gid ≠ gidAdmin) :
      Effect kdf db c r { db with
        groups := db.groups.update (·.name == g.name) fun g => some (g.addMember u.uid) }
  | left (g : Group) (u : Account) (hg : groupByName db g.name = some g)
      (hadmin : g.gid ≠ gidAdmin) :
      Effect kdf db c r { db with
        groups := db.groups.update (·.name == g.name) fun g => some (g.dropMember u.uid) }

variable {kdf : Kdf} {db db' : Db} {c : Cred} {r : Request} {name : Text}

theorem nul_notMem_cString (buf : Text) : nul ∉ cString buf := by
  intro h
  have hall := List.all_eq_true.mp (List.all_takeWhile (l := buf) (p := (· ≠ nul))) nul h
  simp at hall

theorem userByName_name {u : Account} (h : userByName db name = some u) : u.name = name := by
  simpa using (SlotTable.mem_of_find h).2

theorem groupByName_name {g : Group} (h : groupByName db name = some g) : g.name = name := by
  simpa using (SlotTable.mem_of_find h).2

theorem root_of_mayTouch {u : Account} (h : mayTouch db c u = true)
    (hadmin : userIsAdminUid db u.uid = true) : actorIsRoot db c = true := by
  simpa [mayTouch, hadmin] using h

theorem userAdd_some {makeAdmin : Bool} {conf : ℤ}
    (h : userAdd db c name makeAdmin conf = some db') :
    nameOk name = true ∧ mayAdd db c makeAdmin = true ∧ userByName db name = none ∧
      ∃ users, db.users.insert (newAccount db name makeAdmin conf) = some users ∧
        db' = { db with users := users, nextUid := db.nextUid + 1 } := by
  unfold userAdd at h
  obtain ⟨hname, h⟩ := ite_none_left_eq_some.mp h
  obtain ⟨hgate, h⟩ := ite_none_left_eq_some.mp h
  obtain ⟨hfresh, h⟩ := ite_none_left_eq_some.mp h
  obtain ⟨users, hinsert, rfl⟩ := map_eq_some_iff.mp h
  exact ⟨by simpa using hname, by simpa using hgate, by simpa using hfresh, users, hinsert, rfl⟩

theorem effect_userAdd {makeAdmin : Bool} {conf : ℤ} (hreq : r.addsUser = true)
    (hnul : nul ∉ name) (h : userAdd db c name makeAdmin conf = some db') :
    Effect kdf db c r db' := by
  obtain ⟨hname, hgate, hfresh, users, hinsert, rfl⟩ := userAdd_some h
  refine .added name makeAdmin conf users hreq ⟨hname, hnul⟩ (fun hmake => ?_) hfresh hinsert
  simpa [mayAdd, hmake] using hgate

theorem effect_userDel (h : userDel db c name = some db') : Effect kdf db c r db' := by
  unfold userDel at h
  split at h
  · cases h
  next u hu =>
    obtain rfl := userByName_name hu
    obtain ⟨hroot, h⟩ := ite_none_left_eq_some.mp h
    obtain ⟨hgate, h⟩ := ite_none_left_eq_some.mp h
    obtain ⟨hstrand, h⟩ := ite_none_left_eq_some.mp h
    cases h
    refine .removed u hu hroot fun hadmin => ⟨?_, ?_⟩
    · exact root_of_mayTouch (by simpa using hgate) hadmin
    · simpa [hadmin] using hstrand

theorem effect_userSetPassword {name password : Text} {salt : Salt} {conf : ℤ}
    (h : userSetPassword kdf db c name password salt conf = some db') : Effect kdf db c r db' := by
  unfold userSetPassword at h
  split at h
  · cases h
  next u hu =>
    obtain rfl := userByName_name hu
    obtain ⟨hgate, h⟩ := ite_none_left_eq_some.mp h
    have hmay : actsFor c u = true ∨ (userIsAdminUid db u.uid = true → actorIsRoot db c = true) := by
      cases hself : actsFor c u with
      | true => exact Or.inl rfl
      | false =>
        simp only [actsFor] at hself
        exact Or.inr (root_of_mayTouch (by simpa [hself] using hgate))
    split at h
    · obtain ⟨hstrand, h⟩ := ite_none_left_eq_some.mp h
      cases h
      exact .disabled u hu hmay fun hadmin => by simpa [hadmin] using hstrand
    · cases h
      exact .secured u password salt conf hu hmay

theorem effect_userSetAdmin {admin : Bool}
    (h : userSetAdmin db c name admin = some db') : Effect kdf db c r db' := by
  unfold userSetAdmin at h
  split at h
  · cases h
  next u hu =>
    obtain rfl := userByName_name hu
    obtain ⟨hgate, h⟩ := ite_none_left_eq_some.mp h
    have hgate' : actorIsRoot db c = true := by simpa using hgate
    obtain ⟨hroot, h⟩ := ite_none_left_eq_some.mp h
    obtain ⟨hstrand, h⟩ := ite_none_left_eq_some.mp h
    split at h
    · cases h
    · split at h
      · split at h
        · cases h
          exact .unchanged
        · obtain ⟨-, h⟩ := ite_none_left_eq_some.mp h
          cases h
          exact .promoted u hu hgate'
      next hadmin =>
        cases h
        exact .demoted u hu hroot hgate' (by simpa [hadmin] using hstrand)

theorem effect_userSetElevation {mode : ℤ}
    (h : userSetElevation db c name mode = some db') : Effect kdf db c r db' := by
  unfold userSetElevation at h
  split at h
  · cases h
  next u hu =>
    obtain rfl := userByName_name hu
    obtain ⟨-, h⟩ := ite_none_left_eq_some.mp h
    obtain ⟨hmode, h⟩ := ite_none_left_eq_some.mp h
    cases h
    refine .elevated u mode hu ?_
    tauto

theorem groupCreate_some (h : groupCreate db c name = some db') :
    nameOk name = true ∧ actorIsAdmin c = true ∧ groupByName db name = none ∧
      ∃ groups, db.groups.insert { name := sCopy (userNameMax + 1) name, gid := db.nextGid } =
          some groups ∧
        db' = { db with groups := groups, nextGid := db.nextGid + 1 } := by
  unfold groupCreate at h
  obtain ⟨hname, h⟩ := ite_none_left_eq_some.mp h
  obtain ⟨hgate, h⟩ := ite_none_left_eq_some.mp h
  obtain ⟨hfresh, h⟩ := ite_none_left_eq_some.mp h
  obtain ⟨groups, hinsert, rfl⟩ := map_eq_some_iff.mp h
  exact ⟨by simpa using hname, by simpa using hgate, by simpa using hfresh, groups, hinsert, rfl⟩

theorem effect_groupCreate (hreq : r.createsGroup = true) (hnul : nul ∉ name)
    (h : groupCreate db c name = some db') : Effect kdf db c r db' := by
  obtain ⟨hname, -, hfresh, groups, hinsert, rfl⟩ := groupCreate_some h
  exact .groupCreated name groups hreq ⟨hname, hnul⟩ hfresh hinsert

theorem effect_groupDestroy (h : groupDestroy db c name = some db') : Effect kdf db c r db' := by
  unfold groupDestroy at h
  split at h
  · cases h
  next g hg =>
    obtain rfl := groupByName_name hg
    obtain ⟨hadmin, h⟩ := ite_none_left_eq_some.mp h
    obtain ⟨-, h⟩ := ite_none_left_eq_some.mp h
    cases h
    exact .groupDestroyed g hg hadmin

theorem effect_groupAddMember {gname uname : Text}
    (h : groupAddMember db c gname uname = some db') : Effect kdf db c r db' := by
  unfold groupAddMember at h
  split at h
  next g u hg hu =>
    obtain rfl := groupByName_name hg
    obtain rfl := userByName_name hu
    split at h
    · exact effect_userSetAdmin h
    next hadmin =>
      obtain ⟨-, h⟩ := ite_none_left_eq_some.mp h
      split at h
      · cases h
        exact .unchanged
      · obtain ⟨-, h⟩ := ite_none_left_eq_some.mp h
        cases h
        exact .joined g u hg hu hadmin
  · cases h

theorem effect_groupDelMember {gname uname : Text}
    (h : groupDelMember db c gname uname = some db') : Effect kdf db c r db' := by
  unfold groupDelMember at h
  split at h
  next g u hg hu =>
    obtain rfl := groupByName_name hg
    split at h
    · exact effect_userSetAdmin h
    next hadmin =>
      obtain ⟨-, h⟩ := ite_none_left_eq_some.mp h
      cases h
      exact .left g u hg hadmin
  · cases h

theorem effect_perform (h : r.perform kdf db c = some db') : Effect kdf db c r db' := by
  cases r with
  | userAdd name makeAdmin conf => exact effect_userAdd rfl (nul_notMem_cString name) h
  | userDel name => exact effect_userDel h
  | userSetPassword name password salt conf => exact effect_userSetPassword h
  | userSetAdmin name admin => exact effect_userSetAdmin h
  | userSetElevation name mode => exact effect_userSetElevation h
  | groupCreate name => exact effect_groupCreate rfl (nul_notMem_cString name) h
  | groupDestroy name => exact effect_groupDestroy h
  | groupAddMember gname uname => exact effect_groupAddMember h
  | groupDelMember gname uname => exact effect_groupDelMember h

theorem effect_step (kdf : Kdf) (db : Db) (call : Call) :
    Effect kdf db call.actor call.request (step kdf db call) := by
  unfold step
  cases h : call.request.perform kdf db call.actor with
  | none => exact .unchanged
  | some db' => exact effect_perform h

end DosKernel.Users
